import SqlHighlight.Proofs.Continuation
import SqlHighlight.Proofs.WellFormed
import SqlHighlight.Proofs.Written

namespace SqlHighlight.Literal

theorem StringKind.take_mem_marks {k : StringKind} {cs : List Char} {more : Nat}
    (h : opening? cs = some (.string k, more)) : cs.take (more + 1) ∈ k.marks := by
  unfold opening? at h
  split at h <;> cases h <;> simp [marks]

namespace Cut

theorem endsLine_mode_ofCode (cs : List Char) : (ofCode cs).mode.endsLine = true := by
  fun_induction ofCode cs with
  | case1 => rfl
  | case2 c cs _ ih => exact ih
  | case3 c cs k more _ content h => exact k.endsLine_leftOpen
  | case4 c cs k more _ content rest h _ _ ih => exact ih
  | case5 c cs frame more _ _ inside h =>
    change (if frame = .blockComment then Mode.comment else Mode.code).endsLine = true
    split <;> rfl
  | case6 c cs frame more _ _ inside rest h _ ih => exact ih

theorem endsLine_mode_ofLine (mode : Mode) (line : List Char) :
    (ofLine mode line).mode.endsLine = true := by
  apply ofLine_induction (motive := fun cut => cut.mode.endsLine = true)
  case code => exact endsLine_mode_ofCode
  case behindComment => exact fun _ rest => endsLine_mode_ofCode rest
  case comment => rfl
  case stays => exact fun _ _ hk => hk
  case behindString => exact fun _ _ rest => endsLine_mode_ofCode rest

/-- A cut whose last stretch is what the line holds of the literal that it leaves open, with the mark
of the literal right before it. -/
def OpensAtEnd (cut : Cut) : Prop :=
  ∃ ss p, cut.stretches = ss ++ [.literal p] ∧ cut.mode = .string p.kind ∧ p.openAtEnd = true ∧
    ∃ mark ∈ p.kind.marks, mark <:+ ss.flatMap Stretch.chars

theorem OpensAtEnd.cons {cut : Cut} (h : cut.OpensAtEnd) (s : Stretch) :
    OpensAtEnd ⟨s :: cut.stretches, cut.mode⟩ := by
  obtain ⟨ss, p, hss, hmode, hopen, mark, hmark, hsuffix⟩ := h
  exact ⟨s :: ss, p, by rw [hss, List.cons_append], hmode, hopen, mark, hmark,
    hsuffix.trans (List.suffix_append _ _)⟩

theorem opensAtEnd_ofCode {cs : List Char} (h : (ofCode cs).mode.isVerbatim = true) :
    (ofCode cs).OpensAtEnd := by
  fun_induction ofCode cs with
  | case1 => cases h
  | case2 c cs _ ih => exact (ih h).cons _
  | case3 c cs k more hopening content hrest =>
    have hk : k.verbatim = true := by
      by_contra hk
      simp [StringKind.leftOpen, hk, Mode.isVerbatim] at h
    refine ⟨[.code (c :: cs.take more)], _, rfl, by simp [StringKind.leftOpen, hk], hk,
      (c :: cs).take (more + 1), StringKind.take_mem_marks hopening, ?_⟩
    simp [Stretch.chars]
  | case4 c cs k more _ content rest hrest _ _ ih => exact (((ih h).cons _).cons _).cons _
  | case5 c cs frame more _ _ inside hskip =>
    change (if frame = .blockComment then Mode.comment else Mode.code).isVerbatim = true at h
    split at h <;> cases h
  | case6 c cs frame more _ _ inside rest hskip _ ih => exact (ih h).cons _

theorem opensAtEnd_ofLine {mode : Mode} {line : List Char}
    (h : (ofLine mode line).mode.isVerbatim = true) :
    (ofLine mode line).OpensAtEnd ∨ ∃ p, (ofLine mode line).stretches = [.literal p] ∧
      (ofLine mode line).mode = .string p.kind ∧ p.openAtEnd = true ∧ mode = .string p.kind := by
  revert h
  apply ofLine_induction (motive := fun cut => cut.mode.isVerbatim = true → cut.OpensAtEnd ∨
    ∃ p, cut.stretches = [.literal p] ∧ cut.mode = .string p.kind ∧ p.openAtEnd = true ∧
      mode = .string p.kind)
  case code => exact fun _ h => .inl (opensAtEnd_ofCode h)
  case behindComment => exact fun _ _ h => .inl ((opensAtEnd_ofCode h).cons _)
  case comment =>
    intro h
    cases h
  case stays => exact fun _ hmode _ _ => .inr ⟨_, rfl, rfl, rfl, hmode⟩
  case behindString => exact fun _ _ _ h => .inl (((opensAtEnd_ofCode h).cons _).cons _)

end Cut

/-- A line leaves a literal open, which starts behind its mark, or with the line if it was open before,
and goes on to the end of the line. -/
structure LeavesOpen (mode : Mode) (line before : List Char) (p : Piece) : Prop where
  exists_stretches : ∃ ss, (Cut.ofLine mode line).stretches = ss ++ [.literal p] ∧
    ss.flatMap Stretch.chars = before
  mode_eq : (Cut.ofLine mode line).mode = .string p.kind
  openAtEnd : p.openAtEnd = true
  starts : before = [] ∧ mode = .string p.kind ∨ ∃ mark ∈ p.kind.marks, mark <:+ before

section

variable {mode : Mode} {line before : List Char} {p : Piece}

theorem LeavesOpen.line_eq (h : LeavesOpen mode line before p) :
    line = before ++ p.segments.flatMap Segment.chars := by
  obtain ⟨ss, hss, rfl⟩ := h.exists_stretches
  have hchars := Cut.chars_ofLine mode line
  rw [Cut.chars, hss] at hchars
  simpa [Stretch.chars] using hchars.symm

theorem exists_leavesOpen (h : (Cut.ofLine mode line).mode.isVerbatim = true) :
    ∃ before p, LeavesOpen mode line before p := by
  rcases Cut.opensAtEnd_ofLine h with ⟨ss, p, hss, hmode, hopen, hmark⟩ | ⟨p, hss, hmode, hopen, hk⟩
  · exact ⟨_, p, ⟨ss, hss, rfl⟩, hmode, hopen, .inr hmark⟩
  · exact ⟨[], p, ⟨[], hss, rfl⟩, hmode, hopen, .inl ⟨rfl, hk⟩⟩

end

namespace Part

def fragment (p : Part) : Fragment := p.piece.place p.start

@[simp] theorem range_fragment (p : Part) : p.fragment.range = ⟨p.start, p.stop⟩ := rfl

@[simp] theorem openAtEnd_fragment (p : Part) : p.fragment.openAtEnd = p.piece.openAtEnd := rfl

theorem hasContent_iff {p : Part} : p.hasContent = true ↔ p.chars ≠ [] := by
  simp [hasContent, Piece.width, chars]

theorem start_lt_stop_of_hasContent {p : Part} (h : p.hasContent = true) : p.start < p.stop := by
  have hwidth : p.piece.width ≠ 0 := by simpa [hasContent] using h
  rw [stop]
  omega

theorem place_append (start : Nat) (ss ts : List Stretch) :
    place start (ss ++ ts) =
      place start ss ++ place (start + Text.width (ss.flatMap Stretch.chars)) ts := by
  induction ss generalizing start with
  | nil => rfl
  | cons s ss ih =>
    rw [List.flatMap_cons, Text.width_append, ← Nat.add_assoc]
    cases s with
    | code cs => exact ih _
    | literal p => exact congrArg _ (ih _)

end Part

theorem Piece.IsRead.start_lt_stop_of_mem_holes {p : Piece} (h : p.IsRead) {start : Nat} {hole : Range}
    (hhole : hole ∈ Segment.holes start p.segments) : hole.start < hole.stop := by
  obtain ⟨left, inside, right, -, -, hstop⟩ := h.exists_append_of_mem_holes hhole
  have hpos : 0 < Text.width ('{' :: inside) := Text.width_pos
  omega

theorem Fragment.place_eq_map (start : Nat) (ss : List Stretch) :
    place start ss = ((Part.place start ss).filter Part.hasContent).map Part.fragment := by
  induction ss generalizing start with
  | nil => rfl
  | cons s ss ih =>
    cases s with
    | code cs => exact ih _
    | literal p =>
      rw [place, Part.place, List.filter_cons]
      split
      next h => simpa [Part.hasContent, h] using ih _
      next h => simpa [Part.hasContent, h, Part.fragment] using ih _

section

variable {mode : Mode} {k : StringKind} {l : Line} {p : Part}

theorem exists_partsOf_eq_cons (hk : k.verbatim = true) (l : Line) :
    ∃ p ps, partsOf (.string k) l = p :: ps ∧ p.start = l.start ∧ p.piece.kind = k ∧
      p.chars = (Content.read k l.text).chars ∧ p.piece.continued = true ∧
      ∀ q ∈ ps, q.piece.continued = false := by
  cases hrest : (Content.read k l.text).rest with
  | none =>
    rw [partsOf, Cut.ofLine_of_rest_eq_none hk hrest]
    exact ⟨_, [], rfl, rfl, rfl, rfl, rfl, by simp⟩
  | some rest =>
    rw [partsOf, Cut.ofLine_of_rest_eq_some hk hrest]
    refine ⟨_, _, rfl, rfl, rfl, rfl, rfl, ?_⟩
    intro q hq
    have hpiece : q.piece ∈ (Cut.ofCode rest).pieces := by
      rw [Cut.pieces, ← Part.map_piece_place]
      exact List.mem_map_of_mem hq
    exact ((Cut.opensInto_ofCode rest).of_mem hpiece).2.1

theorem exists_of_continued (hp : p ∈ partsOf mode l) (hcontinued : p.piece.continued = true) :
    ∃ k, mode = .string k ∧ k.verbatim = true ∧ p.start = l.start ∧ p.piece.kind = k ∧
      p.chars = (Content.read k l.text).chars := by
  cases hmode : mode.isVerbatim with
  | false =>
    have hfalse := ((opensInto_partsOf hmode l).of_mem (List.mem_map_of_mem hp)).2.1
    simp [hfalse] at hcontinued
  | true =>
    obtain ⟨k, rfl⟩ := Mode.exists_eq_string hmode
    obtain ⟨q, qs, hqs, hstart, hkind, hchars, -, hrest⟩ := exists_partsOf_eq_cons hmode l
    rw [hqs] at hp
    rcases List.mem_cons.1 hp with rfl | hp
    · exact ⟨k, rfl, hmode, hstart, hkind, hchars⟩
    · simp [hrest p hp] at hcontinued

theorem nextMode_of_mem_partsOf (hp : p ∈ partsOf mode l) (hopen : p.piece.openAtEnd = true) :
    nextMode mode l.text = .string p.piece.kind ∧ p.piece.kind.verbatim = true := by
  cases hmode : mode.isVerbatim with
  | false => exact ((opensInto_partsOf hmode l).of_mem (List.mem_map_of_mem hp)).2.2 hopen
  | true =>
    obtain ⟨k, rfl⟩ := Mode.exists_eq_string hmode
    obtain ⟨q, qs, hqs, -, rfl, -, hend⟩ := exists_partsOf hmode l
    rw [hqs] at hp
    rcases hend with ⟨-, rfl, hnext⟩ | ⟨hclosed, hinto⟩
    · obtain rfl := List.mem_singleton.1 hp
      exact ⟨hnext, hmode⟩
    · rcases List.mem_cons.1 hp with rfl | hp
      · simp [hclosed] at hopen
      · exact (hinto.of_mem (List.mem_map_of_mem hp)).2.2 hopen

theorem pairwise_flags_partsOf (mode : Mode) (l : Line) :
    (partsOf mode l).Pairwise fun p q =>
      p.stop < q.start ∧ p.piece.openAtEnd = false ∧ q.piece.continued = false := by
  refine (pairwise_partsOf mode l).imp_of_mem ?_
  intro p q hp hq hlt
  refine ⟨hlt, Bool.eq_false_iff.2 fun hopen => ?_, Bool.eq_false_iff.2 fun hcontinued => ?_⟩
  · have hend := stop_eq_of_mem_partsOf hp hopen
    have hle := stop_le_of_mem_partsOf hq
    have hq : q.start ≤ q.stop := Nat.le_add_right _ _
    omega
  · obtain ⟨k, -, -, hstart, -⟩ := exists_of_continued hq hcontinued
    have hle := le_start_of_mem_partsOf hp
    have hp : p.start ≤ p.stop := Nat.le_add_right _ _
    omega

end

def aloneLine (line : List Char) : Line := ⟨0, 0, line, []⟩

@[simp] theorem stop_aloneLine (line : List Char) : (aloneLine line).stop = Text.width line :=
  Nat.zero_add _

theorem fragments_scanLine (mode : Mode) (line : List Char) :
    (scanLine mode line).fragments =
      ((partsOf mode (aloneLine line)).filter Part.hasContent).map Part.fragment := by
  rw [scanLine_eq]
  exact Fragment.place_eq_map 0 _

section

variable {mode : Mode} {line before : List Char} {f : Fragment} {p : Piece}

theorem mem_fragments_scanLine :
    f ∈ (scanLine mode line).fragments ↔
      ∃ q ∈ partsOf mode (aloneLine line), q.hasContent = true ∧ q.fragment = f := by
  rw [fragments_scanLine, List.mem_map]
  simp only [List.mem_filter, and_assoc]

theorem pairwise_fragments_scanLine (mode : Mode) (line : List Char) :
    (scanLine mode line).fragments.Pairwise fun f g =>
      f.range.stop < g.range.start ∧ f.openAtEnd = false ∧ g.continued = false := by
  rw [fragments_scanLine, List.pairwise_map]
  exact (pairwise_flags_partsOf mode (aloneLine line)).sublist List.filter_sublist

theorem exists_continued_iff :
    (∃ f ∈ (scanLine mode line).fragments, f.continued = true) ↔
      ∃ k, mode = .string k ∧ k.verbatim = true ∧ (Content.read k line).chars ≠ [] := by
  constructor
  · rintro ⟨f, hf, hcontinued⟩
    obtain ⟨q, hq, hcontent, rfl⟩ := mem_fragments_scanLine.1 hf
    obtain ⟨k, rfl, hk, -, -, hchars⟩ := exists_of_continued hq hcontinued
    refine ⟨k, rfl, hk, ?_⟩
    change (Content.read k (aloneLine line).text).chars ≠ []
    rw [← hchars]
    exact Part.hasContent_iff.1 hcontent
  · rintro ⟨k, rfl, hk, hne⟩
    obtain ⟨q, qs, hqs, -, -, hchars, hcontinued, -⟩ := exists_partsOf_eq_cons hk (aloneLine line)
    have hcontent : q.hasContent = true := Part.hasContent_iff.2 (by rw [hchars]; exact hne)
    have hq : q ∈ partsOf (.string k) (aloneLine line) := by
      rw [hqs]
      exact List.mem_cons_self
    exact ⟨q.fragment, mem_fragments_scanLine.2 ⟨q, hq, hcontent, rfl⟩, hcontinued⟩

theorem LeavesOpen.exists_partsOf_eq_append (h : LeavesOpen mode line before p) :
    ∃ qs q, partsOf mode (aloneLine line) = qs ++ [q] ∧ q.piece = p := by
  obtain ⟨ss, hss, -⟩ := h.exists_stretches
  have hplace := Part.place_append 0 ss [.literal p]
  rw [← hss] at hplace
  exact ⟨_, _, hplace, rfl⟩

theorem LeavesOpen.forall_openAtEnd_iff (h : LeavesOpen mode line before p) :
    (∀ f ∈ (scanLine mode line).fragments, f.openAtEnd = false) ↔ line = before := by
  obtain ⟨qs, q, hparts, rfl⟩ := h.exists_partsOf_eq_append
  have hempty : line = before ↔ q.chars = [] := by
    conv_lhs => rw [h.line_eq]
    exact List.append_right_eq_self
  have hclosed := pairwise_flags_partsOf mode (aloneLine line)
  rw [hparts, List.pairwise_append] at hclosed
  rw [hempty]
  constructor
  · intro hnone
    by_contra hne
    have hq : q ∈ partsOf mode (aloneLine line) := by simp [hparts]
    have hfalse := hnone _ (mem_fragments_scanLine.2 ⟨q, hq, Part.hasContent_iff.2 hne, rfl⟩)
    simp [h.openAtEnd] at hfalse
  · intro hnil f hf
    obtain ⟨r, hr, hcontent, rfl⟩ := mem_fragments_scanLine.1 hf
    rw [hparts, List.mem_append] at hr
    rcases hr with hr | hr
    · exact (hclosed.2.2 r hr q (List.mem_singleton_self q)).2.1
    · obtain rfl := List.mem_singleton.1 hr
      exact absurd hnil (Part.hasContent_iff.1 hcontent)

end

/-- The fragments of a line, and the mode it ends in, tell the same story. -/
structure LineScan.IsConsistent (mode : Mode) (line : List Char) (scan : LineScan) : Prop where
  endsLine : scan.mode.endsLine = true
  start_lt_stop : ∀ f ∈ scan.fragments, f.range.start < f.range.stop
  stop_le : ∀ f ∈ scan.fragments, f.range.stop ≤ Text.width line
  inOrder_holes : ∀ f ∈ scan.fragments, Range.InOrder f.range.start f.holes f.range.stop
  hole_start_lt_stop : ∀ f ∈ scan.fragments, ∀ hole ∈ f.holes, hole.start < hole.stop
  /-- Fragments stand apart; only the last can be left open, and only the first can go on. -/
  pairwise : scan.fragments.Pairwise fun f g =>
    f.range.stop < g.range.start ∧ f.openAtEnd = false ∧ g.continued = false
  exists_continued_iff : (∃ f ∈ scan.fragments, f.continued = true) ↔
    ∃ k, mode = .string k ∧ k.verbatim = true ∧ (Content.read k line).chars ≠ []
  of_continued : ∀ f ∈ scan.fragments, f.continued = true →
    f.range.start = 0 ∧ f.interpolated = mode.isInterpolated
  of_openAtEnd : ∀ f ∈ scan.fragments, f.openAtEnd = true →
    f.range.stop = Text.width line ∧ scan.mode = .string ⟨true, f.interpolated⟩
  /-- Without a fragment that is left open, what is left open starts where the line ends. -/
  exists_leavesOpen : scan.mode.isVerbatim = true →
    ∃ before p, LeavesOpen mode line before p ∧
      ((∀ f ∈ scan.fragments, f.openAtEnd = false) ↔ line = before)

theorem isConsistent_scanLine (mode : Mode) (line : List Char) :
    (scanLine mode line).IsConsistent mode line := by
  constructor
  case endsLine =>
    rw [scanLine_eq]
    exact Cut.endsLine_mode_ofLine mode line
  case start_lt_stop =>
    intro f hf
    obtain ⟨p, -, hcontent, rfl⟩ := mem_fragments_scanLine.1 hf
    exact Part.start_lt_stop_of_hasContent hcontent
  case stop_le =>
    intro f hf
    obtain ⟨p, hp, -, rfl⟩ := mem_fragments_scanLine.1 hf
    simpa using stop_le_of_mem_partsOf hp
  case inOrder_holes =>
    intro f hf
    obtain ⟨p, -, -, rfl⟩ := mem_fragments_scanLine.1 hf
    exact Segment.inOrder_holes _ _
  case hole_start_lt_stop =>
    intro f hf hole hhole
    obtain ⟨p, hp, -, rfl⟩ := mem_fragments_scanLine.1 hf
    exact (isRead_of_mem_partsOf hp).start_lt_stop_of_mem_holes hhole
  case pairwise => exact pairwise_fragments_scanLine mode line
  case exists_continued_iff => exact exists_continued_iff
  case of_continued =>
    intro f hf hcontinued
    obtain ⟨p, hp, -, rfl⟩ := mem_fragments_scanLine.1 hf
    obtain ⟨k, rfl, -, hstart, hkind, -⟩ := exists_of_continued hp hcontinued
    exact ⟨hstart, congrArg StringKind.interpolated hkind⟩
  case of_openAtEnd =>
    intro f hf hopen
    obtain ⟨p, hp, -, rfl⟩ := mem_fragments_scanLine.1 hf
    obtain ⟨hmode, hk⟩ := nextMode_of_mem_partsOf hp hopen
    refine ⟨by simpa using stop_eq_of_mem_partsOf hp hopen, ?_⟩
    rw [← hk]
    exact hmode
  case exists_leavesOpen =>
    intro hmode
    rw [scanLine_eq] at hmode
    obtain ⟨before, p, hleaves⟩ := exists_leavesOpen hmode
    exact ⟨before, p, hleaves, hleaves.forall_openAtEnd_iff⟩

end SqlHighlight.Literal
