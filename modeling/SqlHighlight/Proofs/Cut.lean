import SqlHighlight.Proofs.Grammar

namespace SqlHighlight.Literal

theorem bracesMove_ne_leave (cs : List Char) (more : Nat) : bracesMove cs ≠ .leave more := by
  unfold bracesMove
  split <;> simp

theorem StringKind.eq_of_move_leave {k : StringKind} {c : Char} {cs : List Char} {more : Nat}
    (h : k.move (c :: cs) = .leave more) : c = '"' ∧ more = 0 := by
  unfold move at h
  split at h
  · simp at h
  · simp at h
  · next heq _ =>
    exact ⟨(List.cons.inj heq).1, (Move.leave.inj h).symm⟩
  · split at h
    · exact absurd h (bracesMove_ne_leave _ _)
    · simp at h

theorem StringKind.move_ne_enter {k : StringKind} (hk : k.interpolated = false) (cs : List Char)
    (frame : Frame) (more : Nat) : k.move cs ≠ .enter frame more := by
  unfold move
  split <;> simp [hk]

theorem StringKind.eq_of_move_enter {k : StringKind} {c : Char} {cs : List Char} {frame : Frame}
    {more : Nat} (h : k.move (c :: cs) = .enter frame more) : c = '{' := by
  unfold move at h
  split at h
  · simp at h
  · simp at h
  · simp at h
  · split at h
    · unfold bracesMove at h
      split at h <;> simp_all
    · simp at h

theorem Mode.exists_eq_string {mode : Mode} (h : mode.isVerbatim = true) :
    ∃ k, mode = .string k := by
  cases mode with
  | string k => exact ⟨k, rfl⟩
  | code => cases h
  | comment => cases h

namespace Content

@[simp] theorem chars_cons (s : Segment) (content : Content) :
    (content.cons s).chars = s.chars ++ content.chars := rfl

theorem append_read (k : StringKind) (cs : List Char) :
    (read k cs).chars ++ ((read k cs).rest.map ('"' :: ·)).getD [] = cs := by
  fun_induction read k cs with
  | case1 => rfl
  | case2 c cs more _ ih => simp [Segment.chars, ih]
  | case3 c cs more h =>
    obtain ⟨rfl, rfl⟩ := StringKind.eq_of_move_leave h
    rfl
  | case4 c cs frame more _ inside h =>
    have := append_skip more [frame] cs
    rw [h] at this
    simpa [chars, Segment.chars] using this
  | case5 c cs frame more _ inside rest h _ ih =>
    have := append_skip more [frame] cs
    rw [h] at this
    simpa [Segment.chars, ih] using this

theorem chars_ne_nil_of_mem_segments {k : StringKind} {cs : List Char} {s : Segment}
    (h : s ∈ (read k cs).segments) : s.chars ≠ [] := by
  fun_induction read k cs with
  | case1 => simp at h
  | case2 c cs more _ ih =>
    rcases List.mem_cons.1 h with rfl | h
    · simp [Segment.chars]
    · exact ih h
  | case3 => simp at h
  | case4 => simp_all [Segment.chars]
  | case5 c cs frame more _ inside rest _ _ ih =>
    rcases List.mem_cons.1 h with rfl | h
    · simp [Segment.chars]
    · exact ih h

theorem exists_eq_of_hole_mem_segments {k : StringKind} {cs hole : List Char}
    (h : .hole hole ∈ (read k cs).segments) : ∃ inside, hole = '{' :: inside := by
  fun_induction read k cs with
  | case1 => simp at h
  | case2 c cs more _ ih =>
    rcases List.mem_cons.1 h with h | h
    · cases h
    · exact ih h
  | case3 => simp at h
  | case4 c cs frame more hmove inside _ =>
    obtain rfl := StringKind.eq_of_move_enter hmove
    exact ⟨inside, by simpa using h⟩
  | case5 c cs frame more hmove inside rest _ _ ih =>
    rcases List.mem_cons.1 h with h | h
    · obtain rfl := StringKind.eq_of_move_enter hmove
      exact ⟨inside, Segment.hole.inj h⟩
    · exact ih h

theorem holes_read {k : StringKind} (hk : k.interpolated = false) (cs : List Char) (start : Nat) :
    Segment.holes start (read k cs).segments = [] := by
  fun_induction read k cs generalizing start with
  | case1 => rfl
  | case2 c cs more _ ih => exact ih _
  | case3 => rfl
  | case4 c cs frame more h => exact absurd h (k.move_ne_enter hk _ _ _)
  | case5 c cs frame more h => exact absurd h (k.move_ne_enter hk _ _ _)

end Content

theorem Segment.holes_of_width_eq_zero {ss : List Segment} (hne : ∀ s ∈ ss, s.chars ≠ [])
    (h : Text.width (ss.flatMap chars) = 0) (start : Nat) : holes start ss = [] := by
  cases ss with
  | nil => rfl
  | cons s ss =>
    rw [Text.width_eq_zero, List.flatMap_cons, List.append_eq_nil_iff] at h
    exact absurd h.1 (hne s List.mem_cons_self)

namespace Piece

def IsRead (p : Piece) : Prop := ∃ cs, p.segments = (Content.read p.kind cs).segments

theorem IsRead.holes_eq_nil {p : Piece} (hp : p.IsRead) (start : Nat)
    (h : p.kind.interpolated = false ∨ p.width = 0) : Segment.holes start p.segments = [] := by
  obtain ⟨cs, hcs⟩ := hp
  rcases h with hk | hw
  · rw [hcs, Content.holes_read hk]
  · rw [width] at hw
    apply Segment.holes_of_width_eq_zero _ hw
    intro s hs
    rw [hcs] at hs
    exact Content.chars_ne_nil_of_mem_segments hs

end Piece

def Stretch.chars : Stretch → List Char
  | .code cs => cs
  | .literal p => p.segments.flatMap Segment.chars

def Stretch.piece? : Stretch → Option Piece
  | .code _ => none
  | .literal p => some p

namespace Cut

def chars (cut : Cut) : List Char := cut.stretches.flatMap Stretch.chars

def pieces (cut : Cut) : List Piece := cut.stretches.filterMap Stretch.piece?

@[simp] theorem mode_code (cs : List Char) (cut : Cut) : (cut.code cs).mode = cut.mode := rfl

@[simp] theorem chars_code (cs : List Char) (cut : Cut) : (cut.code cs).chars = cs ++ cut.chars :=
  rfl

@[simp] theorem chars_literal (p : Piece) (cut : Cut) :
    (cut.literal p).chars = p.segments.flatMap Segment.chars ++ cut.chars := rfl

theorem chars_ofCode (cs : List Char) : (ofCode cs).chars = cs := by
  fun_induction ofCode cs with
  | case1 => rfl
  | case2 c cs _ ih => simp [ih]
  | case3 c cs k more _ content h =>
    have : content.chars ++ _ = cs.drop more := Content.append_read k (cs.drop more)
    rw [h] at this
    change (c :: cs.take more) ++ (content.chars ++ []) = c :: cs
    change content.chars ++ [] = cs.drop more at this
    simp [this]
  | case4 c cs k more _ content rest h _ _ ih =>
    have : content.chars ++ _ = cs.drop more := Content.append_read k (cs.drop more)
    rw [h] at this
    change (c :: cs.take more) ++ (content.chars ++ '"' :: (ofCode rest).chars) = c :: cs
    rw [ih]
    change content.chars ++ '"' :: rest = cs.drop more at this
    simp [this]
  | case5 c cs frame more _ _ inside h =>
    have := append_skip more [frame] cs
    rw [h] at this
    simpa [chars, Stretch.chars] using this
  | case6 c cs frame more _ _ inside rest h _ ih =>
    have := append_skip more [frame] cs
    rw [h] at this
    simpa [ih] using this

/-- Pieces of literals that a line opens one after the other: each is closed again, but the last
may be left open in the mode that the line ends in. -/
def OpensInto (mode : Mode) : List Piece → Prop
  | [] => mode.isVerbatim = false
  | p :: ps =>
    p.IsRead ∧ p.continued = false ∧
      if p.openAtEnd then ps = [] ∧ mode = .string p.kind ∧ p.kind.verbatim = true
      else OpensInto mode ps

theorem OpensInto.of_mem {mode : Mode} {p : Piece} {ps : List Piece} (h : OpensInto mode ps)
    (hp : p ∈ ps) :
    p.IsRead ∧ p.continued = false ∧
      (p.openAtEnd = true → mode = .string p.kind ∧ p.kind.verbatim = true) := by
  induction ps with
  | nil => cases hp
  | cons q qs ih =>
    obtain ⟨hread, hcontinued, hrest⟩ := h
    rcases List.mem_cons.1 hp with rfl | hp
    · refine ⟨hread, hcontinued, fun hopen => ?_⟩
      rw [if_pos hopen] at hrest
      exact hrest.2
    · split at hrest
      · simp [hrest.1] at hp
      · exact ih hrest hp

theorem OpensInto.isRead {mode : Mode} {p : Piece} {ps : List Piece} (h : OpensInto mode ps)
    (hp : p ∈ ps) : p.IsRead := (h.of_mem hp).1

theorem OpensInto.exists_eq_append {mode : Mode} {ps : List Piece} (h : OpensInto mode ps)
    (hmode : mode.isVerbatim = true) : ∃ init p, ps = init ++ [p] ∧ mode = .string p.kind := by
  induction ps with
  | nil => simp [OpensInto, hmode] at h
  | cons q qs ih =>
    obtain ⟨-, -, hrest⟩ := h
    split at hrest
    · obtain ⟨rfl, hq, -⟩ := hrest
      exact ⟨[], q, rfl, hq⟩
    · obtain ⟨init, p, rfl, hp⟩ := ih hrest
      exact ⟨q :: init, p, rfl, hp⟩

theorem opensInto_ofCode (cs : List Char) : OpensInto (ofCode cs).mode (ofCode cs).pieces := by
  fun_induction ofCode cs with
  | case1 => rfl
  | case2 c cs _ ih => exact ih
  | case3 c cs k more _ content h =>
    refine ⟨⟨_, rfl⟩, rfl, ?_⟩
    cases hk : k.verbatim <;> simp [hk, StringKind.leftOpen, OpensInto, Mode.isVerbatim]
  | case4 c cs k more _ content rest h _ _ ih => exact ⟨⟨_, rfl⟩, rfl, ih⟩
  | case5 c cs frame more _ _ inside h =>
    change (if frame = .blockComment then Mode.comment else Mode.code).isVerbatim = false
    split <;> rfl
  | case6 c cs frame more _ _ inside rest h _ ih => exact ih

theorem ofLine_of_rest_eq_none {k : StringKind} (hk : k.verbatim = true) {line : List Char}
    (h : (Content.read k line).rest = none) :
    ofLine (.string k) line =
      ⟨[.literal ⟨k, (Content.read k line).segments, true, true⟩], .string k⟩ := by
  simp [ofLine, hk, h]

theorem ofLine_of_rest_eq_some {k : StringKind} (hk : k.verbatim = true) {line rest : List Char}
    (h : (Content.read k line).rest = some rest) :
    ofLine (.string k) line =
      ((ofCode rest).code ['"']).literal ⟨k, (Content.read k line).segments, true, false⟩ := by
  simp [ofLine, hk, h]

theorem ofLine_of_verbatim_eq_false {k : StringKind} (hk : k.verbatim = false)
    (line : List Char) : ofLine (.string k) line = ofCode line := by
  simp [ofLine, hk]

theorem ofLine_induction {motive : Cut → Prop} {mode : Mode} {line : List Char}
    (code : ∀ rest, motive (ofCode rest))
    (behindComment : ∀ inside rest, motive ((ofCode rest).code inside))
    (comment : motive ⟨[.code line], .comment⟩)
    (stays : ∀ k : StringKind, mode = .string k → k.verbatim = true →
      motive ⟨[.literal ⟨k, (Content.read k line).segments, true, true⟩], .string k⟩)
    (behindString : ∀ (k : StringKind) segments rest,
      motive (((ofCode rest).code ['"']).literal ⟨k, segments, true, false⟩)) :
    motive (ofLine mode line) := by
  cases mode with
  | code => exact code line
  | comment =>
    rw [ofLine]
    split
    · exact comment
    · exact behindComment _ _
  | string k =>
    cases hk : k.verbatim with
    | false =>
      rw [ofLine_of_verbatim_eq_false hk]
      exact code line
    | true =>
      cases h : (Content.read k line).rest with
      | none =>
        rw [ofLine_of_rest_eq_none hk h]
        exact stays k rfl hk
      | some rest =>
        rw [ofLine_of_rest_eq_some hk h]
        exact behindString k _ rest

theorem chars_ofLine (mode : Mode) (line : List Char) : (ofLine mode line).chars = line := by
  cases mode with
  | code => exact chars_ofCode line
  | comment =>
    have := append_skip 0 [.blockComment] line
    rw [ofLine]
    split
    · simp [chars, Stretch.chars]
    · next inside rest h =>
      rw [h] at this
      simpa [chars_ofCode] using this
  | string k =>
    cases hk : k.verbatim with
    | false => rw [ofLine_of_verbatim_eq_false hk, chars_ofCode]
    | true =>
      have := Content.append_read k line
      cases h : (Content.read k line).rest with
      | none =>
        rw [h] at this
        rw [ofLine_of_rest_eq_none hk h]
        simpa [chars, Stretch.chars, Content.chars] using this
      | some rest =>
        rw [h] at this
        rw [ofLine_of_rest_eq_some hk h]
        simpa [chars_ofCode, Content.chars] using this

theorem ofLine_nil {mode : Mode} (h : mode.isVerbatim = false) :
    (ofLine mode []).pieces = [] ∧ (ofLine mode []).mode.isVerbatim = false := by
  cases mode with
  | code => simp [ofLine, ofCode, pieces, Mode.isVerbatim]
  | comment => exact ⟨rfl, rfl⟩
  | string k =>
    rw [ofLine_of_verbatim_eq_false h]
    simp [ofCode, pieces, Mode.isVerbatim]

theorem opensInto_ofLine {mode : Mode} (h : mode.isVerbatim = false) (line : List Char) :
    OpensInto (ofLine mode line).mode (ofLine mode line).pieces := by
  cases mode with
  | code => exact opensInto_ofCode line
  | comment =>
    rw [ofLine]
    split
    · rfl
    · exact opensInto_ofCode _
  | string k =>
    rw [ofLine_of_verbatim_eq_false h]
    exact opensInto_ofCode line

theorem exists_pieces_ofLine {k : StringKind} (hk : k.verbatim = true) (line : List Char) :
    ∃ p ps, (ofLine (.string k) line).pieces = p :: ps ∧ p.IsRead ∧ p.kind = k ∧
      p.continued = true ∧
      (p.openAtEnd = true ∧ ps = [] ∧ (ofLine (.string k) line).mode = .string k ∨
        p.openAtEnd = false ∧ OpensInto (ofLine (.string k) line).mode ps) := by
  cases h : (Content.read k line).rest with
  | none =>
    rw [ofLine_of_rest_eq_none hk h]
    exact ⟨_, [], rfl, ⟨_, rfl⟩, rfl, rfl, .inl ⟨rfl, rfl, rfl⟩⟩
  | some rest =>
    rw [ofLine_of_rest_eq_some hk h]
    exact ⟨_, _, rfl, ⟨_, rfl⟩, rfl, rfl, .inr ⟨rfl, opensInto_ofCode rest⟩⟩

theorem isRead_of_mem_pieces {mode : Mode} {line : List Char} {p : Piece}
    (hp : p ∈ (ofLine mode line).pieces) : p.IsRead := by
  cases hmode : mode.isVerbatim with
  | false => exact (opensInto_ofLine hmode line).isRead hp
  | true =>
    obtain ⟨k, rfl⟩ := Mode.exists_eq_string hmode
    obtain ⟨q, qs, hqs, hread, -, -, hend⟩ := exists_pieces_ofLine hmode line
    rw [hqs] at hp
    rcases List.mem_cons.1 hp with rfl | hp
    · exact hread
    · rcases hend with ⟨-, rfl, -⟩ | ⟨-, hinto⟩
      · cases hp
      · exact hinto.isRead hp

def Spaced : List Stretch → Prop
  | [] => True
  | .code _ :: ss => Spaced ss
  | [.literal _] => True
  | .literal _ :: s :: ss => (∃ c cs, s = .code (c :: cs)) ∧ Spaced (s :: ss)

theorem spaced_ofCode (cs : List Char) : Spaced (ofCode cs).stretches := by
  fun_induction ofCode cs with
  | case1 => trivial
  | case2 c cs _ ih => exact ih
  | case3 c cs k more _ content h => trivial
  | case4 c cs k more _ content rest h _ _ ih => exact ⟨⟨_, _, rfl⟩, ih⟩
  | case5 c cs frame more _ _ inside h => trivial
  | case6 c cs frame more _ _ inside rest h _ ih => exact ih

theorem spaced_ofLine (mode : Mode) (line : List Char) : Spaced (ofLine mode line).stretches := by
  apply ofLine_induction (motive := fun cut => Spaced cut.stretches)
  case code => exact spaced_ofCode
  case behindComment => exact fun _ rest => spaced_ofCode rest
  case comment => trivial
  case stays => exact fun _ _ _ => trivial
  case behindString => exact fun _ _ rest => ⟨⟨_, _, rfl⟩, spaced_ofCode rest⟩

end Cut

end SqlHighlight.Literal
