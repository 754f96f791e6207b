import SqlHighlight.Proofs.Query
import SqlHighlight.Proofs.Seams

namespace SqlHighlight

theorem Range.shift_injective (n : Nat) : Function.Injective (shift n) := by
  intro r s h
  obtain ⟨hstart, hstop⟩ := Range.mk.inj h
  cases r
  cases s
  simp_all

namespace Literal

def shift (n : Nat) (l : Literal) : Literal :=
  ⟨l.range.shift n, l.interpolated, l.holes.map (·.shift n)⟩

theorem shift_injective (n : Nat) : Function.Injective (shift n) := by
  intro l m h
  obtain ⟨hrange, hinterpolated, hholes⟩ := Literal.mk.inj h
  have hrange := Range.shift_injective n hrange
  have hholes := List.map_injective_iff.2 (Range.shift_injective n) hholes
  cases l
  cases m
  simp_all

theorem absorb_shift (n : Nat) (l m : Literal) :
    (l.absorb m).shift n = (l.shift n).absorb (m.shift n) := by
  simp [absorb, shift, Range.shift]

theorem ofFragment_add (start n : Nat) (f : Fragment) :
    ofFragment (start + n) f = (ofFragment start f).shift n := by
  simp [ofFragment, shift, Range.shift, Function.comp_def, Nat.add_assoc]

theorem stop_of_join {x : Option Literal} {l m : Literal} (h : join x (some l) = some m) :
    m.range.stop = l.range.stop := by
  cases x <;> cases h <;> rfl

theorem start_of_join {x : Option Literal} {l m : Literal} (h : join (some l) x = some m) :
    m.range.start = l.range.start := by
  cases x <;> cases h <;> rfl

namespace Assembly

def shift (n : Nat) (a : Assembly) : Assembly :=
  ⟨a.done.map (Literal.shift n), a.pending.map (Literal.shift n)⟩

section

variable {n : Nat} {a : Assembly}

@[simp] theorem flush_shift : (a.shift n).flush = a.flush.shift n := by
  cases h : a.pending <;> simp [flush, shift, h]

theorem add_shift (start : Nat) (f : Fragment) :
    (a.shift n).add (start + n) f = (a.add start f).shift n := by
  cases hc : f.continued <;> cases ho : f.openAtEnd <;> cases hp : a.pending <;>
    simp [add, ofFragment_add, shift, flush, finish, absorb_shift, hc, ho, hp]

theorem addLine_shift (start : Nat) (scan : LineScan) :
    (a.shift n).addLine (start + n) scan = (a.addLine start scan).shift n := by
  have hadd : scan.fragments.foldl (add (start + n)) (a.shift n) =
      (scan.fragments.foldl (add start) a).shift n := by
    induction scan.fragments generalizing a with
    | nil => rfl
    | cons f fs ih => rw [List.foldl_cons, add_shift, ih, List.foldl_cons]
  rw [addLine, addLine, hadd]
  split <;> simp

theorem addLines_map_moved (mode : Mode) (number : Nat) (ls : List Line) :
    (a.shift n).addLines mode (ls.map (Line.moved number n)) = (a.addLines mode ls).shift n := by
  induction ls generalizing mode a with
  | nil => rfl
  | cons l ls ih =>
    change ((a.shift n).addLine (l.start + n) (scanLine mode l.text)).addLines _ _ = _
    rw [addLine_shift]
    exact ih _

end

end Assembly

/-- Lines without content, each of which starts inside a verbatim string and ends inside one. -/
def Carried : Mode → List Line → Prop
  | mode, [] => mode.isVerbatim = true
  | mode, l :: ls =>
    mode.isVerbatim = true ∧ (scanLine mode l.text).fragments = [] ∧
      Carried (nextMode mode l.text) ls

def decidableCarried : (mode : Mode) → (ls : List Line) → Decidable (Carried mode ls)
  | mode, [] => inferInstanceAs (Decidable (mode.isVerbatim = true))
  | mode, l :: ls =>
    have := decidableCarried (nextMode mode l.text) ls
    inferInstanceAs (Decidable (_ ∧ _ ∧ _))

instance (mode : Mode) (ls : List Line) : Decidable (Carried mode ls) := decidableCarried mode ls

section

variable {mode : Mode} {xs ys : List Line} {l : Line}

theorem Carried.concat (h : Carried mode xs)
    (hline : (scanLine (modeAfter mode xs) l.text).fragments = [])
    (hnext : (nextMode (modeAfter mode xs) l.text).isVerbatim = true) : Carried mode (xs ++ [l]) := by
  induction xs generalizing mode with
  | nil => exact ⟨h, hline, hnext⟩
  | cons x xs ih => exact ⟨h.1, h.2.1, ih h.2.2 hline hnext⟩

theorem carried_map_moved (number start : Nat) :
    Carried mode (xs.map (Line.moved number start)) ↔ Carried mode xs := by
  induction xs generalizing mode with
  | nil => rfl
  | cons x xs ih => exact and_congr_right fun _ => and_congr_right fun _ => ih

end

def Cut.OpensLast : List Stretch → Prop
  | [] => True
  | .code _ :: ss => OpensLast ss
  | .literal p :: ss => (p.openAtEnd = true → ss = []) ∧ OpensLast ss

theorem Cut.opensLast_ofCode (cs : List Char) : OpensLast (ofCode cs).stretches := by
  fun_induction ofCode cs with
  | case1 => trivial
  | case2 c cs _ ih => exact ih
  | case3 c cs k more _ content h => exact ⟨fun _ => rfl, trivial⟩
  | case4 c cs k more _ content rest h _ _ ih => exact ⟨fun hopen => absurd hopen Bool.false_ne_true, ih⟩
  | case5 c cs frame more _ _ inside h => trivial
  | case6 c cs frame more _ _ inside rest h _ ih => exact ih

theorem Cut.opensLast_ofLine (mode : Mode) (line : List Char) :
    OpensLast (ofLine mode line).stretches := by
  apply ofLine_induction (motive := fun cut => OpensLast cut.stretches)
  case code => exact opensLast_ofCode
  case behindComment => exact fun _ rest => opensLast_ofCode rest
  case comment => trivial
  case stays => exact fun _ _ _ => ⟨fun _ => rfl, trivial⟩
  case behindString =>
    exact fun _ _ rest => ⟨fun hopen => absurd hopen Bool.false_ne_true, opensLast_ofCode rest⟩

theorem Part.stop_eq_of_mem_place {start : Nat} {ss : List Stretch} {p : Part}
    (hss : Cut.OpensLast ss) (hp : p ∈ place start ss) (hopen : p.piece.openAtEnd = true) :
    p.stop = start + Text.width (ss.flatMap Stretch.chars) := by
  induction ss generalizing start with
  | nil => cases hp
  | cons s ss ih =>
    rw [List.flatMap_cons, Text.width_append, ← Nat.add_assoc]
    cases s with
    | code cs => exact ih hss hp
    | literal q =>
      rcases List.mem_cons.1 hp with rfl | hp
      · obtain rfl := hss.1 hopen
        rfl
      · exact ih hss.2 hp

section

variable {mode : Mode} {k : StringKind} {l : Line} {p : Part} {ps : List Part}

theorem stop_eq_of_mem_partsOf (hp : p ∈ partsOf mode l) (hopen : p.piece.openAtEnd = true) :
    p.stop = l.stop := by
  have hstop := Part.stop_eq_of_mem_place (Cut.opensLast_ofLine mode l.text) hp hopen
  rwa [← Cut.chars, Cut.chars_ofLine] at hstop

theorem start_of_partsOf_eq_cons (hk : k.verbatim = true) (h : partsOf (.string k) l = p :: ps) :
    p.start = l.start := by
  rw [partsOf] at h
  cases hrest : (Content.read k l.text).rest with
  | none =>
    rw [Cut.ofLine_of_rest_eq_none hk hrest] at h
    obtain ⟨rfl, -⟩ := List.cons.inj h
    rfl
  | some rest =>
    rw [Cut.ofLine_of_rest_eq_some hk hrest] at h
    obtain ⟨rfl, -⟩ := List.cons.inj h
    rfl

theorem Fragment.place_eq_nil_iff (offset start : Nat) (ss : List Stretch) :
    place offset ss = [] ↔ (Part.place start ss).any Part.hasContent = false := by
  induction ss generalizing offset start with
  | nil => simp [place, Part.place]
  | cons s ss ih =>
    cases s with
    | code cs => exact ih _ _
    | literal p =>
      rw [place, Part.place, List.any_cons]
      split
      next h => simpa [Part.hasContent, h] using ih _ _
      next h => simp [Part.hasContent, h]

theorem fragments_scanLine_eq_nil_iff :
    (scanLine mode l.text).fragments = [] ↔ (partsOf mode l).any Part.hasContent = false := by
  rw [scanLine_eq]
  exact Fragment.place_eq_nil_iff 0 l.start _

end

namespace Assembly

section

variable {mode : Mode} {a : Assembly} {ds : List Literal} {l : Line} {m : Literal} {p : Part}
  {ps : List Part} {ls : List Line}

theorem pending_addPart (hp : p.hasContent = true) (h : (a.addPart p).pending = some m) :
    p.piece.openAtEnd = true ∧ m.range.stop = p.stop := by
  rw [addPart, if_pos hp] at h
  cases hopen : p.piece.openAtEnd with
  | false => simp [hopen, flush] at h
  | true =>
    rw [if_pos hopen, Part.literal?, if_pos hp] at h
    exact ⟨rfl, stop_of_join h⟩

theorem pending_foldl_addPart (h : (ps.foldl addPart a).pending = some m) :
    (ps.any Part.hasContent = false ∧ a.pending = some m) ∨
      ∃ p ∈ ps, p.piece.openAtEnd = true ∧ m.range.stop = p.stop := by
  induction ps generalizing a with
  | nil => exact .inl ⟨rfl, h⟩
  | cons p ps ih =>
    rcases ih h with ⟨hany, hpending⟩ | ⟨q, hq, hstop⟩
    · cases hp : p.hasContent with
      | false =>
        rw [addPart_of_not_hasContent hp] at hpending
        exact .inl ⟨by rw [List.any_cons, hp, hany]; rfl, hpending⟩
      | true => exact .inr ⟨p, List.mem_cons_self, pending_addPart hp hpending⟩
    · exact .inr ⟨q, List.mem_cons_of_mem p hq, hstop⟩

theorem pending_addLine (h : (a.addLine l.start (scanLine mode l.text)).pending = some m) :
    (nextMode mode l.text).isVerbatim = true ∧
      ((scanLine mode l.text).fragments = [] ∧ a.pending = some m ∨ m.range.stop = l.stop) := by
  rw [addLine_scanLine, settleIn] at h
  split at h
  next hnext =>
    refine ⟨hnext, ?_⟩
    rcases pending_foldl_addPart h with ⟨hany, hpending⟩ | ⟨p, hp, hopen, hstop⟩
    · exact .inl ⟨fragments_scanLine_eq_nil_iff.2 hany, hpending⟩
    · exact .inr (hstop.trans (stop_eq_of_mem_partsOf hp hopen))
  next => cases h

theorem exists_of_pending_addLines (h : (empty.addLines .code ls).pending = some m) :
    ∃ xs l ys, ls = xs ++ l :: ys ∧ m.range.stop = l.stop ∧
      Carried (modeAfter .code (xs ++ [l])) ys := by
  induction ls using List.reverseRecOn with
  | nil => cases h
  | append_singleton ls l ih =>
    rw [addLines_append] at h
    obtain ⟨hnext, ⟨hline, hpending⟩ | hstop⟩ := pending_addLine h
    · obtain ⟨xs, l', ys, rfl, hstop, hcarried⟩ := ih hpending
      have hmode : modeAfter (modeAfter .code (xs ++ [l'])) ys = modeAfter .code (xs ++ l' :: ys) := by
        rw [← modeAfter_append, List.append_assoc, List.singleton_append]
      rw [← hmode] at hline hnext
      exact ⟨xs, l', ys ++ [l], by simp, hstop, hcarried.concat hline hnext⟩
    · refine ⟨ls, l, [], rfl, hstop, ?_⟩
      rw [modeAfter_append]
      exact hnext

theorem foldl_noteNew_after :
    ps.foldl noteNew (a.after ds) = (ps.foldl noteNew a).after ds := by
  induction ps generalizing a with
  | nil => rfl
  | cons p ps ih =>
    have hnote : (a.after ds).noteNew p = (a.noteNew p).after ds := by
      simp [noteNew, after, extend, flush]
    rw [List.foldl_cons, hnote, ih, List.foldl_cons]

theorem settleIn_after : (a.after ds).settleIn mode = (a.settleIn mode).after ds := by
  rw [settleIn, settleIn]
  split <;> simp

theorem flush_eq_after (a : Assembly) : a.flush = empty.after a.flush.done := by
  simp [after, empty, flush]

theorem addLine_of_closed (hparts : partsOf mode l = p :: ps) (hcont : p.piece.continued = true)
    (hclosed : p.piece.openAtEnd = false)
    (hinto : Cut.OpensInto (nextMode mode l.text) (ps.map Part.piece))
    (hnoticed : (nextMode mode l.text).isVerbatim = true → (p :: ps).any Part.hasContent = true) :
    a.addLine l.start (scanLine mode l.text) =
      ((ps.foldl noteNew empty).settleIn (nextMode mode l.text)).after
        (a.extend p.literal?).flush.done := by
  rw [← settleIn_after, ← foldl_noteNew_after, ← flush_eq_after, addLine_scanLine, hparts,
    List.foldl_cons]
  cases hp : p.hasContent with
  | true =>
    have hadd : a.addPart p = (a.extend p.literal?).flush := by simp [addPart, hp, hcont, hclosed]
    rw [hadd, foldl_addPart hinto fun _ => .inl rfl]
  | false =>
    have hnone : p.literal? = none := by simp [Part.literal?, hp]
    rw [List.any_cons, hp, Bool.false_or] at hnoticed
    rw [addPart_of_not_hasContent hp, hnone, extend_none, foldl_noteNew_flush hinto]
    exact foldl_addPart hinto fun hmode => .inr (hnoticed hmode)

theorem exists_addLine_eq (hmode : mode.isVerbatim = true) (l : Line) :
    ∃ x : Option Literal, (∀ m, x = some m → m.range.start = l.start) ∧
      ((nextMode mode l.text).isVerbatim = true ∧
          (x = none → (scanLine mode l.text).fragments = []) ∧
          (∀ a : Assembly, a.addLine l.start (scanLine mode l.text) = a.extend x) ∨
        ∃ b : Assembly, ∀ a : Assembly,
          a.addLine l.start (scanLine mode l.text) = b.after (a.extend x).flush.done) := by
  obtain ⟨k, rfl⟩ := Mode.exists_eq_string hmode
  obtain ⟨p, ps, hparts, -, -, hcont, hend⟩ := exists_partsOf hmode l
  have hstart : ∀ m, p.literal? = some m → m.range.start = l.start := by
    intro m hm
    rw [(p.range_of_literal? hm).1]
    exact start_of_partsOf_eq_cons hmode hparts
  have hnil : p.literal? = none → p.hasContent = false := by
    cases hp : p.hasContent <;> simp [Part.literal?, hp]
  refine ⟨p.literal?, hstart, ?_⟩
  rcases hend with ⟨hopen, rfl, hnext⟩ | ⟨hclosed, hinto⟩
  · rw [hnext]
    refine .inl ⟨hmode, fun hp => ?_, fun a => ?_⟩
    · rw [fragments_scanLine_eq_nil_iff, hparts]
      simp [hnil hp]
    · rw [addLine_scanLine, hparts, hnext]
      exact (if_pos hmode).trans (addPart_of_continued hcont hopen)
  · by_cases hnoticed : (nextMode (.string k) l.text).isVerbatim = true →
        (p :: ps).any Part.hasContent = true
    · exact .inr ⟨_, fun a => addLine_of_closed hparts hcont hclosed hinto hnoticed⟩
    · -- Closed and opened again with no content: nothing tells that it was.
      rw [Classical.not_imp, Bool.not_eq_true] at hnoticed
      obtain ⟨hnext, hany⟩ := hnoticed
      refine .inl ⟨hnext, fun _ => ?_, fun a => ?_⟩
      · rw [fragments_scanLine_eq_nil_iff, hparts, hany]
      · rw [List.any_cons, Bool.or_eq_false_iff] at hany
        rw [addLine_scanLine, hparts, foldl_addPart_of_not_any (by simp [hany])]
        simp [settleIn, hnext, Part.literal?, hany.1]

/-- What lines make of the literal that is open before them: they give it some content or none, and
go on with other literals. The content starts with a line to which the literal is carried. -/
structure Continues (mode : Mode) (ls : List Line) (x : Option Literal) (rest : List Literal) :
    Prop where
  done_eq : ∀ a : Assembly, (mode.isVerbatim = false → a.pending = none) →
    (a.addLines mode ls).flush.done = (a.extend x).flush.done ++ rest
  start_eq : ∀ m, x = some m → ∃ xs l ys, ls = xs ++ l :: ys ∧ m.range.start = l.start ∧
    Carried mode xs

theorem exists_continues (mode : Mode) (ls : List Line) : ∃ x rest, Continues mode ls x rest := by
  induction ls generalizing mode with
  | nil => exact ⟨none, [], by simp [addLines], nofun⟩
  | cons l ls ih =>
    cases hmode : mode.isVerbatim with
    | false =>
      refine ⟨none, (empty.addLines mode (l :: ls)).flush.done, ?_, nofun⟩
      intro a ha
      have heq : a = empty.after a.flush.done := by
        rw [← flush_eq_after, flush_of_pending_eq_none (ha hmode)]
      rw [extend_none, heq, addLines_after, flush_after, ← heq]
      rfl
    | true =>
      obtain ⟨x, hstart, ⟨hnext, hnil, hline⟩ | ⟨b, hline⟩⟩ := exists_addLine_eq hmode l
      · obtain ⟨y, rest, hrest⟩ := ih (nextMode mode l.text)
        refine ⟨join x y, rest, ?_, ?_⟩
        · intro a _
          rw [addLines, hline, hrest.done_eq _ (by simp [hnext]), extend_extend]
        · intro m hm
          cases x with
          | some z =>
            exact ⟨[], l, ls, rfl, (start_of_join hm).trans (hstart z rfl), hmode⟩
          | none =>
            obtain ⟨xs, l', ys, rfl, hm, hcarried⟩ := hrest.start_eq m (by simpa using hm)
            exact ⟨l :: xs, l', ys, rfl, hm, hmode, hnil rfl, hcarried⟩
      · refine ⟨x, (b.addLines (nextMode mode l.text) ls).flush.done, ?_, ?_⟩
        · intro a _
          rw [addLines, hline, addLines_after, flush_after]
          rfl
        · exact fun m hm => ⟨[], l, ls, rfl, hstart m hm, hmode⟩

section

variable {x : Option Literal} {rest : List Literal} {number n : Nat}

theorem Continues.mem_iff (h : Continues mode ls x rest)
    (ha : mode.isVerbatim = false → a.pending = none) :
    m ∈ (a.addLines mode ls).flush.done ↔ m ∈ a.done ∨ join a.pending x = some m ∨ m ∈ rest := by
  rw [h.done_eq a ha]
  simp [extend, flush]

theorem Continues.mem_addLines_empty_iff (h : Continues mode ls x rest) :
    m ∈ (empty.addLines mode ls).flush.done ↔ x = some m ∨ m ∈ rest := by
  rw [h.mem_iff fun _ => rfl]
  simp [empty]

theorem Continues.mem_map_shift_iff (h : Continues mode (ls.map (Line.moved number n)) x rest)
    (ha : mode.isVerbatim = false → a.pending = none) :
    m ∈ (a.addLines mode ls).flush.done.map (Literal.shift n) ↔
      m ∈ a.done.map (Literal.shift n) ∨ join (a.pending.map (Literal.shift n)) x = some m ∨
        m ∈ rest := by
  have hshift : mode.isVerbatim = false → (a.shift n).pending = none := fun hmode => by
    simp [shift, ha hmode]
  have hmem := h.mem_iff (m := m) hshift
  rwa [addLines_map_moved, flush_shift] at hmem

theorem Continues.start_eq_of_moved
    (h : Continues mode (ls.map (Line.moved number n)) (some (m.shift n)) rest) :
    ∃ xs l ys, ls = xs ++ l :: ys ∧ m.range.start = l.start ∧ Carried mode xs := by
  obtain ⟨xs', l', ys', hsplit, hline, hcarried⟩ := h.start_eq _ rfl
  obtain ⟨xs, tail, rfl, rfl, htail⟩ := List.map_eq_append_iff.1 hsplit
  obtain ⟨l, ys, rfl, rfl, rfl⟩ := List.map_eq_cons_iff.1 htail
  exact ⟨xs, l, ys, rfl, Nat.add_right_cancel hline, (carried_map_moved _ _).1 hcarried⟩

theorem Continues.exists_absorb {q : Literal}
    (h : Continues mode (ls.map (Line.moved number n)) (some m) rest)
    (ha : mode.isVerbatim = false → a.pending = none) (hq : a.pending = some q) :
    ∃ last ∈ (empty.addLines mode ls).flush.done, last.shift n = m ∧
      q.absorb last ∈ (a.addLines mode ls).flush.done := by
  have hmem : m ∈ (empty.addLines mode ls).flush.done.map (Literal.shift n) := by
    rw [h.mem_map_shift_iff fun _ => rfl]
    exact .inr (.inl rfl)
  obtain ⟨last, hlast, rfl⟩ := List.mem_map.1 hmem
  refine ⟨last, hlast, rfl, ?_⟩
  rw [← List.mem_map_of_injective (shift_injective n), h.mem_map_shift_iff ha, hq, absorb_shift]
  exact .inr (.inl rfl)

end

end

end Assembly

end Literal

end SqlHighlight
