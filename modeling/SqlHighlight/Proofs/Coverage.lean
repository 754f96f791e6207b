import SqlHighlight.Proofs.Continuation
import SqlHighlight.Proofs.Edits
import SqlHighlight.Proofs.Notices
import SqlHighlight.Proofs.WellFormed

namespace SqlHighlight

namespace Literal.Assembly

section

variable {cs : List Char} {above below : List Line} {offset : Nat} {m : Literal}

theorem mem_of_mem_done {a : Assembly} (h : m ∈ a.done) : m ∈ a.flush.done :=
  List.mem_append_left _ h

theorem mem_of_pending_eq {a : Assembly} (h : a.pending = some m) : m ∈ a.flush.done := by
  simp [flush, h]

theorem pending_addLines_empty (ls : List Line) (h : (modeAfter .code ls).isVerbatim = false) :
    (empty.addLines .code ls).pending = none :=
  pending_addLines (fun _ => rfl) h

theorem exists_of_stop_lt (below' : List Line) (hls : List.Sublist below (Text.lines cs))
    (hbelow : ∀ l ∈ below, offset ≤ l.start)
    (hm : m ∈ (empty.addLines .code (above ++ below)).flush.done) (hstop : m.range.stop < offset) :
    m ∈ (empty.addLines .code (above ++ below')).flush.done ∨
      (∃ xs l ys, above = xs ++ l :: ys ∧ m.range.stop = l.stop ∧
        Carried (modeAfter .code (xs ++ [l])) ys) ∧
      ∃ more ∈ (empty.addLines (modeAfter .code above) below').flush.done,
        m.absorb more ∈ (empty.addLines .code (above ++ below')).flush.done := by
  have hopen := pending_addLines_empty above
  obtain ⟨x, rest, hnew⟩ := exists_continues (modeAfter .code above) below
  obtain ⟨x', rest', hold⟩ := exists_continues (modeAfter .code above) below'
  rw [addLines_append, hnew.mem_iff hopen] at hm
  simp only [addLines_append, hold.mem_iff hopen]
  have hbehind : ∀ m' ∈ (empty.addLines (modeAfter .code above) below).flush.done,
      offset < m'.range.stop := by
    intro m' hm'
    obtain ⟨l, hl, hle, -⟩ := exists_start_of_mem_addLines hm'
    have hlt := ((wellFormed_addLines hls _).isCutFrom m' hm').start_lt_stop
    have := hbelow l hl
    omega
  simp only [hnew.mem_addLines_empty_iff] at hbehind
  rcases hm with hm | hm | hm
  · exact .inl (.inl hm)
  · cases x with
    | some z =>
      have := stop_of_join hm
      have := hbehind z (.inl rfl)
      omega
    | none =>
      -- The literal was open above, and these lines gave it nothing; the others may have.
      rw [join_none] at hm
      cases x' with
      | none => exact .inl (.inr (.inl (by rw [join_none, hm])))
      | some z =>
        refine .inr ⟨exists_of_pending_addLines hm, z, ?_, .inr (.inl (by rw [hm]; rfl))⟩
        exact hold.mem_addLines_empty_iff.2 (.inl rfl)
  · have := hbehind m (.inr hm)
    omega

theorem exists_of_lt_start {above' below' : List Line} {number number' n n' : Nat}
    (hmoved : below.map (Line.moved number n) = below'.map (Line.moved number' n'))
    (hmode : below ≠ [] → modeAfter .code above = modeAfter .code above')
    (habove : ∀ l ∈ above, l.stop ≤ offset)
    (hm : m ∈ (empty.addLines .code (above ++ below)).flush.done) (hstart : offset < m.range.start) :
    (∃ m' ∈ (empty.addLines .code (above' ++ below')).flush.done, m'.shift n' = m.shift n) ∨
      (∃ xs l ys, below = xs ++ l :: ys ∧ m.range.start = l.start ∧
        Carried (modeAfter .code above) xs) ∧
      ∃ first ∈ (empty.addLines .code above').flush.done,
        ∃ last ∈ (empty.addLines (modeAfter .code above') below').flush.done,
          first.absorb last ∈ (empty.addLines .code (above' ++ below')).flush.done ∧
            last.shift n' = m.shift n := by
  have hbefore : ∀ m' ∈ (empty.addLines .code above).flush.done, m'.range.start ≤ offset := by
    intro m' hm'
    obtain ⟨l, hl, -, hle⟩ := exists_start_of_mem_addLines hm'
    exact Nat.le_trans hle (habove l hl)
  have hbelow : below ≠ [] := by
    rintro rfl
    rw [List.append_nil] at hm
    exact Nat.not_lt_of_le (hbefore m hm) hstart
  have hopen := pending_addLines_empty above
  have hopen' := pending_addLines_empty above'
  obtain ⟨x, rest, hnew⟩ :=
    exists_continues (modeAfter .code above) (below.map (Line.moved number n))
  -- Moved to one place, the lines below are the same in both texts, and so is what they add.
  have hold := hnew
  rw [hmoved, hmode hbelow] at hold
  replace hm := List.mem_map_of_mem (f := Literal.shift n) hm
  rw [addLines_append, hnew.mem_map_shift_iff hopen] at hm
  simp only [addLines_append]
  rcases hm with hm | hm | hm
  · rw [List.mem_map_of_injective (shift_injective n)] at hm
    have := hbefore m (mem_of_mem_done hm)
    omega
  · cases hpending : (empty.addLines .code above).pending with
    | some q =>
      rw [hpending] at hm
      have heq := start_of_join hm
      have := hbefore q (mem_of_pending_eq hpending)
      simp only [Literal.shift, Range.shift] at heq
      omega
    | none =>
      rw [hpending, Option.map_none, none_join] at hm
      cases hpending' : (empty.addLines .code above').pending with
      | none =>
        left
        rw [← List.mem_map, hold.mem_map_shift_iff hopen', hpending']
        exact .inr (.inl (by simp [hm]))
      | some q =>
        subst hm
        obtain ⟨last, hlast, heq, hjoined⟩ := hold.exists_absorb hopen' hpending'
        exact .inr ⟨hnew.start_eq_of_moved, q, mem_of_pending_eq hpending', last, hlast, hjoined, heq⟩
  · left
    rw [← List.mem_map, hold.mem_map_shift_iff hopen']
    exact .inr (.inr hm)

end

end Literal.Assembly

open Literal (Assembly Carried LineModes modeAfter)

namespace Revision

def literals (r : Revision) : List Literal := (Tagger.ofRevision r).literals r ⟨0, r.length⟩

theorem literals_eq (r : Revision) : r.literals = (Assembly.empty.addLines .code r.lines).flush.done := by
  rw [literals, Tagger.literals_ofRevision_self]
  exact Literal.LineModes.literals_whole r.chars

theorem start_lt_stop_of_mem_literals {r : Revision} {l : Literal} (h : l ∈ r.literals) :
    l.range.start < l.range.stop :=
  ((Tagger.wellFormed_literals _ _ _).isCutFrom l h).start_lt_stop

theorem eq_of_mem_literals {r : Revision} {l m : Literal} (hl : l ∈ r.literals)
    (hm : m ∈ r.literals) (hlt : l.range.start < m.range.stop) (hgt : m.range.start < l.range.stop) :
    l = m := by
  have hseparate := List.pairwise_iff_getElem.1
    (Tagger.wellFormed_literals (.ofRevision r) r ⟨0, r.length⟩).separate
  obtain ⟨i, hi, rfl⟩ := List.mem_iff_getElem.1 hl
  obtain ⟨j, hj, rfl⟩ := List.mem_iff_getElem.1 hm
  rcases Nat.lt_trichotomy i j with h | rfl | h
  · exact absurd (hseparate i j hi hj h) (Nat.not_lt_of_gt hgt)
  · rfl
  · exact absurd (hseparate j i hj hi h) (Nat.not_lt_of_gt hlt)

theorem drop_lines_of_chars_eq {r : Revision} {before inside after : List Char}
    (h : r.chars = before ++ (inside ++ after)) (n : Nat) :
    r.lines.drop (before.count '\n' + inside.count '\n' + (n + 1)) =
      ((Text.lines after).drop (n + 1)).map
        (Line.moved ((before ++ inside).count '\n') (Text.width (before ++ inside))) := by
  rw [← Text.drop_lines_append, List.append_assoc, ← h, List.count_append]
  rfl

section

variable {r : Revision} {i : Nat} {l x : Line}

theorem mem_take_of_line? (h : r.line? i = some l) : l ∈ r.lines.take (i + 1) := by
  obtain ⟨hi, rfl⟩ := List.getElem?_eq_some_iff.1 h
  rw [List.take_succ_eq_append_getElem hi]
  exact List.mem_append_right _ List.mem_cons_self

theorem mem_drop_of_line? (h : r.line? i = some l) : l ∈ r.lines.drop i := by
  obtain ⟨hi, rfl⟩ := List.getElem?_eq_some_iff.1 h
  rw [List.drop_eq_getElem_cons hi]
  exact List.mem_cons_self

theorem stop_le_of_mem_take (h : r.line? i = some l) (hx : x ∈ r.lines.take (i + 1)) :
    x.stop ≤ l.stop := by
  obtain ⟨hi, rfl⟩ := List.getElem?_eq_some_iff.1 h
  rw [List.take_succ_eq_append_getElem hi, List.mem_append, List.mem_singleton] at hx
  rcases hx with hx | rfl
  · have hlt := Text.stop_lt_start_of_mem hx (mem_drop_of_line? h)
    exact Nat.le_trans (Nat.le_of_lt hlt) (Line.start_le_stop _)
  · exact Nat.le_refl _

theorem start_le_of_mem_drop (h : r.line? i = some l) (hx : x ∈ r.lines.drop i) :
    l.start ≤ x.start := by
  obtain ⟨hi, rfl⟩ := List.getElem?_eq_some_iff.1 h
  rw [List.drop_eq_getElem_cons hi] at hx
  rcases List.mem_cons.1 hx with rfl | hx
  · exact Nat.le_refl _
  · have hlt := Text.stop_lt_start_of_mem (mem_take_of_line? h) hx
    exact Nat.le_trans (Line.start_le_stop _) (Nat.le_of_lt hlt)

end

end Revision

def Range.Touches (r s : Range) : Prop := r.start ≤ s.stop ∧ s.start ≤ r.stop

instance (r s : Range) : Decidable (r.Touches s) := inferInstanceAs (Decidable (_ ∧ _))

theorem Range.not_touches_iff {r s : Range} :
    ¬ r.Touches s ↔ r.stop < s.start ∨ s.stop < r.start := by
  unfold Touches
  omega

namespace Change

variable {c : Change} {olds : List Literal} {l l' : Literal}

def Moves (c : Change) (old new : Literal) : Prop := old.shift c.newLength = new.shift c.oldLength

instance (old new : Literal) : Decidable (c.Moves old new) := inferInstanceAs (Decidable (_ = _))

/-- A literal of the new text that was there before: it ends before the edit, or it stands behind the
edit and has moved with the text there. -/
def Keeps (c : Change) (olds : List Literal) (l : Literal) : Prop :=
  l ∈ olds ∧ l.range.stop ≤ c.oldStart ∨
    ∃ l' ∈ olds, c.oldStart + c.oldLength ≤ l'.range.start ∧ c.Moves l' l

instance : Decidable (c.Keeps olds l) := inferInstanceAs (Decidable (_ ∨ _))

theorem Moves.start_eq (h : c.Moves l l') :
    l.range.start + c.newLength = l'.range.start + c.oldLength :=
  congrArg (·.range.start) h

end Change

namespace Notice

/-- A literal that ends with a line above the notice, where an old one went on: from that line down to
the notice a verbatim string is open, and holds nothing. -/
structure CutsEnd (n : Notice) (old new : Revision) (l : Literal) : Prop where
  exists_line : ∃ xs line ys, new.lines.take n.lines.start = xs ++ line :: ys ∧
    l.range.stop = line.stop ∧ Carried (modeAfter .code (xs ++ [line])) ys
  exists_rest : ∃ rest : Literal, l.range.stop < rest.range.start ∧ rest.range.start < rest.range.stop ∧
    l.absorb rest ∈ old.literals

/-- A literal that starts with a line below the notice, where an old one had started before: from the
notice down to that line a verbatim string is open, and holds nothing. -/
structure CutsStart (n : Notice) (c : Change) (old new : Revision) (l : Literal) : Prop where
  exists_line : ∃ xs line ys, new.lines.drop n.lines.stop = xs ++ line :: ys ∧
    l.range.start = line.start ∧ Carried (modeAfter .code (new.lines.take n.lines.stop)) xs
  exists_rest : ∃ rest l' : Literal, rest.range.start < rest.range.stop ∧ rest.range.stop < l'.range.start ∧
    rest.absorb l' ∈ old.literals ∧ c.Moves l' l

structure Frames (n : Notice) (c : Change) (old new : Revision) : Prop where
  above : new.lines.take n.lines.start = old.lines.take n.lines.start
  below : ∃ k number number',
    (new.lines.drop n.lines.stop).map (Line.moved number c.oldLength) =
      (old.lines.drop k).map (Line.moved number' c.newLength) ∧
    (new.lines.drop n.lines.stop ≠ [] →
      modeAfter .code (new.lines.take n.lines.stop) = modeAfter .code (old.lines.take k))
  stop_lt : ∀ l ∈ new.lines.take n.lines.start, l.stop < n.span.start
  le_start : ∀ l ∈ new.lines.drop n.lines.start, n.span.start ≤ l.start
  stop_le : ∀ l ∈ new.lines.take n.lines.stop, l.stop ≤ n.span.stop
  lt_start : ∀ l ∈ new.lines.drop n.lines.stop, n.span.stop < l.start
  edit_le : ∀ l ∈ new.lines.drop n.lines.stop, c.oldStart + c.newLength ≤ l.start
  start_le_edit : n.span.start ≤ c.oldStart

namespace Frames

variable {n : Notice} {c : Change} {old new : Revision} {l : Literal}

theorem cutsEnd (h : n.Frames c old new) (hl : l ∈ new.literals)
    (hkeeps : ¬ c.Keeps old.literals l) (hstop : l.range.stop < n.span.start) :
    n.CutsEnd old new l := by
  rw [Revision.literals_eq, ← List.take_append_drop n.lines.start new.lines] at hl
  have hcases := Assembly.exists_of_stop_lt (old.lines.drop n.lines.start)
    (List.drop_sublist _ (Text.lines new.chars)) h.le_start hl hstop
  rw [h.above, List.take_append_drop, ← Revision.literals_eq] at hcases
  rcases hcases with hkept | ⟨hline, rest, hrest, habsorb⟩
  · exact absurd (.inl ⟨hkept, Nat.le_trans (Nat.le_of_lt hstop) h.start_le_edit⟩) hkeeps
  · refine ⟨by rwa [h.above], rest, ?_, ?_, habsorb⟩
    · obtain ⟨xs, line, ys, hsplit, hend, -⟩ := hline
      obtain ⟨line', hmem', hle, -⟩ := Assembly.exists_start_of_mem_addLines hrest
      have hmem : line ∈ old.lines.take n.lines.start := by
        rw [hsplit]
        simp
      rw [hend]
      exact Nat.lt_of_lt_of_le (Text.stop_lt_start_of_mem hmem hmem') hle
    · exact ((Assembly.wellFormed_addLines (List.drop_sublist _ (Text.lines old.chars)) _).isCutFrom
        rest hrest).start_lt_stop

theorem cutsStart (h : n.Frames c old new) (hl : l ∈ new.literals)
    (hkeeps : ¬ c.Keeps old.literals l) (hstart : n.span.stop < l.range.start) :
    n.CutsStart c old new l := by
  rw [Revision.literals_eq, ← List.take_append_drop n.lines.stop new.lines] at hl
  have hbehind : c.oldStart + c.newLength ≤ l.range.start := by
    obtain ⟨line, hline, hle, hle'⟩ := Assembly.exists_start_of_mem_addLines hl
    rcases List.mem_append.1 hline with hline | hline
    · exact absurd (Nat.le_trans hle' (h.stop_le line hline)) (Nat.not_le_of_lt hstart)
    · exact Nat.le_trans (h.edit_le line hline) hle
  obtain ⟨k, number, number', hmoved, hmode⟩ := h.below
  have hcases := Assembly.exists_of_lt_start hmoved hmode h.stop_le hl hstart
  rw [List.take_append_drop, ← Revision.literals_eq] at hcases
  rcases hcases with ⟨l', hl', hmoves⟩ | ⟨hline, rest, hrest, l', hl', habsorb, hmoves⟩
  · refine absurd (.inr ⟨l', hl', ?_, hmoves⟩) hkeeps
    have := Change.Moves.start_eq hmoves
    omega
  · refine ⟨hline, rest, l', ?_, ?_, habsorb, hmoves⟩
    · exact ((Assembly.wellFormed_addLines (List.take_sublist _ (Text.lines old.chars)) _).isCutFrom
        rest hrest).start_lt_stop
    · obtain ⟨line, hmem, hle⟩ := Assembly.exists_stop_of_mem_addLines hrest
      obtain ⟨line', hmem', hle', -⟩ := Assembly.exists_start_of_mem_addLines hl'
      have hlt := Text.stop_lt_start_of_mem hmem hmem'
      omega

theorem not_keeps_of_cutsEnd (h : n.Frames c old new) (hl : l ∈ new.literals)
    (hcut : n.CutsEnd old new l) : ¬ c.Keeps old.literals l ∧ ¬ l.range.Touches n.span := by
  obtain ⟨⟨xs, line, ys, hsplit, hstop, -⟩, rest, hlt, hrest, habsorb⟩ := hcut
  have hbefore : l.range.stop < n.span.start := by
    rw [hstop]
    exact h.stop_lt line (by rw [hsplit]; simp)
  have hpos := Revision.start_lt_stop_of_mem_literals hl
  refine ⟨?_, Range.not_touches_iff.2 (.inl hbefore)⟩
  rintro (⟨hkept, -⟩ | ⟨l', -, hle, hmoves⟩)
  · have hshort : l.range.start < rest.range.stop := by omega
    have heq := congrArg (·.range.stop) (Revision.eq_of_mem_literals hkept habsorb hshort hpos)
    change l.range.stop = rest.range.stop at heq
    omega
  · have := hmoves.start_eq
    have := h.start_le_edit
    omega

theorem not_keeps_of_cutsStart (h : n.Frames c old new) (hl : l ∈ new.literals)
    (hcut : n.CutsStart c old new l) : ¬ c.Keeps old.literals l ∧ ¬ l.range.Touches n.span := by
  obtain ⟨⟨xs, line, ys, hsplit, hstart, -⟩, rest, l', hrest, hlt, habsorb, hmoves⟩ := hcut
  have hmem : line ∈ new.lines.drop n.lines.stop := by
    rw [hsplit]
    simp
  have hbehind : n.span.stop < l.range.start := by
    rw [hstart]
    exact h.lt_start line hmem
  have hpos := Revision.start_lt_stop_of_mem_literals hl
  refine ⟨?_, Range.not_touches_iff.2 (.inr hbehind)⟩
  rintro (⟨-, hle⟩ | ⟨kept, hkept, -, hmoved⟩)
  · have := h.edit_le line hmem
    omega
  · obtain rfl : kept = l' := Literal.shift_injective _ (hmoved.trans hmoves.symm)
    have hpos' := Revision.start_lt_stop_of_mem_literals hkept
    have hlong : rest.range.start < kept.range.stop := by omega
    have heq := congrArg (·.range.start) (Revision.eq_of_mem_literals hkept habsorb hpos' hlong)
    change kept.range.start = rest.range.start at heq
    omega

theorem touches_iff (h : n.Frames c old new) (hl : l ∈ new.literals) :
    (¬ c.Keeps old.literals l → l.range.Touches n.span) ↔
      ¬ (n.CutsEnd old new l ∨ n.CutsStart c old new l) := by
  constructor
  · rintro htouches (hcut | hcut)
    · obtain ⟨hkeeps, hnot⟩ := h.not_keeps_of_cutsEnd hl hcut
      exact hnot (htouches hkeeps)
    · obtain ⟨hkeeps, hnot⟩ := h.not_keeps_of_cutsStart hl hcut
      exact hnot (htouches hkeeps)
  · intro hcut hkeeps
    by_contra hnot
    rcases Range.not_touches_iff.1 hnot with hstop | hstart
    · exact hcut (.inl (h.cutsEnd hl hkeeps hstop))
    · exact hcut (.inr (h.cutsStart hl hkeeps hstart))

end Frames

section

variable {n : Notice} {c : Change} {old new : Revision} {before removed inserted after : List Char}

theorem IsTight.modeAfter_eq (hold : old.chars = before ++ (removed ++ after))
    (hnew : new.chars = before ++ (inserted ++ after))
    (h : n.IsTight (.ofRevision old) (.ofRevision new) (before.count '\n') (inserted.count '\n')
      (removed.count '\n')) (hbelow : new.lines.drop n.lines.stop ≠ []) :
    modeAfter .code (new.lines.take n.lines.stop) =
      modeAfter .code (old.lines.take (n.lines.stop - inserted.count '\n' + removed.count '\n')) := by
  have hlt : n.lines.stop < new.lines.length := by
    by_contra hge
    exact hbelow (List.drop_eq_nil_of_le (by omega))
  have hle : n.lines.stop - inserted.count '\n' + removed.count '\n' ≤ old.lines.length := by
    rw [Revision.lines, Text.length_lines] at hlt ⊢
    simp only [hold, hnew, List.count_append] at hlt ⊢
    omega
  have hbefore := (h.below _ (Nat.le_refl _) hlt).before_eq
  simp only [Tagger.ofRevision, LineModes.build_eq] at hbefore
  rwa [LineModes.before_ofLines (Nat.le_of_lt hlt), LineModes.before_ofLines hle] at hbefore

theorem IsTight.frames (hold : old.chars = before ++ (removed ++ after))
    (hnew : new.chars = before ++ (inserted ++ after)) (hstart : c.oldStart = Text.width before)
    (hremoved : c.oldLength = Text.width removed) (hinserted : c.newLength = Text.width inserted)
    (h : n.IsTight (.ofRevision old) (.ofRevision new) (before.count '\n') (inserted.count '\n')
      (removed.count '\n')) : n.Frames c old new := by
  obtain ⟨first, last, hfirst, hlast, hspan⟩ := h.span_eq
  obtain ⟨m, hm⟩ := Nat.exists_eq_add_of_lt h.lt_stop
  have hstop : n.lines.stop - 1 + 1 = n.lines.stop := by omega
  have hbelow := Revision.drop_lines_of_chars_eq hnew m
  have hbelow' := Revision.drop_lines_of_chars_eq hold m
  rw [← Nat.add_assoc, ← hm] at hbelow
  rw [show before.count '\n' + removed.count '\n' + (m + 1) =
    n.lines.stop - inserted.count '\n' + removed.count '\n' by omega] at hbelow'
  constructor
  case above =>
    rw [h.start_eq, Revision.lines, Revision.lines, hold, hnew]
    exact Text.take_lines_append _ _ _
  case below =>
    refine ⟨n.lines.stop - inserted.count '\n' + removed.count '\n', removed.count '\n',
      inserted.count '\n', ?_, h.modeAfter_eq hold hnew⟩
    rw [hbelow, hbelow', List.map_map, List.map_map, hremoved, hinserted]
    congr 1
    funext l
    simp only [Function.comp_apply, Line.moved_moved, List.count_append, Text.width_append,
      Nat.add_right_comm]
  case stop_lt =>
    intro l hl
    rw [hspan]
    exact Text.stop_lt_start_of_mem hl (Revision.mem_drop_of_line? hfirst)
  case le_start =>
    intro l hl
    rw [hspan]
    exact Revision.start_le_of_mem_drop hfirst hl
  case stop_le =>
    intro l hl
    rw [hspan]
    exact Revision.stop_le_of_mem_take hlast (by rwa [hstop])
  case lt_start =>
    intro l hl
    rw [hspan]
    have hmem := Revision.mem_take_of_line? hlast
    rw [hstop] at hmem
    exact Text.stop_lt_start_of_mem hmem hl
  case edit_le =>
    intro l hl
    rw [hbelow] at hl
    obtain ⟨l, -, rfl⟩ := List.mem_map.1 hl
    rw [hstart, hinserted, ← Text.width_append]
    exact Nat.le_add_left _ _
  case start_le_edit =>
    rw [hspan, hstart]
    have hline := Text.lineAt_width before (inserted ++ after)
    rw [← hnew, ← h.start_eq] at hline
    exact Text.start_le_of_le_lineAt (Nat.le_of_eq hline.symm) hfirst

end

end Notice

namespace Tagger

/-- An edit is taken in with one notice. Its span overlaps or touches every literal that is not an old
one, but for those of which the edit has cut off an end outside the lines of the notice. -/
theorem exists_notice_touches_iff {r : Revision} {number : Nat} {range : Range}
    {replacement : String} (hfits : (r.edit number range replacement).1.length < Offset.bound) :
    let made := r.edit number range replacement
    ∃ notice, (ofRevision r).apply made.1 [made.2] = .ok (ofRevision made.1, [notice]) ∧
      ∀ l ∈ made.1.literals,
        (¬ made.2.Keeps r.literals l → l.range.Touches notice.span) ↔
          ¬ (notice.CutsEnd r made.1 l ∨ notice.CutsStart made.2 r made.1 l) := by
  have hinserted := (r.isEdited_edit number range replacement).newLength_eq
  obtain ⟨before, removed, after, hold, hnew, hstart, hremoved, happly⟩ := exists_apply_edit_eq hfits
  generalize r.edit number range replacement = made at hnew hstart hremoved hinserted happly ⊢
  have hscan := LineModes.isRescan_resize before removed replacement.toList after
  rw [← hold, ← hnew, ← LineModes.build_eq, ← LineModes.build_eq] at hscan
  have hframes :=
    (Notice.isTight_ofLines hold hnew hscan).frames hold hnew hstart hremoved hinserted
  exact ⟨_, happly, fun l hl => hframes.touches_iff hl⟩

theorem exists_notice_touches_iff_opening :
    ((Revision.first "a;\n@\"é\r\n\nb\";\n\"c\"").edit 1 ⟨5, 7⟩ "").1.length < Offset.bound ∧
    let r := Revision.first "a;\n@\"é\r\n\nb\";\n\"c\""
    let made := r.edit 1 ⟨5, 7⟩ ""
    ∃ notice, (ofRevision r).apply made.1 [made.2] = .ok (ofRevision made.1, [notice]) ∧
      ∀ l ∈ made.1.literals,
        (¬ made.2.Keeps r.literals l → l.range.Touches notice.span) ↔
          ¬ (notice.CutsEnd r made.1 l ∨ notice.CutsStart made.2 r made.1 l) :=
  have h : ((Revision.first "a;\n@\"é\r\n\nb\";\n\"c\"").edit 1 ⟨5, 7⟩ "").1.length <
      Offset.bound := by
    decide +kernel
  ⟨h, exists_notice_touches_iff h⟩

theorem literals_unnoticed_of_edit :
    let r := Revision.first "@\"A\nx\""
    let made := r.edit 1 ⟨4, 5⟩ ""
    ((ofRevision r).apply made.1 [made.2]).toOption = some (ofRevision made.1, [⟨⟨1, 2⟩, ⟨4, 5⟩⟩]) ∧
      r.literals = [⟨⟨2, 5⟩, false, []⟩] ∧ made.1.literals = [⟨⟨2, 3⟩, false, []⟩] ∧
      ¬ made.2.Keeps r.literals ⟨⟨2, 3⟩, false, []⟩ ∧ ¬ (⟨2, 3⟩ : Range).Touches ⟨4, 5⟩ := by
  decide +kernel

example :
    let made := (Revision.first "@\"A\n\nB\"").edit 1 ⟨2, 3⟩ ""
    ((ofRevision (.first "@\"A\n\nB\"")).apply made.1 [made.2]).toOption.map (·.2) =
        some [⟨⟨0, 1⟩, ⟨0, 2⟩⟩] ∧
      made.1.literals = [⟨⟨4, 5⟩, false, []⟩] ∧
      Carried (modeAfter .code (made.1.lines.take 1)) ((made.1.lines.drop 1).take 1) := by
  decide +kernel

end Tagger

end SqlHighlight
