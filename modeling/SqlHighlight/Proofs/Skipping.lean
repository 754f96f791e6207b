import SqlHighlight.Literal.Scanner

namespace SqlHighlight.Literal

namespace Cursor

/-- Where a turn of the skip leads to, unless the string ends at the cursor. -/
def next? (k : StringKind) (c : Cursor) : Option Cursor :=
  if c.atEnd then none
  else match c.turn k with
    | .pass more => some (c.advance (more + 1))
    | .hole => some ((c.advance 1).skipHole 0).cursor
    | .close => none

theorem eq_of_next? {k : StringKind} {c d : Cursor} (h : c.next? k = some d) :
    ¬ c.atEnd ∧ ((∃ more, c.turn k = .pass more ∧ d = c.advance (more + 1)) ∨
      c.turn k = .hole ∧ d = ((c.advance 1).skipHole 0).cursor) := by
  unfold next? at h
  split at h
  · cases h
  · next hend =>
    refine ⟨hend, ?_⟩
    split at h
    · next more hturn => exact .inl ⟨more, hturn, (Option.some.inj h).symm⟩
    · next hturn => exact .inr ⟨hturn, (Option.some.inj h).symm⟩
    · cases h

theorem length_lt_of_next? {k : StringKind} {c d : Cursor} (h : c.next? k = some d) :
    d.ahead.length < c.ahead.length := by
  obtain ⟨hend, ⟨more, -, rfl⟩ | ⟨-, rfl⟩⟩ := eq_of_next? h
  · exact length_advance_lt hend more
  · exact Onward.length_lt hend _

theorem pos_lt_of_next? {k : StringKind} {c d : Cursor} (h : c.next? k = some d) : c.pos < d.pos := by
  have hlt := length_lt_of_next? h
  have hsum : d.pos + d.ahead.length = c.pos + c.ahead.length := by
    obtain ⟨-, ⟨more, -, rfl⟩ | ⟨-, rfl⟩⟩ := eq_of_next? h
    · exact (Onward.advance c (more + 1)).pos_add_length
    · exact (((c.advance 1).skipHole 0).after 1).pos_add_length
  omega

/-- The places that a skip comes to, one for each turn of its loop. -/
def places (k : StringKind) (c : Cursor) : List Cursor :=
  match _h : c.next? k with
  | none => [c]
  | some d => c :: d.places k
termination_by c.ahead.length
decreasing_by exact length_lt_of_next? _h

theorem places_ne_nil (k : StringKind) (c : Cursor) : c.places k ≠ [] := by
  rw [places]
  split <;> simp

def last (k : StringKind) (c : Cursor) : Cursor := (c.places k).getLast (places_ne_nil k c)

def closes (k : StringKind) (c : Cursor) : Bool := (c.last k).turn k = .close

def hole? (k : StringKind) (c : Cursor) : Option Range :=
  if c.turn k = .hole then some ⟨c.pos, ((c.advance 1).skipHole 0).cursor.pos⟩ else none

def skippedHoles (k : StringKind) (c : Cursor) : List Range := (c.places k).filterMap (hole? k)

section

variable {k : StringKind} {c d : Cursor}

theorem turn_of_forall_ne (h : ∀ m ∈ ['\\', '"', '{', '}'], c.peek 0 ≠ m.toUInt8) :
    c.turn k = .pass 0 := by
  simp only [List.forall_mem_cons, List.not_mem_nil, false_implies, implies_true, and_true] at h
  obtain ⟨hescape, hquote, hopen, hclose⟩ := h
  cases hk : k.verbatim with
  | false => simp [turn, hk, regularTurn, hescape, hquote, hopen, hclose]
  | true => simp [turn, hk, verbatimTurn, hquote, hopen, hclose]

theorem turn_of_atEnd (h : c.atEnd) : c.turn k = .pass 0 := by
  apply turn_of_forall_ne
  simp only [peek, List.isEmpty_iff.1 h, List.forall_mem_cons]
  exact ⟨by decide, by decide, by decide, by decide, by simp⟩

theorem turn_of_next?_eq_none (h : c.next? k = none) (hend : ¬ c.atEnd) : c.turn k = .close := by
  rw [next?, if_neg hend] at h
  split at h
  · cases h
  · cases h
  · assumption

theorem places_of_next? (h : c.next? k = some d) : c.places k = c :: d.places k := by
  rw [places]
  split
  next hnone => simp [h] at hnone
  next e hsome => rw [Option.some.inj (h.symm.trans hsome)]

theorem places_of_next?_eq_none (h : c.next? k = none) : c.places k = [c] := by
  rw [places]
  split
  next => rfl
  next e hsome => simp [h] at hsome

theorem last_of_next? (h : c.next? k = some d) : c.last k = d.last k := by
  simp only [last, places_of_next? h]
  exact List.getLast_cons (places_ne_nil k d)

theorem closes_of_next? (h : c.next? k = some d) : c.closes k = d.closes k := by
  rw [closes, last_of_next? h, closes]

theorem skippedHoles_of_next? (h : c.next? k = some d) :
    c.skippedHoles k = (c.hole? k).toList ++ d.skippedHoles k := by
  rw [skippedHoles, places_of_next? h, List.filterMap_cons, skippedHoles]
  cases c.hole? k <;> rfl

theorem last_of_next?_eq_none (h : c.next? k = none) : c.last k = c := by
  simp only [last, places_of_next?_eq_none h]
  rfl

theorem closes_of_next?_eq_none (h : c.next? k = none) : c.closes k = !c.atEnd := by
  rw [closes, last_of_next?_eq_none h]
  cases hend : c.atEnd with
  | false => simp [turn_of_next?_eq_none h (by simp [hend])]
  | true => simp [turn_of_atEnd hend]

theorem hole?_of_next?_eq_none (h : c.next? k = none) : c.hole? k = none := by
  apply if_neg
  cases hend : c.atEnd with
  | false => simp [turn_of_next?_eq_none h (by simp [hend])]
  | true => simp [turn_of_atEnd hend]

theorem skippedHoles_of_next?_eq_none (h : c.next? k = none) : c.skippedHoles k = [] := by
  rw [skippedHoles, places_of_next?_eq_none h, List.filterMap_cons, hole?_of_next?_eq_none h]
  rfl

theorem pos_le_last (k : StringKind) (c : Cursor) : c.pos ≤ (c.last k).pos := by
  fun_induction places k c with
  | case1 c h => exact Nat.le_of_eq (congrArg pos (last_of_next?_eq_none h).symm)
  | case2 c d h ih =>
    rw [last_of_next? h]
    exact Nat.le_trans (Nat.le_of_lt (pos_lt_of_next? h)) ih

theorem skippedHoles_of_last_le (h : (c.last k).pos ≤ c.pos) : c.skippedHoles k = [] := by
  cases hnext : c.next? k with
  | none => exact skippedHoles_of_next?_eq_none hnext
  | some d =>
    have hlt := pos_lt_of_next? hnext
    have hle := pos_le_last k d
    rw [last_of_next? hnext] at h
    omega

theorem atEnd_last (h : c.closes k = false) : (c.last k).atEnd := by
  fun_induction places k c with
  | case1 c hnext =>
    rw [closes_of_next?_eq_none hnext] at h
    rw [last_of_next?_eq_none hnext]
    simpa using h
  | case2 c d hnext ih =>
    rw [closes_of_next? hnext] at h
    rw [last_of_next? hnext]
    exact ih h

end

theorem cursor_skipString (k : StringKind) (c : Cursor) :
    (c.skipString k).cursor = if c.closes k then (c.last k).advance 1 else c.last k := by
  fun_induction places k c with
  | case1 c h =>
    rw [closes_of_next?_eq_none h, last_of_next?_eq_none h, skipString]
    cases hend : c.atEnd with
    | false => simp [turn_of_next?_eq_none h (by simp [hend])]
    | true => simp [advance]
  | case2 c d h ih =>
    rw [closes_of_next? h, last_of_next? h, ← ih, skipString]
    obtain ⟨hend, ⟨more, hturn, rfl⟩ | ⟨hturn, rfl⟩⟩ := eq_of_next? h
    · simp [hend, hturn]
    · simp [hend, hturn]

end Cursor

namespace Scanner

def scan (k : StringKind) (s : Scanner) : Scanner :=
  if k.verbatim then s.scanVerbatim else s.scanString

section

variable {k : StringKind} {s : Scanner}

theorem scan_eq (h : s.mode = .string k) :
    s.scan k =
      if s.cursor.atEnd then s.endLiteral k.leftOpen
      else match s.cursor.turn k with
        | .pass more => (s.advance (more + 1)).scan k
        | .hole => s.scanHole.scan k
        | .close => (s.endLiteral .code).advance 1 := by
  have hinterpolated : s.mode.isInterpolated = k.interpolated := by rw [h]; rfl
  unfold scan
  cases hk : k.verbatim with
  | false =>
    rw [if_neg Bool.false_ne_true, scanString, hinterpolated, Cursor.turn, hk,
      if_neg Bool.false_ne_true, Cursor.regularTurn, StringKind.leftOpen, hk]
    split
    · rfl
    · split
      · rfl
      · split
        · rfl
        · split
          · rfl
          · split <;> rfl
  | true =>
    rw [if_pos rfl, scanVerbatim, hinterpolated, Cursor.turn, hk, if_pos rfl, Cursor.verbatimTurn,
      StringKind.leftOpen, hk, h]
    split
    · rfl
    · split
      · rfl
      · split
        · rfl
        · split
          · rfl
          · split <;> rfl

def atLast (k : StringKind) (s : Scanner) : Scanner :=
  { s with cursor := s.cursor.last k, holes := s.holes ++ s.cursor.skippedHoles k }

theorem scan_eq_atLast (h : s.mode = .string k) :
    s.scan k =
      if s.cursor.closes k then ((s.atLast k).endLiteral .code).advance 1
      else (s.atLast k).endLiteral k.leftOpen := by
  generalize hc : s.cursor = c
  fun_induction Cursor.places k c generalizing s with
  | case1 c hnext =>
    subst hc
    have hlast : s.atLast k = s := by
      simp [atLast, Cursor.last_of_next?_eq_none hnext, Cursor.skippedHoles_of_next?_eq_none hnext]
    rw [scan_eq h, Cursor.closes_of_next?_eq_none hnext, hlast]
    cases hend : s.cursor.atEnd with
    | false => simp [Cursor.turn_of_next?_eq_none hnext (by simp [hend])]
    | true => rfl
  | case2 c d hnext ih =>
    -- One turn moves the scanner as it moves the skip, and records the hole that the turn goes through.
    subst hc
    have hstep : s.scan k =
        { s with cursor := d, holes := s.holes ++ (s.cursor.hole? k).toList }.scan k := by
      rw [scan_eq h, Cursor.hole?]
      obtain ⟨hend, ⟨more, hturn, rfl⟩ | ⟨hturn, rfl⟩⟩ := Cursor.eq_of_next? hnext
      · simp [hend, hturn, advance]
      · simp [hend, hturn, scanHole]
    rw [hstep, Cursor.closes_of_next? hnext]
    refine (ih (s := { s with cursor := d, holes := _ }) h rfl).trans ?_
    simp [atLast, Cursor.last_of_next? hnext, Cursor.skippedHoles_of_next? hnext]

theorem exists_fragments_endLiteral (next : Mode)
    (h : s.cursor.pos ≤ s.literalStart.getD 0 → s.holes = []) :
    ∃ fs, (s.endLiteral next).fragments = s.fragments ++ fs ∧ fs.flatMap Fragment.holes = s.holes := by
  cases hempty : Range.isEmpty ⟨s.literalStart.getD 0, s.cursor.pos⟩ with
  | true =>
    refine ⟨[], by simp [endLiteral, hempty], ?_⟩
    exact (h (of_decide_eq_true hempty)).symm
  | false => exact ⟨[_], by simp [endLiteral, hempty]; rfl, by simp⟩

end

def inside (k : StringKind) (continued : Bool) (fragments : List Fragment) (c : Cursor) : Scanner :=
  ⟨c, .string k, some c.pos, continued, [], fragments⟩

/-- A scanner has come from one place to another as a skip of the string does. -/
structure FollowsSkip (k : StringKind) (s t : Scanner) : Prop where
  cursor_eq : t.cursor = (s.cursor.skipString k).cursor
  /-- The skip has taken the closing quote, or come to the end of the line. -/
  cursor_skip : (s.cursor.skipString k).cursor =
    if s.cursor.closes k then (s.cursor.last k).advance 1 else s.cursor.last k
  atEnd_last : s.cursor.closes k = false → (s.cursor.last k).atEnd
  mode_eq : t.mode = if s.cursor.closes k then .code else k.leftOpen
  /-- The holes that are recorded since are those that the skip has gone through, in order. -/
  holes_eq : ∃ fs, t.fragments = s.fragments ++ fs ∧ fs.flatMap Fragment.holes = s.cursor.skippedHoles k

theorem followsSkip_scan (k : StringKind) (continued : Bool) (fragments : List Fragment) (c : Cursor) :
    FollowsSkip k (inside k continued fragments c) ((inside k continued fragments c).scan k) := by
  have hscan := scan_eq_atLast (k := k) (s := inside k continued fragments c) rfl
  refine ⟨?_, c.cursor_skipString k, Cursor.atEnd_last, ?_, ?_⟩
  · rw [hscan, Cursor.cursor_skipString]
    split <;> rfl
  · rw [hscan]
    split <;> rfl
  · have hholes := Cursor.skippedHoles_of_last_le (k := k) (c := c)
    obtain ⟨fs, hfs, hflat⟩ := exists_fragments_endLiteral (s := (inside k continued fragments c).atLast k)
      (if c.closes k then .code else k.leftOpen) hholes
    refine ⟨fs, Eq.trans ?_ hfs, hflat⟩
    rw [hscan]
    change (if c.closes k then (((inside k continued fragments c).atLast k).endLiteral .code).advance 1
      else _).fragments = _
    cases c.closes k <;> rfl

theorem followsSkip_scanString_and_scanVerbatim (interpolated continued : Bool)
    (fragments : List Fragment) (c : Cursor) :
    FollowsSkip ⟨false, interpolated⟩ (inside ⟨false, interpolated⟩ continued fragments c)
        (inside ⟨false, interpolated⟩ continued fragments c).scanString ∧
      FollowsSkip ⟨true, interpolated⟩ (inside ⟨true, interpolated⟩ continued fragments c)
        (inside ⟨true, interpolated⟩ continued fragments c).scanVerbatim :=
  ⟨followsSkip_scan ⟨false, interpolated⟩ continued fragments c,
    followsSkip_scan ⟨true, interpolated⟩ continued fragments c⟩

end Scanner

end SqlHighlight.Literal
