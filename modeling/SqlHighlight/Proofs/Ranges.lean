import SqlHighlight.Text.Bytes

theorem SqlHighlight.dropWhile_dropWhile {α : Type} {p q : α → Bool}
    (h : ∀ x, p x = true → q x = true) (xs : List α) :
    (xs.dropWhile p).dropWhile q = xs.dropWhile q := by
  induction xs with
  | nil => rfl
  | cons x xs ih =>
    rw [List.dropWhile_cons]
    split
    next hp => rw [ih, List.dropWhile_cons_of_pos (h x hp)]
    next => rfl

namespace SqlHighlight.Range

def InOrder (lower : Nat) : List Range → Nat → Prop
  | [], upper => lower ≤ upper
  | r :: rs, upper => lower ≤ r.start ∧ r.start ≤ r.stop ∧ InOrder r.stop rs upper

def decidableInOrder (upper : Nat) :
    (lower : Nat) → (rs : List Range) → Decidable (InOrder lower rs upper)
  | lower, [] => inferInstanceAs (Decidable (lower ≤ upper))
  | lower, r :: rs =>
    have := decidableInOrder upper r.stop rs
    inferInstanceAs (Decidable (lower ≤ r.start ∧ r.start ≤ r.stop ∧ InOrder r.stop rs upper))

instance (lower upper : Nat) (rs : List Range) : Decidable (InOrder lower rs upper) :=
  decidableInOrder upper lower rs

/-- One lies before the other; not even an empty range stands inside. -/
def Apart (r s : Range) : Prop := r.stop ≤ s.start ∨ s.stop ≤ r.start

instance (r s : Range) : Decidable (r.Apart s) := inferInstanceAs (Decidable (_ ∨ _))

theorem Apart.not_contains {r s : Range} {n : Nat} (h : r.Apart s) (hn : r.Contains n) :
    ¬ s.Contains n := by
  intro hs
  rcases h with hle | hle
  · exact Nat.lt_irrefl n (Nat.lt_of_lt_of_le hn.2 (Nat.le_trans hle hs.1))
  · exact Nat.lt_irrefl n (Nat.lt_of_lt_of_le hs.2 (Nat.le_trans hle hn.1))

namespace InOrder

variable {lower upper n : Nat} {r : Range} {rs ss : List Range}

theorem of_le_lower (hle : n ≤ lower) (h : InOrder lower rs upper) : InOrder n rs upper := by
  cases rs with
  | nil => exact Nat.le_trans hle h
  | cons r rs =>
    obtain ⟨hstart, hrest⟩ := h
    exact ⟨Nat.le_trans hle hstart, hrest⟩

theorem of_upper_le (hle : upper ≤ n) (h : InOrder lower rs upper) : InOrder lower rs n := by
  induction rs generalizing lower with
  | nil => exact Nat.le_trans h hle
  | cons r rs ih =>
    obtain ⟨hstart, hstop, hrest⟩ := h
    exact ⟨hstart, hstop, ih hrest⟩

theorem append_iff :
    InOrder lower (rs ++ ss) upper ↔ ∃ n, InOrder lower rs n ∧ InOrder n ss upper := by
  induction rs generalizing lower with
  | nil =>
    constructor
    · intro h
      exact ⟨lower, Nat.le_refl lower, h⟩
    · rintro ⟨n, hle, h⟩
      exact h.of_le_lower hle
  | cons r rs ih =>
    constructor
    · rintro ⟨hstart, hstop, hrest⟩
      obtain ⟨n, hrs, hss⟩ := ih.1 hrest
      exact ⟨n, ⟨hstart, hstop, hrs⟩, hss⟩
    · rintro ⟨n, ⟨hstart, hstop, hrs⟩, hss⟩
      exact ⟨hstart, hstop, ih.2 ⟨n, hrs, hss⟩⟩

theorem append (hrs : InOrder lower rs n) (hss : InOrder n ss upper) :
    InOrder lower (rs ++ ss) upper :=
  append_iff.2 ⟨n, hrs, hss⟩

theorem sublist (hsub : List.Sublist ss rs) (h : InOrder lower rs upper) :
    InOrder lower ss upper := by
  induction hsub generalizing lower with
  | slnil => exact h
  | cons r _ ih =>
    obtain ⟨hstart, hstop, hrest⟩ := h
    exact (ih hrest).of_le_lower (Nat.le_trans hstart hstop)
  | cons_cons r _ ih =>
    obtain ⟨hstart, hstop, hrest⟩ := h
    exact ⟨hstart, hstop, ih hrest⟩

theorem of_mem (h : InOrder lower rs upper) (hr : r ∈ rs) :
    lower ≤ r.start ∧ r.start ≤ r.stop ∧ r.stop ≤ upper :=
  h.sublist (List.singleton_sublist.2 hr)

theorem pairwise (h : InOrder lower rs upper) : rs.Pairwise (·.stop ≤ ·.start) := by
  induction rs generalizing lower with
  | nil => exact .nil
  | cons r rs ih =>
    obtain ⟨-, -, hrest⟩ := h
    refine .cons ?_ (ih hrest)
    intro s hs
    exact (hrest.of_mem hs).1

theorem of_pairwise (hrs : rs.Pairwise (·.stop ≤ ·.start)) (hle : lower ≤ upper)
    (h : ∀ r ∈ rs, lower ≤ r.start ∧ r.start ≤ r.stop ∧ r.stop ≤ upper) :
    InOrder lower rs upper := by
  induction rs generalizing lower with
  | nil => exact hle
  | cons r rs ih =>
    obtain ⟨hr, hrest⟩ := List.pairwise_cons.1 hrs
    obtain ⟨hstart, hstop, hupper⟩ := h r List.mem_cons_self
    refine ⟨hstart, hstop, ih hrest hupper fun s hs => ⟨hr s hs, ?_⟩⟩
    exact (h s (List.mem_cons_of_mem r hs)).2

theorem exists_of_pairwise (hrs : rs.Pairwise (·.stop ≤ ·.start))
    (h : ∀ r ∈ rs, lower ≤ r.start ∧ r.start ≤ r.stop) : ∃ upper, InOrder lower rs upper := by
  induction rs generalizing lower with
  | nil => exact ⟨lower, Nat.le_refl lower⟩
  | cons r rs ih =>
    obtain ⟨hr, hrest⟩ := List.pairwise_cons.1 hrs
    obtain ⟨hstart, hstop⟩ := h r List.mem_cons_self
    obtain ⟨upper, hupper⟩ := ih hrest fun s hs =>
      ⟨hr s hs, (h s (List.mem_cons_of_mem r hs)).2⟩
    exact ⟨upper, hstart, hstop, hupper⟩

theorem shift_iff : InOrder (lower + n) (rs.map (shift n)) (upper + n) ↔ InOrder lower rs upper := by
  induction rs generalizing lower with
  | nil => exact Nat.add_le_add_iff_right
  | cons r rs ih =>
    rw [List.map_cons, InOrder, InOrder, ← ih, shift, Nat.add_le_add_iff_right,
      Nat.add_le_add_iff_right]

theorem countP_contains_le_one (h : InOrder lower rs upper) :
    rs.countP (fun r => r.Contains n) ≤ 1 := by
  induction rs generalizing lower with
  | nil => simp
  | cons r rs ih =>
    obtain ⟨-, -, hrest⟩ := h
    rw [List.countP_cons]
    split
    next hr =>
      have hlt := (of_decide_eq_true hr).2
      have hnone : rs.countP (fun r => r.Contains n) = 0 := by
        rw [List.countP_eq_zero]
        intro s hs hmem
        have hle := (hrest.of_mem hs).1
        have hstart := (of_decide_eq_true hmem).1
        exact Nat.not_lt.2 (Nat.le_trans hle hstart) hlt
      exact Nat.le_of_eq (congrArg Nat.succ hnone)
    next => exact ih hrest

end InOrder

def Disjoint (r s : Range) : Prop := ∀ n, r.Contains n → ¬ s.Contains n

theorem isEmpty_iff {r : Range} : r.isEmpty = true ↔ ∀ n, ¬ r.Contains n := by
  rw [isEmpty, decide_eq_true_eq]
  constructor
  · intro h n hn
    exact Nat.not_lt.2 h (Nat.lt_of_le_of_lt hn.1 hn.2)
  · intro h
    exact Nat.not_lt.1 fun hlt => h r.start ⟨Nat.le_refl _, hlt⟩

theorem disjoint_iff {r s : Range} :
    r.Disjoint s ↔ r.isEmpty = true ∨ s.isEmpty = true ∨ r.Apart s := by
  constructor
  · intro h
    refine Decidable.byContradiction fun hne => ?_
    simp only [not_or, Apart, isEmpty, decide_eq_true_eq] at hne
    -- The greater of the two starts lies in both.
    exact h (max r.start s.start) ⟨by omega, by omega⟩ ⟨by omega, by omega⟩
  · rintro (hr | hs | h) n hn
    · exact absurd hn (isEmpty_iff.1 hr n)
    · exact isEmpty_iff.1 hs n
    · exact h.not_contains hn

instance (r s : Range) : Decidable (r.Disjoint s) := decidable_of_iff _ disjoint_iff.symm

/-- Ranges in the order of their starts, none inverted and no two with an offset in common. An empty
one has none in common with any, even inside another. -/
structure Separate (rs : List Range) : Prop where
  start_le_stop : ∀ r ∈ rs, r.start ≤ r.stop
  pairwise_start : rs.Pairwise (·.start ≤ ·.start)
  pairwise_disjoint : rs.Pairwise Disjoint

namespace Separate

variable {rs ss : List Range}

theorem sublist (hsub : List.Sublist ss rs) (h : Separate rs) : Separate ss :=
  ⟨fun r hr => h.start_le_stop r (hsub.subset hr), h.pairwise_start.sublist hsub,
    h.pairwise_disjoint.sublist hsub⟩

theorem exists_inOrder (h : Separate rs) (hne : ∀ r ∈ rs, r.start < r.stop) :
    ∃ upper, InOrder 0 rs upper := by
  refine InOrder.exists_of_pairwise ?_ fun r hr => ⟨Nat.zero_le _, h.start_le_stop r hr⟩
  apply (h.pairwise_start.and h.pairwise_disjoint).imp_of_mem
  rintro r s hr hs ⟨hle, hdisjoint⟩
  exact Nat.not_lt.1 fun hlt => hdisjoint s.start ⟨hle, hlt⟩ ⟨Nat.le_refl _, hne s hs⟩

end Separate

end SqlHighlight.Range
