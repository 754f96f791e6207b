import SqlHighlight.Proofs.Lowering

namespace SqlHighlight.Text

theorem isBoundary_iff {n : Nat} {cs : List Char} :
    IsBoundary n cs ↔ ∃ before after, cs = before ++ after ∧ width before = n := by
  constructor
  · intro h
    obtain ⟨⟨before, after⟩, hsplit⟩ := Option.isSome_iff_exists.1 h
    obtain ⟨hcs, hwidth⟩ := append_of_splitAt? hsplit
    exact ⟨before, after, hcs.symm, hwidth⟩
  · rintro ⟨before, after, rfl, rfl⟩
    rw [IsBoundary, splitAt?_width_append]
    rfl

theorem isBoundary_append_right (as bs : List Char) (n : Nat) :
    IsBoundary (width as + n) (as ++ bs) ↔ IsBoundary n bs := by
  rw [isBoundary_iff, isBoundary_iff]
  constructor
  · rintro ⟨before, after, heq, hwidth⟩
    rcases List.append_eq_append_iff.1 heq with ⟨ds, rfl, rfl⟩ | ⟨ds, rfl, rfl⟩
    · exact ⟨ds, after, rfl, by rw [width_append] at hwidth; omega⟩
    · rw [width_append] at hwidth
      exact ⟨[], bs, rfl, by rw [width_nil]; omega⟩
  · rintro ⟨before, after, rfl, rfl⟩
    exact ⟨as ++ before, after, (List.append_assoc _ _ _).symm, width_append _ _⟩

theorem isBoundary_append_left {as bs : List Char} {n : Nat} (h : n ≤ width as) :
    IsBoundary n (as ++ bs) ↔ IsBoundary n as := by
  rw [isBoundary_iff, isBoundary_iff]
  constructor
  · rintro ⟨before, after, heq, rfl⟩
    rcases List.append_eq_append_iff.1 heq with ⟨ds, rfl, rfl⟩ | ⟨ds, rfl, rfl⟩
    · have hds : ds = [] := width_eq_zero.1 (by rw [width_append] at h; omega)
      exact ⟨as, [], by simp, by simp [hds]⟩
    · exact ⟨before, ds, rfl, rfl⟩
  · rintro ⟨before, after, rfl, rfl⟩
    exact ⟨before, after ++ bs, List.append_assoc _ _ _, rfl⟩

theorem isBoundary_cons {n : Nat} {c : Char} {cs : List Char} :
    IsBoundary n (c :: cs) ↔ n = 0 ∨ c.utf8Size ≤ n ∧ IsBoundary (n - c.utf8Size) cs := by
  cases n with
  | zero => simp [IsBoundary]
  | succ n =>
    rw [IsBoundary, IsBoundary, splitAt?]
    split
    next hle => simp [hle]
    next hlt => simp [hlt]

section

variable {cs ds : List Char}

theorem isBoundary_iff_of_sizes (h : cs.map Char.utf8Size = ds.map Char.utf8Size) (n : Nat) :
    IsBoundary n cs ↔ IsBoundary n ds := by
  induction cs generalizing ds n with
  | nil =>
    obtain rfl : ds = [] := List.map_eq_nil_iff.1 h.symm
    rfl
  | cons c cs ih =>
    obtain ⟨d, ds, rfl, hc, hcs⟩ := List.map_eq_cons_iff.1 h.symm
    rw [isBoundary_cons, isBoundary_cons, hc, ih hcs.symm]

theorem width_eq_of_sizes (h : cs.map Char.utf8Size = ds.map Char.utf8Size) : width cs = width ds := by
  induction cs generalizing ds with
  | nil =>
    obtain rfl : ds = [] := List.map_eq_nil_iff.1 h.symm
    rfl
  | cons c cs ih =>
    obtain ⟨d, ds, rfl, hc, hcs⟩ := List.map_eq_cons_iff.1 h.symm
    rw [width_cons, width_cons, hc, ih hcs.symm]

end

theorem slice_eq_ok_iff {start stop : Nat} {cs inside : List Char} :
    slice start stop cs = .ok inside ↔
      ∃ before after, cs = before ++ (inside ++ after) ∧ width before = start ∧
        start + width inside = stop := by
  constructor
  · intro h
    rw [slice] at h
    split at h
    next hle =>
      split at h
      next before after hstart =>
        split at h
        next inside' rest hstop =>
          cases h
          obtain ⟨hcs, hbefore⟩ := append_of_splitAt? hstart
          obtain ⟨hafter, hinside⟩ := append_of_splitAt? hstop
          exact ⟨before, rest, by rw [hafter, hcs], hbefore, by omega⟩
        next => cases h
      next => cases h
    next => cases h
  · rintro ⟨before, after, rfl, rfl, rfl⟩
    exact slice_append before inside after

theorem exists_slice {start stop : Nat} {cs : List Char} (hstart : IsBoundary start cs)
    (hstop : IsBoundary stop cs) (hle : start ≤ stop) :
    ∃ inside, slice start stop cs = .ok inside := by
  obtain ⟨⟨before, after⟩, hsplit⟩ := Option.isSome_iff_exists.1 hstart
  obtain ⟨inside, rest, hslice, -⟩ := exists_slice_of_isBoundary hsplit hstop hle
  exact ⟨inside, hslice⟩

theorem slice_trans {start middle stop : Nat} {cs xs ys : List Char}
    (hxs : slice start middle cs = .ok xs) (hys : slice middle stop cs = .ok ys) :
    slice start stop cs = .ok (xs ++ ys) := by
  obtain ⟨before, after, rfl, rfl, rfl⟩ := slice_eq_ok_iff.1 hxs
  obtain ⟨before', after', heq, hwidth, rfl⟩ := slice_eq_ok_iff.1 hys
  have hsplit := splitAt?_width_append (before ++ xs) after
  rw [width_append, List.append_assoc, heq, ← hwidth, splitAt?_width_append] at hsplit
  obtain ⟨rfl, rfl⟩ := Prod.mk.inj (Option.some.inj hsplit)
  refine slice_eq_ok_iff.2 ⟨before, after', by simp, rfl, ?_⟩
  rw [width_append, Nat.add_assoc]

theorem isBoundary_of_slice {start stop : Nat} {cs inside : List Char}
    (h : slice start stop cs = .ok inside) : IsBoundary start cs ∧ IsBoundary stop cs := by
  obtain ⟨before, after, rfl, rfl, rfl⟩ := slice_eq_ok_iff.1 h
  refine ⟨isBoundary_iff.2 ⟨_, _, rfl, rfl⟩, isBoundary_iff.2 ⟨before ++ inside, after, by simp, ?_⟩⟩
  rw [width_append]

end SqlHighlight.Text
