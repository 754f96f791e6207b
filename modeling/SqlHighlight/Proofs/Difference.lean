import SqlHighlight.Proofs.Holes

namespace SqlHighlight.Holes

section

variable {holes : List Range} {m n : Nat} {p : Span} {ps : List Span}

theorem endingAfter_endingAfter (h : m ≤ n) :
    endingAfter n (endingAfter m holes) = endingAfter n holes :=
  dropWhile_dropWhile (fun _ hm => decide_eq_true (Nat.le_trans (of_decide_eq_true hm) h)) holes

theorem cutAll_endingAfter (h : ∀ p ∈ ps, n ≤ p.range.start) :
    cutAll (endingAfter n holes) ps = cutAll holes ps := by
  cases ps with
  | nil => rfl
  | cons p ps => rw [cutAll, endingAfter_endingAfter (h p List.mem_cons_self), cutAll]

theorem cutAll_filter (h : ps.Pairwise (·.range.start ≤ ·.range.start)) :
    cutAll holes (ps.filter (!·.range.isEmpty)) = cutAll holes ps := by
  induction ps generalizing holes with
  | nil => rfl
  | cons p ps ih =>
    obtain ⟨hp, hps⟩ := List.pairwise_cons.1 h
    cases hempty : p.range.isEmpty with
    | true =>
      have hcut : cut p.category p.range.start p.range.stop (endingAfter p.range.start holes) = [] :=
        cut_of_le (of_decide_eq_true hempty)
      rw [List.filter_cons_of_neg (by simp [hempty]), ih hps, cutAll, hcut, cutAll_endingAfter hp]
      rfl
    | false => rw [List.filter_cons_of_pos (by simp [hempty]), cutAll, ih hps, cutAll]

theorem pairwise_start_of_separate (h : Range.Separate (ps.map Span.range)) :
    ps.Pairwise (·.range.start ≤ ·.range.start) := by
  have hstart := h.pairwise_start
  rwa [List.pairwise_map] at hstart

theorem exists_inOrder_cutAll (hholes : Sorted holes) (h : Range.Separate (ps.map Span.range)) :
    ∃ upper, Range.InOrder 0 ((cutAll holes ps).map Span.range) upper := by
  have hsub : List.Sublist (ps.filter (!·.range.isEmpty)) ps := List.filter_sublist
  have hne : ∀ r ∈ (ps.filter (!·.range.isEmpty)).map Span.range, r.start < r.stop := by
    rw [List.forall_mem_map]
    intro p hp
    simpa [Range.isEmpty] using (List.mem_filter.1 hp).2
  obtain ⟨upper, hin⟩ := (h.sublist (hsub.map Span.range)).exists_inOrder hne
  rw [← cutAll_filter (pairwise_start_of_separate h)]
  exact ⟨upper, inOrder_cutAll hholes hin⟩

theorem categories_cutAll_eq_singleton_iff (hholes : Range.Separate holes)
    (hps : Range.Separate (ps.map Span.range)) :
    (∀ s ∈ cutAll holes ps, s.range.start < s.range.stop) ∧
      (cutAll holes ps).Pairwise (·.range.stop ≤ ·.range.start) ∧
      ∀ n category, ((cutAll holes ps).filter (·.range.Contains n)).map Span.category = [category] ↔
        (∃ p ∈ ps, p.category = category ∧ p.range.Contains n) ∧
          ∀ hole ∈ holes, ¬ hole.Contains n := by
  have hsorted : Sorted holes := ⟨hholes.start_le_stop, hholes.pairwise_start⟩
  have hstart := pairwise_start_of_separate hps
  obtain ⟨upper, hin⟩ := exists_inOrder_cutAll hsorted hps
  refine ⟨?_, List.pairwise_map.1 hin.pairwise, ?_⟩
  · intro s hs
    obtain ⟨p, -, hpart⟩ := (mem_cutAll_iff hsorted hstart).1 hs
    exact hpart.start_lt_stop
  · intro n category
    rw [← exists_mem_cutAll_iff hsorted hstart]
    constructor
    · intro h
      obtain ⟨s, ss, hfilter, hcategory, -⟩ := List.map_eq_cons_iff.1 h
      have hmem := List.mem_cons_self (a := s) (l := ss)
      rw [← hfilter, List.mem_filter] at hmem
      exact ⟨s, hmem.1, hcategory, of_decide_eq_true hmem.2⟩
    · rintro ⟨s, hs, rfl, hn⟩
      have hone : ((cutAll holes ps).filter (·.range.Contains n)).length ≤ 1 := by
        have := hin.countP_contains_le_one (n := n)
        rwa [List.countP_map, List.countP_eq_length_filter] at this
      have hmem : s ∈ (cutAll holes ps).filter (·.range.Contains n) :=
        List.mem_filter.2 ⟨hs, decide_eq_true hn⟩
      match hfilter : (cutAll holes ps).filter (·.range.Contains n) with
      | [] => simp [hfilter] at hmem
      | [s'] => simp_all
      | s' :: s'' :: ss => simp [hfilter] at hone

theorem categories_cutAll_eq_singleton_iff_across :
    let holes : List Range := [⟨1, 1⟩, ⟨3, 7⟩, ⟨7, 8⟩]
    let ps : List Span := [⟨.keyword, ⟨0, 5⟩⟩, ⟨.plain, ⟨4, 4⟩⟩, ⟨.number, ⟨5, 10⟩⟩]
    Range.Separate holes ∧ Range.Separate (ps.map Span.range) ∧
      cutAll holes ps = [⟨.keyword, ⟨0, 1⟩⟩, ⟨.keyword, ⟨1, 3⟩⟩, ⟨.number, ⟨8, 10⟩⟩] ∧
      (∀ s ∈ cutAll holes ps, s.range.start < s.range.stop) ∧
      (cutAll holes ps).Pairwise (·.range.stop ≤ ·.range.start) ∧
      ∀ n category, ((cutAll holes ps).filter (·.range.Contains n)).map Span.category = [category] ↔
        (∃ p ∈ ps, p.category = category ∧ p.range.Contains n) ∧
          ∀ hole ∈ holes, ¬ hole.Contains n := by
  intro holes ps
  have hholes : Range.Separate holes := ⟨by decide, by decide, by decide⟩
  have hps : Range.Separate (ps.map Span.range) := ⟨by decide, by decide, by decide⟩
  exact ⟨hholes, hps, by decide, categories_cutAll_eq_singleton_iff hholes hps⟩

end

end SqlHighlight.Holes
