import SqlHighlight.Classify.Classifier
import SqlHighlight.Proofs.Ranges

namespace SqlHighlight.Holes

structure Sorted (holes : List Range) : Prop where
  start_le_stop : ∀ hole ∈ holes, hole.start ≤ hole.stop
  pairwise : holes.Pairwise (·.start ≤ ·.start)

/-- A part that holes leave of a span: it lies apart from all of them, and ends where the span or a
hole does. -/
structure IsPart (holes : List Range) (p s : Span) : Prop where
  category_eq : s.category = p.category
  start_lt_stop : s.range.start < s.range.stop
  le_start : p.range.start ≤ s.range.start
  stop_le : s.range.stop ≤ p.range.stop
  start_eq : s.range.start = p.range.start ∨ ∃ hole ∈ holes, s.range.start = hole.stop
  stop_eq : s.range.stop = p.range.stop ∨ ∃ hole ∈ holes, s.range.stop = hole.start
  apart : ∀ hole ∈ holes, s.range.Apart hole

section

variable {holes : List Range} {hole : Range} {lower upper n : Nat}

theorem Sorted.of_inOrder (h : Range.InOrder lower holes upper) : Sorted holes where
  start_le_stop hole hhole := (h.of_mem hhole).2.1
  pairwise := by
    apply h.pairwise.imp_of_mem
    intro r s hr _ hrs
    exact Nat.le_trans (h.of_mem hr).2.1 hrs

theorem Sorted.sublist {holes' : List Range} (hsub : List.Sublist holes' holes) (h : Sorted holes) :
    Sorted holes' :=
  ⟨fun hole hhole => h.start_le_stop hole (hsub.subset hhole), h.pairwise.sublist hsub⟩

theorem Sorted.of_cons (h : Sorted (hole :: holes)) : Sorted holes :=
  h.sublist (List.sublist_cons_self hole holes)

theorem Sorted.start_le_of_mem_cons (h : Sorted (hole :: holes)) {hole' : Range}
    (hmem : hole' ∈ hole :: holes) : hole.start ≤ hole'.start := by
  rcases List.mem_cons.1 hmem with rfl | hmem
  · exact Nat.le_refl _
  · exact List.rel_of_pairwise_cons h.pairwise hmem

theorem Sorted.endingAfter (n : Nat) (h : Sorted holes) : Sorted (endingAfter n holes) :=
  h.sublist (List.dropWhile_sublist _)

end

section

variable {category : Category} {start stop n : Nat} {hole : Range} {holes : List Range} {s : Span}

theorem cut_of_le (h : stop ≤ start) : cut category start stop holes = [] := by
  cases holes with
  | nil => rw [cut, if_neg (by omega)]
  | cons hole holes => rw [cut, if_neg (by omega)]

theorem inOrder_cut (hholes : Sorted holes) (h : start ≤ stop) :
    Range.InOrder start ((cut category start stop holes).map Span.range) stop := by
  induction holes generalizing start with
  | nil =>
    rw [cut]
    split
    · exact ⟨Nat.le_refl start, h, Nat.le_refl stop⟩
    · exact h
  | cons hole holes ih =>
    have hhole := hholes.start_le_stop hole List.mem_cons_self
    -- Behind a hole that reaches past the span nothing is left.
    have hrest (hlt : hole.start < stop) : Range.InOrder (max start hole.start)
        ((cut category (max start hole.stop) stop holes).map Span.range) stop := by
      rcases Nat.le_total (max start hole.stop) stop with hle | hle
      · exact (ih hholes.of_cons hle).of_le_lower (by omega)
      · rw [cut_of_le hle]
        exact Nat.max_le.2 ⟨h, Nat.le_of_lt hlt⟩
    rw [cut]
    split
    · split
      next hlt =>
        dsimp only
        split
        next hbefore =>
          refine ⟨Nat.le_refl start, Nat.le_of_lt hbefore, ?_⟩
          exact (hrest hlt).of_le_lower (Nat.le_max_right _ _)
        next => exact (hrest hlt).of_le_lower (Nat.le_max_left _ _)
      next => exact ⟨Nat.le_refl start, h, Nat.le_refl stop⟩
    · exact h

theorem IsPart.eq_of_stop_le {p : Span} (h : IsPart holes p s) (hholes : Sorted holes)
    (hle : ∀ hole ∈ holes, s.range.stop ≤ hole.start) :
    s = ⟨p.category, ⟨p.range.start, s.range.stop⟩⟩ := by
  have hstart : s.range.start = p.range.start := by
    -- A hole that stops where the part starts would start before the part stops.
    rcases h.start_eq with heq | ⟨hole, hmem, heq⟩
    · exact heq
    · have := hle hole hmem
      have := hholes.start_le_stop hole hmem
      have := h.start_lt_stop
      omega
  rw [← h.category_eq, ← hstart]

theorem isPart_of_stop_le (hholes : Sorted holes) (hle : ∀ hole ∈ holes, stop ≤ hole.start) :
    IsPart holes ⟨category, ⟨start, stop⟩⟩ s ↔ start < stop ∧ s = ⟨category, ⟨start, stop⟩⟩ := by
  constructor
  · intro h
    have hstop : s.range.stop = stop := by
      rcases h.stop_eq with heq | ⟨hole, hmem, heq⟩
      · exact heq
      · exact Nat.le_antisymm h.stop_le (heq ▸ hle hole hmem)
    have heq := h.eq_of_stop_le hholes (hstop ▸ hle)
    rw [hstop] at heq
    have hlt := h.start_lt_stop
    rw [heq] at hlt
    exact ⟨hlt, heq⟩
  · rintro ⟨hlt, rfl⟩
    exact ⟨rfl, hlt, Nat.le_refl _, Nat.le_refl _, .inl rfl, .inl rfl,
      fun hole hmem => .inl (hle hole hmem)⟩

theorem isPart_cons_iff (hholes : Sorted (hole :: holes)) (hlt : hole.start < stop) :
    IsPart (hole :: holes) ⟨category, ⟨start, stop⟩⟩ s ↔
      (start < hole.start ∧ s = ⟨category, ⟨start, hole.start⟩⟩) ∨
        IsPart holes ⟨category, ⟨max start hole.stop, stop⟩⟩ s := by
  have hhole := hholes.start_le_stop hole List.mem_cons_self
  constructor
  · intro h
    have hne := h.start_lt_stop
    rcases h.apart hole List.mem_cons_self with hbefore | hbehind
    · have hstop : s.range.stop = hole.start := by
        rcases h.stop_eq with heq | ⟨h', hmem, heq⟩
        · exact absurd (Nat.le_trans (Nat.le_of_eq heq.symm) hbefore) (Nat.not_le.2 hlt)
        · exact Nat.le_antisymm hbefore (heq ▸ hholes.start_le_of_mem_cons hmem)
      have heq := h.eq_of_stop_le hholes fun h' hmem =>
        Nat.le_trans hbefore (hholes.start_le_of_mem_cons hmem)
      rw [hstop] at heq
      rw [heq] at hne
      exact .inl ⟨hne, heq⟩
    · right
      refine ⟨h.category_eq, hne, Nat.max_le.2 ⟨h.le_start, hbehind⟩, h.stop_le, ?_, ?_, ?_⟩
      · rcases h.start_eq with heq | ⟨h', hmem, heq⟩
        · exact .inl (heq.trans (Nat.max_eq_left (heq ▸ hbehind)).symm)
        · rcases List.mem_cons.1 hmem with rfl | hmem
          · exact .inl (heq.trans (Nat.max_eq_right (heq ▸ h.le_start)).symm)
          · exact .inr ⟨h', hmem, heq⟩
      · rcases h.stop_eq with heq | ⟨h', hmem, heq⟩
        · exact .inl heq
        · rcases List.mem_cons.1 hmem with rfl | hmem
          · omega
          · exact .inr ⟨h', hmem, heq⟩
      · exact fun h' hmem => h.apart h' (List.mem_cons_of_mem hole hmem)
  · rintro (⟨hbefore, rfl⟩ | h)
    · exact ⟨rfl, hbefore, Nat.le_refl _, Nat.le_of_lt hlt, .inl rfl,
        .inr ⟨hole, List.mem_cons_self, rfl⟩,
        fun h hmem => .inl (hholes.start_le_of_mem_cons hmem)⟩
    · have hle := Nat.max_le.1 h.le_start
      refine ⟨h.category_eq, h.start_lt_stop, hle.1, h.stop_le, ?_, ?_, ?_⟩
      · rcases h.start_eq with heq | ⟨h', hmem, heq⟩
        · rcases Nat.le_total hole.stop start with hmax | hmax
          · exact .inl (heq.trans (Nat.max_eq_left hmax))
          · exact .inr ⟨hole, List.mem_cons_self, heq.trans (Nat.max_eq_right hmax)⟩
        · exact .inr ⟨h', List.mem_cons_of_mem hole hmem, heq⟩
      · exact h.stop_eq.imp_right fun ⟨h', hmem, heq⟩ => ⟨h', List.mem_cons_of_mem hole hmem, heq⟩
      · intro h' hmem
        rcases List.mem_cons.1 hmem with rfl | hmem
        · exact .inr hle.2
        · exact h.apart h' hmem

theorem mem_cut_iff (hholes : Sorted holes) :
    s ∈ cut category start stop holes ↔ IsPart holes ⟨category, ⟨start, stop⟩⟩ s := by
  induction holes generalizing start with
  | nil =>
    rw [isPart_of_stop_le hholes (by simp), cut]
    split
    next h => simp [h]
    next h => simp [h]
  | cons hole holes ih =>
    rw [cut]
    split
    next hne =>
      split
      next hlt =>
        rw [isPart_cons_iff hholes hlt, ← ih hholes.of_cons]
        dsimp only
        split
        next h => simp [h]
        next h => simp [h]
      next hle =>
        rw [isPart_of_stop_le hholes]
        · simp [hne]
        · exact fun h hmem => Nat.le_trans (Nat.not_lt.1 hle) (hholes.start_le_of_mem_cons hmem)
    next hempty =>
      constructor
      · simp
      · intro h
        exact absurd (Nat.lt_of_le_of_lt h.le_start (Nat.lt_of_lt_of_le h.start_lt_stop h.stop_le))
          hempty

theorem exists_mem_cut (category : Category) (hle : start ≤ n) (hlt : n < stop)
    (hn : ∀ hole ∈ holes, ¬ hole.Contains n) :
    ∃ s ∈ cut category start stop holes, s.range.Contains n := by
  have hne : start < stop := Nat.lt_of_le_of_lt hle hlt
  induction holes generalizing start with
  | nil =>
    rw [cut, if_pos hne]
    exact ⟨_, List.mem_singleton_self _, hle, hlt⟩
  | cons hole holes ih =>
    rw [cut, if_pos hne]
    split
    next =>
      have hhole := hn hole List.mem_cons_self
      rcases Nat.lt_or_ge n hole.start with hbefore | hstart
      · refine ⟨⟨category, ⟨start, hole.start⟩⟩, ?_, hle, hbefore⟩
        simp [Nat.lt_of_le_of_lt hle hbefore]
      · have hstop : hole.stop ≤ n := Nat.not_lt.1 fun h => hhole ⟨hstart, h⟩
        have hmax := Nat.max_le.2 ⟨hle, hstop⟩
        obtain ⟨s, hs, hcontains⟩ := ih hmax (fun h hmem => hn h (List.mem_cons_of_mem hole hmem))
          (Nat.lt_of_le_of_lt hmax hlt)
        refine ⟨s, ?_, hcontains⟩
        dsimp only
        split
        · exact List.mem_cons_of_mem _ hs
        · exact hs
    next => exact ⟨_, List.mem_singleton_self _, hle, hlt⟩

end

section

variable {n lower upper : Nat} {holes : List Range} {p s : Span} {ps : List Span}

theorem mem_of_mem_endingAfter {hole : Range} (h : hole ∈ endingAfter n holes) : hole ∈ holes :=
  (List.dropWhile_sublist _).subset h

theorem stop_le_of_not_mem_endingAfter {hole : Range} (hmem : hole ∈ holes)
    (h : hole ∉ endingAfter n holes) : hole.stop ≤ n := by
  rw [endingAfter] at h
  have := List.takeWhile_append_dropWhile (p := fun r : Range => r.stop ≤ n) (l := holes)
  rw [← this, List.mem_append, or_iff_left h] at hmem
  exact of_decide_eq_true (List.all_eq_true.1 List.all_takeWhile hole hmem)

theorem isPart_endingAfter_iff (hholes : Sorted holes) (hn : n ≤ p.range.start) :
    IsPart (endingAfter n holes) p s ↔ IsPart holes p s := by
  constructor
  · intro h
    refine ⟨h.category_eq, h.start_lt_stop, h.le_start, h.stop_le, ?_, ?_, ?_⟩
    · exact h.start_eq.imp_right fun ⟨hole, hmem, heq⟩ => ⟨hole, mem_of_mem_endingAfter hmem, heq⟩
    · exact h.stop_eq.imp_right fun ⟨hole, hmem, heq⟩ => ⟨hole, mem_of_mem_endingAfter hmem, heq⟩
    · intro hole hmem
      by_cases hlater : hole ∈ endingAfter n holes
      · exact h.apart hole hlater
      · exact .inr (Nat.le_trans (stop_le_of_not_mem_endingAfter hmem hlater)
          (Nat.le_trans hn h.le_start))
  · intro h
    refine ⟨h.category_eq, h.start_lt_stop, h.le_start, h.stop_le, ?_, ?_, ?_⟩
    · rcases h.start_eq with heq | ⟨hole, hmem, heq⟩
      · exact .inl heq
      · by_cases hlater : hole ∈ endingAfter n holes
        · exact .inr ⟨hole, hlater, heq⟩
        · have := stop_le_of_not_mem_endingAfter hmem hlater
          have := h.le_start
          exact .inl (by omega)
    · rcases h.stop_eq with heq | ⟨hole, hmem, heq⟩
      · exact .inl heq
      · by_cases hlater : hole ∈ endingAfter n holes
        · exact .inr ⟨hole, hlater, heq⟩
        · have := stop_le_of_not_mem_endingAfter hmem hlater
          have := hholes.start_le_stop hole hmem
          have := h.le_start
          have := h.start_lt_stop
          omega
    · exact fun hole hmem => h.apart hole (mem_of_mem_endingAfter hmem)

theorem inOrder_cutAll (hholes : Sorted holes)
    (h : Range.InOrder lower (ps.map Span.range) upper) :
    Range.InOrder lower ((cutAll holes ps).map Span.range) upper := by
  induction ps generalizing holes lower with
  | nil => exact h
  | cons p ps ih =>
    obtain ⟨hstart, hstop, hrest⟩ := h
    have hlater := hholes.endingAfter p.range.start
    rw [cutAll, List.map_append]
    exact ((inOrder_cut hlater hstop).of_le_lower hstart).append (ih hlater hrest)

theorem mem_cutAll_iff (hholes : Sorted holes) (h : ps.Pairwise (·.range.start ≤ ·.range.start)) :
    s ∈ cutAll holes ps ↔ ∃ p ∈ ps, IsPart holes p s := by
  induction ps generalizing holes with
  | nil => simp [cutAll]
  | cons p ps ih =>
    obtain ⟨hp, hps⟩ := List.pairwise_cons.1 h
    have hlater := hholes.endingAfter p.range.start
    -- Holes that end before this span end before those after it too.
    have hrest : (∃ q ∈ ps, IsPart (endingAfter p.range.start holes) q s) ↔
        ∃ q ∈ ps, IsPart holes q s :=
      exists_congr fun q => and_congr_right fun hq => isPart_endingAfter_iff hholes (hp q hq)
    rw [cutAll, List.mem_append, mem_cut_iff hlater, ih hlater hps, hrest,
      isPart_endingAfter_iff hholes (Nat.le_refl _)]
    simp only [List.mem_cons, exists_eq_or_imp]

theorem exists_mem_cutAll_iff (hholes : Sorted holes)
    (h : ps.Pairwise (·.range.start ≤ ·.range.start)) (category : Category) :
    (∃ s ∈ cutAll holes ps, s.category = category ∧ s.range.Contains n) ↔
      (∃ p ∈ ps, p.category = category ∧ p.range.Contains n) ∧
        ∀ hole ∈ holes, ¬ hole.Contains n := by
  constructor
  · rintro ⟨s, hs, rfl, hn⟩
    obtain ⟨p, hp, hpart⟩ := (mem_cutAll_iff hholes h).1 hs
    exact ⟨⟨p, hp, hpart.category_eq.symm, Nat.le_trans hpart.le_start hn.1,
      Nat.lt_of_lt_of_le hn.2 hpart.stop_le⟩, fun hole hmem => (hpart.apart hole hmem).not_contains hn⟩
  · rintro ⟨⟨p, hp, rfl, hn⟩, hout⟩
    obtain ⟨s, hs, hcontains⟩ := exists_mem_cut p.category hn.1 hn.2 hout
    have hpart := (mem_cut_iff hholes).1 hs
    exact ⟨s, (mem_cutAll_iff hholes h).2 ⟨p, hp, hpart⟩, hpart.category_eq, hcontains⟩

end

structure Around (holes : List Range) (lower : Nat) (spans : List Span) (upper : Nat) : Prop where
  inOrder : Range.InOrder lower (spans.map Span.range) upper
  start_lt_stop : ∀ s ∈ spans, s.range.start < s.range.stop
  apart : ∀ s ∈ spans, ∀ hole ∈ holes, s.range.Apart hole

section

variable {holes : List Range} {lower upper : Nat} {ps : List Span}

theorem pairwise_start_of_inOrder (h : Range.InOrder lower (ps.map Span.range) upper) :
    ps.Pairwise (·.range.start ≤ ·.range.start) := by
  have hsorted := (Sorted.of_inOrder h).pairwise
  rwa [List.pairwise_map] at hsorted

theorem around_cutAll (hholes : Sorted holes) (h : Range.InOrder lower (ps.map Span.range) upper) :
    Around holes lower (cutAll holes ps) upper where
  inOrder := inOrder_cutAll hholes h
  start_lt_stop s hs := by
    obtain ⟨p, -, hpart⟩ := (mem_cutAll_iff hholes (pairwise_start_of_inOrder h)).1 hs
    exact hpart.start_lt_stop
  apart s hs := by
    obtain ⟨p, -, hpart⟩ := (mem_cutAll_iff hholes (pairwise_start_of_inOrder h)).1 hs
    exact hpart.apart

end

theorem Around.shift {holes : List Range} {lower upper : Nat} {spans : List Span} (n : Nat)
    (h : Around holes lower spans upper) :
    Around (holes.map (Range.shift n)) (lower + n)
      (spans.map fun s => ⟨s.category, s.range.shift n⟩) (upper + n) where
  inOrder := by
    have hshift := (Range.InOrder.shift_iff (n := n)).2 h.inOrder
    rw [List.map_map] at hshift ⊢
    exact hshift
  start_lt_stop := by
    rw [List.forall_mem_map]
    exact fun s hs => Nat.add_lt_add_right (h.start_lt_stop s hs) n
  apart := by
    rw [List.forall_mem_map]
    intro s hs
    rw [List.forall_mem_map]
    intro hole hmem
    exact (h.apart s hs hole hmem).imp (Nat.add_le_add_right · n) (Nat.add_le_add_right · n)

theorem width_replicate {filler : Char} (h : filler.utf8Size = 1) (k : Nat) :
    Text.width (List.replicate k filler) = k := by
  induction k with
  | zero => rfl
  | succ k ih => rw [List.replicate_succ, Text.width_cons, ih, h, Nat.add_comm]

theorem width_fillFrom {filler : Char} (h : filler.utf8Size = 1) (offset : Nat) (holes : List Range)
    (text : List Char) : Text.width (fillFrom filler offset holes text) = Text.width text := by
  induction text generalizing offset holes with
  | nil => rfl
  | cons c cs ih =>
    rw [fillFrom, Text.width_append, ih, Text.width_cons]
    split
    · rw [width_replicate h]
    · rfl

end SqlHighlight.Holes
