import SqlHighlight.Proofs.Exact
import SqlHighlight.Proofs.WellFormed

namespace SqlHighlight

structure Range.FitsIn (cs : List Char) (r : Range) : Prop where
  start_isBoundary : Text.IsBoundary r.start cs
  stop_isBoundary : Text.IsBoundary r.stop cs

instance (cs : List Char) (r : Range) : Decidable (r.FitsIn cs) :=
  decidable_of_iff (Text.IsBoundary r.start cs ∧ Text.IsBoundary r.stop cs)
    ⟨fun ⟨hstart, hstop⟩ => ⟨hstart, hstop⟩, fun ⟨hstart, hstop⟩ => ⟨hstart, hstop⟩⟩

theorem Range.fitsIn_shift_iff {before inside after : List Char} {r : Range}
    (hstart : r.start ≤ Text.width inside) (hstop : r.stop ≤ Text.width inside) :
    (r.shift (Text.width before)).FitsIn (before ++ (inside ++ after)) ↔ r.FitsIn inside := by
  have hiff {n : Nat} (hn : n ≤ Text.width inside) :
      Text.IsBoundary (n + Text.width before) (before ++ (inside ++ after)) ↔
        Text.IsBoundary n inside := by
    rw [Nat.add_comm, Text.isBoundary_append_right, Text.isBoundary_append_left hn]
  constructor
  · intro h
    exact ⟨(hiff hstart).1 h.start_isBoundary, (hiff hstop).1 h.stop_isBoundary⟩
  · intro h
    exact ⟨(hiff hstart).2 h.start_isBoundary, (hiff hstop).2 h.stop_isBoundary⟩

namespace Sql

theorem fitsIn_of_mem_layOut (before : List Char) {ps : List Piece} {s : Span}
    (h : s ∈ layOut (Text.width before) ps) :
    s.range.FitsIn (before ++ ps.flatMap fun p => p.text.toList) := by
  induction ps generalizing before with
  | nil => cases h
  | cons p ps ih =>
    have hwidth : Text.width before + p.width = Text.width (before ++ p.text.toList) :=
      (Text.width_append _ _).symm
    rw [List.flatMap_cons]
    rcases List.mem_cons.1 h with rfl | h
    · refine ⟨Text.isBoundary_iff.2 ⟨before, _, rfl, rfl⟩, ?_⟩
      exact Text.isBoundary_iff.2 ⟨before ++ p.text.toList, _, (List.append_assoc _ _ _).symm, hwidth.symm⟩
    · rw [hwidth] at h
      rw [← List.append_assoc]
      exact ih _ h

/-- Unless there are errors, the pieces are as wide as the characters of the text, one by one. -/
def Document.Mirrors (sql : String) (d : Document) : Prop :=
  d.root ≠ none → d.errorFound = false →
    (d.pieces.flatMap fun p => p.text.toList).map Char.utf8Size = sql.toList.map Char.utf8Size

end Sql

theorem Backend.exists_mirrors {trees : String → Option Sql.ConcreteTree} {backend : Backend}
    {sql : String} (h : backend = .concrete → ∀ tree ∈ trees sql, tree.root.FitsIn sql.toList) :
    ∃ d, backend.parser trees sql = .ok d ∧ d.Mirrors sql := by
  cases backend with
  | tokens => exact ⟨_, rfl, fun _ => Sql.sizes_ofText⟩
  | concrete =>
    cases htree : trees sql with
    | none => exact ⟨⟨none, false⟩, by simp [parser, htree], fun hroot => absurd rfl hroot⟩
    | some tree =>
      obtain ⟨nodes, hd, htext⟩ := Sql.exists_ofConcrete (h rfl tree htree)
      refine ⟨⟨some (.block .root nodes), tree.hasError⟩, by simp [parser, htree, hd], fun _ _ => ?_⟩
      exact congrArg (List.map Char.utf8Size) htext

namespace Holes

variable {filler : Char} {offset n : Nat} {holes : List Range} {text : List Char}

theorem exists_of_hasStarted (h : hasStarted offset (endingAfter offset holes) = true) :
    ∃ hole ∈ holes, hole.Contains offset := by
  rw [endingAfter] at h
  cases hdrop : holes.dropWhile (·.stop ≤ offset) with
  | nil => simp [hdrop, hasStarted] at h
  | cons hole rest =>
    rw [hdrop] at h
    have hmem : hole ∈ holes.dropWhile (·.stop ≤ offset) := hdrop ▸ List.mem_cons_self
    have hhead := List.head?_dropWhile_not (fun r : Range => decide (r.stop ≤ offset)) holes
    rw [hdrop] at hhead
    exact ⟨hole, mem_of_mem_endingAfter hmem, of_decide_eq_true h, by simpa using hhead⟩

theorem exists_fillFrom_cons (hfiller : filler.utf8Size = 1) (offset : Nat) (holes : List Range)
    (c : Char) (cs : List Char) :
    ∃ block, fillFrom filler offset holes (c :: cs) =
        block ++ fillFrom filler (offset + c.utf8Size) (endingAfter offset holes) cs ∧
      Text.width block = c.utf8Size ∧ (block = [c] ∨ ∃ hole ∈ holes, hole.Contains offset) := by
  refine ⟨_, rfl, ?_⟩
  split
  next hstarted => exact ⟨width_replicate hfiller _, .inr (exists_of_hasStarted hstarted)⟩
  next => exact ⟨rfl, .inl rfl⟩

theorem isBoundary_of_fillFrom (hfiller : filler.utf8Size = 1)
    (hstop : ∀ hole ∈ holes, Text.IsBoundary (hole.stop - offset) text)
    (hn : ∀ hole ∈ holes, offset + n ≤ hole.start ∨ hole.stop ≤ offset + n)
    (h : Text.IsBoundary n (fillFrom filler offset holes text)) : Text.IsBoundary n text := by
  induction text generalizing offset holes n with
  | nil => exact h
  | cons c cs ih =>
    obtain ⟨block, heq, hwidth, hblock⟩ := exists_fillFrom_cons hfiller offset holes c cs
    rw [heq] at h
    rw [Text.isBoundary_cons]
    rcases Nat.lt_or_ge n c.utf8Size with hlt | hge
    · left
      rcases hblock with rfl | ⟨hole, hmem, hcontains⟩
      · have hcases := Text.isBoundary_cons.1 h
        omega
      · -- A hole that has started goes on to the end of the character at least.
        obtain ⟨hstart, hlt'⟩ := hcontains
        have hcases := Text.isBoundary_cons.1 (hstop hole hmem)
        have := hn hole hmem
        omega
    · right
      obtain ⟨m, rfl⟩ := Nat.exists_eq_add_of_le hge
      nth_rewrite 1 [← hwidth] at h
      rw [Text.isBoundary_append_right] at h
      rw [Nat.add_sub_cancel_left]
      refine ⟨hge, ih ?_ ?_ h⟩
      · intro hole hmem
        rcases Text.isBoundary_cons.1 (hstop hole (mem_of_mem_endingAfter hmem)) with hle | ⟨-, hcs⟩
        · rw [Nat.sub_eq_zero_of_le (by omega)]
          simp [Text.IsBoundary]
        · rwa [← Nat.sub_sub]
      · intro hole hmem
        rw [Nat.add_assoc]
        exact hn hole (mem_of_mem_endingAfter hmem)

theorem IsPart.start_outside {p s : Span} (h : IsPart holes p s) {hole : Range}
    (hmem : hole ∈ holes) : s.range.start ≤ hole.start ∨ hole.stop ≤ s.range.start := by
  have := h.start_lt_stop
  rcases h.apart hole hmem with hle | hle
  · exact .inl (by omega)
  · exact .inr hle

theorem IsPart.stop_outside {p s : Span} (h : IsPart holes p s) {hole : Range}
    (hmem : hole ∈ holes) : s.range.stop ≤ hole.start ∨ hole.stop ≤ s.range.stop := by
  have := h.start_lt_stop
  rcases h.apart hole hmem with hle | hle
  · exact .inl hle
  · exact .inr (by omega)

end Holes

namespace Classifier

section

variable {c : Classifier} {r : Revision} {l : Literal} {ls : List Literal} {spans : List Span} {s : Span}

theorem fitsIn_of_classifyText {text : List Char} {holes : List Range}
    (hparser : ∀ sql d, c.parser sql = .ok d → d.Mirrors sql) (hholes : Holes.Sorted holes)
    (hfits : ∀ hole ∈ holes, hole.FitsIn text) (h : c.classifyText text holes = .ok (some spans))
    (hs : s ∈ spans) : s.range.FitsIn text := by
  obtain ⟨d, hd, hused⟩ := parser_of_classifyText h
  obtain ⟨hroot, herror, -, rfl⟩ := of_spansOf? hused
  obtain ⟨p, hp, hpart⟩ :=
    (Holes.mem_cutAll_iff hholes (Holes.pairwise_start_of_inOrder (inOrder_shown d))).1 hs
  have hpiece := Sql.fitsIn_of_mem_layOut [] (List.mem_filter.1 hp).1
  -- Boundaries of the pieces are boundaries of the text, unless they lie inside a hole.
  have hback {n : Nat} (hn : Text.IsBoundary n (d.pieces.flatMap fun p => p.text.toList))
      (hout : ∀ hole ∈ holes, n ≤ hole.start ∨ hole.stop ≤ n) : Text.IsBoundary n text := by
    rw [Text.isBoundary_iff_of_sizes (hparser _ d hd hroot herror), filled, String.toList_ofList] at hn
    refine Holes.isBoundary_of_fillFrom c.settings.utf8Size_fillerByte ?_ ?_ hn
    · exact fun hole hmem => (hfits hole hmem).stop_isBoundary
    · simpa using hout
  constructor
  · rcases hpart.start_eq with heq | ⟨hole, hmem, heq⟩
    · exact hback (heq ▸ hpiece.start_isBoundary) fun _ => hpart.start_outside
    · exact heq ▸ (hfits hole hmem).stop_isBoundary
  · rcases hpart.stop_eq with heq | ⟨hole, hmem, heq⟩
    · exact hback (heq ▸ hpiece.stop_isBoundary) fun _ => hpart.stop_outside
    · exact heq ▸ (hfits hole hmem).start_isBoundary

theorem fitsIn_of_classifyLiteral (hparser : ∀ sql d, c.parser sql = .ok d → d.Mirrors sql)
    (hl : l.IsCutFrom r.chars) (hholes : ∀ hole ∈ l.holes, hole.FitsIn r.chars)
    (hr : r.length < Offset.bound) (h : c.classifyLiteral r l = .ok spans) (hs : s ∈ spans) :
    s.range.FitsIn r.chars := by
  obtain ⟨text, found, hslice, hwidth, hfound, rfl⟩ := exists_of_classifyLiteral hl hr h
  obtain ⟨p, hp, rfl⟩ := List.mem_map.1 hs
  rw [hl.slice_eq] at hslice
  obtain ⟨before, after, hchars, hbefore, -⟩ := Text.slice_eq_ok_iff.1 hslice
  have hin := hl.inOrder_relativeHoles hr hwidth
  cases found with
  | none => cases hp
  | some found =>
    have hfits : ∀ hole ∈ l.relativeHoles, hole.FitsIn text := by
      intro hole hmem
      obtain ⟨-, hle, hstop⟩ := hin.of_mem hmem
      have hshift : hole.shift l.range.start ∈ l.holes := by
        rw [← hl.shift_relativeHoles hr]
        exact List.mem_map_of_mem hmem
      have hhole := hholes _ hshift
      rw [hchars, ← hbefore] at hhole
      exact (Range.fitsIn_shift_iff (Nat.le_trans hle hstop) hstop).1 hhole
    have haround := around_of_classifyText (.of_inOrder hin) hfound
    obtain ⟨-, hle, hstop⟩ := haround.inOrder.of_mem (List.mem_map_of_mem hp)
    rw [hchars, ← hbefore]
    apply (Range.fitsIn_shift_iff (Nat.le_trans hle hstop) hstop).2
    exact fitsIn_of_classifyText hparser (.of_inOrder hin) hfits hfound hp

theorem fitsIn_of_classify (hparser : ∀ sql d, c.parser sql = .ok d → d.Mirrors sql) {t : Tagger}
    {query : Range} (hr : r.length < Offset.bound) (h : c.classify t r query = .ok spans)
    (hs : s ∈ spans) : s.range.FitsIn r.chars := by
  obtain ⟨l, hl, now, hnow, hs⟩ := exists_of_mem_classifyAll h hs
  have hformed := t.wellFormed_literals r query
  refine fitsIn_of_classifyLiteral hparser (hformed.isCutFrom l hl) (fun hole hhole => ?_) hr hnow hs
  have hhole := hformed.isHole l hl hole hhole
  exact ⟨hhole.start_isBoundary, hhole.stop_isBoundary⟩

end

end Classifier

end SqlHighlight
