import SqlHighlight.Proofs.Boundary
import SqlHighlight.Proofs.Placement

namespace SqlHighlight

namespace Literal

/-- A hole of a text: cut out between characters, from a brace on, within one line. -/
structure IsHole (cs : List Char) (hole : Range) : Prop where
  start_lt_stop : hole.start < hole.stop
  start_isBoundary : Text.IsBoundary hole.start cs
  stop_isBoundary : Text.IsBoundary hole.stop cs
  exists_slice : ∃ inside, Text.slice hole.start hole.stop cs = .ok ('{' :: inside) ∧ '\n' ∉ inside

theorem isHole_of_slice {cs inside : List Char} {hole : Range}
    (h : Text.slice hole.start hole.stop cs = .ok ('{' :: inside)) (hfeed : '\n' ∉ inside) :
    IsHole cs hole := by
  obtain ⟨hstart, hstop⟩ := Text.isBoundary_of_slice h
  refine ⟨?_, hstart, hstop, inside, h, hfeed⟩
  obtain ⟨before, after, -, -, heq⟩ := Text.slice_eq_ok_iff.1 h
  have hpos : 0 < Text.width ('{' :: inside) := Text.width_pos
  omega

theorem Segment.exists_append_of_mem_holes {start : Nat} {ss : List Segment} {hole : Range}
    (h : hole ∈ holes start ss) :
    ∃ left text right, ss = left ++ .hole text :: right ∧
      hole.start = start + Text.width (left.flatMap chars) ∧
      hole.stop = hole.start + Text.width text := by
  induction ss generalizing start with
  | nil => cases h
  | cons s ss ih =>
    have hrest (hmem : hole ∈ holes (start + Text.width s.chars) ss) :
        ∃ left text right, s :: ss = left ++ .hole text :: right ∧
          hole.start = start + Text.width (left.flatMap chars) ∧
          hole.stop = hole.start + Text.width text := by
      obtain ⟨left, text, right, rfl, hstart, hstop⟩ := ih hmem
      refine ⟨s :: left, text, right, rfl, ?_, hstop⟩
      rw [List.flatMap_cons, Text.width_append, ← Nat.add_assoc, hstart]
    cases s with
    | text cs => exact hrest h
    | hole cs =>
      rcases List.mem_cons.1 h with rfl | h
      · exact ⟨[], cs, ss, rfl, rfl, rfl⟩
      · exact hrest h

theorem Piece.IsRead.exists_append_of_mem_holes {p : Piece} (h : p.IsRead) {start : Nat} {hole : Range}
    (hhole : hole ∈ Segment.holes start p.segments) :
    ∃ left inside right, p.segments = left ++ .hole ('{' :: inside) :: right ∧
      hole.start = start + Text.width (left.flatMap Segment.chars) ∧
      hole.stop = hole.start + Text.width ('{' :: inside) := by
  obtain ⟨left, text, right, hsegments, hstart, hstop⟩ := Segment.exists_append_of_mem_holes hhole
  obtain ⟨inside, rfl⟩ : ∃ inside, text = '{' :: inside := by
    obtain ⟨cs, hread⟩ := h
    rw [hread] at hsegments
    exact Content.exists_eq_of_hole_mem_segments (by rw [hsegments]; simp)
  exact ⟨left, inside, right, hsegments, hstart, hstop⟩

theorem Part.LiesIn.isHole {cs : List Char} {p : Part} {hole : Range} (h : p.LiesIn cs)
    (hhole : hole ∈ p.holes) : IsHole cs hole := by
  obtain ⟨before, after, hcs, hbefore⟩ := h.exists_append
  obtain ⟨left, inside, right, hsegments, hstart, hstop⟩ := h.isRead.exists_append_of_mem_holes hhole
  have hchars : p.chars = left.flatMap Segment.chars ++
      ('{' :: inside ++ right.flatMap Segment.chars) := by
    rw [chars, hsegments, List.flatMap_append, List.flatMap_cons]
    rfl
  have hslice : Text.slice hole.start hole.stop cs = .ok ('{' :: inside) := by
    apply Text.slice_eq_ok_iff.2
    refine ⟨before ++ left.flatMap Segment.chars, right.flatMap Segment.chars ++ after, ?_, ?_,
      hstop.symm⟩
    · rw [hcs, hchars]
      simp
    · rw [Text.width_append, hbefore, hstart]
  apply isHole_of_slice hslice
  have hfeed := h.feed_not_mem
  rw [hchars] at hfeed
  intro hmem
  exact hfeed (by simp [hmem])

/-- Literals of a text one behind the other with something between them, each with some content and
with its holes in order inside it. -/
structure WellFormed (cs : List Char) (ls : List Literal) : Prop where
  separate : ls.Pairwise (·.range.stop < ·.range.start)
  isCutFrom : ∀ l ∈ ls, l.IsCutFrom cs
  stop_le : ∀ l ∈ ls, l.range.stop ≤ Text.width cs
  isHole : ∀ l ∈ ls, ∀ hole ∈ l.holes, IsHole cs hole

theorem WellFormed.sublist {cs : List Char} {ls ls' : List Literal} (hsub : List.Sublist ls' ls)
    (h : WellFormed cs ls) : WellFormed cs ls' where
  separate := h.separate.sublist hsub
  isCutFrom l hl := h.isCutFrom l (hsub.subset hl)
  stop_le l hl := h.stop_le l (hsub.subset hl)
  isHole l hl := h.isHole l (hsub.subset hl)

theorem Assembly.wellFormed_addLines {cs : List Char} {ls : List Line}
    (hls : List.Sublist ls (Text.lines cs)) (mode : Mode) :
    WellFormed cs (empty.addLines mode ls).flush.done := by
  have hmade := madeFrom_addLines_empty mode ls
  have hplaced : Placed cs 0 (empty.addLines mode ls).flush.done (Text.width cs) :=
    placed_addLines_empty hls (fun _ _ => Nat.zero_le _)
      (fun l hl => Text.stop_le_of_mem_lines (hls.subset hl)) (Nat.zero_le _) mode
  constructor
  · exact hmade.pairwise (pairwise_partsFrom mode ((Text.pairwise_lines cs).sublist hls))
  · exact hplaced.isCutFrom
  · intro l hl
    exact (hplaced.inOrder.of_mem (List.mem_map_of_mem hl)).2.2
  · intro l hl hole hhole
    obtain ⟨p, hp, hmem⟩ := hmade.exists_of_mem_holes hl hhole
    exact (liesIn_of_mem_partsFrom hls hp).isHole hmem

theorem LineModes.wellFormed_literals (modes : LineModes) (cs : List Char) (query : Range) :
    WellFormed cs (modes.literals (Text.lines cs) query) := by
  obtain ⟨mode, ls, hls, heq⟩ := modes.exists_literals_eq cs query
  rw [heq]
  exact (Assembly.wellFormed_addLines hls mode).sublist List.filter_sublist

end Literal

namespace Tagger

theorem wellFormed_literals (t : Tagger) (r : Revision) (query : Range) :
    Literal.WellFormed r.chars (t.literals r query) := by
  rw [literals]
  split
  · exact t.modes.wellFormed_literals r.chars query
  · exact ⟨.nil, by simp, by simp, by simp⟩

/-- Whatever changes a tagger has accepted, and whether or not they told the truth, its answers about
the tracked revision are well formed. -/
theorem wellFormed_of_any_modes (t : Tagger) (query : Range) :
    Literal.WellFormed t.revision.chars (t.literals t.revision query) :=
  t.wellFormed_literals t.revision query

end Tagger

end SqlHighlight
