import SqlHighlight.Classify.Classifier
import SqlHighlight.Proofs.Boundary
import SqlHighlight.Proofs.Holes
import SqlHighlight.Proofs.Query

namespace SqlHighlight

theorem bind_eq_ok_iff {ε α β : Type} {x : Except ε α} {f : α → Except ε β} {b : β} :
    x >>= f = .ok b ↔ ∃ a, x = .ok a ∧ f a = .ok b := by
  cases x with
  | error e => simp [bind, Except.bind]
  | ok a => simp [bind, Except.bind]

namespace Sql

theorem inOrder_layOut (start : Nat) (ps : List Piece) :
    Range.InOrder start ((layOut start ps).map Span.range) (start + totalWidth ps) := by
  induction ps generalizing start with
  | nil => exact Nat.le_refl start
  | cons p ps ih =>
    have hrest := ih (start + p.width)
    rw [Nat.add_assoc] at hrest
    exact ⟨Nat.le_refl start, Nat.le_add_right start p.width, hrest⟩

theorem exists_mem_layOut {start n : Nat} {ps : List Piece} (hle : start ≤ n)
    (hlt : n < start + totalWidth ps) : ∃ s ∈ layOut start ps, s.range.Contains n := by
  induction ps generalizing start with
  | nil => exact absurd hlt (Nat.not_lt.2 hle)
  | cons p ps ih =>
    rw [layOut]
    rcases Nat.lt_or_ge n (start + p.width) with hn | hn
    · exact ⟨_, List.mem_cons_self, hle, hn⟩
    · have htotal : totalWidth (p :: ps) = p.width + totalWidth ps := rfl
      rw [htotal, ← Nat.add_assoc] at hlt
      obtain ⟨s, hs, hcontains⟩ := ih hn hlt
      exact ⟨s, List.mem_cons_of_mem _ hs, hcontains⟩

end Sql

theorem Settings.utf8Size_fillerByte (settings : Settings) : settings.fillerByte.utf8Size = 1 := by
  unfold fillerByte
  split
  next h =>
    have hlt : settings.filler.toNat < 0x80 := of_decide_eq_true h
    rw [Char.utf8Size_eq_one_iff]
    exact UInt32.le_iff_toNat_le.2 (Nat.le_of_lt_succ hlt)
  next => rfl

namespace Classifier

def filled (c : Classifier) (text : List Char) (holes : List Range) : String :=
  String.ofList (Holes.fill c.settings.fillerByte holes text)

def shown (c : Classifier) (d : Sql.Document) : List Span :=
  (Sql.layOut 0 d.pieces).filter fun s => c.settings.emitPlain || s.category ≠ .plain

section

variable {c : Classifier} {text : List Char} {holes : List Range} {spans : List Span}

theorem width_fill : Text.width (Holes.fill c.settings.fillerByte holes text) = Text.width text :=
  Holes.width_fillFrom c.settings.utf8Size_fillerByte 0 holes text

theorem parser_of_classifyText (h : c.classifyText text holes = .ok (some spans)) :
    ∃ d, c.parser (c.filled text holes) = .ok d ∧
      c.spansOf? holes (Text.width text) d = some spans := by
  rw [classifyText] at h
  split at h
  next => cases h
  next =>
    obtain ⟨d, hd, h⟩ := bind_eq_ok_iff.1 h
    rw [width_fill] at h
    exact ⟨d, hd, Except.ok.inj h⟩

theorem of_spansOf? {width : Nat} {d : Sql.Document} (h : c.spansOf? holes width d = some spans) :
    d.root ≠ none ∧ d.errorFound = false ∧ Sql.totalWidth d.pieces = width ∧
      spans = Holes.cutAll holes (c.shown d) := by
  rw [spansOf?] at h
  split at h
  next => cases h
  next hused =>
    simp only [Bool.or_eq_true, Option.isNone_iff_eq_none, decide_eq_true_eq, not_or,
      Bool.not_eq_true, Decidable.not_not] at hused
    exact ⟨hused.1.1, hused.1.2, hused.2, (Option.some.inj h).symm⟩

theorem exists_of_classifyText (h : c.classifyText text holes = .ok (some spans)) :
    ∃ d, c.parser (c.filled text holes) = .ok d ∧ Sql.totalWidth d.pieces = Text.width text ∧
      spans = Holes.cutAll holes (c.shown d) := by
  obtain ⟨d, hd, h⟩ := parser_of_classifyText h
  exact ⟨d, hd, (of_spansOf? h).2.2⟩

theorem inOrder_shown (d : Sql.Document) :
    Range.InOrder 0 ((c.shown d).map Span.range) (Sql.totalWidth d.pieces) := by
  have h := Sql.inOrder_layOut 0 d.pieces
  rw [Nat.zero_add] at h
  exact h.sublist (List.filter_sublist.map _)

theorem around_of_classifyText (hholes : Holes.Sorted holes)
    (h : c.classifyText text holes = .ok (some spans)) :
    Holes.Around holes 0 spans (Text.width text) := by
  obtain ⟨d, -, hwidth, rfl⟩ := exists_of_classifyText h
  rw [← hwidth]
  exact Holes.around_cutAll hholes (inOrder_shown d)

theorem mem_of_classifyText (hholes : Holes.Sorted holes)
    (h : c.classifyText text holes = .ok (some spans)) :
    ∃ d, c.parser (c.filled text holes) = .ok d ∧
      ∀ s, s ∈ spans ↔ ∃ p ∈ c.shown d, Holes.IsPart holes p s := by
  obtain ⟨d, hd, -, rfl⟩ := exists_of_classifyText h
  refine ⟨d, hd, fun s => ?_⟩
  exact Holes.mem_cutAll_iff hholes (Holes.pairwise_start_of_inOrder (inOrder_shown d))

theorem exists_mem_of_classifyText (hplain : c.settings.emitPlain = true)
    (hholes : Holes.Sorted holes) (h : c.classifyText text holes = .ok (some spans)) (n : Nat) :
    (∃ s ∈ spans, s.range.Contains n) ↔
      n < Text.width text ∧ ∀ hole ∈ holes, ¬ hole.Contains n := by
  have haround := around_of_classifyText hholes h
  obtain ⟨d, -, hwidth, rfl⟩ := exists_of_classifyText h
  have hcut := Holes.exists_mem_cutAll_iff (n := n) hholes
    (Holes.pairwise_start_of_inOrder (inOrder_shown (c := c) d))
  constructor
  · rintro ⟨s, hs, hn⟩
    have hle := (haround.inOrder.of_mem (List.mem_map_of_mem hs)).2.2
    exact ⟨Nat.lt_of_lt_of_le hn.2 hle, ((hcut s.category).1 ⟨s, hs, rfl, hn⟩).2⟩
  · rintro ⟨hlt, hout⟩
    rw [← hwidth] at hlt
    obtain ⟨p, hp, hn⟩ := Sql.exists_mem_layOut (Nat.zero_le n) (by rwa [Nat.zero_add])
    have hp : p ∈ c.shown d := List.mem_filter.2 ⟨hp, by simp [hplain]⟩
    obtain ⟨s, hs, -, hcontains⟩ := (hcut p.category).2 ⟨⟨p, hp, rfl, hn⟩, hout⟩
    exact ⟨s, hs, hcontains⟩

theorem countP_contains_of_classifyText (hplain : c.settings.emitPlain = true)
    (hholes : Holes.Sorted holes) (h : c.classifyText text holes = .ok (some spans)) (n : Nat) :
    spans.countP (fun s => s.range.Contains n) =
      if n < Text.width text ∧ ∀ hole ∈ holes, ¬ hole.Contains n then 1 else 0 := by
  have hmem := exists_mem_of_classifyText hplain hholes h n
  have hle := (around_of_classifyText hholes h).inOrder.countP_contains_le_one (n := n)
  rw [List.countP_map] at hle
  split
  next hout =>
    obtain ⟨s, hs, hn⟩ := hmem.2 hout
    exact Nat.le_antisymm hle (List.countP_pos_iff.2 ⟨s, hs, decide_eq_true hn⟩)
  next hin =>
    rw [List.countP_eq_zero]
    exact fun s hs hn => hin (hmem.1 ⟨s, hs, of_decide_eq_true hn⟩)

end

end Classifier

namespace Literal

structure Shows (l : Literal) (s : Span) : Prop where
  start_lt_stop : s.range.start < s.range.stop
  le_start : l.range.start ≤ s.range.start
  stop_le : s.range.stop ≤ l.range.stop
  apart : ∀ hole ∈ l.holes, s.range.Apart hole

section

variable {r : Revision} {l l' : Literal} {ls : List Literal} {lower upper : Nat} {s : Span}

theorem shows_of_around {spans : List Span}
    (h : Holes.Around l.holes l.range.start spans l.range.stop) (hs : s ∈ spans) : l.Shows s := by
  have hmem := h.inOrder.of_mem (List.mem_map_of_mem hs)
  exact ⟨h.start_lt_stop s hs, hmem.1, hmem.2.2, h.apart s hs⟩

theorem IsCutFrom.stop_le (h : l.IsCutFrom r.chars) : l.range.stop ≤ r.length :=
  Text.le_width_of_isBoundary h.stop_isBoundary

theorem IsCutFrom.slice_eq (h : l.IsCutFrom r.chars) :
    r.slice l.range = Text.slice l.range.start l.range.stop r.chars := by
  have hle := Nat.le_of_lt h.start_lt_stop
  rw [Revision.slice, Nat.min_eq_left (Nat.le_trans hle h.stop_le), Nat.min_eq_left h.stop_le,
    Nat.max_eq_right hle]

theorem IsCutFrom.exists_slice (h : l.IsCutFrom r.chars) :
    ∃ text, r.slice l.range = .ok text ∧ Text.width text + l.range.start = l.range.stop := by
  rw [h.slice_eq]
  obtain ⟨text, htext⟩ :=
    Text.exists_slice h.start_isBoundary h.stop_isBoundary (Nat.le_of_lt h.start_lt_stop)
  obtain ⟨before, after, -, -, hwidth⟩ := Text.slice_eq_ok_iff.1 htext
  exact ⟨text, htext, by omega⟩

theorem IsCutFrom.shift_relativeHoles (h : l.IsCutFrom r.chars) (hr : r.length < Offset.bound) :
    l.relativeHoles.map (Range.shift l.range.start) = l.holes := by
  have hback : ∀ hole ∈ l.holes, (hole.relativeTo l.range.start).shift l.range.start = hole := by
    intro hole hmem
    obtain ⟨hstart, hle, hstop⟩ := h.holes_inOrder.of_mem hmem
    have hlt : hole.stop < Offset.bound :=
      Nat.lt_of_le_of_lt hstop (Nat.lt_of_le_of_lt h.stop_le hr)
    rw [Range.relativeTo, Range.shift, Offset.sub_eq hstart (Nat.lt_of_le_of_lt hle hlt),
      Offset.sub_eq (Nat.le_trans hstart hle) hlt, Nat.sub_add_cancel hstart,
      Nat.sub_add_cancel (Nat.le_trans hstart hle)]
  rw [relativeHoles, List.map_map]
  exact (List.map_congr_left hback).trans (List.map_id' l.holes)

theorem IsCutFrom.inOrder_relativeHoles (h : l.IsCutFrom r.chars) (hr : r.length < Offset.bound)
    {width : Nat} (hwidth : width + l.range.start = l.range.stop) :
    Range.InOrder 0 l.relativeHoles width := by
  rw [← Range.InOrder.shift_iff (n := l.range.start), h.shift_relativeHoles hr, hwidth, Nat.zero_add]
  exact h.holes_inOrder

theorem IsCutFrom.sorted_relativeHoles (h : l.IsCutFrom r.chars) (hr : r.length < Offset.bound) :
    Holes.Sorted l.relativeHoles := by
  obtain ⟨text, -, hwidth⟩ := h.exists_slice
  exact .of_inOrder (h.inOrder_relativeHoles hr hwidth)

theorem Placed.of_cons {cs : List Char} (h : Placed cs lower (l :: ls) upper) :
    lower ≤ l.range.start ∧ l.IsCutFrom cs ∧ Placed cs l.range.stop ls upper := by
  obtain ⟨hstart, -, hrest⟩ := h.inOrder
  exact ⟨hstart, h.isCutFrom l List.mem_cons_self, hrest,
    fun l' hl' => h.isCutFrom l' (List.mem_cons_of_mem l hl')⟩

theorem Placed.apart {cs : List Char} (h : Placed cs lower ls upper) (hl : l ∈ ls) (hl' : l' ∈ ls)
    (hs : l.Shows s) {hole : Range} (hhole : hole ∈ l'.holes) : s.range.Apart hole := by
  obtain ⟨hstart, -, hstop⟩ := (h.isCutFrom l' hl').holes_inOrder.of_mem hhole
  have hpairwise := List.pairwise_iff_getElem.1 (List.pairwise_map.1 h.inOrder.pairwise)
  obtain ⟨i, hi, rfl⟩ := List.mem_iff_getElem.1 hl
  obtain ⟨j, hj, rfl⟩ := List.mem_iff_getElem.1 hl'
  -- Holes lie inside their literal, and other literals before or behind it.
  rcases Nat.lt_trichotomy i j with hlt | rfl | hlt
  · exact .inl (Nat.le_trans hs.stop_le (Nat.le_trans (hpairwise i j hi hj hlt) hstart))
  · exact hs.apart hole hhole
  · exact .inr (Nat.le_trans hstop (Nat.le_trans (hpairwise j i hj hi hlt) hs.le_start))

end

end Literal

namespace Classifier

open Literal (Placed LineModes)

section

variable {c : Classifier} {r : Revision} {l : Literal} {ls : List Literal} {lower upper : Nat}
  {spans : List Span} {s : Span}

theorem exists_of_classifyLiteral (hl : l.IsCutFrom r.chars) (hr : r.length < Offset.bound)
    (h : c.classifyLiteral r l = .ok spans) :
    ∃ text found, r.slice l.range = .ok text ∧ Text.width text + l.range.start = l.range.stop ∧
      c.classifyText text l.relativeHoles = .ok found ∧
      spans = (found.getD []).map fun s => ⟨s.category, s.range.shift l.range.start⟩ := by
  obtain ⟨text, htext, hwidth⟩ := hl.exists_slice
  obtain ⟨text', htext', h⟩ := bind_eq_ok_iff.1 h
  obtain rfl : text = text' := Except.ok.inj (htext.symm.trans htext')
  obtain ⟨found, hfound, h⟩ := bind_eq_ok_iff.1 h
  obtain rfl := Except.ok.inj h
  refine ⟨text, found, htext, hwidth, hfound, ?_⟩
  cases found with
  | none => rfl
  | some found =>
    have haround := around_of_classifyText (hl.sorted_relativeHoles hr) hfound
    apply List.map_congr_left
    intro s hs
    obtain ⟨-, hle, hstop⟩ := haround.inOrder.of_mem (List.mem_map_of_mem hs)
    have hlt := Nat.lt_of_le_of_lt hl.stop_le hr
    rw [Offset.add_eq (by omega), Offset.add_eq (by omega), Range.shift, Nat.add_comm,
      Nat.add_comm s.range.stop]

theorem around_of_classifyLiteral (hl : l.IsCutFrom r.chars) (hr : r.length < Offset.bound)
    (h : c.classifyLiteral r l = .ok spans) :
    Holes.Around l.holes l.range.start spans l.range.stop := by
  obtain ⟨text, found, -, hwidth, hfound, rfl⟩ := exists_of_classifyLiteral hl hr h
  cases found with
  | none => exact ⟨Nat.le_of_lt hl.start_lt_stop, by simp, by simp⟩
  | some found =>
    have hshift := (around_of_classifyText (hl.sorted_relativeHoles hr) hfound).shift l.range.start
    rwa [hl.shift_relativeHoles hr, Nat.zero_add, hwidth] at hshift

theorem exists_classifyLiteral (hparser : ∀ sql, ∃ d, c.parser sql = .ok d)
    (hl : l.IsCutFrom r.chars) : ∃ spans, c.classifyLiteral r l = .ok spans := by
  obtain ⟨text, htext, -⟩ := hl.exists_slice
  obtain ⟨found, hfound⟩ : ∃ found, c.classifyText text l.relativeHoles = .ok found := by
    rw [classifyText]
    split
    · exact ⟨none, rfl⟩
    · obtain ⟨d, hd⟩ := hparser (c.filled text l.relativeHoles)
      exact ⟨_, bind_eq_ok_iff.2 ⟨d, hd, rfl⟩⟩
  exact ⟨_, bind_eq_ok_iff.2 ⟨text, htext, bind_eq_ok_iff.2 ⟨found, hfound, rfl⟩⟩⟩

theorem exists_of_mem_classifyAll (h : c.classifyAll r ls = .ok spans) (hs : s ∈ spans) :
    ∃ l ∈ ls, ∃ now, c.classifyLiteral r l = .ok now ∧ s ∈ now := by
  induction ls generalizing spans with
  | nil =>
    obtain rfl := Except.ok.inj h
    cases hs
  | cons l ls ih =>
    obtain ⟨now, hnow, h⟩ := bind_eq_ok_iff.1 h
    obtain ⟨later, hlater, h⟩ := bind_eq_ok_iff.1 h
    obtain rfl := Except.ok.inj h
    rcases List.mem_append.1 hs with hs | hs
    · exact ⟨l, List.mem_cons_self, now, hnow, hs⟩
    · obtain ⟨l', hl', hfound⟩ := ih hlater hs
      exact ⟨l', List.mem_cons_of_mem l hl', hfound⟩

theorem inOrder_of_classifyAll (hls : Placed r.chars lower ls upper) (hr : r.length < Offset.bound)
    (h : c.classifyAll r ls = .ok spans) :
    Range.InOrder lower (spans.map Span.range) upper ∧ ∀ s ∈ spans, ∃ l ∈ ls, l.Shows s := by
  constructor
  · induction ls generalizing lower spans with
    | nil =>
      obtain rfl := Except.ok.inj h
      exact hls.inOrder
    | cons l ls ih =>
      obtain ⟨hstart, hl, hrest⟩ := hls.of_cons
      obtain ⟨now, hnow, h⟩ := bind_eq_ok_iff.1 h
      obtain ⟨later, hlater, h⟩ := bind_eq_ok_iff.1 h
      obtain rfl := Except.ok.inj h
      rw [List.map_append]
      exact ((around_of_classifyLiteral hl hr hnow).inOrder.of_le_lower hstart).append
        (ih hrest hlater)
  · intro s hs
    obtain ⟨l, hl, now, hnow, hs⟩ := exists_of_mem_classifyAll h hs
    exact ⟨l, hl, Literal.shows_of_around (around_of_classifyLiteral (hls.isCutFrom l hl) hr hnow) hs⟩

theorem exists_classifyAll (hparser : ∀ sql, ∃ d, c.parser sql = .ok d)
    (hls : ∀ l ∈ ls, l.IsCutFrom r.chars) : ∃ spans, c.classifyAll r ls = .ok spans := by
  induction ls with
  | nil => exact ⟨[], rfl⟩
  | cons l ls ih =>
    obtain ⟨now, hnow⟩ := exists_classifyLiteral hparser (hls l List.mem_cons_self)
    obtain ⟨later, hlater⟩ := ih fun l' hl' => hls l' (List.mem_cons_of_mem l hl')
    exact ⟨_, bind_eq_ok_iff.2 ⟨now, hnow, bind_eq_ok_iff.2 ⟨later, hlater, rfl⟩⟩⟩

end

end Classifier

namespace Tagger

open Literal (Placed LineModes)

theorem placed_literals (t : Tagger) (r : Revision) (query : Range) :
    Placed r.chars 0 (t.literals r query) r.length := by
  rw [literals]
  split
  · exact t.modes.placed_literals r.chars query
  · exact ⟨Nat.zero_le _, by simp⟩

theorem literals_sublist_whole {t : Tagger} {r : Revision}
    (hmodes : t.modes = LineModes.ofLines r.lines) (query : Range) :
    List.Sublist (t.literals r query) (t.literals r ⟨0, r.length⟩) := by
  rw [literals, literals]
  split
  · rw [hmodes]
    exact LineModes.literals_sublist r.chars query
  · exact List.Sublist.refl []

end Tagger

namespace Classifier

open Literal (LineModes)

theorem spans_around_holes (c : Classifier) :
    (∀ text holes spans, Holes.Sorted holes → c.classifyText text holes = .ok (some spans) →
      Holes.Around holes 0 spans (Text.width text) ∧
      (c.settings.emitPlain = true → ∀ n, spans.countP (fun s => s.range.Contains n) =
        if n < Text.width text ∧ ∀ hole ∈ holes, ¬ hole.Contains n then 1 else 0) ∧
      (c.settings.emitPlain = false → ∃ d, c.parser (c.filled text holes) = .ok d ∧
        ∀ s, s ∈ spans ↔
          ∃ p ∈ Sql.layOut 0 d.pieces, p.category ≠ .plain ∧ Holes.IsPart holes p s)) ∧
    ∀ t r query, r.length < Offset.bound →
      ((∀ sql, ∃ d, c.parser sql = .ok d) → ∃ spans, c.classify t r query = .ok spans) ∧
      ∀ spans, c.classify t r query = .ok spans →
        Range.InOrder 0 (spans.map Span.range) r.length ∧
        (∀ s ∈ spans, ∃ l ∈ t.literals r query, l.Shows s) ∧
        (∀ s ∈ spans, ∀ l ∈ t.literals r query, ∀ hole ∈ l.holes, s.range.Apart hole) ∧
        (t.modes = LineModes.ofLines r.lines →
          ∀ s ∈ spans, ∀ other, ∀ l ∈ t.literals r other, ∀ hole ∈ l.holes,
            s.range.Apart hole) := by
  constructor
  · intro text holes spans hholes h
    refine ⟨around_of_classifyText hholes h, ?_, ?_⟩
    · intro hplain n
      exact countP_contains_of_classifyText hplain hholes h n
    · intro hplain
      obtain ⟨d, hd, hmem⟩ := mem_of_classifyText hholes h
      refine ⟨d, hd, fun s => ?_⟩
      rw [hmem]
      simp [shown, hplain, and_assoc]
  · intro t r query hr
    have hplaced := t.placed_literals r query
    refine ⟨fun hparser => exists_classifyAll hparser hplaced.isCutFrom, ?_⟩
    intro spans h
    obtain ⟨hin, hshows⟩ := inOrder_of_classifyAll hplaced hr h
    refine ⟨hin, hshows, ?_, ?_⟩
    · intro s hs l hl hole hhole
      obtain ⟨l', hl', hs'⟩ := hshows s hs
      exact hplaced.apart hl' hl hs' hhole
    · intro hmodes s hs other l hl hole hhole
      obtain ⟨l', hl', hs'⟩ := hshows s hs
      have hsub := Tagger.literals_sublist_whole hmodes
      exact (t.placed_literals r ⟨0, r.length⟩).apart ((hsub query).subset hl')
        ((hsub other).subset hl) hs' hhole

theorem spans_around_holes_of_hole_at_end :
    let d : Sql.Document :=
      ⟨some (.block .root [.leaf .keyword "SELECT", .leaf .blank " ", .leaf .other "é___"]), false⟩
    let c : Classifier := ⟨{ emitPlain := true }, fun _ => .ok d⟩
    let r := Revision.first "$\"SELECT é{x}\""
    let spans : List Span := [⟨.keyword, ⟨0, 6⟩⟩, ⟨.plain, ⟨6, 7⟩⟩, ⟨.plain, ⟨7, 9⟩⟩]
    let found : List Span := [⟨.keyword, ⟨2, 8⟩⟩, ⟨.plain, ⟨8, 9⟩⟩, ⟨.plain, ⟨9, 11⟩⟩]
    c.classifyText "SELECT é{x}".toList [⟨9, 12⟩] = .ok (some spans) ∧
      (∀ n, spans.countP (fun s => s.range.Contains n) =
        if n < 12 ∧ ∀ hole ∈ [(⟨9, 12⟩ : Range)], ¬ hole.Contains n then 1 else 0) ∧
      c.classify (.ofRevision r) r ⟨0, 4⟩ = .ok found ∧
      ∀ s ∈ found, ∃ l ∈ (Tagger.ofRevision r).literals r ⟨0, 4⟩, l.Shows s := by
  intro d c r spans found
  have hspans : c.classifyText "SELECT é{x}".toList [⟨9, 12⟩] = .ok (some spans) := by
    decide +kernel
  have hfound : c.classify (.ofRevision r) r ⟨0, 4⟩ = .ok found := by decide +kernel
  have hsorted : Holes.Sorted [⟨9, 12⟩] := ⟨by decide, by decide⟩
  obtain ⟨htext, hquery⟩ := spans_around_holes c
  refine ⟨hspans, (htext _ _ _ hsorted hspans).2.1 rfl, hfound, ?_⟩
  exact ((hquery (.ofRevision r) r ⟨0, 4⟩ (by decide)).2 found hfound).2.1

end Classifier

end SqlHighlight
