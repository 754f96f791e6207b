import SqlHighlight.Proofs.Painting

/-! Lines shown with spans of which some are empty. An empty span inside a line has the text before it
shown, but does not count it as shown: unless a span before it reaches up to it, that text comes again.
No other line is shown wrong. -/

namespace SqlHighlight

namespace Highlight

/-- Spans of a text as they may be given: in order, without a byte in common, cut between characters. -/
structure Given (cs : List Char) (spans : List Span) : Prop where
  separate : Range.Separate (spans.map Span.range)
  fitsIn : ∀ s ∈ spans, s.range.FitsIn cs

/-- Some empty span stands in a line, behind an offset up to which the line is shown, and no span
before it reaches up to it. -/
def Repeats (l : Line) (shown : Nat) (spans : List Span) : Prop :=
  ∃ before s after, spans = before ++ s :: after ∧ s.range.isEmpty = true ∧
    shown < s.range.start ∧ s.range.start < l.stop ∧
    ∀ s' ∈ before, s'.range.isEmpty = false → s'.range.stop < s.range.start

section

variable {cs : List Char} {l : Line} {shown m n : Nat} {s : Span} {ss spans : List Span}

theorem Given.sublist (hsub : List.Sublist ss spans) (h : Given cs spans) : Given cs ss :=
  ⟨h.separate.sublist (hsub.map Span.range), fun s hs => h.fitsIn s (hsub.subset hs)⟩

theorem Given.of_cons (h : Given cs (s :: ss)) : Given cs ss := h.sublist (List.sublist_cons_self s ss)

theorem Given.start_le_of_cons (h : Given cs (s :: ss)) {s' : Span} (hs' : s' ∈ ss) :
    s.range.start ≤ s'.range.start :=
  List.rel_of_pairwise_cons h.separate.pairwise_start (List.mem_map_of_mem hs')

theorem Given.behind (h : Given cs (s :: ss)) (hs : n ≤ s.range.start) :
    ∀ s' ∈ s :: ss, n ≤ s'.range.start := by
  rw [List.forall_mem_cons]
  exact ⟨hs, fun s' hs' => Nat.le_trans hs (h.start_le_of_cons hs')⟩

theorem Given.stop_le_of_cons (h : Given cs (s :: ss)) {s' : Span} (hs' : s' ∈ ss)
    (hne : s'.range.isEmpty = false) : s.range.stop ≤ s'.range.start := by
  have hdisjoint : s.range.Disjoint s'.range :=
    List.rel_of_pairwise_cons h.separate.pairwise_disjoint (List.mem_map_of_mem hs')
  have hstart := h.start_le_of_cons hs'
  simp only [Range.isEmpty, decide_eq_false_iff_not] at hne
  exact Nat.not_lt.1 fun hlt => hdisjoint s'.range.start ⟨hstart, hlt⟩ ⟨Nat.le_refl _, by omega⟩

theorem Given.spread (h : Given cs spans) : Spread cs (spans.filter (!·.range.isEmpty)) where
  pairwise := by
    have hne : ∀ r ∈ (spans.filter (!·.range.isEmpty)).map Span.range, r.start < r.stop := by
      rw [List.forall_mem_map]
      intro s hs
      simpa [Range.isEmpty] using (List.mem_filter.1 hs).2
    obtain ⟨upper, hin⟩ :=
      (h.separate.sublist (List.filter_sublist.map Span.range)).exists_inOrder hne
    exact List.pairwise_map.1 hin.pairwise
  start_lt_stop s hs := by simpa [Range.isEmpty] using (List.mem_filter.1 hs).2
  fitsIn s hs := h.fitsIn s (List.mem_of_mem_filter hs)

theorem Repeats.of_le (hle : n ≤ m) (h : Repeats l m ss) : Repeats l n ss := by
  obtain ⟨before, s, after, heq, hempty, hshown, hstop, hbefore⟩ := h
  exact ⟨before, s, after, heq, hempty, Nat.lt_of_le_of_lt hle hshown, hstop, hbefore⟩

theorem not_repeats_of_stop_le (h : l.stop ≤ shown) : ¬ Repeats l shown ss := by
  rintro ⟨before, s, after, -, -, hshown, hstop, -⟩
  omega

theorem not_repeats_of_behind (h : ∀ s ∈ ss, l.stop ≤ s.range.start) : ¬ Repeats l shown ss := by
  rintro ⟨before, s, after, rfl, -, -, hstop, -⟩
  exact Nat.not_lt.2 (h s (by simp)) hstop

theorem repeats_cons_iff : Repeats l shown (s :: ss) ↔
    (s.range.isEmpty = true ∧ shown < s.range.start ∧ s.range.start < l.stop) ∨
      Repeats l (if s.range.isEmpty then shown else max shown s.range.stop) ss := by
  constructor
  · rintro ⟨before, s', after, heq, hempty, hshown, hstop, hbefore⟩
    cases before with
    | nil =>
      obtain ⟨rfl, -⟩ := List.cons.inj heq
      exact .inl ⟨hempty, hshown, hstop⟩
    | cons s'' before =>
      obtain ⟨rfl, rfl⟩ := List.cons.inj heq
      refine .inr ⟨before, s', after, rfl, hempty, ?_, hstop, ?_⟩
      · split
        next => exact hshown
        next hne => exact Nat.max_lt.2 ⟨hshown, hbefore s List.mem_cons_self (by simpa using hne)⟩
      · exact fun s'' hs'' => hbefore s'' (List.mem_cons_of_mem s hs'')
  · rintro (⟨hempty, hshown, hstop⟩ | ⟨before, s', after, rfl, hempty, hshown, hstop, hbefore⟩)
    · exact ⟨[], s, ss, rfl, hempty, hshown, hstop, by simp⟩
    · refine ⟨s :: before, s', after, rfl, hempty, ?_, hstop, ?_⟩
      · split at hshown
        next => exact hshown
        next => exact (Nat.max_lt.1 hshown).1
      · intro s'' hs'' hne
        rcases List.mem_cons.1 hs'' with rfl | hs''
        · rw [if_neg (by simp [hne])] at hshown
          exact (Nat.max_lt.1 hshown).2
        · exact hbefore s'' hs'' hne

theorem repeats_cons_of_stop_le (hs : s.range.start ≤ s.range.stop) (h : s.range.stop ≤ shown) :
    Repeats l shown (s :: ss) ↔ Repeats l shown ss := by
  rw [repeats_cons_iff, Nat.max_eq_left h, ite_self]
  exact or_iff_right fun ⟨_, hlt, _⟩ => by omega

theorem repeats_dropWhile (hspans : Given cs spans) (h : n ≤ shown) :
    Repeats l shown (spans.dropWhile (·.range.stop ≤ n)) ↔ Repeats l shown spans := by
  induction spans with
  | nil => rfl
  | cons s spans ih =>
    rw [List.dropWhile_cons]
    split
    next hstop =>
      have hs := hspans.separate.start_le_stop s.range (by simp)
      rw [ih hspans.of_cons, repeats_cons_of_stop_le hs (Nat.le_trans (of_decide_eq_true hstop) h)]
    next => rfl

end

section

variable {t : Theme} {cs : List Char} {l : Line} {shown start stop : Nat} {s : Span}
  {ss spans : List Span}

theorem exists_part_width (hstart : IsOffset l start) (hstop : IsOffset l stop) (hle : start ≤ stop)
    (style : Style) : ∃ x, part l start stop style = .ok x ∧ Text.width x.text = stop - start := by
  obtain ⟨inside, hslice, hwidth⟩ := exists_slice_of_isOffset hstart hstop hle
  exact ⟨⟨inside, style⟩, bind_eq_ok_iff.2 ⟨inside, hslice, rfl⟩, hwidth⟩

theorem exists_gap_width (hstart : IsOffset l start) (hstop : IsOffset l stop) :
    ∃ xs, gap l start stop = .ok xs ∧ Text.width (StyledLine.chars xs) = stop - start := by
  rw [gap]
  split
  next hlt =>
    obtain ⟨x, hx, hwidth⟩ := exists_part_width hstart hstop (Nat.le_of_lt hlt) .default
    refine ⟨[x], bind_eq_ok_iff.2 ⟨x, hx, rfl⟩, ?_⟩
    simpa [StyledLine.chars] using hwidth
  next hge => exact ⟨[], rfl, by simp [StyledLine.chars, Nat.sub_eq_zero_of_le (Nat.not_lt.1 hge)]⟩

/-- What is shown of a line from an offset on has its full length, and more where it is repeated. -/
structure IsLong (l : Line) (shown : Nat) (ss : List Span) (line : StyledLine) : Prop where
  le_width : l.stop - shown ≤ Text.width line.chars
  lt_width : Repeats l shown ss → l.stop - shown < Text.width line.chars

theorem paint_of_behind (h : ∀ s ∈ ss, l.stop ≤ s.range.start) :
    paint t l shown ss = gap l shown l.stop := by
  cases ss with
  | nil => rfl
  | cons s ss => rw [paint, if_pos (h s List.mem_cons_self)]

theorem exists_isLong_of_behind (hshown : IsOffset l shown) (h : ∀ s ∈ ss, l.stop ≤ s.range.start) :
    ∃ line, paint t l shown ss = .ok line ∧ IsLong l shown ss line := by
  obtain ⟨line, hgap, hwidth⟩ := exists_gap_width hshown (isOffset_stop l)
  rw [paint_of_behind h]
  refine ⟨line, hgap, Nat.le_of_eq hwidth.symm, fun hrepeats => ?_⟩
  exact absurd hrepeats (not_repeats_of_behind h)

theorem exists_isLong_of_inside (hl : l ∈ Text.lines cs) (hshown : IsOffset l shown)
    (hs : s.range.FitsIn cs) (hmeets : s.range.start < l.stop)
    (hinside : (clip l s).start < (clip l s).stop)
    (hrest : ∃ rest, paint t l (clip l s).stop ss = .ok rest ∧ IsLong l (clip l s).stop ss rest) :
    ∃ line, paint t l shown (s :: ss) = .ok line ∧ IsLong l shown (s :: ss) line := by
  have hclip : (clip l s).start = max s.range.start l.start := rfl
  have hclip' : (clip l s).stop = min s.range.stop l.stop := rfl
  have hfirst := isOffset_clip_start hl hs (Nat.le_of_lt hmeets)
  have hlast := isOffset_clip_stop hl hs (by omega)
  obtain ⟨before, hbefore, hwidth⟩ := exists_gap_width hshown hfirst
  obtain ⟨inside, hpart, hwidth'⟩ := exists_part_width hfirst hlast (Nat.le_of_lt hinside)
    (t.styleOfCategory s.category)
  obtain ⟨rest, hrest, hlong⟩ := hrest
  have hle := hlong.le_width
  have hchars : Text.width (StyledLine.chars (before ++ inside :: rest)) =
      Text.width (StyledLine.chars before) +
        (Text.width inside.text + Text.width (StyledLine.chars rest)) := by
    simp [StyledLine.chars]
  refine ⟨_, paint_cons_of_inside hmeets hinside hbefore hpart hrest, by omega, fun h => ?_⟩
  have hne : s.range.isEmpty = false := by
    simp only [Range.isEmpty, decide_eq_false_iff_not]
    omega
  rw [repeats_cons_iff, hne] at h
  have := hlong.lt_width ((h.resolve_left (by simp)).of_le (Nat.le_trans (Nat.min_le_left _ _)
    (Nat.le_max_right _ _)))
  omega

theorem exists_isLong_of_outside (hl : l ∈ Text.lines cs) (hshown : IsOffset l shown)
    (hs : s.range.FitsIn cs) (hmeets : s.range.start < l.stop)
    (houtside : ¬ (clip l s).start < (clip l s).stop)
    (hrest : ∃ rest, paint t l shown ss = .ok rest ∧ IsLong l shown ss rest) :
    ∃ line, paint t l shown (s :: ss) = .ok line ∧ IsLong l shown (s :: ss) line := by
  have hclip : (clip l s).start = max s.range.start l.start := rfl
  have hclip' : (clip l s).stop = min s.range.stop l.stop := rfl
  have hfirst := isOffset_clip_start hl hs (Nat.le_of_lt hmeets)
  obtain ⟨before, hbefore, hwidth⟩ := exists_gap_width hshown hfirst
  obtain ⟨rest, hrest, hlong⟩ := hrest
  have hle := hlong.le_width
  have hchars : Text.width (StyledLine.chars (before ++ rest)) =
      Text.width (StyledLine.chars before) + Text.width (StyledLine.chars rest) := by
    simp [StyledLine.chars]
  refine ⟨before ++ rest, ?_, by omega, fun h => ?_⟩
  · rw [paint, if_neg (Nat.not_le.2 hmeets)]
    refine bind_eq_ok_iff.2 ⟨before, hbefore, (if_neg houtside).trans ?_⟩
    exact bind_eq_ok_iff.2 ⟨rest, hrest, rfl⟩
  · rcases repeats_cons_iff.1 h with ⟨-, hbefore, -⟩ | h
    · omega
    · have := hlong.lt_width (h.of_le (by split <;> omega))
      omega

theorem exists_isLong (hl : l ∈ Text.lines cs) (hshown : IsOffset l shown) (hss : Given cs ss) :
    ∃ line, paint t l shown ss = .ok line ∧ IsLong l shown ss line := by
  induction ss generalizing shown with
  | nil => exact exists_isLong_of_behind hshown (by simp)
  | cons s ss ih =>
    have hs := hss.fitsIn s List.mem_cons_self
    rcases Nat.lt_or_ge s.range.start l.stop with hmeets | hbehind
    · by_cases hinside : (clip l s).start < (clip l s).stop
      · have hclip : (clip l s).start = max s.range.start l.start := rfl
        have hclip' : (clip l s).stop = min s.range.stop l.stop := rfl
        have hlast := isOffset_clip_stop hl hs (by omega)
        exact exists_isLong_of_inside hl hshown hs hmeets hinside (ih hlast hss.of_cons)
      · exact exists_isLong_of_outside hl hshown hs hmeets hinside (ih hshown hss.of_cons)
    · exact exists_isLong_of_behind hshown (hss.behind hbehind)

theorem paint_cons_of_outside (hmeets : s.range.start < l.stop)
    (houtside : (clip l s).stop ≤ (clip l s).start) (hshown : (clip l s).start ≤ shown) :
    paint t l shown (s :: ss) = paint t l shown ss := by
  have hgap : gap l shown (clip l s).start = .ok [] := if_neg (Nat.not_lt.2 hshown)
  rw [clip] at houtside hgap
  rw [paint, if_neg (Nat.not_le.2 hmeets)]
  dsimp only at houtside hgap ⊢
  simp only [hgap, if_neg (Nat.not_lt.2 houtside)]
  cases paint t l shown ss <;> rfl

theorem paint_cons_congr {ss' : List Span} (hmeets : s.range.start < l.stop)
    (hinside : (clip l s).start < (clip l s).stop)
    (h : paint t l (clip l s).stop ss = paint t l (clip l s).stop ss') :
    paint t l shown (s :: ss) = paint t l shown (s :: ss') := by
  rw [clip] at hinside h
  rw [paint, paint, if_neg (Nat.not_le.2 hmeets), if_neg (Nat.not_le.2 hmeets)]
  dsimp only at hinside h ⊢
  simp only [if_pos hinside, h]

theorem paint_filter (hstart : l.start ≤ shown) (hss : Given cs ss)
    (hahead : ∀ s ∈ ss, s.range.isEmpty = false → shown ≤ max s.range.start l.start)
    (h : ¬ Repeats l shown ss) :
    paint t l shown (ss.filter (!·.range.isEmpty)) = paint t l shown ss := by
  induction ss generalizing shown with
  | nil => rfl
  | cons s ss ih =>
    have hrest := fun s' hs' => hahead s' (List.mem_cons_of_mem s hs')
    have hclip : (clip l s).start = max s.range.start l.start := rfl
    have hclip' : (clip l s).stop = min s.range.stop l.stop := rfl
    rcases Nat.lt_or_ge s.range.start l.stop with hmeets | hbehind
    · rw [repeats_cons_iff, not_or] at h
      cases hempty : s.range.isEmpty with
      | true =>
        rw [hempty] at h
        have hrange : s.range.stop ≤ s.range.start := of_decide_eq_true hempty
        have hle : s.range.start ≤ shown := Nat.not_lt.1 fun hlt => h.1 ⟨rfl, hlt, hmeets⟩
        rw [List.filter_cons_of_neg (by simp [hempty]), ih hstart hss.of_cons hrest h.2,
          paint_cons_of_outside hmeets (by omega) (by omega)]
      | false =>
        rw [hempty] at h
        have hnext : ¬ Repeats l (max shown s.range.stop) ss := h.2
        have hrange : s.range.start < s.range.stop := by simpa [Range.isEmpty] using hempty
        have hle := hahead s List.mem_cons_self hempty
        rw [List.filter_cons_of_pos (by simp [hempty])]
        by_cases hinside : (clip l s).start < (clip l s).stop
        · refine paint_cons_congr hmeets hinside (ih (by omega) hss.of_cons ?_ ?_)
          · intro s' hs' hne
            have := hss.stop_le_of_cons hs' hne
            omega
          · rcases Nat.le_total l.stop s.range.stop with hstop | hstop
            · exact not_repeats_of_stop_le (by omega)
            · exact fun hrepeats => hnext (hrepeats.of_le (by omega))
        · -- The span ends before the line, or there is nothing in the line.
          rw [paint_cons_of_outside hmeets (by omega) (by omega),
            paint_cons_of_outside hmeets (by omega) (by omega)]
          apply ih hstart hss.of_cons hrest
          rcases Nat.lt_or_ge l.start s.range.stop with hstop | hstop
          · exact not_repeats_of_stop_le (by omega)
          · exact fun hrepeats => hnext (hrepeats.of_le (by omega))
    · have hall := hss.behind hbehind
      rw [paint_of_behind hall, paint_of_behind fun s' hs' => hall s' (List.mem_of_mem_filter hs')]

theorem lt_stop_of_mem_dropWhile (hspans : Given cs spans) {n : Nat}
    (hs : s ∈ spans.dropWhile (·.range.stop ≤ n)) (hne : s.range.isEmpty = false) :
    n < s.range.stop := by
  induction spans with
  | nil => cases hs
  | cons s' spans ih =>
    rw [List.dropWhile_cons] at hs
    split at hs
    next => exact ih hspans.of_cons hs
    next hstop =>
      have hlt : n < s'.range.stop := by simpa using hstop
      rcases List.mem_cons.1 hs with rfl | hs
      · exact hlt
      · have := hspans.stop_le_of_cons hs hne
        simp only [Range.isEmpty, decide_eq_false_iff_not] at hne
        omega

theorem styleAt_filter (n : Nat) :
    t.styleAt (spans.filter (!·.range.isEmpty)) n = t.styleAt spans n := by
  induction spans with
  | nil => rfl
  | cons s spans ih =>
    cases hempty : s.range.isEmpty with
    | true =>
      rw [List.filter_cons_of_neg (by simp [hempty]), ih,
        Theme.styleAt_cons_of_not_contains (Range.isEmpty_iff.1 hempty n)]
    | false =>
      rw [List.filter_cons_of_pos (by simp [hempty])]
      by_cases hn : s.range.Contains n
      · rw [Theme.styleAt_cons_of_contains hn, Theme.styleAt_cons_of_contains hn]
      · rw [Theme.styleAt_cons_of_not_contains hn, Theme.styleAt_cons_of_not_contains hn, ih]

theorem chars_orEmpty (line : StyledLine) : (orEmpty line).chars = line.chars := by
  cases line <;> rfl

theorem exists_paint_iff (hl : l ∈ Text.lines cs) (hspans : Given cs spans) :
    ∃ line, paint t l l.start (spans.dropWhile (·.range.stop ≤ l.start)) = .ok line ∧
      (l.ShownAs (t.styleAt spans) (orEmpty line) ↔ ¬ Repeats l l.start spans) := by
  have hkept := hspans.sublist (List.dropWhile_sublist (·.range.stop ≤ l.start))
  obtain ⟨line, hpaint, -, hlong⟩ := exists_isLong (t := t) hl (isOffset_start l) hkept
  rw [repeats_dropWhile hspans (Nat.le_refl _)] at hlong
  refine ⟨line, hpaint, ?_, ?_⟩
  · intro hshown hrepeats
    have hwidth := hlong hrepeats
    rw [← chars_orEmpty, hshown.chars_eq, Line.stop] at hwidth
    omega
  · intro h
    rw [← repeats_dropWhile hspans (Nat.le_refl _)] at h
    rw [← paint_filter (Nat.le_refl _) hkept (fun _ _ _ => Nat.le_max_right _ _) h] at hpaint
    have hahead : Ahead l l.start ((spans.dropWhile (·.range.stop ≤ l.start)).filter
        (!·.range.isEmpty)) := by
      intro s hs
      obtain ⟨hs, hne⟩ := List.mem_filter.1 hs
      exact ⟨lt_stop_of_mem_dropWhile hspans hs (by simpa using hne), Nat.le_max_right _ _⟩
    obtain ⟨line', hpaint', hshows⟩ := exists_paint (t := t) hl (isOffset_start l) l.start_le_stop
      hkept.spread hahead
    obtain rfl := Except.ok.inj (hpaint.symm.trans hpaint')
    apply Shows.shownAs
    apply Shows.orEmpty
    apply hshows.congr
    intro n hn _
    rw [styleAt_filter, Theme.styleAt_dropWhile hn]

theorem paintAll_dropWhile {n : Nat} {ls : List Line} (h : ∀ l ∈ ls, n ≤ l.start) :
    paintAll t (spans.dropWhile (·.range.stop ≤ n)) ls = paintAll t spans ls := by
  cases ls with
  | nil => rfl
  | cons l ls =>
    have hle := h l List.mem_cons_self
    rw [paintAll, paintAll, dropWhile_dropWhile fun _ hs =>
      decide_eq_true (Nat.le_trans (of_decide_eq_true hs) hle)]

theorem exists_paintAll_iff {ls : List Line} (hls : List.Sublist ls (Text.lines cs))
    (hspans : Given cs spans) :
    ∃ lines, paintAll t spans ls = .ok lines ∧
      List.Forall₂ (fun l line => l.ShownAs (t.styleAt spans) line ↔ ¬ Repeats l l.start spans)
        ls lines := by
  induction ls with
  | nil => exact ⟨[], rfl, .nil⟩
  | cons l ls ih =>
    obtain ⟨line, hpaint, hshown⟩ := exists_paint_iff (t := t) (hls.subset List.mem_cons_self) hspans
    obtain ⟨rest, hpaintAll, hrest⟩ := ih ((List.sublist_cons_self l ls).trans hls)
    rw [← paintAll_dropWhile (n := l.start)] at hpaintAll
    · refine ⟨orEmpty line :: rest, ?_, .cons hshown hrest⟩
      exact bind_eq_ok_iff.2 ⟨line, hpaint, bind_eq_ok_iff.2 ⟨rest, hpaintAll, rfl⟩⟩
    · intro l' hl'
      have hlt := List.rel_of_pairwise_cons ((Text.pairwise_lines cs).sublist hls) hl'
      exact Nat.le_trans l.start_le_stop (Nat.le_of_lt hlt)

theorem forall_shownAs_iff_lines (hspans : Given cs spans) (t : Theme) :
    ∃ ls, lines t cs spans = .ok ls ∧
      List.Forall₂ (fun l line => l.ShownAs (t.styleAt spans) line ↔ ¬ Repeats l l.start spans)
        (Text.shownLines cs) ls := by
  cases cs with
  | nil =>
    refine ⟨_, rfl, .cons (iff_of_true ⟨rfl, rfl⟩ ?_) .nil⟩
    exact not_repeats_of_stop_le (Nat.le_refl 0)
  | cons c cs =>
    obtain ⟨ls, hpaint, hshown⟩ := exists_paintAll_iff (t := t) List.filter_sublist hspans
    have hlength : 0 < ls.length := by
      rw [← hshown.length_eq, List.length_pos_iff]
      exact Text.listedLines_ne_nil (List.cons_ne_nil c cs)
    refine ⟨ls, bind_eq_ok_iff.2 ⟨ls, hpaint, ?_⟩, ?_⟩
    · rw [List.isEmpty_eq_false_iff.2 (List.length_pos_iff.1 hlength)]
      rfl
    · rwa [← Text.listedLines_eq (List.cons_ne_nil c cs)]

theorem forall_shownAs_iff_lines_over_breaks :
    let cs := "aé b\r\ncd\n".toList
    let spans : List Span := [⟨.keyword, ⟨0, 3⟩⟩, ⟨.number, ⟨3, 3⟩⟩, ⟨.string, ⟨4, 8⟩⟩,
      ⟨.comment, ⟨6, 6⟩⟩, ⟨.plain, ⟨9, 9⟩⟩]
    Given cs spans ∧ ∃ ls, lines .oneDark cs spans = .ok ls ∧
      List.Forall₂
        (fun l line => l.ShownAs (Theme.oneDark.styleAt spans) line ↔ ¬ Repeats l l.start spans)
        (Text.shownLines cs) ls := by
  intro cs spans
  have hspans : Given cs spans := ⟨⟨by decide, by decide, by decide⟩, by decide +kernel⟩
  exact ⟨hspans, forall_shownAs_iff_lines hspans .oneDark⟩

theorem lines_of_empty_span :
    let spans : List Span := [⟨.keyword, ⟨1, 1⟩⟩]
    Given "ab".toList spans ∧ (Text.shownLines "ab".toList).map Line.text = ["ab".toList] ∧
      (lines .oneDark "ab".toList spans).toOption.map (·.map StyledLine.chars) =
        some ["aab".toList] := by
  intro spans
  have hspans : Given "ab".toList spans := ⟨⟨by decide, by decide, by decide⟩, by decide +kernel⟩
  exact ⟨hspans, by decide +kernel, by decide +kernel⟩

end

end Highlight

end SqlHighlight
