import Mathlib.Data.List.Forall2
import SqlHighlight.Proofs.Breaks
import SqlHighlight.Proofs.SpanBoundaries
import SqlHighlight.Style.Highlight

namespace SqlHighlight

def StyledLine.byteStyles (l : StyledLine) : List Style :=
  l.flatMap fun t => List.replicate (Text.width t.text) t.style

def Theme.styleAt (t : Theme) (spans : List Span) (n : Nat) : Style :=
  ((spans.find? fun s => s.range.Contains n).map fun s => t.styleOfCategory s.category).getD .default

namespace Theme

variable {t : Theme} {spans : List Span} {s : Span} {n : Nat}

theorem styleAt_of_forall_not_contains (h : ∀ s ∈ spans, ¬ s.range.Contains n) :
    t.styleAt spans n = .default := by
  have hnone : spans.find? (fun s => s.range.Contains n) = none := by simpa using h
  rw [styleAt, hnone]
  rfl

theorem styleAt_cons_of_contains (h : s.range.Contains n) :
    t.styleAt (s :: spans) n = t.styleOfCategory s.category := by
  rw [styleAt, List.find?_cons_of_pos (by simpa using h)]
  rfl

theorem styleAt_cons_of_not_contains (h : ¬ s.range.Contains n) :
    t.styleAt (s :: spans) n = t.styleAt spans n := by
  rw [styleAt, List.find?_cons_of_neg (by simpa using h), styleAt]

theorem styleAt_dropWhile {start : Nat} (h : start ≤ n) :
    t.styleAt (spans.dropWhile (·.range.stop ≤ start)) n = t.styleAt spans n := by
  induction spans with
  | nil => rfl
  | cons s spans ih =>
    rw [List.dropWhile_cons]
    split
    next hstop =>
      have hle : s.range.stop ≤ n := Nat.le_trans (of_decide_eq_true hstop) h
      rw [ih, styleAt_cons_of_not_contains fun hn => Nat.not_lt.2 hle hn.2]
    next => rfl

end Theme

namespace Highlight

structure IsOffset (l : Line) (n : Nat) : Prop where
  start_le : l.start ≤ n
  isBoundary : Text.IsBoundary (n - l.start) l.text

section

variable {l : Line} {cs : List Char} {n : Nat}

theorem isOffset_start (l : Line) : IsOffset l l.start := by
  refine ⟨Nat.le_refl _, ?_⟩
  rw [Nat.sub_self]
  simp [Text.IsBoundary]

theorem isOffset_stop (l : Line) : IsOffset l l.stop := by
  refine ⟨l.start_le_stop, ?_⟩
  rw [Line.stop, Nat.add_sub_cancel_left]
  exact Text.isBoundary_width l.text

theorem isOffset_of_isBoundary (hl : l ∈ Text.lines cs) (hn : Text.IsBoundary n cs)
    (hstart : l.start ≤ n) (hstop : n ≤ l.stop) : IsOffset l n := by
  obtain ⟨before, after, rfl, hbefore⟩ := Text.exists_append_of_mem_lines hl
  refine ⟨hstart, ?_⟩
  rw [← Nat.add_sub_cancel' hstart, ← hbefore, Text.isBoundary_append_right,
    Text.isBoundary_append_left (by rw [Line.stop] at hstop; omega)] at hn
  rwa [← hbefore]

end

structure Shows (style : Nat → Style) (l : Line) (start stop : Nat) (line : StyledLine) : Prop where
  slice_eq : Text.slice (start - l.start) (stop - l.start) l.text = .ok line.chars
  byteStyles_eq : line.byteStyles = (List.range' start (stop - start)).map style

section

variable {style : Nat → Style} {l : Line} {start middle stop : Nat} {xs ys : StyledLine}

theorem shows_nil (h : IsOffset l start) : Shows style l start start [] := by
  constructor
  · obtain ⟨before, after, htext, hwidth⟩ := Text.isBoundary_iff.1 h.isBoundary
    exact Text.slice_eq_ok_iff.2 ⟨before, after, htext, hwidth, rfl⟩
  · rw [Nat.sub_self]
    rfl

theorem Shows.append (hxs : Shows style l start middle xs) (hys : Shows style l middle stop ys)
    (hle : start ≤ middle) (hle' : middle ≤ stop) : Shows style l start stop (xs ++ ys) := by
  constructor
  · rw [StyledLine.chars, List.flatMap_append]
    exact Text.slice_trans hxs.slice_eq hys.slice_eq
  · have hrange := List.range'_append_1 (s := start) (m := middle - start) (n := stop - middle)
    rw [Nat.add_sub_cancel' hle, show middle - start + (stop - middle) = stop - start by omega] at hrange
    rw [StyledLine.byteStyles, List.flatMap_append, ← hrange, List.map_append, ← hxs.byteStyles_eq,
      ← hys.byteStyles_eq]
    rfl

theorem Shows.congr {style' : Nat → Style} (h : Shows style l start stop xs)
    (hstyle : ∀ n, start ≤ n → n < stop → style n = style' n) : Shows style' l start stop xs := by
  refine ⟨h.slice_eq, h.byteStyles_eq.trans ?_⟩
  apply List.map_congr_left
  intro n hn
  rw [List.mem_range'_1] at hn
  exact hstyle n hn.1 (by omega)

theorem Shows.orEmpty (h : Shows style l start stop xs) : Shows style l start stop (orEmpty xs) := by
  rw [Highlight.orEmpty]
  split
  next hnil =>
    obtain rfl := List.isEmpty_iff.1 hnil
    exact ⟨h.slice_eq, h.byteStyles_eq⟩
  next => exact h

theorem exists_slice_of_isOffset (hstart : IsOffset l start) (hstop : IsOffset l stop)
    (hle : start ≤ stop) :
    ∃ inside, Text.slice (start - l.start) (stop - l.start) l.text = .ok inside ∧
      Text.width inside = stop - start := by
  obtain ⟨inside, hslice⟩ :=
    Text.exists_slice hstart.isBoundary hstop.isBoundary (Nat.sub_le_sub_right hle _)
  obtain ⟨-, -, -, -, hwidth⟩ := Text.slice_eq_ok_iff.1 hslice
  have := hstart.start_le
  exact ⟨inside, hslice, by omega⟩

theorem exists_part {value : Style} (hstart : IsOffset l start) (hstop : IsOffset l stop)
    (hle : start ≤ stop) (hstyle : ∀ n, start ≤ n → n < stop → style n = value) :
    ∃ x, part l start stop value = .ok x ∧ Shows style l start stop [x] := by
  obtain ⟨inside, hslice, hinside⟩ := exists_slice_of_isOffset hstart hstop hle
  refine ⟨⟨inside, value⟩, bind_eq_ok_iff.2 ⟨inside, hslice, rfl⟩, ?_, ?_⟩
  · simpa [StyledLine.chars] using hslice
  · rw [StyledLine.byteStyles, List.flatMap_singleton, hinside]
    refine (List.eq_replicate_iff.2 ⟨by simp, ?_⟩).symm
    rw [List.forall_mem_map]
    intro n hn
    rw [List.mem_range'_1] at hn
    exact hstyle n hn.1 (by omega)

theorem exists_gap (hstart : IsOffset l start) (hstop : IsOffset l stop)
    (hle : start ≤ stop) (hstyle : ∀ n, start ≤ n → n < stop → style n = .default) :
    ∃ xs, gap l start stop = .ok xs ∧ Shows style l start stop xs := by
  rw [gap]
  split
  next =>
    obtain ⟨x, hx, hshows⟩ := exists_part hstart hstop hle hstyle
    exact ⟨[x], bind_eq_ok_iff.2 ⟨x, hx, rfl⟩, hshows⟩
  next hge =>
    obtain rfl : start = stop := by omega
    exact ⟨[], rfl, shows_nil hstart⟩

end

/-- Spans of a text one behind the other, each with some content and cut between characters. -/
structure Spread (cs : List Char) (spans : List Span) : Prop where
  pairwise : spans.Pairwise (·.range.stop ≤ ·.range.start)
  start_lt_stop : ∀ s ∈ spans, s.range.start < s.range.stop
  fitsIn : ∀ s ∈ spans, s.range.FitsIn cs

theorem Spread.sublist {cs : List Char} {spans spans' : List Span} (hsub : List.Sublist spans' spans)
    (h : Spread cs spans) : Spread cs spans' where
  pairwise := h.pairwise.sublist hsub
  start_lt_stop s hs := h.start_lt_stop s (hsub.subset hs)
  fitsIn s hs := h.fitsIn s (hsub.subset hs)

theorem Spread.of_cons {cs : List Char} {s : Span} {ss : List Span} (h : Spread cs (s :: ss)) :
    Spread cs ss :=
  h.sublist (List.sublist_cons_self s ss)

theorem Spread.styleAt_of_lt {cs : List Char} {s : Span} {ss : List Span} {n : Nat} {t : Theme}
    (h : Spread cs (s :: ss)) (hn : n < s.range.start) : t.styleAt (s :: ss) n = .default := by
  apply Theme.styleAt_of_forall_not_contains
  intro s' hs' hcontains
  have hstart := hcontains.1
  rcases List.mem_cons.1 hs' with rfl | hs'
  · omega
  · have := List.rel_of_pairwise_cons h.pairwise hs'
    have := h.start_lt_stop s List.mem_cons_self
    omega

def Ahead (l : Line) (shown : Nat) (ss : List Span) : Prop :=
  ∀ s ∈ ss, l.start < s.range.stop ∧ shown ≤ max s.range.start l.start

section

variable {t : Theme} {cs : List Char} {l : Line} {shown : Nat} {s : Span} {ss : List Span}

theorem Ahead.of_cons (h : Ahead l shown (s :: ss)) (hss : Spread cs (s :: ss)) {next : Nat}
    (hnext : next ≤ s.range.stop) : Ahead l next ss := by
  intro s' hs'
  have := (h s List.mem_cons_self).1
  have := List.rel_of_pairwise_cons hss.pairwise hs'
  have := hss.of_cons.start_lt_stop s' hs'
  omega

def clip (l : Line) (s : Span) : Range := ⟨max s.range.start l.start, min s.range.stop l.stop⟩

theorem isOffset_clip_start (hl : l ∈ Text.lines cs) (hs : s.range.FitsIn cs)
    (hle : s.range.start ≤ l.stop) : IsOffset l (clip l s).start := by
  rw [clip]
  rcases Nat.le_total s.range.start l.start with h | h
  · rw [Nat.max_eq_right h]
    exact isOffset_start l
  · rw [Nat.max_eq_left h]
    exact isOffset_of_isBoundary hl hs.start_isBoundary h hle

theorem isOffset_clip_stop (hl : l ∈ Text.lines cs) (hs : s.range.FitsIn cs)
    (hle : l.start ≤ s.range.stop) : IsOffset l (clip l s).stop := by
  rw [clip]
  rcases Nat.le_total s.range.stop l.stop with h | h
  · rw [Nat.min_eq_left h]
    exact isOffset_of_isBoundary hl hs.stop_isBoundary hle h
  · rw [Nat.min_eq_right h]
    exact isOffset_stop l

theorem paint_cons_of_inside {before rest : StyledLine} {inside : StyledText}
    (hmeets : s.range.start < l.stop) (hinside : (clip l s).start < (clip l s).stop)
    (hbefore : gap l shown (clip l s).start = .ok before)
    (hpart : part l (clip l s).start (clip l s).stop (t.styleOfCategory s.category) = .ok inside)
    (hrest : paint t l (clip l s).stop ss = .ok rest) :
    paint t l shown (s :: ss) = .ok (before ++ inside :: rest) := by
  rw [paint, if_neg (Nat.not_le.2 hmeets)]
  refine bind_eq_ok_iff.2 ⟨before, hbefore, (if_pos hinside).trans ?_⟩
  exact bind_eq_ok_iff.2 ⟨inside, hpart, bind_eq_ok_iff.2 ⟨rest, hrest, rfl⟩⟩

theorem exists_paint_cons (hl : l ∈ Text.lines cs) (hshown : IsOffset l shown)
    (hss : Spread cs (s :: ss)) (hahead : Ahead l shown (s :: ss))
    (hinside : (clip l s).start < (clip l s).stop)
    (hrest : ∃ rest, paint t l (clip l s).stop ss = .ok rest ∧
      Shows (t.styleAt ss) l (clip l s).stop l.stop rest) :
    ∃ line, paint t l shown (s :: ss) = .ok line ∧ Shows (t.styleAt (s :: ss)) l shown l.stop line := by
  obtain ⟨hended, hnext⟩ := hahead s List.mem_cons_self
  have hstart := hshown.start_le
  have hfits := hss.fitsIn s List.mem_cons_self
  have hclip : (clip l s).start = max s.range.start l.start := rfl
  have hclip' : (clip l s).stop = min s.range.stop l.stop := rfl
  have hfirst := isOffset_clip_start hl hfits (by omega)
  have hlast := isOffset_clip_stop hl hfits (Nat.le_of_lt hended)
  obtain ⟨before, hbefore, hshows⟩ : ∃ xs, gap l shown (clip l s).start = .ok xs ∧
      Shows (t.styleAt (s :: ss)) l shown (clip l s).start xs :=
    exists_gap hshown hfirst hnext fun n _ hn => hss.styleAt_of_lt (by omega)
  obtain ⟨inside, hpart, hshows'⟩ :
      ∃ x, part l (clip l s).start (clip l s).stop (t.styleOfCategory s.category) = .ok x ∧
        Shows (t.styleAt (s :: ss)) l (clip l s).start (clip l s).stop [x] :=
    exists_part hfirst hlast (Nat.le_of_lt hinside) fun n _ _ =>
      Theme.styleAt_cons_of_contains ⟨by omega, by omega⟩
  -- Behind the span, or the line if it ends first, only the spans after it matter.
  obtain ⟨rest, hpaint, hshows''⟩ := hrest
  replace hshows'' : Shows (t.styleAt (s :: ss)) l (clip l s).stop l.stop rest := by
    apply hshows''.congr
    intro n hn hn'
    refine (Theme.styleAt_cons_of_not_contains fun hcontains => ?_).symm
    have := hcontains.2
    omega
  refine ⟨before ++ inside :: rest, ?_, ?_⟩
  · exact paint_cons_of_inside (by omega) hinside hbefore hpart hpaint
  · exact hshows.append (hshows'.append hshows'' (by omega) (by omega)) (by omega) (by omega)

theorem paint_of_isEmpty (hempty : l.stop = l.start) (hss : Spread cs ss) (hahead : Ahead l l.start ss) :
    paint t l l.start ss = .ok [] := by
  have hgap {stop : Nat} (h : stop ≤ l.start) : gap l l.start stop = .ok [] := if_neg (by omega)
  induction ss with
  | nil => exact hgap (by omega)
  | cons s ss ih =>
    have hended := (hahead s List.mem_cons_self).1
    rw [paint]
    split
    next => exact hgap (by omega)
    next hmeets =>
      refine bind_eq_ok_iff.2 ⟨[], hgap (by omega), ?_⟩
      rw [if_neg (by omega), ih hss.of_cons (hahead.of_cons hss (Nat.le_of_lt hended))]
      rfl

theorem exists_paint (hl : l ∈ Text.lines cs) (hshown : IsOffset l shown) (hle : shown ≤ l.stop)
    (hss : Spread cs ss) (hahead : Ahead l shown ss) :
    ∃ line, paint t l shown ss = .ok line ∧ Shows (t.styleAt ss) l shown l.stop line := by
  have hstart := hshown.start_le
  rcases Nat.eq_or_lt_of_le l.start_le_stop with hempty | hlong
  · obtain rfl : shown = l.start := by omega
    refine ⟨[], paint_of_isEmpty hempty.symm hss hahead, ?_⟩
    rw [← hempty]
    exact shows_nil hshown
  · induction ss generalizing shown with
    | nil => exact exists_gap hshown (isOffset_stop l) hle fun _ _ _ => rfl
    | cons s ss ih =>
      rcases Nat.lt_or_ge s.range.start l.stop with hmeets | hbehind
      · have hlt := hss.start_lt_stop s List.mem_cons_self
        have hended := (hahead s List.mem_cons_self).1
        have hlast := isOffset_clip_stop hl (hss.fitsIn s List.mem_cons_self) (Nat.le_of_lt hended)
        refine exists_paint_cons hl hshown hss hahead ?_ ?_
        · simp only [clip]
          omega
        · exact ih hlast (Nat.min_le_right _ _) hss.of_cons
            (hahead.of_cons hss (Nat.min_le_left _ _)) hlast.start_le
      · rw [paint, if_pos hbehind]
        exact exists_gap hshown (isOffset_stop l) hle fun n _ hn => hss.styleAt_of_lt (by omega)

theorem ahead_dropWhile (hss : Spread cs ss) (l : Line) :
    Ahead l l.start (ss.dropWhile (·.range.stop ≤ l.start)) := by
  induction ss with
  | nil => simp [Ahead]
  | cons s ss ih =>
    rw [List.dropWhile_cons]
    split
    next => exact ih hss.of_cons
    next hstop =>
      have hended : l.start < s.range.stop := by simpa using hstop
      intro s' hs'
      refine ⟨?_, Nat.le_max_right _ _⟩
      rcases List.mem_cons.1 hs' with rfl | hs'
      · exact hended
      · have := List.rel_of_pairwise_cons hss.pairwise hs'
        have := hss.of_cons.start_lt_stop s' hs'
        omega

theorem exists_paintAll {style : Nat → Style} {ls : List Line} (hls : List.Sublist ls (Text.lines cs))
    (hss : Spread cs ss) (hstyle : ∀ l ∈ ls, ∀ n, l.start ≤ n → t.styleAt ss n = style n) :
    ∃ lines, paintAll t ss ls = .ok lines ∧
      List.Forall₂ (fun l line => Shows style l l.start l.stop line) ls lines := by
  induction ls generalizing ss with
  | nil => exact ⟨[], rfl, .nil⟩
  | cons l ls ih =>
    have hkept := hss.sublist (List.dropWhile_sublist (·.range.stop ≤ l.start))
    obtain ⟨line, hpaint, hshows⟩ := exists_paint (t := t) (hls.subset List.mem_cons_self)
      (isOffset_start l) l.start_le_stop hkept (ahead_dropWhile hss l)
    obtain ⟨rest, hpaintAll, hrest⟩ := ih ((List.sublist_cons_self l ls).trans hls) hkept (by
      intro l' hl' n hn
      have hlt := List.rel_of_pairwise_cons ((Text.pairwise_lines cs).sublist hls) hl'
      have := l.start_le_stop
      rw [Theme.styleAt_dropWhile (by omega)]
      exact hstyle l' (List.mem_cons_of_mem l hl') n hn)
    refine ⟨orEmpty line :: rest, ?_, .cons (hshows.congr fun n hn _ => ?_).orEmpty hrest⟩
    · exact bind_eq_ok_iff.2 ⟨line, hpaint, bind_eq_ok_iff.2 ⟨rest, hpaintAll, rfl⟩⟩
    · rw [Theme.styleAt_dropWhile hn]
      exact hstyle l List.mem_cons_self n hn

end

end Highlight

/-- A styled line shows a whole line: all its text, each byte in the style that its offset has. -/
structure Line.ShownAs (style : Nat → Style) (l : Line) (line : StyledLine) : Prop where
  chars_eq : line.chars = l.text
  byteStyles_eq : line.byteStyles = (List.range' l.start (Text.width l.text)).map style

theorem Highlight.Shows.shownAs {style : Nat → Style} {l : Line} {line : StyledLine}
    (h : Shows style l l.start l.stop line) : l.ShownAs style line := by
  obtain ⟨hslice, hstyles⟩ := h
  rw [Line.stop, Nat.add_sub_cancel_left] at hslice hstyles
  have hall := Text.slice_append [] l.text []
  simp only [Text.width_nil, Nat.zero_add, List.nil_append, List.append_nil] at hall
  rw [Nat.sub_self, hall] at hslice
  exact ⟨(Except.ok.inj hslice).symm, hstyles⟩

theorem Highlight.exists_lines {cs : List Char} {spans : List Span} (h : Spread cs spans) (t : Theme) :
    ∃ ls, lines t cs spans = .ok ls ∧
      List.Forall₂ (Line.ShownAs (t.styleAt spans)) (Text.shownLines cs) ls := by
  cases cs with
  | nil => exact ⟨_, rfl, .cons ⟨rfl, rfl⟩ .nil⟩
  | cons c cs =>
    obtain ⟨ls, hpaint, hshows⟩ := exists_paintAll List.filter_sublist h fun _ _ _ _ => rfl
    have hlength : 0 < ls.length := by
      rw [← hshows.length_eq, List.length_pos_iff]
      exact Text.listedLines_ne_nil (List.cons_ne_nil c cs)
    refine ⟨ls, bind_eq_ok_iff.2 ⟨ls, hpaint, ?_⟩, ?_⟩
    · rw [List.isEmpty_eq_false_iff.2 (List.length_pos_iff.1 hlength)]
      rfl
    · rw [← Text.listedLines_eq (List.cons_ne_nil c cs)]
      exact hshows.imp fun _ _ h => h.shownAs

theorem plainText_eq_of_shownAs {style : Nat → Style} {ls : List Line} {lines : List StyledLine}
    (h : List.Forall₂ (Line.ShownAs style) ls lines) :
    plainText lines = ls.flatMap fun l => l.text ++ ['\n'] := by
  induction h with
  | nil => rfl
  | cons hline _ ih =>
    rw [plainText, List.flatMap_cons, List.flatMap_cons, hline.chars_eq, ← ih]
    rfl

namespace Classifier

variable {trees : String → Option Sql.ConcreteTree} {settings : Settings} {c : Classifier}

theorem exists_classifySource (hnew : Classifier.new trees settings = .ok c)
    (hfits : settings.backend = .concrete → ∀ sql, ∀ tree ∈ trees sql, tree.root.FitsIn sql.toList)
    {source : String} (hlength : Text.width source.toList < Offset.bound) :
    ∃ spans, c.classifySource source = .ok spans ∧
      Range.InOrder 0 (spans.map Span.range) (Text.width source.toList) ∧
      Highlight.Spread source.toList spans := by
  have hparser (sql : String) : ∃ d, c.parser sql = .ok d ∧ d.Mirrors sql := by
    rw [new_eq_ok hnew]
    exact Backend.exists_mirrors fun hbackend => hfits hbackend sql
  have hmirrors (sql : String) (d : Sql.Document) (hd : c.parser sql = .ok d) : d.Mirrors sql := by
    obtain ⟨d', hd', hmirrors⟩ := hparser sql
    rwa [Except.ok.inj (hd.symm.trans hd')]
  have hplaced := (Tagger.ofRevision (.first source)).placed_literals (.first source)
    ⟨0, (Revision.first source).length⟩
  obtain ⟨spans, hspans⟩ := exists_classifyAll (fun sql => (hparser sql).imp fun _ h => h.1)
    hplaced.isCutFrom
  have hr : (Revision.first source).length < Offset.bound := hlength
  obtain ⟨hin, hshows⟩ := inOrder_of_classifyAll hplaced hr hspans
  refine ⟨spans, hspans, hin, List.pairwise_map.1 hin.pairwise, ?_, ?_⟩
  · intro s hs
    obtain ⟨l, -, hl⟩ := hshows s hs
    exact hl.start_lt_stop
  · exact fun s hs => fitsIn_of_classify hmirrors hr hspans hs

theorem exists_highlight_shownAs (hnew : Classifier.new trees settings = .ok c)
    (hfits : settings.backend = .concrete → ∀ sql, ∀ tree ∈ trees sql, tree.root.FitsIn sql.toList)
    (t : Theme) (source : String) (hlength : Text.width source.toList < Offset.bound) :
    ∃ spans lines, c.classifySource source = .ok spans ∧ c.highlight t source = .ok lines ∧
      Range.InOrder 0 (spans.map Span.range) (Text.width source.toList) ∧
      List.Forall₂ (Line.ShownAs (t.styleAt spans)) (Text.shownLines source.toList) lines ∧
      plainText lines = Text.withFinalFeed (Text.unixBreaks source.toList) ∧
      (source.toList.getLast? = some '\n' → ¬ ['\r', '\n'] <:+: source.toList →
        plainText lines = source.toList) := by
  obtain ⟨spans, hspans, hin, hspread⟩ := exists_classifySource hnew hfits hlength
  obtain ⟨lines, hlines, hshown⟩ := Highlight.exists_lines hspread t
  have hplain : plainText lines = Text.withFinalFeed (Text.unixBreaks source.toList) :=
    (plainText_eq_of_shownAs hshown).trans (Text.flatMap_shownLines _)
  refine ⟨spans, lines, hspans, bind_eq_ok_iff.2 ⟨spans, hspans, hlines⟩, hin, hshown, hplain, ?_⟩
  intro hfeed hbreaks
  rw [hplain, Text.unixBreaks_eq_self hbreaks, Text.withFinalFeed, if_pos hfeed]

theorem exists_highlight_shownAs_mixed_breaks :
    let trees : String → Option Sql.ConcreteTree := fun sql =>
      if sql = "SELECT ___é" then
        some ⟨.node "program" true false ⟨0, 12⟩ [.node "keyword_select" true false ⟨0, 6⟩ []], false⟩
      else none
    let source := "q = $\"SELECT {x}é\";\r\n\nend\r"
    (Text.shownLines source.toList).map Line.text =
        ["q = $\"SELECT {x}é\";".toList, [], "end\r".toList] ∧
      ∀ backend : Backend, ∃ c spans lines, Classifier.new trees { backend } = .ok c ∧
        c.classifySource source = .ok spans ∧ c.highlight .oneDark source = .ok lines ∧
        List.Forall₂ (Line.ShownAs (Theme.oneDark.styleAt spans)) (Text.shownLines source.toList) lines ∧
        plainText lines = "q = $\"SELECT {x}é\";\n\nend\r\n".toList := by
  intro trees source
  refine ⟨by decide +kernel, fun backend => ?_⟩
  have hnew : Classifier.new trees { backend } = .ok ⟨{ backend }, backend.parser trees⟩ := rfl
  have hfits (sql : String) : ∀ tree ∈ trees sql, tree.root.FitsIn sql.toList := by
    intro tree htree
    simp only [trees] at htree
    split at htree
    next hsql =>
      obtain rfl := Option.some.inj htree
      rw [hsql]
      decide +kernel
    next => cases htree
  obtain ⟨spans, lines, hspans, hlines, -, hshown, hplain, -⟩ :=
    exists_highlight_shownAs hnew (fun _ => hfits) .oneDark source (by decide)
  exact ⟨_, spans, lines, hnew, hspans, hlines, hshown, hplain.trans (by decide +kernel)⟩

end Classifier

end SqlHighlight
