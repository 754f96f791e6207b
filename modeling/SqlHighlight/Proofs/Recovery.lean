import SqlHighlight.Proofs.ContentLines
import SqlHighlight.Proofs.Query

namespace SqlHighlight.Literal

theorem head?_ne_of_not_mem {c : Char} {cs : List Char} (h : c ∉ cs) : cs.head? ≠ some c :=
  fun hhead => h (List.mem_of_head? hhead)

namespace Cut

section

variable {c : Char} {cs : List Char} {k : StringKind} {mark : List Char}

theorem ofCode_of_isInert (h : isInert c = true) (cs : List Char) :
    ofCode (c :: cs) = (ofCode cs).code [c] := by
  rw [ofCode, opening?_of_isInert h]

theorem ofCode_mark_of_rest_eq_none (h : mark ∈ k.marks) (hrest : (Content.read k cs).rest = none) :
    ofCode (mark ++ cs) =
      (Cut.mk [.literal ⟨k, (Content.read k cs).segments, false, k.verbatim⟩] k.leftOpen).code mark := by
  obtain ⟨c, more, rfl, hopening⟩ := StringKind.opening?_marks h cs
  rw [List.cons_append, ofCode, hopening]
  simp only [List.drop_left, List.take_left]
  split
  next => rfl
  next heq => simp [hrest] at heq

theorem ofCode_mark_of_rest_eq_some (h : mark ∈ k.marks) {rest : List Char}
    (hrest : (Content.read k cs).rest = some rest) :
    ofCode (mark ++ cs) =
      (((ofCode rest).code ['"']).literal ⟨k, (Content.read k cs).segments, false, false⟩).code mark := by
  obtain ⟨c, more, rfl, hopening⟩ := StringKind.opening?_marks h cs
  rw [List.cons_append, ofCode, hopening]
  simp only [List.drop_left, List.take_left]
  split
  next heq => simp [hrest] at heq
  next heq =>
    obtain rfl : rest = _ := by simpa [hrest] using heq
    rfl

theorem quote_mem_of_opening? {more : Nat} (h : opening? cs = some (.string k, more)) : '"' ∈ cs := by
  unfold opening? at h
  split at h <;> simp_all

theorem pieces_ofCode_of_quote_not_mem (h : '"' ∉ cs) : (ofCode cs).pieces = [] := by
  fun_induction ofCode cs with
  | case1 => rfl
  | case2 c cs _ ih => exact ih fun hmem => h (List.mem_cons_of_mem c hmem)
  | case3 c cs k more hopening => exact absurd (quote_mem_of_opening? hopening) h
  | case4 c cs k more hopening => exact absurd (quote_mem_of_opening? hopening) h
  | case5 => rfl
  | case6 c cs frame more _ _ inside rest hskip _ ih =>
    apply ih
    intro hmem
    have happend := append_skip more [frame] cs
    rw [hskip] at happend
    apply h
    rw [← happend]
    simp [hmem]

end

end Cut

theorem place_ofCode_append {before : List Char} (h : ∀ c ∈ before, isInert c = true) (start : Nat)
    (cs : List Char) :
    Part.place start (Cut.ofCode (before ++ cs)).stretches =
        Part.place (start + Text.width before) (Cut.ofCode cs).stretches ∧
      (Cut.ofCode (before ++ cs)).mode = (Cut.ofCode cs).mode := by
  induction before generalizing start with
  | nil => exact ⟨rfl, rfl⟩
  | cons c before ih =>
    obtain ⟨hc, hbefore⟩ := List.forall_mem_cons.1 h
    obtain ⟨hplace, hmode⟩ := ih hbefore (start + Text.width [c])
    rw [List.cons_append, Cut.ofCode_of_isInert hc]
    refine ⟨?_, hmode⟩
    rwa [Nat.add_assoc, ← Text.width_append] at hplace

theorem place_ofCode_of_quote_not_mem {cs : List Char} (h : '"' ∉ cs) (start : Nat) :
    Part.place start (Cut.ofCode cs).stretches = [] ∧ (Cut.ofCode cs).mode.isVerbatim = false := by
  have hpieces := Cut.pieces_ofCode_of_quote_not_mem h
  have hinto := Cut.opensInto_ofCode cs
  rw [hpieces] at hinto
  refine ⟨?_, hinto⟩
  rw [← List.map_eq_nil_iff, Part.map_piece_place]
  exact hpieces

section

variable {k : StringKind} {mark before content after : List Char} {l : Line}

theorem partsOf_of_isInert (h : ∀ c ∈ l.text, isInert c = true) :
    partsOf .code l = [] ∧ nextMode .code l.text = .code := by
  obtain ⟨hplace, hmode⟩ := place_ofCode_append h l.start []
  rw [List.append_nil, Cut.ofCode] at hplace hmode
  exact ⟨hplace, (nextMode_eq .code l.text).trans hmode⟩

theorem partsOf_opening (hk : k.verbatim = true) (hmark : mark ∈ k.marks)
    (hbefore : ∀ c ∈ before, isInert c = true) (hcontent : Content.GoesOn k content)
    (hl : l.text = before ++ (mark ++ content)) :
    partsOf .code l = [⟨l.start + Text.width before + Text.width mark,
        ⟨k, (Content.read k content).segments, false, true⟩⟩] ∧
      nextMode .code l.text = .string k := by
  obtain ⟨hplace, hmode⟩ := place_ofCode_append hbefore l.start (mark ++ content)
  rw [Cut.ofCode_mark_of_rest_eq_none hmark hcontent.rest_eq_none] at hplace hmode
  rw [← hl] at hplace hmode
  rw [StringKind.leftOpen, if_pos hk, hk] at hplace hmode
  exact ⟨hplace, (nextMode_eq .code l.text).trans hmode⟩

theorem partsOf_whole (hmark : mark ∈ k.marks) (hbefore : ∀ c ∈ before, isInert c = true)
    (hcontent : Content.GoesOn k content) (hafter : '"' ∉ after)
    (hl : l.text = before ++ (mark ++ (content ++ '"' :: after))) :
    partsOf .code l = [⟨l.start + Text.width before + Text.width mark,
        ⟨k, (Content.read k content).segments, false, false⟩⟩] ∧
      (nextMode .code l.text).isVerbatim = false := by
  have hread := hcontent.read_quote fun _ => head?_ne_of_not_mem hafter
  obtain ⟨hplace, hmode⟩ := place_ofCode_append hbefore l.start (mark ++ (content ++ '"' :: after))
  rw [Cut.ofCode_mark_of_rest_eq_some hmark (by rw [hread]), hread] at hplace hmode
  rw [← hl] at hplace hmode
  constructor
  · exact hplace.trans (congrArg (List.cons _) (place_ofCode_of_quote_not_mem hafter _).1)
  · rw [nextMode_eq]
    exact (congrArg Mode.isVerbatim hmode).trans (place_ofCode_of_quote_not_mem hafter 0).2

theorem partsOf_inside (hk : k.verbatim = true) (h : Content.GoesOn k l.text) :
    partsOf (.string k) l =
        [⟨l.start, ⟨k, (Content.read k l.text).segments, true, true⟩⟩] ∧
      nextMode (.string k) l.text = .string k := by
  have hline := Cut.ofLine_of_rest_eq_none hk h.rest_eq_none
  exact ⟨by rw [partsOf, hline]; rfl, by rw [nextMode_eq, hline]⟩

theorem partsOf_closing (hk : k.verbatim = true) (hcontent : Content.GoesOn k content)
    (hafter : '"' ∉ after) (hl : l.text = content ++ '"' :: after) :
    partsOf (.string k) l =
        [⟨l.start, ⟨k, (Content.read k content).segments, true, false⟩⟩] ∧
      (nextMode (.string k) l.text).isVerbatim = false := by
  have hread := hcontent.read_quote fun _ => head?_ne_of_not_mem hafter
  rw [← hl] at hread
  have hrest : (Content.read k l.text).rest = some after := by rw [hread]
  have hline := Cut.ofLine_of_rest_eq_some hk hrest
  rw [hread] at hline
  constructor
  · rw [partsOf, hline]
    exact congrArg (List.cons _) (place_ofCode_of_quote_not_mem hafter _).1
  · rw [nextMode_eq, hline]
    exact (place_ofCode_of_quote_not_mem hafter 0).2

end

namespace Assembly

section

variable {k : StringKind} {mark before content after : List Char} {l : Line} {x : Option Literal}
  {p : Part} {mode : Mode} {ls : List Line}

theorem addLine_of_partsOf {a : Assembly} (h : partsOf mode l = [p]) :
    a.addLine l.start (scanLine mode l.text) = (a.addPart p).settleIn (nextMode mode l.text) := by
  rw [addLine_scanLine, h]
  rfl

theorem addPart_pending (hcont : p.piece.continued = true ∨ x = none)
    (hopen : p.piece.openAtEnd = true) :
    (⟨[], x⟩ : Assembly).addPart p = ⟨[], join x p.literal?⟩ := by
  cases hp : p.hasContent with
  | false => simp [addPart, Part.literal?, hp]
  | true =>
    rcases hcont with hcont | rfl
    · simp [addPart, hp, hcont, hopen, extend]
    · simp [addPart, hp, hopen, extend, flush]

theorem flush_addPart_pending (hcont : p.piece.continued = true ∨ x = none) :
    ((⟨[], x⟩ : Assembly).addPart p).flush = ⟨(join x p.literal?).toList, none⟩ := by
  cases hp : p.hasContent with
  | false => simp [addPart, Part.literal?, hp, flush]
  | true =>
    rw [flush_addPart hp]
    rcases hcont with hcont | rfl
    · simp [hcont, extend, flush]
    · simp [extend, flush]

theorem addLine_of_open (hparts : partsOf mode l = [p])
    (hnext : (nextMode mode l.text).isVerbatim = true) (hcont : p.piece.continued = true ∨ x = none)
    (hopen : p.piece.openAtEnd = true) :
    (⟨[], x⟩ : Assembly).addLine l.start (scanLine mode l.text) = ⟨[], join x p.literal?⟩ := by
  rw [addLine_of_partsOf hparts, settleIn, if_pos hnext, addPart_pending hcont hopen]

theorem addLines_of_isInert (h : ∀ l ∈ ls, ∀ c ∈ l.text, isInert c = true) :
    empty.addLines .code ls = empty ∧ modeAfter .code ls = .code := by
  induction ls with
  | nil => exact ⟨rfl, rfl⟩
  | cons l ls ih =>
    obtain ⟨hl, hls⟩ := List.forall_mem_cons.1 h
    obtain ⟨hparts, hnext⟩ := partsOf_of_isInert hl
    have hadd : empty.addLine l.start (scanLine .code l.text) = empty := by
      rw [addLine_scanLine, hparts, hnext]
      rfl
    rw [addLines, hadd, modeAfter, List.foldl_cons, hnext]
    exact ih hls

theorem addLines_inside (hk : k.verbatim = true) (h : ∀ l ∈ ls, Content.GoesOn k l.text) :
    (⟨[], x⟩ : Assembly).addLines (.string k) ls =
        ⟨[], join x (joinAll (ls.map fun l => (linePart k l).literal?))⟩ ∧
      modeAfter (.string k) ls = .string k := by
  induction ls generalizing x with
  | nil => exact ⟨by simp [addLines], rfl⟩
  | cons l ls ih =>
    obtain ⟨hl, hls⟩ := List.forall_mem_cons.1 h
    obtain ⟨hparts, hnext⟩ := partsOf_inside hk hl
    have hadd : (⟨[], x⟩ : Assembly).addLine l.start (scanLine (.string k) l.text) =
        ⟨[], join x (linePart k l).literal?⟩ :=
      addLine_of_open hparts (by rw [hnext]; exact hk) (.inl rfl) rfl
    rw [addLines, hadd, modeAfter, List.foldl_cons, hnext, List.map_cons, joinAll_cons, ← join_assoc]
    exact ih hls

theorem done_addLines_whole {f : Line} (hls : ∀ l ∈ ls, ∀ c ∈ l.text, isInert c = true)
    (hmark : mark ∈ k.marks) (hbefore : ∀ c ∈ before, isInert c = true)
    (hf : Content.GoesOn k f.text) (hafter : '"' ∉ after)
    (hstart : l.start + Text.width before + Text.width mark = f.start)
    (hl : l.text = before ++ (mark ++ (f.text ++ '"' :: after))) :
    (empty.addLines .code (ls ++ [l])).flush.done = (linePart k f).literal?.toList ∧
      (modeAfter .code (ls ++ [l])).isVerbatim = false := by
  obtain ⟨hempty, hmode⟩ := addLines_of_isInert hls
  obtain ⟨hparts, hnext⟩ := partsOf_whole hmark hbefore hf hafter hl
  rw [hstart] at hparts
  rw [addLines_append, modeAfter_append, hempty, hmode, addLines, addLine_of_partsOf hparts, addLines,
    flush_settleIn]
  exact ⟨congrArg done (flush_addPart_pending (.inr rfl)), hnext⟩

theorem done_addLines_spread {inside : List Line} {f e r : Line} (hk : k.verbatim = true)
    (hls : ∀ l ∈ ls, ∀ c ∈ l.text, isInert c = true) (hmark : mark ∈ k.marks)
    (hbefore : ∀ c ∈ before, isInert c = true)
    (hgoesOn : ∀ l ∈ f :: (inside ++ [e]), Content.GoesOn k l.text) (hafter : '"' ∉ after)
    (hstart : l.start + Text.width before + Text.width mark = f.start)
    (hl : l.text = before ++ (mark ++ f.text)) (hstartr : r.start = e.start)
    (hr : r.text = e.text ++ '"' :: after) :
    (empty.addLines .code (ls ++ l :: (inside ++ [r]))).flush.done =
        (joinAll ((f :: (inside ++ [e])).map fun l => (linePart k l).literal?)).toList ∧
      (modeAfter .code (ls ++ l :: (inside ++ [r]))).isVerbatim = false := by
  obtain ⟨hf, hrest⟩ := List.forall_mem_cons.1 hgoesOn
  obtain ⟨hinside, he⟩ := List.forall_mem_append.1 hrest
  obtain ⟨hempty, hmode⟩ := addLines_of_isInert hls
  obtain ⟨hparts, hnext⟩ := partsOf_opening hk hmark hbefore hf hl
  obtain ⟨hpartsr, hnextr⟩ := partsOf_closing hk (he e List.mem_cons_self) hafter hr
  rw [hstart] at hparts
  rw [hstartr] at hpartsr
  have hopen : empty.addLine l.start (scanLine .code l.text) = ⟨[], (linePart k f).literal?⟩ := by
    have hadd := addLine_of_open (x := none) hparts (by rw [hnext]; exact hk) (.inr rfl) rfl
    rwa [none_join] at hadd
  obtain ⟨hadd, hmodes⟩ := addLines_inside hk hinside
  rw [addLines_append, modeAfter_append, hempty, hmode, addLines, hopen, modeAfter, List.foldl_cons,
    hnext, addLines_append, hadd, ← modeAfter, modeAfter_append, hmodes, addLines,
    addLine_of_partsOf hpartsr, addLines, flush_settleIn]
  refine ⟨(congrArg done (flush_addPart_pending (.inl rfl))).trans ?_, hnextr⟩
  simp only [List.map_cons, List.map_append, List.map_nil, joinAll_cons, joinAll_append, joinAll_nil,
    join_none, join_assoc]
  rfl

end

end Assembly

section

variable {k : StringKind} {as : List Segment}

theorem text_quote_append {xs : List Char} (h : '\n' ∉ xs) (ys : List Char) :
    (Text.splitEnding (xs ++ '"' :: ys)).1 = xs ++ '"' :: (Text.splitEnding ys).1 := by
  have hfeed : '\n' ∉ xs ++ ['"'] := by simp [h]
  rw [List.append_cons, Text.splitEnding_append hfeed (by simp)]
  simp

theorem exists_cutLines_quote {after : List Char} (h : '"' ∉ after.takeWhile (· ≠ '\n')) :
    ∃ line rest, Text.cutLines ('"' :: after) = ('"' :: line) :: rest ∧
      '"' ∉ (Text.splitEnding line).1 := by
  rw [Text.cutLines_cons (by decide)]
  cases hafter : Text.cutLines after with
  | nil => exact absurd hafter (Text.cutLines_ne_nil after)
  | cons line rest =>
    refine ⟨line, rest, rfl, ?_⟩
    intro hmem
    have hline : '"' ∈ line := by
      rw [← Text.append_splitEnding line]
      exact List.mem_append_left _ hmem
    exact h (Text.mem_takeWhile_of_cutLines hafter hline (by decide))

variable {mark before after : List Char}

theorem text_mark_append (hmark : mark ∈ k.marks) (h : '\n' ∉ before) (xs : List Char) :
    (Text.splitEnding (before ++ mark ++ xs)).1 = before ++ (mark ++ (Text.splitEnding xs).1) := by
  have hfeed : '\n' ∉ before ++ mark := by simp [h, StringKind.feed_not_mem_of_mem_marks hmark]
  have hlast : (before ++ mark).getLast? ≠ some '\r' := by
    simp [List.getLast?_append, StringKind.getLast?_of_mem_marks hmark]
  rw [Text.splitEnding_append hfeed hlast, List.append_assoc]

theorem done_addLines_place {ls : List Line} {init : List (List Char)} {last line : List Char}
    {number start : Nat} (hmark : mark ∈ k.marks) (hk : init ≠ [] → k.verbatim = true)
    (hls : ∀ l ∈ ls, ∀ c ∈ l.text, isInert c = true) (hbefore : ∀ c ∈ before, isInert c = true)
    (hfeed : '\n' ∉ before) (hlast : '\n' ∉ last) (hline : '"' ∉ (Text.splitEnding line).1)
    (hgoesOn : ∀ l ∈ Line.place number (start + Text.width before + Text.width mark) (init ++ [last]),
      Content.GoesOn k l.text) :
    let now := ls ++ Line.place number start
      (Text.prepend (before ++ mark) (init ++ [last ++ '"' :: line]))
    (Assembly.empty.addLines .code now).flush.done =
        (joinAll ((Line.place number (start + Text.width before + Text.width mark)
          (init ++ [last])).map fun l => (linePart k l).literal?)).toList ∧
      (modeAfter .code now).isVerbatim = false := by
  have hclose : (Text.splitEnding (last ++ '"' :: line)).1 =
      (Text.splitEnding last).1 ++ '"' :: (Text.splitEnding line).1 := by
    rw [text_quote_append hlast, Text.splitEnding_of_feed_not_mem hlast]
  cases init with
  | nil =>
    -- One line opens the string and closes it.
    have hl : (Text.splitEnding (before ++ mark ++ (last ++ '"' :: line))).1 = _ :=
      text_mark_append hmark hfeed _
    rw [hclose] at hl
    have hdone := Assembly.done_addLines_whole (l := .ofCut number start _) hls hmark hbefore
      (hgoesOn _ List.mem_cons_self) hline rfl hl
    exact ⟨hdone.1.trans (congrArg Option.toList (join_none _).symm), hdone.2⟩
  | cons first inside =>
    -- The first line is left open, those inside go on, and the last one closes the string.
    have hl : (Text.splitEnding (before ++ mark ++ first)).1 = _ := text_mark_append hmark hfeed first
    have hwidth : start + Text.width (before ++ mark ++ first) =
        start + Text.width before + Text.width mark + Text.width first := by
      rw [Text.width_append, Text.width_append]
      omega
    rw [List.cons_append, Line.place_cons, Line.place_concat] at hgoesOn
    rw [List.cons_append, Text.prepend, Line.place_cons, Line.place_concat, List.cons_append,
      Line.place_cons, Line.place_concat, hwidth]
    exact Assembly.done_addLines_spread (hk (by simp)) hls hmark hbefore hgoesOn hline rfl hl rfl hclose

theorem exists_lines_closed (hmark : mark ∈ k.marks) (hbefore : ∀ c ∈ before, isInert c = true)
    (has : ∀ a ∈ as, a.StandsAlone k) (hafter : '"' ∉ after.takeWhile (· ≠ '\n')) :
    let content := as.flatMap Segment.chars
    ∃ number now later,
      Text.lines (before ++ (mark ++ (content ++ '"' :: after))) = now ++ later ∧
      (Assembly.empty.addLines .code now).flush.done =
        (joinAll ((Line.place number (Text.width before + Text.width mark)
          (Text.cutLines content)).map fun l => (linePart k l).literal?)).toList ∧
      (modeAfter .code now).isVerbatim = false ∧
      ∀ l ∈ later, Text.width before + Text.width mark + Text.width content < l.start := by
  intro content
  obtain ⟨ls, number, start, left, hlines, hls, hleft, hfeed, hstart⟩ :=
    Text.exists_lines_append before (mark ++ (content ++ '"' :: after))
  obtain ⟨line, rest, hquote, hline⟩ := exists_cutLines_quote hafter
  obtain ⟨init, last, hcontent, -, hlast⟩ := Text.exists_cutLines_eq content
  obtain ⟨hgoesOn, -⟩ := goesOn_place has number (Text.width before + Text.width mark)
  have hdone := done_addLines_place hmark (verbatim_of_cutLines has hcontent)
    (fun l hl c hc => hbefore c (hls l hl c hc)) (fun c hc => hbefore c (hleft c hc)) hfeed hlast hline
    (by rwa [hstart, ← hcontent])
  rw [hstart, ← hcontent] at hdone
  have hcut : Text.prepend left (Text.cutLines (mark ++ (content ++ '"' :: after))) =
      Text.prepend (left ++ mark) (init ++ [last ++ '"' :: line]) ++ rest := by
    rw [Text.cutLines_append_of_feed_not_mem (StringKind.feed_not_mem_of_mem_marks hmark),
      Text.cutLines_append hcontent, hquote, Text.prepend_prepend, ← Text.prepend_append (by simp),
      List.append_assoc]
    rfl
  rw [hcut, Line.place_append] at hlines
  refine ⟨number, _, _, hlines.trans (List.append_assoc ..).symm, hdone.1, hdone.2, ?_⟩
  intro l hl
  have hle := (Line.mem_place hl).1
  have hwidth : Text.width content = Text.width init.flatten + Text.width last := by
    rw [← Text.flatten_cutLines content, hcontent]
    simp
  have hpos : 0 < Text.width ('"' :: line) := Text.width_pos
  simp only [Text.flatten_prepend, List.flatten_append, List.flatten_singleton, Text.width_append] at hle
  omega

theorem exists_literals_ofRevision {content : List Char} {r : Revision} (hmark : mark ∈ k.marks)
    (hbefore : ∀ c ∈ before, isInert c = true) (has : ∀ a ∈ as, a.StandsAlone k)
    (hcontent : as.flatMap Segment.chars = content) (hafter : '"' ∉ after.takeWhile (· ≠ '\n'))
    (hr : r.chars = before ++ (mark ++ (content ++ '"' :: after))) :
    ∃ others, (Tagger.ofRevision r).literals r ⟨0, r.length⟩ =
        ((Line.span? (Text.lines content)).map fun range =>
          ⟨range.shift (Text.width before + Text.width mark), k.interpolated,
            Segment.holes (Text.width before + Text.width mark) as⟩).toList ++ others ∧
      ∀ l ∈ others, Text.width before + Text.width mark + Text.width content < l.range.start ∧
        l.range.stop ≤ r.length := by
  subst hcontent
  obtain ⟨number, now, later, hlines, hdone, hmode, hlater⟩ :=
    exists_lines_closed hmark hbefore has hafter
  obtain ⟨hgoesOn, hholes⟩ := goesOn_place has number (Text.width before + Text.width mark)
  rw [← hr] at hlines
  rw [joinAll_linePart hgoesOn, hholes, ← Line.map_moved_lines, Line.span?_map_moved, Option.map_map]
    at hdone
  refine ⟨(Assembly.empty.addLines (modeAfter .code now) later).flush.done, ?_, ?_⟩
  · have hwhole := LineModes.literals_whole r.chars
    rw [hlines, Assembly.done_addLines_append (fun _ => rfl) (fun _ => hmode), hdone, ← hlines] at hwhole
    rwa [Tagger.literals_ofRevision_self]
  · intro l hl
    obtain ⟨line, hline, hstart, -⟩ := Assembly.exists_start_of_mem_addLines hl
    obtain ⟨line', hline', hstop⟩ := Assembly.exists_stop_of_mem_addLines hl
    have hmem : line' ∈ Text.lines r.chars := by
      rw [hlines]
      exact List.mem_append_right now hline'
    exact ⟨Nat.lt_of_lt_of_le (hlater line hline) hstart,
      Nat.le_trans hstop (Text.stop_le_of_mem_lines hmem)⟩

end

/-- A value written as a plain string is found again: the tagger gives what was written of it, from its
first line with any text to its last, and nothing else before what follows the string. -/
theorem literals_of_encoded_value {k : StringKind} {mark before value after : List Char}
    {r : Revision} (hk : k.interpolated = false) (hmark : mark ∈ k.marks)
    (hbefore : ∀ c ∈ before, isInert c = true) (hvalue : k.verbatim = false → '\n' ∉ value)
    (hafter : '"' ∉ after.takeWhile (· ≠ '\n'))
    (hr : r.chars = before ++ (mark ++ (k.encode value ++ '"' :: after))) :
    let start := Text.width before + Text.width mark
    ∃ others, (Tagger.ofRevision r).literals r ⟨0, r.length⟩ =
        ((Line.span? (Text.lines (k.encode value))).map fun range =>
          ⟨range.shift start, false, []⟩).toList ++ others ∧
      ∀ l ∈ others, start + Text.width (k.encode value) < l.range.start ∧ l.range.stop ≤ r.length := by
  intro start
  obtain ⟨as, has, hcontent, hholes⟩ :=
    Segment.exists_standsAlone_of_isText (StringKind.isText_encode hvalue)
  have hfound := exists_literals_ofRevision hmark hbefore has hcontent hafter hr
  rwa [hk, hholes] at hfound

theorem literals_of_encoded_value_spread :
    let k : StringKind := ⟨true, false⟩
    let before := ['x', '\n']
    let value := ['\r', '\n', '"', 'a', '\\', '\r', '\n']
    let after := [';', '\n', '"', 'b', '"']
    let r : Revision :=
      ⟨0, 0, String.ofList (before ++ (['@', '"'] ++ (k.encode value ++ '"' :: after)))⟩
    (∀ c ∈ before, isInert c = true) ∧ '"' ∉ after.takeWhile (· ≠ '\n') ∧
      Line.span? (Text.lines (k.encode value)) = some ⟨2, 6⟩ ∧
      ∃ others, (Tagger.ofRevision r).literals r ⟨0, r.length⟩ = ⟨⟨6, 10⟩, false, []⟩ :: others ∧
        ∀ l ∈ others, 12 < l.range.start ∧ l.range.stop ≤ r.length := by
  intro k before value after r
  have hbefore : ∀ c ∈ before, isInert c = true := by simp [before, isInert]
  have hafter : '"' ∉ after.takeWhile (· ≠ '\n') := by decide +kernel
  have hspan : Line.span? (Text.lines (k.encode value)) = some ⟨2, 6⟩ := by decide +kernel
  have hstart : Text.width before + Text.width ['@', '"'] = 4 := by decide +kernel
  have hwidth : Text.width (k.encode value) = 8 := by decide +kernel
  obtain ⟨others, hfound, hothers⟩ := literals_of_encoded_value (k := k) (r := r) rfl
    (List.mem_singleton.2 rfl) hbefore (by simp [k]) hafter String.toList_ofList
  rw [hspan, hstart] at hfound
  rw [hstart, hwidth] at hothers
  exact ⟨hbefore, hafter, hspan, others, hfound, hothers⟩

/-- The holes of an interpolated string are found where they were written, if none goes over a line
break: the tagger gives the string from its first line with any text to its last, with the ranges of
its holes in order, and nothing else before what follows the string. -/
theorem literals_of_written_segments {k : StringKind} {mark before after : List Char}
    {ss : List Segment} {r : Revision} (hk : k.interpolated = true) (hmark : mark ∈ k.marks)
    (hbefore : ∀ c ∈ before, isInert c = true) (hss : ∀ s ∈ ss, s.IsWritten k)
    (hfeed : ∀ cs, .hole cs ∈ ss → '\n' ∉ cs) (hafter : '"' ∉ after.takeWhile (· ≠ '\n'))
    (hr : r.chars = before ++ (mark ++ (ss.flatMap Segment.chars ++ '"' :: after))) :
    let start := Text.width before + Text.width mark
    ∃ others, (Tagger.ofRevision r).literals r ⟨0, r.length⟩ =
        ((Line.span? (Text.lines (ss.flatMap Segment.chars))).map fun range =>
          ⟨range.shift start, true, Segment.holes start ss⟩).toList ++ others ∧
      ∀ l ∈ others, start + Text.width (ss.flatMap Segment.chars) < l.range.start ∧
        l.range.stop ≤ r.length := by
  intro start
  obtain ⟨as, has, hcontent, hholes⟩ := Segment.exists_standsAlone hss hfeed
  have hfound := exists_literals_ofRevision hmark hbefore has hcontent hafter hr
  rwa [hk, hholes] at hfound

theorem literals_of_written_segments_nested :
    let before := ['f', '(']
    let inside := '{' :: (('\'' :: (['}'] ++ ['\''])) ++ ['}'])
    let nested := ['$', '"'] ++ (inside ++ '"' :: '/' :: '*' :: (['}'] ++ ['*', '/']))
    let ss : List Segment := [.text ['{', '{'], .hole ['{', 'x', '}'],
      .text ['}', '}', '\r', '\n'], .hole ('{' :: (nested ++ ['}']))]
    let r : Revision :=
      ⟨0, 0, String.ofList (before ++ (['@', '$', '"'] ++ (ss.flatMap Segment.chars ++ '"' :: [')'])))⟩
    (∀ c ∈ before, isInert c = true) ∧ (∀ s ∈ ss, s.IsWritten ⟨true, true⟩) ∧
      (∀ cs, .hole cs ∈ ss → '\n' ∉ cs) ∧
      Line.span? (Text.lines (ss.flatMap Segment.chars)) = some ⟨0, 24⟩ ∧
      ∃ others, (Tagger.ofRevision r).literals r ⟨0, r.length⟩ =
          ⟨⟨5, 29⟩, true, [⟨7, 10⟩, ⟨14, 29⟩]⟩ :: others ∧
        ∀ l ∈ others, 29 < l.range.start ∧ l.range.stop ≤ r.length := by
  intro before inside nested ss r
  have hbefore : ∀ c ∈ before, isInert c = true := by simp [before, isInert]
  have hx : Fills .hole ['x'] := .char (by decide) (by simp) (by simp) (by simp) .code
  have hcharacter : Fills .hole ('\'' :: (['}'] ++ ['\''])) :=
    .character (.plain (by simp) (by simp) (by simp) .nil) .code
  have hinside : Fills (.string ⟨false, true⟩) inside := .hole rfl hcharacter (by decide) (.content _)
  have hcomment : Fills .hole ('/' :: '*' :: (['}'] ++ ['*', '/'])) := .comment (by decide) .code
  have hnested : Fills .hole nested := .string (List.mem_singleton.2 rfl) hinside (by simp) hcomment
  have hss : ∀ s ∈ ss, s.IsWritten ⟨true, true⟩ := by
    simp only [ss, List.forall_mem_cons]
    refine ⟨.text (.pair rfl .nil), .hole rfl hx (by decide), .text ?_,
      .hole rfl hnested (by decide), by simp⟩
    exact .pair rfl (.plain rfl (.plain rfl .nil))
  have hfeed : ∀ cs, .hole cs ∈ ss → '\n' ∉ cs := by simp [ss, nested, inside]
  have hspan : Line.span? (Text.lines (ss.flatMap Segment.chars)) = some ⟨0, 24⟩ := by decide +kernel
  have hstart : Text.width before + Text.width ['@', '$', '"'] = 5 := by decide +kernel
  have hholes : Segment.holes 5 ss = [⟨7, 10⟩, ⟨14, 29⟩] := by decide +kernel
  have hwidth : Text.width (ss.flatMap Segment.chars) = 24 := by decide +kernel
  obtain ⟨others, hfound, hothers⟩ := literals_of_written_segments (r := r) rfl
    (List.mem_cons_of_mem _ List.mem_cons_self) hbefore hss hfeed (by decide +kernel)
    String.toList_ofList
  rw [hspan, hstart, hholes] at hfound
  rw [hstart, hwidth] at hothers
  exact ⟨hbefore, hss, hfeed, hspan, others, hfound, hothers⟩

theorem literals_of_hole_over_break :
    let ss := [Segment.hole ['{', '$', '@', '"', '\n', '"', '}']]
    let r := Revision.first "$@\"\x7b$@\"\n\"\x7d\""
    (∀ s ∈ ss, s.IsWritten ⟨true, true⟩) ∧
      r.chars = ['$', '@', '"'] ++ (ss.flatMap Segment.chars ++ ['"']) ∧
      Segment.holes 3 ss = [⟨3, 10⟩] ∧
      (Tagger.ofRevision r).literals r ⟨0, r.length⟩ = [⟨⟨3, 7⟩, true, [⟨3, 7⟩]⟩] := by
  intro ss r
  constructor
  · have hinside : Fills (.string ⟨true, true⟩) (['\n'] ++ []) := .text (.plain rfl .nil) (.content _)
    have hbody : Fills .hole (['$', '@', '"'] ++ ((['\n'] ++ []) ++ ['"'])) :=
      .string (by decide) hinside (by simp) .code
    rw [List.forall_mem_singleton]
    exact .hole rfl hbody (by decide)
  · decide +kernel

end SqlHighlight.Literal
