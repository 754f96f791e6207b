import SqlHighlight.Proofs.LineIndex
import SqlHighlight.Style.Highlight

namespace SqlHighlight

namespace Text

def feedStarts (start : Nat) (bs : List UInt8) : List Nat :=
  (bs.zipIdx start).filterMap fun (b, i) => if b = 0x0A then some (i + 1) else none

/-- The offsets where lines start: the first one, and those behind a line feed. -/
def lineStarts (bs : List UInt8) : List Nat := 0 :: feedStarts 0 bs

theorem feedStarts_append (start : Nat) (as bs : List UInt8) :
    feedStarts start (as ++ bs) = feedStarts start as ++ feedStarts (start + as.length) bs := by
  rw [feedStarts, List.zipIdx_append, List.filterMap_append]
  rfl

theorem feedStarts_eq_nil {bs : List UInt8} (h : 0x0A ∉ bs) (start : Nat) :
    feedStarts start bs = [] := by
  rw [feedStarts, List.filterMap_eq_nil_iff]
  intro x hx
  have hne : x.1 ≠ 0x0A := fun hfeed => h (hfeed ▸ List.fst_mem_of_mem_zipIdx hx)
  exact if_neg hne

theorem map_start_place (number start : Nat) (cs : List Char) :
    (Line.place number start (cutLines cs)).map Line.start = start :: feedStarts start (bytes cs) := by
  induction cs generalizing number start with
  | nil => rfl
  | cons c cs ih =>
    by_cases hc : c = '\n'
    · subst hc
      rw [cutLines_feed, Line.place_cons, List.map_cons, ih]
      rfl
    · have hbytes : feedStarts start (bytes (c :: cs)) = feedStarts (start + c.utf8Size) (bytes cs) := by
        rw [bytes_cons, feedStarts_append, String.length_utf8EncodeChar,
          feedStarts_eq_nil (fun hmem => hc (feed_mem_utf8EncodeChar_iff.1 hmem)), List.nil_append]
      have hrest := ih number (start + c.utf8Size)
      rw [cutLines_cons hc, hbytes]
      cases hcs : cutLines cs with
      | nil => exact absurd hcs (cutLines_ne_nil cs)
      | cons l ls =>
        rw [hcs, Line.place_cons, List.map_cons, List.cons.injEq] at hrest
        rw [prepend, Line.place_cons, List.map_cons, List.singleton_append, width_cons, ← Nat.add_assoc,
          hrest.2]
        rfl

theorem map_start_lines (cs : List Char) : (lines cs).map Line.start = lineStarts (bytes cs) :=
  map_start_place 0 0 cs

theorem getElem?_lineStarts (cs : List Char) (i : Nat) :
    (lineStarts (bytes cs))[i]? = (lines cs)[i]?.map Line.start := by
  rw [← map_start_lines, List.getElem?_map]

/-- What a search of a sorted list for a number may answer: a place where it stands, or else the place
that it would take. -/
def IsAnswer (xs : List Nat) (n : Nat) : Except Nat Nat → Prop
  | .ok i => xs[i]? = some n
  | .error i => i ≤ xs.length ∧ (∀ x ∈ xs.take i, x < n) ∧ ∀ x ∈ xs.drop i, n < x

theorem lineAt_of_isAnswer {cs : List Char} {offset : Nat} {answer : Except Nat Nat}
    (h : IsAnswer (lineStarts (bytes cs)) offset answer) :
    lineAt offset (lines cs) = match answer with
      | .ok i => i
      | .error i => i - 1 := by
  have hlt := lineAt_lt_length_lines offset cs
  have htake {i : Nat} {l : Line} (hl : (lines cs)[i]? = some l) : l ∈ (lines cs).take (i + 1) :=
    List.mem_of_getElem? ((List.getElem?_take_of_lt (Nat.lt_succ_self i)).trans hl)
  rw [← map_start_lines] at h
  cases answer with
  | ok i =>
    have hstart : (lines cs)[i]?.map Line.start = some offset := List.getElem?_map.symm.trans h
    obtain ⟨l, hl, rfl⟩ := Option.map_eq_some_iff.1 hstart
    apply Nat.le_antisymm _ ((start_le_iff hl _).1 (Nat.le_refl _))
    by_contra hge
    have hstop := stop_lt_of_mem_take_lines (Nat.not_le.1 hge) (htake hl)
    exact Nat.not_le.2 hstop l.start_le_stop
  | error i =>
    obtain ⟨hi, hbefore, hbehind⟩ := h
    rw [List.length_map] at hi
    cases i with
    | zero =>
      have hfirst : 0 ∈ (lines cs).map Line.start := by
        rw [map_start_lines]
        exact List.mem_cons_self
      exact absurd (hbehind 0 hfirst) (Nat.not_lt_zero offset)
    | succ i =>
      have hl := List.getElem?_eq_getElem hi
      have hstart : (lines cs)[i].start < offset := by
        apply hbefore
        rw [← List.map_take]
        exact List.mem_map_of_mem (htake hl)
      apply Nat.le_antisymm _ ((start_le_iff hl offset).1 (Nat.le_of_lt hstart))
      by_contra hge
      have hnext := List.getElem?_eq_getElem (Nat.lt_of_le_of_lt (Nat.not_le.1 hge) hlt)
      have hle := start_le_of_le_lineAt (Nat.not_le.1 hge) hnext
      have hgt : offset < (lines cs)[i + 1].start := by
        apply hbehind
        rw [← List.map_drop, List.drop_eq_getElem_cons]
        exact List.mem_cons_self
      exact Nat.not_le.2 hgt hle

/-- The end of a line without its line break, which never reaches back over the start of the line. -/
def trimBreak (bs : List UInt8) (start next : Nat) : Nat :=
  if start < next ∧ bs[next - 1]? = some '\n'.toUInt8 then
    if start < next - 1 ∧ bs[next - 1 - 1]? = some '\r'.toUInt8 then next - 1 - 1 else next - 1
  else next

theorem getLast?_bytes_eq_iff {a : Char} (ha : a.toNat < 0x80) (cs : List Char) :
    (bytes cs).getLast? = some a.toUInt8 ↔ cs.getLast? = some a := by
  induction cs using List.reverseRecOn with
  | nil => simp [bytes]
  | append_singleton cs c _ =>
    obtain ⟨b, hlast⟩ : ∃ b, (String.utf8EncodeChar c).getLast? = some b := by
      obtain ⟨b, bs, hcons, -⟩ := exists_utf8EncodeChar_eq_cons c
      simp [hcons, List.getLast?_cons]
    have hbytes : (bytes (cs ++ [c])).getLast? = some b := by
      rw [bytes_append, List.getLast?_append]
      simp [bytes, hlast]
    rw [hbytes, List.getLast?_concat, Option.some_inj, Option.some_inj]
    by_cases hc : c.toNat < 0x80
    · rw [utf8EncodeChar_of_lt hc, List.getLast?_singleton, Option.some_inj] at hlast
      rw [← hlast, toUInt8_inj hc ha]
    · have hb := le_of_mem_utf8EncodeChar (Nat.not_lt.1 hc) (List.mem_of_getLast? hlast)
      constructor
      · rintro rfl
        rw [toNat_toUInt8_of_lt ha] at hb
        exact absurd ha (Nat.not_lt.2 hb)
      · rintro rfl
        exact absurd ha hc

theorem getElem?_pred_eq_iff {a : Char} (ha : a.toNat < 0x80) (before line after : List Char) :
    width before < width (before ++ line) ∧
        (bytes (before ++ (line ++ after)))[width (before ++ line) - 1]? = some a.toUInt8 ↔
      line.getLast? = some a := by
  by_cases hline : line = []
  · simp [hline]
  · have hlt : width before < width (before ++ line) := by
      rw [width_append]
      exact Nat.lt_add_of_pos_right (Nat.pos_of_ne_zero (mt width_eq_zero.1 hline))
    have hpred : width (before ++ line) - 1 < (bytes (before ++ line)).length := by
      rw [length_bytes]
      exact Nat.sub_one_lt_of_lt hlt
    rw [and_iff_right hlt, ← List.append_assoc, bytes_append, List.getElem?_append_left hpred,
      ← length_bytes, ← List.getLast?_eq_getElem?, getLast?_bytes_eq_iff ha,
      List.getLast?_append_of_ne_nil _ hline]

def stripBreak (l : List Char) : List Char :=
  if l.getLast? = some '\n' then
    if l.dropLast.getLast? = some '\r' then l.dropLast.dropLast else l.dropLast
  else l

theorem stripBreak_cons {c : Char} {l : List Char} (hfeed : c = '\n' → l ≠ [])
    (hreturn : c = '\r' → l ≠ ['\n']) : stripBreak (c :: l) = c :: stripBreak l := by
  cases l with
  | nil =>
    have hc : c ≠ '\n' := fun h => hfeed h rfl
    simp [stripBreak, hc]
  | cons d l =>
    rw [stripBreak, stripBreak, List.getLast?_cons_cons, List.dropLast_cons_cons]
    split
    · next hlast =>
      cases l with
      | nil =>
        obtain rfl : d = '\n' := by simpa using hlast
        have hc : c ≠ '\r' := fun h => hreturn h rfl
        simp [hc]
      | cons e l =>
        rw [List.dropLast_cons_cons, List.getLast?_cons_cons, List.dropLast_cons_cons]
        split <;> rfl
    · rfl

theorem fst_splitEnding (l : List Char) : (splitEnding l).1 = stripBreak l := by
  fun_induction splitEnding l with
  | case1 => rfl
  | case2 => rfl
  | case3 => rfl
  | case4 c cs hfeed hreturn text ending hsplit ih =>
    rw [hsplit] at ih
    rw [stripBreak_cons hfeed hreturn, ← ih]

theorem trimBreak_append (before line after : List Char) :
    trimBreak (bytes (before ++ (line ++ after))) (width before) (width (before ++ line)) =
      width (before ++ stripBreak line) := by
  have hpred (init : List Char) {c : Char} (hc : c.toNat < 0x80) :
      width (before ++ (init ++ [c])) - 1 = width (before ++ init) := by
    rw [← List.append_assoc, width_append, width_cons, utf8Size_of_lt hc]
    rfl
  have hfeed := getElem?_pred_eq_iff (a := '\n') (by decide) before line after
  rw [trimBreak, stripBreak]
  by_cases hline : line.getLast? = some '\n'
  · obtain ⟨init, rfl⟩ := List.getLast?_eq_some_iff.1 hline
    have hreturn := getElem?_pred_eq_iff (a := '\r') (by decide) before init ('\n' :: after)
    rw [if_pos (hfeed.2 hline), if_pos hline, List.dropLast_concat, hpred init (by decide)]
    by_cases hinit : init.getLast? = some '\r'
    · obtain ⟨init, rfl⟩ := List.getLast?_eq_some_iff.1 hinit
      rw [List.append_assoc _ ['\n'], List.singleton_append, if_pos (hreturn.2 hinit), if_pos hinit,
        List.dropLast_concat, hpred init (by decide)]
    · rw [List.append_assoc _ ['\n'], List.singleton_append, if_neg (mt hreturn.1 hinit), if_neg hinit]
  · rw [if_neg (mt hfeed.1 hline), if_neg hline]

def lineBounds? (bs : List UInt8) (number : Nat) : Option (Nat × Nat × Nat) :=
  (lineStarts bs)[number]?.map fun start =>
    let next := (lineStarts bs)[number + 1]?.getD bs.length
    (start, trimBreak bs start next, next)

theorem lineBounds?_bytes (cs : List Char) (number : Nat) :
    lineBounds? (bytes cs) number = (lines cs)[number]?.map fun l => (l.start, l.stop, l.next) := by
  rw [lineBounds?, getElem?_lineStarts cs number, Option.map_map]
  apply Option.map_congr
  intro l hl
  have hnext : ((lineStarts (bytes cs))[number + 1]?).getD (bytes cs).length = l.next := by
    rw [getElem?_lineStarts, length_bytes]
    cases hlast : (lines cs)[number + 1]? with
    | none =>
      have hlength := (List.getElem?_eq_some_iff.1 hl).1
      exact (next_eq_width hl (Nat.le_antisymm hlength (List.getElem?_eq_none_iff.1 hlast))).symm
    | some l' => exact start_eq_next hl hlast
  have hstop : trimBreak (bytes cs) l.start l.next = l.stop := by
    obtain ⟨before, raw, after, hcut, -, rfl⟩ := exists_of_getElem?_lines hl
    have hcs : cs = before.flatten ++ (raw ++ after.flatten) := by
      rw [← flatten_cutLines cs, hcut, List.flatten_append, List.flatten_cons]
    rw [Line.next_ofCut, hcs, ← width_append]
    refine (trimBreak_append before.flatten raw after.flatten).trans ?_
    rw [width_append, ← fst_splitEnding]
    rfl
  simp only [Function.comp_apply, hnext, hstop]

/-- The text split behind each line feed. Nothing follows a final one. -/
def splitFeeds : List Char → List (List Char)
  | [] => []
  | c :: cs =>
    if c = '\n' then [c] :: splitFeeds cs
    else match splitFeeds cs with
      | [] => [[c]]
      | l :: ls => (c :: l) :: ls

def nextStart (cs : List Char) (offset : Nat) : Nat :=
  (((bytes cs).drop offset).idxOf? 0x0A).elim (width cs) (offset + · + 1)

/-- The starts of lines, each found behind the text of the line before it. -/
def findStarts (cs : List Char) (start : Nat) : List (List Char) → List Nat
  | [] => []
  | text :: texts => start :: findStarts cs (nextStart cs (start + width text)) texts

theorem exists_cutLines_cons (c : Char) (cs : List Char) :
    ∃ l ls, cutLines (c :: cs) = (c :: l) :: ls := by
  rw [cutLines]
  split
  · exact ⟨[], _, rfl⟩
  · split
    · exact ⟨[], [], rfl⟩
    · exact ⟨_, _, rfl⟩

theorem splitFeeds_eq (cs : List Char) : splitFeeds cs = (cutLines cs).filter (· ≠ []) := by
  induction cs with
  | nil => rfl
  | cons c cs ih =>
    by_cases hc : c = '\n'
    · subst hc
      rw [splitFeeds, if_pos rfl, cutLines_feed, ih]
      rfl
    · rw [splitFeeds, if_neg hc, cutLines_cons hc, ih]
      cases cs with
      | nil => rfl
      | cons d ds =>
        obtain ⟨l, ls, hcut⟩ := exists_cutLines_cons d ds
        rw [hcut]
        rfl

theorem isEmpty_ofCut (number start : Nat) (l : List Char) :
    ((Line.ofCut number start l).text.isEmpty && (Line.ofCut number start l).ending.isEmpty) =
      l.isEmpty := by
  have happend : (Line.ofCut number start l).text ++ (Line.ofCut number start l).ending = l :=
    append_splitEnding l
  rw [Bool.eq_iff_iff, Bool.and_eq_true, List.isEmpty_iff, List.isEmpty_iff, List.isEmpty_iff,
    ← List.append_eq_nil_iff, happend]

theorem filter_place {ls : List (List Char)} (h : ∀ l ∈ ls.dropLast, l ≠ []) (number start : Nat) :
    (Line.place number start ls).filter (fun l => !(l.text.isEmpty && l.ending.isEmpty)) =
      Line.place number start (ls.filter (· ≠ [])) := by
  induction ls generalizing number start with
  | nil => rfl
  | cons l ls ih =>
    rw [Line.place_cons, List.filter_cons, isEmpty_ofCut]
    cases ls with
    | nil => cases l <;> rfl
    | cons l' ls =>
      rw [List.dropLast_cons_cons, List.forall_mem_cons] at h
      rw [List.filter_cons, if_pos (by simpa using h.1), if_pos (by simpa using h.1), ih h.2]
      rfl

theorem listedLines_eq_place (cs : List Char) : listedLines cs = Line.place 0 0 (splitFeeds cs) := by
  rw [splitFeeds_eq]
  apply filter_place
  rintro l hl rfl
  exact absurd (getLast?_of_mem_dropLast_cutLines hl) (by simp)

theorem map_text_listedLines (cs : List Char) :
    (listedLines cs).map Line.text = (splitFeeds cs).map stripBreak := by
  rw [listedLines_eq_place, Line.map_text_place]
  exact List.map_congr_left fun l _ => fst_splitEnding l

theorem nextStart_append {line : List Char} (h : ∃ text, line = text ++ ['\n'] ∧ '\n' ∉ text)
    (before after : List Char) :
    nextStart (before ++ (line ++ after)) (width before + width (splitEnding line).1) =
      width (before ++ line) := by
  have hending : (splitEnding line).2 = ['\r', '\n'] ∨ (splitEnding line).2 = ['\n'] := by
    obtain ⟨text, rfl, htext⟩ := h
    exact (splitEnding_concat htext).imp_right And.left
  have hline := append_splitEnding line
  generalize splitEnding line = split at hending hline ⊢
  obtain ⟨text, ending⟩ := split
  obtain rfl : text ++ ending = line := hline
  have hcut : before ++ (text ++ ending ++ after) = (before ++ text) ++ (ending ++ after) := by simp
  have hwidth : width (before ++ (text ++ ending)) = width (before ++ text) + width ending := by
    rw [← List.append_assoc, width_append]
  rw [nextStart, ← width_append, hcut, bytes_append, ← length_bytes, List.drop_left, length_bytes,
    bytes_append, hwidth]
  rcases hending with rfl | rfl <;> rfl

theorem findStarts_place {ls : List (List Char)}
    (h : ∀ l ∈ ls.dropLast, ∃ text, l = text ++ ['\n'] ∧ '\n' ∉ text) (number : Nat) (before : List Char) :
    findStarts (before ++ ls.flatten) (width before)
        ((Line.place number (width before) ls).map Line.text) =
      (Line.place number (width before) ls).map Line.start := by
  induction ls generalizing number before with
  | nil => rfl
  | cons l ls ih =>
    rw [Line.place_cons, List.map_cons, List.map_cons, findStarts]
    cases ls with
    | nil => rfl
    | cons l' ls =>
      rw [List.dropLast_cons_cons, List.forall_mem_cons] at h
      have hnext := nextStart_append h.1 before (l' :: ls).flatten
      have hrest := ih h.2 (number + 1) (before ++ l)
      rw [List.append_assoc, ← List.flatten_cons, width_append] at hrest
      rw [← List.flatten_cons, width_append] at hnext
      refine congrArg (List.cons _) (Eq.trans ?_ hrest)
      exact congrArg (findStarts _ · _) hnext

theorem map_start_listedLines (cs : List Char) :
    (listedLines cs).map Line.start = findStarts cs 0 ((splitFeeds cs).map stripBreak) := by
  have hfeeds : ∀ l ∈ (splitFeeds cs).dropLast, ∃ text, l = text ++ ['\n'] ∧ '\n' ∉ text := by
    obtain ⟨init, last, hcut, hinit, -⟩ := exists_cutLines_eq cs
    intro l hl
    apply hinit
    rw [splitFeeds_eq, hcut, List.filter_append] at hl
    cases last with
    | nil =>
      have hnone : [[]].filter (· ≠ []) = ([] : List (List Char)) := rfl
      rw [hnone, List.append_nil] at hl
      exact List.mem_of_mem_filter (List.dropLast_subset _ hl)
    | cons c last =>
      have hsome : [c :: last].filter (· ≠ []) = [c :: last] := rfl
      rw [hsome, List.dropLast_concat] at hl
      exact List.mem_of_mem_filter hl
  have hflatten : (splitFeeds cs).flatten = cs := by
    rw [splitFeeds_eq, List.flatten_filter_ne_nil, flatten_cutLines]
  have hfind := findStarts_place hfeeds 0 []
  rw [List.nil_append, hflatten] at hfind
  rw [← map_text_listedLines, listedLines_eq_place]
  exact hfind.symm

theorem slice_text_eq_ok_iff {cs inside : List Char} {l : Line} {start stop : Nat} (hl : l ∈ lines cs)
    (hstart : l.start ≤ start) (hle : start ≤ stop) (hstop : stop ≤ l.stop) :
    slice (start - l.start) (stop - l.start) l.text = .ok inside ↔ slice start stop cs = .ok inside := by
  obtain ⟨before, after, rfl, hbefore⟩ := exists_append_of_mem_lines hl
  rw [slice_eq_ok_iff, slice_eq_ok_iff]
  constructor
  · rintro ⟨xs, ys, htext, hxs, hwidth⟩
    refine ⟨before ++ xs, ys ++ after, by simp [htext], ?_, ?_⟩
    · rw [width_append]
      omega
    · omega
  · rintro ⟨xs, ys, hcs, hxs, hwidth⟩
    obtain ⟨zs, rfl, htext⟩ := exists_eq_append_of_width_le hcs (by omega)
    rw [width_append] at hxs
    rw [← List.append_assoc] at htext
    rw [Line.stop] at hstop
    obtain ⟨ws, hws, -⟩ := exists_eq_append_of_width_le htext.symm (by rw [width_append]; omega)
    refine ⟨zs, ws, by rw [hws, List.append_assoc], ?_, ?_⟩
    · omega
    · omega

end Text

theorem Highlight.part_eq_ok_iff {source : List Char} {l : Line} {start stop : Nat} {style : Style}
    {t : StyledText} (hl : l ∈ Text.listedLines source) (hstart : l.start ≤ start) (hle : start ≤ stop)
    (hstop : stop ≤ l.stop) :
    part l start stop style = .ok t ↔ Text.slice start stop source = .ok t.text ∧ t.style = style := by
  rw [← Text.slice_text_eq_ok_iff (List.mem_of_mem_filter hl) hstart hle hstop, part]
  obtain ⟨text, style'⟩ := t
  cases Text.slice (start - l.start) (stop - l.start) l.text with
  | error e => simp [bind, Except.bind]
  | ok inside => simp [bind, Except.bind, pure, Except.pure, eq_comm]

end SqlHighlight
