import SqlHighlight.Text.Lines

namespace SqlHighlight

namespace Text

def prepend (cs : List Char) : List (List Char) → List (List Char)
  | [] => [cs]
  | l :: ls => (cs ++ l) :: ls

@[simp] theorem getElem?_prepend_succ (cs : List Char) (ls : List (List Char)) (i : Nat) :
    (prepend cs ls)[i + 1]? = ls[i + 1]? := by
  cases ls <;> rfl

theorem getElem?_prepend_zero {cs l : List Char} {ls : List (List Char)}
    (h : ls[0]? = some l) : (prepend cs ls)[0]? = some (cs ++ l) := by
  cases ls with
  | nil => simp at h
  | cons l' ls =>
    obtain rfl := Option.some.inj h
    rfl

@[simp] theorem cutLines_feed (cs : List Char) : cutLines ('\n' :: cs) = ['\n'] :: cutLines cs := by
  simp [cutLines]

theorem cutLines_cons {c : Char} (h : c ≠ '\n') (cs : List Char) :
    cutLines (c :: cs) = prepend [c] (cutLines cs) := by
  rw [cutLines, if_neg h]
  cases cutLines cs <;> rfl

@[simp] theorem length_prepend {cs : List Char} {ls : List (List Char)} (h : ls ≠ []) :
    (prepend cs ls).length = ls.length := by
  cases ls with
  | nil => exact absurd rfl h
  | cons l ls => rfl

theorem length_cutLines (cs : List Char) : (cutLines cs).length = cs.count '\n' + 1 := by
  induction cs with
  | nil => rfl
  | cons c cs ih =>
    by_cases h : c = '\n'
    · subst h
      simp [ih]
    · rw [cutLines_cons h, length_prepend (cutLines_ne_nil cs), ih, List.count_cons_of_ne h]

theorem getElem?_cutLines_append_left {as : List Char} {i : Nat} (h : i < as.count '\n')
    (bs : List Char) : (cutLines (as ++ bs))[i]? = (cutLines as)[i]? := by
  induction as generalizing i with
  | nil => simp at h
  | cons c as ih =>
    by_cases hc : c = '\n'
    · subst hc
      cases i with
      | zero => simp
      | succ i => simpa using ih (by simpa using h)
    · rw [List.count_cons_of_ne hc] at h
      rw [List.cons_append, cutLines_cons hc, cutLines_cons hc]
      cases i with
      | zero =>
        have hpos : 0 < (cutLines as).length := by rw [length_cutLines]; omega
        have hget : (cutLines as)[0]? = some ((cutLines as)[0]) := List.getElem?_eq_getElem hpos
        rw [getElem?_prepend_zero hget, getElem?_prepend_zero ((ih h).trans hget)]
      | succ i => simpa using ih h

theorem getElem?_cutLines_append_right (as bs : List Char) (j : Nat) :
    (cutLines (as ++ bs))[as.count '\n' + (j + 1)]? = (cutLines bs)[j + 1]? := by
  induction as with
  | nil => simp
  | cons c as ih =>
    by_cases hc : c = '\n'
    · subst hc
      rw [List.cons_append, cutLines_feed, List.count_cons_self,
        show as.count '\n' + 1 + (j + 1) = as.count '\n' + (j + 1) + 1 by omega,
        List.getElem?_cons_succ, ih]
    · rw [List.cons_append, cutLines_cons hc, List.count_cons_of_ne hc, ← Nat.add_assoc,
        getElem?_prepend_succ, Nat.add_assoc, ih]

theorem utf8Size_head_le_of_cutLines {cs l l' : List Char} {ls : List (List Char)}
    (h : cutLines cs = l :: l' :: ls) : ∃ c ∈ cs.head?, c.utf8Size ≤ width l := by
  cases cs with
  | nil => simp [cutLines] at h
  | cons c cs =>
    refine ⟨c, rfl, ?_⟩
    by_cases hc : c = '\n'
    · subst hc
      rw [cutLines_feed] at h
      simp [← (List.cons.inj h).1]
    · rw [cutLines_cons hc] at h
      cases hcs : cutLines cs with
      | nil => simp [hcs, prepend] at h
      | cons k ks =>
        rw [hcs] at h
        simp [← (List.cons.inj h).1]

theorem splitEnding_ne_nil {l : List Char} (h : l.getLast? = some '\n') : (splitEnding l).2 ≠ [] := by
  fun_induction splitEnding l with
  | case1 => simp at h
  | case2 => simp
  | case3 => simp
  | case4 c cs hfeed _ text ending hsplit ih =>
    rw [hsplit] at ih
    cases cs with
    | nil => exact absurd rfl (hfeed (by simpa using h))
    | cons d ds => exact ih (by simpa using h)

theorem exists_cutLines_eq (cs : List Char) :
    ∃ init last, cutLines cs = init ++ [last] ∧
      (∀ l ∈ init, ∃ text, l = text ++ ['\n'] ∧ '\n' ∉ text) ∧ '\n' ∉ last := by
  induction cs with
  | nil => exact ⟨[], [], rfl, by simp, by simp⟩
  | cons c cs ih =>
    obtain ⟨init, last, heq, hinit, hlast⟩ := ih
    by_cases hc : c = '\n'
    · subst hc
      refine ⟨['\n'] :: init, last, by simp [heq], ?_, hlast⟩
      exact List.forall_mem_cons.2 ⟨⟨[], rfl, by simp⟩, hinit⟩
    · rw [cutLines_cons hc, heq]
      -- The character goes to the first line, which may be the last one.
      cases init with
      | nil => exact ⟨[], c :: last, rfl, by simp, by simp [Ne.symm hc, hlast]⟩
      | cons l init =>
        obtain ⟨⟨text, rfl, htext⟩, hrest⟩ := List.forall_mem_cons.1 hinit
        refine ⟨(c :: text ++ ['\n']) :: init, last, rfl, ?_, hlast⟩
        exact List.forall_mem_cons.2 ⟨⟨c :: text, rfl, by simp [Ne.symm hc, htext]⟩, hrest⟩

theorem getLast?_of_mem_dropLast_cutLines {cs l : List Char} (h : l ∈ (cutLines cs).dropLast) :
    l.getLast? = some '\n' := by
  obtain ⟨init, last, heq, hinit, -⟩ := exists_cutLines_eq cs
  rw [heq, List.dropLast_concat] at h
  obtain ⟨text, rfl, -⟩ := hinit l h
  exact List.getLast?_concat

theorem feed_not_mem_dropLast_of_mem_cutLines {cs l : List Char} (h : l ∈ cutLines cs) :
    '\n' ∉ l.dropLast := by
  obtain ⟨init, last, heq, hinit, hlast⟩ := exists_cutLines_eq cs
  rw [heq, List.mem_append, List.mem_singleton] at h
  rcases h with h | rfl
  · obtain ⟨text, rfl, htext⟩ := hinit l h
    rwa [List.dropLast_concat]
  · exact fun hmem => hlast (List.dropLast_subset l hmem)

theorem feed_not_mem_splitEnding {l : List Char} (h : '\n' ∉ l.dropLast) :
    '\n' ∉ (splitEnding l).1 := by
  fun_induction splitEnding l with
  | case1 => simp
  | case2 => simp
  | case3 => simp
  | case4 c cs hfeed _ text ending hsplit ih =>
    rw [hsplit] at ih
    cases cs with
    | nil =>
      obtain ⟨rfl, rfl⟩ := Prod.mk.inj hsplit
      simpa using fun hc : '\n' = c => hfeed hc.symm rfl
    | cons d ds =>
      rw [List.dropLast_cons_of_ne_nil (by simp), List.mem_cons, not_or] at h
      simp [h.1, ih h.2]

end Text

namespace Line

theorem start_le_stop (l : Line) : l.start ≤ l.stop := Nat.le_add_right _ _

theorem map_split_place (number start : Nat) (ls : List (List Char)) :
    (place number start ls).map (fun l => (l.text, l.ending)) = ls.map Text.splitEnding := by
  induction ls generalizing number start with
  | nil => rfl
  | cons l ls ih => rw [place, List.map_cons, ih, List.map_cons]

theorem map_text_place (number start : Nat) (ls : List (List Char)) :
    (place number start ls).map Line.text = ls.map fun l => (Text.splitEnding l).1 := by
  have h := congrArg (List.map Prod.fst) (map_split_place number start ls)
  rwa [List.map_map, List.map_map] at h

theorem mem_place {number start : Nat} {ls : List (List Char)} {l : Line}
    (h : l ∈ place number start ls) :
    start ≤ l.start ∧ l.stop ≤ start + Text.width ls.flatten := by
  induction ls generalizing number start with
  | nil => simp [place] at h
  | cons r rs ih =>
    rw [List.flatten_cons, Text.width_append]
    rcases List.mem_cons.1 h with rfl | h
    · have := congrArg Text.width (Text.append_splitEnding r)
      rw [Text.width_append] at this
      simp only [stop]
      omega
    · have := ih h
      omega

theorem pairwise_start_place (number start : Nat) (ls : List (List Char)) :
    (place number start ls).Pairwise (·.start ≤ ·.start) := by
  induction ls generalizing number start with
  | nil => exact .nil
  | cons r rs ih =>
    refine .cons ?_ (ih _ _)
    intro l hl
    exact Nat.le_trans (Nat.le_add_right _ _) (mem_place hl).1

theorem exists_append_of_mem_place {number start : Nat} {ls : List (List Char)} {l : Line}
    (h : l ∈ place number start ls) :
    ∃ before after, ls.flatten = before ++ (l.text ++ after) ∧ start + Text.width before = l.start := by
  induction ls generalizing number start with
  | nil => simp [place] at h
  | cons r rs ih =>
    rcases List.mem_cons.1 h with rfl | h
    · refine ⟨[], (Text.splitEnding r).2 ++ rs.flatten, ?_, rfl⟩
      rw [List.nil_append, ← List.append_assoc, Text.append_splitEnding, List.flatten_cons]
    · obtain ⟨before, after, heq, hstart⟩ := ih h
      refine ⟨r ++ before, after, ?_, ?_⟩
      · rw [List.flatten_cons, heq, List.append_assoc]
      · rw [Text.width_append, ← Nat.add_assoc, hstart]

theorem pairwise_stop_lt_start_place (number start : Nat) {ls : List (List Char)}
    (h : ∀ l ∈ ls.dropLast, l.getLast? = some '\n') :
    (place number start ls).Pairwise (·.stop < ·.start) := by
  induction ls generalizing number start with
  | nil => exact .nil
  | cons r rs ih =>
    cases rs with
    | nil => exact .cons (by simp [place]) .nil
    | cons r' rs =>
      refine .cons ?_ (ih _ _ fun l hl => h l (List.mem_cons_of_mem r hl))
      intro l hl
      have hending := Text.splitEnding_ne_nil (h r List.mem_cons_self)
      have hwidth := congrArg Text.width (Text.append_splitEnding r)
      have hstart := (mem_place hl).1
      rw [Text.width_append] at hwidth
      have : Text.width (Text.splitEnding r).2 ≠ 0 := fun h => hending (Text.width_eq_zero.1 h)
      simp only [stop]
      omega

theorem length_takeWhile_place {start offset : Nat} (number : Nat) {as bs : List Char}
    (hle : start + Text.width as ≤ offset)
    (hlt : ∀ c ∈ bs.head?, offset < start + Text.width as + c.utf8Size) :
    ((place number start (Text.cutLines (as ++ bs))).takeWhile (·.start ≤ offset)).length =
      as.count '\n' + 1 := by
  induction as generalizing number start with
  | nil =>
    rw [List.nil_append]
    have hstart : start ≤ offset := by simpa using hle
    match h : Text.cutLines bs with
    | [] => exact absurd h (Text.cutLines_ne_nil bs)
    | [l] => simp [place, hstart]
    | l :: l' :: ls =>
      obtain ⟨c, hc, hw⟩ := Text.utf8Size_head_le_of_cutLines h
      have hoff : ¬ start + Text.width l ≤ offset := by
        have := hlt c hc
        simp only [Text.width_nil] at this
        omega
      simp [place, hstart, hoff]
  | cons c as ih =>
    rw [Text.width_cons] at hle
    have hstart : start ≤ offset := by omega
    have hlt' : ∀ d ∈ bs.head?, offset < start + c.utf8Size + Text.width as + d.utf8Size := by
      intro d hd
      have := hlt d hd
      rw [Text.width_cons] at this
      omega
    have hrest := fun number => ih number (by omega) hlt'
    by_cases hc : c = '\n'
    · subst hc
      rw [List.cons_append, Text.cutLines_feed]
      simp only [place, Text.width_cons, Text.width_nil, Nat.add_zero]
      rw [List.takeWhile_cons_of_pos (by simpa using hstart), List.length_cons, hrest]
      simp
    · -- The first line starts earlier by one character; all others start where they did.
      rw [List.cons_append, Text.cutLines_cons hc, List.count_cons_of_ne hc, ← hrest number]
      cases h : Text.cutLines (as ++ bs) with
      | nil => exact absurd h (Text.cutLines_ne_nil _)
      | cons l ls =>
        have hstart' : start + c.utf8Size ≤ offset := by omega
        simp [place, Text.prepend, hstart, hstart', Nat.add_assoc]

end Line

namespace Text

@[simp] theorem length_lines (cs : List Char) : (lines cs).length = cs.count '\n' + 1 := by
  rw [lines, Line.length_place, length_cutLines]

theorem stop_le_of_mem_lines {cs : List Char} {l : Line} (h : l ∈ lines cs) : l.stop ≤ width cs := by
  have := (Line.mem_place h).2
  rwa [flatten_cutLines, Nat.zero_add] at this

theorem exists_append_of_mem_lines {cs : List Char} {l : Line} (h : l ∈ lines cs) :
    ∃ before after, cs = before ++ (l.text ++ after) ∧ width before = l.start := by
  obtain ⟨before, after, heq, hstart⟩ := Line.exists_append_of_mem_place h
  rw [flatten_cutLines] at heq
  rw [Nat.zero_add] at hstart
  exact ⟨before, after, heq, hstart⟩

theorem feed_not_mem_text_of_mem_lines {cs : List Char} {l : Line} (h : l ∈ lines cs) :
    '\n' ∉ l.text := by
  have htext : l.text ∈ (cutLines cs).map fun l => (splitEnding l).1 := by
    rw [← Line.map_text_place 0 0]
    exact List.mem_map_of_mem h
  obtain ⟨r, hr, hl⟩ := List.mem_map.1 htext
  rw [← hl]
  exact feed_not_mem_splitEnding (feed_not_mem_dropLast_of_mem_cutLines hr)

theorem pairwise_lines (cs : List Char) : (lines cs).Pairwise (·.stop < ·.start) :=
  Line.pairwise_stop_lt_start_place 0 0 fun _ => getLast?_of_mem_dropLast_cutLines

theorem map_text_lines (cs : List Char) :
    (lines cs).map Line.text = (cutLines cs).map fun l => (splitEnding l).1 :=
  Line.map_text_place 0 0 _

theorem take_texts_append (as bs bs' : List Char) :
    ((lines (as ++ bs)).map Line.text).take (as.count '\n') =
      ((lines (as ++ bs')).map Line.text).take (as.count '\n') := by
  rw [map_text_lines, map_text_lines, ← List.map_take, ← List.map_take]
  congr 1
  apply List.ext_getElem?
  intro i
  by_cases h : i < as.count '\n'
  · rw [List.getElem?_take_of_lt h, List.getElem?_take_of_lt h,
      getElem?_cutLines_append_left h, getElem?_cutLines_append_left h]
  · rw [List.getElem?_take_eq_none (by omega), List.getElem?_take_eq_none (by omega)]

theorem drop_texts_append (as as' bs : List Char) :
    ((lines (as ++ bs)).map Line.text).drop (as.count '\n' + 1) =
      ((lines (as' ++ bs)).map Line.text).drop (as'.count '\n' + 1) := by
  rw [map_text_lines, map_text_lines, ← List.map_drop, ← List.map_drop]
  congr 1
  apply List.ext_getElem?
  intro i
  rw [List.getElem?_drop, List.getElem?_drop, Nat.add_right_comm, Nat.add_assoc,
    getElem?_cutLines_append_right, Nat.add_right_comm, Nat.add_assoc,
    getElem?_cutLines_append_right]

theorem lineAt_of_seam {offset : Nat} {as bs : List Char} (hle : width as ≤ offset)
    (hlt : ∀ c ∈ bs.head?, offset < width as + c.utf8Size) :
    lineAt offset (lines (as ++ bs)) = as.count '\n' := by
  rw [lineAt, lines, Line.length_takeWhile_place 0 (by simpa using hle) (by simpa using hlt)]
  rfl

theorem lineAt_le (offset : Nat) (ls : List Line) : lineAt offset ls ≤ ls.length :=
  Nat.le_trans (Nat.sub_le _ 1) (List.takeWhile_sublist _).length_le

theorem lineAt_lt_length_lines (offset : Nat) (cs : List Char) :
    lineAt offset (lines cs) < (lines cs).length := by
  have hle : ((lines cs).takeWhile (·.start ≤ offset)).length ≤ (lines cs).length :=
    (List.takeWhile_sublist _).length_le
  rw [length_lines] at hle ⊢
  rw [lineAt]
  omega

theorem start_le_of_le_lineAt {cs : List Char} {offset i : Nat} {l : Line}
    (hi : i ≤ lineAt offset (lines cs)) (hl : (lines cs)[i]? = some l) : l.start ≤ offset := by
  have hfirst : ∃ l ls, lines cs = l :: ls ∧ l.start = 0 := by
    rw [lines]
    cases h : cutLines cs with
    | nil => exact absurd h (cutLines_ne_nil cs)
    | cons r rs => exact ⟨_, _, rfl, rfl⟩
  have hpos : 0 < ((lines cs).takeWhile (·.start ≤ offset)).length := by
    obtain ⟨l, ls, hls, hzero⟩ := hfirst
    rw [hls, List.takeWhile_cons_of_pos (by simp [hzero])]
    simp
  rw [lineAt] at hi
  have hmem : l ∈ (lines cs).takeWhile (·.start ≤ offset) := by
    rw [← List.takeWhile_append_dropWhile (p := (·.start ≤ offset)) (l := lines cs),
      List.getElem?_append_left (by omega)] at hl
    exact List.mem_of_getElem? hl
  simpa using List.all_eq_true.1 List.all_takeWhile l hmem

theorem stop_lt_start_of_mem {cs : List Char} {n : Nat} {l l' : Line} (hl : l ∈ (lines cs).take n)
    (hl' : l' ∈ (lines cs).drop n) : l.stop < l'.start := by
  have hsorted := pairwise_lines cs
  rw [← List.take_append_drop n (lines cs), List.pairwise_append] at hsorted
  exact hsorted.2.2 l hl l' hl'

theorem stop_lt_of_mem_take_lines {cs : List Char} {offset n : Nat} {l : Line}
    (hn : n ≤ lineAt offset (lines cs)) (hl : l ∈ (lines cs).take n) : l.stop < offset := by
  have hlt : n < (lines cs).length := Nat.lt_of_le_of_lt hn (lineAt_lt_length_lines offset cs)
  have hstop : l.stop < (lines cs)[n].start := by
    apply stop_lt_start_of_mem hl
    rw [List.drop_eq_getElem_cons hlt]
    exact List.mem_cons_self
  exact Nat.lt_of_lt_of_le hstop (start_le_of_le_lineAt hn (List.getElem?_eq_getElem hlt))

theorem lineAt_width (as bs : List Char) : lineAt (width as) (lines (as ++ bs)) = as.count '\n' :=
  lineAt_of_seam (Nat.le_refl _) fun c _ => by
    have := c.utf8Size_pos
    omega

end Text

end SqlHighlight
