import SqlHighlight.Proofs.Breaks

namespace SqlHighlight

namespace Text

theorem prepend_prepend (xs ys : List Char) (ls : List (List Char)) :
    prepend xs (prepend ys ls) = prepend (xs ++ ys) ls := by
  cases ls <;> simp [prepend]

theorem prepend_append {ls : List (List Char)} (h : ls ≠ []) (xs : List Char) (ms : List (List Char)) :
    prepend xs (ls ++ ms) = prepend xs ls ++ ms := by
  cases ls with
  | nil => exact absurd rfl h
  | cons l ls => rfl

theorem flatten_prepend (xs : List Char) (ls : List (List Char)) :
    (prepend xs ls).flatten = xs ++ ls.flatten := by
  cases ls <;> simp [prepend]

theorem cutLines_append_of_feed_not_mem {xs : List Char} (h : '\n' ∉ xs) (ys : List Char) :
    cutLines (xs ++ ys) = prepend xs (cutLines ys) := by
  induction xs with
  | nil =>
    cases hys : cutLines ys with
    | nil => exact absurd hys (cutLines_ne_nil ys)
    | cons l ls => simpa [prepend] using hys
  | cons c xs ih =>
    rw [List.mem_cons, not_or] at h
    rw [List.cons_append, cutLines_cons (Ne.symm h.1), ih h.2, prepend_prepend, List.singleton_append]

theorem cutLines_append {xs last : List Char} {init : List (List Char)}
    (h : cutLines xs = init ++ [last]) (ys : List Char) :
    cutLines (xs ++ ys) = init ++ prepend last (cutLines ys) := by
  obtain ⟨init', last', heq, hinit, hlast⟩ := exists_cutLines_eq xs
  obtain ⟨rfl, hlasts⟩ := List.append_inj' (heq.symm.trans h) rfl
  obtain rfl : last' = last := by simpa using hlasts
  have hxs : xs = init'.flatten ++ last' := by
    rw [← flatten_cutLines xs, heq]
    simp
  rw [hxs]
  clear h heq hxs hlasts
  induction init' with
  | nil => exact cutLines_append_of_feed_not_mem hlast ys
  | cons l init ih =>
    obtain ⟨⟨text, rfl, htext⟩, hrest⟩ := List.forall_mem_cons.1 hinit
    rw [List.flatten_cons, List.append_assoc, List.append_assoc, List.append_assoc,
      cutLines_append_of_feed_not_mem htext, List.singleton_append, cutLines_feed, ← List.append_assoc,
      ih hrest]
    rfl

theorem mem_takeWhile_of_cutLines {cs l : List Char} {ls : List (List Char)} {c : Char}
    (h : cutLines cs = l :: ls) (hc : c ∈ l) (hfeed : c ≠ '\n') : c ∈ cs.takeWhile (· ≠ '\n') := by
  induction cs generalizing l ls with
  | nil =>
    obtain ⟨rfl, -⟩ := List.cons.inj h
    cases hc
  | cons d cs ih =>
    by_cases hd : d = '\n'
    · subst hd
      rw [cutLines_feed] at h
      obtain ⟨rfl, -⟩ := List.cons.inj h
      exact absurd (List.mem_singleton.1 hc) hfeed
    · rw [cutLines_cons hd] at h
      rw [List.takeWhile_cons_of_pos (by simpa using hd)]
      cases hcs : cutLines cs with
      | nil => exact absurd hcs (cutLines_ne_nil cs)
      | cons m ms =>
        rw [hcs] at h
        obtain ⟨rfl, -⟩ := List.cons.inj h
        rcases List.mem_cons.1 hc with rfl | hc
        · exact List.mem_cons_self
        · exact List.mem_cons_of_mem d (ih hcs hc)

theorem splitEnding_append {xs : List Char} (hfeed : '\n' ∉ xs) (hreturn : xs.getLast? ≠ some '\r')
    (ys : List Char) : splitEnding (xs ++ ys) = (xs ++ (splitEnding ys).1, (splitEnding ys).2) := by
  induction xs with
  | nil => rfl
  | cons c xs ih =>
    rw [List.mem_cons, not_or] at hfeed
    have hxs : xs.getLast? ≠ some '\r' := by
      cases xs with
      | nil => simp
      | cons d xs => simpa [List.getLast?_cons] using hreturn
    have hbreak : c = '\r' → xs ++ ys ≠ ['\n'] := by
      rintro rfl heq
      cases xs with
      | nil => simp at hreturn
      | cons d xs => exact hfeed.2 (by simp [(List.cons.inj heq).1])
    rw [List.cons_append, splitEnding_cons (Ne.symm hfeed.1) hbreak, ih hfeed.2 hxs]
    rfl

end Text

theorem getLastD_map {α β : Type} (f : α → β) (x : α) (xs : List α) :
    (xs.map f).getLastD (f x) = f (xs.getLastD x) := by
  rw [List.getLastD_eq_getLast?, List.getLast?_map, Option.getD_map, List.getLastD_eq_getLast?]

namespace Line

def span? (ls : List Line) : Option Range :=
  match ls.filter (!·.text.isEmpty) with
  | [] => none
  | l :: ls => some ⟨l.start, (ls.getLastD l).stop⟩

def moved (number start : Nat) (l : Line) : Line :=
  { l with number := l.number + number, start := l.start + start }

theorem stop_moved (number start : Nat) (l : Line) : (l.moved number start).stop = l.stop + start := by
  simp only [stop, moved]
  omega

theorem span?_map_moved (number start : Nat) (ls : List Line) :
    span? (ls.map (moved number start)) = (span? ls).map (·.shift start) := by
  have hfilter : (ls.map (moved number start)).filter (!·.text.isEmpty) =
      (ls.filter (!·.text.isEmpty)).map (moved number start) := List.filter_map
  rw [span?, span?, hfilter]
  cases ls.filter (!·.text.isEmpty) with
  | nil => rfl
  | cons l ls =>
    simp only [List.map_cons, getLastD_map, stop_moved, Option.map_some]
    rfl

theorem map_moved_place (number start m n : Nat) (ls : List (List Char)) :
    (place m n ls).map (moved number start) = place (m + number) (n + start) ls := by
  induction ls generalizing m n with
  | nil => rfl
  | cons l ls ih =>
    rw [place, List.map_cons, ih, place, Nat.add_right_comm m, Nat.add_right_comm n]
    rfl

theorem moved_moved (number start number' start' : Nat) (l : Line) :
    (l.moved number start).moved number' start' = l.moved (number + number') (start + start') := by
  simp [moved, Nat.add_assoc]

theorem map_moved_lines (number start : Nat) (cs : List Char) :
    (Text.lines cs).map (moved number start) = place number start (Text.cutLines cs) := by
  rw [Text.lines, map_moved_place, Nat.zero_add, Nat.zero_add]

def ofCut (number start : Nat) (l : List Char) : Line :=
  ⟨number, start, (Text.splitEnding l).1, (Text.splitEnding l).2⟩

theorem place_cons (number start : Nat) (l : List Char) (ls : List (List Char)) :
    place number start (l :: ls) =
      ofCut number start l :: place (number + 1) (start + Text.width l) ls :=
  rfl

theorem place_append (number start : Nat) (ls ms : List (List Char)) :
    place number start (ls ++ ms) =
      place number start ls ++ place (number + ls.length) (start + Text.width ls.flatten) ms := by
  induction ls generalizing number start with
  | nil => rfl
  | cons l ls ih =>
    rw [List.cons_append, place, ih, place, List.flatten_cons, Text.width_append, List.length_cons,
      Nat.add_assoc start, Nat.add_assoc number, Nat.add_comm 1]
    rfl

theorem place_concat (number start : Nat) (ls : List (List Char)) (l : List Char) :
    place number start (ls ++ [l]) = place number start ls ++
      [ofCut (number + ls.length) (start + Text.width ls.flatten) l] :=
  place_append number start ls [l]

end Line

namespace Text

section

variable {xs last : List Char} {init : List (List Char)}

theorem count_feed_of_cutLines (h : cutLines xs = init ++ [last]) : xs.count '\n' = init.length := by
  have hlen := length_cutLines xs
  rw [h, List.length_append, List.length_singleton] at hlen
  omega

theorem append_of_cutLines (h : cutLines xs = init ++ [last]) : init.flatten ++ last = xs := by
  rw [← flatten_cutLines xs, h]
  simp

theorem lines_append (h : cutLines xs = init ++ [last]) (ys : List Char) :
    lines (xs ++ ys) = Line.place 0 0 init ++
      Line.place init.length (width init.flatten) (prepend last (cutLines ys)) := by
  rw [lines, cutLines_append h, Line.place_append, Nat.zero_add, Nat.zero_add]

end

theorem exists_lines_append (xs ys : List Char) :
    ∃ before number start left,
      lines (xs ++ ys) = before ++ Line.place number start (prepend left (cutLines ys)) ∧
      (∀ l ∈ before, ∀ c ∈ l.text, c ∈ xs) ∧ (∀ c ∈ left, c ∈ xs) ∧ '\n' ∉ left ∧
      start + width left = width xs := by
  obtain ⟨init, last, heq, -, hlast⟩ := exists_cutLines_eq xs
  have hxs := append_of_cutLines heq
  refine ⟨Line.place 0 0 init, init.length, width init.flatten, last, lines_append heq ys, ?_, ?_,
    hlast, ?_⟩
  · intro l hl c hc
    obtain ⟨left, right, hinit, -⟩ := Line.exists_append_of_mem_place hl
    rw [← hxs, hinit]
    simp [hc]
  · intro c hc
    rw [← hxs]
    simp [hc]
  · rw [← hxs, width_append]

theorem take_lines_append (xs ys ys' : List Char) :
    (lines (xs ++ ys)).take (xs.count '\n') = (lines (xs ++ ys')).take (xs.count '\n') := by
  obtain ⟨init, last, heq, -, -⟩ := exists_cutLines_eq xs
  rw [lines_append heq, lines_append heq, count_feed_of_cutLines heq, ← Line.length_place 0 0 init,
    List.take_left, List.take_left]

theorem drop_lines_append (xs ys : List Char) (n : Nat) :
    (lines (xs ++ ys)).drop (xs.count '\n' + (n + 1)) =
      ((lines ys).drop (n + 1)).map (Line.moved (xs.count '\n') (width xs)) := by
  obtain ⟨init, last, heq, -, -⟩ := exists_cutLines_eq xs
  have hinit := Line.length_place 0 0 init
  rw [List.map_drop, Line.map_moved_lines, lines_append heq, count_feed_of_cutLines heq,
    ← append_of_cutLines heq, ← List.drop_drop, ← hinit, List.drop_left, hinit]
  cases hys : cutLines ys with
  | nil => exact absurd hys (cutLines_ne_nil ys)
  | cons l ls =>
    rw [prepend, Line.place_cons, Line.place_cons, List.drop_succ_cons, List.drop_succ_cons,
      width_append, width_append, Nat.add_assoc]

end Text

end SqlHighlight
