import SqlHighlight.Proofs.Lines

namespace SqlHighlight

namespace Text

def unixBreaks : List Char → List Char
  | [] => []
  | '\r' :: '\n' :: cs => '\n' :: unixBreaks cs
  | c :: cs => c :: unixBreaks cs

def withFinalFeed (cs : List Char) : List Char := if cs.getLast? = some '\n' then cs else cs ++ ['\n']

def shownLines (cs : List Char) : List Line :=
  if cs.getLast? = some '\n' then (lines cs).dropLast else lines cs

theorem getLast?_unixBreaks (cs : List Char) : (unixBreaks cs).getLast? = cs.getLast? := by
  fun_induction unixBreaks cs with
  | case1 => rfl
  | case2 cs ih => simp [List.getLast?_cons, ih]
  | case3 c cs _ ih => simp [List.getLast?_cons, ih]

theorem unixBreaks_eq_self {cs : List Char} (h : ¬ ['\r', '\n'] <:+: cs) : unixBreaks cs = cs := by
  fun_induction unixBreaks cs with
  | case1 => rfl
  | case2 cs => exact absurd ⟨[], cs, rfl⟩ h
  | case3 c cs _ ih => rw [ih fun hcs => h (List.infix_cons hcs)]

theorem splitEnding_cons {c : Char} {l : List Char} (hc : c ≠ '\n') (hl : c = '\r' → l ≠ ['\n']) :
    splitEnding (c :: l) = (c :: (splitEnding l).1, (splitEnding l).2) := by
  rw [splitEnding]
  · exact fun h _ => hc h
  · exact hl

theorem splitEnding_of_feed_not_mem {l : List Char} (h : '\n' ∉ l) : splitEnding l = (l, []) := by
  induction l with
  | nil => rfl
  | cons c l ih =>
    rw [List.mem_cons, not_or] at h
    rw [splitEnding_cons (Ne.symm h.1) (fun _ hl => h.2 (by simp [hl])), ih h.2]

theorem intercalate_text_lines (cs : List Char) :
    ['\n'].intercalate ((lines cs).map Line.text) = unixBreaks cs := by
  have hne (cs : List Char) : (cutLines cs).map (fun l => (splitEnding l).1) ≠ [] := by
    simp [cutLines_ne_nil]
  rw [map_text_lines]
  fun_induction unixBreaks cs with
  | case1 => rfl
  | case2 cs ih =>
    rw [cutLines_cons (by decide), cutLines_feed, prepend, List.map_cons,
      List.intercalate_cons_of_ne_nil (hne cs), ih]
    rfl
  | case3 c cs hcrlf ih =>
    by_cases hc : c = '\n'
    · subst hc
      rw [cutLines_feed, List.map_cons, List.intercalate_cons_of_ne_nil (hne cs), ih]
      rfl
    · rw [cutLines_cons hc, ← ih]
      have hflatten := flatten_cutLines cs
      cases hcs : cutLines cs with
      | nil => exact absurd hcs (cutLines_ne_nil cs)
      | cons l ls =>
        -- The first line is one character longer, and ends as it did.
        have hl : c = '\r' → l ≠ ['\n'] := by
          rintro rfl rfl
          rw [hcs] at hflatten
          exact hcrlf ls.flatten rfl hflatten.symm
        rw [prepend, List.singleton_append, List.map_cons, splitEnding_cons hc hl,
          List.intercalate_cons_cons_left, List.map_cons]

theorem getLast?_flatten_append {init : List (List Char)} {last : List Char}
    (hinit : ∀ l ∈ init, ∃ text, l = text ++ ['\n'] ∧ '\n' ∉ text) (hlast : '\n' ∉ last)
    (hne : init.flatten ++ last ≠ []) :
    (init.flatten ++ last).getLast? = some '\n' ↔ last = [] := by
  constructor
  · intro h
    cases hc : last.getLast? with
    | none => exact List.getLast?_eq_none_iff.1 hc
    | some c =>
      rw [List.getLast?_append, hc] at h
      obtain rfl : c = '\n' := by simpa using h
      exact absurd (List.mem_of_getLast? hc) hlast
  · rintro rfl
    rw [List.append_nil] at hne ⊢
    rcases List.eq_nil_or_concat init with rfl | ⟨before, l, rfl⟩
    · exact absurd rfl hne
    · obtain ⟨text, rfl, -⟩ := hinit l (by simp)
      simp

theorem exists_lines_eq (cs : List Char) :
    ∃ init last, lines cs = init ++ [last] ∧ (∀ l ∈ init, l.ending ≠ []) ∧ last.ending = [] ∧
      (cs ≠ [] → (cs.getLast? = some '\n' ↔ last.text = [])) := by
  obtain ⟨before, rest, heq, hbefore, hrest⟩ := exists_cutLines_eq cs
  have hcs : cs = before.flatten ++ rest := by
    have hflatten := flatten_cutLines cs
    rw [heq] at hflatten
    simpa using hflatten.symm
  have hmap := Line.map_split_place 0 0 (cutLines cs)
  rw [heq, List.map_append, List.map_singleton, splitEnding_of_feed_not_mem hrest] at hmap
  obtain ⟨init, ending, hlines, hinit, hending⟩ := List.map_eq_append_iff.1 hmap
  obtain ⟨last, rfl, hlast⟩ := List.map_eq_singleton_iff.1 hending
  obtain ⟨htext, hnone⟩ := Prod.mk.inj hlast
  refine ⟨init, last, by rw [lines, heq, hlines], ?_, hnone, ?_⟩
  · intro l hl
    have hmem : (l.text, l.ending) ∈ before.map splitEnding := hinit ▸ List.mem_map_of_mem hl
    obtain ⟨r, hr, hsplit⟩ := List.mem_map.1 hmem
    obtain ⟨text, rfl, -⟩ := hbefore r hr
    have hending := splitEnding_ne_nil (List.getLast?_concat (l := text))
    rwa [hsplit] at hending
  · intro hne
    rw [htext]
    rw [hcs] at hne ⊢
    exact getLast?_flatten_append hbefore hrest hne

theorem listedLines_eq {cs : List Char} (h : cs ≠ []) : listedLines cs = shownLines cs := by
  obtain ⟨init, last, hlines, hinit, hending, htext⟩ := exists_lines_eq cs
  have hkept : init.filter (fun l => !(l.text.isEmpty && l.ending.isEmpty)) = init := by
    rw [List.filter_eq_self]
    intro l hl
    simp [hinit l hl]
  rw [listedLines, shownLines, hlines, List.filter_append, hkept, List.dropLast_concat]
  split
  next hfeed => simp [(htext h).1 hfeed, hending]
  next hfeed =>
    have hne : last.text ≠ [] := fun hnil => hfeed ((htext h).2 hnil)
    simp [hne]

theorem listedLines_ne_nil {cs : List Char} (h : cs ≠ []) : listedLines cs ≠ [] := by
  have hlength := length_lines cs
  rw [listedLines_eq h, shownLines]
  split
  next hfeed =>
    have hcount : 0 < cs.count '\n' := List.count_pos_iff.2 (List.mem_of_getLast? hfeed)
    rw [← List.length_pos_iff, List.length_dropLast]
    omega
  next =>
    rw [← List.length_pos_iff]
    omega

theorem flatMap_append_eq_intercalate {sep : List Char} {ts : List (List Char)} (h : ts ≠ []) :
    ts.flatMap (· ++ sep) = sep.intercalate ts ++ sep := by
  induction ts with
  | nil => exact absurd rfl h
  | cons t ts ih =>
    cases ts with
    | nil => simp
    | cons u ts =>
      rw [List.flatMap_cons, ih (by simp), List.intercalate_cons_cons]
      simp

theorem flatMap_shownLines (cs : List Char) :
    (shownLines cs).flatMap (fun l => l.text ++ ['\n']) = withFinalFeed (unixBreaks cs) := by
  obtain ⟨init, last, hlines, -, -, htext⟩ := exists_lines_eq cs
  have hall : (lines cs).flatMap (fun l => l.text ++ ['\n']) = unixBreaks cs ++ ['\n'] := by
    rw [← intercalate_text_lines, ← flatMap_append_eq_intercalate (by simp [hlines]), List.flatMap_map]
  rw [shownLines, withFinalFeed, getLast?_unixBreaks]
  split
  next hfeed =>
    have hne : cs ≠ [] := by
      rintro rfl
      cases hfeed
    rw [hlines, List.flatMap_append, List.flatMap_singleton, (htext hne).1 hfeed] at hall
    rw [hlines, List.dropLast_concat]
    exact List.append_cancel_right hall
  next => exact hall

end Text

end SqlHighlight
