import SqlHighlight.Proofs.Edits
import SqlHighlight.Proofs.Independence
import SqlHighlight.Proofs.Seams

namespace SqlHighlight

namespace Text

theorem feed_mem_utf8EncodeChar_iff {c : Char} : 0x0A ∈ String.utf8EncodeChar c ↔ c = '\n' := by
  constructor
  · intro h
    by_cases hlt : c.toNat < 0x80
    · rw [utf8EncodeChar_of_lt hlt, List.mem_singleton] at h
      exact (toUInt8_inj (d := '\n') hlt (by decide)).1 h.symm
    · exact absurd (le_of_mem_utf8EncodeChar (Nat.not_lt.1 hlt) h) (by decide)
  · rintro rfl
    decide

theorem count_utf8EncodeChar (c : Char) :
    (String.utf8EncodeChar c).count 0x0A = if c = '\n' then 1 else 0 := by
  split
  next h =>
    subst h
    rfl
  next h => exact List.count_eq_zero.2 fun hmem => h (feed_mem_utf8EncodeChar_iff.1 hmem)

theorem count_feed_bytes (cs : List Char) : (bytes cs).count 0x0A = cs.count '\n' := by
  induction cs with
  | nil => rfl
  | cons c cs ih =>
    rw [bytes, List.flatMap_cons, List.count_append, count_utf8EncodeChar, List.count_cons]
    change _ + (bytes cs).count 0x0A = _
    rw [ih, Nat.add_comm]
    simp

theorem lt_of_mem_head?_splitFloor {n : Nat} {cs : List Char} {c : Char}
    (h : c ∈ (splitFloor n cs).2.head?) : n < width (splitFloor n cs).1 + c.utf8Size := by
  induction cs generalizing n with
  | nil => cases h
  | cons d cs ih =>
    rw [splitFloor] at h ⊢
    split at h
    next hle =>
      have := ih h
      rw [if_pos hle, width_cons]
      omega
    next hlt =>
      rw [if_neg hlt, width_nil, Nat.zero_add]
      obtain rfl : d = c := by simpa using h
      exact Nat.not_le.1 hlt

theorem count_take_bytes (n : Nat) (cs : List Char) :
    ((bytes cs).take n).count 0x0A = (splitFloor n cs).1.count '\n' := by
  have hlt := fun c => @lt_of_mem_head?_splitFloor n cs c
  have hle := width_splitFloor_le n cs
  have hcs := append_splitFloor n cs
  generalize splitFloor n cs = cut at hlt hle hcs ⊢
  obtain ⟨before, after⟩ := cut
  dsimp only at hlt hle hcs ⊢
  rw [← hcs, bytes_append, List.take_append, length_bytes, List.take_of_length_le (by simpa using hle),
    List.count_append, count_feed_bytes, Nat.add_eq_left, List.count_eq_zero]
  intro hmem
  cases after with
  | nil => simp [bytes] at hmem
  | cons c after =>
    have hinside : n - width before < c.utf8Size := by
      have := hlt c rfl
      omega
    rw [bytes, List.flatMap_cons, List.take_append_of_le_length
      (by rw [String.length_utf8EncodeChar]; exact Nat.le_of_lt hinside)] at hmem
    obtain rfl := feed_mem_utf8EncodeChar_iff.1 (List.mem_of_mem_take hmem)
    -- A line feed is one byte, so none of it lies before the offset.
    rw [Nat.lt_one_iff.1 hinside] at hmem
    cases hmem

theorem splitEnding_concat_return_feed {text : List Char} (hfeed : '\n' ∉ text) :
    splitEnding (text ++ ['\r', '\n']) = (text, ['\r', '\n']) := by
  induction text with
  | nil => rfl
  | cons c text ih =>
    rw [List.mem_cons, not_or] at hfeed
    have hbreak : c = '\r' → text ++ ['\r', '\n'] ≠ ['\n'] := by
      rintro rfl heq
      have := congrArg List.length heq
      simp at this
    rw [List.cons_append, splitEnding_cons (Ne.symm hfeed.1) hbreak, ih hfeed.2]

theorem splitEnding_concat {text : List Char} (hfeed : '\n' ∉ text) :
    (splitEnding (text ++ ['\n'])).2 = ['\r', '\n'] ∨
      (splitEnding (text ++ ['\n'])).2 = ['\n'] ∧
        (splitEnding (text ++ ['\n'])).1.getLast? ≠ some '\r' := by
  by_cases hreturn : text.getLast? = some '\r'
  · obtain ⟨before, rfl⟩ := List.getLast?_eq_some_iff.1 hreturn
    have hbefore : '\n' ∉ before := fun hmem => hfeed (List.mem_append_left _ hmem)
    rw [List.append_assoc, List.singleton_append, splitEnding_concat_return_feed hbefore]
    exact .inl rfl
  · rw [splitEnding_append hfeed hreturn, splitEnding, List.append_nil]
    exact .inr ⟨rfl, hreturn⟩

end Text

namespace Line

def whole (l : Line) : Range := ⟨l.start, l.next⟩

theorem exists_of_getElem?_place {number start i : Nat} {ls : List (List Char)} {l : Line}
    (h : (place number start ls)[i]? = some l) :
    ∃ before raw after, ls = before ++ raw :: after ∧ before.length = i ∧
      l = ofCut (number + i) (start + Text.width before.flatten) raw := by
  induction ls generalizing number start i with
  | nil => cases h
  | cons r ls ih =>
    rw [place_cons] at h
    cases i with
    | zero => exact ⟨[], r, ls, rfl, rfl, (Option.some.inj h).symm⟩
    | succ i =>
      obtain ⟨before, raw, after, rfl, rfl, rfl⟩ := ih h
      refine ⟨r :: before, raw, after, rfl, rfl, ?_⟩
      rw [List.flatten_cons, Text.width_append, Nat.add_assoc, Nat.add_assoc,
        Nat.add_comm 1]

theorem next_ofCut (number start : Nat) (l : List Char) :
    (ofCut number start l).next = start + Text.width l := by
  have hwidth := congrArg Text.width (Text.append_splitEnding l)
  rw [Text.width_append] at hwidth
  rw [next, stop, ← hwidth, ← Nat.add_assoc]
  rfl

def Follow (number start : Nat) : List Line → Nat → Prop
  | [], stop => start = stop
  | l :: ls, stop => l.number = number ∧ l.start = start ∧ Follow (number + 1) l.next ls stop

theorem follow_place (number start : Nat) (ls : List (List Char)) :
    Follow number start (place number start ls) (start + Text.width ls.flatten) := by
  induction ls generalizing number start with
  | nil => rfl
  | cons l ls ih =>
    refine ⟨rfl, rfl, ?_⟩
    change Follow (number + 1) (ofCut number start l).next _ _
    rw [next_ofCut, List.flatten_cons, Text.width_append, ← Nat.add_assoc]
    exact ih (number + 1) (start + Text.width l)

end Line

namespace Text

section

variable {cs : List Char} {offset i : Nat} {l l' : Line}

theorem exists_of_getElem?_lines (h : (lines cs)[i]? = some l) :
    ∃ before raw after, cutLines cs = before ++ raw :: after ∧ before.length = i ∧
      l = Line.ofCut i (width before.flatten) raw := by
  obtain ⟨before, raw, after, hcut, hlength, rfl⟩ := Line.exists_of_getElem?_place h
  exact ⟨before, raw, after, hcut, hlength, by rw [Nat.zero_add, Nat.zero_add]⟩

theorem number_of_getElem?_lines (h : (lines cs)[i]? = some l) : l.number = i := by
  obtain ⟨before, raw, after, -, -, rfl⟩ := exists_of_getElem?_lines h
  rfl

theorem exists_append_of_getElem?_lines (h : (lines cs)[i]? = some l) :
    ∃ before after, cs = before ++ (l.text ++ (l.ending ++ after)) ∧ width before = l.start := by
  obtain ⟨before, raw, after, hcut, -, rfl⟩ := exists_of_getElem?_lines h
  refine ⟨before.flatten, after.flatten, ?_, rfl⟩
  have hraw : (splitEnding raw).1 ++ (splitEnding raw).2 = raw := append_splitEnding raw
  rw [← flatten_cutLines cs, hcut, List.flatten_append, List.flatten_cons]
  conv_lhs => rw [← hraw, List.append_assoc]
  rfl

theorem start_eq_next (h : (lines cs)[i]? = some l) (h' : (lines cs)[i + 1]? = some l') :
    l'.start = l.next := by
  obtain ⟨before, raw, after, hcut, hlength, rfl⟩ := exists_of_getElem?_lines h
  obtain ⟨before', raw', after', hcut', hlength', rfl⟩ := exists_of_getElem?_lines h'
  have heq : before ++ [raw] ++ after = before' ++ raw' :: after' := by
    rw [← hcut', hcut, List.append_assoc, List.singleton_append]
  obtain ⟨rfl, -⟩ := List.append_inj heq (by simp [hlength, hlength'])
  rw [Line.next_ofCut, List.flatten_append, width_append, List.flatten_singleton]
  rfl

theorem next_eq_width (h : (lines cs)[i]? = some l) (hlast : i + 1 = (lines cs).length) :
    l.next = width cs := by
  obtain ⟨before, raw, after, hcut, hlength, rfl⟩ := exists_of_getElem?_lines h
  have hafter : after = [] := by
    rw [lines, Line.length_place, hcut, List.length_append, List.length_cons] at hlast
    exact List.length_eq_zero_iff.1 (by omega)
  rw [Line.next_ofCut, ← width_append, ← flatten_cutLines cs, hcut, hafter]
  simp

theorem start_le_iff (h : (lines cs)[i]? = some l) (offset : Nat) :
    l.start ≤ offset ↔ i ≤ lineAt offset (lines cs) := by
  refine ⟨fun hle => ?_, fun hi => start_le_of_le_lineAt hi h⟩
  by_contra hlt
  have hsorted : (lines cs).Pairwise (·.start ≤ ·.start) := Line.pairwise_start_place 0 0 _
  have hdrop : l ∈ (lines cs).dropWhile (·.start ≤ offset) := by
    rw [lineAt] at hlt
    rw [← List.takeWhile_append_dropWhile (p := (·.start ≤ offset)) (l := lines cs),
      List.getElem?_append_right (by omega)] at h
    exact List.mem_of_getElem? h
  rw [← List.takeWhile_append_dropWhile (p := (·.start ≤ offset)) (l := lines cs)] at hsorted
  have hrest := (List.pairwise_append.1 hsorted).2.1
  cases hd : (lines cs).dropWhile (·.start ≤ offset) with
  | nil => rw [hd] at hdrop; cases hdrop
  | cons d ds =>
    have hfirst : ¬ d.start ≤ offset := by
      have := List.head?_dropWhile_not (·.start ≤ offset) (lines cs)
      simpa [hd] using this
    rw [hd] at hdrop hrest
    rcases List.mem_cons.1 hdrop with rfl | hmem
    · exact hfirst hle
    · exact hfirst (Nat.le_trans (List.rel_of_pairwise_cons hrest hmem) hle)

theorem lt_next_iff (h : (lines cs)[i]? = some l) (hoffset : offset < width cs) :
    offset < l.next ↔ lineAt offset (lines cs) ≤ i := by
  have hi : i < (lines cs).length := (List.getElem?_eq_some_iff.1 h).1
  by_cases hlast : i + 1 = (lines cs).length
  · have hline := lineAt_lt_length_lines offset cs
    rw [next_eq_width h hlast]
    exact iff_of_true hoffset (by omega)
  · have hnext : (lines cs)[i + 1]? = some (lines cs)[i + 1] := List.getElem?_eq_getElem (by omega)
    have hstart := start_le_iff hnext offset
    rw [start_eq_next h hnext] at hstart
    omega

theorem whole_contains_iff (h : (lines cs)[i]? = some l) (hoffset : offset < width cs) :
    l.whole.Contains offset ↔ lineAt offset (lines cs) = i := by
  change l.start ≤ offset ∧ offset < l.next ↔ _
  rw [start_le_iff h, lt_next_iff h hoffset]
  omega

theorem ending_of_getElem?_lines (h : (lines cs)[i]? = some l) :
    if i + 1 = (lines cs).length then l.ending = []
    else l.ending = ['\r', '\n'] ∨ l.ending = ['\n'] ∧ l.text.getLast? ≠ some '\r' := by
  obtain ⟨before, raw, after, hcut, hlength, rfl⟩ := exists_of_getElem?_lines h
  obtain ⟨init, last, heq, hinit, hlast⟩ := exists_cutLines_eq cs
  rw [lines, Line.length_place, heq, List.length_append, List.length_singleton, ← hlength]
  split
  next hi =>
    obtain ⟨-, hrest⟩ := List.append_inj (hcut.symm.trans heq) (by omega)
    obtain ⟨rfl, -⟩ := List.cons.inj hrest
    rw [Line.ofCut, splitEnding_of_feed_not_mem hlast]
  next hi =>
    have hmem : raw ∈ init := by
      have hget := congrArg (·[before.length]?) (hcut.symm.trans heq)
      have hlt := congrArg List.length (hcut.symm.trans heq)
      simp only [List.length_append, List.length_cons, List.length_nil] at hlt
      simp only [List.getElem?_append_right (Nat.le_refl _), Nat.sub_self, List.getElem?_cons_zero]
        at hget
      rw [List.getElem?_append_left (by omega)] at hget
      exact List.mem_of_getElem? hget.symm
    obtain ⟨text, rfl, htext⟩ := hinit raw hmem
    exact splitEnding_concat htext

end

theorem lineAt_eq_count (offset : Nat) (cs : List Char) :
    lineAt offset (lines cs) = ((bytes cs).take offset).count 0x0A := by
  rw [count_take_bytes]
  conv_lhs => rw [← append_splitFloor offset cs]
  exact lineAt_of_seam (width_splitFloor_le offset cs) fun c => lt_of_mem_head?_splitFloor

theorem lineAt_of_width_le {offset : Nat} {cs : List Char} (h : width cs ≤ offset) :
    lineAt offset (lines cs) + 1 = (lines cs).length := by
  rw [← length_bytes] at h
  rw [lineAt_eq_count, List.take_of_length_le h, count_feed_bytes, length_lines]

end Text

namespace Revision

/-- The lines of a revision and the line of each offset are those of the bytes of its text. -/
structure IsIndexed (r : Revision) : Prop where
  follow : Line.Follow 0 0 r.lines r.length
  slice_text : ∀ l ∈ r.lines, r.slice l.range = .ok l.text ∧ '\n' ∉ l.text
  slice_ending : ∀ l ∈ r.lines, r.slice ⟨l.stop, l.next⟩ = .ok l.ending
  ending_eq : ∀ l ∈ r.lines, if l.number + 1 = r.lineCount then l.ending = []
    else l.ending = ['\r', '\n'] ∨ l.ending = ['\n'] ∧ l.text.getLast? ≠ some '\r'
  lineAt_eq : ∀ offset,
    r.lineAt offset = ((Text.bytes r.chars).take (min offset r.length)).count 0x0A
  exists_unique : ∀ offset < r.length, ∃ l, r.line? (r.lineAt offset) = some l ∧
    l.whole.Contains offset ∧ ∀ l' ∈ r.lines, l'.whole.Contains offset → l' = l
  lineAt_of_le : ∀ offset, r.length ≤ offset → r.lineAt offset + 1 = r.lineCount

theorem isIndexed (r : Revision) : r.IsIndexed := by
  have hget {l : Line} (hl : l ∈ r.lines) : (Text.lines r.chars)[l.number]? = some l := by
    obtain ⟨i, hi⟩ := List.mem_iff_getElem?.1 hl
    rwa [Text.number_of_getElem?_lines hi]
  constructor
  case follow =>
    have hplace := Line.follow_place 0 0 (Text.cutLines r.chars)
    rwa [Text.flatten_cutLines, Nat.zero_add] at hplace
  case slice_text =>
    intro l hl
    obtain ⟨before, after, hchars, hstart⟩ := Text.exists_append_of_getElem?_lines (hget hl)
    refine ⟨?_, Text.feed_not_mem_text_of_mem_lines hl⟩
    rw [Line.range, Line.stop, ← hstart]
    exact slice_of_chars_eq hchars
  case slice_ending =>
    intro l hl
    obtain ⟨before, after, hchars, hstart⟩ := Text.exists_append_of_getElem?_lines (hget hl)
    rw [← List.append_assoc] at hchars
    rw [Line.next, Line.stop, ← hstart, ← Text.width_append]
    exact slice_of_chars_eq hchars
  case ending_eq => exact fun l hl => Text.ending_of_getElem?_lines (hget hl)
  case lineAt_eq =>
    intro offset
    rw [lineAt, lines, Text.lineAt_eq_count, length, ← Text.length_bytes, ← List.take_eq_take_min]
  case exists_unique =>
    intro offset hoffset
    have hline := List.getElem?_eq_getElem (Text.lineAt_lt_length_lines offset r.chars)
    refine ⟨_, hline, (Text.whole_contains_iff hline hoffset).2 rfl, ?_⟩
    intro l hl hcontains
    have hnumber := (Text.whole_contains_iff (hget hl) hoffset).1 hcontains
    have hsame := hget hl
    rw [← hnumber, hline] at hsame
    exact (Option.some.inj hsame).symm
  case lineAt_of_le => exact fun _ => Text.lineAt_of_width_le

end Revision

end SqlHighlight
