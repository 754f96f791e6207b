import Mathlib.Data.List.Find
import SqlHighlight.Proofs.Boundary
import SqlHighlight.Proofs.Encoding
import SqlHighlight.Proofs.Spans

namespace SqlHighlight

namespace Text

theorem exists_eq_append_of_width_le {as bs cs ds : List Char} (h : as ++ bs = cs ++ ds)
    (hle : width as ≤ width cs) : ∃ between, cs = as ++ between ∧ bs = between ++ ds := by
  rcases List.append_eq_append_iff.1 h with ⟨es, rfl, rfl⟩ | ⟨es, rfl, rfl⟩
  · exact ⟨es, rfl, rfl⟩
  · obtain rfl : es = [] := width_eq_zero.1 (by rw [width_append] at hle; omega)
    exact ⟨[], by simp, rfl⟩

end Text

namespace Gate

theorem isPrefixOf_append_brace {word : List Char} (h : '{' ∉ word) (text rest : List Char) :
    word.isPrefixOf (text ++ '{' :: rest) = word.isPrefixOf text := by
  induction word generalizing text with
  | nil => simp
  | cons w word ih =>
    rw [List.mem_cons, not_or] at h
    cases text with
    | nil => simp [List.isPrefixOf, Ne.symm h.1]
    | cons c text => simp [List.isPrefixOf, ih h.2]

theorem startsWithWord_append_brace {word : List Char} (h : '{' ∉ word) (text rest : List Char) :
    startsWithWord word (text ++ '{' :: rest) = startsWithWord word text := by
  rw [startsWithWord, startsWithWord, isPrefixOf_append_brace h]
  cases hword : word.isPrefixOf text with
  | false => rfl
  | true =>
    have hle := (List.isPrefixOf_iff_prefix.1 hword).length_le
    rw [List.drop_append_of_le_length hle]
    -- At the end of the text before the brace, the brace ends the word as well.
    cases text.drop word.length with
    | nil =>
      have hbrace : isIdentifierChar '{' = false := by decide
      simp [hbrace]
    | cons c cs => rfl

theorem trimStart_append_brace (text rest : List Char) :
    Text.trimStart (text ++ '{' :: rest) = Text.trimStart text ++ '{' :: rest := by
  rw [Text.trimStart, List.dropWhile_append]
  split
  · next hblank =>
    rw [List.isEmpty_iff] at hblank
    rw [Text.trimStart, hblank, List.dropWhile_cons_of_neg (by decide)]
    rfl
  · rfl

theorem startKeyword?_append_brace {words : List String} (h : ∀ word ∈ words, '{' ∉ word.toList)
    (text rest : List Char) :
    startKeyword? words (text ++ '{' :: rest) = startKeyword? words text := by
  rw [startKeyword?, startKeyword?, trimStart_append_brace]
  apply List.find?_congr
  intro word hword
  exact startsWithWord_append_brace (h word hword) _ rest

end Gate

namespace Holes

section

variable {filler : Char} {offset : Nat} {hole : Range} {holes : List Range} {rest : List Char}

theorem endingAfter_cons_of_lt (h : offset < hole.stop) :
    endingAfter offset (hole :: holes) = hole :: holes :=
  List.dropWhile_cons_of_neg (by simpa using h)

theorem fillFrom_append_outside (before : List Char)
    (hle : offset + Text.width before ≤ hole.start) (hlt : hole.start < hole.stop) :
    fillFrom filler offset (hole :: holes) (before ++ rest) =
      before ++ fillFrom filler (offset + Text.width before) (hole :: holes) rest := by
  induction before generalizing offset with
  | nil => rfl
  | cons c before ih =>
    have hc := c.utf8Size_pos
    rw [Text.width_cons, ← Nat.add_assoc] at hle ⊢
    have hout : hasStarted offset (hole :: holes) = false := decide_eq_false (by omega)
    rw [List.cons_append, fillFrom, endingAfter_cons_of_lt (by omega), hout, ih hle]
    rfl

theorem fillFrom_append_inside (inside : List Char) (hstart : hole.start ≤ offset)
    (hstop : offset + Text.width inside ≤ hole.stop) :
    fillFrom filler offset (hole :: holes) (inside ++ rest) =
      List.replicate (Text.width inside) filler ++
        fillFrom filler (offset + Text.width inside) (hole :: holes) rest := by
  induction inside generalizing offset with
  | nil => rfl
  | cons c inside ih =>
    have hc := c.utf8Size_pos
    rw [Text.width_cons, ← Nat.add_assoc] at hstop ⊢
    have hin : hasStarted offset (hole :: holes) = true := decide_eq_true hstart
    rw [List.cons_append, fillFrom, endingAfter_cons_of_lt (by omega), hin, if_pos rfl,
      ih (Nat.le_trans hstart (Nat.le_add_right _ _)) hstop, List.replicate_add, List.append_assoc]

theorem fillFrom_of_stop_le (h : hole.stop ≤ offset) (cs : List Char) :
    fillFrom filler offset (hole :: holes) cs = fillFrom filler offset holes cs := by
  cases cs with
  | nil => rfl
  | cons c cs =>
    have hdrop : endingAfter offset (hole :: holes) = endingAfter offset holes :=
      List.dropWhile_cons_of_pos (by simpa using h)
    rw [fillFrom, fillFrom, hdrop]

end

def Braced (text : List Char) (hole : Range) : Prop :=
  ∃ inside, Text.slice hole.start hole.stop text = .ok ('{' :: inside)

/-- Texts from an offset on with the same bytes wherever there is no hole. -/
def AgreeOutside (offset : Nat) (holes : List Range) (s t : List Char) : Prop :=
  ∀ i, (∀ hole ∈ holes, ¬ hole.Contains (offset + i)) → (Text.bytes s)[i]? = (Text.bytes t)[i]?

/-- Texts from an offset on that are the same but for what is in their holes, behind the braces. -/
inductive SameAround : Nat → List Range → List Char → List Char → Prop
  | nil (offset : Nat) (text : List Char) : SameAround offset [] text text
  | cons {offset : Nat} {hole : Range} {holes : List Range}
      {before inside inside' rest rest' : List Char}
      (hstart : offset + Text.width before = hole.start)
      (hstop : hole.start + Text.width ('{' :: inside) = hole.stop)
      (hwidth : Text.width ('{' :: inside') = Text.width ('{' :: inside))
      (h : SameAround hole.stop holes rest rest') :
      SameAround offset (hole :: holes) (before ++ ('{' :: inside ++ rest))
        (before ++ ('{' :: inside' ++ rest'))

namespace SameAround

variable {offset : Nat} {holes : List Range} {s t : List Char}

theorem startKeyword?_eq (h : SameAround offset holes s t) {words : List String}
    (hwords : ∀ word ∈ words, '{' ∉ word.toList) :
    Gate.startKeyword? words s = Gate.startKeyword? words t := by
  cases h with
  | nil => rfl
  | cons =>
    rw [List.cons_append, List.cons_append, Gate.startKeyword?_append_brace hwords,
      Gate.startKeyword?_append_brace hwords]

theorem fillFrom_eq (h : SameAround offset holes s t) (filler : Char) :
    fillFrom filler offset holes s = fillFrom filler offset holes t := by
  induction h with
  | nil => rfl
  | @cons offset hole holes before inside inside' rest rest' hstart hstop hwidth _ ih =>
    have hpos : 0 < Text.width ('{' :: inside) := Text.width_pos
    -- Each text is filled up to the end of its hole, which is the same offset in both.
    have hfill {inside rest : List Char}
        (hstop : hole.start + Text.width ('{' :: inside) = hole.stop) :
        fillFrom filler offset (hole :: holes) (before ++ ('{' :: inside ++ rest)) =
          before ++ (List.replicate (hole.stop - hole.start) filler ++
            fillFrom filler hole.stop holes rest) := by
      rw [fillFrom_append_outside before (Nat.le_of_eq hstart) (by omega), hstart,
        fillFrom_append_inside _ (Nat.le_refl _) (Nat.le_of_eq hstop), hstop,
        fillFrom_of_stop_le (Nat.le_refl _), ← hstop, Nat.add_sub_cancel_left]
    rw [hfill hstop, hfill (hwidth ▸ hstop), ih]

end SameAround

section

variable {holes : List Range} {as s t : List Char} {upper : Nat}

theorem Braced.inside {hole : Range} (h : Braced s hole) :
    0 ≤ hole.start ∧ hole.start ≤ hole.stop ∧ hole.stop ≤ Text.width s := by
  obtain ⟨inside, hslice⟩ := h
  obtain ⟨before, after, rfl, hstart, hstop⟩ := Text.slice_eq_ok_iff.1 hslice
  rw [Text.width_append, Text.width_append]
  omega

theorem Braced.exists_append {hole : Range} (h : Braced (as ++ s) hole)
    (hle : Text.width as ≤ hole.start) :
    ∃ before inside rest, s = before ++ ('{' :: inside ++ rest) ∧
      Text.width as + Text.width before = hole.start ∧
      hole.start + Text.width ('{' :: inside) = hole.stop := by
  obtain ⟨inside, hslice⟩ := h
  obtain ⟨upto, rest, heq, hstart, hstop⟩ := Text.slice_eq_ok_iff.1 hslice
  obtain ⟨before, rfl, rfl⟩ := Text.exists_eq_append_of_width_le heq (by omega)
  rw [Text.width_append] at hstart
  exact ⟨before, inside, rest, rfl, hstart, hstop⟩

theorem getElem?_bytes_append (as s : List Char) (i : Nat) :
    (Text.bytes (as ++ s))[Text.width as + i]? = (Text.bytes s)[i]? := by
  rw [Text.bytes_append, List.getElem?_append_right (by simp)]
  simp

theorem AgreeOutside.before_eq {offset : Nat} {before before' : List Char}
    (h : AgreeOutside offset holes (before ++ s) (before' ++ t))
    (hwidth : Text.width before' = Text.width before)
    (hstart : ∀ hole ∈ holes, offset + Text.width before ≤ hole.start) : before = before' := by
  apply Text.bytes_injective
  apply List.ext_getElem?
  intro i
  rcases Nat.lt_or_ge i (Text.width before) with hi | hi
  · have hout : ∀ hole ∈ holes, ¬ hole.Contains (offset + i) := by
      intro hole hmem hcontains
      have := hstart hole hmem
      have := hcontains.1
      omega
    have hbyte := h i hout
    rwa [Text.bytes_append, Text.bytes_append, List.getElem?_append_left (by simpa using hi),
      List.getElem?_append_left (by simpa [hwidth] using hi)] at hbyte
  · rw [List.getElem?_eq_none (by simpa using hi), List.getElem?_eq_none (by simpa [hwidth] using hi)]

theorem AgreeOutside.behind {offset : Nat} {hole : Range} {xs ys : List Char}
    (h : AgreeOutside offset (hole :: holes) (xs ++ s) (ys ++ t))
    (hwidth : Text.width ys = Text.width xs) (hstop : offset + Text.width xs = hole.stop) :
    AgreeOutside hole.stop holes s t := by
  intro i hout
  have hbyte := h (Text.width xs + i) ?_
  · rwa [getElem?_bytes_append, ← hwidth, getElem?_bytes_append] at hbyte
  · rw [← Nat.add_assoc, hstop]
    refine List.forall_mem_cons.2 ⟨fun hcontains => ?_, hout⟩
    exact Nat.not_lt.2 (Nat.le_add_right _ i) hcontains.2

theorem sameAround_of_agree (as as' : List Char) (hwidth : Text.width as' = Text.width as)
    (hsorted : Range.InOrder (Text.width as) holes upper)
    (hs : ∀ hole ∈ holes, Braced (as ++ s) hole) (ht : ∀ hole ∈ holes, Braced (as' ++ t) hole)
    (hagree : AgreeOutside (Text.width as) holes s t) :
    SameAround (Text.width as) holes s t := by
  induction holes generalizing as as' s t with
  | nil =>
    obtain rfl : s = t := Text.bytes_injective (List.ext_getElem? fun i => hagree i (by simp))
    exact .nil _ s
  | cons hole holes ih =>
    obtain ⟨hle, hne, hlater⟩ := hsorted
    obtain ⟨before, inside, rest, rfl, hstart, hstop⟩ :=
      (hs hole List.mem_cons_self).exists_append hle
    obtain ⟨before', inside', rest', rfl, hstart', hstop'⟩ :=
      (ht hole List.mem_cons_self).exists_append (hwidth ▸ hle)
    obtain rfl : before = before' := by
      apply hagree.before_eq (by omega)
      refine List.forall_mem_cons.2 ⟨Nat.le_of_eq hstart, fun h hmem => ?_⟩
      exact Nat.le_trans (by omega) (hlater.of_mem hmem).1
    have hnext {as inside : List Char} (hstart : Text.width as + Text.width before = hole.start)
        (hstop : hole.start + Text.width ('{' :: inside) = hole.stop) :
        Text.width as + Text.width (before ++ '{' :: inside) = hole.stop := by
      rw [Text.width_append]
      omega
    have hnow := hnext hstart hstop
    have hnow' := hnext hstart' hstop'
    rw [← List.append_assoc before, ← List.append_assoc before] at hagree
    have hrest := hagree.behind (by omega) hnow
    rw [← List.append_assoc before, ← List.append_assoc] at hs ht
    have hends : Text.width (as' ++ (before ++ '{' :: inside')) =
        Text.width (as ++ (before ++ '{' :: inside)) := by
      rw [Text.width_append as', hnow', Text.width_append as, hnow]
    refine .cons hstart hstop (by omega) ?_
    rw [← hnow, ← Text.width_append] at hlater hrest ⊢
    apply ih _ _ hends hlater _ _ hrest
    · exact fun h hmem => hs h (List.mem_cons_of_mem hole hmem)
    · exact fun h hmem => ht h (List.mem_cons_of_mem hole hmem)

end

end Holes

namespace Classifier

theorem classifyText_eq_of_agree (c : Classifier) {holes : List Range} {s t : List Char}
    (hwords : ∀ word ∈ c.settings.startKeywords, '{' ∉ word.toList)
    (hsorted : holes.Pairwise (·.stop ≤ ·.start))
    (hs : ∀ hole ∈ holes, Holes.Braced s hole) (ht : ∀ hole ∈ holes, Holes.Braced t hole)
    (hwidth : Text.width s = Text.width t)
    (hagree : ∀ n < Text.width s, (∀ hole ∈ holes, ¬ hole.Contains n) →
      (Text.bytes s)[n]? = (Text.bytes t)[n]?) :
    c.classifyText s holes = c.classifyText t holes := by
  have hout : Holes.AgreeOutside 0 holes s t := by
    intro n hn
    rw [Nat.zero_add] at hn
    rcases Nat.lt_or_ge n (Text.width s) with hlt | hge
    · exact hagree n hlt hn
    · rw [List.getElem?_eq_none (by simpa using hge),
        List.getElem?_eq_none (by simpa [← hwidth] using hge)]
  have hin : Range.InOrder 0 holes (Text.width s) :=
    .of_pairwise hsorted (Nat.zero_le _) fun hole hhole => (hs hole hhole).inside
  have hsame : Holes.SameAround 0 holes s t := Holes.sameAround_of_agree [] [] rfl hin hs ht hout
  rw [classifyText, classifyText, hsame.startKeyword?_eq hwords, Holes.fill, Holes.fill,
    hsame.fillFrom_eq]

theorem classifyText_eq_of_agree_adjacent :
    let c : Classifier := ⟨{ emitPlain := true }, Backend.tokens.parser fun _ => none⟩
    let s := "SELECT{é}{ab} '{1}{yz}é'".toList
    let t := "SELECT{ab}{é} '{x}\x7b'z\x7dé'".toList
    let holes : List Range := [⟨6, 10⟩, ⟨10, 14⟩, ⟨16, 19⟩, ⟨19, 23⟩]
    s ≠ t ∧ Gate.startKeyword? c.settings.startKeywords s = some "SELECT" ∧
      c.classifyText s holes = c.classifyText t holes := by
  intro c s t holes
  refine ⟨by decide, by decide, ?_⟩
  have hs : ∀ hole ∈ holes, ∃ inside ∈ [['é', '}'], ['a', 'b', '}'], ['1', '}'], ['y', 'z', '}']],
      Text.slice hole.start hole.stop s = .ok ('{' :: inside) := by decide +kernel
  have ht : ∀ hole ∈ holes, ∃ inside ∈ [['a', 'b', '}'], ['é', '}'], ['x', '}'], ['\'', 'z', '}']],
      Text.slice hole.start hole.stop t = .ok ('{' :: inside) := by decide +kernel
  apply classifyText_eq_of_agree c (by decide) (by decide)
  · exact fun hole hhole => (hs hole hhole).imp fun _ h => h.2
  · exact fun hole hhole => (ht hole hhole).imp fun _ h => h.2
  · decide +kernel
  · decide +kernel

end Classifier

end SqlHighlight
