import Mathlib.Data.List.TakeWhile
import SqlHighlight.Proofs.Independence

namespace SqlHighlight.Gate

def isIdentifierByte (b : UInt8) : Bool := isIdentifierChar (Char.ofUInt8 b)

theorem toNat_lt_of_isAlphanum {c : Char} (h : c.isAlphanum = true) : c.toNat < 0x80 := by
  change (decide ('A'.val ≤ c.val ∧ c.val ≤ 'Z'.val) ||
    (decide ('a'.val ≤ c.val) && decide (c.val ≤ 'z'.val)) ||
    (decide ('0'.val ≤ c.val) && decide (c.val ≤ '9'.val))) = true at h
  simp only [Bool.or_eq_true, Bool.and_eq_true, decide_eq_true_eq, UInt32.le_iff_toNat_le] at h
  change c.val.toNat < 0x80
  rcases h with (⟨-, h⟩ | ⟨-, h⟩) | ⟨-, h⟩
  · exact Nat.lt_of_le_of_lt h (by decide)
  · exact Nat.lt_of_le_of_lt h (by decide)
  · exact Nat.lt_of_le_of_lt h (by decide)

theorem toNat_lt_of_isIdentifierChar {c : Char} (h : isIdentifierChar c = true) :
    c.toNat < 0x80 := by
  simp only [isIdentifierChar, Bool.or_eq_true, beq_iff_eq] at h
  rcases h with (((h | rfl) | rfl) | rfl) | rfl
  · exact toNat_lt_of_isAlphanum h
  · decide
  · decide
  · decide
  · decide

theorem toNat_ofUInt8 (b : UInt8) : (Char.ofUInt8 b).toNat = b.toNat := UInt8.toNat_toUInt32 b

theorem isIdentifierByte_toUInt8 {c : Char} (h : c.toNat < 0x80) :
    isIdentifierByte c.toUInt8 = isIdentifierChar c := by
  have hbyte : Char.ofUInt8 c.toUInt8 = c := by
    rw [← Char.toNat_inj, toNat_ofUInt8, Text.toNat_toUInt8_of_lt h]
  rw [isIdentifierByte, hbyte]

theorem isIdentifierByte_eq_false {b : UInt8} (h : 0x80 ≤ b.toNat) : isIdentifierByte b = false := by
  rw [isIdentifierByte, Bool.eq_false_iff]
  intro hb
  have hlt := toNat_lt_of_isIdentifierChar hb
  rw [toNat_ofUInt8] at hlt
  exact Nat.not_le.2 hlt h

theorem takeWhile_utf8EncodeChar (c : Char) :
    (String.utf8EncodeChar c).takeWhile isIdentifierByte =
      if isIdentifierChar c then String.utf8EncodeChar c else [] := by
  by_cases hlt : c.toNat < 0x80
  · rw [Text.utf8EncodeChar_of_lt hlt, List.takeWhile_cons, isIdentifierByte_toUInt8 hlt]
    rfl
  · have hc : isIdentifierChar c = false := Bool.eq_false_iff.2 fun hc => hlt (toNat_lt_of_isIdentifierChar hc)
    obtain ⟨b, bs, hcons, hb, -⟩ := Text.exists_utf8EncodeChar_eq_cons c
    rw [hc, hcons, List.takeWhile_cons, isIdentifierByte_eq_false (hb (Nat.not_lt.1 hlt))]
    rfl

theorem takeWhile_bytes (cs : List Char) :
    (Text.bytes cs).takeWhile isIdentifierByte = Text.bytes (cs.takeWhile isIdentifierChar) := by
  induction cs with
  | nil => rfl
  | cons c cs ih =>
    change (String.utf8EncodeChar c ++ Text.bytes cs).takeWhile _ = _
    rw [List.takeWhile_append, takeWhile_utf8EncodeChar, List.takeWhile_cons]
    cases isIdentifierChar c with
    | true =>
      rw [if_pos rfl, if_pos rfl, if_pos rfl, ih]
      rfl
    | false =>
      have hpos : (0 : Nat) ≠ (String.utf8EncodeChar c).length := by
        rw [String.length_utf8EncodeChar]
        exact Nat.ne_of_lt c.utf8Size_pos
      exact if_neg hpos

theorem isIdentifierChar_of_mem {cs : List Char}
    (h : ∀ b ∈ Text.bytes cs, isIdentifierByte b = true) : ∀ c ∈ cs, isIdentifierChar c = true := by
  have hall : (Text.bytes cs).takeWhile isIdentifierByte = Text.bytes cs :=
    List.takeWhile_eq_self_iff.2 h
  rw [takeWhile_bytes] at hall
  exact List.takeWhile_eq_self_iff.1 (Text.bytes_injective hall)

theorem startsWithWord_iff_takeWhile {word : List Char} (h : ∀ c ∈ word, isIdentifierChar c = true)
    (text : List Char) :
    startsWithWord word text = true ↔ word = text.takeWhile isIdentifierChar := by
  induction word generalizing text with
  | nil =>
    cases text with
    | nil => simp [startsWithWord]
    | cons c text => simp [startsWithWord, List.takeWhile_cons]
  | cons w word ih =>
    rw [List.forall_mem_cons] at h
    cases text with
    | nil => simp [startsWithWord]
    | cons c text =>
      have hrest := ih h.2 text
      rw [startsWithWord, Bool.and_eq_true] at hrest
      rw [startsWithWord, List.isPrefixOf, Bool.and_eq_true, Bool.and_eq_true, and_assoc,
        List.length_cons, List.drop_succ_cons, hrest, beq_iff_eq, List.takeWhile_cons]
      constructor
      · rintro ⟨rfl, hword⟩
        rw [if_pos h.1, ← hword]
      · intro heq
        split at heq
        · exact List.cons.inj heq
        · cases heq

def isIdentifier (word : String) : Bool := (Text.bytes word.toList).all isIdentifierByte

theorem startsWithWord_iff_of_isIdentifier {word : String} (h : isIdentifier word = true)
    (text : List Char) :
    startsWithWord word.toList text = true ↔
      Text.bytes word.toList = (Text.bytes text).takeWhile isIdentifierByte := by
  rw [startsWithWord_iff_takeWhile (isIdentifierChar_of_mem (List.all_eq_true.1 h)), takeWhile_bytes]
  exact ⟨congrArg Text.bytes, Text.bytes_injective⟩

theorem eq_of_startsWithWord {word word' : String} {text : List Char}
    (hword : isIdentifier word = true) (hword' : isIdentifier word' = true)
    (h : startsWithWord word.toList text = true) (h' : startsWithWord word'.toList text = true) :
    word = word' := by
  rw [startsWithWord_iff_of_isIdentifier hword] at h
  rw [startsWithWord_iff_of_isIdentifier hword'] at h'
  exact String.toList_inj.1 (Text.bytes_injective (h.trans h'.symm))

section

variable {words : List String}

theorem startsWithWord_of_startKeyword? {text : List Char} {word : String}
    (h : startKeyword? words text = some word) :
    word ∈ words ∧ startsWithWord word.toList (Text.trimStart text) = true := by
  have hstarts := List.find?_some h
  exact ⟨List.mem_of_find?_eq_some h, hstarts⟩

theorem startKeyword?_eq_some_iff (hwords : ∀ word ∈ words, isIdentifier word = true) (text : List Char)
    (word : String) :
    startKeyword? words text = some word ↔
      word ∈ words ∧ startsWithWord word.toList (Text.trimStart text) = true := by
  constructor
  · exact startsWithWord_of_startKeyword?
  · rintro ⟨hword, hstarts⟩
    cases hfound : startKeyword? words text with
    | none => exact absurd hstarts (List.find?_eq_none.1 hfound word hword)
    | some first =>
      obtain ⟨hfirst, hfirstStarts⟩ := startsWithWord_of_startKeyword? hfound
      rw [eq_of_startsWithWord (hwords first hfirst) (hwords word hword) hfirstStarts hstarts]

theorem startKeyword?_eq_run (hwords : ∀ word ∈ words, isIdentifier word = true) (text : List Char) :
    (∀ word, startKeyword? words text = some word ↔ word ∈ words ∧
      Text.bytes word.toList = (Text.bytes (Text.trimStart text)).takeWhile isIdentifierByte) ∧
    (∀ word ∈ words, ∀ word' ∈ words,
      startsWithWord word.toList (Text.trimStart text) = true →
        startsWithWord word'.toList (Text.trimStart text) = true → word = word') ∧
    ∀ words' : List String, (∀ word, word ∈ words' ↔ word ∈ words) →
      startKeyword? words' text = startKeyword? words text := by
  refine ⟨?_, ?_, ?_⟩
  · intro word
    rw [startKeyword?_eq_some_iff hwords]
    exact and_congr_right fun hword => startsWithWord_iff_of_isIdentifier (hwords word hword) _
  · intro word hword word' hword'
    exact eq_of_startsWithWord (hwords word hword) (hwords word' hword')
  · intro words' hsame
    have hwords' : ∀ word ∈ words', isIdentifier word = true :=
      fun word hword => hwords word ((hsame word).1 hword)
    apply Option.ext
    intro word
    rw [startKeyword?_eq_some_iff hwords', startKeyword?_eq_some_iff hwords, hsame]

theorem startKeyword?_eq_run_nested :
    (∀ word ∈ ["EXEC", "EXECUTE"], isIdentifier word = true) ∧
      startKeyword? ["EXEC", "EXECUTE"] " \u3000EXECUTE\u00e9 EXEC".toList = some "EXECUTE" ∧
      startKeyword? ["EXECUTE", "EXEC", "EXECUTE"] " \u3000EXECUTE\u00e9 EXEC".toList =
        startKeyword? ["EXEC", "EXECUTE"] " \u3000EXECUTE\u00e9 EXEC".toList := by
  have hwords : ∀ word ∈ ["EXEC", "EXECUTE"], isIdentifier word = true := by decide
  obtain ⟨hiff, -, hsame⟩ := startKeyword?_eq_run hwords " \u3000EXECUTE\u00e9 EXEC".toList
  exact ⟨hwords, (hiff "EXECUTE").2 ⟨by decide, by decide⟩, hsame _ (by simp)⟩

end

end SqlHighlight.Gate
