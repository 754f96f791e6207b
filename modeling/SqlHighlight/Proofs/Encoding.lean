import SqlHighlight.Text.Bytes

/-! Texts as bytes. A character of ASCII is one byte, and no byte of another character looks like one,
so that marks of ASCII are found among the bytes exactly where they are found among the characters. -/

namespace SqlHighlight.Text

theorem bytes_cons (c : Char) (cs : List Char) :
    bytes (c :: cs) = String.utf8EncodeChar c ++ bytes cs := List.flatMap_cons

theorem bytes_injective {cs ds : List Char} (h : bytes cs = bytes ds) : cs = ds := by
  have hencode : cs.utf8Encode = ds.utf8Encode := congrArg List.toByteArray h
  have hdecode := congrArg ByteArray.utf8Decode? hencode
  rw [List.utf8Decode?_utf8Encode, List.utf8Decode?_utf8Encode] at hdecode
  exact List.toArray_inj (Option.some.inj hdecode)

theorem utf8Size_of_lt {c : Char} (h : c.toNat < 0x80) : c.utf8Size = 1 := by
  rw [Char.utf8Size_eq_one_iff, UInt32.le_iff_toNat_le]
  exact Nat.le_of_lt_succ h

theorem utf8EncodeChar_of_lt {c : Char} (h : c.toNat < 0x80) :
    String.utf8EncodeChar c = [c.toUInt8] :=
  String.utf8EncodeChar_eq_singleton (utf8Size_of_lt h)

theorem width_of_lt {cs : List Char} (h : ∀ c ∈ cs, c.toNat < 0x80) : width cs = cs.length := by
  induction cs with
  | nil => rfl
  | cons c cs ih =>
    rw [List.forall_mem_cons] at h
    rw [width_cons, utf8Size_of_lt h.1, ih h.2, List.length_cons, Nat.add_comm]

theorem bytes_cons_of_lt {c : Char} (h : c.toNat < 0x80) (cs : List Char) :
    bytes (c :: cs) = c.toUInt8 :: bytes cs := by
  rw [bytes_cons, utf8EncodeChar_of_lt h]
  rfl

theorem toNat_toUInt8_of_lt {c : Char} (h : c.toNat < 0x80) : c.toUInt8.toNat = c.toNat :=
  Nat.mod_eq_of_lt (Nat.lt_trans h (by decide))

theorem toUInt8_inj {c d : Char} (hc : c.toNat < 0x80) (hd : d.toNat < 0x80) :
    c.toUInt8 = d.toUInt8 ↔ c = d := by
  rw [← UInt8.toNat_inj, toNat_toUInt8_of_lt hc, toNat_toUInt8_of_lt hd, Char.toNat_inj]

/-- The first byte of a character is as high as the character, and the others are always high. -/
theorem exists_utf8EncodeChar_eq_cons (c : Char) :
    ∃ b bs, String.utf8EncodeChar c = b :: bs ∧ (0x80 ≤ c.toNat → 0x80 ≤ b.toNat) ∧
      ∀ b' ∈ bs, 0x80 ≤ b'.toNat := by
  unfold String.utf8EncodeChar
  simp only
  split
  next h =>
    refine ⟨_, [], rfl, fun hle => ?_, by simp⟩
    exact absurd h (Nat.not_le.2 hle)
  next =>
    split
    · refine ⟨_, _, rfl, fun _ => ?_, ?_⟩
      · rw [UInt8.toNat_ofNat']
        omega
      · simp only [List.mem_cons, List.not_mem_nil, or_false, forall_eq, UInt8.toNat_ofNat']
        omega
    · split
      · refine ⟨_, _, rfl, fun _ => ?_, ?_⟩
        · rw [UInt8.toNat_ofNat']
          omega
        · simp only [List.mem_cons, List.not_mem_nil, or_false, forall_eq_or_imp, forall_eq,
            UInt8.toNat_ofNat']
          omega
      · refine ⟨_, _, rfl, fun _ => ?_, ?_⟩
        · rw [UInt8.toNat_ofNat']
          omega
        · simp only [List.mem_cons, List.not_mem_nil, or_false, forall_eq_or_imp, forall_eq,
            UInt8.toNat_ofNat']
          omega

theorem le_of_mem_utf8EncodeChar {c : Char} {b : UInt8} (hc : 0x80 ≤ c.toNat)
    (hb : b ∈ String.utf8EncodeChar c) : 0x80 ≤ b.toNat := by
  obtain ⟨d, bs, hcons, hd, hbs⟩ := exists_utf8EncodeChar_eq_cons c
  rw [hcons] at hb
  rcases List.mem_cons.1 hb with rfl | hb
  · exact hd hc
  · exact hbs b hb

theorem head?_bytes_cons_eq_iff {a : Char} (ha : a.toNat < 0x80) (c : Char) (cs : List Char) :
    (bytes (c :: cs)).head? = some a.toUInt8 ↔ c = a := by
  by_cases hc : c.toNat < 0x80
  · rw [bytes_cons_of_lt hc, List.head?_cons, Option.some_inj, toUInt8_inj hc ha]
  · obtain ⟨b, bs, hcons, hb, -⟩ := exists_utf8EncodeChar_eq_cons c
    have hb := hb (Nat.not_lt.1 hc)
    rw [bytes_cons, hcons, List.cons_append, List.head?_cons, Option.some_inj]
    constructor
    · rintro rfl
      rw [toNat_toUInt8_of_lt ha] at hb
      exact absurd hb (Nat.not_le.2 ha)
    · rintro rfl
      exact absurd ha hc

theorem isPrefixOf_bytes {mark : List Char} (h : ∀ c ∈ mark, c.toNat < 0x80) (cs : List Char) :
    (bytes mark).isPrefixOf (bytes cs) = mark.isPrefixOf cs := by
  induction mark generalizing cs with
  | nil => simp [bytes]
  | cons m mark ih =>
    rw [List.forall_mem_cons] at h
    rw [bytes_cons_of_lt h.1]
    cases cs with
    | nil => rfl
    | cons c cs =>
      by_cases hc : c = m
      · subst hc
        simp [bytes_cons_of_lt h.1, List.isPrefixOf, ih h.2]
      · have hhead := mt (head?_bytes_cons_eq_iff h.1 c cs).1 hc
        obtain ⟨b, bs, hcons, -⟩ := exists_utf8EncodeChar_eq_cons c
        rw [bytes_cons, hcons, List.cons_append] at hhead ⊢
        rw [List.head?_cons, Option.some_inj] at hhead
        rw [List.isPrefixOf, List.isPrefixOf, beq_false_of_ne (Ne.symm hhead),
          beq_false_of_ne (Ne.symm hc), Bool.false_and, Bool.false_and]

end SqlHighlight.Text
