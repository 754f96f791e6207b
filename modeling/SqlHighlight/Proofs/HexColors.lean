import Mathlib.Tactic.IntervalCases
import SqlHighlight.Style.Basic

/-! Colours written in hexadecimal. Behind a number sign stand three channels, each of two digits, or
each of one that counts for two. A plus sign is let through where the first of two digits should
stand, and then counts for nothing: this is all that is read beyond what is written. -/

namespace SqlHighlight

namespace Text

def IsHexDigit (c : Char) (n : Nat) : Prop := n < 16 ∧ (c = n.digitChar ∨ c = n.digitChar.toUpper)

theorem hexDigit?_eq_some_iff {c : Char} {n : Nat} : hexDigit? c = some n ↔ IsHexDigit c n := by
  constructor
  · intro h
    simp only [hexDigit?, Bool.and_eq_true, decide_eq_true_eq, Char.le_def,
      UInt32.le_iff_toNat_le] at h
    change (if 48 ≤ c.toNat ∧ c.toNat ≤ 57 then some (c.toNat - 48)
      else if 97 ≤ c.toNat ∧ c.toNat ≤ 102 then some (c.toNat - 97 + 10)
      else if 65 ≤ c.toNat ∧ c.toNat ≤ 70 then some (c.toNat - 65 + 10) else none) = some n at h
    -- Only the character's code matters, and in each branch there are few of them.
    rw [← Char.ofNat_toNat c]
    generalize c.toNat = k at h ⊢
    unfold IsHexDigit
    split_ifs at h with digit small capital
    · obtain ⟨hlo, hhi⟩ := digit
      interval_cases k <;> cases h <;> decide
    · obtain ⟨hlo, hhi⟩ := small
      interval_cases k <;> cases h <;> decide
    · obtain ⟨hlo, hhi⟩ := capital
      interval_cases k <;> cases h <;> decide
  · rintro ⟨hn, rfl | rfl⟩
    · interval_cases n <;> rfl
    · interval_cases n <;> rfl

theorem IsHexDigit.ne_plus {c : Char} {n : Nat} (h : IsHexDigit c n) : c ≠ '+' := by
  rintro rfl
  cases hexDigit?_eq_some_iff.mpr h

end Text

namespace Color

open Text

def IsChannel (high low : Char) (n : Nat) : Prop :=
  ∃ h l, IsHexDigit high h ∧ IsHexDigit low l ∧ n = 16 * h + l

/-- What may stand behind the number sign, and the colour that it writes. -/
inductive IsWritten : List Char → Color → Prop
  | long {a b c d e f : Char} {red green blue : Nat} : IsChannel a b red → IsChannel c d green →
      IsChannel e f blue → IsWritten [a, b, c, d, e, f] (.rgb red green blue)
  | short {a b c : Char} {red green blue : Nat} : IsChannel a a red → IsChannel b b green →
      IsChannel c c blue → IsWritten [a, b, c] (.rgb red green blue)

/-- A sign that counts for nothing, turned into the digit that does. -/
def zeroSign (c : Char) : Char := if c = '+' then '0' else c

def unsigned : List Char → List Char
  | [a, b, c, d, e, f] => [zeroSign a, b, zeroSign c, d, zeroSign e, f]
  | digits => digits

theorem IsChannel.lt {high low : Char} {n : Nat} (h : IsChannel high low n) : n < 256 := by
  obtain ⟨h, l, ⟨hh, -⟩, ⟨hl, -⟩, rfl⟩ := h
  omega

theorem IsChannel.zeroSign_eq {high low : Char} {n : Nat} (h : IsChannel high low n) :
    zeroSign high = high := by
  obtain ⟨_, _, hh, -, -⟩ := h
  exact if_neg hh.ne_plus

theorem channel?_eq_some_iff {high low : Char} {n : Nat} :
    channel? high low = some n ↔ IsChannel (zeroSign high) low n := by
  have hzero : channel? high low =
      (hexDigit? low).bind fun l => (hexDigit? (zeroSign high)).map (16 * · + l) := by
    unfold channel? zeroSign
    split
    · rfl
    · simp only [Option.map_eq_bind]
      rfl
  simp only [hzero, Option.bind_eq_some_iff, Option.map_eq_some_iff, hexDigit?_eq_some_iff]
  constructor
  · rintro ⟨l, hl, h, hh, rfl⟩
    exact ⟨h, l, hh, hl, rfl⟩
  · rintro ⟨h, l, hh, hl, rfl⟩
    exact ⟨l, hl, h, hh, rfl⟩

theorem shortChannel?_eq_some_iff {c : Char} {n : Nat} :
    shortChannel? c = some n ↔ IsChannel c c n := by
  simp only [shortChannel?, Option.map_eq_some_iff]
  constructor
  · rintro ⟨d, hd, rfl⟩
    have hd := hexDigit?_eq_some_iff.mp hd
    exact ⟨d, d, hd, hd, by omega⟩
  · rintro ⟨h, l, hh, hl, rfl⟩
    have hh := hexDigit?_eq_some_iff.mpr hh
    have hl := hexDigit?_eq_some_iff.mpr hl
    obtain rfl : h = l := Option.some.inj (hh.symm.trans hl)
    exact ⟨h, hh, by omega⟩

theorem IsWritten.unsigned_eq {digits : List Char} {c : Color} (h : IsWritten digits c) :
    unsigned digits = digits := by
  cases h with
  | long ha hc he => simp only [unsigned, ha.zeroSign_eq, hc.zeroSign_eq, he.zeroSign_eq]
  | short => rfl

theorem IsWritten.lt {digits : List Char} {red green blue : Nat}
    (h : IsWritten digits (.rgb red green blue)) : red < 256 ∧ green < 256 ∧ blue < 256 := by
  cases h with
  | long hr hg hb => exact ⟨hr.lt, hg.lt, hb.lt⟩
  | short hr hg hb => exact ⟨hr.lt, hg.lt, hb.lt⟩

theorem ofHex?_eq_some_iff {digits : List Char} {c : Color} :
    ofHex? digits = some c ↔ IsWritten (unsigned digits) c := by
  constructor
  · intro h
    unfold ofHex? at h
    split at h
    · simp only [Option.bind_eq_bind, Option.bind_eq_some_iff, Option.pure_def, Option.some.injEq,
        channel?_eq_some_iff] at h
      obtain ⟨red, hr, green, hg, blue, hb, rfl⟩ := h
      exact .long hr hg hb
    · simp only [Option.bind_eq_bind, Option.bind_eq_some_iff, Option.pure_def, Option.some.injEq,
        shortChannel?_eq_some_iff] at h
      obtain ⟨red, hr, green, hg, blue, hb, rfl⟩ := h
      exact .short hr hg hb
    · cases h
  · intro h
    generalize hd : unsigned digits = written at h
    unfold unsigned at hd
    split at hd
    · subst hd
      cases h with
      | long hr hg hb =>
        simp only [ofHex?, channel?_eq_some_iff.mpr hr, channel?_eq_some_iff.mpr hg,
          channel?_eq_some_iff.mpr hb]
        rfl
    · rename_i hsix
      subst hd
      cases h with
      | long => exact absurd rfl (hsix _ _ _ _ _ _)
      | short hr hg hb =>
        simp only [ofHex?, shortChannel?_eq_some_iff.mpr hr, shortChannel?_eq_some_iff.mpr hg,
          shortChannel?_eq_some_iff.mpr hb]
        rfl

theorem parse?_of_trim {s : String} {digits : List Char} (h : trim s.toList = '#' :: digits) :
    parse? s = ofHex? digits := by
  simp only [parse?, h]

theorem parse?_eq_some_iff_isWritten {s : String} {digits : List Char}
    (h : trim s.toList = '#' :: digits) :
    (∀ c, parse? s = some c ↔ IsWritten (unsigned digits) c) ∧
      ((∀ c, parse? s = some c ↔ IsWritten digits c) ↔
        unsigned digits = digits ∨ parse? s = none) ∧
      ∀ red green blue, parse? s = some (.rgb red green blue) →
        red < 256 ∧ green < 256 ∧ blue < 256 := by
  have hread : ∀ c, parse? s = some c ↔ IsWritten (unsigned digits) c := by
    intro c
    rw [parse?_of_trim h, ofHex?_eq_some_iff]
  refine ⟨hread, ⟨fun hexact => ?_, ?_⟩, ?_⟩
  · cases hc : parse? s with
    | none => exact .inr rfl
    | some c => exact .inl ((hexact c).mp hc).unsigned_eq
  · intro hor c
    rcases hor with heq | hnone
    · rw [hread, heq]
    · -- What is written has no signs, so it would have been read.
      refine ⟨fun hc => absurd (hnone.symm.trans hc) (by simp), fun hc => ?_⟩
      rw [hread, hc.unsigned_eq]
      exact hc
  · intro red green blue hc
    exact ((hread _).mp hc).lt

theorem parse?_eq_some_iff_isWritten_signed :
    parse? " #+aBc+2 " = some (.rgb 10 188 2) ∧
      ¬ ∀ c, parse? " #+aBc+2 " = some c ↔ IsWritten "+aBc+2".toList c := by
  have htrim : trim " #+aBc+2 ".toList = '#' :: "+aBc+2".toList := by decide
  obtain ⟨-, hexact, -⟩ := parse?_eq_some_iff_isWritten htrim
  refine ⟨by decide, fun h => ?_⟩
  exact absurd (hexact.mp h) (by decide)

theorem exists_parse?_of_not_isWritten :
    trim "#+1+2+3".toList = '#' :: "+1+2+3".toList ∧
      parse? "#+1+2+3" = some (.rgb 1 2 3) ∧ ¬ ∃ c, IsWritten "+1+2+3".toList c := by
  refine ⟨by decide, by decide, ?_⟩
  rintro ⟨c, hc⟩
  exact absurd hc.unsigned_eq (by decide)

end Color

end SqlHighlight
