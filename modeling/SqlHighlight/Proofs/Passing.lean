import SqlHighlight.Proofs.Cut
import SqlHighlight.Proofs.Encoding
import SqlHighlight.Proofs.Skipping

namespace SqlHighlight.Literal

namespace Cursor

section

variable {m c : Char} (pos : Nat) (cs : List Char)

theorem peek_zero_eq_iff (hm : m.toNat < 0x80) :
    (Cursor.mk pos (Text.bytes (c :: cs))).peek 0 = m.toUInt8 ↔ c = m := by
  rw [← Text.head?_bytes_cons_eq_iff hm c cs, peek]
  obtain ⟨b, bs, hcons, -⟩ := Text.exists_utf8EncodeChar_eq_cons c
  simp [Text.bytes_cons, hcons]

theorem peek_one_eq_iff (hc : c.toNat < 0x80) (hm : m.toNat < 0x80) (hpos : 0 < m.toNat) :
    (Cursor.mk pos (Text.bytes (c :: cs))).peek 1 = m.toUInt8 ↔ cs.head? = some m := by
  rw [Text.bytes_cons_of_lt hc]
  cases cs with
  | nil =>
    have hne : (0 : UInt8) ≠ m.toUInt8 := by
      rw [Ne, ← UInt8.toNat_inj, Text.toNat_toUInt8_of_lt hm]
      exact Nat.ne_of_lt hpos
    simpa [peek, Text.bytes] using hne
  | cons d ds =>
    rw [List.head?_cons, Option.some_inj]
    exact peek_zero_eq_iff pos ds hm

theorem sees_bytes (mark : List Char) (h : ∀ m ∈ mark, m.toNat < 0x80) :
    (Cursor.mk pos (Text.bytes cs)).sees mark = mark.isPrefixOf cs :=
  Text.isPrefixOf_bytes h cs

@[simp] theorem advance_cons (b : UInt8) (bs : List UInt8) (n : Nat) :
    (Cursor.mk pos (b :: bs)).advance (n + 1) = (Cursor.mk (pos + 1) bs).advance n := by
  simp only [advance, List.length_cons, List.drop_succ_cons, mk.injEq, and_true]
  omega

@[simp] theorem advance_zero (bs : List UInt8) :
    (Cursor.mk pos bs).advance 0 = ⟨pos, bs⟩ := by
  simp [advance]

theorem advance_bytes (mark : List Char) (h : ∀ m ∈ mark, m.toNat < 0x80) :
    (Cursor.mk pos (Text.bytes (mark ++ cs))).advance mark.length =
      ⟨pos + mark.length, Text.bytes cs⟩ := by
  induction mark generalizing pos with
  | nil => exact advance_zero pos _
  | cons m ms ih =>
    rw [List.forall_mem_cons] at h
    rw [List.cons_append, Text.bytes_cons_of_lt h.1, List.length_cons, advance_cons, ih _ h.2,
      Nat.add_right_comm]
    rfl

theorem advance_one_of_lt (hc : c.toNat < 0x80) :
    (Cursor.mk pos (Text.bytes (c :: cs))).advance 1 = ⟨pos + 1, Text.bytes cs⟩ := by
  rw [Text.bytes_cons_of_lt hc, advance_cons, advance_zero]

theorem eq_mk_of_ahead_eq {c : Cursor} {bs : List UInt8} (h : c.ahead = bs) : c = ⟨c.pos, bs⟩ := by
  subst h
  rfl

theorem not_atEnd_bytes_cons (c : Char) : ¬ (Cursor.mk pos (Text.bytes (c :: cs))).atEnd := by
  obtain ⟨b, bs, hcons, -⟩ := Text.exists_utf8EncodeChar_eq_cons c
  simp [atEnd, Text.bytes_cons, hcons]

theorem advance_length (c : Cursor) :
    c.advance c.ahead.length = ⟨c.pos + c.ahead.length, []⟩ := by
  simp [advance]

theorem advance_length_advance (c : Cursor) (n : Nat) :
    (c.advance n).advance (c.advance n).ahead.length = c.advance c.ahead.length := by
  rw [advance_length, advance_length]
  exact congrArg (mk · []) (Onward.advance c n).pos_add_length

/-- Reading that pays no heed to the bytes of characters beyond ASCII. -/
def Passes {α : Type} (read : Cursor → α) : Prop :=
  ∀ (pos : Nat) (b : UInt8) (bs : List UInt8), 0x80 ≤ b.toNat → read ⟨pos, b :: bs⟩ = read ⟨pos + 1, bs⟩

end

namespace Passes

variable {α : Type} {read : Cursor → α} (h : Passes read) (pos : Nat)

include h

theorem append {bs : List UInt8} (hbs : ∀ b ∈ bs, 0x80 ≤ b.toNat) (rest : List UInt8) :
    read ⟨pos, bs ++ rest⟩ = read ⟨pos + bs.length, rest⟩ := by
  induction bs generalizing pos with
  | nil => rfl
  | cons b bs ih =>
    rw [List.forall_mem_cons] at hbs
    rw [List.cons_append, h pos b _ hbs.1, ih _ hbs.2, List.length_cons, Nat.add_assoc,
      Nat.add_comm 1]

theorem advance_one (c : Char) (cs : List Char) :
    read ((Cursor.mk pos (Text.bytes (c :: cs))).advance 1) =
      read ⟨pos + c.utf8Size, Text.bytes cs⟩ := by
  obtain ⟨b, bs, hcons, -, hbs⟩ := Text.exists_utf8EncodeChar_eq_cons c
  have hsize : c.utf8Size = bs.length + 1 := by
    rw [← String.length_utf8EncodeChar, hcons, List.length_cons]
  rw [Text.bytes_cons, hcons, hsize, List.cons_append, advance_cons, advance_zero, h.append _ hbs,
    Nat.add_right_comm]
  rfl

theorem advance_two {c : Char} (hc : c.toNat < 0x80) (cs : List Char) :
    read ((Cursor.mk pos (Text.bytes (c :: cs))).advance 2) =
      read ⟨pos + Text.width (c :: cs.take 1), Text.bytes (cs.drop 1)⟩ := by
  rw [Text.bytes_cons_of_lt hc, advance_cons, Text.width_cons, Text.utf8Size_of_lt hc,
    ← Nat.add_assoc]
  cases cs with
  | nil => rfl
  | cons d ds => exact h.advance_one (pos + 1) d ds

end Passes

end Cursor

def Move.turn : Move → Cursor.Turn
  | .pass more => .pass more
  | .enter _ _ => .hole
  | .leave _ => .close

namespace StringKind

variable (k : StringKind)

theorem move_of_not_mem {c : Char} (h : c ∉ ['\\', '"', '{', '}']) (cs : List Char) :
    k.move (c :: cs) = .pass 0 := by
  simp only [List.mem_cons, List.not_mem_nil, or_false, not_or] at h
  unfold move bracesMove
  split
  · simp_all
  · simp_all
  · simp_all
  · split
    · split <;> simp_all
    · rfl

theorem toNat_lt_of_mem {c : Char} : c ∈ ['\\', '"', '{', '}'] → 0 < c.toNat ∧ c.toNat < 0x80 := by
  simp only [List.mem_cons, List.not_mem_nil, or_false]
  rintro (rfl | rfl | rfl | rfl) <;> decide

theorem turn_bytes (pos : Nat) (c : Char) (cs : List Char) :
    (Cursor.mk pos (Text.bytes (c :: cs))).turn k = (k.move (c :: cs)).turn := by
  have hzero {m : Char} (hm : m ∈ ['\\', '"', '{', '}']) :=
    Cursor.peek_zero_eq_iff (c := c) pos cs (toNat_lt_of_mem hm).2
  -- Only behind one of the four marks, which are bytes by themselves, is a second byte looked at.
  by_cases hmark : c ∈ ['\\', '"', '{', '}']
  · have hone {m : Char} (hm : m ∈ ['\\', '"', '{', '}']) :=
      Cursor.peek_one_eq_iff pos cs (toNat_lt_of_mem hmark).2 (toNat_lt_of_mem hm).2
        (toNat_lt_of_mem hm).1
    have hsame : (Cursor.mk pos (Text.bytes (c :: cs))).peek 1 =
        (Cursor.mk pos (Text.bytes (c :: cs))).peek 0 ↔ cs.head? = some c := by
      rw [(hzero hmark).2 rfl, hone hmark]
    simp only [Cursor.turn, Cursor.verbatimTurn, Cursor.regularTurn, hsame, hzero (m := '\\') (by simp),
      hzero (m := '"') (by simp), hzero (m := '{') (by simp), hzero (m := '}') (by simp),
      hone (m := '"') (by simp)]
    simp only [List.mem_cons, List.not_mem_nil, or_false] at hmark
    obtain ⟨verbatim, interpolated⟩ := k
    rcases hmark with rfl | rfl | rfl | rfl
    · cases verbatim <;> cases interpolated <;> rfl
    · cases verbatim with
      | false => cases interpolated <;> simp [move, Move.turn]
      | true =>
        cases cs with
        | nil => cases interpolated <;> rfl
        | cons d ds => by_cases hd : d = '"' <;> cases interpolated <;> simp [move, hd, Move.turn]
    · cases interpolated with
      | false => cases verbatim <;> rfl
      | true =>
        cases cs with
        | nil => cases verbatim <;> rfl
        | cons d ds => by_cases hd : d = '{' <;> cases verbatim <;> simp [move, bracesMove, hd, Move.turn]
    · cases interpolated with
      | false => cases verbatim <;> rfl
      | true =>
        cases cs with
        | nil => cases verbatim <;> rfl
        | cons d ds => by_cases hd : d = '}' <;> cases verbatim <;> simp [move, bracesMove, hd, Move.turn]
  · rw [k.move_of_not_mem hmark, Cursor.turn_of_forall_ne]
    · rfl
    · intro m hm hpeek
      exact hmark ((hzero hm).1 hpeek ▸ hm)

theorem eq_of_move_pass {c : Char} {cs : List Char} {more : Nat} (h : k.move (c :: cs) = .pass more) :
    more = 0 ∨ more = 1 ∧ c.toNat < 0x80 := by
  by_cases hmark : c ∈ ['\\', '"', '{', '}']
  · have hlt := (toNat_lt_of_mem hmark).2
    unfold move bracesMove at h
    split at h
    · cases h
      exact .inr ⟨rfl, hlt⟩
    · cases h
      exact .inr ⟨rfl, hlt⟩
    · cases h
    · split at h
      · split at h
        · cases h
          exact .inr ⟨rfl, hlt⟩
        · cases h
          exact .inr ⟨rfl, hlt⟩
        · cases h
        · cases h
          exact .inl rfl
      · cases h
        exact .inl rfl
  · rw [k.move_of_not_mem hmark] at h
    cases h
    exact .inl rfl

end StringKind

namespace Cursor

theorem Passes.pass {α : Type} {read : Cursor → α} (h : Passes read) (pos : Nat) {c : Char}
    {more : Nat} (hmore : more = 0 ∨ more = 1 ∧ c.toNat < 0x80) (cs : List Char) :
    read ((Cursor.mk pos (Text.bytes (c :: cs))).advance (more + 1)) =
      read ⟨pos + Text.width (c :: cs.take more), Text.bytes (cs.drop more)⟩ := by
  rcases hmore with rfl | ⟨rfl, hc⟩
  · exact h.advance_one pos c cs
  · exact h.advance_two pos hc cs

section

variable {pos : Nat} {b : UInt8} {bs : List UInt8} {m : Char}

theorem peek_ne_of_le (hb : 0x80 ≤ b.toNat) (hm : m.toNat < 0x80) :
    (Cursor.mk pos (b :: bs)).peek 0 ≠ m.toUInt8 := by
  intro hpeek
  have hbm : b = m.toUInt8 := hpeek
  rw [hbm, Text.toNat_toUInt8_of_lt hm] at hb
  exact Nat.not_le.2 hm hb

theorem sees_of_le (hb : 0x80 ≤ b.toNat) (hm : m.toNat < 0x80) (ms : List Char) :
    (Cursor.mk pos (b :: bs)).sees (m :: ms) = false := by
  have hpeek : (Cursor.mk pos (b :: bs)).peek 0 ≠ m.toUInt8 := peek_ne_of_le hb hm
  have hne : m.toUInt8 ≠ b := Ne.symm hpeek
  rw [sees, Text.bytes_cons_of_lt hm, List.isPrefixOf, beq_false_of_ne hne, Bool.false_and]

theorem turn_of_le (k : StringKind) (hb : 0x80 ≤ b.toNat) :
    (Cursor.mk pos (b :: bs)).turn k = .pass 0 :=
  turn_of_forall_ne fun _ hm => peek_ne_of_le hb (StringKind.toNat_lt_of_mem hm).2

end

theorem passes_skipString (k : StringKind) : Passes fun c => (c.skipString k).cursor := by
  intro pos b bs hb
  change ((Cursor.mk pos (b :: bs)).skipString k).cursor = _
  rw [skipString]
  simp only [atEnd, turn_of_le k hb]
  rfl

theorem passes_skipCharacter : Passes fun c => c.skipCharacter.cursor := by
  intro pos b bs hb
  change (Cursor.mk pos (b :: bs)).skipCharacter.cursor = _
  rw [skipCharacter, if_neg (peek_ne_of_le hb (by decide)), if_neg (peek_ne_of_le hb (by decide))]
  rfl

theorem passes_skipComment : Passes fun c => (c.skipComment.1.cursor, c.skipComment.2) := by
  intro pos b bs hb
  change ((Cursor.mk pos (b :: bs)).skipComment.1.cursor, (Cursor.mk pos (b :: bs)).skipComment.2) = _
  rw [skipComment, sees_of_le hb (by decide)]
  rfl

theorem passes_skipHole (depth : Nat) : Passes fun c => (c.skipHole depth).cursor := by
  intro pos b bs hb
  change ((Cursor.mk pos (b :: bs)).skipHole depth).cursor = _
  rw [skipHole.eq_def]
  simp only [atEnd, sees_of_le hb (m := '$') (by decide), sees_of_le hb (m := '@') (by decide),
    sees_of_le hb (m := '/') (by decide), peek_ne_of_le hb (m := '"') (by decide),
    peek_ne_of_le hb (m := '\'') (by decide), peek_ne_of_le hb (m := '{') (by decide),
    peek_ne_of_le hb (m := '}') (by decide)]
  rfl

end Cursor

end SqlHighlight.Literal
