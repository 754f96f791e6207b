import SqlHighlight.Proofs.Passing
import SqlHighlight.Proofs.Written

namespace SqlHighlight.Literal

def Frame.skipBytes (c : Cursor) : Frame → c.Onward
  | .string k => c.skipString k
  | .hole => c.skipHole 0
  | .character => c.skipCharacter
  | .blockComment => c.skipComment.1
  | .lineComment => .advance c c.ahead.length

def openingMarks : List (List Char) :=
  [['$', '@', '"'], ['@', '$', '"'], ['$', '"'], ['@', '"'], ['/', '*'], ['/', '/'], ['"'], ['\'']]

theorem isPrefixOf_of_opening?_eq_none {cs mark : List Char} (h : opening? cs = none)
    (hmark : mark ∈ openingMarks) : mark.isPrefixOf cs = false := by
  rw [Bool.eq_false_iff]
  intro hprefix
  obtain ⟨rest, rfl⟩ := List.isPrefixOf_iff_prefix.1 hprefix
  simp only [openingMarks, List.mem_cons, List.not_mem_nil, or_false] at hmark
  rcases hmark with rfl | rfl | rfl | rfl | rfl | rfl | rfl | rfl <;> simp [opening?] at h

theorem ne_of_opening?_eq_none {c mark : Char} {cs : List Char} (h : opening? (c :: cs) = none)
    (hmark : [mark] ∈ openingMarks) : c ≠ mark := by
  rintro rfl
  have hprefix := isPrefixOf_of_opening?_eq_none h hmark
  simp at hprefix

section

variable {c : Char} {cs : List Char} {f : Frame} {more : Nat}

theorem advance_of_opening? (h : opening? (c :: cs) = some (f, more)) (pos : Nat) :
    (Cursor.mk pos (Text.bytes (c :: cs))).advance (more + 1) =
      ⟨pos + Text.width (c :: cs.take more), Text.bytes (cs.drop more)⟩ := by
  have hmark : (∀ m ∈ c :: cs.take more, m.toNat < 0x80) ∧ (c :: cs.take more).length = more + 1 := by
    unfold opening? at h
    split at h
    all_goals cases h
    all_goals
      next heq =>
      obtain ⟨rfl, rfl⟩ := List.cons.inj heq
      simp
  have hadvance := Cursor.advance_bytes pos (cs.drop more) _ hmark.1
  rw [hmark.2, List.cons_append, List.take_append_drop] at hadvance
  rw [hadvance, Text.width_of_lt hmark.1, hmark.2]

theorem cursor_skipHole_nil (depth pos : Nat) :
    ((Cursor.mk pos []).skipHole depth).cursor = ⟨pos, []⟩ := by
  rw [Cursor.skipHole.eq_def]
  rfl

theorem cursor_skipHole_of_opening? (h : opening? (c :: cs) = some (f, more)) (depth pos : Nat) :
    ((Cursor.mk pos (Text.bytes (c :: cs))).skipHole depth).cursor =
      ((f.skipBytes ((Cursor.mk pos (Text.bytes (c :: cs))).advance (more + 1))).cursor.skipHole
        depth).cursor := by
  rw [Cursor.skipHole.eq_def, dif_neg (Cursor.not_atEnd_bytes_cons pos cs c)]
  unfold opening? at h
  split at h
  all_goals cases h
  case h_6 rest heq =>
    -- The rest of the line is a comment, and the hole ends with it.
    rw [Frame.skipBytes, Cursor.Onward.cursor_advance, Cursor.advance_length_advance,
      Cursor.advance_length, cursor_skipHole_nil, ← Cursor.advance_length, heq]
    simp [Cursor.sees_bytes, List.isPrefixOf]
  all_goals
    next heq =>
    rw [heq]
    simp [Cursor.sees_bytes, List.isPrefixOf, Cursor.peek_zero_eq_iff]
    rfl

theorem cursor_skipHole_of_opening?_eq_none (h : opening? (c :: cs) = none) (depth pos : Nat) :
    ((Cursor.mk pos (Text.bytes (c :: cs))).skipHole depth).cursor =
      if c = '{' then (((Cursor.mk pos (Text.bytes (c :: cs))).advance 1).skipHole (depth + 1)).cursor
      else if c = '}' then
        match depth with
        | 0 => (Cursor.mk pos (Text.bytes (c :: cs))).advance 1
        | depth + 1 => (((Cursor.mk pos (Text.bytes (c :: cs))).advance 1).skipHole depth).cursor
      else (((Cursor.mk pos (Text.bytes (c :: cs))).advance 1).skipHole depth).cursor := by
  have hmark := fun mark => @isPrefixOf_of_opening?_eq_none (c :: cs) mark h
  simp only [openingMarks, List.forall_mem_cons] at hmark
  have hquote : c ≠ '"' := ne_of_opening?_eq_none h (by simp [openingMarks])
  have hchar : c ≠ '\'' := ne_of_opening?_eq_none h (by simp [openingMarks])
  rw [Cursor.skipHole.eq_def, dif_neg (Cursor.not_atEnd_bytes_cons pos cs c)]
  simp [Cursor.sees_bytes, hmark, Cursor.peek_zero_eq_iff, hquote, hchar]
  split
  · rfl
  · split
    · cases depth <;> rfl
    · rfl

end

/-- What follows when stacked frames are left, nothing when the line ends first. -/
def behind (fs : List Frame) (cs : List Char) : List Char := (skip 0 fs cs).2.getD []

theorem rest_skip_drop (more : Nat) (fs : List Frame) (cs : List Char) :
    (skip more fs cs).2 = (skip 0 fs (cs.drop more)).2 := by
  rw [skip_eq_readBefore_take]
  rfl

section

variable {f g : Frame} {fs : List Frame} {c : Char} {cs : List Char} {more : Nat}

theorem behind_of_move {move : Move} (h : f.move (c :: cs) = move) :
    behind (f :: fs) (c :: cs) = behind (move.frames (f :: fs)) (cs.drop move.more) := by
  subst h
  rw [behind, behind, ← rest_skip_drop]
  rfl

theorem behind_nil (fs : List Frame) : behind fs [] = [] := by
  cases fs <;> rfl

theorem behind_nil_frames (cs : List Char) : behind [] cs = cs := by
  simp [behind, skip]

theorem behind_of_pass (h : f.move (c :: cs) = .pass more) :
    behind (f :: fs) (c :: cs) = behind (f :: fs) (cs.drop more) := behind_of_move h

theorem behind_of_leave (h : f.move (c :: cs) = .leave more) :
    behind (f :: fs) (c :: cs) = behind fs (cs.drop more) := behind_of_move h

theorem length_behind_le (fs : List Frame) (cs : List Char) : (behind fs cs).length ≤ cs.length := by
  have happend := congrArg List.length (append_skip 0 fs cs)
  rw [List.length_append] at happend
  exact Nat.le.intro ((Nat.add_comm _ _).trans happend)

theorem Move.frames_append (move : Move) (f : Frame) (fs base : List Frame) :
    move.frames (f :: (fs ++ base)) = move.frames (f :: fs) ++ base := by
  cases move <;> rfl

theorem behind_append (fs base : List Frame) (cs : List Char) :
    behind (fs ++ base) cs = behind base (behind fs cs) := by
  -- A move settles more than one character, so that the induction is on how many there are.
  induction hn : cs.length using Nat.strongRecOn generalizing fs cs with
  | ind n ih =>
    cases cs with
    | nil => rw [behind_nil, behind_nil, behind_nil]
    | cons c cs =>
      cases fs with
      | nil => rfl
      | cons f fs =>
        have hlt : (cs.drop (f.move (c :: cs)).more).length < n := by
          rw [← hn, List.length_drop, List.length_cons]
          omega
        rw [List.cons_append, behind_of_move rfl, Move.frames_append, ih _ hlt _ _ rfl,
          behind_of_move rfl]

theorem behind_of_enter (h : f.move (c :: cs) = .enter g more) :
    behind (f :: fs) (c :: cs) = behind (f :: fs) (behind [g] (cs.drop more)) := by
  rw [behind_of_move h]
  exact behind_append [g] (f :: fs) (cs.drop more)

end

theorem StringKind.eq_hole_of_move_enter {k : StringKind} {c : Char} {cs : List Char} {f : Frame}
    {more : Nat} (h : k.move (c :: cs) = .enter f more) : c = '{' ∧ f = .hole ∧ more = 0 := by
  refine ⟨eq_of_move_enter h, ?_⟩
  unfold move bracesMove at h
  split at h
  · cases h
  · cases h
  · cases h
  · split at h
    · split at h
      · cases h
      · cases h
      · cases h
        exact ⟨rfl, rfl⟩
      · cases h
    · cases h

theorem behind_lineComment (cs : List Char) : behind [.lineComment] cs = [] := by
  induction cs with
  | nil => rfl
  | cons c cs ih => rwa [behind_of_pass rfl]

theorem ahead_skipCharacter (pos : Nat) (cs : List Char) :
    (Cursor.mk pos (Text.bytes cs)).skipCharacter.cursor.ahead =
      Text.bytes (behind [.character] cs) := by
  induction hn : cs.length using Nat.strongRecOn generalizing pos cs with
  | ind n ih =>
    cases cs with
    | nil =>
      rw [Cursor.skipCharacter]
      rfl
    | cons c cs =>
      have hlt (more : Nat) : (cs.drop more).length < n := by
        rw [← hn, List.length_drop, List.length_cons]
        omega
      have hpass {more : Nat} (hmore : more = 0 ∨ more = 1 ∧ c.toNat < 0x80) :
          ((Cursor.mk pos (Text.bytes (c :: cs))).advance (more + 1)).skipCharacter.cursor.ahead =
            Text.bytes (behind [.character] (cs.drop more)) := by
        rw [Cursor.passes_skipCharacter.pass pos hmore cs]
        exact ih _ (hlt more) _ _ rfl
      rw [Cursor.skipCharacter, dif_neg (Cursor.not_atEnd_bytes_cons pos cs c)]
      simp only [Cursor.peek_zero_eq_iff pos cs (m := '\\') (by decide),
        Cursor.peek_zero_eq_iff pos cs (m := '\'') (by decide)]
      split
      · next hescape =>
        subst hescape
        have hmove : Frame.character.move ('\\' :: cs) = .pass 1 := rfl
        rw [behind_of_pass hmove, ← hpass (.inr ⟨rfl, by decide⟩)]
        rfl
      · split
        · next hquote =>
          subst hquote
          have hmove : Frame.character.move ('\'' :: cs) = .leave 0 := rfl
          rw [behind_of_leave hmove, behind_nil_frames, Cursor.Onward.cursor_advance,
            Cursor.advance_one_of_lt pos cs (by decide)]
          rfl
        · next hescape hquote =>
          have hmove : Frame.character.move (c :: cs) = .pass 0 := by
            simp only [Frame.move]
            unfold characterMove
            split <;> simp_all
          rw [behind_of_pass hmove, ← hpass (.inl rfl)]
          rfl

theorem ahead_skipComment (pos : Nat) (cs : List Char) :
    (Cursor.mk pos (Text.bytes cs)).skipComment.1.cursor.ahead =
        Text.bytes (behind [.blockComment] cs) ∧
      (Cursor.mk pos (Text.bytes cs)).skipComment.2 = (skip 0 [.blockComment] cs).2.isSome := by
  induction cs generalizing pos with
  | nil =>
    rw [Cursor.skipComment]
    exact ⟨rfl, rfl⟩
  | cons c cs ih =>
    rw [Cursor.skipComment, dif_neg (Cursor.not_atEnd_bytes_cons pos cs c)]
    simp only [Cursor.sees_bytes pos (c :: cs) ['*', '/'] (by simp)]
    split
    · next hclose =>
      obtain ⟨rest, hrest⟩ : ∃ rest, '*' :: '/' :: rest = c :: cs := List.isPrefixOf_iff_prefix.1 hclose
      obtain ⟨rfl, rfl⟩ := List.cons.inj hrest
      have hmove : Frame.blockComment.move ('*' :: '/' :: rest) = .leave 1 := rfl
      constructor
      · rw [behind_of_leave hmove, behind_nil_frames, Cursor.Onward.cursor_advance]
        exact congrArg Cursor.ahead (Cursor.advance_bytes pos rest ['*', '/'] (by simp))
      · simp [skip, Frame.move, blockCommentMove, Move.frames, Move.more]
    · next hclose =>
      have hmove : Frame.blockComment.move (c :: cs) = .pass 0 := by
        simp only [Frame.move]
        unfold blockCommentMove
        split
        · next heq =>
          rw [heq] at hclose
          exact absurd rfl hclose
        · rfl
      have hpass := Cursor.passes_skipComment.advance_one pos c cs
      rw [Prod.mk.injEq] at hpass
      obtain ⟨hahead, hclosed⟩ := ih (pos + c.utf8Size)
      constructor
      · rw [behind_of_pass hmove, List.drop_zero, ← hahead, ← hpass.1]
        rfl
      · rw [skip_pass hmove]
        exact hpass.2.trans hclosed

/-- The skips over the bytes of a text end where its grammar says. -/
def SkipsBytes (cs : List Char) : Prop :=
  (∀ k pos, ((Cursor.mk pos (Text.bytes cs)).skipString k).cursor.ahead =
    Text.bytes (behind [.string k] cs)) ∧
  ∀ depth pos, ((Cursor.mk pos (Text.bytes cs)).skipHole depth).cursor.ahead =
    Text.bytes (behind (List.replicate (depth + 1) .hole) cs)

section

variable {c : Char} {cs : List Char} (ih : ∀ ds : List Char, ds.length ≤ cs.length → SkipsBytes ds)
  (pos : Nat)

include ih

theorem ahead_skipString_cons (k : StringKind) :
    ((Cursor.mk pos (Text.bytes (c :: cs))).skipString k).cursor.ahead =
      Text.bytes (behind [.string k] (c :: cs)) := by
  have hturn := k.turn_bytes pos c cs
  rw [Cursor.skipString, dif_neg (Cursor.not_atEnd_bytes_cons pos cs c)]
  cases hmove : k.move (c :: cs) with
  | pass more =>
    have hpass := (Cursor.passes_skipString k).pass pos (k.eq_of_move_pass hmove) cs
    rw [hmove] at hturn
    simp only [hturn, Move.turn, Cursor.Onward.cursor_after]
    rw [hpass, (ih _ (List.drop_sublist more cs).length_le).1, behind_of_pass (f := .string k) hmove]
  | leave more =>
    obtain ⟨rfl, rfl⟩ := StringKind.eq_of_move_leave hmove
    rw [hmove] at hturn
    simp only [hturn, Move.turn, Cursor.Onward.cursor_advance]
    rw [behind_of_leave (f := .string k) hmove, Cursor.advance_one_of_lt pos cs (by decide),
      behind_nil_frames]
    rfl
  | enter f more =>
    obtain ⟨rfl, rfl, rfl⟩ := StringKind.eq_hole_of_move_enter hmove
    have hhole := (ih cs (Nat.le_refl _)).2 0 (pos + 1)
    rw [hmove] at hturn
    simp only [hturn, Move.turn, Cursor.Onward.cursor_after, Cursor.Onward.cursor_trans]
    rw [Cursor.advance_one_of_lt pos cs (by decide), Cursor.eq_mk_of_ahead_eq hhole,
      (ih _ (length_behind_le _ cs)).1, behind_of_enter (f := .string k) hmove]
    rfl

theorem ahead_skipBytes (f : Frame) {ds : List Char} (hds : ds.length ≤ cs.length) :
    (f.skipBytes ⟨pos, Text.bytes ds⟩).cursor.ahead = Text.bytes (behind [f] ds) := by
  cases f with
  | string k => exact (ih ds hds).1 k pos
  | hole => exact (ih ds hds).2 0 pos
  | character => exact ahead_skipCharacter pos ds
  | blockComment => exact (ahead_skipComment pos ds).1
  | lineComment =>
    rw [Frame.skipBytes, Cursor.Onward.cursor_advance, Cursor.advance_length, behind_lineComment]
    rfl

theorem ahead_skipHole_cons (depth : Nat) :
    ((Cursor.mk pos (Text.bytes (c :: cs))).skipHole depth).cursor.ahead =
      Text.bytes (behind (List.replicate (depth + 1) .hole) (c :: cs)) := by
  rw [List.replicate_succ]
  cases hopen : opening? (c :: cs) with
  | some opened =>
    obtain ⟨f, more⟩ := opened
    have hdrop : (cs.drop more).length ≤ cs.length := (List.drop_sublist more cs).length_le
    have hinside := ahead_skipBytes ih (pos + Text.width (c :: cs.take more)) f hdrop
    rw [cursor_skipHole_of_opening? hopen, advance_of_opening? hopen, Cursor.eq_mk_of_ahead_eq hinside,
      (ih _ (Nat.le_trans (length_behind_le _ _) hdrop)).2,
      behind_of_enter (move_hole_of_opening? hopen), List.replicate_succ]
  | none =>
    have hpasses (depth : Nat) := (Cursor.passes_skipHole depth).advance_one pos c cs
    rw [cursor_skipHole_of_opening?_eq_none hopen]
    split
    · next hbrace =>
      subst hbrace
      have hmove : Frame.hole.move ('{' :: cs) = .enter .hole 0 := rfl
      rw [hpasses, (ih cs (Nat.le_refl _)).2, behind_of_move hmove]
      rfl
    · split
      · next hbrace =>
        subst hbrace
        have hmove : Frame.hole.move ('}' :: cs) = .leave 0 := rfl
        rw [behind_of_leave hmove]
        cases depth with
        | zero =>
          rw [Cursor.advance_one_of_lt pos cs (by decide)]
          exact congrArg Text.bytes (behind_nil_frames cs).symm
        | succ depth =>
          simp only [hpasses]
          exact (ih cs (Nat.le_refl _)).2 depth _
      · next hopenBrace hcloseBrace =>
        have hmove : Frame.hole.move (c :: cs) = .pass 0 := by
          simp only [Frame.move, holeMove, hopen]
          split <;> simp_all
        rw [hpasses, (ih cs (Nat.le_refl _)).2, behind_of_pass hmove, List.replicate_succ]
        rfl

end

theorem skipsBytes (cs : List Char) : SkipsBytes cs := by
  -- Strings and holes are nested in each other, so both are taken at once.
  induction hn : cs.length using Nat.strongRecOn generalizing cs with
  | ind n ih =>
    cases cs with
    | nil =>
      constructor
      · intro k pos
        rw [Cursor.skipString]
        rfl
      · intro depth pos
        rw [behind_nil]
        exact congrArg Cursor.ahead (cursor_skipHole_nil depth pos)
    | cons c cs =>
      have ih' (ds : List Char) (hds : ds.length ≤ cs.length) : SkipsBytes ds :=
        ih _ (by rw [← hn]; exact Nat.lt_succ_of_le hds) ds rfl
      constructor
      · exact fun k pos => ahead_skipString_cons ih' pos k
      · exact fun depth pos => ahead_skipHole_cons ih' pos depth

theorem Cursor.Onward.cursor_eq {pos : Nat} {cs read rest : List Char}
    (d : (Cursor.mk pos (Text.bytes cs)).Onward) (hcs : read ++ rest = cs)
    (hahead : d.cursor.ahead = Text.bytes rest) :
    d.cursor = ⟨pos + Text.width read, Text.bytes rest⟩ := by
  have hsum := d.pos_add_length
  have hwidth := congrArg Text.width hcs
  rw [Text.width_append] at hwidth
  rw [hahead] at hsum
  simp only [Text.length_bytes] at hsum
  rw [eq_mk_of_ahead_eq hahead, Cursor.mk.injEq]
  exact ⟨by omega, rfl⟩

theorem cursor_skipBytes (f : Frame) (pos : Nat) (cs : List Char) :
    (f.skipBytes ⟨pos, Text.bytes cs⟩).cursor =
      ⟨pos + Text.width (skip 0 [f] cs).1, Text.bytes (behind [f] cs)⟩ :=
  Cursor.Onward.cursor_eq _ (append_skip 0 [f] cs)
    (ahead_skipBytes (fun ds _ => skipsBytes ds) pos f (Nat.le_refl _))

theorem cursor_skipBytes_of_opening? {c : Char} {cs : List Char} {f : Frame} {more : Nat}
    (h : opening? (c :: cs) = some (f, more)) (pos : Nat) :
    (f.skipBytes ((Cursor.mk pos (Text.bytes (c :: cs))).advance (more + 1))).cursor =
      ⟨pos + Text.width (c :: (skip more [f] cs).1), Text.bytes ((skip more [f] cs).2.getD [])⟩ := by
  rw [advance_of_opening? h, cursor_skipBytes, skip_eq_readBefore_take more, readBefore,
    ← List.cons_append, Text.width_append, ← Nat.add_assoc]
  rfl

theorem cursor_skipHole_advance (pos : Nat) (cs : List Char) :
    (((Cursor.mk pos (Text.bytes ('{' :: cs))).advance 1).skipHole 0).cursor =
      ⟨pos + Text.width ('{' :: (skip 0 [.hole] cs).1), Text.bytes (behind [.hole] cs)⟩ := by
  rw [Cursor.advance_one_of_lt pos cs (by decide), Text.width_cons, Text.utf8Size_of_lt (by decide),
    ← Nat.add_assoc]
  exact cursor_skipBytes .hole (pos + 1) cs

end SqlHighlight.Literal
