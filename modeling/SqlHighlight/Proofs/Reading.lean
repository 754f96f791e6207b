import SqlHighlight.Proofs.Nesting

namespace SqlHighlight.Literal

namespace Cursor

theorem closes_eq (k : StringKind) (c : Cursor) : c.closes k = !(c.last k).atEnd := by
  cases hcloses : c.closes k with
  | false => simp [atEnd_last hcloses]
  | true =>
    cases hend : (c.last k).atEnd with
    | false => rfl
    | true => simp [closes, turn_of_atEnd hend] at hcloses

theorem passes_last (k : StringKind) : Passes fun c => (c.last k, c.skippedHoles k) := by
  intro pos b bs hb
  have hturn : (Cursor.mk pos (b :: bs)).turn k = .pass 0 := turn_of_le k hb
  have hnext : (Cursor.mk pos (b :: bs)).next? k = some ⟨pos + 1, bs⟩ := by
    rw [next?, hturn]
    rfl
  have hhole : (Cursor.mk pos (b :: bs)).hole? k = none := by simp [hole?, hturn]
  simp only [last_of_next? hnext, skippedHoles_of_next? hnext, hhole]
  rfl

end Cursor

namespace Content

theorem last_bytes_of_enter {k : StringKind} {cs : List Char} (h : k.move ('{' :: cs) = .enter .hole 0)
    {pos : Nat} {d : Cursor}
    (hd : (((Cursor.mk pos (Text.bytes ('{' :: cs))).advance 1).skipHole 0).cursor = d) :
    ((Cursor.mk pos (Text.bytes ('{' :: cs))).last k,
        (Cursor.mk pos (Text.bytes ('{' :: cs))).skippedHoles k) =
      (d.last k, ⟨pos, d.pos⟩ :: d.skippedHoles k) := by
  have hturn := k.turn_bytes pos '{' cs
  rw [h] at hturn
  have hnext : (Cursor.mk pos (Text.bytes ('{' :: cs))).next? k = some d := by
    rw [Cursor.next?, if_neg (Cursor.not_atEnd_bytes_cons pos cs '{'), hturn, ← hd]
    rfl
  have hhole : (Cursor.mk pos (Text.bytes ('{' :: cs))).hole? k = some ⟨pos, d.pos⟩ := by
    rw [Cursor.hole?, hturn, Move.turn, if_pos rfl, hd]
  rw [Cursor.last_of_next? hnext, Cursor.skippedHoles_of_next? hnext, hhole]
  rfl

theorem last_bytes (k : StringKind) (pos : Nat) (cs : List Char) :
    ((Cursor.mk pos (Text.bytes cs)).last k, (Cursor.mk pos (Text.bytes cs)).skippedHoles k) =
      (⟨pos + Text.width (read k cs).chars,
          Text.bytes (((read k cs).rest.map ('"' :: ·)).getD [])⟩,
        Segment.holes pos (read k cs).segments) := by
  fun_induction read k cs generalizing pos with
  | case1 =>
    have hnext : (Cursor.mk pos []).next? k = none := rfl
    exact Prod.ext (Cursor.last_of_next?_eq_none hnext) (Cursor.skippedHoles_of_next?_eq_none hnext)
  | case2 c cs more hmove ih =>
    have hend := Cursor.not_atEnd_bytes_cons pos cs c
    have hturn := k.turn_bytes pos c cs
    rw [hmove] at hturn
    have hnext : (Cursor.mk pos (Text.bytes (c :: cs))).next? k =
        some ((Cursor.mk pos (Text.bytes (c :: cs))).advance (more + 1)) := by
      rw [Cursor.next?, if_neg hend, hturn]
      rfl
    have hhole : (Cursor.mk pos (Text.bytes (c :: cs))).hole? k = none := by
      simp [Cursor.hole?, hturn, Move.turn]
    rw [Cursor.last_of_next? hnext, Cursor.skippedHoles_of_next? hnext, hhole]
    refine ((Cursor.passes_last k).pass pos (k.eq_of_move_pass hmove) cs).trans ?_
    rw [ih, chars_cons, Text.width_append, Nat.add_assoc]
    rfl
  | case3 c cs more hmove =>
    obtain ⟨rfl, rfl⟩ := StringKind.eq_of_move_leave hmove
    have hend := Cursor.not_atEnd_bytes_cons pos cs '"'
    have hturn := k.turn_bytes pos '"' cs
    rw [hmove] at hturn
    have hnext : (Cursor.mk pos (Text.bytes ('"' :: cs))).next? k = none := by
      rw [Cursor.next?, if_neg hend, hturn]
      rfl
    exact Prod.ext (Cursor.last_of_next?_eq_none hnext) (Cursor.skippedHoles_of_next?_eq_none hnext)
  | case4 c cs frame more hmove inside hskip =>
    -- The hole is never closed, and takes all that the line still has.
    obtain ⟨rfl, rfl, rfl⟩ := StringKind.eq_hole_of_move_enter hmove
    have hcursor := cursor_skipHole_advance pos cs
    simp only [behind, hskip, Option.getD_none] at hcursor
    have hnext : (Cursor.mk (pos + Text.width ('{' :: inside)) (Text.bytes [])).next? k = none := rfl
    rw [last_bytes_of_enter hmove hcursor, Cursor.last_of_next?_eq_none hnext,
      Cursor.skippedHoles_of_next?_eq_none hnext]
    simp [chars, Segment.chars, Segment.holes]
  | case5 c cs frame more hmove inside rest hskip _ ih =>
    obtain ⟨rfl, rfl, rfl⟩ := StringKind.eq_hole_of_move_enter hmove
    have hcursor := cursor_skipHole_advance pos cs
    simp only [behind, hskip, Option.getD_some] at hcursor
    have hih := ih (pos + Text.width ('{' :: inside))
    rw [Prod.mk.injEq] at hih
    rw [last_bytes_of_enter hmove hcursor, hih.1, hih.2, chars_cons, Text.width_append,
      ← Nat.add_assoc]
    rfl

end Content

namespace Scanner

def outside (mode : Mode) (fragments : List Fragment) (c : Cursor) : Scanner :=
  ⟨c, mode, none, false, [], fragments⟩

def result (s : Scanner) : LineScan := ⟨s.mode, s.fragments⟩

section

variable (k : StringKind) (continued : Bool) (fragments : List Fragment) (pos : Nat) {cs : List Char}

theorem endLiteral_atLast (cs : List Char) (next : Mode) :
    ((inside k continued fragments ⟨pos, Text.bytes cs⟩).atLast k).endLiteral next =
      outside next
        (fragments ++ Fragment.place pos
          [.literal ⟨k, (Content.read k cs).segments, continued, next.isVerbatim⟩])
        ((Cursor.mk pos (Text.bytes cs)).last k) := by
  obtain ⟨hlast, hholes⟩ := Prod.mk.inj (Content.last_bytes k pos cs)
  have hwidth (p : Piece) (hp : p.segments = (Content.read k cs).segments) :
      p.width = Text.width (Content.read k cs).chars := by
    rw [Piece.width, hp, Content.chars]
  simp only [Fragment.place, Piece.place, hwidth]
  by_cases hempty : Text.width (Content.read k cs).chars = 0
  · simp [endLiteral, atLast, inside, outside, Range.isEmpty, hlast, hempty]
  · have hrange : Range.isEmpty ⟨pos, pos + Text.width (Content.read k cs).chars⟩ = false := by
      rw [Range.isEmpty, decide_eq_false_iff_not, Nat.not_le]
      exact Nat.lt_add_of_pos_right (Nat.pos_of_ne_zero hempty)
    simp [endLiteral, atLast, inside, outside, hlast, hholes, hrange, hempty, Mode.isInterpolated]

theorem scan_inside_of_rest_eq_none (h : (Content.read k cs).rest = none) :
    (inside k continued fragments ⟨pos, Text.bytes cs⟩).scan k =
      outside k.leftOpen
        (fragments ++ Fragment.place pos
          [.literal ⟨k, (Content.read k cs).segments, continued, k.verbatim⟩])
        ⟨pos + Text.width (Content.read k cs).chars, []⟩ := by
  have hlast := (Prod.mk.inj (Content.last_bytes k pos cs)).1
  rw [h] at hlast
  have hcloses : (inside k continued fragments ⟨pos, Text.bytes cs⟩).cursor.closes k = false := by
    rw [Cursor.closes_eq]
    exact congrArg (!Cursor.atEnd ·) hlast
  have hverbatim : k.leftOpen.isVerbatim = k.verbatim := by
    cases hk : k.verbatim <;> simp [StringKind.leftOpen, hk, Mode.isVerbatim]
  rw [scan_eq_atLast rfl, hcloses, if_neg Bool.false_ne_true]
  refine (endLiteral_atLast k continued fragments pos cs k.leftOpen).trans ?_
  rw [hverbatim, hlast]
  rfl

theorem scan_inside_of_rest_eq_some {rest : List Char} (h : (Content.read k cs).rest = some rest) :
    (inside k continued fragments ⟨pos, Text.bytes cs⟩).scan k =
      outside .code
        (fragments ++ Fragment.place pos
          [.literal ⟨k, (Content.read k cs).segments, continued, false⟩])
        ⟨pos + Text.width (Content.read k cs).chars + 1, Text.bytes rest⟩ := by
  have hlast := (Prod.mk.inj (Content.last_bytes k pos cs)).1
  rw [h] at hlast
  have hcloses : (inside k continued fragments ⟨pos, Text.bytes cs⟩).cursor.closes k = true := by
    rw [Cursor.closes_eq]
    exact congrArg (!Cursor.atEnd ·) hlast
  rw [scan_eq_atLast rfl, hcloses, if_pos rfl]
  refine (congrArg (advance · 1) (endLiteral_atLast k continued fragments pos cs .code)).trans ?_
  rw [hlast]
  rfl

end

section

variable (fragments : List Fragment) (pos : Nat) {c : Char} {cs : List Char} {more : Nat}

theorem scanDefault_of_opening?_string {k : StringKind} (h : opening? (c :: cs) = some (.string k, more)) :
    (outside .code fragments ⟨pos, Text.bytes (c :: cs)⟩).scanDefault =
      (inside k false fragments
        ⟨pos + Text.width (c :: cs.take more), Text.bytes (cs.drop more)⟩).scan k := by
  rw [← advance_of_opening? h]
  unfold opening? at h
  split at h
  all_goals cases h
  all_goals
    next heq =>
    rw [heq]
    simp [scanDefault, outside, Cursor.sees_bytes, List.isPrefixOf, Cursor.peek_zero_eq_iff]
    rfl

theorem scanDefault_of_opening? {f : Frame} (h : opening? (c :: cs) = some (f, more))
    (hf : ∀ k, f ≠ .string k) :
    (outside .code fragments ⟨pos, Text.bytes (c :: cs)⟩).scanDefault =
      outside (if f = .blockComment ∧ (skip more [f] cs).2 = none then .comment else .code) fragments
        ⟨pos + Text.width (c :: (skip more [f] cs).1), Text.bytes ((skip more [f] cs).2.getD [])⟩ := by
  rw [← cursor_skipBytes_of_opening? h]
  unfold opening? at h
  split at h
  all_goals cases h
  case h_1 | h_2 | h_3 | h_4 | h_7 => exact absurd rfl (hf _)
  case h_5 rest heq =>
    obtain ⟨rfl, rfl⟩ := List.cons.inj heq
    have hadvance : (Cursor.mk pos (Text.bytes ('/' :: '*' :: rest))).advance 2 =
        ⟨pos + 2, Text.bytes rest⟩ := Cursor.advance_bytes pos rest ['/', '*'] (by simp)
    have hclosed : ((Cursor.mk pos (Text.bytes ('/' :: '*' :: rest))).advance 2).skipComment.2 =
        (skip 1 [.blockComment] ('*' :: rest)).2.isSome := by
      rw [hadvance]
      exact (ahead_skipComment (pos + 2) rest).2
    cases hskip : (skip 1 [.blockComment] ('*' :: rest)).2 <;> rw [hskip] at hclosed
    all_goals
      simp [scanDefault, outside, Cursor.sees_bytes, List.isPrefixOf, hclosed]
      rfl
  case h_6 heq =>
    rw [Frame.skipBytes, Cursor.Onward.cursor_advance, Cursor.advance_length_advance, heq]
    simp [scanDefault, outside, Cursor.sees_bytes, List.isPrefixOf]
    rfl
  case h_8 heq =>
    rw [heq]
    simp [scanDefault, outside, Cursor.sees_bytes, List.isPrefixOf, Cursor.peek_zero_eq_iff]
    rfl

theorem scanDefault_of_opening?_eq_none (h : opening? (c :: cs) = none) :
    (outside .code fragments ⟨pos, Text.bytes (c :: cs)⟩).scanDefault =
      outside .code fragments ((Cursor.mk pos (Text.bytes (c :: cs))).advance 1) := by
  have hmark := fun mark => @isPrefixOf_of_opening?_eq_none (c :: cs) mark h
  simp only [openingMarks, List.forall_mem_cons] at hmark
  have hquote : c ≠ '"' := ne_of_opening?_eq_none h (by simp [openingMarks])
  have hchar : c ≠ '\'' := ne_of_opening?_eq_none h (by simp [openingMarks])
  simp [scanDefault, outside, Cursor.sees_bytes, hmark, Cursor.peek_zero_eq_iff, hquote, hchar]
  rfl

theorem passes_scanCode : Cursor.Passes fun c => (outside .code fragments c).scanCode.result := by
  intro pos b bs hb
  change (outside .code fragments ⟨pos, b :: bs⟩).scanCode.result = _
  rw [scanCode, dif_neg (by simp [outside, Cursor.atEnd])]
  simp only [scanDefault, outside, Cursor.sees_of_le hb (m := '$') (by decide),
    Cursor.sees_of_le hb (m := '@') (by decide), Cursor.sees_of_le hb (m := '/') (by decide),
    Cursor.peek_ne_of_le hb (m := '"') (by decide), Cursor.peek_ne_of_le hb (m := '\'') (by decide)]
  rfl

theorem scanCode_cons (c : Char) (cs : List Char) :
    (outside .code fragments ⟨pos, Text.bytes (c :: cs)⟩).scanCode =
      (outside .code fragments ⟨pos, Text.bytes (c :: cs)⟩).scanDefault.scanCode := by
  have hend : ¬ (outside .code fragments ⟨pos, Text.bytes (c :: cs)⟩).cursor.atEnd :=
    Cursor.not_atEnd_bytes_cons pos cs c
  have hmode : (outside .code fragments ⟨pos, Text.bytes (c :: cs)⟩).mode = .code := rfl
  rw [scanCode, dif_neg (by simp [hend, hmode])]

theorem scanCode_nil (mode : Mode) :
    (outside mode fragments ⟨pos, []⟩).scanCode = outside mode fragments ⟨pos, []⟩ := by
  have hend : (outside mode fragments ⟨pos, []⟩).cursor.atEnd := rfl
  rw [scanCode, dif_pos (.inl hend)]

end

end Scanner

namespace Cut

/-- What the scanner makes of a cut that starts at an offset. -/
def scan (fragments : List Fragment) (start : Nat) (cut : Cut) : LineScan :=
  ⟨cut.mode, fragments ++ Fragment.place start cut.stretches⟩

theorem scan_code (fragments : List Fragment) (start : Nat) (cs : List Char) (cut : Cut) :
    (cut.code cs).scan fragments start = cut.scan fragments (start + Text.width cs) := rfl

theorem scan_literal (fragments : List Fragment) (start : Nat) (p : Piece) (cut : Cut) :
    (cut.literal p).scan fragments start =
      cut.scan (fragments ++ Fragment.place start [.literal p]) (start + p.width) := by
  by_cases h : p.width = 0
  · simp [scan, literal, Fragment.place, h]
  · simp [scan, literal, Fragment.place, h]

end Cut

namespace Scanner

theorem result_scanCode (fragments : List Fragment) (pos : Nat) (cs : List Char) :
    (outside .code fragments ⟨pos, Text.bytes cs⟩).scanCode.result =
      (Cut.ofCode cs).scan fragments pos := by
  fun_induction Cut.ofCode cs generalizing fragments pos with
  | case1 =>
    refine (congrArg result (scanCode_nil fragments pos .code)).trans ?_
    exact congrArg (LineScan.mk .code) (List.append_nil fragments).symm
  | case2 c cs hopen ih =>
    rw [scanCode_cons, scanDefault_of_opening?_eq_none fragments pos hopen]
    exact ((passes_scanCode fragments).advance_one pos c cs).trans (ih fragments _)
  | case3 c cs k more hopen content hrest =>
    rw [scanCode_cons, scanDefault_of_opening?_string fragments pos hopen,
      scan_inside_of_rest_eq_none k false fragments _ hrest, scanCode_nil]
    rfl
  | case4 c cs k more hopen content rest hrest _ _ ih =>
    rw [scanCode_cons, scanDefault_of_opening?_string fragments pos hopen,
      scan_inside_of_rest_eq_some k false fragments _ hrest, ih, Cut.scan_code, Cut.scan_literal,
      Cut.scan_code]
    rfl
  | case5 c cs frame more hframe hopen inside hskip =>
    rw [scanCode_cons, scanDefault_of_opening? fragments pos hopen hframe, hskip]
    refine (congrArg result (scanCode_nil fragments _ _)).trans ?_
    simp [result, outside, Cut.scan, Fragment.place]
  | case6 c cs frame more hframe hopen inside rest hskip _ ih =>
    rw [scanCode_cons, scanDefault_of_opening? fragments pos hopen hframe, hskip, if_neg (by simp)]
    exact ih fragments _

theorem result_run (mode : Mode) (line : List Char) :
    (outside mode [] (.ofLine line)).run.result = (Cut.ofLine mode line).scan [] 0 := by
  cases mode with
  | code => exact result_scanCode [] 0 line
  | comment =>
    have hcursor : (Cursor.ofLine line).skipComment.1.cursor = _ := cursor_skipBytes .blockComment 0 line
    have hclosed : (Cursor.ofLine line).skipComment.2 = _ := (ahead_skipComment 0 line).2
    have hrun : (outside .comment [] (.ofLine line)).run =
        (outside (if (Cursor.ofLine line).skipComment.2 then .code else .comment) []
          (Cursor.ofLine line).skipComment.1.cursor).scanCode := rfl
    rw [hrun, hcursor, hclosed, Cut.ofLine, behind]
    obtain ⟨inside, rest⟩ := skip 0 [.blockComment] line
    cases rest with
    | none => exact congrArg result (scanCode_nil [] _ .comment)
    | some rest =>
      rw [Cut.scan_code]
      exact result_scanCode [] _ rest
  | string k =>
    cases hk : k.verbatim with
    | false =>
      rw [Cut.ofLine_of_verbatim_eq_false hk, ← result_scanCode]
      simp [run, outside, hk, Cursor.ofLine]
    | true =>
      have hrun : (outside (.string k) [] (.ofLine line)).run =
          ((inside k true [] (.ofLine line)).scan k).scanCode := by
        simp [run, outside, hk, scan]
        rfl
      rw [hrun]
      cases hrest : (Content.read k line).rest with
      | none =>
        rw [Cut.ofLine_of_rest_eq_none hk hrest, Cursor.ofLine, scan_inside_of_rest_eq_none k true [] 0 hrest,
          scanCode_nil, StringKind.leftOpen, if_pos hk, hk]
        rfl
      | some rest =>
        rw [Cut.ofLine_of_rest_eq_some hk hrest, Cursor.ofLine, scan_inside_of_rest_eq_some k true [] 0 hrest,
          result_scanCode, Cut.scan_literal, Cut.scan_code]
        rfl

end Scanner

/-- The scanner of bytes finds in a line what the grammar of its characters says. -/
theorem scanLine_eq (mode : Mode) (line : List Char) :
    scanLine mode line =
      ⟨(Cut.ofLine mode line).mode, Fragment.place 0 (Cut.ofLine mode line).stretches⟩ :=
  Scanner.result_run mode line

theorem nextMode_eq (mode : Mode) (line : List Char) : nextMode mode line = (Cut.ofLine mode line).mode :=
  congrArg LineScan.mode (scanLine_eq mode line)

end SqlHighlight.Literal
