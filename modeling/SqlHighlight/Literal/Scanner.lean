import SqlHighlight.Literal.Cursor
import SqlHighlight.Text.Bytes

namespace SqlHighlight.Literal

/-- Content of a literal on one line, with offsets from the start of the line. -/
structure Fragment where
  range : Range
  interpolated : Bool
  holes : List Range
  continued : Bool
  openAtEnd : Bool
  deriving DecidableEq, Repr

structure LineScan where
  mode : Mode
  fragments : List Fragment
  deriving DecidableEq, Repr

structure Scanner where
  cursor : Cursor
  mode : Mode
  literalStart : Option Nat
  continued : Bool
  holes : List Range
  fragments : List Fragment
  deriving DecidableEq, Repr

namespace Scanner

def advance (s : Scanner) (n : Nat) : Scanner := { s with cursor := s.cursor.advance n }

def startLiteral (s : Scanner) (k : StringKind) : Scanner :=
  { s with literalStart := some s.cursor.pos, continued := false, mode := .string k }

/-- Ends the literal at the cursor. One without content leaves no fragment. -/
def endLiteral (s : Scanner) (next : Mode) : Scanner :=
  let range : Range := ⟨s.literalStart.getD 0, s.cursor.pos⟩
  { s with
    mode := next
    literalStart := none
    continued := false
    holes := []
    fragments :=
      if range.isEmpty then s.fragments
      else s.fragments ++ [⟨range, s.mode.isInterpolated, s.holes, s.continued, next.isVerbatim⟩] }

def scanHole (s : Scanner) : Scanner :=
  let c := ((s.cursor.advance 1).skipHole 0).cursor
  { s with cursor := c, holes := s.holes ++ [⟨s.cursor.pos, c.pos⟩] }

theorem length_scanHole_lt {s : Scanner} (h : ¬ s.cursor.atEnd) :
    s.scanHole.cursor.ahead.length < s.cursor.ahead.length :=
  Cursor.Onward.length_lt h _

def scanString (s : Scanner) : Scanner :=
  if _h : s.cursor.atEnd then s.endLiteral .code
  else if s.cursor.peek 0 = '\\'.toUInt8 then (s.advance 2).scanString
  else if s.mode.isInterpolated ∧ (s.cursor.peek 0 = '{'.toUInt8 ∨ s.cursor.peek 0 = '}'.toUInt8) ∧
      s.cursor.peek 1 = s.cursor.peek 0 then (s.advance 2).scanString
  else if s.mode.isInterpolated ∧ s.cursor.peek 0 = '{'.toUInt8 then s.scanHole.scanString
  else if s.cursor.peek 0 = '"'.toUInt8 then (s.endLiteral .code).advance 1
  else (s.advance 1).scanString
termination_by s.cursor.ahead.length
decreasing_by
  all_goals first | exact Cursor.length_advance_lt _h _ | exact length_scanHole_lt _h

/-- Scans a verbatim string after its opening quote, or from the start of a line that it goes on in. -/
def scanVerbatim (s : Scanner) : Scanner :=
  if _h : s.cursor.atEnd then s.endLiteral s.mode
  else if s.cursor.peek 0 = '"'.toUInt8 ∧ s.cursor.peek 1 = '"'.toUInt8 then
    (s.advance 2).scanVerbatim
  else if s.mode.isInterpolated ∧ (s.cursor.peek 0 = '{'.toUInt8 ∨ s.cursor.peek 0 = '}'.toUInt8) ∧
      s.cursor.peek 1 = s.cursor.peek 0 then (s.advance 2).scanVerbatim
  else if s.mode.isInterpolated ∧ s.cursor.peek 0 = '{'.toUInt8 then s.scanHole.scanVerbatim
  else if s.cursor.peek 0 = '"'.toUInt8 then (s.endLiteral .code).advance 1
  else (s.advance 1).scanVerbatim
termination_by s.cursor.ahead.length
decreasing_by
  all_goals first | exact Cursor.length_advance_lt _h _ | exact length_scanHole_lt _h

theorem length_scanString_le (s : Scanner) :
    s.scanString.cursor.ahead.length ≤ s.cursor.ahead.length := by
  fun_induction scanString s with
  | case1 => exact Nat.le_refl _
  | case2 s h _ ih => exact Nat.le_trans ih (Nat.le_of_lt (Cursor.length_advance_lt h 1))
  | case3 s h _ _ ih => exact Nat.le_trans ih (Nat.le_of_lt (Cursor.length_advance_lt h 1))
  | case4 s h _ _ _ ih => exact Nat.le_trans ih (Nat.le_of_lt (length_scanHole_lt h))
  | case5 s h => exact Nat.le_of_lt (Cursor.length_advance_lt h 0)
  | case6 s h _ _ _ _ ih => exact Nat.le_trans ih (Nat.le_of_lt (Cursor.length_advance_lt h 0))

theorem length_scanVerbatim_le (s : Scanner) :
    s.scanVerbatim.cursor.ahead.length ≤ s.cursor.ahead.length := by
  fun_induction scanVerbatim s with
  | case1 => exact Nat.le_refl _
  | case2 s h _ ih => exact Nat.le_trans ih (Nat.le_of_lt (Cursor.length_advance_lt h 1))
  | case3 s h _ _ ih => exact Nat.le_trans ih (Nat.le_of_lt (Cursor.length_advance_lt h 1))
  | case4 s h _ _ _ ih => exact Nat.le_trans ih (Nat.le_of_lt (length_scanHole_lt h))
  | case5 s h => exact Nat.le_of_lt (Cursor.length_advance_lt h 0)
  | case6 s h _ _ _ _ ih => exact Nat.le_trans ih (Nat.le_of_lt (Cursor.length_advance_lt h 0))

def scanDefault (s : Scanner) : Scanner :=
  if s.cursor.sees ['$', '@', '"'] ∨ s.cursor.sees ['@', '$', '"'] then
    ((s.advance 3).startLiteral ⟨true, true⟩).scanVerbatim
  else if s.cursor.sees ['$', '"'] then ((s.advance 2).startLiteral ⟨false, true⟩).scanString
  else if s.cursor.sees ['@', '"'] then ((s.advance 2).startLiteral ⟨true, false⟩).scanVerbatim
  else if s.cursor.sees ['/', '*'] then
    let (c, closed) := (s.cursor.advance 2).skipComment
    { s with cursor := c.cursor, mode := if closed then s.mode else .comment }
  else if s.cursor.sees ['/', '/'] then s.advance s.cursor.ahead.length
  else if s.cursor.peek 0 = '"'.toUInt8 then ((s.advance 1).startLiteral ⟨false, false⟩).scanString
  else if s.cursor.peek 0 = '\''.toUInt8 then
    { s with cursor := (s.cursor.advance 1).skipCharacter.cursor }
  else s.advance 1

theorem length_scanDefault_lt {s : Scanner} (h : ¬ s.cursor.atEnd) :
    s.scanDefault.cursor.ahead.length < s.cursor.ahead.length := by
  have hstart (n : Nat) (k : StringKind) : ((s.advance (n + 1)).startLiteral k).cursor.ahead.length <
      s.cursor.ahead.length := Cursor.length_advance_lt h n
  unfold scanDefault
  split
  · exact Nat.lt_of_le_of_lt (length_scanVerbatim_le _) (hstart 2 _)
  · split
    · exact Nat.lt_of_le_of_lt (length_scanString_le _) (hstart 1 _)
    · split
      · exact Nat.lt_of_le_of_lt (length_scanVerbatim_le _) (hstart 1 _)
      · split
        · exact Cursor.Onward.length_lt h _
        · split
          · have hpos : 0 < s.cursor.ahead.length :=
              List.length_pos_iff.2 fun hnil => h (by simp [Cursor.atEnd, hnil])
            simpa [advance, Cursor.advance] using hpos
          · split
            · exact Nat.lt_of_le_of_lt (length_scanString_le _) (hstart 0 _)
            · split
              · exact Cursor.Onward.length_lt h _
              · exact Cursor.length_advance_lt h 0

def scanCode (s : Scanner) : Scanner :=
  if _h : s.cursor.atEnd ∨ s.mode ≠ .code then s else s.scanDefault.scanCode
termination_by s.cursor.ahead.length
decreasing_by exact length_scanDefault_lt fun hend => _h (.inl hend)

def run (s : Scanner) : Scanner :=
  match s.mode with
  | .code => s.scanCode
  | .comment =>
    let (c, closed) := s.cursor.skipComment
    { s with cursor := c.cursor, mode := if closed then .code else .comment }.scanCode
  | .string k =>
    if k.verbatim then { s.startLiteral k with continued := true }.scanVerbatim.scanCode
    else { s with mode := .code }.scanCode

end Scanner

/-- Scans a line that starts in a mode. Unfinished constructs end with the line; verbatim strings
and block comments go on in the next one. -/
def scanLine (mode : Mode) (line : List Char) : LineScan :=
  let s := Scanner.run ⟨.ofLine line, mode, none, false, [], []⟩
  ⟨s.mode, s.fragments⟩

def nextMode (mode : Mode) (line : List Char) : Mode := (scanLine mode line).mode

end SqlHighlight.Literal
