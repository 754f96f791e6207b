import SqlHighlight.Text.Bytes

/-! A place in the bytes of a line, and the routines that skip what is nested in a hole. They record
nothing, and all of them stop at the end of the line. -/

namespace SqlHighlight.Literal

/-- The four kinds of string: `"`, `$"`, `@"` and `$@"`. -/
structure StringKind where
  verbatim : Bool
  interpolated : Bool
  deriving DecidableEq, Repr

/-- What a line starts inside, and what it leaves open for the next one. -/
inductive Mode
  | code
  | string : StringKind → Mode
  | comment
  deriving DecidableEq, Repr

namespace Mode

def isVerbatim : Mode → Bool
  | .string k => k.verbatim
  | _ => false

def isInterpolated : Mode → Bool
  | .string k => k.interpolated
  | _ => false

def endsLine : Mode → Bool
  | .string k => k.verbatim
  | _ => true

end Mode

def StringKind.leftOpen (k : StringKind) : Mode :=
  if k.verbatim then .string k else .code

theorem StringKind.endsLine_leftOpen (k : StringKind) : k.leftOpen.endsLine := by
  cases h : k.verbatim <;> simp [leftOpen, Mode.endsLine, h]

structure Cursor where
  pos : Nat
  ahead : List UInt8
  deriving DecidableEq, Repr

namespace Cursor

def ofLine (line : List Char) : Cursor := ⟨0, Text.bytes line⟩

def atEnd (c : Cursor) : Bool := c.ahead.isEmpty

def peek (c : Cursor) (n : Nat) : UInt8 := c.ahead[n]?.getD 0

def sees (c : Cursor) (mark : List Char) : Bool := (Text.bytes mark).isPrefixOf c.ahead

def advance (c : Cursor) (n : Nat) : Cursor := ⟨c.pos + min n c.ahead.length, c.ahead.drop n⟩

/-- A cursor further on in the line, or at the same place. -/
structure Onward (c : Cursor) where
  cursor : Cursor
  length_le : cursor.ahead.length ≤ c.ahead.length
  pos_add_length : cursor.pos + cursor.ahead.length = c.pos + c.ahead.length

theorem length_advance_lt {c : Cursor} (h : ¬ c.atEnd) (n : Nat) :
    (c.advance (n + 1)).ahead.length < c.ahead.length := by
  have hpos : 0 < c.ahead.length := List.length_pos_iff.2 fun hnil => h (by simp [atEnd, hnil])
  simp only [advance, List.length_drop]
  omega

namespace Onward

def advance (c : Cursor) (n : Nat) : c.Onward where
  cursor := c.advance n
  length_le := by
    simp only [Cursor.advance, List.length_drop]
    omega
  pos_add_length := by
    simp only [Cursor.advance, List.length_drop]
    omega

def trans {c : Cursor} (d : c.Onward) (e : d.cursor.Onward) : c.Onward where
  cursor := e.cursor
  length_le := Nat.le_trans e.length_le d.length_le
  pos_add_length := e.pos_add_length.trans d.pos_add_length

def after {c : Cursor} (n : Nat) (d : (c.advance n).Onward) : c.Onward where
  cursor := d.cursor
  length_le := Nat.le_trans d.length_le (advance c n).length_le
  pos_add_length := d.pos_add_length.trans (advance c n).pos_add_length

@[simp] theorem cursor_advance (c : Cursor) (n : Nat) : (advance c n).cursor = c.advance n := rfl

@[simp] theorem cursor_trans {c : Cursor} (d : c.Onward) (e : d.cursor.Onward) :
    (d.trans e).cursor = e.cursor := rfl

@[simp] theorem cursor_after {c : Cursor} (n : Nat) (d : (c.advance n).Onward) :
    (after n d).cursor = d.cursor := rfl

theorem length_lt {c : Cursor} (h : ¬ c.atEnd) {n : Nat} (d : (c.advance (n + 1)).Onward) :
    d.cursor.ahead.length < c.ahead.length :=
  Nat.lt_of_le_of_lt d.length_le (length_advance_lt h n)

end Onward

def skipCharacter (c : Cursor) : c.Onward :=
  if _h : c.atEnd then .advance c 0
  else if c.peek 0 = '\\'.toUInt8 then (c.advance 2).skipCharacter.after 2
  else if c.peek 0 = '\''.toUInt8 then .advance c 1
  else (c.advance 1).skipCharacter.after 1
termination_by c.ahead.length
decreasing_by all_goals exact length_advance_lt _h _

def skipComment (c : Cursor) : c.Onward × Bool :=
  if _h : c.atEnd then (.advance c 0, false)
  else if c.sees ['*', '/'] then (.advance c 2, true)
  else
    let (d, closed) := (c.advance 1).skipComment
    (d.after 1, closed)
termination_by c.ahead.length
decreasing_by exact length_advance_lt _h _

/-- What the loop over a string does at the cursor: it passes a byte and some more, goes through a
hole, or closes the string. -/
inductive Turn
  | pass (more : Nat)
  | hole
  | close
  deriving DecidableEq, Repr

def regularTurn (interpolated : Bool) (c : Cursor) : Turn :=
  if c.peek 0 = '\\'.toUInt8 then .pass 1
  else if interpolated ∧ (c.peek 0 = '{'.toUInt8 ∨ c.peek 0 = '}'.toUInt8) ∧ c.peek 1 = c.peek 0 then
    .pass 1
  else if interpolated ∧ c.peek 0 = '{'.toUInt8 then .hole
  else if c.peek 0 = '"'.toUInt8 then .close
  else .pass 0

def verbatimTurn (interpolated : Bool) (c : Cursor) : Turn :=
  if c.peek 0 = '"'.toUInt8 ∧ c.peek 1 = '"'.toUInt8 then .pass 1
  else if interpolated ∧ (c.peek 0 = '{'.toUInt8 ∨ c.peek 0 = '}'.toUInt8) ∧ c.peek 1 = c.peek 0 then
    .pass 1
  else if interpolated ∧ c.peek 0 = '{'.toUInt8 then .hole
  else if c.peek 0 = '"'.toUInt8 then .close
  else .pass 0

def turn (k : StringKind) (c : Cursor) : Turn :=
  if k.verbatim then verbatimTurn k.interpolated c else regularTurn k.interpolated c

mutual

def skipString (k : StringKind) (c : Cursor) : c.Onward :=
  if _h : c.atEnd then .advance c 0
  else
    match c.turn k with
    | .pass more => (skipString k (c.advance (more + 1))).after (more + 1)
    | .hole =>
      let d := skipHole 0 (c.advance 1)
      (d.trans (skipString k d.cursor)).after 1
    | .close => .advance c 1
termination_by c.ahead.length
decreasing_by
  · exact length_advance_lt _h _
  · exact length_advance_lt _h _
  · exact d.length_lt _h

/-- Skips the code of a hole, to behind the brace that closes it. Nested braces are counted. -/
def skipHole (depth : Nat) (c : Cursor) : c.Onward :=
  if _h : c.atEnd then .advance c 0
  else if c.sees ['$', '@', '"'] ∨ c.sees ['@', '$', '"'] then
    let d := skipString ⟨true, true⟩ (c.advance 3)
    (d.trans (skipHole depth d.cursor)).after 3
  else if c.sees ['$', '"'] then
    let d := skipString ⟨false, true⟩ (c.advance 2)
    (d.trans (skipHole depth d.cursor)).after 2
  else if c.sees ['@', '"'] then
    let d := skipString ⟨true, false⟩ (c.advance 2)
    (d.trans (skipHole depth d.cursor)).after 2
  else if c.sees ['/', '*'] then
    let d := (c.advance 2).skipComment.1
    (d.trans (skipHole depth d.cursor)).after 2
  else if c.sees ['/', '/'] then .advance c c.ahead.length
  else if c.peek 0 = '"'.toUInt8 then
    let d := skipString ⟨false, false⟩ (c.advance 1)
    (d.trans (skipHole depth d.cursor)).after 1
  else if c.peek 0 = '\''.toUInt8 then
    let d := (c.advance 1).skipCharacter
    (d.trans (skipHole depth d.cursor)).after 1
  else if c.peek 0 = '{'.toUInt8 then
    (skipHole (depth + 1) (c.advance 1)).after 1
  else if c.peek 0 = '}'.toUInt8 then
    match depth with
    | 0 => .advance c 1
    | depth + 1 => (skipHole depth (c.advance 1)).after 1
  else (skipHole depth (c.advance 1)).after 1
termination_by c.ahead.length
decreasing_by
  all_goals first | exact length_advance_lt _h _ | exact Onward.length_lt _h d

end

end Cursor

end SqlHighlight.Literal
