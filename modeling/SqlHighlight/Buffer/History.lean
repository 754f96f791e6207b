import SqlHighlight.Text.Lines

namespace SqlHighlight

/-- A state of a buffer. Revisions with one number are the same; versions count the edits since
the first revision, so they can agree on different revisions. -/
structure Revision where
  number : Nat
  version : Nat
  text : String
  deriving DecidableEq, Repr

structure Change where
  baseVersion : Nat
  oldStart : Nat
  oldLength : Nat
  newStart : Nat
  newLength : Nat
  lineDelta : Int
  deriving DecidableEq, Repr

namespace Revision

def first (text : String) : Revision := ⟨0, 0, text⟩

def chars (r : Revision) : List Char := r.text.toList

def length (r : Revision) : Nat := Text.width r.chars

def isEmpty (r : Revision) : Bool := r.chars.isEmpty

def lines (r : Revision) : List Line := Text.lines r.chars

def lineCount (r : Revision) : Nat := r.lines.length

def line? (r : Revision) (number : Nat) : Option Line := r.lines[number]?

def lineAt (r : Revision) (offset : Nat) : Nat := Text.lineAt offset r.lines

def slice (r : Revision) (range : Range) : Except Fault (List Char) :=
  let start := min range.start r.length
  Text.slice start (max start (min range.stop r.length)) r.chars

/-- Replaces a range, and gives the next revision the number. The ends of the range are moved
down to the nearest boundary. -/
def edit (r : Revision) (number : Nat) (range : Range) (replacement : String) :
    Revision × Change :=
  let (before, tail) := Text.splitFloor range.start r.chars
  let start := Text.width before
  let (removed, after) := Text.splitFloor (max range.start range.stop - start) tail
  let inserted := replacement.toList
  (⟨number, r.version + 1, String.ofList (before ++ inserted ++ after)⟩,
    { baseVersion := r.version
      oldStart := start
      oldLength := Text.width removed
      newStart := start
      newLength := Text.width inserted
      lineDelta := (inserted.count '\n' : Int) - removed.count '\n' })

def insert (r : Revision) (number offset : Nat) (text : String) : Revision × Change :=
  r.edit number ⟨offset, offset⟩ text

def delete (r : Revision) (number : Nat) (range : Range) : Revision × Change :=
  r.edit number range ""

end Revision

structure History where
  revisions : List Revision
  changes : List Change
  deriving DecidableEq, Repr

namespace History

def start (text : String) : History := ⟨[.first text], []⟩

def edit (h : History) (r : Revision) (range : Range) (replacement : String) :
    History × Revision × Change :=
  let (next, change) := r.edit h.revisions.length range replacement
  (⟨h.revisions ++ [next], h.changes ++ [change]⟩, next, change)

end History

end SqlHighlight
