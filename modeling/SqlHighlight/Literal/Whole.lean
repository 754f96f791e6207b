import SqlHighlight.Literal.Scanner
import SqlHighlight.Text.Lines

namespace SqlHighlight

/-- A string literal of a text: the range of its content without quotes, and its holes. -/
structure Literal where
  range : Range
  interpolated : Bool
  holes : List Range
  deriving DecidableEq, Repr

namespace Literal

def length (l : Literal) : Nat := l.range.length

def isEmpty (l : Literal) : Bool := l.range.isEmpty

def relativeHoles (l : Literal) : List Range := l.holes.map (·.relativeTo l.range.start)

def meets (query : Range) (l : Literal) : Bool := query.meets l.range

def absorb (l next : Literal) : Literal :=
  ⟨⟨l.range.start, next.range.stop⟩, l.interpolated, l.holes ++ next.holes⟩

def ofFragment (start : Nat) (f : Fragment) : Literal :=
  ⟨f.range.shift start, f.interpolated, f.holes.map (·.shift start)⟩

/-- Literals found so far, in order, and the one that is still open. -/
structure Assembly where
  done : List Literal
  pending : Option Literal
  deriving DecidableEq, Repr

namespace Assembly

def empty : Assembly := ⟨[], none⟩

def flush (a : Assembly) : Assembly := ⟨a.done ++ a.pending.toList, none⟩

def finish (l : Literal) (a : Assembly) : Assembly := ⟨a.done ++ [l], none⟩

def add (start : Nat) (a : Assembly) (f : Fragment) : Assembly :=
  let next := ofFragment start f
  if f.continued then
    let joined := match a.pending with
      | some l => l.absorb next
      | none => next
    if f.openAtEnd then { a with pending := some joined } else a.finish joined
  else if f.openAtEnd then { a.flush with pending := some next }
  else a.flush.finish next

/-- Adds the fragments of a line, and ends an open literal that the line closed before any
content. -/
def addLine (a : Assembly) (start : Nat) (scan : LineScan) : Assembly :=
  let b := scan.fragments.foldl (add start) a
  if scan.mode.isVerbatim then b else b.flush

end Assembly

def isBehind (query : Range) (start : Nat) : Bool :=
  if query.isEmpty then query.stop < start else query.stop ≤ start

/-- Assembles the literals of lines until they lie behind the query and no literal is open. -/
def gather (query : Range) : Mode → Assembly → List Line → Assembly
  | _, a, [] => a
  | mode, a, l :: ls =>
    if isBehind query l.start && !mode.isVerbatim then a
    else
      let scan := scanLine mode l.text
      gather query scan.mode (a.addLine l.start scan) ls

end Literal

end SqlHighlight
