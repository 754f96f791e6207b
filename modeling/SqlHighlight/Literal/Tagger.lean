import SqlHighlight.Buffer.History
import SqlHighlight.Literal.Whole

/-! A tagger follows one buffer: it keeps the mode that each line of the revision it tracks ends in,
takes in changes, and answers queries with whole literals. As a line's mode depends only on its text
and on the mode before it, a rescan may stop at the first clean line whose mode comes out as it
was. -/

namespace SqlHighlight.Literal

abbrev LineModes := List Mode

namespace LineModes

def before (modes : LineModes) : Nat → Mode
  | 0 => .code
  | line + 1 => (modes[line]?).getD .code

/-- Makes room for added lines, or drops removed ones, at a line. -/
def resize (modes : LineModes) (line : Nat) (delta : Int) : LineModes :=
  if 0 < delta then
    modes.take line ++ List.replicate delta.natAbs .code ++ modes.drop line
  else if delta < 0 then modes.take line ++ modes.drop (line + delta.natAbs)
  else modes

/-- Scans lines while some are dirty or the last mode changed. Gives the modes with the new ones
put in, and the number of lines scanned. -/
def settle : Nat → Bool → Mode → List Line → LineModes → LineModes × Nat
  | dirty, changed, mode, l :: ls, m :: ms =>
    if dirty = 0 && !changed then (m :: ms, 0)
    else
      let next := nextMode mode l.text
      let (rest, scanned) := settle (dirty - 1) (next != m) next ls ms
      (next :: rest, scanned + 1)
  | _, _, _, _, ms => (ms, 0)

/-- Rescans from one line to another, and on until a mode comes out as it was. Gives the new modes
and the range of lines scanned. -/
def rescan (modes : LineModes) (ls : List Line) (first last : Nat) : LineModes × Range :=
  let (rest, scanned) :=
    settle (last + 1 - first) true (modes.before first) (ls.drop first) (modes.drop first)
  (modes.take first ++ rest, ⟨first, first + scanned⟩)

def build (ls : List Line) : LineModes :=
  (rescan (List.replicate ls.length .code) ls 0 (ls.length - 1)).1

/-- The line that opens the verbatim string, if any, that a line starts in. -/
def openingLine (modes : LineModes) : Nat → Nat
  | 0 => 0
  | line + 1 => if (modes.before (line + 1)).isVerbatim then openingLine modes line else line + 1

def literals (modes : LineModes) (ls : List Line) (query : Range) : List Literal :=
  let first := modes.openingLine (Text.lineAt query.start ls)
  let lines := (ls.take modes.length).drop first
  ((gather query (modes.before first) .empty lines).flush.done).filter (meets query)

end LineModes

end SqlHighlight.Literal

namespace SqlHighlight

open Literal (LineModes)

inductive EditError
  | versionMismatch (expected found : Nat)
  deriving DecidableEq, Repr

def EditError.message : EditError → String
  | .versionMismatch expected found =>
    "change is based on version " ++ toString found ++ ", tagger tracks version " ++
      toString expected

/-- Lines whose modes were computed anew, and the range they cover. -/
structure Notice where
  lines : Range
  span : Range
  deriving DecidableEq, Repr

def Notice.ofLines (r : Revision) (lines : Range) : Notice :=
  let start := ((r.line? lines.start).map Line.start).getD r.length
  let stop := match lines.stop with
    | 0 => start
    | last + 1 => ((r.line? last).map Line.stop).getD start
  ⟨lines, ⟨start, max start stop⟩⟩

structure Tagger where
  revision : Revision
  modes : LineModes
  deriving DecidableEq, Repr

namespace Tagger

def ofRevision (r : Revision) : Tagger := ⟨r, LineModes.build r.lines⟩

def resize (after : Revision) (modes : LineModes) (changes : List Change) : LineModes :=
  changes.foldl (fun modes c => modes.resize (after.lineAt c.newStart) c.lineDelta) modes

def rescan (after : Revision) : LineModes → List Change → LineModes × List Notice
  | modes, [] => (modes, [])
  | modes, c :: cs =>
    let first := after.lineAt c.newStart
    let last := after.lineAt (Offset.add c.newStart c.newLength)
    let (settled, lines) := modes.rescan after.lines first last
    let (final, notices) := rescan after settled cs
    (final, .ofLines after lines :: notices)

/-- Moves on to the revision that changes of the tracked one have made, with a notice for each
change. All of them must be based on the tracked version. -/
def apply (t : Tagger) (after : Revision) (changes : List Change) :
    Except EditError (Tagger × List Notice) :=
  match changes.find? (·.baseVersion != t.revision.version) with
  | some c => .error (.versionMismatch t.revision.version c.baseVersion)
  | none =>
    let (modes, notices) := rescan after (resize after t.modes changes) changes
    .ok (⟨after, modes⟩, notices)

/-- The whole literals of a revision that meet a query; none for any revision but the tracked
one. -/
def literals (t : Tagger) (r : Revision) (query : Range) : List Literal :=
  if r.number = t.revision.number then t.modes.literals r.lines query else []

end Tagger

end SqlHighlight
