import SqlHighlight.Classify.Settings
import SqlHighlight.Literal.Tagger
import SqlHighlight.Sql.Concrete

namespace SqlHighlight.Holes

def endingAfter (offset : Nat) (holes : List Range) : List Range :=
  holes.dropWhile (·.stop ≤ offset)

def hasStarted (offset : Nat) : List Range → Bool
  | hole :: _ => hole.start ≤ offset
  | [] => false

/-- Fills characters that start at an offset: inside a hole each gives its bytes in fillers. -/
def fillFrom (filler : Char) (offset : Nat) (holes : List Range) : List Char → List Char
  | [] => []
  | c :: cs =>
    let holes := endingAfter offset holes
    (if hasStarted offset holes then List.replicate c.utf8Size filler else [c]) ++
      fillFrom filler (offset + c.utf8Size) holes cs

def fill (filler : Char) (holes : List Range) (text : List Char) : List Char :=
  fillFrom filler 0 holes text

/-- The parts of a range that lie before, between and after the holes. -/
def cut (category : Category) (start stop : Nat) : List Range → List Span
  | [] => if start < stop then [⟨category, ⟨start, stop⟩⟩] else []
  | hole :: holes =>
    if start < stop then
      if hole.start < stop then
        let rest := cut category (max start hole.stop) stop holes
        if start < hole.start then ⟨category, ⟨start, hole.start⟩⟩ :: rest else rest
      else [⟨category, ⟨start, stop⟩⟩]
    else []

def cutAll (holes : List Range) : List Span → List Span
  | [] => []
  | s :: ss =>
    let holes := endingAfter s.range.start holes
    cut s.category s.range.start s.range.stop holes ++ cutAll holes ss

end SqlHighlight.Holes

namespace SqlHighlight

namespace Gate

def isIdentifierChar (c : Char) : Bool :=
  c.isAlphanum || c == '_' || c == '@' || c == '#' || c == '$'

def startsWithWord (word text : List Char) : Bool :=
  word.isPrefixOf text &&
    match text.drop word.length with
    | c :: _ => !isIdentifierChar c
    | [] => true

def startKeyword? (words : List String) (text : List Char) : Option String :=
  let trimmed := Text.trimStart text
  words.find? fun word => startsWithWord word.toList trimmed

end Gate

abbrev Parser := String → Except Fault Sql.Document

/-- The parser of a backend, with the concrete trees of texts, where there are any. -/
def Backend.parser (trees : String → Option Sql.ConcreteTree) : Backend → Parser
  | .tokens => fun sql => .ok (.ofText sql)
  | .concrete => fun sql =>
    match trees sql with
    | some tree => Sql.Document.ofConcrete sql tree
    | none => .ok ⟨none, false⟩

structure Classifier where
  settings : Settings
  parser : Parser

namespace Classifier

def new (trees : String → Option Sql.ConcreteTree) (settings : Settings) :
    Except SettingsError Classifier := do
  settings.validate
  return ⟨settings, settings.backend.parser trees⟩

/-- The spans of a document over a text of so many bytes; none if its pieces do not add up to
the text. -/
def spansOf? (c : Classifier) (holes : List Range) (width : Nat) (d : Sql.Document) :
    Option (List Span) :=
  if d.root.isNone || d.errorFound || Sql.totalWidth d.pieces ≠ width then none
  else
    let spans := Sql.layOut 0 d.pieces
    some (Holes.cutAll holes (spans.filter fun s => c.settings.emitPlain || s.category ≠ .plain))

/-- The spans of a literal's text around its holes; none if it is not taken for SQL or has
errors. -/
def classifyText (c : Classifier) (text : List Char) (holes : List Range) :
    Except Fault (Option (List Span)) :=
  match Gate.startKeyword? c.settings.startKeywords text with
  | none => .ok none
  | some _ => do
    let filled := Holes.fill c.settings.fillerByte holes text
    let d ← c.parser (String.ofList filled)
    return c.spansOf? holes (Text.width filled) d

def classifyLiteral (c : Classifier) (r : Revision) (l : Literal) : Except Fault (List Span) := do
  let text ← r.slice l.range
  let spans ← c.classifyText text l.relativeHoles
  let base := l.range.start
  return (spans.getD []).map fun s =>
    ⟨s.category, ⟨Offset.add base s.range.start, Offset.add base s.range.stop⟩⟩

def classifyAll (c : Classifier) (r : Revision) : List Literal → Except Fault (List Span)
  | [] => .ok []
  | l :: ls => do
    let spans ← c.classifyLiteral r l
    let more ← classifyAll c r ls
    return spans ++ more

def classify (c : Classifier) (t : Tagger) (r : Revision) (query : Range) :
    Except Fault (List Span) :=
  c.classifyAll r (t.literals r query)

def classifySource (c : Classifier) (source : String) : Except Fault (List Span) :=
  let r := Revision.first source
  c.classify (.ofRevision r) r ⟨0, r.length⟩

def format (c : Classifier) (sql : String) : Except Fault (List Sql.Piece) :=
  (c.parser sql).map Sql.Document.formatted

end Classifier

end SqlHighlight
