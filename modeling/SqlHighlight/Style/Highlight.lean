import SqlHighlight.Classify.Classifier
import SqlHighlight.Style.Theme

namespace SqlHighlight

namespace Highlight

def part (l : Line) (start stop : Nat) (style : Style) : Except Fault StyledText := do
  return ⟨← Text.slice (start - l.start) (stop - l.start) l.text, style⟩

def gap (l : Line) (shown stop : Nat) : Except Fault StyledLine :=
  if shown < stop then do return [← part l shown stop .default] else .ok []

/-- Shows a line from an offset on, with spans that may reach over its ends. -/
def paint (t : Theme) (l : Line) (shown : Nat) : List Span → Except Fault StyledLine
  | [] => gap l shown l.stop
  | s :: ss =>
    if l.stop ≤ s.range.start then gap l shown l.stop
    else do
      let start := max s.range.start l.start
      let stop := min s.range.stop l.stop
      let before ← gap l shown start
      if start < stop then
        let inside ← part l start stop (t.styleOfCategory s.category)
        return before ++ inside :: (← paint t l stop ss)
      else return before ++ (← paint t l shown ss)

def orEmpty (l : StyledLine) : StyledLine := if l.isEmpty then [⟨[], .default⟩] else l

def paintAll (t : Theme) (spans : List Span) : List Line → Except Fault (List StyledLine)
  | [] => .ok []
  | l :: ls => do
    let spans := spans.dropWhile (·.range.stop ≤ l.start)
    let line ← paint t l l.start spans
    return orEmpty line :: (← paintAll t spans ls)

def lines (t : Theme) (source : List Char) (spans : List Span) :
    Except Fault (List StyledLine) := do
  let ls ← paintAll t spans (Text.listedLines source)
  return if ls.isEmpty then [orEmpty []] else ls

def decimal (n : Nat) : List Char := (toString n).toList

def listSpan (r : Revision) (ls : List Line) (s : Span) : Except Fault (List Char) := do
  let number := Text.lineAt s.range.start ls
  let column := (ls[number]?.map (s.range.start - ·.start)).getD 0
  let text ← r.slice s.range
  return decimal (number + 1) ++ ':' :: decimal (Offset.add column 1) ++
    '\t' :: decimal s.range.start ++ '.' :: '.' :: decimal s.range.stop ++
    '\t' :: s.category.label.toList ++ '\t' :: Text.quoted '"' text ++ ['\n']

def listAll (r : Revision) (ls : List Line) : List Span → Except Fault (List Char)
  | [] => .ok []
  | s :: ss => do
    let line ← listSpan r ls s
    return line ++ (← listAll r ls ss)

def listing (r : Revision) (spans : List Span) : Except Fault (List Char) :=
  listAll r r.lines spans

end Highlight

def Classifier.highlight (c : Classifier) (t : Theme) (source : String) :
    Except Fault (List StyledLine) := do
  Highlight.lines t source.toList (← c.classifySource source)

end SqlHighlight
