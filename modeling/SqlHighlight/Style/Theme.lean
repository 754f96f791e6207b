import SqlHighlight.Category
import SqlHighlight.Style.Basic
import SqlHighlight.Text.Characters
import SqlHighlight.Toml.Reader

namespace SqlHighlight

structure Theme where
  name : String
  styles : List (String × Style)
  deriving DecidableEq, Repr

namespace Theme

def beforePeriods : List Char → List (List Char)
  | [] => []
  | c :: cs =>
    let rest := (beforePeriods cs).map (c :: ·)
    if c = '.' then [] :: rest else rest

/-- A name and its parents, nearest first. -/
def lineage (name : List Char) : List (List Char) := name :: (beforePeriods name).reverse

def styleOf (t : Theme) (capture : String) : Style :=
  ((lineage capture.toList).findSome? fun name =>
    (t.styles.find? (·.1.toList == name)).map Prod.snd).getD .default

def styleOfCategory (t : Theme) (c : Category) : Style := t.styleOf c.capture

def captures (t : Theme) : List String := (t.styles.map Prod.fst).mergeSort fun a b => a ≤ b

def colored (red green blue : Nat) : Style := { foreground := some (.rgb red green blue) }

def visualStudio : Theme where
  name := "visual_studio"
  styles :=
    [("keyword", colored 0x56 0x9C 0xD6), ("function", colored 0xC5 0x63 0xBD),
      ("operator", colored 0xB4 0xB4 0xB4), ("string", colored 0xCB 0x41 0x41),
      ("number", colored 0xB5 0xCE 0xA8), ("comment", colored 0x57 0xA6 0x4A),
      ("variable.parameter", { colored 0xB2 0x22 0x22 with modifiers := [.bold] })]

def oneDark : Theme where
  name := "one_dark"
  styles :=
    [("keyword", colored 0xC6 0x78 0xDD), ("function", colored 0x61 0xAF 0xEF),
      ("operator", colored 0x56 0xB6 0xC2), ("string", colored 0x98 0xC3 0x79),
      ("number", colored 0xD1 0x9A 0x66), ("variable", colored 0xE5 0xC0 0x7B),
      ("variable.parameter", colored 0xE0 0x6C 0x75),
      ("comment", { colored 0x5C 0x63 0x70 with modifiers := [.italic] })]

def builtIn? (name : String) : Option Theme :=
  if name = "default" || name = "visual_studio" then some visualStudio
  else if name = "one_dark" then some oneDark
  else none

end Theme

open Toml (Value)

inductive ThemeError
  | malformed
  | invalidColor (capture color : String)
  deriving DecidableEq, Repr

def ThemeError.message : ThemeError → String
  | .malformed => "Parse error: " ++ Toml.malformedMessage
  | .invalidColor capture color => "Invalid color " ++ Text.quote color ++ " for " ++ capture

namespace Modifier

def names : List (String × Modifier) :=
  [("bold", .bold), ("dim", .dim), ("italic", .italic), ("underlined", .underlined),
    ("reversed", .reversed), ("crossedout", .crossedOut)]

def ofName? (name : String) : Option Modifier := (names.find? (·.1 = name)).map Prod.snd

end Modifier

structure ThemeEntry where
  foreground : Option String := none
  background : Option String := none
  modifiers : List Modifier := []
  deriving DecidableEq, Repr

namespace ThemeEntry

def fieldNames : List String := ["fg", "bg", "modifiers"]

def ofFields? (entries : List (String × Value)) : Option ThemeEntry := do
  let foreground ← Value.field? entries "fg" none fun v => v.string?.map some
  let background ← Value.field? entries "bg" none fun v => v.string?.map some
  let modifiers ← Value.field? entries "modifiers" [] fun v =>
    v.strings?.bind (·.mapM Modifier.ofName?)
  return { foreground, background, modifiers }

def ofValue? : Value → Option ThemeEntry
  | .string s => some { foreground := some s }
  | .array items =>
    if items.length ≤ fieldNames.length then ofFields? (fieldNames.zip items) else none
  | .table entries => ofFields? entries
  | _ => none

def color (palette : List (String × String)) (capture name : String) :
    Except ThemeError Color :=
  let written := ((palette.find? (·.1 = name)).map Prod.snd).getD name
  match Color.parse? written with
  | some c => .ok c
  | none => .error (.invalidColor capture name)

def style (palette : List (String × String)) (capture : String) (e : ThemeEntry) :
    Except ThemeError Style := do
  let foreground ← e.foreground.mapM (color palette capture)
  let background ← e.background.mapM (color palette capture)
  return { foreground, background, modifiers := e.modifiers }

end ThemeEntry

namespace Theme

def palette? : Value → Option (List (String × String))
  | .table entries => entries.mapM fun (name, v) => v.string?.map (name, ·)
  | _ => none

def parts? (v : Value) : Option (List (String × String) × List (String × ThemeEntry)) :=
  match v with
  | .table entries => do
    let palette ← Value.field? entries "palette" [] palette?
    let captures := entries.filter (·.1 ≠ "palette")
    return (palette, ← captures.mapM fun (name, v) => (ThemeEntry.ofValue? v).map (name, ·))
  | _ => none

def ofText (s name : String) : Except ThemeError Theme :=
  match (Toml.read? s).bind parts? with
  | none => .error .malformed
  | some (palette, entries) => do
    let styles ← entries.mapM fun (capture, e) => do return (capture, ← e.style palette capture)
    return ⟨name, styles⟩

end Theme

end SqlHighlight
