import SqlHighlight.Classify.Settings
import SqlHighlight.Toml.Reader

namespace SqlHighlight

open Toml (Value)

inductive SettingsTextError
  | malformed
  | invalid (e : SettingsError)
  deriving DecidableEq, Repr

namespace Backend

def names : List (String × Backend) := [("tsql", .tokens), ("tree-sitter", .concrete)]

def ofName? (name : String) : Option Backend := (names.find? (·.1 = name)).map Prod.snd

def ofValue? : Value → Option Backend
  | .string name => ofName? name
  | .table [(name, .table [])] => ofName? name
  | .table [(name, .array [])] => ofName? name
  | _ => none

end Backend

namespace Settings

def filler? (v : Value) : Option Char := do
  match (← v.string?).toList with
  | [c] => some c
  | _ => none

def ofValue? (v : Value) : Option Settings := do
  let entries ← v.fields? ["start_keywords", "filler", "backend", "emit_plain"]
  let defaults : Settings := {}
  let startKeywords ← Value.field? entries "start_keywords" defaults.startKeywords Value.strings?
  let filler ← Value.field? entries "filler" defaults.filler filler?
  let backend ← Value.field? entries "backend" defaults.backend Backend.ofValue?
  let emitPlain ← Value.field? entries "emit_plain" defaults.emitPlain Value.boolean?
  return { startKeywords, filler, backend, emitPlain }

def ofText (s : String) : Except SettingsTextError Settings :=
  match (Toml.read? s).bind ofValue? with
  | none => .error .malformed
  | some settings =>
    match settings.validate with
    | .ok _ => .ok settings
    | .error e => .error (.invalid e)

end Settings

end SqlHighlight
