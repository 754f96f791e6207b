import SqlHighlight.Classify.SettingsText
import SqlHighlight.Command.Args
import SqlHighlight.Command.Files
import SqlHighlight.Style.Theme

namespace SqlHighlight.Command

structure Failure where
  context : String
  causes : List String
  deriving DecidableEq, Repr

namespace Failure

def indent (margin : String) (s : String) : String :=
  String.ofList (s.toList.flatMap fun c => if c = '\n' then c :: margin.toList else [c])

def numbered (n : Nat) : List String → String
  | [] => ""
  | cause :: causes =>
    let number := toString n
    let pad := String.ofList (List.replicate (5 - number.length) ' ')
    pad ++ number ++ ": " ++ indent "       " cause ++ "\n" ++ numbered (n + 1) causes

def report (f : Failure) : String :=
  "Error: " ++ f.context ++ "\n" ++
    match f.causes with
    | [] => ""
    | [cause] => "\nCaused by:\n    " ++ indent "    " cause ++ "\n"
    | causes => "\nCaused by:\n" ++ numbered 0 causes

def inline (f : Failure) : String := ": ".intercalate (f.context :: f.causes)

end Failure

open Toml (Value)

structure Display where
  theme : String := "default"
  themeFile : Option String := none
  color : Bool := true
  deriving DecidableEq, Repr

structure Config where
  classifier : Settings := {}
  display : Display := {}
  deriving DecidableEq, Repr

def Display.ofValue? (v : Value) : Option Display := do
  let entries ← v.fields? ["theme", "theme_file", "color"]
  let defaults : Display := {}
  let theme ← Value.field? entries "theme" defaults.theme Value.string?
  let themeFile ← Value.field? entries "theme_file" none fun v => v.string?.map some
  let color ← Value.field? entries "color" defaults.color Value.boolean?
  return { theme, themeFile, color }

namespace Config

def ofValue? (v : Value) : Option Config := do
  let entries ← v.fields? ["classifier", "display"]
  let classifier ← Value.field? entries "classifier" {} Settings.ofValue?
  let display ← Value.field? entries "display" {} Display.ofValue?
  return { classifier, display }

def ofText (path text : String) : Except Failure Config :=
  match (Toml.read? text).bind ofValue? with
  | none => .error ⟨"Failed to parse config file: " ++ path, [Toml.malformedMessage]⟩
  | some config =>
    match config.classifier.validate with
    | .ok _ => .ok config
    | .error e => .error ⟨"Invalid [classifier] section in " ++ path, [e.message]⟩

variable {m : Type → Type} [Monad m]

def load (fs : FileAccess m) (path : String) : m (Except Failure Config) := do
  match ← fs.read path with
  | .ok text => return ofText path text
  | .error e => return .error ⟨"Failed to read config file: " ++ path, [e.message]⟩

def override (c : Config) (a : Args) : Config :=
  let classifier := { c.classifier with backend := a.backend.getD c.classifier.backend }
  let display := match a.theme with
    | none => c.display
    | some theme =>
      if ".toml".toList.isSuffixOf theme.toList then { c.display with themeFile := some theme }
      else { c.display with theme, themeFile := none }
  { classifier, display := { display with color := display.color && !a.noColor } }

def stem (path : String) : String :=
  let name := (Path.names path).getLast?.getD []
  match (name.drop 1).reverse.dropWhile (· != '.') with
  | _ :: kept => String.ofList (name.take 1 ++ kept.reverse)
  | [] => String.ofList name

def theme (fs : FileAccess m) (d : Display) : m (Except Failure Theme) := do
  match d.themeFile with
  | none => return .ok ((Theme.builtIn? d.theme).getD .visualStudio)
  | some path =>
    let context := "Failed to load theme file: " ++ path
    match ← fs.read path with
    | .error e => return .error ⟨context, ["IO error: " ++ e.message, e.message]⟩
    | .ok text =>
      match Theme.ofText text (stem path) with
      | .ok t => return .ok t
      | .error .malformed =>
        return .error ⟨context, [ThemeError.malformed.message, Toml.malformedMessage]⟩
      | .error e => return .error ⟨context, [e.message]⟩

end Config

end SqlHighlight.Command
