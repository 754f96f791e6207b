import SqlHighlight.Command.Config
import SqlHighlight.Style.Basic
import SqlHighlight.Style.Highlight

namespace SqlHighlight.Command

structure Environment where
  configDirectory : Option String
  userDirectory : Option String
  deriving DecidableEq, Repr

def Environment.configPath? (e : Environment) : Option String :=
  match e.configDirectory with
  | some directory => some (joinPath directory "config.toml")
  | none => e.userDirectory.map fun d => joinPath (joinPath d "csql") "config.toml"

structure Outcome where
  code : Nat
  output : String
  errors : String
  deriving DecidableEq, Repr

def versionText : String := "csql 0.3.0\n"

def usage (e : Environment) : String :=
  "csql - Highlight the SQL embedded in C# source files\n" ++
  "\n" ++
  "Usage: csql [OPTIONS] <FILE>\n" ++
  "\n" ++
  "Arguments:\n" ++
  "  <FILE>              C# source file (or SQL file with --format)\n" ++
  "\n" ++
  "Options:\n" ++
  "  -h, --help          Print this help message\n" ++
  "  -V, --version       Print version information\n" ++
  "      --spans         Print classification spans instead of the source\n" ++
  "      --format        Treat FILE as a whole SQL document\n" ++
  "      --config <PATH> Use this config file\n" ++
  "      --theme <NAME>  Built-in theme (visual_studio, one_dark) or theme file\n" ++
  "      --backend <B>   SQL parser backend (tsql, tree-sitter)\n" ++
  "      --no-color      Disable ANSI colors\n" ++
  "\n" ++
  "Environment Variables:\n" ++
  "  CSQL_LOG            Log filter (e.g. csql_syntax=debug)\n" ++
  "  CSQL_CONFIG_DIR     Directory holding config.toml\n" ++
  "\n" ++
  "Configuration:\n" ++
  match e.configPath? with
  | some path => "  Config file: " ++ path ++ "\n"
  | none => ""

def printLines (color : Bool) (ls : List StyledLine) : String :=
  String.ofList (if color then Ansi.render ls else plainText ls)

def perform (task : Task) (color : Bool) (t : Theme) (c : Classifier) (source : String) :
    Except Fault String :=
  match task with
  | .spans => do
    let spans ← c.classifySource source
    return String.ofList (← Highlight.listing (.first source) spans)
  | .highlight => do return printLines color (← c.highlight t source)
  | .format => do
    let pieces ← c.format source
    let spans := (Sql.layOut 0 pieces).filter (·.category ≠ .plain)
    return printLines color (← Highlight.lines t (Sql.render pieces).toList spans)

variable {m : Type → Type} [Monad m]

/-- The configuration of the arguments, or of the file that is looked for; a file that cannot be
used is only warned of. -/
def configuration (fs : FileAccess m) (e : Environment) (a : Args) :
    m (Except Failure Config × String) := do
  match a.config, e.configPath? with
  | some path, _ => return (← Config.load fs path, "")
  | none, none => return (.ok {}, "")
  | none, some path =>
    if ← fs.isThere path then
      match ← Config.load fs path with
      | .ok config => return (.ok config, "")
      | .error f => return (.ok {}, "Warning: Failed to load config: " ++ f.inline ++ "\n")
    else return (.ok {}, "")

def process (fs : FileAccess m) (trees : String → Option Sql.ConcreteTree) (config : Config)
    (task : Task) (file : String) : m (Except Failure (Except Fault String)) := do
  match ← fs.read file with
  | .error e => return .error ⟨"Failed to read " ++ file, [e.message]⟩
  | .ok source =>
    match ← Config.theme fs config.display with
    | .error f => return .error f
    | .ok t =>
      match Classifier.new trees config.classifier with
      | .error e => return .error ⟨"Failed to create SQL classifier", [e.message]⟩
      | .ok c => return .ok (perform task config.display.color t c source)

def run (fs : FileAccess m) (trees : String → Option Sql.ConcreteTree) (e : Environment)
    (arguments : List String) : m Outcome := do
  match Args.ofList arguments with
  | .error err => return ⟨2, "", "Error: " ++ err.message ++ "\n\n" ++ usage e⟩
  | .ok a =>
    if a.help then return ⟨0, "", usage e⟩
    else if a.version then return ⟨0, versionText, ""⟩
    else match a.file with
      | none => return ⟨2, "", usage e⟩
      | some file =>
        let (config, warning) ← configuration fs e a
        match config with
        | .error f => return ⟨1, "", warning ++ f.report⟩
        | .ok config =>
          match ← process fs trees (config.override a) a.task file with
          | .error f => return ⟨1, "", warning ++ f.report⟩
          | .ok (.error _) => return ⟨101, "", warning⟩
          | .ok (.ok output) => return ⟨0, output, warning⟩

end SqlHighlight.Command
