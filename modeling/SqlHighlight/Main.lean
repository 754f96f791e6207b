import SqlHighlight.Command.Run

open SqlHighlight.Command

namespace SqlHighlight

def readError : IO.Error → ReadError
  | .noFileOrDirectory .. => .notFound
  | .inappropriateType _ 21 _ => .isDirectory
  | .inappropriateType .. => .notDirectory
  | e => .other (toString e)

def diskAccess : FileAccess IO where
  read path := do
    try
      match String.fromUTF8? (← IO.FS.readBinFile path) with
      | some s => return .ok s
      | none => return .error .notText
    catch e => return .error (readError e)
  isThere path := do
    try
      discard (IO.FS.readBinFile path)
      return true
    catch e => return readError e matches .isDirectory | .other _

def environment : IO Environment := do
  let configDirectory ← IO.getEnv "CSQL_CONFIG_DIR"
  let home ← IO.getEnv "HOME"
  let userDirectory := (← IO.getEnv "XDG_CONFIG_HOME").filter (·.toList.head? = some '/')
  return ⟨configDirectory, userDirectory.or (home.map (joinPath · ".config"))⟩

end SqlHighlight

/-- No concrete trees come with a command line, so that backend leaves literals alone. -/
def main (arguments : List String) : IO UInt32 := do
  let outcome ← run SqlHighlight.diskAccess (fun _ => none) (← SqlHighlight.environment) arguments
  IO.eprint outcome.errors
  IO.print outcome.output
  return UInt32.ofNat outcome.code
