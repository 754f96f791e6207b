import SqlHighlight.Classify.SettingsText

namespace SqlHighlight.Command

inductive Task
  | highlight
  | spans
  | format
  deriving DecidableEq, Repr

structure Args where
  task : Task := .highlight
  file : Option String := none
  config : Option String := none
  theme : Option String := none
  backend : Option Backend := none
  noColor : Bool := false
  help : Bool := false
  version : Bool := false
  deriving DecidableEq, Repr

inductive ArgError
  | missingValue (option : String)
  | unknownBackend (name : String)
  | unknownOption (option : String)
  | unexpectedArgument (argument : String)
  deriving DecidableEq, Repr

def ArgError.message : ArgError → String
  | .missingValue option => option ++ " requires a value"
  | .unknownBackend name => "unknown backend: " ++ name
  | .unknownOption option => "unknown option: " ++ option
  | .unexpectedArgument argument => "unexpected argument: " ++ argument

namespace Args

def read (a : Args) : List String → Except ArgError Args
  | [] => .ok a
  | "-h" :: rest => read { a with help := true } rest
  | "--help" :: rest => read { a with help := true } rest
  | "-V" :: rest => read { a with version := true } rest
  | "--version" :: rest => read { a with version := true } rest
  | "--spans" :: rest => read { a with task := .spans } rest
  | "--format" :: rest => read { a with task := .format } rest
  | "--no-color" :: rest => read { a with noColor := true } rest
  | "--config" :: path :: rest => read { a with config := some path } rest
  | "--theme" :: theme :: rest => read { a with theme := some theme } rest
  | "--backend" :: name :: rest =>
    match Backend.ofName? name with
    | some backend => read { a with backend := some backend } rest
    | none => .error (.unknownBackend name)
  | ["--config"] => .error (.missingValue "--config")
  | ["--theme"] => .error (.missingValue "--theme")
  | ["--backend"] => .error (.missingValue "--backend")
  | argument :: rest =>
    if argument.toList.head? = some '-' then .error (.unknownOption argument)
    else if a.file.isSome then .error (.unexpectedArgument argument)
    else read { a with file := some argument } rest

def ofList (arguments : List String) : Except ArgError Args := read {} arguments

end Args

end SqlHighlight.Command
