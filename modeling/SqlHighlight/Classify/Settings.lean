import SqlHighlight.Text.Characters

namespace SqlHighlight

inductive Backend
  | tokens
  | concrete
  deriving DecidableEq, Repr

def defaultStartKeywords : List String :=
  ["SELECT", "INSERT", "UPDATE", "DELETE", "MERGE", "WITH", "CREATE", "ALTER", "DROP",
    "TRUNCATE", "EXEC", "EXECUTE", "DECLARE", "BEGIN", "GRANT", "REVOKE"]

structure Settings where
  startKeywords : List String := defaultStartKeywords
  filler : Char := '_'
  backend : Backend := .tokens
  emitPlain : Bool := false
  deriving DecidableEq, Repr

inductive SettingsError
  | invalidFiller (c : Char)
  | noStartKeywords
  | invalidStartKeyword (word : String)
  deriving DecidableEq, Repr

def SettingsError.message : SettingsError → String
  | .invalidFiller c => "filler must be a single ASCII character, got " ++ Text.quoteChar c
  | .noStartKeywords => "start keyword list is empty"
  | .invalidStartKeyword word => "invalid start keyword " ++ Text.quote word

namespace Settings

def isAscii (c : Char) : Bool := c.toNat < 0x80

def isAsciiControl (c : Char) : Bool := c.toNat < 0x20 || c.toNat == 0x7F

/-- A filler that leaves one byte for one byte and starts no new line. -/
def isFiller (c : Char) : Bool := isAscii c && !isAsciiControl c

def isStartKeyword (word : String) : Bool :=
  !word.toList.isEmpty && !word.toList.any Text.isBlank

/-- Checks what the classifier relies on: the filler, that there are start keywords, and each of
them in order. -/
def validate (s : Settings) : Except SettingsError Unit :=
  if !isFiller s.filler then .error (.invalidFiller s.filler)
  else if s.startKeywords.isEmpty then .error .noStartKeywords
  else match s.startKeywords.find? (!isStartKeyword ·) with
    | some word => .error (.invalidStartKeyword word)
    | none => .ok ()

def fillerByte (s : Settings) : Char := if isAscii s.filler then s.filler else '_'

end Settings

end SqlHighlight
