import SqlHighlight.Text.Bytes

namespace SqlHighlight.Command

inductive ReadError
  | notFound
  | notDirectory
  | isDirectory
  | nameTooLong
  | nulInName
  | notText
  | other (message : String)
  deriving DecidableEq, Repr

def ReadError.message : ReadError → String
  | .notFound => "No such file or directory (os error 2)"
  | .notDirectory => "Not a directory (os error 20)"
  | .isDirectory => "Is a directory (os error 21)"
  | .nameTooLong => "File name too long (os error 36)"
  | .nulInName => "file name contained an unexpected NUL byte"
  | .notText => "stream did not contain valid UTF-8"
  | .other message => message

structure FileAccess (m : Type → Type) where
  read : String → m (Except ReadError String)
  isThere : String → m Bool

def joinPath (directory name : String) : String :=
  if directory.toList.isEmpty || directory.toList.getLast? = some '/' then directory ++ name
  else directory ++ "/" ++ name

namespace Path

def parts : List Char → List (List Char)
  | [] => [[]]
  | '/' :: cs => [] :: parts cs
  | c :: cs =>
    match parts cs with
    | [] => [[c]]
    | p :: ps => (c :: p) :: ps

def isIdle (part : List Char) : Bool := part = [] || part = ['.']

def names (path : String) : List (List Char) := (parts path.toList).filter (!isIdle ·)

def widthLimit : Nat := 4095

def nameLimit : Nat := 255

end Path

structure FileTree where
  location : String
  files : List (String × ByteArray)
  directories : List String

namespace FileTree

inductive Place
  | directory (path : List (List Char))
  | file (bytes : ByteArray)

def fromRoot (t : FileTree) (path : String) : List (List Char) :=
  Path.names t.location ++ Path.names path

def find (t : FileTree) (path : List (List Char)) : Except ReadError Place :=
  match t.files.find? fun (p, _) => t.fromRoot p == path with
  | some (_, bytes) => .ok (.file bytes)
  | none =>
    if ("" :: t.directories ++ t.files.map Prod.fst).any (path.isPrefixOf <| t.fromRoot ·) then
      .ok (.directory path)
    else .error .notFound

/-- Goes on by one part of a path. Nothing is inside a file, so that even idle parts fail there; the
root is above itself. -/
def step (t : FileTree) : Place → List Char → Except ReadError Place
  | .file _, _ => .error .notDirectory
  | .directory path, part =>
    if Path.isIdle part then .ok (.directory path)
    else if part = ['.', '.'] then .ok (.directory path.dropLast)
    else if Path.nameLimit < Text.width part then .error .nameTooLong
    else t.find (path ++ [part])

/-- Follows a path from the root if it starts with a slash, and else from the directory. -/
def walk (t : FileTree) (path : List Char) : Except ReadError Place :=
  if path.contains (Char.ofNat 0) then .error .nulInName
  else if path.isEmpty then .error .notFound
  else if Path.widthLimit < Text.width path then .error .nameTooLong
  else
    let start := if path.head? = some '/' then [] else t.fromRoot ""
    (Path.parts path).foldlM t.step (.directory start)

def read (t : FileTree) (path : String) : Except ReadError String :=
  match t.walk path.toList with
  | .error e => .error e
  | .ok (.directory _) => .error .isDirectory
  | .ok (.file bytes) =>
    match String.fromUTF8? bytes with
    | some s => .ok s
    | none => .error .notText

def access (t : FileTree) : FileAccess Id where
  read := t.read
  isThere path := (t.walk path.toList).toOption.isSome

end FileTree

end SqlHighlight.Command
