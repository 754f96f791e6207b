namespace SqlHighlight.Toml

inductive Value
  | string (s : String)
  | integer (n : Int)
  | boolean (b : Bool)
  | array (items : List Value)
  | table (entries : List (String × Value))
  deriving Repr

inductive Origin
  | implied
  | dotted
  | declared
  deriving DecidableEq, Repr

inductive Item
  | value (v : Value)
  | table (origin : Origin) (entries : List (String × Item))
  | tables (rows : List (List (String × Item)))
  deriving Repr

abbrev Entries := List (String × Item)

mutual

def Item.toValue : Item → Value
  | .value v => v
  | .table _ entries => .table (entriesToValue entries)
  | .tables rows => .array (rowsToValue rows)

def entriesToValue : List (String × Item) → List (String × Value)
  | [] => []
  | (key, item) :: entries => (key, item.toValue) :: entriesToValue entries

def rowsToValue : List (List (String × Item)) → List Value
  | [] => []
  | row :: rows => .table (entriesToValue row) :: rowsToValue rows

end

namespace Entries

def alter (key : String) (f : Option Item → Option Item) : Entries → Option Entries
  | [] => (f none).map fun item => [(key, item)]
  | (k, item) :: entries =>
    if k = key then (f (some item)).map fun item => (k, item) :: entries
    else (alter key f entries).map ((k, item) :: ·)

/-- Changes the table at a path, with the tables on the way put in if they are missing. A dotted
path does not go through declared tables; values are never entered. -/
def within (dotted : Bool) (f : Origin → Entries → Option Entries) (origin : Origin) :
    List String → Entries → Option Entries
  | [], entries => f origin entries
  | key :: path, entries =>
    entries.alter key fun
      | none =>
        let fresh : Origin := if dotted then .dotted else .implied
        (within dotted f fresh path []).map (.table fresh)
      | some (.table origin inner) =>
        if dotted && origin = .declared then none
        else (within dotted f origin path inner).map (.table origin)
      | some (.tables rows) =>
        (within dotted f .declared path (rows.getLast?.getD [])).map fun row =>
          .tables (rows.dropLast ++ [row])
      | some (.value _) => none

def insert (path : List String) (key : String) (v : Value) (entries : Entries) : Option Entries :=
  within true (fun origin entries =>
    if path.isEmpty || origin = .dotted then
      entries.alter key fun
        | none => some (.value v)
        | some _ => none
    else none) .declared path entries

def declare (path : List String) (key : String) (entries : Entries) : Option Entries :=
  within false (fun _ entries => entries.alter key fun
    | none => some (.table .declared [])
    | some (.table .implied inner) => some (.table .declared inner)
    | some _ => none) .declared path entries

def append (path : List String) (key : String) (entries : Entries) : Option Entries :=
  within false (fun _ entries => entries.alter key fun
    | none => some (.tables [[]])
    | some (.tables rows) => some (.tables (rows ++ [[]]))
    | some _ => none) .declared path entries

end Entries

namespace Value

def string? : Value → Option String
  | .string s => some s
  | _ => none

def boolean? : Value → Option Bool
  | .boolean b => some b
  | _ => none

def array? : Value → Option (List Value)
  | .array items => some items
  | _ => none

def strings? (v : Value) : Option (List String) := v.array?.bind (·.mapM string?)

def fields? (names : List String) : Value → Option (List (String × Value))
  | .table entries => some entries
  | .array items => some (names.zip items)
  | _ => none

def field? (entries : List (String × Value)) (name : String) (default : α)
    (read : Value → Option α) : Option α :=
  match entries.find? (·.1 = name) with
  | some (_, v) => read v
  | none => some default

end Value

end SqlHighlight.Toml
