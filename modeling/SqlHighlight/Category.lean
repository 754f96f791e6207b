import SqlHighlight.Text.Bytes

namespace SqlHighlight

inductive Category
  | keyword
  | operator
  | string
  | function
  | number
  | parameter
  | comment
  | plain
  deriving DecidableEq, Repr

namespace Category

def all : List Category :=
  [.keyword, .operator, .string, .function, .number, .parameter, .comment, .plain]

def label : Category → String
  | .keyword => "keyword"
  | .operator => "operator"
  | .string => "string"
  | .function => "function"
  | .number => "number"
  | .parameter => "parameter"
  | .comment => "comment"
  | .plain => "plain"

def capture : Category → String
  | .parameter => "variable.parameter"
  | .plain => "text"
  | c => c.label

def ofLabel? (s : String) : Option Category :=
  all.find? fun c => c.label.toList == s.toList.map Char.toLower

theorem ofLabel?_label (c : Category) : ofLabel? c.label = some c := by
  cases c <;> decide

end Category

structure Span where
  category : Category
  range : Range
  deriving DecidableEq, Repr

end SqlHighlight
