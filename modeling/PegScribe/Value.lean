import PegScribe.Source

/-!
Values: what trees are lowered to, and what scripts hand around.
-/
namespace PegScribe

/-- The values of actions. -/
inductive Value where
  | absent
  | text (s : String)
  | number (n : Int)
  | flag (b : Bool)
  | token (t : Token)
  | list (items : List Value)
  /-- An action's name applied to its arguments. -/
  | applied (action : String) (args : List Value)
  /-- A node of a syntax tree: its class, its field names and their values. -/
  | record (label : String) (fields : List String) (values : List Value)
  deriving BEq, Inhabited

namespace Value

/-- The name of a value's type. -/
def typeName : Value → String
  | .absent => "NoneType"
  | .text _ => "str"
  | .number _ => "int"
  | .flag _ => "bool"
  | .token _ => "SyntaxToken"
  | .list _ => "list"
  | .applied .. => "Node"
  | .record label .. => label

/-- A token's fields, written out. -/
def tokenFields (t : Token) : List (String × String) :=
  [("text", Text.quote t.text), ("start", toString t.start), ("end", toString t.stop),
    ("line", toString t.line), ("col", toString t.col)]

/-- Fields between parentheses, each after its name. -/
def labelled (label : String) (fields : List (String × String)) : String :=
  label ++ "(" ++ Text.join ", " (fields.map fun (f, v) => f ++ "=" ++ v) ++ ")"

mutual

/-- A value on one line. -/
def shown : Value → String
  | .absent => "None"
  | .text s => Text.quote s
  | .number n => toString n
  | .flag b => if b then "True" else "False"
  | .token t => labelled "SyntaxToken" (tokenFields t)
  | .list items => "[" ++ Text.join ", " (shownAll items) ++ "]"
  | .applied action args => action ++ "(" ++ Text.join ", " (shownAll args) ++ ")"
  | .record label fields values => labelled label (fields.zip (shownAll values))

/-- Each value on one line. -/
def shownAll : List Value → List String
  | [] => []
  | v :: rest => shown v :: shownAll rest

end

end Value
end PegScribe
