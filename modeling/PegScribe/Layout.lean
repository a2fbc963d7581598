import PegScribe.Value

/-!
Layout: a value on one line if it fits into the width, else one part to a line.

Parts stand under one another, and what closes around a value counts towards its last line.
-/
namespace PegScribe.Layout

/-- The width of a line. -/
def width : Nat := 80

/-- Does a text fit after `indent` characters, with `closing` characters still to come? -/
def fits (s : String) (indent closing : Nat) : Bool := s.length + indent + closing ≤ width

/-- The break between two parts. -/
def break_ (indent : Nat) : String := ",\n" ++ String.ofList (List.replicate indent ' ')

mutual

/-- Lays a value out after `indent` characters, with `closing` characters still to come. -/
def lay : Value → (indent closing : Nat) → String
  | v@(.list items), indent, closing =>
    if fits v.shown indent closing then v.shown
    else "[" ++ layItems items (indent + 1) (closing + 1) ++ "]"
  | v@(.record label fields values), indent, closing =>
    if fits v.shown indent closing then v.shown
    else
      label ++ "(" ++ layFields (indent + label.length + 1) closing fields values ++ ")"
  | v@(.token t), indent, closing =>
    if fits v.shown indent closing then v.shown
    else
      "SyntaxToken(" ++ Text.join (break_ (indent + "SyntaxToken(".length))
        ((Value.tokenFields t).map fun (f, s) => f ++ "=" ++ s) ++ ")"
  | v, _, _ => v.shown

/-- Lays the items of a list out; the closing characters follow the last. -/
def layItems : List Value → (indent closing : Nat) → String
  | [], _, _ => ""
  | [v], indent, closing => lay v indent closing
  | v :: w :: rest, indent, closing =>
    lay v indent 1 ++ break_ indent ++ layItems (w :: rest) indent closing

/-- Lays the fields of a node out, each after its name. -/
def layFields (indent closing : Nat) : List String → List Value → String
  | f :: _, [v] => f ++ "=" ++ lay v (indent + f.length + 1) closing
  | f :: fs, v :: w :: rest =>
    f ++ "=" ++ lay v (indent + f.length + 1) 1 ++ break_ indent ++
      layFields indent closing fs (w :: rest)
  | _, _ => ""

end

/-- A value as lines of text. -/
def render (v : Value) : String := lay v 0 0 ++ "\n"

end PegScribe.Layout
