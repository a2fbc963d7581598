import PegScribe.Factory

/-!
Syntax trees of a small assembly language: allocations, loads and stores.

A node is a record; its class fixes its fields. Any field may be empty.
-/
namespace PegScribe.Ir

/-- The classes of nodes. -/
inductive Shape where
  /-- Classes that only other classes descend from. -/
  | node | expression | instruction
  | identifier | integerLiteral | type
  | alloca | load | store
  deriving DecidableEq

namespace Shape

/-- All classes. -/
def all : List Shape :=
  [.node, .expression, .instruction, .identifier, .integerLiteral, .type, .alloca, .load, .store]

/-- The name of a class. -/
def label : Shape → String
  | .node => "SyntaxNode"
  | .expression => "ExpressionSyntax"
  | .instruction => "InstructionSyntax"
  | .identifier => "IdentifierSyntax"
  | .integerLiteral => "IntegerLiteralSyntax"
  | .type => "TypeSyntax"
  | .alloca => "AllocaInstructionSyntax"
  | .load => "LoadInstructionSyntax"
  | .store => "StoreInstructionSyntax"

/-- A class by its name. -/
def ofLabel? (s : String) : Option Shape := all.find? (·.label = s)

/-- The fields of a class. -/
def fields : Shape → List String
  | .node | .expression | .instruction => []
  | .identifier | .integerLiteral => ["token"]
  | .type => ["name_token", "star_token"]
  | .alloca => ["result", "equal_token", "alloca_token", "type", "comma_token", "align_token",
      "alignment"]
  | .load => ["result", "equal_token", "load_token", "pointer_type", "pointer", "comma_token",
      "align_token", "alignment"]
  | .store => ["store_token", "value_type", "value", "comma_token1", "pointer_type", "pointer",
      "comma_token2", "align_token", "alignment"]

/-- Is it a class that only other classes descend from? -/
def isAbstract : Shape → Bool
  | .node | .expression | .instruction => true
  | _ => false

/-- The node of a class with the given fields; a type's star may be left out. -/
def make (s : Shape) (values : List Value) : Value :=
  .record s.label s.fields (values ++ List.replicate (s.fields.length - values.length) .absent)

end Shape

/-- The text of a token. -/
def textOf : Value → Except Fault String
  | .token t => .ok t.text
  | v => .error (.noAttribute v.typeName "text")

/-- The parts of a node, from left to right. -/
def children (shape : Shape) (values : List Value) : Except Fault (List Value) :=
  if shape.isAbstract then .error .abstractMethod
  else match shape, values with
    | .type, [name, .absent] => .ok [name]
    | _, vs => .ok vs

/-- The name that an identifier or a type shows. -/
def nameOf : Shape → List Value → Except Fault String
  | .type, [name, star] => do
    let s ← textOf name
    return if star == .absent then s else s ++ "*"
  | _, vs => textOf (vs.headD .absent)

/-- Has a type a star? -/
def isPointer (values : List Value) : Bool := values.getD 1 .absent != .absent

/-- The number that a literal denotes. -/
def literalValue (values : List Value) : Except Fault Int := do
  let s ← textOf (values.headD .absent)
  match Text.Numeral.parse s with
  | .ok n => .ok n
  | .error e => .error (.numeral e)

mutual

/-- The tokens of a tree, from left to right. -/
def tokens : Value → Except Fault (List Token)
  | .token t => .ok [t]
  | .absent => .ok []
  | .record label _ values =>
    match Shape.ofLabel? label with
    | none => .error (.noAttribute label "tokens")
    | some shape =>
      if shape.isAbstract then .error .abstractMethod else tokensOfAll values
  | v => .error (.noAttribute v.typeName "tokens")

/-- The tokens of all trees, from left to right. -/
def tokensOfAll : List Value → Except Fault (List Token)
  | [] => .ok []
  | v :: rest => do
    let ts ← tokens v
    return ts ++ (← tokensOfAll rest)

end

/-- A factory method that makes a node of a class out of its arguments. -/
def maker (shape : Shape) : FactoryMethod :=
  ⟨.required shape.fields, fun _ args => .ok (shape.make args)⟩

/-- The factory for this language. -/
def treeFactory : FactoryClass :=
  [{ name := "LlvmIrTreeFactory", bases := ["object"],
     members := ⟨[
      ("alloca_instruction", .method (maker .alloca)),
      ("load_instruction", .method (maker .load)),
      ("store_instruction", .method (maker .store)),
      ("identifier", .method (maker .identifier)),
      ("integer_literal", .method (maker .integerLiteral)),
      ("type_syntax", .method (maker .type))]⟩ },
    ClassDecl.top]

end PegScribe.Ir
