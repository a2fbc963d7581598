import PegScribe.ParseTree
import PegScribe.Recorder

/-!
Lowering: a parse tree becomes a value, each node by what recorded its rule.

A lexeme becomes a token without the white space around it; an optional part becomes its value or
nothing; a repetition becomes a list; a rule method's rule becomes the one value inside it; a
factory method's rule becomes what the method makes of the values inside it.
-/
namespace PegScribe

/-- What lowering needs to know: the recorded rules and the factory's methods. -/
structure Lowering where
  model : Model
  act : Method → List Value → Except Fault Value

/-- Something that lowering did. -/
inductive Deed where
  /-- It cut a lexeme out of the source. -/
  | cut (t : Token)
  /-- It called a factory method. -/
  | called (method : Method) (args : List Value)

/-- Computations that keep a record of what was done, the latest first, also when a fault breaks
them off. -/
abbrev Deeds := ExceptT Fault (StateM (List Deed))

namespace Lowering

/-- Cuts a lexeme out. -/
def cut (t : Token) : Deeds Value := do
  modify (.cut t :: ·)
  return .token t

/-- Calls a factory method. -/
def call (l : Lowering) (method : Method) (args : List Value) : Deeds Value := do
  modify (.called method args :: ·)
  match l.act method args with
  | .ok v => return v
  | .error f => throw f

/-- The token of a lexeme's node: its middle part, if it has three. -/
def lexeme (source : Source) (start stop : Int) : List ParseTree → Token
  | [_, middle, _] => source.token middle.start middle.stop
  | _ => source.token start stop

/-- The value of a node that no builder call recorded, from the values inside it. -/
def combine (l : Lowering) (key : RuleKey) (values : List Value) : Deeds Value :=
  if l.model.userRules.containsValue key then
    match values with
    | [v] => return v
    | vs => throw (.breach (.ruleValues key vs.length))
  else match l.model.actionRules.keyOf? key with
    | some method => l.call method values
    | none => throw (.breach (.unrecordedRule key))

/-- The values of trees, from left to right. -/
def each (visit : ParseTree → Deeds Value) : List ParseTree → Deeds (List Value)
  | [] => return []
  | t :: rest => do
    let v ← visit t
    return v :: (← each visit rest)

/-- Lowers a tree with at most `depth` nodes inside one another. -/
def lower (l : Lowering) (source : Source) : (depth : Nat) → ParseTree → Deeds Value
  | 0, _ => throw .tooDeep
  | depth + 1, tree =>
    match tree with
    | .leaf start stop => cut (source.token start stop)
    | .node key start stop children =>
      match l.model.kinds.get? key with
      | some .token | some .pattern => cut (lexeme source start stop children)
      | some .optional =>
        match children with
        | [] => return .absent
        | [child] => lower l source depth child
        | cs => throw (.breach (.optionalChildren key cs.length))
      | some .oneOrMore | some .zeroOrMore => do
        return .list (← each (lower l source depth) children)
      | _ => do
        let values ← each (lower l source depth) (children.filter (!·.isLeaf))
        l.combine key values

/-- Lowers a tree; what was done stands beside the value, in order. -/
def createWithin (l : Lowering) (depth : Nat) (source : Source) (root : ParseTree) :
    Except Fault Value × List Deed :=
  let (value, deeds) := l.lower source depth root []
  (value, deeds.reverse)

/-- The most nodes that may stand inside one another. -/
def depthLimit : Nat := 1000

/-- Lowers a tree. -/
def create (l : Lowering) (source : Source) (root : ParseTree) : Except Fault Value :=
  (l.createWithin depthLimit source root).1

end Lowering
end PegScribe
