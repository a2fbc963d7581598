import PegScribe.Bijection
import PegScribe.Registry
import PegScribe.Value

/-!
Recorders: calls made by the methods of a grammar become rules.

The first call of a method declares its rule; calls made while a rule is being declared are
references. Every builder call pushes one expression, after its operands have pushed theirs, so the
operands of a call are the last expressions on the stack, in order. A fault leaves the recorder as
it was at that moment.
-/
namespace PegScribe

instance : Blank Method := {}
instance : Blank RuleKey := {}

/-- What a rule made by a builder call stands for. -/
inductive RuleKind where
  | token | pattern | optional | oneOrMore | zeroOrMore
  /-- A kind that nothing is made of. -/
  | other (name : String)
  deriving DecidableEq

namespace RuleKind

/-- The name of a kind. -/
def name : RuleKind → String
  | .token => "token"
  | .pattern => "pattern"
  | .optional => "optional"
  | .oneOrMore => "oneOrMore"
  | .zeroOrMore => "zeroOrMore"
  | .other s => s

/-- Reads the name of a kind. -/
def ofName : String → RuleKind
  | "token" => .token
  | "pattern" => .pattern
  | "optional" => .optional
  | "oneOrMore" => .oneOrMore
  | "zeroOrMore" => .zeroOrMore
  | s => .other s

/-- Does a rule of this kind cut out a lexeme? -/
def isToken : RuleKind → Bool
  | .token | .pattern => true
  | _ => false

end RuleKind

/-- What recording has learned about the rules. -/
structure Model where
  /-- Grammar methods and the keys of their rules. -/
  userRules : Bijection Method RuleKey := {}
  /-- Factory methods and the keys of their rules. -/
  actionRules : Bijection Method RuleKey := {}
  /-- The kinds of the rules made by builder calls. -/
  kinds : Ledger RuleKey RuleKind := {}
  deriving DecidableEq

namespace Model

/-- Does the key cut out a lexeme? -/
def isToken (m : Model) (key : RuleKey) : Bool := (m.kinds.get? key).any RuleKind.isToken

/-- The key of a late reference. -/
def resolver (m : Model) : Resolver
  | .method f => m.userRules.get? f
  | .value _ => none

end Model

/-- The part of the program that writes a line of the log. -/
inductive Channel where
  | recorder | factory | parser
  deriving DecidableEq

/-- A line of the log. -/
structure LogLine where
  channel : Channel
  text : String

/-- A recorder between two calls. -/
structure Recorder where
  registry : Registry := {}
  model : Model := {}
  /-- The expressions pushed and not yet used, the oldest first. -/
  stack : List Expr := []
  /-- The method whose rule is being declared. -/
  building : Option Method := none
  /-- The key of the rule that is being declared. -/
  pendingKey : Option RuleKey := none
  isFinished : Bool := false
  /-- The number of keys made so far. -/
  minted : Nat := 0
  log : List LogLine := []

/-- Calls on a recorder; a fault keeps the recorder. -/
abbrev Recording := ExceptT Fault (StateM Recorder)

namespace Recorder

/-! ### Steps that every call is made of -/

/-- Writes a line of the log. -/
def note (channel : Channel) (text : String) : Recording Unit :=
  modify fun r => { r with log := r.log ++ [⟨channel, text⟩] }

/-- Gives up with a grammar fault. -/
def refuse {α : Type} (f : GrammarFault) : Recording α := throw (.grammar f)

/-- Writes something down, or gives up with the part that has no notation. -/
def spell {α : Type} : Except String α → Recording α
  | .ok s => return s
  | .error part => throw (.ofUnshown part)

/-- Changes the registry, or gives up and leaves it alone. -/
def register (key : RuleKey) (e : Expr) : Recording Unit := do
  match (← get).registry.define key e with
  | .ok registry => modify ({ · with registry })
  | .error f => throw f

/-- Makes a key that no rule has had before. -/
def mint (label : Except String String) : Recording RuleKey := do
  let serial := (← get).minted
  modify ({ · with minted := serial + 1 })
  match label with
  | .ok s => return { id := .minted serial, label := s }
  | .error part => return { id := .minted serial, label := part, unshown := some part }

/-! ### The stack -/

/-- Pushes an expression. -/
def push (e : Expr) : Recording Unit := do
  if (← get).isFinished then refuse .recordingFinished
  modify fun r => { r with stack := r.stack ++ [e] }

/-- Takes the last expression off. -/
def pop : Recording Expr := do
  let r ← get
  match r.stack.getLast? with
  | none => refuse (.stackEmpty r.building)
  | some e =>
    set { r with stack := r.stack.dropLast }
    return e

/-- Takes the last `n` expressions off, in order; a negative `n` leaves that many at the bottom. -/
def popMany (n : Int) : Recording (List Expr) := do
  let r ← get
  let size := r.stack.length
  if (size : Int) < n then refuse (.stackShort n size r.building)
  else if n = 0 then return []
  else
    let kept := if 0 < n then size - n.toNat else (-n).toNat
    set { r with stack := r.stack.take kept }
    return r.stack.drop kept

/-! ### Rules made by builder calls -/

/-- Adds a rule of a kind and pushes a reference to it. -/
def addRule (kind : RuleKind) (operand body : Expr) : Recording Unit := do
  let key ← mint (operand.format.map fun s => kind.name ++ "(" ++ s ++ ")")
  modify fun r => { r with model.kinds := r.model.kinds.insert key kind }
  register key body
  push (.call key)

/-- The pattern for the white space around every lexeme. -/
def whitespace : String := "\\s*+"

/-- An expression with white space around it. -/
def padded (e : Expr) : Expr := .seq [.pattern whitespace, e, .pattern whitespace]

/-- A literal lexeme. -/
def token (value : Value) : Recording Unit :=
  let e : Expr := match value with
    | .text s => .literal s
    | v => .misfit v.shown v.typeName
  addRule .token (padded e) (padded e)

/-- A lexeme that matches a pattern. -/
def pattern [PatternLibrary] (value : Value) : Recording Unit :=
  match value with
  | .text source =>
    match Expr.pattern? source with
    | .ok e => addRule .pattern (padded e) (padded e)
    | .error f => throw f
  | _ => throw (.call .patternExpected)

/-- The last expression, or nothing. -/
def optional : Recording Unit := do
  let e ← pop
  addRule .optional e (.rep .optional e)

/-- The last expression, once or more. -/
def oneOrMore : Recording Unit := do
  let e ← pop
  addRule .oneOrMore e (.rep .oneOrMore e)

/-- The last expression, any number of times. -/
def zeroOrMore : Recording Unit := do
  let e ← pop
  addRule .zeroOrMore e (.rep .zeroOrMore e)

/-- The first of the last `n` expressions that matches. -/
def firstOf (n : Nat) : Recording Unit := do
  let alts ← popMany n
  push (.choice alts)

/-! ### Rules made by methods -/

/-- Opens the rule of the method that is being declared, under a key of its own or a given one. -/
def nonterminal (key : Option RuleKey) : Recording Unit := do
  let r ← get
  match r.building with
  | none => refuse .nonterminalOutside
  | some method =>
    if r.pendingKey.isSome then refuse (.nonterminalTwice method)
    let key ← match key with
      | some k => pure k
      | none => mint (.ok method.name)
    match (← get).model.userRules.put method key with
    | .error _ => refuse (.keyTaken key)
    | .ok userRules =>
      modify fun r => { r with model.userRules := userRules, pendingKey := some key }

/-- Closes the open rule with the one expression on the stack. -/
def is : Recording Unit := do
  let r ← get
  match r.building, r.pendingKey with
  | some method, some key =>
    if r.stack.length ≠ 1 then
      refuse (.unbalanced method r.stack.length (← spell (Expr.formatStack r.stack)))
    let e ← pop
    register key e
    note .recorder ("rule " ++ key.label ++ " <- " ++ (← spell e.format))
    modify ({ · with building := none, pendingKey := none })
  | _, _ => refuse .noPendingNonterminal

/-- A call of a rule method: while a rule is being declared it is a reference, and the answer is
`false`; else the method's rule is declared next, and the answer is `true`. -/
def enter (method : Method) : Recording Bool := do
  if (← get).building.isSome then
    push (.late (.method method))
    return false
  else
    modify ({ · with building := some method, pendingKey := none })
    return true

/-- The end of a method's body: faults are laid to the method, and its rule must be closed. -/
def leave (method : Method) : Except Fault Unit → Recording Unit
  | .error cause => throw (.bootstrap method cause)
  | .ok () => do
    if (← get).building.isSome then
      throw (.bootstrap method (.grammar (.noRuleDeclared method)))

/-- What came of a body, with its fault held back. -/
def outcome (body : Recording Unit) : Recording (Except Fault Unit) :=
  fun r => match body r with
    | (result, r') => (.ok result, r')

/-- Calls a rule method with the given body. -/
def callRule (method : Method) (body : Recording Unit) : Recording Unit := do
  if ← enter method then leave method (← outcome body)

/-! ### Rules made by factory calls -/

/-- The key of a factory method's rule, made at the first call. -/
def actionKey (method : Method) (params : List String) : Recording RuleKey := do
  match (← get).model.actionRules.get? method with
  | some key => return key
  | none =>
    let key ← mint (.ok ("f." ++ method.name ++ "(" ++ Text.join ", " params ++ ")"))
    match (← get).model.actionRules.put method key with
    | .ok actionRules => modify fun r => { r with model.actionRules := actionRules }
    | .error _ => refuse (.keyTaken key)
    return key

/-- Makes the last `n` expressions the body of a rule, and pushes a reference to it. -/
def replaceByRule (key : RuleKey) (n : Int) : Recording Unit := do
  let body ← if n = 1 then pop else Expr.seq <$> popMany n
  register key body
  push (.call key)

/-- A factory call with `n` operands. -/
def action (method : Method) (params : List String) (n : Nat) : Recording Unit := do
  let key ← actionKey method params
  replaceByRule key n
  note .factory ("action rule " ++ key.label ++ " consumes " ++ toString n ++ " expressions")

/-! ### The end of recording -/

/-- Ends recording; nothing may be left over or half built. -/
def finish : Recording Unit := do
  let r ← get
  if !r.stack.isEmpty then
    refuse (.leftOver r.stack.length (← spell (Expr.formatStack r.stack)))
  if let some method := r.building then refuse (.stillBuilding method)
  modify ({ · with isFinished := true })
  note .recorder ("recorded " ++ toString r.model.userRules.size ++ " rules, " ++
    toString r.model.actionRules.size ++ " actions, " ++ toString r.model.kinds.size ++
    " synthetic rules")

end Recorder
end PegScribe
