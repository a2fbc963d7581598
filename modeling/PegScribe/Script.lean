import PegScribe.Factory
import PegScribe.Recorder

/-!
Scripts: the bodies of grammar methods, and how they play on a recorder.

The arguments of a call are played from left to right before the call itself; what is called is
looked up before them. A method whose name starts with an underscore is played in place.
-/
namespace PegScribe

/-- Builder calls that repeat an operand. -/
inductive Wrapper where
  | optional | oneOrMore | zeroOrMore
  deriving DecidableEq

/-- Statements and expressions of a method's body. -/
inductive Term where
  | value (v : Value)
  /-- Opens the rule. -/
  | nonterminal (key : Option RuleKey)
  /-- Closes the rule. -/
  | is (args : List Term)
  /-- Opens the rule, plays the arguments and closes the rule. -/
  | rule (key : Option RuleKey) (args : List Term)
  | token (arg : Term)
  | pattern (arg : Term)
  | wrap (how : Wrapper) (args : List Term)
  | firstOf (args : List Term)
  /-- A call on the factory. -/
  | action (name : String) (args : List Term)
  /-- A call on the factory with named arguments. -/
  | actionNamed (name : String) (names : List String) (args : List Term)
  /-- A call on the grammar itself. -/
  | call (name : String) (args : List Term)
  /-- A call of what the classes after this one in the search order define. -/
  | inherited (name : String) (args : List Term)
  /-- An argument of the running method. -/
  | argument (index : Int)
  | push (e : Except Fault Expr)
  | pop
  | raise (kind message : String)
  /-- Plays a term and swallows its fault. -/
  | attempt (body : Term)
  deriving Inhabited

/-- The body of a method. -/
abbrev Script := List Term

/-- A grammar class with its ancestors. -/
abbrev GrammarClass := Lineage Script

/-- The class that grammars descend from. -/
def grammarBase : ClassDecl Script :=
  { name := "GrammarBase", bases := ["object"], members := ⟨[("__init__", .method [])]⟩ }

namespace GrammarClass

/-- The name of the class. -/
def name (g : GrammarClass) : String := (g.head?.map (·.name)).getD ""

/-- What tells the class apart. -/
def id (g : GrammarClass) : String := (g.head?.map (·.id)).getD ""

/-- Does it descend from the class for grammars? -/
def isGrammar (g : GrammarClass) : Bool := List.any g (·.id = grammarBase.id)

/-- The rule methods by name: their qualified names and their bodies. -/
def rules (g : GrammarClass) : List (String × (Method × Script)) :=
  (Lineage.publicMethods g (some grammarBase)).map fun (name, (owner, body)) =>
    (name, (⟨owner.name ++ "." ++ name⟩, body))

/-- The class that defines a rule method. -/
def ownerOf (g : GrammarClass) (rule : String) : String :=
  match (Lineage.publicMethods g (some grammarBase)).find? fun (name, _) => name = rule with
  | some (_, (owner, _)) => owner.id
  | none => g.id

end GrammarClass

/-- The grammar and the factory that a script is played with, and the most bodies that may be played inside
one another. -/
structure Stage where
  grammar : GrammarClass
  factory : FactoryClass
  limit : Nat := 1000

namespace Stage

/-- The name of the recording stand-in for a class. -/
def standIn (className : String) : String := "Recording" ++ className

/-- What a name finds on the grammar. -/
inductive Target where
  /-- A rule method: declared or referred to. -/
  | rule (method : Method) (owner : String) (body : Script)
  /-- A body played in place. -/
  | inline (owner : String) (body : Script)
  /-- A body played when the name is looked up; its value cannot be called. -/
  | getter (owner : String) (body : Script)
  /-- Something that cannot be called, by its type. -/
  | inert (type : String)

/-- What a member is when it is called. -/
def targetOf (owner : ClassDecl Script) : Member Script → Target
  | .method body | .static body | .ofClass body => .inline owner.id body
  | .property body => .getter owner.id body
  | .plain v => .inert v.typeName

/-- Looks a name up on the grammar. The builder and the factory hide members of their names. -/
def target? (s : Stage) (name : String) : Option Target :=
  if name = "b" then some (.inert "GrammarRecorder")
  else if name = "f" then some (.inert (standIn s.factory.name))
  else match s.grammar.rules.find? fun (n, _) => n = name with
    | some (_, (method, body)) => some (.rule method (s.grammar.ownerOf name) body)
    | none => (Lineage.find? s.grammar name).map fun (owner, m) => targetOf owner m

/-- Looks a name up past a class. -/
def inheritedTarget? (s : Stage) (owner name : String) : Option Target :=
  (Lineage.findAfter? s.grammar owner name).map fun (owner, m) => targetOf owner m

/-- The class and the arguments of the running method. -/
structure Frame where
  owner : String
  args : List Value

/-- Plays a body that is called by name. -/
abbrev Inline := (owner : String) → Script → List Value → Recording Value

/-! ### Calls, once their arguments have been played -/

/-- A builder call that takes one operand. -/
def wrapOne (how : Wrapper) (count : Nat) : Recording Unit :=
  let f := "GrammarRecorder." ++ match how with
    | .optional => "optional"
    | .oneOrMore => "one_or_more"
    | .zeroOrMore => "zero_or_more"
  match count with
  | 0 => throw (.call (.lacking f "positional" ["item"]))
  | 1 => match how with
    | .optional => Recorder.optional
    | .oneOrMore => Recorder.oneOrMore
    | .zeroOrMore => Recorder.zeroOrMore
  | n => throw (.call (.tooMany f 2 2 (n + 1)))

/-- Closes the rule; at most one operand may be given. -/
def closeRule (object : String) (count : Nat) : Recording Unit :=
  if 1 < count then throw (.call (.tooMany (object ++ ".is_") 1 2 (count + 1)))
  else Recorder.is

/-- Calls what a name found on the grammar. -/
def callTarget (inline : Inline) (args : List Value) : Target → Recording Value
  | .rule method owner body => do
    Recorder.callRule method (do let _ ← inline owner body args)
    return .absent
  | .inline owner body => inline owner body args
  | .getter .. => throw (.call (.notCallable "NoneType"))
  | .inert type => throw (.call (.notCallable type))

/-- What a name finds on the factory. -/
inductive ActionTarget where
  /-- A public method: its calls become rules. -/
  | recorded (method : Method) (signature : Signature)
  /-- A method that runs at once. -/
  | direct (method : Method) (m : FactoryMethod)
  | inert (type : String)

/-- Looks a name up on the factory. -/
def actionTarget? (s : Stage) (name : String) : Option ActionTarget :=
  match s.factory.methods.find? fun (n, _) => n = name with
  | some (_, (method, m)) => some (.recorded method m.signature)
  | none => (Lineage.find? s.factory name).map fun (owner, member) =>
    match member with
    | .method m | .static m | .ofClass m => .direct ⟨owner.name ++ "." ++ name⟩ m
    | .property _ => .inert "NoneType"
    | .plain v => .inert v.typeName

/-- Calls what a name found on the factory. -/
def callAction (s : Stage) (args : List Value) (hasNames : Bool) :
    ActionTarget → Recording Value
  | .recorded method signature => do
    if hasNames then throw (.grammar (.keywords method))
    match signature.check args.length with
    | .error why => throw (.grammar (.arity method why))
    | .ok () =>
      Recorder.action method signature.names args.length
      return .absent
  | .direct method m =>
    match m.call method { className := standIn s.factory.name } args with
    | .ok v => return v
    | .error f => throw f
  | .inert type => throw (.call (.notCallable type))

/-- Plays the getter of a target that has one. -/
def lookUp (inline : Inline) : Target → Recording Unit
  | .getter owner body => do let _ ← inline owner body []
  | _ => return ()

/-- An argument by its place; negative places count from the end. -/
def argumentAt (args : List Value) (index : Int) : Recording Value :=
  let i := if index < 0 then index + args.length else index
  match if i < 0 then none else args[i.toNat]? with
  | some v => return v
  | none => throw .tupleIndex

/-! ### Terms -/

variable [PatternLibrary]

mutual

/-- Plays a term. -/
def play (s : Stage) (inline : Inline) (frame : Frame) : Term → Recording Value
  | .value v => return v
  | .nonterminal key => do
    Recorder.nonterminal key
    return .absent
  | .is args => do
    let vs ← playAll s inline frame args
    closeRule "GrammarRecorder" vs.length
    return .absent
  | .rule key args => do
    Recorder.nonterminal key
    let vs ← playAll s inline frame args
    closeRule "NonterminalBuilder" vs.length
    return .absent
  | .token arg => do
    Recorder.token (← play s inline frame arg)
    return .absent
  | .pattern arg => do
    Recorder.pattern (← play s inline frame arg)
    return .absent
  | .wrap how args => do
    let vs ← playAll s inline frame args
    wrapOne how vs.length
    return .absent
  | .firstOf args => do
    let vs ← playAll s inline frame args
    Recorder.firstOf vs.length
    return .absent
  | .action name args =>
    match s.actionTarget? name with
    | none => throw (.noAttribute (standIn s.factory.name) name)
    | some target => do
      let vs ← playAll s inline frame args
      s.callAction vs false target
  | .actionNamed name names args =>
    match s.actionTarget? name with
    | none => throw (.noAttribute (standIn s.factory.name) name)
    | some target => do
      let vs ← playAll s inline frame args
      s.callAction vs (!names.isEmpty) target
  | .call name args =>
    match s.target? name with
    | none => throw (.noAttribute (standIn s.grammar.name) name)
    | some target => do
      lookUp inline target
      let vs ← playAll s inline frame args
      callTarget inline vs target
  | .inherited name args =>
    match s.inheritedTarget? frame.owner name with
    | none => throw (.noAttribute "super" name)
    | some target => do
      lookUp inline target
      let vs ← playAll s inline frame args
      callTarget inline vs target
  | .argument index => argumentAt frame.args index
  | .push e =>
    match e with
    | .ok e => do
      Recorder.push e
      return .absent
    | .error f => throw f
  | .pop => do
    let _ ← Recorder.pop
    return .absent
  | .raise kind message => throw (.raised kind message)
  | .attempt body => fun r =>
    match play s inline frame body r with
    | (.error _, r') => (.ok .absent, r')
    | ok => ok

/-- Plays terms from left to right. -/
def playAll (s : Stage) (inline : Inline) (frame : Frame) : List Term → Recording (List Value)
  | [] => return []
  | t :: rest => do
    let v ← play s inline frame t
    return v :: (← playAll s inline frame rest)

end

/-- Plays a body, with at most `depth` bodies inside one another. -/
def perform (s : Stage) : (depth : Nat) → Inline
  | 0, _, _, _ => throw .tooDeep
  | depth + 1, owner, script, args => do
    let _ ← playAll s (perform s depth) ⟨owner, args⟩ script
    return .absent

/-- Plays every rule method once, in order, and ends the recording. -/
def recordRules (s : Stage) : List String → Recording Unit
  | [] => Recorder.finish
  | name :: rest => do
    Recorder.note .recorder ("recording rule " ++ s.grammar.name ++ "." ++ name)
    let _ ← play s (perform s s.limit) ⟨s.grammar.id, []⟩ (.call name [])
    recordRules s rest

/-- Records a grammar. -/
def record (s : Stage) : Recording Unit :=
  if s.grammar.isGrammar then s.recordRules (s.grammar.rules.map (·.1))
  else throw (.call (.noArguments (standIn s.grammar.name)))

end Stage
end PegScribe
