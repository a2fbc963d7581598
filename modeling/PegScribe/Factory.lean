import PegScribe.Hierarchy
import PegScribe.Signature

/-!
Tree factories: objects whose methods make values out of the values of a rule's parts.
-/
namespace PegScribe

/-- A factory object: the name of its class and the fields that its constructor set. -/
structure FactoryObject where
  className : String
  fields : Ledger String Value := {}

/-- What a factory method does with its arguments, in the order in which they are bound. -/
abbrev Behaviour := FactoryObject → List Value → Except Fault Value

namespace Behaviour

/-- The text of the first argument. -/
def firstText (args : List Value) : Except Fault String :=
  match args.headD .absent with
  | .token t => .ok t.text
  | v => .error (.noAttribute v.typeName "text")

/-- The method's name applied to its arguments. -/
def node (name : String) : Behaviour := fun _ args => .ok (.applied name args)

/-- The number that the first argument denotes. -/
def int : Behaviour := fun _ args => do
  let s ← firstText args
  match Text.Numeral.parse s with
  | .ok n => .ok (.number n)
  | .error e => .error (.numeral e)

/-- The text of the first argument, as a value. -/
def text : Behaviour := fun _ args => return .text (← firstText args)

/-- Nothing. -/
def none : Behaviour := fun _ _ => .ok .absent

/-- The argument at a place. -/
def nth (i : Nat) : Behaviour := fun _ args => .ok (args.getD i .absent)

/-- The text of the first argument after a text that the object holds in a field. -/
def withField (field : String) : Behaviour := fun self args =>
  match self.fields.get? field with
  | Option.none => .error (.noAttribute self.className field)
  | some v => do
    let s ← firstText args
    match v with
    | .text p => .ok (.text (p ++ s))
    | v => .error (.call (.noSum v.typeName "str"))

/-- Raises a complaint with the text of the first argument. -/
def complain : Behaviour := fun _ args => do throw (.raised "ValueError" (← firstText args))

/-- Goes past the nesting limit. -/
def overrun : Behaviour := fun _ _ => .error .tooDeep

end Behaviour

/-- A factory method. -/
structure FactoryMethod where
  signature : Signature
  behaviour : Behaviour

/-- Calls a factory method on an object. -/
def FactoryMethod.call (m : FactoryMethod) (method : Method) (self : FactoryObject)
    (args : List Value) : Except Fault Value :=
  match m.signature.bind method.qualname args with
  | .error f => .error (.call f)
  | .ok args => m.behaviour self args

/-- A factory class with its ancestors. -/
abbrev FactoryClass := Lineage FactoryMethod

namespace FactoryClass

/-- The name of the class. -/
def name (f : FactoryClass) : String := (f.head?.map (·.name)).getD ""

/-- The public methods by name: their qualified names and what they do. -/
def methods (f : FactoryClass) : List (String × (Method × FactoryMethod)) :=
  (Lineage.publicMethods f none).map fun (name, (owner, m)) =>
    (name, (⟨owner.name ++ "." ++ name⟩, m))

/-- Calls a public method by its qualified name. -/
def call (f : FactoryClass) (self : FactoryObject) (method : Method) (args : List Value) :
    Except Fault Value :=
  match f.methods.find? fun (_, (m, _)) => m = method with
  | some (_, (m, fm)) => fm.call m self args
  | none => .error (.noAttribute self.className method.name)

end FactoryClass
end PegScribe
