import PegScribe.Fault
import PegScribe.Value

/-!
Signatures: the parameters of a factory method, and how positional arguments are bound to them.

The object that the method belongs to is bound first and is not among the parameters here; counts
in messages include it.
-/
namespace PegScribe

/-- How a parameter takes its argument. -/
inductive ParamKind where
  | positional
  /-- All further positional arguments. -/
  | rest
  /-- Never a positional argument. -/
  | named
  deriving DecidableEq

/-- A parameter; one without a default must be given. -/
structure Param where
  name : String
  kind : ParamKind := .positional
  default? : Option Value := none

/-- The parameters of a method, in order. -/
structure Signature where
  params : List Param

namespace Signature

/-- Parameters that all must be given. -/
def required (names : List String) : Signature := ⟨names.map fun n => { name := n }⟩

/-- The names of the parameters. -/
def names (s : Signature) : List String := s.params.map (·.name)

/-- The parameters that take one positional argument each. -/
def positional (s : Signature) : List Param := s.params.filter (·.kind = .positional)

/-- The parameters that take no positional argument. -/
def named (s : Signature) : List Param := s.params.filter (·.kind = .named)

/-- Does a parameter take all further arguments? -/
def hasRest (s : Signature) : Bool := s.params.any (·.kind = .rest)

/-- The positional parameters that must be given. -/
def needed (s : Signature) : List Param := s.positional.filter (·.default?.isNone)

/-- The first parameter that `count` positional arguments leave without a value. -/
def firstLacking? (s : Signature) (count : Nat) : Option Param :=
  ((s.positional.drop count) ++ s.named).find? (·.default?.isNone)

/-- Can so many positional arguments be bound? -/
def check (s : Signature) (count : Nat) : Except Misfit Unit :=
  if s.positional.length < count && !s.hasRest then .error .surplus
  else match s.firstLacking? count with
    | some p => .error (.lacks p.name)
    | none => .ok ()

/-- Arguments for the positional parameters, defaults where they end. -/
def fill : List Param → List Value → List Value
  | [], _ => []
  | _ :: ps, v :: vs => v :: fill ps vs
  | p :: ps, [] => p.default?.getD .absent :: fill ps []

/-- Binds positional arguments when the method is called: the values of the positional parameters,
of the named ones, and all further arguments as one list. -/
def bind (s : Signature) (function : String) (args : List Value) :
    Except CallFault (List Value) :=
  let places := s.positional.length
  let lacking := (s.positional.drop args.length).filter (·.default?.isNone)
  let unnamed := s.named.filter (·.default?.isNone)
  if places < args.length && !s.hasRest then
    .error (.tooMany function (s.needed.length + 1) (places + 1) (args.length + 1))
  else if !lacking.isEmpty then
    .error (.lacking function "positional" (lacking.map (·.name)))
  else if !unnamed.isEmpty then
    .error (.lacking function "keyword-only" (unnamed.map (·.name)))
  else
    let rest := if s.hasRest then [.list (args.drop places)] else []
    .ok (fill s.positional args ++ s.named.map (fun p => p.default?.getD .absent) ++ rest)

end Signature
end PegScribe
