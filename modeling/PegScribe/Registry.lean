import PegScribe.Fault
import PegScribe.Ledger
import PegScribe.Pattern

/-!
Registries: rules are collected under their keys, then linked into a grammar in which every
reference names a rule.

Linking goes through the rules in order and stops at the first fault; the rules before it stay
linked.
-/
namespace PegScribe

/-- Rules by key, and the key to start from. -/
structure Grammar where
  rules : Ledger RuleKey Expr := {}
  root : Option RuleKey := none

namespace Grammar

/-- The body of a rule. -/
def body (g : Grammar) (key : RuleKey) : Except Fault Expr :=
  match g.rules.get? key with
  | some e => .ok e
  | none => .error (.grammar (.undefinedRule key))

/-- One line for each rule. -/
def describe (g : Grammar) : Except Fault (List String) :=
  g.rules.entries.mapM fun (key, e) =>
    match key.format, e.format with
    | .ok k, .ok s => .ok (k ++ " <- " ++ s)
    | .error part, _ | _, .error part => .error (.ofUnshown part)

end Grammar

/-- Compiled patterns by their source, in the order in which they were met. -/
abbrev PatternTable := Ledger String Pattern

variable [PatternLibrary]

/-- Compiles a pattern, unless the table has it. -/
def PatternTable.compile (t : PatternTable) (source : String) :
    Except Fault (Pattern × PatternTable) :=
  match Ledger.get? t source with
  | some r => .ok (r, t)
  | none =>
    match PatternLibrary.compile source with
    | .ok r => .ok (r, Ledger.insert t source r)
    | .error words => .error (.regex words)

/-- A pattern that is known to be well formed. -/
def Expr.pattern? (source : String) : Except Fault Expr :=
  match PatternLibrary.compile source with
  | .ok _ => .ok (.pattern source)
  | .error words => .error (.grammar (.badPattern source words))

/-- Finds the keys of methods. -/
abbrev Resolver := Callee → Option RuleKey

/-! ### Linking -/

/-- The key that a reference names, if it is registered. -/
def registered (g : Grammar) (key : RuleKey) : Except Fault RuleKey :=
  if g.rules.contains key then .ok key else .error (.grammar (.undefinedReference key))

mutual

/-- Replaces late references by keys and compiles patterns, from left to right. -/
def Expr.link (g : Grammar) (resolve : Resolver) : Expr → PatternTable →
    Except Fault (Expr × PatternTable)
  | .pattern source, t => do
    let (_, t) ← t.compile source
    return (.pattern source, t)
  | .call key, t => do
    let key ← registered g key
    return (.call key, t)
  | .late callee, t =>
    match resolve callee with
    | none => .error (.grammar (.unknownMethod callee))
    | some key => do
      let key ← registered g key
      return (.call key, t)
  | .rep how body, t => do
    let (body, t) ← body.link g resolve t
    return (.rep how body, t)
  | .seq items, t => do
    let (items, t) ← Expr.linkAll g resolve items t
    return (.seq items, t)
  | .choice alts, t => do
    let (alts, t) ← Expr.linkAll g resolve alts t
    return (.choice alts, t)
  | e, t => .ok (e, t)

/-- Links each expression in turn. -/
def Expr.linkAll (g : Grammar) (resolve : Resolver) : List Expr → PatternTable →
    Except Fault (List Expr × PatternTable)
  | [], t => .ok ([], t)
  | e :: rest, t => do
    let (e, t) ← e.link g resolve t
    let (rest, t) ← Expr.linkAll g resolve rest t
    return (e :: rest, t)

end

/-- Links the rules in order, up to the first fault. -/
def linkRules (g : Grammar) (resolve : Resolver) : List (RuleKey × Expr) → PatternTable →
    List (RuleKey × Expr) × Except Fault PatternTable
  | [], t => ([], .ok t)
  | (key, e) :: rest, t =>
    match e.link g resolve t with
    | .error f => ((key, e) :: rest, .error f)
    | .ok (e', t') =>
      let (rest', outcome) := linkRules g resolve rest t'
      ((key, e') :: rest', outcome)

/-- A grammar and the compiled patterns it needs. -/
structure Program where
  grammar : Grammar
  patterns : PatternTable

/-- Rules under construction; a sealed registry opens no further rules. -/
structure Registry where
  grammar : Grammar := {}
  isSealed : Bool := false

namespace Registry

/-- May a rule be opened? -/
def openRule (r : Registry) : Except Fault Unit :=
  if r.isSealed then .error (.grammar .alreadyBuilt) else .ok ()

/-- Gives an open rule its body, once. -/
def close (r : Registry) (key : RuleKey) (e : Expr) : Except Fault Registry :=
  if r.grammar.rules.contains key then .error (.grammar (.ruleRedefined key))
  else .ok { r with grammar.rules := r.grammar.rules.insert key e }

/-- Opens a rule and gives it its body. -/
def define (r : Registry) (key : RuleKey) (e : Expr) : Except Fault Registry := do
  r.openRule
  r.close key e

/-- Is there a rule under the key? -/
def hasRule (r : Registry) (key : RuleKey) : Bool := r.grammar.rules.contains key

/-- Sets the key to start from. -/
def setRoot (r : Registry) (key : Option RuleKey) : Registry :=
  { r with grammar.root := key }

/-- Links all rules and seals the registry. A fault leaves the rules before it linked. -/
def build (r : Registry) (resolve : Resolver) : Except Fault Program × Registry :=
  match r.grammar.root with
  | none => (.error (.grammar .noRoot), r)
  | some root =>
    let (rules, outcome) := linkRules r.grammar resolve r.grammar.rules.entries {}
    let r : Registry := { r with grammar.rules := ⟨rules⟩ }
    match outcome with
    | .error f => (.error f, r)
    | .ok patterns =>
      match r.grammar.body root with
      | .error f => (.error f, r)
      | .ok _ => (.ok ⟨r.grammar, patterns⟩, { r with isSealed := true })

end Registry
end PegScribe
