import PegScribe.Parser

/-!
Reading: the bodies of grammar methods as parsers that backtrack, with nothing recorded.

A term reads the text from a place and yields a value, or fails. What factory methods make is put off
until all has been read, so that a method is only called for parts that stand in the end. Reading that
does not end, as when a rule starts with itself, has no outcome with any fuel.
-/
namespace PegScribe

/-- What will come of a part once all has been read: a value, or the fault of a factory method. -/
abbrev Deferred := Except Fault Value

/-- What reading came to when it ended: a failure, or where it stops and what it yields. -/
abbrev Reading (α : Type) := Option (Nat × α)

namespace Reading
open Stage

/-! ### Arguments that are handed on as they are -/

/-- The value of a term that is a value, or an argument of the running method. -/
def plain? (args : List Value) : Term → Option Value
  | .value v => some v
  | .argument index =>
    let i := if index < 0 then index + args.length else index
    if i < 0 then none else args[i.toNat]?
  | _ => none

/-- The values of such terms. -/
def plainAll? (args : List Value) : List Term → Option (List Value)
  | [] => some []
  | t :: rest => do return (← plain? args t) :: (← plainAll? args rest)

/-! ### Lexemes -/

/-- The first place from `pos` on that holds no white space. -/
def skip (source : Source) (pos : Nat) : Nat :=
  pos + ((source.chars.toList.drop pos).takeWhile Text.isSpace).length

/-- Where a literal that stands at a place ends. -/
def literalEnd? (source : Source) (t : String) (pos : Nat) : Option Nat :=
  if t.toList <+: source.chars.toList.drop pos then some (pos + t.length) else none

/-- A lexeme with white space around it: its token. -/
def lexeme (source : Source) (end? : Nat → Option Nat) (pos : Nat) : Reading Deferred :=
  let start := skip source pos
  (end? start).map fun stop => (skip source stop, .ok (.token (source.token start stop)))

/-! ### Combinators, over any way to read a term -/

/-- Each value in turn, up to the first fault. -/
def gather : List Deferred → Except Fault (List Value)
  | [] => .ok []
  | v :: rest => do return (← v) :: (← gather rest)

/-- The list of the values. -/
def listOf (vs : List Deferred) : Deferred := do return .list (← gather vs)

/-- Each term after the other; all or nothing. -/
def inTurn (attempt : Term → Nat → Option (Reading Deferred)) :
    List Term → Nat → Option (Reading (List Deferred))
  | [], pos => some (some (pos, []))
  | t :: rest, pos => do
    match ← attempt t pos with
    | none => return none
    | some (mid, v) =>
      match ← inTurn attempt rest mid with
      | none => return none
      | some (stop, vs) => return some (stop, v :: vs)

/-- The first term that can be read. -/
def firstOf (attempt : Term → Nat → Option (Reading Deferred)) : List Term → Nat → Option (Reading Deferred)
  | [], _ => some none
  | t :: rest, pos => do
    match ← attempt t pos with
    | some found => return some found
    | none => firstOf attempt rest pos

/-- As many rounds as can be read; a round that takes nothing is dropped and ends them. -/
def rounds (attempt : Nat → Option (Reading Deferred)) : (fuel : Nat) → Nat → Option (Nat × List Deferred)
  | 0, _ => none
  | fuel + 1, pos => do
    match ← attempt pos with
    | none => return (pos, [])
    | some (mid, v) =>
      if mid = pos then return (pos, [])
      else
        let (stop, vs) ← rounds attempt fuel mid
        return (stop, v :: vs)

/-! ### Terms -/

/-- Reads a term at a place, with at most `fuel` terms inside one another and rounds after one
another. -/
def interpret [PatternLibrary] (s : Stage) (self : FactoryObject) (source : Source) :
    (fuel : Nat) → Frame → Term → Nat → Option (Reading Deferred)
  | 0, _, _, _ => none
  | fuel + 1, frame, term, pos =>
    match term with
    | .token arg =>
      match plain? frame.args arg with
      | some (.text t) => some (lexeme source (literalEnd? source t) pos)
      | _ => none
    | .pattern arg =>
      match plain? frame.args arg with
      | some (.text t) =>
        match PatternLibrary.compile t with
        | .ok r => some (lexeme source (r.matchAt? source.chars) pos)
        | .error _ => none
      | _ => none
    | .wrap .optional [t] => do
      match ← interpret s self source fuel frame t pos with
      | some found => return some found
      | none => return some (pos, .ok .absent)
    | .wrap .zeroOrMore [t] => do
      let (stop, vs) ← rounds (interpret s self source fuel frame t) fuel pos
      return some (stop, listOf vs)
    | .wrap .oneOrMore [t] => do
      match ← interpret s self source fuel frame t pos with
      | none => return none
      | some (mid, v) =>
        let (stop, vs) ← rounds (interpret s self source fuel frame t) fuel mid
        return some (stop, listOf (v :: vs))
    | .firstOf alts => firstOf (interpret s self source fuel frame) alts pos
    | .action name args =>
      match s.factory.methods.find? fun (n, _) => n = name with
      | none => none
      | some (_, (method, m)) => do
        match ← inTurn (interpret s self source fuel frame) args pos with
        | none => return none
        | some (stop, vs) => return some (stop, gather vs >>= m.call method self)
    | .call name args =>
      match s.target? name with
      | some (.rule _ owner [.rule none [t]]) => interpret s self source fuel ⟨owner, []⟩ t pos
      | some (.inline owner [t]) => do
        interpret s self source fuel ⟨owner, ← plainAll? frame.args args⟩ t pos
      | _ => none
    | .inherited name args =>
      match s.inheritedTarget? frame.owner name with
      | some (.inline owner [t]) => do
        interpret s self source fuel ⟨owner, ← plainAll? frame.args args⟩ t pos
      | _ => none
    | _ => none

/-- The rule method that a choice of a root stands for. -/
def rootMethod? (g : GrammarClass) : RootChoice → Option Method
  | .first => g.rules.head?.map fun (_, (m, _)) => m
  | .method m => some m
  | .named name =>
    match Lineage.find? g name with
    | some (owner, .method _) | some (owner, .static _) => some ⟨owner.name ++ "." ++ name⟩
    | _ => none
  | .key _ => none

/-- Reads a source from its start, by the rule method that is the root. -/
def read [PatternLibrary] (parts : Parser.Parts) (fuel : Nat) (source : Source) :
    Option (Reading Deferred) := do
  let method ← rootMethod? parts.grammar parts.root
  let (name, _) ← parts.grammar.rules.find? fun (_, (m, _)) => m = method
  interpret parts.stage parts.self source fuel ⟨parts.grammar.id, []⟩
    (.call name []) 0

/-! ### Grammars that can be read -/

/-- Terms made of builder calls, factory calls, rule methods and helpers that are played in place. Rule
methods and helpers take plain values only, which are there before anything is recorded: a value of its own or
an argument of the running method, but no operand. -/
inductive Builder (s : Stage) : Frame → Term → Prop
  | token {frame arg t} (h : plain? frame.args arg = some (.text t)) : Builder s frame (.token arg)
  | pattern {frame arg t} (h : plain? frame.args arg = some (.text t)) :
    Builder s frame (.pattern arg)
  | wrap {frame how t} (h : Builder s frame t) : Builder s frame (.wrap how [t])
  | firstOf {frame alts} (h : ∀ t ∈ alts, Builder s frame t) : Builder s frame (.firstOf alts)
  | action {frame name args method m}
    (hm : s.factory.methods.find? (fun (n, _) => n = name) = some (name, (method, m)))
    (h : ∀ t ∈ args, Builder s frame t) : Builder s frame (.action name args)
  | rule {frame name args method owner body vs}
    (ht : s.target? name = some (.rule method owner body))
    (hargs : plainAll? frame.args args = some vs) : Builder s frame (.call name args)
  | helper {frame name args owner t vs} (ht : s.target? name = some (.inline owner [t]))
    (hargs : plainAll? frame.args args = some vs) (h : Builder s ⟨owner, vs⟩ t) :
    Builder s frame (.call name args)
  | inherited {frame name args owner t vs}
    (ht : s.inheritedTarget? frame.owner name = some (.inline owner [t]))
    (hargs : plainAll? frame.args args = some vs) (h : Builder s ⟨owner, vs⟩ t) :
    Builder s frame (.inherited name args)

/-- Every rule method declares its rule by one such term, and method names have no dots in them. -/
structure Declarative (s : Stage) : Prop where
  bodies : ∀ name method body, (name, (method, body)) ∈ s.grammar.rules →
    ∃ t, body = [.rule none [t]] ∧ Builder s ⟨s.grammar.ownerOf name, []⟩ t
  ruleNames : ∀ name method body, (name, (method, body)) ∈ s.grammar.rules → '.' ∉ name.toList
  actionNames : ∀ name method m, (name, (method, m)) ∈ s.factory.methods → '.' ∉ name.toList

end Reading
end PegScribe
