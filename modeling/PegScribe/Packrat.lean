import PegScribe.Registry
import PegScribe.ParseTree
import Std.Data.HashMap

/-!
Packrat parsing: expressions are tried in order, and the outcome of a rule at a place is worked out
once and remembered.

A rule that is met again at a place where it is still being worked out fails there, so left
recursion comes to an end. Matches inside sequences, choices and repetitions are spliced into the
rule around them. The furthest place where a terminal failed is kept together with the terminals
that failed there, and the steps of the run are written down.
-/
namespace PegScribe.Packrat

/-- What is known of a rule at a place. -/
inductive Entry where
  /-- It is being worked out. -/
  | pending
  /-- Its outcome. -/
  | done (tree : Option ParseTree)

/-- A step of a run. -/
inductive Step where
  /-- The body of a rule was tried at a place. -/
  | opened (key : RuleKey) (pos : Int)
  /-- A terminal failed at a place. -/
  | missed (terminal : Expr) (pos : Int)

/-- What a run has found out so far. -/
structure Run where
  memo : Std.HashMap (RuleKey × Int) Entry := {}
  patterns : PatternTable := {}
  /-- The furthest place where a terminal failed; `-1` before the first failure. -/
  furthest : Int := -1
  /-- The terminals that failed there. -/
  expected : List String := []
  /-- The steps taken, the latest first. -/
  steps : List Step := []

/-- Computations that a fault breaks off. -/
abbrev Engine := StateT Run (Except Fault)

/-- Where a match ends and the trees in it; nothing for a failure. -/
abbrev Match := Option (Int × List ParseTree)

/-! ### Terminals -/

/-- A place in the text: negative places count from the end, and none lies outside. -/
def clamp (text : Array Char) (pos : Int) : Nat :=
  if pos < 0 then (pos + text.size).toNat else min pos.toNat text.size

/-- Do the characters stand in the text from place `i` on? -/
def standsAt (text : Array Char) : List Char → Nat → Bool
  | [], _ => true
  | c :: rest, i => text[i]? = some c && standsAt text rest (i + 1)

/-- Where a literal that is tried at `pos` ends. Past the end of the text nothing matches. -/
def literalEnd? (text : Array Char) (literal : String) (pos : Int) : Option Int :=
  if pos ≤ text.size && standsAt text literal.toList (clamp text pos) then
    some (pos + literal.length)
  else none

/-- Where a pattern that is tried at `pos` ends. -/
def patternEnd? (text : Array Char) (r : Pattern) (pos : Int) : Option Int :=
  (r.matchAt? text (clamp text pos)).map fun (stop : Nat) => (stop : Int)

/-- A terminal as it is reported. -/
def shown (terminal : Expr) : String := terminal.format.toOption.getD ""

/-- Keeps a terminal that failed among those to be reported, unless a later place is known. -/
def Run.expect (r : Run) (terminal : String) (pos : Int) : Run :=
  if r.furthest < pos then { r with furthest := pos, expected := [terminal] }
  else if pos = r.furthest then { r with expected := r.expected.insert terminal }
  else r

/-- Notes that a terminal failed. -/
def Run.miss (r : Run) (terminal : Expr) (pos : Int) : Run :=
  { r.expect (shown terminal) pos with steps := .missed terminal pos :: r.steps }

/-- Notes that the body of a rule is tried. -/
def Run.enter (r : Run) (key : RuleKey) (pos : Int) : Run :=
  { r with memo := r.memo.insert (key, pos) .pending, steps := .opened key pos :: r.steps }

/-- Notes the outcome of a rule. -/
def Run.leave (r : Run) (key : RuleKey) (pos : Int) (tree : Option ParseTree) : Run :=
  { r with memo := r.memo.insert (key, pos) (.done tree) }

/-- A terminal's match, or a note of its failure. -/
def terminal (e : Expr) (pos : Int) : Option Int → Engine Match
  | some stop => return some (stop, [.leaf pos stop])
  | none => do
    modify (·.miss e pos)
    return none

/-- Compiles a pattern, or finds it among those compiled before. -/
def compiled [PatternLibrary] (source : String) : Engine Pattern := do
  let (r, table) ← StateT.lift ((← get).patterns.compile source)
  modify ({ · with patterns := table })
  return r

/-! ### Operators, over any way to try an expression -/

/-- Each expression after the other; all or nothing. -/
def inTurn (attempt : Expr → Int → Engine Match) : List Expr → Int → Engine Match
  | [], pos => return some (pos, [])
  | e :: rest, pos => do
    match ← attempt e pos with
    | none => return none
    | some (mid, trees) =>
      match ← inTurn attempt rest mid with
      | none => return none
      | some (stop, more) => return some (stop, trees ++ more)

/-- The first expression that matches. -/
def firstOf (attempt : Expr → Int → Engine Match) : List Expr → Int → Engine Match
  | [], _ => return none
  | e :: rest, pos => do
    match ← attempt e pos with
    | some found => return some found
    | none => firstOf attempt rest pos

/-- As many rounds as match; a round that does not move is dropped and ends them. -/
def many (attempt : Int → Engine Match) : (budget : Nat) → Int → Engine (Int × List ParseTree)
  | 0, _ => throw .tooDeep
  | budget + 1, pos => do
    match ← attempt pos with
    | none => return (pos, [])
    | some (mid, trees) =>
      if mid = pos then return (pos, [])
      else
        let (stop, more) ← many attempt budget mid
        return (stop, trees ++ more)

/-- Rounds that are always enough from a place on: each moves forward, or back into the text. -/
def roundsFrom (text : Array Char) (pos : Int) : Nat :=
  if text.size < pos then 2 else (text.size - pos).toNat + 1

/-- A rule at a place: remembered, or worked out from its body. -/
def apply (g : Grammar) (attempt : Expr → Int → Engine Match) (key : RuleKey) (pos : Int) :
    Engine (Option ParseTree) := do
  match (← get).memo[(key, pos)]? with
  | some .pending => return none
  | some (.done tree) => return tree
  | none =>
    modify (·.enter key pos)
    let body ← StateT.lift (g.body key)
    let found ← attempt body pos
    let tree := found.map fun (stop, children) => ParseTree.node key pos stop children
    modify (·.leave key pos tree)
    return tree

/-! ### Expressions -/

/-- Tries an expression at a place, with at most `depth` expressions inside one another. -/
def eval [PatternLibrary] (g : Grammar) (text : Array Char) : (depth : Nat) → Expr → Int → Engine Match
  | 0, _, _ => throw .tooDeep
  | depth + 1, e, pos =>
    match e with
    | .literal t => terminal (.literal t) pos (literalEnd? text t pos)
    | .pattern source => do
      let r ← compiled source
      terminal (.pattern source) pos (patternEnd? text r pos)
    | .call key => do
      let tree ← apply g (eval g text depth) key pos
      return tree.map fun t => (t.stop, [t])
    | .late callee => throw (.breach (.unresolvedCall ("<" ++ callee.text ++ ">")))
    | .rep .optional body => do
      match ← eval g text depth body pos with
      | some found => return some found
      | none => return some (pos, [])
    | .rep .zeroOrMore body => do
      return some (← many (eval g text depth body) (roundsFrom text pos) pos)
    | .rep .oneOrMore body => do
      match ← eval g text depth body pos with
      | none => return none
      | some (mid, trees) =>
        let (stop, more) ← many (eval g text depth body) (roundsFrom text mid) mid
        return some (stop, trees ++ more)
    | .rep (.unknown mark) _ => throw (.breach (.unknownRepetition mark))
    | .seq items => inTurn (eval g text depth) items pos
    | .choice alts => firstOf (eval g text depth) alts pos
    | .misfit _ type => throw (.call (.textExpected type))
    | .foreign shown => throw (.breach (.unknownNode shown))

/-! ### Whole runs -/

/-- The most expressions that may stand inside one another in a run. -/
def depthLimit : Nat := 1000

/-- What a run came to. -/
structure Verdict where
  tree : Option ParseTree
  stop : Int
  furthest : Int
  expected : List String
  patterns : PatternTable
  /-- The steps of the run, in order. -/
  steps : List Step

/-- Runs a rule at a place of a text, with nothing remembered yet. -/
def parse [PatternLibrary] (g : Grammar) (patterns : PatternTable) (depth : Nat) (key : RuleKey)
    (text : Array Char) (pos : Int) : Except Fault Verdict := do
  let (tree, r) ← (apply g (eval g text depth) key pos).run { patterns }
  return {
    tree := tree
    stop := (tree.map ParseTree.stop).getD pos
    furthest := r.furthest
    expected := r.expected
    patterns := r.patterns
    steps := r.steps.reverse }

end PegScribe.Packrat
