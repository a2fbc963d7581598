import PegScribe.Regex.Basic

/-!
Matching by backtracking: the ways to match are tried in order and the first that lets the rest
match too is taken.

`Regex.run r i k` tries `r` at place `i` and hands each place where `r` may end to `k`, until `k`
accepts one.
-/
namespace PegScribe.Regex

/-- Where a match ends, if there is one. -/
abbrev Outcome := Option Nat

/-- Is there a word character at place `i`? -/
def wordAt (text : Array Char) (i : Nat) : Bool :=
  match text[i]? with
  | some c => Text.isWord c
  | none => false

/-- Do exactly one of the characters around place `i` belong to a word? -/
def atWordEdge (text : Array Char) (i : Nat) : Bool :=
  (0 < i && wordAt text (i - 1)) != wordAt text i

/-- Does the anchor hold at place `i`? -/
def holds (text : Array Char) (i : Nat) : Anchor → Bool
  | .textStart => i = 0
  | .textEnd => i = text.size
  | .lastLineEnd => i = text.size || (i + 1 = text.size && text[i]? = some '\n')
  | .wordEdge => atWordEdge text i
  | .insideWord => !atWordEdge text i

/-- Rounds of a repetition. A round that takes nothing is the last. `budget` bounds the rounds
that take something, so that one more than the characters left is always enough. -/
def rounds (body : Nat → (Nat → Outcome) → Outcome) (eager : Bool) (least : Nat)
    (most : Option Nat) : (budget done i : Nat) → (Nat → Outcome) → Outcome
  | 0, _, _, _ => none
  | budget + 1, done, i, k =>
    let again : Unit → Outcome := fun _ =>
      if most.all (done < ·) then
        body i fun j =>
          if j = i then k j else rounds body eager least most budget (done + 1) j k
      else none
    if done < least then again ()
    else if eager then (again ()).orElse fun _ => k i
    else (k i).orElse again

/-- Tries an expression at a place; `k` says how the rest goes on from each end. -/
def run (text : Array Char) : Regex → Nat → (Nat → Outcome) → Outcome
  | .empty, i, k => k i
  | .char t, i, k =>
    match text[i]? with
    | some c => if t.passes c then k (i + 1) else none
    | none => none
  | .anchor a, i, k => if holds text i a then k i else none
  | .cat a b, i, k => run text a i fun j => run text b j k
  | .alt a b, i, k => (run text a i k).orElse fun _ => run text b i k
  | .rep .greedy least most body, i, k =>
    rounds (run text body) true least most (text.size - i + 1) 0 i k
  | .rep .sparing least most body, i, k =>
    rounds (run text body) false least most (text.size - i + 1) 0 i k
  | .rep .possessive least most body, i, k =>
    (rounds (run text body) true least most (text.size - i + 1) 0 i some).bind k
  | .atomic body, i, k => (run text body i some).bind k
  | .ahead positive body, i, k =>
    if (run text body i some).isSome = positive then k i else none

/-- The end of the match at place `i`. -/
def matchAt? (r : Regex) (text : Array Char) (i : Nat) : Option Nat := run text r i some

end PegScribe.Regex
