import PegScribe.Text.Classes

/-!
Regular expressions: what a pattern is once it has been read.
-/
namespace PegScribe

/-- A test on one character. -/
inductive CharTest where
  /-- Every character but the line feed. -/
  | anyInLine
  | nothing
  | one (c : Char)
  | range (lo hi : Char)
  | decimal
  | space
  | word
  | either (a b : CharTest)
  | outside (a : CharTest)

/-- Does the character pass? -/
def CharTest.passes : CharTest → Char → Bool
  | .anyInLine, c => c != '\n'
  | .nothing, _ => false
  | .one a, c => c = a
  | .range lo hi, c => lo ≤ c && c ≤ hi
  | .decimal, c => Text.isDecimal c
  | .space, c => Text.isSpace c
  | .word, c => Text.isWord c
  | .either a b, c => a.passes c || b.passes c
  | .outside a, c => !a.passes c

/-- A test on a place between characters. -/
inductive Anchor where
  | textStart
  | textEnd
  /-- The end of the text, or the place before a line feed that ends it. -/
  | lastLineEnd
  | wordEdge
  | insideWord
  deriving DecidableEq

/-- Which count of rounds a repetition tries first. -/
inductive Appetite where
  /-- The most rounds first. -/
  | greedy
  /-- The fewest rounds first. -/
  | sparing
  /-- The most rounds, and no second thoughts. -/
  | possessive
  deriving DecidableEq

/-- Regular expressions. -/
inductive Regex where
  | empty
  | char (t : CharTest)
  | anchor (a : Anchor)
  | cat (a b : Regex)
  | alt (a b : Regex)
  | rep (appetite : Appetite) (least : Nat) (most : Option Nat) (body : Regex)
  /-- The first way to match, and no second thoughts. -/
  | atomic (body : Regex)
  /-- What follows matches, or does not, and nothing is taken. -/
  | ahead (positive : Bool) (body : Regex)

/-- An expression with no character and no place in it. -/
def Regex.isEmpty : Regex → Bool
  | .empty => true
  | .cat a b | .alt a b => a.isEmpty && b.isEmpty
  | .atomic a | .ahead _ a => a.isEmpty
  | _ => false

end PegScribe
