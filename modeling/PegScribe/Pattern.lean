import PegScribe.Text.Classes

/-!
Patterns: what is asked of a library for regular expressions.

How patterns are written and how they match is the library's business. The rest relies on two things only:
a match ends where it starts or further on, inside the text, and the pattern for white space takes all the
white space that there is.
-/
namespace PegScribe

/-- A compiled pattern: where its match at a place ends, if there is one. -/
structure Pattern where
  matchAt? : (text : Array Char) → Nat → Option Nat
  inside : ∀ {text i j}, i ≤ text.size → matchAt? text i = some j → i ≤ j ∧ j ≤ text.size

/-- A library for regular expressions. -/
class PatternLibrary where
  /-- Compiles a pattern, or says what is wrong with it. -/
  compile : String → Except String Pattern
  /-- The pattern for white space, possessively. -/
  blanks : Pattern
  compile_blanks : compile "\\s*+" = .ok blanks
  matchAt?_blanks : ∀ text i, blanks.matchAt? text i =
    some (i + ((text.toList.drop i).takeWhile Text.isSpace).length)

end PegScribe
