import PegScribe.Proofs.Meaning
import PegScribe.Proofs.Reading

/-!
Lexemes: the pattern for white space takes all of it, so a lexeme with white space around it is read as
it is matched.
-/
namespace PegScribe

/-- The library's pattern for white space, as it is recorded. -/
theorem PatternLibrary.compile_whitespace [PatternLibrary] :
    PatternLibrary.compile Recorder.whitespace = .ok PatternLibrary.blanks :=
  PatternLibrary.compile_blanks

theorem PatternLibrary.matchAt?_skip [PatternLibrary] (source : Source) (pos : Nat) :
    PatternLibrary.blanks.matchAt? source.chars pos = some (Reading.skip source pos) :=
  PatternLibrary.matchAt?_blanks source.chars pos

namespace Reading
open Packrat
variable [PatternLibrary] {g : Grammar} {patterns : PatternTable} {source : Source}

/-- A terminal that ends where `end?` says, at any place. -/
def EndsAt (g : Grammar) (patterns : PatternTable) (source : Source) (e : Expr)
    (end? : Nat → Option Nat) : Prop :=
  ∀ pos : Nat, ∃ steps, Yields g patterns source.chars e pos
    ((end? pos).map fun (stop : Nat) => ((stop : Int), [.leaf pos stop])) steps

theorem endsAt_literal (t : String) :
    EndsAt g patterns source (.literal t) (literalEnd? source t) := by
  intro pos
  unfold literalEnd?
  by_cases h : t.toList <+: source.chars.toList.drop pos
  · rw [if_pos h]
    exact ⟨_, .literalHit h⟩
  · rw [if_neg h]
    exact ⟨_, .literalMiss h⟩

theorem endsAt_pattern {t : String} {r : Pattern} (h : patterns.meaning? t = some r) :
    EndsAt g patterns source (.pattern t) (r.matchAt? source.chars) := by
  intro pos
  cases hmatch : r.matchAt? source.chars pos with
  | none => exact ⟨_, .patternMiss h hmatch⟩
  | some stop => exact ⟨_, .patternHit h hmatch⟩

/-- The trees of a lexeme: the white space before it, itself, and the white space after it. -/
def lexemeTrees (source : Source) (pos stop : Nat) : List ParseTree :=
  [.leaf pos (skip source pos), .leaf (skip source pos) stop, .leaf stop (skip source stop)]

theorem padded_yields {e : Expr} {end? : Nat → Option Nat}
    (hws : patterns.meaning? Recorder.whitespace = some PatternLibrary.blanks)
    (he : EndsAt g patterns source e end?) (pos : Nat) :
    ∃ steps, Yields g patterns source.chars (Recorder.padded e) pos
      ((end? (skip source pos)).map fun stop =>
        ((skip source stop : Int), lexemeTrees source pos stop)) steps := by
  have hskip : ∀ at_ : Nat, Yields g patterns source.chars (.pattern Recorder.whitespace) at_
      (some ((skip source at_ : Int), [.leaf at_ (skip source at_)])) [] :=
    fun at_ => .patternHit hws (PatternLibrary.matchAt?_skip source at_)
  obtain ⟨steps, hlexeme⟩ := he (skip source pos)
  cases hend : end? (skip source pos) with
  | none =>
    rw [hend] at hlexeme
    exact ⟨_, .seqHit (hskip pos) (.seqMiss hlexeme)⟩
  | some stop =>
    rw [hend] at hlexeme
    exact ⟨_, .seqHit (hskip pos) (.seqHit hlexeme (.seqHit (hskip stop) .seqNil))⟩

end Reading
end PegScribe
