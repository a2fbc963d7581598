import PegScribe.Packrat
import PegScribe.Source

/-!
Running a program: a text is matched from the root rule, or the furthest failure is reported.
-/
namespace PegScribe

/-- What a run from the root came to. -/
inductive Outcome where
  | matched (root : ParseTree) (consumed : Int)
  | failed (index : Int) (report : String)

namespace Program
variable [PatternLibrary]

/-- Runs the root rule at the start of a source, with at most `depth` expressions inside one
another. -/
def runWithin (p : Program) (depth : Nat) (source : Source) : Except Fault Outcome := do
  let root := p.grammar.root.getD RuleKey.missing
  let v ← Packrat.parse p.grammar p.patterns depth root source.chars 0
  match v.tree with
  | some tree => return .matched tree v.stop
  | none =>
    let index := max v.furthest 0
    match source.report? index v.expected with
    | some report => return .failed index report
    | none => throw .stringIndex

/-- Runs the root rule at the start of a source. -/
def run (p : Program) (source : Source) : Except Fault Outcome :=
  p.runWithin Packrat.depthLimit source

end Program
end PegScribe
