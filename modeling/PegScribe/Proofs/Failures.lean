import Mathlib.Data.List.Nodup
import PegScribe.Proofs.Linkable
import PegScribe.Proofs.Memo

/-!
Failures: what a run reports is its furthest failure.

`Reported steps furthest expected` says what a row of steps calls for: the largest place where a
terminal failed, and the terminals that failed there. A run keeps this with every step (`Tries.reliable`).
As it takes just the steps of the derivation where there is one, what it remembers neither hides a
failure nor adds one.
-/
namespace PegScribe

mutual

/-- Every choice in the expression has an alternative. -/
def Expr.offers : Expr → Bool
  | .rep _ body => offers body
  | .seq items => offersAll items
  | .choice alts => !alts.isEmpty && offersAll alts
  | _ => true

/-- Every choice in the expressions has an alternative. -/
def Expr.offersAll : List Expr → Bool
  | [] => true
  | e :: rest => offers e && offersAll rest

end

/-- Every choice in the rules has an alternative. -/
def Grammar.Offers (g : Grammar) : Prop :=
  ∀ key body, g.rules.get? key = some body → body.offers = true

namespace Packrat
variable {g : Grammar} {patterns : PatternTable} {text : Array Char}

/-! ### Steps -/

/-- What a row of steps calls for: the largest place where a terminal failed, or `-1` if none did, and
the terminals that failed there, each once. -/
structure Reported (steps : List Step) (furthest : Int) (expected : List String) : Prop where
  largest : ∀ e pos, .missed e pos ∈ steps → pos ≤ furthest
  reached : (∃ e, .missed e furthest ∈ steps) ∨ (furthest = -1 ∧ ∀ e pos, .missed e pos ∉ steps)
  terminals : ∀ s, s ∈ expected ↔ ∃ e, .missed e furthest ∈ steps ∧ shown e = s
  once : expected.Nodup

section Steps
variable {steps steps' : List Step} {furthest : Int} {expected : List String}

theorem reported_nil : Reported [] (-1) [] :=
  ⟨by simp, .inr ⟨rfl, by simp⟩, by simp, List.nodup_nil⟩

/-- Only the failures matter, and neither their order nor how often they come. -/
theorem Reported.congr (h : Reported steps furthest expected)
    (hsame : ∀ e pos, .missed e pos ∈ steps' ↔ .missed e pos ∈ steps) :
    Reported steps' furthest expected where
  largest := fun e pos hmem => h.largest e pos ((hsame e pos).mp hmem)
  reached := by simpa only [hsame] using h.reached
  terminals := by simpa only [hsame] using h.terminals
  once := h.once

theorem Reported.expected_nil_iff (h : Reported steps furthest expected) :
    expected = [] ↔ ∀ e pos, .missed e pos ∉ steps := by
  constructor
  · intro hnil e pos hmem
    rcases h.reached with ⟨e', hmem'⟩ | ⟨-, hnone⟩
    · have hshown := (h.terminals (shown e')).mpr ⟨e', hmem', rfl⟩
      rw [hnil] at hshown
      cases hshown
    · exact hnone e pos hmem
  · intro hnone
    refine List.eq_nil_iff_forall_not_mem.mpr fun s hs => ?_
    obtain ⟨e, hmem, -⟩ := (h.terminals s).mp hs
    exact hnone e furthest hmem

end Steps

/-- A further failure is past the furthest place, at it, or short of it. -/
theorem reported_miss {r : Run} (hr : Reported r.steps r.furthest r.expected) (e : Expr) {pos : Int}
    (hpos : 0 ≤ pos) :
    Reported (r.miss e pos).steps (r.miss e pos).furthest (r.miss e pos).expected := by
  unfold Run.miss Run.expect
  split
  · rename_i hpast
    have hold : ∀ e', .missed e' pos ∉ r.steps := fun e' hmem => by
      have := hr.largest e' pos hmem
      omega
    refine ⟨fun e' p hmem => ?_, .inl ⟨e, by simp⟩, fun s => ?_, List.nodup_singleton _⟩
    · rcases List.mem_cons.mp hmem with heq | hmem
      · cases heq; exact Int.le_refl _
      · have := hr.largest e' p hmem
        dsimp only
        omega
    · simp [hold, eq_comm]
  · split
    · rename_i hat
      subst hat
      refine ⟨fun e' p hmem => ?_, .inl ⟨e, by simp⟩, fun s => ?_, hr.once.insert⟩
      · rcases List.mem_cons.mp hmem with heq | hmem
        · cases heq; exact Int.le_refl _
        · exact hr.largest e' p hmem
      · rw [List.mem_insert_iff, hr.terminals s]
        simp only [List.mem_cons, Step.missed.injEq, and_true, or_and_right, exists_or,
          exists_eq_left, eq_comm (a := s)]
    · rename_i hle hne
      have hother : ∀ e', .missed e' r.furthest ∈ .missed e pos :: r.steps ↔
          .missed e' r.furthest ∈ r.steps := by
        intro e'
        rw [List.mem_cons, or_iff_right]
        rintro ⟨⟩
        exact hne rfl
      refine ⟨fun e' p hmem => ?_, ?_, fun s => ?_, hr.once⟩
      · rcases List.mem_cons.mp hmem with heq | hmem
        · cases heq
          dsimp only
          omega
        · exact hr.largest e' p hmem
      · rcases hr.reached with ⟨e', hmem⟩ | ⟨heq, -⟩
        · exact .inl ⟨e', List.mem_cons_of_mem _ hmem⟩
        · omega
      · simp only [hother]
        exact hr.terminals s

/-- A terminal failed among the steps. -/
def AnyMissed (steps : List Step) : Prop := ∃ e pos, .missed e pos ∈ steps

theorem AnyMissed.append_left {steps : List Step} (h : AnyMissed steps) (more : List Step) :
    AnyMissed (steps ++ more) := by
  obtain ⟨e, pos, hmem⟩ := h
  exact ⟨e, pos, List.mem_append_left _ hmem⟩

theorem AnyMissed.append_right {more : List Step} (h : AnyMissed more) (steps : List Step) :
    AnyMissed (steps ++ more) := by
  obtain ⟨e, pos, hmem⟩ := h
  exact ⟨e, pos, List.mem_append_right _ hmem⟩

theorem none_of_after {trees : List ParseTree} {m : Match} (h : m.after trees = none) : m = none :=
  Option.map_eq_none_iff.mp h

/-! ### Runs -/

variable [PatternLibrary]

/-- The expression is a terminal, and it does not match at the place. -/
def Fails (patterns : PatternTable) (text : Array Char) (pos : Int) : Expr → Prop
  | .literal t => ¬ StandsIn text t pos
  | .pattern source => ∃ regex, patterns.meaning? source = some regex ∧
    regex.matchAt? text pos.toNat = none
  | _ => False

/-- The notes of a run on its failures are right. -/
structure Run.Reliable (patterns : PatternTable) (text : Array Char) (r : Run) : Prop where
  meaning : r.patterns.meaning? = patterns.meaning?
  reported : Reported r.steps r.furthest r.expected
  fails : ∀ e pos, .missed e pos ∈ r.steps → Inside text pos ∧ Fails patterns text pos e

theorem reliable_start : ({ patterns } : Run).Reliable patterns text :=
  ⟨rfl, reported_nil, by simp⟩

theorem Run.Reliable.miss {r r' : Run} (hr : r.Reliable patterns text) {e : Expr} {pos : Int}
    (hpos : Inside text pos) (he : Fails patterns text pos e)
    (hmeaning : r'.patterns.meaning? = patterns.meaning?)
    (hsame : r' = { r with patterns := r'.patterns }) : (r'.miss e pos).Reliable patterns text := by
  have hreported : Reported r'.steps r'.furthest r'.expected := hsame ▸ hr.reported
  refine ⟨by rw [patterns_miss]; exact hmeaning, reported_miss hreported e hpos.1, ?_⟩
  intro e' p hmem
  rcases List.mem_cons.mp hmem with heq | hmem
  · cases heq; exact ⟨hpos, he⟩
  · exact hr.fails e' p (by rw [hsame] at hmem; exact hmem)

theorem kept_reliable : Kept text (Run.Reliable patterns text) where
  literalMiss := by
    intro r t pos hr hpos hend
    refine hr.miss hpos (fun hstands => ?_) hr.meaning rfl
    rw [literalEnd?_of_standsIn hpos hstands] at hend
    cases hend
  compile := fun hr hc => ⟨(PatternTable.compile_ok hc).2.trans hr.meaning, hr.reported, hr.fails⟩
  patternMiss := by
    intro r source regex table pos hr hc hpos hend
    obtain ⟨hknown, hmeaning⟩ := PatternTable.compile_ok hc
    refine hr.miss hpos ⟨regex, ?_, ?_⟩ (hmeaning.trans hr.meaning) rfl
    · rw [← hr.meaning]; exact hknown
    · rw [patternEnd?_inside hpos] at hend
      exact Option.map_eq_none_iff.mp hend
  enter := by
    intro r hr key pos
    have hsame : ∀ e p, .missed e p ∈ (r.enter key pos).steps ↔ .missed e p ∈ r.steps := by
      simp [Run.enter]
    exact ⟨hr.meaning, hr.reported.congr hsame, fun e p hmem => hr.fails e p ((hsame e p).mp hmem)⟩
  leave := fun hr _ _ _ => ⟨hr.meaning, hr.reported, hr.fails⟩

theorem Tries.reliable {e : Expr} {pos : Int} {r : Run} {m : Match}
    (h : Tries g text e pos { patterns } m r) (hpos : Inside text pos) :
    r.Reliable patterns text :=
  h.keeps kept_reliable (movesOnward_start patterns) hpos reliable_start

/-! ### Derivations -/

/-- Where every choice has an alternative, an expression that comes to nothing has a terminal that
failed: in a choice the first alternative alone makes sure of one. -/
theorem Yields.anyMissed (hg : g.Offers) {e : Expr} {pos : Int} {m : Match} {steps : List Step}
    (h : Yields g patterns text e pos m steps) (he : e.offers = true) (hm : m = none) :
    AnyMissed steps := by
  induction h with
  | literalHit _ => cases hm
  | literalMiss _ => exact ⟨_, _, List.mem_singleton_self _⟩
  | patternHit _ _ => cases hm
  | patternMiss _ _ => exact ⟨_, _, List.mem_singleton_self _⟩
  | @rule key pos body m steps hb _ ih =>
    have hnone : m = none := by cases m <;> simp_all [Match.ofTree, Match.tree]
    exact (ih (hg key body hb) hnone).append_right [_]
  | optionalHit _ _ => cases hm
  | optionalMiss _ _ => cases hm
  | manyEnd _ _ => cases hm
  | manyIdle _ _ => cases hm
  | manyNext _ _ _ _ ih' => exact (ih' he (none_of_after hm)).append_right _
  | someMiss _ ih => exact ih he rfl
  | someHit _ _ _ ih' => exact (ih' he (none_of_after hm)).append_right _
  | seqNil => cases hm
  | seqMiss _ ih => exact ih (Bool.and_eq_true_iff.mp he).1 rfl
  | seqHit _ _ _ ih' =>
    exact (ih' (Bool.and_eq_true_iff.mp he).2 (none_of_after hm)).append_right _
  | choiceNil => cases he
  | choiceHit _ _ => cases hm
  | choiceNext _ _ ih _ =>
    have hfirst := (Bool.and_eq_true_iff.mp (Bool.and_eq_true_iff.mp he).2).1
    exact (ih hfirst rfl).append_left _

/-! ### Whole runs -/

/-- What a verdict says about failures is true: it reports what its steps call for, every failure that
it counts is one, and where the rule has a derivation it reports what this calls for. -/
structure Verdict.Truthful (g : Grammar) (patterns : PatternTable) (text : Array Char)
    (key : RuleKey) (pos : Int) (v : Verdict) : Prop where
  reported : Reported v.steps v.furthest v.expected
  fails : ∀ e at_, .missed e at_ ∈ v.steps → Inside text at_ ∧ Fails patterns text at_ e
  derived : ∀ m steps, Yields g patterns text (.call key) pos m steps →
    Reported steps v.furthest v.expected

theorem verdict_of_yields {d : Nat} {key : RuleKey} {pos : Int} {m : Match} {steps : List Step}
    {v : Verdict} (hv : parse g patterns d key text pos = .ok v) (hpos : Inside text pos)
    (h : Yields g patterns text (.call key) pos m steps) :
    Match.ofTree v.tree = m ∧ ∀ s, s ∈ v.steps ↔ s ∈ steps := by
  obtain ⟨r, hf⟩ := follows_start h hpos
  obtain ⟨tree, rfl⟩ := ofTree_of_call hf.tries
  obtain ⟨d₀, hd₀⟩ := parse_of_tries hf.tries
  rcases parse_eq_or_tooDeep hd₀ d with hdeep | heq
  · rw [hv] at hdeep; cases hdeep
  · cases hv.symm.trans heq
    refine ⟨rfl, fun s => ?_⟩
    show s ∈ r.steps.reverse ↔ s ∈ steps
    rw [List.mem_reverse, hf.steps]
    simp

theorem truthful_of_parse {d : Nat} {key : RuleKey} {pos : Int} {v : Verdict}
    (hv : parse g patterns d key text pos = .ok v) (hpos : Inside text pos) :
    v.Truthful g patterns text key pos := by
  obtain ⟨tree, r, htries, rfl⟩ := tries_of_parse hv
  have hr := htries.reliable hpos
  have hsame : ∀ s, s ∈ (r.verdict pos tree).steps ↔ s ∈ r.steps := fun s => List.mem_reverse
  have hreported : Reported (r.verdict pos tree).steps r.furthest r.expected :=
    hr.reported.congr fun e p => hsame _
  refine ⟨hreported, fun e p hmem => hr.fails e p ((hsame _).mp hmem), fun m steps hy => ?_⟩
  exact hreported.congr fun e p => ((verdict_of_yields hv hpos hy).2 _).symm

end Packrat

namespace Program
open Packrat

theorem parse_of_failed [PatternLibrary] {p : Program} {depth : Nat} {source : Source} {index : Int}
    {report : String}
    (h : p.runWithin depth source = .ok (.failed index report)) :
    ∃ v, parse p.grammar p.patterns depth p.start source.chars 0 = .ok v ∧ v.tree = none ∧
      index = max v.furthest 0 ∧ source.report? index v.expected = some report := by
  cases hparse : parse p.grammar p.patterns depth p.start source.chars 0 with
  | error f => rw [runWithin_of_parse_error hparse] at h; cases h
  | ok v =>
    rw [runWithin_of_parse hparse] at h
    cases htree : v.tree with
    | some tree => rw [htree] at h; cases h
    | none =>
      rw [htree] at h
      cases hreport : source.report? (max v.furthest 0) v.expected with
      | none => rw [hreport] at h; cases h
      | some text =>
        rw [hreport] at h
        cases h
        exact ⟨v, rfl, htree, rfl, hreport⟩

/-- The report of a run is its true furthest failure. Every rule of a linked grammar comes from every
place of the text to a verdict that is truthful about failures, also where left recursion cuts a rule
short. A run that fails reports this verdict from within the text, and expects something if the root has
a derivation and every choice an alternative. -/
theorem report_is_furthest_failure [PatternLibrary] (p : Program) (hp : p.grammar.Linked p.patterns)
    (source : Source) :
    (∀ key pos, p.grammar.rules.contains key = true → 0 ≤ pos ∧ pos ≤ (source.length : Int) →
      ∃ v, (∃ d₀, ∀ d ≥ d₀, parse p.grammar p.patterns d key source.chars pos = .ok v) ∧
        (∀ d, parse p.grammar p.patterns d key source.chars pos = .error .tooDeep ∨
          parse p.grammar p.patterns d key source.chars pos = .ok v) ∧
        v.Truthful p.grammar p.patterns source.chars key pos) ∧
    ∀ d index report, p.runWithin d source = .ok (.failed index report) →
      (0 ≤ index ∧ index ≤ source.length) ∧
      ∃ v, parse p.grammar p.patterns d p.start source.chars 0 = .ok v ∧
        v.Truthful p.grammar p.patterns source.chars p.start 0 ∧
        index = max v.furthest 0 ∧ source.report? index v.expected = some report ∧
        ∀ m steps, Yields p.grammar p.patterns source.chars (.call p.start) 0 m steps →
          p.grammar.Offers → v.expected ≠ [] := by
  refine ⟨fun key pos hkey hpos => ?_, fun d index report h => ?_⟩
  · obtain ⟨tree, r, -, d₀, hd₀⟩ := parse_of_linked hp hkey source.chars pos
    exact ⟨_, ⟨d₀, hd₀⟩, parse_eq_or_tooDeep hd₀, truthful_of_parse (hd₀ d₀ (Nat.le_refl _)) hpos⟩
  · have hin : Inside source.chars 0 := ⟨Int.le_refl 0, by omega⟩
    obtain ⟨v, hv, htree, rfl, hreport⟩ := parse_of_failed h
    have htrue := truthful_of_parse hv hin
    refine ⟨⟨Int.le_max_right .., Int.max_le.mpr ⟨?_, by omega⟩⟩, v, hv, htrue, rfl, hreport, ?_⟩
    · rcases htrue.reported.reached with ⟨e, hmem⟩ | ⟨heq, -⟩
      · exact (htrue.fails e _ hmem).1.2
      · omega
    · intro m steps hy hg hnil
      obtain ⟨hm, hsteps⟩ := verdict_of_yields hv hin hy
      rw [htree] at hm
      obtain ⟨e, at_, hmem⟩ := hy.anyMissed hg rfl hm.symm
      exact htrue.reported.expected_nil_iff.mp hnil e at_ ((hsteps _).mpr hmem)

/-- An `a` and a `b`, and then a `c` or a `d`: the rule for the `b` is asked for twice. -/
def forked : Program :=
  let whole := RuleKey.given "whole" "whole"
  let middle := RuleKey.given "middle" "middle"
  { grammar :=
      { rules := ⟨[(whole, .seq [.literal "a", .choice [.seq [.call middle, .literal "c"],
            .seq [.call middle, .literal "d"]]]),
          (middle, .literal "b")]⟩
        root := some whole }
    patterns := {} }

theorem report_is_furthest_failure_forked : forked.grammar.Linked forked.patterns ∧
    forked.grammar.Offers ∧
    ∃ d report v, forked.runWithin d (.ofString "ab!") = .ok (.failed 2 report) ∧
      parse forked.grammar forked.patterns d forked.start (Source.ofString "ab!").chars 0 = .ok v ∧
      v.furthest = 2 ∧ (∀ s, s ∈ v.expected ↔ s = "'c'" ∨ s = "'d'") ∧ v.expected ≠ [] := by
  let whole := RuleKey.given "whole" "whole"
  let middle := RuleKey.given "middle" "middle"
  have hmiddle : forked.grammar.rules.get? middle = some (.literal "b") := rfl
  have hrules : ∀ key body, forked.grammar.rules.get? key = some body →
      body.offers = true ∧ body.Linked forked.grammar forked.patterns := by
    intro key body h
    have hmem := Ledger.mem_entries_of_get? h
    simp only [forked, List.mem_cons, Prod.mk.injEq, List.not_mem_nil, or_false] at hmem
    rcases hmem with ⟨-, rfl⟩ | ⟨-, rfl⟩
    · have hend : ∀ t, (Expr.seq [.call middle, .literal t]).Linked forked.grammar forked.patterns := by
        intro t
        refine .seq fun e he => ?_
        simp only [List.mem_cons, List.not_mem_nil, or_false] at he
        rcases he with rfl | rfl
        · exact .call hmiddle
        · exact .literal t
      refine ⟨rfl, .seq fun e he => ?_⟩
      simp only [List.mem_cons, List.not_mem_nil, or_false] at he
      rcases he with rfl | rfl
      · exact .literal "a"
      · refine .choice fun e he => ?_
        simp only [List.mem_cons, List.not_mem_nil, or_false] at he
        rcases he with rfl | rfl <;> exact hend _
    · exact ⟨rfl, .literal "b"⟩
  have hlinked : forked.grammar.Linked forked.patterns := fun key body h => (hrules key body h).2
  have hoffers : forked.grammar.Offers := fun key body h => (hrules key body h).1
  -- past the `b` both endings are missed, and the rule for the `b` is derived twice
  have hb : Yields forked.grammar forked.patterns #['a', 'b', '!'] (.call middle) 1
      (some (2, [.node middle 1 2 [.leaf 1 2]])) [.opened middle 1] :=
    .rule hmiddle (.literalHit (t := "b") (by decide))
  have hmiss : ∀ t, ¬ StandsIn #['a', 'b', '!'] t 2 →
      Yields forked.grammar forked.patterns #['a', 'b', '!'] (.seq [.call middle, .literal t]) 1 none
        [.opened middle 1, .missed (.literal t) 2] :=
    fun t h => .seqHit hb (.seqMiss (.literalMiss h))
  have ha : Yields forked.grammar forked.patterns #['a', 'b', '!'] (.literal "a") 0
      (some (1, [.leaf 0 1])) [] := .literalHit (t := "a") (by decide)
  have hderived : Yields forked.grammar forked.patterns #['a', 'b', '!'] (.call whole) 0 none
      [.opened whole 0, .opened middle 1, .missed (.literal "c") 2, .opened middle 1,
        .missed (.literal "d") 2] :=
    .rule rfl (.seqHit ha (.seqMiss
      (.choiceNext (hmiss "c" (by decide)) (.choiceNext (hmiss "d" (by decide)) .choiceNil))))
  obtain ⟨hall, hfailed⟩ := report_is_furthest_failure forked hlinked (.ofString "ab!")
  obtain ⟨v, ⟨d, hd⟩, -, htrue⟩ := hall whole 0 rfl (by decide)
  have hv := hd d (Nat.le_refl d)
  have htree : v.tree = none :=
    Option.map_eq_none_iff.mp (verdict_of_yields hv ⟨by decide, by decide⟩ hderived).1
  have hreported := htrue.derived _ _ hderived
  have hfurthest : v.furthest = 2 := by
    rcases hreported.reached with ⟨e, hmem⟩ | ⟨-, hnone⟩
    · simp only [List.mem_cons, reduceCtorEq, Step.missed.injEq, List.not_mem_nil, or_false,
        false_or] at hmem
      exact hmem.elim And.right And.right
    · exact absurd (by simp) (hnone (.literal "c") 2)
  obtain ⟨report, hreport⟩ :=
    (Source.ofString "ab!").report?_isSome (Int.le_max_right v.furthest 0) v.expected
  have hrun := runWithin_failed (p := forked) hv htree hreport
  obtain ⟨-, v', hv', -, -, -, hexpected⟩ := hfailed d _ report hrun
  cases hv.symm.trans hv'
  refine ⟨hlinked, hoffers, d, report, v, by rw [hrun, hfurthest]; rfl, hv, hfurthest, fun s => ?_,
    hexpected _ _ hderived hoffers⟩
  have hc : shown (.literal "c") = "'c'" := by decide +kernel
  have hd : shown (.literal "d") = "'d'" := by decide +kernel
  rw [hreported.terminals, hfurthest]
  simp [or_and_right, exists_or, hc, hd, eq_comm]

end Program
end PegScribe
