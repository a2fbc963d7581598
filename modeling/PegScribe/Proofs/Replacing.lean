import PegScribe.Proofs.Linkable
import PegScribe.Proofs.Remembering

/-!
Replacing: rules whose bodies can stand in for one another.

While the body of a rule is tried, the rule is noted as being worked out. So a body serves for another if
it comes to the same in every such state; and where each body of a grammar serves for the one of the same
rule in another grammar, every run of the one is a run of the other (`Tries.replace`), whatever the tables
of patterns, as long as patterns mean the same (`Tries.with_patterns`). The case in point are alternatives
that start with their own rule: they always fail, and leave nothing behind.
-/
namespace PegScribe
namespace Packrat
variable {g g' : Grammar} {text : Array Char}

/-- The run with another table of patterns. -/
def Run.withPatterns (r : Run) (table : PatternTable) : Run := { r with patterns := table }

theorem miss_withPatterns (r : Run) (table : PatternTable) (e : Expr) (pos : Int) :
    (r.withPatterns table).miss e pos = (r.miss e pos).withPatterns table := by
  unfold Run.withPatterns Run.miss Run.expect
  dsimp only
  split
  · rfl
  · split <;> rfl

/-! ### Bodies -/

variable [PatternLibrary]

/-- While the rule is worked out, trying the second expression comes to all that the first comes to. -/
def Serves (g : Grammar) (text : Array Char) (key : RuleKey) (e e' : Expr) : Prop :=
  ∀ ⦃pos r m r'⦄, r.MovesOnward text → r.Awaits key pos → Tries g text e pos r m r' →
    Tries g text e' pos r m r'

/-- Every rule has a body in the second grammar that serves for the body it has in the first. -/
def Replaces (g g' : Grammar) (text : Array Char) : Prop :=
  ∀ key body, g.rules.get? key = some body →
    ∃ body', g'.rules.get? key = some body' ∧ Serves g' text key body body'

theorem Serves.refl (key : RuleKey) (e : Expr) : Serves g text key e e := fun _ _ _ _ _ _ => id

/-- What is tried in one grammar is tried, with the same outcome, in another that replaces it. -/
theorem Tries.replace (hg : Replaces g g' text) {e : Expr} {pos : Int} {r r' : Run} {m : Match}
    (h : Tries g text e pos r m r') (hr : r.MovesOnward text) : Tries g' text e pos r m r' := by
  induction h with
  | literalHit h => exact .literalHit h
  | literalMiss h => exact .literalMiss h
  | patternHit hc h => exact .patternHit hc h
  | patternMiss hc h => exact .patternMiss hc h
  | again h => exact .again h
  | recalled h => exact .recalled h
  | @opened key pos r body m r' h hb _ ih =>
    obtain ⟨body', hb', hserves⟩ := hg key body hb
    exact .opened h hb' (hserves (hr.enter key pos) (awaits_enter_self r key pos)
      (ih (hr.enter key pos)))
  | optionalHit _ ih => exact .optionalHit (ih hr)
  | optionalMiss _ ih => exact .optionalMiss (ih hr)
  | manyEnd _ ih => exact .manyEnd (ih hr)
  | manyIdle _ ih => exact .manyIdle (ih hr)
  | manyNext hm hne _ ih ih' => exact .manyNext (ih hr) hne (ih' (hm.movesOnward hr).1)
  | someMiss _ ih => exact .someMiss (ih hr)
  | someHit hm _ ih ih' => exact .someHit (ih hr) (ih' (hm.movesOnward hr).1)
  | seqNil => exact .seqNil
  | seqMiss _ ih => exact .seqMiss (ih hr)
  | seqHit hm _ ih ih' => exact .seqHit (ih hr) (ih' (hm.movesOnward hr).1)
  | choiceNil => exact .choiceNil
  | choiceHit _ ih => exact .choiceHit (ih hr)
  | choiceNext hm _ ih ih' => exact .choiceNext (ih hr) (ih' (hm.movesOnward hr).1)

/-! ### Tables of patterns -/

/-- With a table that gives patterns the same meaning the same is tried. -/
theorem Tries.with_patterns {e : Expr} {pos : Int} {r r' : Run} {m : Match}
    (h : Tries g text e pos r m r') {table : PatternTable}
    (htable : table.meaning? = r.patterns.meaning?) :
    ∃ table', Tries g text e pos (r.withPatterns table) m (r'.withPatterns table') ∧
      table'.meaning? = r'.patterns.meaning? := by
  induction h generalizing table with
  | literalHit h => exact ⟨table, .literalHit h, htable⟩
  | @literalMiss t pos r h =>
    refine ⟨table, ?_, by rw [patterns_miss, htable]⟩
    rw [← miss_withPatterns]
    exact .literalMiss h
  | @patternHit source pos r regex known stop hc h =>
    have hknown := PatternTable.compile_ok hc
    obtain ⟨table', hc'⟩ := PatternTable.compile_of_meaning? (htable ▸ hknown.1)
    exact ⟨table', .patternHit hc' h, ((PatternTable.compile_ok hc').2.trans htable).trans hknown.2.symm⟩
  | @patternMiss source pos r regex known hc h =>
    have hknown := PatternTable.compile_ok hc
    obtain ⟨table', hc'⟩ := PatternTable.compile_of_meaning? (htable ▸ hknown.1)
    refine ⟨table', ?_, ?_⟩
    · rw [← miss_withPatterns]
      exact .patternMiss hc' h
    · rw [patterns_miss]
      exact ((PatternTable.compile_ok hc').2.trans htable).trans hknown.2.symm
  | again h => exact ⟨table, .again h, htable⟩
  | recalled h => exact ⟨table, .recalled h, htable⟩
  | @opened key pos r body m r' h hb _ ih =>
    obtain ⟨table', hm, htable'⟩ := ih htable
    exact ⟨table', .opened (r := r.withPatterns table) h hb hm, htable'⟩
  | optionalHit _ ih =>
    obtain ⟨table', hm, htable'⟩ := ih htable
    exact ⟨table', .optionalHit hm, htable'⟩
  | optionalMiss _ ih =>
    obtain ⟨table', hm, htable'⟩ := ih htable
    exact ⟨table', .optionalMiss hm, htable'⟩
  | manyEnd _ ih =>
    obtain ⟨table', hm, htable'⟩ := ih htable
    exact ⟨table', .manyEnd hm, htable'⟩
  | manyIdle _ ih =>
    obtain ⟨table', hm, htable'⟩ := ih htable
    exact ⟨table', .manyIdle hm, htable'⟩
  | manyNext _ hne _ ih ih' =>
    obtain ⟨table₁, hm, htable₁⟩ := ih htable
    obtain ⟨table', hrest, htable'⟩ := ih' htable₁
    exact ⟨table', .manyNext hm hne hrest, htable'⟩
  | someMiss _ ih =>
    obtain ⟨table', hm, htable'⟩ := ih htable
    exact ⟨table', .someMiss hm, htable'⟩
  | someHit _ _ ih ih' =>
    obtain ⟨table₁, hm, htable₁⟩ := ih htable
    obtain ⟨table', hrest, htable'⟩ := ih' htable₁
    exact ⟨table', .someHit hm hrest, htable'⟩
  | seqNil => exact ⟨table, .seqNil, htable⟩
  | seqMiss _ ih =>
    obtain ⟨table', hm, htable'⟩ := ih htable
    exact ⟨table', .seqMiss hm, htable'⟩
  | seqHit _ _ ih ih' =>
    obtain ⟨table₁, hm, htable₁⟩ := ih htable
    obtain ⟨table', hrest, htable'⟩ := ih' htable₁
    exact ⟨table', .seqHit hm hrest, htable'⟩
  | choiceNil => exact ⟨table, .choiceNil, htable⟩
  | choiceHit _ ih =>
    obtain ⟨table', hm, htable'⟩ := ih htable
    exact ⟨table', .choiceHit hm, htable'⟩
  | choiceNext _ _ ih ih' =>
    obtain ⟨table₁, hm, htable₁⟩ := ih htable
    obtain ⟨table', hrest, htable'⟩ := ih' htable₁
    exact ⟨table', .choiceNext hm hrest, htable'⟩

end Packrat

/-! ### Whole runs -/

section Library
variable [PatternLibrary]

/-- A program whose grammar replaces another's comes to all that the other comes to. -/
theorem Program.RunsTo.replace {p q : Program} {source : Source} {outcome : Outcome}
    (h : p.RunsTo source outcome) (hg : Packrat.Replaces p.grammar q.grammar source.chars)
    (hstart : q.start = p.start) (hpatterns : q.patterns.meaning? = p.patterns.meaning?) :
    q.RunsTo source outcome := by
  obtain ⟨hwithin, ⟨d, hd⟩, -⟩ := h
  have hrun := hd d (Nat.le_refl d)
  cases hparse : Packrat.parse p.grammar p.patterns d p.start source.chars 0 with
  | error f => rw [runWithin_of_parse_error hparse] at hrun; cases hrun
  | ok v =>
    obtain ⟨tree, r, htries, rfl⟩ := Packrat.tries_of_parse hparse
    obtain ⟨table, htries', -⟩ :=
      (htries.replace hg (Packrat.movesOnward_start p.patterns)).with_patterns hpatterns
    obtain ⟨d₀, hd₀⟩ := Packrat.parse_of_tries htries'
    rw [← hstart] at hd₀
    -- a verdict is read without the table of patterns
    have hsame : ∀ d', Packrat.parse q.grammar q.patterns d' q.start source.chars 0 =
        .ok ((r.withPatterns table).verdict 0 tree) → q.runWithin d' source = .ok outcome :=
      fun d' h' => (runWithin_of_parse h').trans ((runWithin_of_parse hparse).symm.trans hrun)
    refine ⟨hwithin, ⟨d₀, fun d' hd' => hsame d' (hd₀ d' hd')⟩, fun d' => ?_⟩
    exact (Packrat.parse_eq_or_tooDeep hd₀ d').imp runWithin_of_parse_error (hsame d')

theorem Program.RunsTo.eq_of_run {p : Program} {source : Source} {outcome outcome' : Outcome} {d : Nat}
    (h : p.RunsTo source outcome) (hrun : p.runWithin d source = .ok outcome') : outcome = outcome' := by
  rcases h.2.2 d with hdeep | hok
  · rw [hrun] at hdeep; cases hdeep
  · cases hrun.symm.trans hok; rfl

/-! ### Alternatives that start with their own rule -/

/-- Is the expression a reference to the rule, or a sequence with such a reference in front? -/
def Expr.startsWith (key : RuleKey) : Expr → Bool
  | .call k => k = key
  | .seq (.call k :: _) => k = key
  | _ => false

/-- The grammar with the alternatives of a rule left out that start with the rule itself. -/
def Grammar.withoutLeftRecursion (g : Grammar) (key : RuleKey) (alts : List Expr) : Grammar :=
  { g with rules := g.rules.insert key (.choice (alts.filter fun e => !e.startsWith key)) }

/-- The program, started from another rule. -/
def Program.startingAt (p : Program) (root : RuleKey) : Program :=
  { p with grammar.root := some root }

theorem Expr.Linked.of_rules {g g' : Grammar} {patterns : PatternTable} (hrules : g'.rules = g.rules)
    {e : Expr} (h : e.Linked g patterns) : e.Linked g' patterns := by
  induction h with
  | literal t => exact .literal t
  | pattern h => exact .pattern h
  | call h => exact .call (hrules ▸ h)
  | optional _ ih => exact .optional ih
  | zeroOrMore _ ih => exact .zeroOrMore ih
  | oneOrMore _ ih => exact .oneOrMore ih
  | seq _ ih => exact .seq ih
  | choice _ ih => exact .choice ih

/-- A linked program comes to an outcome from each of its rules. -/
theorem Program.runs_startingAt (p : Program) (hp : p.grammar.Linked p.patterns) {root : RuleKey}
    (hroot : p.grammar.rules.contains root = true) (source : Source) :
    ∃ outcome, (p.startingAt root).RunsTo source outcome := by
  obtain ⟨body, hbody⟩ := Option.isSome_iff_exists.mp hroot
  have hrules : (p.startingAt root).grammar.rules = p.grammar.rules := rfl
  have hlinked : (p.startingAt root).grammar.Linked p.patterns :=
    fun key body h => (hp key body h).of_rules hrules
  exact runs_of_linked hlinked hbody source

namespace Packrat
variable {g : Grammar} {text : Array Char} {key : RuleKey} {pos : Int} {r r' : Run} {m : Match}

/-- While a rule is worked out at a place, what starts with it fails there at once. -/
theorem tries_startsWith {e : Expr} (he : e.startsWith key = true) (hr : r.Awaits key pos) :
    Tries g text e pos r none r := by
  unfold Expr.startsWith at he
  split at he
  · cases of_decide_eq_true he
    exact .again hr
  · cases of_decide_eq_true he
    exact .seqMiss (.again hr)
  · cases he

theorem fails_of_startsWith {e : Expr} (he : e.startsWith key = true) (hr : r.Awaits key pos)
    (h : Tries g text e pos r m r') : m = none ∧ r' = r := by
  have hagain : ∀ {m r'}, Tries g text (.call key) pos r m r' → m = none ∧ r' = r := by
    intro m r' h
    unfold Run.Awaits at hr
    cases h with
    | again _ => exact ⟨rfl, rfl⟩
    | recalled h => rw [hr] at h; cases h
    | opened h _ _ => rw [hr] at h; cases h
  unfold Expr.startsWith at he
  split at he
  · cases of_decide_eq_true he
    exact hagain h
  · cases of_decide_eq_true he
    cases h with
    | seqMiss hm => exact ⟨rfl, (hagain hm).2⟩
    | seqHit hm _ => cases (hagain hm).1
  · cases he

/-- While the rule is worked out its own alternatives that start with it can be left out. -/
theorem serves_filter (alts : List Expr) :
    Serves g text key (.choice alts) (.choice (alts.filter fun e => !e.startsWith key)) := by
  intro pos r m r' hr hawaits h
  induction alts generalizing r with
  | nil => exact h
  | cons e rest ih =>
    rw [List.filter_cons]
    cases he : e.startsWith key with
    | true =>
      cases h with
      | choiceHit hm => cases (fails_of_startsWith he hawaits hm).1
      | choiceNext hm hrest =>
        obtain ⟨-, rfl⟩ := fails_of_startsWith he hawaits hm
        exact ih hr hawaits hrest
    | false =>
      cases h with
      | choiceHit hm => exact .choiceHit hm
      | choiceNext hm hrest =>
        exact .choiceNext hm (ih (hm.movesOnward hr).1 (hm.awaits hawaits) hrest)

/-- And they can be put in. -/
theorem serves_unfilter (alts : List Expr) :
    Serves g text key (.choice (alts.filter fun e => !e.startsWith key)) (.choice alts) := by
  intro pos r m r' hr hawaits h
  induction alts generalizing r with
  | nil => exact h
  | cons e rest ih =>
    rw [List.filter_cons] at h
    cases he : e.startsWith key with
    | true =>
      rw [he] at h
      exact .choiceNext (tries_startsWith he hawaits) (ih hr hawaits h)
    | false =>
      rw [he] at h
      cases h with
      | choiceHit hm => exact .choiceHit hm
      | choiceNext hm hrest =>
        exact .choiceNext hm (ih (hm.movesOnward hr).1 (hm.awaits hawaits) hrest)

variable {alts : List Expr}

theorem replaces_withoutLeftRecursion (hbody : g.rules.get? key = some (.choice alts)) :
    Replaces g (g.withoutLeftRecursion key alts) text := by
  intro k body hk
  unfold Grammar.withoutLeftRecursion
  rw [Ledger.get?_insert]
  split
  · rename_i heq
    subst heq
    cases hbody.symm.trans hk
    exact ⟨_, rfl, serves_filter alts⟩
  · exact ⟨body, hk, .refl k body⟩

theorem replaced_withoutLeftRecursion (hbody : g.rules.get? key = some (.choice alts)) :
    Replaces (g.withoutLeftRecursion key alts) g text := by
  intro k body hk
  unfold Grammar.withoutLeftRecursion at hk
  rw [Ledger.get?_insert] at hk
  split at hk
  · rename_i heq
    subst heq
    cases hk
    exact ⟨_, hbody, serves_unfilter alts⟩
  · exact ⟨body, hk, .refl k body⟩

end Packrat

/-- Alternatives that start with their own rule are dead. Leaving them out of a rule that is a choice
changes nothing in what a run comes to, from whatever rule it starts: neither the tree nor how much of
the text it covers, neither where it failed nor what it reports. If the grammar is linked it does come to
an outcome, from each of its rules. -/
theorem left_recursive_alternatives_dead (p : Program) (key : RuleKey) (alts : List Expr)
    (hbody : p.grammar.rules.get? key = some (.choice alts)) (patterns : PatternTable)
    (hpatterns : patterns.meaning? = p.patterns.meaning?) (root : RuleKey) (source : Source) :
    (∀ outcome, (p.startingAt root).RunsTo source outcome ↔
      (Program.startingAt ⟨p.grammar.withoutLeftRecursion key alts, patterns⟩ root).RunsTo source
        outcome) ∧
    (p.grammar.Linked p.patterns → p.grammar.rules.contains root = true →
      ∃ outcome, (p.startingAt root).RunsTo source outcome) := by
  refine ⟨fun outcome => ⟨fun h => ?_, fun h => ?_⟩, fun hp hroot => ?_⟩
  · exact h.replace (Packrat.replaces_withoutLeftRecursion (g := (p.startingAt root).grammar) hbody) rfl
      hpatterns
  · exact h.replace (Packrat.replaced_withoutLeftRecursion (g := (p.startingAt root).grammar) hbody) rfl
      hpatterns.symm
  · exact p.runs_startingAt hp hroot source

end Library

/-- Sums, written so that a sum starts with a sum. -/
def sums : Program :=
  let sum := RuleKey.given "sum" "sum"
  { grammar := { rules := ⟨[(sum, .choice [.seq [.call sum, .literal "+", .literal "n"], .call sum,
      .literal "n"])]⟩ }
    patterns := {} }

/-- What is left of them without the alternatives that start with a sum. -/
def sumsLeft : Program :=
  { grammar := { rules := ⟨[(.given "sum" "sum", .choice [.literal "n"])]⟩ }
    patterns := {} }

theorem left_recursive_alternatives_dead_sums :
    sums.grammar.Linked sums.patterns ∧
    (sums.startingAt (.given "sum" "sum")).RunsTo (.ofString "n+n")
      (.matched (.node (.given "sum" "sum") 0 1 [.leaf 0 1]) 1) ∧
    (sumsLeft.startingAt (.given "sum" "sum")).RunsTo (.ofString "n+n")
      (.matched (.node (.given "sum" "sum") 0 1 [.leaf 0 1]) 1) := by
  let sum := RuleKey.given "sum" "sum"
  have hsum : sums.grammar.rules.get? sum = some _ := rfl
  have hlinked : sums.grammar.Linked sums.patterns := by
    intro key body h
    have hmem := Ledger.mem_entries_of_get? h
    simp only [sums, List.mem_cons, Prod.mk.injEq, List.not_mem_nil, or_false] at hmem
    obtain ⟨-, rfl⟩ := hmem
    refine .choice fun e he => ?_
    simp only [List.mem_cons, List.not_mem_nil, or_false] at he
    rcases he with rfl | rfl | rfl
    · refine .seq fun e he => ?_
      simp only [List.mem_cons, List.not_mem_nil, or_false] at he
      rcases he with rfl | rfl | rfl
      · exact .call hsum
      · exact .literal "+"
      · exact .literal "n"
    · exact .call hsum
    · exact .literal "n"
  obtain ⟨hsame, hruns⟩ := left_recursive_alternatives_dead sums sum _ hsum {} rfl sum
    (.ofString "n+n")
  obtain ⟨outcome, houtcome⟩ := hruns hlinked rfl
  have hleft : (sumsLeft.startingAt sum).RunsTo (.ofString "n+n") outcome := (hsame outcome).mp houtcome
  -- what is left of the sums matches the first `n`
  obtain ⟨r, htries⟩ : ∃ r, Packrat.Tries (sumsLeft.startingAt sum).grammar
      (Source.ofString "n+n").chars (.call sum) 0 { patterns := {} }
      (.ofTree (some (.node sum 0 1 [.leaf 0 1]))) r :=
    ⟨_, .opened (m := some (1, [.leaf 0 1])) (by simp) rfl (.choiceHit (.literalHit rfl))⟩
  obtain ⟨d, hd⟩ := Packrat.parse_of_tries htries
  have hrun := Program.runWithin_matched (p := sumsLeft.startingAt sum) (hd d (Nat.le_refl d)) rfl
  cases hleft.eq_of_run hrun
  exact ⟨hlinked, houtcome, hleft⟩

end PegScribe
