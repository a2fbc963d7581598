import PegScribe.Nested
import PegScribe.Proofs.Interpretation

/-!
Shallow grammars: where expressions stand only so deep inside one another, a greater limit on nesting
changes nothing.

`Expr.within g n e` says that at most `n` expressions stand inside one another in `e`, the bodies of the
rules that it calls included; a grammar that calls no rule from inside itself has such a bound. Then
trying `e` comes to the same with every depth from `n` on, its trees are no deeper than `n`, and so is
lowering them. A parser of such a grammar answers what reading comes to, and never that the limit was
passed (`agrees_of_within`). Parsers of other grammars do so with depth enough.
-/
namespace PegScribe

/-- Do at most `n` expressions stand inside one another, called rules included? -/
def Expr.within (g : Grammar) : (n : Nat) → Expr → Bool
  | 0, _ => false
  | n + 1, .call key => (g.rules.get? key).all (within g n)
  | n + 1, .rep _ body => within g n body
  | n + 1, .seq items => items.all (within g n)
  | n + 1, .choice alts => alts.all (within g n)
  | _ + 1, _ => true

/-- Do at most `n` nodes stand inside one another? -/
def ParseTree.within : (n : Nat) → ParseTree → Bool
  | 0, _ => false
  | _ + 1, .leaf .. => true
  | n + 1, .node _ _ _ children => children.all (within n)

theorem ParseTree.within_succ : ∀ {n : Nat} {t : ParseTree},
    t.within n = true → t.within (n + 1) = true
  | 0, _, h => by cases h
  | n + 1, .leaf _ _, _ => rfl
  | n + 1, .node _ _ _ children, h =>
    List.all_eq_true.mpr fun t ht => within_succ (List.all_eq_true.mp h t ht)

theorem ParseTree.within_mono {n m : Nat} {t : ParseTree} (hle : n ≤ m) (h : t.within n = true) :
    t.within m = true := by
  induction hle with
  | refl => exact h
  | step _ ih => exact within_succ ih

theorem ParseTree.not_within_of_child {n : Nat} {key : RuleKey} {start stop : Int}
    {children : List ParseTree} {child : ParseTree} (hmem : child ∈ children)
    (h : child.within n = false) : ParseTree.within (n + 1) (.node key start stop children) = false := by
  refine Bool.eq_false_iff.mpr fun hall => ?_
  rw [List.all_eq_true.mp hall child hmem] at h
  cases h

mutual

/-- Only so many nodes stand inside one another. -/
theorem ParseTree.exists_within : ∀ t : ParseTree, ∃ n, t.within n = true
  | .leaf _ _ => ⟨1, rfl⟩
  | .node _ _ _ children => by
    obtain ⟨n, hn⟩ := exists_within_all children
    exact ⟨n + 1, List.all_eq_true.mpr hn⟩

theorem ParseTree.exists_within_all : ∀ ts : List ParseTree, ∃ n, ∀ t ∈ ts, t.within n = true
  | [] => ⟨0, by rintro t ⟨⟩⟩
  | t :: rest => by
    obtain ⟨n, hn⟩ := exists_within t
    obtain ⟨m, hm⟩ := exists_within_all rest
    refine ⟨max n m, fun u hu => ?_⟩
    rcases List.mem_cons.mp hu with rfl | hu
    · exact within_mono (Nat.le_max_left ..) hn
    · exact within_mono (Nat.le_max_right ..) (hm u hu)

end

namespace Packrat
variable {g : Grammar} {text : Array Char} {attempt attempt' : Expr → Int → Engine Match}

/-! ### Rows of expressions -/

theorem inTurn_congr : ∀ {es : List Expr}, (∀ e ∈ es, attempt e = attempt' e) →
    inTurn attempt es = inTurn attempt' es
  | [], _ => by funext pos; rfl
  | e :: rest, h => by
    funext pos
    simp only [inTurn]
    rw [h e (List.mem_cons_self ..), inTurn_congr fun e he => h e (List.mem_cons_of_mem _ he)]

theorem firstOf_congr : ∀ {es : List Expr}, (∀ e ∈ es, attempt e = attempt' e) →
    firstOf attempt es = firstOf attempt' es
  | [], _ => by funext pos; rfl
  | e :: rest, h => by
    funext pos
    simp only [firstOf]
    rw [h e (List.mem_cons_self ..), firstOf_congr fun e he => h e (List.mem_cons_of_mem _ he)]

theorem apply_congr {key : RuleKey} (h : ∀ body, g.rules.get? key = some body →
    attempt body = attempt' body) : apply g attempt key = apply g attempt' key := by
  funext pos r
  rw [apply_run, apply_run]
  cases hrule : g.rules.get? key with
  | none => rfl
  | some body =>
    dsimp only
    rw [h body hrule]

/-! ### The trees of a match -/

/-- Every tree in the match is within the bound. -/
def Match.Within (n : Nat) (m : Match) : Prop := ∀ found ∈ m, ∀ t ∈ found.2, t.within n = true

section Matches
variable {n : Nat} {m : Match} {pos mid : Int} {trees : List ParseTree}

theorem Match.Within.succ (h : m.Within n) : m.Within (n + 1) :=
  fun found hfound t ht => ParseTree.within_succ (h found hfound t ht)

theorem within_none : Match.Within n none := by rintro _ ⟨⟩

theorem within_nil : Match.Within n (some (pos, [])) := by rintro _ ⟨⟩ t ⟨⟩

theorem within_leaf {start stop : Int} : Match.Within (n + 1) (some (pos, [.leaf start stop])) := by
  rintro _ ⟨⟩ t ht
  rw [List.mem_singleton.mp ht]
  rfl

theorem within_after (htrees : Match.Within n (some (mid, trees))) (hm : m.Within n) :
    (m.after trees).Within n := by
  rintro found hfound t ht
  obtain ⟨⟨stop, more⟩, rfl, rfl⟩ := Option.map_eq_some_iff.mp hfound
  rcases List.mem_append.mp ht with ht | ht
  · exact htrees _ rfl t ht
  · exact hm _ rfl t ht

theorem within_ofTree {key : RuleKey} (hm : m.Within n) :
    (Match.ofTree (m.tree key pos)).Within (n + 1) := by
  cases m with
  | none => exact within_none
  | some found =>
    rintro _ ⟨⟩ t ht
    rw [List.mem_singleton.mp ht]
    exact List.all_eq_true.mpr (hm _ rfl)

end Matches

/-! ### Trying an expression -/

variable [PatternLibrary]

theorem eval_within : ∀ {n d : Nat} {e : Expr}, e.within g n = true → n ≤ d →
    eval g text d e = eval g text n e
  | 0, _, _, he, _ => by cases he
  | n + 1, 0, _, _, hd => by omega
  | n + 1, d + 1, e, he, hd => by
    have ih : ∀ e, e.within g n = true → eval g text d e = eval g text n e :=
      fun e he => eval_within he (by omega)
    cases e with
    | call key =>
      have happly : apply g (eval g text d) key = apply g (eval g text n) key :=
        apply_congr fun body hbody => ih body (by simpa [Expr.within, hbody] using he)
      funext pos
      simp only [eval]
      rw [happly]
    | rep how body =>
      have hbody := ih body he
      funext pos
      cases how <;> simp only [eval, hbody]
    | seq items =>
      funext pos
      exact congrFun (inTurn_congr fun e hmem => ih e (List.all_eq_true.mp he e hmem)) pos
    | choice alts =>
      funext pos
      exact congrFun (firstOf_congr fun e hmem => ih e (List.all_eq_true.mp he e hmem)) pos
    | literal _ => rfl
    | pattern _ => rfl
    | late _ => rfl
    | misfit _ _ => rfl
    | foreign _ => rfl

theorem parse_within {patterns : PatternTable} {key : RuleKey} {n d : Nat} {pos : Int}
    (h : (Expr.call key).within g n = true) (hd : n ≤ d) :
    parse g patterns d key text pos = parse g patterns n key text pos := by
  cases n with
  | zero => cases h
  | succ n =>
    -- the body of the rule is one level less deep than the call of it
    have hbody : ∀ {d}, n ≤ d → apply g (eval g text d) key = apply g (eval g text n) key :=
      fun hd => apply_congr fun body hbody =>
        eval_within (by simpa [Expr.within, hbody] using h) hd
    rw [parse_run, parse_run, hbody (show n ≤ d by omega), hbody (Nat.le_succ n)]

/-- The trees of a match are no deeper than the expression. -/
theorem Yields.within {patterns : PatternTable} {e : Expr} {pos : Int} {m : Match}
    {steps : List Step} (h : Yields g patterns text e pos m steps) : ∀ {n : Nat},
    e.within g (n + 1) = true → m.Within (n + 1) := by
  -- an expression that stands inside another has a bound one less, and so have its trees
  have body : ∀ {n e} {m : Match}, (∀ {n}, Expr.within g (n + 1) e = true → m.Within (n + 1)) →
      e.within g n = true → m.Within (n + 1) := by
    intro n e m ih he
    cases n with
    | zero => cases he
    | succ n => exact (ih he).succ
  induction h with
  | literalHit _ => exact fun _ => within_leaf
  | literalMiss _ => exact fun _ => within_none
  | patternHit _ _ => exact fun _ => within_leaf
  | patternMiss _ _ => exact fun _ => within_none
  | @rule _ _ e _ _ hb _ ih =>
    intro n he
    have hbody : e.within g n = true := by simpa [Expr.within, hb] using he
    cases n with
    | zero => cases hbody
    | succ n => exact within_ofTree (ih hbody)
  | optionalHit _ ih => exact body ih
  | optionalMiss _ _ => exact fun _ => within_nil
  | manyEnd _ _ => exact fun _ => within_nil
  | manyIdle _ _ => exact fun _ => within_nil
  | manyNext _ _ _ ih ih' => exact fun he => within_after (body ih he) (ih' he)
  | someMiss _ _ => exact fun _ => within_none
  | someHit _ _ ih ih' => exact fun he => within_after (body ih he) (ih' he)
  | seqNil => exact fun _ => within_nil
  | seqMiss _ _ => exact fun _ => within_none
  | seqHit _ _ ih ih' =>
    intro n he
    obtain ⟨he, hes⟩ := Bool.and_eq_true_iff.mp he
    exact within_after (body ih he) (ih' hes)
  | choiceNil => exact fun _ => within_none
  | choiceHit _ ih =>
    intro n he
    exact body ih (Bool.and_eq_true_iff.mp he).1
  | choiceNext _ _ _ ih' =>
    intro n he
    exact ih' (Bool.and_eq_true_iff.mp he).2

end Packrat

/-! ### Lowering -/

namespace Lowering
variable {l : Lowering} {source : Source}

theorem each_congr {visit visit' : ParseTree → Deeds Value} : ∀ {ts : List ParseTree},
    (∀ t ∈ ts, visit t = visit' t) → each visit ts = each visit' ts
  | [], _ => rfl
  | t :: rest, h => by
    simp only [each]
    rw [h t (List.mem_cons_self ..), each_congr fun t ht => h t (List.mem_cons_of_mem _ ht)]

theorem lower_within : ∀ {n d : Nat} {t : ParseTree}, t.within n = true → n ≤ d →
    l.lower source d t = l.lower source n t
  | 0, _, _, ht, _ => by cases ht
  | n + 1, 0, _, _, hd => by omega
  | n + 1, d + 1, .leaf _ _, _, _ => rfl
  | n + 1, d + 1, .node key start stop children, ht, hd => by
    have ih : ∀ t ∈ children, l.lower source d t = l.lower source n t := fun t hmem =>
      lower_within (List.all_eq_true.mp ht t hmem) (by omega)
    have hall : each (l.lower source d) children = each (l.lower source n) children :=
      each_congr ih
    have hnodes : each (l.lower source d) (children.filter (!·.isLeaf)) =
        each (l.lower source n) (children.filter (!·.isLeaf)) :=
      each_congr fun t hmem => ih t (List.mem_of_mem_filter hmem)
    rw [lower_node, lower_node, hall, hnodes]
    cases hkind : l.model.kinds.get? key with
    | none => rfl
    | some kind =>
      cases kind with
      | optional =>
        match children with
        | [] => rfl
        | [child] => exact ih child (List.mem_cons_self ..)
        | _ :: _ :: _ => rfl
      | _ => rfl

end Lowering

/-! ### Parsers -/

namespace Parser
open Reading

/-- The most expressions inside one another that the root rule leads to. -/
def within (p : Parser) (n : Nat) : Bool :=
  (Expr.call p.program.start).within p.program.grammar n

/-- The cap only changes the fault of nesting too deep. -/
theorem capped_cases {α : Type} (answer : Except Fault α) :
    (answer = .error .tooDeep ∧ capped answer = .error (.nestingTooDeep nestingLimit)) ∨
      capped answer = answer := by
  unfold capped
  split
  · exact .inl ⟨rfl, rfl⟩
  · exact .inr rfl

/-- Capping an answer caps the value that was read. -/
theorem Agrees.capped {source : Source} {found : Reading Deferred} {answer : Except Fault Value}
    (h : Agrees source found answer) :
    Agrees source (found.map fun (stop, v) => (stop, Parser.capped v)) (Parser.capped answer) := by
  cases found with
  | none =>
    obtain ⟨line, report, rfl⟩ := h
    exact ⟨line, report, rfl⟩
  | some found =>
    cases (h : answer = _)
    show Parser.capped _ = _
    split <;> rfl

section Library
variable [PatternLibrary]

/-- A shallow grammar's bound is depth enough for what the root rule matches. -/
theorem verdict_of_within {parser : Parser} {source : Source} {tree : Option ParseTree}
    {steps : List Packrat.Step} {n d : Nat}
    (hm : Packrat.Yields parser.program.grammar parser.program.patterns source.chars
      (.call parser.program.start) 0 (.ofTree tree) steps)
    (hn : parser.within n = true) (hd : n ≤ d) :
    ∃ r : Packrat.Run, Packrat.parse parser.program.grammar parser.program.patterns d
      parser.program.start source.chars 0 = .ok (r.verdict 0 tree) := by
  obtain ⟨d₀, r, hd₀⟩ := Packrat.parse_of_yields hm ⟨Int.le_refl 0, by omega⟩
  refine ⟨r, ?_⟩
  rw [Packrat.parse_within hn hd, ← Packrat.parse_within hn (Nat.le_max_left n d₀)]
  exact hd₀ _ (Nat.le_max_right n d₀)

/-- A parser of a shallow grammar answers what reading comes to with every depth from its bound on. -/
theorem agrees_of_within {parser : Parser} {source : Source} {found : Reading Deferred} {n d : Nat}
    (h : Meets parser.program parser.lowering source (.call parser.program.start) 0 (alone found))
    (hn : parser.within n = true) (hd : n ≤ d) :
    Agrees source found (parser.parseWithin d source).1 := by
  obtain ⟨m, steps, hm, hbears⟩ := h
  obtain ⟨tree, rfl⟩ : ∃ tree, m = .ofTree tree := by cases hm; exact ⟨_, rfl⟩
  obtain ⟨r, hparse⟩ := verdict_of_within hm hn hd
  cases found with
  | none =>
    obtain rfl : tree = none := by cases tree <;> cases hbears; rfl
    exact parseWithin_of_miss hparse
  | some found =>
    obtain ⟨stop, v⟩ := found
    obtain ⟨t, htree, hlowers⟩ := bears_alone hbears
    obtain ⟨hstop, rfl⟩ := Packrat.Match.ofTree_eq_some htree
    obtain ⟨n, rfl⟩ : ∃ k, n = k + 1 := by
      cases n with
      | zero => cases hn
      | succ k => exact ⟨k, rfl⟩
    have ht : t.within (n + 1) = true := hm.within hn _ rfl t (List.mem_singleton_self t)
    obtain ⟨d₁, hd₁⟩ := hlowers.value
    show (parser.parseWithin d source).1 = _
    rw [parseWithin_of_hit hstop hparse, Lowering.lower_within ht hd,
      ← Lowering.lower_within ht (Nat.le_max_left _ d₁), hd₁ _ (Nat.le_max_right _ d₁)]

/-- Parsing agrees with reading: for every grammar of builder terms that a parser can be built for, and
every source on which reading the bodies from the root ends, the parser answers what was read. With a
limit on nesting it answers the same, or that the limit was passed. A shallow grammar's bound is depth
enough, and if the limit is no less, only a factory method can say that it was passed. -/
theorem parse_agrees_with_reading (parts : Parts) (parser : Parser)
    (hs : Declarative parts.stage) (hbuild : (build parts).1 = .ok parser)
    (source : Source) (fuel : Nat) (found : Reading Deferred)
    (hread : read parts fuel source = some found) :
    (∃ d₀, ∀ d ≥ d₀, Agrees source found (parser.parseWithin d source).1) ∧
    (parser.parseSource source = .error (.nestingTooDeep nestingLimit) ∨
      Agrees source found (parser.parseSource source)) ∧
    ∀ n, parser.within n = true →
      (∀ d ≥ n, Agrees source found (parser.parseWithin d source).1) ∧
      (n ≤ nestingLimit →
        Agrees source (found.map fun (stop, v) => (stop, capped v)) (parser.parseSource source)) := by
  have hmeets := meets_of_read hs hbuild hread
  obtain ⟨henough, hany⟩ := agrees_of_meets hmeets
  refine ⟨henough, ?_, fun n hn => ?_⟩
  · unfold parseSource
    rcases capped_cases (parser.parseWithin nestingLimit source).1 with ⟨-, hcapped⟩ | hcapped
    · exact .inl hcapped
    · rcases hany nestingLimit with hdeep | hagrees
      · exact .inl (by rw [hdeep]; rfl)
      · exact .inr (hcapped.symm ▸ hagrees)
  · have hagrees : ∀ d ≥ n, Agrees source found (parser.parseWithin d source).1 :=
      fun d hd => agrees_of_within hmeets hn hd
    exact ⟨hagrees, fun hle => (hagrees nestingLimit hle).capped⟩

end Library

/-- The sample grammar of nested lists, with its factory. -/
def nested : Parts where
  grammar := Nested.grammar
  factory := Nested.treeFactory
  self := { className := "NestFactory" }

theorem nested_declarative : Declarative nested.stage := by
  have hrules : nested.stage.grammar.rules.map (·.1) = ["nest", "word"] := by with_unfolding_all rfl
  have hmethods : nested.stage.factory.methods.map (·.1) = ["nest", "word"] := by with_unfolding_all rfl
  have hdots : ∀ name ∈ ["nest", "word"], '.' ∉ name.toList := by decide
  refine ⟨fun name method body hmem => ?_, fun name _ _ hmem => ?_, fun name _ _ hmem => ?_⟩
  · have hbodies : nested.stage.grammar.rules = [
        ("nest", (⟨"NestGrammar.nest"⟩, [.rule none [.action "nest"
          [.token (.value (.text "(")),
            .wrap .zeroOrMore [.firstOf [.call "nest" [], .call "word" []]],
            .token (.value (.text ")"))]]])),
        ("word", (⟨"NestGrammar.word"⟩, [.rule none [.action "word"
          [.pattern (.value (.text "[a-z]+"))]]]))] := by with_unfolding_all rfl
    rw [hbodies] at hmem
    simp only [List.mem_cons, Prod.mk.injEq, List.not_mem_nil, or_false] at hmem
    rcases hmem with ⟨rfl, rfl, rfl⟩ | ⟨rfl, rfl, rfl⟩
    · refine ⟨_, rfl, .action (by with_unfolding_all rfl) fun t ht => ?_⟩
      simp only [List.mem_cons, List.not_mem_nil, or_false] at ht
      rcases ht with rfl | rfl | rfl
      · exact .token rfl
      · refine .wrap (.firstOf fun t ht => ?_)
        simp only [List.mem_cons, List.not_mem_nil, or_false] at ht
        rcases ht with rfl | rfl
        · exact .rule (by with_unfolding_all rfl) rfl
        · exact .rule (by with_unfolding_all rfl) rfl
      · exact .token rfl
    · refine ⟨_, rfl, .action (by with_unfolding_all rfl) fun t ht => ?_⟩
      simp only [List.mem_cons, List.not_mem_nil, or_false] at ht
      subst ht
      exact .pattern rfl
  · exact hdots name (hrules ▸ List.mem_map_of_mem hmem)
  · exact hdots name (hmethods ▸ List.mem_map_of_mem hmem)

theorem nested_builds : ∃ parser, (build nested).1 = .ok parser := by
  have hok : (build nested).1.isOk = true := by decide +kernel
  cases hbuild : (build nested).1 with
  | error f => rw [hbuild] at hok; cases hok
  | ok parser => exact ⟨parser, rfl⟩

theorem parse_agrees_with_reading_nested : ∃ parser, (build nested).1 = .ok parser ∧
    read nested 12 (.ofString "(ab (c) )") =
      some (some (9, .ok (.list [.text "ab", .list [.text "c"]]))) ∧
    ∃ d₀, ∀ d ≥ d₀, (parser.parseWithin d (.ofString "(ab (c) )")).1 =
      .ok (.list [.text "ab", .list [.text "c"]]) := by
  obtain ⟨parser, hbuild⟩ := nested_builds
  have hread : read nested 12 (.ofString "(ab (c) )") =
      some (some (9, .ok (.list [.text "ab", .list [.text "c"]]))) := by with_unfolding_all rfl
  obtain ⟨⟨d₀, hd₀⟩, -⟩ := parse_agrees_with_reading nested parser nested_declarative hbuild
    (.ofString "(ab (c) )") 12 _ hread
  exact ⟨parser, hbuild, hread, d₀, hd₀⟩

end Parser
end PegScribe
