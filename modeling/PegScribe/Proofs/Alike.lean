import Mathlib.Data.List.Forall2
import Mathlib.Logic.Relator
import PegScribe.Proofs.Lossless

/-!
Alike grammars: where two grammars differ only in the keys that their rules go by, their runs mirror each
other.

A relation of keys carries over to expressions, trees and what a run remembers. As long as keys stand for
each other one to one, every computation of the engine keeps what is remembered alike, and it breaks off
for the same fault (`eval_mirrors`). So runs from two roots that stand for each other come to the same,
but for the keys in the tree (`runWithin_alike`).
-/
namespace PegScribe

section Relations
variable (like : RuleKey → RuleKey → Prop)

/-- Expressions that differ only in keys, each standing for the other. -/
inductive Expr.Alike : Expr → Expr → Prop
  | literal (t : String) : Alike (.literal t) (.literal t)
  | pattern (source : String) : Alike (.pattern source) (.pattern source)
  | call {key key' : RuleKey} (h : like key key') : Alike (.call key) (.call key')
  | late (callee : Callee) : Alike (.late callee) (.late callee)
  | rep (how : Repetition) {e e' : Expr} (h : Alike e e') : Alike (.rep how e) (.rep how e')
  | seq {es es' : List Expr} (h : List.Forall₂ Alike es es') : Alike (.seq es) (.seq es')
  | choice {es es' : List Expr} (h : List.Forall₂ Alike es es') : Alike (.choice es) (.choice es')
  | misfit (shown type : String) : Alike (.misfit shown type) (.misfit shown type)
  | foreign (shown : String) : Alike (.foreign shown) (.foreign shown)

/-- Trees that differ only in keys. -/
inductive ParseTree.Alike : ParseTree → ParseTree → Prop
  | leaf (start stop : Int) : Alike (.leaf start stop) (.leaf start stop)
  | node {key key' : RuleKey} (hkey : like key key') (start stop : Int)
    {children children' : List ParseTree} (h : List.Forall₂ Alike children children') :
    Alike (.node key start stop children) (.node key' start stop children')

/-- Keys that stand for each other have rules whose bodies are alike. -/
def Grammar.Alike (g g' : Grammar) : Prop :=
  ∀ key key', like key key' → ∃ e e', g.rules.get? key = some e ∧ g'.rules.get? key' = some e' ∧
    e.Alike like e'

/-- What two runs came to, but for the keys in trees. -/
inductive Outcome.Alike : Outcome → Outcome → Prop
  | matched {tree tree' : ParseTree} (h : tree.Alike like tree') (consumed : Int) :
    Alike (.matched tree consumed) (.matched tree' consumed)
  | failed (index : Int) (report : String) : Alike (.failed index report) (.failed index report)

end Relations

variable {like : RuleKey → RuleKey → Prop}

theorem ParseTree.Alike.stop_eq {t t' : ParseTree} (h : t.Alike like t') : t'.stop = t.stop := by
  cases h <;> rfl

mutual

/-- Where a key stands only for itself, trees that are alike are the same. -/
theorem ParseTree.eq_of_alike (hlike : ∀ key key', like key key' → key' = key) :
    ∀ {t t' : ParseTree}, t.Alike like t' → t' = t
  | .leaf .., _, .leaf .. => rfl
  | .node _ _ _ _, _, .node hkey _ _ h => by
    rw [hlike _ _ hkey, ParseTree.eq_of_alikeAll hlike h]

theorem ParseTree.eq_of_alikeAll (hlike : ∀ key key', like key key' → key' = key) :
    ∀ {ts ts' : List ParseTree}, List.Forall₂ (ParseTree.Alike like) ts ts' → ts' = ts
  | [], _, .nil => rfl
  | _ :: _, _, .cons h hrest => by
    rw [ParseTree.eq_of_alike hlike h, ParseTree.eq_of_alikeAll hlike hrest]

end

/-- Tables that give patterns the same meaning compile them alike. -/
theorem PatternTable.compile_alike [PatternLibrary] {t t' : PatternTable} (h : t'.meaning? = t.meaning?)
    (source : String) :
    (∃ regex u u', t.compile source = .ok (regex, u) ∧ t'.compile source = .ok (regex, u') ∧
      u'.meaning? = u.meaning?) ∨
    ∃ f, t.compile source = .error f ∧ t'.compile source = .error f := by
  cases hmeaning : t.meaning? source with
  | some regex =>
    obtain ⟨u, hu⟩ := compile_of_meaning? hmeaning
    obtain ⟨u', hu'⟩ := compile_of_meaning? (t := t') (by rw [h, hmeaning])
    exact .inl ⟨regex, u, u', hu, hu', (compile_ok hu').2.trans (h.trans (compile_ok hu).2.symm)⟩
  | none =>
    have hnone : ∀ {u : PatternTable}, u.meaning? source = none →
        ∃ e, PatternLibrary.compile source = .error e ∧ u.compile source = .error (.regex e) := by
      intro u hu
      unfold meaning? at hu
      unfold compile
      cases hget : Ledger.get? u source with
      | some r => rw [hget] at hu; cases hu
      | none =>
        cases hparse : PatternLibrary.compile source with
        | ok r => rw [hget, hparse] at hu; cases hu
        | error e => exact ⟨e, rfl, rfl⟩
    obtain ⟨e, hparse, hc⟩ := hnone hmeaning
    obtain ⟨e', hparse', hc'⟩ := hnone (u := t') (by rw [h, hmeaning])
    cases hparse.symm.trans hparse'
    exact .inr ⟨_, hc, hc'⟩

namespace Packrat

section Relations
variable (like)

/-- Entries that differ only in keys. -/
inductive Entry.Alike : Entry → Entry → Prop
  | pending : Alike .pending .pending
  | done {tree tree' : Option ParseTree} (h : Option.Rel (ParseTree.Alike like) tree tree') :
    Alike (.done tree) (.done tree')

/-- Stretches that end at the same place, with trees that differ only in keys. -/
def Stretch.Alike (p p' : Int × List ParseTree) : Prop :=
  p'.1 = p.1 ∧ List.Forall₂ (ParseTree.Alike like) p.2 p'.2

/-- Matches that differ only in keys. -/
def Match.Alike (m m' : Match) : Prop := Option.Rel (Stretch.Alike like) m m'

/-- Runs that remember the same of keys that stand for each other, and have the same to report. -/
structure Run.Alike [PatternLibrary] (r r' : Run) : Prop where
  memo : ∀ (key key' : RuleKey) (pos : Int), like key key' →
    Option.Rel (Entry.Alike like) r.memo[(key, pos)]? r'.memo[(key', pos)]?
  furthest : r'.furthest = r.furthest
  expected : r'.expected = r.expected
  patterns : r'.patterns.meaning? = r.patterns.meaning?

variable {α α' β β' : Type}

/-- Both answer, with answers that belong together and runs that are alike, or both break off. -/
inductive Mirrored [PatternLibrary] (rel : α → α' → Prop) :
    Except Fault (α × Run) → Except Fault (α' × Run) → Prop
  | ok {a : α} {a' : α'} {r r' : Run} (h : rel a a') (hr : r.Alike like r') :
    Mirrored rel (.ok (a, r)) (.ok (a', r'))
  | error (f : Fault) : Mirrored rel (.error f) (.error f)

/-- From runs that are alike the two computations come to the same. -/
def Mirrors [PatternLibrary] (rel : α → α' → Prop) (x : Engine α) (x' : Engine α') : Prop :=
  ∀ ⦃r r'⦄, r.Alike like r' → Mirrored like rel (x r) (x' r')

end Relations

/-! ### Matches -/

theorem Match.Alike.tree {m m' : Match} (h : m.Alike like m') {key key' : RuleKey}
    (hkey : like key key') (pos : Int) :
    Option.Rel (ParseTree.Alike like) (m.tree key pos) (m'.tree key' pos) := by
  cases h with
  | none => exact .none
  | @some p p' h =>
    obtain ⟨stop, children⟩ := p
    obtain ⟨stop', children'⟩ := p'
    obtain ⟨hstop, hchildren⟩ := h
    cases hstop
    exact .some (.node hkey pos stop hchildren)

theorem alike_ofTree {tree tree' : Option ParseTree} (h : Option.Rel (ParseTree.Alike like) tree tree') :
    Match.Alike like (tree.map fun t => (t.stop, [t])) (tree'.map fun t => (t.stop, [t])) := by
  cases h with
  | none => exact .none
  | some h => exact .some ⟨h.stop_eq, .cons h .nil⟩

/-! ### Runs -/

variable [PatternLibrary] {α α' β β' : Type} {rel : α → α' → Prop} {rel' : β → β' → Prop}

theorem mirrors_pure {a : α} {a' : α'} (h : rel a a') : Mirrors like rel (pure a) (pure a') :=
  fun _ _ hr => .ok h hr

theorem mirrors_throw (f : Fault) : Mirrors like rel (throw f) (throw f) := fun _ _ _ => .error f

theorem Mirrors.bind {x : Engine α} {x' : Engine α'} {f : α → Engine β} {f' : α' → Engine β'}
    (hx : Mirrors like rel x x') (hf : ∀ a a', rel a a' → Mirrors like rel' (f a) (f' a')) :
    Mirrors like rel' (x >>= f) (x' >>= f') := by
  intro r r' hr
  rw [bind_run, bind_run]
  have h := hx hr
  cases hx : x r with
  | error e =>
    rw [hx] at h
    cases h' : x' r' with
    | error e' => rw [h'] at h; cases h; exact .error e
    | ok p' => rw [h'] at h; cases h
  | ok p =>
    rw [hx] at h
    cases h' : x' r' with
    | error e' => rw [h'] at h; cases h
    | ok p' =>
      rw [h'] at h
      cases h with
      | ok ha hr₁ => exact hf _ _ ha hr₁

/-! ### What is noted of a run -/

section Notes
variable {r r' : Run} {key key' : RuleKey}

theorem Run.Alike.miss (hr : r.Alike like r') (e : Expr) (pos : Int) :
    (r.miss e pos).Alike like (r'.miss e pos) := by
  refine ⟨fun k k' at_ hk => ?_, ?_, ?_, ?_⟩
  · rw [memo_miss, memo_miss]
    exact hr.memo k k' at_ hk
  · unfold Run.miss Run.expect
    rw [hr.furthest, hr.expected]
    split
    · rfl
    · split
      · rfl
      · exact hr.furthest
  · unfold Run.miss Run.expect
    rw [hr.furthest, hr.expected]
    split
    · rfl
    · split
      · rfl
      · exact hr.expected
  · rw [patterns_miss, patterns_miss]
    exact hr.patterns

/-- What is written down of keys that stand for each other is found under both. -/
theorem Run.Alike.write (hlike : Relator.BiUnique like) (hr : r.Alike like r') (hkey : like key key')
    (pos : Int) {entry entry' : Entry} (hentry : entry.Alike like entry') (k k' : RuleKey) (at_ : Int)
    (hk : like k k') :
    Option.Rel (Entry.Alike like) (r.memo.insert (key, pos) entry)[(k, at_)]?
      (r'.memo.insert (key', pos) entry')[(k', at_)]? := by
  have hsame : key = k ↔ key' = k' := Relator.rel_eq hlike hkey hk
  rw [Std.HashMap.getElem?_insert, Std.HashMap.getElem?_insert]
  simp only [beq_iff_eq, Prod.mk.injEq, ← hsame]
  split
  · exact .some hentry
  · exact hr.memo k k' at_ hk

theorem Run.Alike.enter (hlike : Relator.BiUnique like) (hr : r.Alike like r') (hkey : like key key')
    (pos : Int) : (r.enter key pos).Alike like (r'.enter key' pos) :=
  ⟨hr.write hlike hkey pos .pending, hr.furthest, hr.expected, hr.patterns⟩

theorem Run.Alike.leave (hlike : Relator.BiUnique like) (hr : r.Alike like r') (hkey : like key key')
    (pos : Int) {tree tree' : Option ParseTree} (h : Option.Rel (ParseTree.Alike like) tree tree') :
    (r.leave key pos tree).Alike like (r'.leave key' pos tree') :=
  ⟨hr.write hlike hkey pos (.done h), hr.furthest, hr.expected, hr.patterns⟩

theorem alike_start {patterns patterns' : PatternTable} (h : patterns'.meaning? = patterns.meaning?) :
    Run.Alike like { patterns } { patterns := patterns' } :=
  ⟨fun _ _ _ _ => by simp, rfl, rfl, h⟩

end Notes

/-! ### Operators -/

theorem mirrors_terminal (e : Expr) (pos : Int) (stop : Option Int) :
    Mirrors like (Match.Alike like) (terminal e pos stop) (terminal e pos stop) := by
  cases stop with
  | some stop => exact mirrors_pure (.some ⟨rfl, .cons (.leaf pos stop) .nil⟩)
  | none => exact fun r r' hr => .ok .none (hr.miss e pos)

theorem mirrors_compiled (source : String) :
    Mirrors like (fun regex regex' => regex' = regex) (compiled source) (compiled source) := by
  intro r r' hr
  rw [compiled_run, compiled_run]
  rcases PatternTable.compile_alike hr.patterns source with ⟨regex, u, u', hu, hu', h⟩ | ⟨f, hf, hf'⟩
  · rw [hu, hu']
    exact .ok rfl ⟨hr.memo, hr.furthest, hr.expected, h⟩
  · rw [hf, hf']
    exact .error f

section Operators
variable {attempt attempt' : Expr → Int → Engine Match}
  (hattempt : ∀ {e e'}, e.Alike like e' → ∀ pos,
    Mirrors like (Match.Alike like) (attempt e pos) (attempt' e' pos))
include hattempt

theorem mirrors_inTurn : ∀ {es es' : List Expr}, List.Forall₂ (Expr.Alike like) es es' → ∀ pos,
    Mirrors like (Match.Alike like) (inTurn attempt es pos) (inTurn attempt' es' pos)
  | [], _, .nil, pos => mirrors_pure (.some ⟨rfl, .nil⟩)
  | _ :: _, _, .cons he hrest, pos => by
    refine (hattempt he pos).bind fun m m' hm => ?_
    cases hm with
    | none => exact mirrors_pure .none
    | some hm =>
      dsimp only
      rw [hm.1]
      refine (mirrors_inTurn hrest _).bind fun more more' hmore => ?_
      cases hmore with
      | none => exact mirrors_pure .none
      | some hmore => exact mirrors_pure (.some ⟨hmore.1, List.rel_append hm.2 hmore.2⟩)

theorem mirrors_firstOf : ∀ {es es' : List Expr}, List.Forall₂ (Expr.Alike like) es es' → ∀ pos,
    Mirrors like (Match.Alike like) (firstOf attempt es pos) (firstOf attempt' es' pos)
  | [], _, .nil, pos => mirrors_pure .none
  | _ :: _, _, .cons he hrest, pos => by
    refine (hattempt he pos).bind fun m m' hm => ?_
    cases hm with
    | none => exact mirrors_firstOf hrest pos
    | some hm => exact mirrors_pure (.some hm)

theorem mirrors_many {e e' : Expr} (he : e.Alike like e') : ∀ budget pos,
    Mirrors like (Stretch.Alike like) (many (attempt e) budget pos) (many (attempt' e') budget pos)
  | 0, pos => mirrors_throw .tooDeep
  | budget + 1, pos => by
    refine (hattempt he pos).bind fun m m' hm => ?_
    cases hm with
    | none => exact mirrors_pure ⟨rfl, .nil⟩
    | some hm =>
      dsimp only
      rw [hm.1]
      split
      · exact mirrors_pure ⟨rfl, .nil⟩
      · refine (mirrors_many he budget _).bind fun more more' hmore => ?_
        exact mirrors_pure ⟨hmore.1, List.rel_append hm.2 hmore.2⟩

theorem mirrors_apply (hlike : Relator.BiUnique like) {g g' : Grammar} (hg : g.Alike like g')
    {key key' : RuleKey} (hkey : like key key') (pos : Int) :
    Mirrors like (Option.Rel (ParseTree.Alike like)) (apply g attempt key pos)
      (apply g' attempt' key' pos) := by
  intro r r' hr
  obtain ⟨body, body', hbody, hbody', halike⟩ := hg key key' hkey
  rw [apply_run, apply_run, hbody, hbody']
  have hmemo := hr.memo key key' pos hkey
  cases hentry : r.memo[(key, pos)]? with
  | some entry =>
    rw [hentry] at hmemo
    cases hentry' : r'.memo[(key', pos)]? with
    | none => rw [hentry'] at hmemo; cases hmemo
    | some entry' =>
      rw [hentry'] at hmemo
      cases hmemo with
      | some h =>
        cases h with
        | pending => exact .ok .none hr
        | done h => exact .ok h hr
  | none =>
    rw [hentry] at hmemo
    cases hentry' : r'.memo[(key', pos)]? with
    | some entry' => rw [hentry'] at hmemo; cases hmemo
    | none =>
      dsimp only
      have hrun := hattempt halike pos (hr.enter hlike hkey pos)
      cases h : attempt body pos (r.enter key pos) with
      | error f =>
        rw [h] at hrun
        cases h' : attempt' body' pos (r'.enter key' pos) with
        | error f' => rw [h'] at hrun; cases hrun; exact .error f
        | ok p' => rw [h'] at hrun; cases hrun
      | ok p =>
        rw [h] at hrun
        cases h' : attempt' body' pos (r'.enter key' pos) with
        | error f' => rw [h'] at hrun; cases hrun
        | ok p' =>
          rw [h'] at hrun
          cases hrun with
          | ok hm hr₁ => exact .ok (hm.tree hkey pos) (hr₁.leave hlike hkey pos (hm.tree hkey pos))

end Operators

/-- Expressions that are alike, tried in grammars that are alike, come to the same to any depth. -/
theorem eval_mirrors (hlike : Relator.BiUnique like) {g g' : Grammar} (hg : g.Alike like g')
    (text : Array Char) : ∀ d {e e' : Expr}, e.Alike like e' → ∀ pos,
    Mirrors like (Match.Alike like) (eval g text d e pos) (eval g' text d e' pos)
  | 0, _, _, _, pos => mirrors_throw .tooDeep
  | d + 1, _, _, h, pos => by
    have ih : ∀ {e e'}, e.Alike like e' → ∀ pos,
        Mirrors like (Match.Alike like) (eval g text d e pos) (eval g' text d e' pos) :=
      eval_mirrors hlike hg text d
    cases h with
    | literal t => exact mirrors_terminal _ pos _
    | pattern source =>
      refine (mirrors_compiled source).bind fun regex regex' hregex => ?_
      rw [hregex]
      exact mirrors_terminal _ pos _
    | call hkey =>
      exact (mirrors_apply ih hlike hg hkey pos).bind fun tree tree' htree =>
        mirrors_pure (alike_ofTree htree)
    | late callee => exact mirrors_throw _
    | rep how h =>
      cases how with
      | optional =>
        refine (ih h pos).bind fun m m' hm => ?_
        cases hm with
        | none => exact mirrors_pure (.some ⟨rfl, .nil⟩)
        | some hm => exact mirrors_pure (.some hm)
      | zeroOrMore =>
        exact (mirrors_many ih h _ pos).bind fun _ _ hm => mirrors_pure (.some hm)
      | oneOrMore =>
        refine (ih h pos).bind fun m m' hm => ?_
        cases hm with
        | none => exact mirrors_pure .none
        | some hm =>
          dsimp only
          rw [hm.1]
          refine (mirrors_many ih h _ _).bind fun more more' hmore => ?_
          exact mirrors_pure (.some ⟨hmore.1, List.rel_append hm.2 hmore.2⟩)
      | unknown mark => exact mirrors_throw _
    | seq h => exact mirrors_inTurn ih h pos
    | choice h => exact mirrors_firstOf ih h pos
    | misfit shown type => exact mirrors_throw _
    | foreign shown => exact mirrors_throw _

end Packrat

/-! ### Whole runs -/

/-- Runs from roots that stand for each other come to the same, to any depth. -/
theorem Program.runWithin_alike [PatternLibrary] (hlike : Relator.BiUnique like) {p p' : Program}
    (hg : p.grammar.Alike like p'.grammar) (hpatterns : p'.patterns.meaning? = p.patterns.meaning?)
    (hroot : like p.start p'.start) (depth : Nat) (source : Source) :
    (∃ outcome outcome', p.runWithin depth source = .ok outcome ∧
      p'.runWithin depth source = .ok outcome' ∧ outcome.Alike like outcome') ∨
    ∃ f, p.runWithin depth source = .error f ∧ p'.runWithin depth source = .error f := by
  have happly := Packrat.mirrors_apply (Packrat.eval_mirrors hlike hg source.chars depth) hlike hg hroot 0
    (Packrat.alike_start hpatterns)
  have hparse := Packrat.parse_run p.grammar p.patterns depth p.start source.chars 0
  have hparse' := Packrat.parse_run p'.grammar p'.patterns depth p'.start source.chars 0
  revert happly hparse hparse'
  generalize Packrat.apply p.grammar _ p.start 0 _ = answer
  generalize Packrat.apply p'.grammar _ p'.start 0 _ = answer'
  intro happly hparse hparse'
  cases happly with
  | error f =>
    exact .inr ⟨f, runWithin_of_parse_error hparse, runWithin_of_parse_error hparse'⟩
  | ok htree hr =>
    rw [runWithin_of_parse hparse, runWithin_of_parse hparse']
    unfold Packrat.Run.verdict
    dsimp only
    rw [hr.furthest, hr.expected]
    cases htree with
    | some htree =>
      rw [Option.map_some, Option.map_some, Option.getD_some, Option.getD_some, htree.stop_eq]
      exact .inl ⟨_, _, rfl, rfl, .matched htree _⟩
    | none =>
      dsimp only
      split
      · exact .inl ⟨_, _, rfl, rfl, .failed _ _⟩
      · exact .inr ⟨_, rfl, rfl⟩

end PegScribe
