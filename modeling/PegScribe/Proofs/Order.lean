import PegScribe.Proofs.Alike
import PegScribe.Proofs.Assertions
import PegScribe.Proofs.Independence
import PegScribe.Proofs.Reordering

/-!
Order: the order in which a grammar defines its rule methods does not matter.

In whatever order the rules are declared, the same declarations are summed up, only at other places. A
key of the one sum stands for the key of the other that came from the same key of the same declaration
(`Stands`). So the linked grammars are alike, their runs mirror each other, and trees that differ only in
keys that stand for each other are lowered to the same value (`Lowering.lower_alike`).
-/
namespace PegScribe

/-! ### Lowering trees that differ only in keys -/

/-- Keys that stand for each other were recorded by the same calls, and the factories do the same. -/
structure Lowering.Alike (like : RuleKey → RuleKey → Prop) (l l' : Lowering) : Prop where
  kinds : ∀ k k', like k k' → l'.model.kinds.get? k' = l.model.kinds.get? k
  users : ∀ k k', like k k' → l'.model.userRules.containsValue k' = l.model.userRules.containsValue k
  actions : ∀ k k', like k k' → l'.model.actionRules.keyOf? k' = l.model.actionRules.keyOf? k
  act : l'.act = l.act

namespace ParseTree
variable {like : RuleKey → RuleKey → Prop} {t t' : ParseTree}

theorem Alike.isLeaf_eq (h : t.Alike like t') : t'.isLeaf = t.isLeaf := by cases h <;> rfl

theorem Alike.start_eq (h : t.Alike like t') : t'.start = t.start := by cases h <;> rfl

end ParseTree

namespace Lowering
open Keeping
variable {like : RuleKey → RuleKey → Prop} {l l' : Lowering} {takes : Method → Nat → Prop}
  {ts ts' : List ParseTree}

theorem semantic_alike (h : List.Forall₂ (ParseTree.Alike like) ts ts') :
    List.Forall₂ (ParseTree.Alike like) (ts.filter (!·.isLeaf)) (ts'.filter (!·.isLeaf)) := by
  refine List.rel_filter (fun t t' ht => ?_) h
  dsimp only
  rw [ht.isLeaf_eq]

theorem lexeme_alike (source : Source) (start stop : Int)
    (h : List.Forall₂ (ParseTree.Alike like) ts ts') :
    lexeme source start stop ts' = lexeme source start stop ts := by
  rcases h with _ | ⟨_, _ | ⟨hmiddle, _ | ⟨_, _ | _⟩⟩⟩
  · rfl
  · rfl
  · rfl
  · show source.token _ _ = source.token _ _
    rw [hmiddle.start_eq, hmiddle.stop_eq]
  · rfl

theorem each_alike {visit visit' : ParseTree → Deeds Value}
    (hvisit : ∀ t t', t ∈ ts → t.Alike like t' → visit' t' = visit t)
    (h : List.Forall₂ (ParseTree.Alike like) ts ts') : each visit' ts' = each visit ts := by
  induction h with
  | nil => rfl
  | cons ht _ ih =>
    rw [each, each, hvisit _ _ (List.mem_cons_self ..) ht,
      ih fun t t' hmem => hvisit t t' (List.mem_cons_of_mem _ hmem)]

theorem call_alike (h : Alike like l l') (m : Method) (args : List Value) :
    l'.call m args = l.call m args := by
  unfold call
  rw [h.act]

/-- The values inside a fitting node are put together the same. -/
theorem combine_alike (h : Alike like l l') {k k' : RuleKey} (hk : like k k') {children : List ParseTree}
    (hfits : NodeFits l.model takes k children) (hkind : l.model.kinds.get? k = none)
    {values : List Value} (hlen : values.length = (ParseTree.semantic children).length) :
    l'.combine k' values = l.combine k values := by
  unfold combine
  rw [h.users k k' hk, h.actions k k' hk]
  cases huser : l.model.userRules.containsValue k with
  | true =>
    rw [(hfits.user huser).2] at hlen
    obtain ⟨v, rfl⟩ := List.length_eq_one_iff.mp hlen
    rfl
  | false =>
    obtain ⟨m, hm, -⟩ := hfits.action hkind huser
    rw [hm, if_neg Bool.false_ne_true, if_neg Bool.false_ne_true]
    exact call_alike h m values

/-- Trees of fitting nodes that differ only in keys are lowered the same. -/
theorem lower_alike (h : Alike like l l') (source : Source) : ∀ (d : Nat) {tree tree' : ParseTree},
    tree.Alike like tree' → l.TreeFits takes tree → l'.lower source d tree' = l.lower source d tree
  | 0, _, _, _, _ => rfl
  | d + 1, _, _, .leaf start stop, _ => rfl
  | d + 1, .node key start stop children, .node key' _ _ children', .node hkey _ _ hchildren, hall => by
    have hfits := hall key start stop children (by simp [ParseTree.subtrees])
    have hvisit : ∀ t t', t ∈ children → t.Alike like t' →
        l'.lower source d t' = l.lower source d t := by
      intro t t' hmem ht
      refine lower_alike h source d ht fun k a b cs hk => hall k a b cs ?_
      exact List.mem_cons_of_mem _ (subtrees_of_child hmem _ hk)
    rw [lower_node, lower_node, h.kinds key key' hkey]
    cases hkind : l.model.kinds.get? key with
    | none =>
      dsimp only
      rw [each_alike (fun t t' hmem => hvisit t t' (List.mem_filter.mp hmem).1)
        (semantic_alike hchildren)]
      funext deeds
      rcases hrun : each (l.lower source d) (children.filter (!·.isLeaf)) deeds with ⟨f | values, deeds'⟩
      · rw [bind_of_error hrun, bind_of_error hrun]
      · rw [bind_of_ok hrun, bind_of_ok hrun,
          combine_alike h hkey hfits hkind (each_length ⟨deeds, deeds', hrun⟩)]
    | some kind =>
      cases kind with
      | token => exact congrArg cut (lexeme_alike source start stop hchildren)
      | pattern => exact congrArg cut (lexeme_alike source start stop hchildren)
      | optional =>
        have hcount := hfits.optional hkind
        cases hchildren with
        | nil => rfl
        | cons hchild hrest =>
          cases hrest with
          | nil => exact hvisit _ _ (List.mem_singleton_self _) hchild
          | cons _ _ => simp at hcount
      | oneOrMore =>
        dsimp only
        rw [each_alike hvisit hchildren]
      | zeroOrMore =>
        dsimp only
        rw [each_alike hvisit hchildren]
      | other name => exact absurd hkind (hfits.kinds name)

end Lowering

/-! ### Keys that stand for each other -/

theorem Bijection.keyOf?_congr {b b' : Bijection Method RuleKey} (hb : b.Paired) (hb' : b'.Paired)
    {k k' : RuleKey} (h : ∀ m, b'.get? m = some k' ↔ b.get? m = some k) : b'.keyOf? k' = b.keyOf? k := by
  ext m
  rw [← hb' m k', ← hb m k]
  exact h m

namespace Recorder
open Keeping Stage Reading
variable [PatternLibrary] {s : Stage} {r r' : Recorder} {place place' : String → Nat} {k k' : RuleKey}
  {m : Method} {x : String × (Method × Script)}

/-- The keys came from one key of one declaration. -/
def Stands (s : Stage) (place place' : String → Nat) (k k' : RuleKey) : Prop :=
  ∃ x ∈ s.grammar.rules, ∃ k₀, (byItself s x).registry.hasRule k₀ = true ∧
    k = k₀.shift (place x.1) ∧ k' = k₀.shift (place' x.1)

theorem Stands.symm (h : Stands s place place' k k') : Stands s place' place k' k := by
  obtain ⟨x, hx, k₀, hk₀, hk, hk'⟩ := h
  exact ⟨x, hx, k₀, hk₀, hk', hk⟩

/-- Each of the recorders holds the sum of all rules of the grammar, at places of its own. -/
structure Twins (s : Stage) (place place' : String → Nat) (r r' : Recorder) : Prop where
  solos : ∀ x ∈ s.grammar.rules, Solo s x (byItself s x)
  here : Sums s s.grammar.rules place r
  there : Sums s s.grammar.rules place' r'

namespace Twins

theorem symm (h : Twins s place place' r r') : Twins s place' place r' r := ⟨h.solos, h.there, h.here⟩

theorem leftUnique (h : Twins s place place' r r') : Relator.LeftUnique (Stands s place place') := by
  rintro _ _ _ ⟨x, hx, k₀, hk₀, rfl, rfl⟩ ⟨y, hy, k₁, hk₁, rfl, hsame⟩
  obtain ⟨rfl, rfl⟩ := h.there.apart x hx y hy k₀ k₁ hk₀ hk₁ hsame
  rfl

/-- Keys stand for each other one to one. -/
theorem biUnique (h : Twins s place place' r r') : Relator.BiUnique (Stands s place place') :=
  ⟨h.leftUnique, fun _ _ _ hk hk' => h.symm.leftUnique hk.symm hk'.symm⟩

/-- What the one sum says of a key the other says of the key that stands for it. -/
theorem elsewhere (h : Twins s place place' r r') (hk : Stands s place place' k k')
    {part : String × (Method × Script) → RuleKey → Prop}
    (hpart : ∀ x ∈ s.grammar.rules, ∀ k₀, part x k₀ → (byItself s x).registry.hasRule k₀ = true)
    (hfound : Gathers s.grammar.rules place fun x n => ∃ k₀, part x k₀ ∧ k = k₀.shift n) :
    Gathers s.grammar.rules place' fun x n => ∃ k₀, part x k₀ ∧ k' = k₀.shift n := by
  obtain ⟨x, hx, k₀, hk₀, hplace, hplace'⟩ := hk
  obtain ⟨y, hy, k₁, hk₁, hsame⟩ := hfound
  obtain ⟨rfl, rfl⟩ := h.here.apart x hx y hy k₀ k₁ hk₀ (hpart y hy k₁ hk₁) (hplace.symm.trans hsame)
  exact ⟨x, hx, k₀, hk₁, hplace'⟩

theorem elsewhere_iff (h : Twins s place place' r r') (hk : Stands s place place' k k')
    {part : String × (Method × Script) → RuleKey → Prop}
    (hpart : ∀ x ∈ s.grammar.rules, ∀ k₀, part x k₀ → (byItself s x).registry.hasRule k₀ = true) :
    (Gathers s.grammar.rules place' fun x n => ∃ k₀, part x k₀ ∧ k' = k₀.shift n) ↔
      Gathers s.grammar.rules place fun x n => ∃ k₀, part x k₀ ∧ k = k₀.shift n :=
  ⟨h.symm.elsewhere hk.symm hpart, h.elsewhere hk hpart⟩

theorem kinds (h : Twins s place place' r r') (hk : Stands s place place' k k') :
    r'.model.kinds.get? k' = r.model.kinds.get? k := by
  ext kind
  rw [h.there.kinds, h.here.kinds]
  exact h.elsewhere_iff hk fun x hx k₀ => (h.solos x hx).rested.sane.complete.kinds k₀ kind

theorem hasRule_user (h : Twins s place place' r r') (hx : x ∈ s.grammar.rules)
    (hm : (byItself s x).model.userRules.get? m = some k) : (byItself s x).registry.hasRule k = true :=
  (h.solos x hx).rested.sane.hasRule_user (h.solos x hx).rested.pending hm

theorem user (h : Twins s place place' r r') (hk : Stands s place place' k k') (m : Method) :
    r'.model.userRules.get? m = some k' ↔ r.model.userRules.get? m = some k := by
  rw [h.there.users, h.here.users]
  exact h.elsewhere_iff hk fun x hx k₀ => h.hasRule_user hx

theorem action (h : Twins s place place' r r') (hk : Stands s place place' k k') (m : Method) :
    r'.model.actionRules.get? m = some k' ↔ r.model.actionRules.get? m = some k := by
  rw [h.there.actions, h.here.actions]
  exact h.elsewhere_iff hk fun x hx k₀ => (h.solos x hx).rested.sane.complete.actions m k₀

/-- Trees of keys that stand for each other are lowered alike. -/
theorem lowering (h : Twins s place place' r r') (act : Method → List Value → Except Fault Value) :
    Lowering.Alike (Stands s place place') ⟨r.model, act⟩ ⟨r'.model, act⟩ where
  kinds := fun _ _ hk => h.kinds hk
  users := fun _ _ hk => congrArg Option.isSome (Bijection.keyOf?_congr
    h.here.rested.sane.shaped.userPairs h.there.rested.sane.shaped.userPairs (h.user hk))
  actions := fun _ _ hk => Bijection.keyOf?_congr
    h.here.rested.sane.shaped.actionPairs h.there.rested.sane.shaped.actionPairs (h.action hk)
  act := rfl

/-- Every rule method has a key. -/
theorem method (h : Twins s place place' r r') (hm : m ∈ s.grammar.methods) :
    ∃ key, r.model.userRules.get? m = some key := by
  obtain ⟨x, hx, rfl⟩ := List.mem_map.mp hm
  obtain ⟨key, hkey⟩ := (h.solos x hx).declared
  exact ⟨_, (h.here.users _ _).mpr ⟨x, hx, key, hkey, rfl⟩⟩

/-- The keys of a method stand for each other. -/
theorem declared (h : Twins s place place' r r') (hm : r.model.userRules.get? m = some k) :
    ∃ k', r'.model.userRules.get? m = some k' ∧ Stands s place place' k k' := by
  obtain ⟨x, hx, k₀, hk₀, rfl⟩ := (h.here.users m k).mp hm
  exact ⟨_, (h.there.users m _).mpr ⟨x, hx, k₀, hk₀, rfl⟩, x, hx, k₀, h.hasRule_user hx hk₀, rfl, rfl⟩

/-! ### Linked grammars -/

mutual

/-- An expression of one declaration is resolved alike at both places. -/
theorem resolved (h : Twins s place place' r r') (hx : x ∈ s.grammar.rules) : ∀ {e : Expr},
    (∀ ref ∈ e.references, (byItself s x).Expects s ref) →
    ((e.shift (place x.1)).resolved r.model.resolver).Alike (Stands s place place')
      ((e.shift (place' x.1)).resolved r'.model.resolver)
  | .literal t, _ => .literal t
  | .pattern source, _ => .pattern source
  | .misfit shown type, _ => .misfit shown type
  | .foreign shown, _ => .foreign shown
  | .call key, hrefs => .call ⟨x, hx, key, hrefs _ (List.mem_singleton_self _), rfl, rfl⟩
  | .late callee, hrefs => by
    obtain ⟨m, hm, rfl⟩ := hrefs (.late callee) (List.mem_singleton_self _)
    obtain ⟨key, hkey⟩ := h.method hm
    obtain ⟨key', hkey', hstands⟩ := h.declared hkey
    rw [Expr.shift, Expr.shift, Expr.resolved, Expr.resolved,
      show r.model.resolver (.method m) = some key from hkey,
      show r'.model.resolver (.method m) = some key' from hkey']
    · exact .call hstands
    all_goals nofun
  | .rep how body, hrefs => .rep how (h.resolved hx (e := body) hrefs)
  | .seq _, hrefs => .seq (h.resolvedAll hx hrefs)
  | .choice _, hrefs => .choice (h.resolvedAll hx hrefs)

theorem resolvedAll (h : Twins s place place' r r') (hx : x ∈ s.grammar.rules) : ∀ {es : List Expr},
    (∀ ref ∈ Expr.referencesAll es, (byItself s x).Expects s ref) →
    List.Forall₂ (Expr.Alike (Stands s place place'))
      (Expr.resolvedAll r.model.resolver (Expr.shiftAll (place x.1) es))
      (Expr.resolvedAll r'.model.resolver (Expr.shiftAll (place' x.1) es))
  | [], _ => .nil
  | e :: rest, hrefs => by
    refine .cons (h.resolved hx fun ref href => hrefs ref ?_)
      (h.resolvedAll hx fun ref href => hrefs ref ?_)
    · exact List.mem_append_left _ href
    · exact List.mem_append_right _ href

end

/-- The grammars that are linked from both are alike. -/
theorem grammar (h : Twins s place place' r r') {root root' : Option RuleKey} {p p' : Program}
    (hp : (r.registry.setRoot root).LinksTo r.model.resolver p)
    (hp' : (r'.registry.setRoot root').LinksTo r'.model.resolver p') :
    p.grammar.Alike (Stands s place place') p'.grammar := by
  rintro _ _ ⟨x, hx, k₀, hk₀, rfl, rfl⟩
  obtain ⟨e₀, he₀⟩ := hasRule_iff.mp hk₀
  have hrule := (h.here.rules _ _).mpr ⟨x, hx, k₀, e₀, he₀, rfl, rfl⟩
  have hrule' := (h.there.rules _ _).mpr ⟨x, hx, k₀, e₀, he₀, rfl, rfl⟩
  have hsound := (h.solos x hx).rested.sane.complete.rules (k₀, e₀) (Ledger.mem_entries_of_get? he₀)
  refine ⟨_, _, ?_, ?_, h.resolved hx hsound.refs⟩
  · rw [hp.rules]
    exact congrArg (Option.map _) hrule
  · rw [hp'.rules]
    exact congrArg (Option.map _) hrule'

/-- The rules of a sum link from any rule method. -/
theorem links (h : Twins s place place' r r') {root : RuleKey}
    (hroot : r.model.userRules.get? m = some root) : ∃ program sealed,
      (r.registry.setRoot (some root)).build r.model.resolver = (.ok program, sealed) := by
  have hcomplete := h.here.rested.sane.complete
  have hfinished : r.Finished s.grammar :=
    hcomplete.finished h.here.stack h.here.rested.closed fun m hm => .inl (h.method hm)
  exact hcomplete.links hfinished (h.here.rested.sane.hasRule_user h.here.rested.pending hroot)

end Twins

/-- The rules in both orders are recorded with the same success, and what is left are twins. -/
theorem record_reordered {grammar' : GrammarClass} (hs : SelfDeclaring s) (hkeys : s.GivesOwnKeys)
    (h : Lineage.Reordered s.grammar grammar') :
    (∃ last last' place place' log log',
      s.record {} = (.ok (), { last with isFinished := true, log }) ∧
      Stage.record { s with grammar := grammar' } {} =
        (.ok (), { last' with isFinished := true, log := log' }) ∧
      Twins s place place' last last') ∨
    ((∃ f r, s.record {} = (.error f, r)) ∧
      ∃ f r, Stage.record { s with grammar := grammar' } {} = (.error f, r)) := by
  have hsame : Same s { s with grammar := grammar' } := same_of_reordered h
  unfold Stage.record
  dsimp only
  rw [GrammarClass.isGrammar_reordered h, hsame.recordRules]
  cases s.grammar.isGrammar with
  | false => exact .inr ⟨⟨_, _, rfl⟩, _, _, rfl⟩
  | true =>
    rw [if_pos rfl, if_pos rfl]
    rcases recordRules_perm hs hkeys (List.Perm.refl _) with
        ⟨last, place, log, hrun, hsettled, hsums⟩ | ⟨hbroken, hnot⟩ <;>
      rcases recordRules_perm hs hkeys (GrammarClass.perm_rules h).symm with
        ⟨last', place', log', hrun', hsettled', hsums'⟩ | ⟨hbroken', hnot'⟩
    · refine .inl ⟨last, last', place, place', log, log', hrun, hrun', ?_, hsums, hsums'⟩
      exact fun x hx => (hsettled.goes x hx).solo hs hkeys hx
    · exact absurd hsettled hnot'
    · exact absurd hsettled' hnot
    · exact .inr ⟨hbroken, hbroken'⟩

end Recorder

/-! ### Parsers -/

/-- Unless the first rule is asked for, the order does not matter to which method is the root. -/
theorem Reading.rootMethod?_reordered {g g' : GrammarClass} (h : Lineage.Reordered g g')
    {choice : RootChoice} (hgiven : choice ≠ .first) : rootMethod? g' choice = rootMethod? g choice := by
  cases choice with
  | first => exact absurd rfl hgiven
  | method m => rfl
  | key k => rfl
  | named name =>
    have hfind := h.find? (f := fun x => (x.1.name, x.2)) (fun hc => by dsimp only; rw [hc.name]) name
    unfold rootMethod?
    dsimp only
    cases hfound : Lineage.find? g name with
    | none =>
      rw [hfound, Option.map_none, Option.map_eq_none_iff] at hfind
      rw [hfind]
    | some x =>
      obtain ⟨owner, member⟩ := x
      rw [hfound, Option.map_some, Option.map_eq_some_iff] at hfind
      obtain ⟨⟨owner', member'⟩, hfound', heq⟩ := hfind
      obtain ⟨hname, rfl⟩ := Prod.mk.inj heq
      rw [hfound']
      cases member' <;> dsimp only <;> rw [hname]

namespace Parser
open Recorder Reading
variable {parser parser' : Parser} {method : Method}

section Library
variable [PatternLibrary]

/-- Parsers of grammars that are alike, with lowerings that are alike, give the same answers. -/
theorem parseWithin_alike {like : RuleKey → RuleKey → Prop} {takes : Method → Nat → Prop}
    (hlike : Relator.BiUnique like)
    (hgrammar : parser.program.grammar.Alike like parser'.program.grammar)
    (hpatterns : parser'.program.patterns.meaning? = parser.program.patterns.meaning?)
    (hstart : like parser.program.start parser'.program.start)
    (hlowering : Lowering.Alike like parser.lowering parser'.lowering)
    (hfits : ∀ {depth source tree consumed},
      parser.program.runWithin depth source = .ok (.matched tree consumed) →
      parser.lowering.TreeFits takes tree) (depth : Nat) (source : Source) :
    parser'.parseWithin depth source = parser.parseWithin depth source := by
  unfold parseWithin
  rcases Program.runWithin_alike hlike hgrammar hpatterns hstart depth source with
    ⟨outcome, outcome', hrun, hrun', halike⟩ | ⟨f, hrun, hrun'⟩
  · rw [hrun, hrun']
    cases halike with
    | failed index report => rfl
    | matched htree consumed =>
      unfold finish
      dsimp only
      split
      · rfl
      · unfold Lowering.createWithin
        rw [Lowering.lower_alike hlowering source depth htree (hfits hrun)]
  · rw [hrun, hrun']

/-- A grammar that has been recorded and links from any method builds exactly when the root is a rule. -/
theorem build_recorded (parts : Parts) {r : Recorder} (hregistry : parts.registry = {})
    (hroot : rootMethod? parts.grammar parts.root = some method)
    (hrecord : parts.stage.record {} = (.ok (), r))
    (hlinks : ∀ root, r.model.userRules.get? method = some root → ∃ program sealed,
      (r.registry.setRoot (some root)).build r.model.resolver = (.ok program, sealed)) :
    ((∃ parser, (build parts).1 = .ok parser) ∧ ∃ root, r.model.userRules.get? method = some root) ∨
    ((∃ f, (build parts).1 = .error f) ∧ r.model.userRules.get? method = none) := by
  have hrecord : parts.stage.record { registry := parts.registry } = (.ok (), r) := hregistry ▸ hrecord
  obtain ⟨shown, hresolve⟩ := resolve_of_rootMethod? hroot r.model
  unfold build
  rw [hrecord]
  dsimp only
  rw [hresolve]
  unfold RootChoice.ofMethod
  cases hkey : r.model.userRules.get? method with
  | none => exact .inr ⟨⟨_, rfl⟩, rfl⟩
  | some root =>
    obtain ⟨program, sealed, hbuild⟩ := hlinks root hkey
    dsimp only
    rw [hbuild]
    exact .inl ⟨⟨_, rfl⟩, root, rfl⟩

theorem build_unrecorded (parts : Parts) {f : Fault} {r : Recorder} (hregistry : parts.registry = {})
    (hrecord : parts.stage.record {} = (.error f, r)) : (build parts).1 = .error f := by
  have hrecord : parts.stage.record { registry := parts.registry } = (.error f, r) := hregistry ▸ hrecord
  unfold build
  rw [hrecord]

/-- Parsers that were built from twins give the same answers. -/
theorem agree_of_twins {parts : Parts} {grammar' : GrammarClass} {last last' : Recorder}
    {place place' : String → Nat} {log log' : List LogLine} {root root' : RuleKey}
    (ht : Twins parts.stage place place' last last')
    (hb : Built parts parser { last with isFinished := true, log } root)
    (hb' : Built { parts with grammar := grammar' } parser'
      { last' with isFinished := true, log := log' } root')
    (hroot : rootMethod? parts.grammar parts.root = some method)
    (hroot' : rootMethod? grammar' parts.root = some method) (depth : Nat) (source : Source) :
    parser'.parseWithin depth source = parser.parseWithin depth source := by
  have hshaped : last.Shaped parts.stage := ht.here.rested.sane.shaped
  have hstands : Stands parts.stage place place' root root' := by
    obtain ⟨k, hk, hstands⟩ := ht.declared (key_of_rootMethod? hroot hb.chosen)
    cases hk.symm.trans (key_of_rootMethod? hroot' hb'.chosen)
    exact hstands
  have hfits : ∀ {depth source tree consumed},
      parser.program.runWithin depth source = .ok (.matched tree consumed) →
      parser.lowering.TreeFits (RecordedBy parts.stage parser) tree :=
    treeFits_of_run hb (hshaped.restack rfl rfl (Nat.le_refl _) (.inr rfl) hshaped.stack) hroot
  refine parseWithin_alike ht.biUnique (ht.grammar hb.linked hb'.linked) ?_ ?_ ?_ hfits depth source
  · funext pattern
    rw [hb.linked.patterns, hb'.linked.patterns]
  · rw [Program.start, Program.start, hb.linked.root, hb'.linked.root]
    exact hstands
  · rw [hb.lowering, hb'.lowering]
    exact ht.lowering _

/-- The order in which a grammar defines its rule methods does not matter, as long as each body declares
its own rule by one builder term and the root is given. In both orders a parser can be built or in
neither, and both parsers answer every text with the same value or the same fault, and do the same for
it, to any depth. -/
theorem order_does_not_matter (parts : Parts) (grammar' : GrammarClass) (method : Method)
    (hs : SelfDeclaring parts.stage) (hkeys : parts.stage.GivesOwnKeys) (hregistry : parts.registry = {})
    (hroot : rootMethod? parts.grammar parts.root = some method) (hgiven : parts.root ≠ .first)
    (h : Lineage.Reordered parts.grammar grammar') :
    (∃ parser parser', (build parts).1 = .ok parser ∧
      (build { parts with grammar := grammar' }).1 = .ok parser' ∧
      (∀ depth source, parser'.parseWithin depth source = parser.parseWithin depth source) ∧
      ∀ text, parser'.parseText text = parser.parseText text) ∨
    ((∃ f, (build parts).1 = .error f) ∧ ∃ f, (build { parts with grammar := grammar' }).1 = .error f) := by
  rcases record_reordered hs hkeys h with
    ⟨last, last', place, place', log, log', hrecord, hrecord', ht⟩ | ⟨⟨f, r, hrecord⟩, f', r', hrecord'⟩
  · have hroot' : rootMethod? grammar' parts.root = some method :=
      (rootMethod?_reordered h hgiven).trans hroot
    have hcases := build_recorded parts hregistry hroot hrecord fun root => ht.links
    have hcases' := build_recorded { parts with grammar := grammar' } hregistry hroot' hrecord' fun root =>
      ht.symm.links
    rcases hcases with ⟨⟨parser, hbuild⟩, key, hkey⟩ | ⟨hbroken, hnone⟩ <;>
      rcases hcases' with ⟨⟨parser', hbuild'⟩, key', hkey'⟩ | ⟨hbroken', hnone'⟩
    · obtain ⟨r, root, hb⟩ := built_of_build hbuild
      obtain ⟨r', root', hb'⟩ := built_of_build hbuild'
      have hrecorded := hb.recorded
      have hrecorded' := hb'.recorded
      rw [hregistry] at hrecorded
      rw [show ({ parts with grammar := grammar' } : Parts).registry = {} from hregistry] at hrecorded'
      cases hrecord.symm.trans hrecorded
      cases hrecord'.symm.trans hrecorded'
      have hagree := agree_of_twins ht hb hb' hroot hroot'
      refine .inl ⟨parser, parser', hbuild, hbuild', hagree, fun text => ?_⟩
      unfold parseText parseSource
      rw [hagree]
    · obtain ⟨k, hk, -⟩ := ht.declared hkey
      cases hnone'.symm.trans hk
    · obtain ⟨k, hk, -⟩ := ht.symm.declared hkey'
      cases hnone.symm.trans hk
    · exact .inr ⟨hbroken, hbroken'⟩
  · refine .inr ⟨⟨f, build_unrecorded parts hregistry hrecord⟩, f', ?_⟩
    exact build_unrecorded { parts with grammar := grammar' } hregistry hrecord'

end Library

/-- Lists of words or of lists, from the rule of lists. -/
def nestedFromList : Parts := { nested with root := .method ⟨"NestGrammar.nest"⟩ }

/-- The sample grammar with the rule of words first. -/
def wordFirst : GrammarClass :=
  [{ name := "NestGrammar", bases := ["GrammarBase"],
     members := ⟨[
      ("word", .method [.rule none [.action "word" [.pattern (.value (.text "[a-z]+"))]]]),
      ("nest", .method [.rule none [.action "nest"
        [.token (.value (.text "(")),
         .wrap .zeroOrMore [.firstOf [.call "nest" [], .call "word" []]],
         .token (.value (.text ")"))]]])]⟩ },
    grammarBase, ClassDecl.top]

theorem order_does_not_matter_nested : wordFirst.rules.map (·.1) = ["word", "nest"] ∧
    ∃ parser parser', (build nestedFromList).1 = .ok parser ∧
      (build { nestedFromList with grammar := wordFirst }).1 = .ok parser' ∧
      ∀ text, parser'.parseText text = parser.parseText text := by
  have hs : SelfDeclaring nestedFromList.stage := by
    refine ⟨fun x hx => ?_, fun x hx => nested_declarative.ruleNames x.1 x.2.1 x.2.2 hx⟩
    exact ⟨none, nested_declarative.bodies x.1 x.2.1 x.2.2 hx⟩
  have hreordered : Lineage.Reordered nestedFromList.grammar wordFirst :=
    .cons ⟨rfl, rfl, rfl, .swap ..⟩
      (.cons ⟨rfl, rfl, rfl, .refl _⟩ (.cons ⟨rfl, rfl, rfl, .refl _⟩ .nil))
  have hok : (build nestedFromList).1.isOk = true := by decide +kernel
  refine ⟨by with_unfolding_all rfl, ?_⟩
  rcases order_does_not_matter nestedFromList wordFirst ⟨"NestGrammar.nest"⟩ hs
      (Stage.givesOwnKeys_of_nil (by decide +kernel)) rfl rfl nofun hreordered with
    ⟨parser, parser', hbuild, hbuild', -, htext⟩ | ⟨⟨f, hbroken⟩, -⟩
  · exact ⟨parser, parser', hbuild, hbuild', htext⟩
  · rw [hbroken] at hok; cases hok

end Parser
end PegScribe
