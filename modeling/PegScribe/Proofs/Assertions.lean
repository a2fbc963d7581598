import PegScribe.Proofs.Linkable
import PegScribe.Proofs.Shallow
import PegScribe.Proofs.Shapes

/-!
Assertions: lowering meets only the trees that it expects.

The shapes of recorded rules pass through linking and matching to the nodes of every tree: a node has the
children that lowering asks of it (`NodeFits`). So lowering never comes upon a node that it cannot lower,
and it calls a factory method with as many arguments as the call had that recorded its rule.
-/
namespace PegScribe
open Recorder

/-! ### Shapes of linked rules -/

section Linked
variable {s : Stage} {model : Model} {called known : RuleKey → Prop} {resolve : Resolver}
  {key : RuleKey} {e : Expr}

/-- The key is on record: for a builder call, for a factory method or for a rule method. -/
def Model.Knows (model : Model) (key : RuleKey) : Prop :=
  (∃ kind, model.kinds.get? key = some kind) ∨ (∃ m, model.actionRules.keyOf? key = some m) ∨
    ∃ m, model.userRules.keyOf? key = some m

theorem Expr.Single.resolved (h : e.Single known)
    (hresolve : ∀ callee key, resolve callee = some key → known key) :
    (e.resolved resolve).Single known := by
  induction h with
  | call h => exact .call h
  | late callee =>
    rw [Expr.resolved]
    cases hkey : resolve callee with
    | none => exact .late callee
    | some key => exact .call (hresolve callee key hkey)
  | choice _ ih =>
    rw [Expr.resolved, Expr.resolvedAll_eq_map]
    refine .choice fun e' he' => ?_
    obtain ⟨e, he, rfl⟩ := List.mem_map.mp he'
    exact ih e he

theorem resolved_operands (es : List Expr) :
    (operands es).resolved resolve = operands (es.map (Expr.resolved resolve)) := by
  match es with
  | [] => rfl
  | [e] => rfl
  | e :: e' :: rest =>
    show Expr.seq (Expr.resolvedAll resolve (e :: e' :: rest)) = _
    rw [Expr.resolvedAll_eq_map]
    rfl

/-- Linking keeps the shape of a rule. -/
theorem Recorder.RuleShape.resolved [PatternLibrary] (h : RuleShape s model called key e)
    (hle : ∀ key, called key → known key)
    (hresolve : ∀ callee key, resolve callee = some key → known key) :
    RuleShape s model known key (e.resolved resolve) where
  kind := by
    intro kind hk
    cases h.kind kind hk with
    | cut hlexical =>
      cases hlexical with
      | literal t => exact .cut (.literal t)
      | misfit shown type => exact .cut (.misfit shown type)
      | pattern hregex => exact .cut (.pattern hregex)
    | wrapped how hsingle => exact .wrapped how ((hsingle.mono hle).resolved hresolve)
  action := by
    intro m hm
    obtain ⟨n, hsite, es, hlen, rfl, hes⟩ := h.action m hm
    refine ⟨n, hsite, es.map (Expr.resolved resolve), by rw [List.length_map, hlen],
      resolved_operands es, fun e' he' => ?_⟩
    obtain ⟨e, he, rfl⟩ := List.mem_map.mp he'
    exact ((hes e he).mono hle).resolved hresolve
  other := fun hk hm => ((h.other hk hm).mono hle).resolved hresolve

/-- All references by key are to keys that are known. -/
def Expr.Calling (known : RuleKey → Prop) (e : Expr) : Prop :=
  ∀ key, .call key ∈ e.references → known key

theorem calling_all {es : List Expr} (h : ∀ e ∈ es, e.Calling known) :
    ∀ key, .call key ∈ Expr.referencesAll es → known key := by
  intro key hkey
  rw [Expr.referencesAll_eq_flatMap] at hkey
  obtain ⟨e, he, hkey⟩ := List.mem_flatMap.mp hkey
  exact h e he key hkey

theorem Expr.Single.calling (h : e.Single known) : e.Calling known := by
  induction h with
  | call h =>
    intro key hkey
    cases List.mem_singleton.mp hkey
    exact h
  | late callee =>
    intro key hkey
    cases List.mem_singleton.mp hkey
  | choice _ ih => exact calling_all ih

theorem calling_operands {es : List Expr} (h : ∀ e ∈ es, e.Single known) :
    (operands es).Calling known := by
  unfold operands
  split
  · exact (h _ (List.mem_singleton_self _)).calling
  · exact calling_all fun e he => (h e he).calling

/-- Rules of every shape refer to known keys. -/
theorem Recorder.RuleShape.calling [PatternLibrary] (h : RuleShape s model known key e) :
    e.Calling known := by
  cases hkind : model.kinds.get? key with
  | some kind =>
    cases h.kind kind hkind with
    | cut hlexical =>
      intro key hkey
      cases hlexical <;> simp [padded, Expr.references, Expr.referencesAll] at hkey
    | wrapped how hsingle => exact hsingle.calling
  | none =>
    cases haction : model.actionRules.keyOf? key with
    | some m =>
      obtain ⟨n, -, es, -, rfl, hes⟩ := h.action m haction
      exact calling_operands hes
    | none => exact (h.other hkind haction).calling

end Linked

/-! ### Shapes of trees -/

namespace Packrat
variable [PatternLibrary] {g : Grammar} {patterns : PatternTable} {source : Source} {known : RuleKey → Prop}
  {e : Expr} {start stop : Int} {trees : List ParseTree}

/-- All nodes in a derivation are of known keys. -/
theorem Derives.of_known (hd : Derives g patterns source e start trees stop) (he : e.Calling known)
    (hg : ∀ key body, g.rules.get? key = some body → body.Calling known) {key : RuleKey}
    {from_ to_ : Int} {children : List ParseTree}
    (hnode : .node key from_ to_ children ∈ ParseTree.subtreesAll trees) : known key := by
  induction hd with
  | literal _ _ => simp [ParseTree.subtreesAll, ParseTree.subtrees] at hnode
  | pattern _ _ => simp [ParseTree.subtreesAll, ParseTree.subtrees] at hnode
  | rule hb _ ih =>
    simp only [ParseTree.subtreesAll, ParseTree.subtrees, List.append_nil, List.mem_cons] at hnode
    rcases hnode with heq | hnode
    · cases heq
      exact he _ (List.mem_singleton_self _)
    · exact ih (hg _ _ hb) hnode
  | without => simp [ParseTree.subtreesAll] at hnode
  | withOne _ ih => exact ih he hnode
  | manyNil => simp [ParseTree.subtreesAll] at hnode
  | manyCons _ _ ih ih' =>
    rw [ParseTree.subtreesAll_append] at hnode
    exact (List.mem_append.mp hnode).elim (ih he) (ih' he)
  | someCons _ _ ih ih' =>
    rw [ParseTree.subtreesAll_append] at hnode
    exact (List.mem_append.mp hnode).elim (ih he) (ih' he)
  | seqNil => simp [ParseTree.subtreesAll] at hnode
  | seqCons _ _ ih ih' =>
    rw [ParseTree.subtreesAll_append] at hnode
    refine (List.mem_append.mp hnode).elim (ih fun k hk => he k ?_) (ih' fun k hk => he k ?_)
    · exact List.mem_append_left _ hk
    · exact List.mem_append_right _ hk
  | choice hmem _ ih =>
    refine ih (fun k hk => he k ?_) hnode
    show _ ∈ Expr.referencesAll _
    rw [Expr.referencesAll_eq_flatMap]
    exact List.mem_flatMap.mpr ⟨_, hmem, hk⟩

theorem single_derives (h : e.Single known) (hd : Derives g patterns source e start trees stop) :
    ∃ key children, trees = [.node key start stop children] := by
  induction h generalizing trees with
  | call _ => cases hd; exact ⟨_, _, rfl⟩
  | late _ => cases hd
  | choice _ ih =>
    cases hd with
    | choice he hd => exact ih _ he hd

theorem lexeme_derives {kind : RuleKind} (h : Lexical kind e)
    (hd : Derives g patterns source (padded e) start trees stop) :
    trees.length = 3 ∧ ∀ t ∈ trees, t.isLeaf = true := by
  have hleaf : ∀ {start trees stop}, Derives g patterns source e start trees stop →
      ∃ a b, trees = [.leaf a b] := by
    intro start trees stop hd
    cases h <;> cases hd <;> exact ⟨_, _, rfl⟩
  unfold padded at hd
  cases hd with
  | seqCons hbefore hd =>
    cases hbefore
    cases hd with
    | seqCons he hd =>
      obtain ⟨a, b, rfl⟩ := hleaf he
      cases hd with
      | seqCons hafter hd =>
        cases hafter
        cases hd
        simp [ParseTree.isLeaf]

theorem optional_derives (h : e.Single known)
    (hd : Derives g patterns source (.rep .optional e) start trees stop) : trees.length ≤ 1 := by
  cases hd with
  | without => exact Nat.zero_le 1
  | withOne hd =>
    obtain ⟨key, children, rfl⟩ := single_derives h hd
    exact Nat.le_refl 1

theorem seq_derives : ∀ {es : List Expr} {start stop : Int} {trees : List ParseTree},
    (∀ e ∈ es, e.Single known) → Derives g patterns source (.seq es) start trees stop →
    trees.length = es.length ∧ ∀ t ∈ trees, t.isLeaf = false
  | [], start, stop, trees, _, hd => by
    cases hd
    exact ⟨rfl, nofun⟩
  | e :: rest, start, stop, trees, h, hd => by
    cases hd with
    | seqCons he hrest =>
      obtain ⟨key, children, rfl⟩ := single_derives (h e (List.mem_cons_self ..)) he
      obtain ⟨hlen, hnodes⟩ := seq_derives (fun e he => h e (List.mem_cons_of_mem _ he)) hrest
      refine ⟨congrArg Nat.succ hlen, fun t ht => ?_⟩
      rcases List.mem_cons.mp ht with rfl | ht
      · rfl
      · exact hnodes t ht

/-- Operands match as a node each. -/
theorem operands_derive {es : List Expr} (h : ∀ e ∈ es, e.Single known)
    (hd : Derives g patterns source (operands es) start trees stop) :
    trees.length = es.length ∧ ∀ t ∈ trees, t.isLeaf = false := by
  unfold operands at hd
  split at hd
  · obtain ⟨key, children, rfl⟩ := single_derives (h _ (List.mem_singleton_self _)) hd
    exact ⟨rfl, by simp [ParseTree.isLeaf]⟩
  · exact seq_derives h hd

end Packrat

/-- The children that have values of their own. -/
def ParseTree.semantic (children : List ParseTree) : List ParseTree := children.filter (!·.isLeaf)

theorem ParseTree.semantic_nodes {children : List ParseTree} (h : ∀ t ∈ children, t.isLeaf = false) :
    semantic children = children :=
  List.filter_eq_self.mpr fun t ht => by rw [h t ht]; rfl

/-- A node has the children that lowering asks of it: three leaves for a lexeme, at most one child for
an optional part, one child with a value for a rule method; and every other node but a repetition is a
factory method's, with as many values as `takes` allows. -/
structure NodeFits (model : Model) (takes : Method → Nat → Prop) (key : RuleKey)
    (children : List ParseTree) : Prop where
  lexeme : model.isToken key = true → children.length = 3 ∧ ∀ t ∈ children, t.isLeaf = true
  optional : model.kinds.get? key = some .optional → children.length ≤ 1
  kinds : ∀ name, model.kinds.get? key ≠ some (.other name)
  user : model.userRules.containsValue key = true →
    model.kinds.get? key = none ∧ (ParseTree.semantic children).length = 1
  action : model.kinds.get? key = none → model.userRules.containsValue key = false →
    ∃ m, model.actionRules.keyOf? key = some m ∧ takes m (ParseTree.semantic children).length

theorem Recorder.KindShape.inversion [PatternLibrary] {called : RuleKey → Prop} {kind : RuleKind}
    {body : Expr} (h : KindShape called kind body) : (∃ e, Lexical kind e ∧ body = padded e) ∨
      ∃ how e, kind = Wrapper.kind how ∧ e.Single called ∧ body = .rep how.repetition e := by
  cases h with
  | cut h => exact .inl ⟨_, h, rfl⟩
  | wrapped how h => exact .inr ⟨how, _, rfl, h, rfl⟩

/-- What a rule's shape makes of its nodes. -/
theorem nodeFits_of_shape [PatternLibrary] {s : Stage} {model : Model} {key : RuleKey} {body : Expr}
    (hknows : model.Knows key) (hshape : RuleShape s model model.Knows key body)
    (hapart : ∀ m, model.userRules.keyOf? key = some m →
      model.kinds.get? key = none ∧ model.actionRules.keyOf? key = none)
    {g : Grammar} {patterns : PatternTable} {source : Source} {start stop : Int}
    {children : List ParseTree} (hd : Packrat.Derives g patterns source body start children stop) :
    NodeFits model (fun m n => model.actionRules.keyOf? key = some m ∧
      ActionShape s model.Knows m n body) key children where
  lexeme := by
    intro htoken
    unfold Model.isToken at htoken
    cases hkind : model.kinds.get? key with
    | none => rw [hkind] at htoken; cases htoken
    | some kind =>
      rw [hkind] at htoken
      rcases (hshape.kind kind hkind).inversion with ⟨e, hlexical, rfl⟩ | ⟨how, e, rfl, -, -⟩
      · exact Packrat.lexeme_derives hlexical hd
      · cases how <;> cases htoken
  optional := by
    intro hkind
    rcases (hshape.kind _ hkind).inversion with ⟨e, hlexical, -⟩ | ⟨how, e, hhow, hsingle, rfl⟩
    · cases hlexical
    · cases how with
      | optional => exact Packrat.optional_derives hsingle hd
      | oneOrMore => cases hhow
      | zeroOrMore => cases hhow
  kinds := by
    intro name hkind
    rcases (hshape.kind _ hkind).inversion with ⟨e, hlexical, -⟩ | ⟨how, e, hhow, -, -⟩
    · cases hlexical
    · cases how <;> cases hhow
  user := by
    intro huser
    obtain ⟨m, hm⟩ := Option.isSome_iff_exists.mp huser
    obtain ⟨hkind, haction⟩ := hapart m hm
    obtain ⟨k, cs, rfl⟩ := Packrat.single_derives (hshape.other hkind haction) hd
    exact ⟨hkind, rfl⟩
  action := by
    intro hkind huser
    have haction : ∃ m, model.actionRules.keyOf? key = some m := by
      rcases hknows with ⟨kind, hk⟩ | haction | ⟨m, hm⟩
      · rw [hkind] at hk; cases hk
      · exact haction
      · have hnone : (model.userRules.keyOf? key).isSome = false := huser
        rw [hm] at hnone; cases hnone
    obtain ⟨m, hm⟩ := haction
    obtain ⟨n, hn⟩ := hshape.action m hm
    obtain ⟨es, hlen, rfl, hes⟩ := hn.operands
    obtain ⟨hcount, hnodes⟩ := Packrat.operands_derive hes hd
    refine ⟨m, hm, hm, ?_⟩
    rw [ParseTree.semantic_nodes hnodes, hcount, hlen]
    exact hn

/-! ### Lowering -/

namespace Lowering
open Keeping
variable {l : Lowering} {good : Method → List Value → Prop} {deep deep' : Prop} {α β : Type}

/-- Factory methods are called only as allowed, and nothing but a factory method breaks the computation off,
or the limit on nesting where something goes deeper than that. -/
def Proper (l : Lowering) (good : Method → List Value → Prop) (deep : Prop) (x : Deeds α) : Prop :=
  ∀ ⦃deeds result deeds'⦄, x deeds = (result, deeds') →
    (∀ m args, .called m args ∈ deeds' → .called m args ∈ deeds ∨ good m args) ∧
    ∀ f, result = .error f → (f = .tooDeep ∧ deep) ∨
      ∃ m args, deeds'.head? = some (.called m args) ∧ l.act m args = .error f

theorem Proper.mono {x : Deeds α} (hx : Proper l good deep x) (hdeep : deep → deep') :
    Proper l good deep' x := by
  intro deeds result deeds' h
  obtain ⟨hcalls, hbroken⟩ := hx h
  exact ⟨hcalls, fun f hf => (hbroken f hf).imp_left (And.imp_right hdeep)⟩

theorem proper_pure (a : α) : Proper l good deep (pure a : Deeds α) := by
  intro deeds result deeds' h
  cases h
  exact ⟨fun _ _ => .inl, nofun⟩

theorem proper_tooDeep (hdeep : deep) : Proper l good deep (throw .tooDeep : Deeds α) := by
  intro deeds result deeds' h
  cases h
  exact ⟨fun _ _ => .inl, fun f hf => .inl ⟨(Except.error.inj hf).symm, hdeep⟩⟩

theorem proper_cut (t : Token) : Proper l good deep (cut t) := by
  intro deeds result deeds' h
  cases h
  refine ⟨fun m args hmem => .inl ?_, nofun⟩
  simpa using hmem

theorem Proper.bind {x : Deeds α} {f : α → Deeds β} (hx : Proper l good deep x)
    (hf : ∀ a, (∃ deeds deeds', x deeds = (.ok a, deeds')) → Proper l good deep (f a)) :
    Proper l good deep (x >>= f) := by
  intro deeds result deeds' h
  rcases hrun : x deeds with ⟨e | a, deeds₁⟩
  · rw [bind_of_error hrun] at h
    cases h
    obtain ⟨hcalls, hbroken⟩ := hx hrun
    exact ⟨hcalls, fun f hf => hbroken f (by rw [Except.error.inj hf])⟩
  · rw [bind_of_ok hrun] at h
    obtain ⟨hcalls, hbroken⟩ := hf a ⟨deeds, deeds₁, hrun⟩ h
    refine ⟨fun m args hmem => ?_, hbroken⟩
    rcases hcalls m args hmem with hmem | hgood
    · exact (hx hrun).1 m args hmem
    · exact .inr hgood

theorem proper_call {m : Method} {args : List Value} (hgood : good m args) :
    Proper l good deep (l.call m args) := by
  intro deeds result deeds' h
  unfold call at h
  rw [bind_of_ok (show (modify (.called m args :: ·) : Deeds Unit) deeds =
    (.ok (), .called m args :: deeds) from rfl)] at h
  have hcalls : ∀ m' args', Deed.called m' args' ∈ Deed.called m args :: deeds →
      Deed.called m' args' ∈ deeds ∨ good m' args' := by
    intro m' args' hmem
    rcases List.mem_cons.mp hmem with heq | hmem
    · cases heq; exact .inr hgood
    · exact .inl hmem
  cases hact : l.act m args with
  | ok v =>
    rw [hact] at h; cases h
    exact ⟨hcalls, fun _ hf => by cases hf⟩
  | error f =>
    rw [hact] at h; cases h
    exact ⟨hcalls, fun f' hf' => .inr ⟨m, args, rfl, by rw [hact, Except.error.inj hf']⟩⟩

theorem proper_each {visit : ParseTree → Deeds Value} : ∀ {ts : List ParseTree},
    (∀ t ∈ ts, Proper l good deep (visit t)) → Proper l good deep (each visit ts)
  | [], _ => proper_pure _
  | t :: _, h =>
    (h t (List.mem_cons_self ..)).bind fun _ _ =>
      (proper_each fun t ht => h t (List.mem_cons_of_mem _ ht)).bind fun _ _ => proper_pure _

/-- Trees that are lowered well give a value each. -/
theorem each_length {visit : ParseTree → Deeds Value} : ∀ {ts : List ParseTree} {vs : List Value},
    (∃ deeds deeds', each visit ts deeds = (.ok vs, deeds')) → vs.length = ts.length
  | [], vs, ⟨deeds, deeds', h⟩ => by cases h; rfl
  | _ :: _, vs, ⟨deeds, deeds', h⟩ => by
    obtain ⟨v, deeds₁, -, h⟩ := bind_eq_ok.mp h
    obtain ⟨vs', deeds₂, hrest, h⟩ := bind_eq_ok.mp h
    cases h
    rw [List.length_cons, List.length_cons, each_length ⟨deeds₁, _, hrest⟩]

theorem subtrees_of_child {child : ParseTree} : ∀ {children : List ParseTree}, child ∈ children →
    ∀ t ∈ child.subtrees, t ∈ ParseTree.subtreesAll children
  | _ :: _, h, t, ht => by
    rcases List.mem_cons.mp h with rfl | h
    · exact List.mem_append_left _ ht
    · exact List.mem_append_right _ (subtrees_of_child h t ht)

/-- All nodes of the tree have the children that lowering asks of them. -/
def TreeFits (l : Lowering) (takes : Method → Nat → Prop) (tree : ParseTree) : Prop :=
  ∀ key start stop children, .node key start stop children ∈ tree.subtrees →
    NodeFits l.model takes key children

variable {takes : Method → Nat → Prop}

theorem proper_combine {key : RuleKey} {children : List ParseTree} {values : List Value}
    (hfits : NodeFits l.model takes key children) (hkind : l.model.kinds.get? key = none)
    (hlen : values.length = (ParseTree.semantic children).length) :
    Proper l (fun m args => takes m args.length) deep (l.combine key values) := by
  unfold combine
  cases huser : l.model.userRules.containsValue key with
  | true =>
    rw [if_pos rfl]
    rw [(hfits.user huser).2] at hlen
    obtain ⟨v, rfl⟩ := List.length_eq_one_iff.mp hlen
    exact proper_pure v
  | false =>
    rw [if_neg Bool.false_ne_true]
    obtain ⟨m, hm, htakes⟩ := hfits.action hkind huser
    rw [hm]
    exact proper_call (hlen ▸ htakes)

/-- Lowering a tree of fitting nodes is proper, to any depth, and too deep only if the tree is. -/
theorem proper_lower (source : Source) : ∀ (d : Nat) {tree : ParseTree}, l.TreeFits takes tree →
    Proper l (fun m args => takes m args.length) (tree.within d = false) (l.lower source d tree)
  | 0, _, _ => proper_tooDeep rfl
  | d + 1, .leaf start stop, _ => proper_cut _
  | d + 1, .node key start stop children, h => by
    have hfits := h key start stop children (by simp [ParseTree.subtrees])
    have hchild : ∀ child ∈ children, Proper l (fun m args => takes m args.length)
        (ParseTree.within (d + 1) (.node key start stop children) = false) (l.lower source d child) := by
      intro child hmem
      refine (proper_lower source d fun k a b cs hk => h k a b cs ?_).mono fun hdeep => ?_
      · exact List.mem_cons_of_mem _ (subtrees_of_child hmem _ hk)
      · exact ParseTree.not_within_of_child hmem hdeep
    rw [lower_node]
    cases hkind : l.model.kinds.get? key with
    | none =>
      refine (proper_each fun t ht => hchild t (List.mem_filter.mp ht).1).bind fun vs hvs => ?_
      exact proper_combine hfits hkind (each_length hvs)
    | some kind =>
      cases kind with
      | token => exact proper_cut _
      | pattern => exact proper_cut _
      | optional =>
        have hcount := hfits.optional hkind
        rcases children with _ | ⟨child, _ | ⟨_, _⟩⟩
        · exact proper_pure _
        · exact hchild child (List.mem_singleton_self _)
        · simp at hcount
      | oneOrMore => exact (proper_each hchild).bind fun _ _ => proper_pure _
      | zeroOrMore => exact (proper_each hchild).bind fun _ _ => proper_pure _
      | other name => exact absurd hkind (hfits.kinds name)

end Lowering

/-! ### Parsers -/

/-- Arguments that were counted well can be bound. -/
theorem Signature.bind_of_check {sig : Signature} {args : List Value}
    (h : sig.check args.length = .ok ()) (function : String) :
    ∃ bound, sig.bind function args = .ok bound := by
  unfold check at h
  split at h
  · cases h
  · rename_i hroom
    cases hlacking : sig.firstLacking? args.length with
    | some p => rw [hlacking] at h; cases h
    | none =>
      have hall := List.find?_eq_none.mp hlacking
      have hpositional : (sig.positional.drop args.length).filter (·.default?.isNone) = [] :=
        List.filter_eq_nil_iff.mpr fun p hp => hall p (List.mem_append_left _ hp)
      have hnamed : sig.named.filter (·.default?.isNone) = [] :=
        List.filter_eq_nil_iff.mpr fun p hp => hall p (List.mem_append_right _ hp)
      unfold bind
      dsimp only
      rw [if_neg hroom, hpositional, hnamed]
      exact ⟨_, rfl⟩

namespace Parser
open Reading
variable {parts : Parts} {parser : Parser} {r : Recorder} {root : RuleKey}

/-- The method's rule was recorded by a call with `n` arguments, and has an operand for each. -/
def RecordedBy (s : Stage) (parser : Parser) (m : Method) (n : Nat) : Prop :=
  ∃ key body, parser.model.actionRules.get? m = some key ∧
    parser.program.grammar.rules.get? key = some body ∧
    ActionShape s parser.model.Knows m n body

/-- The arguments can be bound, and the call is left to what the method does with them. -/
def Binds (parts : Parts) (parser : Parser) (m : Method) (args : List Value) : Prop :=
  ∃ name fm bound, (name, (m, fm)) ∈ parts.factory.methods ∧
    fm.signature.bind m.qualname args = .ok bound ∧
    parser.lowering.act m args = fm.behaviour parts.self bound

/-- Of a tree of fitting nodes every call is a good one, and only the depth or a factory method breaks
lowering off. -/
theorem proper_create {takes : Method → Nat → Prop} {tree : ParseTree}
    (hfits : parser.lowering.TreeFits takes tree) {limit : Nat} {source : Source}
    {value : Except Fault Value} {deeds : List Deed}
    (h : parser.lowering.createWithin limit source tree = (value, deeds)) :
    (∀ m args, .called m args ∈ deeds → takes m args.length) ∧
      ∀ f, value = .error f → (f = .tooDeep ∧ tree.within limit = false) ∨ parser.RaisedLast deeds f := by
  unfold Lowering.createWithin at h
  rcases hlower : parser.lowering.lower source limit tree [] with ⟨result, done⟩
  rw [hlower] at h
  cases h
  obtain ⟨hcalls, hbroken⟩ := Lowering.proper_lower source limit hfits hlower
  refine ⟨fun m args hmem => (hcalls m args (List.mem_reverse.mp hmem)).resolve_left nofun, fun f hf => ?_⟩
  refine (hbroken f hf).imp_right fun ⟨m, args, hlast, hact⟩ => ⟨m, args, ?_, hact⟩
  rw [List.getLast?_reverse]
  exact hlast

section Library
variable [PatternLibrary]

theorem knows_user (hr : r.Shaped parts.stage) {m : Method} {key : RuleKey}
    (hm : r.model.userRules.get? m = some key) : r.model.Knows key :=
  .inr (.inr ⟨m, (hr.userPairs m key).mp hm⟩)

theorem shaped_of_built (hb : Built parts parser r root) (hpush : parts.stage.PushesNothing)
    (hkeys : parts.stage.GivesOwnKeys) (hregistry : parts.registry = {}) : r.Shaped parts.stage := by
  have hrecorded := hb.recorded
  rw [hregistry] at hrecorded
  exact record_shaped hpush hkeys hrecorded

/-- The rules of a parser have their shapes. -/
theorem shape_of_built (hb : Built parts parser r root) (hr : r.Shaped parts.stage) {key : RuleKey}
    {body : Expr} (hbody : parser.program.grammar.rules.get? key = some body) :
    RuleShape parts.stage r.model r.model.Knows key body := by
  have hresolve : ∀ callee key, r.model.resolver callee = some key → r.model.Knows key := by
    intro callee key hkey
    cases callee with
    | method m => exact knows_user hr hkey
    | value text => cases hkey
  rw [hb.linked.rules] at hbody
  obtain ⟨e, he, rfl⟩ := Option.map_eq_some_iff.mp hbody
  exact (hr.rules key e he).resolved (fun k hk => hk.elim .inl fun h => .inr (.inl h)) hresolve

/-- The nodes of a parser's trees fit the shapes of its rules. -/
theorem treeFits_of_run (hb : Built parts parser r root) (hr : r.Shaped parts.stage) {method : Method}
    (hroot : rootMethod? parts.grammar parts.root = some method) {depth : Nat} {source : Source}
    {tree : ParseTree} {consumed : Int}
    (hrun : parser.program.runWithin depth source = .ok (.matched tree consumed)) :
    parser.lowering.TreeFits (RecordedBy parts.stage parser) tree := by
  have hmodel : parser.model = r.model := congrArg Lowering.model hb.lowering
  have hlossless := Program.lossless_of_matched hrun
  have hstart : r.model.Knows parser.program.start := by
    refine knows_user hr (m := method) ?_
    rw [Program.start, hb.linked.root]
    exact key_of_rootMethod? hroot hb.chosen
  -- the whole tree is derived from a reference to the root, so all of its keys are known
  have hknown : ∀ key a b cs, .node key a b cs ∈ tree.subtrees → r.model.Knows key := by
    intro key a b cs hmem
    obtain ⟨children, rfl⟩ := hlossless.whole
    obtain ⟨body, hbody, hd⟩ :=
      hlossless.derived parser.program.start 0 consumed children (by simp [ParseTree.subtrees])
    have hmem' : .node key a b cs ∈
        ParseTree.subtreesAll [.node parser.program.start 0 consumed children] := by
      simpa [ParseTree.subtreesAll] using hmem
    exact (Packrat.Derives.rule hbody hd).of_known (Expr.Single.call hstart).calling
      (fun k e hk => (shape_of_built hb hr hk).calling) hmem'
  intro key a b cs hmem
  obtain ⟨body, hbody, hd⟩ := hlossless.derived key a b cs hmem
  have hfits := nodeFits_of_shape (hknown key a b cs hmem) (shape_of_built hb hr hbody)
    (hr.userApart key) hd
  show NodeFits parser.model _ key cs
  rw [hmodel]
  refine { hfits with action := fun hkind hnot => ?_ }
  obtain ⟨m, hm, -, hn⟩ := hfits.action hkind hnot
  refine ⟨m, hm, key, body, ?_, hbody, ?_⟩
  · rw [hmodel]; exact (hr.actionPairs m key).mpr hm
  · rw [hmodel]; exact hn

/-- Lowering never comes upon a node that it cannot lower, as long as the bodies of the grammar push
nothing by hand: every node of a match has the children that lowering asks of it, every factory method
is called with as many arguments as the call that recorded its rule had, which the method can take, and
only the depth or what a factory method does can break lowering off. -/
theorem create_meets_no_assertion (parts : Parts) (parser : Parser) (method : Method) (depth : Nat)
    (source : Source) (tree : ParseTree)
    (hpush : parts.stage.PushesNothing) (hkeys : parts.stage.GivesOwnKeys)
    (hnames : ∀ x ∈ parts.factory.methods, '.' ∉ x.1.toList) (hregistry : parts.registry = {})
    (hroot : rootMethod? parts.grammar parts.root = some method)
    (hbuild : (build parts).1 = .ok parser)
    (hrun : parser.program.runWithin depth source = .ok (.matched tree source.length)) :
    (∀ key start stop children, .node key start stop children ∈ tree.subtrees →
      NodeFits parser.model (RecordedBy parts.stage parser) key children) ∧
    ∀ limit value deeds, parser.lowering.createWithin limit source tree = (value, deeds) →
      (∀ m args, .called m args ∈ deeds →
        RecordedBy parts.stage parser m args.length ∧ Binds parts parser m args) ∧
      ∀ f, value = .error f → f = .tooDeep ∨ parser.RaisedLast deeds f := by
  obtain ⟨r, root, hb⟩ := built_of_build hbuild
  have hfits := treeFits_of_run hb (shaped_of_built hb hpush hkeys hregistry) hroot hrun
  refine ⟨hfits, fun limit value deeds hcreate => ?_⟩
  obtain ⟨hcalls, hbroken⟩ := proper_create hfits hcreate
  refine ⟨fun m args hmem => ⟨hcalls m args hmem, ?_⟩, fun f hf => (hbroken f hf).imp_left And.left⟩
  obtain ⟨-, -, -, -, ⟨name, fm, hm, hcheck, -⟩, -⟩ := hcalls m args hmem
  obtain ⟨bound, hbound⟩ := Signature.bind_of_check hcheck m.qualname
  refine ⟨name, fm, bound, hm, hbound, ?_⟩
  rw [hb.lowering]
  show FactoryClass.call parts.factory parts.self m args = _
  rw [FactoryClass.call_method hnames hm, FactoryMethod.call, hbound]

/-- A tree of the whole text is lowered. -/
theorem parseWithin_of_matched {depth : Nat} {source : Source} {tree : ParseTree}
    (h : parser.program.runWithin depth source = .ok (.matched tree source.length)) :
    parser.parseWithin depth source = parser.lowering.createWithin depth source tree := by
  unfold parseWithin
  rw [h]
  dsimp only [finish]
  rw [if_neg (fun hne => hne rfl)]

theorem matched_of_parseWithin {depth : Nat} {source : Source} {v : Value}
    (h : (parser.parseWithin depth source).1 = .ok v) :
    ∃ tree, parser.program.runWithin depth source = .ok (.matched tree source.length) := by
  unfold parseWithin at h
  cases hrun : parser.program.runWithin depth source with
  | error f => rw [hrun] at h; cases h
  | ok outcome =>
    rw [hrun] at h
    cases outcome with
    | failed index report => cases h
    | matched tree consumed =>
      by_cases hall : consumed = source.length
      · exact ⟨tree, by rw [hall]⟩
      · dsimp only [finish] at h
        rw [if_pos hall] at h
        cases h

end Library

theorem nested_keys : nested.stage.GivesOwnKeys := Stage.givesOwnKeys_of_nil (by decide +kernel)

theorem nested_root : rootMethod? nested.grammar nested.root = some ⟨"NestGrammar.nest"⟩ := by
  with_unfolding_all rfl

theorem create_meets_no_assertion_nested : ∃ parser tree depth, (build nested).1 = .ok parser ∧
    parser.program.runWithin depth (.ofString "(ab)") = .ok (.matched tree 4) ∧
    (∀ key start stop children, .node key start stop children ∈ tree.subtrees →
      NodeFits parser.model (RecordedBy nested.stage parser) key children) ∧
    ∀ limit, ∀ m args, .called m args ∈ (parser.lowering.createWithin limit (.ofString "(ab)") tree).2 →
      RecordedBy nested.stage parser m args.length ∧ Binds nested parser m args := by
  obtain ⟨parser, hbuild⟩ := nested_builds
  have hread : read nested 12 (.ofString "(ab)") = some (some (4, .ok (.list [.text "ab"]))) := by
    with_unfolding_all rfl
  obtain ⟨⟨depth, hdepth⟩, -⟩ := agrees_of_meets (meets_of_read nested_declarative hbuild hread)
  obtain ⟨tree, hrun⟩ := matched_of_parseWithin (hdepth depth (Nat.le_refl _))
  obtain ⟨hfits, hcreate⟩ := create_meets_no_assertion nested parser _ depth _ tree
    (by decide +kernel) nested_keys
    (fun x hx => nested_declarative.actionNames x.1 x.2.1 x.2.2 hx) rfl nested_root hbuild hrun
  exact ⟨parser, tree, depth, hbuild, hrun, hfits, fun limit => (hcreate limit _ _ rfl).1⟩

end Parser
end PegScribe
