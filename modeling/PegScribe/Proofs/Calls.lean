import Mathlib.Data.List.Forall2
import PegScribe.Proofs.Assertions

/-!
Calls: the factory is called once for each node that an action made, and in the order of the tree.

`ParseTree.actions` lists the nodes of a tree whose values a factory method makes, each after those inside
it, and `ParseTree.Denotes` says what the value of a tree is, without lowering it. Lowering makes the calls
of these nodes one after the other, each with the values of the nodes right below; a call that raises is the
last one, and nothing else breaks lowering off but a node that it refuses and the limit on nesting
(`realizes_lower`). Nothing is called unless a tree was accepted for the whole text.
-/
namespace PegScribe

/-- The calls of factory methods among the deeds. -/
def Deed.calls (deeds : List Deed) : List (Method × List Value) :=
  deeds.filterMap fun
    | .cut _ => none
    | .called method args => some (method, args)

/-! ### What a tree asks for -/

/-- Is a node's value put together from the values inside it, other than in a list? -/
def Model.combines (model : Model) (key : RuleKey) : Bool :=
  match model.kinds.get? key with
  | none | some (.other _) => true
  | some _ => false

theorem Model.isToken_of_kind {model : Model} {key : RuleKey} {kind : RuleKind}
    (hkind : model.kinds.get? key = some kind) : model.isToken key = kind.isToken := by
  rw [isToken, hkind]
  rfl

/-- The factory method that puts the value of a rule's nodes together. -/
def Model.action? (model : Model) (key : RuleKey) : Option Method :=
  if model.combines key && !model.userRules.containsValue key then model.actionRules.keyOf? key else none

namespace ParseTree

mutual

/-- The nodes whose values a factory method makes, each after those inside it: the method, and the nodes of
rules right below. There are none inside a lexeme. -/
def actions (model : Model) : ParseTree → List (Method × List ParseTree)
  | .leaf _ _ => []
  | .node key _ _ children =>
    if model.isToken key then []
    else actionsAll model children ++
      ((model.action? key).map fun method => (method, semantic children)).toList

/-- The same for trees, from left to right. -/
def actionsAll (model : Model) : List ParseTree → List (Method × List ParseTree)
  | [] => []
  | t :: rest => actions model t ++ actionsAll model rest

end

/-- The value of a tree, by the kind of its rule and by what the factory's methods return. -/
inductive Denotes (l : Lowering) (source : Source) : ParseTree → Value → Prop
  | leaf (start stop : Int) : Denotes l source (.leaf start stop) (.token (source.token start stop))
  | lexeme {key start stop children} (hkey : l.model.isToken key = true) :
    Denotes l source (.node key start stop children)
      (.token (Lowering.lexeme source start stop children))
  | absent {key start stop} (hkey : l.model.kinds.get? key = some .optional) :
    Denotes l source (.node key start stop []) .absent
  | present {key start stop child v} (hkey : l.model.kinds.get? key = some .optional)
    (h : Denotes l source child v) : Denotes l source (.node key start stop [child]) v
  | list {key start stop children vs} (hkey : l.model.kinds.get? key = some .oneOrMore ∨
      l.model.kinds.get? key = some .zeroOrMore) (h : List.Forall₂ (Denotes l source) children vs) :
    Denotes l source (.node key start stop children) (.list vs)
  | rule {key start stop children v} (hkey : l.model.combines key = true)
    (huser : l.model.userRules.containsValue key = true)
    (h : List.Forall₂ (Denotes l source) (semantic children) [v]) :
    Denotes l source (.node key start stop children) v
  | action {key start stop children method vs v} (hkey : l.model.action? key = some method)
    (h : List.Forall₂ (Denotes l source) (semantic children) vs) (hv : l.act method vs = .ok v) :
    Denotes l source (.node key start stop children) v

/-- The node is none that lowering can make a value of. -/
inductive Refused (model : Model) : ParseTree → Breach → Prop
  | optional {key start stop children} (hkey : model.kinds.get? key = some .optional)
    (h : 1 < children.length) :
    Refused model (.node key start stop children) (.optionalChildren key children.length)
  | rule {key start stop children} (hkey : model.combines key = true)
    (huser : model.userRules.containsValue key = true) (h : (semantic children).length ≠ 1) :
    Refused model (.node key start stop children) (.ruleValues key (semantic children).length)
  | unrecorded {key start stop children} (hkey : model.combines key = true)
    (huser : model.userRules.containsValue key = false) (h : model.actionRules.keyOf? key = none) :
    Refused model (.node key start stop children) (.unrecordedRule key)

/-- What can stop lowering on its own account: a node in the tree that it refuses, or a tree deeper than the
limit. -/
inductive Stops (model : Model) (depth : Nat) (tree : ParseTree) : Fault → Prop
  | refused {t b} (ht : t ∈ tree.subtrees) (h : t.Refused model b) : Stops model depth tree (.breach b)
  | tooDeep (h : tree.within depth = false) : Stops model depth tree .tooDeep

theorem Stops.of_child {model : Model} {depth : Nat} {key : RuleKey} {start stop : Int}
    {children : List ParseTree} {child : ParseTree} (hmem : child ∈ children) {f : Fault}
    (h : child.Stops model depth f) : Stops model (depth + 1) (.node key start stop children) f := by
  cases h with
  | refused ht h => exact .refused (List.mem_cons_of_mem _ (Lowering.subtrees_of_child hmem _ ht)) h
  | tooDeep h => exact .tooDeep (not_within_of_child hmem h)

theorem actionsAll_semantic (model : Model) : ∀ children,
    actionsAll model (semantic children) = actionsAll model children
  | [] => rfl
  | .leaf _ _ :: rest => actionsAll_semantic model rest
  | .node key start stop inner :: rest => by
    show actions model (.node key start stop inner) ++ actionsAll model (semantic rest) = _
    rw [actionsAll_semantic model rest, actionsAll]

end ParseTree

namespace Lowering
open Keeping
variable {l : Lowering} {source : Source} {α β : Type}

/-! ### Calls in order -/

/-- The call is the node's: its arguments are the values of the nodes right below, in order. -/
structure CallOf (l : Lowering) (source : Source) (node : Method × List ParseTree)
    (call : Method × List Value) : Prop where
  method : call.1 = node.1
  args : List.Forall₂ (ParseTree.Denotes l source) node.2 call.2

/-- The node's call was made, and came back with a value. -/
structure Returned (l : Lowering) (source : Source) (node : Method × List ParseTree)
    (call : Method × List Value) : Prop extends CallOf l source node call where
  value : ∃ v, l.act call.1 call.2 = .ok v

/-- How lowering ends that is to make the calls of the nodes in turn, and the calls that it made. All of
them came back and there is a value; or one raised a fault, and was the last; or something between two calls
is to blame for a fault. -/
inductive Ending (l : Lowering) (source : Source) (nodes : List (Method × List ParseTree))
    (value : α → Prop) (blame : Fault → Prop) : Except Fault α → List (Method × List Value) → Prop
  | whole {a calls} (ha : value a) (h : List.Forall₂ (Returned l source) nodes calls) :
    Ending l source nodes value blame (.ok a) calls
  | raised {before node after calls call f} (hnodes : nodes = before ++ node :: after)
    (h : List.Forall₂ (Returned l source) before calls) (hcall : CallOf l source node call)
    (hf : l.act call.1 call.2 = .error f) :
    Ending l source nodes value blame (.error f) (calls ++ [call])
  | broken {before after calls f} (hnodes : nodes = before ++ after)
    (h : List.Forall₂ (Returned l source) before calls) (hf : blame f) :
    Ending l source nodes value blame (.error f) calls

/-- The computation makes the calls of the nodes in turn, and ends as it may. -/
def Performs (l : Lowering) (source : Source) (nodes : List (Method × List ParseTree))
    (value : α → Prop) (blame : Fault → Prop) (x : Deeds α) : Prop :=
  ∀ ⦃deeds result deeds'⦄, x deeds = (result, deeds') → ∃ calls,
    Deed.calls deeds' = calls.reverse ++ Deed.calls deeds ∧
      Ending l source nodes value blame result calls

section Endings
variable {nodes more : List (Method × List ParseTree)} {value : α → Prop} {value' : β → Prop}
  {blame blame' : Fault → Prop}

theorem Ending.mono {value' : α → Prop} {result : Except Fault α} {calls : List (Method × List Value)}
    (h : Ending l source nodes value blame result calls) (hvalue : ∀ a, value a → value' a)
    (hblame : ∀ f, blame f → blame' f) : Ending l source nodes value' blame' result calls := by
  cases h with
  | whole ha h => exact .whole (hvalue _ ha) h
  | raised hnodes h hcall hf => exact .raised hnodes h hcall hf
  | broken hnodes h hf => exact .broken hnodes h (hblame _ hf)

/-- What broke off before is not made up for by further nodes. -/
theorem Ending.of_error {f : Fault} {calls : List (Method × List Value)}
    (h : Ending l source nodes value blame (.error f) calls) (more : List (Method × List ParseTree)) :
    Ending l source (nodes ++ more) value' blame (.error f) calls := by
  cases h with
  | raised hnodes h hcall hf => exact .raised (by rw [hnodes, List.append_assoc]; rfl) h hcall hf
  | broken hnodes h hf => exact .broken (by rw [hnodes, List.append_assoc]) h hf

/-- All calls of the first nodes came back before those of the others. -/
theorem Ending.after {result : Except Fault β} {calls calls' : List (Method × List Value)}
    (hcalls : List.Forall₂ (Returned l source) nodes calls)
    (h : Ending l source more value' blame result calls') :
    Ending l source (nodes ++ more) value' blame result (calls ++ calls') := by
  cases h with
  | whole ha h => exact .whole ha (List.rel_append hcalls h)
  | raised hnodes h hcall hf =>
    rw [← List.append_assoc]
    exact .raised (by rw [hnodes, List.append_assoc]) (List.rel_append hcalls h) hcall hf
  | broken hnodes h hf =>
    exact .broken (by rw [hnodes, List.append_assoc]) (List.rel_append hcalls h) hf

theorem Performs.mono {value' : α → Prop} {x : Deeds α} (hx : Performs l source nodes value blame x)
    (hvalue : ∀ a, value a → value' a) (hblame : ∀ f, blame f → blame' f) :
    Performs l source nodes value' blame' x := by
  intro deeds result deeds' h
  obtain ⟨calls, hcalls, hending⟩ := hx h
  exact ⟨calls, hcalls, hending.mono hvalue hblame⟩

theorem performs_pure {a : α} (ha : value a) : Performs l source [] value blame (pure a) := by
  intro deeds result deeds' h
  cases h
  exact ⟨[], rfl, .whole ha .nil⟩

theorem performs_throw {f : Fault} (hf : blame f) :
    Performs l source nodes value blame (throw f : Deeds α) := by
  intro deeds result deeds' h
  cases h
  exact ⟨[], rfl, .broken (List.nil_append nodes).symm .nil hf⟩

theorem Performs.bind {x : Deeds α} {f : α → Deeds β} (hx : Performs l source nodes value blame x)
    (hf : ∀ a, value a → Performs l source more value' blame (f a)) :
    Performs l source (nodes ++ more) value' blame (x >>= f) := by
  intro deeds result deeds' h
  rcases hrun : x deeds with ⟨e | a, deeds₁⟩
  · rw [bind_of_error hrun] at h
    cases h
    obtain ⟨calls, hcalls, hending⟩ := hx hrun
    exact ⟨calls, hcalls, hending.of_error more⟩
  · rw [bind_of_ok hrun] at h
    obtain ⟨calls, hcalls, hending⟩ := hx hrun
    cases hending with
    | whole ha hall =>
      obtain ⟨calls', hcalls', hending'⟩ := hf a ha h
      refine ⟨calls ++ calls', ?_, hending'.after hall⟩
      rw [hcalls', hcalls, List.reverse_append, List.append_assoc]

/-- After the calls of the nodes there is nothing more to call. -/
theorem Performs.bind_pure {x : Deeds α} {f : α → β} (hx : Performs l source nodes value blame x)
    (hf : ∀ a, value a → value' (f a)) :
    Performs l source nodes value' blame (x >>= fun a => pure (f a)) := by
  have hboth := hx.bind fun a ha => performs_pure (l := l) (hf a ha)
  rwa [List.append_nil] at hboth

end Endings

/-! ### Lowering -/

section Nodes
variable {blame : Fault → Prop} {key : RuleKey} {start stop : Int} {children : List ParseTree}

theorem performs_cut {t : Token} {value : Value → Prop} (ht : value (.token t)) :
    Performs l source [] value blame (cut t) := by
  intro deeds result deeds' h
  cases h
  exact ⟨[], rfl, .whole ht .nil⟩

theorem performs_call {node : Method × List ParseTree} {method : Method} {args : List Value}
    {value : Value → Prop} (h : CallOf l source node (method, args))
    (hvalue : ∀ v, l.act method args = .ok v → value v) :
    Performs l source [node] value blame (l.call method args) := by
  intro deeds result deeds' hrun
  unfold call at hrun
  rw [bind_of_ok (show (modify (.called method args :: ·) : Deeds Unit) deeds =
    (.ok (), .called method args :: deeds) from rfl)] at hrun
  cases hact : l.act method args with
  | ok v =>
    rw [hact] at hrun
    cases hrun
    exact ⟨[(method, args)], rfl, .whole (hvalue v hact) (.cons ⟨h, v, hact⟩ .nil)⟩
  | error f =>
    rw [hact] at hrun
    cases hrun
    exact ⟨[(method, args)], rfl, .raised (List.nil_append [node]).symm .nil h hact⟩

theorem performs_each {visit : ParseTree → Deeds Value} : ∀ {trees : List ParseTree},
    (∀ t ∈ trees, Performs l source (t.actions l.model) (t.Denotes l source) blame (visit t)) →
    Performs l source (ParseTree.actionsAll l.model trees)
      (List.Forall₂ (ParseTree.Denotes l source) trees) blame (each visit trees)
  | [], _ => performs_pure .nil
  | t :: _, h =>
    (h t (List.mem_cons_self ..)).bind fun _ hv =>
      (performs_each fun t ht => h t (List.mem_cons_of_mem _ ht)).bind_pure fun _ hvs => .cons hv hvs

/-- The computation does what lowering a tree is to do: it makes the calls of its nodes and comes to its
value, or is stopped. -/
def Realizes (l : Lowering) (source : Source) (depth : Nat) (tree : ParseTree) (x : Deeds Value) : Prop :=
  Performs l source (tree.actions l.model) (tree.Denotes l source) (tree.Stops l.model depth) x

theorem actions_of_token (hkey : l.model.isToken key = true) :
    ParseTree.actions l.model (.node key start stop children) = [] := by
  rw [ParseTree.actions, if_pos hkey]

theorem actions_of_no_token (hkey : l.model.isToken key = false) :
    ParseTree.actions l.model (.node key start stop children) =
      ParseTree.actionsAll l.model children ++
        ((l.model.action? key).map fun method => (method, ParseTree.semantic children)).toList := by
  rw [ParseTree.actions, if_neg (by simp [hkey])]

/-- A builder call's node has no call of its own. -/
theorem actions_of_builder (hkey : l.model.isToken key = false) (hcombines : l.model.combines key = false) :
    ParseTree.actions l.model (.node key start stop children) =
      ParseTree.actionsAll l.model children := by
  have haction : l.model.action? key = none := by simp [Model.action?, hcombines]
  rw [actions_of_no_token hkey, haction]
  exact List.append_nil _

theorem realizes_lexeme {depth : Nat} (hkey : l.model.isToken key = true) :
    Realizes l source depth (.node key start stop children) (cut (lexeme source start stop children)) := by
  unfold Realizes
  rw [actions_of_token hkey]
  exact performs_cut (.lexeme hkey)

/-- Putting the values together takes the call of the node, if a factory method makes its value. -/
theorem performs_combine {values : List Value} {depth : Nat} (hkey : l.model.combines key = true)
    (hvalues : List.Forall₂ (ParseTree.Denotes l source) (ParseTree.semantic children) values) :
    Performs l source
      ((l.model.action? key).map fun method => (method, ParseTree.semantic children)).toList
      (ParseTree.Denotes l source (.node key start stop children))
      (ParseTree.Stops l.model depth (.node key start stop children)) (l.combine key values) := by
  have hself : ParseTree.node key start stop children ∈
      (ParseTree.node key start stop children).subtrees := by simp [ParseTree.subtrees]
  unfold combine
  cases huser : l.model.userRules.containsValue key with
  | true =>
    have haction : l.model.action? key = none := by simp [Model.action?, huser]
    rw [haction, if_pos rfl]
    by_cases hone : values.length = 1
    · obtain ⟨v, rfl⟩ := List.length_eq_one_iff.mp hone
      exact performs_pure (.rule hkey huser hvalues)
    · have hlen := hvalues.length_eq
      have hstops : ParseTree.Stops l.model depth (.node key start stop children)
          (.breach (.ruleValues key values.length)) :=
        hlen ▸ .refused hself (.rule hkey huser (by omega))
      split
      · exact absurd rfl hone
      · exact performs_throw hstops
  | false =>
    have haction : l.model.action? key = l.model.actionRules.keyOf? key := by
      simp [Model.action?, huser, hkey]
    rw [haction, if_neg Bool.false_ne_true]
    cases hmethod : l.model.actionRules.keyOf? key with
    | none => exact performs_throw (.refused hself (.unrecorded hkey huser hmethod))
    | some method =>
      exact performs_call ⟨rfl, hvalues⟩ fun v hv => .action (haction.trans hmethod) hvalues hv

section Children
variable {depth : Nat} {visit : ParseTree → Deeds Value}
  (hvisit : ∀ child ∈ children, Realizes l source depth child (visit child))
include hvisit

theorem realizes_combine (hkey : l.model.isToken key = false) (hcombines : l.model.combines key = true) :
    Realizes l source (depth + 1) (.node key start stop children)
      (each visit (ParseTree.semantic children) >>= l.combine key) := by
  unfold Realizes
  rw [actions_of_no_token hkey, ← ParseTree.actionsAll_semantic]
  refine (performs_each fun t ht => ?_).bind fun vs hvs => performs_combine hcombines hvs
  have hmem := List.mem_of_mem_filter ht
  exact (hvisit t hmem).mono (fun _ => id) fun _ => .of_child hmem

theorem realizes_list (hkind : l.model.kinds.get? key = some .oneOrMore ∨
      l.model.kinds.get? key = some .zeroOrMore) (hkey : l.model.isToken key = false)
    (hcombines : l.model.combines key = false) :
    Realizes l source (depth + 1) (.node key start stop children)
      (each visit children >>= fun vs => return Value.list vs) := by
  unfold Realizes
  rw [actions_of_builder hkey hcombines]
  refine (performs_each fun t ht => ?_).bind_pure fun vs hvs => .list hkind hvs
  exact (hvisit t ht).mono (fun _ => id) fun _ => .of_child ht

end Children

theorem realizes_present {depth : Nat} {child : ParseTree} {x : Deeds Value}
    (hchild : Realizes l source depth child x) (hkind : l.model.kinds.get? key = some .optional) :
    Realizes l source (depth + 1) (.node key start stop [child]) x := by
  have hactions : ParseTree.actions l.model (.node key start stop [child]) = child.actions l.model := by
    rw [actions_of_builder (Model.isToken_of_kind hkind) (by rw [Model.combines, hkind]),
      ParseTree.actionsAll, ParseTree.actionsAll, List.append_nil]
  unfold Realizes
  rw [hactions]
  exact hchild.mono (fun _ => .present hkind) fun _ => .of_child (List.mem_singleton_self child)

theorem realizes_absent {depth : Nat} (hkind : l.model.kinds.get? key = some .optional) :
    Realizes l source depth (.node key start stop []) (return .absent) := by
  unfold Realizes
  rw [actions_of_builder (Model.isToken_of_kind hkind) (by rw [Model.combines, hkind])]
  exact performs_pure (.absent hkind)

theorem realizes_refused {depth : Nat} {b : Breach}
    (h : ParseTree.Refused l.model (.node key start stop children) b) :
    Realizes l source depth (.node key start stop children) (throw (.breach b)) :=
  performs_throw (.refused (by simp [ParseTree.subtrees]) h)

/-- Lowering a tree makes the calls of its nodes in turn, and comes to its value. -/
theorem realizes_lower : ∀ (depth : Nat) (tree : ParseTree),
    Realizes l source depth tree (l.lower source depth tree)
  | 0, _ => performs_throw (.tooDeep rfl)
  | depth + 1, .leaf start stop => performs_cut (.leaf start stop)
  | depth + 1, .node key start stop children => by
    have hvisit : ∀ child ∈ children, Realizes l source depth child (l.lower source depth child) :=
      fun child _ => realizes_lower depth child
    rw [lower_node]
    cases hkind : l.model.kinds.get? key with
    | none =>
      exact realizes_combine hvisit (by rw [Model.isToken, hkind]; rfl) (by rw [Model.combines, hkind])
    | some kind =>
      have hkey := Model.isToken_of_kind hkind
      cases kind with
      | token => exact realizes_lexeme hkey
      | pattern => exact realizes_lexeme hkey
      | optional =>
        match children with
        | [] => exact realizes_absent hkind
        | [child] => exact realizes_present (hvisit child (List.mem_singleton_self child)) hkind
        | _ :: _ :: _ => exact realizes_refused (.optional hkind (by simp))
      | oneOrMore => exact realizes_list hvisit (.inl hkind) hkey (by rw [Model.combines, hkind])
      | zeroOrMore => exact realizes_list hvisit (.inr hkind) hkey (by rw [Model.combines, hkind])
      | other name => exact realizes_combine hvisit hkey (by rw [Model.combines, hkind])

end Nodes

/-- Of a tree whose nodes have the children that lowering asks of them no node is refused. -/
theorem TreeFits.not_refused {takes : Method → Nat → Prop} {tree : ParseTree} {depth : Nat} {b : Breach}
    (h : l.TreeFits takes tree) : ¬ tree.Stops l.model depth (.breach b) := by
  rintro ⟨ht, hrefused⟩
  cases hrefused with
  | optional hkey hcount =>
    have hle := (h _ _ _ _ ht).optional hkey
    omega
  | rule hkey huser hcount => exact hcount ((h _ _ _ _ ht).user huser).2
  | @unrecorded key start stop children hkey huser hnone =>
    have hfits := h _ _ _ _ ht
    cases hkind : l.model.kinds.get? key with
    | none =>
      obtain ⟨m, hm, -⟩ := hfits.action hkind huser
      rw [hnone] at hm
      cases hm
    | some kind =>
      rw [Model.combines, hkind] at hkey
      cases kind with
      | other name => exact hfits.kinds name hkind
      | _ => cases hkey

end Lowering

/-! ### Parsers -/

/-- Does the fault say that a text was not matched, or only in part? -/
def Fault.isMiss : Fault → Bool
  | .unmatched .. | .incomplete .. => true
  | _ => false

namespace Parser
open Reading
variable {parser : Parser} {depth : Nat} {source : Source}

section Library
variable [PatternLibrary]

/-- The tree is accepted for the whole source. -/
def Accepts (parser : Parser) (depth : Nat) (source : Source) (root : ParseTree) : Prop :=
  parser.program.runWithin depth source = .ok (.matched root source.length)

/-- An accepted tree is followed, and nothing else is. -/
theorem ending_of_accepts {root : ParseTree} (h : parser.Accepts depth source root) :
    parser.lowering.Ending source (root.actions parser.model) (root.Denotes parser.lowering source)
      (root.Stops parser.model depth) (parser.parseWithin depth source).1
      (Deed.calls (parser.parseWithin depth source).2) := by
  rw [parseWithin_of_matched h, Lowering.createWithin]
  rcases hlower : parser.lowering.lower source depth root [] with ⟨result, deeds⟩
  obtain ⟨calls, hcalls, hending⟩ := Lowering.realizes_lower depth root hlower
  have hforward : Deed.calls deeds.reverse = calls := by
    unfold Deed.calls at hcalls ⊢
    rw [List.filterMap_reverse, hcalls, List.filterMap_nil, List.append_nil, List.reverse_reverse]
  show parser.lowering.Ending source _ _ _ result (Deed.calls deeds.reverse)
  rw [hforward]
  exact hending

/-- Where no tree is accepted nothing is done. -/
theorem idle_of_not_accepts (h : ∀ root, ¬ parser.Accepts depth source root) :
    (parser.parseWithin depth source).2 = [] ∧ ∃ f, (parser.parseWithin depth source).1 = .error f := by
  unfold parseWithin
  cases hrun : parser.program.runWithin depth source with
  | error f => exact ⟨rfl, f, rfl⟩
  | ok outcome =>
    cases outcome with
    | failed index report => exact ⟨rfl, _, rfl⟩
    | matched root consumed =>
      by_cases hall : consumed = source.length
      · rw [hall] at hrun
        exact absurd hrun (h root)
      · dsimp only [finish]
        rw [if_pos hall]
        exact ⟨rfl, _, rfl⟩

theorem not_refused_of_build {parts : Parts} {method : Method} (hpush : parts.stage.PushesNothing)
    (hkeys : parts.stage.GivesOwnKeys) (hregistry : parts.registry = {})
    (hroot : rootMethod? parts.grammar parts.root = some method) (hbuild : (build parts).1 = .ok parser)
    {root : ParseTree} (h : parser.Accepts depth source root) (b : Breach) :
    ¬ root.Stops parser.model depth (.breach b) := by
  obtain ⟨r, key, hb⟩ := built_of_build hbuild
  exact (treeFits_of_run hb (shaped_of_built hb hpush hkeys hregistry) hroot h).not_refused

/-- A miss is no fault of lowering, so where a tree was accepted a factory method raised it. -/
theorem raised_of_miss {root : ParseTree} {f : Fault} {deeds : List Deed}
    (hroot : parser.Accepts depth source root)
    (h : parser.parseWithin depth source = (.error f, deeds)) (hf : f.isMiss = true) :
    parser.RaisedLast deeds f := by
  rw [parseWithin_of_matched hroot] at h
  refine raisedLast_of_createWithin ?_ ?_ h
  · rintro rfl; cases hf
  · rintro b rfl; cases hf

/-- The factory's calls follow the accepted tree. Where no tree is accepted for the whole text nothing is
called; so a parse that ends because the text is not matched, or only in part, has called nothing, unless a
factory method said so itself. For an accepted tree the calls are those of its actions' nodes, each after
those inside it and from left to right, one for each node and with the values of the nodes right below. If
one raises, it is the last, and what it raised is the outcome. Nothing else breaks the calls off but a tree
deeper than the limit, and a node that lowering refuses; and there is none if the bodies of the grammar push
nothing by hand. A parser only renames one outcome, that the limit was passed, also if a call said so. -/
theorem calls_follow_tree (parser : Parser) (depth : Nat) (source : Source)
    (outcome : Except Fault Value) (deeds : List Deed)
    (h : parser.parseWithin depth source = (outcome, deeds)) :
    ((∀ root, ¬ parser.Accepts depth source root) → deeds = [] ∧ ∃ f, outcome = .error f) ∧
    (∀ f, outcome = .error f → f.isMiss = true →
      parser.UnlessRaised deeds f (∀ root, ¬ parser.Accepts depth source root)) ∧
    (∀ root, parser.Accepts depth source root →
      parser.lowering.Ending source (root.actions parser.model) (root.Denotes parser.lowering source)
        (root.Stops parser.model depth) outcome (Deed.calls deeds)) ∧
    (∀ parts method root, parts.stage.PushesNothing → parts.stage.GivesOwnKeys → parts.registry = {} →
      rootMethod? parts.grammar parts.root = some method → (build parts).1 = .ok parser →
      parser.Accepts depth source root → ∀ b, ¬ root.Stops parser.model depth (.breach b)) ∧
    (depth = nestingLimit → parser.parseSource source = capped outcome) := by
  have hidle : (∀ root, ¬ parser.Accepts depth source root) → deeds = [] ∧ ∃ f, outcome = .error f := by
    have hnone := @idle_of_not_accepts parser depth source _
    rwa [h] at hnone
  have hending : ∀ root, parser.Accepts depth source root →
      parser.lowering.Ending source (root.actions parser.model) (root.Denotes parser.lowering source)
        (root.Stops parser.model depth) outcome (Deed.calls deeds) := by
    intro root hroot
    have hall := ending_of_accepts hroot
    rwa [h] at hall
  refine ⟨hidle, fun f hf hmiss => ?_, hending, ?_, ?_⟩
  · by_cases haccepts : ∃ root, parser.Accepts depth source root
    · obtain ⟨root, hroot⟩ := haccepts
      exact .inr (raised_of_miss hroot (hf ▸ h) hmiss)
    · have hnone : ∀ root, ¬ parser.Accepts depth source root := fun root hroot => haccepts ⟨root, hroot⟩
      exact .inl ⟨(hidle hnone).1, hnone⟩
  · intro parts method root hpush hkeys hregistry hroot hbuild haccepts
    exact not_refused_of_build hpush hkeys hregistry hroot hbuild haccepts
  · rintro rfl
    rw [parseSource, h]

end Library

theorem calls_follow_tree_nested : ∃ parser depth deeds root, (build nested).1 = .ok parser ∧
    parser.parseWithin depth (.ofString "(ab (c) )") =
      (.ok (.list [.text "ab", .list [.text "c"]]), deeds) ∧
    parser.Accepts depth (.ofString "(ab (c) )") root ∧
    List.Forall₂ (parser.lowering.Returned (.ofString "(ab (c) )")) (root.actions parser.model)
      (Deed.calls deeds) := by
  obtain ⟨parser, hbuild⟩ := nested_builds
  have hread : read nested 12 (.ofString "(ab (c) )") =
      some (some (9, .ok (.list [.text "ab", .list [.text "c"]]))) := by with_unfolding_all rfl
  obtain ⟨⟨depth, hdepth⟩, -⟩ := agrees_of_meets (meets_of_read nested_declarative hbuild hread)
  have hvalue : (parser.parseWithin depth (.ofString "(ab (c) )")).1 =
      .ok (.list [.text "ab", .list [.text "c"]]) := hdepth depth (Nat.le_refl _)
  obtain ⟨root, hroot⟩ := matched_of_parseWithin hvalue
  have hparse : parser.parseWithin depth (.ofString "(ab (c) )") =
      (.ok (.list [.text "ab", .list [.text "c"]]), _) := Prod.ext hvalue rfl
  obtain ⟨-, -, hending, -⟩ := calls_follow_tree parser depth _ _ _ hparse
  refine ⟨parser, depth, _, root, hbuild, hparse, hroot, ?_⟩
  cases hending root hroot with
  | whole _ hcalls => exact hcalls

/-! ### Where the calls end otherwise -/

/-- A shallow grammar's derivation of the whole source is accepted with every depth from its bound on. -/
theorem accepts_of_yields [PatternLibrary] {root : ParseTree} {steps : List Packrat.Step} {n : Nat}
    (hm : Packrat.Yields parser.program.grammar parser.program.patterns source.chars
      (.call parser.program.start) 0 (.ofTree (some root)) steps)
    (hstop : root.stop = source.length) (hn : parser.within n = true) (hd : n ≤ depth) :
    parser.Accepts depth source root := by
  obtain ⟨r, hparse⟩ := verdict_of_within hm hn hd
  have hrun := Program.runWithin_matched hparse rfl
  rwa [show (r.verdict 0 (some root)).stop = source.length from hstop] at hrun

namespace Pairing

/-- A rule whose action goes past the nesting limit, and a rule that pushes two of it by hand as one
optional part. -/
def parts (root : RootChoice) : Parts where
  grammar :=
    [{ name := "PairGrammar", bases := ["GrammarBase"],
       members := ⟨[
        ("pair", .method [.rule none [.wrap .optional
          [.push (.ok (.seq [.call (.given "L" "L"), .call (.given "L" "L")]))]]]),
        ("left", .method [.rule (some (.given "L" "L")) [.action "make" []]])]⟩ },
      grammarBase, ClassDecl.top]
  factory :=
    [{ name := "PairFactory", bases := ["object"],
       members := ⟨[("make", .method ⟨.required [], Behaviour.overrun⟩)]⟩ },
      ClassDecl.top]
  self := { className := "PairFactory" }
  root := root

def pair : RuleKey := ⟨.minted 0, "pair", none⟩
def part : RuleKey := ⟨.minted 1, "optional(L L)", none⟩
def make : RuleKey := ⟨.minted 2, "f.make()", none⟩
def left : RuleKey := .given "L" "L"

/-- What recording them learns about the rules. -/
def model : Model where
  userRules := ⟨⟨[(⟨"PairGrammar.pair"⟩, pair), (⟨"PairGrammar.left"⟩, left)]⟩,
    ⟨[(pair, ⟨"PairGrammar.pair"⟩), (left, ⟨"PairGrammar.left"⟩)]⟩⟩
  actionRules := ⟨⟨[(⟨"PairFactory.make"⟩, make)]⟩, ⟨[(make, ⟨"PairFactory.make"⟩)]⟩⟩
  kinds := ⟨[(part, .optional)]⟩

/-- The rules that they are recorded as. -/
def rules : List (RuleKey × Expr) :=
  [(part, .rep .optional (.seq [.call left, .call left])), (pair, .call part), (make, .seq []),
    (left, .call make)]

/-- Are these the rules? -/
def areRules : List (RuleKey × Expr) → Bool
  | [(k₁, .rep .optional (.seq [.call k₂, .call k₃])), (k₄, .call k₅), (k₆, .seq []), (k₇, .call k₈)] =>
    [k₁, k₂, k₃, k₄, k₅, k₆, k₇, k₈] = [part, left, left, pair, part, make, left, make]
  | _ => false

theorem eq_rules {entries : List (RuleKey × Expr)} (h : areRules entries = true) : entries = rules := by
  unfold areRules at h
  split at h
  · simp only [decide_eq_true_eq, List.cons.injEq, and_true] at h
    obtain ⟨rfl, rfl, rfl, rfl, rfl, rfl, rfl, rfl⟩ := h
    rfl
  · cases h

/-- The parser has these rules, starts from the given one, and calls the methods of the factory. -/
structure Made (parser : Parser) (root : RuleKey) : Prop where
  grammar : parser.program.grammar = ⟨⟨rules⟩, some root⟩
  lowering : parser.lowering = ⟨model, (parts .first).factory.call (parts .first).self⟩

/-- Has the parser these rules and what was learned about them, and does it start from the given one? -/
def isMade (root : RuleKey) (p : Parser) : Bool :=
  areRules p.program.grammar.rules.entries && p.program.grammar.root = some root && p.model = model

theorem exists_made {choice : RootChoice} {root : RuleKey}
    (h : (build (parts choice)).1.toOption.any (isMade root) = true) :
    ∃ parser, (build (parts choice)).1 = .ok parser ∧ Made parser root := by
  cases hbuild : (build (parts choice)).1 with
  | error f => rw [hbuild] at h; cases h
  | ok parser =>
    rw [hbuild] at h
    simp only [Except.toOption, Option.any_some, isMade, Bool.and_eq_true, decide_eq_true_eq] at h
    obtain ⟨⟨hrules, hroot⟩, hmodel⟩ := h
    refine ⟨parser, rfl, ?_, ?_⟩
    · rcases hgrammar : parser.program.grammar with ⟨⟨entries⟩, start⟩
      rw [hgrammar] at hrules hroot
      dsimp only at hrules hroot
      rw [eq_rules hrules, hroot]
    · obtain ⟨r, key, hb⟩ := built_of_build hbuild
      have hrecorded : r.model = model := (congrArg Lowering.model hb.lowering).symm.trans hmodel
      rw [hb.lowering, loweringOf, hrecorded]
      rfl

/-- The match of nothing by the rule with the action. -/
def leftTree : ParseTree := .node left 0 0 [.node make 0 0 []]

/-- The match of nothing by the other rule. -/
def pairTree : ParseTree := .node pair 0 0 [.node part 0 0 [leftTree, leftTree]]

section Made
variable {parser : Parser} {root : RuleKey}

theorem Made.start (h : Made parser root) : parser.program.start = root := by
  rw [Program.start, h.grammar]
  rfl

theorem Made.within (h : Made parser root) (n : Nat) :
    parser.within n = (Expr.call root).within ⟨⟨rules⟩, some root⟩ n := by
  rw [Parser.within, h.start, h.grammar]

theorem Made.left_yields (h : Made parser root) :
    Packrat.Yields parser.program.grammar parser.program.patterns (Source.ofString "").chars (.call left) 0
      (some (0, [leftTree])) [.opened left 0, .opened make 0] := by
  rw [h.grammar]
  exact .rule rfl (.rule rfl .seqNil)

theorem Made.pair_yields (h : Made parser root) :
    Packrat.Yields parser.program.grammar parser.program.patterns (Source.ofString "").chars (.call pair) 0
      (some (0, [pairTree])) ([.opened pair 0, .opened part 0] ++ [.opened left 0, .opened make 0] ++
        [.opened left 0, .opened make 0]) := by
  have hleft := h.left_yields
  rw [h.grammar] at hleft ⊢
  exact .rule rfl (.rule rfl (.optionalHit (.seqHit hleft (.seqHit hleft .seqNil))))

theorem Made.left_accepts (h : Made parser left) :
    parser.Accepts nestingLimit (.ofString "") leftTree := by
  refine accepts_of_yields (n := 4) (h.start ▸ h.left_yields) rfl ?_ (by decide)
  rw [h.within]
  decide +kernel

theorem Made.pair_accepts (h : Made parser pair) :
    parser.Accepts nestingLimit (.ofString "") pairTree := by
  refine accepts_of_yields (n := 8) (h.start ▸ h.pair_yields) rfl ?_ (by decide)
  rw [h.within]
  decide +kernel

theorem Made.left_parse (h : Made parser left) :
    parser.parseWithin nestingLimit (.ofString "") =
      (.error .tooDeep, [.called ⟨"PairFactory.make"⟩ []]) := by
  rw [parseWithin_of_matched h.left_accepts, h.lowering]
  with_unfolding_all rfl

theorem Made.pair_parse (h : Made parser pair) :
    parser.parseWithin nestingLimit (.ofString "") =
      (.error (.breach (.optionalChildren part 2)), []) := by
  rw [parseWithin_of_matched h.pair_accepts, h.lowering]
  with_unfolding_all rfl

end Made
end Pairing

/-- What a call raises need not be the outcome, and an accepted tree need not be followed to its end though
no call raises. Going past the nesting limit in a call comes out in the words of the parser; and of an
optional part with two nodes in it none is called. -/
theorem calls_stop_short :
    (∃ parser, (build (Pairing.parts (.named "left"))).1 = .ok parser ∧
      Deed.calls (parser.parseWithin nestingLimit (.ofString "")).2 = [(⟨"PairFactory.make"⟩, [])] ∧
      parser.lowering.act ⟨"PairFactory.make"⟩ [] = .error .tooDeep ∧
      parser.parseText "" = .error (.nestingTooDeep nestingLimit)) ∧
    ∃ parser root, (build (Pairing.parts .first)).1 = .ok parser ∧
      parser.Accepts nestingLimit (.ofString "") root ∧
      (root.actions parser.model).map Prod.fst = [⟨"PairFactory.make"⟩, ⟨"PairFactory.make"⟩] ∧
      Deed.calls (parser.parseWithin nestingLimit (.ofString "")).2 = [] ∧
      parser.parseText "" = .error (.breach (.optionalChildren Pairing.part 2)) := by
  constructor
  · obtain ⟨parser, hbuild, h⟩ : ∃ parser, (build (Pairing.parts (.named "left"))).1 = .ok parser ∧
        Pairing.Made parser Pairing.left := Pairing.exists_made (by decide +kernel)
    refine ⟨parser, hbuild, ?_, ?_, ?_⟩
    · rw [h.left_parse]
      rfl
    · rw [h.lowering]
      with_unfolding_all rfl
    · rw [parseText, parseSource, h.left_parse]
      rfl
  · obtain ⟨parser, hbuild, h⟩ : ∃ parser, (build (Pairing.parts .first)).1 = .ok parser ∧
        Pairing.Made parser Pairing.pair := Pairing.exists_made (by decide +kernel)
    refine ⟨parser, Pairing.pairTree, hbuild, h.pair_accepts, ?_, ?_, ?_⟩
    · rw [show parser.model = Pairing.model from congrArg Lowering.model h.lowering]
      rfl
    · rw [h.pair_parse]
      rfl
    · rw [parseText, parseSource, h.pair_parse]
      rfl

end Parser
end PegScribe
