import Mathlib.Data.List.Forall2
import PegScribe.Proofs.Deeds
import PegScribe.Proofs.Reading

/-!
Lowered trees: the value of a node by the kind of its rule, once there is depth enough.

`ParseTree.Lowers l source tree v` says that lowering the node `tree` comes to `v`, whatever has been
done before. With less depth lowering gives up, but never comes to anything else (`lower_or_tooDeep`).
-/
namespace PegScribe
open Keeping Reading

/-- The node comes to the value with depth enough, whatever has been done before. -/
structure ParseTree.Lowers (l : Lowering) (source : Source) (tree : ParseTree) (v : Deferred) :
    Prop where
  node : tree.isLeaf = false
  value : ∃ d₀, ∀ d ≥ d₀, ∀ deeds, (l.lower source d tree deeds).1 = v

namespace Lowering
variable {l : Lowering} {source : Source} {key : RuleKey} {start stop : Int}
  {trees : List ParseTree} {vs : List Deferred}

/-! ### Rows of trees -/

theorem fst_bind {α β : Type} (x : Deeds α) (f : α → Deeds β) (deeds : List Deed) :
    ((x >>= f) deeds).1 = match x deeds with
      | (.ok a, deeds') => (f a deeds').1
      | (.error e, _) => .error e := by
  rw [bind_run]
  rcases x deeds with ⟨e | a, deeds'⟩ <;> rfl

/-- The values of trees, with one depth for all of them. -/
theorem each_lowers (h : List.Forall₂ (ParseTree.Lowers l source) trees vs) :
    ∃ d₀, ∀ d ≥ d₀, ∀ deeds, (each (l.lower source d) trees deeds).1 = gather vs := by
  induction h with
  | nil => exact ⟨0, fun _ _ _ => rfl⟩
  | @cons tree v trees vs ht _ ih =>
    obtain ⟨d₁, hd₁⟩ := ht.value
    obtain ⟨d₂, hd₂⟩ := ih
    refine ⟨max d₁ d₂, fun d hd deeds => ?_⟩
    have hv := hd₁ d (by omega) deeds
    rw [each, fst_bind, gather]
    rcases hx : l.lower source d tree deeds with ⟨e | a, deeds'⟩
    · rw [hx] at hv; rw [← hv]; rfl
    · rw [hx] at hv; rw [← hv]
      have hvs := hd₂ d (by omega) deeds'
      show ((each (l.lower source d) trees >>= fun rest => return a :: rest) deeds').1 = _
      rw [fst_bind]
      rcases hy : each (l.lower source d) trees deeds' with ⟨e | rest, deeds''⟩
      · rw [hy] at hvs; rw [← hvs]; rfl
      · rw [hy] at hvs; rw [← hvs]; rfl

theorem filter_nodes (h : List.Forall₂ (ParseTree.Lowers l source) trees vs) :
    trees.filter (!·.isLeaf) = trees := by
  induction h with
  | nil => rfl
  | cons ht _ ih => rw [List.filter_cons_of_pos (by rw [ht.node]; rfl), ih]

/-! ### Nodes, by the kind of their rule -/

/-- A node that comes to `v` at every depth above `d₀`. -/
theorem lowers_of_succ {v : Deferred} (d₀ : Nat) (h : ∀ d ≥ d₀, ∀ deeds,
    (l.lower source (d + 1) (.node key start stop trees) deeds).1 = v) :
    ParseTree.Lowers l source (.node key start stop trees) v := by
  refine ⟨rfl, d₀ + 1, fun d hd deeds => ?_⟩
  obtain ⟨d, rfl⟩ : ∃ d', d = d' + 1 := ⟨d - 1, by omega⟩
  exact h d (by omega) deeds

theorem lowers_lexeme {kind : RuleKind} (hkind : l.model.kinds.get? key = some kind)
    (htoken : kind.isToken = true) {before after : ParseTree} {a b : Int} :
    ParseTree.Lowers l source (.node key start stop [before, .leaf a b, after])
      (.ok (.token (source.token a b))) := by
  refine lowers_of_succ 0 fun d _ deeds => ?_
  rw [lower_node, hkind]
  cases kind with
  | token => rfl
  | pattern => rfl
  | _ => cases htoken

theorem lowers_absent (hkind : l.model.kinds.get? key = some .optional) :
    ParseTree.Lowers l source (.node key start stop []) (.ok .absent) := by
  refine lowers_of_succ 0 fun d _ deeds => ?_
  rw [lower_node, hkind]
  rfl

theorem lowers_present (hkind : l.model.kinds.get? key = some .optional) {tree : ParseTree}
    {v : Deferred} (h : ParseTree.Lowers l source tree v) :
    ParseTree.Lowers l source (.node key start stop [tree]) v := by
  obtain ⟨d₀, hd₀⟩ := h.value
  refine lowers_of_succ d₀ fun d hd deeds => ?_
  rw [lower_node, hkind]
  exact hd₀ d hd deeds

theorem lowers_list (hkind : l.model.kinds.get? key = some .oneOrMore ∨
      l.model.kinds.get? key = some .zeroOrMore)
    (h : List.Forall₂ (ParseTree.Lowers l source) trees vs) :
    ParseTree.Lowers l source (.node key start stop trees) (listOf vs) := by
  obtain ⟨d₀, hd₀⟩ := each_lowers h
  refine lowers_of_succ d₀ fun d hd deeds => ?_
  have hvs := hd₀ d hd deeds
  have hlist : ((each (l.lower source d) trees >>= fun vs => return Value.list vs) deeds).1 =
      listOf vs := by
    rw [fst_bind, listOf]
    rcases hx : each (l.lower source d) trees deeds with ⟨e | a, deeds'⟩
    · rw [hx] at hvs; rw [← hvs]; rfl
    · rw [hx] at hvs; rw [← hvs]; rfl
  rw [lower_node]
  rcases hkind with hkind | hkind
  · rw [hkind]; exact hlist
  · rw [hkind]; exact hlist

/-- The node of a rule that no builder call made: its values are put together. -/
theorem lowers_combine {v : Deferred} (hkind : l.model.kinds.get? key = none)
    (h : List.Forall₂ (ParseTree.Lowers l source) trees vs)
    (hv : ∀ deeds, (match gather vs with
      | .ok values => (l.combine key values deeds).1
      | .error f => .error f) = v) :
    ParseTree.Lowers l source (.node key start stop trees) v := by
  obtain ⟨d₀, hd₀⟩ := each_lowers h
  refine lowers_of_succ d₀ fun d hd deeds => ?_
  have hvs := hd₀ d hd deeds
  rw [lower_node, hkind]
  show ((each (l.lower source d) (trees.filter (!·.isLeaf)) >>= l.combine key) deeds).1 = v
  rw [filter_nodes h, fst_bind]
  rcases hx : each (l.lower source d) trees deeds with ⟨e | a, deeds'⟩
  · rw [hx] at hvs; rw [← hv deeds, ← hvs]
  · rw [hx] at hvs; rw [← hv deeds', ← hvs]

theorem lowers_user {m : Method} (hkind : l.model.kinds.get? key = none)
    (huser : l.model.userRules.keyOf? key = some m) {tree : ParseTree} {v : Deferred}
    (h : ParseTree.Lowers l source tree v) :
    ParseTree.Lowers l source (.node key start stop [tree]) v := by
  refine lowers_combine hkind (.cons h .nil) fun deeds => ?_
  have hcontains : l.model.userRules.containsValue key = true := by
    unfold Bijection.containsValue Ledger.contains
    rw [show l.model.userRules.inverse.get? key = some m from huser]
    rfl
  cases v with
  | error f => rfl
  | ok v =>
    show (l.combine key [v] deeds).1 = .ok v
    unfold combine
    rw [if_pos hcontains]
    rfl

theorem lowers_action {m : Method} (hkind : l.model.kinds.get? key = none)
    (huser : l.model.userRules.keyOf? key = none)
    (haction : l.model.actionRules.keyOf? key = some m)
    (h : List.Forall₂ (ParseTree.Lowers l source) trees vs) :
    ParseTree.Lowers l source (.node key start stop trees) (gather vs >>= l.act m) := by
  refine lowers_combine hkind h fun deeds => ?_
  have hcontains : ¬ l.model.userRules.containsValue key = true := by
    unfold Bijection.containsValue Ledger.contains
    rw [show l.model.userRules.inverse.get? key = none from huser]
    exact Bool.false_ne_true
  cases hseq : gather vs with
  | error f => rfl
  | ok values =>
    show (l.combine key values deeds).1 = l.act m values
    unfold combine
    rw [if_neg hcontains, haction]
    show (l.call m values deeds).1 = l.act m values
    unfold call
    rw [bind_of_ok (show (modify (.called m values :: ·) : Deeds Unit) deeds =
      (.ok (), .called m values :: deeds) from rfl)]
    cases l.act m values <;> rfl

/-! ### Less depth -/

/-- Where `x` keeps within its limit, `y` comes to what `x` comes to. -/
def Extends {α : Type} (x y : Deeds α) : Prop :=
  ∀ deeds, (x deeds).1 = .error .tooDeep ∨ y deeds = x deeds

theorem Extends.refl {α : Type} (x : Deeds α) : Extends x x := fun _ => .inr rfl

theorem Extends.bind {α β : Type} {x y : Deeds α} {f f' : α → Deeds β} (hxy : Extends x y)
    (hf : ∀ a, Extends (f a) (f' a)) : Extends (x >>= f) (y >>= f') := by
  intro deeds
  rw [bind_run, bind_run]
  rcases hxy deeds with h | h
  · rcases hx : x deeds with ⟨e | a, deeds'⟩
    · rw [hx] at h; cases h; exact .inl rfl
    · rw [hx] at h; cases h
  · rw [h]
    rcases x deeds with ⟨e | a, deeds'⟩
    · exact .inr rfl
    · exact hf a deeds'

theorem each_extends {visit visit' : ParseTree → Deeds Value}
    (h : ∀ t, Extends (visit t) (visit' t)) : ∀ ts, Extends (each visit ts) (each visit' ts)
  | [] => Extends.refl _
  | t :: rest => (h t).bind fun _ => (each_extends h rest).bind fun _ => Extends.refl _

theorem lower_extends : ∀ {d d' : Nat}, d ≤ d' → ∀ tree,
    Extends (l.lower source d tree) (l.lower source d' tree)
  | 0, _, _, _ => fun _ => .inl rfl
  | d + 1, 0, h, _ => by omega
  | d + 1, d' + 1, h, .leaf a b => Extends.refl _
  | d + 1, d' + 1, h, .node key start stop trees => by
    have ih : ∀ t, Extends (l.lower source d t) (l.lower source d' t) := lower_extends (by omega)
    have hrest := (each_extends ih (trees.filter (!·.isLeaf))).bind fun vs =>
      Extends.refl (l.combine key vs)
    have hlist := (each_extends ih trees).bind fun vs => Extends.refl (return Value.list vs)
    rw [lower_node, lower_node]
    cases hkind : l.model.kinds.get? key with
    | none => exact hrest
    | some kind =>
      cases kind with
      | token => exact Extends.refl _
      | pattern => exact Extends.refl _
      | optional =>
        match trees with
        | [] => exact Extends.refl _
        | [child] => exact ih child
        | _ :: _ :: _ => exact Extends.refl _
      | oneOrMore => exact hlist
      | zeroOrMore => exact hlist
      | other name => exact hrest

/-- With any depth a node comes to its value, or the limit is passed. -/
theorem lower_or_tooDeep {tree : ParseTree} {v : Deferred} (h : tree.Lowers l source v) (d : Nat)
    (deeds : List Deed) :
    (l.lower source d tree deeds).1 = .error .tooDeep ∨ (l.lower source d tree deeds).1 = v := by
  obtain ⟨d₀, hd₀⟩ := h.value
  rcases lower_extends (Nat.le_max_left d d₀) tree deeds with hdeep | heq
  · exact .inl hdeep
  · exact .inr (heq ▸ hd₀ _ (Nat.le_max_right d d₀) deeds)

end Lowering
end PegScribe
