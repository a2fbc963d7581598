import PegScribe.Lowering
import PegScribe.Proofs.Keeping

/-!
Deeds: what lowering does on its way, and what can break it off.

Deeds are only ever added, and a fault comes from the nesting limit, from a breach, or from a factory
method whose call is the last deed.
-/
namespace PegScribe.Lowering
open Keeping
variable {l : Lowering} {source : Source}

/-- Why lowering broke off after the given deeds, the latest first. -/
inductive BrokenBy (l : Lowering) (deeds : List Deed) : Fault → Prop
  | depth : BrokenBy l deeds .tooDeep
  | breach (b : Breach) : BrokenBy l deeds (.breach b)
  | factory {method : Method} {args : List Value} {f : Fault}
    (hlast : deeds.head? = some (.called method args)) (h : l.act method args = .error f) :
    BrokenBy l deeds f

theorem call_error {method : Method} {args : List Value} {deeds deeds' : List Deed} {f : Fault}
    (h : l.call method args deeds = (.error f, deeds')) : BrokenBy l deeds' f := by
  unfold call at h
  rw [bind_of_ok (show (modify (.called method args :: ·) : Deeds Unit) deeds =
    (.ok (), .called method args :: deeds) from rfl)] at h
  cases hact : l.act method args with
  | ok v => rw [hact] at h; cases h
  | error f' => rw [hact] at h; cases h; exact .factory rfl hact

theorem combine_error {key : RuleKey} {values : List Value} {deeds deeds' : List Deed} {f : Fault}
    (h : l.combine key values deeds = (.error f, deeds')) : BrokenBy l deeds' f := by
  unfold combine at h
  cases huser : l.model.userRules.containsValue key with
  | true =>
    rw [huser, if_pos rfl] at h
    match values with
    | [] => cases h; exact .breach _
    | [v] => cases h
    | _ :: _ :: _ => cases h; exact .breach _
  | false =>
    rw [huser, if_neg (by simp)] at h
    cases haction : l.model.actionRules.keyOf? key with
    | none => rw [haction] at h; cases h; exact .breach _
    | some method => rw [haction] at h; exact call_error h

theorem each_error {visit : ParseTree → Deeds Value}
    (hvisit : ∀ {t deeds f deeds'}, visit t deeds = (.error f, deeds') → BrokenBy l deeds' f) :
    ∀ {ts deeds f deeds'}, each visit ts deeds = (.error f, deeds') → BrokenBy l deeds' f
  | [], deeds, f, deeds', h => by cases h
  | t :: rest, deeds, f, deeds', h => by
    rcases bind_eq_error.mp h with h | ⟨v, s₁, -, h⟩
    · exact hvisit h
    · rcases bind_eq_error.mp h with h | ⟨vs, s₂, -, h⟩
      · exact each_error hvisit h
      · cases h

/-- The value of a node, by the kind of its rule. -/
theorem lower_node (d : Nat) (key : RuleKey) (start stop : Int) (children : List ParseTree) :
    l.lower source (d + 1) (.node key start stop children) =
      match l.model.kinds.get? key with
      | some .token | some .pattern => cut (lexeme source start stop children)
      | some .optional =>
        match children with
        | [] => return .absent
        | [child] => l.lower source d child
        | cs => throw (.breach (.optionalChildren key cs.length))
      | some .oneOrMore | some .zeroOrMore => do
        return .list (← each (l.lower source d) children)
      | _ => each (l.lower source d) (children.filter (!·.isLeaf)) >>= l.combine key := rfl

theorem lower_error : ∀ {d : Nat} {tree : ParseTree} {deeds deeds' : List Deed} {f : Fault},
    l.lower source d tree deeds = (.error f, deeds') → BrokenBy l deeds' f
  | 0, tree, deeds, deeds', f, h => by cases h; exact .depth
  | d + 1, .leaf start stop, deeds, deeds', f, h => by cases h
  | d + 1, .node key start stop children, deeds, deeds', f, h => by
    have ih : ∀ {t deeds f deeds'}, l.lower source d t deeds = (.error f, deeds') →
      BrokenBy l deeds' f := lower_error
    have hrest : (each (l.lower source d) (children.filter (!·.isLeaf)) >>= l.combine key) deeds =
        (.error f, deeds') → BrokenBy l deeds' f := by
      intro h
      rcases bind_eq_error.mp h with h | ⟨vs, s₁, -, h⟩
      · exact each_error ih h
      · exact combine_error h
    have hlist : (each (l.lower source d) children >>= fun vs => return Value.list vs) deeds =
        (.error f, deeds') → BrokenBy l deeds' f := by
      intro h
      rcases bind_eq_error.mp h with h | ⟨vs, s₁, -, h⟩
      · exact each_error ih h
      · cases h
    rw [lower_node] at h
    cases hkind : l.model.kinds.get? key with
    | none => rw [hkind] at h; exact hrest h
    | some kind =>
      rw [hkind] at h
      cases kind with
      | token => cases h
      | pattern => cases h
      | optional =>
        match children with
        | [] => cases h
        | [child] => exact ih h
        | _ :: _ :: _ => cases h; exact .breach _
      | oneOrMore => exact hlist h
      | zeroOrMore => exact hlist h
      | other name => exact hrest h

end PegScribe.Lowering
