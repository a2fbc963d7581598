import PegScribe.Proofs.Shapes

/-!
Shifts: what is recorded after other rules have been recorded.

A recorder numbers the keys that it makes. What is recorded on top of other rules therefore differs from
the same thing recorded by itself in the numbers of its keys, which are shifted by the number of keys made
before. `Recorder.Over base r r'` says that `r'` holds what `base` holds and, shifted, what `r` holds.
-/
namespace PegScribe

/-! ### Keys and expressions -/

namespace RuleKey

/-- The n-th key that a recorder makes, shown by the given label. -/
def made (label : Except String String) (n : Nat) : RuleKey :=
  match label with
  | .ok s => { id := .minted n, label := s }
  | .error part => { id := .minted n, label := part, unshown := some part }

/-- The key that a recorder would have made in this one's place after `n` others. -/
def shift (n : Nat) (k : RuleKey) : RuleKey :=
  match k.id with
  | .minted i => { k with id := .minted (n + i) }
  | _ => k

variable {k k' : RuleKey} {n : Nat}

theorem made_id (label : Except String String) (n : Nat) : (made label n).id = .minted n := by
  cases label <;> rfl

theorem shift_made (label : Except String String) (n i : Nat) :
    (made label i).shift n = made label (n + i) := by
  cases label <;> rfl

/-- Keys that a grammar's author made stay as they are. -/
theorem shift_own (h : ∀ i, k.id ≠ .minted i) : k.shift n = k := by
  unfold shift
  split
  · rename_i i hid
    exact absurd hid (h i)
  · rfl

theorem format_shift (n : Nat) (k : RuleKey) : (k.shift n).format = k.format := by
  unfold shift
  split <;> rfl

theorem shift_injective (n : Nat) : Function.Injective (shift n) := by
  rintro ⟨id, label, unshown⟩ ⟨id', label', unshown'⟩ h
  cases id <;> cases id' <;> simp_all [shift]

/-- A key that its shift leaves to the author was the author's before. -/
theorem shift_of_own (h : ∀ i, (k.shift n).id ≠ .minted i) : k.shift n = k := by
  refine shift_own fun i hid => h (n + i) ?_
  unfold shift
  rw [hid]

/-- A shifted key is no key that was made before. -/
theorem own_of_shift_made (h : (k.shift n).Made n) : ∀ i, k.id ≠ .minted i := by
  intro i hid
  have hshift : (k.shift n).id = .minted (n + i) := by
    unfold shift
    rw [hid]
  exact absurd (h _ hshift) (by omega)

end RuleKey

namespace Expr

mutual

/-- The expression with its keys shifted. -/
def shift (n : Nat) : Expr → Expr
  | .call key => .call (key.shift n)
  | .rep how body => .rep how (shift n body)
  | .seq items => .seq (shiftAll n items)
  | .choice alts => .choice (shiftAll n alts)
  | e => e

/-- Each expression shifted. -/
def shiftAll (n : Nat) : List Expr → List Expr
  | [] => []
  | e :: rest => shift n e :: shiftAll n rest

end

theorem shiftAll_eq_map (n : Nat) (es : List Expr) : shiftAll n es = es.map (shift n) := by
  induction es with
  | nil => rfl
  | cons e rest ih => rw [shiftAll, ih, List.map_cons]

theorem isCompound_shift (n : Nat) (e : Expr) : (e.shift n).isCompound = e.isCompound := by
  cases e <;> simp [shift, isCompound, shiftAll_eq_map]

theorem parenthesize_shift (n : Nat) (e : Expr) (s : String) :
    parenthesize (e.shift n) s = parenthesize e s := by
  rw [parenthesize, parenthesize, isCompound_shift]

mutual

/-- A shifted expression is written as before. -/
theorem format_shift (n : Nat) : ∀ e : Expr, (e.shift n).format = e.format
  | .literal _ | .pattern _ | .late _ | .misfit .. | .foreign _ => rfl
  | .call key => by rw [shift, format, format, RuleKey.format_shift]
  | .rep how body => by rw [shift, format, format, format_shift n body]; simp only [parenthesize_shift]
  | .seq [] => rfl
  | .seq (e :: rest) => by
    have hatoms := formatAtoms_shift n (e :: rest)
    rw [shiftAll] at hatoms
    rw [shift, shiftAll, format, format, hatoms]
    all_goals nofun
  | .choice alts => by rw [shift, format, format, formatAll_shift n alts]

theorem formatAtoms_shift (n : Nat) : ∀ es : List Expr, formatAtoms (shiftAll n es) = formatAtoms es
  | [] => rfl
  | e :: rest => by
    rw [shiftAll, formatAtoms, formatAtoms, format_shift n e, formatAtoms_shift n rest]
    simp only [parenthesize_shift]

theorem formatAll_shift (n : Nat) : ∀ es : List Expr, formatAll (shiftAll n es) = formatAll es
  | [] => rfl
  | e :: rest => by rw [shiftAll, formatAll, formatAll, format_shift n e, formatAll_shift n rest]

end

end Expr

namespace Recorder

theorem shift_padded [PatternLibrary] {kind : RuleKind} {e : Expr} (h : Lexical kind e) (n : Nat) :
    (padded e).shift n = padded e := by
  cases h <;> rfl

theorem shift_operands (n : Nat) (es : List Expr) :
    (operands es).shift n = operands (es.map (Expr.shift n)) := by
  match es with
  | [] => rfl
  | [e] => rfl
  | e :: e' :: rest =>
    show Expr.seq (Expr.shiftAll n (e :: e' :: rest)) = _
    rw [Expr.shiftAll_eq_map]
    rfl

end Recorder

/-! ### Ledgers and bijections -/

namespace Ledger
variable {ν : Type} {move : RuleKey → RuleKey} {change : ν → ν} {base l l' : Ledger RuleKey ν}
  {k : RuleKey} {v : ν}

/-- The last ledger holds what the base holds and what the other one holds, moved and changed; the two do
not meet. -/
structure Over (move : RuleKey → RuleKey) (change : ν → ν) (base l l' : Ledger RuleKey ν) : Prop where
  own : ∀ k v, l.get? k = some v → l'.get? (move k) = some (change v)
  below : ∀ k v, base.get? k = some v → l'.get? k = some v
  apart : ∀ k v, l.get? k = some v → base.get? (move k) = none
  only : ∀ k w, l'.get? k = some w →
    base.get? k = some w ∨ ∃ k₀ v, k = move k₀ ∧ w = change v ∧ l.get? k₀ = some v

theorem over_empty (base : Ledger RuleKey ν) : Over move change base {} base :=
  ⟨nofun, fun _ _ => id, nofun, fun _ _ => .inl⟩

theorem Over.get?_iff (h : Over move change base l l') {w : ν} : l'.get? k = some w ↔
    base.get? k = some w ∨ ∃ k₀ v, l.get? k₀ = some v ∧ k = move k₀ ∧ w = change v := by
  constructor
  · intro hw
    exact (h.only k w hw).imp id fun ⟨k₀, v, hk, hchange, hv⟩ => ⟨k₀, v, hv, hk, hchange⟩
  · rintro (hw | ⟨k₀, v, hv, rfl, rfl⟩)
    · exact h.below k w hw
    · exact h.own k₀ v hv

theorem Over.insert (h : Over move change base l l') (hmove : Function.Injective move)
    (hnew : l'.get? (move k) = none) (v : ν) :
    Over move change base (l.insert k v) (l'.insert (move k) (change v)) where
  own := by
    intro j w hj
    rw [get?_insert] at hj ⊢
    split at hj
    · rename_i heq
      cases hj
      rw [if_pos (congrArg move heq)]
    · rename_i hne
      rw [if_neg fun heq => hne (hmove heq)]
      exact h.own j w hj
  below := fun j w hj => get?_insert_new hnew (h.below j w hj)
  apart := by
    intro j w hj
    rw [get?_insert] at hj
    split at hj
    · rename_i heq
      subst heq
      cases hk : base.get? (move k) with
      | none => rfl
      | some w => rw [h.below _ w hk] at hnew; cases hnew
    · exact h.apart j w hj
  only := by
    intro j w hj
    rw [get?_insert] at hj
    split at hj
    · rename_i heq
      cases hj
      exact .inr ⟨k, v, heq.symm, rfl, get?_insert_self ..⟩
    · rename_i hne
      rcases h.only j w hj with hbase | ⟨k₀, v₀, hk₀, hv₀, hget⟩
      · exact .inl hbase
      · refine .inr ⟨k₀, v₀, hk₀, hv₀, ?_⟩
        rw [get?_insert, if_neg fun heq : k = k₀ => hne (by rw [heq, hk₀])]
        exact hget

end Ledger

namespace Bijection
variable {move : RuleKey → RuleKey} {base b b' c : Bijection Method RuleKey} {m : Method} {k : RuleKey}

/-- The last bijection gives methods the keys that the second one gives them, moved, or else those of the
base. -/
def Over (move : RuleKey → RuleKey) (base b b' : Bijection Method RuleKey) : Prop :=
  ∀ m, b'.get? m = ((b.get? m).map move).or (base.get? m)

theorem over_empty (base : Bijection Method RuleKey) : Over move base {} base := fun _ => rfl

/-- Where the base has no key for the methods of the second, nothing is hidden. -/
theorem Over.get?_iff (h : Over move base b b')
    (hfewer : ∀ m k, b.get? m = some k → base.get? m = none) : b'.get? m = some k ↔
    base.get? m = some k ∨ ∃ k₀, b.get? m = some k₀ ∧ k = move k₀ := by
  rw [h m]
  cases hm : b.get? m with
  | none => simp
  | some k₀ => simp [hfewer m k₀ hm, eq_comm]

theorem Over.put_error (h : Over move base b b') (hb : b.Paired) (hb' : b'.Paired) {f : Refusal RuleKey}
    (hput : b.put m k = .error f) : ∃ f', b'.put m (move k) = .error f' := by
  cases hput' : b'.put m (move k) with
  | error f' => exact ⟨f', rfl⟩
  | ok c' =>
    exfalso
    have hfree : ∀ j, b.keyOf? k = some j → j = m := by
      intro j hj
      refine (put_ok (filled_rules.solid _) hput').1 j ((hb' j _).mp ?_)
      rw [h j, (hb j k).mpr hj]
      rfl
    obtain ⟨c, hc⟩ := put_of_free (filled_rules.solid _) hb hfree
    rw [hc] at hput; cases hput

theorem Over.put (h : Over move base b b') {c' : Bijection Method RuleKey} (hput : b.put m k = .ok c)
    (hput' : b'.put m (move k) = .ok c') : Over move base c c' := by
  intro j
  rw [get?_put (filled_rules.solid _) hput, get?_put (filled_rules.solid _) hput']
  split
  · rfl
  · exact h j

/-- A key that can be put down by itself but not over the base was given away by the base. -/
theorem Over.put_taken (h : Over move base b b') (hmove : Function.Injective move) (hb : b.Paired)
    (hb' : b'.Paired) {f : Refusal RuleKey} (hput : b.put m k = .ok c)
    (hput' : b'.put m (move k) = .error f) : ∃ j, base.get? j = some (move k) := by
  refine Classical.byContradiction fun hnew => ?_
  have hfree : ∀ j, b'.keyOf? (move k) = some j → j = m := by
    intro j hj
    have hget := (hb' j _).mpr hj
    rw [h j] at hget
    cases hown : b.get? j with
    | none =>
      rw [hown] at hget
      exact absurd ⟨j, hget⟩ hnew
    | some k₀ =>
      rw [hown] at hget
      cases hmove (Option.some.inj hget)
      exact (put_ok (filled_rules.solid _) hput).1 j ((hb j k).mp hown)
  obtain ⟨c', hc'⟩ := put_of_free (filled_rules.solid _) hb' hfree
  rw [hc'] at hput'; cases hput'

end Bijection

/-! ### Recorders -/

namespace Recorder

/-- The last recorder holds what the base holds and, shifted, what the second one holds. While no rule is
open there is nothing below what the second one has pushed. -/
structure Over (base r r' : Recorder) : Prop where
  rules : Ledger.Over (RuleKey.shift base.minted) (Expr.shift base.minted)
    base.registry.grammar.rules r.registry.grammar.rules r'.registry.grammar.rules
  kinds : Ledger.Over (RuleKey.shift base.minted) id base.model.kinds r.model.kinds r'.model.kinds
  users : Bijection.Over (RuleKey.shift base.minted) base.model.userRules r.model.userRules
    r'.model.userRules
  actions : Bijection.Over (RuleKey.shift base.minted) base.model.actionRules r.model.actionRules
    r'.model.actionRules
  fewer : ∀ m key, r.model.actionRules.get? m = some key → base.model.actionRules.get? m = none
  stack : r'.stack = base.stack ++ r.stack.map (Expr.shift base.minted)
  building : r'.building = r.building
  pending : r'.pendingKey = r.pendingKey.map (RuleKey.shift base.minted)
  minted : r'.minted = base.minted + r.minted
  idle : r.building = none → base.stack = []

end Recorder
end PegScribe
