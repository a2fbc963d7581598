import PegScribe.Proofs.Keeping
import PegScribe.Proofs.Ledgers
import PegScribe.Script

/-!
Recording: what each call on a recorder leaves behind when it goes well.

Every call is said once, by the state that it leads to. Two facts hold between calls. Keys in the model
were made by the recorder itself, and a factory method that has a key has a rule (`Tidy`). And what has
been recorded stays: rules, and what is known about keys that have been made (`Grows`).
-/
namespace PegScribe

/-- The key is one of the first `n` that a recorder made. -/
def RuleKey.Before (k : RuleKey) (n : Nat) : Prop := ∃ m < n, k.id = .minted m

theorem RuleKey.Before.mono {k : RuleKey} {n n' : Nat} (h : k.Before n) (hle : n ≤ n') :
    k.Before n' := by
  obtain ⟨m, hm, hid⟩ := h
  exact ⟨m, by omega, hid⟩

/-- The next key is not one of those before. -/
theorem RuleKey.Before.ne {k k' : RuleKey} {n : Nat} (h : k.Before n) (hk' : k'.id = .minted n) :
    k' ≠ k := by
  rintro rfl
  obtain ⟨m, hm, hid⟩ := h
  cases hid.symm.trans hk'
  omega

namespace Registry

theorem define_ok {r r' : Registry} {key : RuleKey} {e : Expr} (h : r.define key e = .ok r') :
    r.grammar.rules.get? key = none ∧
      r' = { r with grammar.rules := r.grammar.rules.insert key e } := by
  unfold define openRule at h
  split at h
  · cases h
  · change r.close key e = .ok r' at h
    unfold close at h
    split at h
    · cases h
    · rename_i hnew
      cases h
      exact ⟨by simpa [Ledger.contains] using hnew, rfl⟩

end Registry

namespace Recorder
open Keeping
variable {r r' : Recorder}

/-! ### Calls, one by one -/

/-- The state after a rule of a kind has been added. -/
def withKind (r : Recorder) (key : RuleKey) (kind : RuleKind) (body : Expr) (stack : List Expr) :
    Recorder :=
  { r with
    registry.grammar.rules := r.registry.grammar.rules.insert key body
    model.kinds := r.model.kinds.insert key kind
    stack := stack
    minted := r.minted + 1 }

/-- The state after a factory method's rule has been added. -/
def withAction (r : Recorder) (key : RuleKey) (method : Method) (body : Expr) (stack : List Expr)
    (log : List LogLine) : Recorder :=
  { r with
    registry.grammar.rules := r.registry.grammar.rules.insert key body
    model.actionRules := ⟨r.model.actionRules.forward.insert method key,
      r.model.actionRules.inverse.insert key method⟩
    stack := stack
    minted := r.minted + 1
    log := log }

/-- The state after a rule method has opened its rule. -/
def withUser (r : Recorder) (key : RuleKey) (method : Method) : Recorder :=
  { r with
    model.userRules := ⟨r.model.userRules.forward.insert method key,
      r.model.userRules.inverse.insert key method⟩
    pendingKey := some key
    minted := r.minted + 1 }

/-- The state after the open rule has been closed. -/
def withClosed (r : Recorder) (key : RuleKey) (body : Expr) (log : List LogLine) : Recorder :=
  { r with
    registry.grammar.rules := r.registry.grammar.rules.insert key body
    stack := []
    building := none
    pendingKey := none
    log := log }

theorem push_ok {e : Expr} (h : push e r = (.ok (), r')) :
    r' = { r with stack := r.stack ++ [e] } := by
  obtain ⟨r₁, s₁, hget, h⟩ := bind_eq_ok.mp h
  cases hget
  by_cases hfin : r.isFinished = true
  · rw [if_pos hfin] at h; cases h
  · rw [if_neg hfin] at h; cases h; rfl

theorem pop_ok {e : Expr} (h : pop r = (.ok e, r')) :
    ∃ base, r.stack = base ++ [e] ∧ r' = { r with stack := base } := by
  obtain ⟨r₁, s₁, hget, h⟩ := bind_eq_ok.mp h
  cases hget
  cases hlast : r.stack.getLast? with
  | none => rw [hlast] at h; cases h
  | some e' =>
    rw [hlast] at h; cases h
    obtain ⟨es, hes⟩ := List.getLast?_eq_some_iff.mp hlast
    exact ⟨es, hes, by rw [hes, List.dropLast_concat]⟩

theorem popMany_ok {n : Nat} {es : List Expr} (h : popMany n r = (.ok es, r')) :
    ∃ base, r.stack = base ++ es ∧ es.length = n ∧ r' = { r with stack := base } := by
  obtain ⟨r₁, s₁, hget, h⟩ := bind_eq_ok.mp h
  cases hget
  dsimp only at h
  split at h
  · cases h
  · split at h
    · cases h
      exact ⟨r.stack, by simp, by simp; omega, rfl⟩
    · obtain ⟨_, s₂, hset, h⟩ := bind_eq_ok.mp h
      cases hset
      cases h
      rw [if_pos (by omega)]
      refine ⟨_, (List.take_append_drop ..).symm, ?_, rfl⟩
      rw [List.length_drop]
      omega

theorem mint_ok (label : Except String String) (r : Recorder) : ∃ key : RuleKey,
    key.id = .minted r.minted ∧ mint label r = (.ok key, { r with minted := r.minted + 1 }) := by
  cases label with
  | ok s => exact ⟨_, rfl, rfl⟩
  | error part => exact ⟨_, rfl, rfl⟩

theorem register_ok {key : RuleKey} {e : Expr} (h : register key e r = (.ok (), r')) :
    r.registry.grammar.rules.get? key = none ∧
      r' = { r with registry.grammar.rules := r.registry.grammar.rules.insert key e } := by
  obtain ⟨r₁, s₁, hget, h⟩ := bind_eq_ok.mp h
  cases hget
  cases hdef : r.registry.define key e with
  | error f => rw [hdef] at h; cases h
  | ok registry =>
    rw [hdef] at h; cases h
    obtain ⟨hnew, rfl⟩ := Registry.define_ok hdef
    exact ⟨hnew, rfl⟩

theorem addRule_ok {kind : RuleKind} {operand body : Expr}
    (h : addRule kind operand body r = (.ok (), r')) : ∃ key : RuleKey,
      key.id = .minted r.minted ∧ r.registry.grammar.rules.get? key = none ∧
      r' = r.withKind key kind body (r.stack ++ [.call key]) := by
  obtain ⟨key, s₁, hmint, h⟩ := bind_eq_ok.mp h
  obtain ⟨key', hid, hmint'⟩ := mint_ok (operand.format.map fun s => kind.name ++ "(" ++ s ++ ")") r
  cases hmint'.symm.trans hmint
  obtain ⟨_, s₂, hmodify, h⟩ := bind_eq_ok.mp h
  cases hmodify
  obtain ⟨_, s₃, hregister, h⟩ := bind_eq_ok.mp h
  obtain ⟨hnew, rfl⟩ := register_ok hregister
  exact ⟨key, hid, hnew, push_ok h⟩

theorem firstOf_ok {n : Nat} (h : firstOf n r = (.ok (), r')) : ∃ base alts,
    r.stack = base ++ alts ∧ alts.length = n ∧ r' = { r with stack := base ++ [.choice alts] } := by
  obtain ⟨alts, r₁, hpop, h⟩ := bind_eq_ok.mp h
  obtain ⟨base, hstack, hlen, rfl⟩ := popMany_ok hpop
  exact ⟨base, alts, hstack, hlen, push_ok h⟩

/-- The key is new, and so is the method: they become partners. -/
theorem nonterminal_ok {method : Method} (h : nonterminal none r = (.ok (), r'))
    (hbuilding : r.building = some method) (hmethod : r.model.userRules.get? method = none)
    (hkeys : ∀ key : RuleKey, key.id = .minted r.minted → r.model.userRules.keyOf? key = none) :
    ∃ key : RuleKey, key.id = .minted r.minted ∧ r' = r.withUser key method := by
  obtain ⟨r₁, s₁, hget, h⟩ := bind_eq_ok.mp h
  cases hget
  rw [hbuilding] at h
  dsimp only at h
  by_cases hpending : r.pendingKey.isSome = true
  · rw [if_pos hpending] at h; cases h
  · rw [if_neg hpending] at h
    obtain ⟨key, s₂, hmint, h⟩ := bind_eq_ok.mp h
    obtain ⟨key', hid, hmint'⟩ := mint_ok (.ok method.name) r
    cases hmint'.symm.trans hmint
    obtain ⟨r₂, s₃, hget, h⟩ := bind_eq_ok.mp h
    cases hget
    rw [Bijection.put_new hmethod (hkeys key hid)] at h
    cases h
    exact ⟨key, hid, rfl⟩

theorem spell_ok {α : Type} {x : Except String α} {a : α} (h : spell x r = (.ok a, r')) :
    r' = r := by
  cases x with
  | ok s => cases h; rfl
  | error part => cases h

theorem is_ok {method : Method} {key : RuleKey} (h : Recorder.is r = (.ok (), r'))
    (hbuilding : r.building = some method) (hpending : r.pendingKey = some key) :
    ∃ e log, r.stack = [e] ∧ r.registry.grammar.rules.get? key = none ∧
      r' = r.withClosed key e log := by
  obtain ⟨r₁, s₁, hget, h⟩ := bind_eq_ok.mp h
  cases hget
  rw [hbuilding, hpending] at h
  dsimp only at h
  by_cases hlen : r.stack.length ≠ 1
  · rw [if_pos hlen] at h
    obtain ⟨text, s₂, -, h⟩ := bind_eq_ok.mp h
    cases h
  · rw [if_neg hlen] at h
    obtain ⟨e, s₂, hpop, h⟩ := bind_eq_ok.mp h
    obtain ⟨base, hstack, rfl⟩ := pop_ok hpop
    obtain ⟨_, s₃, hregister, h⟩ := bind_eq_ok.mp h
    obtain ⟨hnew, rfl⟩ := register_ok hregister
    obtain ⟨text, s₄, hspell, h⟩ := bind_eq_ok.mp h
    cases spell_ok hspell
    cases h
    have hbase : base = [] := by
      have := congrArg List.length hstack
      rw [List.length_append, List.length_singleton] at this
      exact List.eq_nil_of_length_eq_zero (by omega)
    subst hbase
    exact ⟨e, _, hstack, hnew, rfl⟩

/-! ### What holds between calls -/

/-- Keys in the model were made by the recorder, and factory methods with keys have rules. -/
structure Tidy (r : Recorder) : Prop where
  kinds : ∀ key kind, r.model.kinds.get? key = some kind → key.Before r.minted
  users : ∀ key method, r.model.userRules.keyOf? key = some method → key.Before r.minted
  actions : ∀ key method, r.model.actionRules.keyOf? key = some method → key.Before r.minted
  used : ∀ method key, r.model.actionRules.get? method = some key →
    ∃ e, r.registry.grammar.rules.get? key = some e

/-- What is known about rules, about methods and about the keys made so far stays. -/
structure Grows (r r' : Recorder) : Prop where
  minted : r.minted ≤ r'.minted
  rules : ∀ key e, r.registry.grammar.rules.get? key = some e →
    r'.registry.grammar.rules.get? key = some e
  kinds : ∀ key : RuleKey, key.Before r.minted → r'.model.kinds.get? key = r.model.kinds.get? key
  users : ∀ key : RuleKey, key.Before r.minted →
    r'.model.userRules.keyOf? key = r.model.userRules.keyOf? key
  actions : ∀ key : RuleKey, key.Before r.minted →
    r'.model.actionRules.keyOf? key = r.model.actionRules.keyOf? key
  methods : ∀ method key, r.model.userRules.get? method = some key →
    r'.model.userRules.get? method = some key

theorem Grows.refl (r : Recorder) : r.Grows r :=
  ⟨Nat.le_refl _, fun _ _ => id, fun _ _ => rfl, fun _ _ => rfl, fun _ _ => rfl, fun _ _ => id⟩

theorem Grows.trans {r₁ : Recorder} (h : r.Grows r₁) (h' : r₁.Grows r') : r.Grows r' where
  minted := Nat.le_trans h.minted h'.minted
  rules := fun key e hk => h'.rules key e (h.rules key e hk)
  kinds := fun key hk => (h'.kinds key (hk.mono h.minted)).trans (h.kinds key hk)
  users := fun key hk => (h'.users key (hk.mono h.minted)).trans (h.users key hk)
  actions := fun key hk => (h'.actions key (hk.mono h.minted)).trans (h.actions key hk)
  methods := fun m key hm => h'.methods m key (h.methods m key hm)

/-- What is on record is in the registry, in the model and in the count of keys. -/
theorem Tidy.of_same (hr : r.Tidy) (hregistry : r'.registry = r.registry)
    (hmodel : r'.model = r.model) (hminted : r'.minted = r.minted) : r'.Tidy := by
  constructor <;> rw [hmodel]
  · rw [hminted]; exact hr.kinds
  · rw [hminted]; exact hr.users
  · rw [hminted]; exact hr.actions
  · rw [hregistry]; exact hr.used

theorem Grows.of_same (hregistry : r'.registry = r.registry) (hmodel : r'.model = r.model)
    (hminted : r'.minted = r.minted) : r.Grows r' := by
  constructor
  · exact Nat.le_of_eq hminted.symm
  · rw [hregistry]; exact fun _ _ => id
  · rw [hmodel]; exact fun _ _ => rfl
  · rw [hmodel]; exact fun _ _ => rfl
  · rw [hmodel]; exact fun _ _ => rfl
  · rw [hmodel]; exact fun _ _ => id

theorem Grows.from_same {final : Recorder} (h : r'.Grows final)
    (hregistry : r'.registry = r.registry) (hmodel : r'.model = r.model)
    (hminted : r'.minted = r.minted) : r.Grows final :=
  (Grows.of_same hregistry hmodel hminted).trans h

section Keys
variable {ν : Type} {l : Ledger RuleKey ν} {key k : RuleKey} {v : ν} {n : Nat}

theorem get?_insert_before (hid : key.id = .minted n) (hk : k.Before n) :
    (l.insert key v).get? k = l.get? k := by
  rw [Ledger.get?_insert, if_neg (hk.ne hid)]

theorem before_of_insert (hid : key.id = .minted n)
    (hl : ∀ k v, l.get? k = some v → k.Before n) {v' : ν}
    (h : (l.insert key v).get? k = some v') : k.Before (n + 1) := by
  rw [Ledger.get?_insert] at h
  split at h
  · rename_i heq
    exact ⟨n, Nat.lt_succ_self n, heq ▸ hid⟩
  · exact (hl k v' h).mono (Nat.le_succ n)

theorem get?_next (hid : key.id = .minted n) (hl : ∀ k v, l.get? k = some v → k.Before n) :
    l.get? key = none := by
  cases h : l.get? key with
  | none => rfl
  | some v => exact absurd rfl ((hl key v h).ne hid)

end Keys

section Changes
variable {key : RuleKey} {body : Expr} {stack : List Expr}

theorem Grows.withKind (hid : key.id = .minted r.minted)
    (hnew : r.registry.grammar.rules.get? key = none) (kind : RuleKind) :
    r.Grows (r.withKind key kind body stack) where
  minted := Nat.le_succ _
  rules := fun _ _ h => Ledger.get?_insert_new hnew h
  kinds := fun _ hk => get?_insert_before hid hk
  users := fun _ _ => rfl
  actions := fun _ _ => rfl
  methods := fun _ _ => id

theorem Tidy.withKind (hr : r.Tidy) (hid : key.id = .minted r.minted)
    (hnew : r.registry.grammar.rules.get? key = none) (kind : RuleKind) :
    (r.withKind key kind body stack).Tidy where
  kinds := fun _ _ h => before_of_insert hid hr.kinds h
  users := fun k m h => (hr.users k m h).mono (Nat.le_succ _)
  actions := fun k m h => (hr.actions k m h).mono (Nat.le_succ _)
  used := fun m k h => (hr.used m k h).imp fun _ h => Ledger.get?_insert_new hnew h

theorem Grows.withAction (hid : key.id = .minted r.minted)
    (hnew : r.registry.grammar.rules.get? key = none) (method : Method) (log : List LogLine) :
    r.Grows (r.withAction key method body stack log) where
  minted := Nat.le_succ _
  rules := fun _ _ h => Ledger.get?_insert_new hnew h
  kinds := fun _ _ => rfl
  users := fun _ _ => rfl
  actions := fun _ hk => get?_insert_before hid hk
  methods := fun _ _ => id

theorem Tidy.withAction (hr : r.Tidy) (hid : key.id = .minted r.minted)
    (hnew : r.registry.grammar.rules.get? key = none) (method : Method) (log : List LogLine) :
    (r.withAction key method body stack log).Tidy where
  kinds := fun k kind h => (hr.kinds k kind h).mono (Nat.le_succ _)
  users := fun k m h => (hr.users k m h).mono (Nat.le_succ _)
  actions := fun _ _ h => before_of_insert hid hr.actions h
  used := by
    intro m k h
    change (r.model.actionRules.forward.insert method key).get? m = some k at h
    rw [Ledger.get?_insert] at h
    split at h
    · cases h
      exact ⟨body, Ledger.get?_insert_self ..⟩
    · exact (hr.used m k h).imp fun _ h => Ledger.get?_insert_new hnew h

theorem Grows.withUser (hid : key.id = .minted r.minted) {method : Method}
    (hmethod : r.model.userRules.get? method = none) : r.Grows (r.withUser key method) where
  minted := Nat.le_succ _
  rules := fun _ _ => id
  kinds := fun _ _ => rfl
  users := fun _ hk => get?_insert_before hid hk
  actions := fun _ _ => rfl
  methods := by
    intro m k h
    show (r.model.userRules.forward.insert method key).get? m = some k
    exact Ledger.get?_insert_new hmethod h

theorem Tidy.withUser (hr : r.Tidy) (hid : key.id = .minted r.minted) (method : Method) :
    (r.withUser key method).Tidy where
  kinds := fun k kind h => (hr.kinds k kind h).mono (Nat.le_succ _)
  users := fun _ _ h => before_of_insert hid hr.users h
  actions := fun k m h => (hr.actions k m h).mono (Nat.le_succ _)
  used := hr.used

theorem Grows.withClosed (hnew : r.registry.grammar.rules.get? key = none) (log : List LogLine) :
    r.Grows (r.withClosed key body log) where
  minted := Nat.le_refl _
  rules := fun _ _ h => Ledger.get?_insert_new hnew h
  kinds := fun _ _ => rfl
  users := fun _ _ => rfl
  actions := fun _ _ => rfl
  methods := fun _ _ => id

theorem Tidy.withClosed (hr : r.Tidy) (hnew : r.registry.grammar.rules.get? key = none)
    (log : List LogLine) : (r.withClosed key body log).Tidy where
  kinds := hr.kinds
  users := hr.users
  actions := hr.actions
  used := fun m k h => (hr.used m k h).imp fun _ h => Ledger.get?_insert_new hnew h

variable {final : Recorder}

theorem before_next (hid : key.id = .minted r.minted) : key.Before (r.minted + 1) :=
  ⟨r.minted, Nat.lt_succ_self _, hid⟩

/-- A rule of a kind is on record for good. -/
theorem Grows.of_withKind {kind : RuleKind} (hid : key.id = .minted r.minted)
    (h : (r.withKind key kind body stack).Grows final) :
    final.model.kinds.get? key = some kind ∧
      final.registry.grammar.rules.get? key = some body := by
  refine ⟨(h.kinds key (before_next hid)).trans ?_, h.rules key body ?_⟩
  · exact Ledger.get?_insert_self ..
  · exact Ledger.get?_insert_self ..

/-- A factory method's rule is on record for good, and is of no other sort. -/
theorem Grows.of_withAction {method : Method} {log : List LogLine} (hr : r.Tidy)
    (hid : key.id = .minted r.minted) (h : (r.withAction key method body stack log).Grows final) :
    final.model.kinds.get? key = none ∧ final.model.userRules.keyOf? key = none ∧
      final.model.actionRules.keyOf? key = some method ∧
      final.registry.grammar.rules.get? key = some body := by
  have hkey := before_next hid
  refine ⟨(h.kinds key hkey).trans (get?_next hid hr.kinds),
    (h.users key hkey).trans (get?_next hid hr.users), (h.actions key hkey).trans ?_,
    h.rules key body ?_⟩
  · exact Ledger.get?_insert_self ..
  · exact Ledger.get?_insert_self ..

/-- A rule method and its key are on record for good, and the key is of no other sort. -/
theorem Grows.of_withUser {method : Method} (hr : r.Tidy) (hid : key.id = .minted r.minted)
    (h : (r.withUser key method).Grows final) :
    final.model.kinds.get? key = none ∧ final.model.userRules.keyOf? key = some method ∧
      final.model.userRules.get? method = some key := by
  have hkey := before_next hid
  refine ⟨(h.kinds key hkey).trans (get?_next hid hr.kinds), (h.users key hkey).trans ?_,
    h.methods method key ?_⟩
  · exact Ledger.get?_insert_self ..
  · exact Ledger.get?_insert_self ..

end Changes

/-- The body of a rule that is made of the given operands. -/
def operands : List Expr → Expr
  | [e] => e
  | es => .seq es

theorem actionKey_ok {method : Method} {params : List String} {key : RuleKey} (hr : r.Tidy)
    (h : actionKey method params r = (.ok key, r')) :
    (r.model.actionRules.get? method = some key ∧ r' = r) ∨
    (key.id = .minted r.minted ∧
      r' = { r with
        model.actionRules := ⟨r.model.actionRules.forward.insert method key,
          r.model.actionRules.inverse.insert key method⟩
        minted := r.minted + 1 }) := by
  obtain ⟨r₁, s₁, hget, h⟩ := bind_eq_ok.mp h
  cases hget
  cases hmethod : r.model.actionRules.get? method with
  | some key' => rw [hmethod] at h; cases h; exact .inl ⟨rfl, rfl⟩
  | none =>
    rw [hmethod] at h
    obtain ⟨key', s₂, hmint, h⟩ := bind_eq_ok.mp h
    obtain ⟨key'', hid, hmint'⟩ :=
      mint_ok (.ok ("f." ++ method.name ++ "(" ++ Text.join ", " params ++ ")")) r
    cases hmint'.symm.trans hmint
    obtain ⟨r₂, s₃, hget, h⟩ := bind_eq_ok.mp h
    cases hget
    have hput := Bijection.put_new hmethod (get?_next hid hr.actions)
    dsimp only at h
    rw [hput] at h
    cases h
    exact .inr ⟨hid, rfl⟩

theorem replaceByRule_ok {key : RuleKey} {n : Nat} (h : replaceByRule key n r = (.ok (), r')) :
    ∃ base es, r.stack = base ++ es ∧ es.length = n ∧ r.registry.grammar.rules.get? key = none ∧
      r' = { r with
        registry.grammar.rules := r.registry.grammar.rules.insert key (operands es)
        stack := base ++ [.call key] } := by
  obtain ⟨base, es, hstack, hlen, h⟩ : ∃ base es, r.stack = base ++ es ∧ es.length = n ∧
      (register key (operands es) >>= fun _ => push (.call key)) { r with stack := base } =
        (.ok (), r') := by
    unfold replaceByRule at h
    by_cases hn : n = 1
    · rw [if_pos (by omega)] at h
      obtain ⟨e, s₁, hpop, h⟩ := bind_eq_ok.mp h
      obtain ⟨base, hstack, rfl⟩ := pop_ok hpop
      exact ⟨base, [e], hstack, hn.symm, h⟩
    · rw [if_neg (by omega)] at h
      obtain ⟨body, s₁, hbody, h⟩ := bind_eq_ok.mp h
      obtain ⟨es, hpop, rfl⟩ := map_eq_ok hbody
      obtain ⟨base, hstack, hlen, rfl⟩ := popMany_ok hpop
      refine ⟨base, es, hstack, hlen, ?_⟩
      have hes : operands es = .seq es := by
        unfold operands
        split
        · exact absurd hlen.symm hn
        · rfl
      rw [hes]
      exact h
  obtain ⟨_, s₂, hregister, h⟩ := bind_eq_ok.mp h
  obtain ⟨hnew, rfl⟩ := register_ok hregister
  exact ⟨base, es, hstack, hlen, hnew, push_ok h⟩

/-- A factory call takes its operands off and pushes a reference to a new rule: were there a rule of
the method already, its key would be taken. -/
theorem action_ok {method : Method} {params : List String} {n : Nat} (hr : r.Tidy)
    (h : action method params n r = (.ok (), r')) : ∃ base es key log,
      r.stack = base ++ es ∧ es.length = n ∧ RuleKey.id key = .minted r.minted ∧
      r.registry.grammar.rules.get? key = none ∧
      r' = r.withAction key method (operands es) (base ++ [.call key]) log := by
  obtain ⟨key, s₁, hkey, h⟩ := bind_eq_ok.mp h
  obtain ⟨_, s₂, hreplace, h⟩ := bind_eq_ok.mp h
  obtain ⟨base, es, hstack, hlen, hnew, rfl⟩ := replaceByRule_ok hreplace
  cases h
  rcases actionKey_ok hr hkey with ⟨hmethod, rfl⟩ | ⟨hid, rfl⟩
  · obtain ⟨e, he⟩ := hr.used method key hmethod
    rw [he] at hnew; cases hnew
  · exact ⟨base, es, key, _, hstack, hlen, hid, hnew, rfl⟩

end Recorder
end PegScribe
