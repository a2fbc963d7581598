import Mathlib.Data.List.Nodup
import Mathlib.Data.List.ProdSigma
import Mathlib.Data.Prod.Basic
import PegScribe.Proofs.Ledgers

/-!
Partners: after any row of calls, refused or not, a bijection is one.

`Exact` is the invariant: each ledger is the other one turned around, and nothing blank is held. A call
that is refused changes nothing, and one that is taken binds the pair and lets go of no other pair than
the key's own (`Binds`), so the invariant lasts (`Exact.attempt`) and holds at every moment of a history.
-/
namespace PegScribe

theorem Ledger.nodup_keys_erase {κ ν : Type} [DecidableEq κ] {l : Ledger κ ν} (h : l.keys.Nodup) (k : κ) :
    (l.erase k).keys.Nodup :=
  h.sublist (List.filter_sublist.map _)

namespace Bijection
variable {κ ν : Type} [DecidableEq κ] [DecidableEq ν] [Blank κ] [Blank ν]
variable {b b' : Bijection κ ν} {k : κ} {v : ν}

/-! ### Calls -/

/-- Makes a call; if it is refused, everything stays as it is. -/
def attempt (b : Bijection κ ν) (k : κ) (v : ν) : Bijection κ ν :=
  match b.put k v with
  | .ok b' => b'
  | .error _ => b

/-- Makes calls one after another. -/
def attemptAll (b : Bijection κ ν) (calls : List (κ × ν)) : Bijection κ ν :=
  calls.foldl (fun b call => b.attempt call.1 call.2) b

/-- The key and the value stand for something. -/
structure Proper (k : κ) (v : ν) : Prop where
  key : Blank.isBlank k = false
  value : Blank.isBlank v = false

instance : Decidable (Proper k v) :=
  decidable_of_iff (Blank.isBlank k = false ∧ Blank.isBlank v = false)
    ⟨fun h => ⟨h.1, h.2⟩, fun h => ⟨h.key, h.value⟩⟩

/-- The value belongs to another key. -/
def Taken (b : Bijection κ ν) (k : κ) (v : ν) : Prop := ∃ j, j ≠ k ∧ b.get? j = some v

/-- What binding `k` to `v` makes of a bijection. -/
structure Binds (b : Bijection κ ν) (k : κ) (v : ν) (b' : Bijection κ ν) : Prop where
  bound : b'.get? k = some v ∧ b'.keyOf? v = some k
  /-- The one value that may lose its key is what `k` had. -/
  released : ∀ w, b.containsValue w = true ∧ b'.containsValue w = false ↔ b.get? k = some w ∧ w ≠ v
  others : ∀ j, j ≠ k → b'.get? j = b.get? j
  otherKeys : ∀ j w, j ≠ k → (b'.keyOf? w = some j ↔ b.keyOf? w = some j)

/-! ### Either ledger is the other one turned around -/

/-- The two ledgers hold the same pairs, once each, and nothing blank. -/
structure Exact (b : Bijection κ ν) : Prop where
  paired : b.Paired
  keys : b.forward.keys.Nodup
  values : b.inverse.keys.Nodup
  solid : b.Solid

theorem exact_empty : Exact ({} : Bijection κ ν) :=
  ⟨fun _ _ => ⟨nofun, nofun⟩, .nil, .nil, ⟨nofun, nofun⟩⟩

/-- Turned around, the pairs of one ledger are those of the other. -/
theorem Exact.turned (h : b.Exact) : (b.forward.entries.map Prod.swap).Perm b.inverse.entries := by
  have hforward : (b.forward.entries.map Prod.swap).Nodup :=
    (List.Nodup.of_map _ h.keys).map Prod.swap_injective
  refine (List.perm_ext_iff_of_nodup hforward (List.Nodup.of_map _ h.values)).mpr fun ⟨v, k⟩ => ?_
  rw [List.mem_map_swap, Ledger.mem_entries_iff h.keys, Ledger.mem_entries_iff h.values]
  exact h.paired k v

theorem Exact.size_eq (h : b.Exact) : b.size = b.inverse.size := by
  have hlength := h.turned.length_eq
  rwa [List.length_map] at hlength

theorem Exact.containsValue_iff (h : b.Exact) {v : ν} :
    b.containsValue v = true ↔ ∃ k, b.get? k = some v := by
  unfold containsValue Ledger.contains
  rw [Option.isSome_iff_exists]
  exact exists_congr fun k => (h.paired k v).symm

theorem Exact.free_iff (h : b.Exact) : ¬ b.Taken k v ↔ ∀ j, b.keyOf? v = some j → j = k := by
  constructor
  · intro hfree j hj
    exact Classical.byContradiction fun hne => hfree ⟨j, hne, (h.paired j v).mpr hj⟩
  · rintro hown ⟨j, hne, hj⟩
    exact hne (hown j ((h.paired j v).mp hj))

/-! ### One call -/

theorem Exact.put_taken (h : b.Exact) (htaken : b.Taken k v) : b.put k v = .error (.taken v) := by
  have hbusy : b.isFree k v ≠ true := fun hfree => h.free_iff.mpr ((isFree_iff h.solid).mp hfree) htaken
  rw [put, if_neg hbusy]

theorem Exact.put_free (h : b.Exact) (hfree : ¬ b.Taken k v) : ∃ b', b.put k v = .ok b' :=
  put_of_free h.solid h.paired (h.free_iff.mp hfree)

/-- Only a value that is another key's is refused. -/
theorem Exact.put_error_iff (h : b.Exact) : b.put k v = .error (.taken v) ↔ b.Taken k v := by
  refine ⟨fun hput => Classical.byContradiction fun hfree => ?_, h.put_taken⟩
  obtain ⟨b', hb'⟩ := h.put_free hfree
  rw [hb'] at hput
  cases hput

theorem nodup_values_put (h : b.inverse.keys.Nodup) (hput : b.put k v = .ok b') :
    b'.inverse.keys.Nodup := by
  unfold put at hput
  split at hput
  · split at hput
    · split at hput
      · cases hput
        exact Ledger.nodup_writeIn (Ledger.nodup_keys_erase h _) v k
      · cases hput
    · cases hput
      exact Ledger.nodup_writeIn h v k
  · cases hput

theorem Exact.put (h : b.Exact) (hp : Proper k v) (hput : b.put k v = .ok b') : b'.Exact where
  paired := h.paired.put h.solid hput
  keys := by
    rw [(put_ok h.solid hput).2.1]
    exact Ledger.nodup_writeIn h.keys k v
  values := nodup_values_put h.values hput
  solid := by
    obtain ⟨-, -, hinverse⟩ := put_ok h.solid hput
    refine ⟨fun j w hj => ?_, fun j w hj => ?_⟩
    · rw [hinverse] at hj
      split at hj
      · cases hj; exact hp.key
      · split at hj
        · cases hj
        · exact h.solid.keys j w hj
    · rw [get?_put h.solid hput] at hj
      split at hj
      · cases hj; exact hp.value
      · exact h.solid.values j w hj

theorem Exact.binds (h : b.Exact) (hp : Proper k v) (hput : b.put k v = .ok b') : Binds b k v b' := by
  have h' := h.put hp hput
  have hself : b'.get? k = some v := by rw [get?_put h.solid hput, if_pos rfl]
  have hothers : ∀ j, j ≠ k → b'.get? j = b.get? j := fun j hne => by
    rw [get?_put h.solid hput, if_neg (Ne.symm hne)]
  refine ⟨⟨hself, (h'.paired k v).mp hself⟩, fun w => ?_, hothers, fun j w hne => ?_⟩
  · rw [h.containsValue_iff, ← Bool.not_eq_true, h'.containsValue_iff]
    constructor
    · rintro ⟨⟨j, hj⟩, hgone⟩
      by_cases hjk : j = k
      · subst hjk
        exact ⟨hj, fun heq => hgone ⟨j, heq ▸ hself⟩⟩
      · exact absurd ⟨j, (hothers j hjk).trans hj⟩ hgone
    · rintro ⟨hold, hne⟩
      refine ⟨⟨k, hold⟩, fun ⟨j, hj⟩ => ?_⟩
      by_cases hjk : j = k
      · subst hjk
        exact hne (Option.some.inj (hj.symm.trans hself))
      · -- the old value would have had two keys
        rw [hothers j hjk] at hj
        have hkeys := ((h.paired j w).mp hj).symm.trans ((h.paired k w).mp hold)
        exact hjk (Option.some.inj hkeys)
  · rw [← h'.paired j w, ← h.paired j w, hothers j hne]

theorem attempt_ok (hput : b.put k v = .ok b') : b.attempt k v = b' := by
  unfold attempt; rw [hput]

theorem Exact.attempt_taken (h : b.Exact) (htaken : b.Taken k v) : b.attempt k v = b := by
  unfold Bijection.attempt; rw [h.put_taken htaken]

/-! ### Histories -/

theorem Exact.attempt (h : b.Exact) (hp : Proper k v) : (b.attempt k v).Exact := by
  by_cases htaken : b.Taken k v
  · rwa [h.attempt_taken htaken]
  · obtain ⟨b', hput⟩ := h.put_free htaken
    rw [attempt_ok hput]
    exact h.put hp hput

theorem Exact.attemptAll : ∀ {calls : List (κ × ν)} {b : Bijection κ ν}, b.Exact →
    (∀ call ∈ calls, Proper call.1 call.2) → (b.attemptAll calls).Exact
  | [], _, h, _ => h
  | _ :: _, _, h, hcalls =>
    (h.attempt (hcalls _ (List.mem_cons_self ..))).attemptAll fun call hcall =>
      hcalls call (List.mem_cons_of_mem _ hcall)

/-- Whatever calls were made, with keys and values that stand for something, the two ledgers hold the same
pairs: a key has a value just when the value has the key, and there are as many of the ones as of the
others. The next call is refused just when its value belongs to another key, for that reason, and then it
changes nothing. Otherwise it binds the pair; of the values that had a key only the key's old one loses it,
and the pairs of all other keys are as they were. -/
theorem calls_keep_partners (calls : List (κ × ν)) (hcalls : ∀ call ∈ calls, Proper call.1 call.2) :
    let b : Bijection κ ν := Bijection.attemptAll {} calls
    ((∀ k v, b.get? k = some v ↔ b.keyOf? v = some k) ∧ b.size = b.inverse.size ∧
      (b.pairs.map Prod.swap).Perm b.inverse.entries ∧
      ∀ v, b.containsValue v = true ↔ ∃ k, b.get? k = some v) ∧
    ∀ k v, Proper k v →
      (b.put k v = .error (.taken v) ↔ ∃ j, j ≠ k ∧ b.get? j = some v) ∧
      (∀ why, b.put k v = .error why → why = .taken v ∧ b.attempt k v = b) ∧
      ((∀ j, b.get? j = some v → j = k) →
        ∃ b', b.put k v = .ok b' ∧ b.attempt k v = b' ∧ Binds b k v b') := by
  intro b
  have h : b.Exact := exact_empty.attemptAll hcalls
  refine ⟨⟨h.paired, h.size_eq, h.turned, fun v => h.containsValue_iff⟩, fun k v hp => ?_⟩
  refine ⟨h.put_error_iff, fun why hwhy => ?_, fun hown => ?_⟩
  · by_cases htaken : b.Taken k v
    · have htook := h.put_taken htaken
      cases hwhy.symm.trans htook
      exact ⟨rfl, h.attempt_taken htaken⟩
    · obtain ⟨b', hput⟩ := h.put_free htaken
      cases hwhy.symm.trans hput
  · have hfree : ¬ b.Taken k v := fun ⟨j, hne, hj⟩ => hne (hown j hj)
    obtain ⟨b', hput⟩ := h.put_free hfree
    exact ⟨b', hput, attempt_ok hput, h.binds hp hput⟩

/-- The value `1` is given to `a`, refused to `b`, let go of by `a` and then taken by `b`. -/
theorem calls_keep_partners_reused :
    let calls : List (Option Nat × Option Nat) :=
      [(some 10, some 1), (some 20, some 1), (some 10, some 2), (some 20, some 1)]
    let b : Bijection (Option Nat) (Option Nat) := Bijection.attemptAll {} calls
    (∀ call ∈ calls, Proper call.1 call.2) ∧ b.keyOf? (some 1) = some (some 20) ∧
      b.get? (some 20) = some (some 1) ∧ b.put (some 10) (some 1) = .error (.taken (some 1)) ∧
      ∃ b', b.put (some 10) (some 3) = .ok b' ∧ Binds b (some 10) (some 3) b' ∧
        b'.containsValue (some 2) = false := by
  intro calls b
  have hcalls : ∀ call ∈ calls, Proper call.1 call.2 := by decide
  obtain ⟨⟨hpaired, -, -, -⟩, hnext⟩ := calls_keep_partners calls hcalls
  have hget : b.get? (some 20) = some (some 1) := by decide
  have hnew : b.keyOf? (some 3) = none := by decide
  refine ⟨hcalls, (hpaired _ _).mp hget, hget, ?_, ?_⟩
  · exact (hnext (some 10) (some 1) ⟨rfl, rfl⟩).1.mpr ⟨some 20, by decide, hget⟩
  · have hown : ∀ j, b.get? j = some (some 3) → j = some 10 := fun j hj => by
      cases hnew.symm.trans ((hpaired _ _).mp hj)
    obtain ⟨b', hput, -, hbinds⟩ := (hnext (some 10) (some 3) ⟨rfl, rfl⟩).2.2 hown
    exact ⟨b', hput, hbinds, ((hbinds.released (some 2)).mpr ⟨by decide, by decide⟩).2⟩

end Bijection
end PegScribe
