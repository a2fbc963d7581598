import PegScribe.Bijection

/-!
Ledgers and bijections, seen through look-ups.
-/
namespace PegScribe.Ledger
variable {κ ν : Type} [DecidableEq κ]

theorem get?_insert_self (l : Ledger κ ν) (k : κ) (v : ν) : (l.insert k v).get? k = some v := by
  rw [get?_insert, if_pos rfl]

/-- A new key leaves the values of the others alone. -/
theorem get?_insert_new {l : Ledger κ ν} {k j : κ} {v w : ν} (hnew : l.get? k = none)
    (h : l.get? j = some w) : (l.insert k v).get? j = some w := by
  have hne : k ≠ j := by
    rintro rfl
    rw [hnew] at h; cases h
  rw [get?_insert, if_neg hne, h]

theorem mem_of_valueIn : ∀ {es : List (κ × ν)} {k : κ} {v : ν}, valueIn es k = some v → (k, v) ∈ es
  | (k', v') :: rest, k, v, h => by
    unfold valueIn at h
    split at h
    · rename_i hk
      cases hk; cases h
      exact List.mem_cons_self ..
    · exact List.mem_cons_of_mem _ (mem_of_valueIn h)

theorem mem_entries_of_get? {l : Ledger κ ν} {k : κ} {v : ν} (h : l.get? k = some v) :
    (k, v) ∈ l.entries :=
  mem_of_valueIn h

theorem mem_keys_of_get? {l : Ledger κ ν} {k : κ} {v : ν} (h : l.get? k = some v) : k ∈ l.keys :=
  List.mem_map_of_mem (mem_entries_of_get? h)

theorem contains_iff_mem_keys (l : Ledger κ ν) (k : κ) : l.contains k = true ↔ k ∈ l.keys := by
  unfold contains get? keys
  induction l.entries with
  | nil => simp [valueIn]
  | cons e rest ih =>
    unfold valueIn
    rw [List.map_cons, List.mem_cons, ← ih]
    by_cases h : e.1 = k
    · simp [h]
    · simp [h, Ne.symm h]

theorem get?_eq_none_iff {l : Ledger κ ν} {k : κ} : l.get? k = none ↔ k ∉ l.keys := by
  rw [← contains_iff_mem_keys, contains]
  simp

/-- A new key comes last. -/
theorem entries_insert_new {l : Ledger κ ν} {k : κ} (hnew : l.get? k = none) (v : ν) :
    (l.insert k v).entries = l.entries ++ [(k, v)] := by
  obtain ⟨entries⟩ := l
  unfold get? at hnew
  unfold insert
  induction entries with
  | nil => rfl
  | cons e rest ih =>
    obtain ⟨k', v'⟩ := e
    rw [valueIn] at hnew
    split at hnew
    · cases hnew
    · rename_i hne
      rw [writeIn, if_neg hne]
      exact congrArg ((k', v') :: ·) (ih hnew)

theorem mem_writeIn {es : List (κ × ν)} {k : κ} {v : ν} {e : κ × ν}
    (h : e ∈ writeIn es k v) : e = (k, v) ∨ e ∈ es := by
  induction es with
  | nil => exact .inl (List.mem_singleton.mp h)
  | cons first rest ih =>
    unfold writeIn at h
    split at h
    · rename_i hk
      rcases List.mem_cons.mp h with rfl | h
      · exact .inl (by rw [hk])
      · exact .inr (List.mem_cons_of_mem _ h)
    · rcases List.mem_cons.mp h with rfl | h
      · exact .inr (List.mem_cons_self ..)
      · exact (ih h).imp id (List.mem_cons_of_mem _)

theorem mem_ofList {pairs : List (κ × ν)} {e : κ × ν}
    (h : e ∈ (ofList pairs).entries) : e ∈ pairs := by
  suffices hall : ∀ l : Ledger κ ν, e ∈ (pairs.foldl (fun l p => l.insert p.1 p.2) l).entries →
      e ∈ l.entries ∨ e ∈ pairs from (hall {} h).resolve_left (by simp)
  clear h
  induction pairs with
  | nil => exact fun _ h => .inl h
  | cons p rest ih =>
    intro l h
    rcases ih _ h with h | h
    · rcases mem_writeIn h with rfl | h
      · exact .inr (List.mem_cons_self ..)
      · exact .inl h
    · exact .inr (List.mem_cons_of_mem _ h)

theorem get?_map {μ : Type} (f : ν → μ) (l : Ledger κ ν) (k : κ) :
    get? ⟨l.entries.map fun (k, v) => (k, f v)⟩ k = (l.get? k).map f := by
  unfold get?
  dsimp only
  induction l.entries with
  | nil => rfl
  | cons e rest ih =>
    rw [List.map_cons, valueIn, valueIn]
    split
    · rfl
    · exact ih

/-- With each key written once, what is written beside a key is its value. -/
theorem get?_of_mem {l : Ledger κ ν} (hnd : l.keys.Nodup) {k : κ} {v : ν} (h : (k, v) ∈ l.entries) :
    l.get? k = some v := by
  obtain ⟨entries⟩ := l
  unfold get?
  unfold keys at hnd
  induction entries with
  | nil => cases h
  | cons e rest ih =>
    rw [List.map_cons, List.nodup_cons] at hnd
    unfold valueIn
    rcases List.mem_cons.mp h with rfl | h
    · rw [if_pos rfl]
    · have hne : e.1 ≠ k := fun heq => hnd.1 (heq ▸ List.mem_map_of_mem h)
      rw [if_neg hne]
      exact ih hnd.2 h

theorem mem_entries_iff {l : Ledger κ ν} (hnd : l.keys.Nodup) {k : κ} {v : ν} :
    (k, v) ∈ l.entries ↔ l.get? k = some v :=
  ⟨get?_of_mem hnd, mem_entries_of_get?⟩

theorem get?_erase (l : Ledger κ ν) (k j : κ) :
    (l.erase k).get? j = if k = j then none else l.get? j := by
  unfold get? erase
  dsimp only
  induction l.entries with
  | nil => simp [valueIn]
  | cons e rest ih =>
    by_cases hk : e.1 = k
    · rw [List.filter_cons_of_neg (by simpa using hk), ih, valueIn, hk]
      split <;> rfl
    · rw [List.filter_cons_of_pos (by simpa using hk), valueIn, valueIn, ih]
      by_cases hj : e.1 = j
      · rw [if_pos hj, if_pos hj, if_neg (fun h => hk (hj.trans h.symm))]
      · rw [if_neg hj, if_neg hj]

theorem contains_insert_self (l : Ledger κ ν) (k : κ) (v : ν) : (l.insert k v).contains k = true := by
  rw [contains, get?_insert_self]
  rfl

/-- A write takes no key away. -/
theorem contains_insert {l : Ledger κ ν} {j : κ} (h : l.contains j = true) (k : κ) (v : ν) :
    (l.insert k v).contains j = true := by
  unfold contains at h ⊢
  rw [get?_insert]
  split
  · rfl
  · exact h

end PegScribe.Ledger

namespace PegScribe.Bijection
variable {κ ν : Type} [DecidableEq κ] [DecidableEq ν] [Blank κ] [Blank ν]

/-- A new key and a new value become partners, and nothing else changes. -/
theorem put_new {b : Bijection κ ν} {k : κ} {v : ν} (hk : b.get? k = none)
    (hv : b.keyOf? v = none) : b.put k v = .ok ⟨b.forward.insert k v, b.inverse.insert v k⟩ := by
  unfold get? at hk
  unfold keyOf? at hv
  simp [put, isFree, hk, hv, Blank.filled?]

/-- The two ledgers read each other backwards. -/
def Paired (b : Bijection κ ν) : Prop := ∀ k v, b.get? k = some v ↔ b.keyOf? v = some k

/-- Keys and values that stand for something. -/
structure Filled (κ ν : Type) [Blank κ] [Blank ν] : Prop where
  keys : ∀ k : κ, Blank.isBlank k = false
  values : ∀ v : ν, Blank.isBlank v = false

/-- Nothing blank is held. -/
structure Solid (b : Bijection κ ν) : Prop where
  keys : ∀ k v, b.keyOf? v = some k → Blank.isBlank k = false
  values : ∀ k v, b.get? k = some v → Blank.isBlank v = false

theorem Filled.solid (hf : Filled κ ν) (b : Bijection κ ν) : b.Solid :=
  ⟨fun k _ _ => hf.keys k, fun _ v _ => hf.values v⟩

theorem filled?_of_not_blank {α : Type} [Blank α] {x : Option α}
    (h : ∀ a, x = some a → Blank.isBlank a = false) : Blank.filled? x = x := by
  cases x with
  | none => rfl
  | some a => simp [Blank.filled?, h a rfl]

theorem isFree_iff {b : Bijection κ ν} (hs : b.Solid) {k : κ} {v : ν} :
    b.isFree k v = true ↔ ∀ j, b.keyOf? v = some j → j = k := by
  have hfilled : Blank.filled? (b.inverse.get? v) = b.inverse.get? v :=
    filled?_of_not_blank fun j hj => hs.keys j v hj
  unfold isFree keyOf?
  rw [hfilled]
  cases b.inverse.get? v <;> simp

/-- A pair is taken if its value is free; the key's old value is released. -/
theorem put_ok {b b' : Bijection κ ν} (hs : b.Solid) {k : κ} {v : ν}
    (h : b.put k v = .ok b') :
    (∀ j, b.keyOf? v = some j → j = k) ∧ b'.forward = b.forward.insert k v ∧
      ∀ w, b'.keyOf? w = if v = w then some k else
        if b.get? k = some w then none else b.keyOf? w := by
  have hfilled : Blank.filled? (b.forward.get? k) = b.forward.get? k :=
    filled?_of_not_blank fun w hw => hs.values k w hw
  unfold put at h
  by_cases hfree : b.isFree k v = true
  · refine ⟨(isFree_iff hs).mp hfree, ?_⟩
    rw [if_pos hfree, hfilled] at h
    unfold keyOf? get?
    cases hold : b.forward.get? k with
    | none =>
      rw [hold] at h
      cases h
      simp
    | some old =>
      rw [hold] at h
      dsimp only at h
      by_cases hrecorded : b.inverse.contains old = true
      · rw [if_pos hrecorded] at h
        cases h
        simp [Ledger.get?_erase]
      · rw [if_neg hrecorded] at h
        cases h
  · rw [if_neg hfree] at h
    cases h

theorem get?_put {b b' : Bijection κ ν} (hs : b.Solid) {k : κ} {v : ν} (h : b.put k v = .ok b')
    (j : κ) : b'.get? j = if k = j then some v else b.get? j := by
  obtain ⟨-, hforward, -⟩ := put_ok hs h
  rw [get?, hforward, Ledger.get?_insert]
  rfl

/-- A value that is free can be put down. -/
theorem put_of_free {b : Bijection κ ν} (hs : b.Solid) (hb : b.Paired) {k : κ} {v : ν}
    (hfree : ∀ j, b.keyOf? v = some j → j = k) : ∃ b', b.put k v = .ok b' := by
  have hfilled : Blank.filled? (b.forward.get? k) = b.forward.get? k :=
    filled?_of_not_blank fun w hw => hs.values k w hw
  unfold put
  rw [if_pos ((isFree_iff hs).mpr hfree), hfilled]
  cases hold : b.forward.get? k with
  | none => exact ⟨_, rfl⟩
  | some old =>
    have hrecorded : b.inverse.contains old = true := by
      rw [Ledger.contains, show b.inverse.get? old = some k from (hb k old).mp hold]
      rfl
    dsimp only
    rw [if_pos hrecorded]
    exact ⟨_, rfl⟩

theorem Paired.put {b b' : Bijection κ ν} (hs : b.Solid) {k : κ} {v : ν} (hb : b.Paired)
    (h : b.put k v = .ok b') : b'.Paired := by
  obtain ⟨hfree, -, hinverse⟩ := put_ok hs h
  intro j w
  have hold : b.get? k = some w → b.keyOf? w = some k := (hb k w).mp
  rw [get?_put hs h, hinverse]
  by_cases hj : k = j
  · subst hj
    by_cases hw : v = w
    · simp [hw]
    · have := hb k w
      by_cases hk : b.get? k = some w <;> simp_all
  · by_cases hw : v = w
    · subst hw
      have hnot : b.get? j ≠ some v := fun heq => hj (hfree j ((hb j v).mp heq)).symm
      simp [hj, hnot]
    · have := hb j w
      by_cases hk : b.get? k = some w <;> simp_all

end PegScribe.Bijection
