/-!
Ledgers: finite maps that remember the order in which their keys first came in.

A key keeps its first place for good; writing it again only replaces its value. `get?_insert` says
what a write does to every later look-up.
-/
namespace PegScribe

/-- Keys with one value each, in the order in which the keys were first written. -/
structure Ledger (κ ν : Type) where
  entries : List (κ × ν) := []
  deriving DecidableEq

namespace Ledger
variable {κ ν : Type} [DecidableEq κ]

/-- The value written beside `k`, looking from the front. -/
def valueIn : List (κ × ν) → κ → Option ν
  | [], _ => none
  | (k', v) :: rest, k => if k' = k then some v else valueIn rest k

/-- Writes `v` beside `k`: in place if `k` is there, else at the end. -/
def writeIn : List (κ × ν) → κ → ν → List (κ × ν)
  | [], k, v => [(k, v)]
  | (k', v') :: rest, k, v =>
    if k' = k then (k', v) :: rest else (k', v') :: writeIn rest k v

/-- The value of a key. -/
def get? (l : Ledger κ ν) (k : κ) : Option ν := valueIn l.entries k

/-- Is the key written? -/
def contains (l : Ledger κ ν) (k : κ) : Bool := (l.get? k).isSome

/-- Writes a key; a key that is there keeps its place. -/
def insert (l : Ledger κ ν) (k : κ) (v : ν) : Ledger κ ν := ⟨writeIn l.entries k v⟩

/-- Strikes a key out. -/
def erase (l : Ledger κ ν) (k : κ) : Ledger κ ν := ⟨l.entries.filter fun e => e.1 ≠ k⟩

/-- The keys, in order of first writing. -/
def keys (l : Ledger κ ν) : List κ := l.entries.map (·.1)

/-- The number of keys. -/
def size (l : Ledger κ ν) : Nat := l.entries.length

/-- Reads a list of pairs; of two pairs with one key the later value stands at the first place. -/
def ofList (pairs : List (κ × ν)) : Ledger κ ν :=
  pairs.foldl (fun l p => l.insert p.1 p.2) {}

/-! ### What a write does to a look-up -/

theorem valueIn_writeIn : ∀ (es : List (κ × ν)) (k : κ) (v : ν) (j : κ),
    valueIn (writeIn es k v) j = if k = j then some v else valueIn es j
  | [], k, v, j => by simp [writeIn, valueIn]
  | (k', v') :: rest, k, v, j => by
    by_cases h : k' = k
    · subst h; by_cases hj : k' = j <;> simp [writeIn, valueIn, hj]
    · by_cases hj : k' = j
      · subst hj; simp [writeIn, valueIn, h, Ne.symm h]
      · simp [writeIn, valueIn, h, hj, valueIn_writeIn rest k v j]

@[simp] theorem get?_insert (l : Ledger κ ν) (k : κ) (v : ν) (j : κ) :
    (l.insert k v).get? j = if k = j then some v else l.get? j :=
  valueIn_writeIn l.entries k v j

/-! ### Keys are written once -/

theorem mem_keys_writeIn {es : List (κ × ν)} {k : κ} {v : ν} {j : κ}
    (h : j ∈ (writeIn es k v).map (·.1)) : j = k ∨ j ∈ es.map (·.1) := by
  induction es with
  | nil => simpa [writeIn] using h
  | cons e rest ih =>
    unfold writeIn at h
    split at h
    · exact .inr h
    · rcases List.mem_cons.mp h with rfl | h
      · exact .inr (List.mem_cons_self ..)
      · exact (ih h).imp id (List.mem_cons_of_mem _)

theorem nodup_writeIn {es : List (κ × ν)} (h : (es.map (·.1)).Nodup) (k : κ) (v : ν) :
    ((writeIn es k v).map (·.1)).Nodup := by
  induction es with
  | nil => simp [writeIn]
  | cons e rest ih =>
    rw [List.map_cons, List.nodup_cons] at h
    unfold writeIn
    split
    · exact List.nodup_cons.mpr h
    · rename_i hne
      refine List.nodup_cons.mpr ⟨fun hmem => ?_, ih h.2⟩
      rcases mem_keys_writeIn hmem with heq | hmem
      · exact hne heq
      · exact h.1 hmem

/-- A list that is read into a ledger leaves each key once. -/
theorem nodup_keys_ofList (pairs : List (κ × ν)) : (ofList pairs).keys.Nodup := by
  suffices h : ∀ l : Ledger κ ν, l.keys.Nodup →
      (pairs.foldl (fun l p => l.insert p.1 p.2) l).keys.Nodup from h {} List.nodup_nil
  induction pairs with
  | nil => exact fun _ h => h
  | cons p rest ih => exact fun l h => ih _ (nodup_writeIn h p.1 p.2)

end Ledger
end PegScribe
