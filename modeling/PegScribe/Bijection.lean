import PegScribe.Ledger

/-!
Bijections: two ledgers that read each other backwards.

A value belongs to one key at a time. A type may have a blank element; a blank found in a ledger
counts as nothing found, so blank keys and values escape the rule.
-/
namespace PegScribe

/-- Types some of whose elements stand for "nothing here". -/
class Blank (α : Type) where
  isBlank : α → Bool := fun _ => false

instance {α : Type} : Blank (Option α) := ⟨Option.isNone⟩

/-- What was looked up, unless it is blank. -/
def Blank.filled? {α : Type} [Blank α] : Option α → Option α
  | some a => if Blank.isBlank a then none else some a
  | none => none

/-- Keys and values, each the other's partner. -/
structure Bijection (κ ν : Type) where
  forward : Ledger κ ν := {}
  inverse : Ledger ν κ := {}
  deriving DecidableEq

namespace Bijection
variable {κ ν : Type} [DecidableEq κ] [DecidableEq ν] [Blank κ] [Blank ν]

/-- Why a pair is not taken. -/
inductive Refusal (ν : Type) where
  /-- The value belongs to another key. -/
  | taken (value : ν)
  /-- The key's old value is not on record, so it cannot be released. -/
  | unrecorded (value : ν)

/-- The value of a key. -/
def get? (b : Bijection κ ν) (k : κ) : Option ν := b.forward.get? k

/-- The key of a value. -/
def keyOf? (b : Bijection κ ν) (v : ν) : Option κ := b.inverse.get? v

/-- Has the key a value? -/
def contains (b : Bijection κ ν) (k : κ) : Bool := b.forward.contains k

/-- Has the value a key? -/
def containsValue (b : Bijection κ ν) (v : ν) : Bool := b.inverse.contains v

/-- The number of pairs. -/
def size (b : Bijection κ ν) : Nat := b.forward.size

/-- The pairs, in the order in which their keys first came in. -/
def pairs (b : Bijection κ ν) : List (κ × ν) := b.forward.entries

/-- The value does not belong to a key other than `k`. -/
def isFree (b : Bijection κ ν) (k : κ) (v : ν) : Bool :=
  match Blank.filled? (b.inverse.get? v) with
  | some other => other = k
  | none => true

/-- Binds `k` to `v` and releases the value that `k` had. A refusal changes nothing. -/
def put (b : Bijection κ ν) (k : κ) (v : ν) : Except (Refusal ν) (Bijection κ ν) :=
  if b.isFree k v then
    match Blank.filled? (b.forward.get? k) with
    | some old =>
      if b.inverse.contains old then
        .ok ⟨b.forward.insert k v, (b.inverse.erase old).insert v k⟩
      else .error (.unrecorded old)
    | none => .ok ⟨b.forward.insert k v, b.inverse.insert v k⟩
  else .error (.taken v)

end Bijection
end PegScribe
