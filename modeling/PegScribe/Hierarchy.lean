import PegScribe.Ledger
import PegScribe.Value

/-!
Class hierarchies: classes with members, the order in which a class and its ancestors are searched,
and the public methods that a class ends up with.

The search order puts every class before its bases, keeps the order in which bases are named, and
agrees with the search order of each base.
-/
namespace PegScribe

/-- A member of a class; `α` is what a method is made of. -/
inductive Member (α : Type) where
  | method (body : α)
  | static (body : α)
  | ofClass (body : α)
  | property (body : α)
  | plain (value : Value)

/-- A class: its name, what tells it from other classes of that name, its bases by what tells them apart,
and its members in order of definition, each under a name of its own. -/
structure ClassDecl (α : Type) where
  name : String
  id : String := name
  bases : List String
  members : Ledger String (Member α) := {}
  once : members.keys.Nodup := by first | decide | exact Ledger.nodup_keys_ofList _

namespace ClassDecl
variable {α : Type}

/-- The class that every class descends from. The names of all its members begin with an underscore, so that
none of them is public, and no member is kept. -/
def top : ClassDecl α := { name := "object", bases := [], once := by exact List.nodup_nil }

end ClassDecl

/-- A class with its search order, itself first. -/
abbrev Lineage (α : Type) := List (ClassDecl α)

namespace Lineage
variable {α : Type}

/-! ### Search order -/

/-- Does the class come later in some order? -/
def comesLater (orders : List (Lineage α)) (id : String) : Bool :=
  orders.any fun order => order.tail.any (·.id = id)

/-- The first class at the head of an order that comes later in none. -/
def nextClass? (orders : List (Lineage α)) : Option (ClassDecl α) :=
  (orders.filterMap List.head?).find? fun c => !comesLater orders c.id

/-- Drops a class from the heads of the orders. -/
def dropHead (id : String) (orders : List (Lineage α)) : List (Lineage α) :=
  orders.map fun
    | c :: rest => if c.id = id then rest else c :: rest
    | [] => []

/-- Merges search orders; nothing if they contradict each other. Each step takes a class out, so a
budget of all their classes is enough. -/
def merge? : (budget : Nat) → List (Lineage α) → Option (Lineage α)
  | budget, orders =>
    if orders.all List.isEmpty then some []
    else match budget with
      | 0 => none
      | budget + 1 =>
        match nextClass? orders with
        | none => none
        | some c => (merge? budget (dropHead c.id orders)).map (c :: ·)

/-- The search order of a class, from those of its bases. -/
def extend? (c : ClassDecl α) (bases : List (Lineage α)) : Option (Lineage α) :=
  let orders := bases ++ [bases.filterMap List.head?]
  (merge? (orders.flatten.length) orders).map (c :: ·)

/-! ### Members -/

/-- The member that a name finds, and the class that defines it. -/
def find? (l : Lineage α) (name : String) : Option (ClassDecl α × Member α) :=
  l.findSome? fun c => (c.members.get? name).map fun m => (c, m)

/-- The member that a name finds past a class. -/
def findAfter? (l : Lineage α) (owner name : String) : Option (ClassDecl α × Member α) :=
  find? ((l.dropWhile fun c => c.id ≠ owner).tail) name

/-- The methods of one class, each with the class. -/
def methodsOf (skip : String → Bool) (c : ClassDecl α) : List (String × (ClassDecl α × α)) :=
  c.members.entries.filterMap fun (name, m) =>
    match m with
    | .method body => if name.startsWith "_" || skip name then none else some (name, (c, body))
    | _ => none

/-- The public methods, base classes first and each name where it first came in; the body is that
of the last class to define the name as a method. Names that `stop` defines are left out, and
`stop` itself is passed over. -/
def publicMethods (l : Lineage α) (stop : Option (ClassDecl α)) :
    List (String × (ClassDecl α × α)) :=
  let top : ClassDecl α := ClassDecl.top
  let skip (name : String) : Bool :=
    top.members.contains name || stop.any (·.members.contains name)
  let kept := l.reverse.filter fun c => c.id ≠ top.id && stop.all (·.id ≠ c.id)
  (Ledger.ofList (kept.flatMap (methodsOf skip))).entries

end Lineage

/-- The classes that can be bases, each with its search order. -/
abbrev Hierarchy (α : Type) := Ledger String (Lineage α)

namespace Hierarchy
variable {α : Type}

/-- Only the class that every class descends from. -/
def root : Hierarchy α := ⟨[("object", [ClassDecl.top])]⟩

/-- Declares a class; nothing if a base is unknown or the bases contradict each other. -/
def declare? (h : Hierarchy α) (c : ClassDecl α) : Option (Hierarchy α) := do
  let bases ← c.bases.mapM fun b => Ledger.get? h b
  let lineage ← Lineage.extend? c bases
  return Ledger.insert h c.id lineage

/-- Declares classes in turn and gives the search order of the last. -/
def lineageOf? (h : Hierarchy α) : List (ClassDecl α) → Option (Lineage α)
  | [] => none
  | [c] => do
    let h ← h.declare? c
    Ledger.get? h c.id
  | c :: rest => do
    let h ← h.declare? c
    lineageOf? h rest

end Hierarchy
end PegScribe
