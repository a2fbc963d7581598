import Mathlib.Data.List.Nodup
import PegScribe.Proofs.Reordering

/-!
Inheritance: which public methods a class ends up with, in which order, and whose they are.

A class in front of others in the search order adds its methods with new names behind those of the others
and replaces the bodies of those with known names (`names_cons`, `found_cons`). So a name stands where the
last class in the search order that defines it as a method puts it, and nothing that a class in front of
that one does about it can move it.
-/
namespace PegScribe

/-! ### Ledgers -/

namespace Ledger
variable {κ ν : Type} [DecidableEq κ]

theorem keys_insert_old {l : Ledger κ ν} {k : κ} (h : k ∈ l.keys) (v : ν) : (l.insert k v).keys = l.keys := by
  obtain ⟨entries⟩ := l
  unfold keys insert at *
  dsimp only at *
  induction entries with
  | nil => cases h
  | cons e rest ih =>
    unfold writeIn
    split
    · rfl
    · rename_i hne
      rw [List.map_cons, List.map_cons, ih ((List.mem_cons.mp h).resolve_left (Ne.symm hne))]

theorem keys_insert_new {l : Ledger κ ν} {k : κ} (h : k ∉ l.keys) (v : ν) :
    (l.insert k v).keys = l.keys ++ [k] := by
  rw [keys, entries_insert_new (get?_eq_none_iff.mpr h), List.map_append]
  rfl

/-- Of pairs that are written after one another, those with new keys come behind, in order. -/
theorem keys_foldl_insert : ∀ {pairs : List (κ × ν)} (l : Ledger κ ν), (pairs.map (·.1)).Nodup →
    (pairs.foldl (fun l p => l.insert p.1 p.2) l).keys =
      l.keys ++ (pairs.map (·.1)).filter (· ∉ l.keys)
  | [], l, _ => by simp
  | p :: rest, l, hnd => by
    rw [List.map_cons, List.nodup_cons] at hnd
    rw [List.foldl_cons, keys_foldl_insert _ hnd.2, List.map_cons]
    by_cases hp : p.1 ∈ l.keys
    · rw [keys_insert_old hp, List.filter_cons_of_neg (by simpa using hp)]
    · have hrest : (rest.map (·.1)).filter (· ∉ l.keys ++ [p.1]) =
          (rest.map (·.1)).filter (· ∉ l.keys) := by
        refine List.filter_congr fun k hk => ?_
        have hne : k ≠ p.1 := fun heq => hnd.1 (heq ▸ hk)
        simp [hne]
      rw [keys_insert_new hp, hrest, List.filter_cons_of_pos (by simpa using hp), List.append_assoc]
      rfl

end Ledger

/-! ### What a class defines -/

section Classes
variable {α : Type} {c c' : ClassDecl α} {stop : Option (ClassDecl α)} {name : String}

/-- The body of the method that a class defines by a name. -/
def ClassDecl.bodyOf? (c : ClassDecl α) (name : String) : Option α :=
  match c.members.get? name with
  | some (.method body) => some body
  | _ => none

/-- Does the class define the name as a method? -/
def ClassDecl.definesMethod (c : ClassDecl α) (name : String) : Bool := (c.bodyOf? name).isSome

theorem bodyOf?_eq_some_iff {body : α} :
    c.bodyOf? name = some body ↔ c.members.get? name = some (.method body) := by
  unfold ClassDecl.bodyOf?
  split
  · rename_i heq
    simp [heq]
  · rename_i hother
    constructor
    · intro h
      cases h
    · intro h
      exact absurd h (hother body)

/-- The second class is the first with other members by known names: overridden, shadowed by what is no
method, added or left out. -/
structure ClassDecl.Redefines (known : List String) (c c' : ClassDecl α) : Prop where
  id : c'.id = c.id
  rest : c'.members.entries.filter (·.1 ∉ known) = c.members.entries.filter (·.1 ∉ known)

namespace Lineage

/-- The name may be listed: no underscore in front, and neither the class at the top nor `stop` has it. -/
structure Listable (stop : Option (ClassDecl α)) (name : String) : Prop where
  visible : name.startsWith "_" = false
  notTop : (ClassDecl.top : ClassDecl α).members.contains name = false
  notStop : ∀ s ∈ stop, s.members.contains name = false

/-- The classes that methods are taken from, in the search order: all but the one at the top and `stop`. -/
def searched (l : Lineage α) (stop : Option (ClassDecl α)) : Lineage α :=
  l.filter fun c => c.id ≠ (ClassDecl.top : ClassDecl α).id ∧ ∀ s ∈ stop, c.id ≠ s.id

/-- The class is the first in the search order to define the name as a method, and this is the body. -/
def FirstToDefine (l : Lineage α) (name : String) (c : ClassDecl α) (body : α) : Prop :=
  ∃ front back, l = front ++ c :: back ∧ c.members.get? name = some (.method body) ∧
    ∀ d ∈ front, d.definesMethod name = false

/-- Where a name comes from: the place, from the base on, of the first class that defines it as a method,
and the place of the name among the members of that class. -/
def origin (l : Lineage α) (name : String) : Nat × Nat :=
  let place := l.reverse.findIdx (·.definesMethod name)
  (place, (l.reverse[place]?.map (·.members.keys.idxOf name)).getD 0)

/-- Further toward the base, or earlier in the same class. -/
def Earlier (p q : Nat × Nat) : Prop := p.1 < q.1 ∨ p.1 = q.1 ∧ p.2 < q.2

/-- The names of the public methods. -/
def publicNames (l : Lineage α) (stop : Option (ClassDecl α)) : List String :=
  (publicMethods l stop).map (·.1)

/-- The names that are left out. -/
def hides (stop : Option (ClassDecl α)) (name : String) : Bool :=
  (ClassDecl.top : ClassDecl α).members.contains name || stop.any (·.members.contains name)

theorem listable_iff : Listable stop name ↔ (name.startsWith "_" || hides stop name) = false := by
  rw [hides, Bool.or_eq_false_iff, Bool.or_eq_false_iff, Option.any_eq_false]
  exact ⟨fun h => ⟨h.visible, h.notTop, by simpa using h.notStop⟩,
    fun h => ⟨h.1, h.2.1, by simpa using h.2.2⟩⟩

/-! ### One class in front of others -/

/-- The entry is a method, and its name may be listed. -/
def isListed (hidden : String → Bool) (e : String × Member α) : Bool :=
  match e.2 with
  | .method _ => !(e.1.startsWith "_" || hidden e.1)
  | _ => false

theorem names_methodsOf (hidden : String → Bool) (c : ClassDecl α) :
    (methodsOf hidden c).map (·.1) = (c.members.entries.filter (isListed hidden)).map (·.1) := by
  unfold methodsOf
  induction c.members.entries with
  | nil => rfl
  | cons e rest ih =>
    obtain ⟨n, m⟩ := e
    rw [List.filterMap_cons, List.filter_cons, isListed]
    cases m with
    | method body =>
      dsimp only
      by_cases hn : (n.startsWith "_" || hidden n) = true
      · rw [if_pos hn, hn]
        exact ih
      · rw [if_neg hn, eq_false_of_ne_true hn]
        exact congrArg (n :: ·) ih
    | _ => exact ih

theorem names_methodsOf_sublist (hidden : String → Bool) (c : ClassDecl α) :
    ((methodsOf hidden c).map (·.1)).Sublist c.members.keys := by
  rw [names_methodsOf]
  exact List.filter_sublist.map _

/-- The method that a class lists by a name, with the class. -/
theorem get?_methodsOf_eq (c : ClassDecl α) (hidden : String → Bool) (name : String) :
    Ledger.get? ⟨(methodsOf hidden c).reverse⟩ name =
      if name.startsWith "_" || hidden name then none else (c.bodyOf? name).map (c, ·) := by
  rw [get?_methodsOf]
  unfold ClassDecl.bodyOf?
  split
  · rfl
  · cases c.members.get? name with
    | none => rfl
    | some m => cases m <;> rfl

theorem mem_names_methodsOf {hidden : String → Bool} : name ∈ (methodsOf hidden c).map (·.1) ↔
      (name.startsWith "_" || hidden name) = false ∧ c.definesMethod name = true := by
  have hkeys : name ∈ (methodsOf hidden c).map (·.1) ↔
      name ∈ (⟨(methodsOf hidden c).reverse⟩ : Ledger String (ClassDecl α × α)).keys := by
    rw [Ledger.keys, List.map_reverse, List.mem_reverse]
  rw [hkeys, ← Ledger.contains_iff_mem_keys, Ledger.contains, get?_methodsOf_eq,
    ClassDecl.definesMethod]
  cases name.startsWith "_" || hidden name <;> simp

/-- The methods that classes in their search order list. -/
def listed (hidden : String → Bool) (cs : Lineage α) : Ledger String (ClassDecl α × α) :=
  Ledger.ofList (cs.reverse.flatMap (methodsOf hidden))

section Listed
variable {hidden : String → Bool} {cs : Lineage α}

theorem listed_cons (c : ClassDecl α) : listed hidden (c :: cs) =
    (methodsOf hidden c).foldl (fun d p => d.insert p.1 p.2) (listed hidden cs) := by
  unfold listed Ledger.ofList
  rw [List.reverse_cons, List.flatMap_append, List.foldl_append, List.flatMap_singleton]

/-- New names come behind the others, in the order in which the class defines them. -/
theorem names_cons (c : ClassDecl α) : (listed hidden (c :: cs)).keys =
    (listed hidden cs).keys ++
      ((methodsOf hidden c).map (·.1)).filter (· ∉ (listed hidden cs).keys) := by
  rw [listed_cons, Ledger.keys_foldl_insert _ (c.once.sublist (names_methodsOf_sublist hidden c))]

/-- The body of the class in front is the one that is found. -/
theorem found_cons (c : ClassDecl α) (name : String) : (listed hidden (c :: cs)).get? name =
    (if name.startsWith "_" || hidden name then none else (c.bodyOf? name).map (c, ·)).or
      ((listed hidden cs).get? name) := by
  rw [listed_cons, Ledger.get?_foldl_insert, get?_methodsOf_eq]

theorem found_eq (cs : Lineage α) (name : String) : (listed hidden cs).get? name =
    if name.startsWith "_" || hidden name then none
      else cs.findSome? fun c => (c.bodyOf? name).map (c, ·) := by
  induction cs with
  | nil => split <;> rfl
  | cons c cs ih =>
    rw [found_cons, ih]
    split
    · rfl
    · rw [List.findSome?_cons]
      cases c.bodyOf? name <;> rfl

theorem mem_names : name ∈ (listed hidden cs).keys ↔
    (name.startsWith "_" || hidden name) = false ∧ ∃ c ∈ cs, c.definesMethod name = true := by
  rw [← Ledger.contains_iff_mem_keys, Ledger.contains, found_eq]
  split
  · rename_i hname
    simp [hname]
  · rename_i hname
    rw [List.isSome_findSome?, List.any_eq_true]
    simp [hname, ClassDecl.definesMethod]

/-! ### Where names come from -/

/-- What a class in front defines does not change where a known name comes from. -/
theorem origin_known (hknown : ∃ d ∈ cs, d.definesMethod name = true) :
    origin (c :: cs) name = origin cs name := by
  have hplace : cs.reverse.findIdx (·.definesMethod name) < cs.reverse.length := by
    rw [List.findIdx_lt_length]
    obtain ⟨d, hd, hdef⟩ := hknown
    exact ⟨d, List.mem_reverse.mpr hd, hdef⟩
  unfold origin
  dsimp only
  rw [List.reverse_cons, List.findIdx_append, if_pos hplace, List.getElem?_append_left hplace]

theorem origin_new (hnew : ∀ d ∈ cs, d.definesMethod name = false) (hdef : c.definesMethod name = true) :
    origin (c :: cs) name = (cs.length, c.members.keys.idxOf name) := by
  have hplace : cs.reverse.findIdx (·.definesMethod name) = cs.reverse.length :=
    List.findIdx_eq_length_of_false fun d hd => hnew d (List.mem_reverse.mp hd)
  unfold origin
  dsimp only
  rw [List.reverse_cons, List.findIdx_append, hplace, if_neg (Nat.lt_irrefl _), List.findIdx_cons, hdef]
  simp

theorem origin_lt (hknown : ∃ d ∈ cs, d.definesMethod name = true) : (origin cs name).1 < cs.length := by
  obtain ⟨d, hd, hdef⟩ := hknown
  rw [← List.length_reverse]
  exact List.findIdx_lt_length.mpr ⟨d, List.mem_reverse.mpr hd, hdef⟩

theorem pairwise_idxOf {β : Type} [DecidableEq β] {xs : List β} (hnd : xs.Nodup) :
    xs.Pairwise fun x y => xs.idxOf x < xs.idxOf y := by
  rw [List.pairwise_iff_getElem]
  intro i j hi hj hlt
  rwa [hnd.idxOf_getElem i hi, hnd.idxOf_getElem j hj]

/-- Names are listed in the order of where they come from. -/
theorem names_in_order (cs : Lineage α) :
    (listed hidden cs).keys.Pairwise fun n n' => Earlier (origin cs n) (origin cs n') := by
  induction cs with
  | nil => exact .nil
  | cons c cs ih =>
    have hold : ∀ n ∈ (listed hidden cs).keys, ∃ d ∈ cs, d.definesMethod n = true :=
      fun n hn => (mem_names.mp hn).2
    have hnew : ∀ n ∈ ((methodsOf hidden c).map (·.1)).filter (· ∉ (listed hidden cs).keys),
        origin (c :: cs) n = (cs.length, c.members.keys.idxOf n) := by
      intro n hn
      obtain ⟨hmem, hfresh⟩ := List.mem_filter.mp hn
      obtain ⟨hname, hdef⟩ := mem_names_methodsOf.mp hmem
      refine origin_new (fun d hd => ?_) hdef
      rw [← Bool.not_eq_true]
      exact fun hdef' => of_decide_eq_true hfresh (mem_names.mpr ⟨hname, d, hd, hdef'⟩)
    rw [names_cons, List.pairwise_append]
    refine ⟨?_, ?_, ?_⟩
    · refine ih.imp_of_mem fun hn hn' h => ?_
      rwa [origin_known (hold _ hn), origin_known (hold _ hn')]
    · refine (((pairwise_idxOf c.once).sublist (names_methodsOf_sublist hidden c)).sublist
        List.filter_sublist).imp_of_mem fun hn hn' hlt => .inr ?_
      rw [hnew _ hn, hnew _ hn']
      exact ⟨rfl, hlt⟩
    · intro n hn n' hn'
      rw [origin_known (hold n hn), hnew n' hn']
      exact .inl (origin_lt (hold n hn))

/-! ### Redefining what is known -/

theorem names_prefix (front cs : Lineage α) :
    (listed hidden cs).keys <+: (listed hidden (front ++ cs)).keys := by
  induction front with
  | nil => exact List.prefix_rfl
  | cons c front ih =>
    rw [List.cons_append, names_cons]
    exact ih.trans (List.prefix_append ..)

/-- What classes in front add depends on the names behind them only. -/
theorem names_in_front {cs' : Lineage α} (front : Lineage α)
    (h : (listed hidden cs').keys = (listed hidden cs).keys) :
    (listed hidden (front ++ cs')).keys = (listed hidden (front ++ cs)).keys := by
  induction front with
  | nil => exact h
  | cons c front ih =>
    rw [List.cons_append, List.cons_append, names_cons, names_cons, ih]

/-- A class adds the same names if it differs in known ones only. -/
theorem names_redefined (h : c.Redefines (listed hidden cs).keys c') :
    (listed hidden (c' :: cs)).keys = (listed hidden (c :: cs)).keys := by
  have hadded : ∀ d : ClassDecl α,
      ((methodsOf hidden d).map (·.1)).filter (· ∉ (listed hidden cs).keys) =
        ((d.members.entries.filter (·.1 ∉ (listed hidden cs).keys)).filter (isListed hidden)).map (·.1) :=
    fun d => by rw [names_methodsOf, List.filter_map, List.filter_comm]; rfl
  rw [names_cons, names_cons, hadded, hadded, h.rest]

end Listed

/-! ### Whole lineages -/

theorem publicMethods_eq (l : Lineage α) (stop : Option (ClassDecl α)) :
    publicMethods l stop = (listed (hides stop) (searched l stop)).entries := by
  have hkept : l.reverse.filter (fun c => c.id ≠ (ClassDecl.top : ClassDecl α).id &&
      stop.all (·.id ≠ c.id)) = (searched l stop).reverse := by
    rw [searched, ← List.filter_reverse]
    refine List.filter_congr fun c _ => ?_
    cases stop <;> simp [eq_comm]
  unfold publicMethods listed
  dsimp only
  rw [hkept]
  rfl

theorem publicNames_eq (l : Lineage α) (stop : Option (ClassDecl α)) :
    publicNames l stop = (listed (hides stop) (searched l stop)).keys := by
  rw [publicNames, publicMethods_eq, Ledger.keys]

theorem searched_append (l l' : Lineage α) (stop : Option (ClassDecl α)) :
    searched (l ++ l') stop = searched l stop ++ searched l' stop :=
  List.filter_append ..

theorem firstToDefine_iff {l : Lineage α} {body : α} : FirstToDefine l name c body ↔
    l.findSome? (fun d => (d.bodyOf? name).map (d, ·)) = some (c, body) := by
  have hbody : ∀ d : ClassDecl α, (d.bodyOf? name).map (d, ·) = some (c, body) ↔
      d = c ∧ c.members.get? name = some (.method body) := by
    intro d
    rw [Option.map_eq_some_iff]
    constructor
    · rintro ⟨_, hd, heq⟩
      cases heq
      exact ⟨rfl, bodyOf?_eq_some_iff.mp hd⟩
    · rintro ⟨rfl, hd⟩
      exact ⟨body, bodyOf?_eq_some_iff.mpr hd, rfl⟩
  have hnone : ∀ d : ClassDecl α,
      (d.bodyOf? name).map (d, ·) = none ↔ d.definesMethod name = false := by
    intro d
    rw [Option.map_eq_none_iff, ClassDecl.definesMethod, ← Option.not_isSome_iff_eq_none,
      Bool.not_eq_true]
  rw [List.findSome?_eq_some_iff]
  simp only [hbody, hnone]
  constructor
  · rintro ⟨front, back, hl, hc, hfront⟩
    exact ⟨front, c, back, hl, ⟨rfl, hc⟩, hfront⟩
  · rintro ⟨front, _, back, hl, ⟨rfl, hc⟩, hfront⟩
    exact ⟨front, back, hl, hc, hfront⟩

theorem mem_publicMethods_iff {l : Lineage α} {body : α} :
    (name, (c, body)) ∈ publicMethods l stop ↔
      Listable stop name ∧ FirstToDefine (searched l stop) name c body := by
  rw [mem_publicMethods, public?, publicMethods_eq, found_eq, listable_iff, firstToDefine_iff]
  cases name.startsWith "_" || hides stop name <;> simp

theorem publicNames_redefined {front back : Lineage α} (h : c.Redefines (publicNames back stop) c') :
    publicNames (front ++ c' :: back) stop = publicNames (front ++ c :: back) stop := by
  rw [publicNames_eq] at h
  rw [publicNames_eq, publicNames_eq, searched_append, searched_append]
  refine names_in_front _ ?_
  unfold searched at h ⊢
  rw [List.filter_cons, List.filter_cons, h.id]
  split
  · exact names_redefined h
  · rfl

/-- A name is listed just when it is public and some class, other than the one at the top and `stop`,
defines it as a method; it is listed once, with the body of the first such class in the search order. Names
stand in the order of the last such class, the base-most one, and within a class in the order of its members.
So the names that the classes at the back list come first, whatever the others define, and whatever a class
does about a name that is listed behind it, by another method or by something that is no method, leaves the
whole row of names as it is. -/
theorem rules_follow_inheritance (l : Lineage α) (stop : Option (ClassDecl α)) :
    (publicNames l stop).Nodup ∧
    (∀ name, name ∈ publicNames l stop ↔
      Listable stop name ∧ ∃ c ∈ searched l stop, c.definesMethod name = true) ∧
    (∀ name c body, (name, (c, body)) ∈ publicMethods l stop ↔
      Listable stop name ∧ FirstToDefine (searched l stop) name c body) ∧
    ((publicNames l stop).Pairwise fun name name' =>
      Earlier (origin (searched l stop) name) (origin (searched l stop) name')) ∧
    (∀ front back, l = front ++ back → publicNames back stop <+: publicNames l stop) ∧
    ∀ front c back c', l = front ++ c :: back → c.Redefines (publicNames back stop) c' →
      publicNames (front ++ c' :: back) stop = publicNames l stop := by
  refine ⟨nodup_publicMethods l stop, fun name => ?_, fun name c body => mem_publicMethods_iff, ?_, ?_, ?_⟩
  · rw [publicNames_eq, mem_names, listable_iff]
  · rw [publicNames_eq]
    exact names_in_order _
  · rintro front back rfl
    rw [publicNames_eq, publicNames_eq, searched_append]
    exact names_prefix _ _
  · rintro front c back c' rfl hredefines
    exact publicNames_redefined hredefines

end Lineage
end Classes

namespace Lineage

namespace Diamond

def core : ClassDecl Nat :=
  { name := "Core", bases := ["object"], members := ⟨[("help", .method 0)]⟩ }

def base : ClassDecl Nat :=
  { name := "Base", bases := ["Core"]
    members := ⟨[("eat", .method 1), ("sleep", .method 2), ("_dream", .method 3)]⟩ }

def left : ClassDecl Nat :=
  { name := "Side", id := "Left", bases := ["Base"]
    members := ⟨[("walk", .method 4), ("eat", .method 5)]⟩ }

/-- Another class of the same name, which shadows `sleep` by a value. -/
def right : ClassDecl Nat :=
  { name := "Side", id := "Right", bases := ["Base"]
    members := ⟨[("run", .method 6), ("walk", .method 7), ("sleep", .plain .absent)]⟩ }

/-- The right class with `sleep` left alone and `eat` shadowed. -/
def restless : ClassDecl Nat :=
  { right with
    members := ⟨[("eat", .plain .absent), ("run", .method 6), ("walk", .method 7)]⟩
    once := by decide }

def bottom : ClassDecl Nat :=
  { name := "Bottom", bases := ["Left", "Right"]
    members := ⟨[("help", .method 8), ("run", .static 9), ("sleep", .method 10)]⟩ }

/-- The search order of the class at the bottom. -/
def order : Lineage Nat := [bottom, left, right, base, core, ClassDecl.top]

end Diamond

open Diamond in
theorem rules_follow_inheritance_diamond :
    Hierarchy.root.lineageOf? [core, base, left, right, bottom] = some order ∧
    "help" ∉ publicNames order (some core) ∧
    ("eat", (left, 5)) ∈ publicMethods order (some core) ∧
    ("sleep", (bottom, 10)) ∈ publicMethods order (some core) ∧
    ["eat", "sleep"] <+: publicNames order (some core) ∧
    publicNames [bottom, left, restless, base, core, ClassDecl.top] (some core) =
      publicNames order (some core) := by
  have hlistable : Listable (some core) "eat" ∧ Listable (some core) "sleep" :=
    ⟨listable_iff.mpr (by decide +kernel), listable_iff.mpr (by decide +kernel)⟩
  have hbase : publicNames [base, core, ClassDecl.top] (some core) = ["eat", "sleep"] := by
    decide +kernel
  obtain ⟨-, hnames, hmethods, -, hfirst, hredefined⟩ :=
    rules_follow_inheritance order (some core)
  refine ⟨rfl, fun hhelp => ?_, ?_, ?_, ?_, ?_⟩
  · cases ((hnames "help").mp hhelp).1.notStop core rfl
  · exact (hmethods _ _ _).mpr ⟨hlistable.1, [bottom], [right, base], rfl, rfl, by decide⟩
  · exact (hmethods _ _ _).mpr ⟨hlistable.2, [], [left, right, base], rfl, rfl, by decide⟩
  · rw [← hbase]
    exact hfirst [bottom, left, right] _ rfl
  · refine hredefined [bottom, left] right _ restless rfl ⟨rfl, ?_⟩
    rw [hbase]
    rfl

end Lineage
end PegScribe
