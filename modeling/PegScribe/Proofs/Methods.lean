import PegScribe.Proofs.Ledgers
import PegScribe.Script

/-!
Methods: a class has each public name once, and a method is known by its qualified name as long as
names have no dots in them.
-/
namespace PegScribe

/-- What a list holds once is what a search by its mark finds. -/
theorem find?_of_nodup {α β : Type} [DecidableEq β] (f : α → β) : ∀ {l : List α} {x : α},
    (l.map f).Nodup → x ∈ l → l.find? (fun y => f y = f x) = some x
  | y :: rest, x, hnd, hx => by
    rw [List.map_cons, List.nodup_cons] at hnd
    rw [List.find?_cons]
    rcases List.mem_cons.mp hx with rfl | hx
    · simp
    · have hne : f y ≠ f x := fun heq => hnd.1 (heq ▸ List.mem_map_of_mem hx)
      simp only [hne, decide_false]
      exact find?_of_nodup f hnd.2 hx

namespace Method

/-- The name of a method is what its qualified name ends with. -/
theorem name_qualified (owner : String) {name : String} (h : '.' ∉ name.toList) :
    (⟨owner ++ "." ++ name⟩ : Method).name = name := by
  have hlist : (owner ++ "." ++ name).toList.reverse =
      name.toList.reverse ++ '.' :: owner.toList.reverse := by
    simp [String.toList_append]
  have hall : ∀ c ∈ name.toList.reverse, (c != '.') = true := by
    intro c hc
    rw [bne_iff_ne]
    rintro rfl
    exact h (List.mem_reverse.mp hc)
  show String.ofList ((owner ++ "." ++ name).toList.reverse.takeWhile (· != '.')).reverse = name
  rw [hlist, List.takeWhile_append_of_pos hall]
  simp

/-- Members that go by different names have different qualified names. -/
theorem nodup_of_names {α : Type} {l : List (String × (Method × α))}
    (hname : ∀ x ∈ l, x.2.1.name = x.1) (hnd : (l.map (·.1)).Nodup) :
    (l.map (·.2.1)).Nodup := by
  have hnames : (l.map (·.2.1)).map Method.name = l.map (·.1) := by
    rw [List.map_map]
    exact List.map_congr_left hname
  rw [← hnames] at hnd
  exact List.Pairwise.of_map Method.name (fun _ _ hne heq => hne (congrArg Method.name heq)) hnd

end Method

namespace Lineage
variable {α : Type} {l : Lineage α}

theorem nodup_publicMethods (l : Lineage α) (stop : Option (ClassDecl α)) :
    ((publicMethods l stop).map (·.1)).Nodup :=
  Ledger.nodup_keys_ofList _

theorem name_of_qualified {ms : List (String × (ClassDecl α × α))} {x : String × (Method × α)}
    (h : x ∈ ms.map fun (name, (owner, m)) => (name, (⟨owner.name ++ "." ++ name⟩, m)))
    (hdot : '.' ∉ x.1.toList) : x.2.1.name = x.1 := by
  obtain ⟨y, -, rfl⟩ := List.mem_map.mp h
  exact Method.name_qualified y.2.1.name hdot

/-- A public method is a member of its owner. -/
theorem member_of_public {stop : Option (ClassDecl α)} {name : String} {owner : ClassDecl α} {body : α}
    (h : (name, (owner, body)) ∈ publicMethods l stop) :
    owner ∈ l ∧ (name, .method body) ∈ owner.members.entries := by
  obtain ⟨c, hc, hm⟩ := List.mem_flatMap.mp (Ledger.mem_ofList h)
  obtain ⟨⟨name', m⟩, hmem, hm⟩ := List.mem_filterMap.mp hm
  dsimp only at hm
  split at hm
  · split at hm
    · cases hm
    · cases hm
      exact ⟨List.mem_reverse.mp (List.mem_filter.mp hc).1, hmem⟩
  · cases hm

theorem member_of_find? {name : String} {owner : ClassDecl α} {m : Member α}
    (h : find? l name = some (owner, m)) : owner ∈ l ∧ (name, m) ∈ owner.members.entries := by
  obtain ⟨c, hc, h⟩ := List.exists_of_findSome?_eq_some h
  obtain ⟨m', hm, h⟩ := Option.map_eq_some_iff.mp h
  cases h
  exact ⟨hc, Ledger.mem_entries_of_get? hm⟩

theorem member_of_findAfter? {after name : String} {owner : ClassDecl α} {m : Member α}
    (h : findAfter? l after name = some (owner, m)) :
    owner ∈ l ∧ (name, m) ∈ owner.members.entries := by
  obtain ⟨howner, hm⟩ := member_of_find? h
  exact ⟨(List.dropWhile_sublist _).subset (List.mem_of_mem_tail howner), hm⟩

end Lineage

namespace GrammarClass
variable {g : GrammarClass}

theorem nodup_rules (g : GrammarClass) : (g.rules.map (·.1)).Nodup := by
  unfold rules
  rw [List.map_map]
  exact Lineage.nodup_publicMethods g (some grammarBase)

theorem find?_rules {x : String × (Method × Script)} (h : x ∈ g.rules) :
    g.rules.find? (fun (n, _) => n = x.1) = some x :=
  find?_of_nodup (·.1) g.nodup_rules h

theorem nodup_rule_methods (hdots : ∀ x ∈ g.rules, '.' ∉ x.1.toList) :
    (g.rules.map (·.2.1)).Nodup :=
  Method.nodup_of_names (fun x hx => Lineage.name_of_qualified hx (hdots x hx)) g.nodup_rules

end GrammarClass

namespace FactoryClass
variable {f : FactoryClass}

theorem nodup_methods (f : FactoryClass) : (f.methods.map (·.1)).Nodup := by
  unfold methods
  rw [List.map_map]
  exact Lineage.nodup_publicMethods f none

/-- A public method is called by its qualified name. -/
theorem call_method (hdots : ∀ x ∈ f.methods, '.' ∉ x.1.toList) {name : String} {method : Method}
    {m : FactoryMethod} (h : (name, (method, m)) ∈ f.methods) (self : FactoryObject)
    (args : List Value) : f.call self method args = m.call method self args := by
  have hnd := Method.nodup_of_names
    (fun x hx => Lineage.name_of_qualified hx (hdots x hx)) f.nodup_methods
  have hfind := find?_of_nodup (·.2.1) hnd h
  unfold call
  split
  · rename_i found
    cases found.symm.trans hfind
    rfl
  · rename_i missing
    cases missing.symm.trans hfind

end FactoryClass
end PegScribe
