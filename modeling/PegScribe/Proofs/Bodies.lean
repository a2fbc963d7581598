import PegScribe.Proofs.Methods

/-!
Bodies: the terms that the members of a grammar are made of.

Whatever a name finds on a grammar is played from the body of a member (`of_target?`), so what holds of
all terms in the members holds of all that is ever played.
-/
namespace PegScribe

namespace Term

mutual

/-- The terms in a term, itself first. -/
def parts : Term → List Term
  | .is args => .is args :: partsAll args
  | .rule key args => .rule key args :: partsAll args
  | .token arg => .token arg :: parts arg
  | .pattern arg => .pattern arg :: parts arg
  | .wrap how args => .wrap how args :: partsAll args
  | .firstOf args => .firstOf args :: partsAll args
  | .action name args => .action name args :: partsAll args
  | .actionNamed name names args => .actionNamed name names args :: partsAll args
  | .call name args => .call name args :: partsAll args
  | .inherited name args => .inherited name args :: partsAll args
  | .attempt body => .attempt body :: parts body
  | t => [t]

/-- The terms in terms. -/
def partsAll : List Term → List Term
  | [] => []
  | t :: rest => parts t ++ partsAll rest

end

/-- Is it an expression pushed by hand? -/
def isPush : Term → Bool
  | .push _ => true
  | _ => false

/-- Does it swallow a fault? -/
def isAttempt : Term → Bool
  | .attempt _ => true
  | _ => false

/-- The key that the term gives to a rule. -/
def key? : Term → Option RuleKey
  | .nonterminal key | .rule key _ => key
  | _ => none

theorem self_mem_parts (t : Term) : t ∈ t.parts := by
  cases t <;> simp [parts]

end Term

/-- The body of a member. -/
def Member.script : Member Script → Script
  | .method body | .static body | .ofClass body | .property body => body
  | .plain _ => []

/-- The rule methods of a grammar. -/
def GrammarClass.methods (g : GrammarClass) : List Method := g.rules.map (·.2.1)

namespace Stage
variable {s : Stage}

/-- The terms in the bodies of the grammar's members. -/
def terms (s : Stage) : List Term :=
  s.grammar.flatMap fun c => c.members.entries.flatMap fun (_, m) => Term.partsAll m.script

/-- The keys that the bodies give to rules. -/
def keys (s : Stage) : List RuleKey := s.terms.filterMap Term.key?

/-- Somewhere in the bodies a factory method is called by that name with so many arguments. -/
def CallsAction (s : Stage) (name : String) (count : Nat) : Prop :=
  ∃ args, args.length = count ∧
    (.action name args ∈ s.terms ∨ ∃ names, .actionNamed name names args ∈ s.terms)

/-- No body pushes an expression by hand. -/
def PushesNothing (s : Stage) : Prop := ∀ t ∈ s.terms, t.isPush = false

/-- Every body lets faults pass. -/
def SwallowsNothing (s : Stage) : Prop := ∀ t ∈ s.terms, t.isAttempt = false

instance (s : Stage) : Decidable s.PushesNothing :=
  inferInstanceAs (Decidable (∀ t ∈ s.terms, t.isPush = false))

instance (s : Stage) : Decidable s.SwallowsNothing :=
  inferInstanceAs (Decidable (∀ t ∈ s.terms, t.isAttempt = false))

/-- The script is part of some body. -/
def Holds (s : Stage) (script : Script) : Prop := ∀ t ∈ Term.partsAll script, t ∈ s.terms

theorem holds_nil : s.Holds [] := by simp [Holds, Term.partsAll]

theorem holds_of_member {c : ClassDecl Script} {name : String} {m : Member Script}
    (hc : c ∈ s.grammar) (hm : (name, m) ∈ c.members.entries) : s.Holds m.script := by
  intro t ht
  exact List.mem_flatMap.mpr ⟨c, hc, List.mem_flatMap.mpr ⟨(name, m), hm, ht⟩⟩

/-- The body that is played when the target is called. -/
def Target.script : Target → Script
  | .rule _ _ body | .inline _ body | .getter _ body => body
  | .inert _ => []

theorem script_targetOf (owner : ClassDecl Script) (m : Member Script) :
    (targetOf owner m).script = m.script := by
  cases m <;> rfl

theorem holds_rule {x : String × (Method × Script)} (h : x ∈ s.grammar.rules) : s.Holds x.2.2 := by
  obtain ⟨⟨name, owner, body⟩, hx, rfl⟩ := List.mem_map.mp h
  obtain ⟨howner, hm⟩ := Lineage.member_of_public hx
  exact holds_of_member howner hm

/-- A name finds a rule method of the grammar, or else something that is no rule method. -/
theorem of_target? {name : String} {target : Target} (h : s.target? name = some target) :
    s.Holds target.script ∧
      ∀ method owner body, target = .rule method owner body → method ∈ s.grammar.methods := by
  unfold target? at h
  split at h
  · cases h; exact ⟨holds_nil, nofun⟩
  · split at h
    · cases h; exact ⟨holds_nil, nofun⟩
    · split at h
      · rename_i found
        cases h
        have hx := List.mem_of_find?_eq_some found
        refine ⟨holds_rule hx, fun method owner body heq => ?_⟩
        cases heq
        exact List.mem_map.mpr ⟨_, hx, rfl⟩
      · obtain ⟨⟨owner, m⟩, hfound, rfl⟩ := Option.map_eq_some_iff.mp h
        obtain ⟨howner, hm⟩ := Lineage.member_of_find? hfound
        refine ⟨script_targetOf owner m ▸ holds_of_member howner hm, fun _ _ _ heq => ?_⟩
        cases m <;> cases heq

/-- A rule method that a name finds is the grammar's of that name. -/
theorem mem_of_target? {name owner : String} {method : Method} {body : Script}
    (h : s.target? name = some (.rule method owner body)) :
    (name, (method, body)) ∈ s.grammar.rules ∧ owner = s.grammar.ownerOf name := by
  unfold target? at h
  split at h
  · cases h
  · split at h
    · cases h
    · split at h
      · rename_i found
        cases h
        obtain rfl := show _ = name by simpa using List.find?_some found
        exact ⟨List.mem_of_find?_eq_some found, rfl⟩
      · obtain ⟨⟨owner, m⟩, -, heq⟩ := Option.map_eq_some_iff.mp h
        cases m <;> cases heq

/-- A name that is looked up past a class finds no rule method. -/
theorem of_inheritedTarget? {after name : String} {target : Target}
    (h : s.inheritedTarget? after name = some target) :
    s.Holds target.script ∧ ∀ method owner body, target ≠ .rule method owner body := by
  obtain ⟨⟨owner, m⟩, hfound, rfl⟩ := Option.map_eq_some_iff.mp h
  obtain ⟨howner, hm⟩ := Lineage.member_of_findAfter? hfound
  refine ⟨script_targetOf owner m ▸ holds_of_member howner hm, fun _ _ _ heq => ?_⟩
  cases m <;> cases heq

end Stage

end PegScribe
