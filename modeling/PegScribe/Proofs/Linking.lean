import PegScribe.Proofs.Ledgers
import PegScribe.Proofs.Patterns

/-!
Linking: a registry that links well keeps its rules, with every late reference replaced by its key.

`Expr.resolved` is the replacement alone. Linking checks and compiles on the way, but what it leaves is
the resolved rules, and a table in which patterns mean what their notation says.
-/
namespace PegScribe
namespace Expr

mutual

/-- The expression with its late references replaced by the keys that they find. -/
def resolved (resolve : Resolver) : Expr → Expr
  | .late callee =>
    match resolve callee with
    | some key => .call key
    | none => .late callee
  | .rep how body => .rep how (resolved resolve body)
  | .seq items => .seq (resolvedAll resolve items)
  | .choice alts => .choice (resolvedAll resolve alts)
  | e => e

/-- Each expression resolved. -/
def resolvedAll (resolve : Resolver) : List Expr → List Expr
  | [] => []
  | e :: rest => resolved resolve e :: resolvedAll resolve rest

end

theorem resolvedAll_eq_map (resolve : Resolver) :
    ∀ es, resolvedAll resolve es = es.map (resolved resolve)
  | [] => rfl
  | e :: rest => by rw [resolvedAll, resolvedAll_eq_map resolve rest, List.map_cons]

theorem bind_ok {α β : Type} {x : Except Fault α} {f : α → Except Fault β} {b : β}
    (h : (x >>= f) = .ok b) : ∃ a, x = .ok a ∧ f a = .ok b := by
  cases x with
  | error e => cases h
  | ok a => exact ⟨a, rfl, h⟩

theorem registered_ok {g : Grammar} {key key' : RuleKey} (h : registered g key = .ok key') :
    key' = key := by
  unfold registered at h
  split at h
  · cases h; rfl
  · cases h

variable [PatternLibrary]

mutual

/-- Linking leaves the resolved expression, and patterns mean what they meant. -/
theorem link_ok {g : Grammar} {resolve : Resolver} : ∀ {e : Expr} {t : PatternTable}
    {linked : Expr × PatternTable}, e.link g resolve t = .ok linked →
      linked.1 = e.resolved resolve ∧ linked.2.meaning? = t.meaning?
  | .literal _, _, _, h => by cases h; exact ⟨rfl, rfl⟩
  | .misfit _ _, _, _, h => by cases h; exact ⟨rfl, rfl⟩
  | .foreign _, _, _, h => by cases h; exact ⟨rfl, rfl⟩
  | .pattern source, t, linked, h => by
    obtain ⟨⟨r, t'⟩, hc, h⟩ := bind_ok h
    cases h
    exact ⟨rfl, (PatternTable.compile_ok hc).2⟩
  | .call key, t, linked, h => by
    obtain ⟨key', hkey, h⟩ := bind_ok h
    cases h
    cases registered_ok hkey
    exact ⟨rfl, rfl⟩
  | .late callee, t, linked, h => by
    rw [link] at h
    rw [resolved]
    cases hkey : resolve callee with
    | none => rw [hkey] at h; cases h
    | some key =>
      rw [hkey] at h
      obtain ⟨key', hreg, h⟩ := bind_ok h
      cases h
      cases registered_ok hreg
      exact ⟨rfl, rfl⟩
  | .rep how body, t, linked, h => by
    obtain ⟨⟨body', t'⟩, hbody, h⟩ := bind_ok h
    cases h
    obtain ⟨rfl, ht⟩ := link_ok hbody
    exact ⟨rfl, ht⟩
  | .seq items, t, linked, h => by
    obtain ⟨⟨items', t'⟩, hitems, h⟩ := bind_ok h
    cases h
    obtain ⟨rfl, ht⟩ := linkAll_ok hitems
    exact ⟨rfl, ht⟩
  | .choice alts, t, linked, h => by
    obtain ⟨⟨alts', t'⟩, halts, h⟩ := bind_ok h
    cases h
    obtain ⟨rfl, ht⟩ := linkAll_ok halts
    exact ⟨rfl, ht⟩

theorem linkAll_ok {g : Grammar} {resolve : Resolver} : ∀ {es : List Expr} {t : PatternTable}
    {linked : List Expr × PatternTable}, linkAll g resolve es t = .ok linked →
      linked.1 = resolvedAll resolve es ∧ linked.2.meaning? = t.meaning?
  | [], t, linked, h => by cases h; exact ⟨rfl, rfl⟩
  | e :: rest, t, linked, h => by
    obtain ⟨⟨e', t₁⟩, he, h⟩ := bind_ok h
    obtain ⟨⟨rest', t₂⟩, hrest, h⟩ := bind_ok h
    cases h
    obtain ⟨rfl, ht₁⟩ := link_ok he
    obtain ⟨rfl, ht₂⟩ := linkAll_ok hrest
    exact ⟨rfl, ht₂.trans ht₁⟩

end

end Expr

variable [PatternLibrary]

theorem linkRules_ok {g : Grammar} {resolve : Resolver} :
    ∀ {rules : List (RuleKey × Expr)} {t t' : PatternTable},
      (linkRules g resolve rules t).2 = .ok t' →
      (linkRules g resolve rules t).1 = rules.map (fun (key, e) => (key, e.resolved resolve)) ∧
        t'.meaning? = t.meaning?
  | [], t, t', h => by cases h; exact ⟨rfl, rfl⟩
  | (key, e) :: rest, t, t', h => by
    unfold linkRules at h ⊢
    cases hlink : e.link g resolve t with
    | error f => rw [hlink] at h; cases h
    | ok linked =>
      rw [hlink] at h
      obtain ⟨he, ht⟩ := Expr.link_ok hlink
      obtain ⟨hrest, ht'⟩ := linkRules_ok h
      refine ⟨?_, ht'.trans ht⟩
      show (key, linked.1) :: (linkRules g resolve rest linked.2).1 = _
      rw [he, hrest, List.map_cons]

namespace Registry

/-- A program that was linked: the resolved rules, the root, and patterns by their notation. -/
structure LinksTo (r : Registry) (resolve : Resolver) (p : Program) : Prop where
  rules : ∀ key, p.grammar.rules.get? key = (r.grammar.rules.get? key).map (Expr.resolved resolve)
  root : p.grammar.root = r.grammar.root
  patterns : ∀ source, p.patterns.meaning? source = (PatternLibrary.compile source).toOption

/-- What a build that goes well leaves: the linked rules and the table of their patterns. -/
theorem of_build {r r' : Registry} {resolve : Resolver} {p : Program}
    (h : r.build resolve = (.ok p, r')) : ∃ table,
      (linkRules r.grammar resolve r.grammar.rules.entries {}).2 = .ok table ∧
      p = ⟨{ r.grammar with
        rules := ⟨(linkRules r.grammar resolve r.grammar.rules.entries {}).1⟩ }, table⟩ := by
  unfold build at h
  cases hroot : r.grammar.root with
  | none => rw [hroot] at h; cases h
  | some root =>
    rw [hroot] at h
    dsimp only at h
    cases hlink : (linkRules r.grammar resolve r.grammar.rules.entries {}).2 with
    | error f => rw [hlink] at h; cases h
    | ok table =>
      rw [hlink] at h
      dsimp only at h
      split at h
      · cases h
      · cases h
        exact ⟨table, rfl, rfl⟩

theorem build_ok {r r' : Registry} {resolve : Resolver} {p : Program}
    (h : r.build resolve = (.ok p, r')) : r.LinksTo resolve p := by
  obtain ⟨table, hlink, rfl⟩ := of_build h
  obtain ⟨hrules, htable⟩ := linkRules_ok hlink
  refine ⟨fun key => ?_, rfl, fun source => ?_⟩
  · dsimp only
    rw [hrules]
    exact Ledger.get?_map _ _ _
  · rw [htable]
    rfl

end Registry
end PegScribe
