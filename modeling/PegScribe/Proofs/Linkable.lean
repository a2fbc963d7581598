import PegScribe.Proofs.Linking
import PegScribe.Proofs.Lossless
import PegScribe.Proofs.Termination

/-!
Linkable registries: linking goes well just when there is a root and every reference finds a rule.

`Registry.Linkable` says what linking asks for, without linking. Where the patterns are well formed it
is all that linking asks for: `build_cases` leaves a linked program or a grammar fault, and nothing
else. A program that was linked from rules made by the combinators then runs on every text without a
fault (`runs_of_build`).
-/
namespace PegScribe
namespace Expr

mutual

/-- The references in an expression, from left to right. -/
def references : Expr → List Expr
  | .call key => [.call key]
  | .late callee => [.late callee]
  | .rep _ body => references body
  | .seq items => referencesAll items
  | .choice alts => referencesAll alts
  | _ => []

/-- The references in expressions, from left to right. -/
def referencesAll : List Expr → List Expr
  | [] => []
  | e :: rest => references e ++ referencesAll rest

end

mutual

/-- The sources of the patterns in an expression, from left to right. -/
def sources : Expr → List String
  | .pattern source => [source]
  | .rep _ body => sources body
  | .seq items => sourcesAll items
  | .choice alts => sourcesAll alts
  | _ => []

/-- The sources of the patterns in expressions, from left to right. -/
def sourcesAll : List Expr → List String
  | [] => []
  | e :: rest => sources e ++ sourcesAll rest

end

theorem referencesAll_eq_flatMap : ∀ es, referencesAll es = es.flatMap references
  | [] => rfl
  | e :: rest => by rw [referencesAll, referencesAll_eq_flatMap rest, List.flatMap_cons]

theorem sourcesAll_eq_flatMap : ∀ es, sourcesAll es = es.flatMap sources
  | [] => rfl
  | e :: rest => by rw [sourcesAll, sourcesAll_eq_flatMap rest, List.flatMap_cons]

variable [PatternLibrary]

/-- The expression's patterns are well formed. -/
def PatternsParse (e : Expr) : Prop := ∀ source ∈ e.sources, ∃ r, PatternLibrary.compile source = .ok r

/-- What the combinators make: literals, patterns that were checked, references, repetitions,
sequences and choices. -/
inductive Combined : Expr → Prop
  | literal (t : String) : Combined (.literal t)
  | pattern {source : String} {r : Pattern} (h : PatternLibrary.compile source = .ok r) :
    Combined (.pattern source)
  | call (key : RuleKey) : Combined (.call key)
  | late (callee : Callee) : Combined (.late callee)
  | optional {e : Expr} (h : Combined e) : Combined (.rep .optional e)
  | zeroOrMore {e : Expr} (h : Combined e) : Combined (.rep .zeroOrMore e)
  | oneOrMore {e : Expr} (h : Combined e) : Combined (.rep .oneOrMore e)
  | seq {items : List Expr} (h : ∀ e ∈ items, Combined e) : Combined (.seq items)
  | choice {alts : List Expr} (h : ∀ e ∈ alts, Combined e) : Combined (.choice alts)

theorem Combined.patternsParse {e : Expr} (h : e.Combined) : e.PatternsParse := by
  have hall : ∀ {es : List Expr}, (∀ e ∈ es, e.PatternsParse) →
      ∀ source ∈ sourcesAll es, ∃ r, PatternLibrary.compile source = .ok r := by
    intro es hes source hmem
    rw [sourcesAll_eq_flatMap] at hmem
    obtain ⟨e, he, hsource⟩ := List.mem_flatMap.mp hmem
    exact hes e he source hsource
  induction h with
  | literal t => simp [PatternsParse, sources]
  | pattern h => simpa [PatternsParse, sources] using ⟨_, h⟩
  | call key => simp [PatternsParse, sources]
  | late callee => simp [PatternsParse, sources]
  | optional _ ih => exact ih
  | zeroOrMore _ ih => exact ih
  | oneOrMore _ ih => exact ih
  | seq _ ih => exact hall ih
  | choice _ ih => exact hall ih

end Expr

/-! ### References that find rules -/

section Linking
variable {α β : Type} {g : Grammar} {resolve : Resolver}

/-- A reference by key finds a rule if the key has one; a late reference must find a key first. -/
def Expr.Finds (g : Grammar) (resolve : Resolver) : Expr → Prop
  | .call key => g.rules.contains key = true
  | .late callee => ∃ key, resolve callee = some key ∧ g.rules.contains key = true
  | _ => True

/-- Linking goes well and every reference finds a rule, or one does not and it gives up. -/
def LinksIff (g : Grammar) (resolve : Resolver) (refs : List Expr) (x : Except Fault α) : Prop :=
  ((∀ ref ∈ refs, ref.Finds g resolve) ∧ ∃ a, x = .ok a) ∨
    ((∃ ref ∈ refs, ¬ ref.Finds g resolve) ∧ ∃ f, x = .error (.grammar f))

theorem linksIff_ok (a : α) : LinksIff g resolve [] (.ok a) :=
  .inl ⟨by simp, a, rfl⟩

theorem LinksIff.bind {refs refs' : List Expr} {x : Except Fault α} {f : α → Except Fault β}
    (hx : LinksIff g resolve refs x) (hf : ∀ a, LinksIff g resolve refs' (f a)) :
    LinksIff g resolve (refs ++ refs') (x >>= f) := by
  rcases hx with ⟨hfinds, a, rfl⟩ | ⟨⟨ref, href, hlost⟩, fault, rfl⟩
  · rcases hf a with ⟨hfinds', b, hb⟩ | ⟨⟨ref, href, hlost⟩, fault, hfault⟩
    · exact .inl ⟨by simpa [or_imp, forall_and] using ⟨hfinds, hfinds'⟩, b, hb⟩
    · exact .inr ⟨⟨ref, by simp [href], hlost⟩, fault, hfault⟩
  · exact .inr ⟨⟨ref, by simp [href], hlost⟩, fault, rfl⟩

/-- A step that adds nothing to what linking depends on. -/
theorem LinksIff.map {refs : List Expr} {x : Except Fault α} (hx : LinksIff g resolve refs x)
    (f : α → β) : LinksIff g resolve refs (x >>= fun a => .ok (f a)) := by
  have h : LinksIff g resolve (refs ++ []) _ := hx.bind fun a => linksIff_ok (f a)
  rwa [List.append_nil] at h

theorem registered_linksIff (key : RuleKey) :
    LinksIff g resolve [.call key] (registered g key) := by
  unfold registered
  by_cases h : g.rules.contains key = true
  · rw [if_pos h]
    exact .inl ⟨by simpa [Expr.Finds] using h, key, rfl⟩
  · rw [if_neg h]
    exact .inr ⟨⟨_, List.mem_singleton_self _, h⟩, _, rfl⟩

variable [PatternLibrary]

theorem compile_linksIff {source : String} {r : Pattern} (h : PatternLibrary.compile source = .ok r)
    (t : PatternTable) : LinksIff g resolve [] (t.compile source) := by
  have hok : ∃ found, t.compile source = .ok found := by
    unfold PatternTable.compile
    cases Ledger.get? t source with
    | some known => exact ⟨_, rfl⟩
    | none => exact ⟨_, by rw [h]⟩
  obtain ⟨found, hfound⟩ := hok
  rw [hfound]
  exact linksIff_ok found

theorem late_linksIff (callee : Callee) (t : PatternTable) :
    LinksIff g resolve [.late callee] (Expr.link g resolve (.late callee) t) := by
  rw [Expr.link]
  cases hkey : resolve callee with
  | none =>
    refine .inr ⟨⟨_, List.mem_singleton_self _, ?_⟩, _, rfl⟩
    rintro ⟨key, hfound, -⟩
    rw [hkey] at hfound; cases hfound
  | some key =>
    -- from here on the late reference is a reference to the key that it found
    have hsame : (Expr.late callee).Finds g resolve ↔ (Expr.call key).Finds g resolve := by
      simp [Expr.Finds, hkey]
    rcases (registered_linksIff key).map (fun key => (Expr.call key, t)) with
      ⟨hfinds, linked⟩ | ⟨⟨ref, href, hlost⟩, fault⟩
    · exact .inl ⟨by simpa [hsame] using hfinds, linked⟩
    · obtain rfl := List.mem_singleton.mp href
      exact .inr ⟨⟨_, List.mem_singleton_self _, fun h => hlost (hsame.mp h)⟩, fault⟩

mutual

/-- An expression links if its references find rules, and else gives up with a grammar fault. -/
theorem link_linksIff : ∀ (e : Expr) (t : PatternTable), e.PatternsParse →
    LinksIff g resolve e.references (e.link g resolve t)
  | .literal _, _, _ => linksIff_ok _
  | .misfit _ _, _, _ => linksIff_ok _
  | .foreign _, _, _ => linksIff_ok _
  | .pattern source, t, h => by
    obtain ⟨r, hr⟩ := h source (by simp [Expr.sources])
    exact (compile_linksIff hr t).map _
  | .call key, t, _ => (registered_linksIff key).map _
  | .late callee, t, _ => late_linksIff callee t
  | .rep _ body, t, h => (link_linksIff body t h).map _
  | .seq items, t, h => (linkAll_linksIff items t h).map _
  | .choice alts, t, h => (linkAll_linksIff alts t h).map _

theorem linkAll_linksIff : ∀ (es : List Expr) (t : PatternTable),
    (∀ source ∈ Expr.sourcesAll es, ∃ r, PatternLibrary.compile source = .ok r) →
    LinksIff g resolve (Expr.referencesAll es) (Expr.linkAll g resolve es t)
  | [], t, _ => linksIff_ok _
  | e :: rest, t, h =>
    (link_linksIff e t fun source hs => h source (by simp [Expr.sourcesAll, hs])).bind fun linked =>
      (linkAll_linksIff rest linked.2 fun source hs => h source (by simp [Expr.sourcesAll, hs])).map _

end

theorem linkRules_linksIff : ∀ (rules : List (RuleKey × Expr)) (t : PatternTable),
    (∀ rule ∈ rules, rule.2.PatternsParse) →
    LinksIff g resolve (rules.flatMap (·.2.references)) (linkRules g resolve rules t).2
  | [], t, _ => linksIff_ok _
  | (key, e) :: rest, t, h => by
    have hrest : ∀ t, LinksIff g resolve (rest.flatMap (·.2.references))
        (linkRules g resolve rest t).2 :=
      fun t => linkRules_linksIff rest t fun rule hr => h rule (List.mem_cons_of_mem _ hr)
    have hbind := (link_linksIff e t (h _ (List.mem_cons_self ..))).bind fun linked =>
      hrest linked.2
    rw [List.flatMap_cons]
    unfold linkRules
    cases hlink : e.link g resolve t with
    | error f => rw [hlink] at hbind; exact hbind
    | ok linked => rw [hlink] at hbind; exact hbind

end Linking

/-! ### Registries -/

namespace Registry
variable {r r' : Registry} {resolve : Resolver} {p : Program}

/-- There is a root, it has a rule, and so has what every reference in every rule finds. -/
structure Linkable (r : Registry) (resolve : Resolver) : Prop where
  root : ∃ root, r.grammar.root = some root ∧ r.grammar.rules.contains root = true
  calls : ∀ rule ∈ r.grammar.rules.entries, ∀ key, .call key ∈ rule.2.references →
    r.grammar.rules.contains key = true
  lates : ∀ rule ∈ r.grammar.rules.entries, ∀ callee, .late callee ∈ rule.2.references →
    ∃ key, resolve callee = some key ∧ r.grammar.rules.contains key = true

mutual

/-- References are references. -/
theorem reference_cases : ∀ {e ref : Expr}, ref ∈ e.references →
    (∃ key, ref = .call key) ∨ ∃ callee, ref = .late callee
  | .literal _, _, h => by simp [Expr.references] at h
  | .pattern _, _, h => by simp [Expr.references] at h
  | .misfit _ _, _, h => by simp [Expr.references] at h
  | .foreign _, _, h => by simp [Expr.references] at h
  | .call key, _, h => .inl ⟨key, List.mem_singleton.mp h⟩
  | .late callee, _, h => .inr ⟨callee, List.mem_singleton.mp h⟩
  | .rep _ body, _, h => reference_cases (e := body) h
  | .seq items, _, h => reference_cases_all h
  | .choice alts, _, h => reference_cases_all h

theorem reference_cases_all : ∀ {es : List Expr} {ref : Expr}, ref ∈ Expr.referencesAll es →
    (∃ key, ref = .call key) ∨ ∃ callee, ref = .late callee
  | [], _, h => by simp [Expr.referencesAll] at h
  | e :: rest, _, h => by
    rcases List.mem_append.mp h with h | h
    · exact reference_cases h
    · exact reference_cases_all h

end

theorem linkable_iff : r.Linkable resolve ↔
    (∃ root, r.grammar.root = some root ∧ r.grammar.rules.contains root = true) ∧
      ∀ ref ∈ r.grammar.rules.entries.flatMap (·.2.references), ref.Finds r.grammar resolve := by
  constructor
  · intro h
    refine ⟨h.root, fun ref href => ?_⟩
    obtain ⟨rule, hrule, href⟩ := List.mem_flatMap.mp href
    rcases reference_cases href with ⟨key, rfl⟩ | ⟨callee, rfl⟩
    · exact h.calls rule hrule key href
    · exact h.lates rule hrule callee href
  · rintro ⟨hroot, hrefs⟩
    refine ⟨hroot, fun rule hrule key href => ?_, fun rule hrule callee href => ?_⟩
    · exact hrefs _ (List.mem_flatMap.mpr ⟨rule, hrule, href⟩)
    · exact hrefs _ (List.mem_flatMap.mpr ⟨rule, hrule, href⟩)

mutual

/-- Linking replaces references one by one. -/
theorem references_resolved (resolve : Resolver) : ∀ e : Expr,
    (e.resolved resolve).references = e.references.map (Expr.resolved resolve)
  | .literal _ => rfl
  | .pattern _ => rfl
  | .misfit _ _ => rfl
  | .foreign _ => rfl
  | .call _ => rfl
  | .late callee => by
    rw [Expr.references, List.map_singleton, Expr.resolved]
    cases resolve callee <;> rfl
  | .rep _ body => references_resolved resolve body
  | .seq items => references_resolvedAll resolve items
  | .choice alts => references_resolvedAll resolve alts

theorem references_resolvedAll (resolve : Resolver) : ∀ es : List Expr,
    Expr.referencesAll (Expr.resolvedAll resolve es) =
      (Expr.referencesAll es).map (Expr.resolved resolve)
  | [] => rfl
  | e :: rest => by
    rw [Expr.resolvedAll, Expr.referencesAll, Expr.referencesAll, List.map_append,
      references_resolved resolve e, references_resolvedAll resolve rest]

end

/-- A reference that finds a rule is resolved to a key that has one. -/
theorem resolved_of_finds {g : Grammar} {e ref : Expr} (href : ref ∈ e.references)
    (h : ref.Finds g resolve) :
    ∃ key, ref.resolved resolve = .call key ∧ g.rules.contains key = true := by
  rcases reference_cases href with ⟨key, rfl⟩ | ⟨callee, rfl⟩
  · exact ⟨key, rfl, h⟩
  · obtain ⟨key, hkey, hrule⟩ := h
    exact ⟨key, by rw [Expr.resolved, hkey], hrule⟩

variable [PatternLibrary]

/-- Every rule's body was made by the combinators. -/
def Combined (r : Registry) : Prop := ∀ rule ∈ r.grammar.rules.entries, rule.2.Combined

/-- Linking leaves the keys alone. -/
theorem contains_linked {table : PatternTable}
    (h : (linkRules r.grammar resolve r.grammar.rules.entries {}).2 = .ok table) (key : RuleKey) :
    Ledger.contains ⟨(linkRules r.grammar resolve r.grammar.rules.entries {}).1⟩ key =
      r.grammar.rules.contains key := by
  unfold Ledger.contains
  rw [(linkRules_ok h).1, Ledger.get?_map, Option.isSome_map]

/-- A registry with well-formed patterns is linkable and is linked, or is not and gives a grammar
fault. -/
theorem build_cases (hr : ∀ rule ∈ r.grammar.rules.entries, rule.2.PatternsParse) :
    (r.Linkable resolve ∧ ∃ p r', r.build resolve = (.ok p, r')) ∨
      (¬ r.Linkable resolve ∧ ∃ f r', r.build resolve = (.error (.grammar f), r')) := by
  rw [linkable_iff]
  unfold build
  cases hroot : r.grammar.root with
  | none => exact .inr ⟨by simp, _, _, rfl⟩
  | some root =>
    dsimp only
    rcases linkRules_linksIff r.grammar.rules.entries {} hr with
      ⟨hfinds, table, hlink⟩ | ⟨⟨ref, href, hlost⟩, f, hlink⟩
    · rw [hlink]
      dsimp only
      have hkey := contains_linked hlink root
      unfold Grammar.body
      cases hbody : Ledger.get? ⟨(linkRules r.grammar resolve r.grammar.rules.entries {}).1⟩ root with
      | some body =>
        have hcontains : r.grammar.rules.contains root = true := by
          rw [← hkey, Ledger.contains, hbody]; rfl
        exact .inl ⟨⟨⟨root, rfl, hcontains⟩, hfinds⟩, _, _, rfl⟩
      | none =>
        have hlost : r.grammar.rules.contains root = false := by
          rw [← hkey, Ledger.contains, hbody]; rfl
        exact .inr ⟨by simp [hlost], _, _, rfl⟩
    · rw [hlink]
      exact .inr ⟨fun h => hlost (h.2 ref href), _, _, rfl⟩

theorem linked_of_combined {g g' : Grammar} {patterns : PatternTable} {e : Expr} (h : e.Combined)
    (hrefs : ∀ ref ∈ e.references, ref.Finds g resolve)
    (hrules : ∀ key, g.rules.contains key = true → ∃ body, g'.rules.get? key = some body)
    (hpatterns : ∀ source, patterns.meaning? source = (PatternLibrary.compile source).toOption) :
    (e.resolved resolve).Linked g' patterns := by
  have hcall : ∀ {ref e : Expr}, ref ∈ e.references → ref.Finds g resolve →
      (ref.resolved resolve).Linked g' patterns := by
    intro ref e href hfinds
    obtain ⟨key, heq, hkey⟩ := resolved_of_finds href hfinds
    obtain ⟨body, hbody⟩ := hrules key hkey
    rw [heq]
    exact .call hbody
  have hpart : ∀ {es : List Expr} {e : Expr}, e ∈ es → ∀ {ref}, ref ∈ e.references →
      ref ∈ Expr.referencesAll es := by
    intro es e he ref href
    rw [Expr.referencesAll_eq_flatMap]
    exact List.mem_flatMap.mpr ⟨e, he, href⟩
  induction h with
  | literal t => exact .literal t
  | @pattern source r hr => exact .pattern (by rw [hpatterns, hr]; rfl)
  | call key =>
    have hself : .call key ∈ (Expr.call key).references := List.mem_singleton_self _
    exact hcall hself (hrefs _ hself)
  | late callee =>
    have hself : .late callee ∈ (Expr.late callee).references := List.mem_singleton_self _
    exact hcall hself (hrefs _ hself)
  | optional _ ih => exact .optional (ih hrefs)
  | zeroOrMore _ ih => exact .zeroOrMore (ih hrefs)
  | oneOrMore _ ih => exact .oneOrMore (ih hrefs)
  | @seq items _ ih =>
    rw [Expr.resolved, Expr.resolvedAll_eq_map]
    refine .seq fun e' he' => ?_
    obtain ⟨e, he, rfl⟩ := List.mem_map.mp he'
    exact ih e he fun ref href => hrefs ref (hpart he href)
  | @choice alts _ ih =>
    rw [Expr.resolved, Expr.resolvedAll_eq_map]
    refine .choice fun e' he' => ?_
    obtain ⟨e, he, rfl⟩ := List.mem_map.mp he'
    exact ih e he fun ref href => hrefs ref (hpart he href)

end Registry

/-! ### Runs of linked programs -/

namespace Packrat
variable {g : Grammar} {text : Array Char}

theorem furthest_miss (r : Run) (e : Expr) (pos : Int) :
    (r.miss e pos).furthest = max r.furthest pos := by
  unfold Run.miss Run.expect
  split
  · dsimp only
    omega
  · split <;> dsimp only <;> omega

/-- A run inside the text reports no failure past its end. -/
theorem Tries.furthest_le [PatternLibrary] {e : Expr} {pos : Int} {r r' : Run} {m : Match}
    (h : Tries g text e pos r m r') (hr : r.MovesOnward text) (hpos : Inside text pos)
    (hle : r.furthest ≤ text.size) : r'.furthest ≤ text.size := by
  have hkept : Kept text fun r => r.furthest ≤ text.size :=
    { literalMiss := fun hle hpos _ => by rw [furthest_miss]; exact Int.max_le.mpr ⟨hle, hpos.2⟩
      compile := fun hle _ => hle
      patternMiss := fun hle _ hpos _ => by
        rw [furthest_miss]; exact Int.max_le.mpr ⟨hle, hpos.2⟩
      enter := fun hle _ _ => hle
      leave := fun hle _ _ _ => hle }
  exact h.keeps hkept hr hpos hle

end Packrat

/-- What a run came to lies within the source. -/
def Outcome.Within (source : Source) : Outcome → Prop
  | .matched _ consumed => 0 ≤ consumed ∧ consumed ≤ source.length
  | .failed index _ => 0 ≤ index ∧ index ≤ source.length

namespace Program
variable [PatternLibrary] {p : Program}

/-- The run comes to an outcome within the source, and only a limit on nesting can keep it from it. -/
def RunsTo (p : Program) (source : Source) (outcome : Outcome) : Prop :=
  outcome.Within source ∧ (∃ d₀, ∀ d ≥ d₀, p.runWithin d source = .ok outcome) ∧
    ∀ d, p.runWithin d source = .error .tooDeep ∨ p.runWithin d source = .ok outcome

/-- A linked program with a root comes to an outcome on every source. -/
theorem runs_of_linked (hp : p.grammar.Linked p.patterns) {body : Expr}
    (hroot : p.grammar.rules.get? p.start = some body) (source : Source) :
    ∃ outcome, p.RunsTo source outcome := by
  have hin : Packrat.Inside source.chars 0 := ⟨Int.le_refl 0, by omega⟩
  obtain ⟨m, r, htries⟩ := Packrat.tries_of_linked hp (.call hroot) source.chars 0
  obtain ⟨tree, rfl⟩ := Packrat.ofTree_of_call htries
  obtain ⟨d₀, hd₀⟩ := Packrat.parse_of_tries htries
  obtain ⟨outcome, hwithin, hrun⟩ : ∃ outcome : Outcome, outcome.Within source ∧
      ∀ d, Packrat.parse p.grammar p.patterns d p.start source.chars 0 = .ok (r.verdict 0 tree) →
        p.runWithin d source = .ok outcome := by
    cases tree with
    | some root =>
      have hmatched : ∀ d, Packrat.parse p.grammar p.patterns d p.start source.chars 0 =
          .ok (r.verdict 0 (some root)) → p.runWithin d source = .ok (.matched root root.stop) :=
        fun d h => runWithin_matched h rfl
      refine ⟨.matched root root.stop, ?_, hmatched⟩
      exact (lossless_of_matched (hmatched d₀ (hd₀ d₀ (Nat.le_refl _)))).bounds
    | none =>
      obtain ⟨report, hreport⟩ := source.report?_isSome (Int.le_max_right r.furthest 0) r.expected
      refine ⟨.failed (max r.furthest 0) report, ⟨Int.le_max_right .., ?_⟩, fun d h =>
        runWithin_failed h rfl hreport⟩
      have hle := htries.furthest_le (Packrat.movesOnward_start _) hin (by show (-1 : Int) ≤ _; omega)
      exact Int.max_le.mpr ⟨hle, by omega⟩
  refine ⟨outcome, hwithin, ⟨d₀, fun d hd => hrun d (hd₀ d hd)⟩, fun d => ?_⟩
  exact (Packrat.parse_eq_or_tooDeep hd₀ d).imp runWithin_of_parse_error (hrun d)

end Program

namespace Registry

section Library
variable [PatternLibrary] {r r' : Registry} {resolve : Resolver} {p : Program}

theorem entries_of_build (h : r.build resolve = (.ok p, r')) :
    p.grammar.rules.entries =
      r.grammar.rules.entries.map (fun (key, e) => (key, e.resolved resolve)) := by
  obtain ⟨table, hlink, rfl⟩ := of_build h
  exact (linkRules_ok hlink).1

theorem contains_of_build (h : r.build resolve = (.ok p, r')) (key : RuleKey) :
    p.grammar.rules.contains key = r.grammar.rules.contains key := by
  unfold Ledger.contains
  rw [(build_ok h).rules key, Option.isSome_map]

/-- A program that was built from combined rules runs on every source. -/
theorem runs_of_build (hr : r.Combined) (hlinkable : r.Linkable resolve)
    (h : r.build resolve = (.ok p, r')) (source : Source) :
    ∃ outcome, p.RunsTo source outcome := by
  have hlinks := build_ok h
  have hrules : ∀ key, r.grammar.rules.contains key = true →
      ∃ body, p.grammar.rules.get? key = some body := by
    intro key hkey
    rw [← contains_of_build h] at hkey
    exact Option.isSome_iff_exists.mp hkey
  have hlinked : p.grammar.Linked p.patterns := by
    intro key body hbody
    rw [hlinks.rules key] at hbody
    obtain ⟨e, he, rfl⟩ := Option.map_eq_some_iff.mp hbody
    have hmem := Ledger.mem_entries_of_get? he
    refine linked_of_combined (hr _ hmem) (fun ref href => ?_) hrules hlinks.patterns
    exact (linkable_iff.mp hlinkable).2 ref (List.mem_flatMap.mpr ⟨_, hmem, href⟩)
  obtain ⟨root, hroot, hcontains⟩ := hlinkable.root
  obtain ⟨body, hbody⟩ := hrules root hcontains
  have hstart : p.start = root := by
    rw [Program.start, hlinks.root, hroot]
    rfl
  exact Program.runs_of_linked hlinked (hstart ▸ hbody) source

/-- Linking is sound and complete. It succeeds just when the registry is linkable, and else it gives a
grammar fault. What it leaves are the rules in their order, with nothing changed but late references,
each of which names a rule now; and the program comes to an outcome on every source. -/
theorem build_sound_and_complete (r : Registry) (resolve : Resolver) (hr : r.Combined) :
    ((∃ p r', r.build resolve = (.ok p, r')) ↔ r.Linkable resolve) ∧
    (¬ r.Linkable resolve → ∃ f r', r.build resolve = (.error (.grammar f), r')) ∧
    ∀ p r', r.build resolve = (.ok p, r') →
      p.grammar.root = r.grammar.root ∧
      p.grammar.rules.entries =
        r.grammar.rules.entries.map (fun (key, e) => (key, e.resolved resolve)) ∧
      (∀ rule ∈ p.grammar.rules.entries, ∀ ref ∈ rule.2.references,
        ∃ key, ref = .call key ∧ p.grammar.rules.contains key = true) ∧
      ∀ source, ∃ outcome, p.RunsTo source outcome := by
  have hcases : (r.Linkable resolve ∧ _) ∨ (¬ r.Linkable resolve ∧ _) :=
    build_cases fun rule h => (hr rule h).patternsParse
  have hlinkable : ∀ {p r'}, r.build resolve = (.ok p, r') → r.Linkable resolve := by
    intro p r' h
    rcases hcases with ⟨hl, -⟩ | ⟨-, f, r'', hf⟩
    · exact hl
    · rw [hf] at h; cases h
  refine ⟨⟨fun ⟨p, r', h⟩ => hlinkable h, fun hl => ?_⟩, fun hl => ?_, fun p r' h => ?_⟩
  · exact (hcases.resolve_right fun h => h.1 hl).2
  · exact (hcases.resolve_left fun h => hl h.1).2
  · have hentries := entries_of_build h
    refine ⟨(build_ok h).root, hentries, fun rule hrule ref href => ?_, runs_of_build hr (hlinkable h) h⟩
    rw [hentries] at hrule
    obtain ⟨source, hsource, rfl⟩ := List.mem_map.mp hrule
    dsimp only at href
    rw [references_resolved] at href
    obtain ⟨written, hwritten, rfl⟩ := List.mem_map.mp href
    have hfinds := (linkable_iff.mp (hlinkable h)).2 written
      (List.mem_flatMap.mpr ⟨source, hsource, hwritten⟩)
    obtain ⟨key, heq, hkey⟩ := resolved_of_finds hwritten hfinds
    exact ⟨key, heq, (contains_of_build h key).trans hkey⟩

end Library

/-- A rule that leads to another by its method and back to itself by its key. -/
def crossed : Registry :=
  let pair := RuleKey.given "pair" "pair"
  let word := RuleKey.given "word" "word"
  { grammar := {
      rules := ⟨[
        (pair, .seq [.late (.method ⟨"Pairs.word"⟩), .rep .optional (.call pair)]),
        (word, .pattern "[a-z]+")]⟩
      root := some pair } }

/-- Every method stands for the rule of words. -/
def toWord : Resolver
  | .method _ => some (.given "word" "word")
  | .value _ => none

theorem build_sound_and_complete_crossed : crossed.Combined ∧
    (∃ p r', crossed.build toWord = (.ok p, r') ∧
      ∀ source, ∃ outcome, p.RunsTo source outcome) ∧
    ∃ f r', crossed.build (fun _ => none) = (.error (.grammar f), r') := by
  have hcombined : crossed.Combined := by
    intro rule hrule
    simp only [crossed, List.mem_cons, List.not_mem_nil, or_false] at hrule
    rcases hrule with rfl | rfl
    · refine .seq fun e he => ?_
      simp only [List.mem_cons, List.not_mem_nil, or_false] at he
      rcases he with rfl | rfl
      · exact .late _
      · exact .optional (.call _)
    · exact .pattern (show PatternLibrary.compile "[a-z]+" = .ok _ from rfl)
  obtain ⟨hbuilds, -, hruns⟩ := build_sound_and_complete crossed toWord hcombined
  have hlinkable : crossed.Linkable toWord := by
    refine ⟨⟨_, rfl, rfl⟩, fun rule hrule key href => ?_, fun rule hrule callee href => ?_⟩
    · simp only [crossed, List.mem_cons, List.not_mem_nil, or_false] at hrule
      rcases hrule with rfl | rfl
      · simp [Expr.references, Expr.referencesAll] at href
        subst href; rfl
      · simp [Expr.references] at href
    · simp only [crossed, List.mem_cons, List.not_mem_nil, or_false] at hrule
      rcases hrule with rfl | rfl
      · simp [Expr.references, Expr.referencesAll] at href
        subst href; exact ⟨_, rfl, rfl⟩
      · simp [Expr.references] at href
  obtain ⟨p, r', hbuild⟩ := hbuilds.mpr hlinkable
  refine ⟨hcombined, ⟨p, r', hbuild, (hruns p r' hbuild).2.2.2⟩, ?_⟩
  refine (build_sound_and_complete crossed (fun _ => none) hcombined).2.1 fun h => ?_
  obtain ⟨_, hnone, -⟩ := h.lates _ (List.mem_cons_self ..) (.method ⟨"Pairs.word"⟩)
    (by simp [Expr.references, Expr.referencesAll])
  cases hnone

end Registry
end PegScribe
