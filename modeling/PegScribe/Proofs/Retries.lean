import PegScribe.Proofs.Histories

/-!
Retries: a build that fails leaves nothing that a later build could tell.

A failed build leaves some rules linked and others as they were written. Where a later resolver finds
the same keys, a linked rule is what the later build would have made of the written one
(`link_resolved`), and it asks for no pattern out of turn. So the registry with the traces of failed
builds stands for the one without them (`Retraces`) through every operation, and both come to the same
program or the same fault.
-/
namespace PegScribe

/-! ### What a build asks for -/

mutual

/-- The late references that linking asks the resolver about, up to the first fault. -/
def Expr.asks [PatternLibrary] (g : Grammar) (resolve : Resolver) : Expr → PatternTable → List Callee
  | .late callee, _ => [callee]
  | .rep _ body, t => asks g resolve body t
  | .seq items, t => asksAll g resolve items t
  | .choice alts, t => asksAll g resolve alts t
  | _, _ => []

/-- What linking each expression in turn asks about. -/
def Expr.asksAll [PatternLibrary] (g : Grammar) (resolve : Resolver) : List Expr → PatternTable → List Callee
  | [], _ => []
  | e :: rest, t => asks g resolve e t ++
    match e.link g resolve t with
    | .ok (_, t') => asksAll g resolve rest t'
    | .error _ => []

end

/-- What linking the rules in order asks about. -/
def asksRules [PatternLibrary] (g : Grammar) (resolve : Resolver) :
    List (RuleKey × Expr) → PatternTable → List Callee
  | [], _ => []
  | (_, e) :: rest, t => e.asks g resolve t ++
    match e.link g resolve t with
    | .ok (_, t') => asksRules g resolve rest t'
    | .error _ => []

section Link
variable {g g₀ : Grammar} {resolve last : Resolver}

theorem closed_of_finds {e : Expr} (h : ∀ ref ∈ e.references, ref.Finds g resolve) :
    (e.resolved resolve).Closed g.Has := by
  intro ref href
  rw [Registry.references_resolved] at href
  obtain ⟨ref', href', rfl⟩ := List.mem_map.mp href
  exact Registry.resolved_of_finds href' (h ref' href')

mutual

/-- Resolvers that find the same keys leave the same. -/
theorem resolved_congr : ∀ {e : Expr}, (∀ callee, .late callee ∈ e.references →
    resolve callee = last callee) → e.resolved resolve = e.resolved last
  | .literal _, _ => rfl
  | .pattern _, _ => rfl
  | .misfit _ _, _ => rfl
  | .foreign _, _ => rfl
  | .call _, _ => rfl
  | .late callee, h => by
    rw [Expr.resolved, Expr.resolved, h callee (List.mem_singleton_self _)]
  | .rep how body, h => by rw [Expr.resolved, Expr.resolved, resolved_congr (e := body) h]
  | .seq items, h => by rw [Expr.resolved, Expr.resolved, resolvedAll_congr h]
  | .choice alts, h => by rw [Expr.resolved, Expr.resolved, resolvedAll_congr h]

theorem resolvedAll_congr : ∀ {es : List Expr}, (∀ callee, .late callee ∈ Expr.referencesAll es →
    resolve callee = last callee) → Expr.resolvedAll resolve es = Expr.resolvedAll last es
  | [], _ => rfl
  | e :: rest, h => by
    rw [Expr.resolvedAll, Expr.resolvedAll,
      resolved_congr fun c hc => h c (List.mem_append_left _ hc),
      resolvedAll_congr fun c hc => h c (List.mem_append_right _ hc)]

end

variable [PatternLibrary]

mutual

/-- An expression that links well has asked about all its late references. -/
theorem asks_of_link : ∀ {e : Expr} {t : PatternTable} {linked : Expr × PatternTable},
    e.link g resolve t = .ok linked → ∀ {callee}, .late callee ∈ e.references →
    callee ∈ e.asks g resolve t
  | .literal _, _, _, _, _, h => by cases h
  | .pattern _, _, _, _, _, h => by cases h
  | .misfit _ _, _, _, _, _, h => by cases h
  | .foreign _, _, _, _, _, h => by cases h
  | .call _, _, _, _, _, h => by simp [Expr.references] at h
  | .late callee, _, _, _, _, h => by
    simp only [Expr.references, List.mem_singleton, Expr.late.injEq] at h
    exact List.mem_singleton.mpr h
  | .rep how body, t, linked, hlink, callee, h => by
    obtain ⟨linked', hbody, -⟩ := Expr.bind_ok hlink
    exact asks_of_link (e := body) hbody h
  | .seq items, t, linked, hlink, callee, h => by
    obtain ⟨linked', hitems, -⟩ := Expr.bind_ok hlink
    exact asksAll_of_link hitems h
  | .choice alts, t, linked, hlink, callee, h => by
    obtain ⟨linked', halts, -⟩ := Expr.bind_ok hlink
    exact asksAll_of_link halts h

theorem asksAll_of_link : ∀ {es : List Expr} {t : PatternTable} {linked : List Expr × PatternTable},
    Expr.linkAll g resolve es t = .ok linked → ∀ {callee}, .late callee ∈ Expr.referencesAll es →
    callee ∈ Expr.asksAll g resolve es t
  | [], _, _, _, _, h => by cases h
  | e :: rest, t, linked, hlink, callee, h => by
    obtain ⟨linked₁, he, hlink⟩ := Expr.bind_ok hlink
    obtain ⟨linked₂, hrest, -⟩ := Expr.bind_ok hlink
    rw [Expr.asksAll, he]
    rcases List.mem_append.mp h with h | h
    · exact List.mem_append_left _ (asks_of_link he h)
    · exact List.mem_append_right _ (asksAll_of_link hrest h)

end

/-- What linking finds when it goes well. -/
theorem finds_of_link {e : Expr} {t : PatternTable} {linked : Expr × PatternTable}
    (h : e.link g resolve t = .ok linked) : ∀ ref ∈ e.references, ref.Finds g resolve := by
  intro ref href
  obtain ⟨key, heq, hkey⟩ := link_closed h (ref.resolved resolve) (by
    rw [(Expr.link_ok h).1, Registry.references_resolved]
    exact List.mem_map_of_mem href)
  rcases Registry.reference_cases href with ⟨key', rfl⟩ | ⟨callee, rfl⟩
  · cases heq; exact hkey
  · rw [Expr.resolved] at heq
    cases hfound : resolve callee with
    | none => rw [hfound] at heq; cases heq
    | some key' => rw [hfound] at heq; cases heq; exact ⟨key, hfound, hkey⟩

/-! ### Linking once more -/

mutual

/-- Linking looks at nothing of the grammar but which keys have rules. -/
theorem link_congr (hkeys : ∀ key, g.rules.contains key = g₀.rules.contains key) :
    ∀ (e : Expr) (t : PatternTable), e.link g resolve t = e.link g₀ resolve t
  | .literal _, _ => rfl
  | .pattern _, _ => rfl
  | .misfit _ _, _ => rfl
  | .foreign _, _ => rfl
  | .call key, t => by simp only [Expr.link, registered, hkeys]
  | .late callee, t => by simp only [Expr.link, registered, hkeys]
  | .rep how body, t => by rw [Expr.link, Expr.link, link_congr hkeys body t]
  | .seq items, t => by rw [Expr.link, Expr.link, linkAll_congr hkeys items t]
  | .choice alts, t => by rw [Expr.link, Expr.link, linkAll_congr hkeys alts t]

theorem linkAll_congr (hkeys : ∀ key, g.rules.contains key = g₀.rules.contains key) :
    ∀ (es : List Expr) (t : PatternTable), Expr.linkAll g resolve es t = Expr.linkAll g₀ resolve es t
  | [], _ => rfl
  | e :: rest, t => by
    simp only [Expr.linkAll, link_congr hkeys e t, linkAll_congr hkeys rest]

end

mutual

/-- A rule that is resolved already links to what the written one links to. -/
theorem link_resolved : ∀ {e : Expr} (t : PatternTable),
    (∀ ref ∈ e.references, ref.Finds g resolve) →
    (e.resolved resolve).link g resolve t = e.link g resolve t
  | .literal _, _, _ => rfl
  | .pattern _, _, _ => rfl
  | .misfit _ _, _, _ => rfl
  | .foreign _, _, _ => rfl
  | .call _, _, _ => rfl
  | .late callee, t, h => by
    obtain ⟨key, hkey, -⟩ := h (.late callee) (List.mem_singleton_self _)
    simp only [Expr.resolved, hkey, Expr.link]
  | .rep how body, t, h => by
    rw [Expr.resolved, Expr.link, Expr.link, link_resolved (e := body) t h]
  | .seq items, t, h => by rw [Expr.resolved, Expr.link, Expr.link, linkAll_resolved t h]
  | .choice alts, t, h => by rw [Expr.resolved, Expr.link, Expr.link, linkAll_resolved t h]

theorem linkAll_resolved : ∀ {es : List Expr} (t : PatternTable),
    (∀ ref ∈ Expr.referencesAll es, ref.Finds g resolve) →
    Expr.linkAll g resolve (Expr.resolvedAll resolve es) t = Expr.linkAll g resolve es t
  | [], _, _ => rfl
  | e :: rest, t, h => by
    have he := link_resolved (e := e) t fun ref href => h ref (List.mem_append_left _ href)
    have hrest : ∀ t', Expr.linkAll g resolve (Expr.resolvedAll resolve rest) t' =
        Expr.linkAll g resolve rest t' :=
      fun t' => linkAll_resolved t' fun ref href => h ref (List.mem_append_right _ href)
    simp only [Expr.resolvedAll, Expr.linkAll, he, hrest]

end

end Link

/-! ### Registries with traces of failed builds -/

namespace Registry

/-- The rule is the written one, or what a resolver makes of it where every reference finds a rule. -/
def StandsFor (g : Grammar) (resolve : Resolver) (rule written : RuleKey × Expr) : Prop :=
  rule.1 = written.1 ∧ (rule.2 = written.2 ∨
    rule.2 = written.2.resolved resolve ∧ ∀ ref ∈ written.2.references, ref.Finds g resolve)

/-- A registry that differs from another by traces of failed builds, none of which matters to the
resolver. -/
structure Retraces (resolve : Resolver) (r r₀ : Registry) : Prop where
  root : r.grammar.root = r₀.grammar.root
  isSealed : r.isSealed = r₀.isSealed
  rules : List.Forall₂ (StandsFor r₀.grammar resolve) r.grammar.rules.entries
    r₀.grammar.rules.entries

section Traces
variable {g g₀ : Grammar} {resolve last : Resolver} {r r₀ : Registry}

theorem StandsFor.mono {rule written : RuleKey × Expr} (h : StandsFor g last rule written)
    (hkeys : ∀ key, g.rules.contains key = true → g₀.rules.contains key = true) :
    StandsFor g₀ last rule written := by
  refine ⟨h.1, h.2.imp id fun ⟨heq, hfinds⟩ => ⟨heq, fun ref href => ?_⟩⟩
  rcases reference_cases href with ⟨key, rfl⟩ | ⟨callee, rfl⟩
  · exact hkeys key (hfinds _ href)
  · exact (hfinds _ href).imp fun key hkey => ⟨hkey.1, hkeys key hkey.2⟩

theorem Retraces.refl (last : Resolver) (r : Registry) : Retraces last r r :=
  ⟨rfl, rfl, List.forall₂_same.mpr fun _ _ => ⟨rfl, .inl rfl⟩⟩

theorem Retraces.contains (h : Retraces last r r₀) (key : RuleKey) :
    r.grammar.rules.contains key = r₀.grammar.rules.contains key := by
  have hkeys : r.grammar.rules.keys = r₀.grammar.rules.keys :=
    List.forall₂_eq_eq_eq ▸ List.forall₂_map_left_iff.mpr
      (List.forall₂_map_right_iff.mpr (h.rules.imp fun _ _ hrule => hrule.1))
  rw [Bool.eq_iff_iff, Ledger.contains_iff_mem_keys, Ledger.contains_iff_mem_keys, hkeys]

/-- A rule is added to both, or to neither. -/
theorem Retraces.close (h : Retraces last r r₀) (key : RuleKey) (e : Expr) :
    Retraces last ((r.close key e).toOption.getD r) ((r₀.close key e).toOption.getD r₀) := by
  unfold Registry.close
  rw [h.contains key]
  cases hkey : r₀.grammar.rules.contains key with
  | true => exact h
  | false =>
    have hnew : r.grammar.rules.get? key = none := by
      simpa [Ledger.contains] using (h.contains key).trans hkey
    have hnew₀ : r₀.grammar.rules.get? key = none := by simpa [Ledger.contains] using hkey
    refine ⟨h.root, h.isSealed, ?_⟩
    show List.Forall₂ _ (r.grammar.rules.insert key e).entries
      (r₀.grammar.rules.insert key e).entries
    rw [Ledger.entries_insert_new hnew, Ledger.entries_insert_new hnew₀]
    refine List.rel_append (h.rules.imp fun rule written hrule => hrule.mono fun k hk => ?_)
      (.cons ⟨rfl, .inl rfl⟩ .nil)
    exact Ledger.contains_insert hk key e

theorem Retraces.define (h : Retraces last r r₀) (key : RuleKey) (e : Expr) :
    Retraces last ((r.define key e).toOption.getD r) ((r₀.define key e).toOption.getD r₀) := by
  unfold Registry.define openRule
  rw [h.isSealed]
  cases r₀.isSealed with
  | true => exact h
  | false => exact h.close key e

variable [PatternLibrary]

/-- A failed build links some rules, and they still stand for the written ones. -/
theorem linkRules_standsFor (hkeys : ∀ key, g.rules.contains key = g₀.rules.contains key)
    {rules written : List (RuleKey × Expr)} {t : PatternTable}
    (h : List.Forall₂ (StandsFor g₀ last) rules written)
    (hagree : ∀ callee ∈ asksRules g resolve rules t, ∀ key, resolve callee = some key →
      last callee = some key) :
    List.Forall₂ (StandsFor g₀ last) (linkRules g resolve rules t).1 written := by
  induction h generalizing t with
  | nil => exact .nil
  | @cons rule _ rest _ hrule hrest ih =>
    obtain ⟨key, e⟩ := rule
    unfold linkRules
    unfold asksRules at hagree
    cases hlink : e.link g resolve t with
    | error f => exact .cons hrule hrest
    | ok linked =>
      rw [hlink] at hagree
      refine .cons ⟨hrule.1, .inr ?_⟩ (ih fun c hc => hagree c (List.mem_append_right _ hc))
      have hlinked : linked.1 = e.resolved resolve := (Expr.link_ok hlink).1
      have hlink₀ := hlink
      rw [link_congr hkeys] at hlink₀
      rcases hrule.2 with heq | ⟨heq, hfinds⟩
      · -- the rule was written, so what was asked about it binds the last resolver
        have hsame : ∀ callee, .late callee ∈ e.references → resolve callee = last callee := by
          intro callee hmem
          obtain ⟨key', hkey', -⟩ := finds_of_link hlink₀ _ hmem
          rw [hkey', hagree callee (List.mem_append_left _ (asks_of_link hlink hmem)) key' hkey']
        cases heq
        refine ⟨hlinked.trans (resolved_congr hsame), fun ref href => ?_⟩
        have hfinds := finds_of_link hlink₀ ref href
        rcases reference_cases href with ⟨key', rfl⟩ | ⟨callee, rfl⟩
        · exact hfinds
        · exact hfinds.imp fun key' hkey' => ⟨(hsame callee href).symm.trans hkey'.1, hkey'.2⟩
      · refine ⟨hlinked.trans ?_, hfinds⟩
        cases heq
        exact (closed_of_finds hfinds).resolved resolve

/-- The last build makes the same of the rules that stand for the written ones. -/
theorem linkRules_eq (hkeys : ∀ key, g.rules.contains key = g₀.rules.contains key)
    {rules written : List (RuleKey × Expr)} (t : PatternTable)
    (h : List.Forall₂ (StandsFor g₀ last) rules written) :
    (linkRules g last rules t).2 = (linkRules g₀ last written t).2 ∧
    ∀ t', (linkRules g₀ last written t).2 = .ok t' →
      (linkRules g last rules t).1 = (linkRules g₀ last written t).1 := by
  induction h generalizing t with
  | nil => exact ⟨rfl, fun _ _ => rfl⟩
  | @cons rule rule₀ rest written hrule _ ih =>
    obtain ⟨key, e⟩ := rule
    obtain ⟨key₀, e₀⟩ := rule₀
    have hlink : e.link g last t = e₀.link g₀ last t := by
      rw [link_congr hkeys]
      rcases hrule.2 with heq | ⟨heq, hfinds⟩
      · cases heq; rfl
      · cases heq; exact link_resolved t hfinds
    cases hrule.1
    unfold linkRules
    rw [hlink]
    cases e₀.link g₀ last t with
    | error f => exact ⟨rfl, fun _ h => by cases h⟩
    | ok linked =>
      obtain ⟨houtcome, hrules⟩ := ih linked.2
      exact ⟨houtcome, fun t' ht' => congrArg ((key, linked.1) :: ·) (hrules t' ht')⟩

theorem Retraces.build_eq (h : Retraces last r r₀) : (r.build last).1 = (r₀.build last).1 := by
  obtain ⟨houtcome, hrules⟩ := linkRules_eq h.contains {} h.rules
  unfold build
  rw [h.root]
  cases hroot : r₀.grammar.root with
  | none => rfl
  | some root =>
    dsimp only
    rw [houtcome]
    cases hlink : (linkRules r₀.grammar last r₀.grammar.rules.entries {}).2 with
    | error f => rfl
    | ok table =>
      rw [hrules table hlink, h.root]
      dsimp only
      split <;> rfl

/-- The late references that a build asks its resolver about. -/
def asks (r : Registry) (resolve : Resolver) : List Callee :=
  match r.grammar.root with
  | none => []
  | some _ => asksRules r.grammar resolve r.grammar.rules.entries {}

/-- The keys that a build was given are keys that the last resolver gives. -/
def Agrees (last : Resolver) (r : Registry) (resolve : Resolver) : Prop :=
  ∀ callee ∈ r.asks resolve, ∀ key, resolve callee = some key → last callee = some key

theorem Retraces.failed (h : Retraces last r r₀) (hagree : Agrees last r resolve)
    (hfail : (r.build resolve).1.toOption = none) : Retraces last (r.build resolve).2 r₀ := by
  unfold Agrees asks at hagree
  unfold build at hfail ⊢
  cases hroot : r.grammar.root with
  | none => exact h
  | some root =>
    rw [hroot] at hagree hfail
    have hrules := linkRules_standsFor h.contains h.rules hagree
    dsimp only at hfail ⊢
    cases hlink : (linkRules r.grammar resolve r.grammar.rules.entries {}).2 with
    | error f => exact ⟨h.root, h.isSealed, hrules⟩
    | ok table =>
      rw [hlink] at hfail
      dsimp only at hfail ⊢
      split at hfail
      · exact ⟨h.root, h.isSealed, hrules⟩
      · cases hfail

end Traces

/-! ### Histories with failed builds -/

/-- Is the operation a build? -/
def Op.isBuild : Op → Bool
  | .build _ => true
  | _ => false

/-- Every build of a history agrees with the last resolver. -/
def AgreesAlong [PatternLibrary] (last : Resolver) (r : Registry) : List Op → Prop
  | [] => True
  | op :: rest =>
    (∀ resolve, op = .build resolve → Agrees last r resolve) ∧ AgreesAlong last (r.after op) rest

/-- A history whose builds all fail retraces the history without them. -/
theorem Retraces.history [PatternLibrary] {last : Resolver} : ∀ {ops : List Op} {r r₀ : Registry},
    Retraces last r r₀ → (r.history ops).2 = [] → AgreesAlong last r ops →
    Retraces last (r.history ops).1 (r₀.history (ops.filter (!·.isBuild))).1
  | [], _, _, h, _, _ => h
  | op :: rest, r, r₀, h, hfail, ⟨hagree, hagrees⟩ => by
    obtain ⟨hnone, hfail⟩ := List.append_eq_nil_iff.mp hfail
    have hrest : ∀ {r₁}, Retraces last (r.after op) r₁ →
        Retraces last ((r.after op).history rest).1 (r₁.history (rest.filter (!·.isBuild))).1 :=
      fun h₁ => h₁.history hfail hagrees
    cases op with
    | close key e => exact hrest (h.close key e)
    | define key e => exact hrest (h.define key e)
    | setRoot key => exact hrest ⟨rfl, h.isSealed, h.rules⟩
    | build resolve =>
      exact hrest (h.failed (hagree resolve rfl) (Option.toList_eq_nil_iff.mp hnone))

/-- Failed builds leave no trace. After a history in which no build went well, and none was given a key
that the last resolver does not give, the last build comes to what it comes to after the history without
the builds: the same fault, or the same program with its rules and its patterns in the same order. -/
theorem failed_builds_leave_no_trace [PatternLibrary] (r : Registry) (ops : List Op) (last : Resolver)
    (hfail : (r.history ops).2 = []) (hagree : AgreesAlong last r ops) :
    ((r.history ops).1.build last).1 =
      ((r.history (ops.filter (!·.isBuild))).1.build last).1 :=
  ((Retraces.refl last r).history hfail hagree).build_eq

/-- Knows the words but not the ends; what it says of other methods nobody asks. -/
def wordsOnly : Resolver
  | .method ⟨"G.word"⟩ => some (.given "word" "word")
  | .method ⟨"G.end"⟩ => none
  | _ => some (.given "text" "text")

/-- Knows the words and the ends. -/
def wordsAndEnds : Resolver
  | .method ⟨"G.word"⟩ => some (.given "word" "word")
  | .method ⟨"G.end"⟩ => some (.given "end" "end")
  | _ => none

/-- Linking stops at a method that is not known, then at the lack of a root, with a rule added in
between. -/
def attempts : List Op :=
  [.define (.given "text" "text") (.rep .oneOrMore (.late (.method ⟨"G.word"⟩))),
    .define (.given "line" "line") (.seq [.pattern "[a-z]+", .late (.method ⟨"G.end"⟩)]),
    .define (.given "word" "word") (.pattern "[a-z]+"), .setRoot (some (.given "text" "text")),
    .build wordsOnly, .define (.given "end" "end") (.pattern "[.]"), .setRoot none,
    .build wordsAndEnds, .setRoot (some (.given "line" "line"))]

theorem failed_builds_leave_no_trace_attempts : (({} : Registry).history attempts).2 = [] ∧
    AgreesAlong wordsAndEnds {} attempts ∧
    ((({} : Registry).history attempts).1.build wordsAndEnds).1.isOk = true ∧
    ((({} : Registry).history attempts).1.build wordsAndEnds).1 =
      ((({} : Registry).history (attempts.filter (!·.isBuild))).1.build wordsAndEnds).1 := by
  have hfail : (({} : Registry).history attempts).2 = [] :=
    List.eq_nil_of_length_eq_zero (by decide +kernel)
  have hasked : (({} : Registry).history (attempts.take 4)).1.asks wordsOnly =
      [.method ⟨"G.word"⟩, .method ⟨"G.end"⟩] := by decide +kernel
  have hwords : Agrees wordsAndEnds (({} : Registry).history (attempts.take 4)).1 wordsOnly := by
    intro callee hmem key hkey
    rw [hasked] at hmem
    simp only [List.mem_cons, List.not_mem_nil, or_false] at hmem
    rcases hmem with rfl | rfl
    · exact hkey
    · cases hkey
  have hagree : AgreesAlong wordsAndEnds {} attempts := by
    refine ⟨nofun, nofun, nofun, nofun, fun resolve heq => ?_, nofun, nofun, fun resolve heq => ?_,
      nofun, trivial⟩
    · cases heq; exact hwords
    · cases heq; exact fun _ _ _ => id
  exact ⟨hfail, hagree, by decide +kernel, failed_builds_leave_no_trace {} attempts _ hfail hagree⟩

end Registry
end PegScribe
