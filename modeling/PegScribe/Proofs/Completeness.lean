import PegScribe.Proofs.Linkable
import PegScribe.Proofs.Moves

/-!
Completeness: a recording that ends well leaves nothing undone.

While faults pass, every key that is put on record gets its rule in the same move, but for the key of the
open rule; `Complete` says so, and every move preserves it. In the end no rule is open, so every rule
method has its rule, and every reference that was recorded finds one: the registry links.
-/
namespace PegScribe

namespace Recorder
open Stage

section Library
variable [PatternLibrary] {s : Stage} {r r' : Recorder} {e : Expr}

/-- A reference by key has a rule already; a late reference names a rule method. -/
def Expects (s : Stage) (r : Recorder) : Expr → Prop
  | .call key => r.registry.hasRule key = true
  | .late callee => ∃ m ∈ s.grammar.methods, callee = .method m
  | _ => True

/-- The references are as expected and the patterns are well formed. -/
structure Sound (s : Stage) (r : Recorder) (e : Expr) : Prop where
  refs : ∀ ref ∈ e.references, r.Expects s ref
  patterns : e.PatternsParse

theorem Sound.mono (h : r.Sound s e)
    (hrules : ∀ key, r.registry.hasRule key = true → r'.registry.hasRule key = true) :
    r'.Sound s e := by
  refine ⟨fun ref href => ?_, h.patterns⟩
  have hexpects := h.refs ref href
  cases ref with
  | call key => exact hrules key hexpects
  | _ => exact hexpects

theorem sound_call {key : RuleKey} (h : r.registry.hasRule key = true) : r.Sound s (.call key) := by
  refine ⟨fun ref href => ?_, by simp [Expr.PatternsParse, Expr.sources]⟩
  obtain rfl := List.mem_singleton.mp href
  exact h

theorem sound_late {m : Method} (hm : m ∈ s.grammar.methods) : r.Sound s (.late (.method m)) := by
  refine ⟨fun ref href => ?_, by simp [Expr.PatternsParse, Expr.sources]⟩
  obtain rfl := List.mem_singleton.mp href
  exact ⟨m, hm, rfl⟩

theorem sound_rep (how : Repetition) (h : r.Sound s e) : r.Sound s (.rep how e) :=
  ⟨h.refs, h.patterns⟩

theorem sound_all {es : List Expr} (h : ∀ e ∈ es, r.Sound s e) :
    (∀ ref ∈ Expr.referencesAll es, r.Expects s ref) ∧
      ∀ source ∈ Expr.sourcesAll es, ∃ regex, PatternLibrary.compile source = .ok regex := by
  constructor
  · intro ref href
    rw [Expr.referencesAll_eq_flatMap] at href
    obtain ⟨e, he, href⟩ := List.mem_flatMap.mp href
    exact (h e he).refs ref href
  · intro source hsource
    rw [Expr.sourcesAll_eq_flatMap] at hsource
    obtain ⟨e, he, hsource⟩ := List.mem_flatMap.mp hsource
    exact (h e he).patterns source hsource

theorem sound_choice {alts : List Expr} (h : ∀ e ∈ alts, r.Sound s e) : r.Sound s (.choice alts) :=
  ⟨(sound_all h).1, (sound_all h).2⟩

theorem sound_operands {es : List Expr} (h : ∀ e ∈ es, r.Sound s e) : r.Sound s (operands es) := by
  unfold operands
  split
  · exact h _ (List.mem_singleton_self _)
  · exact ⟨(sound_all h).1, (sound_all h).2⟩

theorem sound_lexeme {kind : RuleKind} (h : Lexical kind e) : r.Sound s (padded e) := by
  have hblank : ∃ regex, PatternLibrary.compile whitespace = .ok regex :=
    ⟨_, PatternLibrary.compile_blanks⟩
  cases h with
  | literal t =>
    refine ⟨by simp [padded, Expr.references, Expr.referencesAll], ?_⟩
    simpa [padded, Expr.PatternsParse, Expr.sources, Expr.sourcesAll] using hblank
  | misfit shown type =>
    refine ⟨by simp [padded, Expr.references, Expr.referencesAll], ?_⟩
    simpa [padded, Expr.PatternsParse, Expr.sources, Expr.sourcesAll] using hblank
  | pattern h =>
    refine ⟨by simp [padded, Expr.references, Expr.referencesAll], ?_⟩
    simpa [padded, Expr.PatternsParse, Expr.sources, Expr.sourcesAll] using ⟨hblank, ⟨_, h⟩, hblank⟩

/-! ### What every move preserves -/

/-- Every key on record has a rule, but for the key of the open rule; methods and keys are partners;
and whatever was pushed or made a rule can be linked in the end. -/
structure Complete (s : Stage) (r : Recorder) : Prop where
  users : ∀ m key, r.model.userRules.get? m = some key →
    r.registry.hasRule key = true ∨ r.pendingKey = some key
  pending : ∀ key, r.pendingKey = some key →
    ∃ m, r.building = some m ∧ r.model.userRules.get? m = some key
  actions : ∀ m key, r.model.actionRules.get? m = some key → r.registry.hasRule key = true
  kinds : ∀ key kind, r.model.kinds.get? key = some kind → r.registry.hasRule key = true
  paired : r.model.userRules.Paired
  onceUsers : r.model.userRules.forward.keys.Nodup
  onceActions : r.model.actionRules.forward.keys.Nodup
  onceKinds : r.model.kinds.keys.Nodup
  stack : ∀ e ∈ r.stack, r.Sound s e
  rules : ∀ rule ∈ r.registry.grammar.rules.entries, r.Sound s rule.2

theorem complete_start (s : Stage) : Complete s {} where
  users := nofun
  pending := nofun
  actions := nofun
  kinds := nofun
  paired := fun _ _ => ⟨nofun, nofun⟩
  onceUsers := List.nodup_nil
  onceActions := List.nodup_nil
  onceKinds := List.nodup_nil
  stack := nofun
  rules := nofun

theorem Complete.restack (h : r.Complete s) {stack : List Expr} (hstack : ∀ e ∈ stack, r.Sound s e) :
    Complete s { r with stack } :=
  { h with
    stack := fun e he => (hstack e he).mono fun _ => id
    rules := fun rule hrule => (h.rules rule hrule).mono fun _ => id }

section Changes
variable {key : RuleKey} {body : Expr}

/-- A rule is added, and what has been pushed is as sound as before. -/
theorem Complete.sounds (h : r.Complete s) (r' : Recorder) (hrules : r'.registry.grammar.rules =
      r.registry.grammar.rules.insert key body) (hbody : r.Sound s body)
    (hstack : ∀ e ∈ r'.stack, r.Sound s e ∨ e = .call key) :
    (∀ e ∈ r'.stack, r'.Sound s e) ∧
      ∀ rule ∈ r'.registry.grammar.rules.entries, r'.Sound s rule.2 := by
  have hmono : ∀ k, r.registry.hasRule k = true → r'.registry.hasRule k = true := by
    intro k hk
    unfold Registry.hasRule at hk ⊢
    rw [hrules]
    exact Ledger.contains_insert hk key body
  constructor
  · intro e he
    rcases hstack e he with hsound | rfl
    · exact hsound.mono hmono
    · refine sound_call ?_
      unfold Registry.hasRule
      rw [hrules]
      exact Ledger.contains_insert_self ..
  · intro rule hrule
    rw [hrules] at hrule
    rcases Ledger.mem_writeIn hrule with rfl | hrule
    · exact hbody.mono hmono
    · exact (h.rules rule hrule).mono hmono

theorem Complete.withKind (h : r.Complete s) (kind : RuleKind) {stack : List Expr}
    (hbody : r.Sound s body) (hstack : ∀ e ∈ stack, r.Sound s e ∨ e = .call key) :
    (r.withKind key kind body stack).Complete s := by
  obtain ⟨hpushed, hrules⟩ := h.sounds (r.withKind key kind body stack) rfl hbody hstack
  have hmono : ∀ k, r.registry.hasRule k = true →
      (r.withKind key kind body stack).registry.hasRule k = true :=
    fun k hk => Ledger.contains_insert hk key body
  exact {
    users := fun m k hm => (h.users m k hm).imp (hmono k) id
    pending := h.pending
    actions := fun m k hm => hmono k (h.actions m k hm)
    kinds := by
      intro k kind' hk
      change (r.model.kinds.insert key kind).get? k = some kind' at hk
      rw [Ledger.get?_insert] at hk
      split at hk
      · rename_i heq
        subst heq
        exact Ledger.contains_insert_self ..
      · exact hmono k (h.kinds k kind' hk)
    paired := h.paired
    onceUsers := h.onceUsers
    onceActions := h.onceActions
    onceKinds := Ledger.nodup_writeIn h.onceKinds key kind
    stack := hpushed
    rules := hrules }

end Changes

/-- What was taken off the end, and what is left. -/
theorem Complete.split (h : r.Complete s) {base es : List Expr} (hstack : r.stack = base ++ es) :
    (∀ e ∈ base, r.Sound s e) ∧ ∀ e ∈ es, r.Sound s e := by
  have hall := h.stack
  rw [hstack] at hall
  exact List.forall_mem_append.mp hall

theorem Complete.opened (h : r.Complete s) {m : Method} {key : RuleKey}
    {users : Bijection Method RuleKey} {minted : Nat} (hb : r.building = some m)
    (hp : r.pendingKey = none) (hput : r.model.userRules.put m key = .ok users) :
    Complete s { r with model.userRules := users, pendingKey := some key, minted } := by
  obtain ⟨-, hforward, -⟩ := Bijection.put_ok (filled_rules.solid _) hput
  have hget : ∀ m', users.get? m' = if m = m' then some key else r.model.userRules.get? m' := by
    intro m'
    rw [Bijection.get?, hforward, Ledger.get?_insert]
    rfl
  exact {
    users := by
      intro m' k hm
      change users.get? m' = some k at hm
      rw [hget] at hm
      split at hm
      · exact .inr hm
      · refine .inl ((h.users m' k hm).resolve_right fun hk => ?_)
        rw [hp] at hk; cases hk
    pending := by
      intro k hk
      cases hk
      exact ⟨m, hb, (hget m).trans (if_pos rfl)⟩
    actions := h.actions
    kinds := h.kinds
    paired := h.paired.put (filled_rules.solid _) hput
    onceUsers := by
      show users.forward.keys.Nodup
      rw [hforward]
      exact Ledger.nodup_writeIn h.onceUsers m key
    onceActions := h.onceActions
    onceKinds := h.onceKinds
    stack := fun e he => (h.stack e he).mono fun _ => id
    rules := fun rule hrule => (h.rules rule hrule).mono fun _ => id }

theorem Complete.closed (h : r.Complete s) {key : RuleKey} (log : List LogLine)
    (hp : r.pendingKey = some key) (hstack : r.stack = [e]) : (r.withClosed key e log).Complete s := by
  have he : r.Sound s e := h.stack e (by rw [hstack]; exact List.mem_singleton_self _)
  obtain ⟨hpushed, hrules⟩ := h.sounds (r.withClosed key e log) rfl he nofun
  have hmono : ∀ k, r.registry.hasRule k = true → (r.withClosed key e log).registry.hasRule k = true :=
    fun k hk => Ledger.contains_insert hk key e
  exact {
    users := by
      intro m k hm
      rcases h.users m k hm with hk | hk
      · exact .inl (hmono k hk)
      · cases hp.symm.trans hk
        exact .inl (Ledger.contains_insert_self ..)
    pending := nofun
    actions := fun m k hm => hmono k (h.actions m k hm)
    kinds := fun k kind hk => hmono k (h.kinds k kind hk)
    paired := h.paired
    onceUsers := h.onceUsers
    onceActions := h.onceActions
    onceKinds := h.onceKinds
    stack := hpushed
    rules := hrules }

theorem Complete.acted (h : r.Complete s) {m : Method} {key : RuleKey}
    {actions : Bijection Method RuleKey} {minted : Nat} {base es : List Expr} (log : List LogLine)
    (hkey : r.Names m key actions minted) (hstack : r.stack = base ++ es)
    (hnew : r.registry.grammar.rules.get? key = none) :
    Complete s { r with
      registry.grammar.rules := r.registry.grammar.rules.insert key (operands es)
      model.actionRules := actions
      stack := base ++ [.call key]
      minted
      log } := by
  obtain ⟨hbase, hes⟩ := h.split hstack
  have hmono : ∀ k, r.registry.hasRule k = true →
      (r.registry.grammar.rules.insert key (operands es)).contains k = true :=
    fun k hk => Ledger.contains_insert hk key (operands es)
  -- a method that has a key has a rule, so its key is new
  have hput : r.model.actionRules.put m key = .ok actions := by
    rcases hkey with ⟨hm, -, -⟩ | ⟨-, -, hput, -⟩
    · have hrule := h.actions m key hm
      rw [Registry.hasRule, Ledger.contains, hnew] at hrule
      cases hrule
    · exact hput
  obtain ⟨-, hforward, -⟩ := Bijection.put_ok (filled_rules.solid _) hput
  obtain ⟨hpushed, hrules⟩ := h.sounds { r with
      registry.grammar.rules := r.registry.grammar.rules.insert key (operands es)
      model.actionRules := actions
      stack := base ++ [.call key]
      minted
      log } rfl (sound_operands hes) (forall_pushed (fun e he => .inl (hbase e he)) (.inr rfl))
  exact {
    users := fun m k hm => (h.users m k hm).imp (hmono k) id
    pending := h.pending
    actions := by
      intro m' k hm
      change actions.forward.get? m' = some k at hm
      rw [hforward, Ledger.get?_insert] at hm
      split at hm
      · cases hm
        exact Ledger.contains_insert_self ..
      · exact hmono k (h.actions m' k hm)
    kinds := fun k kind hk => hmono k (h.kinds k kind hk)
    paired := h.paired
    onceUsers := h.onceUsers
    onceActions := by
      show actions.forward.keys.Nodup
      rw [hforward]
      exact Ledger.nodup_writeIn h.onceActions m key
    onceKinds := h.onceKinds
    stack := hpushed
    rules := hrules }

/-- A move that is no fault's leaves every key with its rule. -/
theorem Move.complete (hmove : Move s false r r') (h : r.Complete s) : r'.Complete s := by
  cases hmove with
  | noted line =>
    exact { h with
      stack := fun e he => (h.stack e he).mono fun _ => id
      rules := fun rule hrule => (h.rules rule hrule).mono fun _ => id }
  | referred hm hb => exact h.restack (forall_pushed h.stack (sound_late hm))
  | entered hm hb =>
    have hclosed : ∀ key, r.pendingKey ≠ some key := by
      intro key hp
      obtain ⟨m, hm, -⟩ := h.pending key hp
      rw [hb] at hm; cases hm
    exact { h with
      users := fun m key hm => .inl ((h.users m key hm).resolve_right (hclosed key))
      pending := nofun
      stack := fun e he => (h.stack e he).mono fun _ => id
      rules := fun rule hrule => (h.rules rule hrule).mono fun _ => id }
  | dropped hstack => exact h.restack (h.split hstack).1
  | chosen hstack =>
    obtain ⟨hbase, halts⟩ := h.split hstack
    exact h.restack (forall_pushed hbase (sound_choice halts))
  | cut he hid hnew =>
    exact h.withKind _ (sound_lexeme he) (forall_pushed (fun e he => .inl (h.stack e he)) (.inr rfl))
  | wrapped how hstack hid hnew =>
    obtain ⟨hbase, he⟩ := h.split hstack
    exact h.withKind _ (sound_rep _ (he _ (List.mem_singleton_self _)))
      (forall_pushed (fun e he => .inl (hbase e he)) (.inr rfl))
  | opened hb hp _ hput => exact h.opened hb hp hput
  | closed log _ hp hstack _ => exact h.closed log hp hstack
  | acted line _ _ _ hkey hstack hnew => exact h.acted _ hkey hstack hnew
  | skipped hf => cases hf
  | kinded hf _ _ _ => cases hf
  | named hf _ _ => cases hf
  | stalled hf _ _ _ _ => cases hf

/-! ### The end of recording -/

/-- The method has a key, or its rule is being declared. -/
def Declares (m : Method) (r : Recorder) : Prop :=
  (∃ key, r.model.userRules.get? m = some key) ∨ r.building = some m

/-- A rule that is being declared has a key before it is closed. -/
theorem Move.declares {m : Method} (hmove : Move s false r r') (h : r.Complete s)
    (hm : r.Declares m) : r'.Declares m := by
  cases hmove with
  | entered _ hb =>
    refine .inl (hm.resolve_right fun hbuilding => ?_)
    rw [hb] at hbuilding; cases hbuilding
  | @opened m' key users minted hb hp _ hput =>
    obtain ⟨-, hforward, -⟩ := Bijection.put_ok (filled_rules.solid _) hput
    refine hm.imp (fun ⟨key', hkey⟩ => ?_) id
    show ∃ k, users.forward.get? m = some k
    rw [hforward, Ledger.get?_insert]
    split
    · exact ⟨key, rfl⟩
    · exact ⟨key', hkey⟩
  | closed log hb hp _ _ =>
    refine .inl (hm.elim id fun hbuilding => ?_)
    obtain ⟨m', hm', hkey⟩ := h.pending _ hp
    cases hbuilding.symm.trans hm'
    exact ⟨_, hkey⟩
  | skipped hf => cases hf
  | kinded hf _ _ _ => cases hf
  | named hf _ _ => cases hf
  | stalled hf _ _ _ _ => cases hf
  | _ => exact hm

/-- Nothing was left undone: every rule method has one key, no two have the same, every key on record
has a rule, and nothing is left over or half built. -/
structure Finished (g : GrammarClass) (r : Recorder) : Prop where
  methods : ∀ m ∈ g.methods, ∃ key, r.registry.hasRule key = true ∧
    r.model.userRules.keyOf? key = some m ∧ ∀ k, (m, k) ∈ r.model.userRules.pairs ↔ k = key
  distinct : ∀ m m' key, (m, key) ∈ r.model.userRules.pairs → (m', key) ∈ r.model.userRules.pairs →
    m = m'
  actions : ∀ pair ∈ r.model.actionRules.pairs, r.registry.hasRule pair.2 = true
  kinds : ∀ entry ∈ r.model.kinds.entries, r.registry.hasRule entry.1 = true
  stack : r.stack = []
  building : r.building = none
  pending : r.pendingKey = none

theorem Complete.finished (h : r.Complete s) (hstack : r.stack = []) (hb : r.building = none)
    (hdeclares : ∀ m ∈ s.grammar.methods, r.Declares m) : r.Finished s.grammar := by
  have hp : r.pendingKey = none := by
    cases hp : r.pendingKey with
    | none => rfl
    | some key =>
      obtain ⟨m, hm, -⟩ := h.pending key hp
      rw [hb] at hm; cases hm
  have husers : ∀ m key, r.model.userRules.get? m = some key → r.registry.hasRule key = true := by
    intro m key hm
    refine (h.users m key hm).resolve_right fun hk => ?_
    rw [hp] at hk; cases hk
  have hpairs : ∀ {m key}, (m, key) ∈ r.model.userRules.pairs ↔ r.model.userRules.get? m = some key :=
    Ledger.mem_entries_iff h.onceUsers
  refine ⟨fun m hm => ?_, fun m m' key hm hm' => ?_, fun pair hpair => ?_, fun entry hentry => ?_,
    hstack, hb, hp⟩
  · obtain ⟨key, hkey⟩ := (hdeclares m hm).resolve_right (by rw [hb]; nofun)
    refine ⟨key, husers m key hkey, (h.paired m key).mp hkey, fun k => ?_⟩
    rw [hpairs, hkey, Option.some.injEq, eq_comm]
  · have hkey := (h.paired m key).mp (hpairs.mp hm)
    have hkey' := (h.paired m' key).mp (hpairs.mp hm')
    exact Option.some.inj (hkey.symm.trans hkey')
  · exact h.actions pair.1 pair.2 (Ledger.get?_of_mem h.onceActions hpair)
  · exact h.kinds entry.1 entry.2 (Ledger.get?_of_mem h.onceKinds hentry)

/-- Where nothing was left undone, every reference finds its rule. -/
theorem Complete.linkable (h : r.Complete s) (hfinished : r.Finished s.grammar) {root : RuleKey}
    (hroot : r.registry.hasRule root = true) :
    (r.registry.setRoot (some root)).Linkable r.model.resolver := by
  refine ⟨⟨root, rfl, hroot⟩, fun rule hrule key href => ?_, fun rule hrule callee href => ?_⟩
  · exact (h.rules rule hrule).refs _ href
  · obtain ⟨m, hm, rfl⟩ := (h.rules rule hrule).refs _ href
    obtain ⟨key, hkey, hmethod, -⟩ := hfinished.methods m hm
    exact ⟨key, (h.paired m key).mpr hmethod, hkey⟩

/-- So it links. -/
theorem Complete.links (h : r.Complete s) (hfinished : r.Finished s.grammar) {root : RuleKey}
    (hroot : r.registry.hasRule root = true) : ∃ program sealed,
      (r.registry.setRoot (some root)).build r.model.resolver = (.ok program, sealed) := by
  have hlinkable := h.linkable hfinished hroot
  have hcases : ((r.registry.setRoot (some root)).Linkable r.model.resolver ∧ _) ∨ (¬ _ ∧ _) :=
    Registry.build_cases fun rule hr => (h.rules rule hr).patterns
  exact (hcases.resolve_right fun hnot => hnot.1 hlinkable).2

/-- Recording that ends well leaves nothing undone, and what it leaves links from any rule method. It
takes only that bodies push nothing by hand and let faults pass. -/
theorem record_complete (s : Stage) (hpush : s.PushesNothing) (hpass : s.SwallowsNothing)
    (final : Recorder) (h : s.record {} = (.ok (), final)) :
    final.Finished s.grammar ∧
    ∀ m ∈ s.grammar.methods, ∀ root, final.model.userRules.get? m = some root →
      ∃ program sealed,
        (final.registry.setRoot (some root)).build final.model.resolver = (.ok program, sealed) := by
  have hs : Orderly s false := ⟨hpush, fun _ => hpass⟩
  obtain ⟨last, log, hmoves, hstack, hb, rfl, hentered⟩ := record_moves hs h
  have hcomplete : last.Complete s := hmoves.preserve Move.complete (complete_start s)
  have hdeclares : ∀ m ∈ s.grammar.methods, last.Declares m := by
    intro m hm
    obtain ⟨mid, hmid, hopen, hrest⟩ := hentered m hm
    have hentry : Move s false mid { mid with building := some m, pendingKey := none } :=
      .entered hm hopen
    have hmidComplete : mid.Complete s := hmid.preserve Move.complete (complete_start s)
    have hstep : ∀ {r r'}, Move s false r r' → r.Complete s ∧ r.Declares m →
        r'.Complete s ∧ r'.Declares m :=
      fun hmove hr => ⟨hmove.complete hr.1, hmove.declares hr.1 hr.2⟩
    exact (Moves.preserve hstep hrest ⟨hentry.complete hmidComplete, .inr rfl⟩).2
  have hfinished := hcomplete.finished hstack hb hdeclares
  refine ⟨{ hfinished with }, fun m hm root hroot => ?_⟩
  have hrule : last.registry.hasRule root = true := by
    refine (hcomplete.users m root hroot).resolve_right fun hk => ?_
    rw [hfinished.pending] at hk; cases hk
  exact hcomplete.links hfinished hrule

end Library

/-- A grammar whose second rule is declared twice: by the first one after its own rule is closed, and
then by itself. -/
def rebound : Stage where
  grammar :=
    [{ name := "Rebound", bases := ["GrammarBase"],
       members := ⟨[
        ("first", .method [
          .nonterminal (some (.given "first" "first")),
          .is [.action "pair" [.token (.value (.text "a")), .wrap .optional [.call "second" []]]],
          .call "second" []]),
        ("second", .method [.rule none [.firstOf [.pattern (.value (.text "b+")), .call "first" []]]])]⟩ },
      grammarBase, ClassDecl.top]
  factory :=
    [{ name := "Pairs", bases := ["object"],
       members := ⟨[("pair", .method ⟨.required ["left", "right"], Behaviour.node "pair"⟩)]⟩ },
      ClassDecl.top]

theorem record_complete_rebound : ∃ final, rebound.record {} = (.ok (), final) ∧
    final.Finished rebound.grammar ∧
    ∀ root, final.model.userRules.get? ⟨"Rebound.second"⟩ = some root → ∃ program sealed,
      (final.registry.setRoot (some root)).build final.model.resolver = (.ok program, sealed) := by
  have hpush : rebound.PushesNothing := by decide +kernel
  have hpass : rebound.SwallowsNothing := by decide +kernel
  have hok : (rebound.record {}).1.isOk = true := by decide +kernel
  have hsecond : (⟨"Rebound.second"⟩ : Method) ∈ rebound.grammar.methods := by decide +kernel
  rcases hrecord : rebound.record {} with ⟨f | _, final⟩
  · rw [hrecord] at hok; cases hok
  · obtain ⟨hfinished, hbuilds⟩ := record_complete rebound hpush hpass final hrecord
    exact ⟨final, rfl, hfinished, hbuilds _ hsecond⟩

end Recorder
end PegScribe
