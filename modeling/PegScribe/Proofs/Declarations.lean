import PegScribe.Proofs.Contexts

/-!
Declarations: what recording does for one rule method.

A rule method that is called between rules declares its rule: its body is played, and has to close the
rule. Most calls in a body leave the open rule alone (`Still`). A declaration fares over a base as it does
by itself (`fares_declaration`), and what it leaves between rules is complete.
-/
namespace PegScribe

namespace Recorder
open Keeping Stage
variable {s : Stage} {r r' base own : Recorder} {m : Method} {α β : Type}

/-! ### What calls do to the open rule -/

/-- The computation neither opens nor closes a rule. -/
def Still (x : Recording α) : Prop :=
  ∀ ⦃r a r'⦄, x r = (.ok a, r') → r'.building = r.building ∧ r'.pendingKey = r.pendingKey ∧
    r'.model.userRules = r.model.userRules

theorem still_pure (a : α) : Still (pure a : Recording α) := by
  intro r b r' h
  cases h
  exact ⟨rfl, rfl, rfl⟩

theorem still_throw (f : Fault) : Still (throw f : Recording α) := by
  intro r b r' h
  cases h

theorem Still.bind {x : Recording α} {f : α → Recording β} (hx : Still x) (hf : ∀ a, Still (f a)) :
    Still (x >>= f) := by
  intro r b r' h
  obtain ⟨a, r₁, hrun, h⟩ := bind_eq_ok.mp h
  obtain ⟨hbuilding, hpending, husers⟩ := hx hrun
  obtain ⟨hbuilding', hpending', husers'⟩ := hf a h
  exact ⟨hbuilding'.trans hbuilding, hpending'.trans hpending, husers'.trans husers⟩

theorem still_push (e : Expr) : Still (push e) := by
  intro r a r' h
  cases push_ok h
  exact ⟨rfl, rfl, rfl⟩

theorem still_pop : Still pop := by
  intro r a r' h
  obtain ⟨below, -, rfl⟩ := pop_ok h
  exact ⟨rfl, rfl, rfl⟩

theorem still_popMany (n : Nat) : Still (popMany n) := by
  intro r a r' h
  obtain ⟨below, -, -, rfl⟩ := popMany_ok h
  exact ⟨rfl, rfl, rfl⟩

theorem still_firstOf (n : Nat) : Still (firstOf n) :=
  (still_popMany n).bind fun _ => still_push _

theorem still_addRule (kind : RuleKind) (operand body : Expr) : Still (addRule kind operand body) := by
  intro r a r' h
  obtain ⟨key, -, -, rfl⟩ := addRule_ok h
  exact ⟨rfl, rfl, rfl⟩

theorem still_token (v : Value) : Still (token v) := by
  unfold token
  exact still_addRule ..

theorem still_pattern [PatternLibrary] (v : Value) : Still (pattern v) := by
  unfold pattern
  split
  · split
    · exact still_addRule ..
    · exact still_throw _
  · exact still_throw _

theorem still_wrapOne (how : Wrapper) (count : Nat) : Still (wrapOne how count) := by
  unfold wrapOne
  dsimp only
  split
  · exact still_throw _
  · cases how <;> exact still_pop.bind fun _ => still_addRule ..
  · exact still_throw _

theorem still_actionKey (m : Method) (params : List String) : Still (actionKey m params) := by
  intro r key r' h
  rcases actionKey_cases m params r with ⟨key', actions, minted, -, hrun⟩ | ⟨f, hrun⟩
  · cases hrun.symm.trans h
    exact ⟨rfl, rfl, rfl⟩
  · cases hrun.symm.trans h

theorem still_action (m : Method) (params : List String) (n : Nat) : Still (action m params n) := by
  refine (still_actionKey m params).bind fun key => Still.bind ?_ fun _ => ?_
  · intro r a r' h
    obtain ⟨below, es, -, -, -, rfl⟩ := replaceByRule_ok h
    exact ⟨rfl, rfl, rfl⟩
  · intro r a r' h
    cases h
    exact ⟨rfl, rfl, rfl⟩

theorem still_callAction (args : List Value) (hasNames : Bool) (target : ActionTarget) :
    Still (s.callAction args hasNames target) := by
  unfold callAction
  cases target with
  | recorded method signature =>
    cases hasNames with
    | true => exact still_throw _
    | false =>
      dsimp only
      rw [if_neg (by simp)]
      split
      · exact still_throw _
      · exact (still_action ..).bind fun _ => still_pure _
  | direct method m =>
    dsimp only
    split
    · exact still_pure _
    · exact still_throw _
  | inert type => exact still_throw _

/-- Opening a rule leaves the keys of other methods alone. -/
theorem nonterminal_opens {key : Option RuleKey} {a : Unit} (h : nonterminal key r = (.ok a, r')) :
    ∃ m, r.building = some m ∧ r'.building = some m ∧
      ∀ m', m ≠ m' → r'.model.userRules.get? m' = r.model.userRules.get? m' := by
  by_cases hstuck : r.building = none ∨ r.pendingKey ≠ none
  · obtain ⟨f, hf⟩ := nonterminal_stuck hstuck key
    rw [hf] at h; cases h
  · obtain ⟨hopen, hp⟩ := not_or.mp hstuck
    obtain ⟨m, hb⟩ := Option.ne_none_iff_exists'.mp hopen
    have hp : r.pendingKey = none := Decidable.not_not.mp hp
    obtain ⟨k, r₁, hbuilding, husers, h⟩ : ∃ k r₁, r₁.building = r.building ∧
        r₁.model.userRules = r.model.userRules ∧ bindKey m k r₁ = (.ok a, r') := by
      cases key with
      | none => exact ⟨_, { r with minted := r.minted + 1 }, rfl, rfl, nonterminal_new hb hp ▸ h⟩
      | some k => exact ⟨k, r, rfl, rfl, nonterminal_given hb hp k ▸ h⟩
    cases hput : r₁.model.userRules.put m k with
    | error f => rw [bindKey_error hput] at h; cases h
    | ok users =>
      rw [bindKey_ok hput] at h
      cases h
      refine ⟨m, hb, hbuilding.trans hb, fun m' hne => ?_⟩
      rw [Bijection.get?_put (filled_rules.solid _) hput, if_neg hne, husers]

/-- Closing a rule leaves nothing on the stack. -/
theorem closeRule_closes {object : String} {count : Nat} {a : Unit}
    (h : closeRule object count r = (.ok a, r')) :
    r'.building = none ∧ r'.stack = [] ∧ r'.model.userRules = r.model.userRules := by
  unfold closeRule at h
  split at h
  · cases h
  · cases hb : r.building with
    | none =>
      obtain ⟨f, hf⟩ := is_stuck (.inl hb)
      rw [hf] at h; cases h
    | some m =>
      cases hp : r.pendingKey with
      | none =>
        obtain ⟨f, hf⟩ := is_stuck (.inr (.inl hp))
        rw [hf] at h; cases h
      | some key =>
        obtain ⟨e, log, -, -, rfl⟩ := is_ok h hb hp
        exact ⟨rfl, rfl, rfl⟩

/-! ### Declarations -/

variable [PatternLibrary]

/-- What recording does for a rule method: its body is played between rules. -/
def declaration (s : Stage) (m : Method) (owner : String) (body : Script) (depth : Nat)
    (args : List Value) : Recording Unit :=
  callRule m (do let _ ← perform s depth owner body args)

/-- What recording does for a rule of the grammar, called without arguments. -/
abbrev declarationOf (s : Stage) (x : String × (Method × Script)) : Recording Unit :=
  declaration s x.2.1 (s.grammar.ownerOf x.1) x.2.2 s.limit []

section Declaring
variable {owner : String} {body : Script} {depth : Nat} {args : List Value}

theorem does_declaration (hm : m ∈ s.grammar.methods)
    (hbody : Does s false (perform s depth owner body args)) :
    Does s false (declaration s m owner body depth args) :=
  does_callRule hm (hbody.bind fun _ => does_pure _)

/-- A declaration fares over a base as it does by itself. -/
theorem fares_declaration (hbase : base.Rested s) (hm : m ∈ s.grammar.methods)
    (hbody : Tracks s base (perform s depth owner body args)) :
    Fares base (declaration s m owner body depth args {}) (declaration s m owner body depth args base) := by
  have htracks : Tracks s base (do let _ ← perform s depth owner body args) :=
    hbody.bind fun _ => tracks_pure _
  refine fares_declare rfl hbase.closed (htracks.fares ?_ ?_ ?_)
  · exact (sane_start hbase.sane.keys).moves (.single (.entered hm rfl))
  · exact hbase.sane.moves (.single (.entered hm hbase.closed))
  · exact {
      rules := Ledger.over_empty _
      kinds := Ledger.over_empty _
      users := Bijection.over_empty _
      actions := Bijection.over_empty _
      fewer := nofun
      stack := (List.append_nil _).symm
      building := rfl
      pending := rfl
      minted := rfl
      idle := nofun }

/-- A declaration that goes well from an empty stack goes well over a base only where nothing is left
over, and leaves the same there. -/
theorem declaration_over (hbase : base.Rested s) (hm : m ∈ s.grammar.methods)
    (hbody : Tracks s base (perform s depth owner body args))
    (hown : declaration s m owner body depth args {} = (.ok (), own))
    (h : declaration s m owner body depth args base = (.ok (), r')) :
    base.stack = [] ∧ Over base own r' := by
  have hfares := fares_declaration hbase hm hbody
  rw [hown, h] at hfares
  cases hfares with
  | well hover =>
    refine ⟨hover.idle ?_, hover⟩
    exact (Reading.callRule_ok hown rfl).2

/-- Between rules a declaration leaves no rule open. -/
theorem Rested.after (hr : r.Rested s) (hm : m ∈ s.grammar.methods)
    (hbody : Does s false (perform s depth owner body args))
    (h : declaration s m owner body depth args r = (.ok (), r')) : r'.Rested s :=
  ⟨hr.sane.moves (does_declaration hm hbody hr.sane.live h nofun), (Reading.callRule_ok h hr.closed).2⟩

/-- A method that was entered has a key once its rule is closed. -/
theorem Sane.declared (hr : r.Sane s) (hb : r.building = some m) (h : Moves s false r r')
    (hclosed : r'.building = none) : ∃ key, r'.model.userRules.get? m = some key := by
  have hstep : ∀ {r r'}, Move s false r r' → r.Complete s ∧ r.Declares m →
      r'.Complete s ∧ r'.Declares m :=
    fun hmove hr => ⟨hmove.complete hr.1, hmove.declares hr.1 hr.2⟩
  obtain ⟨-, hdeclares⟩ := h.preserve hstep ⟨hr.complete, .inr hb⟩
  exact hdeclares.resolve_right (by rw [hclosed]; nofun)

/-- Between rules a declaration leaves the method with a key. -/
theorem Rested.declared (hr : r.Rested s) (hm : m ∈ s.grammar.methods)
    (hbody : Does s false (perform s depth owner body args))
    (h : declaration s m owner body depth args r = (.ok (), r')) :
    ∃ key, r'.model.userRules.get? m = some key := by
  obtain ⟨hrun, hclosed⟩ := Reading.callRule_ok h hr.closed
  have hstart := hr.sane.moves (.single (.entered hm hr.closed))
  have hdoes : Does s false (do let _ ← perform s depth owner body args) :=
    hbody.bind fun _ => does_pure _
  exact hstart.declared rfl (hdoes hstart.live hrun nofun) hclosed

/-- Between rules every method on record has a rule. -/
theorem Rested.ruled (hr : r.Rested s) {m : Method} {key : RuleKey}
    (hkey : r.model.userRules.get? m = some key) :
    ∃ body, r.registry.grammar.rules.get? key = some body := by
  refine Option.isSome_iff_exists.mp ((hr.sane.complete.users m key hkey).resolve_right ?_)
  rw [hr.pending]
  nofun

end Declaring

/-- A call of a rule method by its name. -/
theorem play_rule {frame : Frame} {name owner : String} {body : Script}
    (hfound : s.target? name = some (.rule m owner body)) (depth : Nat) :
    play s (perform s depth) frame (.call name []) =
      (declaration s m owner body depth [] >>= fun _ => pure .absent) := by
  rw [play, hfound]
  dsimp only
  rw [playAll, pure_bind]
  rfl

theorem play_inert {frame : Frame} {name type : String} (hfound : s.target? name = some (.inert type))
    (inline : Inline) : play s inline frame (.call name []) = throw (.call (.notCallable type)) := by
  rw [play, hfound]
  dsimp only
  rw [playAll, pure_bind]
  rfl

/-- Calling a rule method between rules declares it. -/
theorem call_declares {x : String × (Method × Script)} (hx : x ∈ s.grammar.rules) {frame : Frame}
    {v : Value} (h : play s (perform s s.limit) frame (.call x.1 []) r = (.ok v, r')) :
    declarationOf s x r = (.ok (), r') := by
  rcases Reading.target?_of_rule hx with htarget | ⟨type, htarget⟩
  · rw [play_rule htarget] at h
    obtain ⟨_, r₁, hcall, h⟩ := bind_eq_ok.mp h
    cases h
    exact hcall
  · rw [play_inert htarget] at h
    cases h

end Recorder
end PegScribe
