import PegScribe.Proofs.Declarations

/-!
Leaks: the rule of a method is made of what its own body pushes.

All bodies share one stack, and what a body leaves on it after its rule is closed is still there when the
next rule is declared. A body that goes well from an empty stack comes to grief on top of anything left
over (`declaration_over`), so its rule is its own whatever the others do. A body that needs more than it
pushes can take its rule from what another one left over (`leaky`).
-/
namespace PegScribe

namespace Recorder
open Keeping Stage
variable {s : Stage} {r r' : Recorder} {α β : Type}

/-! ### Playing deeper, and with more arguments -/

/-- Where the first goes well, the second does the same. -/
def Below (x x' : Recording α) : Prop := ∀ ⦃r a r'⦄, x r = (.ok a, r') → x' r = (.ok a, r')

theorem Below.refl (x : Recording α) : Below x x := fun _ _ _ h => h

theorem Below.bind {x x' : Recording α} {f f' : α → Recording β} (hx : Below x x')
    (hf : ∀ a, Below (f a) (f' a)) : Below (x >>= f) (x' >>= f') := by
  intro r b r' h
  obtain ⟨a, r₁, hrun, h⟩ := bind_eq_ok.mp h
  rw [bind_of_ok (hx hrun)]
  exact hf a h

theorem below_callRule (m : Method) {body body' : Recording Unit} (h : Below body body') :
    Below (callRule m body) (callRule m body') := by
  intro r a r' hcall
  cases hb : r.building with
  | some m' =>
    unfold callRule at hcall ⊢
    obtain ⟨entered, r₁, henter, hcall⟩ := bind_eq_ok.mp hcall
    obtain rfl : entered = false := by
      unfold enter at henter
      rw [bind_of_ok (get_run r), if_pos (by rw [hb]; rfl)] at henter
      obtain ⟨_, r₂, -, henter⟩ := bind_eq_ok.mp henter
      cases henter
      rfl
    rw [bind_of_ok henter]
    exact hcall
  | none =>
    obtain ⟨hbody, hclosed⟩ := Reading.callRule_ok hcall hb
    rcases callRule_declares hb (h hbody) with ⟨-, -, hcall'⟩ | ⟨hopen, -⟩
    · exact hcall'
    · exact absurd hclosed (hopen rfl)

variable {inline inline' : Inline}

/-- Bodies go as well with the one as with the other. -/
def Raises (s : Stage) (inline inline' : Inline) : Prop :=
  ∀ owner script args, s.Holds script → Below (inline owner script args) (inline' owner script args)

theorem below_lookUp (hin : Raises s inline inline') {target : Target} (h : s.Holds target.script) :
    Below (lookUp inline target) (lookUp inline' target) := by
  cases target with
  | getter owner body => exact (hin owner body [] h).bind fun _ => .refl _
  | _ => exact .refl _

theorem below_callTarget (hin : Raises s inline inline') {target : Target} (h : s.Holds target.script)
    (args : List Value) : Below (callTarget inline args target) (callTarget inline' args target) := by
  cases target with
  | rule m owner body =>
    exact (below_callRule m ((hin owner body args h).bind fun _ => .refl _)).bind fun _ => .refl _
  | inline owner body => exact hin owner body args h
  | _ => exact .refl _

theorem below_no_argument (args : List Value) (index : Int) :
    Below (argumentAt [] index) (argumentAt args index) := by
  intro r a r' h
  unfold argumentAt at h
  simp at h
  cases h

/-! ### What stays on record -/

/-- Rules, kinds and the keys of factory methods stay as they are. -/
structure Keeps (r r' : Recorder) : Prop where
  rules : ∀ k e, r.registry.grammar.rules.get? k = some e → r'.registry.grammar.rules.get? k = some e
  kinds : ∀ k kind, r.model.kinds.get? k = some kind → r'.model.kinds.get? k = some kind
  actions : ∀ m k, r.model.actionRules.get? m = some k → r'.model.actionRules.get? m = some k

/-- What the first recorder holds is held by the second, shifted. -/
structure Copies (n : Nat) (own r : Recorder) : Prop where
  rules : ∀ k e, own.registry.grammar.rules.get? k = some e →
    r.registry.grammar.rules.get? (k.shift n) = some (e.shift n)
  kinds : ∀ k kind, own.model.kinds.get? k = some kind → r.model.kinds.get? (k.shift n) = some kind
  actions : ∀ m k, own.model.actionRules.get? m = some k →
    r.model.actionRules.get? m = some (k.shift n)

theorem Copies.mono {n : Nat} {own : Recorder} (h : Copies n own r) (hkeeps : r.Keeps r') :
    Copies n own r' where
  rules := fun k e hk => hkeeps.rules _ _ (h.rules k e hk)
  kinds := fun k kind hk => hkeeps.kinds _ _ (h.kinds k kind hk)
  actions := fun m k hm => hkeeps.actions _ _ (h.actions m k hm)

theorem Over.copies {base own : Recorder} (h : Over base own r') : Copies base.minted own r' where
  rules := h.rules.own
  kinds := h.kinds.own
  actions := fun m k hm => by rw [h.actions m, hm]; rfl

/-- If the method has a rule, it is the one in the given record, shifted like all that goes with it. -/
def Faithful (m : Method) (own r : Recorder) : Prop :=
  ∀ key, r.model.userRules.get? m = some key → ∃ n, Copies n own r ∧
    ∃ k, own.model.userRules.get? m = some k ∧ key = k.shift n

theorem Faithful.mono {m : Method} {own : Recorder} (h : Faithful m own r) (hkeeps : r.Keeps r')
    (hsame : r'.model.userRules.get? m = r.model.userRules.get? m) : Faithful m own r' := by
  intro key hkey
  obtain ⟨n, hcopies, hk⟩ := h key (hsame ▸ hkey)
  exact ⟨n, hcopies.mono hkeeps, hk⟩

/-- Where nothing is left over, the method's rule is its own afterwards. -/
theorem Over.faithful {m : Method} {base own : Recorder} (h : Over base own r')
    (hdeclared : ∃ key, own.model.userRules.get? m = some key) : Faithful m own r' := by
  obtain ⟨k, hk⟩ := hdeclared
  intro key hkey
  rw [h.users m, hk] at hkey
  cases hkey
  exact ⟨base.minted, h.copies, k, hk, rfl⟩

/-! ### Bodies -/

section Library
variable [PatternLibrary]

section Terms
variable {owner : String} {args args' : List Value}

mutual

theorem below_play (hs : s.SwallowsNothing) (hin : Raises s inline inline')
    (hargs : ∀ index, Below (argumentAt args index) (argumentAt args' index)) :
    ∀ t : Term, (∀ u ∈ t.parts, u ∈ s.terms) →
      Below (play s inline ⟨owner, args⟩ t) (play s inline' ⟨owner, args'⟩ t)
  | .value v, _ => by rw [play, play]; exact .refl _
  | .nonterminal key, _ => by rw [play, play]; exact .refl _
  | .is ts, h => by
    rw [play, play]
    exact (below_playAll hs hin hargs ts fun u hu => h u (by simp [Term.parts, hu])).bind fun _ => .refl _
  | .rule key ts, h => by
    rw [play, play]
    exact (Below.refl _).bind fun _ =>
      (below_playAll hs hin hargs ts fun u hu => h u (by simp [Term.parts, hu])).bind fun _ => .refl _
  | .token t, h => by
    rw [play, play]
    exact (below_play hs hin hargs t fun u hu => h u (by simp [Term.parts, hu])).bind fun _ => .refl _
  | .pattern t, h => by
    rw [play, play]
    exact (below_play hs hin hargs t fun u hu => h u (by simp [Term.parts, hu])).bind fun _ => .refl _
  | .wrap how ts, h => by
    rw [play, play]
    exact (below_playAll hs hin hargs ts fun u hu => h u (by simp [Term.parts, hu])).bind fun _ => .refl _
  | .firstOf ts, h => by
    rw [play, play]
    exact (below_playAll hs hin hargs ts fun u hu => h u (by simp [Term.parts, hu])).bind fun _ => .refl _
  | .action name ts, h => by
    rw [play, play]
    split
    · exact .refl _
    · exact (below_playAll hs hin hargs ts fun u hu => h u (by simp [Term.parts, hu])).bind fun _ =>
        .refl _
  | .actionNamed name names ts, h => by
    rw [play, play]
    split
    · exact .refl _
    · exact (below_playAll hs hin hargs ts fun u hu => h u (by simp [Term.parts, hu])).bind fun _ =>
        .refl _
  | .call name ts, h => by
    rw [play, play]
    cases htarget : s.target? name with
    | none => exact .refl _
    | some target =>
      have hscript := (of_target? htarget).1
      exact (below_lookUp hin hscript).bind fun _ =>
        (below_playAll hs hin hargs ts fun u hu => h u (by simp [Term.parts, hu])).bind fun vs =>
        below_callTarget hin hscript vs
  | .inherited name ts, h => by
    rw [play, play]
    cases htarget : s.inheritedTarget? owner name with
    | none => exact .refl _
    | some target =>
      have hscript := (of_inheritedTarget? htarget).1
      exact (below_lookUp hin hscript).bind fun _ =>
        (below_playAll hs hin hargs ts fun u hu => h u (by simp [Term.parts, hu])).bind fun vs =>
        below_callTarget hin hscript vs
  | .argument index, _ => by rw [play, play]; exact hargs index
  | .push e, _ => by cases e <;> (rw [play, play]; exact .refl _)
  | .pop, _ => by rw [play, play]; exact .refl _
  | .raise kind message, _ => by rw [play, play]; exact .refl _
  | .attempt t, h => by
    have hattempt := hs _ (h _ (Term.self_mem_parts _))
    cases hattempt

theorem below_playAll (hs : s.SwallowsNothing) (hin : Raises s inline inline')
    (hargs : ∀ index, Below (argumentAt args index) (argumentAt args' index)) :
    ∀ ts : List Term, s.Holds ts →
      Below (playAll s inline ⟨owner, args⟩ ts) (playAll s inline' ⟨owner, args'⟩ ts)
  | [], _ => by rw [playAll, playAll]; exact .refl _
  | t :: rest, h => by
    rw [playAll, playAll]
    exact (below_play hs hin hargs t fun u hu => h u (by simp [Term.partsAll, hu])).bind fun _ =>
      (below_playAll hs hin hargs rest fun u hu => h u (by simp [Term.partsAll, hu])).bind fun _ =>
      .refl _

end
end Terms

/-- A body that goes well goes as well when it may be played deeper, and when it is given arguments that
it did without. -/
theorem below_perform (hs : s.SwallowsNothing) : ∀ {depth depth' : Nat}, depth ≤ depth' →
    ∀ {owner : String} {script : Script} {args args' : List Value}, s.Holds script →
    (∀ index, Below (argumentAt args index) (argumentAt args' index)) →
    Below (perform s depth owner script args) (perform s depth' owner script args')
  | 0, _, _, _, _, _, _, _, _ => by intro r a r' h; cases h
  | depth + 1, depth' + 1, hle, owner, script, args, args', h, hargs =>
    (below_playAll hs (fun _ _ _ hscript =>
      below_perform hs (Nat.le_of_succ_le_succ hle) hscript fun _ => .refl _) hargs script h).bind
      fun _ => .refl _

theorem below_declaration (hs : s.SwallowsNothing) {m : Method} {owner : String} {body : Script}
    {depth depth' : Nat} (hle : depth ≤ depth') {args args' : List Value} (hbody : s.Holds body)
    (hargs : ∀ index, Below (argumentAt args index) (argumentAt args' index)) :
    Below (declaration s m owner body depth args) (declaration s m owner body depth' args') :=
  below_callRule m ((below_perform hs hle hbody hargs).bind fun _ => .refl _)

theorem Move.keeps (hmove : Move s false r r') (hr : r.Sane s) : r.Keeps r' := by
  have hkinds : ∀ {key : RuleKey} (kind : RuleKind), key.id = .minted r.minted →
      ∀ k v, r.model.kinds.get? k = some v → (r.model.kinds.insert key kind).get? k = some v :=
    fun kind hid k v hk => Ledger.get?_insert_new (get?_next hid hr.shaped.kinds) hk
  cases hmove with
  | cut he hid hnew =>
    exact ⟨fun _ _ h => Ledger.get?_insert_new hnew h, hkinds _ hid, fun _ _ => id⟩
  | wrapped how hstack hid hnew =>
    exact ⟨fun _ _ h => Ledger.get?_insert_new hnew h, hkinds _ hid, fun _ _ => id⟩
  | closed log hb hp hstack hnew =>
    exact ⟨fun _ _ h => Ledger.get?_insert_new hnew h, fun _ _ => id, fun _ _ => id⟩
  | acted line hm hcheck hcall hkey hstack hnew =>
    refine ⟨fun _ _ h => Ledger.get?_insert_new hnew h, fun _ _ => id, fun m' k hm' => ?_⟩
    rcases hkey with ⟨-, rfl, -⟩ | ⟨hnone, -, hput, -⟩
    · exact hm'
    · rw [Bijection.get?_put (filled_rules.solid _) hput, if_neg]
      · exact hm'
      · rintro rfl
        rw [hnone] at hm'; cases hm'
  | skipped hf => cases hf
  | kinded hf _ _ _ => cases hf
  | named hf _ _ => cases hf
  | stalled hf _ _ _ _ => cases hf
  | _ => exact ⟨fun _ _ => id, fun _ _ => id, fun _ _ => id⟩

theorem Sane.keeps (hr : r.Sane s) (h : Moves s false r r') : r.Keeps r' := by
  have hstep : ∀ {r₁ r₂ : Recorder}, Move s false r₁ r₂ → r₁.Sane s ∧ r.Keeps r₁ →
      r₂.Sane s ∧ r.Keeps r₂ := by
    rintro r₁ r₂ hmove ⟨hr₁, hkeeps⟩
    have hstep := hmove.keeps hr₁
    exact ⟨hr₁.moves (.single hmove), fun k e hk => hstep.rules k e (hkeeps.rules k e hk),
      fun k v hk => hstep.kinds k v (hkeeps.kinds k v hk),
      fun m k hm => hstep.actions m k (hkeeps.actions m k hm)⟩
  exact (h.preserve hstep ⟨hr, fun _ _ => id, fun _ _ => id, fun _ _ => id⟩).2

/-! ### Declarations -/

/-- The computation makes moves, and leaves the method's rule as it is in the given record unless the
rule was open before. -/
structure Upholds (s : Stage) (m : Method) (own : Recorder) (x : Recording α) : Prop where
  does : Does s false x
  upholds : ∀ ⦃r a r'⦄, r.Sane s → r.building ≠ some m → Faithful m own r → x r = (.ok a, r') →
    r'.building ≠ some m ∧ Faithful m own r'

section Upholding
variable {m : Method} {own : Recorder}

theorem Does.upholds {x : Recording α} (hx : Does s false x)
    (hother : ∀ ⦃r a r'⦄, r.Sane s → r.building ≠ some m → x r = (.ok a, r') →
      r'.building ≠ some m ∧ r'.model.userRules.get? m = r.model.userRules.get? m) :
    Upholds s m own x := by
  refine ⟨hx, fun r a r' hr hb hfaithful hrun => ?_⟩
  obtain ⟨hb', hsame⟩ := hother hr hb hrun
  exact ⟨hb', hfaithful.mono (hr.keeps (hx hr.live hrun nofun)) hsame⟩

theorem Still.upholds {x : Recording α} (hstill : Still x) (hx : Does s false x) : Upholds s m own x := by
  refine hx.upholds fun r a r' _ hb hrun => ?_
  obtain ⟨hbuilding, -, husers⟩ := hstill hrun
  rw [hbuilding, husers]
  exact ⟨hb, rfl⟩

theorem upholds_bind {x : Recording α} {f : α → Recording β} (hx : Upholds s m own x)
    (hf : ∀ a, (∃ r r', x r = (.ok a, r')) → Upholds s m own (f a)) : Upholds s m own (x >>= f) := by
  refine ⟨hx.does.bind_returned fun a ha => (hf a ha).does, fun r b r' hr hb hfaithful h => ?_⟩
  obtain ⟨a, r₁, hrun, h⟩ := bind_eq_ok.mp h
  obtain ⟨hb₁, hfaithful₁⟩ := hx.upholds hr hb hfaithful hrun
  exact (hf a ⟨r, r₁, hrun⟩).upholds (hr.moves (hx.does hr.live hrun nofun)) hb₁ hfaithful₁ h

theorem upholds_nonterminal {key : Option RuleKey} (hkey : ∀ k, key = some k → k ∈ s.keys) :
    Upholds s m own (nonterminal key) := by
  refine (does_nonterminal hkey).upholds fun r a r' hr hb h => ?_
  obtain ⟨m', hopen, hopen', hothers⟩ := nonterminal_opens h
  exact ⟨hopen'.trans hopen.symm ▸ hb, hothers m fun heq => hb (heq ▸ hopen)⟩

theorem upholds_closeRule (object : String) (count : Nat) :
    Upholds s m own (closeRule object count) := by
  refine (does_closeRule object count).upholds fun r a r' hr hb h => ?_
  obtain ⟨hclosed, -, husers⟩ := closeRule_closes h
  rw [hclosed, husers]
  exact ⟨nofun, rfl⟩

end Upholding

/-! ### Recording on top of one another -/

section Owning
variable {own : Recorder} {x : String × (Method × Script)}

theorem does_declarationOf (hs : Orderly s false) (hx : x ∈ s.grammar.rules) :
    Does s false (declarationOf s x) :=
  does_declaration (List.mem_map.mpr ⟨x, hx, rfl⟩) (does_perform hs _ _ _ (holds_rule hx))

theorem fares_declarationOf {base : Recorder} (hs : Orderly s false) (hx : x ∈ s.grammar.rules)
    (hbase : base.Rested s) : Fares base (declarationOf s x {}) (declarationOf s x base) :=
  fares_declaration hbase (List.mem_map.mpr ⟨x, hx, rfl⟩) (tracks_perform hs hbase _ _ _ (holds_rule hx))

/-- Wherever the method's rule is declared, it is the one that its body declares by itself. -/
theorem faithful_of_declaration {base : Recorder} (hs : Orderly s false) (hx : x ∈ s.grammar.rules)
    (hown : declarationOf s x {} = (.ok (), own)) (hbase : base.Rested s) {depth : Nat}
    (hle : depth ≤ s.limit) {args : List Value}
    (h : declaration s x.2.1 (s.grammar.ownerOf x.1) x.2.2 depth args base = (.ok (), r')) :
    Faithful x.2.1 own r' := by
  have hm : x.2.1 ∈ s.grammar.methods := List.mem_map.mpr ⟨x, hx, rfl⟩
  have hbody := holds_rule hx
  have hpass := hs.swallows rfl
  -- both runs go as deep and have the same arguments
  have hown' := below_declaration hpass (Nat.le_refl s.limit) hbody (below_no_argument args) hown
  have h' := below_declaration hpass hle hbody (fun _ => Below.refl _) h
  obtain ⟨-, hover⟩ :=
    declaration_over hbase hm (tracks_perform hs hbase _ _ _ hbody) hown' h'
  exact hover.faithful ((rested_start hbase.sane.keys).declared hm (does_perform hs _ _ _ hbody) hown)

theorem upholds_callRule (hs : Orderly s false) (hdots : ∀ x ∈ s.grammar.rules, '.' ∉ x.1.toList)
    (hx : x ∈ s.grammar.rules) (hown : declarationOf s x {} = (.ok (), own)) {depth : Nat}
    (hle : depth ≤ s.limit) {name owner : String} {method : Method} {body : Script}
    {args : List Value} (hrule : (name, (method, body)) ∈ s.grammar.rules)
    (howner : owner = s.grammar.ownerOf name)
    (hbody : Upholds s x.2.1 own (perform s depth owner body args)) :
    Upholds s x.2.1 own (declaration s method owner body depth args) := by
  have hm : method ∈ s.grammar.methods := List.mem_map.mpr ⟨_, hrule, rfl⟩
  have hdoes : Does s false (declaration s method owner body depth args) :=
    does_declaration hm (does_perform hs _ _ _ (holds_rule hrule))
  refine ⟨hdoes, fun r _ r' hr hb hfaithful h => ?_⟩
  cases hopen : r.building with
  | some m' =>
    -- a reference is pushed
    have hrefers := callRule_refers (m := method) hr.live hopen
      (do let _ ← perform s depth owner body args)
    cases hrefers.symm.trans h
    exact ⟨hopen ▸ hb, hfaithful.mono ⟨fun _ _ => id, fun _ _ => id, fun _ _ => id⟩ rfl⟩
  | none =>
    obtain ⟨hrun, hclosed⟩ := Reading.callRule_ok h hopen
    refine ⟨by rw [hclosed]; nofun, ?_⟩
    by_cases heq : method = x.2.1
    · -- the method itself is declared
      have hnd := GrammarClass.nodup_rule_methods hdots
      have hsame : (name, (method, body)) = x := by
        have hfind := find?_of_nodup (·.2.1) hnd hrule
        rw [show (name, (method, body)).2.1 = x.2.1 from heq, find?_of_nodup (·.2.1) hnd hx] at hfind
        exact (Option.some.inj hfind).symm
      subst hsame
      subst howner
      exact faithful_of_declaration hs hx hown ⟨hr, hopen⟩ hle h
    · -- another one is
      have henter : Moves s false r { r with building := some method, pendingKey := none } :=
        .single (.entered hm hopen)
      obtain ⟨v, r₁, hrun, hend⟩ := bind_eq_ok.mp hrun
      cases hend
      exact (hbody.upholds (hr.moves henter) (fun hb => heq (Option.some.inj hb))
        (hfaithful.mono (hr.keeps henter) rfl) hrun).2

/-- Every call leaves the method's rule as it is, or declares it as its body does by itself. -/
theorem plays_upholds (hs : Orderly s false) (hdots : ∀ x ∈ s.grammar.rules, '.' ∉ x.1.toList)
    (hx : x ∈ s.grammar.rules) (hown : declarationOf s x {} = (.ok (), own)) {depth : Nat}
    (hle : depth ≤ s.limit) : Plays s (perform s depth) (Upholds s x.2.1 own) where
  pure := fun a => (still_pure a).upholds (does_pure a)
  throw := fun f => (still_throw f).upholds (does_throw f)
  bind := upholds_bind
  nonterminal := upholds_nonterminal
  closeRule := upholds_closeRule
  token := fun v => (still_token v).upholds (does_token v)
  pattern := fun v => (still_pattern v).upholds (does_pattern v)
  wrapOne := fun how count => (still_wrapOne how count).upholds (does_wrapOne how count)
  firstOf := fun n => (still_firstOf n).upholds (does_firstOf n)
  callAction := fun hasNames htarget hcall =>
    (still_callAction _ hasNames _).upholds (does_callAction htarget hcall hasNames)
  callRule := fun _ htarget hbody =>
    upholds_callRule hs hdots hx hown hle (mem_of_target? htarget).1 (mem_of_target? htarget).2 hbody
  pop := (still_pop.bind fun _ => still_pure _).upholds (does_pop.bind fun _ => does_pure _)

/-- A declaration leaves the method's rule as it is, or is the method's own. -/
theorem upholds_declarationOf (hs : Orderly s false)
    (hdots : ∀ x ∈ s.grammar.rules, '.' ∉ x.1.toList) (hx : x ∈ s.grammar.rules)
    (hown : declarationOf s x {} = (.ok (), own)) {y : String × (Method × Script)}
    (hy : y ∈ s.grammar.rules) : Upholds s x.2.1 own (declarationOf s y) := by
  have hbody := Plays.perform hs.pushes (outlives_of_none (hs.swallows rfl))
    ((still_throw _).upholds (does_throw _))
    (fun _ hlt => plays_upholds hs hdots hx hown (Nat.le_of_lt hlt)) s.limit (Nat.le_refl _)
    (s.grammar.ownerOf y.1) y.2.2 [] (holds_rule hy)
  exact upholds_callRule hs hdots hx hown (Nat.le_refl _) hy rfl hbody

end Owning

/-! ### Whole recordings -/

/-- What holds at first and is kept by every declaration holds when each rule is declared, and in the
end. -/
theorem recordRules_keeps {holds : Recorder → Prop}
    (hnote : ∀ {r text}, holds r → holds { r with log := r.log ++ [⟨.recorder, text⟩] })
    (hdeclare : ∀ {x r r'}, x ∈ s.grammar.rules → holds r → declarationOf s x r = (.ok (), r') →
      holds r') :
    ∀ {todo : List (String × (Method × Script))} {r final : Recorder},
      (∀ x ∈ todo, x ∈ s.grammar.rules) → holds r →
      recordRules s (todo.map (·.1)) r = (.ok (), final) →
      ∃ last, holds last ∧ finish last = (.ok (), final) ∧
        ∀ x ∈ todo, ∃ base after, holds base ∧ declarationOf s x base = (.ok (), after)
  | [], r, final, _, hr, h => ⟨r, hr, h, nofun⟩
  | x :: rest, r, final, hsub, hr, h => by
    obtain ⟨_, r₁, hrun, h⟩ := bind_eq_ok.mp h
    cases hrun
    obtain ⟨v, r₂, hcall, hlater⟩ := bind_eq_ok.mp h
    have hx := hsub x (List.mem_cons_self ..)
    have hdeclared := call_declares hx hcall
    obtain ⟨last, hlast, hfinish, hrest⟩ := recordRules_keeps hnote hdeclare
      (fun y hy => hsub y (List.mem_cons_of_mem _ hy)) (hdeclare hx (hnote hr) hdeclared) hlater
    refine ⟨last, hlast, hfinish, fun y hy => ?_⟩
    rcases List.mem_cons.mp hy with rfl | hy
    · exact ⟨_, r₂, hnote hr, hdeclared⟩
    · exact hrest y hy

theorem record_declares (hs : Orderly s false) (hkeys : s.GivesOwnKeys) {final : Recorder}
    (h : s.record {} = (.ok (), final)) {m : Method} (hm : m ∈ s.grammar.methods) :
    ∃ key, final.model.userRules.get? m = some key := by
  obtain ⟨last, log, -, -, hclosed, rfl, hentered⟩ := record_moves hs h
  obtain ⟨mid, hmid, hopen, hrest⟩ := hentered m hm
  have hsane : mid.Sane s := (sane_start hkeys).moves hmid
  obtain ⟨key, hkey⟩ := (hsane.moves (.single (.entered hm hopen))).declared rfl hrest hclosed
  exact ⟨key, hkey⟩

/-- After a recording that goes well, the rule of a method is the one that its body declares on an empty
stack, up to the numbers of the keys that were made, if its body declares one there. If it does not,
something was left over by others when the method was declared. -/
theorem rule_is_own (s : Stage) (hpush : s.PushesNothing) (hpass : s.SwallowsNothing)
    (hkeys : s.GivesOwnKeys) (hdots : ∀ x ∈ s.grammar.rules, '.' ∉ x.1.toList) (final : Recorder)
    (h : s.record {} = (.ok (), final)) (x : String × (Method × Script)) (hx : x ∈ s.grammar.rules) :
    (∀ own, declarationOf s x {} = (.ok (), own) →
      ∃ n key body, own.model.userRules.get? x.2.1 = some key ∧
        own.registry.grammar.rules.get? key = some body ∧
        final.model.userRules.get? x.2.1 = some (key.shift n) ∧
        final.registry.grammar.rules.get? (key.shift n) = some (body.shift n) ∧ Copies n own final) ∧
    ((∀ own, declarationOf s x {} ≠ (.ok (), own)) →
      ∃ base after, Moves s false {} base ∧ base.building = none ∧ base.stack ≠ [] ∧
        declarationOf s x base = (.ok (), after)) := by
  have hs : Orderly s false := ⟨hpush, fun _ => hpass⟩
  let holds (r : Recorder) : Prop := Moves s false {} r ∧ r.building = none ∧
    ∀ own, declarationOf s x {} = (.ok (), own) → Faithful x.2.1 own r
  have hnote : ∀ {r text}, holds r → holds { r with log := r.log ++ [⟨.recorder, text⟩] } :=
    fun ⟨hmoves, hb, hfaithful⟩ => ⟨hmoves.tail (.noted _), hb, fun own hown =>
      (hfaithful own hown).mono ⟨fun _ _ => id, fun _ _ => id, fun _ _ => id⟩ rfl⟩
  have hdeclare : ∀ {y r r'}, y ∈ s.grammar.rules → holds r →
      declarationOf s y r = (.ok (), r') → holds r' := by
    intro y r r' hy ⟨hmoves, hb, hfaithful⟩ hrun
    have hr : r.Sane s := (sane_start hkeys).moves hmoves
    have hdeclares := does_declarationOf hs hy hr.live hrun nofun
    refine ⟨hmoves.trans hdeclares, (Reading.callRule_ok hrun hb).2, fun own hown => ?_⟩
    exact ((upholds_declarationOf hs hdots hx hown hy).upholds hr (by rw [hb]; nofun)
      (hfaithful own hown) hrun).2
  have hm : x.2.1 ∈ s.grammar.methods := List.mem_map.mpr ⟨x, hx, rfl⟩
  obtain ⟨key, hdeclares⟩ := record_declares hs hkeys h hm
  unfold record at h
  split at h
  · obtain ⟨last, ⟨hmoves, hb, hfaithful⟩, hfinish, hdeclared⟩ :=
      recordRules_keeps hnote hdeclare (fun _ => id) ⟨.refl, rfl, fun _ _ => nofun⟩ h
    obtain ⟨base, after, ⟨hbase, hclosed, -⟩, hrun⟩ := hdeclared x hx
    obtain ⟨-, -, log, rfl⟩ := finish_ok hfinish
    refine ⟨fun own hown => ?_, fun hnone => ?_⟩
    · obtain ⟨n, hcopies, key, hkey, rfl⟩ := hfaithful own hown _ hdeclares
      have hrested : own.Rested s :=
        (rested_start hkeys).after hm (does_perform hs _ _ _ (holds_rule hx)) hown
      obtain ⟨body, hbody⟩ := hrested.ruled hkey
      exact ⟨n, key, body, hkey, hbody, hdeclares, hcopies.rules key body hbody, { hcopies with }⟩
    · refine ⟨base, after, hbase, hclosed, ?_, hrun⟩
      have hfares := fares_declarationOf hs hx ⟨(sane_start hkeys).moves hbase, hclosed⟩
      rcases hown : declarationOf s x {} with ⟨f | _, own⟩
      · rw [hown, hrun] at hfares
        cases hfares with
        | fed hleft => exact hleft
      · exact absurd hown (hnone own)
  · cases h

end Library

theorem rule_is_own_rebound : rebound.grammar.rules.map (·.1) = ["first", "second"] ∧
    ∃ final, rebound.record {} = (.ok (), final) ∧ ∀ x ∈ rebound.grammar.rules, ∃ own n key body,
      declarationOf rebound x {} = (.ok (), own) ∧ own.model.userRules.get? x.2.1 = some key ∧
      own.registry.grammar.rules.get? key = some body ∧
      final.model.userRules.get? x.2.1 = some (key.shift n) ∧
      final.registry.grammar.rules.get? (key.shift n) = some (body.shift n) ∧ Copies n own final := by
  have hpush : rebound.PushesNothing := by decide +kernel
  have hpass : rebound.SwallowsNothing := by decide +kernel
  have hgiven : rebound.keys = [.given "first" "first"] := by decide +kernel
  have hkeys : rebound.GivesOwnKeys := by
    intro key hkey n
    rw [hgiven, List.mem_singleton] at hkey
    rw [hkey]
    nofun
  have hdots : ∀ x ∈ rebound.grammar.rules, '.' ∉ x.1.toList := by decide +kernel
  have hok : (rebound.record {}).1.isOk = true := by decide +kernel
  have hdeclares : ∀ x ∈ rebound.grammar.rules, (declarationOf rebound x {}).1.isOk = true := by
    decide +kernel
  refine ⟨by decide +kernel, ?_⟩
  rcases hrecord : rebound.record {} with ⟨f | _, final⟩
  · rw [hrecord] at hok; cases hok
  · refine ⟨final, rfl, fun x hx => ?_⟩
    have hdeclared := hdeclares x hx
    rcases hown : declarationOf rebound x {} with ⟨f | _, own⟩
    · rw [hown] at hdeclared; cases hdeclared
    · obtain ⟨n, key, body, hrest⟩ :=
        (rule_is_own rebound hpush hpass hkeys hdots final hrecord x hx).1 own hown
      exact ⟨own, n, key, body, rfl, hrest⟩

/-- A grammar whose first rule method pushes one expression too many and whose second one pushes none. -/
def leaky : Stage where
  grammar :=
    [{ name := "Leaky", bases := ["GrammarBase"],
       members := ⟨[
        ("first", .method [.rule none [.token (.value (.text "a"))], .token (.value (.text "b"))]),
        ("second", .method [.nonterminal none, .is []])]⟩ },
      grammarBase, ClassDecl.top]
  factory := [ClassDecl.top]

/-- Recording it goes well, and the second rule is made of what the first method left over; by itself the
second method declares no rule. -/
theorem leaky_second_takes_left_over : ∃ final key, leaky.record {} = (.ok (), final) ∧
    final.model.userRules.get? ⟨"Leaky.second"⟩ = some key ∧
    ((final.registry.grammar.rules.get? key).bind fun e => e.format.toOption) =
      some "token(/\\s*+/ 'b' /\\s*+/)" ∧
    ∀ x ∈ leaky.grammar.rules, x.2.1 = ⟨"Leaky.second"⟩ → ∀ own,
      declarationOf leaky x {} ≠ (.ok (), own) := by
  have hok : (leaky.record {}).1.isOk = true := by decide +kernel
  have hkey : ((leaky.record {}).2.model.userRules.get? ⟨"Leaky.second"⟩).isSome = true := by
    decide +kernel
  have hbody : (((leaky.record {}).2.model.userRules.get? ⟨"Leaky.second"⟩).bind fun key =>
      ((leaky.record {}).2.registry.grammar.rules.get? key).bind fun e => e.format.toOption) =
      some "token(/\\s*+/ 'b' /\\s*+/)" := by
    decide +kernel
  have hfails : ∀ x ∈ leaky.grammar.rules, x.2.1 = ⟨"Leaky.second"⟩ →
      (declarationOf leaky x {}).1.isOk = false := by
    decide +kernel
  rcases hrecord : leaky.record {} with ⟨f | _, final⟩
  · rw [hrecord] at hok; cases hok
  · rw [hrecord] at hkey hbody
    obtain ⟨key, hkey⟩ := Option.isSome_iff_exists.mp hkey
    rw [hkey, Option.bind_some] at hbody
    refine ⟨final, key, rfl, hkey, hbody, fun x hx hm own hown => ?_⟩
    have hfail := hfails x hx hm
    rw [hown] at hfail; cases hfail

end Recorder
end PegScribe
