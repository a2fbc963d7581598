import PegScribe.Proofs.Methods
import PegScribe.Proofs.Reading
import PegScribe.Proofs.Recording

/-!
Rendering: what a term becomes when it is played on a recorder.

`Renders s r frame t e` says that `e` stands for `t` by what the recorder `r` has on record. A term that
is played well pushes one such expression (`plays_of_builder`), and every rule method ends up with a
rule whose body stands for its term (`record_declares`).
-/
namespace PegScribe

/-- The kind of rule that a wrapper makes. -/
def Wrapper.kind : Wrapper → RuleKind
  | .optional => .optional
  | .oneOrMore => .oneOrMore
  | .zeroOrMore => .zeroOrMore

/-- How a wrapper repeats its operand. -/
def Wrapper.repetition : Wrapper → Repetition
  | .optional => .optional
  | .oneOrMore => .oneOrMore
  | .zeroOrMore => .zeroOrMore

namespace Reading
open Stage Keeping Recorder

/-! ### What is pushed -/

/-- Expressions were pushed, rules may have been added, and the open rule is as it was. -/
structure Pushed (r r' : Recorder) (es : List Expr) : Prop where
  tidy : r'.Tidy
  grows : r.Grows r'
  stack : r'.stack = r.stack ++ es
  building : r'.building = r.building
  pending : r'.pendingKey = r.pendingKey
  users : r'.model.userRules = r.model.userRules

theorem Pushed.nil {r : Recorder} (hr : r.Tidy) : Pushed r r [] :=
  ⟨hr, .refl r, (List.append_nil _).symm, rfl, rfl, rfl⟩

theorem Pushed.append {r r₁ r' : Recorder} {es es' : List Expr} (h : Pushed r r₁ es)
    (h' : Pushed r₁ r' es') : Pushed r r' (es ++ es') where
  tidy := h'.tidy
  grows := h.grows.trans h'.grows
  stack := by rw [h'.stack, h.stack, List.append_assoc]
  building := h'.building.trans h.building
  pending := h'.pending.trans h.pending
  users := h'.users.trans h.users

/-- The operands of a call give way to another expression, and no rule is added. -/
theorem Pushed.restack {r r₁ : Recorder} {es : List Expr} (h : Pushed r r₁ es) (e : Expr) :
    Pushed r { r₁ with stack := r.stack ++ [e] } [e] where
  tidy := h.tidy.of_same rfl rfl rfl
  grows := h.grows.trans (.of_same rfl rfl rfl)
  stack := rfl
  building := h.building
  pending := h.pending
  users := h.users

/-- The operands of a call give way to a reference to a rule of a kind. -/
theorem Pushed.withKind {r r₁ : Recorder} {es : List Expr} (h : Pushed r r₁ es) {key : RuleKey}
    (hid : key.id = .minted r₁.minted) (hnew : r₁.registry.grammar.rules.get? key = none)
    (kind : RuleKind) (body : Expr) :
    Pushed r (r₁.withKind key kind body (r.stack ++ [.call key])) [.call key] :=
  ⟨h.tidy.withKind hid hnew kind, h.grows.trans (.withKind hid hnew kind), rfl, h.building,
    h.pending, h.users⟩

theorem operands_of_stack {base stack es es' : List Expr} (h : stack ++ es = base ++ es')
    (hlen : es'.length = es.length) : base = stack ∧ es' = es :=
  List.append_inj' h.symm hlen

theorem addRule_plays {r r' : Recorder} {kind : RuleKind} {operand body : Expr}
    (h : addRule kind operand body r = (.ok (), r')) (hr : r.Tidy) :
    ∃ key, Pushed r r' [.call key] ∧ ∀ final, r'.Grows final →
      final.model.kinds.get? key = some kind ∧
      final.registry.grammar.rules.get? key = some body := by
  obtain ⟨key, hid, hnew, rfl⟩ := addRule_ok h
  exact ⟨key, (Pushed.nil hr).withKind hid hnew kind body, fun _ => Grows.of_withKind hid⟩

theorem wrapOne_ok {how : Wrapper} {r r' : Recorder} (h : wrapOne how 1 r = (.ok (), r')) :
    ∃ base e key, r.stack = base ++ [e] ∧ RuleKey.id key = .minted r.minted ∧
      r.registry.grammar.rules.get? key = none ∧
      r' = r.withKind key how.kind (.rep how.repetition e) (base ++ [.call key]) := by
  obtain ⟨e, r₁, hpop, h⟩ : ∃ e r₁, pop r = (.ok e, r₁) ∧
      addRule how.kind e (.rep how.repetition e) r₁ = (.ok (), r') := by
    cases how <;> exact bind_eq_ok.mp h
  obtain ⟨base, hstack, rfl⟩ := pop_ok hpop
  obtain ⟨key, hid, hnew, rfl⟩ := addRule_ok h
  exact ⟨base, e, key, hstack, hid, hnew, rfl⟩

/-! ### Calls of rule methods -/

section Calls
variable {s : Stage} {method : Method} {r r' : Recorder}

/-- A rule method is found by its name, unless the builder or the factory hides it. -/
theorem target?_of_rule {x : String × (Method × Script)} (hx : x ∈ s.grammar.rules) :
    s.target? x.1 = some (.rule x.2.1 (s.grammar.ownerOf x.1) x.2.2) ∨
      ∃ type, s.target? x.1 = some (.inert type) := by
  unfold target?
  split
  · exact .inr ⟨_, rfl⟩
  · split
    · exact .inr ⟨_, rfl⟩
    · rw [GrammarClass.find?_rules hx]
      exact .inl rfl

theorem callRule_ok {body : Recording Unit} (h : callRule method body r = (.ok (), r'))
    (hbuilding : r.building = none) :
    body { r with building := some method, pendingKey := none } = (.ok (), r') ∧
      r'.building = none := by
  have henter : enter method r = (.ok true, { r with building := some method, pendingKey := none }) := by
    refine (bind_of_ok (show (get : Recording Recorder) r = (.ok r, r) from rfl)).trans ?_
    rw [hbuilding]
    rfl
  unfold callRule at h
  rw [bind_of_ok henter, if_pos rfl] at h
  obtain ⟨result, r₁, hout, h⟩ := bind_eq_ok.mp h
  cases hout
  rcases hbody : body { r with building := some method, pendingKey := none } with ⟨result, r₁⟩
  rw [hbody] at h
  cases result with
  | error f => cases h
  | ok _ =>
    obtain ⟨_, r₂, hget, h⟩ := bind_eq_ok.mp h
    cases hget
    by_cases hopen : r₁.building.isSome = true
    · rw [if_pos hopen] at h; cases h
    · rw [if_neg hopen] at h; cases h
      exact ⟨rfl, by simpa using hopen⟩

theorem finish_grows (h : Recorder.finish r = (.ok (), r')) : r.Grows r' := by
  obtain ⟨_, r₁, hget, h⟩ := bind_eq_ok.mp h
  cases hget
  dsimp only at h
  by_cases hleft : (!r.stack.isEmpty) = true
  · rw [if_pos hleft] at h
    obtain ⟨_, r₁, -, h⟩ := bind_eq_ok.mp h
    cases h
  · rw [if_neg hleft] at h
    cases hbuilding : r.building with
    | some m => rw [hbuilding] at h; cases h
    | none =>
      rw [hbuilding] at h; cases h
      exact .of_same rfl rfl rfl

end Calls

/-! ### What stands for a term -/

variable [PatternLibrary]

/-- The expression stands for the term, by what is on record. -/
inductive Renders (s : Stage) (r : Recorder) : Frame → Term → Expr → Prop
  | token {frame arg t key} (h : plain? frame.args arg = some (.text t))
    (hkind : r.model.kinds.get? key = some .token)
    (hrule : r.registry.grammar.rules.get? key = some (padded (.literal t))) :
    Renders s r frame (.token arg) (.call key)
  | pattern {frame arg t regex key} (h : plain? frame.args arg = some (.text t))
    (hregex : PatternLibrary.compile t = .ok regex) (hkind : r.model.kinds.get? key = some .pattern)
    (hrule : r.registry.grammar.rules.get? key = some (padded (.pattern t))) :
    Renders s r frame (.pattern arg) (.call key)
  | wrap {frame how t e key} (h : Renders s r frame t e)
    (hkind : r.model.kinds.get? key = some how.kind)
    (hrule : r.registry.grammar.rules.get? key = some (.rep how.repetition e)) :
    Renders s r frame (.wrap how [t]) (.call key)
  | firstOf {frame alts es} (hlen : es.length = alts.length)
    (h : ∀ p ∈ alts.zip es, Renders s r frame p.1 p.2) :
    Renders s r frame (.firstOf alts) (.choice es)
  | action {frame name args method m es key}
    (hm : s.factory.methods.find? (fun (n, _) => n = name) = some (name, (method, m)))
    (hlen : es.length = args.length) (h : ∀ p ∈ args.zip es, Renders s r frame p.1 p.2)
    (hkind : r.model.kinds.get? key = none) (huser : r.model.userRules.keyOf? key = none)
    (haction : r.model.actionRules.keyOf? key = some method)
    (hrule : r.registry.grammar.rules.get? key = some (operands es)) :
    Renders s r frame (.action name args) (.call key)
  | rule {frame name args method owner body}
    (ht : s.target? name = some (.rule method owner body)) :
    Renders s r frame (.call name args) (.late (.method method))
  | helper {frame name args owner t vs e} (ht : s.target? name = some (.inline owner [t]))
    (hargs : plainAll? frame.args args = some vs) (h : Renders s r ⟨owner, vs⟩ t e) :
    Renders s r frame (.call name args) e
  | inherited {frame name args owner t vs e}
    (ht : s.inheritedTarget? frame.owner name = some (.inline owner [t]))
    (hargs : plainAll? frame.args args = some vs) (h : Renders s r ⟨owner, vs⟩ t e) :
    Renders s r frame (.inherited name args) e

/-! ### Playing a term -/

/-- Whenever the term is played well inside a rule, it pushes one expression that stands for it, by
whatever is on record from then on. -/
def Plays (s : Stage) (frame : Frame) (t : Term) : Prop :=
  ∀ depth r v r', play s (perform s depth) frame t r = (.ok v, r') → r.Tidy →
    r.building.isSome = true →
    ∃ e, Pushed r r' [e] ∧ ∀ final, r'.Grows final → Renders s final frame t e

section Plain
variable {s : Stage} {inline : Inline} {frame : Frame}

theorem play_plain {t : Term} {v : Value} (h : plain? frame.args t = some v) (r : Recorder) :
    play s inline frame t r = (.ok v, r) := by
  unfold plain? at h
  split at h
  · cases h; rfl
  · rw [play]
    unfold argumentAt
    dsimp only at h ⊢
    rw [h]
    rfl
  · cases h

theorem playAll_plain : ∀ {ts : List Term} {vs : List Value}, plainAll? frame.args ts = some vs →
    ∀ r, playAll s inline frame ts r = (.ok vs, r)
  | [], vs, h, r => by cases h; rw [playAll]; rfl
  | t :: rest, vs, h, r => by
    obtain ⟨v, hv, h⟩ := Option.bind_eq_some_iff.mp h
    obtain ⟨vs', hvs, h⟩ := Option.bind_eq_some_iff.mp h
    cases h
    rw [playAll, bind_of_ok (play_plain hv r), bind_of_ok (playAll_plain hvs r)]
    rfl

end Plain

/-! ### Terms that were played well, taken apart -/

section Parts
variable {s : Stage} {inline : Inline} {frame : Frame} {r r' : Recorder} {v : Value}

theorem play_token_ok {arg : Term} {t : String} (harg : plain? frame.args arg = some (.text t))
    (h : play s inline frame (.token arg) r = (.ok v, r')) :
    addRule .token (padded (.literal t)) (padded (.literal t)) r = (.ok (), r') := by
  rw [play, bind_of_ok (play_plain harg r)] at h
  obtain ⟨_, r₁, htoken, h⟩ := bind_eq_ok.mp h
  cases h
  exact htoken

theorem play_pattern_ok {arg : Term} {t : String} (harg : plain? frame.args arg = some (.text t))
    (h : play s inline frame (.pattern arg) r = (.ok v, r')) :
    (∃ regex, PatternLibrary.compile t = .ok regex) ∧
      addRule .pattern (padded (.pattern t)) (padded (.pattern t)) r = (.ok (), r') := by
  rw [play, bind_of_ok (play_plain harg r)] at h
  obtain ⟨_, r₁, hpattern, h⟩ := bind_eq_ok.mp h
  cases h
  unfold Recorder.pattern Expr.pattern? at hpattern
  dsimp only at hpattern
  cases hregex : PatternLibrary.compile t with
  | error f => rw [hregex] at hpattern; cases hpattern
  | ok regex =>
    rw [hregex] at hpattern
    exact ⟨⟨regex, rfl⟩, hpattern⟩

theorem play_wrap_ok {how : Wrapper} {args : List Term}
    (h : play s inline frame (.wrap how args) r = (.ok v, r')) :
    ∃ vs r₁, playAll s inline frame args r = (.ok vs, r₁) ∧
      wrapOne how vs.length r₁ = (.ok (), r') := by
  rw [play] at h
  obtain ⟨vs, r₁, hargs, h⟩ := bind_eq_ok.mp h
  obtain ⟨_, r₂, hwrap, h⟩ := bind_eq_ok.mp h
  cases h
  exact ⟨vs, r₁, hargs, hwrap⟩

theorem play_firstOf_ok {args : List Term}
    (h : play s inline frame (.firstOf args) r = (.ok v, r')) :
    ∃ vs r₁, playAll s inline frame args r = (.ok vs, r₁) ∧
      Recorder.firstOf vs.length r₁ = (.ok (), r') := by
  rw [play] at h
  obtain ⟨vs, r₁, hargs, h⟩ := bind_eq_ok.mp h
  obtain ⟨_, r₂, hfirst, h⟩ := bind_eq_ok.mp h
  cases h
  exact ⟨vs, r₁, hargs, hfirst⟩

theorem play_action_ok {name : String} {args : List Term} {method : Method} {m : FactoryMethod}
    (hm : s.factory.methods.find? (fun (n, _) => n = name) = some (name, (method, m)))
    (h : play s inline frame (.action name args) r = (.ok v, r')) :
    ∃ vs r₁, playAll s inline frame args r = (.ok vs, r₁) ∧
      Recorder.action method m.signature.names vs.length r₁ = (.ok (), r') := by
  have htarget : s.actionTarget? name = some (.recorded method m.signature) := by
    unfold actionTarget?
    rw [hm]
  rw [play, htarget] at h
  obtain ⟨vs, r₁, hplay, h⟩ := bind_eq_ok.mp h
  unfold callAction at h
  dsimp only at h
  cases hcheck : m.signature.check vs.length with
  | error why => rw [hcheck] at h; cases h
  | ok _ =>
    rw [hcheck] at h
    obtain ⟨_, r₂, haction, h⟩ := bind_eq_ok.mp h
    cases h
    exact ⟨vs, r₁, hplay, haction⟩

/-- Inside a rule, a call of a rule method only pushes a late reference. -/
theorem play_rule_ok {name : String} {args : List Term} {vs : List Value} {method : Method}
    {owner : String} {body : Script} (ht : s.target? name = some (.rule method owner body))
    (hargs : plainAll? frame.args args = some vs) (hb : r.building.isSome = true)
    (h : play s inline frame (.call name args) r = (.ok v, r')) :
    r' = { r with stack := r.stack ++ [.late (.method method)] } := by
  rw [play, ht] at h
  obtain ⟨_, r₁, hlook, h⟩ := bind_eq_ok.mp h
  cases hlook
  rw [bind_of_ok (playAll_plain hargs r)] at h
  obtain ⟨_, r₁, hcall, h⟩ := bind_eq_ok.mp h
  cases h
  obtain ⟨entered, r₂, henter, h⟩ := bind_eq_ok.mp hcall
  obtain ⟨r₃, r₄, hget, henter⟩ := bind_eq_ok.mp henter
  cases hget
  rw [if_pos hb] at henter
  obtain ⟨_, r₄, hpush, henter⟩ := bind_eq_ok.mp henter
  cases henter
  cases h
  exact push_ok hpush

theorem play_helper_ok {name : String} {args : List Term} {vs : List Value} {owner : String}
    {body : Script} (ht : s.target? name = some (.inline owner body))
    (hargs : plainAll? frame.args args = some vs)
    (h : play s inline frame (.call name args) r = (.ok v, r')) :
    inline owner body vs r = (.ok v, r') := by
  rw [play, ht] at h
  obtain ⟨_, r₁, hlook, h⟩ := bind_eq_ok.mp h
  cases hlook
  rw [bind_of_ok (playAll_plain hargs r)] at h
  exact h

theorem play_inherited_ok {name : String} {args : List Term} {vs : List Value} {owner : String}
    {body : Script} (ht : s.inheritedTarget? frame.owner name = some (.inline owner body))
    (hargs : plainAll? frame.args args = some vs)
    (h : play s inline frame (.inherited name args) r = (.ok v, r')) :
    inline owner body vs r = (.ok v, r') := by
  rw [play, ht] at h
  obtain ⟨_, r₁, hlook, h⟩ := bind_eq_ok.mp h
  cases hlook
  rw [bind_of_ok (playAll_plain hargs r)] at h
  exact h

/-- A body of one term is played by playing the term. -/
theorem perform_one_ok {depth : Nat} {owner : String} {t : Term} {vs : List Value}
    (h : perform s depth owner [t] vs r = (.ok v, r')) :
    ∃ depth' v', play s (perform s depth') ⟨owner, vs⟩ t r = (.ok v', r') := by
  cases depth with
  | zero => cases h
  | succ depth =>
    obtain ⟨_, r₁, hplay, h⟩ := bind_eq_ok.mp h
    cases h
    rw [playAll] at hplay
    obtain ⟨v', r₂, hterm, hplay⟩ := bind_eq_ok.mp hplay
    rw [playAll] at hplay
    cases hplay
    exact ⟨depth, v', hterm⟩

end Parts

section Terms
variable {s : Stage} {frame : Frame}

theorem playAll_pushes {depth : Nat} : ∀ {ts : List Term} {r r' : Recorder} {vs : List Value},
    (∀ t ∈ ts, Plays s frame t) → playAll s (perform s depth) frame ts r = (.ok vs, r') →
    r.Tidy → r.building.isSome = true →
    ∃ es, Pushed r r' es ∧ vs.length = ts.length ∧ es.length = ts.length ∧
      ∀ final, r'.Grows final → ∀ p ∈ ts.zip es, Renders s final frame p.1 p.2
  | [], r, r', vs, _, h, hr, _ => by
    rw [playAll] at h
    cases h
    exact ⟨[], .nil hr, rfl, rfl, by simp⟩
  | t :: rest, r, r', vs, hts, h, hr, hb => by
    rw [playAll] at h
    obtain ⟨v, r₁, ht, h⟩ := bind_eq_ok.mp h
    obtain ⟨vs', r₂, hrest, h⟩ := bind_eq_ok.mp h
    cases h
    obtain ⟨e, hpush, hrender⟩ := hts t (List.mem_cons_self ..) _ _ _ _ ht hr hb
    obtain ⟨es, hpush', hvs, hes, hrender'⟩ :=
      playAll_pushes (fun t hmem => hts t (List.mem_cons_of_mem _ hmem)) hrest hpush.tidy
        (hpush.building ▸ hb)
    refine ⟨e :: es, hpush.append hpush', by rw [List.length_cons, hvs, List.length_cons],
      by rw [List.length_cons, hes, List.length_cons], fun final hgrows p hp => ?_⟩
    rcases List.mem_cons.mp hp with rfl | hp
    · exact hrender final (hpush'.grows.trans hgrows)
    · exact hrender' final hgrows p hp

theorem plays_token {arg : Term} {t : String} (harg : plain? frame.args arg = some (.text t)) :
    Plays s frame (.token arg) := by
  intro depth r v r' h hr _
  obtain ⟨key, hpush, hfinal⟩ := addRule_plays (play_token_ok harg h) hr
  exact ⟨.call key, hpush, fun final hg => .token harg (hfinal final hg).1 (hfinal final hg).2⟩

theorem plays_pattern {arg : Term} {t : String} (harg : plain? frame.args arg = some (.text t)) :
    Plays s frame (.pattern arg) := by
  intro depth r v r' h hr _
  obtain ⟨⟨regex, hregex⟩, hpattern⟩ := play_pattern_ok harg h
  obtain ⟨key, hpush, hfinal⟩ := addRule_plays hpattern hr
  exact ⟨.call key, hpush, fun final hg =>
    .pattern harg hregex (hfinal final hg).1 (hfinal final hg).2⟩

theorem plays_wrap {how : Wrapper} {t : Term} (ht : Plays s frame t) :
    Plays s frame (.wrap how [t]) := by
  intro depth r v r' h hr hb
  obtain ⟨vs, r₁, hargs, hwrap⟩ := play_wrap_ok h
  obtain ⟨es, hpush, hvs, hes, hrender⟩ := playAll_pushes (by simpa using ht) hargs hr hb
  obtain ⟨e, rfl⟩ := List.length_eq_one_iff.mp hes
  rw [hvs] at hwrap
  obtain ⟨base, e', key, hstack, hid, hnew, rfl⟩ := wrapOne_ok hwrap
  obtain ⟨rfl, heq⟩ := operands_of_stack (hpush.stack.symm.trans hstack) rfl
  cases heq
  refine ⟨.call key, hpush.withKind hid hnew _ _, fun final hg => ?_⟩
  obtain ⟨hkind, hrule⟩ := Grows.of_withKind hid hg
  have hgrows := (Grows.withKind hid hnew how.kind).trans hg
  exact .wrap (hrender final hgrows (t, e) (by simp)) hkind hrule

theorem plays_firstOf {alts : List Term} (halts : ∀ t ∈ alts, Plays s frame t) :
    Plays s frame (.firstOf alts) := by
  intro depth r v r' h hr hb
  obtain ⟨vs, r₁, hargs, hfirst⟩ := play_firstOf_ok h
  obtain ⟨es, hpush, hvs, hes, hrender⟩ := playAll_pushes halts hargs hr hb
  obtain ⟨base, es', hstack, hlen, rfl⟩ := firstOf_ok hfirst
  obtain ⟨rfl, rfl⟩ := operands_of_stack (hpush.stack.symm.trans hstack)
    (hlen.trans (hvs.trans hes.symm))
  exact ⟨.choice es', hpush.restack _, fun final hg =>
    .firstOf hes (hrender final (hg.from_same rfl rfl rfl))⟩

theorem plays_action {name : String} {args : List Term} {method : Method} {m : FactoryMethod}
    (hm : s.factory.methods.find? (fun (n, _) => n = name) = some (name, (method, m)))
    (hargs : ∀ t ∈ args, Plays s frame t) : Plays s frame (.action name args) := by
  intro depth r v r' h hr hb
  obtain ⟨vs, r₁, hplay, haction⟩ := play_action_ok hm h
  obtain ⟨es, hpush, hvs, hes, hrender⟩ := playAll_pushes hargs hplay hr hb
  obtain ⟨base, es', key, log, hstack, hlen, hid, hnew, rfl⟩ := action_ok hpush.tidy haction
  obtain ⟨rfl, rfl⟩ := operands_of_stack (hpush.stack.symm.trans hstack)
    (hlen.trans (hvs.trans hes.symm))
  refine ⟨.call key, ⟨hpush.tidy.withAction hid hnew method log,
    hpush.grows.trans (.withAction hid hnew method log), rfl, hpush.building, hpush.pending,
    hpush.users⟩, fun final hg => ?_⟩
  obtain ⟨hkind, huser, haction, hrule⟩ := Grows.of_withAction hpush.tidy hid hg
  have hgrows := (Grows.withAction hid hnew method log).trans hg
  exact .action hm hes (hrender final hgrows) hkind huser haction hrule

theorem plays_rule {name : String} {args : List Term} {vs : List Value} {method : Method}
    {owner : String} {body : Script} (ht : s.target? name = some (.rule method owner body))
    (hargs : plainAll? frame.args args = some vs) : Plays s frame (.call name args) := by
  intro depth r v r' h hr hb
  obtain rfl := play_rule_ok ht hargs hb h
  exact ⟨.late (.method method), (Pushed.nil hr).restack _, fun final _ => .rule ht⟩

theorem plays_helper {name : String} {args : List Term} {vs : List Value} {owner : String}
    {t : Term} (htarget : s.target? name = some (.inline owner [t]))
    (hargs : plainAll? frame.args args = some vs) (ht : Plays s ⟨owner, vs⟩ t) :
    Plays s frame (.call name args) := by
  intro depth r v r' h hr hb
  obtain ⟨depth', v', hterm⟩ := perform_one_ok (play_helper_ok htarget hargs h)
  obtain ⟨e, hpush, hrender⟩ := ht _ _ _ _ hterm hr hb
  exact ⟨e, hpush, fun final hg => .helper htarget hargs (hrender final hg)⟩

theorem plays_inherited {name : String} {args : List Term} {vs : List Value} {owner : String}
    {t : Term} (htarget : s.inheritedTarget? frame.owner name = some (.inline owner [t]))
    (hargs : plainAll? frame.args args = some vs) (ht : Plays s ⟨owner, vs⟩ t) :
    Plays s frame (.inherited name args) := by
  intro depth r v r' h hr hb
  obtain ⟨depth', v', hterm⟩ := perform_one_ok (play_inherited_ok htarget hargs h)
  obtain ⟨e, hpush, hrender⟩ := ht _ _ _ _ hterm hr hb
  exact ⟨e, hpush, fun final hg => .inherited htarget hargs (hrender final hg)⟩

end Terms

theorem plays_of_builder {s : Stage} {frame : Frame} {t : Term} (h : Builder s frame t) :
    Plays s frame t := by
  induction h with
  | token h => exact plays_token h
  | pattern h => exact plays_pattern h
  | wrap _ ih => exact plays_wrap ih
  | firstOf _ ih => exact plays_firstOf ih
  | action hm _ ih => exact plays_action hm ih
  | rule ht hargs => exact plays_rule ht hargs
  | helper ht hargs _ ih => exact plays_helper ht hargs ih
  | inherited ht hargs _ ih => exact plays_inherited ht hargs ih

/-! ### Recording a grammar -/

/-- The rule method has a key, and under it a rule whose body stands for the method's term. -/
structure Declared (s : Stage) (r : Recorder) (m : Method) (frame : Frame) (t : Term)
    (key : RuleKey) (e : Expr) : Prop where
  method : r.model.userRules.get? m = some key
  user : r.model.userRules.keyOf? key = some m
  kind : r.model.kinds.get? key = none
  rule : r.registry.grammar.rules.get? key = some e
  renders : Renders s r frame t e

section Rules
variable {s : Stage} {method : Method} {owner : String} {t : Term} {r r' : Recorder}

/-- The body of a rule method opens its rule, pushes one expression and closes the rule with it. -/
theorem body_declares {depth : Nat} {args : List Value} {v : Value}
    (h : perform s depth owner [.rule none [t]] args r = (.ok v, r'))
    (ht : Plays s ⟨owner, args⟩ t) (hr : r.Tidy) (hbuilding : r.building = some method)
    (hnew : r.model.userRules.get? method = none) :
    r'.Tidy ∧ r.Grows r' ∧
      (∀ m, m ≠ method → r'.model.userRules.get? m = r.model.userRules.get? m) ∧
      ∀ final, r'.Grows final → ∃ key e, Declared s final method ⟨owner, args⟩ t key e := by
  cases depth with
  | zero => cases h
  | succ depth =>
    obtain ⟨_, r₁, hplay, h⟩ := bind_eq_ok.mp h
    cases h
    rw [playAll] at hplay
    obtain ⟨_, r₂, hterm, hplay⟩ := bind_eq_ok.mp hplay
    rw [playAll] at hplay
    cases hplay
    rw [play] at hterm
    obtain ⟨_, r₃, hopen, hterm⟩ := bind_eq_ok.mp hterm
    obtain ⟨vs, r₄, hargs, hterm⟩ := bind_eq_ok.mp hterm
    obtain ⟨_, r₅, hclose, hterm⟩ := bind_eq_ok.mp hterm
    cases hterm
    obtain ⟨key, hid, rfl⟩ := nonterminal_ok hopen hbuilding hnew fun k hk => get?_next hk hr.users
    obtain ⟨es, hpush, hvs, hes, hrender⟩ := playAll_pushes (by simpa using ht) hargs
      (hr.withUser hid method) (by show r.building.isSome = true; rw [hbuilding]; rfl)
    obtain ⟨e, rfl⟩ := List.length_eq_one_iff.mp hes
    unfold closeRule at hclose
    rw [hvs, if_neg (by simp)] at hclose
    obtain ⟨e', log, hstack, hrule, rfl⟩ := is_ok hclose (hpush.building.trans hbuilding)
      hpush.pending
    have hone : r.stack ++ [e] = [] ++ [e'] := hpush.stack.symm.trans hstack
    obtain ⟨-, heq⟩ := operands_of_stack hone rfl
    cases heq
    have hclosed : Grows r₄ (r₄.withClosed key e log) := .withClosed hrule log
    refine ⟨hpush.tidy.withClosed hrule log,
      (Grows.withUser hid hnew).trans (hpush.grows.trans hclosed), fun m hm => ?_,
      fun final hg => ?_⟩
    · show r₄.model.userRules.get? m = r.model.userRules.get? m
      rw [hpush.users]
      exact (Ledger.get?_insert ..).trans (if_neg (Ne.symm hm))
    · have hgrows := hclosed.trans hg
      obtain ⟨hkind, huser, hmethod⟩ := Grows.of_withUser hr hid (hpush.grows.trans hgrows)
      refine ⟨key, e, hmethod, huser, hkind, hg.rules key e ?_, ?_⟩
      · exact Ledger.get?_insert_self ..
      · exact hrender final hgrows (t, e) (by simp)

/-- Calling a rule method between rules declares its rule. -/
theorem call_declares {name : String} (hx : (name, (method, [.rule none [t]])) ∈ s.grammar.rules)
    (ht : Plays s ⟨s.grammar.ownerOf name, []⟩ t) {depth : Nat} {frame : Frame} {v : Value}
    (h : play s (perform s depth) frame (.call name []) r = (.ok v, r')) (hr : r.Tidy)
    (hbuilding : r.building = none) (hnew : r.model.userRules.get? method = none) :
    r'.Tidy ∧ r.Grows r' ∧ r'.building = none ∧
      (∀ m, m ≠ method → r'.model.userRules.get? m = r.model.userRules.get? m) ∧
      ∀ final, r'.Grows final →
        ∃ key e, Declared s final method ⟨s.grammar.ownerOf name, []⟩ t key e := by
  rw [play] at h
  rcases target?_of_rule hx with htarget | ⟨type, htarget⟩
  · rw [htarget] at h
    obtain ⟨_, r₁, hlook, h⟩ := bind_eq_ok.mp h
    cases hlook
    rw [playAll, bind_of_ok (show (pure [] : Recording (List Value)) r = (.ok [], r) from rfl)] at h
    obtain ⟨_, r₁, hcall, h⟩ := bind_eq_ok.mp h
    cases h
    obtain ⟨hbody, hclosed⟩ := callRule_ok hcall hbuilding
    obtain ⟨_, r₂, hperform, h⟩ := bind_eq_ok.mp hbody
    cases h
    obtain ⟨htidy, hgrows, hothers, hdeclared⟩ := body_declares hperform ht
      (hr.of_same rfl rfl rfl) rfl hnew
    exact ⟨htidy, hgrows.from_same rfl rfl rfl, hclosed, hothers, hdeclared⟩
  · rw [htarget] at h
    obtain ⟨_, r₁, hlook, h⟩ := bind_eq_ok.mp h
    cases hlook
    rw [playAll, bind_of_ok (show (pure [] : Recording (List Value)) r = (.ok [], r) from rfl)] at h
    cases h

end Rules

/-- Every rule method that is left to record ends up declared: a rule that is declared stays so while
the others are recorded. -/
theorem recordRules_declares {s : Stage} (hs : Declarative s) :
    ∀ {todo : List (String × (Method × Script))} {r final : Recorder},
      (∀ x ∈ todo, x ∈ s.grammar.rules) → (todo.map (·.2.1)).Nodup →
      recordRules s (todo.map (·.1)) r = (.ok (), final) → r.Tidy → r.building = none →
      (∀ x ∈ todo, r.model.userRules.get? x.2.1 = none) →
      r.Grows final ∧ ∀ x ∈ todo, ∀ t, x.2.2 = [.rule none [t]] →
        ∃ key e, Declared s final x.2.1 ⟨s.grammar.ownerOf x.1, []⟩ t key e
  | [], r, final, _, _, h, _, _, _ => ⟨finish_grows h, by simp⟩
  | (name, (method, body)) :: rest, r, final, hsub, hnd, h, hr, hbuilding, hfresh => by
    rw [List.map_cons, List.nodup_cons] at hnd
    obtain ⟨_, r₁, hnote, hplay⟩ := bind_eq_ok.mp h
    cases hnote
    obtain ⟨v, r₂, hcall, hlater⟩ := bind_eq_ok.mp hplay
    have hx := hsub _ (List.mem_cons_self ..)
    obtain ⟨t, rfl, ht⟩ := hs.bodies name method body hx
    obtain ⟨htidy, hgrows, hclosed, hothers, hdeclared⟩ := call_declares hx (plays_of_builder ht)
      hcall (hr.of_same rfl rfl rfl) hbuilding (hfresh _ (List.mem_cons_self ..))
    have hfresh' : ∀ y ∈ rest, r₂.model.userRules.get? y.2.1 = none := by
      intro y hy
      have hne : y.2.1 ≠ method := by
        rintro rfl
        exact hnd.1 (List.mem_map.mpr ⟨y, hy, rfl⟩)
      exact (hothers _ hne).trans (hfresh y (List.mem_cons_of_mem _ hy))
    obtain ⟨hgrows', hrest⟩ := recordRules_declares hs
      (fun y hy => hsub y (List.mem_cons_of_mem _ hy)) hnd.2 hlater htidy hclosed hfresh'
    refine ⟨(hgrows.trans hgrows').from_same rfl rfl rfl, fun y hy t' ht' => ?_⟩
    rcases List.mem_cons.mp hy with rfl | hy
    · cases ht'
      exact hdeclared final hgrows'
    · exact hrest y hy t' ht'

/-- Recording a grammar of such terms declares every rule method. -/
theorem record_declares {s : Stage} (hs : Declarative s) {registry : Registry} {final : Recorder}
    (h : s.record { registry } = (.ok (), final)) {name : String} {method : Method} {t : Term}
    (hx : (name, (method, [.rule none [t]])) ∈ s.grammar.rules) :
    ∃ key e, Declared s final method ⟨s.grammar.ownerOf name, []⟩ t key e := by
  unfold record at h
  split at h
  · have hnd := GrammarClass.nodup_rule_methods (g := s.grammar)
      fun x hx => hs.ruleNames x.1 x.2.1 x.2.2 hx
    have htidy : ({ registry } : Recorder).Tidy := by
      constructor <;> intro _ _ h <;> cases h
    exact (recordRules_declares hs (fun _ => id) hnd h htidy rfl fun _ _ => rfl).2 _ hx t rfl
  · cases h

end Reading
end PegScribe
