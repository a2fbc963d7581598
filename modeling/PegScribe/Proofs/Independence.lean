import PegScribe.Proofs.Declarations

/-!
Independence: rule methods that declare their own rule, and no other, can be recorded in any order.

Each declaration is taken by itself first (`byItself`). Recording them after one another goes well exactly
when each goes well by itself and no two use the same key or factory method (`Settled`), and it leaves
what all of them leave, each shifted by the number of keys made before it (`Sums`). Neither depends on the
order but for the shifts.
-/
namespace PegScribe

/-! ### Builder terms -/

namespace Term

theorem mem_partsAll {t u : Term} : ∀ {ts : List Term}, t ∈ ts → u ∈ t.parts → u ∈ partsAll ts
  | _ :: _, h, hu => by
    rw [partsAll]
    rcases List.mem_cons.mp h with rfl | h
    · exact List.mem_append_left _ hu
    · exact List.mem_append_right _ (mem_partsAll h hu)

end Term

namespace Reading
open Stage
variable {s : Stage} {frame : Frame} {t : Term}

/-- What is plain without arguments is no argument. -/
theorem plain?_of_nil {v : Value} (h : plain? [] t = some v) (args : List Value) :
    plain? args t = some v := by
  cases t with
  | value w => exact h
  | argument index => simp [plain?] at h
  | _ => cases h

theorem plainAll?_of_nil (args : List Value) : ∀ {ts : List Term} {vs : List Value},
    plainAll? [] ts = some vs → plainAll? args ts = some vs
  | [], _, h => h
  | t :: rest, vs, h => by
    unfold plainAll? at h ⊢
    obtain ⟨v, hv, h⟩ := Option.bind_eq_some_iff.mp h
    obtain ⟨vs', hvs, h⟩ := Option.bind_eq_some_iff.mp h
    rw [plain?_of_nil hv args, plainAll?_of_nil args hvs]
    exact h

/-- A term that needs no arguments is as well with some. -/
theorem Builder.given (h : Builder s frame t) (args : List Value) :
    frame.args = [] → Builder s ⟨frame.owner, args⟩ t := by
  induction h with
  | token h => exact fun hnil => .token (plain?_of_nil (hnil ▸ h) args)
  | pattern h => exact fun hnil => .pattern (plain?_of_nil (hnil ▸ h) args)
  | wrap _ ih => exact fun hnil => .wrap (ih hnil)
  | firstOf _ ih => exact fun hnil => .firstOf fun t ht => ih t ht hnil
  | action hm _ ih => exact fun hnil => .action hm fun t ht => ih t ht hnil
  | rule ht hargs => exact fun hnil => .rule ht (plainAll?_of_nil args (hnil ▸ hargs))
  | helper ht hargs h => exact fun hnil => .helper ht (plainAll?_of_nil args (hnil ▸ hargs)) h
  | inherited ht hargs h => exact fun hnil => .inherited ht (plainAll?_of_nil args (hnil ▸ hargs)) h

/-- Every rule method declares its rule by one builder term, under a new key or a given one, and method
names have no dots in them. -/
structure SelfDeclaring (s : Stage) : Prop where
  bodies : ∀ x ∈ s.grammar.rules,
    ∃ key t, x.2.2 = [.rule key [t]] ∧ Builder s ⟨s.grammar.ownerOf x.1, []⟩ t
  ruleNames : ∀ x ∈ s.grammar.rules, '.' ∉ x.1.toList

end Reading

namespace Stage
open Reading Keeping
variable [PatternLibrary] {s : Stage} {inline : Inline} {frame : Frame} {t : Term}

theorem playAll_bind {ts : List Term} {vs : List Value} (h : plainAll? frame.args ts = some vs)
    {β : Type} (f : List Value → Recording β) : playAll s inline frame ts >>= f = f vs := by
  rw [show playAll s inline frame ts = pure vs from funext (playAll_plain h), pure_bind]

namespace Builds
variable {holds : ∀ {α : Type}, Recording α → Prop}

theorem plain (hp : Builds s holds) {v : Value} (h : plain? frame.args t = some v) :
    holds (Stage.play s inline frame t) := by
  rw [show Stage.play s inline frame t = Pure.pure v from funext (play_plain h)]
  exact hp.pure v

theorem each (hp : Builds s holds) : ∀ {ts : List Term},
    (∀ t ∈ ts, holds (Stage.play s inline frame t)) → holds (Stage.playAll s inline frame ts)
  | [], _ => by rw [Stage.playAll]; exact hp.pure _
  | t :: rest, h => by
    rw [Stage.playAll]
    exact hp.chain (h t (List.mem_cons_self ..)) fun _ =>
      hp.chain (hp.each fun u hu => h u (List.mem_cons_of_mem _ hu)) fun _ => hp.pure _

end Builds

/-- The property holds of the calls of rule methods, with bodies played to a depth. -/
def Refers (s : Stage) (holds : Recording Unit → Prop) (depth : Nat) : Prop :=
  ∀ {name owner : String} {method : Method} {body : Script} (args : List Value),
    s.target? name = some (.rule method owner body) →
    holds (Recorder.callRule method (do let _ ← perform s depth owner body args))

/-- What holds of the calls that push an expression holds of every builder term. -/
theorem Builds.builder {holds : ∀ {α : Type}, Recording α → Prop} (hp : Builds s holds)
    (h : Builder s frame t) : (∀ u ∈ t.parts, u ∈ s.terms) → ∀ depth,
    (∀ d ≤ depth, Refers s holds d) → holds (play s (perform s depth) frame t) := by
  -- a helper's term is played one deeper, so the depth varies in the induction
  have hhelper : ∀ {owner : String} {t : Term} {vs : List Value}, s.Holds [t] →
      ((∀ u ∈ t.parts, u ∈ s.terms) → ∀ depth, (∀ d ≤ depth, Refers s holds d) →
        holds (play s (perform s depth) ⟨owner, vs⟩ t)) →
      ∀ depth, (∀ d ≤ depth, Refers s holds d) → holds (perform s depth owner [t] vs) := by
    intro owner t vs hholds ih depth hrules
    cases depth with
    | zero => exact hp.throw _
    | succ depth =>
      refine hp.chain (hp.each fun u hu => ?_) fun _ => hp.pure _
      obtain rfl := List.mem_singleton.mp hu
      exact ih (fun v hv => hholds v (Term.mem_partsAll hu hv)) depth fun d hd =>
        hrules d (Nat.le_succ_of_le hd)
  induction h with
  | token harg =>
    intro _ depth _
    rw [play]
    exact hp.chain (hp.plain harg) fun v => hp.unit (hp.token v) _
  | pattern harg =>
    intro _ depth _
    rw [play]
    exact hp.chain (hp.plain harg) fun v => hp.unit (hp.pattern v) _
  | wrap _ ih =>
    intro hparts depth hrules
    rw [play]
    refine hp.chain (hp.each fun u hu => ?_) fun _ => hp.unit (hp.wrapOne _ _) _
    obtain rfl := List.mem_singleton.mp hu
    exact ih (fun v hv => hparts v (by simp [Term.parts, Term.mem_partsAll hu hv])) depth hrules
  | firstOf _ ih =>
    intro hparts depth hrules
    rw [play]
    refine hp.chain (hp.each fun u hu => ?_) fun _ => hp.unit (hp.firstOf _) _
    exact ih u hu (fun v hv => hparts v (by simp [Term.parts, Term.mem_partsAll hu hv])) depth hrules
  | action _ _ ih =>
    intro hparts depth hrules
    rw [play]
    split
    · exact hp.throw _
    · rename_i htarget
      refine hp.bind (hp.each fun u hu => ?_) fun vs hvs => hp.callAction _ htarget ?_
      · exact ih u hu (fun v hv => hparts v (by simp [Term.parts, Term.mem_partsAll hu hv])) depth hrules
      · exact ⟨_, (playAll_length hvs).symm, .inl (hparts _ (Term.self_mem_parts _))⟩
  | rule ht hargs =>
    intro _ depth hrules
    rw [play, ht]
    refine hp.chain (hp.pure ()) fun _ => ?_
    rw [playAll_bind hargs]
    exact hp.unit (hrules depth (Nat.le_refl _) _ ht) _
  | helper ht hargs _ ih =>
    intro _ depth hrules
    rw [play, ht]
    refine hp.chain (hp.pure ()) fun _ => ?_
    rw [playAll_bind hargs]
    exact hhelper (of_target? ht).1 ih depth hrules
  | inherited ht hargs _ ih =>
    intro _ depth hrules
    rw [play, ht]
    refine hp.chain (hp.pure ()) fun _ => ?_
    rw [playAll_bind hargs]
    exact hhelper (of_inheritedTarget? ht).1 ih depth hrules

end Stage

/-! ### Bodies that declare their own rule -/

namespace Recorder
open Keeping Stage Reading
variable {s : Stage} {r r' base : Recorder} {x y : String × (Method × Script)} {α β : Type}

/-- An open rule stays open, and no rule is opened in it. -/
def Steady (x : Recording α) : Prop :=
  ∀ ⦃r a r'⦄, r.building ≠ none → x r = (.ok a, r') →
    r'.building = r.building ∧ r'.model.userRules = r.model.userRules

theorem Still.steady {x : Recording α} (h : Still x) : Steady x := by
  intro r a r' _ hrun
  obtain ⟨hbuilding, -, husers⟩ := h hrun
  exact ⟨hbuilding, husers⟩

theorem steady_callRule (m : Method) (body : Recording Unit) : Steady (callRule m body) := by
  intro r a r' hb h
  obtain ⟨m', hb⟩ := Option.ne_none_iff_exists'.mp hb
  unfold callRule at h
  obtain ⟨entered, r₁, henter, h⟩ := bind_eq_ok.mp h
  unfold enter at henter
  rw [bind_of_ok (get_run r), if_pos (by rw [hb]; rfl)] at henter
  obtain ⟨_, r₂, hpush, henter⟩ := bind_eq_ok.mp henter
  cases henter
  cases h
  cases push_ok hpush
  exact ⟨rfl, rfl⟩

theorem parts_of_rule (hx : x ∈ s.grammar.rules) {key : Option RuleKey} {t : Term}
    (hbody : x.2.2 = [.rule key [t]]) : ∀ u ∈ t.parts, u ∈ s.terms := by
  intro u hu
  refine holds_rule hx u ?_
  rw [hbody]
  simp [Term.partsAll, Term.parts, hu]

theorem hasRule_iff {k : RuleKey} :
    r.registry.hasRule k = true ↔ ∃ e, r.registry.grammar.rules.get? k = some e :=
  Option.isSome_iff_exists

theorem finish_run (hstack : r.stack = []) (hb : r.building = none) :
    ∃ log, finish r = (.ok (), { r with isFinished := true, log }) := by
  obtain ⟨registry, model, stack, building, pendingKey, isFinished, minted, log⟩ := r
  cases hstack
  cases hb
  exact ⟨_, rfl⟩

/-! ### Conflicts -/

/-- Both have a rule for one factory method, or under one key that a body gave. -/
def Conflict (r r' : Recorder) : Prop :=
  (∃ m, (r.model.actionRules.get? m).isSome = true ∧ (r'.model.actionRules.get? m).isSome = true) ∨
  ∃ k : RuleKey, (∀ i, k.id ≠ .minted i) ∧ r.registry.hasRule k = true ∧ r'.registry.hasRule k = true

theorem Conflict.symm (h : Conflict r r') : Conflict r' r :=
  h.imp (fun ⟨m, hm, hm'⟩ => ⟨m, hm', hm⟩) fun ⟨k, hown, hk, hk'⟩ => ⟨k, hown, hk', hk⟩

theorem Over.not_clash {own : Recorder} (h : Over base own r') (hp : own.pendingKey = none) :
    ¬ Clash base own := by
  rintro (⟨m, hm, hm'⟩ | ⟨k, hk, hk'⟩)
  · obtain ⟨key, hkey⟩ := Option.isSome_iff_exists.mp hm'
    rw [h.fewer m key hkey] at hm
    cases hm
  · obtain ⟨e, he⟩ := hasRule_iff.mp (hk'.resolve_right (by rw [hp]; nofun))
    obtain ⟨e', he'⟩ := hasRule_iff.mp hk
    rw [h.rules.apart k e he] at he'
    cases he'

/-! ### Places of declarations -/

/-- One of the rules has the part, at the place that its name is given. -/
def Gathers (done : List (String × (Method × Script))) (place : String → Nat)
    (part : String × (Method × Script) → Nat → Prop) : Prop :=
  ∃ y ∈ done, part y (place y.1)

/-- The places, with a name given another one. -/
def placed (place : String → Nat) (name : String) (n : Nat) : String → Nat :=
  fun name' => if name' = name then n else place name'

theorem placed_self (place : String → Nat) (name : String) (n : Nat) : placed place name n name = n :=
  if_pos rfl

theorem placed_done {done : List (String × (Method × Script))} {name : String}
    (hnew : name ∉ done.map (·.1)) (place : String → Nat) (n : Nat) (hy : y ∈ done) :
    placed place name n y.1 = place y.1 :=
  if_neg fun heq => hnew (List.mem_map.mpr ⟨y, hy, heq⟩)

theorem gathers_cons {done : List (String × (Method × Script))} (hnew : x.1 ∉ done.map (·.1))
    (place : String → Nat) (n : Nat) (part : String × (Method × Script) → Nat → Prop) :
    Gathers (x :: done) (placed place x.1 n) part ↔ Gathers done place part ∨ part x n := by
  constructor
  · rintro ⟨y, hy, hpart⟩
    rcases List.mem_cons.mp hy with rfl | hy
    · exact .inr (by rwa [placed_self] at hpart)
    · exact .inl ⟨y, hy, by rwa [placed_done hnew place n hy] at hpart⟩
  · rintro (⟨y, hy, hpart⟩ | hpart)
    · exact ⟨y, List.mem_cons_of_mem _ hy, by rwa [placed_done hnew place n hy]⟩
    · exact ⟨x, List.mem_cons_self .., by rwa [placed_self]⟩

theorem gathers_perm {done done' : List (String × (Method × Script))} (hperm : done.Perm done')
    (place : String → Nat) (part : String × (Method × Script) → Nat → Prop) :
    Gathers done' place part ↔ Gathers done place part := by
  unfold Gathers
  simp only [hperm.mem_iff]

/-! ### Playing bodies that declare their own rule -/

variable [PatternLibrary]

theorem builds_steady : Builds s Steady where
  pure := fun a => (still_pure a).steady
  throw := fun f => (still_throw f).steady
  bind := by
    intro α β x f hx hf r b r' hb h
    obtain ⟨a, r₁, hrun, h⟩ := bind_eq_ok.mp h
    obtain ⟨hbuilding, husers⟩ := hx hb hrun
    obtain ⟨hbuilding', husers'⟩ := hf a ⟨r, r₁, hrun⟩ (hbuilding ▸ hb) h
    exact ⟨hbuilding'.trans hbuilding, husers'.trans husers⟩
  token := fun v => (still_token v).steady
  pattern := fun v => (still_pattern v).steady
  wrapOne := fun how count => (still_wrapOne how count).steady
  firstOf := fun n => (still_firstOf n).steady
  callAction := fun hasNames _ _ => (still_callAction _ hasNames _).steady

/-- A body of one builder term declares one rule and leaves nothing on the stack. -/
theorem perform_declares {key : Option RuleKey} {t : Term} {owner : String} {depth : Nat}
    {args : List Value} {v : Value} (ht : Builder s ⟨owner, args⟩ t) (hparts : ∀ u ∈ t.parts, u ∈ s.terms)
    (h : perform s depth owner [.rule key [t]] args r = (.ok v, r')) :
    r'.building = none ∧ r'.stack = [] ∧
      ∀ m, r.building ≠ some m → r'.model.userRules.get? m = r.model.userRules.get? m := by
  cases depth with
  | zero => cases h
  | succ depth =>
    obtain ⟨vs, r₁, hall, h⟩ := bind_eq_ok.mp h
    cases h
    rw [playAll] at hall
    obtain ⟨v, r₂, hplay, hall⟩ := bind_eq_ok.mp hall
    rw [playAll] at hall
    cases hall
    rw [play] at hplay
    obtain ⟨_, r₃, hopen, hplay⟩ := bind_eq_ok.mp hplay
    obtain ⟨vs, r₄, hterm, hplay⟩ := bind_eq_ok.mp hplay
    obtain ⟨_, r₅, hclose, hplay⟩ := bind_eq_ok.mp hplay
    cases hplay
    obtain ⟨m, hb, hb', hothers⟩ := nonterminal_opens hopen
    obtain ⟨hclosed, hstack, husers⟩ := closeRule_closes hclose
    have hsteady : Steady (playAll s (perform s depth) ⟨owner, args⟩ [t]) := by
      refine builds_steady.each fun u hu => ?_
      obtain rfl := List.mem_singleton.mp hu
      exact builds_steady.builder ht hparts depth fun _ _ _ _ _ _ _ _ => steady_callRule _ _
    refine ⟨hclosed, hstack, fun m' hne => ?_⟩
    rw [husers, (hsteady (by rw [hb']; nofun) hterm).2]
    exact hothers m' fun heq => hne (heq ▸ hb)

/-- The body of a rule method fares over a base as it does by itself. -/
theorem tracks_body (hs : SelfDeclaring s) (hbase : base.Rested s) (hx : x ∈ s.grammar.rules) :
    ∀ depth args, Tracks s base (perform s depth (s.grammar.ownerOf x.1) x.2.2 args) := by
  intro depth
  induction depth using Nat.strongRecOn generalizing x with
  | ind depth ih =>
    intro args
    cases depth with
    | zero => exact tracks_throw _
    | succ depth =>
      obtain ⟨key, t, hbody, ht⟩ := hs.bodies x hx
      have hrefers : ∀ d ≤ depth, Refers s (Tracks s base) d := by
        intro d hd name owner method body args htarget
        obtain ⟨hrule, rfl⟩ := mem_of_target? htarget
        refine tracks_callRule (List.mem_map.mpr ⟨_, hrule, rfl⟩) ?_
        exact (ih d (Nat.lt_succ_of_le hd) hrule args).bind fun _ => tracks_pure _
      have hkey : ∀ k, key = some k → k ∈ s.keys := by
        refine key_mem (t := .rule key [t]) (holds_rule hx _ ?_)
        rw [hbody]
        simp [Term.partsAll, Term.parts]
      have hterm := builds_tracks.builder (ht.given args rfl) (parts_of_rule hx hbody) depth hrefers
      rw [hbody]
      refine Tracks.bind (builds_tracks.each fun u hu => ?_) fun _ => tracks_pure _
      obtain rfl := List.mem_singleton.mp hu
      rw [play]
      refine (tracks_nonterminal hbase.sane hbase.pending hkey).bind fun _ => Tracks.bind ?_ fun _ =>
        (tracks_closeRule _ _).bind fun _ => tracks_pure _
      exact builds_tracks.each fun u hu => List.mem_singleton.mp hu ▸ hterm

/-! ### Declarations by themselves -/

/-- What the declaration of a rule leaves by itself. -/
def byItself (s : Stage) (x : String × (Method × Script)) : Recorder := (declarationOf s x {}).2

/-- The rule is found by its name, and its declaration goes well by itself. -/
structure Goes (s : Stage) (x : String × (Method × Script)) : Prop where
  found : s.target? x.1 = some (.rule x.2.1 (s.grammar.ownerOf x.1) x.2.2)
  well : (declarationOf s x {}).1 = .ok ()

theorem Goes.run (h : Goes s x) : declarationOf s x {} = (.ok (), byItself s x) := Prod.ext h.well rfl

theorem does_body (hs : SelfDeclaring s) (hkeys : s.GivesOwnKeys) (hx : x ∈ s.grammar.rules) :
    Does s false (perform s s.limit (s.grammar.ownerOf x.1) x.2.2 []) :=
  (tracks_body hs (rested_start hkeys) hx s.limit []).does

/-- The recorder holds the declaration of one rule. -/
structure Solo (s : Stage) (x : String × (Method × Script)) (own : Recorder) : Prop where
  rested : own.Rested s
  stack : own.stack = []
  users : ∀ m key, own.model.userRules.get? m = some key → m = x.2.1
  declared : ∃ key, own.model.userRules.get? x.2.1 = some key

theorem Goes.solo (h : Goes s x) (hs : SelfDeclaring s) (hkeys : s.GivesOwnKeys)
    (hx : x ∈ s.grammar.rules) : Solo s x (byItself s x) := by
  have hm : x.2.1 ∈ s.grammar.methods := List.mem_map.mpr ⟨x, hx, rfl⟩
  have hstart : Rested s {} := rested_start hkeys
  have hbody := does_body hs hkeys hx
  obtain ⟨key, t, hscript, ht⟩ := hs.bodies x hx
  obtain ⟨hrun, -⟩ := callRule_ok h.run rfl
  obtain ⟨v, r₁, hperform, hend⟩ := bind_eq_ok.mp hrun
  cases hend
  rw [hscript] at hperform
  obtain ⟨-, hstack, hothers⟩ := perform_declares ht (parts_of_rule hx hscript) hperform
  refine ⟨hstart.after hm hbody h.run, hstack, fun m key hkey => ?_, hstart.declared hm hbody h.run⟩
  by_cases hm : x.2.1 = m
  · exact hm.symm
  · rw [hothers m fun heq => hm (Option.some.inj heq)] at hkey
    cases hkey

/-- Each rule goes by itself, and no two are in conflict. -/
structure Settled (s : Stage) (rules : List (String × (Method × Script))) : Prop where
  goes : ∀ x ∈ rules, Goes s x
  apart : rules.Pairwise fun x y => ¬ Conflict (byItself s x) (byItself s y)

theorem Settled.perm {rules rules' : List (String × (Method × Script))} (h : Settled s rules)
    (hperm : rules.Perm rules') : Settled s rules' where
  goes := fun x hx => h.goes x (hperm.mem_iff.mpr hx)
  apart := h.apart.perm hperm fun hxy hyx => hxy hyx.symm

/-! ### Declarations after one another -/

/-- The recorder holds what the declarations of the rules leave by themselves, each shifted to its place,
and nothing else; and no two of them meet. -/
structure Sums (s : Stage) (done : List (String × (Method × Script))) (place : String → Nat)
    (r : Recorder) : Prop where
  rested : r.Rested s
  stack : r.stack = []
  rules : ∀ k e, r.registry.grammar.rules.get? k = some e ↔ Gathers done place fun y n =>
    ∃ k₀ e₀, (byItself s y).registry.grammar.rules.get? k₀ = some e₀ ∧ k = k₀.shift n ∧ e = e₀.shift n
  kinds : ∀ k kind, r.model.kinds.get? k = some kind ↔ Gathers done place fun y n =>
    ∃ k₀, (byItself s y).model.kinds.get? k₀ = some kind ∧ k = k₀.shift n
  users : ∀ m k, r.model.userRules.get? m = some k ↔ Gathers done place fun y n =>
    ∃ k₀, (byItself s y).model.userRules.get? m = some k₀ ∧ k = k₀.shift n
  actions : ∀ m k, r.model.actionRules.get? m = some k ↔ Gathers done place fun y n =>
    ∃ k₀, (byItself s y).model.actionRules.get? m = some k₀ ∧ k = k₀.shift n
  apart : ∀ x ∈ done, ∀ y ∈ done, ∀ k k', (byItself s x).registry.hasRule k = true →
    (byItself s y).registry.hasRule k' = true → k.shift (place x.1) = k'.shift (place y.1) → x = y ∧ k = k'

section Sums
variable {done : List (String × (Method × Script))} {place : String → Nat}

theorem sums_start (hkeys : s.GivesOwnKeys) (place : String → Nat) : Sums s [] place {} where
  rested := rested_start hkeys
  stack := rfl
  rules := fun _ _ => ⟨nofun, fun ⟨_, hy, _⟩ => nomatch hy⟩
  kinds := fun _ _ => ⟨nofun, fun ⟨_, hy, _⟩ => nomatch hy⟩
  users := fun _ _ => ⟨nofun, fun ⟨_, hy, _⟩ => nomatch hy⟩
  actions := fun _ _ => ⟨nofun, fun ⟨_, hy, _⟩ => nomatch hy⟩
  apart := nofun

/-- A declaration clashes with what was declared before where it is in conflict with one of them. -/
theorem Sums.clash_iff (h : Sums s done place base) (hsolo : Solo s x (byItself s x)) :
    Clash base (byItself s x) ↔ ∃ y ∈ done, Conflict (byItself s y) (byItself s x) := by
  constructor
  · rintro (⟨m, hm, hm'⟩ | ⟨k, hk, hk'⟩)
    · obtain ⟨key, hkey⟩ := Option.isSome_iff_exists.mp hm
      obtain ⟨y, hy, k₀, hk₀, -⟩ := (h.actions m key).mp hkey
      exact ⟨y, hy, .inl ⟨m, by rw [hk₀]; rfl, hm'⟩⟩
    · -- the key is one that a body gave, so it is not shifted
      obtain ⟨e, he⟩ := hasRule_iff.mp hk
      have hown := RuleKey.own_of_shift_made (h.rested.sane.shaped.made _ e he)
      rw [RuleKey.shift_own hown] at he
      obtain ⟨y, hy, k₀, e₀, hk₀, heq, -⟩ := (h.rules k e).mp he
      have hsame : k = k₀ := heq.trans (RuleKey.shift_of_own (heq ▸ hown))
      refine ⟨y, hy, .inr ⟨k, hown, hasRule_iff.mpr ⟨e₀, hsame ▸ hk₀⟩, hk'.resolve_right ?_⟩⟩
      rw [hsolo.rested.pending]
      nofun
  · rintro ⟨y, hy, ⟨m, hm, hm'⟩ | ⟨k, hown, hk, hk'⟩⟩
    · obtain ⟨key, hkey⟩ := Option.isSome_iff_exists.mp hm
      refine .inl ⟨m, ?_, hm'⟩
      rw [(h.actions m _).mpr ⟨y, hy, key, hkey, rfl⟩]
      rfl
    · obtain ⟨e, he⟩ := hasRule_iff.mp hk
      refine .inr ⟨k, hasRule_iff.mpr ⟨_, (h.rules _ _).mpr ⟨y, hy, k, e, he, ?_, rfl⟩⟩, .inl hk'⟩
      rw [RuleKey.shift_own hown, RuleKey.shift_own hown]

/-- A declaration adds its own to the sum. -/
theorem Sums.declare (h : Sums s done place base) (hs : SelfDeclaring s) (hx : x ∈ s.grammar.rules)
    (hdone : ∀ y ∈ done, y ∈ s.grammar.rules) (hsolos : ∀ y ∈ done, Solo s y (byItself s y))
    (hnew : x.1 ∉ done.map (·.1)) (hsolo : Solo s x (byItself s x)) (hover : Over base (byItself s x) r')
    (hrested : r'.Rested s) : Sums s (x :: done) (placed place x.1 base.minted) r' where
  rested := hrested
  stack := by rw [hover.stack, h.stack, hsolo.stack]; rfl
  rules := by
    intro k e
    rw [gathers_cons hnew, ← h.rules k e]
    exact hover.rules.get?_iff
  kinds := by
    intro k kind
    rw [gathers_cons hnew, ← h.kinds k kind]
    refine hover.kinds.get?_iff.trans (or_congr_right ⟨?_, ?_⟩)
    · rintro ⟨k₀, kind₀, hk₀, hk, rfl⟩
      exact ⟨k₀, hk₀, hk⟩
    · rintro ⟨k₀, hk₀, hk⟩
      exact ⟨k₀, kind, hk₀, hk, rfl⟩
  users := by
    intro m k
    rw [gathers_cons hnew, ← h.users m k]
    refine hover.users.get?_iff fun m k hm => ?_
    -- no other rule has the same method
    cases hbase : base.model.userRules.get? m with
    | none => rfl
    | some k' =>
      obtain ⟨y, hy, k₀, hk₀, -⟩ := (h.users m k').mp hbase
      have hsame : x.2.1 = y.2.1 := (hsolo.users m k hm).symm.trans ((hsolos y hy).users m k₀ hk₀)
      have hnd := GrammarClass.nodup_rule_methods hs.ruleNames
      have hfind := find?_of_nodup (·.2.1) hnd hx
      rw [hsame, find?_of_nodup (·.2.1) hnd (hdone y hy)] at hfind
      exact absurd (List.mem_map.mpr ⟨y, hy, congrArg Prod.fst (Option.some.inj hfind)⟩) hnew
  actions := by
    intro m k
    rw [gathers_cons hnew, ← h.actions m k]
    exact hover.actions.get?_iff hover.fewer
  apart := by
    have hmeet : ∀ y ∈ done, ∀ k k', (byItself s x).registry.hasRule k = true →
        (byItself s y).registry.hasRule k' = true → k.shift base.minted ≠ k'.shift (place y.1) := by
      intro y hy k k' hk hk' heq
      obtain ⟨e, he⟩ := hasRule_iff.mp hk
      obtain ⟨e', he'⟩ := hasRule_iff.mp hk'
      have hbase := (h.rules _ _).mpr ⟨y, hy, k', e', he', rfl, rfl⟩
      rw [← heq, hover.rules.apart k e he] at hbase
      cases hbase
    intro y hy z hz k k' hk hk' heq
    rcases List.mem_cons.mp hy with rfl | hydone <;> rcases List.mem_cons.mp hz with rfl | hzdone
    · exact ⟨rfl, RuleKey.shift_injective _ heq⟩
    · rw [placed_self, placed_done hnew place _ hzdone] at heq
      exact absurd heq (hmeet z hzdone k k' hk hk')
    · rw [placed_self, placed_done hnew place _ hydone] at heq
      exact absurd heq.symm (hmeet y hydone k' k hk' hk)
    · rw [placed_done hnew place _ hydone, placed_done hnew place _ hzdone] at heq
      exact h.apart y hydone z hzdone k k' hk hk' heq

/-- The next declaration goes well exactly when it goes well by itself and is in conflict with none of
those before. -/
theorem Sums.step (h : Sums s done place base) (hsettled : Settled s done) (hs : SelfDeclaring s)
    (hkeys : s.GivesOwnKeys) (hx : x ∈ s.grammar.rules) (hdone : ∀ y ∈ done, y ∈ s.grammar.rules)
    (hnew : x.1 ∉ done.map (·.1))
    (hfound : s.target? x.1 = some (.rule x.2.1 (s.grammar.ownerOf x.1) x.2.2)) :
    (∃ r', declarationOf s x base = (.ok (), r') ∧ Settled s (x :: done) ∧
      Sums s (x :: done) (placed place x.1 base.minted) r') ∨
    ((∃ f r', declarationOf s x base = (.error f, r')) ∧ ¬ Settled s (x :: done)) := by
  have hm : x.2.1 ∈ s.grammar.methods := List.mem_map.mpr ⟨x, hx, rfl⟩
  have hfares : Fares base (declarationOf s x {}) (declarationOf s x base) :=
    fares_declaration h.rested hm (tracks_body hs h.rested hx s.limit [])
  rcases hown : declarationOf s x {} with ⟨f | _, own⟩ <;>
    rcases hrun : declarationOf s x base with ⟨f' | _, r'⟩ <;> rw [hown, hrun] at hfares
  · refine .inr ⟨⟨f', r', rfl⟩, fun hall => ?_⟩
    have hwell := (hall.goes x (List.mem_cons_self ..)).well
    rw [hown] at hwell
    cases hwell
  · cases hfares with
    | fed hleft => exact absurd h.stack hleft
  all_goals
    have hgoes : Goes s x := ⟨hfound, by rw [hown]⟩
    have hsolo : Solo s x (byItself s x) := hgoes.solo hs hkeys hx
    have halone : byItself s x = own := congrArg Prod.snd hown
    rw [← halone] at hfares
  · refine .inr ⟨⟨f', r', rfl⟩, fun hall => ?_⟩
    cases hfares with
    | blocked hblocked =>
      have hclash := hblocked.resolve_left fun hleft => hleft h.stack
      obtain ⟨y, hy, hconflict⟩ := (h.clash_iff hsolo).mp hclash
      exact (List.pairwise_cons.mp hall.apart).1 y hy hconflict.symm
  · cases hfares with
    | well hover =>
      have hnone : ∀ y ∈ done, ¬ Conflict (byItself s x) (byItself s y) := fun y hy hconflict =>
        hover.not_clash hsolo.rested.pending ((h.clash_iff hsolo).mpr ⟨y, hy, hconflict.symm⟩)
      refine .inl ⟨r', rfl, ⟨?_, List.pairwise_cons.mpr ⟨hnone, hsettled.apart⟩⟩, ?_⟩
      · intro y hy
        rcases List.mem_cons.mp hy with rfl | hy
        · exact hgoes
        · exact hsettled.goes y hy
      · refine h.declare hs hx hdone (fun y hy => ?_) hnew hsolo hover ?_
        · exact (hsettled.goes y hy).solo hs hkeys (hdone y hy)
        · exact h.rested.after hm (does_body hs hkeys hx) hrun

theorem Sums.perm {done' : List (String × (Method × Script))} (h : Sums s done place r)
    (hperm : done.Perm done') : Sums s done' place r where
  rested := h.rested
  stack := h.stack
  rules := fun k e => (h.rules k e).trans (gathers_perm hperm place _).symm
  kinds := fun k kind => (h.kinds k kind).trans (gathers_perm hperm place _).symm
  users := fun m k => (h.users m k).trans (gathers_perm hperm place _).symm
  actions := fun m k => (h.actions m k).trans (gathers_perm hperm place _).symm
  apart := fun x hx y hy => h.apart x (hperm.mem_iff.mpr hx) y (hperm.mem_iff.mpr hy)

end Sums

/-- Recording rules after one another goes well exactly when they are settled, and then it leaves their
sum. -/
theorem recordRules_settles (hs : SelfDeclaring s) (hkeys : s.GivesOwnKeys) :
    ∀ {todo done : List (String × (Method × Script))} {place : String → Nat} {base : Recorder},
    (∀ y ∈ todo ++ done, y ∈ s.grammar.rules) → ((todo ++ done).map (·.1)).Nodup → Settled s done →
    Sums s done place base →
    (∃ last place' log,
      recordRules s (todo.map (·.1)) base = (.ok (), { last with isFinished := true, log }) ∧
      Settled s (todo.reverse ++ done) ∧ Sums s (todo.reverse ++ done) place' last) ∨
    ((∃ f r', recordRules s (todo.map (·.1)) base = (.error f, r')) ∧ ¬ Settled s (todo.reverse ++ done))
  | [], done, place, base, _, _, hsettled, h => by
    obtain ⟨log, hfinish⟩ := finish_run h.stack h.rested.closed
    exact .inl ⟨base, place, log, hfinish, hsettled, h⟩
  | x :: rest, done, place, base, hsub, hnd, hsettled, h => by
    have hx := hsub x (List.mem_cons_self ..)
    rw [List.cons_append, List.map_cons, List.nodup_cons] at hnd
    have hnew : x.1 ∉ done.map (·.1) := fun hmem =>
      hnd.1 (by rw [List.map_append]; exact List.mem_append_right _ hmem)
    have hreverse : (x :: rest).reverse ++ done = rest.reverse ++ (x :: done) := by simp
    have hmem : x ∈ (x :: rest).reverse ++ done := by simp
    -- a line of the log comes first
    let line : LogLine := ⟨.recorder, "recording rule " ++ s.grammar.name ++ "." ++ x.1⟩
    have hnoted : Sums s done place { base with log := base.log ++ [line] } :=
      { h with rested := ⟨h.rested.sane.moves (.single (.noted _)), h.rested.closed⟩ }
    have hrun : recordRules s ((x :: rest).map (·.1)) base =
        (play s (perform s s.limit) ⟨s.grammar.id, []⟩ (.call x.1 []) >>= fun _ =>
          recordRules s (rest.map (·.1))) { base with log := base.log ++ [line] } :=
      bind_of_ok rfl
    rw [hrun]
    rcases target?_of_rule hx with hfound | ⟨type, hfound⟩
    · rw [play_rule hfound, bind_assoc]
      rcases hnoted.step hsettled hs hkeys hx (fun y hy => hsub y (List.mem_append_right _ hy)) hnew
        hfound with ⟨r', hdeclared, hsettled', hsums⟩ | ⟨⟨f, r', hdeclared⟩, hnot⟩
      · rw [bind_of_ok hdeclared, pure_bind, hreverse]
        have hmiddle : (rest ++ x :: done).Perm ((x :: rest) ++ done) := List.perm_middle
        refine recordRules_settles hs hkeys (fun y hy => hsub y (hmiddle.mem_iff.mp hy)) ?_ hsettled' hsums
        rw [(hmiddle.map _).nodup_iff, List.cons_append, List.map_cons]
        exact List.nodup_cons.mpr hnd
      · rw [bind_of_error hdeclared, hreverse]
        refine .inr ⟨⟨f, r', rfl⟩, fun hall => hnot ⟨fun y hy => ?_, ?_⟩⟩
        · exact hall.goes y (List.mem_append_right _ hy)
        · exact (List.pairwise_append.mp hall.apart).2.1
    · rw [play_inert hfound]
      refine .inr ⟨⟨_, _, rfl⟩, fun hall => ?_⟩
      have hother := (hall.goes x hmem).found
      rw [hfound] at hother
      cases hother

/-- In whatever order the rules of a grammar are recorded, it goes well exactly when they are settled, and
then it leaves their sum. -/
theorem recordRules_perm (hs : SelfDeclaring s) (hkeys : s.GivesOwnKeys)
    {rules : List (String × (Method × Script))} (hperm : rules.Perm s.grammar.rules) :
    (∃ last place log,
      recordRules s (rules.map (·.1)) {} = (.ok (), { last with isFinished := true, log }) ∧
      Settled s s.grammar.rules ∧ Sums s s.grammar.rules place last) ∨
    ((∃ f r', recordRules s (rules.map (·.1)) {} = (.error f, r')) ∧ ¬ Settled s s.grammar.rules) := by
  have hreverse : (rules.reverse ++ []).Perm s.grammar.rules := by
    rw [List.append_nil]
    exact rules.reverse_perm.trans hperm
  have hnd : ((rules ++ []).map Prod.fst).Nodup := by
    rw [List.append_nil]
    exact (hperm.map Prod.fst).nodup_iff.mpr s.grammar.nodup_rules
  have hsub : ∀ y ∈ rules ++ [], y ∈ s.grammar.rules := by
    intro y hy
    rw [List.append_nil] at hy
    exact hperm.mem_iff.mp hy
  rcases recordRules_settles hs hkeys hsub hnd ⟨nofun, .nil⟩ (sums_start hkeys fun _ => 0) with
    ⟨last, place, log, hrun, hsettled, hsums⟩ | ⟨hbroken, hnot⟩
  · exact .inl ⟨last, place, log, hrun, hsettled.perm hreverse, hsums.perm hreverse⟩
  · exact .inr ⟨hbroken, fun hall => hnot (hall.perm hreverse.symm)⟩

end Recorder
end PegScribe
