import Mathlib.Logic.Relation
import PegScribe.Proofs.Playing
import PegScribe.Proofs.Rendering

/-!
Moves: the few things that a recorder can do, whatever the bodies of a grammar make it do.

`Move` says once what a recorder can do in one go, also when a fault breaks a call off half-way. As long
as no body pushes an expression by hand, playing a body is a row of moves (`does_perform`), and so is
recording a grammar (`record_moves`). What every move preserves then holds of whatever was recorded.
-/
namespace PegScribe

/-- Methods and keys always stand for something. -/
theorem filled_rules : Bijection.Filled Method RuleKey := ⟨fun _ => rfl, fun _ => rfl⟩

namespace Recorder
open Keeping Stage

/-- Recording goes on, and rules may be added. -/
structure Live (r : Recorder) : Prop where
  unfinished : r.isFinished = false
  unsealed : r.registry.isSealed = false

/-- The key of a rule that is opened, given by the bodies or new, and the number of keys then. -/
def Opens (s : Stage) (r : Recorder) (key : RuleKey) (minted : Nat) : Prop :=
  (key ∈ s.keys ∧ minted = r.minted) ∨ (key.id = .minted r.minted ∧ minted = r.minted + 1)

/-- The key of a factory method, on record or new, and the record and the number of keys then. -/
def Names (r : Recorder) (m : Method) (key : RuleKey) (actions : Bijection Method RuleKey)
    (minted : Nat) : Prop :=
  (r.model.actionRules.get? m = some key ∧ actions = r.model.actionRules ∧ minted = r.minted) ∨
  (r.model.actionRules.get? m = none ∧ key.id = .minted r.minted ∧
    r.model.actionRules.put m key = .ok actions ∧ minted = r.minted + 1)

/-! ### Calls, and what they leave when they fail -/

section Calls
variable {s : Stage} {r r' : Recorder}

theorem get_run (r : Recorder) : (get : Recording Recorder) r = (.ok r, r) := rfl

theorem push_run (hr : r.Live) (e : Expr) :
    push e r = (.ok (), { r with stack := r.stack ++ [e] }) := by
  refine (bind_of_ok (get_run r)).trans ?_
  rw [if_neg (by rw [hr.unfinished]; exact Bool.false_ne_true)]
  rfl

theorem pop_cases (r : Recorder) :
    (∃ base e, r.stack = base ++ [e] ∧ pop r = (.ok e, { r with stack := base })) ∨
      ∃ f, pop r = (.error f, r) := by
  rcases h : pop r with ⟨f | e, r'⟩
  · refine .inr ⟨f, ?_⟩
    unfold pop at h
    rw [bind_of_ok (get_run r)] at h
    cases hlast : r.stack.getLast? with
    | none => rw [hlast] at h; cases h; rfl
    | some e => rw [hlast] at h; cases h
  · obtain ⟨base, hstack, rfl⟩ := pop_ok h
    exact .inl ⟨base, e, hstack, rfl⟩

theorem popMany_cases (n : Nat) (r : Recorder) :
    (∃ base es, r.stack = base ++ es ∧ es.length = n ∧
      popMany n r = (.ok es, { r with stack := base })) ∨ ∃ f, popMany n r = (.error f, r) := by
  rcases h : popMany n r with ⟨f | es, r'⟩
  · refine .inr ⟨f, ?_⟩
    unfold popMany at h
    rw [bind_of_ok (get_run r)] at h
    dsimp only at h
    split at h
    · cases h; rfl
    · split at h <;> cases h
  · obtain ⟨base, hstack, hlen, rfl⟩ := popMany_ok h
    exact .inl ⟨base, es, hstack, hlen, rfl⟩

theorem register_cases (hr : r.Live) (key : RuleKey) (e : Expr) :
    (r.registry.grammar.rules.get? key = none ∧ register key e r = (.ok (),
      { r with registry.grammar.rules := r.registry.grammar.rules.insert key e })) ∨
    ∃ old f, r.registry.grammar.rules.get? key = some old ∧ register key e r = (.error f, r) := by
  have hdefine : r.registry.define key e = r.registry.close key e := by
    unfold Registry.define Registry.openRule
    rw [hr.unsealed]
    rfl
  unfold Registry.close Ledger.contains at hdefine
  unfold register
  rw [bind_of_ok (get_run r), hdefine]
  cases hold : r.registry.grammar.rules.get? key with
  | none => exact .inl ⟨rfl, rfl⟩
  | some old => exact .inr ⟨old, _, rfl, rfl⟩

/-- A rule of a kind is added under a new key, or the kind is put down and the rule is refused. -/
theorem addRule_cases (hr : r.Live) (kind : RuleKind) (operand body : Expr) : ∃ key : RuleKey,
    key.id = .minted r.minted ∧
      ((r.registry.grammar.rules.get? key = none ∧
        addRule kind operand body r = (.ok (), r.withKind key kind body (r.stack ++ [.call key]))) ∨
      ∃ old f, r.registry.grammar.rules.get? key = some old ∧
        addRule kind operand body r = (.error f,
          { r with model.kinds := r.model.kinds.insert key kind, minted := r.minted + 1 })) := by
  obtain ⟨key, hid, hmint⟩ := mint_ok (operand.format.map fun s => kind.name ++ "(" ++ s ++ ")") r
  refine ⟨key, hid, ?_⟩
  let r₁ : Recorder :=
    { r with model.kinds := r.model.kinds.insert key kind, minted := r.minted + 1 }
  have hr₁ : r₁.Live := ⟨hr.unfinished, hr.unsealed⟩
  have hrun : addRule kind operand body r = (register key body >>= fun _ => push (.call key)) r₁ :=
    bind_of_ok hmint
  rw [hrun]
  rcases register_cases hr₁ key body with ⟨hnew, hregister⟩ | ⟨old, f, hold, hregister⟩
  · refine .inl ⟨hnew, ?_⟩
    have hlive : Live
        { r₁ with registry.grammar.rules := r₁.registry.grammar.rules.insert key body } :=
      ⟨hr.unfinished, hr.unsealed⟩
    rw [bind_of_ok hregister]
    exact push_run hlive _
  · rw [bind_of_error hregister]
    exact .inr ⟨old, f, hold, rfl⟩

/-- The key of the open rule is put down beside its method, or it belongs to another. -/
theorem bindKey_cases (m : Method) (k : RuleKey) (r : Recorder) :
    let bindKey : Recording Unit := do
      match (← get).model.userRules.put m k with
      | .error _ => refuse (.keyTaken k)
      | .ok userRules =>
        modify fun r => { r with model.userRules := userRules, pendingKey := some k }
    (∃ users, r.model.userRules.put m k = .ok users ∧
      bindKey r = (.ok (), { r with model.userRules := users, pendingKey := some k })) ∨
    ∃ f, bindKey r = (.error f, r) := by
  intro bindKey
  have hrun := bind_of_ok (f := fun r₁ : Recorder => (match r₁.model.userRules.put m k with
      | .error _ => refuse (.keyTaken k)
      | .ok userRules =>
        modify fun r => { r with model.userRules := userRules, pendingKey := some k } :
      Recording Unit)) (get_run r)
  cases hput : r.model.userRules.put m k with
  | error refusal => rw [hput] at hrun; exact .inr ⟨_, hrun⟩
  | ok users => rw [hput] at hrun; exact .inl ⟨users, rfl, hrun⟩

/-- A factory method has a key or gets one, unless the new key is taken. -/
theorem actionKey_cases (m : Method) (params : List String) (r : Recorder) :
    (∃ key actions minted, r.Names m key actions minted ∧
      actionKey m params r = (.ok key, { r with model.actionRules := actions, minted })) ∨
    ∃ f, actionKey m params r = (.error f, { r with minted := r.minted + 1 }) := by
  unfold actionKey
  rw [bind_of_ok (get_run r)]
  cases hm : r.model.actionRules.get? m with
  | some key => exact .inl ⟨key, _, _, .inl ⟨hm, rfl, rfl⟩, rfl⟩
  | none =>
    obtain ⟨key, hid, hmint⟩ :=
      mint_ok (.ok ("f." ++ m.name ++ "(" ++ Text.join ", " params ++ ")")) r
    dsimp only
    rw [bind_of_ok hmint, bind_of_ok (get_run _)]
    cases hput : r.model.actionRules.put m key with
    | ok actions =>
      exact .inl ⟨key, actions, _, .inr ⟨hm, hid, hput, rfl⟩, rfl⟩
    | error refusal => exact .inr ⟨_, rfl⟩

/-- The operands of a factory call are taken off for its rule, or there are too few of them. -/
theorem replaceByRule_takes (key : RuleKey) (n : Nat) (r : Recorder) :
    (∃ base es, r.stack = base ++ es ∧ es.length = n ∧ replaceByRule key n r =
      (register key (operands es) >>= fun _ => push (.call key)) { r with stack := base }) ∨
    ∃ f, replaceByRule key n r = (.error f, r) := by
  unfold replaceByRule
  by_cases hn : n = 1
  · rw [if_pos (by omega)]
    rcases pop_cases r with ⟨base, e, hstack, hpop⟩ | ⟨f, hpop⟩
    · exact .inl ⟨base, [e], hstack, hn.symm, bind_of_ok hpop⟩
    · exact .inr ⟨f, bind_of_error hpop⟩
  · rw [if_neg (by omega), map_eq_pure_bind, bind_assoc]
    rcases popMany_cases n r with ⟨base, es, hstack, hlen, hpop⟩ | ⟨f, hpop⟩
    · refine .inl ⟨base, es, hstack, hlen, (bind_of_ok hpop).trans ?_⟩
      have hes : operands es = .seq es := by
        unfold operands
        split
        · exact absurd hlen.symm hn
        · rfl
      rw [hes]
      rfl
    · exact .inr ⟨f, bind_of_error hpop⟩

/-- The operands make way for a reference to the rule that is made of them, or are just dropped. -/
theorem replaceByRule_cases (hr : r.Live) (key : RuleKey) (n : Nat) :
    (∃ base es, r.stack = base ++ es ∧ es.length = n ∧
      r.registry.grammar.rules.get? key = none ∧
      replaceByRule key n r = (.ok (), { r with
        registry.grammar.rules := r.registry.grammar.rules.insert key (operands es)
        stack := base ++ [.call key] })) ∨
    ∃ f base es, r.stack = base ++ es ∧
      replaceByRule key n r = (.error f, { r with stack := base }) := by
  rcases replaceByRule_takes key n r with ⟨base, es, hstack, hlen, htake⟩ | ⟨f, htake⟩
  · rw [htake]
    have hlive : Live { r with stack := base } := ⟨hr.unfinished, hr.unsealed⟩
    rcases register_cases hlive key (operands es) with ⟨hnew, hregister⟩ | ⟨old, f, -, hregister⟩
    · refine .inl ⟨base, es, hstack, hlen, hnew, ?_⟩
      rw [bind_of_ok hregister]
      have hlive : Live { r with
          registry.grammar.rules := r.registry.grammar.rules.insert key (operands es)
          stack := base } := ⟨hr.unfinished, hr.unsealed⟩
      exact push_run hlive _
    · exact .inr ⟨f, base, es, hstack, bind_of_error hregister⟩
  · exact .inr ⟨f, r.stack, [], (List.append_nil _).symm, htake⟩

/-- A method that is recorded is one of the factory's. -/
theorem mem_of_actionTarget? {name : String} {method : Method} {signature : Signature}
    (h : s.actionTarget? name = some (.recorded method signature)) :
    ∃ fm, (name, (method, fm)) ∈ s.factory.methods ∧ fm.signature = signature := by
  unfold actionTarget? at h
  split at h
  · rename_i found
    cases h
    obtain rfl := show _ = name by simpa using List.find?_some found
    exact ⟨_, List.mem_of_find?_eq_some found, rfl⟩
  · obtain ⟨⟨owner, member⟩, -, heq⟩ := Option.map_eq_some_iff.mp h
    cases member <;> cases heq

theorem finish_ok (h : finish r = (.ok (), r')) :
    r.stack = [] ∧ r.building = none ∧ ∃ log, r' = { r with isFinished := true, log } := by
  obtain ⟨_, r₁, hget, h⟩ := bind_eq_ok.mp h
  cases hget
  dsimp only at h
  by_cases hleft : (!r.stack.isEmpty) = true
  · rw [if_pos hleft] at h
    obtain ⟨_, r₁, -, h⟩ := bind_eq_ok.mp h
    cases h
  · rw [if_neg hleft] at h
    have hstack : r.stack = [] := by simpa using hleft
    have hb : r.building = none := by
      cases hb : r.building with
      | some m => rw [hb] at h; cases h
      | none => rfl
    rw [hb] at h
    cases h
    exact ⟨hstack, hb, _, rfl⟩

/-- What holds of the stack and of what a move pushes on it holds of the whole. -/
theorem forall_pushed {holds : Expr → Prop} {base : List Expr} {e : Expr}
    (hbase : ∀ e ∈ base, holds e) (he : holds e) : ∀ e' ∈ base ++ [e], holds e' :=
  List.forall_mem_append.mpr ⟨hbase, List.forall_mem_singleton.mpr he⟩

end Calls

/-! ### Moves -/

variable [PatternLibrary]

/-- What a lexeme is cut out by: a text, a pattern that was checked, or a value that is no text. -/
inductive Lexical : RuleKind → Expr → Prop
  | literal (t : String) : Lexical .token (.literal t)
  | misfit (shown type : String) : Lexical .token (.misfit shown type)
  | pattern {source : String} {regex : Pattern} (h : PatternLibrary.compile source = .ok regex) :
    Lexical .pattern (.pattern source)

/-- What a recorder can do in one go. The last four are what a fault can leave half done. -/
inductive Move (s : Stage) (faulty : Bool) : Recorder → Recorder → Prop
  | noted {r} (line : LogLine) : Move s faulty r { r with log := r.log ++ [line] }
  | referred {r} {m : Method} (hm : m ∈ s.grammar.methods) (hb : r.building.isSome = true) :
    Move s faulty r { r with stack := r.stack ++ [.late (.method m)] }
  | entered {r} {m : Method} (hm : m ∈ s.grammar.methods) (hb : r.building = none) :
    Move s faulty r { r with building := some m, pendingKey := none }
  | dropped {r base es} (hstack : r.stack = base ++ es) : Move s faulty r { r with stack := base }
  | chosen {r base alts} (hstack : r.stack = base ++ alts) :
    Move s faulty r { r with stack := base ++ [.choice alts] }
  | cut {r kind e} {key : RuleKey} (he : Lexical kind e) (hid : key.id = .minted r.minted)
    (hnew : r.registry.grammar.rules.get? key = none) :
    Move s faulty r (r.withKind key kind (padded e) (r.stack ++ [.call key]))
  | wrapped {r base e} {key : RuleKey} (how : Wrapper) (hstack : r.stack = base ++ [e])
    (hid : key.id = .minted r.minted) (hnew : r.registry.grammar.rules.get? key = none) :
    Move s faulty r (r.withKind key how.kind (.rep how.repetition e) (base ++ [.call key]))
  | opened {r m key users minted} (hb : r.building = some m) (hp : r.pendingKey = none)
    (hkey : r.Opens s key minted) (hput : r.model.userRules.put m key = .ok users) :
    Move s faulty r { r with model.userRules := users, pendingKey := some key, minted }
  | closed {r m key e} (log : List LogLine) (hb : r.building = some m)
    (hp : r.pendingKey = some key) (hstack : r.stack = [e])
    (hnew : r.registry.grammar.rules.get? key = none) : Move s faulty r (r.withClosed key e log)
  | acted {r name m key actions minted base es} {fm : FactoryMethod} (line : LogLine)
    (hm : (name, (m, fm)) ∈ s.factory.methods) (hcheck : fm.signature.check es.length = .ok ())
    (hcall : s.CallsAction name es.length)
    (hkey : r.Names m key actions minted) (hstack : r.stack = base ++ es)
    (hnew : r.registry.grammar.rules.get? key = none) :
    Move s faulty r { r with
      registry.grammar.rules := r.registry.grammar.rules.insert key (operands es)
      model.actionRules := actions
      stack := base ++ [.call key]
      minted
      log := r.log ++ [line] }
  | skipped {r} (hf : faulty = true) : Move s faulty r { r with minted := r.minted + 1 }
  | kinded {r e} {key : RuleKey} (hf : faulty = true) (kind : RuleKind)
    (hid : key.id = .minted r.minted) (hold : r.registry.grammar.rules.get? key = some e) :
    Move s faulty r
      { r with model.kinds := r.model.kinds.insert key kind, minted := r.minted + 1 }
  | named {r name m key actions minted} {fm : FactoryMethod} (hf : faulty = true)
    (hm : (name, (m, fm)) ∈ s.factory.methods) (hkey : r.Names m key actions minted) :
    Move s faulty r { r with model.actionRules := actions, minted }
  | stalled {r m key e} (hf : faulty = true) (hb : r.building = some m)
    (hp : r.pendingKey = some key) (hstack : r.stack = [e])
    (hnew : r.registry.grammar.rules.get? key = none) :
    Move s faulty r { r with
      registry.grammar.rules := r.registry.grammar.rules.insert key e
      stack := [] }

/-- No body pushes by hand, and a fault is swallowed only where what it leaves counts as a move. -/
structure Orderly (s : Stage) (faulty : Bool) : Prop where
  pushes : s.PushesNothing
  swallows : faulty = false → s.SwallowsNothing

/-- Any number of moves. -/
abbrev Moves (s : Stage) (faulty : Bool) : Recorder → Recorder → Prop :=
  Relation.ReflTransGen (Move s faulty)

section Moves
variable {s : Stage} {faulty : Bool} {r r' : Recorder} {α β : Type}

theorem Move.live (h : Move s faulty r r') (hr : r.Live) : r'.Live := by
  cases h <;> exact ⟨hr.unfinished, hr.unsealed⟩

/-- What every move preserves, any number of moves preserves. -/
theorem Moves.preserve {holds : Recorder → Prop}
    (hstep : ∀ {r r'}, Move s faulty r r' → holds r → holds r') (h : Moves s faulty r r')
    (hr : holds r) : holds r' := by
  induction h with
  | refl => exact hr
  | tail _ hmove ih => exact hstep hmove ih

theorem Moves.live (h : Moves s faulty r r') (hr : r.Live) : r'.Live :=
  h.preserve Move.live hr

/-- The computation makes moves: when it goes well, and when a fault breaks it off if that counts. -/
def Does (s : Stage) (faulty : Bool) (x : Recording α) : Prop :=
  ∀ ⦃r result r'⦄, r.Live → x r = (result, r') → (∀ f, result = .error f → faulty = true) →
    Moves s faulty r r'

theorem does_pure (a : α) : Does s faulty (pure a : Recording α) := by
  intro r result r' _ h _
  cases h; exact .refl

theorem does_throw (f : Fault) : Does s faulty (throw f : Recording α) := by
  intro r result r' _ h _
  cases h; exact .refl

/-- What comes next has to do only with what the first part can give. -/
theorem Does.bind_returned {x : Recording α} {f : α → Recording β} (hx : Does s faulty x)
    (hf : ∀ a, (∃ r r', x r = (.ok a, r')) → Does s faulty (f a)) : Does s faulty (x >>= f) := by
  intro r result r' hr h hresult
  rcases hx₁ : x r with ⟨e | a, r₁⟩
  · rw [bind_of_error hx₁] at h
    cases h
    exact hx hr hx₁ fun _ _ => hresult e rfl
  · rw [bind_of_ok hx₁] at h
    have hmoves : Moves s faulty r r₁ := hx hr hx₁ nofun
    exact hmoves.trans (hf a ⟨r, r₁, hx₁⟩ (hmoves.live hr) h hresult)

theorem Does.bind {x : Recording α} {f : α → Recording β} (hx : Does s faulty x)
    (hf : ∀ a, Does s faulty (f a)) : Does s faulty (x >>= f) :=
  hx.bind_returned fun a _ => hf a

/-! ### Builder calls -/

theorem does_note (channel : Channel) (text : String) : Does s faulty (note channel text) := by
  intro r result r' _ h _
  cases h; exact .single (.noted _)

theorem does_pop : Does s faulty pop := by
  intro r result r' _ h _
  rcases pop_cases r with ⟨base, e, hstack, hpop⟩ | ⟨f, hpop⟩
  · cases hpop.symm.trans h; exact .single (.dropped hstack)
  · cases hpop.symm.trans h; exact .refl

theorem does_firstOf (n : Nat) : Does s faulty (firstOf n) := by
  intro r result r' hr h _
  unfold firstOf at h
  rcases popMany_cases n r with ⟨base, alts, hstack, -, hpop⟩ | ⟨f, hpop⟩
  · have hlive : Live { r with stack := base } := ⟨hr.unfinished, hr.unsealed⟩
    rw [bind_of_ok hpop, push_run hlive] at h
    cases h; exact .single (.chosen hstack)
  · rw [bind_of_error hpop] at h
    cases h; exact .refl

theorem does_lexeme {kind : RuleKind} {e : Expr} (he : Lexical kind e) :
    Does s faulty (addRule kind (padded e) (padded e)) := by
  intro r result r' hr h hresult
  obtain ⟨key, hid, ⟨hnew, hadd⟩ | ⟨old, f, hold, hadd⟩⟩ := addRule_cases hr kind (padded e) (padded e)
  · cases hadd.symm.trans h
    exact .single (.cut he hid hnew)
  · cases hadd.symm.trans h
    exact .single (.kinded (hresult f rfl) kind hid hold)

theorem does_token (v : Value) : Does s faulty (token v) := by
  cases v with
  | text t => exact does_lexeme (.literal t)
  | _ => exact does_lexeme (.misfit _ _)

theorem does_pattern (v : Value) : Does s faulty (pattern v) := by
  cases v with
  | text source =>
    unfold pattern Expr.pattern?
    dsimp only
    cases hregex : PatternLibrary.compile source with
    | ok regex => exact does_lexeme (.pattern hregex)
    | error e => exact does_throw _
  | _ => exact does_throw _

theorem does_wrapper (how : Wrapper) :
    Does s faulty (pop >>= fun e => addRule how.kind e (.rep how.repetition e)) := by
  intro r result r' hr h hresult
  rcases pop_cases r with ⟨base, e, hstack, hpop⟩ | ⟨f, hpop⟩
  · rw [bind_of_ok hpop] at h
    obtain ⟨key, hid, ⟨hnew, hadd⟩ | ⟨old, f, hold, hadd⟩⟩ := addRule_cases
      (r := { r with stack := base }) ⟨hr.unfinished, hr.unsealed⟩ how.kind e (.rep how.repetition e)
    · cases hadd.symm.trans h
      exact .single (.wrapped how hstack hid hnew)
    · cases hadd.symm.trans h
      exact .tail (.single (.dropped hstack)) (.kinded (hresult f rfl) how.kind hid hold)
  · rw [bind_of_error hpop] at h
    cases h; exact .refl

theorem does_wrapOne (how : Wrapper) (count : Nat) : Does s faulty (wrapOne how count) := by
  unfold wrapOne
  dsimp only
  split
  · exact does_throw _
  · cases how with
    | optional => exact does_wrapper .optional
    | oneOrMore => exact does_wrapper .oneOrMore
    | zeroOrMore => exact does_wrapper .zeroOrMore
  · exact does_throw _

theorem does_nonterminal {key : Option RuleKey} (hkey : ∀ k, key = some k → k ∈ s.keys) :
    Does s faulty (nonterminal key) := by
  intro r result r' hr h hresult
  unfold nonterminal at h
  rw [bind_of_ok (get_run r)] at h
  cases hb : r.building with
  | none => rw [hb] at h; cases h; exact .refl
  | some m =>
    rw [hb] at h
    cases hp : r.pendingKey with
    | some k => rw [hp] at h; cases h; exact .refl
    | none =>
      rw [hp] at h
      dsimp only at h
      rw [if_neg (by simp)] at h
      cases key with
      | some k =>
        rcases bindKey_cases m k r with ⟨users, hput, hbind⟩ | ⟨f, hbind⟩
        · cases hbind.symm.trans h
          exact .single (.opened hb hp (.inl ⟨hkey k rfl, rfl⟩) hput)
        · cases hbind.symm.trans h
          exact .refl
      | none =>
        obtain ⟨k, hid, hmint⟩ := mint_ok (.ok m.name) r
        dsimp only at h
        rw [bind_of_ok hmint] at h
        rcases bindKey_cases m k { r with minted := r.minted + 1 } with
          ⟨users, hput, hbind⟩ | ⟨f, hbind⟩
        · cases hbind.symm.trans h
          exact .single (.opened hb hp (.inr ⟨hid, rfl⟩) hput)
        · cases hbind.symm.trans h
          exact .single (.skipped (hresult f rfl))

theorem does_is : Does s faulty Recorder.is := by
  intro r result r' hr h hresult
  unfold Recorder.is at h
  rw [bind_of_ok (get_run r)] at h
  cases hb : r.building with
  | none => rw [hb] at h; cases h; exact .refl
  | some m =>
    cases hp : r.pendingKey with
    | none => rw [hb, hp] at h; cases h; exact .refl
    | some key =>
      rw [hb, hp] at h
      dsimp only at h
      by_cases hlen : r.stack.length ≠ 1
      · rw [if_pos hlen] at h
        cases hformat : Expr.formatStack r.stack with
        | ok text => rw [hformat] at h; cases h; exact .refl
        | error part => rw [hformat] at h; cases h; exact .refl
      · rw [if_neg hlen] at h
        obtain ⟨e, hstack⟩ := List.length_eq_one_iff.mp (Decidable.not_not.mp hlen)
        have hpop : pop r = (.ok e, { r with stack := [] }) := by
          refine (bind_of_ok (get_run r)).trans ?_
          rw [hstack]
          rfl
        have hlive : Live { r with stack := [] } := ⟨hr.unfinished, hr.unsealed⟩
        rw [bind_of_ok hpop] at h
        rcases register_cases hlive key e with ⟨hnew, hregister⟩ | ⟨old, f, -, hregister⟩
        · rw [bind_of_ok hregister] at h
          cases hformat : e.format with
          | ok text => rw [hformat] at h; cases h; exact .single (.closed _ hb hp hstack hnew)
          | error part =>
            rw [hformat] at h; cases h
            exact .single (.stalled (hresult _ rfl) hb hp hstack hnew)
        · rw [bind_of_error hregister] at h
          cases h
          exact .single (Move.dropped (show r.stack = [] ++ [e] from hstack))

theorem does_closeRule (object : String) (count : Nat) : Does s faulty (closeRule object count) := by
  unfold closeRule
  split
  · exact does_throw _
  · exact does_is

/-! ### Factory calls -/

theorem does_action {name : String} {m : Method} {fm : FactoryMethod}
    (hm : (name, (m, fm)) ∈ s.factory.methods) {n : Nat} (hcheck : fm.signature.check n = .ok ())
    (hcall : s.CallsAction name n) (params : List String) : Does s faulty (action m params n) := by
  intro r result r' hr h hresult
  unfold action at h
  rcases actionKey_cases m params r with ⟨key, actions, minted, hkey, hrun⟩ | ⟨f, hrun⟩
  · rw [bind_of_ok hrun] at h
    have hlive : Live { r with model.actionRules := actions, minted } :=
      ⟨hr.unfinished, hr.unsealed⟩
    rcases replaceByRule_cases hlive key n with
      ⟨base, es, hstack, rfl, hnew, hreplace⟩ | ⟨f, base, es, hstack, hreplace⟩
    · rw [bind_of_ok hreplace] at h
      cases h
      exact .single (.acted _ hm hcheck hcall hkey hstack hnew)
    · rw [bind_of_error hreplace] at h
      cases h
      exact .tail (.single (.named (hresult f rfl) hm hkey)) (.dropped hstack)
  · rw [bind_of_error hrun] at h
    cases h
    exact .single (.skipped (hresult f rfl))

theorem does_callAction {name : String} {target : ActionTarget}
    (htarget : s.actionTarget? name = some target) {args : List Value}
    (hcall : s.CallsAction name args.length) (hasNames : Bool) :
    Does s faulty (s.callAction args hasNames target) := by
  unfold callAction
  cases target with
  | recorded method signature =>
    obtain ⟨fm, hm, rfl⟩ := mem_of_actionTarget? htarget
    cases hasNames with
    | true => exact does_throw _
    | false =>
      dsimp only
      rw [if_neg (by simp)]
      cases hcheck : fm.signature.check args.length with
      | error why => exact does_throw _
      | ok _ => exact (does_action hm hcheck hcall _).bind fun _ => does_pure _
  | direct method m =>
    dsimp only
    split
    · exact does_pure _
    · exact does_throw _
  | inert type => exact does_throw _

/-! ### Rule methods -/

theorem does_callRule {m : Method} (hm : m ∈ s.grammar.methods) {body : Recording Unit}
    (hbody : Does s faulty body) : Does s faulty (callRule m body) := by
  intro r result r' hr h hresult
  cases hb : r.building with
  | some m' =>
    have henter : enter m r = (.ok false, { r with stack := r.stack ++ [.late (.method m)] }) := by
      refine (bind_of_ok (get_run r)).trans ?_
      rw [if_pos (by rw [hb]; rfl), bind_of_ok (push_run hr _)]
      rfl
    unfold callRule at h
    rw [bind_of_ok henter] at h
    cases h
    exact .single (.referred hm (by rw [hb]; rfl))
  | none =>
    let r₁ : Recorder := { r with building := some m, pendingKey := none }
    have hr₁ : r₁.Live := ⟨hr.unfinished, hr.unsealed⟩
    have henter : enter m r = (.ok true, r₁) := by
      refine (bind_of_ok (get_run r)).trans ?_
      rw [hb]
      rfl
    have hmove : Moves s faulty r r₁ := .single (.entered hm hb)
    unfold callRule at h
    rw [bind_of_ok henter, if_pos rfl] at h
    rcases hrun : body r₁ with ⟨f | _, r₂⟩
    · have hout : outcome body r₁ = (.ok (.error f), r₂) := by unfold outcome; rw [hrun]
      rw [bind_of_ok hout] at h
      cases h
      exact hmove.trans (hbody hr₁ hrun fun _ _ => hresult _ rfl)
    · have hout : outcome body r₁ = (.ok (.ok ()), r₂) := by unfold outcome; rw [hrun]
      rw [bind_of_ok hout] at h
      have hsame : r' = r₂ := by
        unfold leave at h
        dsimp only at h
        rw [bind_of_ok (get_run r₂)] at h
        by_cases hopen : r₂.building.isSome = true
        · rw [if_pos hopen] at h; cases h; rfl
        · rw [if_neg hopen] at h; cases h; rfl
      exact hsame ▸ hmove.trans (hbody hr₁ hrun nofun)

/-! ### Bodies -/

theorem does_swallow (x : Recording Value) (hx : Does s true x) : Does s true (swallow x) := by
  intro r result r' hr h _
  unfold swallow at h
  rcases hrun : x r with ⟨f | v, r₁⟩
  · rw [hrun] at h; cases h
    exact hx hr hrun fun _ _ => rfl
  · rw [hrun] at h; cases h
    exact hx hr hrun nofun

/-- Every call makes moves. -/
theorem plays_does (inline : Inline) : Plays s inline (Does s faulty) where
  pure := does_pure
  throw := does_throw
  bind := Does.bind_returned
  nonterminal := does_nonterminal
  closeRule := does_closeRule
  token := does_token
  pattern := does_pattern
  wrapOne := does_wrapOne
  firstOf := does_firstOf
  callAction := fun hasNames htarget hcall => does_callAction htarget hcall hasNames
  callRule := fun _ htarget hbody =>
    does_callRule ((of_target? htarget).2 _ _ _ rfl) (hbody.bind fun _ => does_pure _)
  pop := does_pop.bind fun _ => does_pure _

theorem outlives_does (hs : Orderly s faulty) : s.Outlives (Does s faulty) := by
  cases faulty with
  | false => exact outlives_of_none (hs.swallows rfl)
  | true => exact fun _ hx => does_swallow _ hx

/-- Playing a body is a row of moves. -/
theorem does_perform (hs : Orderly s faulty) (depth : Nat) (owner : String) {script : Script}
    (args : List Value) (h : s.Holds script) : Does s faulty (perform s depth owner script args) :=
  Plays.perform hs.pushes (outlives_does hs) (does_throw _) (fun depth _ => plays_does (perform s depth))
    depth (Nat.le_refl _) owner script args h

variable {frame : Frame}

/-! ### Recording a grammar -/

/-- Calling a rule method between rules declares it: there it is entered, and nothing is open in the
end. -/
theorem call_enters (hs : Orderly s faulty) {x : String × (Method × Script)}
    (hx : x ∈ s.grammar.rules) {depth : Nat} {v : Value} (hr : r.Live) (hb : r.building = none)
    (h : play s (perform s depth) frame (.call x.1 []) r = (.ok v, r')) :
    r'.building = none ∧
      Moves s faulty { r with building := some x.2.1, pendingKey := none } r' := by
  rw [play] at h
  rcases Reading.target?_of_rule hx with htarget | ⟨type, htarget⟩
  · rw [htarget] at h
    obtain ⟨_, r₁, hlook, h⟩ := bind_eq_ok.mp h
    cases hlook
    obtain ⟨vs, r₁, hargs, h⟩ := bind_eq_ok.mp h
    rw [playAll] at hargs
    cases hargs
    obtain ⟨_, r₁, hcall, h⟩ := bind_eq_ok.mp h
    cases h
    obtain ⟨hbody, hclosed⟩ := Reading.callRule_ok hcall hb
    refine ⟨hclosed, ?_⟩
    have hdoes : Does s faulty (do
        let _ ← perform s depth (s.grammar.ownerOf x.1) x.2.2 []) :=
      (does_perform hs depth _ _ (holds_rule hx)).bind fun _ => does_pure _
    exact hdoes (r := { r with building := some x.2.1, pendingKey := none })
      ⟨hr.unfinished, hr.unsealed⟩ hbody nofun
  · rw [htarget] at h
    obtain ⟨_, r₁, hlook, h⟩ := bind_eq_ok.mp h
    cases hlook
    obtain ⟨vs, r₁, -, h⟩ := bind_eq_ok.mp h
    cases h

/-- Recording the rules is a row of moves up to the end, in which every one of their methods is
entered between rules. -/
theorem recordRules_moves (hs : Orderly s faulty) : ∀ {todo : List (String × (Method × Script))}
    {r final : Recorder}, (∀ x ∈ todo, x ∈ s.grammar.rules) →
    recordRules s (todo.map (·.1)) r = (.ok (), final) → r.Live → r.building = none →
    ∃ last, Moves s faulty r last ∧ finish last = (.ok (), final) ∧
      ∀ x ∈ todo, ∃ mid, Moves s faulty r mid ∧ mid.building = none ∧
        Moves s faulty { mid with building := some x.2.1, pendingKey := none } last
  | [], r, final, _, h, _, _ => ⟨r, .refl, h, by simp⟩
  | x :: rest, r, final, hsub, h, hr, hb => by
    obtain ⟨_, r₁, hnote, h⟩ := bind_eq_ok.mp h
    have hnoted : Moves s faulty r r₁ := does_note _ _ hr hnote nofun
    cases hnote
    obtain ⟨v, r₂, hcall, hlater⟩ := bind_eq_ok.mp h
    have hx := hsub x (List.mem_cons_self ..)
    obtain ⟨hclosed, hdeclares⟩ := call_enters hs hx (hnoted.live hr) hb hcall
    have hmoves : Moves s faulty r r₂ :=
      (hnoted.tail (.entered (List.mem_map.mpr ⟨x, hx, rfl⟩) hb)).trans hdeclares
    obtain ⟨last, hlast, hfinish, hentered⟩ := recordRules_moves hs
      (fun y hy => hsub y (List.mem_cons_of_mem _ hy)) hlater (hmoves.live hr) hclosed
    refine ⟨last, hmoves.trans hlast, hfinish, fun y hy => ?_⟩
    rcases List.mem_cons.mp hy with rfl | hy
    · exact ⟨_, hnoted, hb, hdeclares.trans hlast⟩
    · obtain ⟨mid, hmid, hopen, hrest⟩ := hentered y hy
      exact ⟨mid, hmoves.trans hmid, hopen, hrest⟩

/-- What recording a grammar leaves was reached by moves, and nothing is left over or half built. -/
theorem record_moves (hs : Orderly s faulty) {final : Recorder}
    (h : s.record {} = (.ok (), final)) : ∃ last log, Moves s faulty {} last ∧ last.stack = [] ∧
      last.building = none ∧ final = { last with isFinished := true, log } ∧
      ∀ m ∈ s.grammar.methods, ∃ mid, Moves s faulty {} mid ∧ mid.building = none ∧
        Moves s faulty { mid with building := some m, pendingKey := none } last := by
  unfold record at h
  split at h
  · obtain ⟨last, hmoves, hfinish, hentered⟩ :=
      recordRules_moves hs (fun _ => id) h ⟨rfl, rfl⟩ rfl
    obtain ⟨hstack, hb, log, hfinal⟩ := finish_ok hfinish
    refine ⟨last, log, hmoves, hstack, hb, hfinal, fun m hm => ?_⟩
    obtain ⟨x, hx, rfl⟩ := List.mem_map.mp hm
    exact hentered x hx
  · cases h

end Moves
end Recorder
end PegScribe
