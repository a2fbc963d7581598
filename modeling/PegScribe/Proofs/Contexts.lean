import PegScribe.Proofs.Completeness
import PegScribe.Proofs.Shifts

/-!
Contexts: what a body records does not depend on what was recorded before it.

A body is played twice, by itself and on top of a base. `Fares` says what can come of the two runs: they
keep in step and the second holds the base and, shifted, what the first holds; or both break off. The base
can stop the second run alone where a key or a factory method is used twice (`Clash`), or where something
is left on its stack; and only what is left there can carry the second run further than the first. Every
call keeps to this (`Tracks`), and so does every body (`tracks_perform`).
-/
namespace PegScribe
namespace Recorder
open Keeping Stage
variable {s : Stage} {base r r' : Recorder} {α β : Type}

/-! ### Runs on the stack -/

/-- The base and the recorder have a rule each for one factory method or under one key. -/
def Clash (base r : Recorder) : Prop :=
  (∃ m, (base.model.actionRules.get? m).isSome = true ∧ (r.model.actionRules.get? m).isSome = true) ∨
  ∃ k : RuleKey, base.registry.hasRule (k.shift base.minted) = true ∧
    (r.registry.hasRule k = true ∨ r.pendingKey = some k)

/-- What can come of a run by itself and of the same run over the base. -/
inductive Fares (base : Recorder) : Except Fault α × Recorder → Except Fault α × Recorder → Prop
  | well {a : α} {r r' : Recorder} (h : Over base r r') : Fares base (.ok a, r) (.ok a, r')
  | ill {f f' : Fault} {r r' : Recorder} : Fares base (.error f, r) (.error f', r')
  | blocked {a : α} {f : Fault} {r r' : Recorder} (h : base.stack ≠ [] ∨ Clash base r) :
    Fares base (.ok a, r) (.error f, r')
  | fed {f : Fault} {a : α} {r r' : Recorder} (h : base.stack ≠ []) :
    Fares base (.error f, r) (.ok a, r')

theorem pop_run {below : List Expr} {e : Expr} (hstack : r.stack = below ++ [e]) :
    pop r = (.ok e, { r with stack := below }) := by
  refine (bind_of_ok (get_run r)).trans ?_
  rw [hstack, List.getLast?_concat, List.dropLast_concat]
  rfl

theorem pop_short (h : r.stack.length < 1) : ∃ f, pop r = (.error f, r) := by
  have hstack : r.stack = [] := List.length_eq_zero_iff.mp (by omega)
  refine ⟨.grammar (.stackEmpty r.building), (bind_of_ok (get_run r)).trans ?_⟩
  rw [hstack]
  rfl

theorem popMany_run {below es : List Expr} {n : Nat} (hstack : r.stack = below ++ es)
    (hlen : es.length = n) : popMany n r = (.ok es, { r with stack := below }) := by
  refine (bind_of_ok (get_run r)).trans ?_
  have hsize : r.stack.length = below.length + n := by rw [hstack, List.length_append, hlen]
  dsimp only
  rw [if_neg (by omega)]
  by_cases hn : n = 0
  · have hes : es = [] := List.length_eq_zero_iff.mp (hlen.trans hn)
    rw [hes, List.append_nil] at hstack
    rw [if_pos (by omega), hes, ← hstack]
    rfl
  · rw [if_neg (by omega), if_pos (by omega)]
    have hkept : r.stack.length - (n : Int).toNat = below.length := by omega
    rw [hkept, hstack, List.take_left, List.drop_left]
    rfl

theorem popMany_short {n : Nat} (h : r.stack.length < n) : ∃ f, popMany n r = (.error f, r) := by
  refine ⟨.grammar (.stackShort n r.stack.length r.building), (bind_of_ok (get_run r)).trans ?_⟩
  dsimp only
  rw [if_pos (by omega)]
  rfl

/-- The last `n` expressions, if there are so many. -/
theorem exists_split (stack : List Expr) (n : Nat) :
    stack.length < n ∨ ∃ below es, stack = below ++ es ∧ es.length = n := by
  by_cases h : stack.length < n
  · exact .inl h
  · refine .inr ⟨stack.take (stack.length - n), stack.drop (stack.length - n),
      (List.take_append_drop ..).symm, ?_⟩
    rw [List.length_drop]
    omega

theorem Over.restack (h : Over base r r') (stack : List Expr) :
    Over base { r with stack }
      { r' with stack := base.stack ++ stack.map (Expr.shift base.minted) } :=
  { h with stack := rfl }

/-- What is taken off by itself is taken off over the base. -/
theorem Over.split (h : Over base r r') {below es : List Expr} (hstack : r.stack = below ++ es) :
    r'.stack = (base.stack ++ below.map (Expr.shift base.minted)) ++
      es.map (Expr.shift base.minted) := by
  rw [h.stack, hstack, List.map_append, List.append_assoc]

/-- Where too little was pushed, only what is left on the base's stack helps. -/
theorem Over.short (h : Over base r r') {n : Nat} (hshort : r.stack.length < n) :
    base.stack ≠ [] ∨ r'.stack.length < n := by
  by_cases hbase : base.stack = []
  · refine .inr ?_
    rw [h.stack, hbase, List.nil_append, List.length_map]
    exact hshort
  · exact .inl hbase

/-- A run that breaks off by itself for lack of operands. -/
theorem fares_short {f : Fault} {r₁ : Recorder} {result : Except Fault α × Recorder}
    (h : base.stack ≠ [] ∨ ∃ f' r₁', result = (.error f', r₁')) : Fares base (.error f, r₁) result := by
  rcases result with ⟨f' | a, r₁'⟩
  · exact .ill
  · rcases h with h | ⟨f', r₁', heq⟩
    · exact .fed h
    · cases heq

theorem fares_pop (h : Over base r r') {f : Expr → Recording α}
    (hf : ∀ below e, r.stack = below ++ [e] →
      Fares base (f e { r with stack := below }) (f (e.shift base.minted)
        { r' with stack := base.stack ++ below.map (Expr.shift base.minted) })) :
    Fares base ((pop >>= f) r) ((pop >>= f) r') := by
  rcases exists_split r.stack 1 with hshort | ⟨below, es, hstack, hlen⟩
  · obtain ⟨fault, hpop⟩ := pop_short hshort
    rw [bind_of_error hpop]
    refine fares_short ((h.short hshort).imp id fun hshort' => ?_)
    obtain ⟨fault', hpop'⟩ := pop_short hshort'
    exact ⟨fault', r', bind_of_error hpop'⟩
  · obtain ⟨e, rfl⟩ := List.length_eq_one_iff.mp hlen
    rw [bind_of_ok (pop_run hstack), bind_of_ok (pop_run (h.split hstack))]
    exact hf below e hstack

theorem fares_popMany (h : Over base r r') (n : Nat) {f : List Expr → Recording α}
    (hf : ∀ below es, r.stack = below ++ es → es.length = n →
      Fares base (f es { r with stack := below }) (f (es.map (Expr.shift base.minted))
        { r' with stack := base.stack ++ below.map (Expr.shift base.minted) })) :
    Fares base ((popMany n >>= f) r) ((popMany n >>= f) r') := by
  rcases exists_split r.stack n with hshort | ⟨below, es, hstack, hlen⟩
  · obtain ⟨fault, hpop⟩ := popMany_short hshort
    rw [bind_of_error hpop]
    refine fares_short ((h.short hshort).imp id fun hshort' => ?_)
    obtain ⟨fault', hpop'⟩ := popMany_short hshort'
    exact ⟨fault', r', bind_of_error hpop'⟩
  · rw [bind_of_ok (popMany_run hstack hlen),
      bind_of_ok (popMany_run (h.split hstack) (by rw [List.length_map, hlen]))]
    exact hf below es hstack hlen

theorem fares_push (h : Over base r r') (hr : r.Live) (hr' : r'.Live) (e : Expr) :
    Fares base (push e r) (push (e.shift base.minted) r') := by
  rw [push_run hr, push_run hr']
  refine .well { h with stack := ?_ }
  rw [h.stack, List.map_append, List.append_assoc]
  rfl

/-! ### Builder calls, spelled out -/

theorem mint_run (label : Except String String) (r : Recorder) :
    mint label r = (.ok (.made label r.minted), { r with minted := r.minted + 1 }) := by
  cases label <;> rfl

/-- The label of a rule made by a builder call. -/
def kindLabel (kind : RuleKind) (operand : Expr) : Except String String :=
  operand.format.map fun s => kind.name ++ "(" ++ s ++ ")"

theorem addRule_run (hr : r.Live) {kind : RuleKind} {operand body : Expr}
    (hnew : r.registry.grammar.rules.get? (.made (kindLabel kind operand) r.minted) = none) :
    addRule kind operand body r = (.ok (), r.withKind (.made (kindLabel kind operand) r.minted) kind body
      (r.stack ++ [.call (.made (kindLabel kind operand) r.minted)])) := by
  let key := RuleKey.made (kindLabel kind operand) r.minted
  let r₁ : Recorder :=
    { r with model.kinds := r.model.kinds.insert key kind, minted := r.minted + 1 }
  have hr₁ : r₁.Live := ⟨hr.unfinished, hr.unsealed⟩
  have hrun : addRule kind operand body r = (register key body >>= fun _ => push (.call key)) r₁ :=
    bind_of_ok (mint_run (kindLabel kind operand) r)
  rw [hrun]
  rcases register_cases hr₁ key body with ⟨-, hregister⟩ | ⟨old, f, hold, -⟩
  · have hlive : Live
        { r₁ with registry.grammar.rules := r₁.registry.grammar.rules.insert key body } :=
      ⟨hr.unfinished, hr.unsealed⟩
    rw [bind_of_ok hregister]
    exact push_run hlive _
  · rw [show r₁.registry.grammar.rules.get? key = none from hnew] at hold
    cases hold

/-- The last part of opening a rule: the key goes down beside the method, unless it belongs to another
one. -/
def bindKey (m : Method) (k : RuleKey) : Recording Unit := do
  match (← get).model.userRules.put m k with
  | .error _ => refuse (.keyTaken k)
  | .ok userRules => modify fun r => { r with model.userRules := userRules, pendingKey := some k }

theorem bindKey_ok {m : Method} {k : RuleKey} {users : Bijection Method RuleKey}
    (h : r.model.userRules.put m k = .ok users) :
    bindKey m k r = (.ok (), { r with model.userRules := users, pendingKey := some k }) := by
  refine (bind_of_ok (get_run r)).trans ?_
  rw [h]
  rfl

theorem bindKey_error {m : Method} {k : RuleKey} {f : Bijection.Refusal RuleKey}
    (h : r.model.userRules.put m k = .error f) :
    bindKey m k r = (.error (.grammar (.keyTaken k)), r) := by
  refine (bind_of_ok (get_run r)).trans ?_
  rw [h]
  rfl

theorem nonterminal_given {m : Method} (hb : r.building = some m) (hp : r.pendingKey = none)
    (k : RuleKey) : nonterminal (some k) r = bindKey m k r := by
  obtain ⟨registry, model, stack, building, pendingKey, isFinished, minted, log⟩ := r
  cases hb
  cases hp
  rfl

theorem nonterminal_new {m : Method} (hb : r.building = some m) (hp : r.pendingKey = none) :
    nonterminal none r =
      bindKey m (.made (.ok m.name) r.minted) { r with minted := r.minted + 1 } := by
  obtain ⟨registry, model, stack, building, pendingKey, isFinished, minted, log⟩ := r
  cases hb
  cases hp
  rfl

theorem nonterminal_stuck (h : r.building = none ∨ r.pendingKey ≠ none) (key : Option RuleKey) :
    ∃ f, nonterminal key r = (.error f, r) := by
  unfold nonterminal
  rw [bind_of_ok (get_run r)]
  cases hb : r.building with
  | none => exact ⟨_, rfl⟩
  | some m =>
    obtain ⟨k, hp⟩ := Option.ne_none_iff_exists'.mp (h.resolve_left (by rw [hb]; nofun))
    rw [hp]
    exact ⟨_, rfl⟩

theorem is_stuck (h : r.building = none ∨ r.pendingKey = none ∨ r.stack.length ≠ 1) :
    ∃ f, Recorder.is r = (.error f, r) := by
  unfold Recorder.is
  rw [bind_of_ok (get_run r)]
  cases hb : r.building with
  | none => exact ⟨_, rfl⟩
  | some m =>
    cases hp : r.pendingKey with
    | none => exact ⟨_, rfl⟩
    | some key =>
      have hlen : r.stack.length ≠ 1 :=
        (h.resolve_left (by rw [hb]; nofun)).resolve_left (by rw [hp]; nofun)
      dsimp only
      rw [if_pos hlen]
      cases Expr.formatStack r.stack with
      | ok text => exact ⟨_, rfl⟩
      | error part => exact ⟨_, rfl⟩

/-- With one expression on the stack a rule is closed if its key is new and the rule can be written
down. -/
theorem is_run {m : Method} {key : RuleKey} {e : Expr} (hr : r.Live) (hb : r.building = some m)
    (hp : r.pendingKey = some key) (hstack : r.stack = [e]) :
    (r.registry.grammar.rules.get? key = none ∧
      ((∃ text log, e.format = .ok text ∧ Recorder.is r = (.ok (), r.withClosed key e log)) ∨
        ∃ part f r₁, e.format = .error part ∧ Recorder.is r = (.error f, r₁))) ∨
    ∃ old f r₁, r.registry.grammar.rules.get? key = some old ∧ Recorder.is r = (.error f, r₁) := by
  unfold Recorder.is
  rw [bind_of_ok (get_run r), hb, hp]
  dsimp only
  rw [if_neg (by rw [hstack]; simp), bind_of_ok (pop_run (show r.stack = [] ++ [e] from hstack))]
  rcases register_cases (r := { r with stack := [] }) ⟨hr.unfinished, hr.unsealed⟩ key e with
    ⟨hnew, hregister⟩ | ⟨old, f, hold, hregister⟩
  · rw [bind_of_ok hregister]
    refine .inl ⟨hnew, ?_⟩
    cases hformat : e.format with
    | ok text => exact .inl ⟨text, _, rfl, rfl⟩
    | error part => exact .inr ⟨part, _, _, rfl, rfl⟩
  · rw [bind_of_error hregister]
    exact .inr ⟨old, f, _, hold, rfl⟩

/-! ### Factory calls and rule methods, spelled out -/

/-- The label of a factory method's rule. -/
def actionLabel (m : Method) (params : List String) : Except String String :=
  .ok ("f." ++ m.name ++ "(" ++ Text.join ", " params ++ ")")

theorem replaceByRule_run (hr : r.Live) {key : RuleKey} {below es : List Expr} {n : Nat}
    (hstack : r.stack = below ++ es) (hlen : es.length = n)
    (hnew : r.registry.grammar.rules.get? key = none) :
    replaceByRule key n r = (.ok (), { r with
      registry.grammar.rules := r.registry.grammar.rules.insert key (operands es)
      stack := below ++ [.call key] }) := by
  have htake : replaceByRule key n r =
      (register key (operands es) >>= fun _ => push (.call key)) { r with stack := below } := by
    unfold replaceByRule
    by_cases hn : n = 1
    · obtain ⟨e, rfl⟩ := List.length_eq_one_iff.mp (hlen.trans hn)
      rw [if_pos (by omega), bind_of_ok (pop_run hstack)]
      rfl
    · have hes : operands es = .seq es := by
        unfold operands
        split
        · exact absurd hlen.symm hn
        · rfl
      rw [if_neg (by omega), map_eq_pure_bind, bind_assoc, bind_of_ok (popMany_run hstack hlen), hes]
      rfl
  rw [htake]
  rcases register_cases (r := { r with stack := below }) ⟨hr.unfinished, hr.unsealed⟩ key
    (operands es) with ⟨-, hregister⟩ | ⟨old, f, hold, -⟩
  · rw [bind_of_ok hregister]
    exact push_run (r := { r with
      registry.grammar.rules := r.registry.grammar.rules.insert key (operands es)
      stack := below }) ⟨hr.unfinished, hr.unsealed⟩ _
  · rw [show r.registry.grammar.rules.get? key = some old from hold] at hnew; cases hnew

theorem replaceByRule_short (key : RuleKey) {n : Nat} (h : r.stack.length < n) :
    ∃ f, replaceByRule key n r = (.error f, r) := by
  unfold replaceByRule
  by_cases hn : n = 1
  · obtain ⟨f, hpop⟩ := pop_short (hn ▸ h)
    rw [if_pos (by omega)]
    exact ⟨f, bind_of_error hpop⟩
  · obtain ⟨f, hpop⟩ := popMany_short h
    rw [if_neg (by omega), map_eq_pure_bind, bind_assoc]
    exact ⟨f, bind_of_error hpop⟩

theorem callRule_refers (hr : r.Live) {m m' : Method} (hb : r.building = some m') (body : Recording Unit) :
    callRule m body r = (.ok (), { r with stack := r.stack ++ [.late (.method m)] }) := by
  have henter : enter m r = (.ok false, { r with stack := r.stack ++ [.late (.method m)] }) := by
    refine (bind_of_ok (get_run r)).trans ?_
    rw [if_pos (by rw [hb]; rfl), bind_of_ok (push_run hr _)]
    rfl
  unfold callRule
  rw [bind_of_ok henter]
  rfl

/-- Between rules the body is played, and it must close its rule. -/
theorem callRule_declares {m : Method} (hb : r.building = none) {body : Recording Unit}
    {result : Except Fault Unit} {r₁ : Recorder}
    (hbody : body { r with building := some m, pendingKey := none } = (result, r₁)) :
    (result = .ok () ∧ r₁.building = none ∧ callRule m body r = (.ok (), r₁)) ∨
      ((∀ _ : result = .ok (), r₁.building ≠ none) ∧ ∃ f, callRule m body r = (.error f, r₁)) := by
  have henter : enter m r = (.ok true, { r with building := some m, pendingKey := none }) := by
    refine (bind_of_ok (get_run r)).trans ?_
    rw [hb]
    rfl
  have hout : outcome body { r with building := some m, pendingKey := none } = (.ok result, r₁) := by
    unfold outcome
    rw [hbody]
  unfold callRule
  rw [bind_of_ok henter, if_pos rfl, bind_of_ok hout]
  cases result with
  | error cause => exact .inr ⟨nofun, _, rfl⟩
  | ok _ =>
    unfold leave
    dsimp only
    rw [bind_of_ok (get_run r₁)]
    cases hopen : r₁.building with
    | none => exact .inl ⟨rfl, rfl, rfl⟩
    | some m' => exact .inr ⟨nofun, _, rfl⟩

theorem fares_declare {m : Method} {body : Recording Unit} (hb : r.building = none)
    (hb' : r'.building = none)
    (h : Fares base (body { r with building := some m, pendingKey := none })
      (body { r' with building := some m, pendingKey := none })) :
    Fares base (callRule m body r) (callRule m body r') := by
  rcases hrun : body { r with building := some m, pendingKey := none } with ⟨result, r₁⟩
  rcases hrun' : body { r' with building := some m, pendingKey := none } with ⟨result', r₁'⟩
  rw [hrun, hrun'] at h
  rcases callRule_declares hb hrun with ⟨rfl, hclosed, hcall⟩ | ⟨hopen, f, hcall⟩ <;>
    rcases callRule_declares hb' hrun' with ⟨rfl, hclosed', hcall'⟩ | ⟨hopen', f', hcall'⟩ <;>
    rw [hcall, hcall']
  · cases h with
    | well hover => exact .well hover
  · cases h with
    | well hover => exact absurd (hover.building.trans hclosed) (hopen' rfl)
    | blocked hblocked => exact .blocked hblocked
  · cases h with
    | well hover => exact absurd (hover.building.symm.trans hclosed') (hopen rfl)
    | fed hbase => exact .fed hbase
  · exact .ill

/-! ### Runs side by side -/

variable [PatternLibrary]

/-- A recorder that was reached by moves. -/
structure Sane (s : Stage) (r : Recorder) : Prop where
  keys : s.GivesOwnKeys
  live : r.Live
  complete : r.Complete s
  shaped : r.Shaped s

theorem sane_start (hkeys : s.GivesOwnKeys) : Sane s {} :=
  ⟨hkeys, ⟨rfl, rfl⟩, complete_start s, shaped_start s⟩

theorem Sane.moves (hr : r.Sane s) (h : Moves s false r r') : r'.Sane s where
  keys := hr.keys
  live := h.live hr.live
  complete := h.preserve Move.complete hr.complete
  shaped := h.preserve (fun hmove => hmove.shaped hr.keys) hr.shaped

theorem Move.clash (hmove : Move s false r r') (hr : r.Complete s) (h : Clash base r) :
    Clash base r' := by
  -- rules and factory methods stay, and the key of the open rule has a rule when it is closed
  have hkeep : ∀ {r' : Recorder},
      (∀ m, (r.model.actionRules.get? m).isSome = true → (r'.model.actionRules.get? m).isSome = true) →
      (∀ k, r.registry.hasRule k = true → r'.registry.hasRule k = true) →
      (∀ k, r.pendingKey = some k → r'.registry.hasRule k = true ∨ r'.pendingKey = some k) →
      Clash base r' := by
    intro r' hactions hrules hpending
    refine h.imp (fun ⟨m, hm, hm'⟩ => ⟨m, hm, hactions m hm'⟩) fun ⟨k, hk, hk'⟩ => ⟨k, hk, ?_⟩
    exact hk'.elim (fun hk' => .inl (hrules k hk')) (hpending k)
  cases hmove with
  | noted line => exact hkeep (fun _ => id) (fun _ => id) fun _ => .inr
  | referred hm hb => exact hkeep (fun _ => id) (fun _ => id) fun _ => .inr
  | entered hm hb =>
    refine hkeep (fun _ => id) (fun _ => id) fun k hk => ?_
    obtain ⟨m, hm, -⟩ := hr.pending k hk
    rw [hb] at hm; cases hm
  | dropped hstack => exact hkeep (fun _ => id) (fun _ => id) fun _ => .inr
  | chosen hstack => exact hkeep (fun _ => id) (fun _ => id) fun _ => .inr
  | cut he hid hnew => exact hkeep (fun _ => id) (fun _ hk => Ledger.contains_insert hk _ _) fun _ => .inr
  | wrapped how hstack hid hnew =>
    exact hkeep (fun _ => id) (fun _ hk => Ledger.contains_insert hk _ _) fun _ => .inr
  | opened hb hp hkey hput =>
    refine hkeep (fun _ => id) (fun _ => id) fun k hk => ?_
    rw [hp] at hk; cases hk
  | closed log hb hp hstack hnew =>
    refine hkeep (fun _ => id) (fun _ hk => Ledger.contains_insert hk _ _) fun k hk => .inl ?_
    cases hp.symm.trans hk
    exact Ledger.contains_insert_self ..
  | acted line hm hcheck hcall hkey hstack hnew =>
    refine hkeep (fun m hm => ?_) (fun _ hk => Ledger.contains_insert hk _ _) fun _ => .inr
    rcases hkey with ⟨-, rfl, -⟩ | ⟨-, -, hput, -⟩
    · exact hm
    · rw [Bijection.get?_put (filled_rules.solid _) hput]
      split
      · rfl
      · exact hm
  | skipped hf => cases hf
  | kinded hf _ _ _ => cases hf
  | named hf _ _ => cases hf
  | stalled hf _ _ _ _ => cases hf

theorem Sane.clash (hr : r.Sane s) (h : Moves s false r r') (hclash : Clash base r) : Clash base r' := by
  have hstep : ∀ {r r' : Recorder}, Move s false r r' → r.Complete s ∧ Clash base r →
      r'.Complete s ∧ Clash base r' :=
    fun hmove hr => ⟨hmove.complete hr.1, hmove.clash hr.1 hr.2⟩
  exact (h.preserve hstep ⟨hr.complete, hclash⟩).2

/-- The computation makes moves, and fares over the base as it does by itself. -/
structure Tracks (s : Stage) (base : Recorder) (x : Recording α) : Prop where
  does : Does s false x
  fares : ∀ ⦃r r'⦄, r.Sane s → r'.Sane s → Over base r r' → Fares base (x r) (x r')

theorem tracks_pure (a : α) : Tracks s base (pure a : Recording α) :=
  ⟨does_pure a, fun _ _ _ _ h => .well h⟩

theorem tracks_throw (f : Fault) : Tracks s base (throw f : Recording α) :=
  ⟨does_throw f, fun _ _ _ _ _ => .ill⟩

theorem Tracks.bind_returned {x : Recording α} {f : α → Recording β} (hx : Tracks s base x)
    (hf : ∀ a, (∃ r r', x r = (.ok a, r')) → Tracks s base (f a)) : Tracks s base (x >>= f) := by
  refine ⟨hx.does.bind_returned fun a ha => (hf a ha).does, fun r r' hr hr' h => ?_⟩
  have hfares := hx.fares hr hr' h
  rcases hrun : x r with ⟨e | a, r₁⟩ <;> rcases hrun' : x r' with ⟨e' | a', r₁'⟩ <;>
    rw [hrun, hrun'] at hfares
  · rw [bind_of_error hrun, bind_of_error hrun']
    exact .ill
  · rw [bind_of_error hrun, bind_of_ok hrun']
    cases hfares with
    | fed hbase =>
      rcases f a' r₁' with ⟨e' | b, r₂'⟩
      · exact .ill
      · exact .fed hbase
  · rw [bind_of_ok hrun, bind_of_error hrun']
    cases hfares with
    | blocked hblocked =>
      have hr₁ := hr.moves (hx.does hr.live hrun nofun)
      rcases hrun₂ : f a r₁ with ⟨e | b, r₂⟩
      · exact .ill
      · exact .blocked (hblocked.imp id
          (hr₁.clash ((hf a ⟨r, r₁, hrun⟩).does hr₁.live hrun₂ nofun)))
  · rw [bind_of_ok hrun, bind_of_ok hrun']
    cases hfares with
    | well hover =>
      exact (hf a ⟨r, r₁, hrun⟩).fares (hr.moves (hx.does hr.live hrun nofun))
        (hr'.moves (hx.does hr'.live hrun' nofun)) hover

theorem Tracks.bind {x : Recording α} {f : α → Recording β} (hx : Tracks s base x)
    (hf : ∀ a, Tracks s base (f a)) : Tracks s base (x >>= f) :=
  hx.bind_returned fun a _ => hf a

theorem tracks_pop : Tracks s base (pop >>= fun _ => (pure .absent : Recording Value)) := by
  refine ⟨does_pop.bind fun _ => does_pure _, fun r r' hr hr' h => fares_pop h fun below e _ => ?_⟩
  exact .well (h.restack below)

theorem tracks_firstOf (n : Nat) : Tracks s base (firstOf n) := by
  refine ⟨does_firstOf n, fun r r' hr hr' h => fares_popMany h n fun below alts hstack hlen => ?_⟩
  have hfares := fares_push (h.restack below) ⟨hr.live.unfinished, hr.live.unsealed⟩
    ⟨hr'.live.unfinished, hr'.live.unsealed⟩ (.choice alts)
  rwa [Expr.shift, Expr.shiftAll_eq_map] at hfares

/-! ### Builder calls -/

/-- A new key has no rule. -/
theorem Sane.unruled (hr : r.Sane s) {key : RuleKey} (hid : key.id = .minted r.minted) :
    r.registry.grammar.rules.get? key = none := by
  cases h : r.registry.grammar.rules.get? key with
  | none => rfl
  | some e => exact absurd rfl ((hr.shaped.made key e h).ne hid)

/-- A rule of a kind is added on both sides. -/
theorem Over.addRule (h : Over base r r') (hr : r.Sane s) (hr' : r'.Sane s) (kind : RuleKind)
    (operand body : Expr) : Fares base (addRule kind operand body r)
      (addRule kind (operand.shift base.minted) (body.shift base.minted) r') := by
  have hnew := hr.unruled (RuleKey.made_id (kindLabel kind operand) r.minted)
  have hlabel : kindLabel kind (operand.shift base.minted) = kindLabel kind operand := by
    rw [kindLabel, Expr.format_shift]
    rfl
  have hnew' := hr'.unruled (RuleKey.made_id (kindLabel kind operand) r'.minted)
  rw [addRule_run hr.live hnew, addRule_run hr'.live (by rw [hlabel]; exact hnew'), hlabel]
  have hkey : RuleKey.made (kindLabel kind operand) r'.minted =
      (RuleKey.made (kindLabel kind operand) r.minted).shift base.minted := by
    rw [RuleKey.shift_made, h.minted]
  have hunkinded : r'.model.kinds.get? (.made (kindLabel kind operand) r'.minted) = none :=
    get?_next (RuleKey.made_id ..) hr'.shaped.kinds
  rw [hkey] at hnew' hunkinded ⊢
  refine .well { h with
    rules := h.rules.insert (RuleKey.shift_injective _) hnew' body
    kinds := h.kinds.insert (RuleKey.shift_injective _) hunkinded kind
    stack := ?_
    minted := ?_ }
  · show r'.stack ++ [_] = _
    rw [h.stack, withKind, List.map_append, List.append_assoc]
    rfl
  · show r'.minted + 1 = _
    rw [h.minted, Nat.add_assoc]
    rfl

theorem tracks_lexeme {kind : RuleKind} {e : Expr} (he : Lexical kind e) :
    Tracks s base (addRule kind (padded e) (padded e)) := by
  refine ⟨does_lexeme he, fun r r' hr hr' h => ?_⟩
  have hfares := h.addRule hr hr' kind (padded e) (padded e)
  rwa [shift_padded he] at hfares

theorem tracks_token (v : Value) : Tracks s base (token v) := by
  cases v with
  | text t => exact tracks_lexeme (.literal t)
  | _ => exact tracks_lexeme (.misfit _ _)

theorem tracks_pattern (v : Value) : Tracks s base (pattern v) := by
  cases v with
  | text source =>
    unfold pattern Expr.pattern?
    dsimp only
    cases hregex : PatternLibrary.compile source with
    | ok regex => exact tracks_lexeme (.pattern hregex)
    | error e => exact tracks_throw _
  | _ => exact tracks_throw _

theorem tracks_wrapper (how : Wrapper) :
    Tracks s base (pop >>= fun e => addRule how.kind e (.rep how.repetition e)) := by
  refine ⟨does_wrapper how, fun r r' hr hr' h => fares_pop h fun below e hstack => ?_⟩
  exact (h.restack below).addRule (hr.moves (.single (.dropped hstack)))
    (hr'.moves (.single (.dropped (h.split hstack)))) how.kind e (.rep how.repetition e)

theorem tracks_wrapOne (how : Wrapper) (count : Nat) : Tracks s base (wrapOne how count) := by
  unfold wrapOne
  dsimp only
  split
  · exact tracks_throw _
  · cases how with
    | optional => exact tracks_wrapper .optional
    | oneOrMore => exact tracks_wrapper .oneOrMore
    | zeroOrMore => exact tracks_wrapper .zeroOrMore
  · exact tracks_throw _

/-! ### Rule methods' rules -/

/-- A key that the base has given to a method has a rule there. -/
theorem Sane.hasRule_user (hr : r.Sane s) (hp : r.pendingKey = none) {m : Method} {key : RuleKey}
    (hm : r.model.userRules.get? m = some key) : r.registry.hasRule key = true := by
  refine (hr.complete.users m key hm).resolve_right fun hk => ?_
  rw [hp] at hk; cases hk

/-- A key goes down on both sides, unless it belongs to another method there; then the base has a rule
under it. -/
theorem Over.bindKey (h : Over base r r') (hpaired : r.model.userRules.Paired)
    (hpaired' : r'.model.userRules.Paired) (hbase : base.Sane s) (hclosed : base.pendingKey = none)
    (m : Method) (k : RuleKey) :
    Fares base (bindKey m k r) (bindKey m (k.shift base.minted) r') := by
  cases hput : r.model.userRules.put m k with
  | error f =>
    obtain ⟨f', hput'⟩ := h.users.put_error hpaired hpaired' hput
    rw [bindKey_error hput, bindKey_error hput']
    exact .ill
  | ok users =>
    rw [bindKey_ok hput]
    cases hput' : r'.model.userRules.put m (k.shift base.minted) with
    | ok users' =>
      rw [bindKey_ok hput']
      exact .well { h with users := h.users.put hput hput', pending := rfl }
    | error f =>
      obtain ⟨j, hj⟩ := h.users.put_taken (RuleKey.shift_injective _) hpaired hpaired' hput hput'
      rw [bindKey_error hput']
      exact .blocked (.inr (.inr ⟨k, hbase.hasRule_user hclosed hj, .inr rfl⟩))

theorem tracks_nonterminal (hbase : base.Sane s) (hclosed : base.pendingKey = none)
    {key : Option RuleKey} (hkey : ∀ k, key = some k → k ∈ s.keys) :
    Tracks s base (nonterminal key) := by
  refine ⟨does_nonterminal hkey, fun r r' hr hr' h => ?_⟩
  by_cases hstuck : r.building = none ∨ r.pendingKey ≠ none
  · have hstuck' : r'.building = none ∨ r'.pendingKey ≠ none := by
      rw [h.building, h.pending]
      exact hstuck.imp id fun hp => by simpa using hp
    obtain ⟨f, hf⟩ := nonterminal_stuck hstuck _
    obtain ⟨f', hf'⟩ := nonterminal_stuck hstuck' _
    rw [hf, hf']
    exact .ill
  · obtain ⟨hopen, hp⟩ := not_or.mp hstuck
    obtain ⟨m, hb⟩ := Option.ne_none_iff_exists'.mp hopen
    have hp : r.pendingKey = none := Decidable.not_not.mp hp
    have hb' : r'.building = some m := h.building.trans hb
    have hp' : r'.pendingKey = none := by rw [h.pending, hp]; rfl
    cases key with
    | none =>
      have hkey : RuleKey.made (.ok m.name) r'.minted =
          (RuleKey.made (.ok m.name) r.minted).shift base.minted := by
        rw [RuleKey.shift_made, h.minted]
      have hover : Over base { r with minted := r.minted + 1 } { r' with minted := r'.minted + 1 } :=
        { h with minted := by rw [h.minted, Nat.add_assoc] }
      rw [nonterminal_new hb hp, nonterminal_new hb' hp', hkey]
      exact hover.bindKey hr.complete.paired hr'.complete.paired hbase hclosed m _
    | some k =>
      have hown : k.shift base.minted = k := RuleKey.shift_own (hr.keys k (hkey k rfl))
      have hfares := h.bindKey hr.complete.paired hr'.complete.paired hbase hclosed m k
      rwa [hown, ← nonterminal_given hb hp, ← nonterminal_given hb' hp'] at hfares

section Closing
variable {m : Method} {key : RuleKey} {e : Expr}

/-- A rule is closed on both sides, unless the base has a rule under its key. -/
theorem Over.close (h : Over base r r') (hr : r.Sane s) (hr' : r'.Sane s) (hbase : base.stack = [])
    (hb : r.building = some m) (hp : r.pendingKey = some key) (hstack : r.stack = [e]) :
    Fares base (Recorder.is r) (Recorder.is r') := by
  have hb' : r'.building = some m := h.building.trans hb
  have hp' : r'.pendingKey = some (key.shift base.minted) := by rw [h.pending, hp]; rfl
  have hstack' : r'.stack = [e.shift base.minted] := by rw [h.stack, hbase, hstack]; rfl
  have hformat : (e.shift base.minted).format = e.format := Expr.format_shift _ e
  have hclash : ∀ {log : List LogLine}, r.registry.grammar.rules.get? key = none →
      (∃ old, r'.registry.grammar.rules.get? (key.shift base.minted) = some old) →
      Clash base (r.withClosed key e log) := by
    rintro log hnew ⟨old, hold⟩
    refine .inr ⟨key, ?_, .inl (Ledger.contains_insert_self ..)⟩
    rcases h.rules.only _ old hold with hold | ⟨k₀, e₀, hk₀, -, he₀⟩
    · rw [Registry.hasRule, Ledger.contains, hold]; rfl
    · cases RuleKey.shift_injective _ hk₀
      rw [hnew] at he₀; cases he₀
  rcases is_run hr.live hb hp hstack with ⟨hnew, ⟨text, log, htext, hrun⟩ | ⟨part, f, r₁, hpart, hrun⟩⟩ |
      ⟨old, f, r₁, hold, hrun⟩
  · rcases is_run hr'.live hb' hp' hstack' with
      ⟨hnew', ⟨text', log', -, hrun'⟩ | ⟨part, f, r₁', hpart, -⟩⟩ | ⟨old, f, r₁', hold, hrun'⟩
    · rw [hrun, hrun']
      exact .well { h with
        rules := h.rules.insert (RuleKey.shift_injective _) hnew' e
        stack := by rw [hbase]; rfl
        building := rfl
        pending := rfl
        idle := fun _ => hbase }
    · rw [hformat, htext] at hpart; cases hpart
    · rw [hrun, hrun']
      exact .blocked (.inr (hclash hnew ⟨old, hold⟩))
  · rcases is_run hr'.live hb' hp' hstack' with
      ⟨-, ⟨text', log', htext', -⟩ | ⟨part', f', r₁', -, hrun'⟩⟩ | ⟨old, f', r₁', -, hrun'⟩
    · rw [hformat, hpart] at htext'; cases htext'
    · rw [hrun, hrun']; exact .ill
    · rw [hrun, hrun']; exact .ill
  · have hold' := h.rules.own key old hold
    rcases is_run hr'.live hb' hp' hstack' with ⟨hnew', -⟩ | ⟨old', f', r₁', -, hrun'⟩
    · rw [hold'] at hnew'; cases hnew'
    · rw [hrun, hrun']; exact .ill

end Closing

theorem tracks_is : Tracks s base Recorder.is := by
  refine ⟨does_is, fun r r' hr hr' h => ?_⟩
  by_cases hstuck : r.building = none ∨ r.pendingKey = none ∨ r.stack.length ≠ 1
  · obtain ⟨f, hf⟩ := is_stuck hstuck
    rw [hf]
    by_cases hbase : base.stack = []
    · have hstuck' : r'.building = none ∨ r'.pendingKey = none ∨ r'.stack.length ≠ 1 := by
        rw [h.building, h.pending, h.stack, hbase, List.nil_append, List.length_map]
        simpa using hstuck
      obtain ⟨f', hf'⟩ := is_stuck hstuck'
      rw [hf']
      exact .ill
    · exact fares_short (.inl hbase)
  · rw [not_or, not_or, Decidable.not_not] at hstuck
    obtain ⟨hopen, hpending, hlen⟩ := hstuck
    obtain ⟨m, hb⟩ := Option.ne_none_iff_exists'.mp hopen
    obtain ⟨key, hp⟩ := Option.ne_none_iff_exists'.mp hpending
    obtain ⟨e, hstack⟩ := List.length_eq_one_iff.mp hlen
    by_cases hbase : base.stack = []
    · exact h.close hr hr' hbase hb hp hstack
    · -- something below the expression is in the way over the base
      have hmore : r'.stack.length ≠ 1 := by
        rw [h.stack, hstack, List.length_append]
        have hpos := List.length_pos_iff.mpr hbase
        simp only [List.length_map, List.length_singleton]
        omega
      obtain ⟨f', hf'⟩ := is_stuck (.inr (.inr hmore))
      rw [hf']
      rcases Recorder.is r with ⟨f | _, r₁⟩
      · exact .ill
      · exact .blocked (.inl hbase)

theorem tracks_closeRule (object : String) (count : Nat) :
    Tracks s base (closeRule object count) := by
  unfold closeRule
  split
  · exact tracks_throw _
  · exact tracks_is

/-! ### Factory calls -/

section Actions
variable {m : Method} {params : List String} {n : Nat}

/-- A factory method that has a rule gets no other. -/
theorem action_used (hr : r.Sane s) {key : RuleKey} (hm : r.model.actionRules.get? m = some key)
    (params : List String) (n : Nat) : ∃ f r₁, action m params n r = (.error f, r₁) := by
  have hkey : actionKey m params r = (.ok key, r) := by
    refine (bind_of_ok (get_run r)).trans ?_
    rw [hm]
    rfl
  unfold action
  rw [bind_of_ok hkey]
  rcases replaceByRule_cases hr.live key n with ⟨-, -, -, -, hnew, -⟩ | ⟨f, below, es, -, hreplace⟩
  · have hrule := hr.complete.actions m key hm
    rw [Registry.hasRule, Ledger.contains, hnew] at hrule
    cases hrule
  · rw [bind_of_error hreplace]
    exact ⟨f, _, rfl⟩

theorem actionKey_new (hr : r.Sane s) (hm : r.model.actionRules.get? m = none) :
    actionKey m params r = (.ok (.made (actionLabel m params) r.minted), { r with
      model.actionRules :=
        ⟨r.model.actionRules.forward.insert m (.made (actionLabel m params) r.minted),
          r.model.actionRules.inverse.insert (.made (actionLabel m params) r.minted) m⟩
      minted := r.minted + 1 }) := by
  have hput := Bijection.put_new hm
    (get?_next (RuleKey.made_id (actionLabel m params) r.minted) hr.shaped.actions)
  refine (bind_of_ok (get_run r)).trans ?_
  rw [hm]
  refine (bind_of_ok (mint_run (actionLabel m params) r)).trans ?_
  refine (bind_of_ok (get_run _)).trans ?_
  dsimp only
  rw [hput]
  rfl

theorem action_short (hr : r.Sane s) (hm : r.model.actionRules.get? m = none) (params : List String)
    (hshort : r.stack.length < n) : ∃ f r₁, action m params n r = (.error f, r₁) := by
  unfold action
  rw [bind_of_ok (actionKey_new hr hm)]
  obtain ⟨f, hreplace⟩ := replaceByRule_short (.made (actionLabel m params) r.minted)
    (r := { r with
      model.actionRules :=
        ⟨r.model.actionRules.forward.insert m (.made (actionLabel m params) r.minted),
          r.model.actionRules.inverse.insert (.made (actionLabel m params) r.minted) m⟩
      minted := r.minted + 1 }) hshort
  exact ⟨f, _, bind_of_error hreplace⟩

theorem action_run (hr : r.Sane s) (hm : r.model.actionRules.get? m = none) (params : List String)
    {below es : List Expr} (hstack : r.stack = below ++ es) (hlen : es.length = n) :
    ∃ log, action m params n r = (.ok (), r.withAction (.made (actionLabel m params) r.minted) m
      (operands es) (below ++ [.call (.made (actionLabel m params) r.minted)]) log) := by
  have hnew := hr.unruled (RuleKey.made_id (actionLabel m params) r.minted)
  unfold action
  rw [bind_of_ok (actionKey_new hr hm)]
  have hreplace := replaceByRule_run (r := { r with
      model.actionRules :=
        ⟨r.model.actionRules.forward.insert m (.made (actionLabel m params) r.minted),
          r.model.actionRules.inverse.insert (.made (actionLabel m params) r.minted) m⟩
      minted := r.minted + 1 }) ⟨hr.live.unfinished, hr.live.unsealed⟩ hstack hlen hnew
  rw [bind_of_ok hreplace]
  exact ⟨_, rfl⟩

/-- A factory method's rule is added on both sides, unless the base has one for the method. -/
theorem Over.action (h : Over base r r') (hr : r.Sane s) (hr' : r'.Sane s) :
    Fares base (action m params n r) (action m params n r') := by
  cases hm : r.model.actionRules.get? m with
  | some key =>
    have hm' : r'.model.actionRules.get? m = some (key.shift base.minted) := by
      rw [h.actions m, hm]
      rfl
    obtain ⟨f, r₁, hrun⟩ := action_used hr hm params n
    obtain ⟨f', r₁', hrun'⟩ := action_used hr' hm' params n
    rw [hrun, hrun']
    exact .ill
  | none =>
    have hm' : r'.model.actionRules.get? m = base.model.actionRules.get? m := by
      rw [h.actions m, hm]
      rfl
    rcases exists_split r.stack n with hshort | ⟨below, es, hstack, hlen⟩
    · obtain ⟨f, r₁, hrun⟩ := action_short hr hm params hshort
      rw [hrun]
      refine fares_short ((h.short hshort).imp id fun hshort' => ?_)
      cases hused : base.model.actionRules.get? m with
      | none => exact action_short hr' (hm'.trans hused) params hshort'
      | some key => exact action_used hr' (hm'.trans hused) params n
    · obtain ⟨log, hrun⟩ := action_run hr hm params hstack hlen
      rw [hrun]
      cases hused : base.model.actionRules.get? m with
      | some key =>
        obtain ⟨f', r₁', hrun'⟩ := action_used hr' (hm'.trans hused) params n
        rw [hrun']
        refine .blocked (.inr (.inl ⟨m, by rw [hused]; rfl, ?_⟩))
        show ((r.model.actionRules.forward.insert m _).get? m).isSome = true
        rw [Ledger.get?_insert_self]
        rfl
      | none =>
        obtain ⟨log', hrun'⟩ := action_run hr' (hm'.trans hused) params (h.split hstack)
          (by rw [List.length_map, hlen])
        have hkey : RuleKey.made (actionLabel m params) r'.minted =
            (RuleKey.made (actionLabel m params) r.minted).shift base.minted := by
          rw [RuleKey.shift_made, h.minted]
        have hnew' := hr'.unruled (RuleKey.made_id (actionLabel m params) r'.minted)
        rw [hrun', ← shift_operands]
        rw [hkey] at hnew' ⊢
        refine .well { h with
          rules := h.rules.insert (RuleKey.shift_injective _) hnew' (operands es)
          actions := fun m' => ?_
          fewer := fun m' key hm' => ?_
          stack := ?_
          minted := ?_ }
        · show (r'.model.actionRules.forward.insert m _).get? m' =
            (((r.model.actionRules.forward.insert m _).get? m').map _).or _
          rw [Ledger.get?_insert, Ledger.get?_insert]
          split
          · rfl
          · exact h.actions m'
        · change (r.model.actionRules.forward.insert m _).get? m' = some key at hm'
          rw [Ledger.get?_insert] at hm'
          split at hm'
          · rename_i heq
            exact heq ▸ hused
          · exact h.fewer m' key hm'
        · show base.stack ++ below.map _ ++ [_] = base.stack ++ (below ++ [_]).map _
          rw [List.map_append, List.append_assoc]
          rfl
        · show r'.minted + 1 = base.minted + (r.minted + 1)
          rw [h.minted, Nat.add_assoc]

end Actions

theorem tracks_callAction {name : String} {target : ActionTarget}
    (htarget : s.actionTarget? name = some target) {args : List Value}
    (hcall : s.CallsAction name args.length) (hasNames : Bool) :
    Tracks s base (s.callAction args hasNames target) := by
  unfold callAction
  cases target with
  | recorded method signature =>
    obtain ⟨fm, hm, rfl⟩ := mem_of_actionTarget? htarget
    cases hasNames with
    | true => exact tracks_throw _
    | false =>
      dsimp only
      rw [if_neg (by simp)]
      cases hcheck : fm.signature.check args.length with
      | error why => exact tracks_throw _
      | ok _ =>
        have haction : Tracks s base (action method fm.signature.names args.length) :=
          ⟨does_action hm hcheck hcall _, fun r r' hr hr' h => h.action hr hr'⟩
        exact haction.bind fun _ => tracks_pure _
  | direct method m =>
    dsimp only
    split
    · exact tracks_pure _
    · exact tracks_throw _
  | inert type => exact tracks_throw _

/-! ### Rule methods -/

theorem tracks_callRule {m : Method} (hm : m ∈ s.grammar.methods) {body : Recording Unit}
    (hbody : Tracks s base body) : Tracks s base (callRule m body) := by
  refine ⟨does_callRule hm hbody.does, fun r r' hr hr' h => ?_⟩
  cases hb : r.building with
  | some m' =>
    rw [callRule_refers hr.live hb, callRule_refers hr'.live (h.building.trans hb)]
    have hfares := fares_push h hr.live hr'.live (.late (.method m))
    rwa [push_run hr.live, push_run hr'.live] at hfares
  | none =>
    have hb' : r'.building = none := h.building.trans hb
    refine fares_declare hb hb' (hbody.fares (hr.moves (.single (.entered hm hb)))
      (hr'.moves (.single (.entered hm hb'))) ?_)
    exact { h with building := rfl, pending := rfl, idle := nofun }

/-! ### Bodies -/

/-- A base that a body can be played on: no rule is open. -/
structure Rested (s : Stage) (base : Recorder) : Prop where
  sane : base.Sane s
  closed : base.building = none

theorem rested_start (hkeys : s.GivesOwnKeys) : Rested s {} := ⟨sane_start hkeys, rfl⟩

theorem Rested.pending (h : base.Rested s) : base.pendingKey = none := by
  cases hp : base.pendingKey with
  | none => rfl
  | some key =>
    obtain ⟨m, hm, -⟩ := h.sane.complete.pending key hp
    rw [h.closed] at hm; cases hm

theorem builds_tracks : Builds s (Tracks s base) where
  pure := tracks_pure
  throw := tracks_throw
  bind := Tracks.bind_returned
  token := tracks_token
  pattern := tracks_pattern
  wrapOne := tracks_wrapOne
  firstOf := tracks_firstOf
  callAction := fun hasNames htarget hcall => tracks_callAction htarget hcall hasNames

/-- Every call fares over the base as it does by itself. -/
theorem plays_tracks (hbase : base.Rested s) (inline : Inline) : Plays s inline (Tracks s base) where
  toBuilds := builds_tracks
  nonterminal := tracks_nonterminal hbase.sane hbase.pending
  closeRule := tracks_closeRule
  callRule := fun _ htarget hbody =>
    tracks_callRule ((of_target? htarget).2 _ _ _ rfl) (hbody.bind fun _ => tracks_pure _)
  pop := tracks_pop

/-- A body fares over the base as it does by itself. -/
theorem tracks_perform (hs : Orderly s false) (hbase : base.Rested s) (depth : Nat) (owner : String)
    {script : Script} (args : List Value) (h : s.Holds script) :
    Tracks s base (perform s depth owner script args) :=
  Plays.perform hs.pushes (outlives_of_none (hs.swallows rfl)) (tracks_throw _)
    (fun depth _ => plays_tracks hbase (perform s depth)) depth (Nat.le_refl _) owner script args h

end Recorder
end PegScribe
