import PegScribe.Proofs.Moves
import PegScribe.Proofs.Rendering
import PegScribe.Regex.Library

/-!
Translation: a term as an expression and the rules that the expression stands on.

`Translates` reads a term from its parts, with no recorder and no stack in sight. A term that is played
inside a rule leaves exactly its translation behind, on top of whatever was on the stack and beside
whatever was in the registry (`recording_is_translation`). The recorder may be in any state: no fact
about how it came there is needed, only that a rule is open.
-/
namespace PegScribe.Reading
open Stage Keeping Recorder

/-! ### The translation of a term -/

/-- What a rule was made for: a builder call, or a call of a factory method. -/
inductive Origin where
  | builder (kind : RuleKind)
  | action (method : Method)

/-- The model knows what the rule of a key was made for. -/
def Origin.KnownTo (m : Model) (key : RuleKey) : Origin → Prop
  | .builder kind => m.kinds.get? key = some kind
  | .action method => m.actionRules.get? method = some key

/-- A rule that a term adds. -/
structure Addition where
  key : RuleKey
  origin : Origin
  body : Expr

mutual

/-- The term stands for the expression, given the rules. There is one rule for each lexeme, wrapper and
factory call, in the order in which the calls are made: those of the operands come first, from left to
right. -/
inductive Translates [PatternLibrary] (s : Stage) : Frame → Term → Expr → List Addition → Prop
  | token {frame arg t key} (h : plain? frame.args arg = some (.text t)) :
    Translates s frame (.token arg) (.call key) [⟨key, .builder .token, padded (.literal t)⟩]
  | pattern {frame arg t key regex} (h : plain? frame.args arg = some (.text t))
    (hregex : PatternLibrary.compile t = .ok regex) :
    Translates s frame (.pattern arg) (.call key) [⟨key, .builder .pattern, padded (.pattern t)⟩]
  | wrap {frame how t e rules key} (h : Translates s frame t e rules) :
    Translates s frame (.wrap how [t]) (.call key)
      (rules ++ [⟨key, .builder how.kind, .rep how.repetition e⟩])
  | firstOf {frame alts es rules} (h : TranslatesAll s frame alts es rules) :
    Translates s frame (.firstOf alts) (.choice es) rules
  | action {frame name args method m es rules key}
    (hm : s.factory.methods.find? (fun (n, _) => n = name) = some (name, (method, m)))
    (h : TranslatesAll s frame args es rules) :
    Translates s frame (.action name args) (.call key) (rules ++ [⟨key, .action method, operands es⟩])
  | rule {frame name args method owner body}
    (ht : s.target? name = some (.rule method owner body)) :
    Translates s frame (.call name args) (.late (.method method)) []
  | helper {frame name args owner t vs e rules} (ht : s.target? name = some (.inline owner [t]))
    (hargs : plainAll? frame.args args = some vs) (h : Translates s ⟨owner, vs⟩ t e rules) :
    Translates s frame (.call name args) e rules
  | inherited {frame name args owner t vs e rules}
    (ht : s.inheritedTarget? frame.owner name = some (.inline owner [t]))
    (hargs : plainAll? frame.args args = some vs) (h : Translates s ⟨owner, vs⟩ t e rules) :
    Translates s frame (.inherited name args) e rules

/-- Each term of a row stands for the expression at its place. -/
inductive TranslatesAll [PatternLibrary] (s : Stage) : Frame → List Term → List Expr → List Addition → Prop
  | nil {frame} : TranslatesAll s frame [] [] []
  | cons {frame t rest e es rules rules'} (h : Translates s frame t e rules)
    (hrest : TranslatesAll s frame rest es rules') :
    TranslatesAll s frame (t :: rest) (e :: es) (rules ++ rules')

end

/-! ### What a recorder gains -/

/-- Expressions came onto the stack and rules into the registry, at the end of both. The keys of the
rules are new, the model knows what each was made for, and nothing else has changed but the log and
the count of keys. -/
structure Gains (r r' : Recorder) (es : List Expr) (rules : List Addition) : Prop where
  stack : r'.stack = r.stack ++ es
  entries : r'.registry.grammar.rules.entries =
    r.registry.grammar.rules.entries ++ rules.map fun a => (a.key, a.body)
  fresh : ∀ a ∈ rules, r.registry.grammar.rules.get? a.key = none
  distinct : (rules.map (·.key)).Nodup
  origins : ∀ a ∈ rules, a.origin.KnownTo r'.model a.key
  kinds : ∀ key ∉ rules.map (·.key), r'.model.kinds.get? key = r.model.kinds.get? key
  actions : ∀ method key, r.model.actionRules.get? method = some key →
    r'.model.actionRules.get? method = some key
  users : r'.model.userRules = r.model.userRules
  registry : r'.registry = { r.registry with grammar.rules := r'.registry.grammar.rules }
  building : r'.building = r.building
  pending : r'.pendingKey = r.pendingKey

section Gains
variable {r r₁ r' : Recorder} {es es' : List Expr} {rules rules' : List Addition}

theorem Gains.nil (r : Recorder) : Gains r r [] [] where
  stack := (List.append_nil _).symm
  entries := (List.append_nil _).symm
  fresh := nofun
  distinct := List.nodup_nil
  origins := nofun
  kinds := fun _ _ => rfl
  actions := fun _ _ => id
  users := rfl
  registry := rfl
  building := rfl
  pending := rfl

theorem Gains.mem_keys (h : Gains r r' es rules) {key : RuleKey} :
    key ∈ r'.registry.grammar.rules.keys ↔
      key ∈ r.registry.grammar.rules.keys ∨ key ∈ rules.map (·.key) := by
  simp [Ledger.keys, h.entries]

theorem Gains.append (h : Gains r r₁ es rules) (h' : Gains r₁ r' es' rules') :
    Gains r r' (es ++ es') (rules ++ rules') := by
  -- a rule of the second part is new to the registry that holds those of the first
  have hlater : ∀ a ∈ rules', a.key ∉ r.registry.grammar.rules.keys ∧ a.key ∉ rules.map (·.key) := by
    intro a ha
    have hnew := Ledger.get?_eq_none_iff.mp (h'.fresh a ha)
    rw [h.mem_keys] at hnew
    exact not_or.mp hnew
  have hapart : ∀ key ∈ rules.map (·.key), key ∉ rules'.map (·.key) := by
    intro key hkey hmem
    obtain ⟨a, ha, rfl⟩ := List.mem_map.mp hmem
    exact (hlater a ha).2 hkey
  constructor
  · rw [h'.stack, h.stack, List.append_assoc]
  · rw [h'.entries, h.entries, List.map_append, List.append_assoc]
  · intro a ha
    rcases List.mem_append.mp ha with ha | ha
    · exact h.fresh a ha
    · exact Ledger.get?_eq_none_iff.mpr (hlater a ha).1
  · rw [List.map_append]
    exact List.nodup_append.mpr ⟨h.distinct, h'.distinct, fun key hkey key' hkey' heq =>
      hapart key hkey (heq ▸ hkey')⟩
  · intro a ha
    rcases List.mem_append.mp ha with ha | ha
    · have hknown := h.origins a ha
      cases horigin : a.origin with
      | builder kind =>
        rw [horigin] at hknown
        exact (h'.kinds _ (hapart _ (List.mem_map_of_mem ha))).trans hknown
      | action method =>
        rw [horigin] at hknown
        exact h'.actions _ _ hknown
    · exact h'.origins a ha
  · intro key hkey
    rw [List.map_append, List.mem_append, not_or] at hkey
    exact (h'.kinds key hkey.2).trans (h.kinds key hkey.1)
  · exact fun method key hm => h'.actions _ _ (h.actions _ _ hm)
  · exact h'.users.trans h.users
  · rw [h'.registry, h.registry]
  · exact h'.building.trans h.building
  · exact h'.pending.trans h.pending

/-- The expressions that were gained give way to others. -/
theorem Gains.restack (h : Gains r r₁ es rules) {stack : List Expr} (hstack : stack = r.stack ++ es') :
    Gains r { r₁ with stack } es' rules :=
  ⟨hstack, h.entries, h.fresh, h.distinct, h.origins, h.kinds, h.actions, h.users, h.registry,
    h.building, h.pending⟩

/-- What is gained once the operands have been taken off is gained in their place. -/
theorem Gains.replace (h : Gains r r₁ es rules) (h' : Gains { r₁ with stack := r.stack } r' es' rules') :
    Gains r r' es' (rules ++ rules') :=
  (h.restack (List.append_nil r.stack).symm).append h'

/-- The operands are there to be replaced: the stack below them is as it was. -/
theorem Gains.operands (h : Gains r r₁ es rules) {base : List Expr} (hstack : r₁.stack = base ++ es')
    (hlen : es'.length = es.length) : base = r.stack ∧ es' = es :=
  operands_of_stack (h.stack.symm.trans hstack) hlen

end Gains

/-! ### Calls, one by one -/

section Calls
variable {r r' : Recorder}

/-- A rule of a kind is added. -/
theorem gains_withKind (r : Recorder) {key : RuleKey} (hnew : r.registry.grammar.rules.get? key = none)
    (kind : RuleKind) (body : Expr) :
    Gains r (r.withKind key kind body (r.stack ++ [.call key])) [.call key]
      [⟨key, .builder kind, body⟩] where
  stack := rfl
  entries := Ledger.entries_insert_new hnew body
  fresh := by simpa using hnew
  distinct := by simp
  origins := by
    intro a ha
    cases List.mem_singleton.mp ha
    exact Ledger.get?_insert_self ..
  kinds := by
    intro k hk
    have hne : key ≠ k := fun heq => hk (by simp [heq])
    exact (Ledger.get?_insert ..).trans (if_neg hne)
  actions := fun _ _ => id
  users := rfl
  registry := rfl
  building := rfl
  pending := rfl

/-- A factory method's rule is added, under the key that the method has or gets. -/
theorem gains_action {method : Method} {params : List String} {n : Nat}
    (h : action method params n r = (.ok (), r')) : ∃ base es key,
      r.stack = base ++ es ∧ es.length = n ∧
      Gains { r with stack := base } r' [.call key] [⟨key, .action method, Recorder.operands es⟩] := by
  obtain ⟨key, r₁, hkey, h⟩ := bind_eq_ok.mp h
  obtain ⟨_, r₂, hreplace, h⟩ := bind_eq_ok.mp h
  obtain ⟨base, es, hstack, hlen, hnew, rfl⟩ := replaceByRule_ok hreplace
  cases h
  rcases actionKey_cases method params r with ⟨key', actions, minted, hnames, hrun⟩ | ⟨f, hrun⟩
  · cases hrun.symm.trans hkey
    have hactions : actions.get? method = some key ∧
        ∀ m k, r.model.actionRules.get? m = some k → actions.get? m = some k := by
      rcases hnames with ⟨hm, rfl, -⟩ | ⟨hm, -, hput, -⟩
      · exact ⟨hm, fun _ _ => id⟩
      · obtain ⟨-, hforward, -⟩ := Bijection.put_ok (filled_rules.solid _) hput
        unfold Bijection.get?
        rw [hforward]
        exact ⟨Ledger.get?_insert_self .., fun _ _ => Ledger.get?_insert_new hm⟩
    refine ⟨base, es, key, hstack, hlen, ?_⟩
    constructor
    · rfl
    · exact Ledger.entries_insert_new hnew _
    · simpa using hnew
    · simp
    · intro a ha
      cases List.mem_singleton.mp ha
      exact hactions.1
    · exact fun _ _ => rfl
    · exact hactions.2
    all_goals rfl
  · cases hrun.symm.trans hkey

end Calls

/-! ### Terms -/

section Library
variable [PatternLibrary]

/-- Whenever the term is played well inside a rule, what the recorder gains is its translation. -/
def Records (s : Stage) (frame : Frame) (t : Term) : Prop :=
  ∀ depth r v r', play s (perform s depth) frame t r = (.ok v, r') → r.building.isSome = true →
    ∃ e rules, Translates s frame t e rules ∧ Gains r r' [e] rules

section Terms
variable {s : Stage} {frame : Frame}

/-- A row of terms gains what its terms gain, from left to right. -/
theorem playAll_records {depth : Nat} : ∀ {ts : List Term} {r r' : Recorder} {vs : List Value},
    (∀ t ∈ ts, Records s frame t) → playAll s (perform s depth) frame ts r = (.ok vs, r') →
    r.building.isSome = true →
    ∃ es rules, TranslatesAll s frame ts es rules ∧ Gains r r' es rules ∧ vs.length = es.length
  | [], r, r', vs, _, h, _ => by
    rw [playAll] at h
    cases h
    exact ⟨[], [], .nil, .nil r, rfl⟩
  | t :: rest, r, r', vs, hts, h, hb => by
    rw [playAll] at h
    obtain ⟨v, r₁, ht, h⟩ := bind_eq_ok.mp h
    obtain ⟨vs', r₂, hrest, h⟩ := bind_eq_ok.mp h
    cases h
    obtain ⟨e, rules, htrans, hgains⟩ := hts t (List.mem_cons_self ..) _ _ _ _ ht hb
    obtain ⟨es, rules', htrans', hgains', hlen⟩ :=
      playAll_records (fun t hmem => hts t (List.mem_cons_of_mem _ hmem)) hrest
        (hgains.building ▸ hb)
    exact ⟨e :: es, rules ++ rules', .cons htrans htrans', hgains.append hgains',
      congrArg (· + 1) hlen⟩

theorem records_token {arg : Term} {t : String} (harg : plain? frame.args arg = some (.text t)) :
    Records s frame (.token arg) := by
  intro depth r v r' h _
  obtain ⟨key, -, hnew, rfl⟩ := addRule_ok (play_token_ok harg h)
  exact ⟨.call key, _, .token harg, gains_withKind r hnew ..⟩

theorem records_pattern {arg : Term} {t : String} (harg : plain? frame.args arg = some (.text t)) :
    Records s frame (.pattern arg) := by
  intro depth r v r' h _
  obtain ⟨⟨regex, hregex⟩, hpattern⟩ := play_pattern_ok harg h
  obtain ⟨key, -, hnew, rfl⟩ := addRule_ok hpattern
  exact ⟨.call key, _, .pattern harg hregex, gains_withKind r hnew ..⟩

theorem records_wrap {how : Wrapper} {t : Term} (ht : Records s frame t) :
    Records s frame (.wrap how [t]) := by
  intro depth r v r' h hb
  obtain ⟨vs, r₁, hargs, hwrap⟩ := play_wrap_ok h
  obtain ⟨_, _, htrans, hgains, hlen⟩ := playAll_records (by simpa using ht) hargs hb
  obtain _ | ⟨htrans, hnil⟩ := htrans
  cases hnil
  rw [hlen] at hwrap
  obtain ⟨base, e', key, hstack, -, hnew, rfl⟩ := wrapOne_ok hwrap
  obtain ⟨rfl, heq⟩ := hgains.operands hstack rfl
  cases heq
  rw [List.append_nil] at hgains
  exact ⟨.call key, _, .wrap htrans, hgains.replace (gains_withKind { r₁ with stack := r.stack } hnew ..)⟩

theorem records_firstOf {alts : List Term} (halts : ∀ t ∈ alts, Records s frame t) :
    Records s frame (.firstOf alts) := by
  intro depth r v r' h hb
  obtain ⟨vs, r₁, hargs, hfirst⟩ := play_firstOf_ok h
  obtain ⟨es, rules, htrans, hgains, hlen⟩ := playAll_records halts hargs hb
  obtain ⟨base, es', hstack, hlen', rfl⟩ := firstOf_ok hfirst
  obtain ⟨rfl, rfl⟩ := hgains.operands hstack (hlen'.trans hlen)
  exact ⟨.choice es', rules, .firstOf htrans, hgains.restack rfl⟩

theorem records_action {name : String} {args : List Term} {method : Method} {m : FactoryMethod}
    (hm : s.factory.methods.find? (fun (n, _) => n = name) = some (name, (method, m)))
    (hargs : ∀ t ∈ args, Records s frame t) : Records s frame (.action name args) := by
  intro depth r v r' h hb
  obtain ⟨vs, r₁, hplay, haction⟩ := play_action_ok hm h
  obtain ⟨es, rules, htrans, hgains, hlen⟩ := playAll_records hargs hplay hb
  obtain ⟨base, es', key, hstack, hlen', hgains'⟩ := gains_action haction
  obtain ⟨rfl, rfl⟩ := hgains.operands hstack (hlen'.trans hlen)
  exact ⟨.call key, _, .action hm htrans, hgains.replace hgains'⟩

theorem records_rule {name : String} {args : List Term} {vs : List Value} {method : Method}
    {owner : String} {body : Script} (ht : s.target? name = some (.rule method owner body))
    (hargs : plainAll? frame.args args = some vs) : Records s frame (.call name args) := by
  intro depth r v r' h hb
  obtain rfl := play_rule_ok ht hargs hb h
  exact ⟨.late (.method method), [], .rule ht, (Gains.nil r).restack rfl⟩

theorem records_helper {name : String} {args : List Term} {vs : List Value} {owner : String}
    {t : Term} (htarget : s.target? name = some (.inline owner [t]))
    (hargs : plainAll? frame.args args = some vs) (ht : Records s ⟨owner, vs⟩ t) :
    Records s frame (.call name args) := by
  intro depth r v r' h hb
  obtain ⟨depth', v', hterm⟩ := perform_one_ok (play_helper_ok htarget hargs h)
  obtain ⟨e, rules, htrans, hgains⟩ := ht _ _ _ _ hterm hb
  exact ⟨e, rules, .helper htarget hargs htrans, hgains⟩

theorem records_inherited {name : String} {args : List Term} {vs : List Value} {owner : String}
    {t : Term} (htarget : s.inheritedTarget? frame.owner name = some (.inline owner [t]))
    (hargs : plainAll? frame.args args = some vs) (ht : Records s ⟨owner, vs⟩ t) :
    Records s frame (.inherited name args) := by
  intro depth r v r' h hb
  obtain ⟨depth', v', hterm⟩ := perform_one_ok (play_inherited_ok htarget hargs h)
  obtain ⟨e, rules, htrans, hgains⟩ := ht _ _ _ _ hterm hb
  exact ⟨e, rules, .inherited htarget hargs htrans, hgains⟩

end Terms

/-- Recording a term is its translation: from any recorder with an open rule, whatever is on its stack,
a term that is played without a fault leaves one more expression on the stack and at the end of the
registry the rules of its translation, and no others. -/
theorem recording_is_translation (s : Stage) (frame : Frame) (t : Term) (ht : Builder s frame t)
    (depth : Nat) (r r' : Recorder) (v : Value) (hopen : r.building.isSome = true)
    (hplay : play s (perform s depth) frame t r = (.ok v, r')) :
    ∃ e rules, Translates s frame t e rules ∧ Gains r r' [e] rules := by
  suffices h : Records s frame t from h depth r v r' hplay hopen
  clear hplay
  induction ht with
  | token h => exact records_token h
  | pattern h => exact records_pattern h
  | wrap _ ih => exact records_wrap ih
  | firstOf _ ih => exact records_firstOf ih
  | action hm _ ih => exact records_action hm ih
  | rule ht hargs => exact records_rule ht hargs
  | helper ht hargs _ ih => exact records_helper ht hargs ih
  | inherited ht hargs _ ih => exact records_inherited ht hargs ih

end Library

/-- A grammar with a rule method and a helper, and a factory with methods of no, one and two operands. -/
def paired : Stage where
  grammar :=
    [{ name := "PairGrammar", bases := ["GrammarBase"],
       members := ⟨[
        ("start", .method []),
        ("_end", .method [.token (.value (.text ";"))])]⟩ },
      grammarBase, ClassDecl.top]
  factory :=
    [{ name := "PairFactory", bases := ["object"],
       members := ⟨[
        ("empty", .method ⟨.required [], Behaviour.none⟩),
        ("one", .method ⟨.required ["item"], Behaviour.nth 0⟩),
        ("pair", .method ⟨.required ["items", "end"], Behaviour.nth 0⟩)]⟩ },
      ClassDecl.top]

/-- A pair of many items and an end; an item is the rule method's, or empty. -/
def pairTerm : Term :=
  .action "pair" [
    .wrap .zeroOrMore [.firstOf [.action "one" [.call "start" []], .action "empty" []]],
    .call "_end" []]

theorem recording_is_translation_paired : ∃ v r', play paired (perform paired 1) ⟨"PairGrammar", []⟩
      pairTerm { stack := [.literal "below"], building := some ⟨"PairGrammar.start"⟩ } =
        (.ok v, r') ∧
    ∃ one empty items stop pair, r'.stack = [.literal "below", .call pair] ∧
      r'.registry.grammar.rules.entries = [
        (one, .late (.method ⟨"PairGrammar.start"⟩)),
        (empty, .seq []),
        (items, .rep .zeroOrMore (.choice [.call one, .call empty])),
        (stop, padded (.literal ";")),
        (pair, .seq [.call items, .call stop])] := by
  have hstart : paired.target? "start" = some (.rule ⟨"PairGrammar.start"⟩ "PairGrammar" []) := by
    with_unfolding_all rfl
  have hend : paired.target? "_end" = some (.inline "PairGrammar" [.token (.value (.text ";"))]) := by
    with_unfolding_all rfl
  have ht : Builder paired ⟨"PairGrammar", []⟩ pairTerm := by
    refine .action (by with_unfolding_all rfl) fun t ht => ?_
    simp only [List.mem_cons, List.not_mem_nil, or_false] at ht
    rcases ht with rfl | rfl
    · refine .wrap (.firstOf fun t ht => ?_)
      simp only [List.mem_cons, List.not_mem_nil, or_false] at ht
      rcases ht with rfl | rfl
      · refine .action (by with_unfolding_all rfl) fun t ht => ?_
        rw [List.mem_singleton.mp ht]
        exact .rule hstart rfl
      · exact .action (by with_unfolding_all rfl) nofun
    · exact .helper hend rfl (.token rfl)
  have hok : (play paired (perform paired 1) ⟨"PairGrammar", []⟩ pairTerm
      { stack := [.literal "below"], building := some ⟨"PairGrammar.start"⟩ }).1.isOk = true := by
    decide +kernel
  generalize hrun : play paired (perform paired 1) ⟨"PairGrammar", []⟩ pairTerm _ = run at hok ⊢
  obtain ⟨result, r'⟩ := run
  cases result with
  | error f => cases hok
  | ok v =>
    obtain ⟨e, rules, htrans, hgains⟩ := recording_is_translation paired _ _ ht 1 _ r' _ rfl hrun
    refine ⟨v, r', rfl, ?_⟩
    -- the translation is read off the term, one call after the other
    cases htrans with | action _ hall =>
    cases hall with | cons hitems hall =>
    cases hall with | cons hstop hnil =>
    cases hnil
    cases hitems with | wrap hchoice =>
    cases hchoice with | firstOf hitems =>
    cases hitems with | cons hone hitems =>
    cases hitems with | cons hempty hnil =>
    cases hnil
    cases hone with | action _ hall =>
    cases hall with | cons hlate hnil =>
    cases hnil
    cases hempty with | action _ hnil =>
    cases hnil
    cases hlate with
    | helper hinline => cases hstart.symm.trans hinline
    | rule hrule =>
      cases hstart.symm.trans hrule
      cases hstop with
      | rule hrule => cases hend.symm.trans hrule
      | helper hinline _ htoken =>
        cases hend.symm.trans hinline
        cases htoken with | token htext =>
        cases htext
        exact ⟨_, _, _, _, _, hgains.stack, hgains.entries⟩

end PegScribe.Reading
