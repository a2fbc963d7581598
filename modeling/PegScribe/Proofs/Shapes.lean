import PegScribe.Proofs.Moves

/-!
Shapes: what the bodies of recorded rules look like, by what recorded them.

Whatever is pushed matches as one node: it is a reference, or a choice of such expressions. So the rule
of a lexeme has three terminals in it, an optional part or a repetition repeats one node, a factory
method's rule is a row of as many nodes as the call had arguments, and a rule method's rule is one node.
`Shaped` says so of every rule on record; every move preserves it, also those that faults leave half
done.
-/
namespace PegScribe

/-! ### Expressions that match as one node -/

namespace Expr
variable {called called' : RuleKey → Prop} {e : Expr}

/-- A reference, or a choice of such expressions; references by key are to keys that are called. -/
inductive Single (called : RuleKey → Prop) : Expr → Prop
  | call {key : RuleKey} (h : called key) : Single called (.call key)
  | late (callee : Callee) : Single called (.late callee)
  | choice {alts : List Expr} (h : ∀ e ∈ alts, Single called e) : Single called (.choice alts)

theorem Single.mono (h : e.Single called) (hle : ∀ key, called key → called' key) :
    e.Single called' := by
  induction h with
  | call h => exact .call (hle _ h)
  | late callee => exact .late callee
  | choice _ ih => exact .choice ih

end Expr

namespace RuleKey

/-- If a recorder made the key, it is one of the first `n` that it made. -/
def Made (k : RuleKey) (n : Nat) : Prop := ∀ m, k.id = .minted m → m < n

theorem Made.mono {k : RuleKey} {n n' : Nat} (h : k.Made n) (hle : n ≤ n') : k.Made n' :=
  fun m hm => Nat.lt_of_lt_of_le (h m hm) hle

theorem Before.made {k : RuleKey} {n : Nat} (h : k.Before n) : k.Made n := by
  obtain ⟨m, hlt, hid⟩ := h
  intro m' hid'
  cases hid.symm.trans hid'
  exact hlt

/-- The next key is not one of those before. -/
theorem Made.ne {k k' : RuleKey} {n : Nat} (h : k.Made n) (hk' : k'.id = .minted n) : k' ≠ k := by
  rintro rfl
  exact Nat.lt_irrefl n (h n hk')

theorem made_next {k : RuleKey} {n : Nat} (hk : k.id = .minted n) : k.Made (n + 1) := by
  intro m hm
  cases hk.symm.trans hm
  exact Nat.lt_succ_self n

end RuleKey

/-- The keys that the bodies give to rules are their author's, and not made by a recorder. -/
def Stage.GivesOwnKeys (s : Stage) : Prop := ∀ key ∈ s.keys, ∀ n, key.id ≠ .minted n

/-- Bodies that give no keys at all give no made ones. -/
theorem Stage.givesOwnKeys_of_nil {s : Stage} (h : s.keys = []) : s.GivesOwnKeys := by
  intro key hkey
  rw [h] at hkey
  cases hkey

namespace Recorder
open Stage
variable {s : Stage} {r r' : Recorder} {key : RuleKey} {e : Expr}

/-! ### Shapes of rules -/

/-- The body of a factory method's rule that was recorded by a call with `n` arguments: some body of
the grammar makes that call, the method can take so many arguments, and the rule has `n` operands. -/
structure ActionShape (s : Stage) (called : RuleKey → Prop) (m : Method) (n : Nat) (body : Expr) :
    Prop where
  site : ∃ name fm, (name, (m, fm)) ∈ s.factory.methods ∧ fm.signature.check n = .ok () ∧
    s.CallsAction name n
  operands : ∃ es : List Expr, es.length = n ∧ body = operands es ∧ ∀ e ∈ es, e.Single called

theorem ActionShape.mono {called called' : RuleKey → Prop} {m : Method} {n : Nat}
    (h : ActionShape s called m n e) (hle : ∀ key, called key → called' key) :
    ActionShape s called' m n e := by
  obtain ⟨es, hlen, hbody, hes⟩ := h.operands
  exact ⟨h.site, es, hlen, hbody, fun e he => (hes e he).mono hle⟩

variable [PatternLibrary]

/-- The body of a rule that a builder call made. -/
inductive KindShape (called : RuleKey → Prop) : RuleKind → Expr → Prop
  | cut {kind : RuleKind} {e : Expr} (h : Lexical kind e) : KindShape called kind (padded e)
  | wrapped (how : Wrapper) {e : Expr} (h : e.Single called) :
    KindShape called how.kind (.rep how.repetition e)

/-- The body of a rule, by what its key stands for; any other rule is one node. -/
structure RuleShape (s : Stage) (model : Model) (called : RuleKey → Prop) (key : RuleKey)
    (body : Expr) : Prop where
  kind : ∀ kind, model.kinds.get? key = some kind → KindShape called kind body
  action : ∀ m, model.actionRules.keyOf? key = some m → ∃ n, ActionShape s called m n body
  other : model.kinds.get? key = none → model.actionRules.keyOf? key = none → body.Single called

/-- The key is that of a builder call or of a factory method. -/
def Calls (r : Recorder) (key : RuleKey) : Prop :=
  (∃ kind, r.model.kinds.get? key = some kind) ∨ ∃ m, r.model.actionRules.keyOf? key = some m

theorem KindShape.mono {called called' : RuleKey → Prop} {kind : RuleKind}
    (h : KindShape called kind e) (hle : ∀ key, called key → called' key) :
    KindShape called' kind e := by
  cases h with
  | cut h => exact .cut h
  | wrapped how h => exact .wrapped how (h.mono hle)

/-- A rule keeps its shape while its key stands for what it stood for. -/
theorem RuleShape.keep (h : RuleShape s r.model r.Calls key e)
    (hkinds : r'.model.kinds.get? key = r.model.kinds.get? key)
    (hactions : r'.model.actionRules.keyOf? key = r.model.actionRules.keyOf? key)
    (hcalls : ∀ k, r.Calls k → r'.Calls k) : RuleShape s r'.model r'.Calls key e where
  kind := fun kind hk => (h.kind kind (hkinds ▸ hk)).mono hcalls
  action := fun m hm => (h.action m (hactions ▸ hm)).imp fun _ hshape => hshape.mono hcalls
  other := fun hk hm => (h.other (hkinds ▸ hk) (hactions ▸ hm)).mono hcalls

/-! ### What every move preserves -/

/-- Rules and what is pushed have their shapes, and a key stands for one thing only: for a builder call,
for a factory method or for a rule method. -/
structure Shaped (s : Stage) (r : Recorder) : Prop where
  kinds : ∀ key kind, r.model.kinds.get? key = some kind → key.Before r.minted
  actions : ∀ key m, r.model.actionRules.keyOf? key = some m → key.Before r.minted
  users : ∀ key m, r.model.userRules.keyOf? key = some m → key.Made r.minted
  made : ∀ key e, r.registry.grammar.rules.get? key = some e → key.Made r.minted
  pending : ∀ key, r.pendingKey = some key → ∃ m, r.model.userRules.keyOf? key = some m
  userApart : ∀ key m, r.model.userRules.keyOf? key = some m →
    r.model.kinds.get? key = none ∧ r.model.actionRules.keyOf? key = none
  actionApart : ∀ key m, r.model.actionRules.keyOf? key = some m → r.model.kinds.get? key = none
  userPairs : r.model.userRules.Paired
  actionPairs : r.model.actionRules.Paired
  stack : ∀ e ∈ r.stack, e.Single r.Calls
  rules : ∀ key e, r.registry.grammar.rules.get? key = some e →
    RuleShape s r.model r.Calls key e

theorem shaped_start (s : Stage) : Shaped s {} where
  kinds := nofun
  actions := nofun
  users := nofun
  made := nofun
  pending := nofun
  userApart := nofun
  actionApart := nofun
  userPairs := fun _ _ => ⟨nofun, nofun⟩
  actionPairs := fun _ _ => ⟨nofun, nofun⟩
  stack := nofun
  rules := nofun

/-- Only the log and the open rule's marks have changed, and the stack. -/
theorem Shaped.restack (h : r.Shaped s) (hregistry : r'.registry = r.registry)
    (hmodel : r'.model = r.model) (hminted : r.minted ≤ r'.minted)
    (hpending : r'.pendingKey = none ∨ r'.pendingKey = r.pendingKey)
    (hstack : ∀ e ∈ r'.stack, e.Single r.Calls) : r'.Shaped s := by
  have hcalls : ∀ k, r.Calls k → r'.Calls k := by
    intro k hk
    unfold Calls
    rw [hmodel]
    exact hk
  constructor
  · rw [hmodel]; exact fun k kind hk => (h.kinds k kind hk).mono hminted
  · rw [hmodel]; exact fun k m hk => (h.actions k m hk).mono hminted
  · rw [hmodel]; exact fun k m hk => (h.users k m hk).mono hminted
  · rw [hregistry]; exact fun k e hk => (h.made k e hk).mono hminted
  · intro k hk
    rw [hmodel]
    rcases hpending with hnone | hsame
    · rw [hnone] at hk; cases hk
    · exact h.pending k (hsame ▸ hk)
  · rw [hmodel]; exact h.userApart
  · rw [hmodel]; exact h.actionApart
  · rw [hmodel]; exact h.userPairs
  · rw [hmodel]; exact h.actionPairs
  · exact fun e he => (hstack e he).mono hcalls
  · rw [hregistry]
    exact fun k e hk => (h.rules k e hk).keep (by rw [hmodel]) (by rw [hmodel]) hcalls

theorem Shaped.ruled (h : r.Shaped s) (hmade : key.Made r.minted)
    (hshape : RuleShape s r.model r.Calls key e) :
    Shaped s { r with registry.grammar.rules := r.registry.grammar.rules.insert key e } :=
  { h with
    made := by
      intro k e' hk
      change (r.registry.grammar.rules.insert key e).get? k = some e' at hk
      rw [Ledger.get?_insert] at hk
      split at hk
      · rename_i heq
        exact heq ▸ hmade
      · exact h.made k e' hk
    rules := by
      intro k e' hk
      change (r.registry.grammar.rules.insert key e).get? k = some e' at hk
      rw [Ledger.get?_insert] at hk
      split at hk
      · rename_i heq
        cases hk
        exact heq ▸ hshape.keep rfl rfl fun _ => id
      · exact (h.rules k e' hk).keep rfl rfl fun _ => id }

/-- A new key is given a kind. -/
theorem Shaped.kinded (h : r.Shaped s) (hid : key.id = .minted r.minted) (kind : RuleKind) :
    Shaped s { r with model.kinds := r.model.kinds.insert key kind, minted := r.minted + 1 } ∧
      ∀ k, r.Calls k → Calls
        { r with model.kinds := r.model.kinds.insert key kind, minted := r.minted + 1 } k := by
  have hle := Nat.le_succ r.minted
  have hkinds : ∀ k, key ≠ k → (r.model.kinds.insert key kind).get? k = r.model.kinds.get? k :=
    fun k hne => (Ledger.get?_insert ..).trans (if_neg hne)
  have hcalls : ∀ k, r.Calls k → Calls
      { r with model.kinds := r.model.kinds.insert key kind, minted := r.minted + 1 } k := by
    rintro k (⟨kind', hk⟩ | hk)
    · exact .inl ⟨kind', (hkinds k ((h.kinds k kind' hk).ne hid)).trans hk⟩
    · exact .inr hk
  refine ⟨?_, hcalls⟩
  exact {
    kinds := fun k kind' hk => before_of_insert hid h.kinds hk
    actions := fun k m hk => (h.actions k m hk).mono hle
    users := fun k m hk => (h.users k m hk).mono hle
    made := fun k e hk => (h.made k e hk).mono hle
    pending := h.pending
    userApart := fun k m hk =>
      ⟨(hkinds k ((h.users k m hk).ne hid)).trans (h.userApart k m hk).1, (h.userApart k m hk).2⟩
    actionApart := fun k m hk =>
      (hkinds k ((h.actions k m hk).ne hid)).trans (h.actionApart k m hk)
    userPairs := h.userPairs
    actionPairs := h.actionPairs
    stack := fun e he => (h.stack e he).mono hcalls
    rules := fun k e hk => (h.rules k e hk).keep (hkinds k ((h.made k e hk).ne hid)) rfl hcalls }

/-- A rule of a kind is added under a new key. -/
theorem Shaped.withKind (h : r.Shaped s) (hid : key.id = .minted r.minted) {kind : RuleKind}
    (hshape : KindShape r.Calls kind e) {stack : List Expr}
    (hstack : ∀ e ∈ stack, e.Single r.Calls ∨ e = .call key) :
    (r.withKind key kind e stack).Shaped s := by
  obtain ⟨hkinded, hcalls⟩ := h.kinded hid kind
  have hkey : (r.model.kinds.insert key kind).get? key = some kind := Ledger.get?_insert_self ..
  have hruled := hkinded.ruled (RuleKey.made_next hid) (e := e) {
    kind := fun kind' hk => by
      cases hkey.symm.trans hk
      exact hshape.mono hcalls
    action := fun m hm => by
      have hnone := hkinded.actionApart key m hm
      cases hkey.symm.trans hnone
    other := fun hnone _ => by cases hkey.symm.trans hnone }
  refine hruled.restack rfl rfl (Nat.le_refl _) (.inr rfl) fun e' he' => ?_
  rcases hstack e' he' with hsingle | rfl
  · exact hsingle.mono hcalls
  · exact .call (.inl ⟨kind, hkey⟩)

/-- A factory method gets a key, or has one. -/
theorem Shaped.named (h : r.Shaped s) {m : Method} {actions : Bijection Method RuleKey} {minted : Nat}
    (hnames : r.Names m key actions minted) :
    Shaped s { r with model.actionRules := actions, minted } ∧ actions.keyOf? key = some m ∧
      ∀ k, r.Calls k → Calls { r with model.actionRules := actions, minted } k := by
  rcases hnames with ⟨hm, rfl, rfl⟩ | ⟨hnone, hid, hput, rfl⟩
  · exact ⟨h, (h.actionPairs m key).mp hm, fun _ => id⟩
  · obtain ⟨-, -, hinverse⟩ := Bijection.put_ok (filled_rules.solid _) hput
    have hself : actions.keyOf? key = some m := (hinverse key).trans (if_pos rfl)
    have hothers : ∀ k, key ≠ k → actions.keyOf? k = r.model.actionRules.keyOf? k := by
      intro k hne
      rw [hinverse, if_neg hne, hnone]
      exact if_neg nofun
    have hcalls : ∀ k, r.Calls k → Calls
        { r with model.actionRules := actions, minted := r.minted + 1 } k := by
      rintro k (hk | ⟨m', hk⟩)
      · exact .inl hk
      · exact .inr ⟨m', (hothers k ((h.actions k m' hk).ne hid)).trans hk⟩
    have hle := Nat.le_succ r.minted
    refine ⟨?_, hself, hcalls⟩
    exact {
      kinds := fun k kind hk => (h.kinds k kind hk).mono hle
      actions := by
        intro k m' hk
        by_cases heq : key = k
        · subst heq
          exact before_next hid
        · exact (h.actions k m' ((hothers k heq).symm.trans hk)).mono hle
      users := fun k m' hk => (h.users k m' hk).mono hle
      made := fun k e hk => (h.made k e hk).mono hle
      pending := h.pending
      userApart := fun k m' hk => ⟨(h.userApart k m' hk).1,
        (hothers k ((h.users k m' hk).ne hid)).trans (h.userApart k m' hk).2⟩
      actionApart := by
        intro k m' hk
        by_cases heq : key = k
        · subst heq
          exact get?_next hid h.kinds
        · exact h.actionApart k m' ((hothers k heq).symm.trans hk)
      userPairs := h.userPairs
      actionPairs := h.actionPairs.put (filled_rules.solid _) hput
      stack := fun e he => (h.stack e he).mono hcalls
      rules := fun k e hk =>
        (h.rules k e hk).keep rfl (hothers k ((h.made k e hk).ne hid)) hcalls }

/-- The key of a rule that is opened stands for nothing else. -/
theorem Shaped.fresh (h : r.Shaped s) (hkeys : s.GivesOwnKeys) {minted : Nat}
    (hopens : r.Opens s key minted) : r.minted ≤ minted ∧ key.Made minted ∧
      r.model.kinds.get? key = none ∧ r.model.actionRules.keyOf? key = none := by
  rcases hopens with ⟨hgiven, rfl⟩ | ⟨hid, rfl⟩
  · have hown := hkeys key hgiven
    have hbefore : ¬ key.Before r.minted := fun ⟨n, _, hid⟩ => hown n hid
    refine ⟨Nat.le_refl _, fun n hid => absurd hid (hown n), ?_, ?_⟩
    · exact Option.eq_none_iff_forall_ne_some.mpr fun kind hk => hbefore (h.kinds key kind hk)
    · exact Option.eq_none_iff_forall_ne_some.mpr fun m hk => hbefore (h.actions key m hk)
  · exact ⟨Nat.le_succ _, RuleKey.made_next hid, get?_next hid h.kinds, get?_next hid h.actions⟩

theorem Shaped.opened (h : r.Shaped s) (hkeys : s.GivesOwnKeys) {m : Method}
    {users : Bijection Method RuleKey} {minted : Nat} (hopens : r.Opens s key minted)
    (hput : r.model.userRules.put m key = .ok users) :
    Shaped s { r with model.userRules := users, pendingKey := some key, minted } := by
  obtain ⟨hle, hmade, hkind, haction⟩ := h.fresh hkeys hopens
  obtain ⟨-, -, hinverse⟩ := Bijection.put_ok (filled_rules.solid _) hput
  -- a key with a method is the one just opened, or had its method before
  have hbound : ∀ k m', users.keyOf? k = some m' →
      key = k ∨ r.model.userRules.keyOf? k = some m' := by
    intro k m' hk
    rw [hinverse] at hk
    split at hk
    · rename_i heq
      exact .inl heq
    · split at hk
      · cases hk
      · exact .inr hk
  exact {
    kinds := fun k kind hk => (h.kinds k kind hk).mono hle
    actions := fun k m' hk => (h.actions k m' hk).mono hle
    users := by
      intro k m' hk
      rcases hbound k m' hk with rfl | hk
      · exact hmade
      · exact (h.users k m' hk).mono hle
    made := fun k e hk => (h.made k e hk).mono hle
    pending := by
      intro k hk
      cases hk
      exact ⟨m, (hinverse key).trans (if_pos rfl)⟩
    userApart := by
      intro k m' hk
      rcases hbound k m' hk with rfl | hk
      · exact ⟨hkind, haction⟩
      · exact h.userApart k m' hk
    actionApart := h.actionApart
    userPairs := h.userPairs.put (filled_rules.solid _) hput
    actionPairs := h.actionPairs
    stack := h.stack
    rules := fun k e hk => (h.rules k e hk).keep rfl rfl fun _ => id }

/-- The open rule gets its body. -/
theorem Shaped.bodied (h : r.Shaped s) (hp : r.pendingKey = some key) (hstack : r.stack = [e]) :
    Shaped s { r with registry.grammar.rules := r.registry.grammar.rules.insert key e } := by
  obtain ⟨m, hm⟩ := h.pending key hp
  obtain ⟨hkind, haction⟩ := h.userApart key m hm
  refine h.ruled (h.users key m hm) ⟨fun kind hk => ?_, fun m' hm' => ?_, fun _ _ => ?_⟩
  · cases hkind.symm.trans hk
  · cases haction.symm.trans hm'
  · exact h.stack e (by rw [hstack]; exact List.mem_singleton_self _)

theorem Shaped.split (h : r.Shaped s) {base es : List Expr} (hstack : r.stack = base ++ es) :
    (∀ e ∈ base, e.Single r.Calls) ∧ ∀ e ∈ es, e.Single r.Calls := by
  have hall := h.stack
  rw [hstack] at hall
  exact List.forall_mem_append.mp hall

/-- Every move keeps shapes, whatever a fault leaves half done. -/
theorem Move.shaped {faulty : Bool} (hmove : Move s faulty r r') (hkeys : s.GivesOwnKeys)
    (h : r.Shaped s) : r'.Shaped s := by
  have hsame : ∀ {stack : List Expr}, (∀ e ∈ stack, e.Single r.Calls) →
      Shaped s { r with stack } :=
    fun hstack => h.restack rfl rfl (Nat.le_refl _) (.inr rfl) hstack
  cases hmove with
  | noted line => exact h.restack rfl rfl (Nat.le_refl _) (.inr rfl) h.stack
  | referred hm hb => exact hsame (forall_pushed h.stack (.late _))
  | entered hm hb => exact h.restack rfl rfl (Nat.le_refl _) (.inl rfl) h.stack
  | dropped hstack => exact hsame (h.split hstack).1
  | chosen hstack =>
    obtain ⟨hbase, halts⟩ := h.split hstack
    exact hsame (forall_pushed hbase (.choice halts))
  | cut he hid hnew =>
    exact h.withKind hid (.cut he) (forall_pushed (fun e he => .inl (h.stack e he)) (.inr rfl))
  | wrapped how hstack hid hnew =>
    obtain ⟨hbase, he⟩ := h.split hstack
    exact h.withKind hid (.wrapped how (he _ (List.mem_singleton_self _)))
      (forall_pushed (fun e he => .inl (hbase e he)) (.inr rfl))
  | opened hb hp hopens hput => exact h.opened hkeys hopens hput
  | closed log hb hp hstack hnew =>
    exact (h.bodied hp hstack).restack rfl rfl (Nat.le_refl _) (.inl rfl) nofun
  | @acted name m key actions minted base es fm line hm hcheck hcall hnames hstack hnew =>
    obtain ⟨hbase, hes⟩ := h.split hstack
    obtain ⟨hnamed, hkey, hcalls⟩ := h.named hnames
    have hruled := hnamed.ruled (hnamed.actions key m hkey).made (e := operands es) {
      kind := fun kind hk => by cases (hnamed.actionApart key m hkey).symm.trans hk
      action := fun m' hm' => by
        cases hkey.symm.trans hm'
        exact ⟨es.length, ⟨name, fm, hm, hcheck, hcall⟩, es, rfl, rfl,
          fun e he => (hes e he).mono hcalls⟩
      other := fun _ hnone => by cases hkey.symm.trans hnone }
    exact hruled.restack rfl rfl (Nat.le_refl _) (.inr rfl)
      (forall_pushed (fun e he => (hbase e he).mono hcalls) (.call (.inr ⟨m, hkey⟩)))
  | skipped hf => exact h.restack rfl rfl (Nat.le_succ _) (.inr rfl) h.stack
  | kinded hf kind hid hold => exact (h.kinded hid kind).1
  | named hf hm hnames => exact (h.named hnames).1
  | stalled hf hb hp hstack hnew =>
    exact (h.bodied hp hstack).restack rfl rfl (Nat.le_refl _) (.inr rfl) nofun

/-- What recording a grammar leaves has its shapes. -/
theorem record_shaped (hpush : s.PushesNothing) (hkeys : s.GivesOwnKeys) {final : Recorder}
    (h : s.record {} = (.ok (), final)) : final.Shaped s := by
  have hs : Orderly s true := ⟨hpush, nofun⟩
  obtain ⟨last, log, hmoves, -, -, rfl, -⟩ := record_moves hs h
  have hlast : last.Shaped s :=
    hmoves.preserve (fun hmove => hmove.shaped hkeys) (shaped_start s)
  exact hlast.restack rfl rfl (Nat.le_refl _) (.inr rfl) hlast.stack

end Recorder
end PegScribe
