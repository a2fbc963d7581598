import PegScribe.Proofs.Alike
import PegScribe.Proofs.Linkable

/-!
Histories: what a registry goes through after it has been built, and what stays of it.

Builders that were kept from before can still add rules, the root can be moved, and the rules can be
linked again, also in vain. A rule that was linked refers only to rules that were there with it
(`link_closed`), so linking it again leaves it as it is, and no later rule can come into its reach. Runs
from the rules of the first build mirror each other before and after.
-/
namespace PegScribe

/-! ### Closed expressions -/

/-- All references are by key, to known keys. -/
def Expr.Closed (known : RuleKey → Prop) (e : Expr) : Prop :=
  ∀ ref ∈ e.references, ∃ key, ref = .call key ∧ known key

section Closed
variable {known : RuleKey → Prop}

theorem closed_cons {e : Expr} {es : List Expr}
    (h : ∀ ref ∈ Expr.referencesAll (e :: es), ∃ key, ref = .call key ∧ known key) :
    e.Closed known ∧ ∀ ref ∈ Expr.referencesAll es, ∃ key, ref = .call key ∧ known key :=
  ⟨fun ref href => h ref (List.mem_append_left _ href),
    fun ref href => h ref (List.mem_append_right _ href)⟩

mutual

/-- A closed expression is like itself, each key standing for itself alone. -/
theorem Expr.Closed.alike : ∀ {e : Expr}, e.Closed known →
    e.Alike (fun key key' => key' = key ∧ known key) e
  | .literal t, _ => .literal t
  | .pattern source, _ => .pattern source
  | .misfit shown type, _ => .misfit shown type
  | .foreign shown, _ => .foreign shown
  | .call key, h => by
    obtain ⟨key', heq, hkey⟩ := h (.call key) (List.mem_singleton_self _)
    cases heq
    exact .call ⟨rfl, hkey⟩
  | .late callee, _ => .late callee
  | .rep how body, h => .rep how (Expr.Closed.alike (e := body) h)
  | .seq _, h => .seq (alikeAll_of_closed h)
  | .choice _, h => .choice (alikeAll_of_closed h)

theorem alikeAll_of_closed : ∀ {es : List Expr},
    (∀ ref ∈ Expr.referencesAll es, ∃ key, ref = .call key ∧ known key) →
    List.Forall₂ (Expr.Alike fun key key' => key' = key ∧ known key) es es
  | [], _ => .nil
  | _ :: _, h => .cons (closed_cons h).1.alike (alikeAll_of_closed (closed_cons h).2)

end

mutual

/-- Nothing is left to resolve in a closed expression. -/
theorem Expr.Closed.resolved (resolve : Resolver) : ∀ {e : Expr}, e.Closed known →
    e.resolved resolve = e
  | .literal _, _ => rfl
  | .pattern _, _ => rfl
  | .misfit _ _, _ => rfl
  | .foreign _, _ => rfl
  | .call _, _ => rfl
  | .late callee, h => by
    obtain ⟨key, heq, -⟩ := h (.late callee) (List.mem_singleton_self _)
    cases heq
  | .rep how body, h => by
    rw [Expr.resolved, Expr.Closed.resolved resolve (e := body) h]
  | .seq _, h => by rw [Expr.resolved, resolvedAll_of_closed resolve h]
  | .choice _, h => by rw [Expr.resolved, resolvedAll_of_closed resolve h]

theorem resolvedAll_of_closed (resolve : Resolver) : ∀ {es : List Expr},
    (∀ ref ∈ Expr.referencesAll es, ∃ key, ref = .call key ∧ known key) →
    Expr.resolvedAll resolve es = es
  | [], _ => rfl
  | _ :: _, h => by
    rw [Expr.resolvedAll, (closed_cons h).1.resolved resolve,
      resolvedAll_of_closed resolve (closed_cons h).2]

end

end Closed

/-! ### Linked rules are closed -/

section Link
variable {g : Grammar} {resolve : Resolver}

/-- The key has a rule. -/
def Grammar.Has (g : Grammar) (key : RuleKey) : Prop := g.rules.contains key = true

theorem registered_has {key key' : RuleKey} (h : registered g key = .ok key') :
    key' = key ∧ g.Has key := by
  unfold registered at h
  split at h
  · rename_i hkey
    cases h
    exact ⟨rfl, hkey⟩
  · cases h

theorem closed_call {key : RuleKey} (h : g.Has key) : (Expr.call key).Closed g.Has := by
  intro ref href
  exact ⟨key, List.mem_singleton.mp href, h⟩

variable [PatternLibrary]

mutual

/-- What linking leaves refers only to rules of the grammar. -/
theorem link_closed : ∀ {e : Expr} {t : PatternTable} {linked : Expr × PatternTable},
    e.link g resolve t = .ok linked → linked.1.Closed g.Has
  | .literal _, _, _, h => by cases h; exact nofun
  | .misfit _ _, _, _, h => by cases h; exact nofun
  | .foreign _, _, _, h => by cases h; exact nofun
  | .pattern source, t, linked, h => by
    obtain ⟨⟨r, t'⟩, -, h⟩ := Expr.bind_ok h
    cases h
    exact nofun
  | .call key, t, linked, h => by
    obtain ⟨key', hkey, h⟩ := Expr.bind_ok h
    cases h
    obtain ⟨rfl, hhas⟩ := registered_has hkey
    exact closed_call hhas
  | .late callee, t, linked, h => by
    rw [Expr.link] at h
    cases hfound : resolve callee with
    | none => rw [hfound] at h; cases h
    | some key =>
      rw [hfound] at h
      obtain ⟨key', hkey, h⟩ := Expr.bind_ok h
      cases h
      obtain ⟨rfl, hhas⟩ := registered_has hkey
      exact closed_call hhas
  | .rep how body, t, linked, h => by
    obtain ⟨⟨body', t'⟩, hbody, h⟩ := Expr.bind_ok h
    cases h
    exact (link_closed hbody :)
  | .seq items, t, linked, h => by
    obtain ⟨⟨items', t'⟩, hitems, h⟩ := Expr.bind_ok h
    cases h
    exact linkAll_closed hitems
  | .choice alts, t, linked, h => by
    obtain ⟨⟨alts', t'⟩, halts, h⟩ := Expr.bind_ok h
    cases h
    exact linkAll_closed halts

theorem linkAll_closed : ∀ {es : List Expr} {t : PatternTable} {linked : List Expr × PatternTable},
    Expr.linkAll g resolve es t = .ok linked →
    ∀ ref ∈ Expr.referencesAll linked.1, ∃ key, ref = .call key ∧ g.Has key
  | [], t, linked, h => by cases h; exact nofun
  | e :: rest, t, linked, h => by
    obtain ⟨⟨e', t₁⟩, he, h⟩ := Expr.bind_ok h
    obtain ⟨⟨rest', t₂⟩, hrest, h⟩ := Expr.bind_ok h
    cases h
    intro ref href
    rcases List.mem_append.mp href with href | href
    · exact link_closed he ref href
    · exact linkAll_closed hrest ref href

end

theorem linkRules_closed : ∀ {rules : List (RuleKey × Expr)} {t t' : PatternTable},
    (linkRules g resolve rules t).2 = .ok t' →
    ∀ rule ∈ (linkRules g resolve rules t).1, rule.2.Closed g.Has
  | [], _, _, _, _, h => by cases h
  | (key, e) :: rest, t, t', h, rule, hrule => by
    unfold linkRules at h hrule
    cases hlink : e.link g resolve t with
    | error f => rw [hlink] at h; cases h
    | ok linked =>
      rw [hlink] at h hrule
      rcases List.mem_cons.mp hrule with rfl | hrule
      · exact link_closed hlink
      · exact linkRules_closed h rule hrule

/-- Linking again leaves a closed rule as it is, whatever becomes of the others. -/
theorem valueIn_linkRules {known : RuleKey → Prop} {key : RuleKey} {e : Expr} (he : e.Closed known) :
    ∀ {rules : List (RuleKey × Expr)} {t : PatternTable}, Ledger.valueIn rules key = some e →
    Ledger.valueIn (linkRules g resolve rules t).1 key = some e
  | (k, body) :: rest, t, h => by
    unfold linkRules
    cases hlink : body.link g resolve t with
    | error f => exact h
    | ok linked =>
      rw [Ledger.valueIn] at h
      show Ledger.valueIn ((k, linked.1) :: (linkRules g resolve rest linked.2).1) key = some e
      rw [Ledger.valueIn, (Expr.link_ok hlink).1]
      split at h
      · rename_i hk
        cases h
        rw [if_pos hk, he.resolved resolve]
      · rename_i hk
        rw [if_neg hk]
        exact valueIn_linkRules he h

end Link

/-! ### Histories -/

namespace Registry

/-- What can be done with a registry. -/
inductive Op where
  /-- Gives a rule its body, by a builder that was kept. -/
  | close (key : RuleKey) (e : Expr)
  /-- Opens a rule and gives it its body. -/
  | define (key : RuleKey) (e : Expr)
  | setRoot (key : Option RuleKey)
  | build (resolve : Resolver)

variable {built r : Registry}

/-- The rules are closed among themselves. -/
def Settled (r : Registry) : Prop :=
  ∀ key e, r.grammar.rules.get? key = some e → e.Closed r.grammar.Has

/-- The rules of a registry stand in another as they were. -/
def Keeps (built r : Registry) : Prop :=
  ∀ key e, built.grammar.rules.get? key = some e → r.grammar.rules.get? key = some e

theorem Keeps.close (h : built.Keeps r) (key : RuleKey) (e : Expr) :
    built.Keeps ((r.close key e).toOption.getD r) := by
  unfold Registry.close Ledger.contains
  cases hold : r.grammar.rules.get? key with
  | some old => exact h
  | none => exact fun k body hk => Ledger.get?_insert_new hold (h k body hk)

theorem Keeps.define (h : built.Keeps r) (key : RuleKey) (e : Expr) :
    built.Keeps ((r.define key e).toOption.getD r) := by
  unfold Registry.define openRule
  cases r.isSealed with
  | true => exact h
  | false => exact h.close key e

section Library
variable [PatternLibrary]

/-- What an operation leaves, whether it goes well or not. -/
def after (r : Registry) : Op → Registry
  | .close key e => (r.close key e).toOption.getD r
  | .define key e => (r.define key e).toOption.getD r
  | .setRoot key => r.setRoot key
  | .build resolve => (r.build resolve).2

/-- The program that an operation hands out. -/
def handsOut (r : Registry) : Op → Option Program
  | .build resolve => (r.build resolve).1.toOption
  | _ => none

/-- What a row of operations leaves, and the programs that they hand out. -/
def history (r : Registry) : List Op → Registry × List Program
  | [] => (r, [])
  | op :: rest =>
    let (last, programs) := (r.after op).history rest
    (last, (r.handsOut op).toList ++ programs)

/-- Runs the rule of a key, as the registry stands, with patterns that were compiled before. -/
def runFrom (r : Registry) (patterns : PatternTable) (key : RuleKey) (depth : Nat) (source : Source) :
    Except Fault Outcome :=
  Program.runWithin ⟨{ r.grammar with root := some key }, patterns⟩ depth source

theorem settled_of_build {resolve : Resolver} {p : Program} (h : r.build resolve = (.ok p, built)) :
    built.Settled := by
  obtain ⟨table, hlink, -⟩ := of_build h
  have hgrammar : built.grammar = { r.grammar with
      rules := ⟨(linkRules r.grammar resolve r.grammar.rules.entries {}).1⟩ } := by
    unfold build at h
    cases hroot : r.grammar.root with
    | none => rw [hroot] at h; cases h
    | some root =>
      rw [hroot] at h
      dsimp only at h
      rw [hlink] at h
      dsimp only at h
      split at h
      · cases h
      · cases h; rfl
  intro key e hkey
  rw [hgrammar] at hkey
  intro ref href
  obtain ⟨k, hk, hhas⟩ := linkRules_closed hlink (key, e) (Ledger.mem_entries_of_get? hkey) ref href
  refine ⟨k, hk, ?_⟩
  unfold Grammar.Has
  rw [hgrammar]
  exact (contains_linked hlink k).trans hhas

theorem Keeps.build (hbuilt : built.Settled) (h : built.Keeps r) (resolve : Resolver) :
    built.Keeps (r.build resolve).2 := by
  have hrules : ∀ k e, built.grammar.rules.get? k = some e → Ledger.get?
      ⟨(linkRules r.grammar resolve r.grammar.rules.entries {}).1⟩ k = some e :=
    fun k e hk => valueIn_linkRules (hbuilt k e hk) (h k e hk)
  unfold Registry.build
  cases hroot : r.grammar.root with
  | none => exact h
  | some root =>
    dsimp only
    split
    · exact hrules
    · split <;> exact hrules

theorem Keeps.after (hbuilt : built.Settled) (h : built.Keeps r) (op : Op) :
    built.Keeps (r.after op) := by
  cases op with
  | close key e => exact h.close key e
  | define key e => exact h.define key e
  | setRoot key => exact h
  | build resolve => exact h.build hbuilt resolve

/-- No history takes a rule away or changes it. -/
theorem Keeps.history (hbuilt : built.Settled) : ∀ {r : Registry}, built.Keeps r → ∀ ops,
    built.Keeps (r.history ops).1
  | _, h, [] => h
  | _, h, op :: rest => (h.after hbuilt op).history hbuilt rest

theorem meaning?_of_build {resolve : Resolver} {p : Program} {r' : Registry}
    (h : r.build resolve = (.ok p, r')) :
    p.patterns.meaning? = fun s => (PatternLibrary.compile s).toOption :=
  funext (build_ok h).patterns

/-- In the table of every program that is handed out patterns mean what their notation says. -/
theorem meaning?_of_history {q : Program} : ∀ {ops : List Op} {r : Registry}, q ∈ (r.history ops).2 →
    q.patterns.meaning? = fun s => (PatternLibrary.compile s).toOption
  | op :: rest, r, h => by
    rcases List.mem_append.mp h with h | h
    · cases op with
      | build resolve =>
        have hq : (r.build resolve).1.toOption = some q := by simpa [handsOut] using h
        cases hbuild : r.build resolve with
        | mk result r' =>
          rw [hbuild] at hq
          cases result with
          | error f => cases hq
          | ok p => cases hq; exact meaning?_of_build hbuild
      | _ => simp [handsOut] at h
    · exact meaning?_of_history h

/-- A rule that was there when the registry was built keeps its meaning through every history: runs from
its key come to the same with every program of the registry, to any depth and for any source. -/
theorem built_rules_keep_meaning (r built : Registry) (resolve : Resolver) (p : Program)
    (hbuild : r.build resolve = (.ok p, built)) (ops : List Op) (q : Program)
    (hq : q ∈ p :: (built.history ops).2) (key : RuleKey) (hkey : built.hasRule key = true)
    (depth : Nat) (source : Source) :
    (built.history ops).1.runFrom q.patterns key depth source =
      built.runFrom p.patterns key depth source := by
  have hsettled := settled_of_build hbuild
  have hkeeps : built.Keeps (built.history ops).1 := Keeps.history hsettled (fun _ _ => id) ops
  let like : RuleKey → RuleKey → Prop := fun k k' => k' = k ∧ built.grammar.Has k
  have hlike : Relator.BiUnique like := ⟨fun _ _ _ h h' => h.1.symm.trans h'.1,
    fun _ _ _ h h' => h.1.trans h'.1.symm⟩
  have hgrammar : Grammar.Alike like { built.grammar with root := some key }
      { (built.history ops).1.grammar with root := some key } := by
    intro k k' hk
    obtain ⟨rfl, hk⟩ := hk
    obtain ⟨e, he⟩ := Option.isSome_iff_exists.mp hk
    exact ⟨e, e, he, hkeeps _ e he, (hsettled _ e he).alike⟩
  have hpatterns : q.patterns.meaning? = p.patterns.meaning? := by
    rw [meaning?_of_build hbuild]
    rcases List.mem_cons.mp hq with rfl | hq
    · exact meaning?_of_build hbuild
    · exact meaning?_of_history hq
  unfold runFrom
  let before : Program := ⟨{ built.grammar with root := some key }, p.patterns⟩
  let now : Program := ⟨{ (built.history ops).1.grammar with root := some key }, q.patterns⟩
  rcases @Program.runWithin_alike like _ hlike before now hgrammar hpatterns ⟨rfl, hkey⟩ depth source with
    ⟨outcome, outcome', hrun, hrun', halike⟩ | ⟨f, hrun, hrun'⟩
  · rw [hrun, hrun']
    cases halike with
    | matched htree consumed => rw [ParseTree.eq_of_alike (fun _ _ h => h.1) htree]
    | failed index report => rfl
  · rw [hrun, hrun']

end Library

/-- Words, one or more of them; the key of a further rule has been handed to a builder. -/
def wordList : Registry :=
  { grammar :=
      { rules := ⟨[(.given "words" "words", .rep .oneOrMore (.late (.method ⟨"G.word"⟩))),
          (.given "word" "word", .seq [.pattern "[a-z]+", .rep .optional (.literal " ")])]⟩
        root := some (.given "words" "words") } }

/-- A rule is added under the kept key, linking fails on it, it fails for want of a root, and it goes
well in the end. -/
def disturbance : List Op :=
  [.close (.given "late" "late") (.late (.method ⟨"G.lost"⟩)), .close (.given "word" "word") (.seq []),
    .build fun _ => some (.given "lost" "lost"), .define (.given "new" "new") (.literal "new"),
    .setRoot none, .build fun _ => some (.given "words" "words"),
    .setRoot (some (.given "late" "late")), .build fun _ => some (.given "words" "words")]

theorem built_rules_keep_meaning_disturbed : ∃ p built, wordList.build (fun _ => some
      (.given "word" "word")) = (.ok p, built) ∧ built.hasRule (.given "words" "words") = true ∧
    (built.history disturbance).1.grammar.rules.size = 3 ∧
    (built.history disturbance).2.length = 1 ∧
    ∀ q ∈ p :: (built.history disturbance).2, ∀ depth source,
      (built.history disturbance).1.runFrom q.patterns (.given "words" "words") depth source =
        built.runFrom p.patterns (.given "words" "words") depth source := by
  have hok : (wordList.build fun _ => some (.given "word" "word")).1.isOk = true := by decide +kernel
  have hrule : (wordList.build fun _ => some (.given "word" "word")).2.hasRule
      (.given "words" "words") = true := by decide +kernel
  have hsize : (((wordList.build fun _ => some (.given "word" "word")).2.history
      disturbance).1.grammar.rules.size, ((wordList.build fun _ => some (.given "word" "word")).2.history
      disturbance).2.length) = (3, 1) := by decide +kernel
  rcases hbuild : wordList.build fun _ => some (.given "word" "word") with ⟨f | p, built⟩
  · rw [hbuild] at hok; cases hok
  · rw [hbuild] at hrule hsize
    exact ⟨p, built, rfl, hrule, congrArg Prod.fst hsize, congrArg Prod.snd hsize,
      fun q hq depth source => built_rules_keep_meaning wordList built _ p hbuild disturbance q hq _
        hrule depth source⟩

end Registry
end PegScribe
