import PegScribe.Proofs.Lexemes
import PegScribe.Proofs.Linking
import PegScribe.Proofs.Lossless
import PegScribe.Proofs.Lowered
import PegScribe.Proofs.Memo
import PegScribe.Proofs.Rendering

/-!
Interpretation: what a parser makes of a text is what reading the bodies of its grammar makes of it.

Where reading a term comes to an outcome, the linked expression that stands for the term matches just as
far, and its trees are lowered to what was read (`interpret_meets`). By the meaning of expressions the
engine finds this match, so that parsing and reading agree.
-/
namespace PegScribe.Reading
open Packrat Stage Recorder

/-- The match failed as reading did, or stops where reading stops, with a tree for each value. -/
inductive Bears (l : Lowering) (source : Source) : Reading (List Deferred) → Match → Prop
  | miss : Bears l source none none
  | hit {stop : Nat} {vs : List Deferred} {trees : List ParseTree}
    (h : List.Forall₂ (ParseTree.Lowers l source) trees vs) :
    Bears l source (some (stop, vs)) (some ((stop : Int), trees))

/-- What was read of a single term, as a row of one value. -/
def alone (found : Reading Deferred) : Reading (List Deferred) :=
  found.map fun (stop, v) => (stop, [v])

/-- A single value comes with a single tree. -/
theorem bears_alone {l : Lowering} {source : Source} {mid : Nat} {v : Deferred} {m : Match}
    (h : Bears l source (alone (some (mid, v))) m) :
    ∃ tree, m = some ((mid : Int), [tree]) ∧ tree.Lowers l source v := by
  cases h with
  | hit h =>
    cases h with
    | cons ht hnil => cases hnil; exact ⟨_, rfl, ht⟩

/-- Values after a first one: the trees after its tree. -/
theorem bears_after {l : Lowering} {source : Source} {tree : ParseTree} {v : Deferred}
    (ht : tree.Lowers l source v) {found : Reading (List Deferred)} {m : Match} (h : Bears l source found m) :
    Bears l source (found.map fun (stop, vs) => (stop, v :: vs)) (m.after [tree]) := by
  cases h with
  | miss => exact .miss
  | hit h => exact .hit (.cons ht h)

/-! ### Methods that are looked up -/

theorem rule_of_target? {s : Stage} {name : String} {method : Method} {owner : String} {body : Script}
    (h : s.target? name = some (.rule method owner body)) :
    (name, (method, body)) ∈ s.grammar.rules ∧ owner = s.grammar.ownerOf name := by
  unfold target? at h
  split at h
  · cases h
  · split at h
    · cases h
    · split at h
      · rename_i n m script hfind
        cases h
        have hname : n = name := by simpa using List.find?_some hfind
        exact ⟨hname ▸ List.mem_of_find?_eq_some hfind, rfl⟩
      · obtain ⟨⟨_, member⟩, -, htarget⟩ := Option.map_eq_some_iff.mp h
        cases member <;> cases htarget

/-- Where the choice of a root stands for a rule method, its key is looked for. -/
theorem resolve_of_rootMethod? {g : GrammarClass} {choice : RootChoice} {method : Method}
    (hmethod : rootMethod? g choice = some method) (model : Model) :
    ∃ shown, choice.resolve g model = RootChoice.ofMethod g model method shown := by
  unfold rootMethod? at hmethod
  unfold RootChoice.resolve
  cases choice with
  | key k => cases hmethod
  | method m => cases hmethod; exact ⟨_, rfl⟩
  | first =>
    dsimp only at hmethod ⊢
    cases hrules : g.rules with
    | nil => rw [hrules] at hmethod; cases hmethod
    | cons x rest =>
      rw [hrules] at hmethod
      cases hmethod
      exact ⟨_, rfl⟩
  | named name =>
    dsimp only at hmethod ⊢
    cases hfind : Lineage.find? g name with
    | none => rw [hfind] at hmethod; cases hmethod
    | some found =>
      obtain ⟨owner, member⟩ := found
      rw [hfind] at hmethod
      cases member with
      | method _ => cases hmethod; exact ⟨_, rfl⟩
      | static _ => cases hmethod; exact ⟨_, rfl⟩
      | ofClass _ => cases hmethod
      | property _ => cases hmethod
      | plain _ => cases hmethod

theorem key_of_rootMethod? {g : GrammarClass} {choice : RootChoice} {model : Model}
    {method : Method} {root : RuleKey} (hmethod : rootMethod? g choice = some method)
    (hroot : choice.resolve g model = .ok root) : model.userRules.get? method = some root := by
  obtain ⟨shown, hof⟩ := resolve_of_rootMethod? hmethod model
  rw [hof] at hroot
  unfold RootChoice.ofMethod at hroot
  split at hroot
  · cases hroot; assumption
  · cases hroot

/-! ### What a match bears -/

variable [PatternLibrary]

/-- The expression has a derivation at the place whose match bears what was read. -/
def Meets (p : Program) (l : Lowering) (source : Source) (e : Expr) (pos : Nat)
    (found : Reading (List Deferred)) : Prop :=
  ∃ m steps, Yields p.grammar p.patterns source.chars e pos m steps ∧ Bears l source found m

section Combinators
variable {p : Program} {l : Lowering} {source : Source}

section Terms
variable {attempt : Term → Nat → Option (Reading Deferred)} {f : Expr → Expr}

theorem inTurn_meets : ∀ {ts : List Term} {es : List Expr} {pos : Nat}
    {found : Reading (List Deferred)}, es.length = ts.length →
    (∀ q ∈ ts.zip es, ∀ pos found, attempt q.1 pos = some found →
      Meets p l source (f q.2) pos (alone found)) →
    inTurn attempt ts pos = some found → Meets p l source (.seq (es.map f)) pos found
  | [], [], pos, found, _, _, h => by
    cases h
    exact ⟨_, _, .seqNil, .hit .nil⟩
  | t :: ts, e :: es, pos, found, hlen, hall, h => by
    obtain ⟨first, hfirst, h⟩ := Option.bind_eq_some_iff.mp h
    obtain ⟨m, steps, hm, hbears⟩ := hall (t, e) (List.mem_cons_self ..) pos first hfirst
    cases first with
    | none =>
      cases h
      cases hbears
      exact ⟨_, _, .seqMiss hm, .miss⟩
    | some first =>
      obtain ⟨mid, v⟩ := first
      obtain ⟨tree, rfl, ht⟩ := bears_alone hbears
      obtain ⟨rest, hrest, h⟩ := Option.bind_eq_some_iff.mp h
      obtain ⟨m', more, hm', hbears'⟩ := inTurn_meets (Nat.succ.inj hlen)
        (fun q hq => hall q (List.mem_cons_of_mem _ hq)) hrest
      refine ⟨_, _, .seqHit hm hm', ?_⟩
      have := bears_after ht hbears'
      cases rest with
      | none => cases h; exact this
      | some rest => cases h; exact this

theorem firstOf_meets : ∀ {ts : List Term} {es : List Expr} {pos : Nat}
    {found : Reading Deferred}, es.length = ts.length →
    (∀ q ∈ ts.zip es, ∀ pos found, attempt q.1 pos = some found →
      Meets p l source (f q.2) pos (alone found)) →
    firstOf attempt ts pos = some found →
    Meets p l source (.choice (es.map f)) pos (alone found)
  | [], [], pos, found, _, _, h => by
    cases h
    exact ⟨_, _, .choiceNil, .miss⟩
  | t :: ts, e :: es, pos, found, hlen, hall, h => by
    obtain ⟨first, hfirst, h⟩ := Option.bind_eq_some_iff.mp h
    obtain ⟨m, steps, hm, hbears⟩ := hall (t, e) (List.mem_cons_self ..) pos first hfirst
    cases first with
    | none =>
      cases hbears
      obtain ⟨m', more, hm', hbears'⟩ := firstOf_meets (Nat.succ.inj hlen)
        (fun q hq => hall q (List.mem_cons_of_mem _ hq)) h
      exact ⟨_, _, .choiceNext hm hm', hbears'⟩
    | some first =>
      cases h
      obtain ⟨tree, rfl, ht⟩ := bears_alone hbears
      exact ⟨_, _, .choiceHit hm, hbears⟩

end Terms

theorem rounds_meets {attempt : Nat → Option (Reading Deferred)} {e : Expr}
    (hall : ∀ pos found, attempt pos = some found → Meets p l source e pos (alone found)) :
    ∀ {fuel pos : Nat} {found : Nat × List Deferred}, rounds attempt fuel pos = some found →
      Meets p l source (.rep .zeroOrMore e) pos (some found)
  | 0, pos, found, h => by cases h
  | fuel + 1, pos, found, h => by
    obtain ⟨first, hfirst, h⟩ := Option.bind_eq_some_iff.mp h
    obtain ⟨m, steps, hm, hbears⟩ := hall pos first hfirst
    cases first with
    | none =>
      cases h
      cases hbears
      exact ⟨_, _, .manyEnd hm, .hit .nil⟩
    | some first =>
      obtain ⟨mid, v⟩ := first
      obtain ⟨tree, rfl, ht⟩ := bears_alone hbears
      dsimp only at h
      split at h
      · rename_i hmid
        subst hmid
        cases h
        exact ⟨_, _, .manyIdle hm, .hit .nil⟩
      · rename_i hmid
        obtain ⟨rest, hrest, h⟩ := Option.bind_eq_some_iff.mp h
        cases h
        obtain ⟨m', more, hm', hbears'⟩ := rounds_meets hall hrest
        exact ⟨_, _, .manyNext hm (by omega) hm', bears_after ht hbears'⟩

/-- A rule's node: its body's match, and what becomes of the values inside it. -/
theorem meets_rule {key : RuleKey} {body : Expr} {pos : Nat} {found : Reading (List Deferred)}
    (hb : p.grammar.rules.get? key = some body) (h : Meets p l source body pos found)
    {make : List Deferred → Deferred}
    (hmake : ∀ start stop trees n vs, found = some (n, vs) →
      List.Forall₂ (ParseTree.Lowers l source) trees vs →
      ParseTree.Lowers l source (.node key start stop trees) (make vs)) :
    Meets p l source (.call key) pos (alone (found.map fun (stop, vs) => (stop, make vs))) := by
  obtain ⟨m, steps, hm, hbears⟩ := h
  refine ⟨_, _, .rule hb hm, ?_⟩
  cases hbears with
  | miss => exact .miss
  | hit h => exact .hit (.cons (hmake _ _ _ _ _ rfl h) .nil)

/-- Operands that are a rule's body by themselves match as they do in turn. -/
theorem operands_meets {res : Resolver} {es : List Expr} {pos : Nat}
    {found : Reading (List Deferred)}
    (h : Meets p l source (.seq (es.map (Expr.resolved res))) pos found) :
    Meets p l source ((operands es).resolved res) pos found := by
  obtain ⟨m, steps, hm, hbears⟩ := h
  match es with
  | [] => exact ⟨m, steps, hm, hbears⟩
  | [e] =>
    cases hm with
    | seqMiss hm => exact ⟨_, _, hm, hbears⟩
    | seqHit hm hrest =>
      cases hrest
      refine ⟨_, _, hm, ?_⟩
      simpa [Match.after] using hbears
  | e :: e' :: rest =>
    rw [operands, Expr.resolved, Expr.resolvedAll_eq_map]
    · exact ⟨m, steps, hm, hbears⟩
    · simp

end Combinators

/-! ### Terms -/

/-- A grammar that was recorded and then linked. -/
structure Compiled (s : Stage) (r : Recorder) (p : Program) : Prop where
  declarative : Declarative s
  declared : ∀ {name method t}, (name, (method, [.rule none [t]])) ∈ s.grammar.rules →
    ∃ key e, Declared s r method ⟨s.grammar.ownerOf name, []⟩ t key e
  rules : ∀ key, p.grammar.rules.get? key =
    (r.registry.grammar.rules.get? key).map (Expr.resolved r.model.resolver)
  patterns : ∀ source, p.patterns.meaning? source = (PatternLibrary.compile source).toOption

/-- How the trees of a recorded grammar are lowered. -/
def loweringOf (s : Stage) (r : Recorder) (self : FactoryObject) : Lowering :=
  ⟨r.model, s.factory.call self⟩

section Terms
variable {s : Stage} {r : Recorder} {p : Program} {self : FactoryObject} {source : Source}

theorem Compiled.rule (hc : Compiled s r p) {key : RuleKey} {e : Expr}
    (h : r.registry.grammar.rules.get? key = some e) :
    p.grammar.rules.get? key = some (e.resolved r.model.resolver) := by
  rw [hc.rules key, h]
  rfl

theorem Compiled.pattern (hc : Compiled s r p) {t : String} {regex : Pattern}
    (h : PatternLibrary.compile t = .ok regex) : p.patterns.meaning? t = some regex := by
  rw [hc.patterns t, h]
  rfl

/-- A lexeme is read as its rule is matched. -/
theorem lexeme_meets (hc : Compiled s r p) {key : RuleKey} {kind : RuleKind} {e : Expr}
    {end? : Nat → Option Nat} (hkind : r.model.kinds.get? key = some kind)
    (htoken : kind.isToken = true)
    (hrule : p.grammar.rules.get? key = some (padded e))
    (he : EndsAt p.grammar p.patterns source e end?) (pos : Nat) :
    Meets p (loweringOf s r self) source (.call key) pos (alone (lexeme source end? pos)) := by
  obtain ⟨steps, hm⟩ := padded_yields (hc.pattern PatternLibrary.compile_whitespace) he pos
  refine ⟨_, _, .rule hrule hm, ?_⟩
  unfold lexeme
  dsimp only
  cases hend : end? (skip source pos) with
  | none => exact .miss
  | some stop =>
    have hlowers : ParseTree.Lowers (loweringOf s r self) source
        (.node key pos (skip source stop) (lexemeTrees source pos stop)) _ :=
      Lowering.lowers_lexeme hkind htoken
    exact .hit (.cons hlowers .nil)

/-- A repetition is read as its rule is matched. -/
theorem wrap_meets {how : Wrapper} {key : RuleKey} {e : Expr} {fuel : Nat} {frame : Frame}
    {t : Term} (hkind : r.model.kinds.get? key = some how.kind)
    (hrule : p.grammar.rules.get? key = some (.rep how.repetition e))
    (ih : ∀ pos found, interpret s self source fuel frame t pos = some found →
      Meets p (loweringOf s r self) source e pos (alone found))
    {pos : Nat} {found : Reading Deferred}
    (h : interpret s self source (fuel + 1) frame (.wrap how [t]) pos = some found) :
    Meets p (loweringOf s r self) source (.call key) pos (alone found) := by
  cases how with
  | optional =>
    obtain ⟨first, hfirst, h⟩ := Option.bind_eq_some_iff.mp h
    obtain ⟨m, steps, hm, hbears⟩ := ih pos first hfirst
    cases first with
    | none =>
      cases h
      cases hbears
      exact ⟨_, _, .rule hrule (.optionalMiss hm), .hit (.cons (Lowering.lowers_absent hkind) .nil)⟩
    | some first =>
      cases h
      obtain ⟨tree, rfl, ht⟩ := bears_alone hbears
      exact ⟨_, _, .rule hrule (.optionalHit hm),
        .hit (.cons (Lowering.lowers_present hkind ht) .nil)⟩
  | zeroOrMore =>
    obtain ⟨rest, hrest, h⟩ := Option.bind_eq_some_iff.mp h
    cases h
    exact meets_rule hrule (rounds_meets ih hrest) fun _ _ _ _ _ _ hall =>
      Lowering.lowers_list (.inr hkind) hall
  | oneOrMore =>
    obtain ⟨first, hfirst, h⟩ := Option.bind_eq_some_iff.mp h
    obtain ⟨m, steps, hm, hbears⟩ := ih pos first hfirst
    cases first with
    | none =>
      cases h
      cases hbears
      exact ⟨_, _, .rule hrule (.someMiss hm), .miss⟩
    | some first =>
      obtain ⟨mid, v⟩ := first
      obtain ⟨rest, hrest, h⟩ := Option.bind_eq_some_iff.mp h
      cases h
      obtain ⟨tree, rfl, ht⟩ := bears_alone hbears
      obtain ⟨m', more, hm', hbears'⟩ := rounds_meets ih hrest
      have hsome : Meets p (loweringOf s r self) source (.rep .oneOrMore e) pos
          (some (rest.1, v :: rest.2)) := ⟨_, _, .someHit hm hm', bears_after ht hbears'⟩
      exact meets_rule hrule hsome fun _ _ _ _ _ _ hall => Lowering.lowers_list (.inl hkind) hall

/-- Reading a term that was recorded comes to what its expression matches, once it is linked. -/
theorem interpret_meets (hc : Compiled s r p) : ∀ {fuel : Nat} {frame : Frame} {t : Term}
    {e : Expr} {pos : Nat} {found : Reading Deferred}, Renders s r frame t e →
    interpret s self source fuel frame t pos = some found →
    Meets p (loweringOf s r self) source (e.resolved r.model.resolver) pos (alone found)
  | 0, _, _, _, _, _, _, h => by cases h
  | fuel + 1, frame, t, e, pos, found, hrender, h => by
    have ih : ∀ {frame t e pos found}, Renders s r frame t e →
      interpret s self source fuel frame t pos = some found →
      Meets p (loweringOf s r self) source (e.resolved r.model.resolver) pos (alone found) :=
      interpret_meets hc
    cases hrender with
    | token harg hkind hrule =>
      simp only [interpret, harg] at h
      cases h
      exact lexeme_meets hc hkind rfl (hc.rule hrule) (endsAt_literal _) pos
    | pattern harg hregex hkind hrule =>
      simp only [interpret, harg, hregex] at h
      cases h
      exact lexeme_meets hc hkind rfl (hc.rule hrule) (endsAt_pattern (hc.pattern hregex)) pos
    | wrap ht hkind hrule =>
      exact wrap_meets hkind (hc.rule hrule) (fun _ _ => ih ht) h
    | firstOf hlen halts =>
      rw [Expr.resolved, Expr.resolvedAll_eq_map]
      exact firstOf_meets hlen (fun q hq _ _ => ih (halts q hq)) h
    | @action _ name args method m es key hm hlen hargs hkind huser haction hrule =>
      simp only [interpret, hm] at h
      obtain ⟨row, hrow, h⟩ := Option.bind_eq_some_iff.mp h
      have hbody := operands_meets (inTurn_meets hlen (fun q hq _ _ => ih (hargs q hq)) hrow)
      have hcall : s.factory.call self method = m.call method self := funext fun values =>
        FactoryClass.call_method (fun x hx => hc.declarative.actionNames x.1 x.2.1 x.2.2 hx)
          (List.mem_of_find?_eq_some hm) self values
      have hnode := meets_rule (hc.rule hrule) hbody fun start stop trees _ vs _ hall =>
        (show ParseTree.Lowers (loweringOf s r self) source (.node key start stop trees)
          (gather vs >>= s.factory.call self method) from
          Lowering.lowers_action hkind huser haction hall)
      rw [hcall] at hnode
      cases row with
      | none => cases h; exact hnode
      | some row => cases h; exact hnode
    | @rule _ name args method owner body ht =>
      obtain ⟨hmem, rfl⟩ := rule_of_target? ht
      obtain ⟨t, rfl, -⟩ := hc.declarative.bodies name method body hmem
      obtain ⟨key, e, hdecl⟩ := hc.declared hmem
      simp only [interpret, ht] at h
      have hresolved : (Expr.late (.method method)).resolved r.model.resolver = .call key := by
        rw [Expr.resolved, show r.model.resolver (.method method) = some key from hdecl.method]
      obtain ⟨m, steps, hm, hbears⟩ := ih hdecl.renders h
      rw [hresolved]
      refine ⟨_, _, .rule (hc.rule hdecl.rule) hm, ?_⟩
      cases found with
      | none => cases hbears; exact .miss
      | some found =>
        obtain ⟨tree, rfl, htree⟩ := bears_alone hbears
        exact .hit (.cons (Lowering.lowers_user hdecl.kind hdecl.user htree) .nil)
    | helper ht hargs hterm =>
      simp only [interpret, ht, hargs] at h
      exact ih hterm h
    | inherited ht hargs hterm =>
      simp only [interpret, ht, hargs] at h
      exact ih hterm h

end Terms

/-! ### Parsers -/

/-- What building a parser goes through. -/
structure Built (parts : Parser.Parts) (parser : Parser) (r : Recorder) (root : RuleKey) :
    Prop where
  recorded : parts.stage.record { registry := parts.registry } = (.ok (), r)
  chosen : parts.root.resolve parts.grammar r.model = .ok root
  linked : (r.registry.setRoot (some root)).LinksTo r.model.resolver parser.program
  lowering : parser.lowering = loweringOf parts.stage r parts.self

theorem built_of_build {parts : Parser.Parts} {parser : Parser}
    (h : (Parser.build parts).1 = .ok parser) : ∃ r root, Built parts parser r root := by
  unfold Parser.build at h
  rcases hrecord : parts.stage.record { registry := parts.registry } with ⟨f | _, r⟩
  · rw [hrecord] at h; cases h
  · rw [hrecord] at h
    dsimp only at h
    cases hroot : parts.root.resolve parts.grammar r.model with
    | error f => rw [hroot] at h; cases h
    | ok root =>
      rw [hroot] at h
      dsimp only at h
      rcases hbuild : (r.registry.setRoot (some root)).build r.model.resolver with
        ⟨f | program, registry⟩
      · rw [hbuild] at h; cases h
      · rw [hbuild] at h
        cases h
        exact ⟨r, root, hrecord, hroot, Registry.build_ok hbuild, rfl⟩

theorem Built.compiled {parts : Parser.Parts} {parser : Parser} {r : Recorder} {root : RuleKey}
    (hb : Built parts parser r root) (hs : Declarative parts.stage) :
    Compiled parts.stage r parser.program where
  declarative := hs
  declared := record_declares hs hb.recorded
  rules := hb.linked.rules
  patterns := hb.linked.patterns

/-- Reading from the root comes to what the root rule matches. -/
theorem read_meets {parts : Parser.Parts} {parser : Parser} {r : Recorder} {root : RuleKey}
    (hb : Built parts parser r root) (hs : Declarative parts.stage)
    {fuel : Nat} {source : Source} {found : Reading Deferred}
    (h : read parts fuel source = some found) :
    Meets parser.program parser.lowering source (.call root) 0 (alone found) := by
  have hc := hb.compiled hs
  obtain ⟨method, hmethod, h⟩ := Option.bind_eq_some_iff.mp h
  obtain ⟨⟨name, m, body⟩, hfind, h⟩ := Option.bind_eq_some_iff.mp h
  have hmem := List.mem_of_find?_eq_some hfind
  obtain rfl : m = method := by simpa using List.find?_some hfind
  obtain ⟨t, rfl, -⟩ := hs.bodies name m body hmem
  obtain ⟨key, e, hdecl⟩ := hc.declared hmem
  rcases target?_of_rule (s := parts.stage) hmem with htarget | ⟨type, htarget⟩
  · have hmeets := interpret_meets hc (.rule htarget) h
    rw [Expr.resolved, show r.model.resolver (.method m) = some key from hdecl.method] at hmeets
    cases hdecl.method.symm.trans (key_of_rootMethod? hmethod hb.chosen)
    rw [hb.lowering]
    exact hmeets
  · cases fuel with
    | zero => cases h
    | succ fuel =>
      simp only [interpret, htarget] at h
      cases h

end PegScribe.Reading

namespace PegScribe

namespace Parser
open Reading

/-- The answer of a parser is what reading came to: a failure is reported, a text that is read in part
only is refused, and else the value that was read is the answer. -/
def Agrees (source : Source) : Reading Deferred → Except Fault Value → Prop
  | none, answer => ∃ line report, answer = .error (.unmatched line report)
  | some (stop, v), answer =>
    answer = if stop = source.length then v else .error (.incomplete stop source.length)

variable [PatternLibrary]

/-- The root rule of a parser matches what reading from the root comes to. -/
theorem meets_of_read {parts : Parts} {parser : Parser} (hs : Declarative parts.stage)
    (hbuild : (build parts).1 = .ok parser) {fuel : Nat} {source : Source} {found : Reading Deferred}
    (hread : read parts fuel source = some found) :
    Meets parser.program parser.lowering source (.call parser.program.start) 0 (alone found) := by
  obtain ⟨r, root, hb⟩ := built_of_build hbuild
  have hstart : parser.program.start = root := by
    rw [Program.start, hb.linked.root]
    rfl
  exact hstart ▸ read_meets hb hs hread

section Whole
variable {parser : Parser} {source : Source} {d : Nat} {r : Packrat.Run}

theorem parseWithin_of_miss
    (hparse : Packrat.parse parser.program.grammar parser.program.patterns d parser.program.start
      source.chars 0 = .ok (r.verdict 0 none)) :
    Agrees source none (parser.parseWithin d source).1 := by
  obtain ⟨report, hreport⟩ := source.report?_isSome (Int.le_max_right r.furthest 0) r.expected
  have hrun : parser.program.runWithin d source = .ok (.failed (max r.furthest 0) report) :=
    Program.runWithin_failed hparse rfl hreport
  refine ⟨source.lineOf (max r.furthest 0), report, ?_⟩
  unfold parseWithin
  rw [hrun]
  rfl

theorem parseWithin_of_hit {tree : ParseTree} {stop : Nat} (hstop : tree.stop = stop)
    (hparse : Packrat.parse parser.program.grammar parser.program.patterns d parser.program.start
      source.chars 0 = .ok (r.verdict 0 (some tree))) :
    (parser.parseWithin d source).1 =
      if stop = source.length then (parser.lowering.lower source d tree []).1
      else .error (.incomplete stop source.length) := by
  have hrun : parser.program.runWithin d source = .ok (.matched tree stop) :=
    hstop ▸ Program.runWithin_matched hparse rfl
  unfold parseWithin
  rw [hrun]
  dsimp only [finish]
  by_cases hlen : stop = source.length
  · rw [if_neg (by omega), if_pos hlen]
    rfl
  · rw [if_pos (by omega), if_neg hlen]

/-- A run whose match bears what was read answers as reading does, once there is depth enough; less
depth makes it give up. -/
theorem agrees_of_meets {found : Reading Deferred}
    (h : Meets parser.program parser.lowering source (.call parser.program.start) 0 (alone found)) :
    (∃ d₀, ∀ d ≥ d₀, Agrees source found (parser.parseWithin d source).1) ∧
    ∀ d, (parser.parseWithin d source).1 = .error .tooDeep ∨
      Agrees source found (parser.parseWithin d source).1 := by
  obtain ⟨m, steps, hm, hbears⟩ := h
  obtain ⟨tree, rfl⟩ : ∃ tree, m = .ofTree tree := by cases hm; exact ⟨_, rfl⟩
  obtain ⟨d₀, r, hd₀⟩ := Packrat.parse_of_yields hm ⟨Int.le_refl 0, by omega⟩
  have hdeep : ∀ {d}, Packrat.parse parser.program.grammar parser.program.patterns d
      parser.program.start source.chars 0 = .error .tooDeep →
      (parser.parseWithin d source).1 = .error .tooDeep := by
    intro d h
    unfold parseWithin
    rw [Program.runWithin_of_parse_error h]
  cases found with
  | none =>
    obtain rfl : tree = none := by cases tree <;> cases hbears; rfl
    refine ⟨⟨d₀, fun d hd => parseWithin_of_miss (hd₀ d hd)⟩, fun d => ?_⟩
    exact (Packrat.parse_eq_or_tooDeep hd₀ d).imp hdeep parseWithin_of_miss
  | some found =>
    obtain ⟨stop, v⟩ := found
    obtain ⟨t, htree, hlowers⟩ := bears_alone hbears
    obtain ⟨hstop, rfl⟩ := Packrat.Match.ofTree_eq_some htree
    obtain ⟨d₁, hd₁⟩ := hlowers.value
    refine ⟨⟨max d₀ d₁, fun d hd => ?_⟩, fun d => ?_⟩
    · show (parser.parseWithin d source).1 = _
      rw [parseWithin_of_hit hstop (hd₀ d (by omega)), hd₁ d (by omega)]
    · rcases Packrat.parse_eq_or_tooDeep hd₀ d with h | h
      · exact .inl (hdeep h)
      · show _ ∨ (parser.parseWithin d source).1 = _
        rw [parseWithin_of_hit hstop h]
        by_cases hlen : stop = source.length
        · rw [if_pos hlen, if_pos hlen]
          exact Lowering.lower_or_tooDeep hlowers d []
        · rw [if_neg hlen, if_neg hlen]
          exact .inr rfl

end Whole

end Parser
end PegScribe
