import PegScribe.Proofs.Depth

/-!
Tries: what the engine does, one rule for each thing that can happen, and no limit on nesting.

`Tries g text e pos r m r'` says that trying `e` at `pos` in the state `r` comes to the match `m` and
leaves the state `r'`. The engine with enough depth does exactly this (`tries_of_eval`,
`reaches_of_tries`), so whatever holds of every run is proved by induction on `Tries`.
-/
namespace PegScribe.Packrat

/-- One match after another: the trees of the first stand before those of the second. -/
def Match.after (trees : List ParseTree) (m : Match) : Match :=
  m.map fun (stop, more) => (stop, trees ++ more)

/-- The match of a rule that came to a tree, or to none. -/
def Match.ofTree (tree : Option ParseTree) : Match := tree.map fun t => (t.stop, [t])

/-- The tree of a rule whose body came to a match. -/
def Match.tree (key : RuleKey) (pos : Int) (m : Match) : Option ParseTree :=
  m.map fun (stop, children) => .node key pos stop children

theorem Match.ofTree_inj {tree tree' : Option ParseTree}
    (h : Match.ofTree tree = Match.ofTree tree') : tree = tree' := by
  cases tree <;> cases tree' <;> simp_all [Match.ofTree]

theorem Match.ofTree_eq_some {tree : Option ParseTree} {stop : Int} {t : ParseTree}
    (h : Match.ofTree tree = some (stop, [t])) : t.stop = stop ∧ tree = some t := by
  cases tree with
  | none => cases h
  | some tree =>
    obtain ⟨hstop, heq⟩ := Prod.mk.inj (Option.some.inj h)
    cases heq
    exact ⟨hstop, rfl⟩

/-- Trying an expression at a place, from one state to another. -/
inductive Tries [PatternLibrary] (g : Grammar) (text : Array Char) :
    Expr → Int → Run → Match → Run → Prop
  | literalHit {t pos r stop} (h : literalEnd? text t pos = some stop) :
    Tries g text (.literal t) pos r (some (stop, [.leaf pos stop])) r
  | literalMiss {t pos r} (h : literalEnd? text t pos = none) :
    Tries g text (.literal t) pos r none (r.miss (.literal t) pos)
  | patternHit {source pos r regex table stop} (hc : r.patterns.compile source = .ok (regex, table))
    (h : patternEnd? text regex pos = some stop) :
    Tries g text (.pattern source) pos r (some (stop, [.leaf pos stop])) { r with patterns := table }
  | patternMiss {source pos r regex table} (hc : r.patterns.compile source = .ok (regex, table))
    (h : patternEnd? text regex pos = none) :
    Tries g text (.pattern source) pos r none
      (({ r with patterns := table } : Run).miss (.pattern source) pos)
  /-- The rule is being worked out at this very place. -/
  | again {key pos r} (h : r.memo[(key, pos)]? = some .pending) :
    Tries g text (.call key) pos r none r
  | recalled {key pos r tree} (h : r.memo[(key, pos)]? = some (.done tree)) :
    Tries g text (.call key) pos r (.ofTree tree) r
  | opened {key pos r body m r'} (h : r.memo[(key, pos)]? = none) (hb : g.rules.get? key = some body)
    (hm : Tries g text body pos (r.enter key pos) m r') :
    Tries g text (.call key) pos r (.ofTree (m.tree key pos)) (r'.leave key pos (m.tree key pos))
  | optionalHit {e pos r found r'} (hm : Tries g text e pos r (some found) r') :
    Tries g text (.rep .optional e) pos r (some found) r'
  | optionalMiss {e pos r r'} (hm : Tries g text e pos r none r') :
    Tries g text (.rep .optional e) pos r (some (pos, [])) r'
  /-- The last round fails. -/
  | manyEnd {e pos r r'} (hm : Tries g text e pos r none r') :
    Tries g text (.rep .zeroOrMore e) pos r (some (pos, [])) r'
  /-- The last round does not move, and is dropped. -/
  | manyIdle {e pos r trees r'} (hm : Tries g text e pos r (some (pos, trees)) r') :
    Tries g text (.rep .zeroOrMore e) pos r (some (pos, [])) r'
  | manyNext {e pos r mid trees r₁ m r'} (hm : Tries g text e pos r (some (mid, trees)) r₁)
    (hne : mid ≠ pos) (hrest : Tries g text (.rep .zeroOrMore e) mid r₁ m r') :
    Tries g text (.rep .zeroOrMore e) pos r (m.after trees) r'
  | someMiss {e pos r r'} (hm : Tries g text e pos r none r') :
    Tries g text (.rep .oneOrMore e) pos r none r'
  /-- The first round counts even if it does not move. -/
  | someHit {e pos r mid trees r₁ m r'} (hm : Tries g text e pos r (some (mid, trees)) r₁)
    (hrest : Tries g text (.rep .zeroOrMore e) mid r₁ m r') :
    Tries g text (.rep .oneOrMore e) pos r (m.after trees) r'
  | seqNil {pos r} : Tries g text (.seq []) pos r (some (pos, [])) r
  | seqMiss {e es pos r r'} (hm : Tries g text e pos r none r') :
    Tries g text (.seq (e :: es)) pos r none r'
  | seqHit {e es pos r mid trees r₁ m r'} (hm : Tries g text e pos r (some (mid, trees)) r₁)
    (hrest : Tries g text (.seq es) mid r₁ m r') :
    Tries g text (.seq (e :: es)) pos r (m.after trees) r'
  | choiceNil {pos r} : Tries g text (.choice []) pos r none r
  | choiceHit {e es pos r found r'} (hm : Tries g text e pos r (some found) r') :
    Tries g text (.choice (e :: es)) pos r (some found) r'
  | choiceNext {e es pos r r₁ m r'} (hm : Tries g text e pos r none r₁)
    (hrest : Tries g text (.choice es) pos r₁ m r') :
    Tries g text (.choice (e :: es)) pos r m r'

variable {g : Grammar} {text : Array Char}

/-! ### The state of a run -/

section State
variable (r : Run) (key : RuleKey) (pos : Int)

theorem memo_enter (at_ : RuleKey × Int) :
    (r.enter key pos).memo[at_]? = if (key, pos) = at_ then some .pending else r.memo[at_]? := by
  simp [Run.enter, Std.HashMap.getElem?_insert]

theorem memo_leave (tree : Option ParseTree) (at_ : RuleKey × Int) :
    (r.leave key pos tree).memo[at_]? =
      if (key, pos) = at_ then some (.done tree) else r.memo[at_]? := by
  simp [Run.leave, Std.HashMap.getElem?_insert]

@[simp] theorem memo_miss (e : Expr) : (r.miss e pos).memo = r.memo := by
  simp only [Run.miss, Run.expect]
  split
  · rfl
  · split <;> rfl

@[simp] theorem steps_miss (e : Expr) : (r.miss e pos).steps = .missed e pos :: r.steps := rfl

@[simp] theorem patterns_miss (e : Expr) : (r.miss e pos).patterns = r.patterns := by
  simp only [Run.miss, Run.expect]
  split
  · rfl
  · split <;> rfl

end State

/-- Every match that is remembered ends where a match may end. -/
def Run.MovesOnward (text : Array Char) (r : Run) : Prop :=
  ∀ (key : RuleKey) (pos : Int) (tree : ParseTree),
    r.memo[(key, pos)]? = some (.done (some tree)) → Onward text pos tree.stop

/-- The match, if there is one, ends where a match from `pos` may end. -/
def Match.MovesOnward (text : Array Char) (pos : Int) (m : Match) : Prop :=
  ∀ found, m = some found → Onward text pos found.1

theorem movesOnward_none (pos : Int) : Match.MovesOnward text pos none := by rintro _ ⟨⟩

theorem movesOnward_some {pos stop : Int} {trees : List ParseTree} (h : Onward text pos stop) :
    Match.MovesOnward text pos (some (stop, trees)) := by
  rintro _ ⟨⟩; exact h

theorem movesOnward_after {pos mid : Int} {m : Match} (hmid : Onward text pos mid)
    (h : m.MovesOnward text mid) (trees : List ParseTree) :
    (m.after trees).MovesOnward text pos := by
  cases m with
  | none => rintro _ ⟨⟩
  | some rest => rintro _ ⟨⟩; exact hmid.trans (h rest rfl)

theorem movesOnward_ofTree {key : RuleKey} {pos : Int} {m : Match} (h : m.MovesOnward text pos) :
    (Match.ofTree (m.tree key pos)).MovesOnward text pos := by
  cases m with
  | none => rintro _ ⟨⟩
  | some found => rintro _ ⟨⟩; exact h found rfl

theorem Run.MovesOnward.of_memo {r r' : Run} (hr : r.MovesOnward text) (h : r'.memo = r.memo) :
    r'.MovesOnward text := by
  intro key pos tree hmemo
  exact hr key pos tree (h ▸ hmemo)

theorem Run.MovesOnward.enter {r : Run} (hr : r.MovesOnward text) (key : RuleKey) (pos : Int) :
    (r.enter key pos).MovesOnward text := by
  intro k p tree hmemo
  rw [memo_enter] at hmemo
  split at hmemo
  · cases hmemo
  · exact hr k p tree hmemo

theorem Run.MovesOnward.leave {r : Run} (hr : r.MovesOnward text) {pos : Int} {m : Match}
    (hm : m.MovesOnward text pos) (key : RuleKey) :
    (r.leave key pos (m.tree key pos)).MovesOnward text := by
  intro k p tree hmemo
  rw [memo_leave] at hmemo
  split at hmemo
  · rename_i heq
    cases heq
    cases m with
    | none => cases hmemo
    | some found => cases hmemo; exact hm found rfl
  · exact hr k p tree hmemo

theorem movesOnward_start (patterns : PatternTable) : ({ patterns } : Run).MovesOnward text := by
  intro key pos tree h
  simp at h

/-! ### The engine's steps, spelled out -/

theorem apply_run (attempt : Expr → Int → Engine Match) (key : RuleKey) (pos : Int) (r : Run) :
    apply g attempt key pos r =
      match r.memo[(key, pos)]? with
      | some .pending => .ok (none, r)
      | some (.done tree) => .ok (tree, r)
      | none =>
        match g.rules.get? key with
        | none => .error (.grammar (.undefinedRule key))
        | some body =>
          match attempt body pos (r.enter key pos) with
          | .error f => .error f
          | .ok (m, r') => .ok (m.tree key pos, r'.leave key pos (m.tree key pos)) := by
  unfold apply
  rw [bind_of_ok (show (get : Engine Run) r = .ok (r, r) from rfl)]
  cases hmemo : r.memo[(key, pos)]? with
  | some known => cases known <;> rfl
  | none =>
    dsimp only
    rw [bind_of_ok (show (modify (·.enter key pos) : Engine Unit) r = .ok ((), r.enter key pos)
      from rfl), bind_run]
    cases hrule : g.rules.get? key with
    | none => simp [StateT.lift, Grammar.body, hrule, bind, Except.bind]
    | some body =>
      have hbody : (StateT.lift (g.body key) : Engine Expr) (r.enter key pos) =
          .ok (body, r.enter key pos) := by
        simp [StateT.lift, Grammar.body, hrule, bind, Except.bind, pure, Except.pure]
      rw [hbody]
      dsimp only
      rw [bind_run]
      cases attempt body pos (r.enter key pos) <;> rfl

variable [PatternLibrary]

theorem compiled_run (source : String) (r : Run) :
    compiled source r =
      match r.patterns.compile source with
      | .error f => .error f
      | .ok (regex, table) => .ok (regex, { r with patterns := table }) := by
  unfold compiled
  rw [bind_of_ok (show (get : Engine Run) r = .ok (r, r) from rfl), bind_run]
  cases hc : r.patterns.compile source with
  | error f => rfl
  | ok found => rfl

/-! ### What the engine answers is a try -/

theorem tries_of_literal {t : String} {pos : Int} {r r' : Run} {m : Match}
    (h : terminal (.literal t) pos (literalEnd? text t pos) r = .ok (m, r')) :
    Tries g text (.literal t) pos r m r' := by
  cases hend : literalEnd? text t pos with
  | none => rw [hend] at h; cases h; exact .literalMiss hend
  | some stop => rw [hend] at h; cases h; exact .literalHit hend

theorem tries_of_pattern {source : String} {pos : Int} {r r' : Run} {m : Match}
    (h : (compiled source >>= fun regex =>
      terminal (.pattern source) pos (patternEnd? text regex pos)) r = .ok (m, r')) :
    Tries g text (.pattern source) pos r m r' := by
  obtain ⟨regex, r₁, hc, h⟩ := bind_eq_ok.mp h
  rw [compiled_run] at hc
  cases hcompile : r.patterns.compile source with
  | error f => rw [hcompile] at hc; cases hc
  | ok found =>
    rw [hcompile] at hc; cases hc
    cases hend : patternEnd? text found.1 pos with
    | none => rw [hend] at h; cases h; exact .patternMiss hcompile hend
    | some stop => rw [hend] at h; cases h; exact .patternHit hcompile hend

section Operators
variable {attempt : Expr → Int → Engine Match}
  (ih : ∀ {e pos r m r'}, attempt e pos r = .ok (m, r') → Tries g text e pos r m r')
include ih

theorem tries_of_inTurn : ∀ {es pos r m r'}, inTurn attempt es pos r = .ok (m, r') →
    Tries g text (.seq es) pos r m r'
  | [], pos, r, m, r', h => by
    obtain ⟨rfl, rfl⟩ := pure_eq_ok.mp h
    exact .seqNil
  | e :: es, pos, r, m, r', h => by
    obtain ⟨found, r₁, he, h⟩ := bind_eq_ok.mp h
    cases found with
    | none =>
      obtain ⟨rfl, rfl⟩ := pure_eq_ok.mp h
      exact .seqMiss (ih he)
    | some found =>
      obtain ⟨rest, r₂, hrest, h⟩ := bind_eq_ok.mp h
      have := Tries.seqHit (ih he) (tries_of_inTurn hrest)
      cases rest with
      | none =>
        obtain ⟨rfl, rfl⟩ := pure_eq_ok.mp h
        exact this
      | some rest =>
        obtain ⟨rfl, rfl⟩ := pure_eq_ok.mp h
        exact this

theorem tries_of_firstOf : ∀ {es pos r m r'}, firstOf attempt es pos r = .ok (m, r') →
    Tries g text (.choice es) pos r m r'
  | [], pos, r, m, r', h => by
    obtain ⟨rfl, rfl⟩ := pure_eq_ok.mp h
    exact .choiceNil
  | e :: es, pos, r, m, r', h => by
    obtain ⟨found, r₁, he, h⟩ := bind_eq_ok.mp h
    cases found with
    | none => exact .choiceNext (ih he) (tries_of_firstOf h)
    | some found =>
      obtain ⟨rfl, rfl⟩ := pure_eq_ok.mp h
      exact .choiceHit (ih he)

theorem tries_of_many {e : Expr} : ∀ {budget pos r found r'},
    many (attempt e) budget pos r = .ok (found, r') →
      Tries g text (.rep .zeroOrMore e) pos r (some found) r'
  | 0, pos, r, found, r', h => by cases h
  | budget + 1, pos, r, found, r', h => by
    obtain ⟨m, r₁, he, h⟩ := bind_eq_ok.mp h
    cases m with
    | none =>
      obtain ⟨rfl, rfl⟩ := pure_eq_ok.mp h
      exact .manyEnd (ih he)
    | some m =>
      obtain ⟨mid, trees⟩ := m
      dsimp only at h
      split at h
      · rename_i hmid
        subst hmid
        obtain ⟨rfl, rfl⟩ := pure_eq_ok.mp h
        exact .manyIdle (ih he)
      · rename_i hmid
        obtain ⟨rest, r₂, hrest, h⟩ := bind_eq_ok.mp h
        obtain ⟨rfl, rfl⟩ := pure_eq_ok.mp h
        exact .manyNext (ih he) hmid (tries_of_many hrest)

theorem tries_of_apply {key : RuleKey} {pos : Int} {r r' : Run} {tree : Option ParseTree}
    (h : apply g attempt key pos r = .ok (tree, r')) :
    Tries g text (.call key) pos r (.ofTree tree) r' := by
  rw [apply_run] at h
  cases hmemo : r.memo[(key, pos)]? with
  | some known =>
    rw [hmemo] at h
    cases known with
    | pending => cases h; exact .again hmemo
    | done known => cases h; exact .recalled hmemo
  | none =>
    rw [hmemo] at h
    cases hrule : g.rules.get? key with
    | none => rw [hrule] at h; cases h
    | some body =>
      rw [hrule] at h
      dsimp only at h
      cases hm : attempt body pos (r.enter key pos) with
      | error f => rw [hm] at h; cases h
      | ok found =>
        rw [hm] at h; cases h
        exact .opened hmemo hrule (ih hm)

end Operators

/-- Whatever the engine answers within its depth is what it does without a limit. -/
theorem tries_of_eval : ∀ {d e pos r m r'}, eval g text d e pos r = .ok (m, r') →
    Tries g text e pos r m r'
  | 0, e, pos, r, m, r', h => by cases h
  | d + 1, e, pos, r, m, r', h => by
    have ih : ∀ {e pos r m r'}, eval g text d e pos r = .ok (m, r') → Tries g text e pos r m r' :=
      tries_of_eval
    cases e with
    | literal t => exact tries_of_literal h
    | pattern source => exact tries_of_pattern h
    | call key =>
      obtain ⟨tree, r₁, ht, h⟩ := bind_eq_ok.mp h
      obtain ⟨rfl, rfl⟩ := pure_eq_ok.mp h
      exact tries_of_apply ih ht
    | late callee => cases h
    | rep how body =>
      cases how with
      | optional =>
        obtain ⟨found, r₁, he, h⟩ := bind_eq_ok.mp h
        cases found with
        | none =>
          obtain ⟨rfl, rfl⟩ := pure_eq_ok.mp h
          exact .optionalMiss (ih he)
        | some found =>
          obtain ⟨rfl, rfl⟩ := pure_eq_ok.mp h
          exact .optionalHit (ih he)
      | zeroOrMore =>
        obtain ⟨found, r₁, he, h⟩ := bind_eq_ok.mp h
        obtain ⟨rfl, rfl⟩ := pure_eq_ok.mp h
        exact tries_of_many ih he
      | oneOrMore =>
        obtain ⟨found, r₁, he, h⟩ := bind_eq_ok.mp h
        cases found with
        | none =>
          obtain ⟨rfl, rfl⟩ := pure_eq_ok.mp h
          exact .someMiss (ih he)
        | some found =>
          obtain ⟨rest, r₂, hrest, h⟩ := bind_eq_ok.mp h
          obtain ⟨rfl, rfl⟩ := pure_eq_ok.mp h
          exact .someHit (ih he) (tries_of_many ih hrest)
      | unknown mark => cases h
    | seq items => exact tries_of_inTurn ih h
    | choice alts => exact tries_of_firstOf ih h
    | misfit shown type => cases h
    | foreign shown => cases h

/-- Matches move onward, and so do those that are remembered. -/
theorem Tries.movesOnward {e : Expr} {pos : Int} {r r' : Run} {m : Match}
    (h : Tries g text e pos r m r') (hr : r.MovesOnward text) :
    r'.MovesOnward text ∧ m.MovesOnward text pos := by
  induction h with
  | literalHit h => exact ⟨hr, movesOnward_some (literalEnd?_onward h)⟩
  | literalMiss h => exact ⟨hr.of_memo (memo_miss ..), movesOnward_none _⟩
  | patternHit hc h => exact ⟨hr.of_memo rfl, movesOnward_some (patternEnd?_onward h)⟩
  | patternMiss hc h => exact ⟨hr.of_memo (memo_miss ..), movesOnward_none _⟩
  | again h => exact ⟨hr, movesOnward_none _⟩
  | @recalled key pos r tree h =>
    refine ⟨hr, ?_⟩
    cases tree with
    | none => exact movesOnward_none pos
    | some tree => exact movesOnward_some (hr key pos tree h)
  | @opened key pos r body m r' h hb hm ih =>
    obtain ⟨hr', hm⟩ := ih (hr.enter key pos)
    exact ⟨hr'.leave hm key, movesOnward_ofTree hm⟩
  | optionalHit _ ih => exact ih hr
  | optionalMiss _ ih => exact ⟨(ih hr).1, movesOnward_some (.refl _ _)⟩
  | manyEnd _ ih => exact ⟨(ih hr).1, movesOnward_some (.refl _ _)⟩
  | manyIdle _ ih => exact ⟨(ih hr).1, movesOnward_some (.refl _ _)⟩
  | manyNext _ _ _ ih ih' =>
    obtain ⟨hr₁, hmid⟩ := ih hr
    obtain ⟨hr', hrest⟩ := ih' hr₁
    exact ⟨hr', movesOnward_after (hmid _ rfl) hrest _⟩
  | someMiss _ ih => exact ⟨(ih hr).1, movesOnward_none _⟩
  | someHit _ _ ih ih' =>
    obtain ⟨hr₁, hmid⟩ := ih hr
    obtain ⟨hr', hrest⟩ := ih' hr₁
    exact ⟨hr', movesOnward_after (hmid _ rfl) hrest _⟩
  | seqNil => exact ⟨hr, movesOnward_some (.refl _ _)⟩
  | seqMiss _ ih => exact ⟨(ih hr).1, movesOnward_none _⟩
  | seqHit _ _ ih ih' =>
    obtain ⟨hr₁, hmid⟩ := ih hr
    obtain ⟨hr', hrest⟩ := ih' hr₁
    exact ⟨hr', movesOnward_after (hmid _ rfl) hrest _⟩
  | choiceNil => exact ⟨hr, movesOnward_none _⟩
  | choiceHit _ ih => exact ih hr
  | choiceNext _ _ ih ih' => exact ih' (ih hr).1

/-- What every single thing that a run does inside the text keeps. -/
structure Kept (text : Array Char) (P : Run → Prop) : Prop where
  literalMiss : ∀ {r t pos}, P r → Inside text pos → literalEnd? text t pos = none →
    P (r.miss (.literal t) pos)
  compile : ∀ {r source regex table}, P r → r.patterns.compile source = .ok (regex, table) →
    P { r with patterns := table }
  patternMiss : ∀ {r source regex table pos}, P r →
    r.patterns.compile source = .ok (regex, table) → Inside text pos →
    patternEnd? text regex pos = none →
    P (({ r with patterns := table } : Run).miss (.pattern source) pos)
  enter : ∀ {r}, P r → ∀ key pos, P (r.enter key pos)
  leave : ∀ {r}, P r → ∀ key pos tree, P (r.leave key pos tree)

/-- What every single thing keeps, a whole run keeps. -/
theorem Tries.keeps {P : Run → Prop} (hP : Kept text P) {e : Expr} {pos : Int} {r r' : Run}
    {m : Match} (h : Tries g text e pos r m r') (hr : r.MovesOnward text) (hpos : Inside text pos)
    (hr₀ : P r) : P r' := by
  induction h with
  | literalHit _ => exact hr₀
  | literalMiss h => exact hP.literalMiss hr₀ hpos h
  | patternHit hc _ => exact hP.compile hr₀ hc
  | patternMiss hc h => exact hP.patternMiss hr₀ hc hpos h
  | again _ => exact hr₀
  | recalled _ => exact hr₀
  | opened _ _ _ ih => exact hP.leave (ih (hr.enter _ _) hpos (hP.enter hr₀ _ _)) _ _ _
  | optionalHit _ ih => exact ih hr hpos hr₀
  | optionalMiss _ ih => exact ih hr hpos hr₀
  | manyEnd _ ih => exact ih hr hpos hr₀
  | manyIdle _ ih => exact ih hr hpos hr₀
  | manyNext hm _ _ ih ih' =>
    obtain ⟨hr₁, hmid⟩ := hm.movesOnward hr
    exact ih' hr₁ ((hmid _ rfl).inside hpos) (ih hr hpos hr₀)
  | someMiss _ ih => exact ih hr hpos hr₀
  | someHit hm _ ih ih' =>
    obtain ⟨hr₁, hmid⟩ := hm.movesOnward hr
    exact ih' hr₁ ((hmid _ rfl).inside hpos) (ih hr hpos hr₀)
  | seqNil => exact hr₀
  | seqMiss _ ih => exact ih hr hpos hr₀
  | seqHit hm _ ih ih' =>
    obtain ⟨hr₁, hmid⟩ := hm.movesOnward hr
    exact ih' hr₁ ((hmid _ rfl).inside hpos) (ih hr hpos hr₀)
  | choiceNil => exact hr₀
  | choiceHit _ ih => exact ih hr hpos hr₀
  | choiceNext hm _ ih ih' => exact ih' (hm.movesOnward hr).1 hpos (ih hr hpos hr₀)

/-! ### With enough depth the engine does what a try says -/

/-- Some depth is enough for the engine to come to `m` and `r'`. -/
def Reaches (g : Grammar) (text : Array Char) (e : Expr) (pos : Int) (r : Run) (m : Match)
    (r' : Run) : Prop :=
  ∃ d, eval g text d e pos r = .ok (m, r')

section Reaching
variable {e : Expr} {es : List Expr} {pos mid : Int} {r r₁ r' : Run} {m : Match}
  {trees : List ParseTree}

theorem reaches_call {body : Expr} {key : RuleKey} (h : r.memo[(key, pos)]? = none)
    (hb : g.rules.get? key = some body) (hm : Reaches g text body pos (r.enter key pos) m r') :
    Reaches g text (.call key) pos r (.ofTree (m.tree key pos))
      (r'.leave key pos (m.tree key pos)) := by
  obtain ⟨d, hd⟩ := hm
  refine ⟨d + 1, bind_of_ok ?_⟩
  rw [apply_run, h, hb]
  dsimp only
  rw [hd]

theorem reaches_seq_iff :
    Reaches g text (.seq es) pos r m r' ↔ ∃ d, inTurn (eval g text d) es pos r = .ok (m, r') := by
  constructor
  · rintro ⟨d, hd⟩
    cases d with
    | zero => cases hd
    | succ d => exact ⟨d, hd⟩
  · rintro ⟨d, hd⟩
    exact ⟨d + 1, hd⟩

theorem reaches_choice_iff :
    Reaches g text (.choice es) pos r m r' ↔
      ∃ d, firstOf (eval g text d) es pos r = .ok (m, r') := by
  constructor
  · rintro ⟨d, hd⟩
    cases d with
    | zero => cases hd
    | succ d => exact ⟨d, hd⟩
  · rintro ⟨d, hd⟩
    exact ⟨d + 1, hd⟩

theorem reaches_many_iff :
    Reaches g text (.rep .zeroOrMore e) pos r m r' ↔
      ∃ d found, m = some found ∧
        many (eval g text d e) (roundsFrom text pos) pos r = .ok (found, r') := by
  constructor
  · rintro ⟨d, hd⟩
    cases d with
    | zero => cases hd
    | succ d =>
      obtain ⟨found, r₁, hmany, h⟩ := bind_eq_ok.mp hd
      obtain ⟨rfl, rfl⟩ := pure_eq_ok.mp h
      exact ⟨d, found, rfl, hmany⟩
  · rintro ⟨d, found, rfl, hd⟩
    exact ⟨d + 1, bind_of_ok hd⟩

theorem reaches_seq_cons (he : Reaches g text e pos r (some (mid, trees)) r₁)
    (hrest : Reaches g text (.seq es) mid r₁ m r') :
    Reaches g text (.seq (e :: es)) pos r (m.after trees) r' := by
  obtain ⟨d, hd⟩ := he
  obtain ⟨d', hd'⟩ := reaches_seq_iff.mp hrest
  have hd := (eval_extends g text (Nat.le_max_left d d') e pos).of_ok hd
  have hd' := (inTurn_extends (eval_extends g text (Nat.le_max_right d d')) es mid).of_ok hd'
  refine reaches_seq_iff.mpr ⟨max d d', (bind_of_ok hd).trans ((bind_of_ok hd').trans ?_)⟩
  cases m <;> rfl

theorem reaches_choice_cons (he : Reaches g text e pos r none r₁)
    (hrest : Reaches g text (.choice es) pos r₁ m r') :
    Reaches g text (.choice (e :: es)) pos r m r' := by
  obtain ⟨d, hd⟩ := he
  obtain ⟨d', hd'⟩ := reaches_choice_iff.mp hrest
  have hd := (eval_extends g text (Nat.le_max_left d d') e pos).of_ok hd
  have hd' := (firstOf_extends (eval_extends g text (Nat.le_max_right d d')) es pos).of_ok hd'
  exact reaches_choice_iff.mpr ⟨max d d', (bind_of_ok hd).trans hd'⟩

/-- A round that moves leaves enough rounds for the rest. -/
theorem reaches_many_next (he : Reaches g text e pos r (some (mid, trees)) r₁) (hne : mid ≠ pos)
    (hon : Onward text pos mid) (hrest : Reaches g text (.rep .zeroOrMore e) mid r₁ m r') :
    Reaches g text (.rep .zeroOrMore e) pos r (m.after trees) r' := by
  obtain ⟨d, hd⟩ := he
  obtain ⟨d', found, rfl, hd'⟩ := reaches_many_iff.mp hrest
  obtain ⟨budget, hbudget⟩ : ∃ budget, roundsFrom text pos = budget + 1 :=
    ⟨roundsFrom text pos - 1, by have := roundsFrom_pos text pos; omega⟩
  have hlt := roundsFrom_lt hon hne
  have hd := (eval_extends g text (Nat.le_max_left d d') e pos).of_ok hd
  have hd' := (many_extends (eval_extends g text (Nat.le_max_right d d') e)
    (show roundsFrom text mid ≤ budget by omega) mid).of_ok hd'
  refine reaches_many_iff.mpr ⟨max d d', _, rfl, ?_⟩
  rw [hbudget]
  refine (bind_of_ok hd).trans ?_
  dsimp only
  rw [if_neg hne]
  exact bind_of_ok hd'

theorem reaches_some (he : Reaches g text e pos r (some (mid, trees)) r₁)
    (hrest : Reaches g text (.rep .zeroOrMore e) mid r₁ m r') :
    Reaches g text (.rep .oneOrMore e) pos r (m.after trees) r' := by
  obtain ⟨d, hd⟩ := he
  obtain ⟨d', found, rfl, hd'⟩ := reaches_many_iff.mp hrest
  have hd := (eval_extends g text (Nat.le_max_left d d') e pos).of_ok hd
  have hd' := (many_extends (eval_extends g text (Nat.le_max_right d d') e) (Nat.le_refl _)
    mid).of_ok hd'
  exact ⟨max d d' + 1, (bind_of_ok hd).trans (bind_of_ok hd')⟩

/-- A round that fails, or does not move, is the last. -/
theorem reaches_many_stop (h : Reaches g text e pos r m r')
    (hm : m = none ∨ ∃ trees, m = some (pos, trees)) :
    Reaches g text (.rep .zeroOrMore e) pos r (some (pos, [])) r' := by
  obtain ⟨d, hd⟩ := h
  obtain ⟨budget, hbudget⟩ : ∃ budget, roundsFrom text pos = budget + 1 :=
    ⟨roundsFrom text pos - 1, by have := roundsFrom_pos text pos; omega⟩
  refine reaches_many_iff.mpr ⟨d, _, rfl, ?_⟩
  rw [hbudget]
  rcases hm with rfl | ⟨trees, rfl⟩
  · exact bind_of_ok hd
  · refine (bind_of_ok hd).trans ?_
    dsimp only
    rw [if_pos rfl]
    rfl

end Reaching

theorem reaches_of_tries {e : Expr} {pos : Int} {r r' : Run} {m : Match}
    (h : Tries g text e pos r m r') (hr : r.MovesOnward text) : Reaches g text e pos r m r' := by
  induction h with
  | @literalHit t pos r stop h =>
    exact ⟨1, by show terminal _ pos (literalEnd? text t pos) r = _; rw [h]; rfl⟩
  | @literalMiss t pos r h =>
    exact ⟨1, by show terminal _ pos (literalEnd? text t pos) r = _; rw [h]; rfl⟩
  | @patternHit source pos r regex table stop hc h =>
    refine ⟨1, (bind_of_ok (by rw [compiled_run, hc])).trans ?_⟩
    rw [h]; rfl
  | @patternMiss source pos r regex table hc h =>
    refine ⟨1, (bind_of_ok (by rw [compiled_run, hc])).trans ?_⟩
    rw [h]; rfl
  | @again key pos r h =>
    have happly : apply g (eval g text 0) key pos r = .ok (none, r) := by rw [apply_run, h]
    exact ⟨1, bind_of_ok happly⟩
  | @recalled key pos r tree h =>
    have happly : apply g (eval g text 0) key pos r = .ok (tree, r) := by rw [apply_run, h]
    exact ⟨1, bind_of_ok happly⟩
  | @opened key pos _ _ _ _ h hb _ ih => exact reaches_call h hb (ih (hr.enter key pos))
  | optionalHit _ ih =>
    obtain ⟨d, hd⟩ := ih hr
    exact ⟨d + 1, bind_of_ok hd⟩
  | optionalMiss _ ih =>
    obtain ⟨d, hd⟩ := ih hr
    exact ⟨d + 1, bind_of_ok hd⟩
  | manyEnd _ ih => exact reaches_many_stop (ih hr) (.inl rfl)
  | manyIdle _ ih => exact reaches_many_stop (ih hr) (.inr ⟨_, rfl⟩)
  | manyNext hm hne _ ih ih' =>
    obtain ⟨hr₁, hmid⟩ := hm.movesOnward hr
    exact reaches_many_next (ih hr) hne (hmid _ rfl) (ih' hr₁)
  | someMiss _ ih =>
    obtain ⟨d, hd⟩ := ih hr
    exact ⟨d + 1, bind_of_ok hd⟩
  | someHit hm _ ih ih' => exact reaches_some (ih hr) (ih' (hm.movesOnward hr).1)
  | seqNil => exact ⟨1, rfl⟩
  | seqMiss _ ih =>
    obtain ⟨d, hd⟩ := ih hr
    exact reaches_seq_iff.mpr ⟨d, bind_of_ok hd⟩
  | seqHit hm _ ih ih' => exact reaches_seq_cons (ih hr) (ih' (hm.movesOnward hr).1)
  | choiceNil => exact ⟨1, rfl⟩
  | choiceHit _ ih =>
    obtain ⟨d, hd⟩ := ih hr
    exact reaches_choice_iff.mpr ⟨d, bind_of_ok hd⟩
  | choiceNext hm _ ih ih' => exact reaches_choice_cons (ih hr) (ih' (hm.movesOnward hr).1)

/-! ### Whole runs -/

/-- What a run that came to a tree, or to none, has to say at its end. -/
def Run.verdict (r : Run) (pos : Int) (tree : Option ParseTree) : Verdict where
  tree := tree
  stop := (tree.map ParseTree.stop).getD pos
  furthest := r.furthest
  expected := r.expected
  patterns := r.patterns
  steps := r.steps.reverse

theorem parse_run (g : Grammar) (patterns : PatternTable) (d : Nat) (key : RuleKey)
    (text : Array Char) (pos : Int) :
    parse g patterns d key text pos =
      match apply g (eval g text d) key pos { patterns } with
      | .ok (tree, r) => .ok (r.verdict pos tree)
      | .error f => .error f := by
  unfold parse StateT.run
  cases apply g (eval g text d) key pos { patterns } <;> rfl

section Whole
variable {patterns : PatternTable} {key : RuleKey} {pos : Int}

theorem tries_of_parse {d : Nat} {v : Verdict} (h : parse g patterns d key text pos = .ok v) :
    ∃ tree r, Tries g text (.call key) pos { patterns } (.ofTree tree) r ∧
      v = r.verdict pos tree := by
  rw [parse_run] at h
  cases happly : apply g (eval g text d) key pos { patterns } with
  | error f => rw [happly] at h; cases h
  | ok found =>
    rw [happly] at h; cases h
    exact ⟨found.1, found.2, tries_of_apply tries_of_eval happly, rfl⟩

theorem parse_of_tries {tree : Option ParseTree} {r : Run}
    (h : Tries g text (.call key) pos { patterns } (.ofTree tree) r) :
    ∃ d₀, ∀ d ≥ d₀, parse g patterns d key text pos = .ok (r.verdict pos tree) := by
  obtain ⟨d₀, hd₀⟩ := reaches_of_tries h (movesOnward_start patterns)
  refine ⟨d₀, fun d hd => ?_⟩
  -- one level more than needed, so that the rule itself is tried with depth `d`
  have heval := (eval_extends g text (show d₀ ≤ d + 1 by omega) _ pos).of_ok hd₀
  obtain ⟨tree', r', happly, h⟩ := bind_eq_ok.mp heval
  obtain ⟨htree, rfl⟩ := pure_eq_ok.mp h
  rw [parse_run, happly, Match.ofTree_inj htree]

/-- A run that is known for enough depth is the only answer that any depth gives. -/
theorem parse_eq_or_tooDeep {d₀ : Nat} {answer : Except Fault Verdict}
    (h : ∀ d ≥ d₀, parse g patterns d key text pos = answer) (d : Nat) :
    parse g patterns d key text pos = .error .tooDeep ∨
      parse g patterns d key text pos = answer := by
  rcases parse_mono (Nat.le_max_left d d₀) with hdeep | heq
  · exact .inl hdeep
  · exact .inr (heq ▸ h _ (Nat.le_max_right d d₀))

end Whole

end PegScribe.Packrat
