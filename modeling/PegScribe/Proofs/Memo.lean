import PegScribe.Proofs.Meaning
import PegScribe.Regex.Library

/-!
Memory: remembering the outcome of a rule changes nothing about what expressions match.

The run keeps two kinds of notes. A rule whose outcome is noted has a derivation with this outcome, all
of whose steps have been taken; a rule that is noted as being worked out is not opened by the derivation
at hand. Both survive every step of a derivation, so a rule that has a derivation is never cut short, and
`parse` comes to what the derivation says (`parse_of_yields`), by the same steps (`follows_start`).
-/
namespace PegScribe.Packrat
variable {g : Grammar} {patterns : PatternTable} {text : Array Char}

/-- Is the rule being worked out at the place? -/
def Run.Awaits (r : Run) (key : RuleKey) (pos : Int) : Prop :=
  r.memo[(key, pos)]? = some .pending

section Waiting
variable {r : Run} {key : RuleKey} {pos : Int}

theorem awaits_enter {k : RuleKey} {p : Int} (h : (r.enter key pos).Awaits k p) :
    (key, pos) = (k, p) ∨ r.Awaits k p := by
  unfold Run.Awaits at h
  rw [memo_enter] at h
  split at h
  · exact .inl ‹_›
  · exact .inr h

theorem awaits_leave {tree : Option ParseTree} {k : RuleKey} {p : Int}
    (h : (r.leave key pos tree).Awaits k p) : (key, pos) ≠ (k, p) ∧ r.Awaits k p := by
  unfold Run.Awaits at h
  rw [memo_leave] at h
  split at h
  · cases h
  · exact ⟨‹_›, h⟩

theorem not_opened_left {steps more : List Step}
    (h : ∀ key at_, r.Awaits key at_ → .opened key at_ ∉ steps ++ more) :
    ∀ key at_, r.Awaits key at_ → .opened key at_ ∉ steps :=
  fun k p hk hmem => h k p hk (List.mem_append_left _ hmem)

theorem not_opened_right {r' : Run} {steps more : List Step}
    (h : ∀ key at_, r.Awaits key at_ → .opened key at_ ∉ steps ++ more)
    (hsub : ∀ key at_, r'.Awaits key at_ → r.Awaits key at_) :
    ∀ key at_, r'.Awaits key at_ → .opened key at_ ∉ more :=
  fun k p hk hmem => h k p (hsub k p hk) (List.mem_append_right _ hmem)

end Waiting

section Library
variable [PatternLibrary]

/-- The outcomes that are noted are derived, and patterns still mean what they meant. -/
structure Run.Faithful (g : Grammar) (patterns : PatternTable) (text : Array Char) (r : Run) :
    Prop where
  meaning : r.patterns.meaning? = patterns.meaning?
  done : ∀ key pos tree, r.memo[(key, pos)]? = some (.done tree) →
    ∃ steps, Yields g patterns text (.call key) pos (.ofTree tree) steps

theorem faithful_start : ({ patterns } : Run).Faithful g patterns text :=
  ⟨rfl, by intro key pos tree h; simp at h⟩

section Notes
variable {r : Run} {key : RuleKey} {pos : Int}

theorem Run.Faithful.of_memo {r' : Run} (hr : r.Faithful g patterns text)
    (hmeaning : r'.patterns.meaning? = r.patterns.meaning?) (hmemo : r'.memo = r.memo) :
    r'.Faithful g patterns text :=
  ⟨hmeaning.trans hr.meaning, fun key pos tree h => hr.done key pos tree (hmemo ▸ h)⟩

theorem Run.Faithful.enter (hr : r.Faithful g patterns text) :
    (r.enter key pos).Faithful g patterns text := by
  refine ⟨hr.meaning, fun k p tree h => ?_⟩
  rw [memo_enter] at h
  split at h
  · cases h
  · exact hr.done k p tree h

theorem Run.Faithful.leave {tree : Option ParseTree} {steps : List Step}
    (hr : r.Faithful g patterns text)
    (h : Yields g patterns text (.call key) pos (.ofTree tree) steps) :
    (r.leave key pos tree).Faithful g patterns text := by
  refine ⟨hr.meaning, fun k p tree' hmemo => ?_⟩
  rw [memo_leave] at hmemo
  split at hmemo
  · rename_i heq
    cases heq
    cases hmemo
    exact ⟨steps, h⟩
  · exact hr.done k p tree' hmemo

/-- The steps of every derivation that is noted have been taken. -/
def Run.Accounts (g : Grammar) (patterns : PatternTable) (text : Array Char) (r : Run) : Prop :=
  ∀ key pos tree steps, r.memo[(key, pos)]? = some (.done tree) →
    Yields g patterns text (.call key) pos (.ofTree tree) steps → steps ⊆ r.steps

theorem accounts_start : ({ patterns } : Run).Accounts g patterns text := by
  intro key pos tree steps h
  simp at h

theorem Run.Accounts.of_memo {r' : Run} (hr : r.Accounts g patterns text)
    (hmemo : r'.memo = r.memo) (hsteps : r.steps ⊆ r'.steps) : r'.Accounts g patterns text :=
  fun key pos tree steps h hy => List.Subset.trans (hr key pos tree steps (hmemo ▸ h) hy) hsteps

theorem Run.Accounts.enter (hr : r.Accounts g patterns text) :
    (r.enter key pos).Accounts g patterns text := by
  intro k p tree steps h hy
  rw [memo_enter] at h
  split at h
  · cases h
  · exact List.subset_cons_of_subset _ (hr k p tree steps h hy)

theorem Run.Accounts.leave {tree : Option ParseTree} {steps : List Step}
    (hr : r.Accounts g patterns text)
    (h : Yields g patterns text (.call key) pos (.ofTree tree) steps) (hsteps : steps ⊆ r.steps) :
    (r.leave key pos tree).Accounts g patterns text := by
  intro k p tree' steps' hmemo hy
  rw [memo_leave] at hmemo
  split at hmemo
  · rename_i heq
    cases heq
    cases hmemo
    rw [(hy.unique h).2]
    exact hsteps
  · exact hr k p tree' steps' hmemo hy

end Notes

/-- The engine follows a derivation from one state to another: its notes stay faithful, it waits for no
further rule, and it has taken just the steps of the derivation, some of them earlier. -/
structure Follows (g : Grammar) (patterns : PatternTable) (text : Array Char) (e : Expr) (pos : Int)
    (m : Match) (steps : List Step) (r r' : Run) : Prop where
  tries : Tries g text e pos r m r'
  faithful : r'.Faithful g patterns text
  accounts : r'.Accounts g patterns text
  awaits : ∀ key at_, r'.Awaits key at_ → r.Awaits key at_
  steps : ∀ s, s ∈ r'.steps ↔ s ∈ r.steps ∨ s ∈ steps

theorem Follows.append {e e₁ e₂ : Expr} {pos pos₂ : Int} {m m₁ m₂ : Match} {steps more : List Step}
    {r r₁ r' : Run} (h : Follows g patterns text e₁ pos m₁ steps r r₁)
    (h' : Follows g patterns text e₂ pos₂ m₂ more r₁ r') (htries : Tries g text e pos r m r') :
    Follows g patterns text e pos m (steps ++ more) r r' where
  tries := htries
  faithful := h'.faithful
  accounts := h'.accounts
  awaits := fun k p hk => h.awaits k p (h'.awaits k p hk)
  steps := fun s => by rw [h'.steps, h.steps, List.mem_append, or_assoc]

theorem Follows.hit {e : Expr} {pos : Int} {m : Match} {r r' : Run}
    (htries : Tries g text e pos r m r') (hr : r.Faithful g patterns text)
    (hacc : r.Accounts g patterns text) (hmeaning : r'.patterns.meaning? = r.patterns.meaning?)
    (hmemo : r'.memo = r.memo) (hsteps : r'.steps = r.steps) :
    Follows g patterns text e pos m [] r r' where
  tries := htries
  faithful := hr.of_memo hmeaning hmemo
  accounts := hacc.of_memo hmemo (hsteps ▸ List.Subset.refl _)
  awaits := fun k p hk => by unfold Run.Awaits at *; rwa [hmemo] at hk
  steps := fun s => by rw [hsteps]; simp

theorem Follows.miss {e : Expr} {pos : Int} {r r' : Run}
    (htries : Tries g text e pos r none (r'.miss e pos)) (hr : r.Faithful g patterns text)
    (hacc : r.Accounts g patterns text) (hmeaning : r'.patterns.meaning? = r.patterns.meaning?)
    (hmemo : r'.memo = r.memo) (hsteps : r'.steps = r.steps) :
    Follows g patterns text e pos none [.missed e pos] r (r'.miss e pos) where
  tries := htries
  faithful := hr.of_memo (by rw [patterns_miss, hmeaning]) (by rw [memo_miss, hmemo])
  accounts := hacc.of_memo (by rw [memo_miss, hmemo]) (by
    rw [steps_miss, hsteps]; exact List.subset_cons_self ..)
  awaits := fun k p hk => by unfold Run.Awaits at *; rwa [memo_miss, hmemo] at hk
  steps := fun s => by rw [steps_miss, hsteps, List.mem_cons, List.mem_singleton, or_comm]

/-- The engine follows a derivation, from any state whose notes are faithful and which waits for no
rule that the derivation opens. -/
theorem follows_of_yields {e : Expr} {pos : Int} {m : Match} {steps : List Step}
    (h : Yields g patterns text e pos m steps) (hpos : Inside text pos) {r : Run}
    (hr : r.Faithful g patterns text) (hacc : r.Accounts g patterns text)
    (hwait : ∀ key at_, r.Awaits key at_ → .opened key at_ ∉ steps) :
    ∃ r', Follows g patterns text e pos m steps r r' := by
  induction h generalizing r with
  | literalHit h =>
    exact ⟨r, .hit (.literalHit (literalEnd?_of_standsIn hpos h)) hr hacc rfl rfl rfl⟩
  | literalMiss h =>
    exact ⟨_, .miss (.literalMiss (literalEnd?_of_not_standsIn hpos h)) hr hacc rfl rfl rfl⟩
  | @patternHit source pos regex stop hc h =>
    obtain ⟨table, hcompile⟩ := PatternTable.compile_of_meaning? (hr.meaning ▸ hc)
    have hend : patternEnd? text regex pos = some (stop : Int) := by
      rw [patternEnd?_inside hpos, h]; rfl
    have hmeaning := (PatternTable.compile_ok hcompile).2
    exact ⟨_, .hit (.patternHit hcompile hend) hr hacc hmeaning rfl rfl⟩
  | @patternMiss source pos regex hc h =>
    obtain ⟨table, hcompile⟩ := PatternTable.compile_of_meaning? (hr.meaning ▸ hc)
    have hend : patternEnd? text regex pos = none := by
      rw [patternEnd?_inside hpos, h]; rfl
    have hmeaning := (PatternTable.compile_ok hcompile).2
    exact ⟨_, .miss (.patternMiss hcompile hend) hr hacc hmeaning rfl rfl⟩
  | @rule key pos body m steps hb hm ih =>
    have hrule := Yields.rule hb hm
    cases hmemo : r.memo[(key, pos)]? with
    | some known =>
      cases known with
      | pending => exact absurd (List.mem_cons_self ..) (hwait key pos hmemo)
      | done tree =>
        -- the outcome that is noted has a derivation, and there is only one
        obtain ⟨steps', hy⟩ := hr.done key pos tree hmemo
        have hone := hrule.unique hy
        have hsub := hacc key pos tree _ hmemo hy
        rw [hone.1, hone.2]
        exact ⟨r, .recalled hmemo, hr, hacc, fun _ _ => id, fun s =>
          ⟨.inl, fun hs => hs.elim id fun hs => hsub hs⟩⟩
    | none =>
      have hwait' : ∀ k p, (r.enter key pos).Awaits k p → .opened k p ∉ steps := by
        intro k p hk
        rcases awaits_enter hk with heq | hk
        · cases heq; exact hm.opened_once hb
        · exact fun hmem => hwait k p hk (List.mem_cons_of_mem _ hmem)
      obtain ⟨r', hf⟩ := ih hpos hr.enter hacc.enter hwait'
      have hsteps : ∀ s, s ∈ r'.steps ↔ s ∈ r.steps ∨ s ∈ .opened key pos :: steps := by
        intro s
        rw [hf.steps, Run.enter, List.mem_cons, List.mem_cons, or_assoc, or_left_comm]
      refine ⟨_, .opened hmemo hb hf.tries, hf.faithful.leave hrule,
        hf.accounts.leave hrule fun s hs => (hsteps s).mpr (.inr hs), ?_, hsteps⟩
      intro k p hk
      obtain ⟨hne, hk⟩ := awaits_leave hk
      exact (awaits_enter (hf.awaits k p hk)).resolve_left hne
  | optionalHit _ ih =>
    obtain ⟨r', hf⟩ := ih hpos hr hacc hwait
    exact ⟨r', { hf with tries := .optionalHit hf.tries }⟩
  | optionalMiss _ ih =>
    obtain ⟨r', hf⟩ := ih hpos hr hacc hwait
    exact ⟨r', { hf with tries := .optionalMiss hf.tries }⟩
  | manyEnd _ ih =>
    obtain ⟨r', hf⟩ := ih hpos hr hacc hwait
    exact ⟨r', { hf with tries := .manyEnd hf.tries }⟩
  | manyIdle _ ih =>
    obtain ⟨r', hf⟩ := ih hpos hr hacc hwait
    exact ⟨r', { hf with tries := .manyIdle hf.tries }⟩
  | manyNext hm hne _ ih ih' =>
    obtain ⟨r₁, hf⟩ := ih hpos hr hacc (not_opened_left hwait)
    have hmid := (hm.movesOnward hpos _ rfl).inside hpos
    obtain ⟨r', hf'⟩ := ih' hmid hf.faithful hf.accounts (not_opened_right hwait hf.awaits)
    exact ⟨r', hf.append hf' (.manyNext hf.tries hne hf'.tries)⟩
  | someMiss _ ih =>
    obtain ⟨r', hf⟩ := ih hpos hr hacc hwait
    exact ⟨r', { hf with tries := .someMiss hf.tries }⟩
  | someHit hm _ ih ih' =>
    obtain ⟨r₁, hf⟩ := ih hpos hr hacc (not_opened_left hwait)
    have hmid := (hm.movesOnward hpos _ rfl).inside hpos
    obtain ⟨r', hf'⟩ := ih' hmid hf.faithful hf.accounts (not_opened_right hwait hf.awaits)
    exact ⟨r', hf.append hf' (.someHit hf.tries hf'.tries)⟩
  | seqNil => exact ⟨r, .hit .seqNil hr hacc rfl rfl rfl⟩
  | seqMiss _ ih =>
    obtain ⟨r', hf⟩ := ih hpos hr hacc hwait
    exact ⟨r', { hf with tries := .seqMiss hf.tries }⟩
  | seqHit hm _ ih ih' =>
    obtain ⟨r₁, hf⟩ := ih hpos hr hacc (not_opened_left hwait)
    have hmid := (hm.movesOnward hpos _ rfl).inside hpos
    obtain ⟨r', hf'⟩ := ih' hmid hf.faithful hf.accounts (not_opened_right hwait hf.awaits)
    exact ⟨r', hf.append hf' (.seqHit hf.tries hf'.tries)⟩
  | choiceNil => exact ⟨r, .hit .choiceNil hr hacc rfl rfl rfl⟩
  | choiceHit _ ih =>
    obtain ⟨r', hf⟩ := ih hpos hr hacc hwait
    exact ⟨r', { hf with tries := .choiceHit hf.tries }⟩
  | choiceNext _ _ ih ih' =>
    obtain ⟨r₁, hf⟩ := ih hpos hr hacc (not_opened_left hwait)
    obtain ⟨r', hf'⟩ := ih' hpos hf.faithful hf.accounts (not_opened_right hwait hf.awaits)
    exact ⟨r', hf.append hf' (.choiceNext hf.tries hf'.tries)⟩

/-! ### Whole runs -/

/-- From the start nothing is noted, so a run takes just the steps of the derivation. -/
theorem follows_start {e : Expr} {pos : Int} {m : Match} {steps : List Step}
    (h : Yields g patterns text e pos m steps) (hpos : Inside text pos) :
    ∃ r, Follows g patterns text e pos m steps { patterns } r :=
  follows_of_yields h hpos faithful_start accounts_start (by
    intro k p hk; simp [Run.Awaits] at hk)

theorem parse_of_yields {key : RuleKey} {pos : Int} {tree : Option ParseTree} {steps : List Step}
    (h : Yields g patterns text (.call key) pos (.ofTree tree) steps) (hpos : Inside text pos) :
    ∃ d₀ r, ∀ d ≥ d₀, parse g patterns d key text pos = .ok (Run.verdict r pos tree) := by
  obtain ⟨r, hf⟩ := follows_start h hpos
  obtain ⟨d₀, hd₀⟩ := parse_of_tries hf.tries
  exact ⟨d₀, r, hd₀⟩

/-- The verdict gives the match `m` of the rule's body: one tree around its trees, and its end. -/
structure Verdict.Gives (v : Verdict) (key : RuleKey) (pos : Int) (m : Match) : Prop where
  tree : v.tree = m.map fun (stop, children) => .node key pos stop children
  stop : v.stop = (m.map fun (stop, _) => stop).getD pos

/-- A rule whose body has a derivation at a place is parsed to exactly what is derived, once there is
depth enough; less depth takes the answer away but never gives another. -/
theorem parse_gives_meaning (g : Grammar) (patterns : PatternTable) (text : Array Char)
    (key : RuleKey) (body : Expr) (pos : Int) (m : Match) (steps : List Step)
    (hpos : 0 ≤ pos ∧ pos ≤ text.size) (hb : g.rules.get? key = some body)
    (h : Yields g patterns text body pos m steps) :
    (∃ d₀, ∀ d ≥ d₀, ∃ v, parse g patterns d key text pos = .ok v ∧ v.Gives key pos m) ∧
    ∀ d, parse g patterns d key text pos = .error .tooDeep ∨
      ∃ v, parse g patterns d key text pos = .ok v ∧ v.Gives key pos m := by
  obtain ⟨d₀, r, hd₀⟩ := parse_of_yields (.rule hb h) hpos
  have hgives : (r.verdict pos (m.tree key pos)).Gives key pos m := by
    refine ⟨rfl, ?_⟩
    cases m <;> rfl
  refine ⟨⟨d₀, fun d hd => ⟨_, hd₀ d hd, hgives⟩⟩, fun d => ?_⟩
  exact (parse_eq_or_tooDeep hd₀ d).imp id fun heq => ⟨_, heq, hgives⟩

end Library

/-- A rule that wants an `a` and then itself, or else a single `a`. -/
def rightRecursive : Grammar :=
  let key := RuleKey.given "as" "as"
  { rules := ⟨[(key, .choice [.seq [.literal "a", .call key], .literal "a"])]⟩ }

theorem parse_gives_meaning_right_recursive :
    ∃ d₀, ∀ d ≥ d₀, ∃ v,
      parse rightRecursive {} d (.given "as" "as") #['a', 'a'] 0 = .ok v ∧
      v.tree = some (.node (.given "as" "as") 0 2
        [.leaf 0 1, .node (.given "as" "as") 1 2 [.leaf 1 2]]) ∧ v.stop = 2 := by
  let key := RuleKey.given "as" "as"
  have hit : ∀ pos, StandsIn #['a', 'a'] "a" pos → Yields rightRecursive {} #['a', 'a']
      (.literal "a") pos (some (pos + 1, [.leaf pos (pos + 1)])) [] := fun _ h => .literalHit h
  have miss : Yields rightRecursive {} #['a', 'a'] (.literal "a") 2 none
      [.missed (.literal "a") 2] := .literalMiss (by decide)
  -- past the last letter the rule fails, so there the second alternative is taken
  have hend : Yields rightRecursive {} #['a', 'a'] (.call key) 2 none _ :=
    .rule rfl (.choiceNext (.seqMiss miss) (.choiceNext miss .choiceNil))
  have hlast : Yields rightRecursive {} #['a', 'a'] (.call key) 1
      (some (2, [.node key 1 2 [.leaf 1 2]])) _ :=
    .rule rfl (.choiceNext (.seqHit (hit 1 (by decide)) (.seqMiss hend))
      (.choiceHit (hit 1 (by decide))))
  obtain ⟨⟨d₀, hd₀⟩, -⟩ := parse_gives_meaning rightRecursive {} #['a', 'a'] key _ 0 _ _
    (by decide) rfl (.choiceHit (.seqHit (hit 0 (by decide)) (.seqHit hlast .seqNil)))
  refine ⟨d₀, fun d hd => ?_⟩
  obtain ⟨v, hv, hgives⟩ := hd₀ d hd
  exact ⟨v, hv, hgives.tree, hgives.stop⟩

end PegScribe.Packrat
