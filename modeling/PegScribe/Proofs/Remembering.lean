import Mathlib.Logic.Relation
import PegScribe.Proofs.Derivation
import PegScribe.Proofs.Memo

/-!
Remembering: what a run has noted of a rule at a place, it never writes over.

A run opens a rule only where nothing is noted of it, and closes it where it is still being worked out, so
every note that trying an expression starts from is there when it has been tried (`Tries.keeps_note`), and
at every moment in between (`LeadsTo.keeps_note`). Hence a rule is opened at most once at a place, and the
trees of a match hold one and the same tree wherever they hold the rule at that place.
-/
namespace PegScribe
namespace Packrat
variable {g : Grammar} {patterns : PatternTable} {text : Array Char}

/-! ### Notes are kept -/

theorem memo_enter_of_note {r : Run} {key : RuleKey} {pos : Int} {at_ : RuleKey × Int} {note : Entry}
    (h : r.memo[(key, pos)]? = none) (hat : r.memo[at_]? = some note) :
    (r.enter key pos).memo[at_]? = some note := by
  rw [memo_enter, if_neg ?_, hat]
  rintro rfl
  rw [h] at hat
  cases hat

/-- Closing a rule that is being worked out leaves every outcome as it was. -/
theorem memo_leave_of_done {r : Run} {key : RuleKey} {pos : Int} {at_ : RuleKey × Int}
    {outcome : Option ParseTree} (h : r.Awaits key pos) (hat : r.memo[at_]? = some (.done outcome))
    (tree : Option ParseTree) : (r.leave key pos tree).memo[at_]? = some (.done outcome) := by
  rw [memo_leave, if_neg ?_, hat]
  rintro rfl
  unfold Run.Awaits at h
  rw [h] at hat
  cases hat

theorem awaits_enter_self (r : Run) (key : RuleKey) (pos : Int) : (r.enter key pos).Awaits key pos := by
  unfold Run.Awaits
  rw [memo_enter, if_pos rfl]

/-! ### One tree for a rule at a place -/

/-- The rule that a step opens, and where. -/
def Step.place? : Step → Option (RuleKey × Int)
  | .opened key pos => some (key, pos)
  | .missed .. => none

/-- The rules that were opened, and where. -/
def Run.places (r : Run) : List (RuleKey × Int) := r.steps.filterMap Step.place?

/-- Every rule in the trees is noted with its own tree. -/
def Run.Holds (r : Run) (trees : List ParseTree) : Prop :=
  ∀ key start stop children, .node key start stop children ∈ ParseTree.subtreesAll trees →
    r.memo[(key, start)]? = some (.done (some (.node key start stop children)))

/-- Every rule in the trees of the match is noted with its own tree. -/
def Match.HeldBy (r : Run) (m : Match) : Prop := ∀ found, m = some found → r.Holds found.2

/-- A rule was opened at most once at a place and is noted there since, and so is every rule in a tree
that is noted. -/
structure Run.Coherent (r : Run) : Prop where
  once : r.places.Nodup
  noted : ∀ at_ ∈ r.places, r.memo[at_]? ≠ none
  trees : ∀ (at_ : RuleKey × Int) tree, r.memo[at_]? = some (.done (some tree)) → r.Holds [tree]

theorem coherent_start (patterns : PatternTable) : ({ patterns } : Run).Coherent :=
  ⟨.nil, by rintro at_ ⟨⟩, fun at_ tree h => by simp at h⟩

section Coherence
variable {r r' : Run} {key : RuleKey} {pos mid stop : Int} {trees more : List ParseTree} {m : Match}

theorem Run.Coherent.of_same (hr : r.Coherent) (hmemo : r'.memo = r.memo)
    (hplaces : r'.places = r.places) : r'.Coherent := by
  refine ⟨hplaces ▸ hr.once, ?_, ?_⟩
  · rw [hplaces, hmemo]
    exact hr.noted
  · unfold Run.Holds
    rw [hmemo]
    exact hr.trees

theorem holds_nil : r.Holds [] := by rintro key start stop children ⟨⟩

theorem holds_leaf : r.Holds [.leaf pos stop] := by
  intro key start stop children h
  simp [ParseTree.subtreesAll, ParseTree.subtrees] at h

theorem Run.Holds.append (h : r.Holds trees) (h' : r.Holds more) : r.Holds (trees ++ more) := by
  intro key start stop children hmem
  rw [ParseTree.subtreesAll_append] at hmem
  rcases List.mem_append.mp hmem with hmem | hmem
  · exact h key start stop children hmem
  · exact h' key start stop children hmem

theorem Run.Holds.mono (h : r.Holds trees) (hkeep : ∀ (at_ : RuleKey × Int) (outcome : Option ParseTree),
    r.memo[at_]? = some (.done outcome) → r'.memo[at_]? = some (.done outcome)) : r'.Holds trees :=
  fun key start stop children hmem => hkeep _ _ (h key start stop children hmem)

theorem heldBy_none : Match.HeldBy r none := by rintro _ ⟨⟩

theorem heldBy_some (h : r.Holds trees) : Match.HeldBy r (some (stop, trees)) := by
  rintro _ ⟨⟩; exact h

theorem heldBy_after (h : r.Holds trees) (hm : m.HeldBy r) : (m.after trees).HeldBy r := by
  cases m with
  | none => exact heldBy_none
  | some rest => exact heldBy_some (h.append (hm rest rfl))

theorem Run.Coherent.recalled (hr : r.Coherent) {tree : Option ParseTree}
    (h : r.memo[(key, pos)]? = some (.done tree)) : (Match.ofTree tree).HeldBy r := by
  cases tree with
  | none => exact heldBy_none
  | some tree => exact heldBy_some (hr.trees _ tree h)

/-- A rule of which nothing is noted has not been opened yet. -/
theorem Run.Coherent.enter (hr : r.Coherent) (h : r.memo[(key, pos)]? = none) :
    (r.enter key pos).Coherent := by
  have hplaces : (r.enter key pos).places = (key, pos) :: r.places := rfl
  refine ⟨?_, fun at_ hat => ?_, fun at_ tree hat => ?_⟩
  · rw [hplaces]
    exact List.nodup_cons.mpr ⟨fun hmem => hr.noted _ hmem h, hr.once⟩
  · rw [memo_enter]
    split
    · simp
    · rename_i hne
      rcases List.mem_cons.mp (hplaces ▸ hat) with rfl | hat
      · exact absurd rfl hne
      · exact hr.noted at_ hat
  · rw [memo_enter] at hat
    split at hat
    · cases hat
    · exact (hr.trees at_ tree hat).mono fun _ _ => memo_enter_of_note h

theorem holds_leave (hr : r.Awaits key pos) (hm : m.HeldBy r) {tree : ParseTree}
    (htree : m.tree key pos = some tree) : (r.leave key pos (some tree)).Holds [tree] := by
  obtain ⟨⟨stop, children⟩, rfl, rfl⟩ := Option.map_eq_some_iff.mp htree
  intro k start stop' children' hmem
  simp only [ParseTree.subtreesAll, ParseTree.subtrees, List.append_nil, List.mem_cons] at hmem
  rcases hmem with heq | hmem
  · cases heq
    rw [memo_leave, if_pos rfl]
  · exact memo_leave_of_done hr (hm _ rfl k start stop' children' hmem) _

theorem heldBy_leave (hr : r.Awaits key pos) (hm : m.HeldBy r) :
    (Match.ofTree (m.tree key pos)).HeldBy (r.leave key pos (m.tree key pos)) := by
  cases htree : m.tree key pos with
  | none => exact heldBy_none
  | some tree => exact heldBy_some (holds_leave hr hm htree)

theorem Run.Coherent.leave (hr : r.Coherent) (hawaits : r.Awaits key pos) (hm : m.HeldBy r) :
    (r.leave key pos (m.tree key pos)).Coherent := by
  refine ⟨hr.once, fun at_ hat => ?_, fun at_ tree hat => ?_⟩
  · rw [memo_leave]
    split
    · simp
    · exact hr.noted at_ hat
  · rw [memo_leave] at hat
    split at hat
    · have htree : m.tree key pos = some tree := by simpa using hat
      rw [htree]
      exact holds_leave hawaits hm htree
    · exact (hr.trees at_ tree hat).mono fun _ _ h => memo_leave_of_done hawaits h _

end Coherence

/-! ### Runs keep notes -/

variable [PatternLibrary]

/-- What is noted when an expression is tried is still noted, as it was, when it has been tried. -/
theorem Tries.keeps_note {e : Expr} {pos : Int} {r r' : Run} {m : Match}
    (h : Tries g text e pos r m r') {at_ : RuleKey × Int} {note : Entry}
    (hat : r.memo[at_]? = some note) : r'.memo[at_]? = some note := by
  induction h with
  | literalHit _ => exact hat
  | literalMiss _ => rwa [memo_miss]
  | patternHit _ _ => exact hat
  | patternMiss _ _ => rwa [memo_miss]
  | again _ => exact hat
  | recalled _ => exact hat
  | @opened key pos r body m r' h _ _ ih =>
    rw [memo_leave, if_neg ?_]
    · exact ih (memo_enter_of_note h hat)
    · rintro rfl
      rw [h] at hat
      cases hat
  | optionalHit _ ih => exact ih hat
  | optionalMiss _ ih => exact ih hat
  | manyEnd _ ih => exact ih hat
  | manyIdle _ ih => exact ih hat
  | manyNext _ _ _ ih ih' => exact ih' (ih hat)
  | someMiss _ ih => exact ih hat
  | someHit _ _ ih ih' => exact ih' (ih hat)
  | seqNil => exact hat
  | seqMiss _ ih => exact ih hat
  | seqHit _ _ ih ih' => exact ih' (ih hat)
  | choiceNil => exact hat
  | choiceHit _ ih => exact ih hat
  | choiceNext _ _ ih ih' => exact ih' (ih hat)

theorem Tries.awaits {e : Expr} {pos at_ : Int} {r r' : Run} {m : Match} {key : RuleKey}
    (h : Tries g text e pos r m r') (hr : r.Awaits key at_) : r'.Awaits key at_ :=
  h.keeps_note hr

/-! ### Every moment of a run -/

/-- A moment of a run: an expression is about to be tried at a place, in a state. -/
structure Moment where
  expr : Expr
  pos : Int
  run : Run

/-- Trying the expression of one moment comes to the other, as the next thing that is tried inside it or
as what is left of it. -/
inductive Leads (g : Grammar) (text : Array Char) : Moment → Moment → Prop
  | body {key pos r e} (h : r.memo[(key, pos)]? = none) (hb : g.rules.get? key = some e) :
    Leads g text ⟨.call key, pos, r⟩ ⟨e, pos, r.enter key pos⟩
  | round {how e pos r} : Leads g text ⟨.rep how e, pos, r⟩ ⟨e, pos, r⟩
  | nextRounds {e pos r mid trees r₁} (hm : Tries g text e pos r (some (mid, trees)) r₁)
    (hne : mid ≠ pos) :
    Leads g text ⟨.rep .zeroOrMore e, pos, r⟩ ⟨.rep .zeroOrMore e, mid, r₁⟩
  | laterRounds {e pos r mid trees r₁} (hm : Tries g text e pos r (some (mid, trees)) r₁) :
    Leads g text ⟨.rep .oneOrMore e, pos, r⟩ ⟨.rep .zeroOrMore e, mid, r₁⟩
  | item {e es pos r} : Leads g text ⟨.seq (e :: es), pos, r⟩ ⟨e, pos, r⟩
  | nextItems {e es pos r mid trees r₁} (hm : Tries g text e pos r (some (mid, trees)) r₁) :
    Leads g text ⟨.seq (e :: es), pos, r⟩ ⟨.seq es, mid, r₁⟩
  | alternative {e es pos r} : Leads g text ⟨.choice (e :: es), pos, r⟩ ⟨e, pos, r⟩
  | nextAlternatives {e es pos r r₁} (hm : Tries g text e pos r none r₁) :
    Leads g text ⟨.choice (e :: es), pos, r⟩ ⟨.choice es, pos, r₁⟩

theorem Leads.keeps_note {c c' : Moment} (h : Leads g text c c') {at_ : RuleKey × Int} {note : Entry}
    (hat : c.run.memo[at_]? = some note) : c'.run.memo[at_]? = some note := by
  cases h with
  | body h _ => exact memo_enter_of_note h hat
  | round => exact hat
  | nextRounds hm _ => exact hm.keeps_note hat
  | laterRounds hm => exact hm.keeps_note hat
  | item => exact hat
  | nextItems hm => exact hm.keeps_note hat
  | alternative => exact hat
  | nextAlternatives hm => exact hm.keeps_note hat

/-- What trying an expression comes to is determined by the state it is tried in. -/
theorem Tries.unique {e : Expr} {pos : Int} {r r₁ r₂ : Run} {m₁ m₂ : Match}
    (h₁ : Tries g text e pos r m₁ r₁) (h₂ : Tries g text e pos r m₂ r₂) (hr : r.MovesOnward text) :
    m₁ = m₂ ∧ r₁ = r₂ := by
  obtain ⟨d₁, hd₁⟩ := reaches_of_tries h₁ hr
  obtain ⟨d₂, hd₂⟩ := reaches_of_tries h₂ hr
  have hsame := ((eval_extends g text (Nat.le_max_left d₁ d₂) e pos).of_ok hd₁).symm.trans
    ((eval_extends g text (Nat.le_max_right d₁ d₂) e pos).of_ok hd₂)
  cases hsame
  exact ⟨rfl, rfl⟩

/-- The moment's expression comes to an outcome, and every outcome that is noted then is also noted in
the state `last`. -/
def Moment.EndsBefore (g : Grammar) (text : Array Char) (last : Run) (c : Moment) : Prop :=
  c.run.MovesOnward text ∧ ∃ m s, Tries g text c.expr c.pos c.run m s ∧
    ∀ (at_ : RuleKey × Int) (outcome : Option ParseTree),
      s.memo[at_]? = some (.done outcome) → last.memo[at_]? = some (.done outcome)

/-- A moment that another leads to ends before it. -/
theorem Leads.endsBefore {c c' : Moment} {last : Run} (h : Leads g text c c')
    (hc : c.EndsBefore g text last) : c'.EndsBefore g text last := by
  obtain ⟨hr, m, s, htries, hlast⟩ := hc
  cases h with
  | @body key pos r e hmemo hb =>
    refine ⟨hr.enter key pos, ?_⟩
    cases htries with
    | again h => rw [hmemo] at h; cases h
    | recalled h => rw [hmemo] at h; cases h
    | opened _ hb' hm =>
      cases hb.symm.trans hb'
      have hawaits := hm.awaits (awaits_enter_self r key pos)
      exact ⟨_, _, hm, fun at_ outcome hat => hlast _ _ (memo_leave_of_done hawaits hat _)⟩
  | round =>
    refine ⟨hr, ?_⟩
    cases htries with
    | optionalHit hm => exact ⟨_, _, hm, hlast⟩
    | optionalMiss hm => exact ⟨_, _, hm, hlast⟩
    | manyEnd hm => exact ⟨_, _, hm, hlast⟩
    | manyIdle hm => exact ⟨_, _, hm, hlast⟩
    | manyNext hm _ hrest => exact ⟨_, _, hm, fun _ _ hat => hlast _ _ (hrest.keeps_note hat)⟩
    | someMiss hm => exact ⟨_, _, hm, hlast⟩
    | someHit hm hrest => exact ⟨_, _, hm, fun _ _ hat => hlast _ _ (hrest.keeps_note hat)⟩
  | nextRounds hm hne =>
    refine ⟨(hm.movesOnward hr).1, ?_⟩
    cases htries with
    | manyEnd hm' => cases (hm.unique hm' hr).1
    | manyIdle hm' => cases (hm.unique hm' hr).1; exact absurd rfl hne
    | manyNext hm' _ hrest =>
      obtain ⟨heq, rfl⟩ := hm.unique hm' hr
      cases heq
      exact ⟨_, _, hrest, hlast⟩
  | laterRounds hm =>
    refine ⟨(hm.movesOnward hr).1, ?_⟩
    cases htries with
    | someMiss hm' => cases (hm.unique hm' hr).1
    | someHit hm' hrest =>
      obtain ⟨heq, rfl⟩ := hm.unique hm' hr
      cases heq
      exact ⟨_, _, hrest, hlast⟩
  | item =>
    refine ⟨hr, ?_⟩
    cases htries with
    | seqMiss hm => exact ⟨_, _, hm, hlast⟩
    | seqHit hm hrest => exact ⟨_, _, hm, fun _ _ hat => hlast _ _ (hrest.keeps_note hat)⟩
  | nextItems hm =>
    refine ⟨(hm.movesOnward hr).1, ?_⟩
    cases htries with
    | seqMiss hm' => cases (hm.unique hm' hr).1
    | seqHit hm' hrest =>
      obtain ⟨heq, rfl⟩ := hm.unique hm' hr
      cases heq
      exact ⟨_, _, hrest, hlast⟩
  | alternative =>
    refine ⟨hr, ?_⟩
    cases htries with
    | choiceHit hm => exact ⟨_, _, hm, hlast⟩
    | choiceNext hm hrest => exact ⟨_, _, hm, fun _ _ hat => hlast _ _ (hrest.keeps_note hat)⟩
  | nextAlternatives hm =>
    refine ⟨(hm.movesOnward hr).1, ?_⟩
    cases htries with
    | choiceHit hm' => cases (hm.unique hm' hr).1
    | choiceNext hm' hrest =>
      obtain ⟨-, rfl⟩ := hm.unique hm' hr
      exact ⟨_, _, hrest, hlast⟩

/-- Trying the expression of one moment comes to the other in the end. -/
abbrev LeadsTo (g : Grammar) (text : Array Char) : Moment → Moment → Prop :=
  Relation.ReflTransGen (Leads g text)

theorem LeadsTo.keeps_note {c c' : Moment} (h : LeadsTo g text c c') {at_ : RuleKey × Int}
    {note : Entry} (hat : c.run.memo[at_]? = some note) : c'.run.memo[at_]? = some note := by
  induction h with
  | refl => exact hat
  | tail _ hlast ih => exact hlast.keeps_note ih

theorem LeadsTo.endsBefore {c c' : Moment} {last : Run} (h : LeadsTo g text c c')
    (hc : c.EndsBefore g text last) : c'.EndsBefore g text last := by
  induction h with
  | refl => exact hc
  | tail _ hlast ih => exact hlast.endsBefore ih

/-! ### What is held -/

/-- What a run notes stays coherent, and holds every tree of the match. -/
theorem Tries.coherent {e : Expr} {pos : Int} {r r' : Run} {m : Match}
    (h : Tries g text e pos r m r') (hr : r.Coherent) : r'.Coherent ∧ m.HeldBy r' := by
  -- the trees of the first part are still held when the second has been tried
  have hafter : ∀ {e₂ pos₂ mid r₁ r'} {trees : List ParseTree} {m : Match},
      Tries g text e₂ pos₂ r₁ m r' → Match.HeldBy r₁ (some (mid, trees)) → m.HeldBy r' →
      (m.after trees).HeldBy r' := fun hrest htrees hm =>
    heldBy_after ((htrees _ rfl).mono fun _ _ => hrest.keeps_note) hm
  induction h with
  | literalHit _ => exact ⟨hr, heldBy_some holds_leaf⟩
  | literalMiss _ => exact ⟨hr.of_same (memo_miss ..) rfl, heldBy_none⟩
  | patternHit _ _ => exact ⟨hr.of_same rfl rfl, heldBy_some holds_leaf⟩
  | patternMiss _ _ => exact ⟨hr.of_same (memo_miss ..) rfl, heldBy_none⟩
  | again _ => exact ⟨hr, heldBy_none⟩
  | recalled h => exact ⟨hr, hr.recalled h⟩
  | @opened key pos r body m r' h _ hm ih =>
    obtain ⟨hr', hheld⟩ := ih (hr.enter h)
    have hawaits := hm.awaits (awaits_enter_self r key pos)
    exact ⟨hr'.leave hawaits hheld, heldBy_leave hawaits hheld⟩
  | optionalHit _ ih => exact ih hr
  | optionalMiss _ ih => exact ⟨(ih hr).1, heldBy_some holds_nil⟩
  | manyEnd _ ih => exact ⟨(ih hr).1, heldBy_some holds_nil⟩
  | manyIdle _ ih => exact ⟨(ih hr).1, heldBy_some holds_nil⟩
  | manyNext _ _ hrest ih ih' =>
    obtain ⟨hr₁, hm⟩ := ih hr
    obtain ⟨hr', hmore⟩ := ih' hr₁
    exact ⟨hr', hafter hrest hm hmore⟩
  | someMiss _ ih => exact ih hr
  | someHit _ hrest ih ih' =>
    obtain ⟨hr₁, hm⟩ := ih hr
    obtain ⟨hr', hmore⟩ := ih' hr₁
    exact ⟨hr', hafter hrest hm hmore⟩
  | seqNil => exact ⟨hr, heldBy_some holds_nil⟩
  | seqMiss _ ih => exact ih hr
  | seqHit _ hrest ih ih' =>
    obtain ⟨hr₁, hm⟩ := ih hr
    obtain ⟨hr', hmore⟩ := ih' hr₁
    exact ⟨hr', hafter hrest hm hmore⟩
  | choiceNil => exact ⟨hr, heldBy_none⟩
  | choiceHit _ ih => exact ih hr
  | choiceNext _ _ ih ih' => exact ih' (ih hr).1

theorem Leads.coherent {c c' : Moment} (h : Leads g text c c') (hc : c.run.Coherent) :
    c'.run.Coherent := by
  cases h with
  | body h _ => exact hc.enter h
  | round => exact hc
  | nextRounds hm _ => exact (hm.coherent hc).1
  | laterRounds hm => exact (hm.coherent hc).1
  | item => exact hc
  | nextItems hm => exact (hm.coherent hc).1
  | alternative => exact hc
  | nextAlternatives hm => exact (hm.coherent hc).1

theorem LeadsTo.coherent {c c' : Moment} (h : LeadsTo g text c c') (hc : c.run.Coherent) :
    c'.run.Coherent := by
  induction h with
  | refl => exact hc
  | tail _ hlast ih => exact hlast.coherent ih

end Packrat

/-! ### Whole runs -/

namespace ParseTree

mutual

theorem sizeOf_le_of_mem_subtrees : ∀ {tree t : ParseTree}, t ∈ tree.subtrees → sizeOf t ≤ sizeOf tree
  | .leaf _ _, t, h => by
    rw [subtrees, List.mem_singleton] at h
    exact Nat.le_of_eq (congrArg sizeOf h)
  | .node key start stop children, t, h => by
    rw [subtrees, List.mem_cons] at h
    rcases h with rfl | h
    · exact Nat.le_refl _
    · have hle := sizeOf_le_of_mem_subtreesAll h
      simp only [ParseTree.node.sizeOf_spec]
      omega

theorem sizeOf_le_of_mem_subtreesAll : ∀ {trees : List ParseTree} {t : ParseTree},
    t ∈ subtreesAll trees → sizeOf t ≤ sizeOf trees
  | [], t, h => by cases h
  | tree :: rest, t, h => by
    rw [subtreesAll] at h
    simp only [List.cons.sizeOf_spec]
    rcases List.mem_append.mp h with h | h
    · have hle := sizeOf_le_of_mem_subtrees h
      omega
    · have hle := sizeOf_le_of_mem_subtreesAll h
      omega

end

/-- No tree stands inside itself. -/
theorem not_mem_own_subtrees (key : RuleKey) (start stop : Int) (children : List ParseTree) :
    .node key start stop children ∉ subtreesAll children := by
  intro h
  have hle := sizeOf_le_of_mem_subtreesAll h
  simp only [ParseTree.node.sizeOf_spec] at hle
  omega

/-- Wherever a rule stands in the tree from one place on, it has the same end and the same children, and
it does not stand inside itself. -/
structure OneEach (root : ParseTree) : Prop where
  same : ∀ key start stop stop' children children',
    .node key start stop children ∈ root.subtrees → .node key start stop' children' ∈ root.subtrees →
    stop = stop' ∧ children = children'
  proper : ∀ key start stop stop' children children',
    .node key start stop children ∈ root.subtrees → .node key start stop' children' ∉ subtreesAll children

end ParseTree

namespace Packrat
variable {g : Grammar} {patterns : PatternTable} {text : Array Char}

theorem Run.Coherent.oneEach {r : Run} (hr : r.Coherent) {root : ParseTree} (h : r.Holds [root]) :
    root.OneEach := by
  have hroot : ∀ {t}, t ∈ root.subtrees → t ∈ ParseTree.subtreesAll [root] := by
    simp [ParseTree.subtreesAll]
  refine ⟨fun key start stop stop' children children' hmem hmem' => ?_,
    fun key start stop stop' children children' hmem hmem' => ?_⟩
  · have hsame := (h _ _ _ _ (hroot hmem)).symm.trans (h _ _ _ _ (hroot hmem'))
    simpa using hsame
  · have hnode := h _ _ _ _ (hroot hmem)
    -- what stands inside a tree that is noted is noted too
    have hinside := hr.trees _ _ hnode key start stop' children'
      (by simp [ParseTree.subtreesAll, ParseTree.subtrees, hmem'])
    obtain ⟨rfl, rfl⟩ : stop = stop' ∧ children = children' := by
      simpa using hnode.symm.trans hinside
    exact ParseTree.not_mem_own_subtrees key start stop children hmem'

/-- The moment that a run of a rule starts with. -/
def Moment.start (patterns : PatternTable) (key : RuleKey) (pos : Int) : Moment :=
  ⟨.call key, pos, { patterns }⟩

/-- The outcomes that are noted at a moment are noted at every moment that it leads to, and when its
expression has been tried. -/
def Moment.Lasting [PatternLibrary] (g : Grammar) (text : Array Char) (c : Moment) : Prop :=
  ∀ (at_ : RuleKey × Int) (outcome : Option ParseTree), c.run.memo[at_]? = some (.done outcome) →
    (∀ c', LeadsTo g text c c' → c'.run.memo[at_]? = some (.done outcome)) ∧
    ∀ m s, Tries g text c.expr c.pos c.run m s → s.memo[at_]? = some (.done outcome)

theorem Moment.lasting [PatternLibrary] (c : Moment) : c.Lasting g text :=
  fun _ _ hat => ⟨fun _ h => h.keeps_note hat, fun _ _ htries => htries.keeps_note hat⟩

/-- The outcomes that are noted at a moment are noted in the state `last`. -/
def Moment.LastsUntil (last : Run) (c : Moment) : Prop :=
  ∀ (at_ : RuleKey × Int) (outcome : Option ParseTree), c.run.memo[at_]? = some (.done outcome) →
    last.memo[at_]? = some (.done outcome)

theorem Moment.EndsBefore.lastsUntil [PatternLibrary] {c : Moment} {last : Run}
    (h : c.EndsBefore g text last) : c.LastsUntil last := by
  intro at_ outcome hat
  obtain ⟨-, m, s, htries, hlast⟩ := h
  exact hlast at_ outcome (htries.keeps_note hat)

/-- One result for a rule at a place, in every grammar, left-recursive ones included. At no moment of a
run has a rule's body been tried twice at a place, and an outcome that is noted stays as it is; this holds
of a run that is broken off, too. When the run comes to its end, every outcome noted on the way is there,
and in the tree that comes out a rule has one end and the same children wherever it stands from one place
on, so that it does not stand inside itself there. -/
theorem one_result_per_place [PatternLibrary] (g : Grammar) (patterns : PatternTable) (key : RuleKey)
    (text : Array Char) (pos : Int) :
    (∀ c, LeadsTo g text (.start patterns key pos) c → c.run.places.Nodup ∧ c.Lasting g text) ∧
    ∀ d v, parse g patterns d key text pos = .ok v →
      (v.steps.filterMap Step.place?).Nodup ∧
      (∃ last : Run, v = last.verdict pos v.tree ∧
        ∀ c, LeadsTo g text (.start patterns key pos) c → c.LastsUntil last) ∧
      ∀ root, v.tree = some root → root.OneEach := by
  refine ⟨fun c hc => ⟨(hc.coherent (coherent_start patterns)).once, c.lasting⟩, fun d v h => ?_⟩
  obtain ⟨tree, last, htries, rfl⟩ := tries_of_parse h
  obtain ⟨hlast, hheld⟩ := htries.coherent (coherent_start patterns)
  have hends : (Moment.start patterns key pos).EndsBefore g text last :=
    ⟨movesOnward_start patterns, _, _, htries, fun _ _ => id⟩
  refine ⟨?_, ⟨last, rfl, fun c hc => (hc.endsBefore hends).lastsUntil⟩, ?_⟩
  · show (last.steps.reverse.filterMap Step.place?).Nodup
    rw [List.filterMap_reverse]
    exact List.pairwise_reverse.mpr (hlast.once.imp Ne.symm)
  · rintro root rfl
    exact hlast.oneEach (hheld _ rfl)

/-- A rule that starts with itself, and another that stands twice at one place and matches nothing there. -/
def doubled : Grammar :=
  let whole := RuleKey.given "whole" "whole"
  let mark := RuleKey.given "mark" "mark"
  { rules := ⟨[
      (whole, .choice [.seq [.call whole, .literal "x"], .seq [.call mark, .call mark, .literal "x"]]),
      (mark, .rep .optional (.literal "y"))]⟩ }

theorem one_result_per_place_doubled :
    ∃ d v, parse doubled {} d (.given "whole" "whole") #['x'] 0 = .ok v ∧
      v.tree = some (.node (.given "whole" "whole") 0 1
        [.node (.given "mark" "mark") 0 0 [], .node (.given "mark" "mark") 0 0 [], .leaf 0 1]) ∧
      (v.steps.filterMap Step.place?).Nodup ∧ ∀ root, v.tree = some root → root.OneEach := by
  let whole := RuleKey.given "whole" "whole"
  let mark := RuleKey.given "mark" "mark"
  let empty := ParseTree.node mark 0 0 []
  let start : Run := { patterns := {} }
  have hfirst : Tries doubled #['x'] (.call mark) 0 (start.enter whole 0) (some (0, [empty])) _ :=
    .opened (by rw [memo_enter, if_neg (by decide)]; simp [start]) rfl
      (.optionalMiss (.literalMiss rfl))
  -- the second mark is not worked out again
  have hsecond : ∀ r : Run, Tries doubled #['x'] (.call mark) 0 (r.leave mark 0 (some empty))
      (some (0, [empty])) (r.leave mark 0 (some empty)) := by
    intro r
    have hnoted : (r.leave mark 0 (some empty)).memo[(mark, (0 : Int))]? = some (.done (some empty)) := by
      rw [memo_leave, if_pos rfl]
    exact .recalled hnoted
  have hend : ∀ r, Tries doubled #['x'] (.seq [.literal "x"]) 0 r (some (1, [.leaf 0 1])) r :=
    fun r => .seqHit (m := some (1, [])) (.literalHit rfl) .seqNil
  have hbody : Tries doubled #['x'] (.choice [.seq [.call whole, .literal "x"],
      .seq [.call mark, .call mark, .literal "x"]]) 0 (start.enter whole 0)
      (some (1, [empty, empty, .leaf 0 1])) _ :=
    .choiceNext (.seqMiss (.again (by rw [memo_enter, if_pos rfl])))
      (.choiceHit (.seqHit hfirst (.seqHit (hsecond _) (hend _))))
  have htries : Tries doubled #['x'] (.call whole) 0 start
      (.ofTree (some (.node whole 0 1 [empty, empty, .leaf 0 1]))) _ :=
    .opened (by simp [start]) rfl hbody
  obtain ⟨d, hd⟩ := parse_of_tries htries
  have hparse := hd d (Nat.le_refl d)
  obtain ⟨honce, -, hone⟩ := (one_result_per_place doubled {} whole #['x'] 0).2 d _ hparse
  exact ⟨d, _, hparse, rfl, honce, hone⟩

end Packrat
end PegScribe
