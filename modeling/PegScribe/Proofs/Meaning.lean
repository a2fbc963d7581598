import PegScribe.Proofs.Tries

/-!
Meaning: what a parsing expression matches at a place of a text, with nothing remembered.

`Yields g patterns text e pos m steps` derives the match `m` of `e` at `pos` and lists the steps of the
derivation. Choice takes the first alternative that matches, and repetition goes on as long as its
body matches and moves. A derivation is finite, so no rule waits for itself at one place: there is one
derivation for an expression at a place (`Yields.unique`), and it opens a rule at a place where it
stands on its own (`Yields.opened_once`).
-/
namespace PegScribe.Packrat

variable [PatternLibrary]

/-- What an expression matches at a place inside the text, and the steps that it takes. -/
inductive Yields (g : Grammar) (patterns : PatternTable) (text : Array Char) :
    Expr → Int → Match → List Step → Prop
  | literalHit {t pos} (h : StandsIn text t pos) :
    Yields g patterns text (.literal t) pos (some (pos + t.length, [.leaf pos (pos + t.length)])) []
  | literalMiss {t pos} (h : ¬ StandsIn text t pos) :
    Yields g patterns text (.literal t) pos none [.missed (.literal t) pos]
  | patternHit {source pos regex} {stop : Nat} (hc : patterns.meaning? source = some regex)
    (h : regex.matchAt? text pos.toNat = some stop) :
    Yields g patterns text (.pattern source) pos (some (stop, [.leaf pos stop])) []
  | patternMiss {source pos regex} (hc : patterns.meaning? source = some regex)
    (h : regex.matchAt? text pos.toNat = none) :
    Yields g patterns text (.pattern source) pos none [.missed (.pattern source) pos]
  /-- A rule wraps the trees of its body. -/
  | rule {key pos body m steps} (hb : g.rules.get? key = some body)
    (hm : Yields g patterns text body pos m steps) :
    Yields g patterns text (.call key) pos (.ofTree (m.tree key pos)) (.opened key pos :: steps)
  | optionalHit {e pos found steps} (hm : Yields g patterns text e pos (some found) steps) :
    Yields g patterns text (.rep .optional e) pos (some found) steps
  | optionalMiss {e pos steps} (hm : Yields g patterns text e pos none steps) :
    Yields g patterns text (.rep .optional e) pos (some (pos, [])) steps
  | manyEnd {e pos steps} (hm : Yields g patterns text e pos none steps) :
    Yields g patterns text (.rep .zeroOrMore e) pos (some (pos, [])) steps
  /-- A round that does not move is dropped and ends the repetition. -/
  | manyIdle {e pos trees steps} (hm : Yields g patterns text e pos (some (pos, trees)) steps) :
    Yields g patterns text (.rep .zeroOrMore e) pos (some (pos, [])) steps
  | manyNext {e pos mid trees steps m more}
    (hm : Yields g patterns text e pos (some (mid, trees)) steps) (hne : mid ≠ pos)
    (hrest : Yields g patterns text (.rep .zeroOrMore e) mid m more) :
    Yields g patterns text (.rep .zeroOrMore e) pos (m.after trees) (steps ++ more)
  | someMiss {e pos steps} (hm : Yields g patterns text e pos none steps) :
    Yields g patterns text (.rep .oneOrMore e) pos none steps
  /-- The first of one or more rounds is kept even if it does not move. -/
  | someHit {e pos mid trees steps m more}
    (hm : Yields g patterns text e pos (some (mid, trees)) steps)
    (hrest : Yields g patterns text (.rep .zeroOrMore e) mid m more) :
    Yields g patterns text (.rep .oneOrMore e) pos (m.after trees) (steps ++ more)
  | seqNil {pos} : Yields g patterns text (.seq []) pos (some (pos, [])) []
  | seqMiss {e es pos steps} (hm : Yields g patterns text e pos none steps) :
    Yields g patterns text (.seq (e :: es)) pos none steps
  | seqHit {e es pos mid trees steps m more}
    (hm : Yields g patterns text e pos (some (mid, trees)) steps)
    (hrest : Yields g patterns text (.seq es) mid m more) :
    Yields g patterns text (.seq (e :: es)) pos (m.after trees) (steps ++ more)
  | choiceNil {pos} : Yields g patterns text (.choice []) pos none []
  | choiceHit {e es pos found steps} (hm : Yields g patterns text e pos (some found) steps) :
    Yields g patterns text (.choice (e :: es)) pos (some found) steps
  | choiceNext {e es pos steps m more} (hm : Yields g patterns text e pos none steps)
    (hrest : Yields g patterns text (.choice es) pos m more) :
    Yields g patterns text (.choice (e :: es)) pos m (steps ++ more)

variable {g : Grammar} {patterns : PatternTable} {text : Array Char}

/-- An expression has one match at a place, and one way to come to it. -/
theorem Yields.unique {e : Expr} {pos : Int} {m m' : Match} {steps steps' : List Step}
    (h : Yields g patterns text e pos m steps) (h' : Yields g patterns text e pos m' steps') :
    m = m' ∧ steps = steps' := by
  induction h generalizing m' steps' with
  | literalHit h =>
    cases h' with
    | literalHit _ => exact ⟨rfl, rfl⟩
    | literalMiss hn => exact absurd h hn
  | literalMiss hn =>
    cases h' with
    | literalHit h => exact absurd h hn
    | literalMiss _ => exact ⟨rfl, rfl⟩
  | patternHit hc h =>
    cases h' with
    | patternHit hc' h' =>
      cases hc.symm.trans hc'
      cases h.symm.trans h'
      exact ⟨rfl, rfl⟩
    | patternMiss hc' h' => cases hc.symm.trans hc'; cases h.symm.trans h'
  | patternMiss hc h =>
    cases h' with
    | patternHit hc' h' => cases hc.symm.trans hc'; cases h.symm.trans h'
    | patternMiss hc' h' => exact ⟨rfl, rfl⟩
  | rule hb _ ih =>
    cases h' with
    | rule hb' hm' =>
      cases hb.symm.trans hb'
      obtain ⟨rfl, rfl⟩ := ih hm'
      exact ⟨rfl, rfl⟩
  | optionalHit _ ih =>
    cases h' with
    | optionalHit hm' => exact ih hm'
    | optionalMiss hm' => cases (ih hm').1
  | optionalMiss _ ih =>
    cases h' with
    | optionalHit hm' => cases (ih hm').1
    | optionalMiss hm' => exact ⟨rfl, (ih hm').2⟩
  | manyEnd _ ih =>
    cases h' with
    | manyEnd hm' => exact ⟨rfl, (ih hm').2⟩
    | manyIdle hm' => cases (ih hm').1
    | manyNext hm' _ _ => cases (ih hm').1
  | manyIdle _ ih =>
    cases h' with
    | manyEnd hm' => cases (ih hm').1
    | manyIdle hm' => exact ⟨rfl, (ih hm').2⟩
    | manyNext hm' hne _ => cases (ih hm').1; exact absurd rfl hne
  | manyNext _ hne _ ih ih' =>
    cases h' with
    | manyEnd hm' => cases (ih hm').1
    | manyIdle hm' => cases (ih hm').1; exact absurd rfl hne
    | manyNext hm' _ hrest' =>
      obtain ⟨heq, rfl⟩ := ih hm'
      cases heq
      obtain ⟨rfl, rfl⟩ := ih' hrest'
      exact ⟨rfl, rfl⟩
  | someMiss _ ih =>
    cases h' with
    | someMiss hm' => exact ih hm'
    | someHit hm' _ => cases (ih hm').1
  | someHit _ _ ih ih' =>
    cases h' with
    | someMiss hm' => cases (ih hm').1
    | someHit hm' hrest' =>
      obtain ⟨heq, rfl⟩ := ih hm'
      cases heq
      obtain ⟨rfl, rfl⟩ := ih' hrest'
      exact ⟨rfl, rfl⟩
  | seqNil => cases h'; exact ⟨rfl, rfl⟩
  | seqMiss _ ih =>
    cases h' with
    | seqMiss hm' => exact ih hm'
    | seqHit hm' _ => cases (ih hm').1
  | seqHit _ _ ih ih' =>
    cases h' with
    | seqMiss hm' => cases (ih hm').1
    | seqHit hm' hrest' =>
      obtain ⟨heq, rfl⟩ := ih hm'
      cases heq
      obtain ⟨rfl, rfl⟩ := ih' hrest'
      exact ⟨rfl, rfl⟩
  | choiceNil => cases h'; exact ⟨rfl, rfl⟩
  | choiceHit _ ih =>
    cases h' with
    | choiceHit hm' => exact ih hm'
    | choiceNext hm' _ => cases (ih hm').1
  | choiceNext _ _ ih ih' =>
    cases h' with
    | choiceHit hm' => cases (ih hm').1
    | choiceNext hm' hrest' =>
      obtain ⟨-, rfl⟩ := ih hm'
      obtain ⟨rfl, rfl⟩ := ih' hrest'
      exact ⟨rfl, rfl⟩

/-- The rule has a derivation at the place, in at most `n` steps. -/
def YieldsWithin (g : Grammar) (patterns : PatternTable) (text : Array Char) (key : RuleKey)
    (at_ : Int) (n : Nat) : Prop :=
  ∃ m steps, Yields g patterns text (.call key) at_ m steps ∧ steps.length ≤ n

theorem YieldsWithin.mono {key : RuleKey} {at_ : Int} {n n' : Nat}
    (h : YieldsWithin g patterns text key at_ n) (hle : n ≤ n') :
    YieldsWithin g patterns text key at_ n' := by
  obtain ⟨m, steps, hy, hn⟩ := h
  exact ⟨m, steps, hy, by omega⟩

theorem yieldsWithin_append {key : RuleKey} {at_ : Int} {steps more : List Step}
    (h : .opened key at_ ∈ steps → YieldsWithin g patterns text key at_ steps.length)
    (h' : .opened key at_ ∈ more → YieldsWithin g patterns text key at_ more.length)
    (hmem : .opened key at_ ∈ steps ++ more) :
    YieldsWithin g patterns text key at_ (steps ++ more).length := by
  rw [List.length_append]
  rcases List.mem_append.mp hmem with hmem | hmem
  · exact (h hmem).mono (by omega)
  · exact (h' hmem).mono (by omega)

/-- A rule that a derivation opens has a derivation of its own there, and no longer a one. -/
theorem Yields.of_opened {e : Expr} {pos : Int} {m : Match} {steps : List Step}
    (h : Yields g patterns text e pos m steps) {key : RuleKey} {at_ : Int}
    (hmem : .opened key at_ ∈ steps) : YieldsWithin g patterns text key at_ steps.length := by
  induction h with
  | literalHit _ => simp at hmem
  | literalMiss _ => simp at hmem
  | patternHit _ _ => simp at hmem
  | patternMiss _ _ => simp at hmem
  | rule hb hm ih =>
    rcases List.mem_cons.mp hmem with heq | hmem
    · cases heq
      exact ⟨_, _, .rule hb hm, Nat.le_refl _⟩
    · exact (ih hmem).mono (by rw [List.length_cons]; omega)
  | optionalHit _ ih => exact ih hmem
  | optionalMiss _ ih => exact ih hmem
  | manyEnd _ ih => exact ih hmem
  | manyIdle _ ih => exact ih hmem
  | manyNext _ _ _ ih ih' => exact yieldsWithin_append ih ih' hmem
  | someMiss _ ih => exact ih hmem
  | someHit _ _ ih ih' => exact yieldsWithin_append ih ih' hmem
  | seqNil => simp at hmem
  | seqMiss _ ih => exact ih hmem
  | seqHit _ _ ih ih' => exact yieldsWithin_append ih ih' hmem
  | choiceNil => simp at hmem
  | choiceHit _ ih => exact ih hmem
  | choiceNext _ _ ih ih' => exact yieldsWithin_append ih ih' hmem

/-- The derivation of a rule's body does not open the rule at the same place again: that would take
a derivation shorter than itself. -/
theorem Yields.opened_once {key : RuleKey} {pos : Int} {body : Expr} {m : Match}
    {steps : List Step} (hb : g.rules.get? key = some body)
    (h : Yields g patterns text body pos m steps) : .opened key pos ∉ steps := by
  intro hmem
  obtain ⟨m', steps', h', hle⟩ := h.of_opened hmem
  obtain ⟨-, rfl⟩ := h'.unique (.rule hb h)
  rw [List.length_cons] at hle
  omega

/-- Inside the text a match moves onward. -/
theorem Yields.movesOnward {e : Expr} {pos : Int} {m : Match} {steps : List Step}
    (h : Yields g patterns text e pos m steps) (hpos : Inside text pos) :
    m.MovesOnward text pos := by
  induction h with
  | literalHit h => exact movesOnward_some (literalEnd?_onward (literalEnd?_of_standsIn hpos h))
  | literalMiss _ => exact movesOnward_none _
  | @patternHit _ pos regex stop _ h =>
    have hend : patternEnd? text regex pos = some (stop : Int) := by
      rw [patternEnd?_inside hpos, h]; rfl
    exact movesOnward_some (patternEnd?_onward hend)
  | patternMiss _ _ => exact movesOnward_none _
  | rule _ _ ih => exact movesOnward_ofTree (ih hpos)
  | optionalHit _ ih => exact ih hpos
  | optionalMiss _ _ => exact movesOnward_some (.refl _ _)
  | manyEnd _ _ => exact movesOnward_some (.refl _ _)
  | manyIdle _ _ => exact movesOnward_some (.refl _ _)
  | manyNext _ _ _ ih ih' =>
    have hmid := ih hpos _ rfl
    exact movesOnward_after hmid (ih' (hmid.inside hpos)) _
  | someMiss _ _ => exact movesOnward_none _
  | someHit _ _ ih ih' =>
    have hmid := ih hpos _ rfl
    exact movesOnward_after hmid (ih' (hmid.inside hpos)) _
  | seqNil => exact movesOnward_some (.refl _ _)
  | seqMiss _ _ => exact movesOnward_none _
  | seqHit _ _ ih ih' =>
    have hmid := ih hpos _ rfl
    exact movesOnward_after hmid (ih' (hmid.inside hpos)) _
  | choiceNil => exact movesOnward_none _
  | choiceHit _ ih => exact ih hpos
  | choiceNext _ _ _ ih' => exact ih' hpos

end PegScribe.Packrat
