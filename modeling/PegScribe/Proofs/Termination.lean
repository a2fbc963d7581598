import PegScribe.Proofs.Ledgers
import PegScribe.Proofs.Tries
import PegScribe.Regex.Library

/-!
Termination: every run of a linked grammar comes to an end, wherever it starts.

A rule is opened at most once at each place, and a run only ever gets to finitely many places: those
after its start, or, past the end of the text, its start and the end. So the pairs of rules and places
that are still unknown bound the nesting of rules; inside one rule the expression gets smaller, and a
repetition ends because each round but the last leaves fewer rounds to come.
-/
namespace PegScribe

/-- References name rules, patterns are well formed, and nothing else is out of place. -/
inductive Expr.Linked [PatternLibrary] (g : Grammar) (patterns : PatternTable) : Expr → Prop
  | literal (t : String) : Linked g patterns (.literal t)
  | pattern {source : String} {r : Pattern} (h : patterns.meaning? source = some r) :
    Linked g patterns (.pattern source)
  | call {key : RuleKey} {body : Expr} (h : g.rules.get? key = some body) :
    Linked g patterns (.call key)
  | optional {body : Expr} (h : Linked g patterns body) : Linked g patterns (.rep .optional body)
  | zeroOrMore {body : Expr} (h : Linked g patterns body) :
    Linked g patterns (.rep .zeroOrMore body)
  | oneOrMore {body : Expr} (h : Linked g patterns body) : Linked g patterns (.rep .oneOrMore body)
  | seq {items : List Expr} (h : ∀ e ∈ items, Linked g patterns e) : Linked g patterns (.seq items)
  | choice {alts : List Expr} (h : ∀ e ∈ alts, Linked g patterns e) :
    Linked g patterns (.choice alts)

/-- Every rule's body is linked. -/
def Grammar.Linked [PatternLibrary] (g : Grammar) (patterns : PatternTable) : Prop :=
  ∀ key body, g.rules.get? key = some body → body.Linked g patterns

namespace Packrat
variable {g : Grammar} {patterns : PatternTable} {text : Array Char}

/-! ### The places of a run -/

/-- The places that a run from `origin` can get to. -/
def places (text : Array Char) (origin : Int) : List Int :=
  if origin ≤ text.size then
    (List.range ((text.size - origin).toNat + 1)).map fun (i : Nat) => origin + i
  else [origin, text.size]

theorem mem_places {origin pos : Int} (h : Onward text origin pos) : pos ∈ places text origin := by
  unfold Onward at h
  unfold places
  split
  · rename_i hle
    rw [if_pos hle] at h
    exact List.mem_map.mpr ⟨(pos - origin).toNat, List.mem_range.mpr (by omega), by omega⟩
  · rename_i hgt
    rw [if_neg hgt] at h
    rcases h with rfl | rfl <;> simp

section Library
variable [PatternLibrary]

/-! ### What a run keeps -/

theorem Tries.keeps_meaning {e : Expr} {pos : Int} {r r' : Run} {m : Match}
    (h : Tries g text e pos r m r') : r'.patterns.meaning? = r.patterns.meaning? := by
  induction h with
  | literalHit _ => rfl
  | literalMiss _ => rw [patterns_miss]
  | patternHit hc _ => exact (PatternTable.compile_ok hc).2
  | patternMiss hc _ => rw [patterns_miss]; exact (PatternTable.compile_ok hc).2
  | again _ => rfl
  | recalled _ => rfl
  | opened _ _ _ ih => exact ih
  | optionalHit _ ih => exact ih
  | optionalMiss _ ih => exact ih
  | manyEnd _ ih => exact ih
  | manyIdle _ ih => exact ih
  | manyNext _ _ _ ih ih' => exact ih'.trans ih
  | someMiss _ ih => exact ih
  | someHit _ _ ih ih' => exact ih'.trans ih
  | seqNil => rfl
  | seqMiss _ ih => exact ih
  | seqHit _ _ ih ih' => exact ih'.trans ih
  | choiceNil => rfl
  | choiceHit _ ih => exact ih
  | choiceNext _ _ ih ih' => exact ih'.trans ih

/-- What is not known at the end was not known at the start. -/
theorem Tries.forgets_nothing {e : Expr} {pos : Int} {r r' : Run} {m : Match}
    (h : Tries g text e pos r m r') {at_ : RuleKey × Int} (hat : r'.memo[at_]? = none) :
    r.memo[at_]? = none := by
  induction h with
  | literalHit _ => exact hat
  | literalMiss _ => rwa [memo_miss] at hat
  | patternHit _ _ => exact hat
  | patternMiss _ _ => rwa [memo_miss] at hat
  | again _ => exact hat
  | recalled _ => exact hat
  | opened _ _ _ ih =>
    rw [memo_leave] at hat
    split at hat
    · cases hat
    · have henter := ih hat
      rw [memo_enter] at henter
      split at henter
      · cases henter
      · exact henter
  | optionalHit _ ih => exact ih hat
  | optionalMiss _ ih => exact ih hat
  | manyEnd _ ih => exact ih hat
  | manyIdle _ ih => exact ih hat
  | manyNext _ _ _ ih ih' => exact ih (ih' hat)
  | someMiss _ ih => exact ih hat
  | someHit _ _ ih ih' => exact ih (ih' hat)
  | seqNil => exact hat
  | seqMiss _ ih => exact ih hat
  | seqHit _ _ ih ih' => exact ih (ih' hat)
  | choiceNil => exact hat
  | choiceHit _ ih => exact ih hat
  | choiceNext _ _ ih ih' => exact ih (ih' hat)

/-- A state in which a run from `origin` can go on, with all that is still unknown listed. -/
structure Run.Ready (g : Grammar) (patterns : PatternTable) (text : Array Char) (origin : Int)
    (unknown : List (RuleKey × Int)) (r : Run) : Prop where
  onward : r.MovesOnward text
  meaning : r.patterns.meaning? = patterns.meaning?
  listed : ∀ key body pos, g.rules.get? key = some body → Onward text origin pos →
    r.memo[(key, pos)]? = none → (key, pos) ∈ unknown

section Steps
variable {origin : Int} {unknown : List (RuleKey × Int)} {r r' : Run}

theorem Run.Ready.next {e : Expr} {pos : Int} {m : Match}
    (hr : r.Ready g patterns text origin unknown) (h : Tries g text e pos r m r') :
    r'.Ready g patterns text origin unknown where
  onward := (h.movesOnward hr.onward).1
  meaning := h.keeps_meaning.trans hr.meaning
  listed := fun key body pos hb hpos hmemo =>
    hr.listed key body pos hb hpos (h.forgets_nothing hmemo)

/-- Opening a rule strikes it off the list. -/
theorem Run.Ready.enter (hr : r.Ready g patterns text origin unknown) (key : RuleKey) (pos : Int) :
    (r.enter key pos).Ready g patterns text origin (unknown.filter (· ≠ (key, pos))) where
  onward := hr.onward.enter key pos
  meaning := hr.meaning
  listed := by
    intro k body p hb hp hmemo
    rw [memo_enter] at hmemo
    split at hmemo
    · cases hmemo
    · rename_i hne
      exact List.mem_filter.mpr ⟨hr.listed k body p hb hp hmemo, decide_eq_true (Ne.symm hne)⟩

/-- Wherever a run gets to, the expression comes to an outcome. -/
def Settles (g : Grammar) (patterns : PatternTable) (text : Array Char) (origin : Int)
    (unknown : List (RuleKey × Int)) (e : Expr) : Prop :=
  ∀ pos r, Onward text origin pos → r.Ready g patterns text origin unknown →
    ∃ m r', Tries g text e pos r m r'

theorem Settles.step {e : Expr} {pos : Int} (he : Settles g patterns text origin unknown e)
    (hpos : Onward text origin pos) (hr : r.Ready g patterns text origin unknown) :
    ∃ m r', Tries g text e pos r m r' ∧ r'.Ready g patterns text origin unknown ∧
      ∀ found, m = some found → Onward text origin found.1 := by
  obtain ⟨m, r', h⟩ := he pos r hpos hr
  exact ⟨m, r', h, hr.next h, fun found hm => hpos.trans ((h.movesOnward hr.onward).2 found hm)⟩

theorem settles_literal (t : String) : Settles g patterns text origin unknown (.literal t) := by
  intro pos r _ _
  cases h : literalEnd? text t pos with
  | none => exact ⟨_, _, .literalMiss h⟩
  | some stop => exact ⟨_, _, .literalHit h⟩

theorem settles_pattern {source : String} {regex : Pattern}
    (hc : patterns.meaning? source = some regex) :
    Settles g patterns text origin unknown (.pattern source) := by
  intro pos r _ hr
  obtain ⟨table, hcompile⟩ := PatternTable.compile_of_meaning? (hr.meaning ▸ hc)
  cases h : patternEnd? text regex pos with
  | none => exact ⟨_, _, .patternMiss hcompile h⟩
  | some stop => exact ⟨_, _, .patternHit hcompile h⟩

/-- A rule comes to an outcome if its body does while one pair less is unknown. -/
theorem settles_call {key : RuleKey} {body : Expr} (hb : g.rules.get? key = some body)
    (hbody : ∀ fewer : List (RuleKey × Int), fewer.length < unknown.length →
      Settles g patterns text origin fewer body) :
    Settles g patterns text origin unknown (.call key) := by
  intro pos r hpos hr
  cases hmemo : r.memo[(key, pos)]? with
  | some known =>
    cases known with
    | pending => exact ⟨_, _, .again hmemo⟩
    | done tree => exact ⟨_, _, .recalled hmemo⟩
  | none =>
    have hmem := hr.listed key body pos hb hpos hmemo
    have hlt : (unknown.filter (· ≠ (key, pos))).length < unknown.length :=
      List.length_filter_lt_length_iff_exists.mpr ⟨_, hmem, by simp⟩
    obtain ⟨m, r', h⟩ := hbody _ hlt pos _ hpos (hr.enter key pos)
    exact ⟨_, _, .opened hmemo hb h⟩

theorem settles_optional {e : Expr} (he : Settles g patterns text origin unknown e) :
    Settles g patterns text origin unknown (.rep .optional e) := by
  intro pos r hpos hr
  obtain ⟨m, r', h⟩ := he pos r hpos hr
  cases m with
  | none => exact ⟨_, _, .optionalMiss h⟩
  | some found => exact ⟨_, _, .optionalHit h⟩

/-- Rounds get fewer as long as they move. -/
theorem settles_many {e : Expr} (he : Settles g patterns text origin unknown e) :
    Settles g patterns text origin unknown (.rep .zeroOrMore e) := by
  intro pos r hpos hr
  induction hn : roundsFrom text pos using Nat.strongRecOn generalizing pos r with
  | ind n ih =>
    obtain ⟨m, r₁, h, hr₁, hmid⟩ := he.step hpos hr
    cases m with
    | none => exact ⟨_, _, .manyEnd h⟩
    | some found =>
      obtain ⟨mid, trees⟩ := found
      by_cases hne : mid = pos
      · subst hne; exact ⟨_, _, .manyIdle h⟩
      · have hlt := roundsFrom_lt ((h.movesOnward hr.onward).2 _ rfl) hne
        obtain ⟨m, r', hrest⟩ := ih _ (hn ▸ hlt) mid r₁ (hmid _ rfl) hr₁ rfl
        exact ⟨_, _, .manyNext h hne hrest⟩

theorem settles_some {e : Expr} (he : Settles g patterns text origin unknown e) :
    Settles g patterns text origin unknown (.rep .oneOrMore e) := by
  intro pos r hpos hr
  obtain ⟨m, r₁, h, hr₁, hmid⟩ := he.step hpos hr
  cases m with
  | none => exact ⟨_, _, .someMiss h⟩
  | some found =>
    obtain ⟨m, r', hrest⟩ := settles_many he found.1 r₁ (hmid _ rfl) hr₁
    exact ⟨_, _, .someHit h hrest⟩

theorem settles_seq : ∀ {items : List Expr},
    (∀ e ∈ items, Settles g patterns text origin unknown e) →
      Settles g patterns text origin unknown (.seq items)
  | [], _ => fun _ _ _ _ => ⟨_, _, .seqNil⟩
  | e :: rest, he => by
    intro pos r hpos hr
    obtain ⟨m, r₁, h, hr₁, hmid⟩ := (he e (List.mem_cons_self ..)).step hpos hr
    cases m with
    | none => exact ⟨_, _, .seqMiss h⟩
    | some found =>
      have hrest := settles_seq fun e hmem => he e (List.mem_cons_of_mem _ hmem)
      obtain ⟨m, r', hrest⟩ := hrest found.1 r₁ (hmid _ rfl) hr₁
      exact ⟨_, _, .seqHit h hrest⟩

theorem settles_choice : ∀ {alts : List Expr},
    (∀ e ∈ alts, Settles g patterns text origin unknown e) →
      Settles g patterns text origin unknown (.choice alts)
  | [], _ => fun _ _ _ _ => ⟨_, _, .choiceNil⟩
  | e :: rest, he => by
    intro pos r hpos hr
    obtain ⟨m, r₁, h, hr₁, -⟩ := (he e (List.mem_cons_self ..)).step hpos hr
    cases m with
    | some found => exact ⟨_, _, .choiceHit h⟩
    | none =>
      have hrest := settles_choice fun e hmem => he e (List.mem_cons_of_mem _ hmem)
      obtain ⟨m, r', hrest⟩ := hrest pos r₁ hpos hr₁
      exact ⟨_, _, .choiceNext h hrest⟩

end Steps

/-! ### Whole runs -/

/-- Every expression of a linked grammar comes to an outcome: by induction on the number of pairs that
are unknown, and for each number on the expression. -/
theorem settles_of_linked (hg : g.Linked patterns) {origin : Int} :
    ∀ {n : Nat} {unknown : List (RuleKey × Int)}, unknown.length < n →
      ∀ {e : Expr}, e.Linked g patterns → Settles g patterns text origin unknown e
  | 0, _, hlt, _, _ => by omega
  | n + 1, unknown, hlt, e, he => by
    induction he with
    | literal t => exact settles_literal t
    | pattern h => exact settles_pattern h
    | call h =>
      refine settles_call h fun fewer hfewer => ?_
      exact settles_of_linked hg (show fewer.length < n by omega) (hg _ _ h)
    | optional _ ih => exact settles_optional ih
    | zeroOrMore _ ih => exact settles_many ih
    | oneOrMore _ ih => exact settles_some ih
    | seq _ ih => exact settles_seq ih
    | choice _ ih => exact settles_choice ih

theorem ready_start (origin : Int) : ({ patterns } : Run).Ready g patterns text origin
    (g.rules.keys.flatMap fun key => (places text origin).map fun pos => (key, pos)) where
  onward := movesOnward_start patterns
  meaning := rfl
  listed := fun key _ _ hb hpos _ => List.mem_flatMap.mpr
    ⟨key, Ledger.mem_keys_of_get? hb, List.mem_map_of_mem (mem_places hpos)⟩

/-- With a linked grammar, a linked expression comes to an outcome from every place, in or out of the
text. -/
theorem tries_of_linked (hg : g.Linked patterns) {e : Expr} (he : e.Linked g patterns)
    (text : Array Char) (pos : Int) : ∃ m r, Tries g text e pos { patterns } m r :=
  settles_of_linked hg (Nat.lt_succ_self _) he pos _ (.refl text pos) (ready_start pos)

theorem ofTree_of_call {key : RuleKey} {pos : Int} {r r' : Run} {m : Match}
    (h : Tries g text (.call key) pos r m r') : ∃ tree, m = .ofTree tree := by
  cases h with
  | again _ => exact ⟨none, rfl⟩
  | recalled _ => exact ⟨_, rfl⟩
  | opened _ _ _ => exact ⟨_, rfl⟩

/-- A rule of a linked grammar comes to an outcome from every place, and `parse` answers it with depth
enough. -/
theorem parse_of_linked (hg : g.Linked patterns) {key : RuleKey} (hkey : g.rules.contains key = true)
    (text : Array Char) (pos : Int) :
    ∃ tree r, Tries g text (.call key) pos { patterns } (.ofTree tree) r ∧
      ∃ d₀, ∀ d ≥ d₀, parse g patterns d key text pos = .ok (r.verdict pos tree) := by
  obtain ⟨body, hb⟩ := Option.isSome_iff_exists.mp hkey
  obtain ⟨m, r, h⟩ := tries_of_linked hg (.call hb) text pos
  obtain ⟨tree, rfl⟩ := ofTree_of_call h
  exact ⟨tree, r, h, parse_of_tries h⟩

/-- Every run of a linked grammar ends, from every place: what the engine does without a limit is a
finite derivation, and from some depth on it answers just that. A rule that the grammar lacks is
refused at once. -/
theorem parse_terminates (g : Grammar) (patterns : PatternTable) (hg : g.Linked patterns)
    (key : RuleKey) (text : Array Char) (pos : Int) :
    (g.rules.contains key = true → ∃ tree r,
      Tries g text (.call key) pos { patterns } (.ofTree tree) r ∧
      ∃ d₀, ∀ d ≥ d₀, parse g patterns d key text pos = .ok (r.verdict pos tree)) ∧
    (g.rules.contains key = false → ∀ d,
      parse g patterns d key text pos = .error (.grammar (.undefinedRule key))) := by
  constructor
  · intro hkey
    exact parse_of_linked hg hkey text pos
  · intro hkey d
    have hnone : g.rules.get? key = none := by simpa [Ledger.contains] using hkey
    have hmemo : ({ patterns } : Run).memo[(key, pos)]? = none := by simp
    rw [parse_run, apply_run, hmemo, hnone]

end Library

/-- Two rules that start with each other, and repeat what may match nothing. -/
def knotted : Grammar :=
  let a := RuleKey.given "a" "a"
  let b := RuleKey.given "b" "b"
  { rules := ⟨[
      (a, .seq [.call b, .rep .oneOrMore (.rep .optional (.call a)), .pattern "x*"]),
      (b, .choice [.seq [.call a, .literal "x"], .rep .zeroOrMore (.seq []), .choice []])]⟩ }

theorem parse_terminates_knotted : knotted.Linked {} ∧
    ∀ pos : Int, ∃ d₀ v, ∀ d ≥ d₀,
      parse knotted {} d (.given "a" "a") #['x', 'x'] pos = .ok v := by
  have ha : knotted.rules.get? (.given "a" "a") = some _ := rfl
  have hb : knotted.rules.get? (.given "b" "b") = some _ := rfl
  have hlinked : knotted.Linked {} := by
    intro key body h
    have hmem := Ledger.mem_entries_of_get? h
    simp only [knotted, List.mem_cons, Prod.mk.injEq, List.not_mem_nil, or_false] at hmem
    rcases hmem with ⟨-, rfl⟩ | ⟨-, rfl⟩
    · refine .seq fun e he => ?_
      simp only [List.mem_cons, List.not_mem_nil, or_false] at he
      rcases he with rfl | rfl | rfl
      · exact .call hb
      · exact .oneOrMore (.optional (.call ha))
      · exact .pattern (show PatternTable.meaning? {} "x*" = some _ from rfl)
    · refine .choice fun e he => ?_
      simp only [List.mem_cons, List.not_mem_nil, or_false] at he
      rcases he with rfl | rfl | rfl
      · refine .seq fun e he => ?_
        simp only [List.mem_cons, List.not_mem_nil, or_false] at he
        rcases he with rfl | rfl
        · exact .call ha
        · exact .literal "x"
      · exact .zeroOrMore (.seq (by simp))
      · exact .choice (by simp)
  refine ⟨hlinked, fun pos => ?_⟩
  obtain ⟨tree, r, -, d₀, hd₀⟩ := (parse_terminates knotted {} hlinked (.given "a" "a")
    #['x', 'x'] pos).1 rfl
  exact ⟨d₀, _, hd₀⟩

end Packrat
end PegScribe
