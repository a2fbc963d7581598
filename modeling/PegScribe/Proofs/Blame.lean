import PegScribe.Proofs.Coverage
import PegScribe.Proofs.Positions

/-!
Blame: a failure is never blamed on white space.

In a recorded grammar a terminal is tried only after the white space before it was skipped, so whatever
fails does so at a solid place (`Source.Solid`), and skipping itself never fails. A run keeps this with
every step (`Tries.blameless`): over the rules of lexemes it is read off their three parts, over all other
expressions it follows their form.
-/
namespace PegScribe
open Recorder

/-- The text ends at the place, or a character that is no white space stands there. -/
def Source.Solid (s : Source) (pos : Int) : Prop :=
  pos = s.length ∨ ∃ o : Nat, pos = o ∧ ∃ c, s.chars[o]? = some c ∧ Text.isSpace c = false

theorem Source.Solid.inside {s : Source} {pos : Int} (h : s.Solid pos) :
    Packrat.Inside s.chars pos := by
  rcases h with rfl | ⟨o, rfl, c, hc, -⟩
  · exact ⟨by omega, Int.le_refl _⟩
  · have hlt : o < s.chars.size := (Array.getElem?_eq_some_iff.mp hc).1
    exact ⟨by omega, by omega⟩

/-- The place where white space ends is solid. -/
theorem Source.solid_skip {s : Source} {pos : Nat} (hpos : pos ≤ s.length) :
    s.Solid (Reading.skip s pos) := by
  have hle : Reading.skip s pos ≤ s.length := by
    have hrun := (List.takeWhile_prefix Text.isSpace (l := s.chars.toList.drop pos)).length_le
    have hrest : (s.chars.toList.drop pos).length = s.length - pos := List.length_drop ..
    unfold Reading.skip
    omega
  rcases Nat.lt_or_eq_of_le hle with hlt | heq
  · refine .inr ⟨_, rfl, s.chars[Reading.skip s pos], Array.getElem?_eq_getElem hlt, ?_⟩
    refine s.startsSolid_skip (Int.ofNat_le.mpr hle) (Int.le_refl _) _ ?_
    rw [toList_slice hle (Nat.le_refl _), List.head?_take, if_neg (by omega), List.head?_drop,
      Array.getElem?_toList, Array.getElem?_eq_getElem hlt]
  · exact .inl (congrArg Int.ofNat heq)

namespace Packrat
variable [PatternLibrary] {g : Grammar} {source : Source} {model : Model} {e : Expr} {pos : Int}
  {r r' : Run} {m : Match}

/-- Nothing failed at white space so far, and skipping white space did not fail. -/
structure Run.Blameless (source : Source) (r : Run) : Prop where
  meaning : r.patterns.meaning? whitespace = some PatternLibrary.blanks
  onward : r.MovesOnward source.chars
  missed : ∀ e pos, .missed e pos ∈ r.steps → source.Solid pos ∧ e ≠ .pattern whitespace

theorem blameless_start {patterns : PatternTable}
    (hws : patterns.meaning? whitespace = some PatternLibrary.blanks) :
    ({ patterns } : Run).Blameless source :=
  ⟨hws, movesOnward_start patterns, by simp⟩

theorem Run.Blameless.compile (hr : r.Blameless source) {t : String} {regex : Pattern}
    {table : PatternTable} (hc : r.patterns.compile t = .ok (regex, table)) :
    ({ r with patterns := table } : Run).Blameless source :=
  ⟨by rw [(PatternTable.compile_ok hc).2]; exact hr.meaning, hr.onward.of_memo rfl, hr.missed⟩

theorem Run.Blameless.miss (hr : r.Blameless source) (hpos : source.Solid pos)
    (he : e ≠ .pattern whitespace) : (r.miss e pos).Blameless source := by
  refine ⟨by rw [patterns_miss]; exact hr.meaning, hr.onward.of_memo (memo_miss ..), ?_⟩
  intro e' pos' hmem
  rw [steps_miss] at hmem
  rcases List.mem_cons.mp hmem with heq | hmem
  · cases heq
    exact ⟨hpos, he⟩
  · exact hr.missed e' pos' hmem

theorem Run.Blameless.enter (hr : r.Blameless source) (key : RuleKey) (pos : Int) :
    (r.enter key pos).Blameless source := by
  refine ⟨hr.meaning, hr.onward.enter key pos, fun e p hmem => hr.missed e p ?_⟩
  simpa [Run.enter] using hmem

theorem Run.Blameless.leave (hr : r.Blameless source) (hm : m.MovesOnward source.chars pos)
    (key : RuleKey) : (r.leave key pos (m.tree key pos)).Blameless source :=
  ⟨hr.meaning, hr.onward.leave hm key, hr.missed⟩

/-! ### Lexemes -/

/-- White space is always skipped, up to a solid place. -/
theorem tries_whitespace (hr : r.Blameless source) (hpos : Inside source.chars pos)
    (h : Tries g source.chars (.pattern whitespace) pos r m r') :
    r'.Blameless source ∧ ∃ mid trees, m = some (mid, trees) ∧ source.Solid mid := by
  have hskips : ∀ {regex table}, r.patterns.compile whitespace = .ok (regex, table) →
      patternEnd? source.chars regex pos = some (Reading.skip source pos.toNat : Int) := by
    intro regex table hc
    cases hr.meaning.symm.trans (PatternTable.compile_ok hc).1
    rw [patternEnd?_inside hpos, PatternLibrary.matchAt?_skip]
    rfl
  have hzero := hpos.1
  have hsize : pos ≤ source.length := hpos.2
  cases h with
  | patternHit hc hend =>
    cases (hskips hc).symm.trans hend
    exact ⟨hr.compile hc, _, _, rfl, source.solid_skip (by omega)⟩
  | patternMiss hc hend => cases (hskips hc).symm.trans hend

theorem tries_lexical {kind : RuleKind} (he : Lexical kind e) (hr : r.Blameless source)
    (hpos : source.Solid pos) (h : Tries g source.chars e pos r m r') : r'.Blameless source := by
  cases he with
  | literal t =>
    cases h with
    | literalHit _ => exact hr
    | literalMiss _ => exact hr.miss hpos nofun
  | misfit shown type => cases h
  | @pattern t _ _ =>
    by_cases hblank : t = whitespace
    · subst hblank
      exact (tries_whitespace hr hpos.inside h).1
    · cases h with
      | patternHit hc _ => exact hr.compile hc
      | patternMiss hc _ => exact (hr.compile hc).miss hpos fun heq => hblank (Expr.pattern.inj heq)

/-- A lexeme is tried where the white space before it ends, and the white space after it where the lexeme
ends. -/
theorem tries_padded {kind : RuleKind} (he : Lexical kind e) (hr : r.Blameless source)
    (hpos : Inside source.chars pos) (h : Tries g source.chars (padded e) pos r m r') :
    r'.Blameless source := by
  unfold padded at h
  cases h with
  | seqMiss hm =>
    obtain ⟨-, mid, trees, hsome, -⟩ := tries_whitespace hr hpos hm
    cases hsome
  | seqHit hbefore h =>
    obtain ⟨hr₁, mid, trees, hsome, hmid⟩ := tries_whitespace hr hpos hbefore
    cases hsome
    cases h with
    | seqMiss hm => exact tries_lexical he hr₁ hmid hm
    | seqHit hm h =>
      have hr₂ := tries_lexical he hr₁ hmid hm
      have hstop := ((hm.movesOnward hr₁.onward).2 _ rfl).inside hmid.inside
      cases h with
      | seqMiss hafter => exact (tries_whitespace hr₂ hstop hafter).1
      | seqHit hafter h =>
        cases h
        exact (tries_whitespace hr₂ hstop hafter).1

/-! ### Whole runs -/

/-- Nothing that a run of a recorded grammar tries fails at white space. -/
theorem Tries.blameless (hg : g.Lexed model) (h : Tries g source.chars e pos r m r')
    (he : e.Leafless) (hpos : Inside source.chars pos) (hr : r.Blameless source) :
    r'.Blameless source := by
  -- a match ends inside the text, so what comes after it is tried inside the text
  have hmid : ∀ {e : Expr} {pos mid : Int} {r r₁ : Run} {trees : List ParseTree},
      Tries g source.chars e pos r (some (mid, trees)) r₁ → Inside source.chars pos →
      r.Blameless source → Inside source.chars mid := by
    intro e pos mid r r₁ trees hm hpos hr
    exact ((hm.movesOnward hr.onward).2 _ rfl).inside hpos
  induction h with
  | literalHit _ => cases he
  | literalMiss _ => cases he
  | patternHit _ _ => cases he
  | patternMiss _ _ => cases he
  | again _ => exact hr
  | recalled _ => exact hr
  | @opened key pos r body m r' _ hb hm ih =>
    have hr' : r'.Blameless source := by
      cases htoken : model.isToken key with
      | true =>
        obtain ⟨kind, e, hlexical, rfl⟩ := hg.lexeme key body hb htoken
        exact tries_padded hlexical (hr.enter key pos) hpos hm
      | false => exact ih (hg.other key body hb htoken) hpos (hr.enter key pos)
    exact hr'.leave (hm.movesOnward (hr.enter key pos).onward).2 key
  | optionalHit _ ih => cases he with | rep _ he => exact ih he hpos hr
  | optionalMiss _ ih => cases he with | rep _ he => exact ih he hpos hr
  | manyEnd _ ih => cases he with | rep _ he => exact ih he hpos hr
  | manyIdle _ ih => cases he with | rep _ he => exact ih he hpos hr
  | manyNext hm _ _ ih ih' =>
    cases he with
    | rep _ he => exact ih' (.rep _ he) (hmid hm hpos hr) (ih he hpos hr)
  | someMiss _ ih => cases he with | rep _ he => exact ih he hpos hr
  | someHit hm _ ih ih' =>
    cases he with
    | rep _ he => exact ih' (.rep _ he) (hmid hm hpos hr) (ih he hpos hr)
  | seqNil => exact hr
  | seqMiss _ ih =>
    cases he with
    | seq he => exact ih (he _ (List.mem_cons_self ..)) hpos hr
  | seqHit hm _ ih ih' =>
    cases he with
    | seq he =>
      obtain ⟨he, hes⟩ := List.forall_mem_cons.mp he
      exact ih' (.seq hes) (hmid hm hpos hr) (ih he hpos hr)
  | choiceNil => exact hr
  | choiceHit _ ih =>
    cases he with
    | choice he => exact ih (he _ (List.mem_cons_self ..)) hpos hr
  | choiceNext _ _ ih ih' =>
    cases he with
    | choice he =>
      obtain ⟨he, hes⟩ := List.forall_mem_cons.mp he
      exact ih' (.choice hes) hpos (ih he hpos hr)

theorem blameless_of_parse {patterns : PatternTable} {d : Nat} {key : RuleKey} {v : Verdict}
    (hg : g.Lexed model) (hws : patterns.meaning? whitespace = some PatternLibrary.blanks)
    (hv : parse g patterns d key source.chars 0 = .ok v) :
    ∀ e pos, .missed e pos ∈ v.steps → source.Solid pos ∧ e ≠ .pattern whitespace := by
  obtain ⟨tree, r, htries, rfl⟩ := tries_of_parse hv
  have hr := htries.blameless hg (.call key) ⟨Int.le_refl 0, by omega⟩ (blameless_start hws)
  intro e pos hmem
  exact hr.missed e pos (List.mem_reverse.mp hmem)

/-- No other terminal is shown as the pattern for white space is. -/
theorem eq_whitespace_of_shown {patterns : PatternTable} {text : Array Char}
    (he : Fails patterns text pos e) (h : shown e = shown (.pattern whitespace)) :
    e = .pattern whitespace := by
  cases e with
  | literal t =>
    have hhead := congrArg (·.toList.head?) h
    simp only [shown, Expr.format, Text.quote, Text.quoteMark] at hhead
    split at hhead <;> simp [Except.toOption, whitespace] at hhead
  | pattern t => simpa [shown, Expr.format, Except.toOption] using h
  | _ => cases he

end Packrat

/-! ### Parsers -/

namespace Parser
open Packrat Reading
variable {parts : Parts} {parser : Parser}

section Library
variable [PatternLibrary]

/-- Failures never point into white space, as long as the bodies of the grammar push nothing by hand. In a
parse that says that the text is not matched either a terminal failed at the place that is reported, which
is the end of the text or holds a character that is no white space; or no terminal failed at all, and the
start of the text is reported with nothing expected. The pattern for white space fails nowhere, and is never
among what is expected. Only a factory method may say so in the parser's stead. -/
theorem failures_never_in_whitespace (parts : Parts) (parser : Parser) (depth : Nat) (source : Source)
    (line : Nat) (report : String) (deeds : List Deed) (hpush : parts.stage.PushesNothing)
    (hkeys : parts.stage.GivesOwnKeys) (hregistry : parts.registry = {})
    (hbuild : (build parts).1 = .ok parser)
    (hparse : parser.parseWithin depth source = (.error (.unmatched line report), deeds)) :
    parser.UnlessRaised deeds (.unmatched line report) (∃ (v : Verdict) (offset : Nat),
      parse parser.program.grammar parser.program.patterns depth parser.program.start source.chars 0 =
        .ok v ∧
      line = source.lineOf offset ∧ source.report? offset v.expected = some report ∧
      (∀ pos, .missed (.pattern whitespace) pos ∉ v.steps) ∧
      shown (.pattern whitespace) ∉ v.expected ∧
      (((∃ e, .missed e offset ∈ v.steps) ∧ source.Solid offset) ∨
        ((∀ e pos, .missed e pos ∉ v.steps) ∧ offset = 0 ∧ v.expected = []))) := by
  obtain ⟨hlexed, hws⟩ := lexed_of_build hpush hkeys hregistry hbuild
  refine (failed_of_unmatched hparse).mono ?_
  rintro ⟨index, rfl, hrun⟩
  obtain ⟨v, hv, -, rfl, hreport⟩ := Program.parse_of_failed hrun
  have htrue := truthful_of_parse hv ⟨Int.le_refl 0, by omega⟩
  have hmissed := blameless_of_parse hlexed hws hv
  obtain ⟨offset, hoffset⟩ := Int.eq_ofNat_of_zero_le (Program.furthest_inside hv).1
  rw [hoffset] at hreport ⊢
  refine ⟨v, offset, hv, rfl, hreport, fun pos hmem => (hmissed _ _ hmem).2 rfl, ?_, ?_⟩
  · intro hmem
    obtain ⟨e, hmem, hshown⟩ := (htrue.reported.terminals _).mp hmem
    exact (hmissed e _ hmem).2 (eq_whitespace_of_shown (htrue.fails e _ hmem).2 hshown)
  · rcases htrue.reported.reached with ⟨e, hmem⟩ | ⟨hnone, hall⟩
    · have hfurthest : v.furthest = offset := by
        have := (htrue.fails e _ hmem).1.1
        omega
      rw [hfurthest] at hmem
      exact .inl ⟨⟨e, hmem⟩, (hmissed e _ hmem).1⟩
    · exact .inr ⟨hall, by omega, htrue.reported.expected_nil_iff.mpr hall⟩

end Library

theorem failures_never_in_whitespace_nested : ∃ parser depth line report expected,
    (build nested).1 = .ok parser ∧
    parser.parseWithin depth (.ofString "(ab  !") = (.error (.unmatched line report), []) ∧
    ∃ offset : Nat, (Source.ofString "(ab  !").report? offset expected = some report ∧
      expected ≠ [] ∧ shown (.pattern whitespace) ∉ expected ∧
      (Source.ofString "(ab  !").Solid offset := by
  have hall : ((build nested).1.toOption.any fun p =>
      p.program.grammar.rules.entries.all (·.2.offers)) = true := by decide +kernel
  cases hbuild : (build nested).1 with
  | error f => rw [hbuild] at hall; cases hall
  | ok parser =>
    rw [hbuild] at hall
    have hoffers : parser.program.grammar.Offers := fun key body hbody =>
      List.all_eq_true.mp hall _ (Ledger.mem_entries_of_get? hbody)
    have hread : read nested 12 (.ofString "(ab  !") = some none := by with_unfolding_all rfl
    obtain ⟨m, steps, hyields, hbears⟩ := meets_of_read nested_declarative hbuild hread
    obtain rfl : m = none := by cases m <;> cases hbears; rfl
    have hin : Inside (Source.ofString "(ab  !").chars 0 := ⟨by decide, by decide⟩
    obtain ⟨depth, run, hdepth⟩ := parse_of_yields
      (show Yields _ _ _ _ 0 (.ofTree none) steps from hyields) hin
    have hv := hdepth depth (Nat.le_refl _)
    obtain ⟨report, hreport⟩ := (Source.ofString "(ab  !").report?_isSome
      (Int.le_max_right run.furthest 0) run.expected
    have hparse : parser.parseWithin depth (.ofString "(ab  !") =
        (.error (.unmatched ((Source.ofString "(ab  !").lineOf (max run.furthest 0)) report), []) := by
      unfold parseWithin
      rw [Program.runWithin_failed hv rfl hreport]
      rfl
    have hblame := failures_never_in_whitespace nested parser depth _ _ _ _ (by decide +kernel)
      nested_keys rfl hbuild hparse
    obtain ⟨v, offset, hv', -, hreport', -, hshown, ⟨⟨e, hmem⟩, hsolid⟩ | ⟨hnone, -⟩⟩ :=
      unlessRaised_nil.mp hblame
    · refine ⟨parser, depth, _, report, v.expected, rfl, hparse, offset, hreport', fun hnil => ?_, hshown,
        hsolid⟩
      exact (truthful_of_parse hv' hin).reported.expected_nil_iff.mp hnil e offset hmem
    · obtain ⟨e, at_, hmem⟩ := hyields.anyMissed hoffers rfl rfl
      cases hv.symm.trans hv'
      exact absurd ((verdict_of_yields hv hin hyields).2 _ |>.mpr hmem) (hnone e at_)

end Parser
end PegScribe
