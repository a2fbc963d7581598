import PegScribe.Parser
import PegScribe.Proofs.Deeds
import PegScribe.Proofs.Derivation
import PegScribe.Proofs.Faults
import PegScribe.Regex.Library

/-!
Losslessness: the tree of a match accounts for every character that was matched.

Every match of a run is derived from its expression, also when rules recur on their left and when
outcomes are recalled (`Tries.derives`). So the tree of a whole match covers the text from its start to
where it stops, nothing left out and nothing twice, and a text that is only matched in part is matched
up to a place before its end.
-/
namespace PegScribe
namespace Packrat
variable [PatternLibrary] {g : Grammar} {patterns : PatternTable} {source : Source}

/-! ### Every match is derived -/

/-- The match, if there is one, is a derivation of the expression. -/
def Match.Derived (g : Grammar) (patterns : PatternTable) (source : Source) (e : Expr) (pos : Int)
    (m : Match) : Prop :=
  ∀ found, m = some found → Derives g patterns source e pos found.2 found.1

/-- The trees that are remembered are derivations, and patterns still mean what they meant. -/
structure Run.Grounded (g : Grammar) (patterns : PatternTable) (source : Source) (r : Run) :
    Prop where
  meaning : r.patterns.meaning? = patterns.meaning?
  done : ∀ key pos tree, r.memo[(key, pos)]? = some (.done tree) → Inside source.chars pos →
    (Match.ofTree tree).Derived g patterns source (.call key) pos

theorem grounded_start : ({ patterns } : Run).Grounded g patterns source :=
  ⟨rfl, by intro key pos tree h; simp at h⟩

theorem Run.Grounded.of_memo {r r' : Run} (hr : r.Grounded g patterns source)
    (hmeaning : r'.patterns.meaning? = r.patterns.meaning?) (hmemo : r'.memo = r.memo) :
    r'.Grounded g patterns source :=
  ⟨hmeaning.trans hr.meaning, fun key pos tree h => hr.done key pos tree (hmemo ▸ h)⟩

theorem Run.Grounded.enter {r : Run} (hr : r.Grounded g patterns source) (key : RuleKey)
    (pos : Int) : (r.enter key pos).Grounded g patterns source := by
  refine ⟨hr.meaning, fun k p tree h => ?_⟩
  rw [memo_enter] at h
  split at h
  · cases h
  · exact hr.done k p tree h

theorem Run.Grounded.leave {r : Run} (hr : r.Grounded g patterns source) {key : RuleKey} {pos : Int}
    {tree : Option ParseTree} (h : (Match.ofTree tree).Derived g patterns source (.call key) pos) :
    (r.leave key pos tree).Grounded g patterns source := by
  refine ⟨hr.meaning, fun k p tree' hmemo => ?_⟩
  rw [memo_leave] at hmemo
  split at hmemo
  · rename_i heq
    cases heq
    cases hmemo
    exact fun _ => h
  · exact hr.done k p tree' hmemo

section Matches
variable {e : Expr} {es : List Expr} {pos mid stop : Int} {trees : List ParseTree} {m : Match}

theorem derived_none : Match.Derived g patterns source e pos none := by rintro _ ⟨⟩

theorem derived_some (h : Derives g patterns source e pos trees stop) :
    Match.Derived g patterns source e pos (some (stop, trees)) := by
  rintro _ ⟨⟩; exact h

theorem derived_rule {key : RuleKey} {body : Expr} (hb : g.rules.get? key = some body)
    (h : m.Derived g patterns source body pos) :
    (Match.ofTree (m.tree key pos)).Derived g patterns source (.call key) pos := by
  cases m with
  | none => rintro _ ⟨⟩
  | some found => rintro _ ⟨⟩; exact .rule hb (h found rfl)

/-- A match after another, when the expression is made of the two in turn. -/
theorem derived_after {first rest : Expr}
    (hmake : ∀ {more stop}, Derives g patterns source rest mid more stop →
      Derives g patterns source first pos (trees ++ more) stop)
    (h : m.Derived g patterns source rest mid) :
    (m.after trees).Derived g patterns source first pos := by
  cases m with
  | none => rintro _ ⟨⟩
  | some found => rintro _ ⟨⟩; exact hmake (h found rfl)

theorem derived_choice {alts : List Expr} (hsub : ∀ e' ∈ es, e' ∈ alts)
    (h : m.Derived g patterns source (.choice es) pos) :
    m.Derived g patterns source (.choice alts) pos := by
  rintro found rfl
  cases h found rfl with
  | choice he hd => exact .choice (hsub _ he) hd

theorem literal_derived {t : String} (hpos : Inside source.chars pos)
    (h : literalEnd? source.chars t pos = some stop) :
    Derives g patterns source (.literal t) pos [.leaf pos stop] stop := by
  obtain ⟨-, hstands, hstop⟩ := literalEnd?_eq_some h
  obtain ⟨hle, hsize⟩ := (literalEnd?_onward h).bounds hpos.2
  rw [clamp_of_inside hpos.1 hpos.2, standsAt_iff, List.prefix_iff_eq_take] at hstands
  refine .literal ?_ hstop
  rw [source.slice_inside hpos.1 hle hsize]
  have hlen : (stop - pos).toNat = t.toList.length := by rw [String.length_toList]; omega
  rw [hlen, ← hstands, String.ofList_toList]

end Matches

/-- What a run matches inside the text is a derivation, and so is what it remembers. -/
theorem Tries.derives {e : Expr} {pos : Int} {r r' : Run} {m : Match}
    (h : Tries g source.chars e pos r m r') (hr : r.Grounded g patterns source)
    (hpos : Inside source.chars pos) :
    r'.Grounded g patterns source ∧ m.Derived g patterns source e pos := by
  induction h with
  | literalHit h => exact ⟨hr, derived_some (literal_derived hpos h)⟩
  | literalMiss h => exact ⟨hr.of_memo (by rw [patterns_miss]) (memo_miss ..), derived_none⟩
  | patternHit hc h =>
    obtain ⟨hmeaning, hkeep⟩ := PatternTable.compile_ok hc
    rw [patternEnd?_inside hpos] at h
    obtain ⟨j, hj, rfl⟩ := Option.map_eq_some_iff.mp h
    exact ⟨hr.of_memo hkeep rfl, derived_some (.pattern (hr.meaning ▸ hmeaning) hj)⟩
  | patternMiss hc h =>
    have hkeep := (PatternTable.compile_ok hc).2
    exact ⟨hr.of_memo (by rw [patterns_miss]; exact hkeep) (memo_miss ..), derived_none⟩
  | again h => exact ⟨hr, derived_none⟩
  | recalled h => exact ⟨hr, hr.done _ _ _ h hpos⟩
  | opened h hb _ ih =>
    obtain ⟨hr', hm⟩ := ih (hr.enter _ _) hpos
    exact ⟨hr'.leave (derived_rule hb hm), derived_rule hb hm⟩
  | optionalHit _ ih =>
    obtain ⟨hr', hm⟩ := ih hr hpos
    exact ⟨hr', derived_some (.withOne (hm _ rfl))⟩
  | optionalMiss _ ih => exact ⟨(ih hr hpos).1, derived_some .without⟩
  | manyEnd _ ih => exact ⟨(ih hr hpos).1, derived_some .manyNil⟩
  | manyIdle _ ih => exact ⟨(ih hr hpos).1, derived_some .manyNil⟩
  | manyNext _ _ _ ih ih' =>
    obtain ⟨hr₁, hm⟩ := ih hr hpos
    obtain ⟨hr', hrest⟩ := ih' hr₁ (((hm _ rfl).onward hpos).inside hpos)
    exact ⟨hr', derived_after (.manyCons (hm _ rfl)) hrest⟩
  | someMiss _ ih => exact ⟨(ih hr hpos).1, derived_none⟩
  | someHit _ _ ih ih' =>
    obtain ⟨hr₁, hm⟩ := ih hr hpos
    obtain ⟨hr', hrest⟩ := ih' hr₁ (((hm _ rfl).onward hpos).inside hpos)
    exact ⟨hr', derived_after (.someCons (hm _ rfl)) hrest⟩
  | seqNil => exact ⟨hr, derived_some .seqNil⟩
  | seqMiss _ ih => exact ⟨(ih hr hpos).1, derived_none⟩
  | seqHit _ _ ih ih' =>
    obtain ⟨hr₁, hm⟩ := ih hr hpos
    obtain ⟨hr', hrest⟩ := ih' hr₁ (((hm _ rfl).onward hpos).inside hpos)
    exact ⟨hr', derived_after (.seqCons (hm _ rfl)) hrest⟩
  | choiceNil => exact ⟨hr, derived_none⟩
  | choiceHit _ ih =>
    obtain ⟨hr', hm⟩ := ih hr hpos
    exact ⟨hr', derived_some (.choice (List.mem_cons_self ..) (hm _ rfl))⟩
  | choiceNext _ _ ih ih' =>
    obtain ⟨hr', hrest⟩ := ih' (ih hr hpos).1 hpos
    exact ⟨hr', derived_choice (fun _ => List.mem_cons_of_mem _) hrest⟩

end Packrat

/-! ### Whole runs -/

theorem Source.report?_isSome (s : Source) {offset : Int} (h : 0 ≤ offset)
    (expected : List String) : ∃ report, s.report? offset expected = some report := by
  have hfound : ∃ found, s.found? offset = some found := by
    unfold found?
    split
    · exact ⟨_, rfl⟩
    · rename_i hlt
      have hget : s.charAt? offset = s.chars[offset.toNat]? := by
        unfold charAt?
        rw [if_neg (show ¬ offset < 0 by omega), if_neg (by omega)]
      have hsize : offset.toNat < s.chars.size := by
        have : (s.length : Int) = s.chars.size := rfl
        omega
      exact ⟨_, by rw [hget, Array.getElem?_eq_getElem hsize]; rfl⟩
  obtain ⟨found, hfound⟩ := hfound
  exact ⟨_, by rw [report?, hfound]; rfl⟩

namespace Program
variable {p : Program} {depth : Nat} {source : Source}

/-- The rule that a run starts from. -/
def start (p : Program) : RuleKey := p.grammar.root.getD RuleKey.missing

variable [PatternLibrary]

theorem runWithin_of_parse {v : Packrat.Verdict}
    (h : Packrat.parse p.grammar p.patterns depth p.start source.chars 0 = .ok v) :
    p.runWithin depth source =
      match v.tree with
      | some tree => .ok (.matched tree v.stop)
      | none =>
        match source.report? (max v.furthest 0) v.expected with
        | some report => .ok (.failed (max v.furthest 0) report)
        | none => .error .stringIndex := by
  show (Packrat.parse p.grammar p.patterns depth p.start source.chars 0 >>= _) = _
  rw [h]
  show (match v.tree with | some tree => _ | none => _) = _
  cases v.tree with
  | some tree => rfl
  | none =>
    show (match source.report? (max v.furthest 0) v.expected with | some report => _ | none => _) = _
    cases source.report? (max v.furthest 0) v.expected <;> rfl

theorem runWithin_matched {v : Packrat.Verdict} {tree : ParseTree}
    (h : Packrat.parse p.grammar p.patterns depth p.start source.chars 0 = .ok v)
    (htree : v.tree = some tree) : p.runWithin depth source = .ok (.matched tree v.stop) := by
  rw [runWithin_of_parse h, htree]

theorem runWithin_failed {v : Packrat.Verdict} {report : String}
    (h : Packrat.parse p.grammar p.patterns depth p.start source.chars 0 = .ok v)
    (htree : v.tree = none) (hreport : source.report? (max v.furthest 0) v.expected = some report) :
    p.runWithin depth source = .ok (.failed (max v.furthest 0) report) := by
  rw [runWithin_of_parse h, htree]
  dsimp only
  rw [hreport]

theorem runWithin_of_parse_error {f : Fault}
    (h : Packrat.parse p.grammar p.patterns depth p.start source.chars 0 = .error f) :
    p.runWithin depth source = .error f := by
  show (Packrat.parse p.grammar p.patterns depth p.start source.chars 0 >>= _) = _
  rw [h]
  rfl

/-- A run that is broken off was broken off by the engine, or had nothing to report. -/
theorem runWithin_error {f : Fault} (h : p.runWithin depth source = .error f) :
    Packrat.Breaks f ∨ f = .stringIndex := by
  cases hparse : Packrat.parse p.grammar p.patterns depth p.start source.chars 0 with
  | error f' =>
    rw [runWithin_of_parse_error hparse] at h; cases h
    exact .inl (Packrat.parse_error hparse)
  | ok v =>
    rw [runWithin_of_parse hparse] at h
    cases htree : v.tree with
    | some tree => rw [htree] at h; cases h
    | none =>
      rw [htree] at h
      cases hreport : source.report? (max v.furthest 0) v.expected with
      | some report => rw [hreport] at h; cases h
      | none => rw [hreport] at h; cases h; exact .inr rfl

theorem parse_of_matched {root : ParseTree} {consumed : Int}
    (h : p.runWithin depth source = .ok (.matched root consumed)) :
    ∃ v, Packrat.parse p.grammar p.patterns depth p.start source.chars 0 = .ok v ∧
      v.tree = some root ∧ v.stop = consumed := by
  cases hparse : Packrat.parse p.grammar p.patterns depth p.start source.chars 0 with
  | error f => rw [runWithin_of_parse_error hparse] at h; cases h
  | ok v =>
    rw [runWithin_of_parse hparse] at h
    refine ⟨v, rfl, ?_⟩
    cases htree : v.tree with
    | some tree => rw [htree] at h; cases h; exact ⟨rfl, rfl⟩
    | none =>
      rw [htree] at h
      cases hreport : source.report? (max v.furthest 0) v.expected <;>
        (rw [hreport] at h; cases h)

/-- A tree that accounts for the first `consumed` characters of a source. -/
structure Lossless (p : Program) (source : Source) (root : ParseTree) (consumed : Int) :
    Prop where
  bounds : 0 ≤ consumed ∧ consumed ≤ source.length
  whole : ∃ children, root = .node p.start 0 consumed children
  derived : ∀ key start stop children, .node key start stop children ∈ root.subtrees →
    ∃ body, p.grammar.rules.get? key = some body ∧
      Packrat.Derives p.grammar p.patterns source body start children stop
  tiled : ∀ key start stop children, .node key start stop children ∈ root.subtrees →
    ParseTree.Tile start children stop
  spelled : String.join (root.leaves.map fun leaf => source.slice leaf.start leaf.stop) =
    source.slice 0 consumed

theorem lossless_of_matched {root : ParseTree} {consumed : Int}
    (h : p.runWithin depth source = .ok (.matched root consumed)) :
    p.Lossless source root consumed := by
  obtain ⟨v, hparse, htree, hstop⟩ := parse_of_matched h
  obtain ⟨tree, r, htries, rfl⟩ := Packrat.tries_of_parse hparse
  cases htree
  have hin : Packrat.Inside source.chars 0 := ⟨Int.le_refl 0, by omega⟩
  have hd : Packrat.Derives p.grammar p.patterns source (.call p.start) 0 [root] consumed :=
    hstop ▸ (htries.derives Packrat.grounded_start hin).2 _ rfl
  have hnode : ∃ children, root = .node p.start 0 consumed children := by
    cases hd with
    | rule _ _ => exact ⟨_, rfl⟩
  have hsub : root.subtrees = ParseTree.subtreesAll [root] := by simp [ParseTree.subtreesAll]
  refine ⟨?_, hnode, fun key start stop children hmem => ?_, fun key start stop children hmem => ?_,
    ?_⟩
  · exact (hd.onward hin).bounds hin.2
  · exact (hd.of_node hin (hsub ▸ hmem)).derived
  · obtain ⟨hstart, body, -, hbody⟩ := hd.of_node hin (hsub ▸ hmem)
    exact hbody.tiles hstart
  · have hspells := hd.spells hin
    simp only [Packrat.leafText, ParseTree.leavesAll, List.append_nil] at hspells
    exact hspells

end Program

namespace Parser
variable {parser : Parser} {depth : Nat} {source : Source} {deeds : List Deed}

/-- A factory method, called last, raised the fault. -/
def RaisedLast (parser : Parser) (deeds : List Deed) (f : Fault) : Prop :=
  ∃ method args, deeds.getLast? = some (.called method args) ∧
    parser.factory.call parser.self method args = .error f

/-- The fault is the parser's own, which has called nothing, and then `P` holds; unless a factory method
raised it in the parser's stead. -/
def UnlessRaised (parser : Parser) (deeds : List Deed) (f : Fault) (P : Prop) : Prop :=
  (deeds = [] ∧ P) ∨ parser.RaisedLast deeds f

/-- Where nothing was called the fault is the parser's own. -/
theorem unlessRaised_nil {f : Fault} {P : Prop} : parser.UnlessRaised [] f P ↔ P := by
  refine ⟨?_, fun h => .inl ⟨rfl, h⟩⟩
  rintro (⟨-, h⟩ | ⟨_, _, hlast, -⟩)
  · exact h
  · cases hlast

theorem UnlessRaised.mono {f : Fault} {P Q : Prop} (h : parser.UnlessRaised deeds f P) (hPQ : P → Q) :
    parser.UnlessRaised deeds f Q :=
  h.imp_left (And.imp_right hPQ)

/-- Beside the limit on nesting and a breach only a factory method breaks lowering off. -/
theorem raisedLast_of_createWithin {root : ParseTree} {f : Fault} (hdeep : f ≠ .tooDeep)
    (hbreach : ∀ b, f ≠ .breach b)
    (h : parser.lowering.createWithin depth source root = (.error f, deeds)) :
    parser.RaisedLast deeds f := by
  unfold Lowering.createWithin at h
  cases hlower : parser.lowering.lower source depth root [] with
  | mk value done =>
    rw [hlower] at h
    obtain ⟨rfl, rfl⟩ := Prod.mk.injEq .. ▸ h
    cases Lowering.lower_error hlower with
    | depth => exact absurd rfl hdeep
    | breach b => exact absurd rfl (hbreach b)
    | factory hlast hact => exact ⟨_, _, by rw [List.getLast?_reverse]; exact hlast, hact⟩

/-- A run's match accounts for every character that it covers; and a parser says that a text is only
matched in part just when it is, unless a factory method said so in its stead. -/
theorem match_lossless [PatternLibrary] (p : Program) (depth : Nat) (source : Source) :
    (∀ root consumed, p.runWithin depth source = .ok (.matched root consumed) →
      p.Lossless source root consumed) ∧
    ∀ parser : Parser, parser.program = p → ∀ consumed total deeds,
      parser.parseWithin depth source = (.error (.incomplete consumed total), deeds) →
      parser.UnlessRaised deeds (.incomplete consumed total)
        (0 ≤ consumed ∧ consumed < total ∧ total = source.length) := by
  refine ⟨fun root consumed => Program.lossless_of_matched, ?_⟩
  rintro parser rfl consumed total deeds h
  unfold parseWithin at h
  cases hrun : parser.program.runWithin depth source with
  | error f =>
    rw [hrun] at h; cases h
    rcases Program.runWithin_error hrun with hf | hf <;> cases hf
  | ok outcome =>
    rw [hrun] at h
    cases outcome with
    | failed index report => cases h
    | matched root stop =>
      obtain ⟨hstop, hsize⟩ := (Program.lossless_of_matched hrun).bounds
      dsimp only [finish] at h
      split at h
      · rename_i hne
        cases h
        exact .inl ⟨rfl, hstop, by omega, rfl⟩
      · exact .inr (raisedLast_of_createWithin nofun nofun h)

/-- Sums, written so that a sum starts with a sum. -/
def leftRecursive : Parser where
  grammar := []
  factory := []
  self := { className := "SumFactory" }
  model := {}
  program :=
    let key := RuleKey.given "sum" "sum"
    { grammar :=
        { rules := ⟨[(key, .choice [.seq [.call key, .literal "+", .literal "n"], .literal "n"])]⟩
          root := some key }
      patterns := {} }
  charset := "utf-8"

theorem match_lossless_left_recursive : ∃ depth,
    leftRecursive.program.runWithin depth (.ofString "n+n") =
      .ok (.matched (.node (.given "sum" "sum") 0 1 [.leaf 0 1]) 1) ∧
    leftRecursive.program.Lossless (.ofString "n+n")
      (.node (.given "sum" "sum") 0 1 [.leaf 0 1]) 1 ∧
    leftRecursive.parseWithin depth (.ofString "n+n") = (.error (.incomplete 1 3), []) ∧
    0 ≤ (1 : Int) ∧ (1 : Int) < (3 : Nat) ∧ 3 = (Source.ofString "n+n").length := by
  let key := RuleKey.given "sum" "sum"
  let start : Packrat.Run := { patterns := {} }
  -- the sum inside the sum is cut off, so that a single `n` is all that matches
  obtain ⟨r, htries⟩ : ∃ r, Packrat.Tries leftRecursive.program.grammar
      (Source.ofString "n+n").chars (.call key) 0 start
      (.ofTree (some (.node key 0 1 [.leaf 0 1]))) r := by
    refine ⟨_, .opened (by simp [start]) rfl (m := some (1, [.leaf 0 1]))
      (.choiceNext (.seqMiss (.again ?_)) (.choiceHit (.literalHit rfl)))⟩
    rw [Packrat.memo_enter, if_pos rfl]
  obtain ⟨d, hd⟩ := Packrat.parse_of_tries htries
  have hrun : leftRecursive.program.runWithin d (.ofString "n+n") =
      .ok (.matched (.node key 0 1 [.leaf 0 1]) 1) :=
    Program.runWithin_matched (hd d (Nat.le_refl d)) rfl
  have hparse : leftRecursive.parseWithin d (.ofString "n+n") = (.error (.incomplete 1 3), []) := by
    unfold parseWithin
    rw [hrun]
    rfl
  obtain ⟨hlossless, hincomplete⟩ := match_lossless leftRecursive.program d (.ofString "n+n")
  exact ⟨d, hrun, hlossless _ _ hrun, hparse,
    unlessRaised_nil.mp (hincomplete leftRecursive rfl _ _ _ hparse)⟩

end Parser
end PegScribe
