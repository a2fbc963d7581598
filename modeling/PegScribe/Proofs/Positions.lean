import Mathlib.Data.List.TakeWhile
import PegScribe.Proofs.Failures
import PegScribe.Proofs.Scanning

/-!
Positions: the line and the column of an offset, and the reports that show it.

A text falls at every offset into what stands before its line, the line up to the offset, the line from
there on, and what stands after the line (`exists_line`). So lines are counted by the line feeds before
the offset and columns from the start of the line, and both together tell the offset. A report shows one
offset in five ways, and all of them agree (`Report.Marks`).
-/
namespace PegScribe
namespace Source
variable {s : Source} {o o' start stop : Nat}

/-! ### Lines -/

/-- The line that holds the offset reaches from `start` to `stop`, without the line feed that ends it. -/
structure LineAt (s : Source) (o start stop : Nat) : Prop where
  start_le : start ≤ o
  le_stop : o ≤ stop
  inside : stop ≤ s.length
  single : '\n' ∉ (s.slice start stop).toList
  starts : start = 0 ∨ s.chars[start - 1]? = some '\n'
  ends : stop = s.length ∨ s.chars[stop]? = some '\n'

theorem toList_slice (hle : start ≤ stop) (hstop : stop ≤ s.length) :
    (s.slice start stop).toList = (s.chars.toList.drop start).take (stop - start) := by
  rw [s.slice_inside (by omega) (by omega) (by omega), String.toList_ofList, Int.toNat_natCast]
  congr 1
  omega

theorem feed_not_mem_takeWhile (cs : List Char) : '\n' ∉ cs.takeWhile (· != '\n') := by
  intro hmem
  simpa using List.mem_takeWhile_imp hmem

theorem dropWhile_starts_with_feed (cs : List Char) :
    cs.dropWhile (· != '\n') = [] ∨ (cs.dropWhile (· != '\n')).head? = some '\n' := by
  have hhead := List.head?_dropWhile_not (· != '\n') cs
  cases hrest : cs.dropWhile (· != '\n') with
  | nil => exact .inl rfl
  | cons c rest =>
    rw [hrest] at hhead
    exact .inr (congrArg some (by simpa using hhead))

theorem length_slice (hle : start ≤ stop) (hstop : stop ≤ s.length) :
    (s.slice start stop).length = stop - start := by
  have hsize : stop ≤ s.chars.size := hstop
  rw [← String.length_toList, toList_slice hle hstop, List.length_take, List.length_drop,
    Array.length_toList]
  omega

/-- A text splits after its last line feed. -/
theorem exists_last_line (cs : List Char) : ∃ before front, cs = before ++ front ∧
    front.length = (cs.reverse.takeWhile (· != '\n')).length ∧ '\n' ∉ front ∧
    (before = [] ∨ before.getLast? = some '\n') := by
  refine ⟨(cs.reverse.dropWhile (· != '\n')).reverse, (cs.reverse.takeWhile (· != '\n')).reverse, ?_,
    by simp, fun hmem => feed_not_mem_takeWhile _ (List.mem_reverse.mp hmem), ?_⟩
  · rw [← List.reverse_append, List.takeWhile_append_dropWhile, List.reverse_reverse]
  · rw [List.getLast?_reverse, List.reverse_eq_nil_iff]
    exact dropWhile_starts_with_feed _

/-- The text around an offset: what stands before its line, the line up to the offset and from there on,
and what stands after the line. -/
theorem exists_line (ho : o ≤ s.length) : ∃ before front back after,
    s.chars.toList = before ++ (front ++ (back ++ after)) ∧ before.length + front.length = o ∧
    s.lineStart o = before.length ∧
    s.lineEnd before.length = before.length + (front.length + back.length) ∧
    '\n' ∉ front ++ back ∧ (before = [] ∨ before.getLast? = some '\n') ∧
    (after = [] ∨ after.head? = some '\n') := by
  have hsplit : s.chars.toList = s.chars.toList.take o ++ s.chars.toList.drop o :=
    (List.take_append_drop ..).symm
  have hlen : (s.chars.toList.take o).length = o := List.length_take_of_le ho
  have hstart := lineStart_append hsplit
  obtain ⟨before, front, hcut, hfront, hsingle, hbefore⟩ := exists_last_line (s.chars.toList.take o)
  have hsum := congrArg List.length hcut
  rw [List.length_append, hlen] at hsum
  rw [hlen, ← hfront] at hstart
  refine ⟨before, front, (s.chars.toList.drop o).takeWhile (· != '\n'),
    (s.chars.toList.drop o).dropWhile (· != '\n'), ?_, hsum.symm, by omega, ?_, ?_, hbefore,
    dropWhile_starts_with_feed _⟩
  · rw [List.takeWhile_append_dropWhile, ← List.append_assoc, ← hcut, ← hsplit]
  · have hrest : s.chars.toList.drop before.length = front ++ s.chars.toList.drop o := by
      conv_lhs => rw [hsplit, hcut, List.append_assoc, List.drop_left]
    have hplain : ∀ c ∈ front, (c != '\n') = true := by
      rintro c hc
      simp only [bne_iff_ne]
      rintro rfl
      exact hsingle hc
    rw [lineEnd, hrest, List.takeWhile_append_of_pos hplain, List.length_append]
  · rw [List.mem_append, not_or]
    exact ⟨hsingle, feed_not_mem_takeWhile _⟩

theorem lineAt_lineBounds (ho : o ≤ s.length) :
    s.LineAt o (s.lineBounds o).1 (s.lineBounds o).2 := by
  obtain ⟨before, front, back, after, htext, hoffset, hstart, hend, hsingle, hbefore, hafter⟩ :=
    exists_line ho
  have hlen : s.length = before.length + (front.length + (back.length + after.length)) := by
    simpa [length] using congrArg List.length htext
  show s.LineAt o (s.lineStart o) (s.lineEnd (s.lineStart o))
  rw [hstart, hend]
  refine ⟨by omega, by omega, by omega, ?_, ?_, ?_⟩
  · rw [toList_slice (by omega) (by omega), htext, List.drop_left, Nat.add_sub_cancel_left,
      ← List.append_assoc, ← List.length_append, List.take_left]
    exact hsingle
  · rcases hbefore with rfl | hlast
    · exact .inl rfl
    · right
      rw [List.getLast?_eq_getElem?] at hlast
      have hpos : before.length - 1 < before.length := (List.getElem?_eq_some_iff.mp hlast).1
      rw [← Array.getElem?_toList, htext, List.getElem?_append_left hpos, hlast]
  · rcases hafter with rfl | hhead
    · exact .inl (by simpa using hlen.symm)
    · right
      rw [← Array.getElem?_toList, htext, ← List.append_assoc front, ← List.length_append,
        ← List.append_assoc, ← List.length_append, List.getElem?_append_right (Nat.le_refl _),
        Nat.sub_self, ← List.head?_eq_getElem?, hhead]

/-! ### Lines and columns -/

/-- Lines are counted by the line feeds before the offset. -/
theorem lineOf_eq_count (ho : o ≤ s.length) :
    s.lineOf o = 1 + (s.chars.toList.take o).count '\n' := by
  have hline := lineOf_append (List.take_append_drop o s.chars.toList).symm
  rw [List.length_take_of_le ho] at hline
  omega

/-- The start of a line is known from its number. -/
theorem lineStart_eq_getD (ho : o ≤ s.length) :
    s.lineStart o = s.lineStarts.getD (s.lineOf o - 1) 0 := by
  rw [lineStart, lineOf_eq_count ho, Nat.add_comm]
  rfl

theorem position_lt (hlt : o < o') (ho' : o' ≤ s.length) :
    Prod.Lex (· < ·) (· < ·) (s.position o) (s.position o') := by
  have ho : o ≤ s.length := by omega
  have hcount : (s.chars.toList.take o).count '\n' ≤ (s.chars.toList.take o').count '\n' :=
    (List.take_prefix_take_left (Nat.le_of_lt hlt)).sublist.count_le _
  rw [Prod.lex_def, position, position]
  dsimp only
  have hle : s.lineOf o ≤ s.lineOf o' := by
    rw [lineOf_eq_count ho, lineOf_eq_count ho']
    omega
  rcases Nat.lt_or_eq_of_le hle with hline | hline
  · exact .inl hline
  · refine .inr ⟨hline, ?_⟩
    rw [lineStart_eq_getD ho, lineStart_eq_getD ho', hline]
    omega

/-! ### Reports -/

/-- What the report of a failure shows: a place, what stands there, what could have stood there, and a
line with a caret under it. -/
structure Report where
  line : Nat
  col : Nat
  found : Option Char
  expected : List String
  quoted : String
  indent : Nat

namespace Report

/-- What stands at the place, in words. -/
def foundText (r : Report) : String :=
  match r.found with
  | some c => Text.quote c.toString
  | none => "EOF"

/-- The place in words, after the address if there is one. -/
def place (r : Report) (uri : Option String) : String :=
  let here := "line " ++ toString r.line ++ " column " ++ toString r.col
  match uri with
  | some uri => if uri.isEmpty then here else uri ++ ": " ++ here
  | none => here

/-- The report as it is written. -/
def text (r : Report) (uri : Option String) : String :=
  "Parse error at " ++ r.place uri ++ ": unexpected " ++ r.foundText ++ ", expected one of \x7b" ++
    Text.join ", " (Text.sortedDistinct r.expected) ++ "\x7d\n" ++ r.quoted ++ "\n" ++
    String.ofList (List.replicate r.indent ' ') ++ "^"

/-- Everything that the report shows is of one offset: the caret stands under what was found, or right
after the line where this is a line feed or the end of the text. -/
structure Marks (r : Report) (s : Source) (o : Nat) : Prop where
  inside : o ≤ s.length
  position : s.position o = (r.line, (r.col : Int))
  found : r.found = s.chars[o]?
  line : ∃ start stop, s.LineAt o start stop ∧ r.quoted = s.slice start stop ∧ start + r.indent = o
  caret : r.indent + 1 = r.col
  under : ∀ c, r.found = some c → c ≠ '\n' → r.quoted.toList[r.indent]? = some c
  past : r.found = none ∨ r.found = some '\n' → r.indent = r.quoted.length

end Report

section Carets
variable {start stop o : Nat} (h : s.LineAt o start stop)
include h

theorem LineAt.getElem?_slice {i : Nat} (hi : start + i < stop) :
    (s.slice start stop).toList[i]? = s.chars[start + i]? := by
  have := h.inside
  rw [toList_slice (by omega) h.inside, List.getElem?_take_of_lt (by omega), List.getElem?_drop,
    Array.getElem?_toList]

theorem LineAt.lt_stop {c : Char} (hfound : s.chars[o]? = some c) (hc : c ≠ '\n') : o < stop := by
  refine Nat.lt_of_le_of_ne h.le_stop ?_
  rintro rfl
  rcases h.ends with hend | hend
  · have hlt : o < s.chars.size := (Array.getElem?_eq_some_iff.mp hfound).1
    exact absurd hend (Nat.ne_of_lt hlt)
  · exact hc (Option.some.inj (hfound.symm.trans hend))

theorem LineAt.eq_stop (hfound : s.chars[o]? = none ∨ s.chars[o]? = some '\n') : o = stop := by
  have hstart := h.start_le
  have hstop := h.le_stop
  have hinside := h.inside
  rcases hfound with hnone | hfeed
  · have hle : s.length ≤ o := Array.getElem?_eq_none_iff.mp hnone
    omega
  · by_contra hne
    have hat := h.getElem?_slice (i := o - start) (by omega)
    rw [Nat.add_sub_cancel' hstart, hfeed] at hat
    exact h.single (List.mem_of_getElem? hat)

end Carets

/-- The report of a failure at an offset. -/
def reportAt (s : Source) (o : Nat) (expected : List String) : Report where
  line := s.lineOf o
  col := o - s.lineStart o + 1
  found := s.chars[o]?
  expected := expected
  quoted := s.slice (s.lineBounds o).1 (s.lineBounds o).2
  indent := o - s.lineStart o

theorem reportAt_marks (ho : o ≤ s.length) (expected : List String) :
    (s.reportAt o expected).Marks s o := by
  have hline := lineAt_lineBounds ho
  have hstart : s.lineStart o ≤ o := hline.start_le
  refine ⟨ho, ?_, rfl, ⟨_, _, hline, rfl, Nat.add_sub_cancel' hstart⟩, rfl, fun c hc hne => ?_,
    fun hfound => ?_⟩
  · simp only [position, reportAt]
    congr 1
    omega
  · have hlt := hline.lt_stop hc hne
    have hat := hline.getElem?_slice (i := o - s.lineStart o) (by
      rw [lineBounds] at hlt ⊢
      omega)
    rw [lineBounds, Nat.add_sub_cancel' hstart] at hat
    exact hat.trans hc
  · have hlen := length_slice (Nat.le_trans hline.start_le hline.le_stop) hline.inside
    rw [← hline.eq_stop hfound] at hlen
    rw [reportAt, ← hline.eq_stop hfound, hlen]
    rfl

theorem found?_eq_foundText (o : Nat) (expected : List String) :
    s.found? o = some (s.reportAt o expected).foundText := by
  have hat : s.charAt? o = s.chars[o]? := by
    unfold charAt?
    rw [if_neg (by omega), if_neg (by omega), Int.toNat_natCast]
  unfold found? Report.foundText reportAt
  split
  · rename_i hend
    rw [Array.getElem?_eq_none (show s.chars.size ≤ o from Int.ofNat_le.mp hend)]
  · rename_i hlt
    have hsize : o < s.chars.size := Nat.lt_of_not_le fun hle => hlt (Int.ofNat_le.mpr hle)
    rw [hat, Array.getElem?_eq_getElem hsize]
    rfl

theorem snippet_eq_caret (s : Source) (o : Nat) :
    s.snippet o = s.slice (s.lineBounds o).1 (s.lineBounds o).2 ++ "\n" ++
      String.ofList (List.replicate (o - (s.lineBounds o).1) ' ') ++ "^" := by
  have hcount : ((o : Int) - (s.lineBounds o).1).toNat = o - (s.lineBounds o).1 := by omega
  rw [← hcount]
  rfl

theorem toString_natCast (n : Nat) : toString (n : Int) = toString n := rfl

/-- A report is written from what it shows. -/
theorem report?_eq_text (ho : o ≤ s.length) (expected : List String) :
    s.report? o expected = some ((s.reportAt o expected).text s.uri) := by
  rw [report?, found?_eq_foundText o expected, Option.map_some,
    (reportAt_marks ho expected).position, snippet_eq_caret]
  dsimp only
  unfold Report.text Report.place
  have hquoted : (s.reportAt o expected).quoted = s.slice (s.lineBounds o).1 (s.lineBounds o).2 := rfl
  have hindent : (s.reportAt o expected).indent = o - (s.lineBounds o).1 := rfl
  have hexpected : (s.reportAt o expected).expected = expected := rfl
  rw [hquoted, hindent, hexpected, toString_natCast]
  generalize s.reportAt o expected = r
  generalize s.slice (s.lineBounds o).1 (s.lineBounds o).2 = line
  cases s.uri <;> simp only [String.append_assoc]

end Source

/-! ### Failed parses -/

/-- A run fails within the text. -/
theorem Program.furthest_inside [PatternLibrary] {p : Program} {depth : Nat} {source : Source}
    {v : Packrat.Verdict}
    (hv : Packrat.parse p.grammar p.patterns depth p.start source.chars 0 = .ok v) :
    0 ≤ max v.furthest 0 ∧ max v.furthest 0 ≤ source.length := by
  have htrue := Packrat.truthful_of_parse hv ⟨Int.le_refl 0, by omega⟩
  refine ⟨Int.le_max_right .., Int.max_le.mpr ⟨?_, by omega⟩⟩
  rcases htrue.reported.reached with ⟨e, hmem⟩ | ⟨heq, -⟩
  · exact (htrue.fails e _ hmem).1.2
  · omega

namespace Parser
variable {parser : Parser} {depth : Nat} {source : Source} {deeds : List Deed}

/-- A parse says that a text is not matched because its run failed, unless a factory method said so. -/
theorem failed_of_unmatched [PatternLibrary] {line : Nat} {report : String}
    (h : parser.parseWithin depth source = (.error (.unmatched line report), deeds)) :
    parser.UnlessRaised deeds (.unmatched line report) (∃ index, line = source.lineOf index ∧
      parser.program.runWithin depth source = .ok (.failed index report)) := by
  unfold parseWithin at h
  cases hrun : parser.program.runWithin depth source with
  | error f =>
    rw [hrun] at h
    cases h
    rcases Program.runWithin_error hrun with hf | hf <;> cases hf
  | ok outcome =>
    rw [hrun] at h
    cases outcome with
    | failed index report =>
      cases h
      exact .inl ⟨rfl, index, rfl, rfl⟩
    | matched root stop =>
      dsimp only [finish] at h
      split at h
      · cases h
      · exact .inr (raisedLast_of_createWithin nofun nofun h)

/-- Positions are exact, and reports agree on them. For every offset in a text the line is counted by the
line feeds before it and the column from the start of the line, which is the stretch without line feeds
around the offset; the two tell the offset and rise with it; and the offset is shown by its line with a
caret under the column. In a parse that says that the text is not matched the line, the place in the
report, the character that it names and its caret are all those of the offset where the run failed,
unless a factory method said so in its stead. -/
theorem positions_exact [PatternLibrary] (s : Source) :
    (∀ o : Nat, o ≤ s.length → ∀ start stop, s.lineBounds o = (start, stop) →
      s.LineAt o start stop ∧
      s.position o = (1 + (s.chars.toList.take o).count '\n', (o : Int) - start + 1) ∧
      (s.lineStarts.getD ((s.position o).1 - 1) 0 : Int) + (s.position o).2 - 1 = o ∧
      s.snippet o = s.slice start stop ++ "\n" ++ String.ofList (List.replicate (o - start) ' ') ++
        "^") ∧
    (∀ o o' : Nat, o < o' → o' ≤ s.length →
      Prod.Lex (· < ·) (· < ·) (s.position o) (s.position o')) ∧
    ∀ (parser : Parser) depth line report deeds,
      parser.parseWithin depth s = (.error (.unmatched line report), deeds) →
      parser.UnlessRaised deeds (.unmatched line report) (∃ (o : Nat) (shown : Source.Report),
        shown.Marks s o ∧ line = shown.line ∧ report = shown.text s.uri ∧
        parser.program.runWithin depth s = .ok (.failed o report)) := by
  refine ⟨?_, fun o o' => Source.position_lt, ?_⟩
  · rintro o ho start stop hbounds
    have hline := Source.lineAt_lineBounds ho
    have hstart : s.lineStart o = start := congrArg Prod.fst hbounds
    have hsnippet := s.snippet_eq_caret o
    rw [hbounds] at hline hsnippet
    refine ⟨hline, ?_, ?_, hsnippet⟩
    · rw [Source.position, Source.lineOf_eq_count ho, hstart]
    · rw [Source.position, ← Source.lineStart_eq_getD ho]
      omega
  · intro parser depth line report deeds h
    refine (failed_of_unmatched h).mono ?_
    rintro ⟨index, rfl, hrun⟩
    obtain ⟨v, hv, -, rfl, hreport⟩ := Program.parse_of_failed hrun
    have hinside : (0 : Int) ≤ max v.furthest 0 ∧ max v.furthest 0 ≤ s.length :=
      Program.furthest_inside hv
    obtain ⟨o, ho⟩ := Int.eq_ofNat_of_zero_le hinside.1
    rw [ho] at hreport hrun hinside ⊢
    have hle : o ≤ s.length := Int.ofNat_le.mp hinside.2
    rw [Source.report?_eq_text hle] at hreport
    exact ⟨o, _, Source.reportAt_marks hle v.expected, rfl, (Option.some.inj hreport).symm, hrun⟩

/-- A line with an `n`, and a line with an `x` and a `y`. -/
def twoLines : Parser where
  grammar := []
  factory := []
  self := { className := "LineFactory" }
  model := {}
  program :=
    let key := RuleKey.given "lines" "lines"
    { grammar :=
        { rules := ⟨[(key, .seq [.literal "n\nx", .literal "y"])]⟩
          root := some key }
      patterns := {} }
  charset := "utf-8"

theorem positions_exact_two_lines : ∃ depth report,
    twoLines.parseWithin depth (.ofString "n\nx!\n") = (.error (.unmatched 2 report), []) ∧
    ∃ shown : Source.Report, shown.Marks (.ofString "n\nx!\n") 3 ∧ shown.line = 2 ∧ shown.col = 2 ∧
      shown.found = some '!' ∧ shown.quoted.toList[shown.indent]? = some '!' ∧
      report = shown.text none ∧
      (Source.ofString "n\nx!\n").snippet 3 = "x!\n ^" ∧
      Prod.Lex (· < ·) (· < ·) ((Source.ofString "n\nx!\n").position 3)
        ((Source.ofString "n\nx!\n").position 4) := by
  let source := Source.ofString "n\nx!\n"
  let key := RuleKey.given "lines" "lines"
  let start : Packrat.Run := { patterns := {} }
  have hend : Packrat.literalEnd? source.chars "n\nx" 0 = some 3 := by decide +kernel
  obtain ⟨r, hfurthest, htries⟩ : ∃ r : Packrat.Run, r.furthest = 3 ∧
      Packrat.Tries twoLines.program.grammar source.chars (.call key) 0 start (.ofTree none) r := by
    refine ⟨_, ?_, .opened (by simp [start]) rfl (m := none)
      (.seqHit (.literalHit hend)
        (.seqMiss (.literalMiss (by decide +kernel))))⟩
    rfl
  obtain ⟨d, hd⟩ := Packrat.parse_of_tries htries
  obtain ⟨report, hreport⟩ := source.report?_isSome (Int.le_max_right r.furthest 0) r.expected
  have hrun := Program.runWithin_failed (p := twoLines.program) (hd d (Nat.le_refl d)) rfl hreport
  have hline : source.lineOf (max r.furthest 0) = 2 := by rw [hfurthest]; decide +kernel
  have hparse : twoLines.parseWithin d source = (.error (.unmatched 2 report), []) := by
    rw [← hline, parseWithin, hrun]
    rfl
  obtain ⟨hexact, hrise, hreports⟩ := positions_exact source
  obtain ⟨o, shown, hmarks, hshown, htext, hfailed⟩ := unlessRaised_nil.mp (hreports _ _ _ _ _ hparse)
  have ho : max r.furthest 0 = o := by
    injection hrun.symm.trans hfailed with heq
    injection heq
  obtain rfl : o = 3 := by omega
  have hfound : shown.found = some '!' := hmarks.found.trans (by decide +kernel)
  have hcol : (2 : Int) = shown.col :=
    (show (source.position 3).2 = 2 by decide +kernel).symm.trans (congrArg Prod.snd hmarks.position)
  have hsnippet := (hexact 3 (by decide) 2 4 (by decide +kernel)).2.2.2
  refine ⟨d, report, hparse, shown, hmarks, hshown.symm, by omega, hfound,
    hmarks.under _ hfound (by decide), htext, ?_, hrise 3 4 (by decide) (by decide)⟩
  exact hsnippet.trans (by decide +kernel)

end Parser
end PegScribe
