import Mathlib.Data.List.Chain
import PegScribe.Parser
import PegScribe.Proofs.Lossless

/-!
Line ends: of a file's text only the lines matter, whatever ends them.

Joining the pairs and then turning the carriage returns left over is the same as rewriting line ends from
left to right (`unifyNewlines_eq`), and so is the text layer's own translation before that (`translate_eq`).
A content is a row of lines, each ended in one of three ways, and of that
row only the texts of the lines remain (`Consists.rewritten`). The address of a source gets into nothing but
the report of a failure (`parseSource_address`), so files with the same lines are parsed the same.
-/
namespace PegScribe

namespace Text

/-! ### One pass from left to right -/

/-- Reads a text from left to right and writes every line end as a single line feed. -/
def rewriteEnds : List Char → List Char
  | [] => []
  | '\r' :: '\n' :: rest => '\n' :: rewriteEnds rest
  | '\r' :: rest => '\n' :: rewriteEnds rest
  | c :: rest => c :: rewriteEnds rest

theorem rewriteEnds_return {rest : List Char} (h : ∀ rest', rest ≠ '\n' :: rest') :
    rewriteEnds ('\r' :: rest) = '\n' :: rewriteEnds rest :=
  rewriteEnds.eq_3 rest h

theorem rewriteEnds_other {c : Char} (h : c ≠ '\r') (rest : List Char) :
    rewriteEnds (c :: rest) = c :: rewriteEnds rest :=
  rewriteEnds.eq_4 c rest (fun _ hc _ => h hc) h

/-- Both passes together do what the one pass does. -/
theorem unifyNewlines_eq (cs : List Char) : unifyNewlines cs = rewriteEnds cs := by
  unfold unifyNewlines
  fun_induction rewriteEnds cs with
  | case1 => rfl
  | case2 rest ih =>
    rw [joinPairs, List.map_cons, ih]
    rfl
  | case3 rest hpair ih =>
    rw [joinPairs.eq_3 _ _ fun rest' _ h => hpair rest' h, List.map_cons, ih]
    rfl
  | case4 c rest hpair hreturn ih =>
    rw [joinPairs.eq_3 _ _ hpair, List.map_cons, ih, feed, if_neg hreturn]

theorem translateFrom_true {cs : List Char} (h : ∀ rest, cs ≠ '\n' :: rest) :
    translateFrom true cs = translateFrom false cs := by
  cases cs with
  | nil => rfl
  | cons c rest =>
    have hfeed : c ≠ '\n' := fun hc => h rest (hc ▸ rfl)
    simp only [translateFrom, decide_eq_false hfeed, Bool.and_false]

/-- The text layer's translation does what the one pass does, too. -/
theorem translate_eq (cs : List Char) : translate cs = rewriteEnds cs := by
  unfold translate
  fun_induction rewriteEnds cs with
  | case1 => rfl
  | case2 rest ih =>
    show '\n' :: translateFrom false rest = _
    rw [ih]
  | case3 rest hpair ih =>
    show '\n' :: translateFrom true rest = _
    rw [translateFrom_true hpair, ih]
  | case4 c rest hpair hreturn ih =>
    show (if c = '\r' then _ else c :: translateFrom false rest) = _
    rw [if_neg hreturn, ih]

theorem return_not_mem_rewriteEnds (cs : List Char) : '\r' ∉ rewriteEnds cs := by
  rw [← unifyNewlines_eq, unifyNewlines, List.mem_map]
  rintro ⟨c, -, hc⟩
  unfold feed at hc
  split at hc
  · cases hc
  · exact absurd hc ‹_›

theorem rewriteEnds_of_not_mem {cs : List Char} (h : '\r' ∉ cs) : rewriteEnds cs = cs := by
  induction cs with
  | nil => rfl
  | cons c rest ih =>
    rw [List.mem_cons, not_or] at h
    rw [rewriteEnds_other (Ne.symm h.1), ih h.2]

/-! ### Lines and what ends them -/

inductive LineEnd where
  | lf | cr | crlf
  deriving DecidableEq

def LineEnd.chars : LineEnd → List Char
  | .lf => ['\n']
  | .cr => ['\r']
  | .crlf => ['\r', '\n']

/-- A line with what ends it. -/
structure Line where
  text : List Char
  ending : LineEnd

def Line.chars (l : Line) : List Char := l.text ++ l.ending.chars

/-- No line ends within. -/
def Unbroken (cs : List Char) : Prop := '\r' ∉ cs ∧ '\n' ∉ cs

instance (cs : List Char) : Decidable (Unbroken cs) := inferInstanceAs (Decidable (_ ∧ _))

theorem Unbroken.cons {c : Char} {t : List Char} (hc : Unbroken [c]) (ht : Unbroken t) : Unbroken (c :: t) :=
  ⟨List.not_mem_cons_of_ne_of_not_mem (List.ne_of_not_mem_cons hc.1) ht.1,
    List.not_mem_cons_of_ne_of_not_mem (List.ne_of_not_mem_cons hc.2) ht.2⟩

/-- One line may follow another: a lone carriage return is not followed at once by a line feed, since the
two together are one line end. -/
def Line.Precedes (l m : Line) : Prop := l.ending = .cr → ¬ (m.text = [] ∧ m.ending = .lf)

/-- The content is made of these lines and of the text behind the last line end. -/
structure Consists (cs : List Char) (lines : List Line) (last : List Char) : Prop where
  spelled : cs = lines.flatMap Line.chars ++ last
  unbroken : ∀ l ∈ lines, Unbroken l.text
  lastUnbroken : Unbroken last
  apart : lines.IsChain Line.Precedes

/-- The contents differ only in what ends their lines. -/
def SameLines (cs cs' : List Char) : Prop :=
  ∃ lines lines' last, Consists cs lines last ∧ Consists cs' lines' last ∧
    lines.map Line.text = lines'.map Line.text

theorem rewriteEnds_append {t : List Char} (h : Unbroken t) (rest : List Char) :
    rewriteEnds (t ++ rest) = t ++ rewriteEnds rest := by
  induction t with
  | nil => rfl
  | cons c t ih =>
    obtain ⟨hreturn, hfeed⟩ := h
    rw [List.mem_cons, not_or] at hreturn hfeed
    rw [List.cons_append, rewriteEnds_other (Ne.symm hreturn.1), ih ⟨hreturn.2, hfeed.2⟩]
    rfl

/-- What follows a lone carriage return does not begin with a line feed. -/
theorem Consists.tail_ne {cs last : List Char} {l : Line} {lines : List Line}
    (h : Consists cs (l :: lines) last) (hcr : l.ending = .cr) (rest : List Char) :
    lines.flatMap Line.chars ++ last ≠ '\n' :: rest := by
  intro heq
  cases lines with
  | nil =>
    have hlast : last = '\n' :: rest := heq
    exact h.lastUnbroken.2 (hlast ▸ List.mem_cons_self ..)
  | cons m lines =>
    have hm := h.unbroken m (List.mem_cons_of_mem _ (List.mem_cons_self ..))
    have hnot : ¬ (m.text = [] ∧ m.ending = .lf) := (List.isChain_cons_cons.mp h.apart).1 hcr
    rw [List.flatMap_cons, Line.chars] at heq
    cases htext : m.text with
    | cons c t =>
      rw [htext] at heq hm
      cases heq
      exact hm.2 (List.mem_cons_self ..)
    | nil =>
      rw [htext] at heq
      cases hend : m.ending with
      | lf => exact hnot ⟨htext, hend⟩
      | cr => rw [hend] at heq; cases heq
      | crlf => rw [hend] at heq; cases heq

theorem Consists.tail {cs last : List Char} {l : Line} {lines : List Line}
    (h : Consists cs (l :: lines) last) : Consists (lines.flatMap Line.chars ++ last) lines last :=
  ⟨rfl, fun m hm => h.unbroken m (List.mem_cons_of_mem _ hm), h.lastUnbroken, h.apart.tail⟩

/-- Only the texts of the lines remain, each with a line feed behind it. -/
theorem Consists.rewritten : ∀ {lines : List Line} {cs last : List Char}, Consists cs lines last →
    rewriteEnds cs = (lines.map Line.text).flatMap (· ++ ['\n']) ++ last
  | [], cs, last, h => by
    rw [h.spelled]
    exact rewriteEnds_of_not_mem h.lastUnbroken.1
  | l :: lines, cs, last, h => by
    have htail := h.tail.rewritten
    rw [h.spelled, List.flatMap_cons, Line.chars, List.append_assoc, List.append_assoc,
      rewriteEnds_append (h.unbroken l (List.mem_cons_self ..)), List.map_cons, List.flatMap_cons,
      List.append_assoc, List.append_assoc, ← htail]
    congr 1
    cases hend : l.ending with
    | lf => exact rewriteEnds_other (by decide) _
    | cr => exact rewriteEnds_return (h.tail_ne hend)
    | crlf => rfl

/-! ### Every content has its lines -/

section Building
variable {cs last : List Char} {lines : List Line} (h : Consists cs lines last)
include h

/-- Another line stands first. -/
theorem Consists.cons {l : Line} (ht : Unbroken l.text) (hnext : ∀ m ∈ lines.head?, l.Precedes m) :
    Consists (l.chars ++ cs) (l :: lines) last where
  spelled := by rw [h.spelled, List.flatMap_cons, List.append_assoc]
  unbroken := List.forall_mem_cons.mpr ⟨ht, h.unbroken⟩
  lastUnbroken := h.lastUnbroken
  apart := h.apart.cons hnext

/-- Another character stands first in the first line. -/
theorem Consists.push {c : Char} (hc : Unbroken [c]) :
    ∃ lines' last', Consists (c :: cs) lines' last' := by
  cases lines with
  | nil =>
    refine ⟨[], c :: last, ?_, nofun, hc.cons h.lastUnbroken, .nil⟩
    rw [h.spelled]
    rfl
  | cons l lines =>
    obtain ⟨hl, hlines⟩ := List.forall_mem_cons.mp h.unbroken
    -- what may follow a line depends on nothing but its end
    obtain ⟨hnext, hrest⟩ := List.isChain_cons.mp h.apart
    refine ⟨⟨c :: l.text, l.ending⟩ :: lines, last, ?_,
      List.forall_mem_cons.mpr ⟨hc.cons hl, hlines⟩, h.lastUnbroken, hrest.cons hnext⟩
    rw [h.spelled]
    rfl

/-- A lone carriage return stands first. -/
theorem Consists.cons_return (hne : ∀ rest, cs ≠ '\n' :: rest) :
    Consists ('\r' :: cs) (⟨[], .cr⟩ :: lines) last := by
  refine h.cons (l := ⟨[], .cr⟩) (by decide) fun m hm _ hlf => ?_
  obtain ⟨rest, rfl⟩ := List.head?_eq_some_iff.mp hm
  refine hne (rest.flatMap Line.chars ++ last) (h.spelled.trans ?_)
  rw [List.flatMap_cons, Line.chars, hlf.1, hlf.2]
  rfl

end Building

/-- Every content is made of lines. -/
theorem exists_lines (cs : List Char) : ∃ lines last, Consists cs lines last := by
  fun_induction rewriteEnds cs with
  | case1 => exact ⟨[], [], rfl, nofun, by decide, .nil⟩
  | case2 rest ih =>
    obtain ⟨lines, last, h⟩ := ih
    exact ⟨⟨[], .crlf⟩ :: lines, last, h.cons (l := ⟨[], .crlf⟩) (by decide) fun _ _ hcr => nomatch hcr⟩
  | case3 rest hpair ih =>
    obtain ⟨lines, last, h⟩ := ih
    exact ⟨_, last, h.cons_return hpair⟩
  | case4 c rest hpair hreturn ih =>
    obtain ⟨lines, last, h⟩ := ih
    by_cases hfeed : c = '\n'
    · subst hfeed
      exact ⟨⟨[], .lf⟩ :: lines, last, h.cons (l := ⟨[], .lf⟩) (by decide) fun _ _ hcr => nomatch hcr⟩
    · exact h.push ⟨fun hmem => hreturn (List.mem_singleton.mp hmem).symm,
        fun hmem => hfeed (List.mem_singleton.mp hmem).symm⟩

theorem split_at_feed {t t' rest rest' : List Char} (ht : '\n' ∉ t) (ht' : '\n' ∉ t')
    (h : t ++ '\n' :: rest = t' ++ '\n' :: rest') : t = t' ∧ rest = rest' := by
  rcases List.append_eq_append_iff.mp h with ⟨between, rfl, hrest⟩ | ⟨between, rfl, hrest⟩
  · cases between with
    | nil => exact ⟨(List.append_nil t).symm, List.tail_eq_of_cons_eq hrest⟩
    | cons c between =>
      cases hrest
      exact absurd (List.mem_append_right t (List.mem_cons_self ..)) ht'
  · cases between with
    | nil => exact ⟨List.append_nil t', (List.tail_eq_of_cons_eq hrest).symm⟩
    | cons c between =>
      cases hrest
      exact absurd (List.mem_append_right t' (List.mem_cons_self ..)) ht

/-- The texts of the lines can be told from what is left of them. -/
theorem rows_inj : ∀ {ts ts' : List (List Char)} {last last' : List Char},
    (∀ t ∈ ts, '\n' ∉ t) → (∀ t ∈ ts', '\n' ∉ t) → '\n' ∉ last → '\n' ∉ last' →
    ts.flatMap (· ++ ['\n']) ++ last = ts'.flatMap (· ++ ['\n']) ++ last' → ts = ts' ∧ last = last'
  | [], [], _, _, _, _, _, _, h => ⟨rfl, h⟩
  | [], t' :: ts', last, last', _, _, hlast, _, h => by
    have heq : last = (t' :: ts').flatMap (· ++ ['\n']) ++ last' := h
    exact absurd (heq ▸ by simp) hlast
  | t :: ts, [], last, last', _, _, _, hlast', h => by
    have heq : (t :: ts).flatMap (· ++ ['\n']) ++ last = last' := h
    exact absurd (heq ▸ by simp) hlast'
  | t :: ts, t' :: ts', _, _, hall, hall', hlast, hlast', h => by
    obtain ⟨ht, hts⟩ := List.forall_mem_cons.mp hall
    obtain ⟨ht', hts'⟩ := List.forall_mem_cons.mp hall'
    simp only [List.flatMap_cons, List.append_assoc, List.cons_append, List.nil_append] at h
    obtain ⟨htext, hrest⟩ := split_at_feed ht ht' h
    obtain ⟨hrows, hlasts⟩ := rows_inj hts hts' hlast hlast' hrest
    exact ⟨List.cons_eq_cons.mpr ⟨htext, hrows⟩, hlasts⟩

/-- Contents are rewritten to the same text just when they have the same lines. -/
theorem sameLines_iff {cs cs' : List Char} : SameLines cs cs' ↔ rewriteEnds cs = rewriteEnds cs' := by
  constructor
  · rintro ⟨lines, lines', last, h, h', htexts⟩
    rw [h.rewritten, h'.rewritten, htexts]
  · intro heq
    obtain ⟨lines, last, h⟩ := exists_lines cs
    obtain ⟨lines', last', h'⟩ := exists_lines cs'
    have hplain : ∀ {ls : List Line}, (∀ l ∈ ls, Unbroken l.text) → ∀ t ∈ ls.map Line.text, '\n' ∉ t :=
      fun hls => List.forall_mem_map.mpr fun l hl => (hls l hl).2
    rw [h.rewritten, h'.rewritten] at heq
    obtain ⟨htexts, rfl⟩ :=
      rows_inj (hplain h.unbroken) (hplain h'.unbroken) h.lastUnbroken.2 h'.lastUnbroken.2 heq
    exact ⟨lines, lines', last, h, h', htexts⟩

end Text

/-! ### Addresses -/

/-- Two runs that differ at most in the report of a failure. -/
inductive Program.SameRun : Except Fault Outcome → Except Fault Outcome → Prop
  | fault (f : Fault) : SameRun (.error f) (.error f)
  | matched (root : ParseTree) (consumed : Int) :
    SameRun (.ok (.matched root consumed)) (.ok (.matched root consumed))
  | failed (index : Int) (report report' : String) :
    SameRun (.ok (.failed index report)) (.ok (.failed index report'))

/-- Two parses that differ at most in the report of a text that does not match. -/
inductive Parser.SameAnswer : Except Fault Value → Except Fault Value → Prop
  | same (r : Except Fault Value) : SameAnswer r r
  | unmatched (line : Nat) (report report' : String) :
    SameAnswer (.error (.unmatched line report)) (.error (.unmatched line report'))

section Addresses
variable {s s' : Source} (h : s.chars = s'.chars)
include h

theorem Lowering.lower_address (l : Lowering) (depth : Nat) (tree : ParseTree) :
    l.lower s depth tree = l.lower s' depth tree := by
  obtain ⟨chars, u⟩ := s
  obtain ⟨_, u'⟩ := s'
  cases h
  induction depth generalizing tree with
  | zero => rfl
  | succ depth ih =>
    have hinner : l.lower ⟨chars, u⟩ depth = l.lower ⟨chars, u'⟩ depth := funext ih
    cases tree with
    | leaf start stop => rfl
    | node key start stop children =>
      simp only [lower, hinner]
      rfl

theorem Program.runWithin_address [PatternLibrary] (p : Program) (depth : Nat) :
    SameRun (p.runWithin depth s) (p.runWithin depth s') := by
  cases hparse : Packrat.parse p.grammar p.patterns depth p.start s.chars 0 with
  | error f =>
    rw [runWithin_of_parse_error hparse, runWithin_of_parse_error (h ▸ hparse)]
    exact .fault f
  | ok v =>
    cases htree : v.tree with
    | some tree =>
      rw [runWithin_matched hparse htree, runWithin_matched (h ▸ hparse) htree]
      exact .matched tree v.stop
    | none =>
      obtain ⟨report, hreport⟩ := s.report?_isSome (Int.le_max_right v.furthest 0) v.expected
      obtain ⟨report', hreport'⟩ := s'.report?_isSome (Int.le_max_right v.furthest 0) v.expected
      rw [runWithin_failed hparse htree hreport, runWithin_failed (h ▸ hparse) htree hreport']
      exact .failed _ report report'

/-- The address of a source gets into nothing but reports. -/
theorem Parser.parseSource_address [PatternLibrary] (p : Parser) :
    SameAnswer (p.parseSource s) (p.parseSource s') := by
  have hline : s.lineOf = s'.lineOf := by
    unfold Source.lineOf Source.lineStarts
    rw [h]
  have hlength : s.length = s'.length := congrArg Array.size h
  have hrun := p.program.runWithin_address h nestingLimit
  unfold parseSource parseWithin
  generalize p.program.runWithin nestingLimit s = ran at hrun ⊢
  generalize p.program.runWithin nestingLimit s' = ran' at hrun ⊢
  cases hrun with
  | fault f => exact .same _
  | failed index report report' =>
    simp only [finish, hline]
    exact .unmatched _ report report'
  | matched root consumed =>
    have hvalue : p.finish nestingLimit s (.matched root consumed) =
        p.finish nestingLimit s' (.matched root consumed) := by
      simp only [finish, Lowering.createWithin, hlength, p.lowering.lower_address h]
    simp only [hvalue]
    exact .same _

end Addresses

/-! ### Files -/

/-- The bytes hold this content in the character set of that name. -/
def Text.Holds (charset : String) (bytes : List Nat) (cs : List Char) : Prop :=
  ∃ set, Charset.ofName? charset = some set ∧ set.decodeFile bytes = .ok cs

/-- The text of a file that holds this content. -/
def Source.unified (cs : List Char) (uri : String) : Source := ⟨(Text.rewriteEnds cs).toArray, some uri⟩

theorem Source.ofFile_of_holds {charset : String} {bytes : List Nat} {cs : List Char}
    (h : Text.Holds charset bytes cs) (uri : String) :
    Source.ofFile charset uri bytes = .ok (unified cs uri) := by
  obtain ⟨set, hset, hdecode⟩ := h
  have hplain := Text.rewriteEnds_of_not_mem (Text.return_not_mem_rewriteEnds cs)
  simp only [ofFile, hset, hdecode, Text.unifyNewlines_eq, Text.translate_eq, hplain]
  rfl

namespace Parser

theorem parseFile_of_holds [PatternLibrary] {p : Parser} {bytes : List Nat} {cs : List Char}
    (h : Text.Holds p.charset bytes cs) (uri : String) :
    p.parseFile uri bytes = p.parseSource (.unified cs uri) := by
  rw [parseFile, Source.ofFile_of_holds h]

/-- The text of a file, which the text layer translates and the program unifies, is its content rewritten in
one pass, and unifying line ends again changes nothing. Two files have one text just when their contents have
the same lines, and then every parser gives the same answer for both, whatever their addresses are. -/
theorem line_ends_make_no_difference [PatternLibrary] {charset : String} {bytes : List Nat} {cs : List Char}
    (h : Text.Holds charset bytes cs) (uri : String) :
    ∃ source, Source.ofFile charset uri bytes = .ok source ∧
      source.text = String.ofList (Text.rewriteEnds cs) ∧ '\r' ∉ source.text.toList ∧
      Text.unifyNewlines source.text.toList = source.text.toList ∧
      ∀ charset' bytes' cs', Text.Holds charset' bytes' cs' → ∀ uri', ∃ source',
        Source.ofFile charset' uri' bytes' = .ok source' ∧
        (Text.SameLines cs cs' ↔ source.text = source'.text) ∧
        (Text.SameLines cs cs' → charset' = charset → ∀ parser : Parser, parser.charset = charset →
          SameAnswer (parser.parseFile uri bytes) (parser.parseFile uri' bytes')) := by
  have hplain := Text.return_not_mem_rewriteEnds cs
  refine ⟨_, Source.ofFile_of_holds h uri, rfl, ?_, ?_, fun charset' bytes' cs' h' uri' => ?_⟩
  · rw [Source.text, String.toList_ofList]
    exact hplain
  · rw [Source.text, String.toList_ofList, Text.unifyNewlines_eq]
    exact Text.rewriteEnds_of_not_mem hplain
  refine ⟨_, Source.ofFile_of_holds h' uri', ?_, ?_⟩
  · rw [Text.sameLines_iff]
    exact String.ofList_inj.symm
  · rintro hsame rfl parser rfl
    rw [parseFile_of_holds h, parseFile_of_holds h']
    exact parser.parseSource_address (congrArg List.toArray (Text.sameLines_iff.mp hsame))

/-- Two letters with two empty lines between them, as one lexeme. -/
def spacedLetters : Parser where
  grammar := []
  factory := []
  self := { className := "LetterFactory" }
  model := { kinds := ⟨[(.given "letters" "letters", .token)]⟩ }
  program :=
    { grammar :=
        { rules := ⟨[(.given "letters" "letters", .literal "a\n\n\nb")]⟩
          root := some (.given "letters" "letters") }
      patterns := {} }
  charset := "utf-8"

theorem spacedLetters_parses (uri : Option String) :
    spacedLetters.parseSource ⟨"a\n\n\nb".toList.toArray, uri⟩ =
      .ok (.token ⟨"a\n\n\nb", 0, 5, 1, 1⟩) := by
  have hparse : ∃ v, Packrat.parse spacedLetters.program.grammar spacedLetters.program.patterns
      nestingLimit spacedLetters.program.start "a\n\n\nb".toList.toArray 0 = .ok v ∧
      v.tree = some (.node (.given "letters" "letters") 0 5 [.leaf 0 5]) ∧ v.stop = 5 := by
    rw [Packrat.parse_run, Packrat.apply_run]
    simp only [Std.HashMap.getElem?_empty]
    exact ⟨_, rfl, rfl, rfl⟩
  obtain ⟨v, hv, htree, hstop⟩ := hparse
  have hrun : spacedLetters.program.runWithin nestingLimit ⟨"a\n\n\nb".toList.toArray, uri⟩ = _ :=
    Program.runWithin_matched hv htree
  rw [hstop] at hrun
  rw [parseSource, parseWithin, hrun]
  rfl

theorem line_ends_make_no_difference_mixed :
    Text.SameLines "a\r\n\r\rb".toList "a\n\r\n\nb".toList ∧
    spacedLetters.parseFile "file:///mixed" [97, 13, 10, 13, 13, 98] =
      .ok (.token ⟨"a\n\n\nb", 0, 5, 1, 1⟩) ∧
    SameAnswer (spacedLetters.parseFile "file:///mixed" [97, 13, 10, 13, 13, 98])
      (spacedLetters.parseFile "file:///other" [97, 10, 13, 10, 10, 98]) := by
  have hsame : Text.SameLines "a\r\n\r\rb".toList "a\n\r\n\nb".toList :=
    Text.sameLines_iff.mpr (by decide +kernel)
  have hmixed : Text.Holds "utf-8" [97, 13, 10, 13, 13, 98] "a\r\n\r\rb".toList :=
    ⟨.utf8, by decide +kernel, by with_unfolding_all rfl⟩
  have hother : Text.Holds "utf-8" [97, 10, 13, 10, 10, 98] "a\n\r\n\nb".toList :=
    ⟨.utf8, by decide +kernel, by with_unfolding_all rfl⟩
  obtain ⟨_, -, -, -, -, hothers⟩ := line_ends_make_no_difference hmixed "file:///mixed"
  obtain ⟨_, -, -, hanswers⟩ := hothers _ _ _ hother "file:///other"
  have hvalue := (parseFile_of_holds (p := spacedLetters) hmixed "file:///mixed").trans
    (spacedLetters_parses (some "file:///mixed"))
  exact ⟨hsame, hvalue, hanswers hsame rfl spacedLetters rfl⟩

end Parser
end PegScribe
