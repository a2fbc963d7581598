import PegScribe.Command.Run
import PegScribe.Proofs.Assertions
import PegScribe.Proofs.Encoding
import PegScribe.Proofs.RoundTrip

/-!
Endings: a command to parse ends with a code that says how the parse came out, unless the file that it
names holds no text or its path cannot be one.

A parser of a linked grammar whose factory methods make a value of whatever they can take does not break
off in any other way than by refusing a text (`parses_or_refuses`): the run comes to an outcome, and
lowering meets only the trees that it expects. The grammar that commands use unless another is named is
such a grammar, from each of its rules. What is left are the faults of files. The command answers for those
that the system reports, and for no others.
-/
namespace PegScribe

/-! ### Linked programs, checked -/

namespace Expr
variable [PatternLibrary] {g : Grammar} {patterns : PatternTable}

mutual

/-- Do references name rules, are patterns well formed, and is nothing else out of place? -/
def isLinked (g : Grammar) (patterns : PatternTable) : Expr → Bool
  | .literal _ => true
  | .pattern source => (patterns.meaning? source).isSome
  | .call key => (g.rules.get? key).isSome
  | .rep (.unknown _) _ => false
  | .rep _ body => isLinked g patterns body
  | .seq items => areLinked g patterns items
  | .choice alts => areLinked g patterns alts
  | _ => false

/-- Are all the expressions linked? -/
def areLinked (g : Grammar) (patterns : PatternTable) : List Expr → Bool
  | [] => true
  | e :: rest => isLinked g patterns e && areLinked g patterns rest

end

mutual

theorem linked_of_isLinked : ∀ {e : Expr}, e.isLinked g patterns = true → e.Linked g patterns
  | .literal t, _ => .literal t
  | .pattern source, h => by
    obtain ⟨r, hr⟩ := Option.isSome_iff_exists.mp h
    exact .pattern hr
  | .call key, h => by
    obtain ⟨body, hbody⟩ := Option.isSome_iff_exists.mp h
    exact .call hbody
  | .rep how body, h => by
    cases how with
    | optional => exact .optional (linked_of_isLinked h)
    | zeroOrMore => exact .zeroOrMore (linked_of_isLinked h)
    | oneOrMore => exact .oneOrMore (linked_of_isLinked h)
    | unknown mark => cases h
  | .seq items, h => .seq (linked_of_areLinked h)
  | .choice alts, h => .choice (linked_of_areLinked h)

theorem linked_of_areLinked : ∀ {es : List Expr}, areLinked g patterns es = true →
    ∀ e ∈ es, e.Linked g patterns
  | [], _ => nofun
  | _ :: _, h => by
    obtain ⟨hfirst, hrest⟩ := Bool.and_eq_true_iff.mp h
    exact List.forall_mem_cons.mpr ⟨linked_of_isLinked hfirst, linked_of_areLinked hrest⟩

end

end Expr

namespace Program
variable [PatternLibrary] {p : Program}

/-- Has the root a rule, and are the bodies of all rules linked? -/
def isLinked (p : Program) : Bool :=
  (p.grammar.rules.get? p.start).isSome &&
    p.grammar.rules.entries.all (·.2.isLinked p.grammar p.patterns)

theorem runs_of_isLinked (h : p.isLinked = true) (source : Source) :
    ∃ outcome, p.RunsTo source outcome := by
  obtain ⟨hroot, hall⟩ := Bool.and_eq_true_iff.mp h
  obtain ⟨body, hbody⟩ := Option.isSome_iff_exists.mp hroot
  refine runs_of_linked (fun key e he => Expr.linked_of_isLinked ?_) hbody source
  exact List.all_eq_true.mp hall _ (Ledger.mem_entries_of_get? he)

end Program

/-! ### Values and refusals -/

/-- Every public method makes a value of whatever it can take. -/
def FactoryClass.Makes (f : FactoryClass) : Prop :=
  ∀ x ∈ f.methods, ∀ self args, ∃ v, x.2.2.behaviour self args = .ok v

namespace Parser
open Reading Recorder
variable {parts : Parts} {parser : Parser} {r : Recorder} {root : RuleKey}

/-- A grammar that is recorded and links from the root gives a parser. -/
theorem build_of_links [PatternLibrary] {program : Program} {built : Registry}
    (hrecord : parts.stage.record { registry := parts.registry } = (.ok (), r))
    (hroot : parts.root.resolve parts.grammar r.model = .ok root)
    (hlink : (r.registry.setRoot (some root)).build r.model.resolver = (.ok program, built)) :
    ∃ log, build parts =
      (.ok ⟨parts.grammar, parts.factory, parts.self, r.model, program, parts.charset⟩, log) := by
  simp only [build, hrecord, hroot, hlink]
  exact ⟨_, rfl⟩

/-- The ways in which a parser refuses a text. -/
inductive Refuses : Fault → Prop
  | unmatched (line : Nat) (report : String) : Refuses (.unmatched line report)
  | incomplete (consumed : Int) (total : Nat) : Refuses (.incomplete consumed total)
  | nestingTooDeep (limit : Nat) : Refuses (.nestingTooDeep limit)

/-- What the grammar and the factory of a parser have to be like for it to parse or refuse every text. -/
structure Parts.Sound (parts : Parts) : Prop where
  pushes : parts.stage.PushesNothing
  keys : parts.stage.GivesOwnKeys
  names : ∀ x ∈ parts.factory.methods, '.' ∉ x.1.toList
  makes : parts.factory.Makes
  registry : parts.registry = {}
  root : ∃ method, rootMethod? parts.grammar parts.root = some method

/-- A factory method makes a value of as many arguments as the call had that recorded its rule. -/
theorem makes_of_recordedBy [PatternLibrary] (hs : parts.Sound) (hb : Built parts parser r root)
    {m : Method} {args : List Value} (h : RecordedBy parts.stage parser m args.length) :
    ∃ v, parser.lowering.act m args = .ok v := by
  obtain ⟨-, -, -, -, ⟨name, fm, hm, hcheck, -⟩, -⟩ := h
  obtain ⟨bound, hbound⟩ := Signature.bind_of_check hcheck m.qualname
  obtain ⟨v, hv⟩ := hs.makes _ hm parts.self bound
  refine ⟨v, ?_⟩
  rw [hb.lowering]
  show FactoryClass.call parts.factory parts.self m args = _
  rw [FactoryClass.call_method hs.names hm, FactoryMethod.call, hbound]
  exact hv

/-- Only the depth breaks lowering off. -/
theorem lowers_of_run [PatternLibrary] (hs : parts.Sound) (hb : Built parts parser r root) {depth : Nat}
    {source : Source} {tree : ParseTree} {consumed : Int}
    (hrun : parser.program.runWithin depth source = .ok (.matched tree consumed)) {f : Fault}
    (h : (parser.lowering.createWithin depth source tree).1 = .error f) : f = .tooDeep := by
  obtain ⟨method, hmethod⟩ := hs.root
  have hfits := treeFits_of_run hb (shaped_of_built hb hs.pushes hs.keys hs.registry) hmethod hrun
  obtain ⟨hcalls, hbroken⟩ := proper_create hfits rfl
  refine ((hbroken f h).resolve_right fun ⟨m, args, hlast, hact⟩ => ?_).1
  obtain ⟨v, hv⟩ := makes_of_recordedBy hs hb (hcalls m args (List.mem_of_getLast? hlast))
  exact nomatch hact.symm.trans hv

/-- A parser of a linked program parses a text or refuses it. -/
theorem parses_or_refuses [PatternLibrary] (hs : parts.Sound) (hbuild : (build parts).1 = .ok parser)
    (hlinked : parser.program.isLinked = true) (source : Source) :
    (∃ v, parser.parseSource source = .ok v) ∨
      ∃ f, Refuses f ∧ parser.parseSource source = .error f := by
  obtain ⟨r, root, hb⟩ := built_of_build hbuild
  obtain ⟨outcome, -, -, hruns⟩ := Program.runs_of_isLinked hlinked source
  rcases hruns nestingLimit with hrun | hrun <;> simp only [parseSource, parseWithin, hrun]
  · exact .inr ⟨_, .nestingTooDeep _, rfl⟩
  cases outcome with
  | failed index report => exact .inr ⟨_, .unmatched _ _, rfl⟩
  | matched tree consumed =>
    simp only [finish]
    split
    · exact .inr ⟨_, .incomplete _ _, rfl⟩
    cases hvalue : (parser.lowering.createWithin nestingLimit source tree).1 with
    | ok v => exact .inl ⟨v, rfl⟩
    | error f =>
      cases lowers_of_run hs hb hrun hvalue
      exact .inr ⟨_, .nestingTooDeep _, rfl⟩

end Parser

/-! ### The grammar that is used unless another is named -/

namespace Ir
open Reading

/-- The first rule or one that is named. -/
def roots : List RootChoice := .first :: ruleNames.map .named

/-- Does what was recorded link from the root, with nothing out of place? -/
def linksFrom (r : Recorder) (root : RootChoice) : Bool :=
  match root.resolve grammar r.model with
  | .error _ => false
  | .ok key =>
    match ((r.registry.setRoot (some key)).build r.model.resolver).1 with
    | .error _ => false
    | .ok program => program.isLinked

theorem links_from_roots : ∃ r, stage.record {} = (.ok (), r) ∧
    ∀ root ∈ roots, linksFrom r root = true := by
  have hlinks : (match stage.record {} with
      | (.ok (), r) => roots.all (linksFrom r)
      | (.error _, _) => false) = true := by decide +kernel
  rcases hrecord : stage.record {} with ⟨f | _, r⟩
  · rw [hrecord] at hlinks; cases hlinks
  · rw [hrecord] at hlinks
    exact ⟨r, rfl, List.all_eq_true.mp hlinks⟩

/-- Parsers of the grammar from any of its rules, in any character set. -/
def startingFrom (root : RootChoice) (charset : String) : Parser.Parts :=
  { parts with root, charset }

theorem builds_from_root {root : RootChoice} (hroot : root ∈ roots) (charset : String) :
    ∃ parser log, Parser.build (startingFrom root charset) = (.ok parser, log) ∧
      parser.charset = charset ∧ parser.program.isLinked = true := by
  obtain ⟨r, hrecord, hlinks⟩ := links_from_roots
  have hlinked := hlinks root hroot
  unfold linksFrom at hlinked
  cases hkey : root.resolve grammar r.model with
  | error f => rw [hkey] at hlinked; cases hlinked
  | ok key =>
    rw [hkey] at hlinked
    rcases hlink : (r.registry.setRoot (some key)).build r.model.resolver with ⟨f | program, built⟩
    · simp [hlink] at hlinked
    · simp only [hlink] at hlinked
      obtain ⟨log, hbuild⟩ := Parser.build_of_links
        (show (startingFrom root charset).stage.record {} = (.ok (), r) from hrecord) hkey hlink
      exact ⟨_, log, hbuild, rfl, hlinked⟩

theorem makes_treeFactory : treeFactory.Makes := by
  have hmethods : treeFactory.methods.map (·.2.2) = [maker .alloca, maker .load, maker .store,
      maker .identifier, maker .integerLiteral, maker .type] := by with_unfolding_all rfl
  intro x hx self args
  have hmaker : x.2.2 ∈ treeFactory.methods.map (·.2.2) := List.mem_map_of_mem hx
  rw [hmethods] at hmaker
  simp only [List.mem_cons, List.not_mem_nil, or_false] at hmaker
  rcases hmaker with h | h | h | h | h | h <;> rw [h] <;> exact ⟨_, rfl⟩

theorem sound_from_root {root : RootChoice} (hroot : root ∈ roots) (charset : String) :
    (startingFrom root charset).Sound where
  pushes := show stage.PushesNothing by decide +kernel
  keys := Stage.givesOwnKeys_of_nil (show stage.keys = [] by decide +kernel)
  names x hx := stage_declarative.actionNames x.1 x.2.1 x.2.2 hx
  makes := makes_treeFactory
  registry := rfl
  root := by
    have hmethods : (roots.all fun root => (rootMethod? grammar root).isSome) = true := by
      decide +kernel
    exact Option.isSome_iff_exists.mp (List.all_eq_true.mp hmethods root hroot)

end Ir

/-! ### Commands -/

namespace Command
variable {w : World} {r : Request} {parser : Parser} {log : List LogLine}

/-- A request to parse with the grammar and the factory that are used unless others are named, from the
first rule of the grammar or one that is named, in UTF-8. -/
structure Request.Usual (r : Request) : Prop where
  verb : r.verb = .parse
  grammar : r.grammar.getD defaultGrammar = defaultGrammar
  factory : r.factory.getD defaultFactory = defaultFactory
  root : ∀ name ∈ r.root, name ∈ Ir.ruleNames
  charset : Text.Charset.ofName? r.charset = some .utf8

/-- The command ends as the parse came out: it prints a value and ends with code 0, or it complains of a
refusal and ends with code 1. -/
def Ending.Answers (ending : Ending) : Except Fault Value → Prop
  | .ok v => ∃ err, ending = .finished 0 (Layout.render v) err
  | .error f => Parser.Refuses f ∧ ∃ err, ending = .finished 1 "" err

/-- The root that a request asks for. -/
def Request.rootChoice (r : Request) : RootChoice :=
  match r.root with
  | some name => .named name
  | none => .first

theorem Request.Usual.rootChoice_mem (hr : r.Usual) : r.rootChoice ∈ Ir.roots := by
  unfold Request.rootChoice
  split
  · rename_i name hname
    exact List.mem_cons_of_mem _ (List.mem_map_of_mem (hr.root name hname))
  · exact List.mem_cons_self ..

theorem buildParser_usual (hw : w.catalog = bundled) (hr : r.Usual) :
    buildParser w r = Parser.build (Ir.startingFrom r.rootChoice r.charset) := by
  have hgrammar : findExhibit bundled defaultGrammar = .ok (.grammar Ir.grammar) := by
    with_unfolding_all rfl
  have hfactory : findExhibit bundled defaultFactory = .ok (.factory Ir.treeFactory) := by
    with_unfolding_all rfl
  simp only [buildParser, hw, hr.grammar, hr.factory, hgrammar, hfactory]
  rfl

/-- A usual request has a parser, which parses every source or refuses it. -/
theorem parser_usual (hw : w.catalog = bundled) (hr : r.Usual) : ∃ parser log,
    buildParser w r = (.ok parser, log) ∧ parser.charset = r.charset ∧
    ∀ source, (∃ v, parser.parseSource source = .ok v) ∨
      ∃ f, Parser.Refuses f ∧ parser.parseSource source = .error f := by
  obtain ⟨parser, log, hbuild, hcharset, hlinked⟩ := Ir.builds_from_root hr.rootChoice_mem r.charset
  refine ⟨parser, log, (buildParser_usual hw hr).trans hbuild, hcharset, ?_⟩
  exact Parser.parses_or_refuses (Ir.sound_from_root hr.rootChoice_mem r.charset)
    (congrArg Prod.fst hbuild) hlinked

theorem execute_parse (hbuild : buildParser w r = (.ok parser, log)) (hverb : r.verb = .parse) :
    execute w r = parseRequest w r parser log := by
  simp only [execute, hbuild, hverb]

/-- Parsing a source ends as the parse comes out. -/
theorem parseAndEnd_answers {source : Source} (h : (∃ v, parser.parseSource source = .ok v) ∨
      ∃ f, Parser.Refuses f ∧ parser.parseSource source = .error f) (debug : Bool) :
    (parseAndEnd parser debug log source).Answers (parser.parseSource source) := by
  rcases h with ⟨v, hv⟩ | ⟨f, hf, hrefused⟩
  · simp only [parseAndEnd, hv]
    exact ⟨_, rfl⟩
  · simp only [parseAndEnd, hrefused]
    refine ⟨hf, ?_⟩
    cases hf <;> exact ⟨_, rfl⟩

section Files
variable {charset : String} (hset : Text.Charset.ofName? charset = some .utf8) (uri : String)
  {bytes : List Nat}
include hset

theorem ofFile_of_utf8Bytes {cs : List Char} (h : bytes = Text.utf8Bytes cs) :
    Source.ofFile charset uri bytes = .ok ⟨(Text.unifyNewlines (Text.translate cs)).toArray, some uri⟩ := by
  simp only [Source.ofFile, hset, Text.Charset.decodeFile_utf8_iff.mpr h]

theorem ofFile_of_undecodable (h : ∀ cs, bytes ≠ Text.utf8Bytes cs) :
    ∃ e, Source.ofFile charset uri bytes = .error (.decode e) := by
  cases hdecode : Text.Charset.utf8.decodeFile bytes with
  | error e => exact ⟨e, by simp only [Source.ofFile, hset, hdecode]⟩
  | ok cs => exact absurd (Text.Charset.decodeFile_utf8_iff.mp hdecode) (h cs)

end Files

section Requests
variable {path : String} (htext : r.text = none) (hinput : r.input = some path)
include htext hinput

theorem parseRequest_nullByte (h : '\x00' ∈ path.toList) :
    parseRequest w r parser log = .escaped .nullByte := by
  simp only [parseRequest, htext, hinput, Option.getD_some, if_pos h]

theorem parseRequest_trouble (h : '\x00' ∉ path.toList) {trouble : FileTrouble}
    (hread : w.read (plainPath path) = .error trouble) :
    ∃ err, parseRequest w r parser log = .finished 2 "" err := by
  simp only [parseRequest, htext, hinput, Option.getD_some, if_neg h, hread]
  exact ⟨_, rfl⟩

variable (h : '\x00' ∉ path.toList) {file : File} (hread : w.read (plainPath path) = .ok file)
include h hread

theorem parseRequest_source {source : Source}
    (hsource : Source.ofFile parser.charset file.uri file.bytes = .ok source) :
    parseRequest w r parser log = parseAndEnd parser r.debug log source := by
  simp only [parseRequest, htext, hinput, Option.getD_some, if_neg h, hread, hsource]

theorem parseRequest_escaped {f : Fault}
    (hsource : Source.ofFile parser.charset file.uri file.bytes = .error f) :
    parseRequest w r parser log = .escaped f := by
  simp only [parseRequest, htext, hinput, Option.getD_some, if_neg h, hread, hsource]

end Requests

/-- A command to parse in the usual way answers with a code, but for two faults that escape. A text ends it
with code 0 if it is accepted, and with code 1 if it is refused. So does a file whose bytes are the UTF-8
of a text; a file that cannot be read ends it with code 2. Bytes that are the UTF-8 of no text and a path
with a null character in it are not answered for. -/
theorem parse_command_answers (w : World) (r : Request) (hw : w.catalog = bundled) (hr : r.Usual) :
    ∃ parser log, buildParser w r = (.ok parser, log) ∧
      (∀ text, r.text = some text → (execute w r).Answers (parser.parseText text)) ∧
      ∀ path, r.text = none → r.input = some path →
        ('\x00' ∈ path.toList → execute w r = .escaped .nullByte) ∧
        ('\x00' ∉ path.toList →
          (∀ trouble, w.read (plainPath path) = .error trouble →
            ∃ err, execute w r = .finished 2 "" err) ∧
          ∀ file, w.read (plainPath path) = .ok file →
            (∀ cs, file.bytes = Text.utf8Bytes cs →
              (execute w r).Answers (parser.parseFile file.uri file.bytes)) ∧
            ((∀ cs, file.bytes ≠ Text.utf8Bytes cs) → ∃ e, execute w r = .escaped (.decode e))) := by
  obtain ⟨parser, log, hbuild, hcharset, hparses⟩ := parser_usual hw hr
  have hset : Text.Charset.ofName? parser.charset = some .utf8 := by rw [hcharset, hr.charset]
  rw [execute_parse hbuild hr.verb]
  refine ⟨parser, log, hbuild, fun text htext => ?_, fun path htext hinput => ⟨?_, fun hpath => ⟨?_, ?_⟩⟩⟩
  · simp only [parseRequest, htext]
    exact parseAndEnd_answers (hparses _) r.debug
  · exact parseRequest_nullByte htext hinput
  · intro trouble hread
    exact parseRequest_trouble htext hinput hpath hread
  · intro file hread
    refine ⟨fun cs hcs => ?_, fun hnot => ?_⟩
    · have hsource := ofFile_of_utf8Bytes hset file.uri hcs
      rw [parseRequest_source htext hinput hpath hread hsource, Parser.parseFile, hsource]
      exact parseAndEnd_answers (hparses _) r.debug
    · obtain ⟨e, he⟩ := ofFile_of_undecodable hset file.uri hnot
      exact ⟨e, parseRequest_escaped htext hinput hpath hread he⟩

/-- A world in which every path leads to the same. -/
def World.holding (found : Except FileTrouble File) : World := { read := fun _ => found }

/-- A world in which every path leads to a file of these bytes. -/
def World.ofBytes (bytes : List Nat) : World := .holding (.ok ⟨"file:///prog.ll", bytes⟩)

/-- The request to parse a file in the usual way. -/
def Request.reading (path : String) : Request := { verb := .parse, input := some path }

theorem usual_reading (path : String) : (Request.reading path).Usual :=
  ⟨rfl, rfl, rfl, nofun, show Text.Charset.ofName? "utf-8" = some .utf8 by decide⟩

theorem parse_command_answers_reading :
    (∃ parser log,
      buildParser (.ofBytes [0xC3, 0xA9, 0x0D]) (.reading "prog.ll") = (.ok parser, log) ∧
      (execute (.ofBytes [0xC3, 0xA9, 0x0D]) (.reading "prog.ll")).Answers
        (parser.parseFile "file:///prog.ll" [0xC3, 0xA9, 0x0D])) ∧
    ∃ err, execute (.holding (.error .denied)) (.reading "prog.ll") = .finished 2 "" err := by
  have husual := usual_reading "prog.ll"
  have hbytes : [0xC3, 0xA9, 0x0D] = Text.utf8Bytes ['é', '\r'] := by decide
  obtain ⟨parser, log, hbuild, -, hfiles⟩ :=
    parse_command_answers (.ofBytes [0xC3, 0xA9, 0x0D]) _ rfl husual
  obtain ⟨_, _, -, -, hdenied⟩ := parse_command_answers (.holding (.error .denied)) _ rfl husual
  have hanswers := ((hfiles _ rfl rfl).2 (by decide)).2 _ rfl
  exact ⟨⟨parser, log, hbuild, hanswers.1 _ hbytes⟩, ((hdenied _ rfl rfl).2 (by decide)).1 _ rfl⟩

/-- A file of one byte that no text is written with ends the command with a fault, and with no code. -/
theorem undecodable_file_escapes : (Request.reading "prog.ll").Usual ∧
    execute (.ofBytes [0xFF]) (.reading "prog.ll") =
      .escaped (.decode ⟨"utf-8", 0xFF, 0, 1, "invalid start byte"⟩) ∧
    ∀ code out err, execute (.ofBytes [0xFF]) (.reading "prog.ll") ≠ .finished code out err := by
  have husual := usual_reading "prog.ll"
  have hcatalog : (World.ofBytes [0xFF]).catalog = bundled := rfl
  obtain ⟨parser, log, hbuild, hcharset, -⟩ := parser_usual hcatalog husual
  have hescaped : execute (.ofBytes [0xFF]) (.reading "prog.ll") =
      .escaped (.decode ⟨"utf-8", 0xFF, 0, 1, "invalid start byte"⟩) := by
    rw [execute_parse hbuild rfl]
    refine parseRequest_escaped rfl rfl (by decide) rfl ?_
    rw [hcharset]
    rfl
  exact ⟨husual, hescaped, fun _ _ _ h => by rw [hescaped] at h; cases h⟩

end Command
end PegScribe
