import PegScribe.Lowering
import PegScribe.Program
import PegScribe.Script
import PegScribe.Text.Newline

/-!
Parsers: a grammar is recorded and linked once, then texts are parsed into values.
-/
namespace PegScribe

/-- Which rule a parser starts from. -/
inductive RootChoice where
  /-- The first rule of the grammar. -/
  | first
  /-- What a name finds on the grammar class. -/
  | named (name : String)
  /-- A method by its qualified name. -/
  | method (m : Method)
  | key (k : RuleKey)

namespace RootChoice

/-- The key of a method's rule. -/
def ofMethod (g : GrammarClass) (model : Model) (m : Method) (shown : String) :
    Except Fault RuleKey :=
  match model.userRules.get? m with
  | some found => .ok found
  | none => .error (.grammar (.notARule g.name shown))

/-- A function as it is shown. -/
def function (m : Method) : String := "<function " ++ m.qualname ++ ">"

/-- The key to start from. -/
def resolve (g : GrammarClass) (model : Model) : RootChoice → Except Fault RuleKey
  | .first =>
    match g.rules with
    | [] => .error (.grammar (.emptyGrammar g.name))
    | (_, (m, _)) :: _ => ofMethod g model m (function m)
  | .method m => ofMethod g model m (function m)
  | .key k => .ok k
  | .named name =>
    match Lineage.find? g name with
    | none => .error (.grammar (.noSuchRule g.name name))
    | some (owner, member) =>
      let m : Method := ⟨owner.name ++ "." ++ name⟩
      match member with
      | .method _ | .static _ => ofMethod g model m (function m)
      | .ofClass _ =>
        .error (.grammar (.notARule g.name
          ("<bound method " ++ m.qualname ++ " of <class '__main__." ++ g.name ++ "'>>")))
      | .property _ => .ok (.plain "<property object>")
      | .plain .absent => .error (.grammar (.noSuchRule g.name name))
      | .plain v => .ok (.plain v.shown)

end RootChoice

/-- A grammar and a factory, ready to parse. -/
structure Parser where
  grammar : GrammarClass
  factory : FactoryClass
  self : FactoryObject
  model : Model
  program : Program
  charset : String

namespace Parser
variable [PatternLibrary]

/-- What a parser is made of. -/
structure Parts where
  grammar : GrammarClass
  factory : FactoryClass
  self : FactoryObject
  root : RootChoice := .first
  charset : String := "utf-8"
  registry : Registry := {}
  recordingLimit : Nat := 1000

/-- What the grammar's bodies are played with. -/
def Parts.stage (p : Parts) : Stage where
  grammar := p.grammar
  factory := p.factory
  limit := p.recordingLimit

/-- Records the grammar, finds the root and links the rules; the log is kept in any case. -/
def build (p : Parts) : Except Fault Parser × List LogLine :=
  let (recorded, r) := p.stage.record { registry := p.registry }
  match recorded with
  | .error f => (.error f, r.log)
  | .ok () =>
    match p.root.resolve p.grammar r.model with
    | .error f => (.error f, r.log)
    | .ok root =>
      match (r.registry.setRoot (some root)).build r.model.resolver with
      | (.error f, _) => (.error f, r.log)
      | (.ok program, _) =>
        let ready := "parser for " ++ p.grammar.name ++ " ready | rules=" ++
          toString program.grammar.rules.size ++ " root=" ++ root.label
        (.ok ⟨p.grammar, p.factory, p.self, r.model, program, p.charset⟩,
          r.log ++ [⟨.parser, ready⟩])

/-- How the parser lowers trees. -/
def lowering (p : Parser) : Lowering := ⟨p.model, p.factory.call p.self⟩

/-- The value of what a run came to, and what was done for it; the whole source has to be matched
before anything is done. -/
def finish (p : Parser) (depth : Nat) (source : Source) :
    Outcome → Except Fault Value × List Deed
  | .failed index report => (.error (.unmatched (source.lineOf index) report), [])
  | .matched root consumed =>
    if consumed ≠ source.length then (.error (.incomplete consumed source.length), [])
    else p.lowering.createWithin depth source root

/-- Parses a source, with at most `depth` expressions or nodes inside one another. -/
def parseWithin (p : Parser) (depth : Nat) (source : Source) :
    Except Fault Value × List Deed :=
  match p.program.runWithin depth source with
  | .error f => (.error f, [])
  | .ok outcome => p.finish depth source outcome

/-- The most expressions or nodes that may stand inside one another. -/
def nestingLimit : Nat := 1000

/-- Says that the nesting limit was passed in the words of a parser. -/
def capped {α : Type} : Except Fault α → Except Fault α
  | .error .tooDeep => .error (.nestingTooDeep nestingLimit)
  | r => r

/-- Parses a source. -/
def parseSource (p : Parser) (source : Source) : Except Fault Value :=
  capped (p.parseWithin nestingLimit source).1

/-- Parses a text. -/
def parseText (p : Parser) (text : String) : Except Fault Value :=
  p.parseSource (.ofString text)

/-- Parses bytes in the parser's character set. No bytes are no text in any set. -/
def parseBytes (p : Parser) (bytes : List Nat) : Except Fault Value :=
  if bytes.isEmpty then p.parseText ""
  else match Text.Charset.ofName? p.charset with
    | none => .error (.unknownCharset p.charset)
    | some set =>
      match set.decode bytes with
      | .error e => .error (.decode e)
      | .ok cs => p.parseSource ⟨cs.toArray, none⟩

/-- The line of the log that a parse leaves. -/
def logOf (source : Source) : Except Fault Outcome → List LogLine
  | .ok (.failed index _) =>
    [⟨.parser, "parse failed at offset " ++ toString index ++ " (line " ++
      toString (source.lineOf index) ++ ")"⟩]
  | _ => []

end Parser

/-- The source that a file's bytes hold; every line end counts as a line feed, both as the text layer reads
them and afterwards. -/
def Source.ofFile (charset uri : String) (bytes : List Nat) : Except Fault Source :=
  match Text.Charset.ofName? charset with
  | none => .error (.unknownCharset charset)
  | some set =>
    match set.decodeFile bytes with
    | .error e => .error (.decode e)
    | .ok cs => .ok ⟨(Text.unifyNewlines (Text.translate cs)).toArray, some uri⟩

/-- Parses a file's bytes. -/
def Parser.parseFile [PatternLibrary] (p : Parser) (uri : String) (bytes : List Nat) : Except Fault Value :=
  match Source.ofFile p.charset uri bytes with
  | .error f => .error f
  | .ok source => p.parseSource source

end PegScribe
