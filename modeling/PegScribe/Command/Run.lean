import PegScribe.Command.Catalog
import PegScribe.Command.Options
import PegScribe.Layout
import PegScribe.Regex.Library

/-!
Running a command: what it prints, what it complains about, and the code that it ends with.
-/
namespace PegScribe.Command

/-- Why a file cannot be read. -/
inductive FileTrouble where
  | notFound | isDirectory | denied | notADirectory
  /-- Any other trouble of the system: its family and its words. -/
  | other (kind words : String)
  deriving DecidableEq

/-- The family of a file fault. -/
def FileTrouble.kind : FileTrouble → String
  | .notFound => "FileNotFoundError"
  | .isDirectory => "IsADirectoryError"
  | .denied => "PermissionError"
  | .notADirectory => "NotADirectoryError"
  | .other kind _ => kind

/-- The wording of a file fault. -/
def FileTrouble.message (t : FileTrouble) (path : String) : String :=
  let words := match t with
    | .notFound => "[Errno 2] No such file or directory"
    | .isDirectory => "[Errno 21] Is a directory"
    | .denied => "[Errno 13] Permission denied"
    | .notADirectory => "[Errno 20] Not a directory"
    | .other _ words => words
  words ++ ": " ++ Text.quote path

/-- A path without empty and idle steps; no path at all is the place where one stands. -/
def plainPath (path : String) : String :=
  let steps := (path.splitOn "/").filter fun s => !s.isEmpty && s != "."
  let lead :=
    if path.startsWith "//" && !path.startsWith "///" then "//"
    else if path.startsWith "/" then "/" else ""
  let joined := lead ++ Text.join "/" steps
  if joined.isEmpty then "." else joined

/-- A file that was read: its address and its bytes. -/
structure File where
  uri : String
  bytes : List Nat

/-- The world around a command: what can be named, and what files hold. -/
structure World where
  catalog : List Section := bundled
  read : String → Except FileTrouble File

/-- How a command ends. -/
inductive Ending where
  /-- With a code and what was printed. -/
  | finished (code : Nat) (out err : String)
  /-- With a complaint about the words. -/
  | misused (m : Misuse)
  /-- With a fault that nobody answers for. -/
  | escaped (f : Fault)

/-- The name of a channel. -/
def channelName : Channel → String
  | .recorder => "tracepeg.grammar.recorder"
  | .factory => "tracepeg.grammar.factory"
  | .parser => "tracepeg.parser"

/-- The log as it is printed, if it was asked for. -/
def logText (debug : Bool) (lines : List LogLine) : String :=
  if debug then
    String.join (lines.map fun l =>
      "[DEBUG] " ++ channelName l.channel ++ ": " ++ l.text ++ "\n")
  else ""

/-- Faults that a command answers for while it builds its parser. -/
def isGrammarTrouble : Fault → Bool
  | .grammar _ | .bootstrap .. | .numeral _ | .badTarget _ | .noSuchMember .. | .noSuchModule _
  | .noModuleName | .decode _ => true
  | f => f.kind = "ValueError"

/-- The parser that a request asks for, and the log of building it. -/
def buildParser (w : World) (r : Request) : Except Fault Parser × List LogLine :=
  let parts : Except Fault Parser.Parts := do
    let g ← findExhibit w.catalog (r.grammar.getD defaultGrammar)
    let e ← findExhibit w.catalog (r.factory.getD defaultFactory)
    let f ← e.asFactory
    return {
      grammar := g.asGrammar
      factory := f
      self := { className := f.name }
      root := match r.root with
        | some name => .named name
        | none => .first
      charset := r.charset }
  match parts with
  | .error f => (.error f, [])
  | .ok p => Parser.build p

/-- The lines that list a parser's rules. -/
def rulesText (p : Parser) : Except Fault String := do
  let lines ← p.program.grammar.describe
  let root := (p.program.grammar.root.getD RuleKey.missing).label
  let total := "[RULES OK] rules=" ++ toString p.program.grammar.rules.size ++
    " user=" ++ toString p.model.userRules.size ++
    " actions=" ++ toString p.model.actionRules.size ++
    " synthetic=" ++ toString p.model.kinds.size ++ " root=" ++ root
  return String.join ((lines ++ [total]).map (· ++ "\n"))

/-- The ending of a parse. -/
def parseEnding (log : String) : Except Fault Value → Ending
  | .ok v => .finished 0 (Layout.render v) log
  | .error (.unmatched _ report) => .finished 1 "" (log ++ "[SYNTAX ERROR]\n" ++ report ++ "\n")
  | .error f@(.incomplete ..) => .finished 1 "" (log ++ "[INCOMPLETE] " ++ f.message ++ "\n")
  | .error f@(.nestingTooDeep _) => .finished 1 "" (log ++ "[TOO DEEP] " ++ f.message ++ "\n")
  | .error f => .escaped f

/-- Parses a source and ends. -/
def parseAndEnd (p : Parser) (debug : Bool) (log : List LogLine) (source : Source) : Ending :=
  let log := log ++ Parser.logOf source (p.program.run source)
  parseEnding (logText debug log) (p.parseSource source)

/-- Parses what a request names. -/
def parseRequest (w : World) (r : Request) (p : Parser) (log : List LogLine) : Ending :=
  match r.text with
  | some text => parseAndEnd p r.debug log (.ofString text)
  | none =>
    let named := r.input.getD ""
    if '\x00' ∈ named.toList then .escaped .nullByte
    else match w.read (plainPath named) with
      | .error t =>
        .finished 2 "" (logText r.debug log ++ "[ERROR] " ++ t.kind ++ " " ++
          t.message (plainPath named) ++ "\n")
      | .ok file =>
        match Source.ofFile p.charset file.uri file.bytes with
        | .error f => .escaped f
        | .ok source => parseAndEnd p r.debug log source

/-- Runs a request. -/
def execute (w : World) (r : Request) : Ending :=
  match buildParser w r with
  | (.error f, log) =>
    if isGrammarTrouble f then
      .finished 2 "" (logText r.debug log ++ "[GRAMMAR ERROR] " ++ f.kind ++ " " ++ f.message ++
        "\n")
    else .escaped f
  | (.ok p, log) =>
    match r.verb with
    | .rules =>
      match rulesText p with
      | .ok out => .finished 0 out (logText r.debug log)
      | .error f => .escaped f
    | .parse => parseRequest w r p log

/-- Runs a command from its words. -/
def run (w : World) (words : List String) : Ending :=
  match Request.ofWords words with
  | .error m => .misused m
  | .ok r => execute w r

end PegScribe.Command
