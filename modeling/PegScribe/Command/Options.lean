import PegScribe.Text.Quoted
import PegScribe.Text.Classes

/-!
Options: how the words after the program's name are read.

A word that starts with a dash is an option, unless it is a number or has a blank in it. An option
may be cut short as long as one option only goes on from there; its value is the next word, or
stands behind an equals sign.
-/
namespace PegScribe.Command

/-- Everything that can be asked for by an option. -/
inductive Flag where
  | help | grammar | factory | root | charset | debug | text | input
  deriving DecidableEq

namespace Flag

/-- The spellings of a flag. -/
def spellings : Flag → List String
  | .help => ["-h", "--help"]
  | .grammar => ["--grammar"]
  | .factory => ["--factory"]
  | .root => ["--root"]
  | .charset => ["--charset"]
  | .debug => ["-D", "--debug"]
  | .text => ["--text"]
  | .input => ["--input"]

/-- Does a value follow? -/
def takesValue : Flag → Bool
  | .help | .debug => false
  | _ => true

/-- A flag as messages name it. -/
def title (f : Flag) : String := Text.join "/" f.spellings

end Flag

/-- What can be done. -/
inductive Verb where
  | rules | parse
  deriving DecidableEq

/-- The name of a verb. -/
def Verb.name : Verb → String
  | .rules => "rules"
  | .parse => "parse"

/-- The flags that a verb takes. -/
def Verb.flags : Verb → List Flag
  | .rules => [.help, .grammar, .factory, .root, .charset, .debug]
  | .parse => [.help, .grammar, .factory, .root, .charset, .debug, .text, .input]

/-- The program's name. -/
def programName : String := "tracepegc"

/-- Why the words make no command. -/
inductive Misuse where
  | noVerb
  | unknownVerb (word : String)
  | unrecognized (words : List String)
  | noValue (v : Verb) (f : Flag)
  | uselessValue (speaker : Option Verb) (f : Flag) (value : String)
  | ambiguous (speaker : Option Verb) (word : String) (candidates : List String)
  | conflict (v : Verb) (f earlier : Flag)
  | noSource
  /-- Help was asked for. -/
  | help

/-- Who complains: the program, or the program with a verb. -/
def speaker : Option Verb → String
  | none => programName
  | some v => programName ++ " " ++ v.name

/-- The last line of the complaint. -/
def Misuse.message : Misuse → String
  | .noVerb => speaker none ++ ": error: the following arguments are required: cmd"
  | .unknownVerb w =>
    speaker none ++ ": error: argument cmd: invalid choice: " ++ Text.quote w ++
      " (choose from 'rules', 'parse')"
  | .unrecognized ws =>
    speaker none ++ ": error: unrecognized arguments: " ++ Text.join " " ws
  | .noValue v f => speaker v ++ ": error: argument " ++ f.title ++ ": expected one argument"
  | .uselessValue v f value =>
    speaker v ++ ": error: argument " ++ f.title ++ ": ignored explicit argument " ++
      Text.quote value
  | .ambiguous v w cs =>
    speaker v ++ ": error: ambiguous option: " ++ w ++ " could match " ++ Text.join ", " cs
  | .conflict v f earlier =>
    speaker v ++ ": error: argument " ++ f.title ++ ": not allowed with argument " ++
      earlier.title
  | .noSource =>
    speaker (some .parse) ++ ": error: one of the arguments --text --input is required"
  | .help => ""

/-! ### Words -/

/-- What a word is taken for. -/
inductive Piece where
  | plain (word : String)
  /-- The mark after which every word is plain. -/
  | endOfFlags
  /-- A flag, and the value behind an equals sign. -/
  | flag (f : Flag) (value : Option String)
  /-- A flag of one letter, and what stands right behind the letter. -/
  | glued (f : Flag) (tail : List Char)
  | unknownFlag (word : String)

/-- Is the word a negative number? -/
def isNegativeNumber (word : String) : Bool :=
  match word.toList with
  | '-' :: cs =>
    match cs.span Text.isDecimal with
    | (ds, []) => !ds.isEmpty
    | (_, '.' :: ds) => !ds.isEmpty && ds.all Text.isDecimal
    | _ => false
  | _ => false

/-- The spellings of all flags, with the flags. -/
def spelled (flags : List Flag) : List (String × Flag) :=
  flags.flatMap fun f => f.spellings.map fun s => (s, f)

/-- The word before an equals sign, and the value after it. -/
def cutValue (word : String) : String × Option String :=
  match word.toList.span (· != '=') with
  | (name, _ :: value) => (String.ofList name, some (String.ofList value))
  | (name, []) => (String.ofList name, none)

/-- What a word may be short for, by the full spelling. -/
def candidates (flags : List Flag) (word : String) : List (String × Piece) :=
  if word.startsWith "--" then
    let (name, value) := cutValue word
    (spelled flags).filterMap fun (s, f) =>
      if s.startsWith name then some (s, .flag f value) else none
  else
    (spelled flags).filterMap fun (s, f) =>
      if s = Text.clip 2 word then some (s, .glued f (word.toList.drop 2))
      else if s.startsWith word then some (s, .flag f none) else none

/-- Takes a word for what it is. -/
def classify (who : Option Verb) (flags : List Flag) (word : String) : Except Misuse Piece :=
  if !word.startsWith "-" then .ok (.plain word)
  else match (spelled flags).find? fun (s, _) => s = word with
    | some (_, f) => .ok (.flag f none)
    | none =>
      if word.length = 1 then .ok (.plain word)
      else
        let (name, value) := cutValue word
        match (spelled flags).find? fun (s, _) => s = name && value.isSome with
        | some (_, f) => .ok (.flag f value)
        | none =>
          match candidates flags word with
          | [(_, piece)] => .ok piece
          | [] =>
            if isNegativeNumber word || word.toList.contains ' ' then .ok (.plain word)
            else .ok (.unknownFlag word)
          | many => .error (.ambiguous who word (many.map (·.1)))

/-- Takes all words for what they are; after the end mark all are plain. -/
def pieces (who : Option Verb) (flags : List Flag) : List String → Except Misuse (List Piece)
  | [] => .ok []
  | "--" :: rest => .ok (.endOfFlags :: rest.map .plain)
  | w :: rest => do
    let p ← classify who flags w
    return p :: (← pieces who flags rest)

/-! ### Commands -/

/-- A command as it was asked for. -/
structure Request where
  verb : Verb
  grammar : Option String := none
  factory : Option String := none
  root : Option String := none
  charset : String := "utf-8"
  debug : Bool := false
  text : Option String := none
  input : Option String := none

/-- Sets what a flag asks for. Text and file exclude each other. -/
def Request.set (r : Request) (f : Flag) (value : String) : Except Misuse Request :=
  match f with
  | .help => .error .help
  | .grammar => .ok { r with grammar := some value }
  | .factory => .ok { r with factory := some value }
  | .root => .ok { r with root := some value }
  | .charset => .ok { r with charset := value }
  | .debug => .ok { r with debug := true }
  | .text => if r.input.isSome then .error (.conflict r.verb .text .input)
    else .ok { r with text := some value }
  | .input => if r.text.isSome then .error (.conflict r.verb .input .text)
    else .ok { r with input := some value }

/-- Flags of one letter that stand in one word, up to the first letter that is no flag: the flags,
and what is left of the word. None of them takes a value. -/
def cluster (who : Option Verb) (flags : List Flag) (f : Flag) :
    List Char → Except Misuse (List Flag × List Char)
  | [] => .ok ([f], [])
  | '=' :: value => .error (.uselessValue who f (String.ofList value))
  | '-' :: tail => .error (.uselessValue who f (String.ofList ('-' :: tail)))
  | c :: tail =>
    match (spelled flags).find? fun (s, _) => s = String.ofList ['-', c] with
    | some (_, g) => (cluster who flags g tail).map fun (fs, left) => (f :: fs, left)
    | none => .ok ([f], c :: tail)

/-- What is left of a cluster, as a word of its own. -/
def remnant : List Char → List String
  | [] => []
  | cs => [String.ofList ('-' :: cs)]

/-- Reads the words after the verb; words that mean nothing are kept aside. -/
def readPieces (r : Request) : List Piece → Except Misuse (Request × List String)
  | [] => .ok (r, [])
  | .plain w :: rest => (readPieces r rest).map fun (r, ws) => (r, w :: ws)
  | .endOfFlags :: rest => (readPieces r rest).map fun (r, ws) => (r, "--" :: ws)
  | .unknownFlag w :: rest => (readPieces r rest).map fun (r, ws) => (r, w :: ws)
  | .flag f (some value) :: rest =>
    if f.takesValue then do readPieces (← r.set f value) rest
    else .error (.uselessValue r.verb f value)
  | .flag f none :: rest =>
    if f.takesValue then
      match rest with
      | .plain value :: rest => do readPieces (← r.set f value) rest
      | _ => .error (.noValue r.verb f)
    else do readPieces (← r.set f "") rest
  | .glued f tail :: rest => do
    let (fs, left) ← cluster r.verb r.verb.flags f tail
    let r ← fs.foldlM (fun r f => r.set f "") r
    let (r, ws) ← readPieces r rest
    return (r, remnant left ++ ws)

/-- Reads a verb's words. A parse needs a text or a file. -/
def readVerb (v : Verb) (words : List String) : Except Misuse (Request × List String) := do
  let ps ← pieces (some v) v.flags words
  let (r, aside) ← readPieces { verb := v } ps
  if v = .parse && r.text.isNone && r.input.isNone then throw .noSource
  return (r, aside)

/-- Finds the verb: the first plain word. Flags before it mean nothing. -/
def readWords : List String → Except Misuse (Request × List String)
  | [] => .error .noVerb
  | "--" :: [] => .error .noVerb
  | "--" :: _ => .error (.unknownVerb "--")
  | w :: rest => do
    match ← classify none [.help] w with
    | .flag _ none => .error .help
    | .flag f (some value) => .error (.uselessValue none f value)
    | .glued f tail => do
      let _ ← cluster none [.help] f tail
      .error .help
    | .unknownFlag w =>
      let (r, aside) ← readWords rest
      return (r, w :: aside)
    | _ =>
      match w with
      | "rules" => readVerb .rules rest
      | "parse" => readVerb .parse rest
      | _ => .error (.unknownVerb w)

/-- Reads a whole command. -/
def Request.ofWords (words : List String) : Except Misuse Request := do
  let (r, aside) ← readWords words
  if aside.isEmpty then return r else throw (.unrecognized aside)

end PegScribe.Command
