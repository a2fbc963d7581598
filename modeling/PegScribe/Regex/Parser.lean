import PegScribe.Regex.Basic

/-!
The notation of regular expressions: sets, classes, anchors, groups, alternatives, repetitions.

A reader takes the characters that are left and returns those that it leaves; a fault carries the
number of characters before it.
-/
namespace PegScribe.Regex

/-- What is wrong with a pattern. -/
inductive Flaw where
  | openSet
  | openGroup
  | strayClose
  | nothingToRepeat
  | repeatedTwice
  | leastAboveMost
  | backwardRange
  | escapeAtEnd
  | unknownEscape (c : Char)
  | unknownGroup

/-- A flaw and the number of characters before it. -/
structure Error where
  flaw : Flaw
  position : Nat

/-- The wording of a flaw. -/
def Flaw.message : Flaw → String
  | .openSet => "unterminated character set"
  | .openGroup => "missing )"
  | .strayClose => "unbalanced parenthesis"
  | .nothingToRepeat => "nothing to repeat"
  | .repeatedTwice => "multiple repeat"
  | .leastAboveMost => "min repeat greater than max repeat"
  | .backwardRange => "bad character range"
  | .escapeAtEnd => "bad escape (end of pattern)"
  | .unknownEscape c => "bad escape \\" ++ c.toString
  | .unknownGroup => "unknown extension"

/-- The wording of an error. -/
def Error.message (e : Error) : String :=
  e.flaw.message ++ " at position " ++ toString e.position

/-- A flaw found when the characters `left` of `total` are still to be read. -/
def flawAt {α : Type} (flaw : Flaw) (total : Nat) (left : List Char) : Except Error α :=
  .error ⟨flaw, total - left.length⟩

/-! ### Escapes -/

/-- Classes named by a letter. -/
def classLetter? : Char → Option CharTest
  | 'd' => some .decimal
  | 'D' => some (.outside .decimal)
  | 's' => some .space
  | 'S' => some (.outside .space)
  | 'w' => some .word
  | 'W' => some (.outside .word)
  | _ => none

/-- Anchors named by a letter. -/
def anchorLetter? : Char → Option Anchor
  | 'A' => some .textStart
  | 'Z' => some .textEnd
  | 'b' => some .wordEdge
  | 'B' => some .insideWord
  | _ => none

/-- Characters named by a letter. -/
def charLetter? : Char → Option Char
  | 'a' => some '\x07'
  | 'b' => some '\x08'
  | 't' => some '\t'
  | 'n' => some '\n'
  | 'v' => some '\x0b'
  | 'f' => some '\x0c'
  | 'r' => some '\r'
  | _ => none

/-- A character or a class. -/
inductive Item where
  | char (c : Char)
  | family (t : CharTest)

/-- What an item tests. -/
def Item.test : Item → CharTest
  | .char c => .one c
  | .family t => t

/-- The item that an escaped character stands for. -/
def escapedItem (total : Nat) (c : Char) (left : List Char) : Except Error Item :=
  match classLetter? c with
  | some t => .ok (.family t)
  | none =>
    match charLetter? c with
    | some d => .ok (.char d)
    | none => if c.isAlphanum then flawAt (.unknownEscape c) total left else .ok (.char c)

/-- An escape outside a set. -/
def escape (total : Nat) : List Char → Except Error (Regex × List Char)
  | [] => flawAt .escapeAtEnd total []
  | c :: left =>
    match anchorLetter? c with
    | some a => .ok (.anchor a, left)
    | none => (escapedItem total c left).map fun i => (.char i.test, left)

/-! ### Sets -/

/-- One item of a set; any character may stand for itself. -/
def setItem (total : Nat) : List Char → Except Error (Item × List Char)
  | [] => flawAt .openSet total []
  | ['\\'] => flawAt .escapeAtEnd total []
  | '\\' :: c :: left => (escapedItem total c left).map fun i => (i, left)
  | c :: left => .ok (.char c, left)

/-- An item, or a range between two characters. A dash before the closing bracket and a dash beside
a class stand for themselves. -/
def setMember (total : Nat) (cs : List Char) : Except Error (CharTest × List Char) :=
  match setItem total cs with
  | .error e => .error e
  | .ok (.char lo, '-' :: ']' :: left) => .ok (.either (.one lo) (.one '-'), ']' :: left)
  | .ok (.char lo, '-' :: left) =>
    match setItem total left with
    | .error e => .error e
    | .ok (.char hi, left) =>
      if hi < lo then flawAt .backwardRange total left else .ok (.range lo hi, left)
    | .ok (.family t, left) => .ok (.either (.one lo) (.either (.one '-') t), left)
  | .ok (item, left) => .ok (item.test, left)

/-- Members up to the closing bracket; each takes a character at least, so `fuel` never runs out
when it exceeds the characters left. -/
def setMembers (total : Nat) : (fuel : Nat) → CharTest → List Char →
    Except Error (CharTest × List Char)
  | 0, _, left => flawAt .openSet total left
  | fuel + 1, found, left =>
    match left with
    | ']' :: left => .ok (found, left)
    | left =>
      match setMember total left with
      | .error e => .error e
      | .ok (t, left) => setMembers total fuel (.either found t) left

/-- A set after its opening bracket; its first member may be a closing bracket. -/
def set (total : Nat) (cs : List Char) : Except Error (Regex × List Char) :=
  let (negated, cs) := match cs with
    | '^' :: left => (true, left)
    | left => (false, left)
  match setMember total cs with
  | .error e => .error e
  | .ok (first, left) =>
    (setMembers total (left.length + 1) first left).map fun (t, left) =>
      (.char (if negated then .outside t else t), left)

/-! ### Repetitions -/

/-- Decimal digits at the front, and what follows them. -/
def digits (cs : List Char) : List Char × List Char := cs.span Char.isDigit

/-- The number that a row of digits denotes. -/
def number (cs : List Char) : Nat := cs.foldl (fun n c => 10 * n + (c.toNat - '0'.toNat)) 0

/-- Bounds on a count of rounds. -/
structure Bounds where
  least : Nat
  most : Option Nat
  deriving DecidableEq

/-- Bounds between braces, after the opening one; anything else leaves the brace to stand for
itself. -/
def bracedBounds? (cs : List Char) : Option (Bounds × List Char) :=
  let (low, left) := digits cs
  match left with
  | ',' :: left =>
    let (high, left) := digits left
    match left with
    | '}' :: left =>
      some (⟨number low, if high.isEmpty then none else some (number high)⟩, left)
    | _ => none
  | '}' :: left => if low.isEmpty then none else some (⟨number low, some (number low)⟩, left)
  | _ => none

/-- Bounds that stand at the front, and what follows them. -/
def bounds? : List Char → Option (Bounds × List Char)
  | '?' :: left => some (⟨0, some 1⟩, left)
  | '*' :: left => some (⟨0, none⟩, left)
  | '+' :: left => some (⟨1, none⟩, left)
  | '{' :: left => bracedBounds? left
  | _ => none

/-- The mark after the bounds. -/
def appetite : List Char → Appetite × List Char
  | '?' :: left => (.sparing, left)
  | '+' :: left => (.possessive, left)
  | left => (.greedy, left)

/-- Repeats an expression. Bounds of exactly one, and bounds on an empty expression, do nothing. -/
def repeated (r : Regex) (b : Bounds) (a : Appetite) : Regex :=
  if r.isEmpty || b = ⟨1, some 1⟩ then r else .rep a b.least b.most r

/-! ### Sequences, groups, alternatives -/

/-- The last thing read in a sequence. -/
inductive Latest where
  | nothing
  | atom (r : Regex)
  /-- Something that has its repetition already. -/
  | closed (r : Regex)

/-- Puts the last thing behind what came before it. -/
def Latest.close (before : Regex) : Latest → Regex
  | .nothing => before
  | .atom r | .closed r => .cat before r

/-- What a group does with its content. -/
inductive GroupKind where
  | plain | once | ifAhead | unlessAhead

/-- The mark after an opening parenthesis. -/
def groupKind? : List Char → Option (GroupKind × List Char)
  | '?' :: ':' :: left => some (.plain, left)
  | '?' :: '>' :: left => some (.once, left)
  | '?' :: '=' :: left => some (.ifAhead, left)
  | '?' :: '!' :: left => some (.unlessAhead, left)
  | '?' :: _ => none
  | left => some (.plain, left)

/-- A group around an expression. -/
def GroupKind.wrap : GroupKind → Regex → Regex
  | .plain, r => r
  | .once, r => .atomic r
  | .ifAhead, r => .ahead true r
  | .unlessAhead, r => .ahead false r

/-- One character outside sets and groups. -/
def plainChar : Char → Regex
  | '.' => .char .anyInLine
  | '^' => .anchor .textStart
  | '$' => .anchor .lastLineEnd
  | c => .char (.one c)

mutual

/-- Alternatives up to the end or a closing parenthesis. -/
def alternatives (total : Nat) : (fuel : Nat) → List Char → Except Error (Regex × List Char)
  | 0, left => flawAt .openGroup total left
  | fuel + 1, left =>
    match sequence total fuel .empty .nothing left with
    | .error e => .error e
    | .ok (r, '|' :: left) =>
      (alternatives total fuel left).map fun (s, left) => (.alt r s, left)
    | .ok (r, left) => .ok (r, left)

/-- A sequence up to the end, a bar or a closing parenthesis. Every step takes a character, so a
budget of twice the characters left never runs out. -/
def sequence (total : Nat) : (fuel : Nat) → (before : Regex) → (latest : Latest) → List Char →
    Except Error (Regex × List Char)
  | 0, _, _, left => flawAt .openGroup total left
  | fuel + 1, before, latest, left =>
    match bounds? left with
    | some (b, after) =>
      if b.most.any (· < b.least) then flawAt .leastAboveMost total left.tail
      else match latest with
        | .nothing => flawAt .nothingToRepeat total left
        | .closed _ => flawAt .repeatedTwice total left
        | .atom r =>
          let (a, after) := appetite after
          sequence total fuel before (.closed (repeated r b a)) after
    | none =>
      let before' := latest.close before
      match left with
      | [] | ')' :: _ | '|' :: _ => .ok (before', left)
      | '\\' :: left =>
        match escape total left with
        | .error e => .error e
        | .ok (r, left) => sequence total fuel before' (.atom r) left
      | '[' :: left =>
        match set total left with
        | .error e => .error e
        | .ok (r, left) => sequence total fuel before' (.atom r) left
      | '(' :: left =>
        match groupKind? left with
        | none => flawAt .unknownGroup total left.tail
        | some (kind, left) =>
          match alternatives total fuel left with
          | .error e => .error e
          | .ok (r, ')' :: left) => sequence total fuel before' (.atom (kind.wrap r)) left
          | .ok (_, left) => flawAt .openGroup total left
      | c :: left => sequence total fuel before' (.atom (plainChar c)) left

end

/-- Reads a pattern. -/
def parse (source : String) : Except Error Regex :=
  let cs := source.toList
  match alternatives cs.length (2 * cs.length + 2) cs with
  | .error e => .error e
  | .ok (r, []) => .ok r
  | .ok (_, left) => flawAt .strayClose cs.length left

end PegScribe.Regex
