import PegScribe.Text.Quoted

/-!
Sources: a text, where it came from, and the lines and columns of its offsets.

Offsets count characters from zero, lines and columns from one. An offset before the start counts
as lying before the first line and takes the last line's start; slices count negative offsets from
the end.
-/
namespace PegScribe

/-- A lexeme and its place. -/
structure Token where
  text : String
  start : Int
  stop : Int
  line : Int
  col : Int
  deriving DecidableEq

/-- A text and its address. -/
structure Source where
  chars : Array Char
  uri : Option String := none
  deriving DecidableEq

namespace Source

/-- A source without an address. -/
def ofString (text : String) : Source := ⟨text.toList.toArray, none⟩

/-- The whole text. -/
def text (s : Source) : String := String.ofList s.chars.toList

/-- The number of characters. -/
def length (s : Source) : Nat := s.chars.size

/-- The offsets that follow a line feed, the first character standing at `at_`. -/
def startsAfter : List Char → (at_ : Nat) → List Nat
  | [], _ => []
  | c :: rest, at_ => if c = '\n' then (at_ + 1) :: startsAfter rest (at_ + 1)
    else startsAfter rest (at_ + 1)

/-- The offsets where lines start. -/
def lineStarts (s : Source) : List Nat := 0 :: startsAfter s.chars.toList 0

/-- The number of lines that start at or before the offset. -/
def lineOf (s : Source) (offset : Int) : Nat :=
  s.lineStarts.countP fun (n : Nat) => (n : Int) ≤ offset

/-- The start of the line that holds the offset. -/
def lineStart (s : Source) (offset : Int) : Nat :=
  match s.lineOf offset with
  | 0 => s.lineStarts.getLastD 0
  | n + 1 => s.lineStarts.getD n 0

/-- The line and the column of an offset. -/
def position (s : Source) (offset : Int) : Nat × Int :=
  (s.lineOf offset, offset - s.lineStart offset + 1)

/-- The first line feed at or after an offset, or the end of the text. -/
def lineEnd (s : Source) (start : Nat) : Nat :=
  start + ((s.chars.toList.drop start).takeWhile (· != '\n')).length

/-- The ends of the line that holds the offset. -/
def lineBounds (s : Source) (offset : Int) : Nat × Nat :=
  let start := s.lineStart offset
  (start, s.lineEnd start)

/-- An end of a slice as an offset within the text. -/
def clamp (s : Source) (i : Int) : Nat :=
  if i < 0 then (i + s.length).toNat else min i.toNat s.length

/-- The text from one offset up to another. -/
def slice (s : Source) (start stop : Int) : String :=
  String.ofList (s.chars.extract (s.clamp start) (s.clamp stop)).toList

/-- The line that holds the offset, and below it a caret under the offset. -/
def snippet (s : Source) (offset : Int) : String :=
  let (start, stop) := s.lineBounds offset
  s.slice start stop ++ "\n" ++
    String.ofList (List.replicate (offset - start).toNat ' ') ++ "^"

/-- Cuts a lexeme out. -/
def token (s : Source) (start stop : Int) : Token :=
  let (line, col) := s.position start
  ⟨s.slice start stop, start, stop, line, col⟩

/-- The character at an offset; negative offsets count from the end. -/
def charAt? (s : Source) (offset : Int) : Option Char :=
  let i := if offset < 0 then offset + s.length else offset
  if i < 0 then none else s.chars[i.toNat]?

/-- What stands at an offset, in words; nothing for an offset before the text. -/
def found? (s : Source) (offset : Int) : Option String :=
  if s.length ≤ offset then some "EOF"
  else (s.charAt? offset).map fun c => Text.quote c.toString

/-- The report of a failure at an offset where other terminals were expected. -/
def report? (s : Source) (offset : Int) (expected : List String) : Option String :=
  (s.found? offset).map fun found =>
    let (line, col) := s.position offset
    let here := "line " ++ toString line ++ " column " ++ toString col
    let place := match s.uri with
      | some uri => if uri.isEmpty then here else uri ++ ": " ++ here
      | none => here
    "Parse error at " ++ place ++ ": unexpected " ++ found ++ ", expected one of \x7b" ++
      Text.join ", " (Text.sortedDistinct expected) ++ "\x7d\n" ++ s.snippet offset

end Source
end PegScribe
