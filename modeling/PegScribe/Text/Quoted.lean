import PegScribe.Text.Classes

/-!
Quoted text: a text between quotes on one line, with every character that would not show itself
written as an escape.
-/
namespace PegScribe.Text

/-- The last `width` hexadecimal digits of `n`, in small letters. -/
def hex (width n : Nat) : List Char :=
  match width with
  | 0 => []
  | w + 1 => hex w (n / 16) ++ [Nat.digitChar (n % 16)]

/-- The escape of a character by its number: two, four or eight digits. -/
def numbered (c : Char) : List Char :=
  let n := c.toNat
  if n < 0x100 then '\\' :: 'x' :: hex 2 n
  else if n < 0x10000 then '\\' :: 'u' :: hex 4 n
  else '\\' :: 'U' :: hex 8 n

/-- One character between quotes `q`. -/
def quoteChar (q c : Char) : List Char :=
  if c = q || c = '\\' then ['\\', c]
  else if c = '\n' then ['\\', 'n']
  else if c = '\r' then ['\\', 'r']
  else if c = '\t' then ['\\', 't']
  else if isPrintable c then [c]
  else numbered c

/-- Single quotes, unless the text has a single quote and no double one. -/
def quoteMark (cs : List Char) : Char :=
  if cs.contains '\'' && !cs.contains '"' then '"' else '\''

/-- The text between quotes. -/
def quote (s : String) : String :=
  let q := quoteMark s.toList
  String.ofList (q :: s.toList.flatMap (quoteChar q) ++ [q])

/-- The first `n` characters of a text. -/
def clip (n : Nat) (s : String) : String := String.ofList (s.toList.take n)

/-- The parts with `sep` between them. -/
def join (sep : String) (parts : List String) : String := sep.intercalate parts

/-- Names as a list in prose: `'a'`, `'a' and 'b'`, `'a', 'b', and 'c'`. -/
def enumerate (names : List String) : String :=
  match names.map quote with
  | [] => ""
  | [a] => a
  | [a, b] => a ++ " and " ++ b
  | many => join ", " many.dropLast ++ ", and " ++ many.getLast?.getD ""

/-- The texts in rising order of their code points, each once. -/
def sortedDistinct (texts : List String) : List String :=
  (texts.eraseDups).mergeSort fun a b => a ≤ b

end PegScribe.Text
