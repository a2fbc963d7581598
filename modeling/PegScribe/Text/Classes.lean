import PegScribe.Text.Ranges

/-!
Character classes: white space, decimal digits, word characters, printable characters.
-/
namespace PegScribe.Text

/-- White space: the tab to the carriage return, and the blanks and line ends of Unicode. -/
def isSpace (c : Char) : Bool :=
  let n := c.toNat
  (0x9 ≤ n && n ≤ 0xD) || n = 0x20 || n = 0x85 || n = 0xA0 || n = 0x1680 ||
    (0x2000 ≤ n && n ≤ 0x200A) || n = 0x2028 || n = 0x2029 || n = 0x202F || n = 0x205F ||
    n = 0x3000

/-- The value of a decimal digit of any script. -/
def digit? (c : Char) : Option Nat :=
  let n := c.toNat
  if n < 128 then
    if 0x30 ≤ n && n ≤ 0x39 then some (n - 0x30) else none
  else (rangeOf? decimals n).map fun r => (n - r.1) % 10

/-- Decimal digits of any script. -/
def isDecimal (c : Char) : Bool := (digit? c).isSome

/-- Letters and digits of the first 128 code points. -/
def isAsciiAlnum (c : Char) : Bool :=
  ('0' ≤ c && c ≤ '9') || ('a' ≤ c && c ≤ 'z') || ('A' ≤ c && c ≤ 'Z')

/-- Characters that make up words: letters, marks, digits and the underscore's family. -/
def isWord (c : Char) : Bool :=
  if c.toNat < 128 then isAsciiAlnum c || c = '_' else inRanges letters c.toNat

/-- Characters that show themselves: no controls, no unassigned ones, no blanks but the space. -/
def isPrintable (c : Char) : Bool :=
  if c.toNat < 128 then 0x20 ≤ c.toNat && c.toNat < 0x7F else !inRanges hidden c.toNat

end PegScribe.Text
