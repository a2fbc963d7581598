import PegScribe.Text.Quoted

/-!
Numerals: whole numbers written in decimal.

A numeral may stand between blanks and carry a sign; a single underscore may stand between two
digits; digits of any script count.
-/
namespace PegScribe.Text.Numeral

/-- The most digits a numeral may have. -/
def maxDigits : Nat := 4300

/-- Why a text is no numeral. -/
inductive Error where
  | malformed (text : String)
  | tooLong (digits : Nat)

/-- The wording of a numeral error; of a long text only the beginning is quoted. -/
def Error.message : Error → String
  | .malformed text =>
    "invalid literal for int() with base 10: " ++ clip 200 (quote text)
  | .tooLong digits =>
    "Exceeds the limit (" ++ toString maxDigits ++
      " digits) for integer string conversion: value has " ++ toString digits ++
      " digits; use sys.set_int_max_str_digits() to increase the limit"

/-- Digits and underscores at the front of a text, and what follows them. -/
def span (cs : List Char) : List Char × List Char :=
  cs.span fun c => isDecimal c || c = '_'

/-- Underscores stand between digits only, and singly. -/
def wellSpaced : List Char → Bool
  | [] => false
  | [c] => isDecimal c
  | c :: d :: rest => isDecimal c && (if d = '_' then wellSpaced rest else wellSpaced (d :: rest))

/-- The number that a row of digits denotes; underscores do not count. -/
def value (cs : List Char) : Nat :=
  (cs.filterMap digit?).foldl (fun n d => 10 * n + d) 0

/-- Takes a sign off the front. -/
def sign : List Char → Bool × List Char
  | '-' :: rest => (true, rest)
  | '+' :: rest => (false, rest)
  | cs => (false, cs)

/-- Reads a numeral. -/
def parse (text : String) : Except Error Int :=
  let (negative, body) := sign (text.toList.dropWhile isSpace)
  let (digits, rest) := span body
  let count := (digits.filter isDecimal).length
  if !wellSpaced digits then .error (.malformed text)
  else if maxDigits < count then .error (.tooLong count)
  else if !rest.all isSpace then .error (.malformed text)
  else .ok (if negative then -(value digits : Int) else value digits)

end PegScribe.Text.Numeral
