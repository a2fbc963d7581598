/-!
Line ends: a carriage return, a line feed or the two together end a line.
-/
namespace PegScribe.Text

/-- The text layer's own translation as it reads: a carriage return is handed on as a line feed at once, and
a line feed right behind it belongs to it. -/
def translateFrom (afterReturn : Bool) : List Char → List Char
  | [] => []
  | c :: rest =>
    if c = '\r' then '\n' :: translateFrom true rest
    else if afterReturn && c = '\n' then translateFrom false rest
    else c :: translateFrom false rest

/-- What the text layer reads from a content. -/
def translate (cs : List Char) : List Char := translateFrom false cs

/-- A carriage return and a line feed together as a line feed. -/
def joinPairs : List Char → List Char
  | [] => []
  | '\r' :: '\n' :: rest => '\n' :: joinPairs rest
  | c :: rest => c :: joinPairs rest

/-- A carriage return as a line feed. -/
def feed (c : Char) : Char := if c = '\r' then '\n' else c

/-- Every line end as a single line feed: first the pairs, then the carriage returns left over. -/
def unifyNewlines (cs : List Char) : List Char := (joinPairs cs).map feed

end PegScribe.Text
