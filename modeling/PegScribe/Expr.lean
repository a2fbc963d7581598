import PegScribe.Text.Quoted

/-!
Parsing expressions: what the body of a rule is made of, and how it is written down.

Rules are known by keys. Two keys are the same rule only if they are the same key, however they are
shown. A reference names a key, or a grammar method whose key is looked up later.
-/
namespace PegScribe

/-- A grammar method, known by its qualified name. -/
structure Method where
  qualname : String
  deriving DecidableEq

/-- The part of a method's name after the last dot. -/
def Method.name (m : Method) : String :=
  String.ofList (m.qualname.toList.reverse.takeWhile (· != '.')).reverse

/-- What tells keys apart. -/
inductive KeyId where
  /-- A key made by the author of a grammar, by its identity. -/
  | given (identity : String)
  /-- The n-th key made by a recorder. -/
  | minted (serial : Nat)
  /-- A plain value in a key's place, as it is shown. -/
  | plain (shown : String)
  deriving DecidableEq, Hashable

/-- A rule's key. Its label is how it is shown; a key made from something that has no notation
cannot be shown, and keeps that thing instead. -/
structure RuleKey where
  id : KeyId
  label : String
  unshown : Option String := none
  deriving DecidableEq

instance : Hashable RuleKey := ⟨fun k => hash k.id⟩

namespace RuleKey

/-- A key as it is shown; an error holds the part that has no notation. -/
def format (k : RuleKey) : Except String String :=
  match k.unshown with
  | none => .ok k.label
  | some part => .error part

/-- How a key without a name is shown. -/
def anonymous : String := "<rule>"

/-- A key made by the author of a grammar. -/
def given (identity name : String) : RuleKey :=
  { id := .given identity, label := if name.isEmpty then anonymous else name }

/-- A key made by the author of a grammar for a method. -/
def givenFor (identity name : String) (method : Option Method) : RuleKey :=
  match method with
  | some m => { id := .given identity, label := if name.isEmpty then m.name else name }
  | none => given identity name

/-- A plain value in a key's place. -/
def plain (shown : String) : RuleKey := { id := .plain shown, label := shown }

/-- No key at all, where a key is looked for. -/
def missing : RuleKey := plain "None"

end RuleKey

/-- What a late reference names. -/
inductive Callee where
  | method (m : Method)
  /-- A text, or nothing, in a method's place. -/
  | value (text : Option String)
  deriving DecidableEq

/-- A late reference's target as it is shown. -/
def Callee.text : Callee → String
  | .method m => m.qualname
  | .value (some s) => s
  | .value none => "None"

/-- A late reference's target between quotes. -/
def Callee.quoted : Callee → String
  | .value none => "None"
  | c => Text.quote c.text

/-- How often an expression is repeated. -/
inductive Repetition where
  | optional | zeroOrMore | oneOrMore
  /-- A mark that means nothing. -/
  | unknown (mark : String)
  deriving DecidableEq

/-- The mark of a repetition. -/
def Repetition.mark : Repetition → String
  | .optional => "?"
  | .zeroOrMore => "*"
  | .oneOrMore => "+"
  | .unknown s => s

/-- Reads a mark. -/
def Repetition.ofMark : String → Repetition
  | "?" => .optional
  | "*" => .zeroOrMore
  | "+" => .oneOrMore
  | s => .unknown s

/-- Parsing expressions. -/
inductive Expr where
  | literal (text : String)
  | pattern (source : String)
  | call (key : RuleKey)
  /-- A reference whose key is not known yet. -/
  | late (callee : Callee)
  | rep (how : Repetition) (body : Expr)
  | seq (items : List Expr)
  | choice (alts : List Expr)
  /-- A literal whose text is no text: how it is shown, and its type. -/
  | misfit (shown type : String)
  /-- A value that is no expression, as it is shown. -/
  | foreign (shown : String)
  deriving Inhabited

namespace Expr

/-- A reference to a key; without a key it is a late reference to nothing. -/
def ofKey? : Option RuleKey → Expr
  | some k => .call k
  | none => .late (.value none)

/-- Sequences and choices of more than one part. -/
def isCompound : Expr → Bool
  | .seq items => 1 < items.length
  | .choice alts => 1 < alts.length
  | _ => false

/-- Parentheses, where they are needed. -/
def parenthesize (e : Expr) (s : String) : String :=
  if e.isCompound then "(" ++ s ++ ")" else s

mutual

/-- The expression in the notation of parsing expressions; an error holds the part that has none. -/
def format : Expr → Except String String
  | .literal t => .ok (Text.quote t)
  | .pattern s => .ok ("/" ++ s ++ "/")
  | .call k => k.format
  | .late c => .ok ("<" ++ c.text ++ ">")
  | .rep how body => do return parenthesize body (← format body) ++ how.mark
  | .seq [] => .ok "()"
  | .seq items => do return Text.join " " (← formatAtoms items)
  | .choice alts => do return Text.join " / " (← formatAll alts)
  | .misfit shown _ => .ok shown
  | .foreign shown => .error shown

/-- Each expression as an operand. -/
def formatAtoms : List Expr → Except String (List String)
  | [] => .ok []
  | e :: rest => do
    let s ← format e
    return parenthesize e s :: (← formatAtoms rest)

/-- Each expression by itself. -/
def formatAll : List Expr → Except String (List String)
  | [] => .ok []
  | e :: rest => do
    let s ← format e
    return s :: (← formatAll rest)

end

/-- Expressions between brackets. -/
def formatStack (es : List Expr) : Except String String := do
  return "[" ++ Text.join ", " (← formatAll es) ++ "]"

end Expr
end PegScribe
