import PegScribe.Expr
import PegScribe.Text.Numeral
import PegScribe.Text.Charset

/-!
Faults: everything that can go wrong between a grammar and a tree, by cause.

`Fault.kind` names the family of a fault and `Fault.message` words it.
-/
namespace PegScribe

/-- Why arguments do not fit the parameters of a factory method while a rule is recorded. -/
inductive Misfit where
  | lacks (param : String)
  | surplus

/-- The wording of a misfit. -/
def Misfit.message : Misfit → String
  | .lacks p => "missing a required argument: " ++ Text.quote p
  | .surplus => "too many positional arguments"

/-- What is wrong with a grammar. -/
inductive GrammarFault where
  | alreadyBuilt
  | ruleRedefined (key : RuleKey)
  /-- The library for patterns says what is wrong. -/
  | badPattern (source words : String)
  | noRoot
  | unknownMethod (callee : Callee)
  | undefinedReference (key : RuleKey)
  | undefinedRule (key : RuleKey)
  | noRuleDeclared (method : Method)
  | leftOver (count : Nat) (stack : String)
  | stillBuilding (method : Method)
  | nonterminalOutside
  | nonterminalTwice (method : Method)
  | keyTaken (key : RuleKey)
  | noPendingNonterminal
  | unbalanced (method : Method) (count : Nat) (stack : String)
  | stackEmpty (within : Option Method)
  | stackShort (wanted : Int) (found : Nat) (within : Option Method)
  | recordingFinished
  | arity (method : Method) (why : Misfit)
  | keywords (method : Method)
  | emptyGrammar (grammar : String)
  | noSuchRule (grammar name : String)
  | notARule (grammar shown : String)

namespace GrammarFault

/-- Where a fault happened, if a rule was being built. -/
def within : Option Method → String
  | some m => " in rule " ++ Text.quote m.name
  | none => ""

/-- The wording of a grammar fault. -/
def message : GrammarFault → String
  | .alreadyBuilt => "grammar is already built"
  | .ruleRedefined k =>
    "The rule " ++ k.label ++ " has already been defined somewhere in the grammar."
  | .badPattern source words => "invalid pattern " ++ Text.quote source ++ ": " ++ words
  | .noRoot => "no root rule set"
  | .unknownMethod c => "Unknown rule for method " ++ c.quoted
  | .undefinedReference k => "The rule " ++ k.label ++ " is referenced but never defined"
  | .undefinedRule k => "PEG: undefined rule " ++ k.label
  | .noRuleDeclared m =>
    "rule method " ++ Text.quote m.name ++ " returned without calling nonterminal().is_()"
  | .leftOver n stack => "Unexpected stack size: " ++ toString n ++ ", got: " ++ stack
  | .stillBuilding m => "rule " ++ Text.quote m.name ++ " is still being built"
  | .nonterminalOutside => "nonterminal() called outside of a rule method"
  | .nonterminalTwice m => "nonterminal() called twice in rule " ++ Text.quote m.name
  | .keyTaken k => "rule key " ++ k.label ++ " is already bound to another method"
  | .noPendingNonterminal => "is_() called without a pending nonterminal()"
  | .unbalanced m n stack =>
    "rule " ++ Text.quote m.name ++ ": unexpected stack size: " ++ toString n ++ ", got: " ++ stack
  | .stackEmpty m => "expression stack is empty" ++ within m
  | .stackShort wanted found m =>
    "expected " ++ toString wanted ++ " expressions on the stack, found " ++ toString found ++
      within m
  | .recordingFinished => "grammar recording is finished"
  | .arity m why =>
    "arity mismatch calling factory method " ++ Text.quote m.name ++ ": " ++ why.message
  | .keywords m =>
    "factory method " ++ Text.quote m.name ++
      " called with keyword arguments; children are positional"
  | .emptyGrammar g => "grammar " ++ g ++ " declares no rules"
  | .noSuchRule g name => "grammar " ++ g ++ " has no rule " ++ Text.quote name
  | .notARule g shown => shown ++ " is not a rule of " ++ g

end GrammarFault

/-- A state that was taken to be impossible. -/
inductive Breach where
  | unknownNode (shown : String)
  | unknownRepetition (mark : String)
  | unresolvedCall (shown : String)
  | optionalChildren (key : RuleKey) (count : Nat)
  | ruleValues (key : RuleKey) (count : Nat)
  | unrecordedRule (key : RuleKey)

/-- The wording of a breach. -/
def Breach.message : Breach → String
  | .unknownNode shown => "unknown node: " ++ shown
  | .unknownRepetition mark => "unknown repeat kind " ++ Text.quote mark
  | .unresolvedCall shown => "unresolved rule invocation " ++ shown
  | .optionalChildren k n =>
    "optional rule " ++ k.label ++ " matched " ++ toString n ++ " children"
  | .ruleValues k n =>
    "rule " ++ k.label ++ " lowered to " ++ toString n ++ " values, expected exactly one"
  | .unrecordedRule k => "no method recorded for rule " ++ k.label

/-- A call that its target cannot take. -/
inductive CallFault where
  | noArguments (object : String)
  /-- Required parameters without an argument. -/
  | lacking (function : String) (sort : String) (params : List String)
  /-- More arguments than the function has places for. -/
  | tooMany (function : String) (least most given : Nat)
  | notCallable (type : String)
  | textExpected (type : String)
  | patternExpected
  | noSum (left right : String)

/-- A count with its noun. -/
def CallFault.counted (n : Nat) (noun : String) : String :=
  toString n ++ " " ++ noun ++ (if n = 1 then "" else "s")

/-- The wording of a call fault. -/
def CallFault.message : CallFault → String
  | .noArguments object => object ++ "() takes no arguments"
  | .lacking f sort params =>
    f ++ "() missing " ++ counted params.length ("required " ++ sort ++ " argument") ++ ": " ++
      Text.enumerate params
  | .tooMany f least most given =>
    let places :=
      if least = most then counted most "positional argument"
      else "from " ++ toString least ++ " to " ++ toString most ++ " positional arguments"
    f ++ "() takes " ++ places ++ " but " ++ toString given ++
      (if given = 1 then " was" else " were") ++ " given"
  | .notCallable type => Text.quote type ++ " object is not callable"
  | .textExpected type =>
    "startswith first arg must be str or a tuple of str, not " ++ type
  | .patternExpected => "first argument must be a string or compiled pattern"
  | .noSum left right =>
    "unsupported operand type(s) for +: " ++ Text.quote left ++ " and " ++ Text.quote right

/-- Everything that can go wrong. -/
inductive Fault where
  | grammar (f : GrammarFault)
  | breach (b : Breach)
  | call (f : CallFault)
  /-- A pattern that was never checked turned out malformed. -/
  | regex (words : String)
  /-- Nesting went past the limit. -/
  | tooDeep
  | noAttribute (object field : String)
  | stringIndex
  | tupleIndex
  | numeral (e : Text.Numeral.Error)
  | decode (e : Text.DecodeError)
  | unknownCharset (name : String)
  | abstractMethod
  /-- Raised by an author's own code: the kind and the words. -/
  | raised (kind message : String)
  /-- Recording a method's rule failed. -/
  | bootstrap (method : Method) (cause : Fault)
  /-- The text does not match: the line, and the report. -/
  | unmatched (line : Nat) (report : String)
  /-- Only the beginning of the text matches. -/
  | incomplete (consumed : Int) (total : Nat)
  | nestingTooDeep (limit : Nat)
  | badTarget (target : String)
  | noSuchMember (home member : String)
  | noSuchModule (name : String)
  | noModuleName
  /-- A path with the character in it that ends paths. -/
  | nullByte

namespace Fault

/-- The family of a fault. -/
def kind : Fault → String
  | .grammar _ => "GrammarError"
  | .breach _ => "AssertionError"
  | .call _ => "TypeError"
  | .regex _ => "error"
  | .tooDeep => "RecursionError"
  | .noAttribute .. => "AttributeError"
  | .stringIndex | .tupleIndex => "IndexError"
  | .numeral _ | .badTarget _ | .noSuchMember .. | .noModuleName | .nullByte => "ValueError"
  | .decode _ => "UnicodeDecodeError"
  | .unknownCharset _ => "LookupError"
  | .abstractMethod => "NotImplementedError"
  | .raised kind _ => kind
  | .bootstrap .. => "BootstrapFailed"
  | .unmatched .. => "ParseFailed"
  | .incomplete .. => "IncompleteParse"
  | .nestingTooDeep _ => "NestingTooDeep"
  | .noSuchModule _ => "ModuleNotFoundError"

/-- The wording of a fault. -/
def message : Fault → String
  | .grammar f => f.message
  | .breach b => b.message
  | .call f => f.message
  | .regex words => words
  | .tooDeep => "maximum recursion depth exceeded"
  | .noAttribute object field =>
    Text.quote object ++ " object has no attribute " ++ Text.quote field
  | .stringIndex => "string index out of range"
  | .tupleIndex => "tuple index out of range"
  | .numeral e => e.message
  | .decode e => e.message
  | .unknownCharset name => "unknown encoding: " ++ name
  | .abstractMethod => ""
  | .raised kind message => if kind = "KeyError" then Text.quote message else message
  | .bootstrap m cause => "Failed to record rule " ++ Text.quote m.name ++ ": " ++ cause.message
  | .unmatched _ report => report
  | .incomplete consumed total =>
    "Failed to parse the input entirely: " ++ toString consumed ++
      " characters parsed, total input length = " ++ toString total
  | .nestingTooDeep limit =>
    "Input nests too deeply to parse within the recursion limit (" ++ toString limit ++ ")"
  | .badTarget target => "expected 'module:Name', got " ++ Text.quote target
  | .noSuchMember home member =>
    "module " ++ Text.quote home ++ " has no attribute " ++ Text.quote member
  | .noSuchModule name => "No module named " ++ Text.quote name
  | .noModuleName => "Empty module name"
  | .nullByte => "embedded null byte"

/-- A part that has no notation, met while something was written down. -/
def ofUnshown (part : String) : Fault := .breach (.unknownNode part)

end Fault
end PegScribe
