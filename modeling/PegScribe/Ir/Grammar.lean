import PegScribe.Ir.Syntax
import PegScribe.Parser
import PegScribe.Regex.Library

/-!
The grammar of a small assembly language: allocations, loads and stores, one or more, with any white
space between lexemes.
-/
namespace PegScribe.Ir

/-- A rule whose body is one term. -/
def rule (name : String) (body : Term) : String × Member Script :=
  (name, .method [.rule none [body]])

/-- A literal lexeme. -/
def lit (s : String) : Term := .token (.value (.text s))

/-- A lexeme that matches a pattern. -/
def pat (s : String) : Term := .pattern (.value (.text s))

/-- A call of another rule. -/
def ref (name : String) : Term := .call name []

/-- The grammar class. -/
def grammar : GrammarClass :=
  [{ name := "LlvmIrGrammar", bases := ["GrammarBase"],
     members := ⟨[
      rule "instructions" (.wrap .oneOrMore [.firstOf
        [ref "alloca_instruction", ref "load_instruction", ref "store_instruction"]]),
      rule "alloca_instruction" (.action "alloca_instruction"
        [ref "identifier", lit "=", lit "alloca", ref "llvm_type", lit ",", lit "align",
          pat "[0-9]+"]),
      rule "load_instruction" (.action "load_instruction"
        [ref "identifier", lit "=", lit "load", ref "llvm_type", ref "identifier", lit ",",
          lit "align", pat "[0-9]+"]),
      rule "store_instruction" (.action "store_instruction"
        [lit "store", ref "llvm_type", ref "value", lit ",", ref "llvm_type", ref "identifier",
          lit ",", lit "align", pat "[0-9]+"]),
      rule "value" (.firstOf [ref "identifier", ref "integer_literal"]),
      rule "identifier" (.action "identifier" [pat "[%@][-a-zA-Z$._0-9]+"]),
      rule "integer_literal" (.action "integer_literal" [pat "-?[0-9]+"]),
      rule "llvm_type" (.action "type_syntax"
        [pat "i[0-9]+", .wrap .optional [lit "*"]])]⟩ },
    grammarBase, ClassDecl.top]

/-- What a parser of this language is made of. -/
def parts : Parser.Parts :=
  { grammar := grammar, factory := treeFactory, self := { className := treeFactory.name } }

/-- The parser of this language. -/
def parser : Except Fault Parser :=
  (Parser.build { parts with root := .method ⟨"LlvmIrGrammar.instructions"⟩ }).1

end PegScribe.Ir
