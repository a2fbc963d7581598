import PegScribe.Parser

/-!
A sample grammar: lists of words inside parentheses, nested to any depth.
-/
namespace PegScribe.Nested

/-- The grammar: a list holds lists and words. -/
def grammar : GrammarClass :=
  [{ name := "NestGrammar", bases := ["GrammarBase"],
     members := ⟨[
      ("nest", .method [.rule none [.action "nest"
        [.token (.value (.text "(")),
         .wrap .zeroOrMore [.firstOf [.call "nest" [], .call "word" []]],
         .token (.value (.text ")"))]]]),
      ("word", .method [.rule none [.action "word"
        [.pattern (.value (.text "[a-z]+"))]]])]⟩ },
    grammarBase, ClassDecl.top]

/-- The factory: a list becomes its items, and a word its text. -/
def treeFactory : FactoryClass :=
  [{ name := "NestFactory", bases := ["object"],
     members := ⟨[
      ("nest", .method ⟨.required ["open_", "children", "close"], Behaviour.nth 1⟩),
      ("word", .method ⟨.required ["token"], Behaviour.text⟩)]⟩ },
    ClassDecl.top]

end PegScribe.Nested
