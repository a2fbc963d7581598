import PegScribe.Ir.Grammar

/-!
The catalog: the grammars and factories that a command can name, as `module:Name`.
-/
namespace PegScribe.Command

/-- What a name in the catalog stands for. -/
inductive Exhibit where
  | grammar (g : GrammarClass)
  | factory (f : FactoryClass)

namespace Exhibit

/-- As a grammar; a factory class is no grammar, which recording it will find out. -/
def asGrammar : Exhibit → GrammarClass
  | .grammar g => g
  | .factory f => f.map fun c => { name := c.name, id := c.id, bases := c.bases }

/-- As a factory with an object of its own; a grammar class cannot be made without its parts. -/
def asFactory : Exhibit → Except Fault FactoryClass
  | .factory f => .ok f
  | .grammar _ =>
    .error (.call (.lacking (grammarBase.name ++ ".__init__") "positional" ["b", "f"]))

end Exhibit

/-- A module of the catalog. -/
structure Section where
  name : String
  exhibits : List (String × Exhibit)

/-- The class for grammars, as a grammar without rules. -/
def bare : GrammarClass := [grammarBase, ClassDecl.top]

/-- The class for syntax nodes, as a factory. -/
def nodeFactory : FactoryClass :=
  [{ name := "SyntaxNode", bases := ["object"],
     members := ⟨[
      ("children", .method ⟨.required [], fun _ _ => .error .abstractMethod⟩),
      ("tokens", .method ⟨.required [], fun _ _ => .error .abstractMethod⟩)]⟩ },
    ClassDecl.top]

/-- The modules that come with the program. -/
def bundled : List Section := [
  ⟨"tracepeg", []⟩,
  ⟨"tracepeg.grammar", [("GrammarBase", .grammar bare)]⟩,
  ⟨"tracepeg.llvm", [
    ("LlvmIrGrammar", .grammar Ir.grammar), ("LlvmIrTreeFactory", .factory Ir.treeFactory),
    ("SyntaxNode", .factory nodeFactory)]⟩,
  ⟨"tracepeg.llvm.grammar", [
    ("LlvmIrGrammar", .grammar Ir.grammar), ("LlvmIrTreeFactory", .factory Ir.treeFactory),
    ("GrammarBase", .grammar bare)]⟩,
  ⟨"tracepeg.llvm.factory", [("LlvmIrTreeFactory", .factory Ir.treeFactory)]⟩,
  ⟨"tracepeg.llvm.syntax", [("SyntaxNode", .factory nodeFactory)]⟩]

/-- The grammar that is used unless another is named. -/
def defaultGrammar : String := "tracepeg.llvm.grammar:LlvmIrGrammar"

/-- The factory that is used unless another is named. -/
def defaultFactory : String := "tracepeg.llvm.factory:LlvmIrTreeFactory"

/-- A text cut at the first `mark`: what stands before it and, if it is there, after it. -/
def cutAt (mark : Char) (cs : List Char) : String × Option String :=
  match cs.span (· != mark) with
  | (before, _ :: after) => (String.ofList before, some (String.ofList after))
  | (before, []) => (String.ofList before, none)

/-- What stands before each `mark` of a text, the shortest first. -/
def beforeMarks (mark : Char) : List Char → List (List Char)
  | [] => []
  | c :: rest =>
    let longer := (beforeMarks mark rest).map (c :: ·)
    if c = mark then [] :: longer else longer

/-- A dotted name and all its dotted beginnings, the shortest first. -/
def beginnings (name : String) : List String :=
  (beforeMarks '.' name.toList).map String.ofList ++ [name]

/-- The module of a name. The first part of the name that is not there is reported. -/
def findSection (catalog : List Section) (name : String) : Except Fault Section :=
  if name.isEmpty then .error .noModuleName
  else match (beginnings name).find? fun b => !catalog.any (·.name = b) with
    | some lacking => .error (.noSuchModule lacking)
    | none =>
      match catalog.find? (·.name = name) with
      | some s => .ok s
      | none => .error (.noSuchModule name)

/-- What `module:Name` stands for. -/
def findExhibit (catalog : List Section) (target : String) : Except Fault Exhibit :=
  match cutAt ':' target.toList with
  | (_, none) | (_, some "") => .error (.badTarget target)
  | (home, some member) => do
    let s ← findSection catalog home
    match s.exhibits.find? fun (n, _) => n = member with
    | some (_, e) => .ok e
    | none => .error (.noSuchMember home member)

end PegScribe.Command
