import PegScribe.Expr

/-!
Parse trees: which rules matched where.
-/
namespace PegScribe

/-- A terminal's match, or a rule's match with the matches inside it. -/
inductive ParseTree where
  | leaf (start stop : Int)
  | node (key : RuleKey) (start stop : Int) (children : List ParseTree)
  deriving Inhabited

namespace ParseTree

/-- Where the match starts. -/
def start : ParseTree → Int
  | .leaf s _ | .node _ s _ _ => s

/-- Where the match ends. -/
def stop : ParseTree → Int
  | .leaf _ e | .node _ _ e _ => e

/-- Is it a terminal's match? -/
def isLeaf : ParseTree → Bool
  | .leaf .. => true
  | .node .. => false

end ParseTree
end PegScribe
