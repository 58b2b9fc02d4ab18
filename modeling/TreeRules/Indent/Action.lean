import TreeRules.Indent.Offset

/-! # Indentation actions

What an indentation rule asks for: a column to start from, and an offset from there.
-/
namespace TreeRules

/-- Where an offset is counted from. -/
inductive Anchor where
  /-- The margin. -/
  | margin
  /-- The start of the parent's line. -/
  | parentLine
  /-- The parent if it starts its line, else the start of its line. -/
  | standaloneParent
  /-- The parent's parent. -/
  | grandparent
  /-- The comment marker of the line before, or the text after it. -/
  | commentText
  /-- The parent. -/
  | parent
  /-- The parent's first child. -/
  | firstSibling
  /-- The child before. -/
  | previousSibling
  /-- The start of the line before. -/
  | previousLine
  /-- The earlier lines of a chain of member accesses. -/
  | memberChain
  deriving DecidableEq, Repr, Inhabited

namespace Anchor

def name : Anchor → String
  | .margin => "column-0"
  | .parentLine => "parent-bol"
  | .standaloneParent => "standalone-parent"
  | .grandparent => "grand-parent"
  | .commentText => "prev-adaptive-prefix"
  | .parent => "parent"
  | .firstSibling => "first-sibling"
  | .previousSibling => "prev-sibling"
  | .previousLine => "prev-line"
  | .memberChain => "member-chain"

/-- The anchors, in the order in which they are listed. -/
def all : List Anchor :=
  [.margin, .parentLine, .standaloneParent, .grandparent, .commentText, .parent, .firstSibling,
    .previousSibling, .previousLine, .memberChain]

end Anchor

/-- An anchor and an offset; the chain holds the node types that a chain of member accesses is made
of, which are not checked when a rule is read. -/
structure IndentAction where
  anchor : Anchor
  offset : Offset := {}
  chain : List Value := []

end TreeRules
