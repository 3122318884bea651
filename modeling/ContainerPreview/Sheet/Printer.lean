import ContainerPreview.Sheet.Node

/-!
# Writing style sheets

Every node is written on lines of its own, two spaces further in for every
block around it.  The sheet itself has no line: its children stand at its own
depth.
-/

namespace ContainerPreview

/-- The blanks in front of a line at the given depth. -/
def indentation (depth : Nat) : String :=
  String.ofList (List.replicate (2 * depth) ' ')

/-- The text of a declaration. -/
def Declaration.css (declaration : Declaration) : String :=
  declaration.property ++ ": " ++ declaration.value ++
    (if declaration.important then " !important;" else ";")

/-- The text of a leaf. -/
def Leaf.css : Leaf → String
  | .declaration content => content.css
  | .comment text => "/*" ++ text ++ "*/"

/-- The text of an at-rule up to its block. -/
def atRuleStart (name params : String) : String :=
  "@" ++ name ++ (if params.isEmpty then "" else " " ++ params)

/-- The block made of lines that stand one level further in. -/
def braces (depth : Nat) (lines : List String) : String :=
  if lines.isEmpty then "\x7b\x7d"
  else "\x7b\n" ++ String.intercalate "\n" lines ++ "\n" ++ indentation depth ++ "\x7d"

mutual
/-- The text of a node at the given depth. -/
def Node.cssAt (depth : Nat) : Node → String
  | .leaf _ content => indentation depth ++ content.css
  | .block _ .sheet _ children => String.intercalate "\n" (linesAt depth children)
  | .block _ (.rule selector) _ children =>
      indentation depth ++ selector ++ " " ++ braces depth (linesAt (depth + 1) children)
  | .block _ (.atRule name params hasBlock) _ children =>
      indentation depth ++ atRuleStart name params ++
        (if hasBlock then " " ++ braces depth (linesAt (depth + 1) children) else ";")
/-- The texts of nodes at the given depth. -/
def linesAt (depth : Nat) : List Node → List String
  | [] => []
  | node :: nodes => node.cssAt depth :: linesAt depth nodes
end

/-- The text of a style sheet. -/
def Node.css (node : Node) : String :=
  node.cssAt 0

mutual
/-- Marks do not show in the text. -/
theorem Node.cssAt_clearMarks (depth : Nat) :
    ∀ node : Node, node.clearMarks.cssAt depth = node.cssAt depth
  | .leaf _ _ => rfl
  | .block _ .sheet _ children => by
      simp only [Node.clearMarks, Node.cssAt, linesAt_clearMarksIn]
  | .block _ (.rule _) _ children => by
      simp only [Node.clearMarks, Node.cssAt, linesAt_clearMarksIn]
  | .block _ (.atRule _ _ _) _ children => by
      simp only [Node.clearMarks, Node.cssAt, linesAt_clearMarksIn]
theorem linesAt_clearMarksIn (depth : Nat) :
    ∀ nodes : List Node, linesAt depth (clearMarksIn nodes) = linesAt depth nodes
  | [] => rfl
  | node :: nodes => by
      simp only [clearMarksIn, linesAt, Node.cssAt_clearMarks depth node,
        linesAt_clearMarksIn depth nodes]
end

end ContainerPreview
