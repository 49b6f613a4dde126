import StochasticGrammar.Category
import StochasticGrammar.Score.Linear

/-!
# Derivation trees

A tree has the scanned tokens at its leaves and a category at every node. A draft is a tree into
which stray texts may have slipped where trees belong.
-/

namespace StochasticGrammar

/-- A derivation tree. -/
inductive Tree where
  | leaf (category : Category) (token : Payload)
  | node (category : Category) (children : List Tree)

namespace Tree

/-- The category at the root. -/
def category : Tree → Category
  | leaf c _ => c
  | node c _ => c

mutual

/-- The leaves from left to right, each with its category. -/
def leaves : Tree → List (Category × Payload)
  | leaf c t => [(c, t)]
  | node _ children => leavesAll children

/-- The leaves of several trees. -/
def leavesAll : List Tree → List (Category × Payload)
  | [] => []
  | t :: ts => leaves t ++ leavesAll ts

end

/-- The scanned tokens from left to right. -/
def tokens (t : Tree) : List Payload :=
  t.leaves.map (·.2)

mutual

/-- The tree in brackets: each category with its children inside. -/
def display : Tree → String
  | leaf c _ => "[" ++ c.display ++ "]"
  | node c children => "[" ++ c.display ++ displayAll children ++ "]"

/-- Several trees in brackets, one after the other. -/
def displayAll : List Tree → String
  | [] => ""
  | t :: ts => display t ++ displayAll ts

end

end Tree

/-- A tree in the making. -/
inductive Draft where
  | leaf (category : Category) (token : Payload)
  | node (category : Category) (children : List Draft)
  | stray (text : String)

/-- A text that stands where a tree belongs. -/
structure NotATree where
  text : String

/-- The wording of the complaint. -/
def NotATree.message (e : NotATree) : String :=
  "Not a parse tree: " ++ Text.quoted e.text

namespace Draft

mutual

/-- The tree, if no text has slipped in; else the first such text. -/
def toTree : Draft → Except NotATree Tree
  | leaf c t => .ok (.leaf c t)
  | node c children => return .node c (← toTrees children)
  | stray text => .error ⟨text⟩

/-- Several drafts as trees. -/
def toTrees : List Draft → Except NotATree (List Tree)
  | [] => .ok []
  | d :: ds => return (← toTree d) :: (← toTrees ds)

end

mutual

/-- The leaves from left to right, stray texts left out. -/
def leaves : Draft → List (Category × Payload)
  | leaf c t => [(c, t)]
  | node _ children => leavesAll children
  | stray _ => []

/-- The leaves of several drafts. -/
def leavesAll : List Draft → List (Category × Payload)
  | [] => []
  | d :: ds => leaves d ++ leavesAll ds

end

/-- How many children the root has, if it is a tree. -/
def childCount? : Draft → Option Nat
  | leaf _ _ => some 0
  | node _ children => some children.length
  | stray _ => none

/-- The draft in running text: a tree in brackets, a stray text at the root as it is. -/
def display : Draft → Except NotATree String
  | stray text => .ok text
  | d => return (← d.toTree).display

end Draft

/-- The text of a tree followed by its probability with six significant digits. -/
def displayScored (tree : String) (probability : Float) : String :=
  tree ++ " (" ++ Numeric.general 6 probability ++ ")"

end StochasticGrammar
