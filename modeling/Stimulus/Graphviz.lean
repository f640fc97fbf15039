import Stimulus.Expr.Text
import Stimulus.Partition

/-!
# Drawings of partitions

Partitions are drawn as a directed graph in the language of Graphviz: one cluster for each
partition, one for the vector constraints.  A constraint is a node labelled with its name and
styled by its kind; below it hangs the tree of its expression.  Nodes are numbered from one in the
order in which they are written.

Main definitions:
- `DrawingStyle`, `Statement`, `Statement.text`
- `drawPartitions`: the statements of a drawing
- `drawingText`
-/

namespace Stimulus

/-! ## §1 Statements -/

/-- How nodes look. -/
structure DrawingStyle where
  constraintShape : String := "box"
  nodeShape : String := "ellipse"
  hardStyle : String := "solid"
  softStyle : String := "dashed"
  coverStyle : String := "bold"
  /-- Whether the trees of the expressions are drawn. -/
  showExpressions : Bool := true

/-- One line of a drawing. -/
inductive Statement where
  | openGraph
  | openCluster (name : String)
  | title (text : String)
  | constraintNode (id : Nat) (shape style color name : String)
  | expressionNode (id : Nat) (shape label : String)
  | edge (source target : Nat)
  | close
  deriving DecidableEq, Repr

/-- A label between quotes: a backslash before every backslash and every quote. -/
def escapeChars : List Char → List Char
  | [] => []
  | c :: rest =>
      if c = '\\' ∨ c = '"' then '\\' :: c :: escapeChars rest else c :: escapeChars rest

/-- A label between quotes. -/
def escape (label : String) : String := String.ofList (escapeChars label.toList)

/-- The line of a statement. -/
def Statement.text : Statement → String
  | .openGraph => "digraph \x7b"
  | .openCluster name => s!"subgraph cluster_{name} \x7b"
  | .title text => s!"label=\"{escape text}\";"
  | .constraintNode id shape style color name =>
      s!"n{id} [shape={shape}, style={style}, color={color}, label=\"{escape name}\"];"
  | .expressionNode id shape label => s!"n{id} [shape={shape}, label=\"{escape label}\"];"
  | .edge source target => s!"n{source} -> n{target};"
  | .close => "\x7d"

/-! ## §2 Nodes -/

/-- A computation that numbers nodes; the state is the number of the last node. -/
abbrev Numbering : Type → Type := Step Nat

/-- The number of the next node. -/
def nextNumber : Numbering Nat := fun n => .ok (n + 1, n + 1)

/-- The subtrees of a node, each followed by the edge that leads to it. -/
def drawChildren (parent : Nat) :
    List (Numbering (Nat × List Statement)) → Numbering (List Statement)
  | [] => return []
  | child :: rest => do
      let (id, statements) ← child
      let others ← drawChildren parent rest
      return statements ++ .edge parent id :: others

/-- A node and its subtrees. -/
def drawNode (shape : String) (e : Expr) (children : List (Numbering (Nat × List Statement))) :
    Numbering (Nat × List Statement) := do
  -- A node is numbered before its subtrees, which makes the numbers a preorder.
  let id ← nextNumber
  let label ← Fault.ofExcept e.label
  let below ← drawChildren id children
  return (id, .expressionNode id shape label :: below)

/-- The tree of an expression. -/
def drawExpr (shape : String) : Expr → Numbering (Nat × List Statement)
  | e@(.var _ _) => drawNode shape e []
  | e@(.const _ _) => drawNode shape e []
  | e@(.placeholder _) => drawNode shape e []
  | e@(.vector _ _) => drawNode shape e []
  | e@(.element v i) => drawNode shape e [drawExpr shape v, drawExpr shape i]
  | e@(.unary _ a) => drawNode shape e [drawExpr shape a]
  | e@(.inside a _) => drawNode shape e [drawExpr shape a]
  | e@(.extend a _) => drawNode shape e [drawExpr shape a]
  | e@(.slice a _ _) => drawNode shape e [drawExpr shape a]
  | e@(.binary _ l r) => drawNode shape e [drawExpr shape l, drawExpr shape r]
  | e@(.ite c t f) => drawNode shape e [drawExpr shape c, drawExpr shape t, drawExpr shape f]
  | e@(.forEach v _ b) => drawNode shape e [drawExpr shape v, drawExpr shape b]
  | e@(.unique v) => drawNode shape e [drawExpr shape v]

/-- A constraint and the tree of its expression. -/
def drawConstraint (style : DrawingStyle) (c : Constraint) : Numbering (List Statement) := do
  let id ← nextNumber
  let look := if c.soft then style.softStyle else if c.cover then style.coverStyle
    else style.hardStyle
  let color := if c.enabled then "black" else "grey"
  let node := Statement.constraintNode id style.constraintShape look color c.name
  if style.showExpressions then
    let (root, tree) ← drawExpr style.nodeShape c.expr
    return node :: tree ++ [.edge id root]
  return [node]

/-! ## §3 Clusters -/

/-- A cluster of constraints. -/
def drawCluster (style : DrawingStyle) (name label : String) (constraints : List Constraint) :
    Numbering (List Statement) := do
  let inner ← constraints.mapM (drawConstraint style)
  return .openCluster name :: .title label :: inner.flatten ++ [.close]

/-- The label of a partition: its position and its variables. -/
def partitionLabel (i : Nat) (p : Partition) : String :=
  let vars := p.support.toList.map fun v => s!"v{v}"
  s!"partition {i} \x7b" ++ ", ".intercalate vars ++ "\x7d"

/-- The drawing of some partitions and vector constraints. -/
def drawPartitions (style : DrawingStyle) (partitions : List Partition)
    (vectorConstraints : List Constraint) : Numbering (List Statement) := do
  let clusters ← partitions.zipIdx.mapM fun (p, i) =>
    drawCluster style s!"p{i}" (partitionLabel i p) p.constraints
  let vectors ← if vectorConstraints.isEmpty then pure []
    else drawCluster style "vectors" "vector constraints" vectorConstraints
  return .openGraph :: clusters.flatten ++ vectors ++ [.close]

/-- The text of the drawing of some partitions and vector constraints. -/
def drawingText (style : DrawingStyle) (partitions : List Partition)
    (vectorConstraints : List Constraint) : Except Fault String := do
  let (statements, _) ← (drawPartitions style partitions vectorConstraints).run 0
  return String.join (statements.map fun s => s.text ++ "\n")

end Stimulus
