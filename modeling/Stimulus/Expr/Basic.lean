import Stimulus.Failure
import Std.Data.TreeSet

/-!
# Constraint expressions

Expressions are trees over variables, constants, vectors and the index placeholders of `forEach`.
Every expression has a sort, which is read off its root and the sorts of its operands.

Main definitions:
- `Expr`, `Expr.sort`
- `Expr.checked` and the constructors that check what they build
- `Expr.preorder`, `Expr.support`, `Expr.scalars`
- `Expr.substitute`: rebuild an expression with other terminals
-/

namespace Stimulus

/-! ## §1 Operators -/

/-- Operators with one operand. -/
inductive UnaryOp where
  /-- Truth-value negation. -/
  | not
  /-- Two's complement negation. -/
  | neg
  /-- Bitwise complement. -/
  | complement
  deriving DecidableEq, Repr

/-- The sign under which an operator is written. -/
def UnaryOp.symbol : UnaryOp → String
  | .not => "!"
  | .neg => "-"
  | .complement => "~"

/-- Operators with two operands. -/
inductive BinaryOp where
  | add | sub | mul | div | rem
  | shl | shr
  | bitAnd | bitOr | bitXor
  | and | or
  | equal | notEqual | less | lessEqual | greater | greaterEqual
  deriving DecidableEq, Repr

namespace BinaryOp

/-- The sign under which an operator is written. -/
def symbol : BinaryOp → String
  | .add => "+"
  | .sub => "-"
  | .mul => "*"
  | .div => "/"
  | .rem => "%"
  | .shl => "<<"
  | .shr => ">>"
  | .bitAnd => "&"
  | .bitOr => "|"
  | .bitXor => "^"
  | .and => "&&"
  | .or => "||"
  | .equal => "=="
  | .notEqual => "!="
  | .less => "<"
  | .lessEqual => "<="
  | .greater => ">"
  | .greaterEqual => ">="

/-- All operators with two operands. -/
def all : List BinaryOp :=
  [.add, .sub, .mul, .div, .rem, .shl, .shr, .bitAnd, .bitOr, .bitXor, .and, .or,
    .equal, .notEqual, .less, .lessEqual, .greater, .greaterEqual]

/-- The operator that is written with a sign. -/
def ofSymbol? (sign : String) : Option BinaryOp := all.find? (·.symbol == sign)

/-- No two operators are written alike. -/
theorem ofSymbol?_symbol (op : BinaryOp) : ofSymbol? op.symbol = some op := by
  cases op <;> decide

/-- Operators that answer a truth value. -/
def isPredicate : BinaryOp → Bool
  | .and | .or | .equal | .notEqual | .less | .lessEqual | .greater | .greaterEqual => true
  | _ => false

/-- The two shifts, which keep the sort of their left operand. -/
def isShift : BinaryOp → Bool
  | .shl | .shr => true
  | _ => false

end BinaryOp

/-! ## §2 Expressions and their sorts -/

/-- A constraint expression. -/
inductive Expr where
  /-- A scalar variable. -/
  | var (id : Nat) (sort : BitSort)
  /-- A constant, stored as the bits that its sort keeps. -/
  | const (bits : Nat) (sort : BitSort)
  /-- The index bound by an enclosing `forEach`. -/
  | placeholder (id : Nat)
  /-- A vector, with the sort of its elements. -/
  | vector (id : Nat) (elem : BitSort)
  /-- An element of a vector. -/
  | element (vector index : Expr)
  | unary (op : UnaryOp) (arg : Expr)
  /-- Membership in a finite set of integers. -/
  | inside (arg : Expr) (set : List Int)
  /-- The operand widened by some bits, with its sign if it has one. -/
  | extend (arg : Expr) (extra : Nat)
  /-- Bits `hi` down to `lo`, as an unsigned number. -/
  | slice (arg : Expr) (hi lo : Nat)
  | binary (op : BinaryOp) (lhs rhs : Expr)
  | ite (cond yes no : Expr)
  /-- The body holds at every index of the vector. -/
  | forEach (vector : Expr) (index : Nat) (body : Expr)
  /-- The elements of the vector are pairwise distinct. -/
  | unique (vector : Expr)
  deriving DecidableEq, Repr

namespace Expr

/-- The sort of indices: placeholders and the numbers put in their place. -/
def indexSort : BitSort := .unsigned 32

/-- The sort of an expression. -/
def sort : Expr → BitSort
  | .var _ s => s
  | .const _ s => s
  | .placeholder _ => indexSort
  | .vector _ elem => elem
  -- The vector carries the sort of its elements.
  | .element v _ => v.sort
  | .unary .not _ => .bool
  | .unary _ a => a.sort
  | .inside _ _ => .bool
  | .extend a extra => .bits (a.sort.width + extra) a.sort.isSigned
  | .slice _ hi lo => .unsigned (hi - lo + 1)
  | .binary op l r =>
      if op.isPredicate then .bool
      else if op.isShift then l.sort
      else l.sort.common r.sort
  | .ite _ t e => t.sort.common e.sort
  | .forEach _ _ _ => .bool
  | .unique _ => .bool

/-! ## §3 Building expressions -/

/-- The expression itself, provided that the width of its root is an admissible width. -/
def checked (e : Expr) : Except Fault Expr :=
  -- Predicates and shifts need no common width.
  let overflows := match e with
    | .extend a extra => decide (BitSort.widthLimit ≤ a.sort.width + extra)
    | .binary op l r => !op.isPredicate && !op.isShift && l.sort.meetOverflows r.sort
    | .ite _ t e => t.sort.meetOverflows e.sort
    | _ => false
  if overflows then .error .overflow else .ok e

/-- A constant of a given sort; bits beyond the sort are dropped. -/
def constant (bits : Nat) (s : BitSort) : Expr := .const (s.truncate bits) s

/-- An integer literal in the smallest sort that holds it. -/
def literal (n : Int) : Expr := constant (BitVec.ofInt 64 n).toNat (BitSort.ofLiteral n)

/-- A truth value. -/
def truth (b : Bool) : Expr := constant b.toNat .bool

/-- The negation of a truth value. -/
def logicalNot (e : Expr) : Expr := .unary .not e

/-- The complement: of a truth value its negation, of a vector of bits all bits flipped. -/
def flip (e : Expr) : Expr :=
  if e.sort.isBool then .unary .not e else .unary .complement e

/-- Equality of an expression with given bits. -/
def equalTo (e : Expr) (bits : Nat) : Expr := .binary .equal e (constant bits e.sort)

/-- An operator applied to two operands. -/
def combine (op : BinaryOp) (l r : Expr) : Except Fault Expr := checked (.binary op l r)

/-- An implication: the conclusion, or the premise fails. -/
def implies (l r : Expr) : Expr := .binary .or l.logicalNot r

/-- A choice between two expressions. -/
def choose (cond yes no : Expr) : Except Fault Expr := checked (.ite cond yes no)

/-- An expression widened by `extra` bits. -/
def widen (e : Expr) (extra : Nat) : Except Fault Expr := checked (.extend e extra)

/-- Bits `hi` down to `lo`, which have to lie inside the operand. -/
def slice? (e : Expr) (hi lo : Nat) : Except Fault Expr :=
  if lo ≤ hi ∧ hi < e.sort.width then .ok (.slice e hi lo)
  else .error (.sliceOutside hi lo e.sort)

/-- An element of a vector; only a vector terminal has elements. -/
def elementAt (v index : Expr) : Except Fault Expr :=
  match v with
  | .vector _ _ => .ok (.element v index)
  | _ => .error .elementOfScalar

/-! ## §4 Reading expressions -/

/-- The id of a variable, vector or placeholder. -/
def id? : Expr → Option Nat
  | .var id _ => some id
  | .vector id _ => some id
  | .placeholder id => some id
  | _ => none

/-- The bits of a constant. -/
def constant? : Expr → Option Nat
  | .const bits _ => some bits
  | _ => none

/-- Whether the root constrains a whole vector. -/
def isVectorConstraint : Expr → Bool
  | .forEach _ _ _ => true
  | .unique _ => true
  | _ => false

/-- Whether the root has a meaning only together with a vector. -/
def isVectorNode : Expr → Bool
  | .vector _ _ => true
  | .element _ _ => true
  | .placeholder _ => true
  | .forEach _ _ _ => true
  | .unique _ => true
  | _ => false

/-- The operands of the root, from left to right. -/
def children : Expr → List Expr
  | .var _ _ => []
  | .const _ _ => []
  | .placeholder _ => []
  | .vector _ _ => []
  | .element v i => [v, i]
  | .unary _ a => [a]
  | .inside a _ => [a]
  | .extend a _ => [a]
  | .slice a _ _ => [a]
  | .binary _ l r => [l, r]
  | .ite c t e => [c, t, e]
  | .forEach v _ b => [v, b]
  | .unique v => [v]

/-- The expression and all its parts, every part before its own operands. -/
def preorder : Expr → List Expr
  | e@(.var _ _) => [e]
  | e@(.const _ _) => [e]
  | e@(.placeholder _) => [e]
  | e@(.vector _ _) => [e]
  | e@(.element v i) => e :: (v.preorder ++ i.preorder)
  | e@(.unary _ a) => e :: a.preorder
  | e@(.inside a _) => e :: a.preorder
  | e@(.extend a _) => e :: a.preorder
  | e@(.slice a _ _) => e :: a.preorder
  | e@(.binary _ l r) => e :: (l.preorder ++ r.preorder)
  | e@(.ite c t f) => e :: (c.preorder ++ t.preorder ++ f.preorder)
  | e@(.forEach v _ b) => e :: (v.preorder ++ b.preorder)
  | e@(.unique v) => e :: v.preorder

/-- Whether some part of the expression has a meaning only together with a vector. -/
def mentionsVector (e : Expr) : Bool := e.preorder.any isVectorNode

/-- The id under which a terminal counts towards the support.  Placeholders are bound, so they do
    not count. -/
def supportId? : Expr → Option Nat
  | .var id _ => some id
  | .vector id _ => some id
  | _ => none

/-- The ids of the variables and vectors that occur in an expression. -/
def support (e : Expr) : Std.TreeSet Nat :=
  Std.TreeSet.ofList (e.preorder.filterMap supportId?)

/-- The variables of a list of terminals, each id once, where it occurs first. -/
def firstOccurrences (seen : Std.TreeSet Nat) : List Expr → List Expr
  | [] => []
  | .var id s :: rest =>
      if seen.contains id then firstOccurrences seen rest
      else .var id s :: firstOccurrences (seen.insert id) rest
  | _ :: rest => firstOccurrences seen rest

/-- The scalar variables of an expression in the order in which they first occur. -/
def scalars (e : Expr) : List Expr := firstOccurrences ∅ e.preorder

/-! ## §5 Substitution -/

/-- Rebuild an expression from the bottom: every terminal is replaced by `terminal`, and every
    element access, once its operands are rebuilt, by `access`.  The vector of an access may be left
    alone.  Widths are checked again on the way up, because a replacement may have another sort. -/
def substitute {m : Type → Type} [Monad m] [MonadExceptOf Fault m]
    (terminal : Expr → m Expr) (access : Expr → Expr → m Expr) (vectors : Bool := true) :
    Expr → m Expr
  | e@(.var _ _) => terminal e
  | e@(.const _ _) => terminal e
  | e@(.placeholder _) => terminal e
  | e@(.vector _ _) => terminal e
  | .element v i => do
      let v ← if vectors then v.substitute terminal access vectors else pure v
      let i ← i.substitute terminal access vectors
      access v i
  | .unary op a => return .unary op (← a.substitute terminal access vectors)
  | .inside a set => return .inside (← a.substitute terminal access vectors) set
  | .extend a extra => do
      let a ← a.substitute terminal access vectors
      Fault.ofExcept (checked (.extend a extra))
  | .slice a hi lo => return .slice (← a.substitute terminal access vectors) hi lo
  | .binary op l r => do
      let l ← l.substitute terminal access vectors
      let r ← r.substitute terminal access vectors
      Fault.ofExcept (checked (.binary op l r))
  | .ite c t f => do
      let c ← c.substitute terminal access vectors
      let t ← t.substitute terminal access vectors
      let f ← f.substitute terminal access vectors
      Fault.ofExcept (checked (.ite c t f))
  | .forEach v index body => do
      let v ← v.substitute terminal access vectors
      return .forEach v index (← body.substitute terminal access vectors)
  | .unique v => return .unique (← v.substitute terminal access vectors)

end Expr

end Stimulus
