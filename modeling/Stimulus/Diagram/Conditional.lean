import Stimulus.Diagram.Manager

/-!
# The conditional and what is built from it

All Boolean operations are conditionals.  A conditional is first settled by inspection or brought
into a standard form, then looked up among the conditionals computed so far, and only then split on
its top variable.

Main definitions:
- `Triple.standardize`: the standard form of a conditional
- `ite`: if-then-else of three functions
- `conj`, `disj`, `xor`, `iff`, `imply`, `conjAll`, `disjAny`
-/

namespace Stimulus

/-! ## §1 Standard triples -/

/-- A conditional is settled by inspection, or it is left in standard form, possibly with its
    outcome complemented. -/
inductive Standard where
  | settled (e : Edge)
  | pending (t : Triple) (complemented : Bool)
  deriving DecidableEq, Repr

namespace Triple

/-- The conditionals that need no computation: both branches agree, or they are the constants. -/
def obvious? (t : Triple) : Option Edge :=
  if t.yes = t.no then some t.yes
  else if t.yes = .one ∧ t.no = .zero then some t.cond
  else if t.yes = .zero ∧ t.no = .one then some (-t.cond)
  else none

/-- A branch that repeats the condition or its complement is known there to be a constant. -/
def simplify (t : Triple) : Triple where
  cond := t.cond
  yes := if t.yes = t.cond then .one else if t.yes = -t.cond then .zero else t.yes
  no := if t.no = t.cond then .zero else if t.no = -t.cond then .one else t.no

/-- Swap the branches of a complemented condition, then complement everything below a
    complemented first branch. -/
def orient (t : Triple) : Standard :=
  let t : Triple := if t.cond.isComplement then ⟨-t.cond, t.no, t.yes⟩ else t
  if t.yes.isComplement then .pending ⟨t.cond, -t.yes, -t.no⟩ true else .pending t false

/-- The standard form of a conditional. -/
def standardize (t : Triple) : Standard :=
  if t.cond = .one then .settled t.yes
  else if t.cond = .zero then .settled t.no
  else match t.obvious? with
    | some e => .settled e
    | none =>
      -- What was not obvious may be obvious once repeated conditions are gone.
      match t.simplify.obvious? with
      | some e => .settled e
      | none => t.simplify.orient

/-- The sum of the indices, which gets smaller from a conditional to its cofactors. -/
def weight (t : Triple) : Nat := t.cond.index + t.yes.index + t.no.index

end Triple

/-! ## §2 Cofactors -/

namespace Manager

/-- The variable tested at the end of an edge; the terminal tests none. -/
def topVar? (d : Manager) (e : Edge) : Except Fault (Option Nat) :=
  if e.isTerminal then .ok none
  else do
    let n ← d.node e.index
    return some n.var

/-- The first variable that a conditional in standard form has to test. -/
def topVar (d : Manager) (t : Triple) : Except Fault Nat := do
  -- The condition is not the terminal here, so it tests a variable.
  let n ← d.node t.cond.index
  let yes ← d.topVar? t.yes
  let no ← d.topVar? t.no
  return (no.elim id min) ((yes.elim id min) n.var)

/-- A function with variable `v` false and with `v` true, where `v` lies above or at its top. -/
def cofactors (d : Manager) (e : Edge) (v : Nat) : Except Fault (Edge × Edge) :=
  if e.isTerminal then .ok (e, e)
  else do
    let n ← d.node e.index
    -- The function starts below `v`, so it does not depend on it.
    if v < n.var then return (e, e)
    if v = n.var then
      return (n.low.complementIf e.isComplement, n.high.complementIf e.isComplement)
    throw .unordered

/-- The two conditionals that remain when `v` is false and when `v` is true. -/
def split (d : Manager) (t : Triple) (v : Nat) : Except Fault (Triple × Triple) := do
  let (cond0, cond1) ← d.cofactors t.cond v
  let (yes0, yes1) ← d.cofactors t.yes v
  let (no0, no1) ← d.cofactors t.no v
  return (⟨cond0, yes0, no0⟩, ⟨cond1, yes1, no1⟩)

end Manager

/-! ## §3 The conditional -/

/-- Look a conditional up among those computed. -/
def fetch (t : Triple) : Build (Option Edge) := fun d =>
  let ⟨nodes, computed, limit⟩ := d
  let (found, computed) := computed.fetch t
  .ok (found, ⟨nodes, computed, limit⟩)

/-- Keep the outcome of a conditional. -/
def remember (t : Triple) (e : Edge) : Build Unit := fun d =>
  let ⟨nodes, computed, limit⟩ := d
  .ok ((), ⟨nodes, computed.remember t e, limit⟩)

/-- The top variable of a conditional and its two cofactors. -/
def expand (t : Triple) : Build (Nat × Triple × Triple) := fun d =>
  match d.topVar t with
  | .error fault => .error fault
  | .ok v =>
    match d.split t v with
    | .error fault => .error fault
    | .ok (low, high) => .ok ((v, low, high), d)

/-- If-then-else of three functions.  Stored nodes lie above the nodes that they lead to, so the
    cofactors weigh less than the conditional. -/
def iteTriple (t : Triple) : Build Edge := do
  match t.standardize with
  | .settled e => return e
  | .pending s complemented =>
    match ← fetch s with
    | some e => return e.complementIf complemented
    | none =>
      let (v, low, high) ← expand s
      -- A test in place of a proof: where the nodes are ordered it does not fail.
      if low.weight < t.weight ∧ high.weight < t.weight then
        -- The order of the two halves decides which nodes get the smaller indices.
        let no ← iteTriple low
        let yes ← iteTriple high
        let e ← mkNode v no yes
        remember s e
        return e.complementIf complemented
      else throw .unordered
termination_by t.weight

/-- If `f` then `g`, else `h`. -/
def ite (f g h : Edge) : Build Edge := iteTriple ⟨f, g, h⟩

/-! ## §4 Boolean operations -/

/-- Both hold. -/
def conj (f g : Edge) : Build Edge := ite f g .zero

/-- At least one holds. -/
def disj (f g : Edge) : Build Edge := ite f .one g

/-- Exactly one holds. -/
def xor (f g : Edge) : Build Edge := ite f (-g) g

/-- Both or neither hold. -/
def iff (f g : Edge) : Build Edge := ite f g (-g)

/-- The second holds wherever the first does. -/
def imply (f g : Edge) : Build Edge := ite f g .one

/-- The conjunction of functions that are made one at a time.  Once it is falsehood, no further
    function is made. -/
def conjWith {α : Type} (make : α → Build Edge) (acc : Edge) : List α → Build Edge
  | [] => pure acc
  | x :: rest => do
      let f ← make x
      let acc ← conj acc f
      -- What is not made stores no nodes either.
      if acc = .zero then pure acc else conjWith make acc rest

/-- The conjunction of all functions of a list. -/
def conjAll (fs : List Edge) : Build Edge := conjWith pure .one fs

/-- The disjunction of functions of a list, which ends once it is truth. -/
def disjFrom (acc : Edge) : List Edge → Build Edge
  | [] => pure acc
  | f :: rest => do
      let acc ← disj acc f
      if acc = .one then pure acc else disjFrom acc rest

/-- The disjunction of all functions of a list. -/
def disjAny (fs : List Edge) : Build Edge := disjFrom .zero fs

end Stimulus
