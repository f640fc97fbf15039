import Stimulus.Generator

/-!
# Random objects

Objects declare variables and constraints of their own and form trees.  Solving an object solves
the constraints of its whole subtree at once, so a child may constrain the variables of its parent
and the other way round.

Main definitions:
- `RandObject`, `RandObject.create`, `RandObject.child`, `RandObject.attach`
- `RandObject.registries`, `RandObject.isDirty`
- `RandObject.next`, `RandObject.nextCover`, `RandObject.nextWith`
- `RandObject.within`: work on a descendant
-/

namespace Stimulus

/-! ## §1 Objects -/

/-- What an object has of its own. -/
structure ObjectCore where
  name : String
  /-- The identity of the context that the object declares into. -/
  home : Nat
  settings : Settings
  registry : Registry
  /-- The scalars that get random values before each solve. -/
  members : List Variable
  /-- The generator of the last rebuild. -/
  generator : Option Generator
  rng : Stream
  /-- Whether children were added since the last rebuild. -/
  stale : Bool

/-- An object and its children. -/
inductive RandObject where
  | node (core : ObjectCore) (children : List RandObject)

/-- A computation of an object in its context. -/
abbrev Objective : Type → Type := Request (InContext RandObject)

namespace RandObject

/-- What the object has of its own. -/
def core : RandObject → ObjectCore
  | .node core _ => core

/-- The children in the order in which they were attached. -/
def children : RandObject → List RandObject
  | .node _ children => children

/-- Change what the object has of its own. -/
def mapCore (f : ObjectCore → ObjectCore) : RandObject → RandObject
  | .node core children => .node (f core) children

/-- An object without children. -/
def create (name : String) (settings : Settings) : StateM Context RandObject := do
  let registry ← Registry.create
  let entropy ← Context.takeEntropy
  let core : ObjectCore :=
    ⟨name, registry.home, settings, registry, [], none, .ofSeed? settings.seed entropy, true⟩
  return .node core []

/-- An object of the same context.  Its seed is the seed of this object plus a fresh id, modulo
    `2^64`. -/
def child (parent : RandObject) (name : String) : StateM Context RandObject := do
  match parent.core.settings.seed with
  | none => create name parent.core.settings
  | some seed => do
      -- A fresh id keeps the seeds of siblings apart.
      let id ← Context.takeId
      create name { parent.core.settings with seed := some (seed + id).toUInt64.toNat }

/-- Attach a child, which has to be of the same context. -/
def attach (parent child : RandObject) : Except Fault RandObject :=
  match parent with
  | .node core children =>
    if core.home = child.core.home then
      .ok (.node { core with stale := true } (children ++ [child]))
    else .error (.foreignChild child.core.name)

/-! ## §2 Trees -/

mutual

/-- The registries of a subtree, those of the children before that of the object. -/
def registries : RandObject → List Registry
  | .node core children => registriesEach children ++ [core.registry]

/-- The registries of several subtrees. -/
def registriesEach : List RandObject → List Registry
  | [] => []
  | c :: rest => c.registries ++ registriesEach rest

end

mutual

/-- Whether anything in the subtree changed since its last rebuild. -/
def isDirty : RandObject → Bool
  | .node core children => core.stale || core.registry.changed || isDirtyAny children

/-- Whether anything in one of several subtrees changed. -/
def isDirtyAny : List RandObject → Bool
  | [] => false
  | c :: rest => c.isDirty || isDirtyAny rest

end

mutual

/-- The subtree with all changes acknowledged. -/
def markClean : RandObject → RandObject
  | .node core children =>
    .node { core with registry := core.registry.acknowledge, stale := false }
      (markCleanEach children)

/-- Several subtrees with all changes acknowledged. -/
def markCleanEach : List RandObject → List RandObject
  | [] => []
  | c :: rest => c.markClean :: markCleanEach rest

end

/-- Random values for some members. -/
def randomizeAll (context : Context) : List Variable → Draw Context
  | [] => return context
  | v :: rest => do
      let context ← context.randomize v
      randomizeAll context rest

mutual

/-- Give all members of the subtree random values, those of an object before those of its
    children. -/
def scatter (context : Context) : RandObject → Except Fault (RandObject × Context)
  | .node core children => do
      let (context, rng) ← randomizeAll context core.members core.rng
      let (children, context) ← scatterEach context children
      return (.node { core with rng := rng } children, context)

/-- Give all members of several subtrees random values, one subtree after the other. -/
def scatterEach (context : Context) : List RandObject → Except Fault (List RandObject × Context)
  | [] => return ([], context)
  | c :: rest => do
      let (c, context) ← c.scatter context
      let (rest, context) ← scatterEach context rest
      return (c :: rest, context)

end

/-- Give all members of the subtree random values. -/
def preRandomize : Objective Unit := fun s =>
  match s.item.scatter s.context with
  | .error fault => .error fault
  | .ok (item, context) => .ok (.ok (), ⟨context, item⟩)

/-- Work on the descendant at the end of a path of child positions.  There is no answer when the
    path leads nowhere. -/
def within {α : Type} (act : Objective α) : List Nat → Objective (Option α)
  | [] => do return some (← act)
  | i :: path => fun s =>
    let ⟨context, .node core children⟩ := s
    -- The context that the descendant leaves is the context of the whole tree.
    match children[i]? with
    | none => .ok (.ok none, ⟨context, .node core children⟩)
    | some c =>
      match within act path ⟨context, c⟩ with
      | .error fault => .error fault
      | .ok (r, ⟨context, c⟩) => .ok (r, ⟨context, .node core (children.set i c)⟩)

/-! ## §3 Declarations and constraints -/

/-- Declare a random member. -/
def declare (type : ScalarType) : Objective Variable := do
  let v ← InContext.useContext (Context.declare type)
  modify fun s => { s with item := s.item.mapCore fun core =>
    { core with members := core.members ++ [v] } }
  return v

/-- Declare a vector, whose size becomes a random member. -/
def declareVector (type : ScalarType) : Objective VectorHandle := do
  let v ← InContext.useContext (Context.declareVector type)
  modify fun s => { s with item := s.item.mapCore fun core =>
    { core with members := core.members ++ [v.size] } }
  return v

/-- Add a constraint. -/
def add (kind : Kind) (name : Option String) (e : Expr) : Objective Unit := fun s =>
  let ⟨context, .node core children⟩ := s
  match Registry.make name e (kind = .soft) (kind = .cover) ⟨context, core.registry⟩ with
  | .error fault => .error fault
  | .ok (r, ⟨context, registry⟩) =>
    .ok (r.map fun _ => (), ⟨context, .node { core with registry := registry } children⟩)

/-- Switch a constraint of the object on or off.  The answer tells whether the name is known. -/
def setEnabled (o : RandObject) (name : String) (enabled : Bool) : Bool × RandObject :=
  let (known, registry) := o.core.registry.setEnabled name enabled
  (known, o.mapCore fun core => { core with registry := registry })

/-! ## §4 Solving -/

/-- Run a generator of its own in the context of the object. -/
def withGenerator {α : Type} (g : Generator) (act : Generation α) : Objective (α × Generator) :=
  fun s =>
    match act ⟨s.context, g⟩ with
    | .error fault => .error fault
    | .ok (r, ⟨context, g⟩) => .ok (r.map fun a => (a, g), { s with context := context })

/-- Run the generator of the last rebuild, if there is one. -/
def useGenerator {α : Type} (act : Generation α) : Objective (Option α) := fun s =>
  let ⟨context, .node core children⟩ := s
  let ⟨name, home, settings, registry, members, generator, rng, stale⟩ := core
  match generator with
  | none =>
    .ok (.ok none, ⟨context, .node ⟨name, home, settings, registry, members, none, rng, stale⟩
      children⟩)
  | some g =>
    match act ⟨context, g⟩ with
    | .error fault => .error fault
    | .ok (r, ⟨context, g⟩) =>
      .ok (r.map some, ⟨context,
        .node ⟨name, home, settings, registry, members, some g, rng, stale⟩ children⟩)

/-- A generator in the context of the object, into which the subtree is merged. -/
def newGenerator (settings : Settings) : Objective Generator := do
  let context := (← get).context
  let (g, context) ← Fault.ofExcept ((Generator.create settings).run context)
  modify ({ · with context := context })
  let registries := (← get).item.registries
  let (_, g) ← withGenerator g (registries.forM Generator.merge)
  return g

/-- Build a new generator for the subtree. -/
def rebuild : Objective Unit := do
  let g ← newGenerator (← get).item.core.settings
  -- The marks are taken off the whole subtree, though only the root gets the generator.
  modify fun s => { s with item := s.item.markClean }
  let (_, g) ← withGenerator g (Generator.rebuild false)
  modify fun s => { s with item := s.item.mapCore ({ · with generator := some g }) }

/-- Rebuild if something changed, then give all members random values. -/
def prepare : Objective Unit := do
  let o := (← get).item
  if o.core.generator.isNone || o.isDirty then rebuild
  preRandomize

/-- Solve the subtree.  The answer tells whether there is a solution. -/
def next : Objective Bool := do
  prepare
  return (← useGenerator Generator.next).getD false

/-- Solve the subtree, or refuse when there is no solution. -/
def tryNext : Objective Unit := do
  if !(← next) then throw .unsatisfiable

/-- Solve the subtree and hit a cover constraint not hit before, while there is one.  A rebuild
    starts coverage over. -/
def nextCover : Objective Bool := do
  prepare
  return (← useGenerator Generator.nextCover).getD false

/-- Whether every cover constraint was hit. -/
def isCovered (o : RandObject) : Bool := o.core.generator.any Generator.covered

/-- Start coverage over. -/
def resetCoverage : Objective Unit := do
  let _ ← useGenerator Generator.resetCoverage

/-- A registry with some hard constraints. -/
def inlineRegistry (es : List Expr) : Objective Registry := do
  let registry ← InContext.useContext Registry.create
  let s ← get
  let adding : Request (InContext Registry) Unit := es.forM fun e => do
    let _ ← Registry.make none e false false
  match adding ⟨s.context, registry⟩ with
  | .error fault => throwThe Fault fault
  | .ok (r, ⟨context, registry⟩) =>
    modify ({ · with context := context })
    match r with
    | .error refusal => throw refusal
    | .ok _ => return registry

/-- A seed for a generator that is used once, if the object has a seed at all. -/
def inlineSeed : Objective (Option Nat) := fun s =>
  let ⟨context, .node core children⟩ := s
  match core.settings.seed with
  | none => .ok (.ok none, ⟨context, .node core children⟩)
  | some _ =>
    match Stream.word64 core.rng with
    | .error fault => .error fault
    | .ok (seed, rng) =>
      .ok (.ok (some seed), ⟨context, .node { core with rng := rng } children⟩)

/-- Solve the subtree once with further hard constraints.  The generator of the object does not see
    them. -/
def nextWith (es : List Expr) : Objective Bool := do
  let extra ← inlineRegistry es
  let seed ← inlineSeed
  -- A generator of its own, which is not kept.
  let g ← newGenerator { (← get).item.core.settings with seed := seed }
  let (_, g) ← withGenerator g do
    Generator.merge extra
    Generator.rebuild false
  preRandomize
  let (answer, _) ← withGenerator g Generator.next
  return answer

end RandObject

end Stimulus
