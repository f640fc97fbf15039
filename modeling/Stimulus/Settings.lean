/-!
# Settings

The knobs that a generator shares with everything it builds.

Main definitions:
- `Settings`, `Settings.text`
-/

namespace Stimulus

/-- The knobs of a generator. -/
structure Settings where
  /-- The size of a vector whose size variable has no value. -/
  defaultVectorSize : Nat := 5
  /-- The bound that is asserted on every constrained vector size. -/
  maxVectorSize : Nat := 1000
  /-- Skip the search for conflicts, the dropping of soft constraints, and presolving. -/
  bypassAnalysis : Bool := false
  /-- Build and solve the groups side by side. -/
  sideBySide : Bool := false
  /-- Suggest a value for each variable from the constraints on it alone. -/
  presolve : Bool := true
  /-- The seed of all random draws. -/
  seed : Option Nat := none
  /-- The number of buckets of each unique table, as a power of two. -/
  storageBits : Nat := 16
  deriving DecidableEq, Repr

namespace Settings

/-- The text of a flag. -/
def flagText (b : Bool) : String := if b then "true" else "false"

/-- The text of an optional seed. -/
def seedText : Option Nat → String
  | some seed => s!"Some({seed})"
  | none => "None"

/-- The settings as text. -/
def text (s : Settings) : String :=
  "GeneratorConfig \x7b " ++ ", ".intercalate
    [s!"default_vector_size: {s.defaultVectorSize}",
      s!"max_vector_size: {s.maxVectorSize}",
      s!"bypass_constraint_analysis: {flagText s.bypassAnalysis}",
      s!"multithreaded: {flagText s.sideBySide}",
      s!"single_var_presolve: {flagText s.presolve}",
      s!"seed: {seedText s.seed}",
      s!"storage_bits: {s.storageBits}"] ++ " \x7d"

end Settings

end Stimulus
