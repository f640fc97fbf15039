import Stimulus.Proofs.Solver

/-!
# Sessions with a solver

A session is any sequence of calls on one solver.  Beside the solver runs a ledger of what the calls
have asked for.  What the solver poses is what the ledger lists, whatever the order of the calls,
so a solve decides the constraints of the ledger.  It finds a model exactly if they are satisfiable
together, and what is read afterwards makes them true.

Main definitions:
- `Ledger`: what has been asked of a solver
- `Solver.Called`: one call, and what it does to the ledger
- `Solver.Reached`: the solvers of sessions
- `Solver.Reads`, `Solver.Decided`

Main statements:
- `Solver.Reached.poses`
- `Solver.solve_decides_of_reached`
-/

namespace Stimulus

/-! ## §1 Ledgers -/

/-- What has been asked of a solver: asserted constraints, soft constraints that an analysis has
    kept, pending soft constraints, and what is assumed and suggested for the next solve. -/
structure Ledger where
  asserted : List Expr := []
  kept : List Expr := []
  softs : List Expr := []
  assumed : List Expr := []
  suggested : List Expr := []

namespace Ledger

/-- What every model has to satisfy. -/
def hards (l : Ledger) : List Expr := l.asserted ++ l.kept

/-- What a model of the next solve has to satisfy. -/
def goal (l : Ledger) (ignoreSofts : Bool) : List Expr :=
  (if ignoreSofts then [] else l.softs) ++ (l.assumed ++ l.hards)

/-- The ledger after a solve. -/
def spent (l : Ledger) : Ledger := { l with assumed := [], suggested := [] }

end Ledger

/-- The constraint has a value in an environment that may leave variables open, and the value is not
    zero. -/
def Expr.TrueIn (env : Nat → Option Nat) (e : Expr) : Prop :=
  ∃ v, e.eval env = pure v ∧ v.isTrue = true

namespace Solver

/-! ## §2 Sessions -/

section

variable {Γ : Signature}

/-- One call that was answered, with the ledger before and after it.  Expressions are over the
    variables of one signature. -/
inductive Called (Γ : Signature) : Solver → Ledger → Solver → Ledger → Prop where
  | assert {s s' : Solver} {l : Ledger} {e : Expr} (he : Γ.Admits e)
      (hrun : s.assert e = .ok (.ok (), s')) :
      Called Γ s l s' { l with asserted := l.asserted ++ [e] }
  | assertSoft {s s' : Solver} {l : Ledger} {e : Expr} (he : Γ.Admits e)
      (hrun : s.assertSoft e = .ok (.ok (), s')) :
      Called Γ s l s' { l with softs := l.softs ++ [e] }
  | suggest {s s' : Solver} {l : Ledger} {e : Expr} (he : Γ.Admits e)
      (hrun : s.suggest e = .ok (.ok (), s')) :
      Called Γ s l s' { l with suggested := l.suggested ++ [e] }
  | assume {s s' : Solver} {l : Ledger} {e : Expr} (he : Γ.Admits e)
      (hrun : s.assume e = .ok (.ok (), s')) :
      Called Γ s l s' { l with assumed := l.assumed ++ [e] }
  | solve {s s' : Solver} {l : Ledger} {ignoreSofts found : Bool}
      (hrun : s.solve ignoreSofts = .ok (found, s')) : Called Γ s l s' l.spent
  | conflicts {s s' : Solver} {l : Ledger} {constraints : Std.TreeMap Nat Expr}
      {groups : List (List Nat)}
      (hes : ∀ (k : Nat) (e : Expr), constraints[k]? = some e → Γ.Admits e)
      (hrun : s.conflicts constraints = .ok (.ok groups, s')) : Called Γ s l s' l
  | dropSofts {s s' : Solver} {l : Ledger} {dropped : List Nat}
      (hrun : s.dropSofts = .ok (dropped, s')) :
      Called Γ s l s' { l with softs := [], kept := l.kept ++ without dropped l.softs }

/-- The solvers that sessions reach, and their ledgers.  Random draws read an arbitrary stream. -/
inductive Reached (Γ : Signature) : Solver → Ledger → Prop where
  | fresh {bits seed : Nat} {s : Solver} (rng : Stream) (hs : Solver.empty bits seed = .ok s) :
      Reached Γ { s with rng := rng } {}
  | call {s s' : Solver} {l l' : Ledger} (h : Reached Γ s l) (hcall : Called Γ s l s' l') :
      Reached Γ s' l'

theorem CapturesEach.admits {s : Encoding} {fs : List Edge} {es : List Expr}
    (h : CapturesEach s Γ fs es) {e : Expr} (he : e ∈ es) : Γ.Admits e := by
  obtain ⟨f, -, hf⟩ := CapturesEach.exists_of_mem h he
  exact hf.admits e (List.mem_singleton.mpr rfl)

/-- Only which constraints are hard matters. -/
theorem Poses.congr_hards {s : Solver} {hards hards' softs assumed suggested : List Expr}
    (h : s.Poses Γ hards softs assumed suggested) (hsame : ∀ e, e ∈ hards ↔ e ∈ hards') :
    s.Poses Γ hards' softs assumed suggested where
  wellFormed := h.wellFormed
  within := h.within
  hard := h.hard.congr hsame
  softs := h.softs
  assumptions := h.assumptions
  suggestions := h.suggestions

/-- A call keeps the solver and the ledger in step. -/
theorem Called.poses {s s' : Solver} {l l' : Ledger} (hcall : Called Γ s l s' l')
    (h : s.Poses Γ l.hards l.softs l.assumed l.suggested) :
    s'.Poses Γ l'.hards l'.softs l'.assumed l'.suggested := by
  cases hcall with
  | @assert _ _ e he hrun =>
    have h' := (assert_grants h he (nofun : False → Γ.Few)).of_run hrun
    -- The new constraint stands behind what an analysis has kept.
    apply h'.congr_hards
    intro x
    simp only [Ledger.hards, List.mem_append, List.mem_singleton]
    exact or_right_comm
  | assertSoft he hrun => exact (assertSoft_grants h he (nofun : False → Γ.Few)).of_run hrun
  | suggest he hrun => exact (suggest_grants h he (nofun : False → Γ.Few)).of_run hrun
  | assume he hrun => exact (assume_grants h he (nofun : False → Γ.Few)).of_run hrun
  | solve hrun => exact ((solve_ensures False h _).of_run hrun).1
  | conflicts hes hrun =>
    exact ((conflicts_grants h hes (nofun : False → _) nofun).of_run hrun).1
  | dropSofts hrun =>
    have hdrop : Ensures Solver.dropSofts _ (Stuck False) _ := dropSofts_ensures h
    have h' := (hdrop.of_run hrun).2
    rwa [Ledger.hards, List.append_assoc] at h'

/-- What the solver of a session poses is what its ledger lists. -/
theorem Reached.poses {s : Solver} {l : Ledger} (h : Reached Γ s l) :
    s.Poses Γ l.hards l.softs l.assumed l.suggested := by
  induction h with
  | fresh rng hs =>
    have hfresh : Poses _ Γ [] [] [] [] := (empty_ends (nofun : False → _)).of_ok hs
    exact ⟨hfresh.wellFormed, hfresh.within, hfresh.hard, hfresh.softs, hfresh.assumptions,
      hfresh.suggestions⟩
  | call _ hcall ih => exact hcall.poses ih

end

/-! ## §3 What is read -/

/-- Reading the declared variables gives the environment; a variable without a value is open. -/
def Reads (s : Solver) (Γ : Signature) (env : Nat → Option Nat) : Prop :=
  ∀ id sort, Γ.sort? id = some sort → s.read (.var id sort) = .ok (env id)

/-- What is read of a solver in which every variable with a slot has the given value. -/
def readings (s : Solver) (Γ : Signature) (value : Nat → BitSort → Option Nat) (id : Nat) :
    Option Nat :=
  s.encoding.slots[id]?.bind fun _ => (Γ.sort? id).bind (value id)

section

variable {s : Solver} {Γ : Signature} {value : Nat → BitSort → Option Nat}

theorem readings_of_slot {id slot : Nat} {sort : BitSort}
    (hslot : s.encoding.slots[id]? = some slot) (hsort : Γ.sort? id = some sort) :
    s.readings Γ value id = value id sort := by
  simp [readings, hslot, hsort]

theorem reads_readings (h : ∀ (id : Nat) (sort : BitSort) (slot : Nat), Γ.sort? id = some sort →
      s.encoding.slots[id]? = some slot → s.read (.var id sort) = .ok (value id sort)) :
    s.Reads Γ (s.readings Γ value) := by
  intro id sort hsort
  cases hslot : s.encoding.slots[id]? with
  | none =>
    have hopen : s.readings Γ value id = none := by simp [readings, hslot]
    rw [hopen, read_of_unplaced hslot]
  | some slot => rw [readings_of_slot hslot hsort, h id sort slot hsort hslot]

/-- What holds in a model is true of what is read, as soon as all its variables have slots. -/
theorem trueIn_readings {env : Nat → Nat} {e : Expr} (he : Γ.Admits e)
    (hplaced : s.encoding.Placed e) (hholds : e.Holds env) :
    e.TrueIn (s.readings Γ fun id sort => some (env id % 2 ^ sort.width)) := by
  obtain ⟨v, hv, htrue⟩ := hholds
  refine ⟨v, ?_, htrue⟩
  rw [← hv]
  apply Expr.eval_congr
  intro id sort hmem
  obtain ⟨slot, hslot⟩ := hplaced id sort hmem
  -- An occurrence of a variable is about the low bits that are read.
  rw [readings_of_slot hslot (he.declared id sort hmem), Option.map_some, Option.map_some]
  exact congrArg some (Expr.wrap_eq_of_mod_eq (Nat.mod_mod _ _))

/-- Without a model only variables without bits have a value. -/
theorem read_of_cleared (hwf : s.encoding.WellFormed) (hmodel : s.model = ∅) {id slot : Nat}
    {sort : BitSort} (hsort : Γ.sort? id = some sort) (hslot : s.encoding.slots[id]? = some slot) :
    s.read (.var id sort) = .ok (if sort.width = 0 then some 0 else none) := by
  have hwidth := Γ.width_le id sort hsort
  have hopen : ∀ v : Nat, s.model[v]? = none := by simp [hmodel]
  simp only [read, Encoding.variableBits, hslot, bitVariables_eq (hwf.slots.slot_lt hslot),
    if_pos hwidth]
  show Except.ok (numberOfBits <$> ((List.range sort.width).map (bitIndex slot)).mapM _) = _
  cases hbits : (List.range sort.width).map (bitIndex slot) with
  | nil =>
    have hzero : sort.width = 0 := by simpa using hbits
    rw [if_pos hzero]
    rfl
  | cons v vs =>
    have hpos : sort.width ≠ 0 := by
      intro hzero
      simp [hzero] at hbits
    rw [if_neg hpos, List.mapM_cons, hopen v]
    rfl

end

/-! ## §4 What a solve decides -/

/-- The answer of a solve, the solver that is left and what is read of it, by the ledger before. -/
structure Decided (s : Solver) (Γ : Signature) (l : Ledger) (ignoreSofts found : Bool)
    (env : Nat → Option Nat) : Prop where
  /-- A model is found exactly if there is one. -/
  found_iff : found = true ↔ Satisfiable (l.goal ignoreSofts)
  reads : s.Reads Γ env
  goal_true : found = true → ∀ e ∈ l.goal ignoreSofts, e.TrueIn env
  /-- If all suggestions fit, all of them are followed. -/
  suggested_true : found = true → Satisfiable (l.suggested ++ l.goal ignoreSofts) →
    ∀ e ∈ l.suggested, e.TrueIn env
  /-- No value of an earlier model is left. -/
  open_ : found = false → ∀ id sort, Γ.sort? id = some sort → 0 < sort.width → env id = none
  /-- Nothing that was assumed or suggested is posed any longer. -/
  poses : s.Poses Γ l.hards l.softs [] []

theorem Solved.decided {s s' : Solver} {Γ : Signature} {l : Ledger} {ignoreSofts found : Bool}
    (h : s.Poses Γ l.hards l.softs l.assumed l.suggested)
    (h' : s'.Poses Γ l.hards l.softs [] [])
    (hsolved : s'.Solved Γ found (l.goal ignoreSofts) l.suggested) :
    ∃ env, s'.Decided Γ l ignoreSofts found env := by
  have hadmits : ∀ e ∈ l.suggested ++ l.goal ignoreSofts, Γ.Admits e := by
    intro e he
    simp only [Ledger.goal, List.mem_append] at he
    rcases he with he | he | he | he
    · exact CapturesEach.admits h.suggestions he
    · split at he
      · cases he
      · exact CapturesEach.admits h.softs he
    · exact CapturesEach.admits h.assumptions he
    · exact h.hard.admits e he
  -- The values that can be read are those of the model, or all zero when there is none.
  cases found with
  | true =>
    obtain ⟨env, hgoal, hfit, hshows⟩ := hsolved.model rfl
    refine ⟨_, ⟨fun _ => ⟨env, hgoal⟩, fun _ => rfl⟩, reads_readings hshows, ?_, ?_, nofun, h'⟩
    · intro _ e he
      have he' := List.mem_append_right l.suggested he
      exact trueIn_readings (hadmits e he') (hsolved.placed e he') (hgoal e he)
    · intro _ hsat e he
      have he' := List.mem_append_left (l.goal ignoreSofts) he
      exact trueIn_readings (hadmits e he') (hsolved.placed e he') (hfit hsat e he)
  | false =>
    refine ⟨_, ⟨nofun, fun hsat => absurd hsat (hsolved.noModel rfl)⟩,
      reads_readings fun id sort slot hsort hslot =>
        read_of_cleared h'.wellFormed (hsolved.cleared rfl) hsort hslot, nofun, nofun, ?_, h'⟩
    intro _ id sort hsort hpos
    simp [readings, hsort, Nat.pos_iff_ne_zero.mp hpos]

/-- Unless the nodes or the draws run out, a solve ends.  It decides the constraints of the ledger,
    and it uses up what was assumed and suggested. -/
theorem solve_decides_of_reached {Γ : Signature} {s : Solver} {l : Ledger} (hs : Reached Γ s l)
    (ignoreSofts : Bool)
    (hends : ∀ fault, s.solve ignoreSofts = .error fault → ¬ fault.Exhausts) :
    ∃ found s' env, s.solve ignoreSofts = .ok (found, s') ∧ Reached Γ s' l.spent ∧
      s'.Decided Γ l ignoreSofts found env := by
  have hsolve := solve_ensures True hs.poses ignoreSofts
  unfold Ensures Ends at hsolve
  cases hrun : s.solve ignoreSofts with
  | error fault =>
    rw [hrun] at hsolve
    exact absurd (hsolve trivial) (hends fault hrun)
  | ok r =>
    rw [hrun] at hsolve
    obtain ⟨found, s'⟩ := r
    obtain ⟨hposes, hsolved⟩ := hsolve
    obtain ⟨env, hdecided⟩ := hsolved.decided hs.poses hposes
    exact ⟨found, s', env, rfl, hs.call (.solve hrun), hdecided⟩

/-! A session with one flag. -/

/-- One declared variable, which is a truth value. -/
def flagged : Signature where
  sort? id := if id = 1 then some .bool else none
  width_le id sort h := by
    split at h
    · cases h
      decide
    · cases h

theorem admits_flag : flagged.Admits (.var 1 .bool) := by
  refine ⟨by decide, fun id sort hmem => ?_⟩
  obtain ⟨rfl, rfl⟩ := Expr.mentions_var.mp hmem
  rfl

theorem admits_truth (b : Bool) : flagged.Admits (.truth b) := by
  refine ⟨by cases b <;> decide, fun id sort hmem => ?_⟩
  exact absurd hmem Expr.not_mentions_const

/-- A flag is asserted, the second of two soft constraints is kept, and a suggestion fits. -/
theorem solve_decides_after_dropSofts :
    let l : Ledger :=
      { asserted := [.var 1 .bool], kept := [.truth true], suggested := [.truth true] }
    ∃ s, Reached flagged s l ∧ (∀ fault, s.solve false = .error fault → ¬ fault.Exhausts) ∧
      ∃ found s' env, s.solve false = .ok (found, s') ∧ Reached flagged s' l.spent ∧
        s'.Decided flagged l false found env := by
  intro l
  obtain ⟨s₀, hfresh, htest⟩ := exists_of_toOption_any (x := Solver.empty 4 0) (p := fun s₀ =>
      (granted? (s₀.assert (.var 1 .bool))).any fun (_, s₁) =>
      (granted? (s₁.assertSoft (.truth false))).any fun (_, s₂) =>
      (granted? (s₂.assertSoft (.truth true))).any fun (_, s₃) =>
      s₃.dropSofts.toOption.any fun (dropped, s₄) => decide (dropped = [0]) &&
      (granted? (s₄.suggest (.truth true))).any fun (_, s₅) =>
      (s₅.solve false).toOption.isSome) (by decide +kernel)
  obtain ⟨_, s₁, hs₁, htest⟩ := exists_of_granted?_any htest
  obtain ⟨_, s₂, hs₂, htest⟩ := exists_of_granted?_any htest
  obtain ⟨_, s₃, hs₃, htest⟩ := exists_of_granted?_any htest
  obtain ⟨⟨dropped, s₄⟩, hs₄, htest⟩ := exists_of_toOption_any htest
  obtain ⟨hdropped, htest⟩ := (Bool.and_eq_true _ _).mp htest
  obtain rfl := of_decide_eq_true hdropped
  obtain ⟨_, s₅, hs₅, htest⟩ := exists_of_granted?_any htest
  have hreached : Reached flagged s₅ l :=
    (((((Reached.fresh s₀.rng hfresh).call (.assert admits_flag hs₁)).call
      (.assertSoft (admits_truth false) hs₂)).call (.assertSoft (admits_truth true) hs₃)).call
      (.dropSofts hs₄)).call (.suggest (admits_truth true) hs₅)
  have hends : ∀ fault, s₅.solve false = .error fault → ¬ fault.Exhausts := by
    intro fault hfault
    dsimp only at htest
    rw [hfault] at htest
    cases htest
  exact ⟨s₅, hreached, hends, solve_decides_of_reached hreached false hends⟩

/-- The negation of a signed shift of a word without bits. -/
def noShift : Expr := .unary .not (.binary .shr (.const 0 (.signed 0)) (.const 1 (.signed 32)))

/-- A model is found of a constraint that has no value in any environment. -/
theorem solve_decides_fails : ∃ s₀ s₁ s₂, Solver.empty 4 0 = .ok s₀ ∧
    s₀.assert noShift = .ok (.ok (), s₁) ∧ s₁.solve false = .ok (true, s₂) ∧
      ¬ Satisfiable [noShift] := by
  obtain ⟨s₀, hs₀, htest⟩ := exists_of_toOption_any (x := Solver.empty 4 0) (p := fun s₀ =>
    (granted? (s₀.assert noShift)).any fun asserted =>
    (asserted.2.solve false).toOption.any Prod.fst) (by decide +kernel)
  obtain ⟨_, s₁, hs₁, htest⟩ := exists_of_granted?_any htest
  obtain ⟨⟨found, s₂⟩, hs₂, hfound⟩ := exists_of_toOption_any htest
  obtain rfl : found = true := hfound
  refine ⟨s₀, s₁, s₂, hs₀, hs₁, hs₂, ?_⟩
  rintro ⟨env, henv⟩
  obtain ⟨v, hv, -⟩ := henv noShift (List.mem_singleton.mpr rfl)
  cases hv

end Solver

end Stimulus
