import Stimulus.Proofs.Generator.Soundness

/-!
# Reading a solution

Reading asks the plain solvers.  After a plain solve these have the values in the context: vectors
that are solved later give no size another value.  After a solve for coverage that hit something,
the context has the values of the coverage solvers where these have any, and of the plain solvers
elsewhere, so reading can answer a value that the context no longer has.

Main statements:
- `Generator.confirms_of_nextCover`
- `Generator.value_of_read`
-/

namespace Stimulus

namespace Generator

section

variable {settings : Settings} {storageBits : Nat} {s s' : InContext Generator}

/-- After a plain solve, the context has all values that the plain solvers have. -/
theorem next_confirms (h : Founded settings storageBits s) :
    Grants next s (fun _ => True) (fun _ _ => True) fun solved s' =>
      solved = true → s'.context.Confirms s'.item.plain.read := by
  unfold next
  apply (refresh_grants False h nofun nofun nofun).results.bind
  rintro _ s₁ ⟨h₁, -, -⟩
  apply (solvePlain_grants False h₁.toReady nofun).results.bind
  rintro solved s₂ ⟨h₂, -, ht⟩
  cases solved with
  | false => exact .pure nofun
  | true =>
    have hwrote := (ht.served rfl).wrote
    -- Vectors read the sizes from the solvers, so they write the values that are there already.
    apply Grants.get_bind
    apply (useVectors_grants (VectorStage.solve_grants False h₂.wellFormed h₂.vectors nofun
      nofun)).imp (fun _ _ => trivial) (fun _ _ _ => trivial)
    rintro solved _ ⟨t, rfl, hfollows, -⟩ -
    exact hfollows.stores.confirms fun id n hn => hwrote.bits hn

/-- After a hit, the context has the values of the coverage solvers on top of those of the plain
    ones. -/
theorem hitNext_confirms (h : Ready settings storageBits s) :
    Grants hitNext s (fun _ => True) (fun _ _ => True) fun answer s' =>
      answer = some true → s'.context.Confirms s'.item.readCovered := by
  have hmissed (s : InContext Generator) : Grants (change ({ · with covered := true }) >>= fun _ =>
      pure none) s (fun _ => True) (fun _ _ => True) fun (answer : Option Bool) s' =>
        answer = some true → s'.context.Confirms s'.item.readCovered :=
    change_bind (.pure nofun)
  unfold hitNext
  apply (solvePlain_grants False h nofun).results.bind
  rintro solved s₁ ⟨h₁, -, ht₁⟩
  cases solved with
  | false => exact .pure nofun
  | true =>
    apply (solveCoverage_grants False h₁ nofun).results.bind
    rintro hit s₂ ⟨h₂, hsame₁, hplain, ht₂⟩
    cases hit with
    | false => exact hmissed s₂
    | true =>
      have hwrote := (ht₁.served rfl).wrote.overlay ht₂.served.wrote
      rw [← hplain] at hwrote
      apply Grants.get_bind
      apply (useCoverageVectors_grants (VectorStage.solve_grants False h₂.wellFormed
        h₂.coverageVectors nofun nofun)).results.bind
      rintro solved _ ⟨t, rfl, hfollows, -⟩
      cases solved with
      | false => exact hmissed _
      | true => exact .pure fun _ => hfollows.stores.confirms fun id n hn => hwrote.bits hn

theorem nextCover_confirms (h : Founded settings storageBits s) :
    Grants nextCover s (fun _ => True) (fun _ _ => True) fun solved s' =>
      solved = true → s'.context.Confirms s'.item.readCovered ∨
        s'.context.Confirms s'.item.plain.read := by
  have hnext {s : InContext Generator} (h : Founded settings storageBits s) :
      Grants next s (fun _ => True) (fun _ _ => True) fun solved s' =>
        solved = true → s'.context.Confirms s'.item.readCovered ∨
          s'.context.Confirms s'.item.plain.read :=
    (next_confirms h).mono fun _ _ hs' hsolved => .inr (hs' hsolved)
  unfold nextCover
  apply (refresh_grants False h nofun nofun nofun).results.bind
  rintro _ s₁ ⟨h₁, -, hregistry⟩
  have hcurrent := h₁.current (by rw [hregistry]; rfl)
  apply Grants.get_bind
  split
  · have hhit := (hitNext_confirms h₁.toReady).and (h₁.toReady.hitNext_grants hcurrent)
    apply hhit.results.bind
    rintro answer s₂ ⟨hconfirms, h₂, hsame, hkeeps, -⟩
    cases answer with
    | none => exact hnext (h₁.same h₂ hsame hkeeps)
    | some answer => exact .pure fun hsolved => .inl (hconfirms (congrArg some hsolved))
  · exact hnext h₁

/-- What is read after a solve for coverage need not be what the context has: it has the values that
    the coverage solvers put on top, unless nothing was hit. -/
theorem confirms_of_nextCover (h : Reached settings storageBits s)
    (hrun : nextCover s = .ok (.ok true, s')) :
    s'.context.Confirms s'.item.readCovered ∨ s'.context.Confirms s'.item.plain.read :=
  (nextCover_confirms h.founded).of_run hrun rfl

/-- A variable without a value from a coverage solver has the one of its plain solver. -/
theorem plain_of_nextCover (h : Reached settings storageBits s)
    (hrun : nextCover s = .ok (.ok true, s')) {id n : Nat}
    (hcoverage : s'.item.coverage.read id = .ok none)
    (hplain : s'.item.plain.read id = .ok (some n)) : s'.context.bits id = n := by
  rcases confirms_of_nextCover h hrun with hconfirms | hconfirms
  · have hcovered : s'.item.readCovered id = .ok (some n) := by
      rw [readCovered, hcoverage]
      exact hplain
    exact hconfirms id n hcovered
  · exact hconfirms id n hplain

/-- What a generator reads after a solve is the value in the context, unless a coverage solver has
    put its own value there. -/
theorem value_of_read (h : Reached settings storageBits s) {v : Variable} {value : Int}
    (hrun : next s = .ok (.ok true, s') ∨
      nextCover s = .ok (.ok true, s') ∧ s'.item.coverage.read v.id = .ok none)
    (hread : s'.item.read v = .ok (.ok value)) : s'.context.value v = value := by
  have hplain : ∀ bits, s'.item.plain.read v.id = .ok (some bits) →
      s'.context.bits v.id = bits := by
    intro bits hbits
    rcases hrun with hnext | ⟨hcover, hcoverage⟩
    · exact (next_confirms h.founded).of_run hnext rfl v.id bits hbits
    · exact plain_of_nextCover h hcover hcoverage hbits
  unfold Generator.read readBits at hread
  cases hbits : s'.item.plain.read v.id with
  | error fault =>
    rw [hbits] at hread
    cases hread
  | ok bits =>
    rw [hbits] at hread
    cases bits with
    | none => cases hread
    | some bits =>
      cases hread
      rw [Context.value, hplain bits hbits]

end

/-- The flag that has to be set is set, and reading it says so. -/
theorem value_of_read_flag : ∃ s s', Reached { seed := some 1 } 4 s ∧
    next s = .ok (.ok true, s') ∧ s'.item.read ⟨1, .bool⟩ = .ok (.ok 1) ∧
    s'.context.value ⟨1, .bool⟩ = 1 := by
  obtain ⟨s, hrun, htest⟩ := exists_of_toOption_any
    (x := started { seed := some 1 } 4 flagged flags) (p := fun s =>
      (granted? (next s)).any fun (solved, s') => solved &&
        decide (attempted? (s'.item.read ⟨1, .bool⟩) = some 1)) (by decide +kernel)
  obtain ⟨solved, s', hnext, htest⟩ := exists_of_granted?_any htest
  simp only [Bool.and_eq_true, decide_eq_true_eq] at htest
  obtain ⟨rfl, hread⟩ := htest
  have hread := eq_of_attempted? hread
  have hreached := reached_started reached_flagged writes_flags hrun
  exact ⟨s, s', hreached, hnext, hread, value_of_read hreached (.inl hnext) hread⟩

end Generator

end Stimulus
