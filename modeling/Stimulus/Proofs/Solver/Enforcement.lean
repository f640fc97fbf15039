import Stimulus.Proofs.Solver.Meaning

/-!
# What solvers enforce

A solver enforces the constraints that its hard part implies.  Whatever is asked of it afterwards,
and whether that is granted or refused, it goes on to enforce them, so every model that it finds
satisfies them.  Constraints without a value do no harm: they add demands of their own and take away
none.

Main definitions:
- `Solver.Enforces`: the hard part implies some constraints

Main statements:
- `Solver.assert_enforces`
- `Solver.solve_enforces`
-/

namespace Stimulus

namespace Solver

/-- The hard part of the solver implies the constraints. -/
def Enforces (s : Solver) (es : List Expr) : Prop :=
  ∃ hard softs assumed, s.Means hard softs assumed ∧ ∀ env, hard env → Expr.AllHold env es

section

variable {s : Solver} {es : List Expr} {hard : Demand} {softs assumed : List Demand}

/-! ## §1 Constraints -/

/-- A new solver enforces nothing. -/
theorem empty_enforces (bits seed : Nat) :
    Ends (empty bits seed) (fun _ => True) fun s => s.Enforces [] :=
  (empty_means bits seed).imp (fun _ hf => hf) fun s h =>
    ⟨_, _, _, h, fun env _ => by simp [Expr.AllHold]⟩

/-- The parts of a solver survive the encoding of a constraint, even if it is refused. -/
theorem encode_keeps (e : Expr) (h : s.Means hard softs assumed) :
    Grants (encode e.encodeTruth) s (fun _ => True) (fun _ s' => s'.Means hard softs assumed)
      fun f s' => s'.Means hard softs assumed ∧
        ∃ P, s'.encoding.Means f P ∧ (e.Plain → ∀ env, P env ↔ e.Holds env) := by
  have hkeeps := (e.encodeTruth_encodes h.wellFormed).grants
  have hboth := hkeeps.and (e.encodeTruth_means h.wellFormed)
  have hencode := encode_focus (hboth.imp (fun _ _ => trivial) (fun _ _ hr => hr) fun _ _ hq => hq)
  apply hencode.imp (fun _ hf => hf)
  · rintro _ _ ⟨encoding, rfl, ⟨hext, hwf⟩, -⟩
    exact h.withEncoding hext hwf
  · rintro f _ ⟨encoding, rfl, -, hext, hwf, P, hf, hplain⟩
    exact ⟨h.withEncoding hext hwf, P, hf, hplain⟩

/-- An asserted constraint is enforced, and so is what was enforced before. -/
theorem assert_enforces (e : Expr) (h : s.Enforces es) :
    Grants (assert e) s (fun _ => True) (fun _ s' => s'.Enforces es) fun _ s' =>
      s'.Enforces es ∧ (e.Plain → s'.Enforces (es ++ [e])) := by
  obtain ⟨hard, softs, assumed, h, hes⟩ := h
  apply ((encode_keeps e h).imp_refusal fun _ s' h' => ⟨hard, softs, assumed, h', hes⟩).bind
  rintro f s₁ ⟨h₁, P, hf, hplain⟩
  apply Grants.get_bind
  apply (build_means h₁ (Encoding.conj_means h₁.wellFormed h₁.hard hf)).step.bind
  rintro g _ ⟨d, rfl, h₂, hext, hg⟩
  have h₃ : Means { s₁ with encoding := s₁.encoding.withManager d, hard := g }
      (fun env => hard env ∧ P env) softs assumed :=
    ⟨h₂.wellFormed, hg, h₂.softs, h₂.assumptions, h₂.suggestions⟩
  refine .modify ⟨⟨_, _, _, h₃, fun env henv => hes env henv.1⟩, fun he =>
    ⟨_, _, _, h₃, fun env henv => Expr.allHold_append.mpr ⟨hes env henv.1, ?_⟩⟩⟩
  simpa [Expr.AllHold] using (hplain he env).mp henv.2

theorem assert_preserves (e : Expr) : Preserves (assert e) (Enforces · es) := fun _ h =>
  (assert_enforces e h).imp (fun _ hf => hf) (fun _ _ hr => hr) fun _ _ hq => hq.1

/-- Constraints of other kinds do not touch the hard part. -/
theorem preserves_of_push (put : Solver → Edge → Solver) (e : Expr)
    (hput : ∀ {s : Solver} {hard : Demand} {softs assumed : List Demand} {f : Edge} {P : Demand},
      s.Means hard softs assumed → s.encoding.Means f P →
        ∃ softs' assumed', (put s f).Means hard softs' assumed') :
    Preserves (do
      let f ← encode e.encodeTruth
      modify (put · f)) (Enforces · es) := by
  rintro s ⟨hard, softs, assumed, h, hes⟩
  apply ((encode_keeps e h).imp_refusal fun _ s' h' => ⟨hard, softs, assumed, h', hes⟩).bind
  rintro f s₁ ⟨h₁, P, hf, -⟩
  obtain ⟨softs', assumed', h₂⟩ := hput h₁ hf
  exact .modify ⟨hard, softs', assumed', h₂, hes⟩

theorem assertSoft_preserves (e : Expr) : Preserves (assertSoft e) (Enforces · es) := by
  apply preserves_of_push (fun s f => { s with softs := s.softs.push f }) e
  intro s hard softs assumed f P h hf
  refine ⟨softs ++ [P], assumed, h.wellFormed, h.hard, ?_, h.assumptions, h.suggestions⟩
  rw [Array.toList_push]
  exact List.rel_append h.softs (.cons hf .nil)

theorem suggest_preserves (e : Expr) : Preserves (suggest e) (Enforces · es) := by
  apply preserves_of_push (fun s f => { s with suggestions := s.suggestions.push f }) e
  intro s hard softs assumed f P h hf
  refine ⟨softs, assumed, h.wellFormed, h.hard, h.softs, h.assumptions, fun g hg => ?_⟩
  rcases List.mem_append.mp (Array.toList_push ▸ hg) with hg | hg
  · exact h.suggestions g hg
  · exact List.mem_singleton.mp hg ▸ hf.valid

theorem assume_preserves (e : Expr) : Preserves (assume e) (Enforces · es) := by
  apply preserves_of_push (fun s f => { s with assumptions := s.assumptions.push f }) e
  intro s hard softs assumed f P h hf
  refine ⟨softs, assumed ++ [P], h.wellFormed, h.hard, h.softs, ?_, h.suggestions⟩
  rw [Array.toList_push]
  exact List.rel_append h.assumptions (.cons hf .nil)

/-! ## §2 Solving -/

/-- Every model that is found satisfies what is enforced. -/
theorem solve_enforces (h : s.Enforces es) (ignoreSofts : Bool) :
    Ensures (solve ignoreSofts) s (fun _ => True) fun found s' =>
      s'.Enforces es ∧ (found = true → ∃ env, Expr.AllHold env es ∧ s'.Tells env) := by
  obtain ⟨hard, softs, assumed, h, hes⟩ := h
  apply (solve_finds h ignoreSofts).mono
  rintro found s' ⟨h', -, -, -, hmodel⟩
  refine ⟨⟨hard, softs, [], h', hes⟩, fun hfound => ?_⟩
  obtain ⟨env, henv, -, -, htells⟩ := hmodel hfound
  exact ⟨env, hes env henv, htells⟩

/-- Soft constraints that become hard strengthen the hard part. -/
theorem dropSofts_enforces (h : s.Enforces es) :
    Ensures dropSofts s (fun _ => True) fun _ s' => s'.Enforces es := by
  obtain ⟨hard, softs, assumed, h, hes⟩ := h
  apply (dropSofts_means h).mono
  rintro dropped s' ⟨hard', h', himplies⟩
  exact ⟨hard', [], assumed, h', fun env henv => hes env (himplies env henv)⟩

end

end Solver

end Stimulus
