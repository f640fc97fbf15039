import Stimulus.Proofs.Circuit.Encoding
import Stimulus.Proofs.Circuit.Operator
import Stimulus.Proofs.Diagram.Run
import Stimulus.Proofs.Expr.Plain

/-!
# Encoded expressions

The word that an expression is encoded as has, under the assignment that gives every bit of every
variable to its diagram variable, the bits of the value of the expression.

Main definitions:
- `Encoding.Assigns`: the assignments that spell an environment
- `Encoding.Settles`: a function of assignments that is one of environments
- `Encoding.Represents`: a word represents an expression
- `Expr.Encodable`: the law of encoding an expression
- `Encoding.Reached`: the encodings that clients reach

Main statements:
- `Expr.encodable`
- `encode_agrees_of_reached`
-/

namespace Stimulus

/-! ## §1 Words that represent expressions -/

namespace Encoding

/-- The assignment gives the bits of the variables to their diagram variables. -/
def Assigns (s : Encoding) (env : Nat → Nat) (asg : Nat → Bool) : Prop :=
  ∀ id slot bit v : Nat, s.slots[id]? = some slot → bitVariable slot bit = .ok v →
    asg v = (env id).testBit bit

theorem Assigns.of_extends {s s' : Encoding} {env : Nat → Nat} {asg : Nat → Bool}
    (h : s'.Assigns env asg) (hext : s.Extends s') : s.Assigns env asg :=
  fun id slot bit v hslot => h id slot bit v (hext.slots id slot hslot)

/-- No two bits share a diagram variable. -/
def Separated (s : Encoding) : Prop :=
  ∀ id id' slot slot' bit bit' v : Nat, s.slots[id]? = some slot → s.slots[id']? = some slot' →
    bitVariable slot bit = .ok v → bitVariable slot' bit' = .ok v → id = id' ∧ bit = bit'

theorem WellFormed.separated {s : Encoding} (hs : s.WellFormed) : s.Separated := by
  intro id id' slot slot' bit bit' v hslot hslot' hv hv'
  obtain ⟨hbit, rfl⟩ := (bitVariable_eq_ok (hs.slots.slot_lt hslot)).mp hv
  obtain ⟨hbit', heq⟩ := (bitVariable_eq_ok (hs.slots.slot_lt hslot')).mp hv'
  obtain ⟨rfl, rfl⟩ :=
    bitIndex_inj (hs.slots.slot_lt hslot) (hs.slots.slot_lt hslot') hbit hbit' heq
  exact ⟨hs.slots.inj id id' slot hslot hslot', rfl⟩

/-- Every environment has an assignment, since no diagram variable is shared. -/
theorem WellFormed.exists_assigns {s : Encoding} (hs : s.WellFormed) (env : Nat → Nat) :
    ∃ asg, s.Assigns env asg := by
  classical
  let holds (v : Nat) : Prop := ∃ id slot bit : Nat, s.slots[id]? = some slot ∧
    bitVariable slot bit = .ok v ∧ (env id).testBit bit = true
  refine ⟨fun v => decide (holds v), fun id slot bit v hslot hv => ?_⟩
  rw [Bool.eq_iff_iff, decide_eq_true_iff]
  constructor
  · -- A bit that sets the variable is the bit that the variable belongs to.
    rintro ⟨id', slot', bit', hslot', hv', htrue⟩
    obtain ⟨rfl, rfl⟩ := hs.separated id id' slot slot' bit bit' v hslot hslot' hv hv'
    exact htrue
  · exact fun htrue => ⟨id, slot, bit, hslot, hv, htrue⟩

/-- An environment settles the function: all assignments that spell it have the same value. -/
def Settles {α : Type} (s : Encoding) (f : (Nat → Bool) → α) : Prop :=
  ∀ env asg asg', s.Assigns env asg → s.Assigns env asg' → f asg = f asg'

theorem Settles.of_extends {α : Type} {s s' : Encoding} {f : (Nat → Bool) → α} (h : s.Settles f)
    (hext : s.Extends s') : s'.Settles f :=
  fun env asg asg' hasg hasg' => h env asg asg' (hasg.of_extends hext) (hasg'.of_extends hext)

theorem Settles.of_factors {α β : Type} {s : Encoding} {f : (Nat → Bool) → α}
    {g : (Nat → Bool) → β} (h : s.Settles f) (hg : Function.FactorsThrough g f) : s.Settles g :=
  fun env asg asg' hasg hasg' => hg (h env asg asg' hasg hasg')

theorem Settles.pair {α β : Type} {s : Encoding} {f : (Nat → Bool) → α} {g : (Nat → Bool) → β}
    (hf : s.Settles f) (hg : s.Settles g) : s.Settles fun asg => (f asg, g asg) :=
  fun env asg asg' hasg hasg' =>
    Prod.ext (hf env asg asg' hasg hasg') (hg env asg asg' hasg hasg')

/-- A word of valid edges represents an expression: environments settle what it spells, and if the
    expression is plain, the word has its width and spells its value in every environment. -/
def Represents (s : Encoding) (w : Word) (e : Expr) : Prop :=
  ∃ n f, s.manager.Spells w n f ∧ s.Settles f ∧
    (e.Plain → n = e.sort.width ∧ ∀ env asg, s.Assigns env asg →
      e.eval (fun id => some (env id)) = pure ⟨f asg, e.sort⟩)

theorem Represents.of_extends {s s' : Encoding} {w : Word} {e : Expr} (h : s.Represents w e)
    (hext : s.Extends s') : s'.Represents w e := by
  obtain ⟨n, f, hw, hsettles, hvalue⟩ := h
  refine ⟨n, f, hw.mono hext.manager, hsettles.of_extends hext, fun hplain => ?_⟩
  exact ⟨(hvalue hplain).1, fun env asg hasg => (hvalue hplain).2 env asg (hasg.of_extends hext)⟩

end Encoding

theorem mem_of_mapM_run {α β : Type} {make : α → Build β} {as : List α} {d : Manager}
    {r : List β × Manager} (h : as.mapM make d = .ok r) :
    ∀ a ∈ as, ∃ d₁ r₁, make a d₁ = .ok r₁ := by
  induction as generalizing d r with
  | nil => simp
  | cons a as ih =>
    rw [List.mapM_cons] at h
    obtain ⟨⟨b, d₁⟩, hmake, h⟩ := exists_ok_of_bind h
    obtain ⟨⟨bs, d₂⟩, hrest, h⟩ := exists_ok_of_bind h
    intro a' ha'
    rcases List.mem_cons.mp ha' with rfl | ha'
    · exact ⟨d, _, hmake⟩
    · exact ih hrest a' ha'

theorem meet_of_amongLiterals_run {w : Word} {s : BitSort} {set : List Int} {d : Manager}
    {r : Word × Manager} (h : amongLiterals w s set d = .ok r) :
    ∀ c ∈ set, s.meet (.ofLiteral c) = .ok (s.common (.ofLiteral c)) := by
  obtain ⟨⟨hits, d₁⟩, hhits, -⟩ := exists_ok_of_bind h
  intro c hc
  obtain ⟨d₂, r₂, hrun⟩ := mem_of_mapM_run hhits c hc
  unfold BitSort.meet
  split
  · rename_i hover
    rw [equalsLiteral, BitSort.meet, if_pos hover] at hrun
    cases hrun
  · rfl

theorem meet_of_circuit_run {op : BinaryOp} {v w : Word} {s t : BitSort} {d : Manager}
    {r : Word × Manager} (h : op.circuit v s w t d = .ok r) : s.meet t = .ok (s.common t) := by
  unfold BitSort.meet
  split
  · rename_i hover
    rw [BinaryOp.circuit, BitSort.meet, if_pos hover] at h
    cases h
  · rfl

/-! ## §2 Encoding -/

namespace Expr

/-- Encoding an expression keeps the invariant and takes the slots that the variables need, and the
    word that it answers represents the expression. -/
def Encodable (e : Expr) : Prop :=
  ∀ s : Encoding, s.WellFormed →
    Encodes e.encode s (e.Plain ∧ HasSlots s.slots e.occurrences) fun w s' =>
      s'.slots = placeAll s.slots e.occurrences ∧ s'.Represents w e

/-- The bits of a variable are read off the diagram variables of its slot. -/
theorem encode_var_spells (id : Nat) (sort : BitSort) {s : Encoding} {safe : Prop}
    (hs : s.WellFormed) (hsafe : safe → s.slots.size < slotLimit ∧ sort.width ≤ 64) :
    Encodes (var id sort).encode s safe fun w s' => s'.slots = place s.slots id ∧
      ∃ slot, s'.slots[id]? = some slot ∧ sort.width ≤ 64 ∧
        s'.manager.Spells w sort.width fun asg =>
          number ((List.range sort.width).map fun bit => asg (bitIndex slot bit)) := by
  unfold encode
  apply (slotOf_encodes hs fun h => (hsafe h).1).bind
  rintro slot s₁ hext₁ hwf₁ ⟨hslots₁, hslot⟩
  have hlt := hwf₁.slots.slot_lt hslot
  -- A slot below the limit has variables for its bits exactly if the width is admissible.
  apply Encodes.ofExcept_bind
    (p := fun vars => sort.width ≤ 64 ∧ vars = (List.range sort.width).map (bitIndex slot))
  · intro h
    rw [bitVariables_eq hlt, if_pos (hsafe h).2]
    exact ⟨_, rfl⟩
  · intro vars hvars
    rw [bitVariables_eq hlt] at hvars
    split at hvars
    · rename_i hwidth
      cases hvars
      exact ⟨hwidth, rfl⟩
    · cases hvars
  rintro _ ⟨hwidth, rfl⟩
  refine (use_encodes hwf₁).bind fun _ s₂ hext₂ hwf₂ hslots₂ => ?_
  have hmake : ∀ v ∈ (List.range sort.width).map (bitIndex slot), ∀ d', s₂.manager.Extends d' →
      d'.WellFormed → Yields (mkVar v) d' fun asg => asg v := by
    intro v hv d' _ hwf
    obtain ⟨bit, -, rfl⟩ := List.mem_map.mp hv
    have hne : bitIndex slot bit ≠ 0 := by
      rw [bitIndex]
      omega
    exact (mkVar_delivers hwf hne).imp fun e d'' _ _ h => ⟨h.1, h.2.2⟩
  have hvars := mapM_delivers (p := fun v asg => asg v) hwf₂.manager hmake
  simp only [List.length_map, List.length_range, List.map_map] at hvars
  apply (hvars.encodes hwf₂).imp
  rintro w s₃ hext₃ hwf₃ ⟨hslots₃, hw⟩
  have hplaced := hslots₃.trans hslots₂
  exact ⟨hplaced.trans hslots₁, slot, hplaced ▸ hslot, hwidth, hw⟩

/-- An assignment gives the diagram variables of a variable the bits of its value. -/
theorem encodable_var (id : Nat) (sort : BitSort) : (var id sort).Encodable := by
  intro s hs
  apply (encode_var_spells id sort hs fun h => ⟨h.2.1, h.1⟩).imp
  rintro w s' hext hwf ⟨hslots, slot, hslot, hwidth, hw⟩
  have hbits : ∀ env asg, s'.Assigns env asg →
      number ((List.range sort.width).map fun bit => asg (bitIndex slot bit)) =
        env id % 2 ^ sort.width := by
    intro env asg hasg
    rw [← number_map_testBit]
    congr 1
    refine List.map_congr_left fun bit hbit => ?_
    have hbit := List.mem_range.mp hbit
    exact hasg id slot bit _ hslot (bitVariable_eq (hwf.slots.slot_lt hslot) (by omega))
  -- Two assignments of the bits to one environment agree on the bits of the slot, so the word is
  -- settled.
  refine ⟨hslots, _, _, hw, fun env asg asg' hasg hasg' => ?_,
    fun _ => ⟨rfl, fun env asg hasg => ?_⟩⟩
  · exact (hbits env asg hasg).trans (hbits env asg' hasg').symm
  · rw [hbits env asg hasg]
    exact congrArg pure (Value.wrap_natCast (by omega) (env id))

theorem encodable_const (bits : Nat) (sort : BitSort) : (const bits sort).Encodable := by
  intro s hs
  have hw := hs.manager.spells_constantWord bits sort.width
  rw [encode_const]
  refine .pure hs ⟨rfl, _, _, hw, fun _ _ _ _ _ => rfl, fun hplain => ⟨rfl, fun env asg _ => ?_⟩⟩
  exact congrArg pure (Value.wrap_natCast hplain bits)

theorem Encodable.unary {arg : Expr} (ih : arg.Encodable) (op : UnaryOp) :
    (Expr.unary op arg).Encodable := by
  intro s hs
  unfold encode
  apply (ih s hs).bind
  rintro a s₁ hext₁ hwf₁ ⟨hslots₁, n, f, ha, hsettles, harg⟩
  -- The circuit works on the word of the operand, which the induction hypothesis spells.
  have hcircuit := op.circuit_delivers (s := arg.sort) hwf₁.manager ha
  apply (hcircuit.encodes hwf₁).imp
  rintro w s₂ hext₂ hwf₂ ⟨hslots₂, k, h, hw, hfactors, hagree⟩
  refine ⟨hslots₂.trans hslots₁, k, h, hw, (hsettles.of_extends hext₂).of_factors hfactors,
    fun hplain => ?_⟩
  obtain ⟨hn, hvalue⟩ := harg hplain
  obtain ⟨hk, hresult⟩ := hagree ⟨hn, Plain.width_le (e := arg) hplain⟩
  -- The sort of the expression and that of the operator are the same, case by case.
  have hsort : (Expr.unary op arg).sort = op.resultSort arg.sort := by cases op <;> rfl
  rw [hsort]
  refine ⟨hk, fun env asg hasg => ?_⟩
  rw [eval_unary (hvalue env asg (hasg.of_extends hext₂))]
  exact congrArg pure (Except.ok.inj (hresult asg))

theorem Encodable.inside {arg : Expr} (ih : arg.Encodable) (set : List Int) :
    (Expr.inside arg set).Encodable := by
  intro s hs
  unfold encode
  apply ((ih s hs).weaken fun h => ⟨h.1.1, h.2⟩).bind
  rintro a s₁ hext₁ hwf₁ ⟨hslots₁, n, f, ha, hsettles, harg⟩
  -- If some literal has no common sort with the operand, nothing is answered.
  apply (build_encodes hwf₁ (fun h c hc => BitSort.meet_eq_ok (h.1.2 c hc))
    (fun r => meet_of_amongLiterals_run) fun hmeet =>
      amongLiterals_delivers hwf₁.manager ha hmeet).imp
  rintro w s₂ hext₂ hwf₂ ⟨hslots₂, k, h, hw, hfactors, hagree⟩
  refine ⟨hslots₂.trans hslots₁, k, h, hw, (hsettles.of_extends hext₂).of_factors hfactors,
    fun hplain => ?_⟩
  obtain ⟨hn, hvalue⟩ := harg hplain.1
  obtain ⟨hk, hresult⟩ := hagree ⟨hn, hplain.2⟩
  refine ⟨hk, fun env asg hasg => ?_⟩
  rw [eval_inside (hvalue env asg (hasg.of_extends hext₂)) (Value.isAmong_eq hplain.2)]
  exact congrArg pure (Except.ok.inj (hresult asg))

theorem Encodable.extend {arg : Expr} (ih : arg.Encodable) (extra : Nat) :
    (Expr.extend arg extra).Encodable := by
  intro s hs
  unfold encode
  apply ((ih s hs).weaken fun h => ⟨h.1.1, h.2⟩).bind
  rintro a s₁ hext₁ hwf₁ ⟨hslots₁, n, f, ha, hsettles, harg⟩
  have hw := ha.resizeWord hwf₁.manager arg.sort.isSigned (Expr.extend arg extra).sort.width
  refine .pure hwf₁ ⟨hslots₁, _, _, hw, hsettles.of_factors fun _ _ hf => by simp only [hf],
    fun hplain => ⟨rfl, fun env asg hasg => ?_⟩⟩
  obtain ⟨hn, hvalue⟩ := harg hplain.1
  have hwide : (Expr.extend arg extra).sort.width ≤ 128 := hplain.2
  rw [eval_extend (hvalue env asg hasg), Value.resize_mk hplain.1.width_le hwide, hn]

theorem Encodable.slice {arg : Expr} (ih : arg.Encodable) (hi lo : Nat) :
    (Expr.slice arg hi lo).Encodable := by
  intro s hs
  unfold encode
  apply ((ih s hs).weaken fun h => ⟨h.1.1, h.2⟩).bind
  rintro a s₁ hext₁ hwf₁ ⟨hslots₁, n, f, ha, hsettles, harg⟩
  split
  · -- The operand has too few bits, which those of a plain expression never have.
    rename_i hlen
    refine .fault rfl fun h => ?_
    obtain ⟨hn, -⟩ := harg h.1.1
    have hhi := h.1.2.2
    rw [ha.length_eq, hn] at hlen
    omega
  · rename_i hlen
    rw [ha.length_eq, not_le] at hlen
    have hw := (ha.take (m := hi + 1) hlen).drop (m := lo)
    refine .pure hwf₁ ⟨hslots₁, _, _, hw, hsettles.of_factors fun _ _ hf => by simp only [hf],
      fun hplain => ?_⟩
    obtain ⟨hn, hvalue⟩ := harg hplain.1
    have hwidth := hplain.1.width_le
    obtain ⟨-, hlo, hhi⟩ := hplain
    have hk : hi + 1 - lo = (Expr.slice arg hi lo).sort.width := by
      simp only [sort, BitSort.width]
      omega
    refine ⟨hk, fun env asg hasg => ?_⟩
    have hpow : 2 ^ (hi + 1) = 2 ^ lo * 2 ^ (Expr.slice arg hi lo).sort.width := by
      rw [← pow_add]
      congr 1
      omega
    rw [eval_slice (hvalue env asg hasg) (by omega), Value.wrap_natCast (by omega),
      Nat.shiftRight_eq_div_pow, hpow, Nat.mod_mul_right_div_self]

theorem Encodable.ite {cond yes no : Expr} (ihc : cond.Encodable) (iht : yes.Encodable)
    (ihe : no.Encodable) : (Expr.ite cond yes no).Encodable := by
  intro s hs
  unfold encode
  refine ((ihc s hs).weaken fun h => ?_).bind ?_
  · rw [occurrences_ite, hasSlots_append, hasSlots_append] at h
    exact ⟨h.1.1, h.2.1.1⟩
  rintro v s₁ hext₁ hwf₁ ⟨hslots₁, l, p, hv, hsettlesc, hcond⟩
  apply ((anyBit_delivers hwf₁.manager hv).encodes hwf₁).bind
  rintro c s₂ hext₂ hwf₂ ⟨hslots₂, hc⟩
  -- Slots for the occurrences that follow are left by the parts that came before.
  refine ((iht s₂ hwf₂).weaken fun h => ?_).bind ?_
  · rw [occurrences_ite, hasSlots_append, hasSlots_append, ← hslots₁, ← hslots₂] at h
    exact ⟨h.1.2.1, h.2.1.2⟩
  rintro a s₃ hext₃ hwf₃ ⟨hslots₃, m, f, ha, hsettlest, hyes⟩
  refine ((ihe s₃ hwf₃).weaken fun h => ?_).bind ?_
  · rw [occurrences_ite, hasSlots_append, placeAll_append, ← hslots₁, ← hslots₂, ← hslots₃] at h
    exact ⟨h.1.2.2.1, h.2.2⟩
  rintro b s₄ hext₄ hwf₄ ⟨hslots₄, n, g, hb, hsettlese, hno⟩
  -- Both branches are encoded, whatever the condition is, and resized to the common sort.
  have hx := (ha.mono hext₄.manager).resizeWord hwf₄.manager yes.sort.isSigned
    (Expr.ite cond yes no).sort.width
  have hy := hb.resizeWord hwf₄.manager no.sort.isSigned (Expr.ite cond yes no).sort.width
  apply ((chooseWord_delivers hwf₄.manager (hc.mono (hext₃.trans hext₄).manager) hx hy).encodes
    hwf₄).imp
  rintro w s₅ hext₅ hwf₅ ⟨hslots₅, hw⟩
  -- From here on the facts about the parts are carried forward to the last state.
  have hext := hext₄.trans hext₅
  refine ⟨?_, _, _, hw, ?_, fun hplain => ⟨rfl, fun env asg hasg => ?_⟩⟩
  · rw [hslots₅, hslots₄, hslots₃, hslots₂, hslots₁, occurrences_ite, placeAll_append,
      placeAll_append]
  · have hc := hsettlesc.of_extends (hext₂.trans (hext₃.trans hext))
    have hte := (hsettlest.of_extends hext).pair (hsettlese.of_extends hext₅)
    refine (hc.pair hte).of_factors fun x y hxy => ?_
    simp only [Prod.mk.injEq] at hxy
    simp only [hxy]
  · obtain ⟨hpc, hpt, hpe, hcommon⟩ := hplain
    obtain ⟨hl, hcond⟩ := hcond hpc
    obtain ⟨hm, hyes⟩ := hyes hpt
    obtain ⟨hn, hno⟩ := hno hpe
    have hvalue := eval_ite
      (hcond env asg (hasg.of_extends (hext₂.trans (hext₃.trans hext))))
      (hyes env asg (hasg.of_extends hext)) (hno env asg (hasg.of_extends hext₅))
    have hwide : (Expr.ite cond yes no).sort.width ≤ 128 := hcommon
    rw [hvalue, hm, hn, Value.isTrue]
    split
    · rw [Value.resize_mk hpt.width_le hwide]
    · rw [Value.resize_mk hpe.width_le hwide]

theorem Encodable.binary {lhs rhs : Expr} (ihl : lhs.Encodable) (ihr : rhs.Encodable)
    (op : BinaryOp) : (Expr.binary op lhs rhs).Encodable := by
  intro s hs
  unfold encode
  refine ((ihl s hs).weaken fun h => ?_).bind ?_
  · rw [occurrences_binary, hasSlots_append] at h
    exact ⟨h.1.1, h.2.1⟩
  rintro a s₁ hext₁ hwf₁ ⟨hslots₁, m, f, ha, hsettlesl, hleft⟩
  refine ((ihr s₁ hwf₁).weaken fun h => ?_).bind ?_
  · rw [occurrences_binary, hasSlots_append, ← hslots₁] at h
    exact ⟨h.1.2.1, h.2.2⟩
  rintro b s₂ hext₂ hwf₂ ⟨hslots₂, n, g, hb, hsettlesr, hright⟩
  -- The left word stays what it is while the right operand is encoded.
  apply (build_encodes hwf₂ (fun h => BitSort.meet_eq_ok h.1.narrow.common_le)
    (fun r => meet_of_circuit_run) fun hmeet =>
      op.circuit_delivers hwf₂.manager (ha.mono hext₂.manager) hb hmeet).imp
  rintro w s₃ hext₃ hwf₃ ⟨hslots₃, k, h, hw, hfactors, hagree⟩
  -- The word is settled because it is a function of the two words of the operands.
  have hsettles := (hsettlesl.of_extends (hext₂.trans hext₃)).pair (hsettlesr.of_extends hext₃)
  refine ⟨?_, k, h, hw, hsettles.of_factors hfactors, fun hplain => ?_⟩
  · rw [hslots₃, hslots₂, hslots₁, occurrences_binary, placeAll_append]
  · obtain ⟨hl, hr, hnarrow⟩ := hplain
    obtain ⟨hm, hleft⟩ := hleft hl
    obtain ⟨hn, hright⟩ := hright hr
    obtain ⟨hk, hresult⟩ := hagree ⟨hm, hn, hnarrow⟩
    refine ⟨hk, fun env asg hasg => ?_⟩
    have ha := hleft env asg (hasg.of_extends (hext₂.trans hext₃))
    have hb := hright env asg (hasg.of_extends hext₃)
    exact eval_binary ha hb (hresult asg)

/-- Every expression is encodable; those that need a vector are refused. -/
theorem encodable (e : Expr) : e.Encodable := by
  induction e with
  | var id sort => exact encodable_var id sort
  | const bits sort => exact encodable_const bits sort
  | unary op arg ih => exact ih.unary op
  | inside arg set ih => exact ih.inside set
  | extend arg extra ih => exact ih.extend extra
  | slice arg hi lo ih => exact ih.slice hi lo
  | ite cond yes no ihc iht ihe => exact ihc.ite iht ihe
  | binary op lhs rhs ihl ihr => exact ihl.binary ihr op
  -- No node that is left is plain, and none of them has a circuit.
  | _ => exact fun s hs => .throw hs fun h => h.1

end Expr

/-! ## §3 Runs -/

namespace Encoding

/-- The encodings that clients reach.  They start without a variable over a manager that may have
    been used before, and encode expressions or ask the manager for something else in between. -/
inductive Reached : Encoding → Prop where
  | fresh {d : Manager} {es : List Edge} (hd : d.Reached es) : Reached ⟨d, ∅, ∅⟩
  | encode {s s' : Encoding} {e : Expr} {r : Except Refusal Word} (hs : Reached s)
      (hrun : e.encode s = .ok (r, s')) : Reached s'
  | encodeTruth {s s' : Encoding} {e : Expr} {r : Except Refusal Edge} (hs : Reached s)
      (hrun : e.encodeTruth s = .ok (r, s')) : Reached s'
  | operate {s : Encoding} {op : Operation} {e : Edge} {d : Manager} (hs : Reached s)
      (hops : ∀ f ∈ op.operands, s.manager.Valid f) (hord : op.Ordered s.manager)
      (hrun : op.run s.manager = .ok (e, d)) : Reached ⟨d, s.slots, s.domain⟩

end Encoding

/-- The truth of an expression is whether its word spells a number other than zero. -/
theorem Expr.encodeTruth_encodes (e : Expr) {s : Encoding} (hs : s.WellFormed) :
    Encodes e.encodeTruth s (e.Plain ∧ HasSlots s.slots e.occurrences) fun r s' =>
      ∃ p, s'.manager.Denotes r p ∧ s'.Settles p ∧ (e.Plain → ∀ env asg, s'.Assigns env asg →
        ∃ v, e.eval (fun id => some (env id)) = pure v ∧ p asg = v.isTrue) := by
  unfold encodeTruth
  apply (e.encodable s hs).bind
  rintro w s₁ hext₁ hwf₁ ⟨_, n, f, hw, hsettles, hvalue⟩
  refine ((anyBit_delivers hwf₁.manager hw).encodes hwf₁).imp
    fun r s₂ hext₂ hwf₂ ⟨_, hr⟩ => ⟨_, hr, ?_, fun hplain env asg hasg => ?_⟩
  · exact (hsettles.of_extends hext₂).of_factors fun _ _ hf => by simp only [hf]
  -- A number is zero exactly if none of its bits is set.
  exact ⟨_, (hvalue hplain).2 env asg (hasg.of_extends hext₂), rfl⟩

namespace Encoding

theorem Reached.wellFormed {s : Encoding} (h : s.Reached) : s.WellFormed := by
  induction h with
  | fresh hd => exact ⟨hd.wellFormed, allocated_empty⟩
  | encode hs hrun ih => exact ((Expr.encodable _ _ ih).keeps _ _ hrun).2.1
  | encodeTruth hs hrun ih => exact ((Expr.encodeTruth_encodes _ ih).keeps _ _ hrun).2.1
  | operate hs hops hord hrun ih =>
    have hpos := Operation.positive_of_run hrun
    exact ⟨((Operation.run_delivers ih.manager hops hord hpos).of_run hrun).2.1, ih.slots⟩

/-- An encoding has edges for the indices that a signed 32-bit number can hold. -/
theorem Reached.limit_eq {s : Encoding} (h : s.Reached) : s.manager.limit = Edge.indexLimit := by
  induction h with
  | fresh hd => exact hd.limit_eq
  | encode hs hrun ih => exact ((Expr.encodable _ _ hs.wellFormed).limit_eq _ _ hrun).trans ih
  | encodeTruth hs hrun ih =>
    exact ((Expr.encodeTruth_encodes _ hs.wellFormed).limit_eq _ _ hrun).trans ih
  | operate hs hops hord hrun ih =>
    have hdelivers := Operation.run_delivers hs.wellFormed.manager hops hord
      (Operation.positive_of_run hrun)
    exact (hdelivers.limit_eq hrun).trans ih

end Encoding

/-! ## §4 What a client relies on -/

namespace Encoding

/-- A word is faithful to an expression: whichever assignment gives the bits of the variables to
    their diagram variables, the word has the bits of the value of the expression. -/
structure Faithful (s : Encoding) (w : Word) (e : Expr) : Prop where
  length_eq : w.length = e.sort.width
  bit_eq : ∀ env asg v, s.Assigns env asg → e.eval (fun id => some (env id)) = pure v →
    ∀ i (hi : i < w.length), s.manager.value asg w[i] = v.bits.testBit i

/-- An edge is faithful to the truth of an expression. -/
def FaithfulTruth (s : Encoding) (r : Edge) (e : Expr) : Prop :=
  ∀ env asg v, s.Assigns env asg → e.eval (fun id => some (env id)) = pure v →
    s.manager.value asg r = v.isTrue

/-- The diagram variables of an encoding can spell every environment, and do so apart. -/
structure Spelling (s : Encoding) : Prop where
  separated : s.Separated
  exists_assigns : ∀ env, ∃ asg, s.Assigns env asg

theorem WellFormed.spelling {s : Encoding} (hs : s.WellFormed) : s.Spelling :=
  ⟨hs.separated, hs.exists_assigns⟩

theorem Represents.faithful {s : Encoding} {w : Word} {e : Expr} (h : s.Represents w e)
    (he : e.Plain) : s.Faithful w e := by
  obtain ⟨n, f, hw, -, hvalue⟩ := h
  obtain ⟨hn, hvalue⟩ := hvalue he
  refine ⟨hw.length_eq.trans hn, fun env asg v hasg hv i hi => ?_⟩
  rw [hvalue env asg hasg] at hv
  have hv := Option.some.inj (Except.ok.inj hv)
  rw [← hv, hw.value_getElem asg hi]

end Encoding

/-- Encoding agrees with evaluation.  The bound of the manager is the one of signed 32-bit edges, so
    with this bound the word is returned unless the nodes that are stored need more edges. -/
theorem encode_agrees_of_reached {s : Encoding} (hs : s.Reached) {e : Expr} (he : e.Plain)
    (hslots : HasSlots s.slots e.occurrences) :
    s.withLimit Edge.indexLimit = s ∧
    (∀ env : Nat → Nat, ∃ v, e.eval (fun id => some (env id)) = pure v ∧ v.Fits e.sort) ∧
    (∃ w s', Encoding.Returns e.encode s w s' ∧ ∀ limit, s'.manager.nodeCount < limit →
      (s'.withLimit limit).Spelling ∧ (s'.withLimit limit).Faithful w e) ∧
    (∃ r s', Encoding.Returns e.encodeTruth s r s' ∧ ∀ limit, s'.manager.nodeCount < limit →
      (s'.withLimit limit).Spelling ∧ (s'.withLimit limit).FaithfulTruth r e) := by
  have hwf := hs.wellFormed
  -- What is spelled does not depend on how many edges there may be, so each part holds for every
  -- limit that leaves room.
  refine ⟨hs.limit_eq ▸ rfl, he.exists_eval, ?_, ?_⟩
  · obtain ⟨w, s', hreturns, -, hwf', ⟨-, hw⟩, -⟩ := (e.encodable s hwf).answers ⟨he, hslots⟩
    refine ⟨w, s', hreturns, fun limit hlimit => ⟨(hwf'.withLimit hlimit).spelling, ?_⟩⟩
    exact (hw.of_extends (s'.extends_withLimit limit)).faithful he
  · obtain ⟨r, s', hreturns, -, hwf', ⟨p, hp, -, hvalue⟩, -⟩ :=
      (e.encodeTruth_encodes hwf).answers ⟨he, hslots⟩
    refine ⟨r, s', hreturns, fun limit hlimit => ⟨(hwf'.withLimit hlimit).spelling, ?_⟩⟩
    intro env asg v hasg hv
    obtain ⟨v', hv', hp'⟩ := hvalue he env asg hasg
    rw [hv] at hv'
    rw [(hp.mono (s'.extends_withLimit limit).manager).value_eq, hp',
      Option.some.inj (Except.ok.inj hv')]

/-- A signed variable divided by an unsigned one, encoded over a manager that has been used. -/
theorem encode_agrees_of_division : ∃ (d : Manager) (s s' : Encoding),
    d.Reached [⟨4⟩, ⟨3⟩, ⟨2⟩, .one, .zero] ∧
    let e : Expr := .binary .div (.var 7 (.signed 1)) (.var 3 (.unsigned 1))
    e.encode ⟨d, ∅, ∅⟩ = .ok (.ok [⟨8⟩, ⟨7⟩], s) ∧ s.Spelling ∧ s.Faithful [⟨8⟩, ⟨7⟩] e ∧
      e.encodeTruth ⟨d, ∅, ∅⟩ = .ok (.ok ⟨8⟩, s') ∧ s'.Spelling ∧ s'.FaithfulTruth ⟨8⟩ e := by
  let e : Expr := .binary .div (.var 7 (.signed 1)) (.var 3 (.unsigned 1))
  obtain ⟨d, hd, hrun⟩ := Manager.exists_reached_of_run
    (fun d => do
      let word ← (e.encode ⟨d, ∅, ∅⟩).map Prod.fst
      let truth ← (e.encodeTruth ⟨d, ∅, ∅⟩).map Prod.fst
      return (word.toOption, truth.toOption))
    (a := (some [⟨8⟩, ⟨7⟩], some ⟨8⟩)) (by decide +kernel)
  obtain ⟨word, hword, hrun⟩ := exists_ok_of_bind hrun
  obtain ⟨truth, htruth, hrun⟩ := exists_ok_of_bind hrun
  -- Two new variables fit into an empty table.
  have hslots : HasSlots ∅ [7, 3] := hasSlots_of_le (by decide)
  have hroom := hd.wellFormed.nodeCount_lt
  obtain ⟨-, -, ⟨w, s, hreturns, hw⟩, ⟨r, s', hreturns', hr⟩⟩ :=
    encode_agrees_of_reached (.fresh hd) (e := e) (by decide) hslots
  -- Both runs have ended, so their answers are those of the theorem.
  obtain ⟨rfl, hlt, hok⟩ := hreturns.of_run hroom hword
  obtain ⟨rfl, hlt', hok'⟩ := hreturns'.of_run hroom htruth
  cases hrun
  exact ⟨d, _, _, hd, hok, (hw _ hlt).1, (hw _ hlt).2, hok', (hr _ hlt').1, (hr _ hlt').2⟩

end Stimulus
