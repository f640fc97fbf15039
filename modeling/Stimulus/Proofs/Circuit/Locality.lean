import Mathlib.Logic.Function.DependsOn
import Stimulus.Proofs.Circuit.Usage
import Stimulus.Proofs.Diagram.Support

/-!
# Circuits are about the variables of their expressions

An expression is worth the same in all environments that agree on its support.  Its circuit tests
nothing but bits of variables in the support, whatever else the manager holds and whichever answers
the computed table remembers, and all of these bits are in use.  So constraints that share no
variable can be solved apart, and models can be counted over the variables in use.

The circuits are not followed node by node.  An operator computes a function of the words of its
operands, and this settles what the word of an expression depends on.  The nodes do not matter,
because a reduced diagram tests a variable only if its function depends on it.

Main definitions:
- `Encoding.bitsOf`: the diagram variables that hold the bits of an expression
- `Encoding.Confined`: a word that depends on these bits alone
- `Expr.Confines`: encoding the expression answers such a word
- `Encoding.Local`: an edge that tests nothing else

Main statements:
- `Expr.confines`
- `Encoding.Confined.mem_bitsOf`
- `local_of_reached`
-/

namespace Stimulus

/-! ## §1 Functions of some variables -/

section

variable {α β : Type} {f : (Nat → Bool) → α} {g : (Nat → Bool) → β} {vars : Set Nat}

/-- What is computed from a result depends on no more variables than the result. -/
theorem dependsOn_of_factors (hf : DependsOn f vars) (hg : Function.FactorsThrough g f) :
    DependsOn g vars := by
  intro asg asg' hsame
  exact hg (hf hsame)

theorem dependsOn_pair (hf : DependsOn f vars) (hg : DependsOn g vars) :
    DependsOn (fun asg => (f asg, g asg)) vars := by
  intro asg asg' hsame
  exact Prod.ext (hf hsame) (hg hsame)

/-- A function depends on every variable that makes a difference to it. -/
theorem mem_of_update_ne (hf : DependsOn f vars) {asg : Nat → Bool} {v : Nat} {b : Bool}
    (hne : f (Function.update asg v b) ≠ f asg) : v ∈ vars := by
  by_contra hout
  apply hne
  apply hf
  intro w hw
  have hother : w ≠ v := fun h => hout (h ▸ hw)
  exact Function.update_of_ne hother b asg

end

/-! ## §2 The bits of an expression -/

namespace Encoding

section

variable {s s' : Encoding} {e e' : Expr} {w : Word} {f : Edge} {v : Nat}

/-- The diagram variables that hold the bits of the variables that occur in the expression. -/
def bitsOf (s : Encoding) (e : Expr) : Set Nat :=
  {v | ∃ id sort slot bit, e.Mentions id sort ∧ s.slots[id]? = some slot ∧ bit < sort.width ∧
    v = bitIndex slot bit}

/-- Slots are kept, so the bits of an operand stay bits of the expression. -/
theorem bitsOf_mono (hext : s.Extends s')
    (hsub : ∀ id sort, e.Mentions id sort → e'.Mentions id sort) : s.bitsOf e ⊆ s'.bitsOf e' := by
  intro v hv
  obtain ⟨id, sort, slot, bit, hmention, hslot, hbit, rfl⟩ := hv
  exact ⟨id, sort, slot, bit, hsub id sort hmention, hext.slots id slot hslot, hbit, rfl⟩

/-- Once an expression is encoded, its bits are in use. -/
theorem CarriesAll.mem_domain (h : s.CarriesAll e) (hv : v ∈ s.bitsOf e) : v ∈ s.domain := by
  obtain ⟨id, sort, slot, bit, hmention, hslot, hbit, rfl⟩ := hv
  obtain ⟨-, slot', hslot', hbits⟩ := h id sort hmention
  obtain rfl : slot = slot' := Option.some.inj (hslot.symm.trans hslot')
  exact hbits bit hbit

/-- The word spells a number that depends on the bits of the expression alone. -/
def Confined (s : Encoding) (w : Word) (e : Expr) : Prop :=
  ∃ n g, s.manager.Spells w n g ∧ DependsOn g (s.bitsOf e)

/-- What is computed from an operand is confined to the expression that it is an operand of. -/
theorem confined_of_operand {k : Nat} {g h : (Nat → Bool) → Nat}
    (hoperand : DependsOn g (s.bitsOf e)) (hext : s.Extends s')
    (hsub : ∀ id sort, e.Mentions id sort → e'.Mentions id sort)
    (hw : s'.manager.Spells w k h) (hfactors : Function.FactorsThrough h g) : s'.Confined w e' :=
  ⟨k, h, hw, dependsOn_of_factors (hoperand.mono (bitsOf_mono hext hsub)) hfactors⟩

/-- An edge of a confined word tests bits of the expression alone: it is a bit of the number, and
    what it tests makes a difference to it. -/
theorem Confined.mem_bitsOf (h : s.Confined w e) (hs : s.WellFormed) (hf : f ∈ w)
    (hv : s.manager.TestedBelow f v) : v ∈ s.bitsOf e := by
  obtain ⟨n, g, hw, hg⟩ := h
  obtain ⟨asg, b, hne⟩ := hs.manager.dependsOn_of_testedBelow (hw.valid f hf) hv
  obtain ⟨i, hi, rfl⟩ := List.getElem_of_mem hf
  rw [hw.value_getElem _ hi, hw.value_getElem _ hi] at hne
  exact mem_of_update_ne hg fun hsame => hne (by rw [hsame])

/-- The edge tests nothing but bits in use of the variables that the expression is about. -/
def Local (s : Encoding) (f : Edge) (e : Expr) : Prop :=
  ∀ v, s.manager.TestedBelow f v → v ∈ s.domainList ∧
    ∃ id ∈ e.support, ∃ slot bit, s.slots[id]? = some slot ∧ bitVariable slot bit = .ok v

theorem Confined.isLocal (h : s.Confined w e) (hs : s.WellFormed) (hcarries : s.CarriesAll e)
    (hf : f ∈ w) : s.Local f e := by
  intro v hv
  have hbit := h.mem_bitsOf hs hf hv
  refine ⟨mem_domainList.mpr (hcarries.mem_domain hbit), ?_⟩
  obtain ⟨id, sort, slot, bit, hmention, hslot, hlt, rfl⟩ := hbit
  have hwidth := (hcarries id sort hmention).1
  exact ⟨id, hmention.mem_support, slot, bit, hslot,
    bitVariable_eq (hs.slots.slot_lt hslot) (hlt.trans_le hwidth)⟩

end

end Encoding

/-! ## §3 Encoding expressions -/

namespace Expr

open Encoding (confined_of_operand bitsOf_mono)

/-- Whatever is encoded for the expression is confined to its own bits.  The safety of the run does
    not matter here, so the laws of circuits are used without it. -/
def Confines (e : Expr) : Prop :=
  ∀ s : Encoding, s.WellFormed → Encodes e.encode s False fun w s' => s'.Confined w e

section

variable {arg cond yes no lhs rhs : Expr}

theorem confines_var (id : Nat) (sort : BitSort) : (var id sort).Confines := by
  intro s hs
  -- No run is claimed to end here, so there need not be a slot left.
  apply (encode_var_spells id sort hs nofun).imp
  intro w s₁ _ _ hrun
  obtain ⟨-, slot, hslot, -, hw⟩ := hrun
  refine ⟨_, _, hw, fun asg asg' hsame => ?_⟩
  -- The word lists the values of the bits of the variable.
  apply congrArg number
  apply List.map_congr_left
  intro bit hbit
  exact hsame _ ⟨id, sort, slot, bit, mentions_var.mpr ⟨rfl, rfl⟩, hslot, List.mem_range.mp hbit,
    rfl⟩

theorem confines_const (bits : Nat) (sort : BitSort) : (const bits sort).Confines := by
  intro s hs
  have hw := hs.manager.spells_constantWord bits sort.width
  rw [encode_const]
  exact .pure hs ⟨_, _, hw, fun _ _ _ => rfl⟩

theorem Confines.unary (ih : arg.Confines) (op : UnaryOp) : (Expr.unary op arg).Confines := by
  intro s hs
  apply (ih s hs).bind
  intro a s₁ _ hwf₁ harg
  obtain ⟨n, f, ha, hf⟩ := harg
  -- The number of the result is a function of the number of the operand.
  apply ((op.circuit_delivers (s := arg.sort) hwf₁.manager ha).encodes hwf₁).imp
  intro w s₂ hext _ hrun
  obtain ⟨-, k, h, hw, hfactors, -⟩ := hrun
  exact confined_of_operand hf hext (fun _ _ => mentions_unary.mpr) hw hfactors

theorem Confines.inside (ih : arg.Confines) (set : List Int) : (Expr.inside arg set).Confines := by
  intro s hs
  apply (ih s hs).bind
  intro a s₁ _ hwf₁ harg
  obtain ⟨n, f, ha, hf⟩ := harg
  -- Without a common sort for some literal there is no run to speak of.
  apply (build_encodes hwf₁ nofun (fun r => meet_of_amongLiterals_run) fun hmeet =>
    amongLiterals_delivers hwf₁.manager ha hmeet).imp
  intro w s₂ hext _ hrun
  obtain ⟨-, k, h, hw, hfactors, -⟩ := hrun
  exact confined_of_operand hf hext (fun _ _ => mentions_inside.mpr) hw hfactors

theorem Confines.extend (ih : arg.Confines) (extra : Nat) : (Expr.extend arg extra).Confines := by
  intro s hs
  apply (ih s hs).bind
  intro a s₁ _ hwf₁ harg
  obtain ⟨n, f, ha, hf⟩ := harg
  -- Widening repeats edges of the operand and makes no node.
  have hw := ha.resizeWord hwf₁.manager arg.sort.isSigned (Expr.extend arg extra).sort.width
  exact .pure hwf₁ (confined_of_operand hf (.refl s₁) (fun _ _ => mentions_extend.mpr) hw
    fun x y hxy => by simp only [hxy])

theorem Confines.slice (ih : arg.Confines) (hi lo : Nat) : (Expr.slice arg hi lo).Confines := by
  intro s hs
  apply (ih s hs).bind
  intro a s₁ _ hwf₁ harg
  obtain ⟨n, f, ha, hf⟩ := harg
  split
  · -- A slice that goes beyond the word has no edges to answer.
    exact .fault rfl id
  · rename_i hlen
    rw [ha.length_eq, not_le] at hlen
    have hw := (ha.take (m := hi + 1) hlen).drop (m := lo)
    -- A slice of a word is a function of its number.
    exact .pure hwf₁ (confined_of_operand hf (.refl s₁) (fun _ _ => mentions_slice.mpr) hw
      fun x y hxy => by simp only [hxy])

theorem Confines.ite (ihc : cond.Confines) (iht : yes.Confines) (ihe : no.Confines) :
    (Expr.ite cond yes no).Confines := by
  intro s hs
  apply (ihc s hs).bind
  intro v s₁ _ hwf₁ hcond
  obtain ⟨l, p, hv, hp⟩ := hcond
  apply ((anyBit_delivers hwf₁.manager hv).encodes hwf₁).bind
  intro c s₂ hext₂ hwf₂ hrun
  obtain ⟨-, hc⟩ := hrun
  apply (iht s₂ hwf₂).bind
  intro a s₃ hext₃ hwf₃ hyes
  obtain ⟨m, f, ha, hf⟩ := hyes
  apply (ihe s₃ hwf₃).bind
  intro b s₄ hext₄ hwf₄ hno
  obtain ⟨n, g, hb, hg⟩ := hno
  have hx := (ha.mono hext₄.manager).resizeWord hwf₄.manager yes.sort.isSigned
    (Expr.ite cond yes no).sort.width
  have hy := hb.resizeWord hwf₄.manager no.sort.isSigned (Expr.ite cond yes no).sort.width
  apply ((chooseWord_delivers hwf₄.manager (hc.mono (hext₃.trans hext₄).manager) hx hy).encodes
    hwf₄).imp
  intro w s₅ hext₅ _ hrun
  obtain ⟨-, hw⟩ := hrun
  -- Both branches are encoded, so the word depends on all three operands.
  have hp : DependsOn p (s₅.bitsOf (.ite cond yes no)) :=
    hp.mono (bitsOf_mono (hext₂.trans (hext₃.trans (hext₄.trans hext₅)))
      fun _ _ h => mentions_ite.mpr (.inl h))
  have hf : DependsOn f (s₅.bitsOf (.ite cond yes no)) :=
    hf.mono (bitsOf_mono (hext₄.trans hext₅) fun _ _ h => mentions_ite.mpr (.inr (.inl h)))
  have hg : DependsOn g (s₅.bitsOf (.ite cond yes no)) :=
    hg.mono (bitsOf_mono hext₅ fun _ _ h => mentions_ite.mpr (.inr (.inr h)))
  refine ⟨_, _, hw, dependsOn_of_factors (dependsOn_pair hp (dependsOn_pair hf hg)) ?_⟩
  intro x y hxy
  simp only [Prod.mk.injEq] at hxy
  simp only [hxy]

theorem Confines.binary (ihl : lhs.Confines) (ihr : rhs.Confines) (op : BinaryOp) :
    (Expr.binary op lhs rhs).Confines := by
  intro s hs
  apply (ihl s hs).bind
  intro a s₁ _ hwf₁ hleft
  obtain ⟨m, f, ha, hf⟩ := hleft
  apply (ihr s₁ hwf₁).bind
  intro b s₂ hext₂ hwf₂ hright
  obtain ⟨n, g, hb, hg⟩ := hright
  apply (build_encodes hwf₂ nofun (fun r => meet_of_circuit_run) fun hmeet =>
    op.circuit_delivers hwf₂.manager (ha.mono hext₂.manager) hb hmeet).imp
  intro w s₃ hext₃ _ hrun
  obtain ⟨-, k, h, hw, hfactors, -⟩ := hrun
  -- The operands are parts of the expression, so their bits are among its bits.
  have hf : DependsOn f (s₃.bitsOf (.binary op lhs rhs)) :=
    hf.mono (bitsOf_mono (hext₂.trans hext₃) fun _ _ h => mentions_binary.mpr (.inl h))
  have hg : DependsOn g (s₃.bitsOf (.binary op lhs rhs)) :=
    hg.mono (bitsOf_mono hext₃ fun _ _ h => mentions_binary.mpr (.inr h))
  exact ⟨k, h, hw, dependsOn_of_factors (dependsOn_pair hf hg) hfactors⟩

end

/-- Every expression confines its word.  Vectors and what is asked of their elements have none. -/
theorem confines (e : Expr) : e.Confines := by
  induction e with
  | var id sort => exact confines_var id sort
  | const bits sort => exact confines_const bits sort
  | unary op arg ih => exact ih.unary op
  | inside arg set ih => exact ih.inside set
  | extend arg extra ih => exact ih.extend extra
  | slice arg hi lo ih => exact ih.slice hi lo
  | ite cond yes no ihc iht ihe => exact ihc.ite iht ihe
  | binary op lhs rhs ihl ihr => exact ihl.binary ihr op
  -- Nothing else is encoded.
  | _ => exact fun s hs => .throw hs id

end Expr

section

variable {s : Encoding}

/-- The truth of an expression is a word of one bit, which is confined as well. -/
theorem encodeTruth_confined (e : Expr) (hs : s.WellFormed) :
    Encodes e.encodeTruth s False fun f s' => s'.Confined [f] e := by
  apply (e.confines s hs).bind
  intro w s₁ _ hwf₁ hbits
  obtain ⟨n, g, hw, hg⟩ := hbits
  apply ((anyBit_delivers hwf₁.manager hw).encodes hwf₁).imp
  intro f s₂ hext _ hrun
  obtain ⟨-, hf⟩ := hrun
  exact Encoding.confined_of_operand hg hext (fun _ _ h => h) (spells_truth hf) fun x y hxy => by
    simp only [hxy]

end

/-! ## §4 Locality -/

/-- An expression has the same value, or none for the same reason, in all environments that agree
    on its support; and in every encoding that clients reach, whatever edges are answered for its
    bits or for its truth test nothing but bits of variables in its support, which are all in use
    from then on. -/
theorem local_of_reached (e : Expr) :
    (∀ env env' : Nat → Option Nat, (∀ id ∈ e.support, env id = env' id) →
      e.eval env = e.eval env') ∧
    ∀ s : Encoding, s.Reached →
      (∀ w s', e.encode s = .ok (.ok w, s') → ∀ f ∈ w, s'.Local f e) ∧
      ∀ f s', e.encodeTruth s = .ok (.ok f, s') → s'.Local f e := by
  refine ⟨fun env env' h => Expr.eval_congr_of_support h, fun s hs => ⟨?bits, ?truth⟩⟩
  -- The word depends on bits of mentioned variables, and these are in use after the run.
  case bits =>
    intro w s' hrun f hf
    obtain ⟨-, hwf, hconfined⟩ := (e.confines s hs.wellFormed).keeps _ _ hrun
    have hcarries := ((encode_carries e s).of_run hrun).2
    exact (hconfined w rfl).isLocal hwf hcarries hf
  case truth =>
    intro f s' hrun
    obtain ⟨-, hwf, hconfined⟩ := (encodeTruth_confined e hs.wellFormed).keeps _ _ hrun
    have hcarries := ((e.encodeTruth_carries s).of_run hrun).2
    exact (hconfined f rfl).isLocal hwf hcarries (List.mem_singleton.mpr rfl)

/-- The comparison of two flags, where another flag has been encoded before: its bit is in use, but
    the comparison does not test it. -/
theorem local_of_difference : ∃ (s s' : Encoding) (f : Edge), s.Reached ∧
    let e : Expr := .binary .notEqual (.var 7 .bool) (.var 9 .bool)
    e.encodeTruth s = .ok (.ok f, s') ∧ s'.domainList = [4128769, 4128770, 4128771] ∧
      s'.manager.support f = .ok [4128770, 4128771] ∧ s'.Local f e ∧
      e.eval (fun id => if id = 7 then some 1 else none) =
        e.eval fun id => if id = 9 then none else some 1 := by
  let e : Expr := .binary .notEqual (.var 7 .bool) (.var 9 .bool)
  obtain ⟨d, hd, htest⟩ := exists_of_toOption_any (x := Manager.empty 0) (p := fun d =>
    (granted? ((Expr.var 3 .bool).encode ⟨d, ∅, ∅⟩)).any fun (_, s) =>
    (granted? (e.encodeTruth s)).any fun (f, s') =>
      decide (s'.domainList = [4128769, 4128770, 4128771]) &&
      decide (s'.manager.support f = .ok [4128770, 4128771])) (by decide +kernel)
  obtain ⟨_, s, hs, htest⟩ := exists_of_granted?_any htest
  obtain ⟨f, s', hs', htest⟩ := exists_of_granted?_any htest
  obtain ⟨hdomain, hsupport⟩ := (Bool.and_eq_true _ _).mp htest
  have hfresh : d.Reached [.one, .zero] := ⟨0, d, hd, .refl⟩
  have hreached : s.Reached := .encode (.fresh hfresh) hs
  obtain ⟨heval, hlocal⟩ := local_of_reached e
  refine ⟨s, s', f, hreached, hs', of_decide_eq_true hdomain, of_decide_eq_true hsupport,
    (hlocal s hreached).2 f s' hs', heval _ _ fun id hid => ?_⟩
  -- The environments differ at every variable but those two.
  have hmem : 7 = id ∨ 9 = id := by
    simpa [e, Expr.mem_support, Expr.occurrences, Expr.preorder, Expr.supportId?] using hid
  rcases hmem with rfl | rfl <;> rfl

end Stimulus
