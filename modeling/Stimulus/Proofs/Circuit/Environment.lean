import Stimulus.Proofs.Circuit.Capture

/-!
# Edges as properties of environments

An edge that an encoding makes is true or false of an environment, however the environment is
spelled.  The slots of the encoding and the order in which they were given do not matter.  No
signature is needed for this: it holds for every constraint that has a circuit, plain or not, and
only a constraint that needs a vector is refused.

Main definitions:
- `Demand`, `Encoding.Means`: the property of environments that an edge stands for
- `Refusal.Unsupported`

Main statements:
- `Encoding.Means.eq_zero_iff`
- `Encoding.conj_means`, `Encoding.conjAll_means`
- `Expr.encodeTruth_means`, `Expr.encodeTruth_equalTo_means`
-/

namespace Stimulus

/-! ## §1 What edges mean -/

/-- A property of environments. -/
abbrev Demand : Type := (Nat → Nat) → Prop

namespace Encoding

section

variable {s s' : Encoding} {f g : Edge} {P Q : Demand}

/-- The edge is true under exactly those assignments that spell an environment with the property. -/
structure Means (s : Encoding) (f : Edge) (P : Demand) : Prop where
  valid : s.manager.Valid f
  value_iff : ∀ env asg, s.Assigns env asg → (s.manager.value asg f = true ↔ P env)

theorem Means.mono (h : s.Means f P) (hext : s.Extends s') : s'.Means f P where
  valid := hext.manager.valid h.valid
  value_iff env asg hasg := by
    rw [hext.manager.value_eq h.valid, h.value_iff env asg (hasg.of_extends hext)]

theorem Means.congr (h : s.Means f P) (hsame : ∀ env, P env ↔ Q env) : s.Means f Q :=
  ⟨h.valid, fun env asg hasg => (h.value_iff env asg hasg).trans (hsame env)⟩

theorem means_one (hs : s.WellFormed) : s.Means .one fun _ => True where
  valid := hs.manager.valid_one
  value_iff env asg _ := by simp

/-- Only falsehood has no environment. -/
theorem Means.eq_zero_iff (h : s.Means f P) (hs : s.WellFormed) : f = .zero ↔ ¬ ∃ env, P env :=
  hs.eq_zero_iff h.valid h.value_iff

/-- A function that environments settle is a property of environments. -/
theorem Settles.means {p : (Nat → Bool) → Bool} (hp : s.Settles p) (hf : s.manager.Denotes f p) :
    s.Means f fun env => ∃ asg, s.Assigns env asg ∧ p asg = true where
  valid := hf.valid
  value_iff env asg hasg := by
    rw [hf.value_eq]
    constructor
    · intro htrue
      exact ⟨asg, hasg, htrue⟩
    · rintro ⟨asg', hasg', htrue⟩
      -- Another assignment of the same environment has the same outcome.
      rw [hp env asg asg' hasg hasg', htrue]

theorem conj_means (hs : s.WellFormed) (hf : s.Means f P) (hg : s.Means g Q) :
    Delivers (conj f g) s.manager fun h d =>
      (s.withManager d).Means h fun env => P env ∧ Q env := by
  apply (conj_delivers hs.manager hf.valid.denotes hg.valid.denotes).imp
  intro h d _ _ hh
  refine ⟨hh.valid, fun env asg hasg => ?_⟩
  have hleft := hf.value_iff env asg hasg
  have hright := hg.value_iff env asg hasg
  show d.value asg h = true ↔ _
  rw [hh.value_eq, Bool.and_eq_true, hleft, hright]

/-- Edges for all properties of a list. -/
abbrev MeansEach (s : Encoding) : List Edge → List Demand → Prop :=
  List.Forall₂ s.Means

theorem MeansEach.mono {fs : List Edge} {Ps : List Demand} (h : s.MeansEach fs Ps)
    (hext : s.Extends s') : s'.MeansEach fs Ps :=
  List.Forall₂.imp (fun _ _ hf => hf.mono hext) h

theorem MeansEach.valid {fs : List Edge} {Ps : List Demand} (h : s.MeansEach fs Ps) :
    ∀ f ∈ fs, s.manager.Valid f := by
  induction h with
  | nil => simp
  | cons hf _ ih => exact List.forall_mem_cons.mpr ⟨hf.valid, ih⟩

theorem MeansEach.all_iff {fs : List Edge} {Ps : List Demand} (h : s.MeansEach fs Ps)
    {env : Nat → Nat} {asg : Nat → Bool} (hasg : s.Assigns env asg) :
    fs.all (s.manager.value asg) = true ↔ ∀ P ∈ Ps, P env := by
  induction h with
  | nil => simp
  | cons hf _ ih =>
    rw [List.all_cons, Bool.and_eq_true, hf.value_iff env asg hasg, ih, List.forall_mem_cons]

theorem conjAll_means (hs : s.WellFormed) {fs : List Edge} {Ps : List Demand}
    (hfs : s.MeansEach fs Ps) :
    Delivers (conjAll fs) s.manager fun h d =>
      (s.withManager d).Means h fun env => ∀ P ∈ Ps, P env := by
  apply (conjAll_delivers hs.manager hfs.valid).imp
  intro h d _ _ hh
  refine ⟨hh.valid, fun env asg hasg => ?_⟩
  have hall := hfs.all_iff (s := s) hasg
  show d.value asg h = true ↔ _
  rw [hh.value_eq, hall]

end

end Encoding

/-! ## §2 What is refused -/

/-- The refusal of an expression that has no circuit. -/
def Refusal.Unsupported (refusal : Refusal) : Prop := ∃ what, refusal = .unsupported what

namespace Expr

@[simp] theorem mentionsVector_unary (op : UnaryOp) (arg : Expr) :
    (unary op arg).mentionsVector = arg.mentionsVector := by
  simp [mentionsVector, preorder, isVectorNode]

@[simp] theorem mentionsVector_inside (arg : Expr) (set : List Int) :
    (inside arg set).mentionsVector = arg.mentionsVector := by
  simp [mentionsVector, preorder, isVectorNode]

@[simp] theorem mentionsVector_extend (arg : Expr) (extra : Nat) :
    (extend arg extra).mentionsVector = arg.mentionsVector := by
  simp [mentionsVector, preorder, isVectorNode]

@[simp] theorem mentionsVector_slice (arg : Expr) (hi lo : Nat) :
    (slice arg hi lo).mentionsVector = arg.mentionsVector := by
  simp [mentionsVector, preorder, isVectorNode]

@[simp] theorem mentionsVector_binary (op : BinaryOp) (lhs rhs : Expr) :
    (binary op lhs rhs).mentionsVector = (lhs.mentionsVector || rhs.mentionsVector) := by
  simp [mentionsVector, preorder, isVectorNode]

@[simp] theorem mentionsVector_ite (cond yes no : Expr) :
    (ite cond yes no).mentionsVector =
      (cond.mentionsVector || yes.mentionsVector || no.mentionsVector) := by
  simp [mentionsVector, preorder, isVectorNode, Bool.or_assoc]

@[simp] theorem mentionsVector_var (id : Nat) (sort : BitSort) :
    (var id sort).mentionsVector = false := rfl

@[simp] theorem mentionsVector_const (bits : Nat) (sort : BitSort) :
    (const bits sort).mentionsVector = false := rfl

end Expr

section

variable {s : Encoding} {e : Expr} {R : Refusal → Encoding → Prop}

theorem build_accepts {α : Type} (act : Build α) :
    Grants (Encoding.build act) s (fun _ => True) R fun _ _ => True :=
  (build_withManager act).unrefused.mono fun _ _ _ => trivial

theorem slotOf_accepts (id : Nat) :
    Grants (Encoding.slotOf id) s (fun _ => True) R fun _ _ => True := by
  by_cases hfull : slotLimit ≤ s.slots.size
  · unfold Grants
    rw [slotOf_of_full hfull]
    trivial
  · obtain ⟨slot, -, hrun⟩ := slotOf_eq id hfull
    unfold Grants
    rw [hrun]
    trivial

open Stimulus.Expr in
/-- Only an expression that needs a vector is refused, and the refusal says that there is no
    circuit. -/
theorem encode_refuses (e : Expr) (s : Encoding) :
    Grants e.encode s (fun _ => True)
      (fun refusal _ => refusal.Unsupported ∧ e.mentionsVector = true) fun _ _ => True := by
  induction e generalizing s with
  | var id sort =>
    apply (slotOf_accepts id).bind
    intro slot s₁ _
    apply Grants.ofExcept_bind (ends_true _)
    intro vars _
    exact Grants.bind (P := fun _ _ => True) trivial fun _ _ _ => build_accepts _
  | const bits sort => exact .pure trivial
  | unary op arg ih =>
    simp only [mentionsVector_unary]
    exact (ih s).bind fun _ _ _ => build_accepts _
  | inside arg set ih =>
    simp only [mentionsVector_inside]
    exact (ih s).bind fun _ _ _ => build_accepts _
  | extend arg extra ih =>
    simp only [mentionsVector_extend]
    exact (ih s).bind fun _ _ _ => .pure trivial
  | slice arg hi lo ih =>
    simp only [mentionsVector_slice]
    apply (ih s).bind
    intro w s₁ _
    split
    · trivial
    · exact .pure trivial
  | ite cond yes no ihc iht ihe =>
    simp only [mentionsVector_ite, Bool.or_eq_true]
    -- Whichever part is refused, it is a part of this expression that mentions a vector.
    apply ((ihc s).imp (fun _ h => h) (fun _ _ h => ⟨h.1, .inl (.inl h.2)⟩) fun _ _ h => h).bind
    intro c s₁ _
    apply (build_accepts _).bind
    intro c s₂ _
    apply ((iht s₂).imp (fun _ h => h) (fun _ _ h => ⟨h.1, .inl (.inr h.2)⟩) fun _ _ h => h).bind
    intro t s₃ _
    apply ((ihe s₃).imp (fun _ h => h) (fun _ _ h => ⟨h.1, .inr h.2⟩) fun _ _ h => h).bind
    intro e s₄ _
    exact build_accepts _
  | binary op lhs rhs ihl ihr =>
    simp only [mentionsVector_binary, Bool.or_eq_true]
    apply ((ihl s).imp (fun _ h => h) (fun _ _ h => ⟨h.1, .inl h.2⟩) fun _ _ h => h).bind
    intro a s₁ _
    apply ((ihr s₁).imp (fun _ h => h) (fun _ _ h => ⟨h.1, .inr h.2⟩) fun _ _ h => h).bind
    intro b s₂ _
    exact build_accepts _
  -- What is left are vectors and what is asked of their elements, for which there is no circuit.
  | _ => exact .throw ⟨⟨_, rfl⟩, by simp [mentionsVector, preorder, isVectorNode]⟩

theorem encodeTruth_refuses (e : Expr) (s : Encoding) :
    Grants e.encodeTruth s (fun _ => True)
      (fun refusal _ => refusal.Unsupported ∧ e.mentionsVector = true) fun _ _ => True :=
  (encode_refuses e s).bind fun _ _ _ => build_accepts _

/-! ## §3 Encoding constraints -/

/-- What a computation over encodings keeps, whether it is refused or not. -/
theorem Encodes.grants {α : Type} {act : Encode α} {safe : Prop} {Q : α → Encoding → Prop}
    (h : Encodes act s safe Q) :
    Grants act s (fun _ => True) (fun _ s' => s.Extends s' ∧ s'.WellFormed)
      fun a s' => s.Extends s' ∧ s'.WellFormed ∧ Q a s' := by
  unfold Grants
  cases hact : act s with
  | error fault => trivial
  | ok p =>
    obtain ⟨hext, hwf, hq⟩ := h.keeps _ _ hact
    obtain ⟨refusal | a, s'⟩ := p
    · exact ⟨hext, hwf⟩
    · exact ⟨hext, hwf, hq a rfl⟩

/-- The truth of a constraint is a property of environments; that of a plain one is that it
    holds. -/
theorem Expr.encodeTruth_means (e : Expr) (hs : s.WellFormed) :
    Grants e.encodeTruth s (fun _ => True) (fun _ _ => e.mentionsVector = true) fun f s' =>
      s.Extends s' ∧ s'.WellFormed ∧
        ∃ P, s'.Means f P ∧ (e.Plain → ∀ env, P env ↔ e.Holds env) := by
  have hkeeps := (e.encodeTruth_encodes hs).grants
  apply (Grants.and (encodeTruth_refuses e s) hkeeps).imp (fun _ _ => trivial) fun _ _ h => h.1.2
  rintro f s' ⟨-, hext, hwf, p, hp, hsettles, hvalue⟩
  refine ⟨hext, hwf, _, hsettles.means hp, fun hplain env => ?_⟩
  constructor
  · rintro ⟨asg, hasg, htrue⟩
    obtain ⟨v, hv, hpv⟩ := hvalue hplain env asg hasg
    exact ⟨v, hv, hpv ▸ htrue⟩
  · rintro ⟨v', hv', htrue⟩
    -- Every environment is spelled by some assignment of the bits.
    obtain ⟨asg, hasg⟩ := hwf.exists_assigns env
    obtain ⟨v, hv, hpv⟩ := hvalue hplain env asg hasg
    cases hv.symm.trans hv'
    exact ⟨asg, hasg, hpv.trans htrue⟩

/-- A variable with more bits than a slot has is never encoded. -/
theorem width_le_of_encode_var {id : Nat} {sort : BitSort} (hs : s.WellFormed) :
    Grants (Expr.var id sort).encode s (fun _ => True) (fun _ _ => True) fun _ _ =>
      sort.width ≤ 64 := by
  have hspells : Encodes (Expr.var id sort).encode s False _ :=
    Expr.encode_var_spells id sort hs nofun
  apply hspells.grants.imp (fun _ h => h) (fun _ _ _ => trivial)
  rintro _ _ ⟨-, -, -, _, -, hwidth, -⟩
  exact hwidth

/-- Neither is the equality that fixes such a variable. -/
theorem Expr.width_le_of_encodeTruth_equalTo (id : Nat) (sort : BitSort) (bits : Nat)
    (hs : s.WellFormed) :
    Grants ((Expr.var id sort).equalTo bits).encodeTruth s (fun _ => True) (fun _ _ => True)
      fun _ _ => sort.width ≤ 64 := by
  apply Grants.bind (P := fun _ _ => sort.width ≤ 64)
  · apply (width_le_of_encode_var hs).bind
    intro a s₁ hwidth
    apply Grants.bind (Grants.pure (P := fun _ _ => True) trivial)
    intro b s₂ _
    exact (build_accepts _).mono fun _ _ _ => hwidth
  · intro w s₁ hwidth
    exact (build_accepts _).mono fun _ _ _ => hwidth

/-- The equality that fixes a variable is never refused, and if it is encoded, it is plain. -/
theorem Expr.encodeTruth_equalTo_means {id : Nat} {sort : BitSort} (bits : Nat)
    (hs : s.WellFormed) :
    Grants ((Expr.var id sort).equalTo bits).encodeTruth s (fun _ => True) (fun _ _ => False)
      fun f s' => s.Extends s' ∧ s'.WellFormed ∧
        s'.Means f fun env => ((Expr.var id sort).equalTo bits).Holds env := by
  have hmeans := ((Expr.var id sort).equalTo bits).encodeTruth_means hs
  have hwidth := width_le_of_encodeTruth_equalTo id sort bits hs
  apply (Grants.and hmeans hwidth).imp (fun _ _ => trivial)
  · rintro _ _ ⟨hvector, -⟩
    simp [Expr.equalTo, Expr.constant] at hvector
  · rintro f s' ⟨⟨hext, hwf, P, hf, hholds⟩, hwidth⟩
    -- A variable that was encoded is at most 64 bits wide, and so the comparison is plain.
    exact ⟨hext, hwf, hf.congr (hholds (plain_compare .equal hwidth (by decide)))⟩

end

end Stimulus
