import Stimulus.Proofs.Circuit.Capture

/-!
# Variables in use

An expression brings its variables into use.  Once it is encoded, each of them has a slot and all of
its bits belong to the domain, so every model that is drawn from then on gives it a value.  This
takes no signature and no assumption about the expression.

Main definitions:
- `Encoding.Carries`: a variable is in use with all its bits
- `Encoding.CarriesAll`: all variables of an expression are

Main statements:
- `Expr.encodeTruth_carries`
-/

namespace Stimulus

/-! ## §1 Slots and bits -/

namespace Encoding

/-- The variable has a slot, and all its bits are in use. -/
def Carries (s : Encoding) (id : Nat) (sort : BitSort) : Prop :=
  sort.width ≤ 64 ∧ ∃ slot : Nat, s.slots[id]? = some slot ∧
    ∀ bit < sort.width, bitIndex slot bit ∈ s.domain

/-- All variables of the expression are in use. -/
def CarriesAll (s : Encoding) (e : Expr) : Prop :=
  ∀ id sort, e.Mentions id sort → s.Carries id sort

variable {s s' : Encoding} {e : Expr} {id : Nat} {sort : BitSort}

theorem Carries.mono (h : s.Carries id sort) (hgrows : s.Grows s') : s'.Carries id sort := by
  obtain ⟨hwidth, slot, hslot, hbits⟩ := h
  exact ⟨hwidth, slot, hgrows.slots id slot hslot, fun bit hbit => hgrows.domain _ (hbits bit hbit)⟩

theorem CarriesAll.mono (h : s.CarriesAll e) (hgrows : s.Grows s') : s'.CarriesAll e :=
  fun id sort hmention => (h id sort hmention).mono hgrows

end Encoding

/-! ## §2 Encoding expressions -/

section

variable {s : Encoding} {α β : Type}

/-- A computation that grows an encoding until it has a property, unless it is refused. -/
def Carrying (act : Encode α) (s : Encoding) (Q : Encoding → Prop) : Prop :=
  Grants act s (fun _ => True) (fun _ _ => True) fun _ s' => s.Grows s' ∧ Q s'

theorem Carrying.pure {a : α} {Q : Encoding → Prop} (h : Q s) : Carrying (Pure.pure a) s Q :=
  ⟨.refl s, h⟩

theorem Carrying.bind {act : Encode α} {k : α → Encode β} {P Q : Encoding → Prop}
    (h : Carrying act s P) (hk : ∀ a s', s.Grows s' → P s' → Carrying (k a) s' Q) :
    Carrying (act >>= k) s Q := by
  apply Grants.bind h
  rintro a s' ⟨hgrows, hp⟩
  exact (hk a s' hgrows hp).mono fun b s'' hs'' => ⟨hgrows.trans hs''.1, hs''.2⟩

theorem Carrying.build (act : Build α) {Q : Encoding → Prop}
    (h : ∀ d, s.Grows (s.withManager d) → Q (s.withManager d)) :
    Carrying (Encoding.build act) s Q := by
  apply (build_withManager act).unrefused.mono
  rintro _ _ ⟨d, rfl⟩
  exact ⟨s.grows_withManager d, h d (s.grows_withManager d)⟩

/-- A variable gets a slot, and its bits are brought into use. -/
theorem encode_var_carries (id : Nat) (sort : BitSort) (s : Encoding) :
    Carrying (Expr.var id sort).encode s (·.Carries id sort) := by
  refine (encode_var_opens fun slot hslot hwidth => ?_).unrefused
  have hcarries : (s.opened id slot sort.width).Carries id sort :=
    ⟨hwidth, slot, hslot, fun bit hbit => Encoding.mem_domain_opened hbit⟩
  have hgrows := s.grows_opened id slot sort.width
  apply (build_withManager _).mono
  rintro _ _ ⟨d, rfl⟩
  have hgrown := (s.opened id slot sort.width).grows_withManager d
  exact ⟨hgrows.trans hgrown, hcarries.mono hgrown⟩

open Stimulus.Expr in
/-- Whatever is encoded has its variables in use. -/
theorem encode_carries (e : Expr) (s : Encoding) : Carrying e.encode s (·.CarriesAll e) := by
  induction e generalizing s with
  | var id sort =>
    refine Grants.mono (encode_var_carries id sort s) fun _ s' hs' =>
      ⟨hs'.1, fun id' sort' hmention => ?_⟩
    obtain ⟨rfl, rfl⟩ := mentions_var.mp hmention
    exact hs'.2
  | const bits sort => exact .pure fun id sort' hmention => absurd hmention not_mentions_const
  | unary op arg ih =>
    refine (ih s).bind fun a s₁ _ hcarries => .build _ fun d hgrows => ?_
    simpa [Encoding.CarriesAll] using hcarries.mono hgrows
  | inside arg set ih =>
    refine (ih s).bind fun a s₁ _ hcarries => .build _ fun d hgrows => ?_
    simpa [Encoding.CarriesAll] using hcarries.mono hgrows
  | extend arg extra ih =>
    refine (ih s).bind fun a s₁ _ hcarries => .pure ?_
    simpa [Encoding.CarriesAll] using hcarries
  | slice arg hi lo ih =>
    refine (ih s).bind fun a s₁ _ hcarries => ?_
    split
    · trivial
    · exact .pure (by simpa [Encoding.CarriesAll] using hcarries)
  | ite cond yes no ihc iht ihe =>
    refine (ihc s).bind fun c s₁ _ hcond => ?_
    refine (Carrying.build (Q := (·.CarriesAll cond)) _ fun d hgrows => hcond.mono hgrows).bind
      fun c s₂ _ hcond => ?_
    refine (iht s₂).bind fun t s₃ hgrows₃ hyes => ?_
    refine (ihe s₃).bind fun e s₄ hgrows₄ hno => .build _ fun d hgrows₅ => ?_
    -- What the parts carry, the later states carry as well.
    have hgrows := hgrows₄.trans hgrows₅
    simp only [Encoding.CarriesAll, mentions_ite, or_imp, forall_and]
    exact ⟨hcond.mono (hgrows₃.trans hgrows), hyes.mono hgrows, hno.mono hgrows₅⟩
  | binary op lhs rhs ihl ihr =>
    refine (ihl s).bind fun a s₁ _ hleft => ?_
    refine (ihr s₁).bind fun b s₂ hgrows₂ hright => .build _ fun d hgrows₃ => ?_
    simp only [Encoding.CarriesAll, mentions_binary, or_imp, forall_and]
    exact ⟨hleft.mono (hgrows₂.trans hgrows₃), hright.mono hgrows₃⟩
  -- Vectors and what is asked of their elements are refused.
  | _ => trivial

theorem Expr.encodeTruth_carries (e : Expr) (s : Encoding) :
    Carrying e.encodeTruth s (·.CarriesAll e) :=
  (encode_carries e s).bind fun _ _ _ hcarries => .build _ fun _ hgrows => hcarries.mono hgrows

end

end Stimulus
