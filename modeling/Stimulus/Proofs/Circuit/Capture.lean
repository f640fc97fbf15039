import Stimulus.Proofs.Circuit.Agreement
import Stimulus.Proofs.Diagram.Count
import Stimulus.Proofs.Expr.Locality

/-!
# Edges that capture constraints

An encoding stays within a signature: every variable that has a slot is declared, and all its bits
are in use.  An edge captures constraints when it is true under exactly those assignments that spell
an environment in which all of them hold.  Such an edge is falsehood only if the constraints
contradict each other, and it depends on no diagram variable outside those in use.

Main definitions:
- `Encoding.Within`, `Encoding.Placed`
- `Signature.Few`: the declared variables fit into one encoding
- `Encoding.Captures`: an edge captures constraints
- `Satisfiable`: some environment satisfies constraints
- `Encoding.spelled`: the environment that an assignment spells

Main statements:
- `Expr.encodeTruth_grants`
- `Encoding.Captures.eq_zero_iff`, `Encoding.Captures.supportedBy`
-/

namespace Stimulus

/-! ## §1 The variables of an encoding -/

namespace Encoding

/-- Every variable with a slot is declared, and its bits are in use. -/
def Within (s : Encoding) (Γ : Signature) : Prop :=
  ∀ id slot : Nat, s.slots[id]? = some slot → ∃ sort, Γ.sort? id = some sort ∧
    ∀ bit < sort.width, bitIndex slot bit ∈ s.domain

/-- Every variable of an expression has a slot. -/
def Placed (s : Encoding) (e : Expr) : Prop :=
  ∀ id sort, e.Mentions id sort → ∃ slot : Nat, s.slots[id]? = some slot

/-- All slots and all variables in use are kept. -/
structure Grows (s s' : Encoding) : Prop where
  slots : ∀ id slot : Nat, s.slots[id]? = some slot → s'.slots[id]? = some slot
  domain : ∀ v, v ∈ s.domain → v ∈ s'.domain

variable {s s' s'' : Encoding} {Γ Δ : Signature}

theorem Within.mono (h : s.Within Γ) (hsub : Γ.Sub Δ) : s.Within Δ := by
  intro id slot hslot
  obtain ⟨sort, hsort, hbits⟩ := h id slot hslot
  exact ⟨sort, hsub id sort hsort, hbits⟩

theorem Grows.refl (s : Encoding) : s.Grows s := ⟨fun _ _ h => h, fun _ h => h⟩

theorem Grows.trans (h : s.Grows s') (h' : s'.Grows s'') : s.Grows s'' :=
  ⟨fun id slot hid => h'.slots id slot (h.slots id slot hid),
    fun v hv => h'.domain v (h.domain v hv)⟩

theorem Placed.mono {e : Expr} (h : s.Placed e) (hgrows : s.Grows s') : s'.Placed e := by
  intro id sort hmem
  obtain ⟨slot, hslot⟩ := h id sort hmem
  exact ⟨slot, hgrows.slots id slot hslot⟩

/-- The encoding with another manager. -/
def withManager (s : Encoding) (d : Manager) : Encoding := ⟨d, s.slots, s.domain⟩

/-- Storing nodes leaves the variables alone. -/
theorem grows_withManager (s : Encoding) (d : Manager) : s.Grows (s.withManager d) :=
  ⟨fun _ _ h => h, fun _ h => h⟩

end Encoding

section

variable {s : Encoding} {Γ : Signature}

/-- Building stores nodes and is not refused. -/
theorem build_withManager {α : Type} (act : Build α) :
    Grants (Encoding.build act) s (fun _ => True) (fun _ _ => False) fun _ s' =>
      ∃ d, s' = s.withManager d := by
  obtain ⟨manager, slots, domain⟩ := s
  unfold Grants Encoding.build
  dsimp only
  cases act manager with
  | error fault => trivial
  | ok r => exact ⟨r.2, rfl⟩

/-- How a computation over an encoding ends that is never refused: the encoding has grown within the
    signature. -/
def Places {α : Type} (act : Encode α) (s : Encoding) (Γ : Signature) (Q : Encoding → Prop) :
    Prop :=
  Grants act s (fun _ => True) (fun _ _ => False) fun _ s' => s'.Within Γ ∧ s.Grows s' ∧ Q s'

theorem Places.pure {α : Type} {a : α} {Q : Encoding → Prop} (hs : s.Within Γ) (h : Q s) :
    Places (Pure.pure a) s Γ Q :=
  ⟨hs, .refl s, h⟩

theorem Places.bind {α β : Type} {act : Encode α} {k : α → Encode β} {P Q : Encoding → Prop}
    (h : Places act s Γ P)
    (hk : ∀ a s', s'.Within Γ → s.Grows s' → P s' → Places (k a) s' Γ Q) :
    Places (act >>= k) s Γ Q := by
  refine Grants.bind h fun a s' hs' => ?_
  obtain ⟨hwithin, hgrows, hp⟩ := hs'
  exact (hk a s' hwithin hgrows hp).mono fun b s'' hs'' =>
    ⟨hs''.1, hgrows.trans hs''.2.1, hs''.2.2⟩

theorem Places.mono {α : Type} {act : Encode α} {P Q : Encoding → Prop} (h : Places act s Γ P)
    (hpq : ∀ s', s.Grows s' → P s' → Q s') : Places act s Γ Q :=
  Grants.mono h fun _ s' hs' => ⟨hs'.1, hs'.2.1, hpq s' hs'.2.1 hs'.2.2⟩

/-- Storing nodes leaves the variables of an encoding alone. -/
theorem build_places {α : Type} (act : Build α) (hs : s.Within Γ) :
    Places (Encoding.build act) s Γ fun _ => True := by
  apply (build_withManager act).mono
  rintro _ _ ⟨d, rfl⟩
  exact ⟨hs, s.grows_withManager d, trivial⟩

theorem mem_foldl_insert {vs : List Nat} {t : Std.TreeSet Nat} {v : Nat} :
    v ∈ vs.foldl (·.insert ·) t ↔ v ∈ vs ∨ v ∈ t := by
  induction vs generalizing t with
  | nil => simp
  | cons w vs ih =>
    rw [List.foldl_cons, ih, Std.TreeSet.mem_insert, Std.LawfulEqCmp.compare_eq_iff_eq,
      List.mem_cons]
    tauto

theorem bitVariable_run {slot bit v : Nat} (h : bitVariable slot bit = .ok v) :
    v = bitIndex slot bit := by
  unfold bitVariable at h
  split at h
  · cases h
  · dsimp only at h
    split at h
    · cases h
    · cases h
      rfl

theorem map_of_mapM_run {α β ε : Type} {f : α → Except ε β} {g : α → β}
    (hg : ∀ a b, f a = .ok b → b = g a) {as : List α} {bs : List β} (h : as.mapM f = .ok bs) :
    bs = as.map g := by
  induction as generalizing bs with
  | nil =>
    cases h
    rfl
  | cons a as ih =>
    rw [List.mapM_cons] at h
    obtain ⟨b, hb, h⟩ := exists_ok_of_bind h
    obtain ⟨cs, hcs, h⟩ := exists_ok_of_bind h
    cases h
    rw [hg a b hb, ih hcs, List.map_cons]

/-- Bits that have diagram variables are those of a variable that is not too wide. -/
theorem bitVariables_run {slot width : Nat} {vars : List Nat}
    (h : bitVariables slot width = .ok vars) :
    width ≤ 64 ∧ vars = (List.range width).map (bitIndex slot) := by
  unfold bitVariables at h
  by_cases hwidth : width ≤ 64
  · rw [Nat.min_eq_left (by omega)] at h
    exact ⟨hwidth, map_of_mapM_run (fun _ _ => bitVariable_run) h⟩
  · -- The bit after the first 64 has no diagram variable.
    have hrange : List.range 65 = List.range 64 ++ [64] := by rfl
    rw [Nat.min_eq_right (by omega), hrange, List.mapM_append] at h
    obtain ⟨low, -, h⟩ := exists_ok_of_bind h
    obtain ⟨high, hhigh, -⟩ := exists_ok_of_bind h
    cases hhigh

/-- The encoding after a variable has got a slot and its bits have been brought into use. -/
def Encoding.opened (s : Encoding) (id slot width : Nat) : Encoding :=
  ⟨s.manager, place s.slots id,
    ((List.range width).map (bitIndex slot)).foldl (·.insert ·) s.domain⟩

theorem Encoding.grows_opened (s : Encoding) (id slot width : Nat) :
    s.Grows (s.opened id slot width) :=
  ⟨fun _ _ h => getElem?_place_of_some h, fun _ h => mem_foldl_insert.mpr (.inr h)⟩

theorem Encoding.mem_domain_opened {id slot width bit : Nat} (h : bit < width) :
    bitIndex slot bit ∈ (s.opened id slot width).domain :=
  mem_foldl_insert.mpr (.inl (List.mem_map.mpr ⟨bit, List.mem_range.mpr h, rfl⟩))

/-- Encoding a variable gives it a slot, then brings its bits into use, and only then makes nodes. -/
theorem encode_var_opens {id : Nat} {sort : BitSort} {P : Word → Encoding → Prop}
    (h : ∀ slot : Nat, (place s.slots id)[id]? = some slot → sort.width ≤ 64 →
      Grants (Encoding.build (((List.range sort.width).map (bitIndex slot)).mapM mkVar))
        (s.opened id slot sort.width) (fun _ => True) (fun _ _ => False) P) :
    Grants (Expr.var id sort).encode s (fun _ => True) (fun _ _ => False) P := by
  by_cases hfull : slotLimit ≤ s.slots.size
  · show Ends (Encoding.slotOf id s >>= _) _ _
    rw [slotOf_of_full hfull]
    trivial
  obtain ⟨slot, hslot, hrun⟩ := slotOf_eq id hfull
  have hrest : Grants (do
      let vars ← Fault.ofExcept (bitVariables slot sort.width)
      Encoding.use vars
      Encoding.build (vars.mapM mkVar)) ⟨s.manager, place s.slots id, s.domain⟩
      (fun _ => True) (fun _ _ => False) P := by
    apply Grants.ofExcept_bind (T := fun vars =>
      sort.width ≤ 64 ∧ vars = (List.range sort.width).map (bitIndex slot))
    · unfold Ends
      cases hvars : bitVariables slot sort.width with
      | error fault => trivial
      | ok vars => exact bitVariables_run hvars
    · rintro _ ⟨hwidth, rfl⟩
      -- Bringing the bits into use does not fail.
      refine Grants.bind (P := fun _ s' => s' = s.opened id slot sort.width) rfl ?_
      rintro _ _ rfl
      exact h slot hslot hwidth
  show Ends (Encoding.slotOf id s >>= _) _ _
  rw [hrun]
  exact hrest

/-- Looking up the bits of a declared variable gives it a slot and brings its bits into use. -/
theorem encode_var_places {id : Nat} {sort : BitSort} (hs : s.Within Γ)
    (hid : Γ.sort? id = some sort) :
    Places (Expr.var id sort).encode s Γ fun s' => s'.Placed (.var id sort) := by
  refine encode_var_opens fun slot hslot _ => ?_
  have hgrows := s.grows_opened id slot sort.width
  have hwithin : (s.opened id slot sort.width).Within Γ := by
    -- The variable itself has its bits in use, and every other slot is an old one.
    intro id' slot' hid'
    by_cases hsame : id' = id
    · subst hsame
      cases hslot.symm.trans hid'
      exact ⟨sort, hid, fun bit hbit => Encoding.mem_domain_opened hbit⟩
    · obtain ⟨sort', hsort', hbits⟩ := hs id' slot' (getElem?_of_place hsame hid')
      exact ⟨sort', hsort', fun bit hbit => hgrows.domain _ (hbits bit hbit)⟩
  have hplaced : (s.opened id slot sort.width).Placed (.var id sort) := by
    intro id' sort' hmem
    rw [(Expr.mentions_var.mp hmem).1]
    exact ⟨slot, hslot⟩
  -- What is built from here on adds no slots.
  exact Grants.mono (build_places _ hwithin) fun _ s' hs' =>
    ⟨hs'.1, hgrows.trans hs'.2.1, hplaced.mono hs'.2.1⟩

open Stimulus.Expr in
/-- Encoding a constraint over declared variables is not refused and stays within the signature. -/
theorem encode_places {e : Expr} (hs : s.Within Γ) (he : Γ.Admits e) :
    Places e.encode s Γ fun s' => s'.Placed e := by
  obtain ⟨hplain, hdeclared⟩ := he
  induction e generalizing s with
  | var id sort => exact encode_var_places hs (hdeclared id sort (mentions_var.mpr ⟨rfl, rfl⟩))
  | const bits sort => exact .pure hs fun id sort' hmem => absurd hmem not_mentions_const
  | unary op arg ih =>
    simp only [mentions_unary] at hdeclared
    refine (ih hs hplain hdeclared).bind fun a s₁ hwithin _ hplaced => ?_
    exact (build_places _ hwithin).mono fun s₂ hgrows _ => by
      simpa [Encoding.Placed] using hplaced.mono hgrows
  | inside arg set ih =>
    simp only [mentions_inside] at hdeclared
    refine (ih hs hplain.1 hdeclared).bind fun a s₁ hwithin _ hplaced => ?_
    exact (build_places _ hwithin).mono fun s₂ hgrows _ => by
      simpa [Encoding.Placed] using hplaced.mono hgrows
  | extend arg extra ih =>
    simp only [mentions_extend] at hdeclared
    refine (ih hs hplain.1 hdeclared).bind fun a s₁ hwithin _ hplaced => ?_
    exact .pure hwithin (by simpa [Encoding.Placed] using hplaced)
  | slice arg hi lo ih =>
    simp only [mentions_slice] at hdeclared
    refine (ih hs hplain.1 hdeclared).bind fun a s₁ hwithin _ hplaced => ?_
    split
    · trivial
    · exact .pure hwithin (by simpa [Encoding.Placed] using hplaced)
  -- Slots are only added, so what a part placed stays placed while the next part is encoded.
  | ite cond yes no ihc iht ihe =>
    simp only [mentions_ite, or_imp, forall_and] at hdeclared
    obtain ⟨hc, ht, he⟩ := hdeclared
    obtain ⟨hpc, hpt, hpe, -⟩ := hplain
    refine (ihc hs hpc hc).bind fun c s₁ hwithin₁ _ hcond => ?_
    refine (build_places _ hwithin₁).bind fun c s₂ hwithin₂ hgrows₂ _ => ?_
    refine (iht hwithin₂ hpt ht).bind fun t s₃ hwithin₃ hgrows₃ hyes => ?_
    refine (ihe hwithin₃ hpe he).bind fun e s₄ hwithin₄ hgrows₄ hno => ?_
    refine (build_places _ hwithin₄).mono fun s₅ hgrows₅ _ => ?_
    have hgrows := hgrows₄.trans hgrows₅
    simp only [Encoding.Placed, mentions_ite, or_imp, forall_and]
    exact ⟨hcond.mono (hgrows₂.trans (hgrows₃.trans hgrows)), hyes.mono hgrows, hno.mono hgrows₅⟩
  | binary op lhs rhs ihl ihr =>
    simp only [mentions_binary, or_imp, forall_and] at hdeclared
    obtain ⟨hl, hr⟩ := hdeclared
    obtain ⟨hpl, hpr, -⟩ := hplain
    refine (ihl hs hpl hl).bind fun a s₁ hwithin₁ _ hleft => ?_
    refine (ihr hwithin₁ hpr hr).bind fun b s₂ hwithin₂ hgrows₂ hright => ?_
    refine (build_places _ hwithin₂).mono fun s₃ hgrows₃ _ => ?_
    simp only [Encoding.Placed, mentions_binary, or_imp, forall_and]
    exact ⟨hleft.mono (hgrows₂.trans hgrows₃), hright.mono hgrows₃⟩
  | _ => exact absurd hplain id

theorem encodeTruth_places {e : Expr} (hs : s.Within Γ) (he : Γ.Admits e) :
    Places e.encodeTruth s Γ fun s' => s'.Placed e :=
  (encode_places hs he).bind fun _ _ hwithin _ hplaced =>
    (build_places _ hwithin).mono fun _ hgrows _ => hplaced.mono hgrows

end

/-! ## §2 Slots for all declared variables -/

/-- One encoding has slots for all declared variables, and one to spare. -/
def Signature.Few (Γ : Signature) : Prop :=
  ∀ slots : Std.TreeMap Nat Nat,
    (∀ id slot : Nat, slots[id]? = some slot → ∃ s, Γ.sort? id = some s) →
    slots.size < slotLimit

theorem Signature.Few.hasSlots {Γ : Signature} (h : Γ.Few) {slots : Std.TreeMap Nat Nat}
    (hslots : ∀ id slot : Nat, slots[id]? = some slot → ∃ s, Γ.sort? id = some s) {ids : List Nat}
    (hids : ∀ id ∈ ids, ∃ s, Γ.sort? id = some s) : HasSlots slots ids := by
  induction ids generalizing slots with
  | nil => trivial
  | cons id ids ih =>
    -- A slot that is taken on the way belongs to a declared variable as well.
    refine ⟨h slots hslots, ih (fun id' slot hid' => ?_) fun id' hid' =>
      hids id' (List.mem_cons_of_mem id hid')⟩
    by_cases hsame : id' = id
    · rw [hsame]
      exact hids id List.mem_cons_self
    · exact hslots id' slot (getElem?_of_place hsame hid')

theorem Signature.Admits.occurrences {Γ : Signature} {e : Expr} (h : Γ.Admits e) :
    ∀ id ∈ e.occurrences, ∃ s, Γ.sort? id = some s := by
  intro id hid
  obtain ⟨s, hs⟩ := h.plain.mem_occurrences.mp hid
  exact ⟨s, h.declared id s hs⟩

/-! ## §3 Satisfiable constraints -/

/-- Some environment satisfies all constraints. -/
def Satisfiable (es : List Expr) : Prop := ∃ env, Expr.AllHold env es

theorem Satisfiable.mono {es fs : List Expr} (h : Satisfiable fs) (hsub : es ⊆ fs) :
    Satisfiable es := by
  obtain ⟨env, henv⟩ := h
  exact ⟨env, fun e he => henv e (hsub he)⟩

namespace Encoding

/-- The numbers that an assignment spells on the bits of all slots. -/
def spelled (s : Encoding) (asg : Nat → Bool) (id : Nat) : Nat :=
  match s.slots[id]? with
  | some slot => number ((List.range 64).map fun bit => asg (bitIndex slot bit))
  | none => 0

section

variable {s s' : Encoding} {Γ Δ : Signature} {f g : Edge} {es fs : List Expr}

theorem WellFormed.assigns_spelled (hs : s.WellFormed) (asg : Nat → Bool) :
    s.Assigns (s.spelled asg) asg := by
  intro id slot bit v hslot hv
  obtain ⟨hbit, rfl⟩ := (bitVariable_eq_ok (hs.slots.slot_lt hslot)).mp hv
  simp [spelled, hslot, testBit_number, hbit]

/-- The low bits of the number that an assignment spells. -/
theorem spelled_mod {asg : Nat → Bool} {id slot width : Nat} (hslot : s.slots[id]? = some slot)
    (hwidth : width ≤ 64) : s.spelled asg id % 2 ^ width =
      number ((List.range width).map fun bit => asg (bitIndex slot bit)) := by
  simp only [spelled, hslot]
  rw [← number_take, ← List.map_take, List.take_range, Nat.min_eq_left hwidth]

/-- The edge is true under exactly those assignments that spell an environment in which all the
    constraints hold. -/
structure Captures (s : Encoding) (Γ : Signature) (f : Edge) (es : List Expr) : Prop where
  valid : s.manager.Valid f
  admits : ∀ e ∈ es, Γ.Admits e
  placed : ∀ e ∈ es, s.Placed e
  value_iff : ∀ env asg, s.Assigns env asg →
    (s.manager.value asg f = true ↔ Expr.AllHold env es)

theorem Captures.mono (h : s.Captures Γ f es) (hext : s.Extends s') : s'.Captures Γ f es where
  valid := hext.manager.valid h.valid
  admits := h.admits
  placed e he id sort hmem := by
    obtain ⟨slot, hslot⟩ := h.placed e he id sort hmem
    exact ⟨slot, hext.slots id slot hslot⟩
  value_iff env asg hasg := by
    rw [hext.manager.value_eq h.valid, h.value_iff env asg (hasg.of_extends hext)]

theorem Captures.sub (h : s.Captures Γ f es) (hsub : Γ.Sub Δ) : s.Captures Δ f es :=
  ⟨h.valid, fun e he => (h.admits e he).mono hsub, h.placed, h.value_iff⟩

/-- Only which constraints are captured matters. -/
theorem Captures.congr (h : s.Captures Γ f es) (hsame : ∀ e, e ∈ es ↔ e ∈ fs) :
    s.Captures Γ f fs where
  valid := h.valid
  admits e he := h.admits e ((hsame e).mpr he)
  placed e he := h.placed e ((hsame e).mpr he)
  value_iff env asg hasg := by
    rw [h.value_iff env asg hasg]
    exact forall_congr' fun e => imp_congr_left (hsame e)

theorem captures_one (hs : s.WellFormed) : s.Captures Γ .one [] where
  valid := hs.manager.valid_one
  admits e he := absurd he List.not_mem_nil
  placed e he := absurd he List.not_mem_nil
  value_iff env asg _ := by simp [Expr.AllHold]

/-- An edge that tells which environments have a property is falsehood only if none has it, since
    every assignment spells one. -/
theorem WellFormed.eq_zero_iff (hs : s.WellFormed) {P : (Nat → Nat) → Prop}
    (hf : s.manager.Valid f)
    (hvalue : ∀ env asg, s.Assigns env asg → (s.manager.value asg f = true ↔ P env)) :
    f = .zero ↔ ¬ ∃ env, P env := by
  rw [hs.manager.eq_zero_iff hf]
  constructor
  · rintro hfalse ⟨env, henv⟩
    obtain ⟨asg, hasg⟩ := hs.exists_assigns env
    have htrue := (hvalue env asg hasg).mpr henv
    rw [hfalse asg] at htrue
    cases htrue
  · intro hnone asg
    by_contra htrue
    -- An assignment of the bits spells an environment, so there is no model without one.
    exact hnone ⟨_, (hvalue _ asg (hs.assigns_spelled asg)).mp (by simpa using htrue)⟩

/-- Only contradictory constraints are captured by falsehood. -/
theorem Captures.eq_zero_iff (h : s.Captures Γ f es) (hs : s.WellFormed) :
    f = .zero ↔ ¬ Satisfiable es :=
  hs.eq_zero_iff h.valid h.value_iff

/-- Assignments that agree on the variables in use spell the same low bits. -/
theorem Within.spelled_congr (hw : s.Within Γ) {asg asg' : Nat → Bool}
    (h : ∀ v ∈ s.domain, asg v = asg' v) {id : Nat} {sort : BitSort}
    (hid : Γ.sort? id = some sort) :
    s.spelled asg id % 2 ^ sort.width = s.spelled asg' id % 2 ^ sort.width := by
  -- A variable without a slot is zero under either assignment.
  cases hslot : s.slots[id]? with
  | none => simp [spelled, hslot]
  | some slot =>
    obtain ⟨sort', hsort', hbits⟩ := hw id slot hslot
    cases hid.symm.trans hsort'
    have hwidth := Γ.width_le id sort hid
    rw [spelled_mod hslot hwidth, spelled_mod hslot hwidth]
    congr 1
    exact List.map_congr_left fun bit hbit => h _ (hbits bit (List.mem_range.mp hbit))

theorem mem_domainList {v : Nat} : v ∈ s.domainList ↔ v ∈ s.domain := Std.TreeSet.mem_toList

theorem domainList_ascends (s : Encoding) : s.domainList.Pairwise (· < ·) :=
  Std.TreeSet.ordered_toList.imp fun h => Nat.compare_eq_lt.mp h

/-- What captures constraints depends on no variable outside those in use. -/
theorem Captures.supportedBy (h : s.Captures Γ f es) (hs : s.WellFormed) (hw : s.Within Γ) :
    s.manager.SupportedBy f s.domainList := by
  rintro v ⟨asg, b, hne⟩
  rw [mem_domainList]
  by_contra hout
  -- Changing a variable that is not in use changes no number that the expressions read.
  have hsame : ∀ w ∈ s.domain, Function.update asg v b w = asg w := fun w hwd =>
    Function.update_of_ne (by rintro rfl; exact hout hwd) _ _
  have hiff := Signature.allHold_congr h.admits fun id sort hid => hw.spelled_congr hsame hid
  rw [← h.value_iff _ _ (hs.assigns_spelled _), ← h.value_iff _ _ (hs.assigns_spelled _)] at hiff
  exact hne (Bool.eq_iff_iff.mpr hiff)

/-! ## §4 Making captures -/

theorem extends_withManager {d : Manager} (hd : s.manager.Extends d) :
    s.Extends (s.withManager d) :=
  ⟨hd, fun _ _ h => h⟩

theorem WellFormed.withManager {d : Manager} (hs : s.WellFormed) (hd : d.WellFormed) :
    (s.withManager d).WellFormed :=
  ⟨hd, hs.slots⟩

/-- The conjunction captures the constraints of both functions. -/
theorem conj_captures (hs : s.WellFormed) (hf : s.Captures Γ f es) (hg : s.Captures Γ g fs) :
    Delivers (conj f g) s.manager fun h d => (s.withManager d).Captures Γ h (es ++ fs) := by
  refine (conj_delivers hs.manager hf.valid.denotes hg.valid.denotes).imp
    fun h d hext _ hh => ⟨hh.valid, ?_, ?_, fun env asg hasg => ?_⟩
  · exact fun e he => (List.mem_append.mp he).elim (hf.admits e) (hg.admits e)
  · exact fun e he => (List.mem_append.mp he).elim (hf.placed e) (hg.placed e)
  · have hleft := hf.value_iff env asg hasg
    have hright := hg.value_iff env asg hasg
    show d.value asg h = true ↔ _
    rw [hh.value_eq, Bool.and_eq_true, hleft, hright, Expr.allHold_append]

/-- The conjunction of a list captures the constraints of all its functions. -/
theorem conjAll_captures (hs : s.WellFormed) {gs : List Edge} {ess : List (List Expr)}
    (hgs : List.Forall₂ (s.Captures Γ) gs ess) :
    Delivers (conjAll gs) s.manager fun h d => (s.withManager d).Captures Γ h ess.flatten := by
  have hvalid : ∀ g ∈ gs, s.manager.Valid g := by
    induction hgs with
    | nil => simp
    | cons hg _ ih => exact List.forall_mem_cons.mpr ⟨hg.valid, ih⟩
  -- The three facts about all of the functions are three inductions along them.
  refine (conjAll_delivers hs.manager hvalid).imp
    fun h d hext _ hh => ⟨hh.valid, ?_, ?_, fun env asg hasg => ?_⟩
  · clear hvalid hh
    induction hgs with
    | nil => simp
    | cons hg _ ih => exact List.forall_mem_append.mpr ⟨hg.admits, ih⟩
  · clear hvalid hh
    induction hgs with
    | nil => simp
    | cons hg _ ih => exact List.forall_mem_append.mpr ⟨hg.placed, ih⟩
  · have hall : gs.all (s.manager.value asg) = true ↔ Expr.AllHold env ess.flatten := by
      clear hvalid hh
      induction hgs with
      | nil => simp [Expr.AllHold]
      | cons hg _ ih =>
        rw [List.all_cons, Bool.and_eq_true, hg.value_iff env asg hasg, ih, List.flatten_cons,
          Expr.allHold_append]
    show d.value asg h = true ↔ _
    rw [hh.value_eq, hall]

end

end Encoding

/-- Encoding the truth of an admitted constraint answers an edge that captures it. -/
theorem Expr.encodeTruth_grants {s : Encoding} {Γ : Signature} {e : Expr} {safe : Prop}
    (hs : s.WellFormed) (hw : s.Within Γ) (he : Γ.Admits e) (hfew : safe → Γ.Few) :
    Grants e.encodeTruth s (Stuck safe) (fun _ _ => False) fun f s' =>
      s.Extends s' ∧ s'.WellFormed ∧ s'.Within Γ ∧ s'.Captures Γ f [e] := by
  have hencodes := e.encodeTruth_encodes hs
  have hplaces := encodeTruth_places hw he
  have hdeclared : ∀ id slot : Nat, s.slots[id]? = some slot → ∃ sort, Γ.sort? id = some sort :=
    fun id slot hid => (hw id slot hid).imp fun _ h => h.1
  cases hrun : e.encodeTruth s with
  | error fault =>
    unfold Grants
    rw [hrun]
    -- With slots for all variables, only the edges of the diagram can run out.
    intro hsafe
    rcases hencodes.run hs ⟨he.plain, (hfew hsafe).hasSlots hdeclared he.occurrences⟩ with
      herr | ⟨f, s', hok⟩
    · rw [hrun] at herr
      cases herr
      exact .inl rfl
    · rw [hrun] at hok
      cases hok
  | ok r =>
    obtain ⟨refusal | f, s'⟩ := r
    · exact (hplaces.of_refusal hrun).elim
    · -- What the run places and what it spells come from two laws of one run.
      obtain ⟨hwithin, -, hplaced⟩ := hplaces.of_run hrun
      obtain ⟨hext, hwf, hf⟩ := hencodes.keeps _ _ hrun
      obtain ⟨p, hp, -, hvalue⟩ := hf f rfl
      unfold Grants
      rw [hrun]
      refine ⟨hext, hwf, hwithin, hp.valid, by simpa using he, by simpa using hplaced, ?_⟩
      intro env asg hasg
      obtain ⟨v, hv, hpv⟩ := hvalue he.plain env asg hasg
      rw [hp.value_eq, hpv]
      -- The value of an expression is unique, so holding is having a true value.
      constructor
      · intro htrue e' he'
        rw [List.mem_singleton.mp he']
        exact ⟨v, hv, htrue⟩
      · intro hall
        obtain ⟨v', hv', htrue⟩ := hall e (List.mem_singleton.mpr rfl)
        rw [hv] at hv'
        cases hv'
        exact htrue

end Stimulus
