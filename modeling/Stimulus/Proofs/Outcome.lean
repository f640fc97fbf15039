import Mathlib.Algebra.Group.Nat.Defs
import Mathlib.Data.List.Forall2
import Stimulus.Failure

/-!
# How computations end

Three kinds of computations can fail: results without a state, steps over a state, and requests,
which may be refused as well.  One predicate for each of them says how it ends: with a fault that
is allowed, or with a result and a state of which a postcondition holds.

A law of a computation allows every fault when a precondition that it names is broken, and otherwise
only those faults that no precondition excludes: diagrams that outgrow their edges, and words that
let a draw never end.

Main definitions:
- `Ends`, `Ensures`, `Grants`: how a result, a step and a request end
- `Leaves`, `Preserves`: the states that a request leaves, whatever it answers
- `Fault.Exhausts`, `Stuck`: the faults that are allowed
-/

namespace Stimulus

/-! ## §1 The faults that are allowed -/

/-- What the computation used is exhausted: the edges of a diagram, or the words of a stream. -/
def Fault.Exhausts (fault : Fault) : Prop := fault = .tooManyNodes ∨ fault = .drawNeverEnds

/-- The faults that remain when a computation is safe. -/
def Stuck (safe : Prop) (fault : Fault) : Prop := safe → fault.Exhausts

theorem stuck_tooManyNodes {safe : Prop} : Stuck safe .tooManyNodes := fun _ => .inl rfl

theorem stuck_drawNeverEnds {safe : Prop} : Stuck safe .drawNeverEnds := fun _ => .inr rfl

theorem stuck_of_not {safe : Prop} {fault : Fault} (h : ¬ safe) : Stuck safe fault :=
  fun hs => absurd hs h

/-! ## §2 Results -/

/-- A result that may be missing for a fault: the fault is allowed, or the result is as wanted. -/
def Ends {β : Type} (x : Except Fault β) (E : Fault → Prop) (Q : β → Prop) : Prop :=
  match x with
  | .error fault => E fault
  | .ok b => Q b

section

variable {α β : Type} {x : Except Fault α} {E E' : Fault → Prop} {P : α → Prop} {Q : β → Prop}

theorem Ends.imp {P' : α → Prop} (h : Ends x E P) (hE : ∀ f, E f → E' f) (hP : ∀ a, P a → P' a) :
    Ends x E' P' := by
  cases x with
  | error fault => exact hE fault h
  | ok a => exact hP a h

theorem Ends.bind {k : α → Except Fault β} (h : Ends x E P) (hk : ∀ a, P a → Ends (k a) E Q) :
    Ends (x >>= k) E Q := by
  cases x with
  | error fault => exact h
  | ok a => exact hk a h

theorem Ends.map {f : α → β} (h : Ends x E P) (hf : ∀ a, P a → Q (f a)) : Ends (f <$> x) E Q := by
  cases x with
  | error fault => exact h
  | ok a => exact hf a h

theorem Ends.of_ok {a : α} (h : Ends x E P) (hx : x = .ok a) : P a := by
  subst hx
  exact h

/-- A run that ends with a result to which a test applies. -/
theorem exists_of_toOption_any {p : α → Bool} (h : x.toOption.any p = true) :
    ∃ a, x = .ok a ∧ p a = true := by
  cases x with
  | error fault => cases h
  | ok a => exact ⟨a, rfl, h⟩

/-- A result without a fault goes on, in every computation. -/
theorem ofExcept_ok_bind {m : Type → Type} [Monad m] [LawfulMonad m] [MonadExceptOf Fault m] {a : α}
    (h : x = .ok a) (k : α → m β) : Fault.ofExcept x >>= k = k a := by
  rw [h, Fault.ofExcept, pure_bind]

/-- Nothing is said about a result. -/
theorem ends_true (x : Except Fault α) : Ends x (fun _ => True) fun _ => True := by
  cases x <;> trivial

/-- Without a precondition that holds, nothing is promised. -/
theorem ends_trivial (x : Except Fault α) {safe : Prop} (hsafe : ¬ safe) :
    Ends x (Stuck safe) fun _ => True :=
  (ends_true x).imp (fun _ _ => stuck_of_not hsafe) fun _ h => h

end

/-! ## §3 Steps -/

/-- How a step ends that starts in a state. -/
def Ensures {σ α : Type} (act : Step σ α) (s : σ) (E : Fault → Prop) (Q : α → σ → Prop) : Prop :=
  Ends (act s) E fun p => Q p.1 p.2

section

variable {σ α β : Type} {act : Step σ α} {s : σ} {E : Fault → Prop} {P : α → σ → Prop}
  {Q : β → σ → Prop}

theorem Ensures.pure {a : α} (h : P a s) : Ensures (pure a) s E P := h

theorem Ensures.bind {k : α → Step σ β} (h : Ensures act s E P)
    (hk : ∀ a s', P a s' → Ensures (k a) s' E Q) : Ensures (act >>= k) s E Q :=
  Ends.bind (Q := fun p : β × σ => Q p.1 p.2) h fun p hp => hk p.1 p.2 hp

theorem Ensures.imp {E' : Fault → Prop} {P' : α → σ → Prop} (h : Ensures act s E P)
    (hE : ∀ f, E f → E' f) (hP : ∀ a s', P a s' → P' a s') : Ensures act s E' P' :=
  Ends.imp h hE fun p hp => hP p.1 p.2 hp

theorem Ensures.mono {P' : α → σ → Prop} (h : Ensures act s E P)
    (hP : ∀ a s', P a s' → P' a s') : Ensures act s E P' :=
  h.imp (fun _ hf => hf) hP

theorem Ensures.map {f : α → β} (h : Ensures act s E P) (hf : ∀ a s', P a s' → Q (f a) s') :
    Ensures (f <$> act) s E Q := by
  rw [map_eq_pure_bind]
  exact h.bind fun a s' ha => .pure (hf a s' ha)

theorem Ensures.get_bind {k : σ → Step σ β} (h : Ensures (k s) s E Q) :
    Ensures (get >>= k) s E Q := h

theorem Ensures.modify_bind {f : σ → σ} {k : PUnit → Step σ β} (h : Ensures (k ⟨⟩) (f s) E Q) :
    Ensures (modify f >>= k) s E Q := h

theorem Ensures.ofExcept_bind {x : Except Fault α} {R : α → Prop} {k : α → Step σ β}
    (h : Ends x E R) (hk : ∀ a, R a → Ensures (k a) s E Q) :
    Ensures (Fault.ofExcept x >>= k) s E Q := by
  cases x with
  | error fault => exact h
  | ok a => exact hk a h

theorem Ensures.of_run {a : α} {s' : σ} (h : Ensures act s E P) (hrun : act s = .ok (a, s')) :
    P a s' :=
  Ends.of_ok (P := fun p : α × σ => P p.1 p.2) h hrun

/-- Nothing is said about a step. -/
theorem ensures_true (act : Step σ α) (s : σ) : Ensures act s (fun _ => True) fun _ _ => True :=
  ends_true (act s)

/-- A step for which no fault is allowed has a result. -/
theorem Ensures.exists_ok (h : Ensures act s (fun _ => False) P) :
    ∃ p, act s = .ok p ∧ P p.1 p.2 := by
  unfold Ensures at h
  cases hact : act s with
  | error fault =>
    rw [hact] at h
    exact h.elim
  | ok p =>
    rw [hact] at h
    exact ⟨p, rfl, h⟩

/-- The answers of a step that is run for a list of things, one for each of them, where each run
    keeps an invariant. -/
theorem ensures_mapM_each {xs : List β} {f : β → Step σ α} {P : β → α → Prop} {I : σ → Prop}
    (hs : I s) (h : ∀ x ∈ xs, ∀ s, I s → Ensures (f x) s E fun a s' => P x a ∧ I s') :
    Ensures (xs.mapM f) s E fun ys s' => List.Forall₂ P xs ys ∧ I s' := by
  induction xs generalizing s with
  | nil => exact .pure ⟨.nil, hs⟩
  | cons x xs ih =>
    rw [List.mapM_cons]
    refine (h x List.mem_cons_self s hs).bind fun y s₁ hy => ?_
    refine (ih hy.2 fun z hz => h z (List.mem_cons_of_mem x hz)).bind fun ys s₂ hys => ?_
    exact .pure ⟨.cons hy.1 hys.1, hys.2⟩

/-- The answers of a step that is run for a list of things, each as a property says. -/
theorem ensures_mapM {xs : List β} {f : β → Step σ α} {P : α → Prop} {I : σ → Prop} (hs : I s)
    (h : ∀ x ∈ xs, ∀ s, I s → Ensures (f x) s E fun a s' => P a ∧ I s') :
    Ensures (xs.mapM f) s E fun ys s' => (ys.length = xs.length ∧ ∀ y ∈ ys, P y) ∧ I s' := by
  apply (ensures_mapM_each (P := fun _ => P) hs h).mono
  rintro ys s' ⟨hys, hs'⟩
  refine ⟨⟨hys.length_eq.symm, ?_⟩, hs'⟩
  clear h
  induction hys with
  | nil => exact fun y hy => absurd hy List.not_mem_nil
  | cons hy _ ih => exact List.forall_mem_cons.mpr ⟨hy, ih⟩

end

/-! ## §4 Requests -/

/-- How a request ends that starts in a state: a refusal and the state it leaves are as `R` says, a
    result and its state as `Q` says. -/
def Grants {σ α : Type} (act : Request σ α) (s : σ) (E : Fault → Prop) (R : Refusal → σ → Prop)
    (Q : α → σ → Prop) : Prop :=
  Ends (act s) E fun p => p.1.casesOn (fun refusal => R refusal p.2) fun a => Q a p.2

section

variable {σ α β : Type} {act : Request σ α} {s : σ} {E : Fault → Prop} {R : Refusal → σ → Prop}
  {P : α → σ → Prop} {Q : β → σ → Prop}

theorem Grants.pure {a : α} (h : P a s) : Grants (pure a) s E R P := h

theorem Grants.throw {refusal : Refusal} (h : R refusal s) :
    Grants (throw refusal : Request σ α) s E R P := h

theorem Grants.fault {fault : Fault} (h : E fault) :
    Grants (throwThe Fault fault : Request σ α) s E R P := h

theorem Grants.bind {k : α → Request σ β} (h : Grants act s E R P)
    (hk : ∀ a s', P a s' → Grants (k a) s' E R Q) : Grants (act >>= k) s E R Q := by
  show Ends (act s >>= fun p => ExceptT.bindCont k p.1 p.2) E _
  refine Ends.bind h fun p hp => ?_
  obtain ⟨refusal | a, s'⟩ := p
  · exact hp
  · exact hk a s' hp

theorem Grants.imp {E' : Fault → Prop} {R' : Refusal → σ → Prop} {P' : α → σ → Prop}
    (h : Grants act s E R P) (hE : ∀ f, E f → E' f) (hR : ∀ r s', R r s' → R' r s')
    (hP : ∀ a s', P a s' → P' a s') : Grants act s E' R' P' := by
  refine Ends.imp h hE fun p hp => ?_
  obtain ⟨refusal | a, s'⟩ := p
  · exact hR refusal s' hp
  · exact hP a s' hp

theorem Grants.mono {P' : α → σ → Prop} (h : Grants act s E R P)
    (hP : ∀ a s', P a s' → P' a s') : Grants act s E R P' :=
  h.imp (fun _ hf => hf) (fun _ _ hr => hr) hP

theorem Grants.imp_refusal {R' : Refusal → σ → Prop} (h : Grants act s E R P)
    (hR : ∀ r s', R r s' → R' r s') : Grants act s E R' P :=
  h.imp (fun _ hf => hf) hR fun _ _ hp => hp

/-- A request that is never refused, as a part of one that may be. -/
theorem Grants.unrefused (h : Grants act s E (fun _ _ => False) P) : Grants act s E R P :=
  h.imp_refusal fun _ _ hr => hr.elim

/-- What a law says of the results alone. -/
theorem Grants.results (h : Grants act s E R P) :
    Grants act s (fun _ => True) (fun _ _ => True) P :=
  h.imp (fun _ _ => trivial) (fun _ _ _ => trivial) fun _ _ hp => hp

/-- What two laws say of a request holds together. -/
theorem Grants.and {E' : Fault → Prop} {R' : Refusal → σ → Prop} {P' : α → σ → Prop}
    (h : Grants act s E R P) (h' : Grants act s E' R' P') :
    Grants act s (fun f => E f ∧ E' f) (fun r s' => R r s' ∧ R' r s')
      fun a s' => P a s' ∧ P' a s' := by
  unfold Grants at *
  cases hact : act s with
  | error fault =>
    rw [hact] at h h'
    exact ⟨h, h'⟩
  | ok p =>
    rw [hact] at h h'
    obtain ⟨refusal | a, s'⟩ := p
    · exact ⟨h, h'⟩
    · exact ⟨h, h'⟩

/-- What is granted is what the run leaves. -/
theorem Grants.ran (h : Grants act s E R P) :
    Grants act s E R fun a s' => act s = .ok (.ok a, s') ∧ P a s' := by
  unfold Grants at h ⊢
  cases hrun : act s with
  | error fault =>
    rw [hrun] at h
    exact h
  | ok p =>
    rw [hrun] at h
    obtain ⟨refusal | a, s'⟩ := p
    · exact h
    · exact ⟨rfl, h⟩

theorem Grants.get_bind {k : σ → Request σ β} (h : Grants (k s) s E R Q) :
    Grants (get >>= k) s E R Q := h

theorem Grants.modify_bind {f : σ → σ} {k : PUnit → Request σ β}
    (h : Grants (k ⟨⟩) (f s) E R Q) : Grants (modify f >>= k) s E R Q := h

theorem Grants.modify {f : σ → σ} {P : PUnit → σ → Prop} (h : P ⟨⟩ (f s)) :
    Grants (modify f) s E R P := h

theorem Grants.ofExcept_bind {x : Except Fault α} {T : α → Prop} {k : α → Request σ β}
    (h : Ends x E T) (hk : ∀ a, T a → Grants (k a) s E R Q) :
    Grants (Fault.ofExcept x >>= k) s E R Q := by
  cases x with
  | error fault => exact h
  | ok a => exact hk a h

theorem Grants.ofExcept {x : Except Fault α} {T : α → Prop} (h : Ends x E T) :
    Grants (Fault.ofExcept x) s E R fun a s' => T a ∧ s' = s := by
  cases x with
  | error fault => exact h
  | ok a => exact ⟨h, rfl⟩

/-- The outcome of a request, whether it is granted or refused. -/
theorem Grants.outcome_bind {k : Except Refusal α → Step σ β} (h : Grants act s E R P)
    (hR : ∀ refusal s', R refusal s' → Ensures (k (.error refusal)) s' E Q)
    (hP : ∀ a s', P a s' → Ensures (k (.ok a)) s' E Q) : Ensures (act.run >>= k) s E Q := by
  refine Ends.bind h fun p hp => ?_
  obtain ⟨refusal | a, s'⟩ := p
  · exact hR refusal s' hp
  · exact hP a s' hp

/-- The outcome of a request that is never refused is a result. -/
theorem Grants.run_bind {k : Except Refusal α → Step σ β}
    (h : Grants act s E (fun _ _ => False) P)
    (hk : ∀ a s', P a s' → Ensures (k (.ok a)) s' E Q) : Ensures (act.run >>= k) s E Q :=
  h.outcome_bind (fun _ _ hr => hr.elim) hk

/-- A step is a request that is not refused. -/
theorem Ensures.step {act : Step σ α} (h : Ensures act s E P) :
    Grants (Request.step act) s E R P := by
  show Ends (act s >>= fun p => Except.ok (Except.ok p.1, p.2)) E _
  exact Ends.bind h fun p hp => hp

theorem Grants.of_run {a : α} {s' : σ} (h : Grants act s E R P)
    (hrun : act s = .ok (.ok a, s')) : P a s' := by
  unfold Grants at h
  rwa [hrun] at h

theorem Grants.of_refusal {refusal : Refusal} {s' : σ} (h : Grants act s E R P)
    (hrun : act s = .ok (.error refusal, s')) : R refusal s' := by
  unfold Grants at h
  rwa [hrun] at h

/-- A composed request is granted if both of its parts are, one after the other. -/
theorem bind_eq_granted {k : α → Request σ β} {b : β} {s'' : σ} :
    (act >>= k) s = .ok (.ok b, s'') ↔
      ∃ a s', act s = .ok (.ok a, s') ∧ k a s' = .ok (.ok b, s'') := by
  show (act s >>= fun p => ExceptT.bindCont k p.1 p.2) = _ ↔ _
  constructor
  · intro h
    cases hact : act s with
    | error fault =>
      rw [hact] at h
      cases h
    | ok p =>
      rw [hact] at h
      obtain ⟨refusal | a, s'⟩ := p
      · cases h
      · exact ⟨a, s', rfl, h⟩
  · rintro ⟨a, s', hact, hk⟩
    rw [hact]
    exact hk

theorem ofAttempt_eq_granted {x : Attempt α} {a : α} {s' : σ} :
    Request.ofAttempt x s = .ok (.ok a, s') ↔ x = .ok (.ok a) ∧ s' = s := by
  unfold Request.ofAttempt
  cases x with
  | error fault => exact ⟨nofun, nofun⟩
  | ok r =>
    constructor
    · intro h
      cases h
      exact ⟨rfl, rfl⟩
    · rintro ⟨h, rfl⟩
      cases h
      rfl

/-- The fault that stopped a run. -/
def fault? : Except Fault α → Option Fault
  | .error fault => some fault
  | .ok _ => none

theorem eq_error_of_fault? {x : Except Fault α} {fault : Fault} (h : fault? x = some fault) :
    x = .error fault := by
  cases x with
  | error fault' =>
    cases h
    rfl
  | ok a => cases h

/-- What a request is answered, if it is granted, with the state that it leaves. -/
def granted? : Except Fault (Except Refusal α × σ) → Option (α × σ)
  | .ok (.ok a, s) => some (a, s)
  | _ => none

/-- A request that is granted, with a test that applies to its answer and its state. -/
theorem exists_of_granted?_any {x : Except Fault (Except Refusal α × σ)} {p : α × σ → Bool}
    (h : (granted? x).any p = true) : ∃ a s, x = .ok (.ok a, s) ∧ p (a, s) = true := by
  unfold granted? at h
  split at h
  · exact ⟨_, _, rfl, h⟩
  · cases h

/-- Why a request is refused, if it is, with the state that it leaves. -/
def refused? : Except Fault (Except Refusal α × σ) → Option (Refusal × σ)
  | .ok (.error refusal, s) => some (refusal, s)
  | _ => none

theorem exists_of_refused?_any {x : Except Fault (Except Refusal α × σ)}
    {p : Refusal × σ → Bool} (h : (refused? x).any p = true) :
    ∃ refusal s, x = .ok (.error refusal, s) ∧ p (refusal, s) = true := by
  unfold refused? at h
  split at h
  · exact ⟨_, _, rfl, h⟩
  · cases h

/-- A request for which neither faults nor refusals are allowed has a result. -/
theorem Grants.exists_ok (h : Grants act s (fun _ => False) (fun _ _ => False) P) :
    ∃ a s', act s = .ok (.ok a, s') ∧ P a s' := by
  unfold Grants at h
  cases hact : act s with
  | error fault =>
    rw [hact] at h
    exact h.elim
  | ok p =>
    rw [hact] at h
    obtain ⟨refusal | a, s'⟩ := p
    · exact h.elim
    · exact ⟨a, s', rfl, h⟩

/-- A request for which neither faults nor results are allowed is refused. -/
theorem Grants.exists_refusal (h : Grants act s (fun _ => False) R fun _ _ => False) :
    ∃ refusal s', act s = .ok (.error refusal, s') ∧ R refusal s' := by
  unfold Grants at h
  cases hact : act s with
  | error fault =>
    rw [hact] at h
    exact h.elim
  | ok p =>
    rw [hact] at h
    obtain ⟨refusal | a, s'⟩ := p
    · exact ⟨refusal, s', rfl, h⟩
    · exact h.elim

/-- A request that runs on a part of the state. -/
theorem grants_focus {τ : Type} {run : Request τ α} (put : σ → τ) {t : τ}
    (hrun : run t = (act s).map fun p => (p.1, put p.2)) (h : Grants act s E R P) :
    Grants run t E (fun refusal t' => ∃ s', t' = put s' ∧ R refusal s')
      fun a t' => ∃ s', t' = put s' ∧ P a s' := by
  unfold Grants at *
  rw [hrun]
  refine Ends.map (f := fun p : Except Refusal α × σ => (p.1, put p.2)) h fun p hp => ?_
  obtain ⟨refusal | a, s'⟩ := p
  · exact ⟨s', rfl, hp⟩
  · exact ⟨s', rfl, hp⟩

/-- A request is run for a list of things, and each run keeps an invariant. -/
theorem grants_forM {xs : List α} {f : α → Request σ PUnit} {I : σ → Prop} (hs : I s)
    (h : ∀ x ∈ xs, ∀ s, I s → Grants (f x) s E R fun _ s' => I s') :
    Grants (xs.forM f) s E R fun _ s' => I s' := by
  induction xs generalizing s with
  | nil => exact hs
  | cons x xs ih =>
    exact (h x List.mem_cons_self s hs).bind fun _ s' hs' =>
      ih hs' fun y hy => h y (List.mem_cons_of_mem x hy)

/-- The answers of a request that is run for a list of things, of which only an invariant is
    known. -/
theorem grants_mapM {xs : List α} {f : α → Request σ β} {I : σ → Prop} (hs : I s)
    (h : ∀ x ∈ xs, ∀ s, I s → Grants (f x) s E R fun _ s' => I s') :
    Grants (xs.mapM f) s E R fun _ s' => I s' := by
  induction xs generalizing s with
  | nil => exact hs
  | cons x xs ih =>
    rw [List.mapM_cons]
    apply (h x List.mem_cons_self s hs).bind
    intro y s₁ hs₁
    apply (ih hs₁ fun z hz => h z (List.mem_cons_of_mem x hz)).bind
    intro ys s₂ hs₂
    exact .pure hs₂

/-- A request is run for a list of things, and the state tells how far it came. -/
theorem grants_forM_from {xs : List α} {f : α → Request σ PUnit} {I : List α → σ → Prop}
    (hs : I [] s) (h : ∀ done x s, I done s → x ∈ xs →
      Grants (f x) s E R fun _ s' => I (done ++ [x]) s') :
    Grants (xs.forM f) s E R fun _ s' => I xs s' := by
  suffices hgen : ∀ done rest s, I done s → (∀ x ∈ rest, x ∈ xs) →
      Grants (rest.forM f) s E R fun _ s' => I (done ++ rest) s' from
    hgen [] xs s hs fun _ hx => hx
  intro done rest
  induction rest generalizing done with
  | nil =>
    intro s hs _
    show I (done ++ []) s
    rwa [List.append_nil]
  | cons x rest ih =>
    intro s hs hsub
    refine (h done x s hs (hsub x List.mem_cons_self)).bind fun _ s' hs' => ?_
    have hrest := ih (done ++ [x]) s' hs' fun y hy => hsub y (List.mem_cons_of_mem x hy)
    rwa [List.append_assoc] at hrest

/-- A request is run for a list of things and settles one after the other.  What is settled stays
    so, since the states go on from each other. -/
theorem grants_forM_each {xs : List α} {f : α → Request σ PUnit} {L : σ → σ → Prop}
    {S : α → σ → Prop} (hrefl : ∀ t, L t t) (htrans : ∀ t u v, L t u → L u v → L t v)
    (hstay : ∀ x t u, L t u → S x t → S x u)
    (h : ∀ x ∈ xs, ∀ t, L s t → Grants (f x) t E R fun _ u => L t u ∧ S x u) :
    Grants (xs.forM f) s E R fun _ t => L s t ∧ ∀ x ∈ xs, S x t := by
  apply grants_forM_from (I := fun done t => L s t ∧ ∀ x ∈ done, S x t)
  · exact ⟨hrefl s, fun x hx => absurd hx List.not_mem_nil⟩
  · rintro done x t ⟨ht, hdone⟩ hx
    refine (h x hx t ht).mono fun _ u ⟨hu, hsettled⟩ => ⟨htrans s t u ht hu, fun y hy => ?_⟩
    rcases List.mem_append.mp hy with hy | hy
    · exact hstay y t u hu (hdone y hy)
    · rw [List.mem_singleton.mp hy]
      exact hsettled

/-- Unless a fault stops it, the request leaves a state as the property says, refused or not. -/
def Leaves {σ α : Type} (act : Request σ α) (s : σ) (I : σ → Prop) : Prop :=
  Grants act s (fun _ => True) (fun _ s' => I s') fun _ s' => I s'

/-- The request keeps a property of the state. -/
def Preserves {σ α : Type} (act : Request σ α) (I : σ → Prop) : Prop := ∀ s, I s → Leaves act s I

variable {I : σ → Prop}

theorem Leaves.bind {k : α → Request σ β} (h : Leaves act s I) (hk : ∀ a, Preserves (k a) I) :
    Leaves (act >>= k) s I :=
  Grants.bind h fun a s' hs' => hk a s' hs'

theorem Leaves.imp {J : σ → Prop} (h : Leaves act s I) (hIJ : ∀ s', I s' → J s') : Leaves act s J :=
  Grants.imp h (fun _ hf => hf) (fun _ s' => hIJ s') fun _ s' => hIJ s'

/-- What is known of every request. -/
theorem leaves_true (act : Request σ α) (s : σ) : Leaves act s fun _ => True := by
  unfold Leaves Grants
  cases act s with
  | error fault => trivial
  | ok r => obtain ⟨refusal | a, s'⟩ := r <;> trivial

theorem Leaves.of_run {r : Except Refusal α} {s' : σ} (h : Leaves act s I)
    (hrun : act s = .ok (r, s')) : I s' := by
  cases r with
  | error refusal => exact Grants.of_refusal h hrun
  | ok a => exact Grants.of_run h hrun

/-- The outcome of a request of which only is known what it leaves. -/
theorem Leaves.run_bind {k : Except Refusal α → Step σ β} (h : Leaves act s I)
    (hk : ∀ r s', I s' → Ensures (k r) s' (fun _ => True) Q) :
    Ensures (act.run >>= k) s (fun _ => True) Q :=
  Grants.outcome_bind h (fun refusal s' hs' => hk (.error refusal) s' hs')
    fun a s' hs' => hk (.ok a) s' hs'

theorem Preserves.pure (a : α) : Preserves (pure a : Request σ α) I := fun _ hs => hs

theorem Preserves.throw_bind (refusal : Refusal) (k : α → Request σ β) :
    Preserves ((throw refusal : Request σ α) >>= k) I := fun _ hs => hs

theorem Preserves.throw (refusal : Refusal) : Preserves (throw refusal : Request σ α) I :=
  fun _ hs => hs

theorem Preserves.fault_bind (fault : Fault) (k : α → Request σ β) :
    Preserves ((throwThe Fault fault : Request σ α) >>= k) I := fun _ _ => trivial

theorem Preserves.get : Preserves (get : Request σ σ) I := fun _ hs => hs

theorem Preserves.modify {f : σ → σ} (h : ∀ s, I s → I (f s)) :
    Preserves (modify f : Request σ PUnit) I := h

theorem Preserves.ofExcept (x : Except Fault α) : Preserves (Fault.ofExcept x : Request σ α) I := by
  intro s hs
  cases x with
  | error fault => trivial
  | ok a => exact hs

theorem Preserves.ofAttempt (x : Attempt α) : Preserves (Request.ofAttempt x : Request σ α) I := by
  intro s hs
  unfold Leaves Grants Request.ofAttempt
  cases x with
  | error fault => trivial
  | ok r => cases r <;> exact hs

theorem Preserves.bind {k : α → Request σ β} (h : Preserves act I) (hk : ∀ a, Preserves (k a) I) :
    Preserves (act >>= k) I :=
  fun s hs => (h s hs).bind hk

theorem Preserves.forM {xs : List α} {f : α → Request σ PUnit} (h : ∀ x, Preserves (f x) I) :
    Preserves (xs.forM f) I :=
  fun _ hs => grants_forM hs fun x _ s' hs' => h x s' hs'

end

/-! ## §5 Attempts -/

/-- How an attempt ends. -/
def Attempts {α : Type} (x : Attempt α) (E : Fault → Prop) (R : Refusal → Prop) (Q : α → Prop) :
    Prop :=
  Ends x E fun r => r.casesOn R Q

section

variable {σ τ α β : Type} {E : Fault → Prop} {T : Refusal → Prop}

theorem Attempts.imp {x : Attempt α} {E' : Fault → Prop} {T' : Refusal → Prop} {P P' : α → Prop}
    (h : Attempts x E T P) (hE : ∀ f, E f → E' f) (hT : ∀ r, T r → T' r) (hP : ∀ a, P a → P' a) :
    Attempts x E' T' P' := by
  refine Ends.imp h hE fun r hr => ?_
  cases r with
  | error refusal => exact hT refusal hr
  | ok a => exact hP a hr

/-- What two laws say of an attempt holds together. -/
theorem Attempts.and {x : Attempt α} {E' : Fault → Prop} {T' : Refusal → Prop} {P P' : α → Prop}
    (h : Attempts x E T P) (h' : Attempts x E' T' P') :
    Attempts x (fun f => E f ∧ E' f) (fun r => T r ∧ T' r) fun a => P a ∧ P' a := by
  unfold Attempts Ends at *
  split at h
  · exact ⟨h, h'⟩
  · rename_i r
    cases r with
    | error refusal => exact ⟨h, h'⟩
    | ok a => exact ⟨h, h'⟩

/-- Without a precondition that holds, nothing is promised. -/
theorem attempts_trivial (x : Attempt α) {safe : Prop} (hsafe : ¬ safe) :
    Attempts x (Stuck safe) (fun _ => True) fun _ => True :=
  (ends_trivial x hsafe).imp (fun _ hf => hf) fun r _ => by cases r <;> trivial

theorem Attempts.bind {x : Attempt α} {k : α → Attempt β} {P : α → Prop} {Q : β → Prop}
    (h : Attempts x E T P) (hk : ∀ a, P a → Attempts (k a) E T Q) : Attempts (x >>= k) E T Q := by
  show Ends (Except.bind x (ExceptT.bindCont k)) E _
  refine Ends.bind (x := (x : Except Fault _)) h fun r hr => ?_
  cases r with
  | error refusal => exact hr
  | ok a => exact hk a hr

theorem Attempts.ofExcept_bind {x : Except Fault α} {k : α → Attempt β} {P : α → Prop}
    {Q : β → Prop} (h : Ends x E P) (hk : ∀ a, P a → Attempts (k a) E T Q) :
    Attempts (Fault.ofExcept x >>= k) E T Q := by
  cases x with
  | error fault => exact h
  | ok a => exact hk a h

theorem Attempts.of_run {x : Attempt α} {E : Fault → Prop} {T : Refusal → Prop} {P : α → Prop}
    {a : α} (h : Attempts x E T P) (hrun : x = .ok (.ok a)) : P a := by
  unfold Attempts Ends at h
  rwa [hrun] at h

/-- What an attempt results in, unless it is refused or a fault stops it. -/
def attempted? : Except Fault (Except Refusal α) → Option α
  | .ok (.ok a) => some a
  | _ => none

theorem eq_of_attempted? {x : Except Fault (Except Refusal α)} {a : α}
    (h : attempted? x = some a) : x = .ok (.ok a) := by
  unfold attempted? at h
  split at h
  · rw [Option.some.inj h]
  · cases h

/-- An attempt with a result to which a test applies. -/
theorem exists_of_attempted?_any {x : Except Fault (Except Refusal α)} {p : α → Bool}
    (h : (attempted? x).any p = true) : ∃ a, x = .ok (.ok a) ∧ p a = true := by
  cases hresult : attempted? x with
  | none =>
    rw [hresult] at h
    cases h
  | some a =>
    rw [hresult] at h
    exact ⟨a, eq_of_attempted? hresult, h⟩

/-- A request that runs on a state of its own. -/
theorem Grants.runOn {act : Request σ α} {s : σ} {P : α → σ → Prop}
    (h : Grants act s E (fun refusal _ => T refusal) P) :
    Attempts (act.runOn s) E T fun p => P p.1 p.2 := by
  unfold Request.runOn
  unfold Grants at h
  cases hact : act s with
  | error fault =>
    rw [hact] at h
    exact h
  | ok p =>
    rw [hact] at h
    obtain ⟨refusal | a, s'⟩ := p
    · exact h
    · exact h

theorem Attempts.ofAttempt {x : Attempt α} {s : σ} {R : Refusal → σ → Prop} {P : α → Prop}
    (h : Attempts x E (fun refusal => R refusal s) P) :
    Grants (Request.ofAttempt x) s E R fun a s' => P a ∧ s' = s := by
  unfold Attempts at h
  unfold Grants Request.ofAttempt
  cases x with
  | error fault => exact h
  | ok r =>
    cases r with
    | error refusal => exact h
    | ok a => exact ⟨h, rfl⟩

end

end Stimulus
