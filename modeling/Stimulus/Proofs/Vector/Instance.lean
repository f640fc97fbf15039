import Stimulus.Proofs.Outcome
import Stimulus.Proofs.Vector.Body
import Stimulus.Vector.Instance

/-!
# Instances say what bodies say

A body has an instance at an index exactly if all its accesses resolve.  The instance has the sort
of the body, neither an access nor the placeholder is left in it, and its value is that of the body,
whatever values the elements have.

Main definitions:
- `SkipsUnless`: an attempt that has a result under a condition
- `Expr.InstanceOf`: what an instance has in common with its body

Main statements:
- `Expr.instantiate_skipsUnless`
- `Expr.instantiate_exact`
-/

namespace Stimulus

/-! ## §1 Attempts that may skip -/

/-- Exactly under the condition the attempt has a result, which is as `Q` says.  Otherwise it is
    skipped, and if it is safe it has no fault. -/
def SkipsUnless {α : Type} (safe : Prop) (x : ExceptT Skip (Except Fault) α) (found : Prop)
    (Q : α → Prop) : Prop :=
  match x.run with
  | .ok (.ok a) => found ∧ Q a
  | .ok (.error _) => ¬ found
  | .error _ => ¬ found ∧ ¬ safe

section

variable {α β : Type} {x : ExceptT Skip (Except Fault) α} {safe found found' : Prop} {Q : α → Prop}
  {Q' : β → Prop}

theorem SkipsUnless.pure {a : α} (h : Q a) : SkipsUnless safe (Pure.pure a) True Q := ⟨trivial, h⟩

theorem SkipsUnless.skip (s : Skip) (h : ¬ found) :
    SkipsUnless safe (throwThe Skip s : ExceptT Skip (Except Fault) α) found Q := h

theorem SkipsUnless.congr (h : SkipsUnless safe x found Q) (hfound : found ↔ found') :
    SkipsUnless safe x found' Q := by
  rwa [← propext hfound]

theorem SkipsUnless.bind {k : α → ExceptT Skip (Except Fault) β} (h : SkipsUnless safe x found Q)
    (hk : ∀ a, Q a → SkipsUnless safe (k a) found' Q') :
    SkipsUnless safe (x >>= k) (found ∧ found') Q' := by
  unfold SkipsUnless at h ⊢
  rw [ExceptT.run_bind]
  cases hrun : x.run with
  | error fault =>
    rw [hrun] at h
    exact ⟨fun hboth => h.1 hboth.1, h.2⟩
  | ok r =>
    rw [hrun] at h
    cases r with
    | error skip => exact fun hboth => h hboth.1
    | ok a => exact (hk a h.2).congr (and_iff_right h.1).symm

/-- The last step of an attempt cannot be skipped. -/
theorem SkipsUnless.bind_pure {k : α → ExceptT Skip (Except Fault) β}
    (h : SkipsUnless safe x found Q) (hk : ∀ a, Q a → ∃ b, k a = Pure.pure b ∧ Q' b) :
    SkipsUnless safe (x >>= k) found Q' := by
  have hboth : SkipsUnless safe (x >>= k) (found ∧ True) Q' := by
    refine h.bind fun a ha => ?_
    obtain ⟨b, hb, hq⟩ := hk a ha
    rw [hb]
    exact .pure hq
  exact hboth.congr (and_iff_left trivial)

/-- There is a result exactly under the condition. -/
theorem SkipsUnless.exists_iff (h : SkipsUnless safe x found Q) :
    (∃ a, x.run = .ok (.ok a)) ↔ found := by
  unfold SkipsUnless at h
  cases hrun : x.run with
  | error fault =>
    rw [hrun] at h
    exact iff_of_false (by simp) h.1
  | ok r =>
    rw [hrun] at h
    cases r with
    | error skip => exact iff_of_false (by simp) h
    | ok a => exact iff_of_true ⟨a, rfl⟩ h.1

theorem SkipsUnless.of_run {a : α} (h : SkipsUnless safe x found Q) (hrun : x.run = .ok (.ok a)) :
    Q a := by
  unfold SkipsUnless at h
  rw [hrun] at h
  exact h.2

/-- Without a result a safe attempt is skipped. -/
theorem SkipsUnless.exists_skip (h : SkipsUnless safe x found Q) (hsafe : safe)
    (hfound : ¬ found) : ∃ skip, x.run = .ok (.error skip) := by
  unfold SkipsUnless at h
  cases hrun : x.run with
  | error fault =>
    rw [hrun] at h
    exact absurd hsafe h.2
  | ok r =>
    rw [hrun] at h
    cases r with
    | error skip => exact ⟨skip, rfl⟩
    | ok a => exact absurd h.1 hfound

end

/-! ## §2 Widths -/

namespace Expr

section

variable {elem : BitSort} {op : BinaryOp} {a a' l l' r r' c c' : Expr} {extra : Nat}

/-- Whether a width is admissible depends on the sorts of the operands. -/
theorem Admissible.extend (h : Admissible (.extend a extra)) (ha : a'.sort = a.sort) :
    Admissible (.extend a' extra) := by
  simpa [Admissible, checked, ha] using h

theorem Admissible.binary (h : Admissible (.binary op l r)) (hl : l'.sort = l.sort)
    (hr : r'.sort = r.sort) : Admissible (.binary op l' r') := by
  simpa [Admissible, checked, hl, hr] using h

theorem Admissible.ite (h : Admissible (.ite c l r)) (hl : l'.sort = l.sort)
    (hr : r'.sort = r.sort) : Admissible (.ite c' l' r') := by
  simpa [Admissible, checked, hl, hr] using h

theorem meetOverflows_eq_false {s t : BitSort} (h : (s.common t).width ≤ 128) :
    s.meetOverflows t = false := by
  have hmeet := BitSort.meet_eq_ok h
  unfold BitSort.meet at hmeet
  cases hover : s.meetOverflows t with
  | false => rfl
  | true =>
    rw [hover] at hmeet
    cases hmeet

/-- Widths that values can have are admissible. -/
theorem Bounded.built {e : Expr} (h : e.Bounded elem) : e.Built elem := by
  induction e with
  | var id s => trivial
  | const bits s => trivial
  | placeholder q => trivial
  | vector id s => trivial
  | element v index _ ih => exact ⟨h.1, ih h.2⟩
  | unary op arg ih => exact ih h
  | inside arg set ih => exact ih h.1
  | extend arg extra ih =>
    have hlimit : 128 < BitSort.widthLimit := by decide
    have hfits : ¬ BitSort.widthLimit ≤ arg.sort.width + extra := by
      have := h.2
      omega
    exact ⟨ih h.1, by simp [Admissible, checked, hfits]⟩
  | slice arg hi lo ih => exact ih h.1
  | ite cond yes no ihc iht ihe =>
    obtain ⟨hc, ht, he, hwidth⟩ := h
    exact ⟨ihc hc, iht ht, ihe he, by simp [Admissible, checked, meetOverflows_eq_false hwidth]⟩
  | binary op lhs rhs ihl ihr =>
    obtain ⟨hl, hr, hnarrow⟩ := h
    exact ⟨ihl hl, ihr hr,
      by simp [Admissible, checked, meetOverflows_eq_false hnarrow.common_le]⟩
  | _ => exact absurd h id

end

/-! ## §3 Instances -/

/-- Neither an access nor the placeholder is left. -/
def Freed (p : Nat) (e : Expr) : Prop :=
  ∀ x ∈ e.preorder, x ≠ .placeholder p ∧ ∀ v k, x ≠ .element v k

/-- What an instance of a body at an index has in common with it, given the ids of the elements. -/
structure InstanceOf (p i : Nat) (elem : BitSort) (ids : List Nat) (e e' : Expr) : Prop where
  sort_eq : e'.sort = e.sort
  eval_eq : ∀ env : Nat → Option Nat,
    e'.eval env = e.valueAt p i env fun k => ids[k]?.bind env
  freed : e'.Freed p
  plain : e.Bounded elem → elem.width ≤ 64 → e.Closed p → e'.Plain
  mentions : ∀ j s, e'.Mentions j s → e.Mentions j s ∨ (j ∈ ids ∧ s = elem)

section

variable {p i : Nat} {elem : BitSort} {ids : List Nat} {elements : Array Expr} {safe : Prop}

/-- An index that is a number names the element at that position, if there is one. -/
theorem elementNamed_of_eval {index : Expr} {k : Value}
    (h : (index.eval fun _ => none).run = .ok (some k)) : elementNamed elements index =
      (k.number.toNat?.bind (elements[·]?)).elim
        (throwThe Skip (.indexOutOfRange k.number)) pure := by
  unfold elementNamed
  rw [ofExcept_ok_bind h]
  dsimp only
  cases k.number with
  | negSucc n => rfl
  | ofNat n =>
    dsimp only [Int.toNat?, Option.bind_some]
    cases elements[n]? <;> rfl

theorem elementNamed_of_failure {index : Expr} (h : (index.eval fun _ => none).run = .ok none) :
    elementNamed elements index = throwThe Skip .indexNotConstant := by
  unfold elementNamed
  rw [ofExcept_ok_bind h]

theorem elementNamed_of_fault {index : Expr} {fault : Fault}
    (h : (index.eval fun _ => none).run = .error fault) :
    (elementNamed elements index).run = .error fault := by
  unfold elementNamed
  rw [h]
  rfl

/-- A number names an element if it is one of the positions. -/
theorem exists_named {n : Int} :
    (∃ j < ids.length, n = (j : Nat)) ↔ ∃ id, n.toNat?.bind (ids[·]?) = some id := by
  constructor
  · rintro ⟨j, hj, rfl⟩
    exact ⟨ids[j], List.getElem?_eq_getElem hj⟩
  · rintro ⟨id, hid⟩
    obtain ⟨j, hj, hid⟩ := Option.bind_eq_some_iff.mp hid
    exact ⟨j, (List.getElem?_eq_some_iff.mp hid).1, Int.mem_toNat?.mp hj⟩

/-- The symbol of the element that the index of an access names is an instance of the access. -/
theorem instanceOf_access {index : Expr} {id id' : Nat} {k : Value}
    (hk : index.valueAt p i (fun _ => none) (fun _ => none) = pure k)
    (hid : k.number.toNat?.bind (ids[·]?) = some id') :
    InstanceOf p i elem ids (.element (.vector id elem) index) (.var id' elem) where
  sort_eq := rfl
  eval_eq env := by
    have hbits : (k.number.toNat?.bind fun j => ids[j]?.bind env) = env id' := by
      rw [← Option.bind_assoc, hid, Option.bind_some]
    rw [eval, valueAt, hk, pure_bind, hbits]
    rfl
  freed := List.forall_mem_singleton.mpr ⟨by simp, by simp⟩
  plain _ helem _ := helem
  mentions j s hmem := by
    obtain ⟨rfl, rfl⟩ := mentions_var.mp hmem
    obtain ⟨n, -, hn⟩ := Option.bind_eq_some_iff.mp hid
    exact .inr ⟨List.mem_of_getElem? hn, rfl⟩

/-- An access is replaced by the symbol of the element that its index names. -/
theorem elementNamed_skipsUnless {index index' : Expr} {id : Nat}
    (hindex : InstanceOf p i elem ids index index')
    (hbounded : safe → index.Bounded elem) (helem : safe → elem.width ≤ 64)
    (helements : elements.toList = ids.map (Expr.var · elem)) :
    SkipsUnless safe (elementNamed elements index')
      (∃ k, index.valueAt p i (fun _ => none) (fun _ => none) = pure k ∧
        ∃ j < ids.length, k.number = j)
      (InstanceOf p i elem ids (.element (.vector id elem) index)) := by
  -- An index has its value before the elements have theirs.
  have heval : index'.eval (fun _ => none) = index.valueAt p i (fun _ => none) fun _ => none := by
    rw [hindex.eval_eq]
    congr 1
    funext k
    cases ids[k]? <;> rfl
  cases hvalue : (index.valueAt p i (fun _ => none) fun _ => none).run with
  | error fault =>
    have hfound : ∀ k, index.valueAt p i (fun _ => none) (fun _ => none) ≠ pure k := fun k hk => by
      rw [hk] at hvalue
      cases hvalue
    unfold SkipsUnless
    rw [elementNamed_of_fault (heval ▸ hvalue)]
    refine ⟨fun hnamed => hnamed.elim fun k hk => hfound k hk.1, fun hs => ?_⟩
    rcases valueAt_lands (hbounded hs) (helem hs) p i (fun _ => none) (fun _ => none) with
      hnone | hsome
    · rw [hnone] at hvalue
      cases hvalue
    · exact hsome.elim fun k hk => hfound k hk.1
  | ok k? =>
    cases k? with
    | none =>
      rw [elementNamed_of_failure (heval ▸ hvalue)]
      refine .skip _ ?_
      rintro ⟨k, hk, -⟩
      rw [hk] at hvalue
      cases hvalue
    | some k =>
      have hk : index.valueAt p i (fun _ => none) (fun _ => none) = pure k := hvalue
      have hnamed : k.number.toNat?.bind (elements[·]?) =
          (k.number.toNat?.bind (ids[·]?)).map (Expr.var · elem) := by
        rw [Option.map_bind]
        congr 1
        funext j
        rw [← Array.getElem?_toList, helements, List.getElem?_map]
        rfl
      rw [elementNamed_of_eval (heval ▸ hvalue), hnamed]
      cases hid : k.number.toNat?.bind (ids[·]?) with
      | none =>
        refine .skip _ ?_
        rintro ⟨k', hk', hposition⟩
        cases hk.symm.trans hk'
        obtain ⟨id', hid'⟩ := exists_named.mp hposition
        cases hid.symm.trans hid'
      | some id' =>
        exact (SkipsUnless.pure (instanceOf_access hk hid)).congr
          (iff_of_true trivial ⟨k, hk, exists_named.mpr ⟨id', hid⟩⟩)

/-- The placeholder becomes the number of the index. -/
theorem instanceOf_index : InstanceOf p i elem ids (placeholder p) (constant i indexSort) where
  sort_eq := rfl
  eval_eq env := by
    have hindex : Value.wrap (indexSort.truncate i : Nat) indexSort = Value.wrap i indexSort := by
      refine wrap_eq_of_mod_eq ?_
      show (BitVec.ofNat 32 i).toNat % 2 ^ 32 = i % 2 ^ 32
      rw [BitVec.toNat_ofNat, Nat.mod_mod]
    rw [valueAt, if_pos rfl, ← hindex]
    rfl
  freed := List.forall_mem_singleton.mpr ⟨by simp, by simp⟩
  plain _ _ _ := Nat.le_add_left 32 96
  mentions j s hmem := absurd hmem not_mentions_const

/-- What is neither an access nor the placeholder is its own instance. -/
theorem instanceOf_self {e : Expr} (hfreed : e.Freed p)
    (heval : ∀ env, e.eval env = e.valueAt p i env fun k => ids[k]?.bind env)
    (hplain : e.Bounded elem → e.Closed p → e.Plain) : InstanceOf p i elem ids e e :=
  ⟨rfl, heval, hfreed, fun h _ => hplain h, fun _ _ => .inl⟩

variable {arg a yes no cond c t f lhs rhs l r : Expr}

theorem InstanceOf.unary (h : InstanceOf p i elem ids arg a) (op : UnaryOp) :
    InstanceOf p i elem ids (.unary op arg) (.unary op a) where
  sort_eq := by cases op <;> simp [sort, h.sort_eq]
  eval_eq env := by rw [eval, valueAt, h.eval_eq]
  freed := List.forall_mem_cons.mpr ⟨⟨by simp, by simp⟩, h.freed⟩
  plain := h.plain
  mentions j s hmem := (h.mentions j s (mentions_unary.mp hmem)).imp_left mentions_unary.mpr

theorem InstanceOf.inside (h : InstanceOf p i elem ids arg a) (set : List Int) :
    InstanceOf p i elem ids (.inside arg set) (.inside a set) where
  sort_eq := rfl
  eval_eq env := by rw [eval, valueAt, h.eval_eq]
  freed := List.forall_mem_cons.mpr ⟨⟨by simp, by simp⟩, h.freed⟩
  plain hbounded helem hclosed := ⟨h.plain hbounded.1 helem hclosed, h.sort_eq ▸ hbounded.2⟩
  mentions j s hmem := (h.mentions j s (mentions_inside.mp hmem)).imp_left mentions_inside.mpr

theorem InstanceOf.extend (h : InstanceOf p i elem ids arg a) (extra : Nat) :
    InstanceOf p i elem ids (.extend arg extra) (.extend a extra) where
  sort_eq := by simp only [sort, h.sort_eq]
  eval_eq env := by
    rw [eval, valueAt, h.eval_eq]
    simp only [sort, h.sort_eq]
  freed := List.forall_mem_cons.mpr ⟨⟨by simp, by simp⟩, h.freed⟩
  plain hbounded helem hclosed := ⟨h.plain hbounded.1 helem hclosed, h.sort_eq ▸ hbounded.2⟩
  mentions j s hmem := (h.mentions j s (mentions_extend.mp hmem)).imp_left mentions_extend.mpr

theorem InstanceOf.slice (h : InstanceOf p i elem ids arg a) (hi lo : Nat) :
    InstanceOf p i elem ids (.slice arg hi lo) (.slice a hi lo) where
  sort_eq := rfl
  eval_eq env := by
    rw [eval, valueAt, h.eval_eq]
    rfl
  freed := List.forall_mem_cons.mpr ⟨⟨by simp, by simp⟩, h.freed⟩
  plain hbounded helem hclosed := ⟨h.plain hbounded.1 helem hclosed, h.sort_eq ▸ hbounded.2⟩
  mentions j s hmem := (h.mentions j s (mentions_slice.mp hmem)).imp_left mentions_slice.mpr

theorem InstanceOf.ite (hc : InstanceOf p i elem ids cond c) (ht : InstanceOf p i elem ids yes t)
    (hf : InstanceOf p i elem ids no f) :
    InstanceOf p i elem ids (.ite cond yes no) (.ite c t f) where
  sort_eq := by simp only [sort, ht.sort_eq, hf.sort_eq]
  eval_eq env := by
    rw [eval, valueAt, hc.eval_eq, ht.eval_eq, hf.eval_eq]
    simp only [sort, ht.sort_eq, hf.sort_eq]
  freed := List.forall_mem_cons.mpr ⟨⟨by simp, by simp⟩, List.forall_mem_append.mpr
    ⟨List.forall_mem_append.mpr ⟨hc.freed, ht.freed⟩, hf.freed⟩⟩
  plain hbounded helem hclosed :=
    ⟨hc.plain hbounded.1 helem hclosed.1, ht.plain hbounded.2.1 helem hclosed.2.1,
      hf.plain hbounded.2.2.1 helem hclosed.2.2, ht.sort_eq ▸ hf.sort_eq ▸ hbounded.2.2.2⟩
  mentions j s hmem := by
    rcases mentions_ite.mp hmem with hmem | hmem | hmem
    · exact (hc.mentions j s hmem).imp_left fun h => mentions_ite.mpr (.inl h)
    · exact (ht.mentions j s hmem).imp_left fun h => mentions_ite.mpr (.inr (.inl h))
    · exact (hf.mentions j s hmem).imp_left fun h => mentions_ite.mpr (.inr (.inr h))

theorem InstanceOf.binary (hl : InstanceOf p i elem ids lhs l) (hr : InstanceOf p i elem ids rhs r)
    (op : BinaryOp) : InstanceOf p i elem ids (.binary op lhs rhs) (.binary op l r) where
  sort_eq := by simp only [sort, hl.sort_eq, hr.sort_eq]
  eval_eq env := by
    rw [eval, valueAt, hl.eval_eq, hr.eval_eq]
    simp only [sort, hl.sort_eq, hr.sort_eq]
  freed := List.forall_mem_cons.mpr ⟨⟨by simp, by simp⟩, List.forall_mem_append.mpr
    ⟨hl.freed, hr.freed⟩⟩
  plain hbounded helem hclosed := by
    refine ⟨hl.plain hbounded.1 helem hclosed.1, hr.plain hbounded.2.1 helem hclosed.2, ?_⟩
    rw [hl.sort_eq, hr.sort_eq]
    exact hbounded.2.2
  mentions j s hmem := by
    rcases mentions_binary.mp hmem with hmem | hmem
    · exact (hl.mentions j s hmem).imp_left fun h => mentions_binary.mpr (.inl h)
    · exact (hr.mentions j s hmem).imp_left fun h => mentions_binary.mpr (.inr h)

/-- A body has an instance at an index exactly if all its accesses resolve. -/
theorem instantiate_skipsUnless {e : Expr} (h : e.Built elem) (hbounded : safe → e.Bounded elem)
    (helem : safe → elem.width ≤ 64)
    (helements : elements.toList = ids.map (Expr.var · elem)) :
    SkipsUnless safe (instantiate p i elements e) (e.Resolves p i ids.length)
      (InstanceOf p i elem ids e) := by
  -- Instances have the sorts of what they stand for, so no constructor refuses them.
  induction e with
  | var id s =>
    have hfreed : Freed p (var id s) := List.forall_mem_singleton.mpr ⟨by simp, by simp⟩
    exact .pure (instanceOf_self hfreed (fun env => rfl) fun hbounded _ => hbounded)
  | const bits s =>
    have hfreed : Freed p (const bits s) := List.forall_mem_singleton.mpr ⟨by simp, by simp⟩
    exact .pure (instanceOf_self hfreed (fun env => rfl) fun hbounded _ => hbounded)
  | vector id s =>
    have hfreed : Freed p (vector id s) := List.forall_mem_singleton.mpr ⟨by simp, by simp⟩
    exact .pure (instanceOf_self hfreed (fun env => rfl) fun _ hclosed => hclosed.elim)
  | placeholder q =>
    refine .pure (a := if q = p then constant i indexSort else placeholder q) ?_
    split
    · rename_i heq
      exact heq ▸ instanceOf_index
    · rename_i hother
      have hfreed : Freed p (placeholder q) :=
        List.forall_mem_singleton.mpr ⟨by simpa using hother, by simp⟩
      refine instanceOf_self hfreed (fun env => ?_) fun _ hclosed => absurd hclosed hother
      rw [eval, valueAt, if_neg hother]
  | element v index _ ih =>
    obtain ⟨⟨id, rfl⟩, hindex⟩ := id h
    show SkipsUnless safe (pure (vector id elem) >>= fun v => instantiate p i elements index >>=
      fun k => elementNamed elements k) _ _
    rw [pure_bind]
    have hbounded' : safe → index.Bounded elem := fun hs => (hbounded hs).2
    exact (ih hindex hbounded').bind fun index' h' =>
      elementNamed_skipsUnless h' hbounded' helem helements
  | unary op arg ih => exact (ih h hbounded).bind_pure fun a ha => ⟨_, rfl, ha.unary op⟩
  | inside arg set ih =>
    exact (ih h fun hs => (hbounded hs).1).bind_pure fun a ha => ⟨_, rfl, ha.inside set⟩
  | extend arg extra ih =>
    refine (ih h.1 fun hs => (hbounded hs).1).bind_pure fun a ha =>
      ⟨.extend a extra, ?_, ha.extend extra⟩
    rw [h.2.extend ha.sort_eq]
    rfl
  | slice arg hi lo ih =>
    exact (ih h fun hs => (hbounded hs).1).bind_pure fun a ha => ⟨_, rfl, ha.slice hi lo⟩
  | ite cond yes no ihc iht ihe =>
    obtain ⟨hc, ht, he, hwidth⟩ := id h
    refine (ihc hc fun hs => (hbounded hs).1).bind fun c hc =>
      (iht ht fun hs => (hbounded hs).2.1).bind fun t ht =>
      (ihe he fun hs => (hbounded hs).2.2.1).bind_pure fun f hf =>
      ⟨.ite c t f, ?_, hc.ite ht hf⟩
    rw [hwidth.ite ht.sort_eq hf.sort_eq]
    rfl
  | binary op lhs rhs ihl ihr =>
    obtain ⟨hl, hr, hwidth⟩ := id h
    refine (ihl hl fun hs => (hbounded hs).1).bind fun l hl =>
      (ihr hr fun hs => (hbounded hs).2.1).bind_pure fun r hr =>
      ⟨.binary op l r, ?_, hl.binary hr op⟩
    rw [hwidth.binary hl.sort_eq hr.sort_eq]
    rfl
  | _ => exact absurd h id

end

/-- A body has an instance at an index exactly if every access, the inner ones first, names an
    element.  The instance has the sort of the body, neither an access nor the placeholder is left
    in it, and whatever values the elements have, its value is that of the body with the placeholder
    read as the index and the accesses as the elements that they name.  A body of bounded widths
    without an instance is skipped. -/
theorem instantiate_exact {elem : BitSort} {body : Expr} (h : body.Built elem) (p i : Nat)
    (ids : List Nat) :
    let attempt := instantiate p i (ids.map (Expr.var · elem)).toArray body
    ((∃ e, attempt.run = .ok (.ok e)) ↔ body.Resolves p i ids.length) ∧
      (∀ e, attempt.run = .ok (.ok e) → e.sort = body.sort ∧
        (∀ x ∈ e.preorder, x ≠ .placeholder p ∧ ∀ v k, x ≠ .element v k) ∧
        ∀ env, e.eval env = body.valueAt p i env fun k => ids[k]?.bind env) ∧
      (body.Bounded elem → elem.width ≤ 64 → ¬ body.Resolves p i ids.length →
        ∃ skip, attempt.run = .ok (.error skip)) := by
  intro attempt
  have hskips : SkipsUnless (body.Bounded elem ∧ elem.width ≤ 64) attempt
      (body.Resolves p i ids.length) (InstanceOf p i elem ids body) :=
    instantiate_skipsUnless h And.left And.right rfl
  refine ⟨hskips.exists_iff, fun e hrun => ?_, fun hbounded helem =>
    hskips.exists_skip ⟨hbounded, helem⟩⟩
  have he := hskips.of_run hrun
  exact ⟨he.sort_eq, he.freed, he.eval_eq⟩

/-- The element before the index is less than the one at the index. -/
def rising : Expr :=
  .binary .less
    (.element (.vector 1 (.unsigned 8)) (.binary .sub (.placeholder 3) (literal 1)))
    (.element (.vector 1 (.unsigned 8)) (.placeholder 3))

/-- The index before the first one wraps, and names no element.  At the second index the instance
    compares the two symbols. -/
theorem instantiate_exact_of_rising : rising.Built (.unsigned 8) ∧
    (¬ ∃ e, (instantiate 3 0 ([5, 6].map (Expr.var · (.unsigned 8))).toArray rising).run =
      .ok (.ok e)) ∧
    ∃ e, (instantiate 3 1 ([5, 6].map (Expr.var · (.unsigned 8))).toArray rising).run =
        .ok (.ok e) ∧
      e.sort = .bool ∧ e.eval (fun j => some (j + 2)) = pure (.truth true) := by
  have hbuilt : rising.Built (.unsigned 8) := by
    refine ⟨⟨⟨1, rfl⟩, trivial, trivial, ?_⟩, ⟨⟨1, rfl⟩, trivial⟩, ?_⟩ <;> rfl
  have hfirst : ¬ rising.Resolves 3 0 2 := by
    rintro ⟨⟨-, k, hk, j, hlt, hj⟩, -⟩
    have hwrapped : k.number = 2 ^ 32 - 1 := by
      cases hk
      rfl
    omega
  have hsecond : rising.Resolves 3 1 2 :=
    ⟨⟨⟨trivial, trivial⟩, _, rfl, 0, by decide, rfl⟩, trivial, _, rfl, 1, by decide, rfl⟩
  obtain ⟨hiff, -, -⟩ := instantiate_exact hbuilt 3 0 [5, 6]
  obtain ⟨hiff', hexact, -⟩ := instantiate_exact hbuilt 3 1 [5, 6]
  obtain ⟨e, hrun⟩ := hiff'.mpr hsecond
  obtain ⟨hsort, -, heval⟩ := hexact e hrun
  exact ⟨hbuilt, fun h => hfirst (hiff.mp h), e, hrun, hsort, (heval _).trans rfl⟩

end Expr

end Stimulus
