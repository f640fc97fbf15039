import Mathlib.Data.List.Basic
import Stimulus.Proofs.Hashing.UniqueTable

/-!
# A unique table is a list

Whatever its buckets are, a unique table answers as a plain list of values does: a value that is put
stands in the list once, at the place where it was put first.  Buckets, collisions and growth only
decide how long the search for a value takes.  The search has no bound of its own; it ends because
chains lead to ever smaller indices.

Main definitions:
- `TableCall`, `runCalls`: calls, and their answers one after the other
- `listCall`: a call answered by a list
- `UniqueTable.Searches`: a search that follows a chain

Main statements:
- `UniqueTable.Sound.searches_find?`
- `UniqueTable.Sound.runCalls_eq`
- `UniqueTable.list_of_calls`
-/

namespace Stimulus

/-! ## §1 Calls -/

/-- A call that stores a value. -/
inductive TableCall (α : Type) where
  | add (v : α)
  | put (v : α)
  deriving DecidableEq

/-- No value is added that is put as well. -/
def Apart {α : Type} (calls : List (TableCall α)) : Prop := ∀ v, .add v ∈ calls → .put v ∉ calls

theorem Apart.take {α : Type} {calls : List (TableCall α)} (h : Apart calls) (k : Nat) :
    Apart (calls.take k) :=
  fun v hadd hput => h v (List.mem_of_mem_take hadd) (List.mem_of_mem_take hput)

section

variable {α σ : Type} {step : σ → TableCall α → Nat × σ}

/-- The answers to calls one after the other, and the state after them. -/
def runCalls (step : σ → TableCall α → Nat × σ) : σ → List (TableCall α) → List Nat × σ
  | s, [] => ([], s)
  | s, c :: rest => ((step s c).1 :: (runCalls step (step s c).2 rest).1,
      (runCalls step (step s c).2 rest).2)

theorem runCalls_append (s : σ) (calls more : List (TableCall α)) :
    runCalls step s (calls ++ more) =
      ((runCalls step s calls).1 ++ (runCalls step (runCalls step s calls).2 more).1,
        (runCalls step (runCalls step s calls).2 more).2) := by
  induction calls generalizing s with
  | nil => rfl
  | cons c rest ih => rw [List.cons_append, runCalls, ih, runCalls, List.cons_append]

/-- Every call is answered in the state that the calls before it lead to. -/
theorem getElem?_runCalls (s : σ) {calls : List (TableCall α)} {k : Nat} {c : TableCall α}
    (h : calls[k]? = some c) :
    (runCalls step s calls).1[k]? = some (step (runCalls step s (calls.take k)).2 c).1 := by
  induction calls generalizing s k with
  | nil => cases h
  | cons b rest ih =>
    cases k with
    | zero =>
      cases h
      rfl
    | succ k => exact ih (step s b).2 h

/-- The state after a call. -/
theorem runCalls_take_succ (s : σ) {calls : List (TableCall α)} {k : Nat} {c : TableCall α}
    (h : calls[k]? = some c) :
    (runCalls step s (calls.take (k + 1))).2 = (step (runCalls step s (calls.take k)).2 c).2 := by
  rw [List.take_add_one, h, runCalls_append]
  rfl

end

/-! ## §2 Calls of a list -/

section

variable {α : Type} [DecidableEq α]

/-- The answer of a list, which counts from one: the place of a value that is put, behind all others
    if it is new. -/
def listCall (l : List α) : TableCall α → Nat × List α
  | .add v => (l.length + 1, l ++ [v])
  | .put v => if v ∈ l then (l.idxOf v + 1, l) else (l.length + 1, l ++ [v])

variable {l l' : List α} {v : α} {calls : List (TableCall α)} {k : Nat}

theorem listCall_put_of_mem (h : v ∈ l) : listCall l (.put v) = (l.idxOf v + 1, l) := if_pos h

theorem listCall_put_of_notMem (h : v ∉ l) : listCall l (.put v) = (l.length + 1, l ++ [v]) :=
  if_neg h

/-- Calls only append to a list. -/
theorem prefix_listCall (l : List α) (c : TableCall α) : l <+: (listCall l c).2 := by
  cases c with
  | add v => exact List.prefix_append l [v]
  | put v =>
    by_cases h : v ∈ l
    · simp only [listCall_put_of_mem h, List.prefix_rfl]
    · rw [listCall_put_of_notMem h]
      exact List.prefix_append l [v]

theorem prefix_runCalls (l : List α) (calls : List (TableCall α)) :
    l <+: (runCalls listCall l calls).2 := by
  induction calls generalizing l with
  | nil => exact List.prefix_rfl
  | cons c rest ih => exact (prefix_listCall l c).trans (ih _)

theorem prefix_runCalls_take (l : List α) (calls : List (TableCall α)) (k : Nat) :
    (runCalls listCall l (calls.take k)).2 <+: (runCalls listCall l calls).2 := by
  have h := prefix_runCalls (runCalls listCall l (calls.take k)).2 (calls.drop k)
  rwa [← List.take_append_drop k calls, runCalls_append, List.take_append_drop]

/-- A value that is put is answered the place where it stands from then on. -/
theorem listCall_put (l : List α) (v : α) : v ∈ (listCall l (.put v)).2 ∧
    (listCall l (.put v)).1 = (listCall l (.put v)).2.idxOf v + 1 := by
  by_cases h : v ∈ l
  · rw [listCall_put_of_mem h]
    exact ⟨h, rfl⟩
  · rw [listCall_put_of_notMem h, List.idxOf_append_of_notMem h, List.idxOf_cons_self]
    exact ⟨List.mem_append_right l List.mem_cons_self, rfl⟩

theorem idxOf_of_prefix (h : l <+: l') (hv : v ∈ l) : l'.idxOf v = l.idxOf v := by
  obtain ⟨more, rfl⟩ := h
  exact List.idxOf_append_of_mem hv

/-- Every value that is put is answered its place in the list after all calls. -/
theorem getElem?_runCalls_put (l : List α) (h : calls[k]? = some (.put v)) :
    v ∈ (runCalls listCall l calls).2 ∧ (runCalls listCall l calls).1[k]? =
      some ((runCalls listCall l calls).2.idxOf v + 1) := by
  obtain ⟨hmem, hanswer⟩ := listCall_put (runCalls listCall l (calls.take k)).2 v
  have hfront := prefix_runCalls_take l calls (k + 1)
  rw [runCalls_take_succ l h] at hfront
  refine ⟨hfront.subset hmem, ?_⟩
  rw [getElem?_runCalls l h, hanswer, idxOf_of_prefix hfront hmem]

/-- A list of answered calls holds nothing but what it held before and their values. -/
theorem mem_of_mem_runCalls (hv : v ∈ (runCalls listCall l calls).2) :
    v ∈ l ∨ .add v ∈ calls ∨ .put v ∈ calls := by
  induction calls generalizing l with
  | nil => exact .inl hv
  | cons c rest ih =>
    rcases ih hv with hmem | hrest
    · cases c with
      | add w =>
        rcases List.mem_append.mp hmem with hold | hnew
        · exact .inl hold
        · exact .inr (.inl (List.mem_singleton.mp hnew ▸ List.mem_cons_self))
      | put w =>
        by_cases hw : w ∈ l
        · rw [listCall_put_of_mem hw] at hmem
          exact .inl hmem
        · rw [listCall_put_of_notMem hw] at hmem
          rcases List.mem_append.mp hmem with hold | hnew
          · exact .inl hold
          · exact .inr (.inr (List.mem_singleton.mp hnew ▸ List.mem_cons_self))
    · exact .inr (hrest.imp (List.mem_cons_of_mem c) (List.mem_cons_of_mem c))

end

/-! ## §3 Searching a chain -/

namespace UniqueTable

section

variable {α : Type} {t : UniqueTable α} {v : α}

/-- A search for a value that goes from index to index along the links, until it meets the value or
    the end of the chain. -/
inductive Searches (t : UniqueTable α) (v : α) : Nat → Option Nat → Prop where
  | over : Searches t v 0 none
  | found {i : Nat} (hi : t.value i = .ok v) : Searches t v i (some i)
  | next {i j : Nat} {w : α} {found : Option Nat} (hi : t.value i = .ok w) (hne : w ≠ v)
      (hj : t.next i = .ok j) (h : Searches t v j found) : Searches t v i found

/-- Values keep their places. -/
theorem value_eq_of_prefix {t' : UniqueTable α} (h : t.values.toList <+: t'.values.toList) {i : Nat}
    (hi : t.value i = .ok v) : t'.value i = .ok v := by
  rw [value_eq_ok, ← Array.getElem?_toList] at hi ⊢
  obtain ⟨more, hmore⟩ := h
  obtain ⟨hlt, -⟩ := List.getElem?_eq_some_iff.mp hi.2
  rw [← hmore, List.getElem?_append_left hlt]
  exact hi

theorem next_eq_ok {i : Nat} (hi : i ≠ 0) (hlt : i - 1 < t.chains.links.size) :
    t.next i = .ok (t.chains.after i) := by
  unfold next Chains.after
  rw [if_neg hi, Array.getD_eq_getD_getElem?, Array.getElem?_eq_getElem hlt, Option.getD_some]

/-- The search that is bounded by its index is the search without a bound, which comes to an end. -/
theorem searches_findFrom [DecidableEq α] (hc : t.chains.Linked)
    (haligned : t.chains.links.size = t.values.size) {i : Nat} (hi : i ≤ t.values.size) :
    t.Searches v i (t.findFrom v i) := by
  induction i using Nat.strong_induction_on with
  | _ i ih =>
    rw [findFrom]
    split
    · rename_i hzero
      rw [hzero]
      exact .over
    rename_i hne
    have hlt : i - 1 < t.values.size := by omega
    have hvalue : t.value i = .ok t.values[i - 1] :=
      value_eq_ok.mpr ⟨hne, Array.getElem?_eq_getElem hlt⟩
    split
    · rename_i hholds
      rw [holds_iff, Array.getElem?_eq_getElem hlt, Option.some.injEq] at hholds
      exact .found (hholds ▸ hvalue)
    · rename_i hholds
      rw [holds_iff, Array.getElem?_eq_getElem hlt, Option.some.injEq] at hholds
      -- The link leads to a smaller index, so the guard of the bounded search lets it go on.
      have hafter := hc.after_lt i hne
      rw [if_pos hafter]
      exact .next hvalue hholds (next_eq_ok hne (haligned ▸ hlt)) (ih _ hafter (by omega))

end

section

variable {α : Type} [DecidableEq α] [Fingerprint α] {t : UniqueTable α} {q : α → Prop} {v : α}
  {calls : List (TableCall α)}

/-- Every search for a value comes to an end. -/
theorem Sound.searches_find? (h : t.Sound q) (v : α) :
    ∃ head, t.chains.heads[bucketOf v t.capacity]? = some head ∧ t.Searches v head (t.find? v) := by
  have hlt : bucketOf v t.capacity < t.chains.heads.size := bucketOf_lt v h.linked.heads_pos
  refine ⟨_, Array.getElem?_eq_getElem hlt, ?_⟩
  have hhead := h.linked.head_le (bucketOf v t.capacity)
  rw [Chains.head_eq, Array.getElem?_eq_getElem hlt, Option.getD_some, h.aligned] at hhead
  have hsearch := searches_findFrom (v := v) h.linked h.aligned hhead
  unfold find?
  rwa [Chains.head_eq, Array.getElem?_eq_getElem hlt, Option.getD_some]

/-! ## §4 Calls of a table -/

/-- The answer of a table to a call. -/
def call (t : UniqueTable α) : TableCall α → Nat × UniqueTable α
  | .add v => t.add v
  | .put v => t.put v

/-- A table that puts a value answers as the list of its values does. -/
theorem Sound.put_eq (h : t.Sound q) (hv : q v) :
    (t.put v).1 = (listCall t.values.toList (.put v)).1 ∧
      (t.put v).2.values.toList = (listCall t.values.toList (.put v)).2 ∧ (t.put v).2.Sound q := by
  obtain ⟨i, t', hput, hsound, hi, hcase⟩ := h.put hv
  by_cases hmem : v ∈ t.values.toList
  · have hstored : t.values[t.values.toList.idxOf v]? = some v := by
      rw [← Array.getElem?_toList]
      exact List.getElem?_idxOf hmem
    rw [listCall_put_of_mem hmem, h.put_of_stored hv hstored]
    exact ⟨rfl, rfl, h⟩
  · rcases hcase with rfl | ⟨rfl, hvalues⟩
    · -- The value would be stored already.
      exact absurd (Array.mem_toList_iff.mpr (Array.mem_of_getElem? hi)) hmem
    · rw [listCall_put_of_notMem hmem, hput, hvalues, Array.toList_push, Array.length_toList]
      exact ⟨rfl, rfl, hsound⟩

/-- A table answers calls as the list of its values does, and stays sound. -/
theorem Sound.runCalls_eq (h : t.Sound q) (hadd : ∀ v, .add v ∈ calls → ¬ q v)
    (hput : ∀ v, .put v ∈ calls → q v) :
    (runCalls call t calls).1 = (runCalls listCall t.values.toList calls).1 ∧
      (runCalls call t calls).2.values.toList = (runCalls listCall t.values.toList calls).2 ∧
      (runCalls call t calls).2.Sound q := by
  induction calls generalizing t with
  | nil => exact ⟨rfl, rfl, h⟩
  | cons c rest ih =>
    have hstep : (t.call c).1 = (listCall t.values.toList c).1 ∧
        (t.call c).2.values.toList = (listCall t.values.toList c).2 ∧ (t.call c).2.Sound q := by
      cases c with
      | add v =>
        refine ⟨?_, Array.toList_push, h.add (hadd v List.mem_cons_self)⟩
        show t.values.size + 1 = t.values.toList.length + 1
        rw [Array.length_toList]
      | put v => exact h.put_eq (hput v List.mem_cons_self)
    obtain ⟨hanswer, hvalues, hsound⟩ := hstep
    have hrest := ih hsound (fun v hv => hadd v (List.mem_cons_of_mem c hv))
      fun v hv => hput v (List.mem_cons_of_mem c hv)
    rw [hvalues] at hrest
    rw [runCalls, runCalls, hanswer, hrest.1]
    exact ⟨rfl, hrest.2⟩

/-- A table that starts without values answers calls as the empty list does. -/
theorem runCalls_empty {bits : Nat} (ht : UniqueTable.empty bits = .ok t) (hcalls : Apart calls) :
    (runCalls call t calls).1 = (runCalls listCall [] calls).1 ∧
      (runCalls call t calls).2.values.toList = (runCalls listCall [] calls).2 ∧
      (runCalls call t calls).2.Sound fun v => .put v ∈ calls := by
  have hvalues : t.values = #[] := by
    unfold UniqueTable.empty at ht
    split at ht
    · cases ht
      rfl
    · cases ht
  have hsound : t.Sound fun v => .put v ∈ calls := sound_empty ht
  have hput : ∀ v, .put v ∈ calls → .put v ∈ calls := fun _ hv => hv
  have hrun := hsound.runCalls_eq hcalls hput
  rwa [hvalues] at hrun

/-- A unique table is a list.  Whatever the number of buckets is that it is made with, it answers
    calls as a list does, as long as no value is added that is put as well.  Every search comes to
    an end.  A value that is put is answered the index of its first put, where it stands, and the
    next unused index the first time; different values have different indices; no value ever
    changes; and neither the number of buckets nor the fingerprints, and so no collision and no
    growth, make a difference. -/
theorem list_of_calls (bits : Nat) (hcalls : Apart calls) :
    (bits ≤ 31 → ∃ t : UniqueTable α, UniqueTable.empty bits = .ok t) ∧
    ∀ t : UniqueTable α, UniqueTable.empty bits = .ok t →
    let r := runCalls call t calls
    let l := runCalls listCall [] calls
    (r.1 = l.1 ∧ r.2.values.toList = l.2) ∧
    (∀ v, ∃ head, r.2.chains.heads[bucketOf v r.2.capacity]? = some head ∧
      r.2.Searches v head (r.2.find? v)) ∧
    (∀ (k : Nat) (v : α), calls[k]? = some (.put v) → ∃ i : Nat, r.1[k]? = some i ∧
      r.2.value i = .ok v ∧ r.1[calls.idxOf (.put v)]? = some i ∧
      (.put v ∉ calls.take k → i = (runCalls call t (calls.take k)).2.size + 1)) ∧
    (∀ (j k : Nat) (v w : α), calls[j]? = some (.put v) → calls[k]? = some (.put w) →
      (r.1[j]? = r.1[k]? ↔ v = w)) ∧
    (∀ k i v, (runCalls call t (calls.take k)).2.value i = .ok v → r.2.value i = .ok v) ∧
    (∀ (F : Fingerprint α) (bits' : Nat) (t' : UniqueTable α), UniqueTable.empty bits' = .ok t' →
      (runCalls (@call α _ F) t' calls).1 = r.1) := by
  refine ⟨fun hbits => ⟨_, if_pos hbits⟩, ?_⟩
  intro t ht r l
  obtain ⟨hanswers, hvalues, hsound⟩ := runCalls_empty ht hcalls
  have hbefore (k : Nat) : (runCalls call t (calls.take k)).2.values.toList =
      (runCalls listCall [] (calls.take k)).2 :=
    (runCalls_empty ht (hcalls.take k)).2.1
  -- Everything that is put is answered its place in the final list.
  have hplace {k : Nat} {v : α} (hk : calls[k]? = some (.put v)) :
      v ∈ l.2 ∧ r.1[k]? = some (l.2.idxOf v + 1) := by
    have hput := getElem?_runCalls_put [] hk
    rwa [← hanswers] at hput
  refine ⟨⟨hanswers, hvalues⟩, hsound.searches_find?, ?answered, ?apart, ?kept, ?independent⟩
  case answered =>
    intro k v hk
    obtain ⟨hmem, hanswer⟩ := hplace hk
    refine ⟨l.2.idxOf v + 1, hanswer, value_eq_ok.mpr ⟨Nat.succ_ne_zero _, ?_⟩,
      (hplace (List.getElem?_idxOf (List.mem_of_getElem? hk))).2, fun hfirst => ?_⟩
    · rw [← Array.getElem?_toList, hvalues]
      exact List.getElem?_idxOf hmem
    · -- Before its first put, the value was not stored.
      have hnew : v ∉ (runCalls listCall [] (calls.take k)).2 := by
        intro hv
        rcases mem_of_mem_runCalls hv with hnil | hadd | hput
        · cases hnil
        · exact hcalls v (List.mem_of_mem_take hadd) (List.mem_of_getElem? hk)
        · exact hfirst hput
      have hcall : l.1[k]? = some (listCall (runCalls listCall [] (calls.take k)).2 (.put v)).1 :=
        getElem?_runCalls [] hk
      rw [← hanswers, hanswer, listCall_put_of_notMem hnew, ← hbefore, Array.length_toList] at hcall
      exact Option.some.inj hcall
  case apart =>
    intro j k v w hj hk
    rw [(hplace hj).2, (hplace hk).2, Option.some.injEq, Nat.succ.injEq]
    exact List.idxOf_inj (hplace hj).1
  case kept =>
    intro k i v
    refine value_eq_of_prefix ?_
    rw [hbefore, hvalues]
    exact prefix_runCalls_take [] calls k
  case independent =>
    intro F bits' t' ht'
    exact (@runCalls_empty α _ F t' calls bits' ht' hcalls).1.trans hanswers.symm

end

/-- Pairs of words that share a bucket until the third of them is stored and the buckets double: a
    pair that is put again is answered the index that it was answered first. -/
theorem list_of_pairs : ∃ t : UniqueTable (UInt64 × UInt64), UniqueTable.empty 0 = .ok t ∧
    (runCalls call t [.add (0, 0), .put (1, 2), .put (2, 1), .put (3, 3), .put (1, 2)]).1 =
      [1, 2, 3, 4, 2] := by
  have hcalls : Apart (α := UInt64 × UInt64)
      [.add (0, 0), .put (1, 2), .put (2, 1), .put (3, 3), .put (1, 2)] := by
    intro v hadd hput
    simp only [List.mem_cons, TableCall.add.injEq, reduceCtorEq, List.not_mem_nil, or_false] at hadd
    subst hadd
    revert hput
    decide
  obtain ⟨hmade, hlaw⟩ := list_of_calls 0 hcalls
  obtain ⟨t, ht⟩ := hmade (Nat.zero_le 31)
  obtain ⟨⟨hanswers, -⟩, -⟩ := hlaw t ht
  exact ⟨t, ht, hanswers.trans (by decide)⟩

end UniqueTable

end Stimulus
