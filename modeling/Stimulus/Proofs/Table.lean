import Mathlib.Data.List.Forall2
import Mathlib.Data.List.Nodup
import Std.Data.TreeMap.Lemmas

/-!
# Tables

Solvers keep what they know of variables in tables, which are built entry by entry from lists.

Main definitions:
- `tableOf`: the table of the entries that a list gives

Main statements:
- `mem_of_getElem?_tableOf`, `getElem?_tableOf_of_mem`
- `getElem?_ofList_zip`
-/

namespace Stimulus

/-! ## §1 Single entries -/

section

variable {β : Type} {m : Std.TreeMap Nat β} {k k' : Nat} {v : β}

theorem getElem?_treeMap_insert : (m.insert k v)[k']? = if k = k' then some v else m[k']? := by
  rw [Std.TreeMap.getElem?_insert]
  simp only [Std.LawfulEqCmp.compare_eq_iff_eq]

theorem getElem?_treeMap_modify {f : β → β} :
    (m.modify k f)[k']? = if k = k' then m[k']?.map f else m[k']? := by
  rw [Std.TreeMap.getElem?_modify]
  simp only [Std.LawfulEqCmp.compare_eq_iff_eq]
  split
  · rename_i h
    rw [h]
  · rfl

theorem mem_treeMap_iff : k ∈ m ↔ ∃ v, m[k]? = some v := by
  rw [Std.TreeMap.mem_iff_isSome_getElem?, Option.isSome_iff_exists]

/-- A table has at most as many entries as there are keys to choose from. -/
theorem size_treeMap_le {keys : List Nat} (h : ∀ k v, m[k]? = some v → k ∈ keys) :
    m.size ≤ keys.length := by
  rw [← Std.TreeMap.length_keys]
  refine Std.TreeMap.nodup_keys.length_le_of_subset fun k hk => ?_
  obtain ⟨v, hv⟩ := mem_treeMap_iff.mp (Std.TreeMap.mem_keys.mp hk)
  exact h k v hv

theorem values_treeMap (m : Std.TreeMap Nat β) : m.values = m.toList.map Prod.snd := by
  show m.foldr (fun _ v l => v :: l) [] = _
  rw [Std.TreeMap.foldr_eq_foldr_toList]
  induction m.toList with
  | nil => rfl
  | cons x l ih => rw [List.foldr_cons, ih, List.map_cons]

theorem mem_values_treeMap : v ∈ m.values ↔ ∃ k : Nat, m[k]? = some v := by
  rw [values_treeMap, List.mem_map]
  constructor
  · rintro ⟨⟨k, w⟩, hmem, rfl⟩
    exact ⟨k, Std.TreeMap.mem_toList_iff_getElem?_eq_some.mp hmem⟩
  · rintro ⟨k, hk⟩
    exact ⟨(k, v), Std.TreeMap.mem_toList_iff_getElem?_eq_some.mpr hk, rfl⟩

end

/-! ## §2 Tables of entries -/

section

variable {α β : Type} {xs : List α} {m : Std.TreeMap Nat β} {entry : α → Option (Nat × β)}
  {k : Nat} {v : β}

/-- The table with the entries that a list gives, where later entries replace earlier ones. -/
def tableOf (entry : α → Option (Nat × β)) (m : Std.TreeMap Nat β) (xs : List α) :
    Std.TreeMap Nat β :=
  xs.foldl (fun m x => (entry x).elim m fun p => m.insert p.1 p.2) m

theorem foldl_eq_tableOf {step : Std.TreeMap Nat β → α → Std.TreeMap Nat β}
    (h : ∀ m x, step m x = (entry x).elim m fun p => m.insert p.1 p.2) :
    xs.foldl step m = tableOf entry m xs := by
  rw [show step = fun m x => (entry x).elim m fun p => m.insert p.1 p.2 from
    funext fun m => funext (h m)]
  rfl

theorem tableOf_cons_of_none {x : α} (hx : entry x = none) :
    tableOf entry m (x :: xs) = tableOf entry m xs := by
  rw [tableOf, List.foldl_cons, hx]
  rfl

theorem tableOf_cons_of_some {x : α} (hx : entry x = some (k, v)) :
    tableOf entry m (x :: xs) = tableOf entry (m.insert k v) xs := by
  rw [tableOf, List.foldl_cons, hx]
  rfl

/-- Every entry of a table that is built from a list comes from the list. -/
theorem mem_of_getElem?_tableOf (h : (tableOf entry m xs)[k]? = some v) :
    m[k]? = some v ∨ ∃ x ∈ xs, entry x = some (k, v) := by
  induction xs generalizing m with
  | nil => exact .inl h
  | cons x xs ih =>
    have hlater {m' : Std.TreeMap Nat β} (h' : (tableOf entry m' xs)[k]? = some v)
        (hm' : m'[k]? = some v → m[k]? = some v ∨ entry x = some (k, v)) :
        m[k]? = some v ∨ ∃ x' ∈ x :: xs, entry x' = some (k, v) := by
      rcases ih h' with hm | ⟨y, hy, hentry⟩
      · exact (hm' hm).imp_right fun hx => ⟨x, List.mem_cons_self, hx⟩
      · exact .inr ⟨y, List.mem_cons_of_mem x hy, hentry⟩
    cases hx : entry x with
    | none =>
      rw [tableOf_cons_of_none hx] at h
      exact hlater h .inl
    | some p =>
      rw [tableOf_cons_of_some hx] at h
      refine hlater h fun hm => ?_
      rw [getElem?_treeMap_insert] at hm
      split at hm
      · rename_i heq
        cases hm
        exact .inr (by rw [hx, ← heq])
      · exact .inl hm

theorem getElem?_tableOf_of_same (hm : m[k]? = some v)
    (hsame : ∀ x ∈ xs, ∀ w, entry x = some (k, w) → w = v) :
    (tableOf entry m xs)[k]? = some v := by
  induction xs generalizing m with
  | nil => exact hm
  | cons x xs ih =>
    have hrest := fun y hy => hsame y (List.mem_cons_of_mem x hy)
    cases hx : entry x with
    | none =>
      rw [tableOf_cons_of_none hx]
      exact ih hm hrest
    | some p =>
      rw [tableOf_cons_of_some hx]
      refine ih ?_ hrest
      rw [getElem?_treeMap_insert]
      split
      · rename_i heq
        rw [hsame x List.mem_cons_self p.2 (by rw [hx, ← heq])]
      · exact hm

/-- An entry that the list gives to a key is in the table if the list gives the key no other. -/
theorem getElem?_tableOf_of_mem {x : α} (hx : x ∈ xs) (hentry : entry x = some (k, v))
    (hsame : ∀ y ∈ xs, ∀ w, entry y = some (k, w) → w = v) : (tableOf entry m xs)[k]? = some v := by
  induction xs generalizing m with
  | nil => cases hx
  | cons y xs ih =>
    have hrest := fun z hz => hsame z (List.mem_cons_of_mem y hz)
    rcases List.mem_cons.mp hx with rfl | hx
    · rw [tableOf_cons_of_some hentry]
      exact getElem?_tableOf_of_same (by rw [getElem?_treeMap_insert, if_pos rfl]) hrest
    · cases hy : entry y with
      | none =>
        rw [tableOf_cons_of_none hy]
        exact ih hx hrest
      | some p =>
        rw [tableOf_cons_of_some hy]
        exact ih hx hrest

end

/-! ## §3 Tables of pairs -/

section

variable {β : Type} {k : Nat} {v : β}

theorem pairwise_compare_ne {l : List (Nat × β)} (h : (l.map Prod.fst).Nodup) :
    l.Pairwise fun a b => ¬ compare a.1 b.1 = .eq :=
  (List.pairwise_map.mp h).imp fun hne heq => hne (Std.LawfulEqCmp.compare_eq_iff_eq.mp heq)

/-- A table of pairs with distinct keys holds nothing else. -/
theorem mem_of_getElem?_ofList {l : List (Nat × β)} (hl : (l.map Prod.fst).Nodup)
    (h : (Std.TreeMap.ofList l)[k]? = some v) : (k, v) ∈ l := by
  have hkey : k ∈ l.map Prod.fst := by
    simpa using Std.TreeMap.mem_ofList.mp (mem_treeMap_iff.mpr ⟨v, h⟩)
  obtain ⟨⟨k', w⟩, hw, rfl⟩ := List.mem_map.mp hkey
  have hget := Std.TreeMap.getElem?_ofList_of_mem Std.ReflCmp.compare_self
    (pairwise_compare_ne hl) hw
  cases hget.symm.trans h
  exact hw

theorem forall_of_forall₂ {α β : Type} {P : α → Prop} {xs : List α} {ys : List β}
    (h : List.Forall₂ (fun x _ => P x) xs ys) : ∀ x ∈ xs, P x := by
  have h' : List.Forall₂ (fun x _ => P x ∧ True) xs ys := h.imp fun _ _ hx => ⟨hx, trivial⟩
  exact ((List.forall₂_and_left xs ys).mp h').1

/-- The table of an assignment to an ascending list. -/
theorem getElem?_ofList_zip {vs : List Nat} {values : List Bool} (hvs : vs.Pairwise (· < ·))
    (hlen : values.length = vs.length) :
    List.Forall₂ (fun v b => (Std.TreeMap.ofList (vs.zip values))[v]? = some b) vs values := by
  have hdistinct : ((vs.zip values).map Prod.fst).Nodup := by
    rw [List.map_fst_zip (Nat.le_of_eq hlen.symm)]
    exact hvs.imp Nat.ne_of_lt
  rw [List.forall₂_iff_zip]
  refine ⟨hlen.symm, fun {v b} hmem => ?_⟩
  exact Std.TreeMap.getElem?_ofList_of_mem Std.ReflCmp.compare_self
    (pairwise_compare_ne hdistinct) hmem

end

end Stimulus
