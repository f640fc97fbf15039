import Stimulus.Circuit.Encoding
import Stimulus.Proofs.Circuit.Word
import Stimulus.Proofs.Table

/-!
# The slots of an encoding

An encoding gives each variable a slot of its own when it first meets the variable, and each bit of
a slot is a diagram variable of its own.  Every computation over an encoding keeps the slots that
are given and the nodes that are stored.

Main definitions:
- `place`, `placeAll`, `HasSlots`: the slots that a list of variables takes
- `Encoding.WellFormed`, `Encoding.Extends`
- `Encodes`: the shape of every law of a computation over an encoding
-/

namespace Stimulus

/-! ## §1 The diagram variables of bits -/

/-- The diagram variable of a bit, without a check of its bounds. -/
def bitIndex (slot bit : Nat) : Nat := 1 + (63 - bit) * slotLimit + slot

theorem bitVariable_eq {slot bit : Nat} (hslot : slot < slotLimit) (hbit : bit < 64) :
    bitVariable slot bit = .ok (bitIndex slot bit) := by
  have hlimit : slotLimit = 65536 := rfl
  have hword : 1 <<< 32 = 4294967296 := rfl
  -- Slots are below `2^16` and bits below `2^6`, so the variable fits into 32 bits.
  have hbound : ¬ 1 <<< 32 ≤ 1 + (63 - bit) * slotLimit + slot := by
    rw [hlimit]
    omega
  unfold bitVariable
  rw [if_neg (by omega)]
  exact if_neg hbound

/-- Each bit of each slot is a diagram variable of its own. -/
theorem bitIndex_inj {slot slot' bit bit' : Nat} (hslot : slot < slotLimit)
    (hslot' : slot' < slotLimit) (hbit : bit < 64) (hbit' : bit' < 64)
    (h : bitIndex slot bit = bitIndex slot' bit') : slot = slot' ∧ bit = bit' := by
  have hlimit : slotLimit = 65536 := rfl
  simp only [bitIndex, hlimit] at h hslot hslot'
  omega

theorem bitVariable_eq_ok {slot bit v : Nat} (hslot : slot < slotLimit) :
    bitVariable slot bit = .ok v ↔ bit < 64 ∧ v = bitIndex slot bit := by
  by_cases hbit : bit < 64
  · rw [bitVariable_eq hslot hbit, Except.ok.injEq]
    exact ⟨fun h => ⟨hbit, h.symm⟩, fun h => h.2.symm⟩
  · have htoo : bitVariable slot bit = .error .variableTooWide := if_pos (by omega)
    rw [htoo]
    simp [hbit]

theorem mapM_eq_ok {α β ε : Type} {f : α → Except ε β} {g : α → β} {as : List α}
    (h : ∀ a ∈ as, f a = .ok (g a)) : as.mapM f = .ok (as.map g) := by
  induction as with
  | nil => rfl
  | cons a as ih =>
    rw [List.mapM_cons, h a List.mem_cons_self, ih fun b hb => h b (List.mem_cons_of_mem a hb)]
    rfl

/-- The bits of a variable have diagram variables unless the variable is too wide. -/
theorem bitVariables_eq {slot : Nat} (hslot : slot < slotLimit) (width : Nat) :
    bitVariables slot width = if width ≤ 64 then .ok ((List.range width).map (bitIndex slot))
      else .error .variableTooWide := by
  unfold bitVariables
  split
  · rename_i hw
    rw [Nat.min_eq_left (by omega)]
    exact mapM_eq_ok fun bit hbit => bitVariable_eq hslot (by
      have := List.mem_range.mp hbit
      omega)
  · -- The first 64 bits have diagram variables, and the next one has none.
    have hrange : List.range 65 = List.range 64 ++ [64] := by rfl
    have hfirst : (List.range 64).mapM (bitVariable slot) =
        .ok ((List.range 64).map (bitIndex slot)) :=
      mapM_eq_ok fun bit hbit => bitVariable_eq hslot (List.mem_range.mp hbit)
    rw [Nat.min_eq_right (by omega), hrange, List.mapM_append, hfirst]
    rfl

/-! ## §2 Slots -/

/-- The slots after a variable has been looked up. -/
def place (slots : Std.TreeMap Nat Nat) (id : Nat) : Std.TreeMap Nat Nat :=
  match slots[id]? with
  | some _ => slots
  | none => slots.insert id slots.size

/-- The slots after variables have been looked up one after the other. -/
def placeAll (slots : Std.TreeMap Nat Nat) (ids : List Nat) : Std.TreeMap Nat Nat :=
  ids.foldl place slots

/-- A slot is left at every lookup of a list of variables. -/
def HasSlots (slots : Std.TreeMap Nat Nat) : List Nat → Prop
  | [] => True
  | id :: ids => slots.size < slotLimit ∧ HasSlots (place slots id) ids

section

variable {slots : Std.TreeMap Nat Nat} {id : Nat}

theorem place_of_some {slot : Nat} (h : slots[id]? = some slot) : place slots id = slots := by
  rw [place, h]

theorem place_of_none (h : slots[id]? = none) : place slots id = slots.insert id slots.size := by
  rw [place, h]

theorem hasSlots_append {ids ids' : List Nat} :
    HasSlots slots (ids ++ ids') ↔ HasSlots slots ids ∧ HasSlots (placeAll slots ids) ids' := by
  induction ids generalizing slots with
  | nil => simp [HasSlots, placeAll]
  | cons id ids ih =>
    rw [List.cons_append, HasSlots, HasSlots, ih, and_assoc]
    rfl

theorem placeAll_append (ids ids' : List Nat) :
    placeAll slots (ids ++ ids') = placeAll (placeAll slots ids) ids' := List.foldl_append

theorem size_place_le (slots : Std.TreeMap Nat Nat) (id : Nat) :
    (place slots id).size ≤ slots.size + 1 := by
  unfold place
  split
  · omega
  · exact Std.TreeMap.size_insert_le

/-- There are slots for a list of variables if there is one for each of them. -/
theorem hasSlots_of_le {ids : List Nat} (h : slots.size + ids.length ≤ slotLimit) :
    HasSlots slots ids := by
  induction ids generalizing slots with
  | nil => trivial
  | cons id ids ih =>
    rw [List.length_cons] at h
    have hsize := size_place_le slots id
    exact ⟨by omega, ih (by omega)⟩

/-- Variables have slots of their own, numbered in the order in which they were given. -/
structure Allocated (slots : Std.TreeMap Nat Nat) : Prop where
  lt_size : ∀ id slot : Nat, slots[id]? = some slot → slot < slots.size
  inj : ∀ id id' slot : Nat, slots[id]? = some slot → slots[id']? = some slot → id = id'
  size_le : slots.size ≤ slotLimit

theorem allocated_empty : Allocated ∅ where
  lt_size id slot h := by simp at h
  inj id id' slot h := by simp at h
  size_le := by simp

theorem Allocated.slot_lt (h : Allocated slots) {slot : Nat} (hid : slots[id]? = some slot) :
    slot < slotLimit :=
  Nat.lt_of_lt_of_le (h.lt_size id slot hid) h.size_le

theorem getElem?_place_of_some {id' slot : Nat} (hid' : slots[id']? = some slot) :
    (place slots id)[id']? = some slot := by
  unfold place
  split
  · exact hid'
  · rename_i hnone
    have hne : id ≠ id' := by
      rintro rfl
      rw [hnone] at hid'
      cases hid'
    rw [getElem?_treeMap_insert]
    simp [hne, hid']

/-- Only the variable that is placed gets a slot. -/
theorem getElem?_of_place {id' slot : Nat} (hne : id' ≠ id)
    (hid' : (place slots id)[id']? = some slot) : slots[id']? = some slot := by
  unfold place at hid'
  split at hid'
  · exact hid'
  · rw [getElem?_treeMap_insert] at hid'
    simpa [hne.symm] using hid'

theorem exists_getElem?_place (slots : Std.TreeMap Nat Nat) (id : Nat) :
    ∃ slot, (place slots id)[id]? = some slot := by
  unfold place
  split
  · rename_i slot hid
    exact ⟨slot, hid⟩
  · exact ⟨slots.size, by simp⟩

theorem Allocated.place (h : Allocated slots) (hsize : slots.size < slotLimit) :
    Allocated (place slots id) := by
  unfold Stimulus.place
  split
  · exact h
  · rename_i hnone
    have hnew : (slots.insert id slots.size).size = slots.size + 1 := by
      rw [Std.TreeMap.size_insert, if_neg]
      simp [Std.TreeMap.mem_iff_isSome_getElem?, hnone]
    -- The new slot is the number of the old ones, so no old slot is equal to it.
    refine ⟨fun id' slot hid' => ?_, fun id₁ id₂ slot h₁ h₂ => ?_, by omega⟩
    · rw [getElem?_treeMap_insert] at hid'
      rw [hnew]
      split at hid'
      · cases hid'
        omega
      · have := h.lt_size id' slot hid'
        omega
    · rw [getElem?_treeMap_insert] at h₁ h₂
      -- Either id may be the new one, or both, or none.
      split at h₁ <;> split at h₂
      · simp_all
      · cases h₁
        have := h.lt_size id₂ _ h₂
        omega
      · cases h₂
        have := h.lt_size id₁ _ h₁
        omega
      · exact h.inj id₁ id₂ slot h₁ h₂

end

/-! ## §3 Encodings that computations keep -/

namespace Encoding

/-- The invariant of an encoding. -/
structure WellFormed (s : Encoding) : Prop where
  manager : s.manager.WellFormed
  slots : Allocated s.slots

/-- An encoding keeps all nodes and all slots of another one. -/
structure Extends (s s' : Encoding) : Prop where
  manager : s.manager.Extends s'.manager
  slots : ∀ id slot : Nat, s.slots[id]? = some slot → s'.slots[id]? = some slot

theorem Extends.refl (s : Encoding) : s.Extends s := ⟨.refl _, fun _ _ h => h⟩

theorem Extends.trans {s s' s'' : Encoding} (h : s.Extends s') (h' : s'.Extends s'') :
    s.Extends s'' :=
  ⟨h.manager.trans h'.manager, fun id slot hid => h'.slots id slot (h.slots id slot hid)⟩

/-- The same encoding with edges for the indices below another bound. -/
def withLimit (s : Encoding) (limit : Nat) : Encoding :=
  { s with manager := s.manager.withLimit limit }

theorem extends_withLimit (s : Encoding) (limit : Nat) : s.Extends (s.withLimit limit) :=
  ⟨.of_nodes_eq rfl, fun _ _ h => h⟩

theorem WellFormed.withLimit {s : Encoding} (hs : s.WellFormed) {limit : Nat}
    (hlimit : s.manager.nodeCount < limit) : (s.withLimit limit).WellFormed :=
  ⟨hs.manager.withLimit hlimit, hs.slots⟩

/-- From encoding `s` the computation has the result `a` and leaves `s'`.  This holds for every
    number of edges that is enough for `s`: as long as all nodes of `s'` have edges the computation
    ends in this way, and otherwise it runs out of edges. -/
def Returns {α : Type} (act : Encode α) (s : Encoding) (a : α) (s' : Encoding) : Prop :=
  ∀ limit, s.manager.nodeCount < limit → act (s.withLimit limit) =
    if s'.manager.nodeCount < limit then .ok (.ok a, s'.withLimit limit) else .error .tooManyNodes

end Encoding

/-- What a safe computation answers: a result that is not refused, and a well-formed encoding that
    keeps what was there, with more edges where its nodes need them. -/
def Encoding.Answers {α : Type} (act : Encode α) (s : Encoding) (Q : α → Encoding → Prop) : Prop :=
  ∃ a s', Encoding.Returns act s a s' ∧ s.Extends s' ∧ s'.WellFormed ∧ Q a s' ∧
    s'.manager.limit = max s.manager.limit (s'.manager.nodeCount + 1)

/-- The law of a computation over encodings.  If it is safe, it has an answer; and whenever it comes
    to an end, a refusal included, the encoding that it leaves is well formed, keeps what was there
    and has as many edges. -/
structure Encodes {α : Type} (act : Encode α) (s : Encoding) (safe : Prop)
    (Q : α → Encoding → Prop) : Prop where
  answers : safe → Encoding.Answers act s Q
  keeps : ∀ r s', act s = .ok (r, s') → s.Extends s' ∧ s'.WellFormed ∧ ∀ a, r = .ok a → Q a s'
  limit_eq : ∀ r s', act s = .ok (r, s') → s'.manager.limit = s.manager.limit

section

variable {α β : Type} {act : Encode α} {s : Encoding} {safe : Prop} {Q : α → Encoding → Prop}

theorem Encoding.Returns.pure (a : α) (s : Encoding) : Encoding.Returns (pure a) s a s := by
  intro limit hlimit
  rw [if_pos hlimit]
  rfl

/-- A run that has ended is the one of the law. -/
theorem Encoding.Returns.of_run {s' : Encoding} {a : α} {r : Except Refusal α}
    (h : Encoding.Returns act s a s') (hs : s.manager.nodeCount < s.manager.limit)
    (hrun : (act s).map Prod.fst = .ok r) :
    r = .ok a ∧ s'.manager.nodeCount < s.manager.limit ∧
      act s = .ok (.ok a, s'.withLimit s.manager.limit) := by
  have hact : act s = _ := h s.manager.limit hs
  rw [hact] at hrun ⊢
  split at hrun
  · rename_i hroom
    cases hrun
    exact ⟨rfl, hroom, if_pos hroom⟩
  · cases hrun

/-- The three ways out of the first of two computations. -/
theorem encode_bind_eq (act : Encode α) (k : α → Encode β) (s : Encoding) :
    (act >>= k) s = match act s with
      | .error fault => .error fault
      | .ok (.error refusal, s') => .ok (.error refusal, s')
      | .ok (.ok a, s') => k a s' := by
  show (act s >>= fun p => ExceptT.bindCont k p.1 p.2) = _
  rcases act s with fault | ⟨refusal | a, s'⟩ <;> rfl

/-- Of two computations the first may run out of edges, and then the second would do so as well. -/
theorem Encoding.Returns.bind {s' s'' : Encoding} {k : α → Encode β} {a : α} {b : β}
    (h : Encoding.Returns act s a s') (hk : Encoding.Returns (k a) s' b s'')
    (hext : s'.Extends s'') : Encoding.Returns (act >>= k) s b s'' := by
  intro limit hlimit
  have hle := hext.manager.nodeCount_le
  rw [encode_bind_eq, h limit hlimit]
  -- If there is no room for the first part, then there is none for both.
  by_cases hroom : s'.manager.nodeCount < limit
  · rw [if_pos hroom]
    exact hk limit hroom
  · rw [if_neg hroom, if_neg (by omega)]

theorem Encodes.pure {a : α} (hs : s.WellFormed) (h : Q a s) : Encodes (pure a) s safe Q where
  answers _ :=
    ⟨a, s, .pure a s, .refl s, hs, h, (max_eq_left hs.manager.nodeCount_lt).symm⟩
  keeps r s' hrun := by
    cases hrun
    exact ⟨.refl s, hs, fun b hb => by cases hb; exact h⟩
  limit_eq r s' hrun := by
    cases hrun
    rfl

theorem Encodes.throw {refusal : Refusal} (hs : s.WellFormed) (hsafe : ¬ safe) :
    Encodes (throw refusal : Encode α) s safe Q where
  answers h := absurd h hsafe
  keeps r s' hrun := by
    cases hrun
    exact ⟨.refl s, hs, fun b hb => by cases hb⟩
  limit_eq r s' hrun := by
    cases hrun
    rfl

theorem Encodes.fault {fault : Fault} (hrun : act s = .error fault) (hsafe : ¬ safe) :
    Encodes act s safe Q where
  answers h := absurd h hsafe
  keeps r s' hok := by
    rw [hrun] at hok
    cases hok
  limit_eq r s' hok := by
    rw [hrun] at hok
    cases hok

theorem Encodes.weaken {safe' : Prop} (h : Encodes act s safe Q) (hsafe : safe' → safe) :
    Encodes act s safe' Q :=
  ⟨fun h' => h.answers (hsafe h'), h.keeps, h.limit_eq⟩

theorem Encodes.imp {R : α → Encoding → Prop} (h : Encodes act s safe Q)
    (hqr : ∀ a s', s.Extends s' → s'.WellFormed → Q a s' → R a s') : Encodes act s safe R where
  answers hsafe := by
    obtain ⟨a, s', hrun, hext, hwf, hq, hlimit⟩ := h.answers hsafe
    exact ⟨a, s', hrun, hext, hwf, hqr a s' hext hwf hq, hlimit⟩
  keeps r s' hrun := by
    obtain ⟨hext, hwf, hq⟩ := h.keeps r s' hrun
    exact ⟨hext, hwf, fun a ha => hqr a s' hext hwf (hq a ha)⟩
  limit_eq := h.limit_eq

theorem Encodes.bind {k : α → Encode β} {R : β → Encoding → Prop} (h : Encodes act s safe Q)
    (hk : ∀ a s', s.Extends s' → s'.WellFormed → Q a s' → Encodes (k a) s' safe R) :
    Encodes (act >>= k) s safe R := by
  -- A run that ends is one of the first computation, or one of both.
  have hends : ∀ r s'', (act >>= k) s = .ok (r, s'') →
      (∃ refusal, r = .error refusal ∧ act s = .ok (.error refusal, s'')) ∨
        ∃ a s', act s = .ok (.ok a, s') ∧ k a s' = .ok (r, s'') := by
    intro r s'' hrun
    rw [encode_bind_eq] at hrun
    rcases hact : act s with fault | ⟨refusal | a, s'⟩
    · rw [hact] at hrun
      cases hrun
    · rw [hact] at hrun
      cases hrun
      exact .inl ⟨refusal, rfl, rfl⟩
    · rw [hact] at hrun
      exact .inr ⟨a, s', rfl, hrun⟩
  refine ⟨fun hsafe => ?_, fun r s'' hrun => ?_, fun r s'' hrun => ?_⟩
  · obtain ⟨a, s', hreturns, hext, hwf, hq, hlimit⟩ := h.answers hsafe
    -- The larger of the two states is the later one, so its bound is the one that counts.
    obtain ⟨b, s'', hreturns', hext', hwf', hr, hlimit'⟩ :=
      (hk a s' hext hwf hq).answers hsafe
    have hle := hext'.manager.nodeCount_le
    exact ⟨b, s'', hreturns.bind hreturns' hext', hext.trans hext', hwf', hr, by omega⟩
  · rcases hends r s'' hrun with ⟨refusal, rfl, hact⟩ | ⟨a, s', hact, hrest⟩
    · -- A refusal ends the computation in the state that it has reached.
      obtain ⟨hext, hwf, -⟩ := h.keeps _ _ hact
      exact ⟨hext, hwf, fun b hb => by cases hb⟩
    · obtain ⟨hext, hwf, hq⟩ := h.keeps _ _ hact
      obtain ⟨hext', hwf', hr⟩ := (hk a s' hext hwf (hq a rfl)).keeps r s'' hrest
      exact ⟨hext.trans hext', hwf', hr⟩
  · rcases hends r s'' hrun with ⟨refusal, -, hact⟩ | ⟨a, s', hact, hrest⟩
    · exact h.limit_eq _ _ hact
    · obtain ⟨hext, hwf, hq⟩ := h.keeps _ _ hact
      exact ((hk a s' hext hwf (hq a rfl)).limit_eq r s'' hrest).trans (h.limit_eq _ _ hact)

/-- Either the edges suffice for a safe computation, or they run out. -/
theorem Encodes.run (h : Encodes act s safe Q) (hs : s.WellFormed) (hsafe : safe) :
    act s = .error .tooManyNodes ∨ ∃ a s', act s = .ok (.ok a, s') := by
  obtain ⟨a, s', hreturns, -⟩ := h.answers hsafe
  have hrun : act s = _ := hreturns s.manager.limit hs.manager.nodeCount_lt
  split at hrun
  · exact .inr ⟨a, _, hrun⟩
  · exact .inl hrun

/-- A computation that leaves the manager alone is safe and needs no edges. -/
theorem Encodes.of_run {a : α} {slots : Std.TreeMap Nat Nat} {domain : Std.TreeSet Nat}
    (hs : s.WellFormed) (hrun : ∀ limit, act (s.withLimit limit) =
      .ok (.ok a, ⟨s.manager.withLimit limit, slots, domain⟩))
    (hkeeps : ∀ id slot : Nat, s.slots[id]? = some slot → slots[id]? = some slot)
    (hslots : Allocated slots) (hq : Q a ⟨s.manager, slots, domain⟩) : Encodes act s safe Q := by
  have hext : s.Extends ⟨s.manager, slots, domain⟩ := ⟨.refl _, hkeeps⟩
  have hwf : Encoding.WellFormed ⟨s.manager, slots, domain⟩ := ⟨hs.manager, hslots⟩
  -- With its own number of edges `s` is what it is.
  have hact : act s = .ok (.ok a, ⟨s.manager, slots, domain⟩) := hrun s.manager.limit
  refine ⟨fun _ => ⟨a, _, fun limit hroom => ?_, hext, hwf, hq, ?_⟩, fun r s' h => ?_,
    fun r s' h => ?_⟩
  · rw [if_pos hroom, hrun]
    rfl
  · exact (max_eq_left hs.manager.nodeCount_lt).symm
  · rw [hact] at h
    cases h
    exact ⟨hext, hwf, fun b hb => by cases hb; exact hq⟩
  · rw [hact] at h
    cases h
    rfl

theorem Encodes.ofExcept_bind {x : Except Fault α} {p : α → Prop} {k : α → Encode β}
    {R : β → Encoding → Prop} (hsafe : safe → ∃ a, x = .ok a) (hp : ∀ a, x = .ok a → p a)
    (hk : ∀ a, p a → Encodes (k a) s safe R) : Encodes (Fault.ofExcept x >>= k) s safe R := by
  cases x with
  | ok a => exact hk a (hp a rfl)
  | error fault =>
    refine .fault rfl fun h => ?_
    obtain ⟨a, ha⟩ := hsafe h
    cases ha

/-- Nodes that are stored leave the slots alone. -/
theorem Delivers.encodes {act : Build α} {Q : α → Manager → Prop} (hs : s.WellFormed)
    (h : Delivers act s.manager Q) :
    Encodes (Encoding.build act) s safe fun a s' => s'.slots = s.slots ∧ Q a s'.manager := by
  obtain ⟨manager, slots, domain⟩ := s
  -- The slots are not touched, so everything but the manager stays.
  refine ⟨fun _ => ?_, fun r s' hrun => ?_, fun r s' hrun => ?_⟩
  · obtain ⟨-, a, d', hreturns, hext, hwf, hq, hlimit⟩ := h
    refine ⟨a, ⟨d', slots, domain⟩, fun limit hroom => ?_, ⟨hext, fun _ _ h => h⟩,
      ⟨hwf, hs.slots⟩, ⟨rfl, hq⟩, hlimit⟩
    have hact := hreturns limit hroom
    simp only [Encoding.build, Encoding.withLimit, hact]
    by_cases hlt : d'.nodeCount < limit
    · rw [if_pos hlt, if_pos hlt]
    · rw [if_neg hlt, if_neg hlt]
  all_goals
    -- Both laws are read off the run of the manager.
    cases hact : act manager with
    | error fault =>
      simp only [Encoding.build, hact] at hrun
      cases hrun
    | ok p =>
      obtain ⟨a, d'⟩ := p
      simp only [Encoding.build, hact] at hrun
      cases hrun
      obtain ⟨hext, hwf, hq⟩ := h.of_run hact
      first
        | exact h.limit_eq hact
        | exact ⟨⟨hext, fun _ _ h => h⟩, ⟨hwf, hs.slots⟩, fun b hb => by cases hb; exact ⟨rfl, hq⟩⟩

/-- A computation that stores nodes under a condition on which every result depends. -/
theorem build_encodes {act : Build α} {Q : α → Manager → Prop} {P : Prop} (hs : s.WellFormed)
    (hsafe : safe → P) (hrun : ∀ r, act s.manager = .ok r → P)
    (h : P → Delivers act s.manager Q) :
    Encodes (Encoding.build act) s safe fun a s' => s'.slots = s.slots ∧ Q a s'.manager := by
  by_cases hP : P
  · exact (h hP).encodes hs
  · obtain ⟨manager, slots, domain⟩ := s
    cases hact : act manager with
    | ok r => exact absurd (hrun r hact) hP
    | error fault =>
      have hbuild : Encoding.build act ⟨manager, slots, domain⟩ = .error fault := by
        simp only [Encoding.build, hact]
      exact .fault hbuild fun h => hP (hsafe h)

/-- As long as slots are left, looking up a variable answers its slot and places it. -/
theorem slotOf_eq (id : Nat) (h : ¬ slotLimit ≤ s.slots.size) :
    ∃ slot, (place s.slots id)[id]? = some slot ∧
      Encoding.slotOf id s = .ok (.ok slot, ⟨s.manager, place s.slots id, s.domain⟩) := by
  obtain ⟨manager, slots, domain⟩ := s
  obtain ⟨slot, hslot⟩ := exists_getElem?_place slots id
  refine ⟨slot, hslot, ?_⟩
  -- A variable with a slot keeps it, and another one gets the next slot.
  cases hid : slots[id]? with
  | some old =>
    rw [place_of_some hid, hid] at hslot
    cases hslot
    simp only [Encoding.slotOf, if_neg h, hid, place_of_some hid]
  | none =>
    rw [place_of_none hid, Std.TreeMap.getElem?_insert_self] at hslot
    cases hslot
    simp only [Encoding.slotOf, if_neg h, hid, place_of_none hid]

theorem slotOf_of_full {id : Nat} (h : slotLimit ≤ s.slots.size) :
    Encoding.slotOf id s = .error .noSlotLeft :=
  if_pos h

theorem slotOf_encodes {id : Nat} (hs : s.WellFormed) (hsize : safe → s.slots.size < slotLimit) :
    Encodes (Encoding.slotOf id) s safe fun slot s' =>
      s'.slots = place s.slots id ∧ s'.slots[id]? = some slot := by
  by_cases hfull : slotLimit ≤ s.slots.size
  · exact .fault (slotOf_of_full hfull) fun h => absurd (hsize h) (by simpa using hfull)
  · obtain ⟨slot, hslot, -⟩ := slotOf_eq id hfull
    have hrun : ∀ limit, Encoding.slotOf id (s.withLimit limit) =
        .ok (.ok slot, ⟨s.manager.withLimit limit, place s.slots id, s.domain⟩) := by
      intro limit
      -- The slot is read off the slots, which are the same for every number of edges.
      obtain ⟨other, hother, hrun⟩ := slotOf_eq id (s := s.withLimit limit) hfull
      obtain rfl := Option.some.inj (hslot.symm.trans hother)
      exact hrun
    exact .of_run hs hrun (fun _ _ h => getElem?_place_of_some h)
      (hs.slots.place (by simpa using hfull)) ⟨rfl, hslot⟩

theorem use_encodes {vars : List Nat} (hs : s.WellFormed) :
    Encodes (Encoding.use vars) s safe fun _ s' => s'.slots = s.slots := by
  have hrun : ∀ limit, Encoding.use vars (s.withLimit limit) =
      .ok (.ok (), ⟨s.manager.withLimit limit, s.slots, vars.foldl (·.insert ·) s.domain⟩) :=
    fun _ => rfl
  exact .of_run hs hrun (fun _ _ h => h) hs.slots rfl

end

end Stimulus
