import Mathlib.Data.Finset.Card
import Stimulus.Proofs.Circuit.Capture

/-!
# When slots run out

A variable keeps the slot that it was first given, and as long as a slot is left, encoding an
expression again answers the same word.  Whether a slot is left is asked before the variable is
looked up, so it takes one variable less than there are slots to be safe: once all slots are given
away, no variable can be encoded any more, not even one that has a slot.

Main definitions:
- `holders`: the variables that have slots
- `Allots`: a computation that looks variables up
- `Encoding.Call`, `Encoding.Call.Answered`: what clients ask of an encoding, and what they get

Main statements:
- `hasSlots_iff`: how many variables can be looked up
- `Encoding.calls_granted_iff`, `Encoding.calls_again`, `Encoding.encode_var_of_full`
- `Encoding.slots_of_calls`, `Encoding.calls_refused_of_full`
-/

namespace Stimulus

/-! ## §1 Counting slots -/

section

variable {slots : Std.TreeMap Nat Nat} {id : Nat} {ids : List Nat}

/-- The variables that have slots. -/
def holders (slots : Std.TreeMap Nat Nat) : Finset Nat := slots.keys.toFinset

theorem mem_holders : id ∈ holders slots ↔ id ∈ slots := by
  rw [holders, List.mem_toFinset, Std.TreeMap.mem_keys]

theorem card_holders : (holders slots).card = slots.size := by
  rw [holders, List.toFinset_card_of_nodup Std.TreeMap.nodup_keys, Std.TreeMap.length_keys]

theorem holders_place : holders (place slots id) = insert id (holders slots) := by
  ext id'
  rw [Finset.mem_insert, mem_holders, mem_holders]
  cases hid : slots[id]? with
  | some slot =>
    rw [place_of_some hid]
    exact ⟨.inr, fun h => h.elim (fun h => h ▸ mem_treeMap_iff.mpr ⟨slot, hid⟩) fun h => h⟩
  | none =>
    rw [place_of_none hid, Std.TreeMap.mem_insert, Std.LawfulEqCmp.compare_eq_iff_eq]
    exact or_congr_left eq_comm

theorem holders_placeAll (slots : Std.TreeMap Nat Nat) (ids : List Nat) :
    holders (placeAll slots ids) = holders slots ∪ ids.toFinset := by
  induction ids generalizing slots with
  | nil => simp [placeAll]
  | cons id ids ih =>
    show holders (placeAll (place slots id) ids) = _
    rw [ih, holders_place, List.toFinset_cons, Finset.insert_union, Finset.union_insert]

/-- After some lookups, as many slots are taken as there are different variables. -/
theorem size_placeAll (slots : Std.TreeMap Nat Nat) (ids : List Nat) :
    (placeAll slots ids).size = (holders slots ∪ ids.toFinset).card := by
  rw [← holders_placeAll, card_holders]

theorem size_le_size_placeAll (slots : Std.TreeMap Nat Nat) (ids : List Nat) :
    slots.size ≤ (placeAll slots ids).size := by
  rw [size_placeAll, ← card_holders]
  exact Finset.card_le_card Finset.subset_union_left

theorem hasSlots_of_size_lt (h : (placeAll slots ids).size < slotLimit) : HasSlots slots ids := by
  induction ids generalizing slots with
  | nil => trivial
  | cons id ids ih => exact ⟨(size_le_size_placeAll slots (id :: ids)).trans_lt h, ih h⟩

theorem hasSlots_concat :
    HasSlots slots (ids ++ [id]) ↔ (placeAll slots ids).size < slotLimit := by
  rw [hasSlots_append]
  exact ⟨fun h => h.2.1, fun h => ⟨hasSlots_of_size_lt h, h, trivial⟩⟩

/-- All lookups find a slot exactly if one is left when the last of them is made. -/
theorem hasSlots_iff (hne : ids ≠ []) :
    HasSlots slots ids ↔ (holders slots ∪ ids.dropLast.toFinset).card < slotLimit := by
  conv_lhs => rw [← List.dropLast_append_getLast hne]
  rw [hasSlots_concat, size_placeAll]

theorem hasSlots_empty_iff : HasSlots ∅ ids ↔ ids.dropLast.toFinset.card < slotLimit := by
  by_cases hne : ids = []
  · subst hne
    exact ⟨fun _ => by decide, fun _ => trivial⟩
  · have hnone : holders ∅ = ∅ := by
      ext id
      rw [mem_holders]
      simp
    rw [hasSlots_iff hne, hnone, Finset.empty_union]

/-- Variables that have slots are looked up without taking another one. -/
theorem placeAll_of_known (h : ∀ id ∈ ids, id ∈ slots) : placeAll slots ids = slots := by
  induction ids with
  | nil => rfl
  | cons id ids ih =>
    obtain ⟨hid, hids⟩ := List.forall_mem_cons.mp h
    obtain ⟨slot, hslot⟩ := mem_treeMap_iff.mp hid
    show placeAll (place slots id) ids = slots
    rw [place_of_some hslot, ih hids]

end

/-! ## §2 What an expression looks up -/

section

variable {α β : Type} {s : Encoding} {ids ids' : List Nat}

/-- A computation that looks up some variables one after the other.  Whenever it is granted, a slot
    was left at each of these lookups. -/
def Allots (act : Encode α) (s : Encoding) (ids : List Nat) : Prop :=
  Grants act s (fun _ => True) (fun _ _ => True) fun _ s' =>
    HasSlots s.slots ids ∧ s'.slots = placeAll s.slots ids

theorem Allots.pure (a : α) : Allots (Pure.pure a) s [] := ⟨trivial, rfl⟩

theorem Allots.bind {act : Encode α} {k : α → Encode β} (h : Allots act s ids)
    (hk : ∀ a s', Allots (k a) s' ids') : Allots (act >>= k) s (ids ++ ids') := by
  apply Grants.bind h
  rintro a s₁ ⟨hhas, hslots⟩
  apply (hk a s₁).mono
  rintro b s₂ ⟨hhas', hslots'⟩
  rw [hslots] at hhas' hslots'
  exact ⟨hasSlots_append.mpr ⟨hhas, hhas'⟩, by rw [hslots', placeAll_append]⟩

/-- What comes last looks nothing up. -/
theorem Allots.last {act : Encode α} {k : α → Encode β} (h : Allots act s ids)
    (hk : ∀ a s', Allots (k a) s' []) : Allots (act >>= k) s ids := by
  rw [← List.append_nil ids]
  exact h.bind hk

theorem Allots.build (act : Build α) : Allots (Encoding.build act) s [] := by
  obtain ⟨manager, slots, domain⟩ := s
  unfold Allots Grants Encoding.build
  dsimp only
  cases act manager with
  | error fault => trivial
  | ok r => exact ⟨trivial, rfl⟩

theorem Allots.slotOf (id : Nat) : Allots (Encoding.slotOf id) s [id] := by
  unfold Allots Grants
  by_cases hfull : slotLimit ≤ s.slots.size
  · rw [slotOf_of_full hfull]
    trivial
  · obtain ⟨slot, -, hrun⟩ := slotOf_eq id hfull
    rw [hrun]
    exact ⟨⟨by omega, trivial⟩, rfl⟩

open Stimulus.Expr in
theorem encode_allots (e : Expr) (s : Encoding) : Allots e.encode s e.occurrences := by
  induction e generalizing s with
  | var id sort =>
    refine (Allots.slotOf id).last fun slot s₁ => ?_
    apply Grants.ofExcept_bind (ends_true _)
    intro vars _
    have huse : Allots (Encoding.use vars) s₁ [] := ⟨trivial, rfl⟩
    exact huse.last fun _ _ => .build _
  | const bits sort => exact .pure _
  | unary op arg ih => exact (ih s).last fun _ _ => .build _
  | inside arg set ih => exact (ih s).last fun _ _ => .build _
  | extend arg extra ih => exact (ih s).last fun _ _ => .pure _
  | slice arg hi lo ih =>
    refine (ih s).last fun w s₁ => ?_
    split
    · trivial
    · exact .pure _
  | ite cond yes no ihc iht ihe =>
    -- The condition, the branches and the choice between them look variables up in this order.
    rw [occurrences_ite, List.append_assoc]
    refine (ihc s).bind fun _ s₁ => ?_
    refine (Allots.build _).bind fun _ s₂ => ?_
    exact (iht s₂).bind fun _ s₃ => (ihe s₃).last fun _ _ => .build _
  | binary op lhs rhs ihl ihr =>
    rw [occurrences_binary]
    exact (ihl s).bind fun _ s₁ => (ihr s₁).last fun _ _ => .build _
  -- Vectors and what is asked of their elements are refused.
  | _ => trivial

theorem encodeTruth_allots (e : Expr) (s : Encoding) : Allots e.encodeTruth s e.occurrences :=
  (encode_allots e s).last fun _ _ => .build _

theorem Encodes.allots {act : Encode α} {safe : Prop} {Q : α → Encoding → Prop}
    (h : Encodes act s safe Q) (hallots : ∀ limit, Allots act (s.withLimit limit) ids) :
    Encodes act s safe fun a s' => Q a s' ∧ s'.slots = placeAll s.slots ids where
  answers hsafe := by
    obtain ⟨a, s', hreturns, hext, hwf, hq, hlimit⟩ := h.answers hsafe
    have hle := hext.manager.nodeCount_le
    -- The slots are those of the run with edges for all nodes.
    have hrun := hreturns (s'.manager.nodeCount + 1) (by omega)
    rw [if_pos (by omega)] at hrun
    exact ⟨a, s', hreturns, hext, hwf, ⟨hq, ((hallots _).of_run hrun).2⟩, hlimit⟩
  keeps r s' hrun := by
    obtain ⟨hext, hwf, hq⟩ := h.keeps r s' hrun
    exact ⟨hext, hwf, fun a ha => ⟨hq a ha, ((hallots s.manager.limit).of_run (ha ▸ hrun)).2⟩⟩
  limit_eq := h.limit_eq

end

/-! ## §3 Calls one after the other -/

namespace Encoding

/-- What clients ask of an encoding: the bits of an expression, or its truth. -/
inductive Call where
  | bits (e : Expr)
  | truth (e : Expr)

namespace Call

def expr : Call → Expr
  | .bits e => e
  | .truth e => e

def run : Call → Encode Word
  | .bits e => e.encode
  | .truth e => do return [← e.encodeTruth]

/-- The variables that are looked up. -/
def lookups (call : Call) : List Nat := call.expr.occurrences

end Call

variable {s s' : Encoding} {calls : List Call}

/-- The word is the answer of a call: it represents the expression or its truth. -/
def Call.Answered (s : Encoding) (w : Word) : Call → Prop
  | .bits e => s.Represents w e
  | .truth e => ∃ r p, w = [r] ∧ s.manager.Denotes r p ∧
      (e.Plain → ∀ env asg, s.Assigns env asg →
        ∃ v, e.eval (fun id => some (env id)) = pure v ∧ p asg = v.isTrue)

theorem Call.Answered.of_extends {call : Call} {w : Word} (h : call.Answered s w)
    (hext : s.Extends s') : call.Answered s' w := by
  cases call with
  | bits e => exact Represents.of_extends h hext
  | truth e =>
    obtain ⟨r, p, hw, hr, hvalue⟩ := h
    exact ⟨r, p, hw, hr.mono hext.manager, fun he env asg hasg =>
      hvalue he env asg (hasg.of_extends hext)⟩

theorem Represents.valid {e : Expr} {w : Word} (h : s.Represents w e) : s.manager.ValidWord w := by
  obtain ⟨n, f, hw, -⟩ := h
  exact hw.valid

/-- One word represents an expression, since diagrams are canonical and every assignment spells an
    environment. -/
theorem Represents.unique {e : Expr} {v w : Word} (hs : s.WellFormed) (he : e.Plain)
    (hv : s.Represents v e) (hw : s.Represents w e) : v = w := by
  have hv' := hv.faithful he
  have hw' := hw.faithful he
  refine List.ext_getElem (hv'.length_eq.trans hw'.length_eq.symm) fun i hi hi' => ?_
  refine hs.manager.eq_of_value_eq (hv.valid _ (List.getElem_mem hi))
    (hw.valid _ (List.getElem_mem hi')) fun asg => ?_
  -- Every assignment of the bits spells an environment, which fixes the value of the expression.
  obtain ⟨value, hvalue, -⟩ := he.exists_eval (s.spelled asg)
  have hspelled := hs.assigns_spelled asg
  rw [hv'.bit_eq _ asg value hspelled hvalue i hi, hw'.bit_eq _ asg value hspelled hvalue i hi']

/-- A call has one answer. -/
theorem Call.Answered.unique {call : Call} {v w : Word} (hs : s.WellFormed)
    (hplain : call.expr.Plain) (hv : call.Answered s v) (hw : call.Answered s w) : v = w := by
  cases call with
  | bits e => exact Represents.unique hs hplain hv hw
  | truth e =>
    obtain ⟨r, p, rfl, hr, hp⟩ := hv
    obtain ⟨r', p', rfl, hr', hp'⟩ := hw
    congr 1
    refine hs.manager.eq_of_value_eq hr.valid hr'.valid fun asg => ?_
    obtain ⟨value, hvalue, htruth⟩ := hp hplain _ asg (hs.assigns_spelled asg)
    obtain ⟨value', hvalue', htruth'⟩ := hp' hplain _ asg (hs.assigns_spelled asg)
    cases hvalue.symm.trans hvalue'
    rw [hr.value_eq, hr'.value_eq, htruth, htruth']

theorem answers_unique {vs ws : List Word} (hs : s.WellFormed)
    (hplain : ∀ call ∈ calls, call.expr.Plain)
    (hv : List.Forall₂ (fun call w => call.Answered s w) calls vs)
    (hw : List.Forall₂ (fun call w => call.Answered s w) calls ws) : vs = ws := by
  induction hv generalizing ws with
  | nil =>
    cases hw
    rfl
  | cons hfirst _ ih =>
    obtain ⟨hcall, hcalls⟩ := List.forall_mem_cons.mp hplain
    cases hw with
    | cons hfirst' hrest' => rw [hfirst.unique hs hcall hfirst', ih hcalls hrest']

theorem Call.run_allots (call : Call) (s : Encoding) : Allots call.run s call.lookups := by
  cases call with
  | bits e => exact encode_allots e s
  | truth e => exact (encodeTruth_allots e s).last fun _ _ => .pure _

theorem Call.run_encodes (call : Call) (hs : s.WellFormed) :
    Encodes call.run s (call.expr.Plain ∧ HasSlots s.slots call.lookups) fun w s' =>
      call.Answered s' w ∧ s'.slots = placeAll s.slots call.lookups := by
  have hanswers : Encodes call.run s (call.expr.Plain ∧ HasSlots s.slots call.lookups)
      fun w s' => call.Answered s' w := by
    cases call with
    | bits e => exact (e.encodable s hs).imp fun _ _ _ _ hq => hq.2
    | truth e =>
      refine (e.encodeTruth_encodes hs).bind fun r s' _ hwf ⟨p, hr, _, hvalue⟩ => .pure hwf ?_
      exact ⟨r, p, rfl, hr, hvalue⟩
  exact hanswers.allots fun limit => call.run_allots (s.withLimit limit)

theorem runAll_allots (calls : List Call) (s : Encoding) :
    Allots (calls.mapM Call.run) s (calls.flatMap Call.lookups) := by
  induction calls generalizing s with
  | nil => exact .pure _
  | cons call calls ih =>
    rw [List.mapM_cons, List.flatMap_cons]
    exact (call.run_allots s).bind fun w s₁ => (ih s₁).last fun _ _ => .pure _

theorem runAll_encodes (hs : s.WellFormed) (hplain : ∀ call ∈ calls, call.expr.Plain) :
    Encodes (calls.mapM Call.run) s (HasSlots s.slots (calls.flatMap Call.lookups))
      fun ws s' => List.Forall₂ (fun call w => call.Answered s' w) calls ws ∧
        s'.slots = placeAll s.slots (calls.flatMap Call.lookups) := by
  have hanswers : Encodes (calls.mapM Call.run) s
      (HasSlots s.slots (calls.flatMap Call.lookups))
      fun ws s' => List.Forall₂ (fun call w => call.Answered s' w) calls ws := by
    induction calls generalizing s with
    | nil => exact .pure hs .nil
    | cons call calls ih =>
      obtain ⟨hcall, hcalls⟩ := List.forall_mem_cons.mp hplain
      rw [List.mapM_cons, List.flatMap_cons]
      refine ((call.run_encodes hs).weaken fun h => ⟨hcall, (hasSlots_append.mp h).1⟩).bind
        fun w s₁ _ hs₁ ⟨hw, hslots⟩ => ?_
      -- The slots that the first call leaves are those that the others start from.
      refine ((ih hs₁ hcalls).weaken fun h => ?_).bind fun ws s₂ hext₂ hs₂ hws => ?_
      · rw [hslots]
        exact (hasSlots_append.mp h).2
      · exact .pure hs₂ (.cons (hw.of_extends hext₂) hws)
  exact hanswers.allots fun limit => runAll_allots calls (s.withLimit limit)

/-- Calls over plain expressions are all granted exactly if each lookup finds a slot.  Only the
edges may then run out. -/
theorem calls_granted_iff_hasSlots (hs : s.WellFormed)
    (hplain : ∀ call ∈ calls, call.expr.Plain) :
    (∃ ws s', Returns (calls.mapM Call.run) s ws s') ↔
      HasSlots s.slots (calls.flatMap Call.lookups) := by
  constructor
  · rintro ⟨ws, s', hreturns⟩
    -- With edges for all nodes there is a run, and it has looked the variables up.
    have hrun := hreturns (max s.manager.nodeCount s'.manager.nodeCount + 1) (by omega)
    rw [if_pos (by omega)] at hrun
    exact ((runAll_allots calls _).of_run hrun).1
  · intro hslots
    obtain ⟨ws, s', hreturns, -⟩ := (runAll_encodes hs hplain).answers hslots
    exact ⟨ws, s', hreturns⟩

/-- From a fresh encoding, they are granted exactly if fewer different variables than there are
slots have been looked up before the last lookup. -/
theorem calls_granted_iff {d : Manager} (hd : d.WellFormed)
    (hplain : ∀ call ∈ calls, call.expr.Plain) :
    (∃ ws s', Returns (calls.mapM Call.run) ⟨d, ∅, ∅⟩ ws s') ↔
      (calls.flatMap Call.lookups).dropLast.toFinset.card < slotLimit :=
  (calls_granted_iff_hasSlots ⟨hd, allocated_empty⟩ hplain).trans hasSlots_empty_iff

/-! ## §4 Encoding again -/

/-- As long as a slot is left, what was asked can be asked again.  That takes no slot, and the words
    are the same. -/
theorem calls_again {ws : List Word} (hs : s.WellFormed)
    (hplain : ∀ call ∈ calls, call.expr.Plain)
    (hreturns : Returns (calls.mapM Call.run) s ws s') (hsize : s'.slots.size < slotLimit) :
    ∃ s'', Returns (calls.mapM Call.run) s' ws s'' ∧ s''.slots = s'.slots := by
  -- A manager with edges for all nodes, so that there is a run.
  let limit := max s.manager.nodeCount s'.manager.nodeCount + 1
  have hrun := hreturns limit (by omega)
  rw [if_pos (by omega)] at hrun
  obtain ⟨-, hwf, hkeeps⟩ :=
    (runAll_encodes (hs.withLimit (by omega)) hplain).keeps _ _ hrun
  obtain ⟨hws, hslots⟩ := hkeeps ws rfl
  -- All variables have slots by now.
  have hplaced : placeAll s'.slots (calls.flatMap Call.lookups) = s'.slots := by
    refine placeAll_of_known fun id hid => ?_
    have hslots : s'.slots = placeAll s.slots (calls.flatMap Call.lookups) := hslots
    rw [← mem_holders, hslots, holders_placeAll]
    exact Finset.mem_union_right _ (List.mem_toFinset.mpr hid)
  have hhas : HasSlots s'.slots (calls.flatMap Call.lookups) :=
    hasSlots_of_size_lt (by rwa [hplaced])
  obtain ⟨ws', s'', hreturns', hext, hwf'', ⟨hws', hslots'⟩, -⟩ :=
    (runAll_encodes hwf hplain).answers hhas
  -- The old answers still represent the expressions, and there is only one such word for each.
  have hkept := hws.imp fun _ _ hw => hw.of_extends hext
  obtain rfl := answers_unique hwf'' hplain hkept hws'
  exact ⟨s'', fun limit' => hreturns' limit', hslots'.trans hplaced⟩

/-- Once all slots are given away, no variable is encoded any more. -/
theorem encode_var_of_full (hfull : slotLimit ≤ s.slots.size) (id : Nat) (sort : BitSort) :
    (Expr.var id sort).encode s = .error .noSlotLeft := by
  show (Encoding.slotOf id s >>= _) = _
  rw [slotOf_of_full hfull]
  rfl

/-- Calls over plain expressions are all granted exactly if fewer different variables than there are
    slots have been looked up before the last lookup.  If a slot is left after them, then the same
    calls are granted again, with the same words and without a new slot.  If none is left, then no
    variable is encoded any more, not even one that has a slot. -/
theorem slots_of_calls {d : Manager} (hd : d.WellFormed)
    (hplain : ∀ call ∈ calls, call.expr.Plain) :
    ((∃ ws s', Returns (calls.mapM Call.run) ⟨d, ∅, ∅⟩ ws s') ↔
      (calls.flatMap Call.lookups).dropLast.toFinset.card < slotLimit) ∧
    ∀ ws s', Returns (calls.mapM Call.run) ⟨d, ∅, ∅⟩ ws s' →
      (s'.slots.size < slotLimit →
        ∃ s'', Returns (calls.mapM Call.run) s' ws s'' ∧ s''.slots = s'.slots) ∧
      (slotLimit ≤ s'.slots.size → ∀ id sort, (Expr.var id sort).encode s' = .error .noSlotLeft) :=
  ⟨calls_granted_iff hd hplain, fun _ _ hreturns =>
    ⟨calls_again ⟨hd, allocated_empty⟩ hplain hreturns, encode_var_of_full⟩⟩

/-- Two variables are looked up, one of them twice. -/
def twoFlags : List Call :=
  [.bits (.var 7 .bool), .truth (.binary .and (.var 3 .bool) (.var 7 .bool))]

theorem slots_of_twoFlags : ∃ (d : Manager) (s' : Encoding),
    d.Reached [⟨4⟩, ⟨3⟩, ⟨2⟩, .one, .zero] ∧ (∀ call ∈ twoFlags, call.expr.Plain) ∧
      (twoFlags.flatMap Call.lookups).dropLast.toFinset.card = 2 ∧
      twoFlags.mapM Call.run ⟨d, ∅, ∅⟩ = .ok (.ok [[⟨5⟩], [⟨7⟩]], s') ∧
      ∃ s'', Returns (twoFlags.mapM Call.run) s' [[⟨5⟩], [⟨7⟩]] s'' ∧ s''.slots = s'.slots := by
  obtain ⟨d, hd, hrun⟩ := Manager.exists_reached_of_run (fun d => do
    let (answer, s') ← twoFlags.mapM Call.run ⟨d, ∅, ∅⟩
    return (answer.toOption, s'.slots.size)) (a := (some [[⟨5⟩], [⟨7⟩]], 2)) (by decide +kernel)
  obtain ⟨⟨answer, s'⟩, hanswer, hrun⟩ := exists_ok_of_bind hrun
  have hplain : ∀ call ∈ twoFlags, call.expr.Plain := by decide
  have hcard : (twoFlags.flatMap Call.lookups).dropLast.toFinset.card = 2 := by decide
  obtain ⟨hgranted, hlater⟩ := slots_of_calls hd.wellFormed hplain
  obtain ⟨ws, t, hreturns⟩ := hgranted.mpr (hcard ▸ by decide)
  -- The run has ended, so its answers are those that are granted.
  obtain ⟨rfl, -, hok⟩ := hreturns.of_run hd.wellFormed.nodeCount_lt (congrArg _ hanswer)
  cases hanswer.symm.trans hok
  simp only [pure, Except.pure, Except.ok.injEq, Prod.mk.injEq] at hrun
  obtain ⟨hwords, hsize⟩ := hrun
  obtain rfl := Option.some.inj hwords
  obtain ⟨s'', hagain, hslots⟩ := (hlater _ _ hreturns).1 (hsize ▸ by decide)
  exact ⟨d, _, hd, hplain, hcard, hok, s'', hagain, hslots⟩

/-- There are no more variables than slots, and the first of them is looked up again at the end.
That is not granted, although it has a slot. -/
theorem calls_refused_of_full : ∃ (d : Manager) (calls : List Call),
    d.Reached [⟨4⟩, ⟨3⟩, ⟨2⟩, .one, .zero] ∧ (∀ call ∈ calls, call.expr.Plain) ∧
      (calls.flatMap Call.lookups).toFinset.card = slotLimit ∧
      ¬ ∃ ws s', Returns (calls.mapM Call.run) ⟨d, ∅, ∅⟩ ws s' := by
  obtain ⟨d, hd⟩ := Manager.exists_reached
  let ids := List.range' 1 slotLimit ++ [1]
  let calls : List Call := ids.map fun id => .bits (.var id .bool)
  have hplain : ∀ call ∈ calls, call.expr.Plain := by
    intro call hcall
    obtain ⟨id, -, rfl⟩ := List.mem_map.mp hcall
    exact Nat.le_of_ble_eq_true rfl
  have hlookups : calls.flatMap Call.lookups = ids := by
    rw [List.flatMap_map]
    exact List.flatMap_singleton' ids
  have hcard : (List.range' 1 slotLimit).toFinset.card = slotLimit := by
    rw [List.toFinset_card_of_nodup List.nodup_range', List.length_range']
  refine ⟨d, calls, hd, hplain, ?_, ?_⟩
  · -- The variable at the end is one of the others.
    have hmem : 1 ∈ (List.range' 1 slotLimit).toFinset := by
      rw [List.mem_toFinset, List.mem_range'_1]
      decide
    rw [hlookups, List.toFinset_append, List.toFinset_cons, List.toFinset_nil,
      Finset.union_insert, Finset.union_empty, Finset.insert_eq_of_mem hmem, hcard]
  · -- The last look-up finds a full table, although the variable is in it.
    rw [calls_granted_iff hd.wellFormed hplain, hlookups,
      List.dropLast_concat, hcard]
    exact Nat.lt_irrefl _

end Encoding

end Stimulus
