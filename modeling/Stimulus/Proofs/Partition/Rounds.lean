import Stimulus.Proofs.Partition.Components

/-!
# Splitting in rounds

A partitioner can be filled and split in rounds.  Every round splits what was merged since the round
before, and leaves the partitions of earlier rounds as they are.  So partitions of one round share
no variable, and those of different rounds are apart only as far as what was merged for them is.

Main definitions:
- `Partitioner.Call`, `Partitioner.after`: what is done to a partitioner
- `ShareNothing`: no variable is shared

Main statements:
- `Partitioner.shareNothing_partition_iff`: a split
- `Partitioner.shareNothing_after_split`: any calls
- `Partitioner.shared_of_two_rounds`
-/

namespace Stimulus

/-- No two of the partitions share a variable. -/
def ShareNothing (ps : List Partition) : Prop :=
  ps.Pairwise fun p q => ∀ v ∈ p.support, v ∉ q.support

namespace Partitioner

/-- What is done to a partitioner. -/
inductive Call where
  | reset
  | merge (r : Registry)
  | split

/-- The partitioner after a call. -/
def Call.apply (p : Partitioner) : Call → Partitioner
  | .reset => .empty
  | .merge r => p.merge r
  | .split => p.partition

/-- The partitioner after some calls. -/
def after (calls : List Call) : Partitioner := calls.foldl Call.apply .empty

theorem partitions_merge (p : Partitioner) (r : Registry) :
    (p.merge r).partitions = p.partitions := by
  unfold Partitioner.merge
  split <;> rfl

theorem partitions_mergeAll (rs : List Registry) (p : Partitioner) :
    ((rs.map Call.merge).foldl Call.apply p).partitions = p.partitions := by
  induction rs generalizing p with
  | nil => rfl
  | cons r rs ih => exact (ih (p.merge r)).trans (partitions_merge p r)

/-- A variable of a partition of the pool is one of a constraint in the pool, and the other way
    round. -/
theorem exists_mem_support_iff {pool : List Constraint} {v : Nat} :
    (∃ q ∈ partitionPool pool, v ∈ q.support) ↔ ∃ c ∈ pool, v ∈ c.support := by
  have hsplit := split_partitionPool pool
  constructor
  · rintro ⟨q, hq, hv⟩
    obtain ⟨c, hc, hv⟩ := ((hsplit.finished q hq).support v).mp hv
    exact ⟨c, hsplit.mem_pool hq hc, hv⟩
  · rintro ⟨c, hc, hv⟩
    obtain ⟨q, hq, hmem⟩ := List.mem_flatMap.mp (hsplit.perm.mem_iff.mpr hc)
    exact ⟨q, hq, hsplit.mem_support hq hmem hv⟩

/-- The new partitions share nothing among each other, so all depends on those that were there. -/
theorem shareNothing_partition_iff (p : Partitioner) :
    ShareNothing p.partition.partitions ↔ ShareNothing p.partitions ∧
      ∀ q ∈ p.partitions, ∀ c ∈ p.pool, ∀ v ∈ c.support, v ∉ q.support := by
  show ShareNothing (p.partitions ++ partitionPool p.pool) ↔ _
  unfold ShareNothing
  rw [List.pairwise_append]
  constructor
  · rintro ⟨hold, -, hapart⟩
    refine ⟨hold, fun q hq c hc v hv hsupport => ?_⟩
    obtain ⟨q', hq', hv'⟩ := exists_mem_support_iff.mpr ⟨c, hc, hv⟩
    exact hapart q hq q' hq' v hsupport hv'
  · rintro ⟨hold, hapart⟩
    refine ⟨hold, (split_partitionPool p.pool).disjoint, fun q hq q' hq' v hv hv' => ?_⟩
    obtain ⟨c, hc, hvc⟩ := exists_mem_support_iff.mp ⟨q', hq', hv'⟩
    exact hapart q hq c hc v hvc hv

/-- After any calls, the partitions that a split leaves share no variable exactly if those of
    earlier rounds shared none and have none of what was merged since.  If everything is merged
    after the last reset and before the only split, then no variable is shared at all. -/
theorem shareNothing_after_split (calls : List Call) :
    (ShareNothing (after (calls ++ [.split])).partitions ↔
      ShareNothing (after calls).partitions ∧
        ∀ q ∈ (after calls).partitions, ∀ c ∈ (after calls).pool, ∀ v ∈ c.support,
          v ∉ q.support) ∧
    ∀ rs : List Registry,
      ShareNothing (after (calls ++ [.reset] ++ rs.map .merge ++ [.split])).partitions := by
  have hsplit (calls : List Call) : after (calls ++ [.split]) = (after calls).partition :=
    List.foldl_append
  refine ⟨?_, fun rs => ?_⟩
  · rw [hsplit]
    exact shareNothing_partition_iff _
  · -- A reset leaves no partitions, and merging makes none.
    have hnone : (after (calls ++ [.reset] ++ rs.map .merge)).partitions = [] := by
      unfold after
      rw [List.foldl_append, partitions_mergeAll, List.foldl_append]
      rfl
    rw [hsplit, shareNothing_partition_iff, hnone]
    exact ⟨.nil, by simp⟩

/-- A registry with one constraint, whose only variable is the first one. -/
def onFirst (id : Nat) : Registry :=
  ⟨id, 0, [⟨id, "", .truth true, .ofList [1], false, false, true⟩], false⟩

/-- Two registries are merged, each in a round of its own. -/
theorem shared_of_two_rounds :
    ¬ ShareNothing (after [.merge (onFirst 1), .split, .merge (onFirst 2), .split]).partitions := by
  intro hdisjoint
  have hsupports : (after [.merge (onFirst 1), .split, .merge (onFirst 2), .split]).partitions.map
      (fun p => p.support.toList) = [[1], [1]] := by decide +kernel
  have hlists : ((after [.merge (onFirst 1), .split, .merge (onFirst 2), .split]).partitions.map
      fun p => p.support.toList).Pairwise fun vs ws => ∀ v ∈ vs, v ∉ ws := by
    rw [List.pairwise_map]
    apply hdisjoint.imp
    intro p q hpq v hv hv'
    exact hpq v (Std.TreeSet.mem_toList.mp hv) (Std.TreeSet.mem_toList.mp hv')
  rw [hsupports] at hlists
  simp at hlists

end Partitioner

end Stimulus
