import Mathlib.Algebra.Group.Nat.Defs
import Mathlib.Data.List.Nodup
import Stimulus.Diagram.Reach
import Stimulus.Proofs.Diagram.Canonicity

/-!
# Cubes, clauses and paths

A literal is a signed variable.  A cube is made from the bottom up, so every literal lies above the
cube it extends and the nodes stay in order.  In the other direction, a path to truth is a list of
literals whose cube implies the function.

A path names variables as signed 32-bit numbers.  The variables on it are variables that the
function depends on, so a bound on those is a bound on the path.

Main definitions:
- `holds`: whether a literal holds
- `Manager.DependsOn`: the variables that matter to a function
- `Manager.Path`: the literals on a path to truth

Main statements:
- `mkCube_delivers`, `mkClause_delivers`
- `Manager.WellFormed.onePath_ok`
-/

namespace Stimulus

/-! ## §1 Literals -/

/-- Whether a literal holds under an assignment. -/
def holds (env : Nat → Bool) (literal : Int) : Bool :=
  env literal.natAbs == decide (0 < literal)

theorem holds_neg (env : Nat → Bool) {literal : Int} (h : literal ≠ 0) :
    holds env (-literal) = !holds env literal := by
  have hsign : decide (0 < -literal) = !decide (0 < literal) := by
    by_cases hpos : 0 < literal
    · simp [hpos, Int.le_of_lt hpos]
    · have hneg : literal < 0 := by omega
      simp [hpos, hneg]
  unfold holds
  rw [Int.natAbs_neg, hsign]
  cases env literal.natAbs <;> cases decide (0 < literal) <;> rfl

/-- A clause is a function of its variables. -/
theorem any_holds_congr {env env' : Nat → Bool} {literals : List Int}
    (h : ∀ l ∈ literals, env l.natAbs = env' l.natAbs) :
    literals.any (holds env) = literals.any (holds env') := by
  induction literals with
  | nil => rfl
  | cons l ls ih =>
    have hl := h l List.mem_cons_self
    have hrest := ih fun m hm => h m (List.mem_cons_of_mem l hm)
    simp only [List.any_cons, holds, hl, hrest]

/-! ## §2 Cubes and clauses -/

section

variable {d : Manager}

/-- A literal above everything that the cube tests extends the cube. -/
theorem addLiteral_delivers (hd : d.WellFormed) {cube : Edge} {literal : Int}
    {p : (Nat → Bool) → Bool} (h0 : literal ≠ 0) (hcube : d.Denotes cube p)
    (hs : d.StartsFrom (literal.natAbs + 1) cube) :
    Delivers (addLiteral cube literal) d fun e d' =>
      (d'.Denotes e fun env => p env && holds env literal) ∧ d'.StartsFrom literal.natAbs e := by
  have hvar : literal.natAbs ≠ 0 := by omega
  unfold addLiteral
  rw [if_neg h0]
  by_cases hneg : literal < 0
  · -- A negative literal leads to the cube where its variable is false.
    rw [if_pos hneg]
    refine (mkNode_delivers hd hvar hcube.valid hd.valid_zero hs Manager.startsFrom_zero).imp
      fun e d' hext _ he => ⟨⟨he.valid, fun env => ?_⟩, he.startsFrom⟩
    have hpos : ¬ 0 < literal := by omega
    rw [he.value_eq, (hcube.mono hext).value_eq]
    cases henv : env literal.natAbs <;> simp [holds, henv, hpos]
  · -- A positive one leads there where it is true.
    rw [if_neg hneg]
    refine (mkNode_delivers hd hvar hd.valid_zero hcube.valid Manager.startsFrom_zero hs).imp
      fun e d' hext _ he => ⟨⟨he.valid, fun env => ?_⟩, he.startsFrom⟩
    have hpos : 0 < literal := by omega
    rw [he.value_eq, (hcube.mono hext).value_eq]
    cases henv : env literal.natAbs <;> simp [holds, henv, hpos]

/-- Literals that ascend towards the root extend a cube one after the other. -/
theorem addLiterals_delivers (hd : d.WellFormed) {cube : Edge} {literals : List Int}
    {p : (Nat → Bool) → Bool} (hcube : d.Denotes cube p)
    (hdesc : literals.Pairwise fun a b => b.natAbs < a.natAbs)
    (habove : ∀ l ∈ literals, l ≠ 0 ∧ d.StartsFrom (l.natAbs + 1) cube) :
    Yields (literals.foldlM addLiteral cube) d fun env => p env && literals.all (holds env) := by
  induction literals generalizing d cube p with
  | nil => exact .pure hd (hcube.congr fun env => by simp)
  | cons l ls ih =>
    obtain ⟨hlt, hrest⟩ := List.pairwise_cons.mp hdesc
    obtain ⟨h0, hs⟩ := habove l List.mem_cons_self
    rw [List.foldlM_cons]
    refine (addLiteral_delivers hd h0 hcube hs).bind fun e d' _ hwf ⟨he, hstart⟩ => ?_
    -- The remaining literals lie above the one that was added.
    have habove' : ∀ m ∈ ls, m ≠ 0 ∧ d'.StartsFrom (m.natAbs + 1) e := fun m hm =>
      ⟨(habove m (List.mem_cons_of_mem l hm)).1, hstart.mono (hlt m hm)⟩
    refine (ih hwf he hrest habove').congr fun env => ?_
    rw [List.all_cons, Bool.and_assoc]

theorem bottomUp_perm (literals : List Int) : (bottomUp literals).Perm literals :=
  List.mergeSort_perm ..

/-- The larger variables come first. -/
theorem bottomUp_pairwise (literals : List Int) :
    (bottomUp literals).Pairwise fun a b => b.natAbs ≤ a.natAbs := by
  have h := @List.pairwise_mergeSort _ (fun a b : Int => decide (b.natAbs ≤ a.natAbs))
    (fun a b c hab hbc => by simp at *; omega) (fun a b => by simp; omega) literals
  exact h.imp fun hab => of_decide_eq_true hab

theorem bottomUp_of_pairwise {literals : List Int}
    (h : literals.Pairwise fun a b => b.natAbs ≤ a.natAbs) : bottomUp literals = literals :=
  List.mergeSort_of_pairwise (h.imp fun hle => decide_eq_true hle)

/-- The conjunction of literals of different variables. -/
theorem mkCube_delivers (hd : d.WellFormed) {literals : List Int}
    (hdiff : literals.Pairwise fun a b => a.natAbs ≠ b.natAbs) (h0 : ∀ l ∈ literals, l ≠ 0) :
    Yields (mkCube literals) d fun env => literals.all (holds env) := by
  have hperm := bottomUp_perm literals
  have hdiff' : (bottomUp literals).Pairwise fun a b => a.natAbs ≠ b.natAbs :=
    (hperm.pairwise_iff fun {_ _} h => Ne.symm h).mpr hdiff
  -- Sorted by variables that differ, the literals descend strictly.
  have hdesc : (bottomUp literals).Pairwise fun a b => b.natAbs < a.natAbs :=
    ((bottomUp_pairwise literals).and hdiff').imp fun ⟨hle, hne⟩ =>
      Nat.lt_of_le_of_ne hle (Ne.symm hne)
  have habove : ∀ l ∈ bottomUp literals, l ≠ 0 ∧ d.StartsFrom (l.natAbs + 1) .one :=
    fun l hl => ⟨h0 l (hperm.mem_iff.mp hl), Manager.startsFrom_one⟩
  -- The order of the literals does not matter for their conjunction.
  refine (addLiterals_delivers hd hd.denotes_one hdesc habove).congr fun env => ?_
  rw [Bool.true_and, hperm.all_eq]

/-- The disjunction of literals of different 32-bit variables. -/
theorem mkClause_delivers (hd : d.WellFormed) {literals : List Int}
    (hdiff : literals.Pairwise fun a b => a.natAbs ≠ b.natAbs)
    (h0 : ∀ l ∈ literals, l ≠ 0 ∧ l.natAbs < 2 ^ 31) :
    Yields (mkClause literals) d fun env => literals.any (holds env) := by
  -- The one literal without an opposite is no literal of the clause.
  have hmin : ¬ literals.contains (BitVec.intMin 32).toInt = true := by
    rw [List.contains_iff_mem]
    intro hmem
    exact absurd (h0 _ hmem).2 (by decide)
  unfold mkClause
  rw [if_neg hmin]
  have hcube : Yields (mkCube (literals.map (- ·))) d fun env =>
      (literals.map (- ·)).all (holds env) := by
    apply mkCube_delivers hd
    · rw [List.pairwise_map]
      exact hdiff.imp fun hne => by simpa using hne
    · intro l hl
      obtain ⟨m, hm, rfl⟩ := List.mem_map.mp hl
      have := (h0 m hm).1
      omega
  refine hcube.bind fun e d' _ hwf he => .pure hwf (he.neg.congr fun env => ?_)
  rw [List.all_map, List.not_all_eq_any_not]
  -- A clause is the complement of the cube of the opposite literals.
  have hflip : ∀ l ∈ literals, (!(holds env ∘ (- ·)) l) = holds env l := by
    intro l hl
    simp only [Function.comp_apply]
    rw [holds_neg env (h0 l hl).1, Bool.not_not]
  rw [Bool.eq_iff_iff, List.any_eq_true, List.any_eq_true]
  constructor
  · rintro ⟨l, hl, hlit⟩
    exact ⟨l, hl, (hflip l hl).symm.trans hlit⟩
  · rintro ⟨l, hl, hlit⟩
    exact ⟨l, hl, (hflip l hl).trans hlit⟩

end

namespace Manager

variable {d : Manager}

/-! ## §3 The variables that matter -/

/-- Changing the variable can change the outcome. -/
def DependsOn (d : Manager) (e : Edge) (v : Nat) : Prop :=
  ∃ env b, d.value (Function.update env v b) e ≠ d.value env e

/-- A function that is a child of another with one variable fixed depends on no more variables. -/
theorem DependsOn.of_fixed {e f : Edge} {v w : Nat} {b : Bool}
    (h : ∀ env, d.value env f = d.value (Function.update env v b) e) (hf : d.DependsOn f w) :
    d.DependsOn e w := by
  obtain ⟨env, c, hne⟩ := hf
  rw [h, h] at hne
  -- The variable that is fixed makes no difference any more.
  have hvw : v ≠ w := by
    rintro rfl
    exact hne (by rw [Function.update_idem])
  rw [Function.update_comm hvw.symm] at hne
  exact ⟨_, _, hne⟩

/-- A node depends on its variable: otherwise its children would be equal. -/
theorem WellFormed.dependsOn_var (hd : d.WellFormed) {e : Edge} {n : Node} (he : d.Valid e)
    (hn : d.node e.index = .ok n) (hred : d.Reduced e.index n) : d.DependsOn e n.var := by
  by_contra hindep
  have hsame : ∀ env b, d.value (Function.update env n.var b) e = d.value env e :=
    fun env b => Classical.not_not.mp fun hne => hindep ⟨env, b, hne⟩
  have hchild := fun env => hd.value_child he hn hred env
  -- Both children have the function of the node, which canonicity turns into equal edges.
  have heq := hd.eq_of_value_eq (hred.low_valid.complementIf e.isComplement)
    (hred.high_valid.complementIf e.isComplement) fun env => by
      rw [(hchild env).1, (hchild env).2, hsame, hsame]
  exact hred.low_ne_high (complementIf_injective _ heq)

/-! ## §4 Paths to truth -/

/-- The literals on a path from an edge to truth: their variables ascend, none lies above those
    that the edge tests, and the function is true wherever all of them hold. -/
structure Path (d : Manager) (e : Edge) (literals : List Int) : Prop where
  ascending : literals.Pairwise fun a b => a.natAbs < b.natAbs
  ne_zero : ∀ l ∈ literals, l ≠ 0
  below : ∀ v, d.StartsFrom v e → ∀ l ∈ literals, v ≤ l.natAbs
  leads : ∀ env, literals.all (holds env) = true → d.value env e = true

theorem path_one : d.Path .one [] := by
  constructor <;> simp

/-- A path of a child, extended by the literal that leads to the child. -/
theorem Path.cons {e f : Edge} {n : Node} {l : Int} {literals : List Int} (hf : d.Path f literals)
    (hn : d.node e.index = .ok n) (hterm : ¬ e.isTerminal = true) (hl : l.natAbs = n.var)
    (h0 : n.var ≠ 0) (hbelow : d.StartsFrom (n.var + 1) f)
    (hval : ∀ env, holds env l = true → d.value env e = d.value env f) :
    d.Path e (l :: literals) where
  ascending := by
    refine List.pairwise_cons.mpr ⟨fun m hm => ?_, hf.ascending⟩
    have := hf.below _ hbelow m hm
    omega
  ne_zero := by
    intro m hm
    -- The head tests the variable of the node, and the rest lies below it.
    rcases List.mem_cons.mp hm with rfl | hm
    · omega
    · exact hf.ne_zero m hm
  below := by
    intro v hv m hm
    have hle : v ≤ n.var := hv.le_var hterm hn
    rcases List.mem_cons.mp hm with rfl | hm
    · omega
    · have := hf.below _ hbelow m hm
      omega
  leads := by
    intro env hall
    rw [List.all_cons, Bool.and_eq_true] at hall
    rw [hval env hall.1]
    exact hf.leads env hall.2

theorem literalOf_eq {v : Nat} (h : v < 2 ^ 31) : literalOf v = v := by
  unfold literalOf
  rw [BitVec.toInt_eq_toNat_of_lt] <;> simp only [BitVec.toNat_ofNat] <;> omega

/-- A function other than falsehood has a path to truth, provided that its variables are 31-bit
    numbers. -/
theorem WellFormed.pathFrom_ok (hd : d.WellFormed) {e : Edge} (he : d.Valid e) (hne : e ≠ .zero)
    (hvars : ∀ v, d.DependsOn e v → v < 2 ^ 31) :
    ∃ literals, d.pathFrom e = .ok literals ∧ d.Path e literals := by
  -- Children are stored under smaller indices.
  induction hw : e.index using Nat.strongRecOn generalizing e with
  | _ w ih =>
    rw [pathFrom]
    by_cases hone : e = .one
    · rw [if_pos hone, hone]
      exact ⟨[], rfl, path_one⟩
    · have hterm : ¬ e.isTerminal = true := fun h =>
        (eq_one_or_eq_zero h).elim hone hne
      obtain ⟨n, hn, hred⟩ := hd.exists_reduced he hterm
      have hdec := decides_of_reduced he hn hred
      have hchild := fun env => hd.value_child he hn hred env
      have hlit : literalOf n.var = n.var := literalOf_eq (hvars _ (hd.dependsOn_var he hn hred))
      have hlt : n.var < 2 ^ 31 := hvars _ (hd.dependsOn_var he hn hred)
      rw [if_neg hone, hn]
      dsimp only
      -- The children are stored further down, and the variable is a literal of its own.
      rw [if_pos ⟨hred.low_lt, hred.high_lt⟩, hlit]
      by_cases hhigh : n.high.complementIf e.isComplement = .zero
      · -- The high edge leads to falsehood, hence the low edge does not.
        have hlow : n.low.complementIf e.isComplement ≠ .zero := fun hzero =>
          hred.low_ne_high (complementIf_injective _ (hzero.trans hhigh.symm))
        have hmin : ¬ (n.var : Int) = (BitVec.intMin 32).toInt := by
          have : (BitVec.intMin 32).toInt = -2 ^ 31 := by decide
          omega
        obtain ⟨literals, hok, hpath⟩ := ih _ (by simpa [← hw] using hred.low_lt)
          (hred.low_valid.complementIf e.isComplement) hlow
          (fun v hv => hvars v (.of_fixed (fun env => (hchild env).1) hv)) rfl
        rw [if_neg (not_not.mpr hhigh), if_neg hmin, hok]
        refine ⟨-(n.var : Int) :: literals, rfl, hpath.cons hn hterm (by simp) hred.var_ne_zero
          (hred.low_below.complementIf _) fun env hl => ?_⟩
        have henv : env n.var = false := by
          have hneg : ¬ (n.var : Int) < 0 := by omega
          simpa [holds, hneg] using hl
        rw [hdec.value_eq, henv]
        rfl
      · -- The high edge is not falsehood, and it is the one that is followed.
        obtain ⟨literals, hok, hpath⟩ := ih _ (by simpa [← hw] using hred.high_lt)
          (hred.high_valid.complementIf e.isComplement) hhigh
          (fun v hv => hvars v (.of_fixed (fun env => (hchild env).2) hv)) rfl
        rw [if_pos hhigh, hok]
        refine ⟨(n.var : Int) :: literals, rfl, hpath.cons hn hterm (by simp) hred.var_ne_zero
          (hred.high_below.complementIf _) fun env hl => ?_⟩
        have henv : env n.var = true := by
          have hpos : 0 < n.var := Nat.pos_of_ne_zero hred.var_ne_zero
          simpa [holds, hpos] using hl
        rw [hdec.value_eq, henv]
        rfl

/-- One path is found unless the function is falsehood. -/
theorem WellFormed.onePath_ok (hd : d.WellFormed) {e : Edge} (he : d.Valid e)
    (hvars : ∀ v, d.DependsOn e v → v < 2 ^ 31) :
    (e = .zero ∧ d.onePath e = .ok none) ∨
      ∃ literals, d.onePath e = .ok (some literals) ∧ d.Path e literals := by
  unfold onePath
  by_cases hzero : e = .zero
  · exact .inl ⟨hzero, if_pos hzero⟩
  · obtain ⟨literals, hok, hpath⟩ := hd.pathFrom_ok he hzero hvars
    rw [if_neg hzero, hok]
    exact .inr ⟨literals, rfl, hpath⟩

/-- Paths are read off the nodes. -/
theorem pathFrom_congr {d' : Manager} (h : ∀ i, d'.node i = d.node i) (e : Edge) :
    d'.pathFrom e = d.pathFrom e := by
  induction hi : e.index using Nat.strongRecOn generalizing e with
  | _ i ih =>
    rw [pathFrom, pathFrom, h]
    by_cases hone : e = .one
    · rw [if_pos hone, if_pos hone]
    rw [if_neg hone, if_neg hone]
    cases hn : d.node e.index with
    | error fault => rfl
    | ok n =>
      dsimp only
      by_cases hlt : n.low.index < e.index ∧ n.high.index < e.index
      · -- Whichever child the path goes to, it is stored further down.
        rw [if_pos hlt, if_pos hlt, ih _ (hi ▸ hlt.1) (n.low.complementIf e.isComplement) (by simp),
          ih _ (hi ▸ hlt.2) (n.high.complementIf e.isComplement) (by simp)]
      · rw [if_neg hlt, if_neg hlt]

theorem onePath_congr {d' : Manager} (h : ∀ i, d'.node i = d.node i) (e : Edge) :
    d'.onePath e = d.onePath e := by
  unfold onePath
  rw [pathFrom_congr h]

/-- A path has one literal of a variable. -/
theorem Path.eq_of_natAbs_eq {e : Edge} {literals : List Int} (h : d.Path e literals) {l m : Int}
    (hl : l ∈ literals) (hm : m ∈ literals) (heq : l.natAbs = m.natAbs) : l = m := by
  have hnodup : (literals.map Int.natAbs).Nodup :=
    List.pairwise_map.mpr (h.ascending.imp Nat.ne_of_lt)
  exact List.inj_on_of_nodup_map hnodup hl hm heq

/-- Making true whatever a path does not ask to be false satisfies the function. -/
theorem Path.value_eq_true {e : Edge} {literals : List Int} (h : d.Path e literals) :
    d.value (fun v => !literals.contains (-(v : Int))) e = true := by
  apply h.leads
  rw [List.all_eq_true]
  intro l hl
  have h0 := h.ne_zero l hl
  unfold holds
  dsimp only
  by_cases hpos : 0 < l
  · -- The opposite literal has the same variable, so it is not on the path.
    have hnot : -l ∉ literals := by
      intro hneg
      have := h.eq_of_natAbs_eq hneg hl (Int.natAbs_neg l)
      omega
    rw [Int.natAbs_of_nonneg (Int.le_of_lt hpos)]
    simp [hpos, hnot]
  · -- A negative literal is on the path itself.
    have habs : -(l.natAbs : Int) = l := by omega
    rw [habs]
    simp [hpos, hl]

end Manager

end Stimulus
