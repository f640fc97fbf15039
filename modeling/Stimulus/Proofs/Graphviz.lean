import Mathlib.Data.List.Nodup
import Mathlib.Data.List.Perm.Basic
import Stimulus.Graphviz
import Stimulus.Proofs.Outcome

/-!
# What drawings show

A drawing is the preorder of a forest.  Its trees are the constraints, each with the tree of its
expression below it, and the number of a vertex is its position.  Every vertex is declared once,
and an edge leads from it to each vertex right below it, so that every vertex but the constraints
is the target of one edge.

A drawing exists unless some label is missing.  Only constants of a signed sort without bits have
no label.

Main definitions:
- `Vertex`, `Vertex.tree`, `rooted`: the forest and the numbers of its roots
- `Nested`: statements in which whatever is opened is closed
- `Drawn`: statements that draw vertices with their edges
- `readLabel`: how a label is read
- `Shows`: what the statements of a drawing are

Main statements:
- `drawPartitions_ends`: what is drawn
- `Drawn.numbers_eq`, `Drawn.targets_perm`, `Drawn.length_edges`, `Drawn.edge_joins`
- `exists_drawingText_iff`
- `readLabel_escape`
- `drawing_exact`
-/

namespace Stimulus

/-! ## §1 Expressions by their operands -/

namespace Expr

theorem preorder_eq (e : Expr) : e.preorder = e :: e.children.flatMap preorder := by
  cases e <;> simp [preorder, children]

/-- What an expression has as soon as all its operands have it. -/
theorem children_induction {P : Expr → Prop} (h : ∀ e, (∀ y ∈ e.children, P y) → P e) (e : Expr) :
    P e := by
  induction e <;> exact h _ (by simp_all [children])

end Expr

theorem drawExpr_eq (shape : String) (e : Expr) :
    drawExpr shape e = drawNode shape e (e.children.map (drawExpr shape)) := by
  cases e <;> rfl

/-! ## §2 The forest -/

/-- What has a node of its own in a drawing. -/
inductive Vertex where
  | constraint (c : Constraint)
  | expr (e : Expr)

namespace Vertex

variable (style : DrawingStyle)

/-- What hangs below a vertex. -/
def parts : Vertex → List Vertex
  | .constraint c => if style.showExpressions then [.expr c.expr] else []
  | .expr e => e.children.map .expr

/-- The vertex and all vertices below it, every one before its own parts. -/
def tree : Vertex → List Vertex
  | .constraint c =>
      .constraint c :: if style.showExpressions then c.expr.preorder.map .expr else []
  | .expr e => e.preorder.map .expr

/-- The statement that declares a vertex under a number. -/
def declaration (number : Nat) : Vertex → Except Fault Statement
  | .constraint c =>
      let look := if c.soft then style.softStyle else if c.cover then style.coverStyle
        else style.hardStyle
      let color := if c.enabled then "black" else "grey"
      return .constraintNode number style.constraintShape look color c.name
  | .expr e => Statement.expressionNode number style.nodeShape <$> e.label

/-- Whether the vertex is a root of the forest. -/
def isRoot : Vertex → Bool
  | .constraint _ => true
  | .expr _ => false

/-- The roots of trees that are numbered one after the other, with their numbers. -/
def rooted : Nat → List Vertex → List (Vertex × Nat)
  | _, [] => []
  | k, v :: vs => (v, k) :: rooted (k + (v.tree style).length) vs

/-- The vertices right below a numbered vertex, with their numbers. -/
def below (p : Vertex × Nat) : List (Vertex × Nat) := rooted style (p.2 + 1) (p.1.parts style)

/-- The edges that start at a numbered vertex. -/
def edgesFrom (p : Vertex × Nat) : List (Nat × Nat) :=
  (below style p).map fun q => (p.2, q.2)

/-- In the preorder of the tree, every vertex but the root is right below one vertex. -/
def Spanned (v : Vertex) : Prop :=
  ∀ k, ((v.tree style).zipIdx k).Perm ((v, k) :: ((v.tree style).zipIdx k).flatMap (below style))

variable {style} {v w : Vertex} {vs : List Vertex} {k m : Nat}

theorem tree_eq (v : Vertex) : v.tree style = v :: (v.parts style).flatMap (tree style) := by
  cases v with
  | constraint c =>
    simp only [tree, parts]
    split <;> simp [tree]
  | expr e =>
    rw [tree, e.preorder_eq, parts, List.map_cons, List.flatMap_map, List.map_flatMap]
    rfl

theorem length_rooted : (rooted style k vs).length = vs.length := by
  induction vs generalizing k with
  | nil => rfl
  | cons v vs ih => rw [rooted, List.length_cons, List.length_cons, ih]

theorem mem_of_mem_rooted (h : (w, m) ∈ rooted style k vs) : w ∈ vs := by
  induction vs generalizing k with
  | nil => cases h
  | cons v vs ih =>
    rcases List.mem_cons.mp h with heq | h
    · cases heq
      exact List.mem_cons_self
    · exact List.mem_cons_of_mem v (ih h)

/-- Every vertex of a forest is either a root or right below one vertex. -/
theorem zipIdx_flatMap_tree (h : ∀ v ∈ vs, Spanned style v) (k : Nat) :
    ((vs.flatMap (tree style)).zipIdx k).Perm
      (rooted style k vs ++ ((vs.flatMap (tree style)).zipIdx k).flatMap (below style)) := by
  induction vs generalizing k with
  | nil => exact .refl _
  | cons v vs ih =>
    rw [List.flatMap_cons, List.zipIdx_append, List.flatMap_append, rooted]
    have hv := h v List.mem_cons_self k
    have hvs := ih (fun w hw => h w (List.mem_cons_of_mem v hw)) (k + (v.tree style).length)
    refine (hv.append hvs).trans (.cons _ ?_)
    exact List.perm_append_comm_assoc _ _ _

theorem spanned_of_parts (h : ∀ w ∈ v.parts style, Spanned style w) : Spanned style v := by
  intro k
  rw [tree_eq, List.zipIdx_cons, List.flatMap_cons]
  exact (zipIdx_flatMap_tree h (k + 1)).cons _

theorem spanned_expr (e : Expr) : Spanned style (.expr e) := by
  induction e using Expr.children_induction with
  | h e ih =>
    refine spanned_of_parts fun w hw => ?_
    obtain ⟨y, hy, rfl⟩ := List.mem_map.mp hw
    exact ih y hy

theorem isRoot_of_mem_parts (h : w ∈ v.parts style) : w.isRoot = false := by
  cases v with
  | expr e =>
    obtain ⟨y, -, rfl⟩ := List.mem_map.mp h
    rfl
  | constraint c =>
    simp only [parts] at h
    split at h
    · rw [List.mem_singleton.mp h]
      rfl
    · cases h

theorem spanned (v : Vertex) : Spanned style v := by
  refine spanned_of_parts fun w hw => ?_
  cases w with
  | expr e => exact spanned_expr e
  | constraint c => cases isRoot_of_mem_parts hw

theorem zipIdx_forest (style : DrawingStyle) (vs : List Vertex) (k : Nat) :
    ((vs.flatMap (tree style)).zipIdx k).Perm
      (rooted style k vs ++ ((vs.flatMap (tree style)).zipIdx k).flatMap (below style)) :=
  zipIdx_flatMap_tree (fun v _ => spanned v) k

end Vertex

/-! ## §3 Statements that draw vertices -/

/-- The number of the node that a statement declares. -/
def Statement.number? : Statement → Option Nat
  | .constraintNode id _ _ _ _ => some id
  | .expressionNode id _ _ => some id
  | _ => none

/-- The edge that a statement draws. -/
def Statement.edge? : Statement → Option (Nat × Nat)
  | .edge source target => some (source, target)
  | _ => none

/-- Whether the statement opens something. -/
def Statement.opens : Statement → Bool
  | .openGraph => true
  | .openCluster _ => true
  | _ => false

/-- Whatever these statements open, they close, and nothing else. -/
inductive Nested : List Statement → Prop where
  | nil : Nested []
  | line {s : Statement} {rest : List Statement} (hopen : s.opens = false) (hclose : s ≠ .close)
      (hrest : Nested rest) : Nested (s :: rest)
  | group {s : Statement} {inner rest : List Statement} (hopen : s.opens = true)
      (hinner : Nested inner) (hrest : Nested rest) : Nested (s :: inner ++ .close :: rest)

theorem Nested.append {ss ts : List Statement} (hs : Nested ss) (ht : Nested ts) :
    Nested (ss ++ ts) := by
  induction hs with
  | nil => exact ht
  | line hopen hclose _ ih => exact .line hopen hclose ih
  | group hopen hinner _ _ ih =>
    rw [List.append_assoc, List.cons_append]
    exact .group hopen hinner ih

variable {style : DrawingStyle} {v w : Vertex} {vs ws : List Vertex}
  {more more' : List (Nat × Nat)} {n n' n'' k : Nat} {s : Statement} {ss ts : List Statement}

theorem Statement.line_of_number (h : s.number? = some k) :
    s.edge? = none ∧ s.opens = false ∧ s ≠ .close := by
  cases s with
  | constraintNode => exact ⟨rfl, rfl, nofun⟩
  | expressionNode => exact ⟨rfl, rfl, nofun⟩
  | _ => cases h

theorem Statement.number_of_opens (h : s.opens = true) : s.number? = none ∧ s.edge? = none := by
  cases s with
  | openGraph => exact ⟨rfl, rfl⟩
  | openCluster => exact ⟨rfl, rfl⟩
  | _ => cases h

/-- A declaration carries the number of its vertex. -/
theorem Vertex.number_of_declaration (h : v.declaration style k = .ok s) : s.number? = some k := by
  cases v with
  | constraint c =>
    cases h
    rfl
  | expr e =>
    simp only [declaration] at h
    cases hlabel : e.label with
    | error fault =>
      rw [hlabel] at h
      cases h
    | ok label =>
      rw [hlabel] at h
      cases h
      rfl

/-- The statements draw some vertices, numbered from the number after `n` up to `n'`: they declare
    each of them and draw the edges between them, with some more edges. -/
structure Drawn (style : DrawingStyle) (vs : List Vertex) (more : List (Nat × Nat)) (n : Nat)
    (ss : List Statement) (n' : Nat) : Prop where
  last_eq : n' = n + vs.length
  nodes : List.Forall₂ (fun p s => p.1.declaration style p.2 = .ok s) (vs.zipIdx (n + 1))
    (ss.filter (·.number?.isSome))
  edges : (ss.filterMap Statement.edge?).Perm
    (more ++ (vs.zipIdx (n + 1)).flatMap (Vertex.edgesFrom style))
  nested : Nested ss

theorem Drawn.append (h : Drawn style vs more n ss n') (h' : Drawn style ws more' n' ts n'') :
    Drawn style (vs ++ ws) (more ++ more') n (ss ++ ts) n'' := by
  have hnext : n + 1 + vs.length = n' + 1 := by
    rw [h.last_eq]
    omega
  refine ⟨?_, ?_, ?_, h.nested.append h'.nested⟩
  · rw [h'.last_eq, h.last_eq, List.length_append, Nat.add_assoc]
  · rw [List.zipIdx_append, List.filter_append, hnext]
    exact List.rel_append h.nodes h'.nodes
  · rw [List.zipIdx_append, List.filterMap_append, List.flatMap_append, hnext]
    refine (h.edges.append h'.edges).trans ?_
    rw [List.append_assoc, List.append_assoc]
    exact (List.perm_append_comm_assoc _ _ _).append_left _

theorem drawn_nil (n : Nat) : Drawn style [] [] n [] n := ⟨rfl, .nil, .refl _, .nil⟩

theorem drawn_edge (a b n : Nat) : Drawn style [] [(a, b)] n [.edge a b] n :=
  ⟨rfl, .nil, .refl _, .line rfl nofun .nil⟩

/-- A vertex is drawn by its declaration, followed by what hangs below it. -/
theorem Drawn.hang (hs : v.declaration style (n + 1) = .ok s)
    (h : Drawn style ((v.parts style).flatMap (Vertex.tree style))
      (Vertex.edgesFrom style (v, n + 1)) (n + 1) ss n') :
    Drawn style (v.tree style) [] n (s :: ss) n' := by
  have hnumber := Vertex.number_of_declaration hs
  obtain ⟨hedge, hopen, hclose⟩ := Statement.line_of_number hnumber
  rw [Vertex.tree_eq]
  refine ⟨?_, ?_, ?_, .line hopen hclose h.nested⟩
  · rw [h.last_eq, List.length_cons]
    omega
  · rw [List.zipIdx_cons, List.filter_cons_of_pos (by rw [hnumber]; rfl)]
    exact .cons hs h.nodes
  · rw [List.zipIdx_cons, List.filterMap_cons_none hedge, List.flatMap_cons]
    exact h.edges

/-- What is drawn between brackets. -/
theorem Drawn.enclose (h : Drawn style vs more n ss n') (hs : s.opens = true) :
    Drawn style vs more n (s :: ss ++ [.close]) n' := by
  obtain ⟨hnumber, hedge⟩ := Statement.number_of_opens hs
  have hnodes : (s :: ss ++ [Statement.close]).filter (·.number?.isSome) =
      ss.filter (·.number?.isSome) := by
    rw [List.filter_append, List.filter_cons_of_neg (by rw [hnumber]; nofun)]
    exact List.append_nil _
  have hedges : (s :: ss ++ [Statement.close]).filterMap Statement.edge? =
      ss.filterMap Statement.edge? := by
    rw [List.filterMap_append, List.filterMap_cons_none hedge]
    exact List.append_nil _
  exact ⟨h.last_eq, hnodes ▸ h.nodes, hedges ▸ h.edges, .group hs h.nested .nil⟩

theorem drawn_title (text : String) (n : Nat) : Drawn style [] [] n [.title text] n :=
  ⟨rfl, .nil, .refl _, .line rfl nofun .nil⟩

/-! ## §4 What is drawn -/

section

variable {E : Fault → Prop}

open Vertex

/-- The subtrees of a node, with the edges that lead to them. -/
theorem drawChildren_ends {es : List Expr} (h : ∀ y ∈ es, ∀ n,
      Ensures (drawExpr style.nodeShape y) n E fun drawn n' =>
        drawn.1 = n + 1 ∧ Drawn style ((expr y).tree style) [] n drawn.2 n') (parent n : Nat) :
    Ensures (drawChildren parent (es.map (drawExpr style.nodeShape))) n E fun ss n' =>
      Drawn style ((es.map expr).flatMap (tree style))
        ((rooted style (n + 1) (es.map expr)).map fun q => (parent, q.2)) n ss n' := by
  -- Numbers are given out from the left, so each child starts where the one before it ended.
  induction es generalizing n with
  | nil => exact .pure (drawn_nil n)
  | cons y es ih =>
    refine (h y List.mem_cons_self n).bind ?_
    rintro ⟨id, statements⟩ m ⟨rfl, hy⟩
    refine (ih (fun z hz => h z (List.mem_cons_of_mem y hz)) m).bind fun others n' hes => ?_
    have hnext : n + 1 + ((expr y).tree style).length = m + 1 := by
      rw [hy.last_eq]
      omega
    refine .pure ?_
    rw [List.map_cons, List.flatMap_cons, rooted, hnext]
    exact hy.append ((drawn_edge parent (n + 1) m).append hes)

theorem drawExpr_ends (e : Expr)
    (hE : ∀ x ∈ e.preorder, ∀ fault, x.label = .error fault → E fault) (n : Nat) :
    Ensures (drawExpr style.nodeShape e) n E fun drawn n' =>
      drawn.1 = n + 1 ∧ Drawn style ((expr e).tree style) [] n drawn.2 n' := by
  induction e using Expr.children_induction generalizing n with
  | h e ih =>
    rw [e.preorder_eq] at hE
    have hchildren : ∀ y ∈ e.children, ∀ n, Ensures (drawExpr style.nodeShape y) n E
        fun drawn n' => drawn.1 = n + 1 ∧ Drawn style ((expr y).tree style) [] n drawn.2 n' := by
      intro y hy
      refine ih y hy fun x hx => hE x (List.mem_cons_of_mem e ?_)
      exact List.mem_flatMap.mpr ⟨y, hy, hx⟩
    rw [drawExpr_eq]
    refine Ensures.bind (P := fun id n' => id = n + 1 ∧ n' = n + 1) ⟨rfl, rfl⟩ ?_
    rintro _ _ ⟨rfl, rfl⟩
    -- A label is refused for one of the expressions below, or there is one.
    apply Ensures.ofExcept_bind (R := fun label => e.label = .ok label)
    · unfold Ends
      cases hlabel : e.label with
      | error fault => exact hE e List.mem_cons_self fault hlabel
      | ok label => rfl
    · intro label hlabel
      refine (drawChildren_ends hchildren (n + 1) (n + 1)).bind fun ss n' hss => .pure ⟨rfl, ?_⟩
      refine .hang ?_ hss
      rw [declaration, hlabel]
      rfl

theorem drawConstraint_ends (c : Constraint) (hE : style.showExpressions = true →
      ∀ x ∈ c.expr.preorder, ∀ fault, x.label = .error fault → E fault) (n : Nat) :
    Ensures (drawConstraint style c) n E fun ss n' =>
      Drawn style ((constraint c).tree style) [] n ss n' := by
  refine Ensures.bind (P := fun id n' => id = n + 1 ∧ n' = n + 1) ⟨rfl, rfl⟩ ?_
  rintro _ _ ⟨rfl, rfl⟩
  dsimp only
  split
  · rename_i hshow
    refine (drawExpr_ends c.expr (hE hshow) (n + 1)).bind ?_
    rintro ⟨root, ss⟩ n' ⟨rfl, hss⟩
    refine .pure (.hang rfl ?_)
    have hedges : edgesFrom style (constraint c, n + 1) = [(n + 1, n + 1 + 1)] := by
      simp [edgesFrom, below, parts, hshow, rooted]
    rw [hedges, parts, if_pos hshow, List.flatMap_cons, List.flatMap_nil]
    exact hss.append (drawn_edge _ _ n')
  · rename_i hshow
    refine .pure (.hang rfl ?_)
    simpa [edgesFrom, below, parts, hshow, rooted] using drawn_nil (n + 1)

/-- What is drawn one after the other. -/
theorem mapM_drawn {α : Type} {xs : List α} {act : α → Numbering (List Statement)}
    {f : α → List Vertex}
    (h : ∀ x ∈ xs, ∀ n, Ensures (act x) n E fun ss n' => Drawn style (f x) [] n ss n') (n : Nat) :
    Ensures (xs.mapM act) n E fun sss n' => Drawn style (xs.flatMap f) [] n sss.flatten n' := by
  induction xs generalizing n with
  | nil => exact .pure (drawn_nil n)
  | cons x xs ih =>
    rw [List.mapM_cons]
    refine (h x List.mem_cons_self n).bind fun ss m hss => ?_
    refine (ih (fun y hy => h y (List.mem_cons_of_mem x hy)) m).bind fun sss n' hsss => ?_
    exact .pure (hss.append hsss)

theorem drawCluster_ends {cs : List Constraint} (hE : style.showExpressions = true →
      ∀ c ∈ cs, ∀ x ∈ c.expr.preorder, ∀ fault, x.label = .error fault → E fault)
    (name label : String) (n : Nat) :
    Ensures (drawCluster style name label cs) n E fun ss n' =>
      Drawn style ((cs.map constraint).flatMap (tree style)) [] n ss n' := by
  rw [List.flatMap_map]
  refine (mapM_drawn (fun c hc => drawConstraint_ends c fun hshow => hE hshow c hc) n).bind
    fun sss n' hsss => .pure ?_
  exact ((drawn_title label n).append hsss).enclose (s := .openCluster name) rfl

end

/-- All constraints of a drawing, in the order in which they are drawn. -/
def drawnConstraints (partitions : List Partition) (vectorConstraints : List Constraint) :
    List Constraint :=
  partitions.flatMap (·.constraints) ++ vectorConstraints

/-- All vertices of a drawing of constraints. -/
def forest (style : DrawingStyle) (cs : List Constraint) : List Vertex :=
  (cs.map .constraint).flatMap (Vertex.tree style)

/-- The fault that stops a drawing: an expression that is shown has no label. -/
def Unlabelled (style : DrawingStyle) (cs : List Constraint) (fault : Fault) : Prop :=
  style.showExpressions = true ∧ ∃ c ∈ cs, ∃ x ∈ c.expr.preorder, x.label = .error fault

/-- A drawing shows the forest of its constraints, unless a label is missing. -/
theorem drawPartitions_ends (style : DrawingStyle) (partitions : List Partition)
    (vectorConstraints : List Constraint) :
    Ensures (drawPartitions style partitions vectorConstraints) 0
      (Unlabelled style (drawnConstraints partitions vectorConstraints))
      fun ss n => Drawn style (forest style (drawnConstraints partitions vectorConstraints))
        [] 0 ss n := by
  set cs := drawnConstraints partitions vectorConstraints with hcs
  have hcluster (ds : List Constraint) (hsub : ∀ c ∈ ds, c ∈ cs) (name label : String) (n : Nat) :
      Ensures (drawCluster style name label ds) n (Unlabelled style cs)
        fun ss n' => Drawn style (forest style ds) [] n ss n' :=
    drawCluster_ends (fun hshow c hc x hx fault hlabel => ⟨hshow, c, hsub c hc, x, hx, hlabel⟩)
      name label n
  refine Ensures.bind (P := fun sss m => Drawn style
    (partitions.zipIdx.flatMap fun q => forest style q.1.constraints) [] 0 sss.flatten m)
    (mapM_drawn (fun q hq n => hcluster _ (fun c hc => ?_) _ _ n) 0) fun sss m hsss => ?_
  · have hmem : q.1 ∈ partitions := List.fst_mem_of_mem_zipIdx hq
    exact List.mem_append_left _ (List.mem_flatMap.mpr ⟨q.1, hmem, hc⟩)
  -- The clusters of the partitions and the one of the vector constraints make up the forest.
  have hforest : forest style cs = (partitions.zipIdx.flatMap fun q =>
      forest style q.1.constraints) ++ forest style vectorConstraints := by
    have hparts : (partitions.zipIdx.flatMap fun q => forest style q.1.constraints) =
        partitions.flatMap fun p => forest style p.constraints := by
      rw [← List.flatMap_map Prod.fst fun p : Partition => forest style p.constraints,
        List.zipIdx_map_fst]
    rw [hparts, hcs]
    simp [drawnConstraints, forest, List.flatMap_map, List.flatMap_assoc]
  have hgraph (vectors : List Statement) (n : Nat)
      (h : Drawn style (forest style vectorConstraints) [] m vectors n) :
      Drawn style (forest style cs) [] 0
        (.openGraph :: sss.flatten ++ vectors ++ [.close]) n := by
    rw [hforest]
    exact (hsss.append h).enclose rfl
  split
  · rename_i hempty
    refine .pure (hgraph [] m ?_)
    rw [List.isEmpty_iff.mp hempty]
    exact drawn_nil m
  · refine (hcluster _ (fun c hc => List.mem_append_right _ hc) _ _ m).bind fun vectors n h => ?_
    exact .pure (hgraph vectors n h)

/-! ## §5 Numbers and edges -/

namespace Drawn

variable {cs : List Constraint}

/-- Nodes are declared once each, under consecutive numbers. -/
theorem numbers_eq (h : Drawn style vs more n ss n') :
    ss.filterMap Statement.number? = List.range' (n + 1) vs.length := by
  have hfilter : ss.filterMap Statement.number? =
      (ss.filter (·.number?.isSome)).filterMap Statement.number? := by
    rw [List.filterMap_filter]
    refine List.filterMap_congr fun s _ => ?_
    cases s.number? <;> rfl
  have hnumbers {ps : List (Vertex × Nat)} {ts : List Statement}
      (hps : List.Forall₂ (fun p s => p.1.declaration style p.2 = .ok s) ps ts) :
      ts.filterMap Statement.number? = ps.map Prod.snd := by
    induction hps with
    | nil => rfl
    | cons hp _ ih =>
      rw [List.filterMap_cons_some (Vertex.number_of_declaration hp), ih, List.map_cons]
  rw [hfilter, hnumbers h.nodes, List.zipIdx_map_snd]

/-- Every vertex has a declaration. -/
theorem exists_declaration (h : Drawn style vs more n ss n') (hv : v ∈ vs) :
    ∃ k s, v.declaration style k = .ok s := by
  obtain ⟨i, hi, rfl⟩ := List.mem_iff_getElem.mp hv
  have hi' : i < (vs.zipIdx (n + 1)).length := by rwa [List.length_zipIdx]
  have hs := h.nodes.get hi' (h.nodes.length_eq ▸ hi')
  rw [List.get_eq_getElem, List.getElem_zipIdx] at hs
  exact ⟨_, _, hs⟩

/-- What the edges of a forest lead to, and the numbers of its roots, are all numbers. -/
theorem targets_perm (h : Drawn style (forest style cs) [] 0 ss n) :
    ((ss.filterMap Statement.edge?).map Prod.snd ++
      (Vertex.rooted style 1 (cs.map .constraint)).map Prod.snd).Perm
      (List.range' 1 (forest style cs).length) := by
  have hbelow (p : Vertex × Nat) :
      (Vertex.edgesFrom style p).map Prod.snd = (Vertex.below style p).map Prod.snd := by
    rw [Vertex.edgesFrom, List.map_map]
    rfl
  have hedges := h.edges.map Prod.snd
  have hforest := (Vertex.zipIdx_forest style (cs.map .constraint) 1).map Prod.snd
  rw [List.zipIdx_map_snd, List.map_append, List.map_flatMap] at hforest
  rw [List.nil_append, List.map_flatMap] at hedges
  simp only [hbelow] at hedges
  exact ((hedges.append_right _).trans List.perm_append_comm).trans hforest.symm

/-- There is one edge less for every constraint than there are nodes. -/
theorem length_edges (h : Drawn style (forest style cs) [] 0 ss n) :
    (ss.filterMap Statement.edge?).length + cs.length = n := by
  have hlength := h.targets_perm.length_eq
  rw [List.length_append, List.length_map, List.length_map, Vertex.length_rooted, List.length_map,
    List.length_range'] at hlength
  rw [hlength, h.last_eq, Nat.zero_add]

/-- An edge leads from a vertex to one right below it. -/
theorem edge_joins (h : Drawn style (forest style cs) [] 0 ss n) {a b : Nat}
    (hedge : .edge a b ∈ ss) :
    ∃ v w, (v, a) ∈ (forest style cs).zipIdx 1 ∧ (w, b) ∈ (forest style cs).zipIdx 1 ∧
      w ∈ v.parts style := by
  have hmem : (a, b) ∈ ss.filterMap Statement.edge? := List.mem_filterMap.mpr ⟨_, hedge, rfl⟩
  rw [h.edges.mem_iff, List.nil_append, List.mem_flatMap] at hmem
  obtain ⟨⟨v, k⟩, hv, hmem⟩ := hmem
  obtain ⟨⟨w, m⟩, hw, heq⟩ := List.mem_map.mp hmem
  cases heq
  refine ⟨v, w, hv, ?_, Vertex.mem_of_mem_rooted hw⟩
  exact (Vertex.zipIdx_forest style (cs.map .constraint) 1).mem_iff.mpr
    (List.mem_append_right _ (List.mem_flatMap.mpr ⟨(v, _), hv, hw⟩))

/-- One edge leads to each vertex, but none to a constraint. -/
theorem count_target (h : Drawn style (forest style cs) [] 0 ss n)
    (hw : (w, k) ∈ (forest style cs).zipIdx 1) :
    ((ss.filterMap Statement.edge?).map Prod.snd).count k = if w.isRoot then 0 else 1 := by
  have hone : (List.range' 1 (forest style cs).length).count k = 1 := by
    refine List.count_eq_one_of_mem List.nodup_range' ?_
    rw [← List.zipIdx_map_snd]
    exact List.mem_map.mpr ⟨(w, k), hw, rfl⟩
  -- Every number is given once: to a root, or to the end of one edge.
  rw [← h.targets_perm.count_eq, List.count_append] at hone
  have hforest := Vertex.zipIdx_forest style (cs.map .constraint) 1
  split
  · -- A constraint is right below no vertex, so it is a root.
    rename_i hroot
    have hroots : k ∈ (Vertex.rooted style 1 (cs.map .constraint)).map Prod.snd := by
      rcases List.mem_append.mp (hforest.mem_iff.mp hw) with hmem | hmem
      · exact List.mem_map.mpr ⟨(w, k), hmem, rfl⟩
      · obtain ⟨p, -, hmem⟩ := List.mem_flatMap.mp hmem
        rw [Vertex.isRoot_of_mem_parts (Vertex.mem_of_mem_rooted hmem)] at hroot
        cases hroot
    have := List.count_pos_iff.mpr hroots
    omega
  · -- The vertex with this number is no constraint, so no root has this number.
    rename_i hroot
    have hroots : k ∉ (Vertex.rooted style 1 (cs.map .constraint)).map Prod.snd := by
      rintro hmem
      obtain ⟨⟨v, m⟩, hv, rfl⟩ := List.mem_map.mp hmem
      have hforest : (v, m) ∈ (forest style cs).zipIdx 1 :=
        hforest.mem_iff.mpr (List.mem_append_left _ hv)
      have hsame : v = w := by
        rw [List.mk_mem_zipIdx_iff_le_and_getElem?_sub] at hforest hw
        exact Option.some.inj (hforest.2.symm.trans hw.2)
      obtain ⟨c, -, rfl⟩ := List.mem_map.mp (Vertex.mem_of_mem_rooted hv)
      exact hroot (hsame ▸ rfl)
    rw [List.count_eq_zero.mpr hroots] at hone
    exact hone

end Drawn

/-! ## §6 The text of a drawing -/

theorem exists_constantText_iff (bits : Nat) (s : BitSort) :
    (∃ text, constantText bits s = .ok text) ↔ ¬ (s.isSigned = true ∧ s.width = 0) := by
  unfold constantText constantNumber
  cases s with
  | bool => exact ⟨fun _ h => (nomatch h.1), fun _ => ⟨_, rfl⟩⟩
  | bits width signed =>
    cases signed with
    | false => exact ⟨fun _ h => (nomatch h.1), fun _ => ⟨_, rfl⟩⟩
    | true =>
      cases width with
      | zero => exact ⟨fun ⟨_, h⟩ => (nomatch h), fun h => absurd ⟨rfl, rfl⟩ h⟩
      | succ width => exact ⟨fun _ h => (nomatch h.2), fun _ => ⟨_, rfl⟩⟩

/-- Only a constant of a signed sort without bits has no label. -/
theorem Expr.exists_label_iff (e : Expr) :
    (∃ label, e.label = .ok label) ↔
      ∀ bits s, e = .const bits s → ¬ (s.isSigned = true ∧ s.width = 0) := by
  cases e with
  | const bits s =>
    have hlabel : (∃ label, (Expr.const bits s).label = .ok label) ↔
        ∃ text, constantText bits s = .ok text := by
      simp only [Expr.label]
      cases constantText bits s with
      | error fault => exact ⟨fun ⟨_, h⟩ => (nomatch h), fun ⟨_, h⟩ => (nomatch h)⟩
      | ok text => exact ⟨fun _ => ⟨text, rfl⟩, fun _ => ⟨_, rfl⟩⟩
    rw [hlabel, exists_constantText_iff]
    exact ⟨fun h _ _ heq => by cases heq; exact h, fun h => h bits s rfl⟩
  | _ => exact ⟨fun _ _ _ => nofun, fun _ => ⟨_, rfl⟩⟩

example : (Expr.const 0 (.signed 0)).label = .error .overflow := rfl

section

variable {partitions : List Partition} {vectorConstraints : List Constraint}

/-- The text of a drawing is made of the lines of its statements. -/
theorem drawn_of_drawingText {text : String}
    (h : drawingText style partitions vectorConstraints = .ok text) :
    ∃ ss n, Drawn style (forest style (drawnConstraints partitions vectorConstraints)) [] 0 ss n ∧
      text = String.join (ss.map fun s => s.text ++ "\n") := by
  have hends := drawPartitions_ends style partitions vectorConstraints
  unfold Ensures at hends
  simp only [drawingText, StateT.run] at h
  cases hrun : drawPartitions style partitions vectorConstraints 0 with
  | error fault =>
    rw [hrun] at h
    cases h
  | ok drawn =>
    rw [hrun] at h hends
    cases h
    exact ⟨drawn.1, drawn.2, hends, rfl⟩

/-- A drawing has a text unless it shows an expression without a label. -/
theorem exists_drawingText_iff :
    (∃ text, drawingText style partitions vectorConstraints = .ok text) ↔
      (style.showExpressions = true → ∀ c ∈ drawnConstraints partitions vectorConstraints,
        ∀ x ∈ c.expr.preorder, ∃ label, x.label = .ok label) := by
  constructor
  · rintro ⟨text, h⟩ hshow c hc x hx
    obtain ⟨ss, n, hdrawn, -⟩ := drawn_of_drawingText h
    -- The expression is a vertex, so its declaration stands in the drawing.
    have hmem : Vertex.expr x ∈
        forest style (drawnConstraints partitions vectorConstraints) := by
      refine List.mem_flatMap.mpr ⟨.constraint c, List.mem_map.mpr ⟨c, hc, rfl⟩, ?_⟩
      rw [Vertex.tree, if_pos hshow]
      exact List.mem_cons_of_mem _ (List.mem_map.mpr ⟨x, hx, rfl⟩)
    obtain ⟨k, s, hs⟩ := hdrawn.exists_declaration hmem
    cases hlabel : x.label with
    | ok label => exact ⟨label, rfl⟩
    | error fault =>
      rw [Vertex.declaration, hlabel] at hs
      cases hs
  · intro h
    -- Conversely, only a label can be missing when a drawing is not made.
    have hends := drawPartitions_ends style partitions vectorConstraints
    unfold Ensures at hends
    cases hrun : drawPartitions style partitions vectorConstraints 0 with
    | ok drawn => exact ⟨_, by simp only [drawingText, StateT.run, hrun]; rfl⟩
    | error fault =>
      rw [hrun] at hends
      obtain ⟨hshow, c, hc, x, hx, hlabel⟩ := hends
      obtain ⟨label, hok⟩ := h hshow c hc x hx
      rw [hlabel] at hok
      cases hok

end

/-! ## §7 Labels between quotes -/

/-- Read a label up to the quote that ends it; what follows a backslash stands for itself. -/
def readLabel : List Char → Option (List Char × List Char)
  | [] => none
  | '\\' :: [] => none
  | '\\' :: c :: rest => (readLabel rest).map fun r => (c :: r.1, r.2)
  | '"' :: rest => some ([], rest)
  | c :: rest => (readLabel rest).map fun r => (c :: r.1, r.2)

theorem readLabel_cons {c : Char} (hc : ¬ (c = '\\' ∨ c = '"')) (rest : List Char) :
    readLabel (c :: rest) = (readLabel rest).map fun r => (c :: r.1, r.2) := by
  rw [not_or] at hc
  rw [readLabel]
  · exact fun h => absurd h hc.1
  · exact fun _ _ h => absurd h hc.1
  · exact hc.2

/-- An escaped label is read back up to its end, whatever follows the quote. -/
theorem readLabel_escapeChars (cs rest : List Char) :
    readLabel (escapeChars cs ++ '"' :: rest) = some (cs, rest) := by
  induction cs with
  | nil => rfl
  | cons c cs ih =>
    unfold escapeChars
    split
    · simp only [List.cons_append, readLabel, ih, Option.map_some]
    · rename_i hplain
      rw [List.cons_append, readLabel_cons hplain, ih, Option.map_some]

theorem readLabel_escape (name : String) (rest : List Char) :
    readLabel ((escape name).toList ++ '"' :: rest) = some (name.toList, rest) := by
  rw [escape, String.toList_ofList, readLabel_escapeChars]

/-- Replace every occurrence of a character. -/
def replaceChar (c : Char) (new : List Char) (cs : List Char) : List Char :=
  cs.flatMap fun x => if x = c then new else [x]

/-- Escaping first doubles the backslashes and then puts one before every quote. -/
theorem escapeChars_eq (cs : List Char) :
    escapeChars cs = replaceChar '"' ['\\', '"'] (replaceChar '\\' ['\\', '\\'] cs) := by
  induction cs with
  | nil => rfl
  | cons c cs ih =>
    simp only [replaceChar, List.flatMap_cons, List.flatMap_append] at ih ⊢
    rw [escapeChars]
    split
    · rename_i hspecial
      rcases hspecial with rfl | rfl
      · simp [ih]
      · simp [ih]
    · rename_i hplain
      rw [not_or] at hplain
      simp [hplain.1, hplain.2, ih]

/-! ## §8 Any drawing -/

/-- The statements draw the forest of the constraints.  The vertices are declared one after the
    other under the numbers from one on.  An edge joins a vertex with one right below it, one edge
    leads to each vertex that is no constraint, and whatever is opened is closed. -/
structure Shows (style : DrawingStyle) (cs : List Constraint) (ss : List Statement) : Prop where
  numbers : ss.filterMap Statement.number? = List.range' 1 (forest style cs).length
  declarations : List.Forall₂ (fun p s => p.1.declaration style p.2 = .ok s)
    ((forest style cs).zipIdx 1) (ss.filter (·.number?.isSome))
  joins : ∀ a b, .edge a b ∈ ss → ∃ v w, (v, a) ∈ (forest style cs).zipIdx 1 ∧
    (w, b) ∈ (forest style cs).zipIdx 1 ∧ w ∈ v.parts style
  targets : ∀ w k, (w, k) ∈ (forest style cs).zipIdx 1 →
    ((ss.filterMap Statement.edge?).map Prod.snd).count k = if w.isRoot then 0 else 1
  edges : (ss.filterMap Statement.edge?).length + cs.length = (forest style cs).length
  nested : Nested ss

theorem Drawn.shows {style : DrawingStyle} {cs : List Constraint} {ss : List Statement} {n : Nat}
    (h : Drawn style (forest style cs) [] 0 ss n) : Shows style cs ss where
  numbers := h.numbers_eq
  declarations := h.nodes
  joins _ _ hedge := h.edge_joins hedge
  targets _ _ hw := h.count_target hw
  edges := by rw [h.length_edges, h.last_eq, Nat.zero_add]
  nested := h.nested

/-- There is a drawing unless it shows a signed constant without bits.  Its text is that of
    statements that draw the forest of the constraints.  In the label of a name the backslashes are
    doubled and the quotes are marked, and it is read back as the name, whatever follows it. -/
theorem drawing_exact (style : DrawingStyle) (partitions : List Partition)
    (vectorConstraints : List Constraint) :
    ((∃ text, drawingText style partitions vectorConstraints = .ok text) ↔
      (style.showExpressions = true → ∀ c ∈ drawnConstraints partitions vectorConstraints,
        ∀ x ∈ c.expr.preorder, ∀ bits s, x = .const bits s →
          ¬ (s.isSigned = true ∧ s.width = 0))) ∧
    (∀ text, drawingText style partitions vectorConstraints = .ok text →
      ∃ ss, Shows style (drawnConstraints partitions vectorConstraints) ss ∧
        text = String.join (ss.map fun s => s.text ++ "\n")) ∧
    ∀ name : String, (escape name).toList =
        replaceChar '"' ['\\', '"'] (replaceChar '\\' ['\\', '\\'] name.toList) ∧
      ∀ rest, readLabel ((escape name).toList ++ '"' :: rest) = some (name.toList, rest) := by
  refine ⟨?_, fun text htext => ?_, fun name => ⟨?_, readLabel_escape name⟩⟩
  · simp only [exists_drawingText_iff, Expr.exists_label_iff]
  · obtain ⟨ss, n, hdrawn, hjoin⟩ := drawn_of_drawingText htext
    exact ⟨ss, hdrawn.shows, hjoin⟩
  · rw [escape, String.toList_ofList, escapeChars_eq]

/-- A partition with a constraint that holds, and that has a signed constant without bits. -/
def blank : Partition :=
  ⟨[⟨1, "z", .binary .lessEqual (.const 0 (.signed 0)) (.var 1 (.unsigned 8)), .ofList [1], false,
    false, true⟩], .ofList [1]⟩

theorem not_drawn_of_blank : drawingText {} [blank] [] = .error .overflow := rfl

end Stimulus
