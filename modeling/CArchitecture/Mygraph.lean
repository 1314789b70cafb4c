import CArchitecture.Hypergraph
import CArchitecture.Library.Loop
import Mathlib.Algebra.BigOperators.Group.List.Basic
import Mathlib.Algebra.Order.BigOperators.Group.List
import Mathlib.Algebra.Order.Ring.Int

/-!
# The incidence graph

`CMygraph` is the form in which the partitioner works on a hypergraph: every vertex has a list of
its edges, every edge a list of its vertices, both as linked lists that grow **at the front**. The
constructor from a `CHypergraph` therefore leaves the pins of each edge in reverse order, which is
the order in which every later loop meets them.

`Represents` says what the constructor leaves, and is what the later files use of it.
-/

namespace CArchitecture

/-- A vertex. Its arcs are the edges it lies on. -/
structure Vnode where
  vweight : ℤ
  /-- The weight of its edges together. -/
  nodeNum : ℤ
  arcs : List ℕ
  deriving Inhabited

/-- An edge. Its arcs are the vertices on it. -/
structure HEnode where
  /-- The weight of its vertices together. -/
  nodeNum : ℤ
  arcs : List ℕ
  hweight : ℤ
  deriving Inhabited

/-- The incidence graph. -/
structure CMygraph where
  pAllVertices : ℕ → Vnode
  pAllEdges : ℕ → HEnode
  /-- In a coarse graph: the coarse vertex of each fine one. -/
  keyTokey : OrdMap ℕ ℕ
  /-- In a coarse graph: the fine vertices of each coarse one. -/
  pMyHashForVert : ℕ → List ℕ
  nvetes : ℕ
  nhedges : ℕ
  maxHweight : ℤ
  deriving Inhabited

namespace CMygraph

/-- One pin: the edge gets an arc to the vertex, and the vertex one to the edge. -/
def addArc (e : ℕ) (g : CMygraph) (v : ℕ) : CMygraph :=
  { g with
    pAllEdges := Function.update g.pAllEdges e
      { g.pAllEdges e with
        arcs := v :: (g.pAllEdges e).arcs
        nodeNum := (g.pAllEdges e).nodeNum + (g.pAllVertices v).vweight }
    pAllVertices := Function.update g.pAllVertices v
      { g.pAllVertices v with
        arcs := e :: (g.pAllVertices v).arcs
        nodeNum := (g.pAllVertices v).nodeNum + (g.pAllEdges e).hweight } }

/-- The vertices and the edges before the first pin. -/
def blank (p : CHypergraph) : CMygraph where
  pAllVertices m := { vweight := p.vwgts m, nodeNum := 0, arcs := [] }
  pAllEdges m := { nodeNum := 0, arcs := [], hweight := p.hewgts m }
  keyTokey := ∅
  pMyHashForVert _ := []
  nvetes := p.nvtxs
  nhedges := p.nhedges
  maxHweight := (List.range p.nhedges).foldl (fun w m ↦ max w (p.hewgts m)) 1

/-- `CMygraph(CHypergraph *p)`. -/
def ofHypergraph (p : CHypergraph) : CMygraph :=
  (List.range p.nhedges).foldl (fun g e ↦ (p.pins e).foldl (addArc e) g) (blank p)

/-- The graph `g` is the incidence graph of `p`. -/
structure Represents (g : CMygraph) (p : CHypergraph) : Prop where
  nvetes_eq : g.nvetes = p.nvtxs
  nhedges_eq : g.nhedges = p.nhedges
  edge_arcs : ∀ e < p.nhedges, (g.pAllEdges e).arcs = (p.pins e).reverse
  edge_nodeNum : ∀ e < p.nhedges, (g.pAllEdges e).nodeNum = ((p.pins e).map p.vwgts).sum
  hweight_eq : ∀ e, (g.pAllEdges e).hweight = p.hewgts e
  vweight_eq : ∀ v, (g.pAllVertices v).vweight = p.vwgts v
  vert_arcs : ∀ v, (g.pAllVertices v).arcs =
    ((List.range p.nhedges).flatMap fun e ↦ List.replicate ((p.pins e).count v) e).reverse
  vert_nodeNum : ∀ v, (g.pAllVertices v).nodeNum =
    (((g.pAllVertices v).arcs).map p.hewgts).sum
  maxHweight_eq : g.maxHweight =
    (List.range p.nhedges).foldl (fun w m ↦ max w (p.hewgts m)) 1

/-- The constructor has entered the pins of the edges `done`, in order, and the pins `cur` of the
edge `e`. -/
structure Entered (p : CHypergraph) (g : CMygraph) (done : List ℕ) (e : ℕ) (cur : List ℕ) :
    Prop where
  nvetes_eq : g.nvetes = p.nvtxs
  nhedges_eq : g.nhedges = p.nhedges
  edge_done : ∀ e' ∈ done, (g.pAllEdges e').arcs = (p.pins e').reverse ∧
    (g.pAllEdges e').nodeNum = ((p.pins e').map p.vwgts).sum
  edge_cur : (g.pAllEdges e).arcs = cur.reverse ∧ (g.pAllEdges e).nodeNum = (cur.map p.vwgts).sum
  edge_blank : ∀ e' ∉ done, e' ≠ e → (g.pAllEdges e').arcs = [] ∧ (g.pAllEdges e').nodeNum = 0
  hweight_eq : ∀ e', (g.pAllEdges e').hweight = p.hewgts e'
  vweight_eq : ∀ v, (g.pAllVertices v).vweight = p.vwgts v
  vert_arcs : ∀ v, (g.pAllVertices v).arcs =
    ((done.flatMap fun e' ↦ List.replicate ((p.pins e').count v) e') ++
      List.replicate (cur.count v) e).reverse
  vert_nodeNum : ∀ v, (g.pAllVertices v).nodeNum = ((g.pAllVertices v).arcs.map p.hewgts).sum
  maxHweight_eq : g.maxHweight =
    (List.range p.nhedges).foldl (fun w m ↦ max w (p.hewgts m)) 1

section Constructor

variable {p : CHypergraph} {g : CMygraph} {done : List ℕ} {e : ℕ} {cur : List ℕ}

/-- **One pin.** -/
theorem Entered.addArc (h : Entered p g done e cur) (he : e ∉ done) (v : ℕ) :
    Entered p (addArc e g v) done e (cur ++ [v]) where
  nvetes_eq := h.nvetes_eq
  nhedges_eq := h.nhedges_eq
  edge_done e' he' := by
    have hne : e' ≠ e := fun heq ↦ he (heq ▸ he')
    simp only [CMygraph.addArc, Function.update_of_ne hne]
    exact h.edge_done e' he'
  edge_cur := by
    simp only [CMygraph.addArc, Function.update_self]
    refine ⟨?_, ?_⟩
    · rw [h.edge_cur.1, List.reverse_append]
      rfl
    · rw [h.edge_cur.2, h.vweight_eq]
      simp
  edge_blank e' he' hne := by
    simp only [CMygraph.addArc, Function.update_of_ne hne]
    exact h.edge_blank e' he' hne
  hweight_eq e' := by
    rcases eq_or_ne e' e with rfl | hne
    · simp only [CMygraph.addArc, Function.update_self]
      exact h.hweight_eq e'
    · simp only [CMygraph.addArc, Function.update_of_ne hne]
      exact h.hweight_eq e'
  vweight_eq u := by
    rcases eq_or_ne u v with rfl | hne
    · simp only [CMygraph.addArc, Function.update_self]
      exact h.vweight_eq u
    · simp only [CMygraph.addArc, Function.update_of_ne hne]
      exact h.vweight_eq u
  vert_arcs u := by
    rcases eq_or_ne u v with rfl | hne
    · simp only [CMygraph.addArc, Function.update_self]
      -- arcs are put in front, so the list is the reverse of the order of entry
      rw [h.vert_arcs u, List.count_append, List.count_singleton_self, List.replicate_succ',
        ← List.append_assoc, List.reverse_concat]
    · simp only [CMygraph.addArc, Function.update_of_ne hne]
      rw [h.vert_arcs u, List.count_append, List.count_singleton, if_neg (by simpa using hne.symm),
        Nat.add_zero]
  vert_nodeNum u := by
    rcases eq_or_ne u v with rfl | hne
    · simp only [CMygraph.addArc, Function.update_self, List.map_cons, List.sum_cons]
      rw [h.vert_nodeNum u, h.hweight_eq, Int.add_comm]
    · simp only [CMygraph.addArc, Function.update_of_ne hne]
      exact h.vert_nodeNum u
  maxHweight_eq := h.maxHweight_eq

/-- The edge is finished and the next one begins. -/
theorem Entered.next (h : Entered p g done e (p.pins e)) {e' : ℕ} (he' : e' ∉ done ++ [e]) :
    Entered p g (done ++ [e]) e' [] where
  nvetes_eq := h.nvetes_eq
  nhedges_eq := h.nhedges_eq
  edge_done d hd := by
    rcases List.mem_append.1 hd with hd | hd
    · exact h.edge_done d hd
    · rw [List.mem_singleton.1 hd]
      exact h.edge_cur
  edge_cur := h.edge_blank e' (fun hd ↦ he' (List.mem_append_left _ hd))
    fun heq ↦ he' (heq ▸ by simp)
  edge_blank d hd _ := h.edge_blank d (fun hd' ↦ hd (List.mem_append_left _ hd'))
    fun heq ↦ hd (heq ▸ by simp)
  hweight_eq := h.hweight_eq
  vweight_eq := h.vweight_eq
  vert_arcs v := by
    rw [h.vert_arcs v, List.flatMap_append, List.flatMap_singleton]
    simp
  vert_nodeNum := h.vert_nodeNum
  maxHweight_eq := h.maxHweight_eq

/-- All pins of an edge. -/
theorem Entered.foldl_addArc (h : Entered p g done e []) (he : e ∉ done) :
    Entered p ((p.pins e).foldl (CMygraph.addArc e) g) done e (p.pins e) :=
  Loop.foldl_invariant (fun cur g ↦ Entered p g done e cur) h
    fun _ v _ _ _ ht ↦ ht.addArc he v

theorem entered_blank (p : CHypergraph) : Entered p (blank p) [] 0 [] where
  nvetes_eq := rfl
  nhedges_eq := rfl
  edge_done := by simp
  edge_cur := ⟨rfl, rfl⟩
  edge_blank _ _ _ := ⟨rfl, rfl⟩
  hweight_eq _ := rfl
  vweight_eq _ := rfl
  vert_arcs _ := rfl
  vert_nodeNum _ := rfl
  maxHweight_eq := rfl

/-- **What the constructor leaves.** -/
theorem represents_ofHypergraph (p : CHypergraph) : (ofHypergraph p).Represents p := by
  have key : ∀ n, Entered p
      ((List.range n).foldl (fun g e ↦ (p.pins e).foldl (CMygraph.addArc e) g) (blank p))
      (List.range n) n [] := by
    intro n
    induction n with
    | zero => exact entered_blank p
    | succ n ih =>
      rw [List.range_succ, List.foldl_append]
      exact (ih.foldl_addArc (by simp)).next (by simp)
  have h := key p.nhedges
  exact {
    nvetes_eq := h.nvetes_eq
    nhedges_eq := h.nhedges_eq
    edge_arcs := fun e he ↦ (h.edge_done e (List.mem_range.2 he)).1
    edge_nodeNum := fun e he ↦ (h.edge_done e (List.mem_range.2 he)).2
    hweight_eq := h.hweight_eq
    vweight_eq := h.vweight_eq
    vert_arcs := fun v ↦ (h.vert_arcs v).trans (by simp)
    vert_nodeNum := h.vert_nodeNum
    maxHweight_eq := h.maxHweight_eq }

end Constructor

/-- The arcs of an edge lead to vertices. -/
theorem Represents.arcs_lt {g : CMygraph} {p : CHypergraph} (h : g.Represents p)
    (hpins : ∀ e < p.nhedges, ∀ v ∈ p.pins e, v < p.nvtxs) :
    ∀ e < g.nhedges, ∀ v ∈ (g.pAllEdges e).arcs, v < g.nvetes := by
  intro e he v hv
  rw [h.nhedges_eq] at he
  rw [h.edge_arcs e he, List.mem_reverse] at hv
  rw [h.nvetes_eq]
  exact hpins e he v hv

theorem Represents.nodeNum_nonneg {g : CMygraph} {p : CHypergraph} (h : g.Represents p)
    (hpins : ∀ e < p.nhedges, ∀ v ∈ p.pins e, v < p.nvtxs)
    (hvwgts : ∀ v < p.nvtxs, 0 ≤ p.vwgts v) :
    ∀ e < g.nhedges, 0 ≤ (g.pAllEdges e).nodeNum := by
  intro e he
  rw [h.nhedges_eq] at he
  rw [h.edge_nodeNum e he]
  refine List.sum_nonneg fun w hw ↦ ?_
  obtain ⟨v, hv, rfl⟩ := List.mem_map.1 hw
  exact hvwgts v (hpins e he v hv)

/-- The edges of a vertex. -/
theorem Represents.mem_vert_arcs {g : CMygraph} {p : CHypergraph} (h : g.Represents p) {v e : ℕ} :
    e ∈ (g.pAllVertices v).arcs ↔ e < p.nhedges ∧ v ∈ p.pins e := by
  rw [h.vert_arcs v, List.mem_reverse, List.mem_flatMap]
  constructor
  · rintro ⟨e', he', hmem⟩
    obtain ⟨hne, rfl⟩ := List.mem_replicate.1 hmem
    exact ⟨List.mem_range.1 he', List.count_pos_iff.1 (Nat.pos_of_ne_zero hne)⟩
  · rintro ⟨he, hv⟩
    exact ⟨e, List.mem_range.2 he,
      List.mem_replicate.2 ⟨(List.count_pos_iff.2 hv).ne', rfl⟩⟩

/-- An edge stands in the list of a vertex as often as the vertex is a pin of it. -/
theorem Represents.count_vert_arcs {g : CMygraph} {p : CHypergraph} (h : g.Represents p) {e : ℕ}
    (he : e < p.nhedges) (v : ℕ) : (g.pAllVertices v).arcs.count e = (p.pins e).count v := by
  have hcount : ∀ n, ((List.range n).flatMap fun e' ↦
      List.replicate ((p.pins e').count v) e').count e =
      if e < n then (p.pins e).count v else 0 := by
    intro n
    induction n with
    | zero => simp
    | succ n ih =>
      rw [List.range_succ, List.flatMap_append, List.count_append, ih, List.flatMap_singleton,
        List.count_replicate]
      rcases Nat.lt_trichotomy e n with hlt | rfl | hgt
      · rw [if_pos hlt, if_neg (by simpa using hlt.ne'), if_pos (hlt.trans (Nat.lt_succ_self n))]
        rfl
      · rw [if_neg (Nat.lt_irrefl e), if_pos (by simp), if_pos (Nat.lt_succ_self e), Nat.zero_add]
      · rw [if_neg hgt.not_gt, if_neg (by simpa using hgt.ne), if_neg (Nat.not_lt.2 hgt)]
  rw [h.vert_arcs v, List.count_reverse, hcount, if_pos he]

/-- A vertex has the weights of its edges, each as often as it is a pin of the edge. -/
theorem Represents.vert_nodeNum_eq_sum {g : CMygraph} {p : CHypergraph} (h : g.Represents p)
    (v : ℕ) : (g.pAllVertices v).nodeNum =
      ∑ e ∈ Finset.range p.nhedges, ((p.pins e).count v : ℤ) * p.hewgts e := by
  have hsum : ∀ n, (((List.range n).flatMap fun e ↦
      List.replicate ((p.pins e).count v) e).map p.hewgts).sum =
      ∑ e ∈ Finset.range n, ((p.pins e).count v : ℤ) * p.hewgts e := by
    intro n
    induction n with
    | zero => rfl
    | succ n ih =>
      rw [List.range_succ, List.flatMap_append, List.map_append, List.sum_append, ih,
        Finset.sum_range_succ, List.flatMap_singleton, List.map_replicate, List.sum_replicate,
        nsmul_eq_mul]
  rw [h.vert_nodeNum v, h.vert_arcs v, List.map_reverse, List.sum_reverse, hsum]

/-- **The two families of lists are dual.** Whatever the rows are, a vertex stands in the list of an
edge as often as the edge in the list of the vertex, and that is how often it is a pin; the sums are
those of the pins and of the incident edges, and `maxHweight` is the largest weight, or `1`. -/
theorem ofHypergraph_dual (p : CHypergraph) :
    (∀ e < p.nhedges, ∀ v,
      ((ofHypergraph p).pAllEdges e).arcs.count v = (p.pins e).count v ∧
      ((ofHypergraph p).pAllVertices v).arcs.count e = (p.pins e).count v) ∧
    (∀ e < p.nhedges,
      ((ofHypergraph p).pAllEdges e).nodeNum = ((p.pins e).map p.vwgts).sum) ∧
    (∀ v, ((ofHypergraph p).pAllVertices v).nodeNum =
      ∑ e ∈ Finset.range p.nhedges, ((p.pins e).count v : ℤ) * p.hewgts e) ∧
    IsGreatest {w | w = 1 ∨ ∃ e < p.nhedges, w = p.hewgts e} (ofHypergraph p).maxHweight := by
  have h := represents_ofHypergraph p
  refine ⟨fun e he v ↦ ⟨?_, h.count_vert_arcs he v⟩, h.edge_nodeNum, h.vert_nodeNum_eq_sum, ?_⟩
  · rw [h.edge_arcs e he, List.count_reverse]
  · rw [h.maxHweight_eq]
    have hmax := Loop.isGreatest_foldl_max p.hewgts (List.range p.nhedges) 1
    simpa only [List.mem_range] using hmax

end CMygraph

end CArchitecture
