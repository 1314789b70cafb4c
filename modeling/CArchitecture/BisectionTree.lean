import CArchitecture.Library.Restriction
import CArchitecture.LeafNumbers
import Mathlib.Algebra.BigOperators.Intervals
import Mathlib.Algebra.Order.Field.Rat
import Mathlib.Tactic.Ring

/-!
# What the nodes of the bisection tree are

A node of the tree knows its vertices by numbers of its own, and its edges are what the cuts above
it left of the edges of its father. By the names that the vertices have in the root, a node is
simply **the root restricted to the vertices of the node** (`Heap.Good.restrictsRoot`), whatever the
cuts above it were.

So a node is worth the hyperedges that are whole in it, and the ratios that are stored in its sons
count hyperedges of the root (`bisect_ratios`). A cut takes the weight of the edges it goes through
away from both sides, and the weights of all cuts together are the number of hyperedges with pins in
different leaves (`bisect_cutWeight`), which is the number that `hcut` is for.
-/

namespace CArchitecture

open FirstSeen Restriction

/-! ### Names in the root -/

/-- The name of a vertex in the root. -/
def rootName (heap : Heap) (a k : ℕ) : ℕ := (toRoot heap (a + 1) a k).getD 0

/-- A vertex of the root that belongs to the node `a`. -/
def inNode (heap : Heap) (a x : ℕ) : Bool :=
  (List.range (heap a).nvtxs).any fun k ↦ rootName heap a k = x

theorem inNode_iff {heap : Heap} {a x : ℕ} :
    inNode heap a x = true ↔ ∃ k < (heap a).nvtxs, rootName heap a k = x := by
  simp [inNode]

/-- The restriction of the root to a node. -/
structure RestrictsRoot (heap : Heap) (a : ℕ) : Prop where
  edges_eq : rename (rootName heap a) (heap a).edges =
    restrict (inNode heap a) (heap 0).edges
  vwgts_eq : ∀ k < (heap a).nvtxs, (heap a).vwgts k = (heap 0).vwgts (rootName heap a k)
  injOn : Set.InjOn (rootName heap a) {k | k < (heap a).nvtxs}
  lt : ∀ k < (heap a).nvtxs, rootName heap a k < (heap 0).nvtxs

section Tree

variable {heap : Heap} {size : ℕ}

theorem Heap.Good.toRoot_eq (hg : heap.Good size) {a k n : ℕ} (ha : a < size)
    (hk : k < (heap a).nvtxs) (hn : a < n) : toRoot heap n a k = some (rootName heap a k) := by
  obtain ⟨x, hx⟩ := hg.exists_toRoot ha hk (Nat.lt_succ_self a)
  rw [rootName, hx]
  exact toRoot_mono hn hx

theorem Heap.Good.rootName_injOn (hg : heap.Good size) {a : ℕ} (ha : a < size) :
    Set.InjOn (rootName heap a) {k | k < (heap a).nvtxs} := fun _ hk _ hl hkl ↦
  hg.toRoot_injective ha (hg.toRoot_eq ha hk (Nat.lt_succ_self a))
    (hkl ▸ hg.toRoot_eq ha hl (Nat.lt_succ_self a))

theorem Heap.Good.rootName_root (hg : heap.Good size) (v : ℕ) : rootName heap 0 v = v := by
  rw [rootName, hg.toRoot_root Nat.one_pos]
  rfl

/-- A vertex has the same name as in the father. -/
theorem Heap.Good.rootName_son (hg : heap.Good size) {a b k v : ℕ} (hb : b < size)
    (hab : a < b) (hfather : (heap b).fatherGraph = some a)
    (hk : (heap b).mapForFather.find? k = some v) (hkb : k < (heap b).nvtxs)
    (hv : v < (heap a).nvtxs) : rootName heap b k = rootName heap a v := by
  have hson := hg.toRoot_son hb hfather hk hv (Nat.lt_succ_self b)
  rw [hg.toRoot_eq hb hkb (Nat.lt_succ_self b), hg.toRoot_eq (hab.trans hb) hv (by omega)] at hson
  exact Option.some.inj hson

/-- A son holds the vertices of its father that carry its label. -/
theorem Heap.Good.inNode_rootName (hg : heap.Good size) {a b : ℕ} (hb : b < size) (hab : a < b)
    (hfather : (heap b).fatherGraph = some a) {label : ℤ} {toSon : OrdMap ℕ ℕ}
    (hson : IsSon (heap a) label toSon (heap b)) {v : ℕ} (hv : v < (heap a).nvtxs) :
    inNode heap b (rootName heap a v) = decide ((heap a).part v = label) := by
  rw [Bool.eq_iff_iff, inNode_iff, decide_eq_true_iff]
  constructor
  · rintro ⟨k, hk, hname⟩
    obtain ⟨u, hu⟩ := hson.exists_find?_of_lt hk
    obtain ⟨-, hua, hlabel⟩ := hson.of_find? hu
    rw [hg.rootName_son hb hab hfather hu hk hua] at hname
    rwa [← hg.rootName_injOn (hab.trans hb) hua hv hname]
  · intro hlabel
    obtain ⟨k, hk⟩ := hson.exists_find? hv hlabel
    obtain ⟨hkb, -, -⟩ := hson.of_find? hk
    exact ⟨k, hkb, hg.rootName_son hb hab hfather hk hkb hv⟩

/-- A son holds no other vertices. -/
theorem Heap.Good.inNode_father (hg : heap.Good size) {a b : ℕ} (hb : b < size) (hab : a < b)
    (hfather : (heap b).fatherGraph = some a) {label : ℤ} {toSon : OrdMap ℕ ℕ}
    (hson : IsSon (heap a) label toSon (heap b)) {x : ℕ} (hx : inNode heap b x = true) :
    inNode heap a x = true := by
  obtain ⟨k, hk, rfl⟩ := inNode_iff.1 hx
  obtain ⟨v, hv⟩ := hson.exists_find?_of_lt hk
  obtain ⟨-, hva, -⟩ := hson.of_find? hv
  exact inNode_iff.2 ⟨v, hva, (hg.rootName_son hb hab hfather hv hk hva).symm⟩

/-- **One level**: by the names in the root, the edges of a son are those of its father,
restricted. -/
theorem Heap.Good.edges_son (hg : heap.Good size) {a b : ℕ} (hb : b < size) (hab : a < b)
    (hfather : (heap b).fatherGraph = some a) {label : ℤ} {toSon : OrdMap ℕ ℕ}
    (hson : IsSon (heap a) label toSon (heap b)) :
    rename (rootName heap b) (heap b).edges =
      restrict (inNode heap b) (rename (rootName heap a) (heap a).edges) := by
  have hpin : ∀ e ∈ (heap a).edges, ∀ v ∈ e.2, v < (heap a).nvtxs := fun e he v hv ↦ by
    obtain ⟨i, hi, rfl⟩ := CHypergraph.mem_edges_iff.1 he
    exact (hg.wellFormed a (hab.trans hb)).pins_lt i hi v hv
  have hedges : (heap b).edges = rename (fun v ↦ (toSon.find? v).getD 0)
      (restrict (fun v ↦ decide ((heap a).part v = label)) (heap a).edges) := hson.edges_eq
  rw [hedges, rename_rename, restrict_rename,
    restrict_congr fun e he v hv ↦ hg.inNode_rootName hb hab hfather hson (hpin e he v hv)]
  refine rename_congr fun e he v hv ↦ ?_
  -- a pin that is left has the label, and so a number in the son
  obtain ⟨i, hi, hpins, -⟩ := mem_sideEdges he
  rw [hpins, mem_labelled] at hv
  have hva := (hg.wellFormed a (hab.trans hb)).pins_lt i hi v hv.1
  obtain ⟨k, hk⟩ := hson.exists_find? hva hv.2
  rw [(hson.inverse k v).1 hk]
  exact hg.rootName_son hb hab hfather hk (hson.of_find? hk).1 hva

/-- **Every node is a restriction of the root.** -/
theorem Heap.Good.restrictsRoot (hg : heap.Good size) {a : ℕ} (ha : a < size) :
    RestrictsRoot heap a := by
  induction a using Nat.strong_induction_on with
  | h a ih =>
    rcases Nat.eq_zero_or_pos a with rfl | hpos
    · have hpins : ∀ e ∈ (heap 0).edges, e.2 ≠ [] ∧ ∀ v ∈ e.2, v < (heap 0).nvtxs :=
        fun e he ↦ by
          obtain ⟨i, hi, rfl⟩ := CHypergraph.mem_edges_iff.1 he
          exact ⟨(hg.wellFormed 0 ha).pins_ne_nil hi, (hg.wellFormed 0 ha).pins_lt i hi⟩
      refine ⟨?_, fun k _ ↦ by rw [hg.rootName_root], hg.rootName_injOn ha, fun k hk ↦ ?_⟩
      · rw [restrict_eq_self (fun e he ↦ (hpins e he).1) fun e he v hv ↦
          inNode_iff.2 ⟨v, (hpins e he).2 v hv, hg.rootName_root v⟩]
        refine (rename_congr fun e _ v _ ↦ hg.rootName_root v).trans ?_
        simp [rename]
      · rwa [hg.rootName_root]
    · obtain ⟨f, hf, hfather, label, toSon, hson⟩ := hg.exists_father ha hpos.ne'
      have hup := ih f hf (hf.trans ha)
      refine ⟨?_, fun k hk ↦ ?_, hg.rootName_injOn ha, fun k hk ↦ ?_⟩
      · rw [hg.edges_son ha hf hfather hson, hup.edges_eq,
          restrict_restrict fun x hx ↦ hg.inNode_father ha hf hfather hson hx]
      · obtain ⟨v, hv⟩ := hson.exists_find?_of_lt hk
        obtain ⟨-, hva, -⟩ := hson.of_find? hv
        rw [hson.vwgts_eq k v hv, hup.vwgts_eq v hva, hg.rootName_son ha hf hfather hv hk hva]
      · obtain ⟨v, hv⟩ := hson.exists_find?_of_lt hk
        obtain ⟨-, hva, -⟩ := hson.of_find? hv
        rw [hg.rootName_son ha hf hfather hv hk hva]
        exact hup.lt v hva

/-! ### The leaves -/

/-- The way down keeps the name. -/
theorem Heap.Good.rootName_descends (hg : heap.Good size) {a v d w : ℕ}
    (h : Descends heap a v d w) (ha : a < size) (hv : v < (heap a).nvtxs) :
    d < size ∧ (heap d).leftSon = none ∧ w < (heap d).nvtxs ∧
      rootName heap d w = rootName heap a v := by
  induction h with
  | here hl _ => exact ⟨ha, hl, hv, rfl⟩
  | @left a b v k d w hl hk h ih =>
    rcases hg.node a ha with hleaf | ⟨b', c, hb, -, hsons⟩
    · exact absurd (hleaf.leftSon_eq.symm.trans hl) (by simp)
    · obtain rfl := Option.some.inj (hsons.leftSon_eq.symm.trans hl)
      have hk' := (hsons.left.inverse k v).2 hk
      have hkb := (hsons.left.of_find? hk').1
      obtain ⟨hd, hleaf, hw, hname⟩ := ih hb hkb
      exact ⟨hd, hleaf, hw,
        hname.trans (hg.rootName_son hb hsons.left_lt hsons.father_left hk' hkb hv)⟩
  | @right a c v k d w hr hk h ih =>
    rcases hg.node a ha with hleaf | ⟨b, c', -, hc, hsons⟩
    · exact absurd (hleaf.rightSon_eq.symm.trans hr) (by simp)
    · obtain rfl := Option.some.inj (hsons.rightSon_eq.symm.trans hr)
      have hk' := (hsons.right.inverse k v).2 hk
      have hkc := (hsons.right.of_find? hk').1
      obtain ⟨hd, hleaf, hw, hname⟩ := ih hc hkc
      exact ⟨hd, hleaf, hw,
        hname.trans (hg.rootName_son hc hsons.right_lt hsons.father_right hk' hkc hv)⟩

/-- A vertex of a leaf, found from the root. -/
theorem Heap.Good.descends_rootName (hg : heap.Good size) {a k d w : ℕ} (ha : a < size)
    (hk : k < (heap a).nvtxs) (h : Descends heap a k d w) :
    Descends heap 0 (rootName heap a k) d w := by
  induction a using Nat.strong_induction_on generalizing k with
  | h a ih =>
    rcases Nat.eq_zero_or_pos a with rfl | hpos
    · rwa [hg.rootName_root]
    · obtain ⟨f, b, c, hb, hc, hsons, hside⟩ := hg.father a ha hpos.ne'
      rcases hside with rfl | rfl
      · obtain ⟨v, hv⟩ := hsons.left.exists_find?_of_lt hk
        obtain ⟨-, hvf, -⟩ := hsons.left.of_find? hv
        rw [hg.rootName_son ha hsons.left_lt hsons.father_left hv hk hvf]
        exact ih f hsons.left_lt (hsons.left_lt.trans ha) hvf
          (.left hsons.leftSon_eq ((hsons.left.inverse k v).1 hv) h)
      · obtain ⟨v, hv⟩ := hsons.right.exists_find?_of_lt hk
        obtain ⟨-, hvf, -⟩ := hsons.right.of_find? hv
        rw [hg.rootName_son ha hsons.right_lt hsons.father_right hv hk hvf]
        exact ih f hsons.right_lt (hsons.right_lt.trans ha) hvf
          (.right hsons.rightSon_eq ((hsons.right.inverse k v).1 hv) h)

/-- The addresses of the leaves. -/
def leavesOf (heap : Heap) (size : ℕ) : Finset ℕ :=
  (Finset.range size).filter fun a ↦ (heap a).leftSon = none

/-- The addresses of the nodes that were cut. -/
def cutsOf (heap : Heap) (size : ℕ) : Finset ℕ :=
  (Finset.range size).filter fun a ↦ ¬ (heap a).leftSon = none

theorem Heap.Good.isLeaf_of_leftSon (hg : heap.Good size) {a : ℕ} (ha : a < size)
    (hl : (heap a).leftSon = none) : (heap a).IsLeaf := by
  rcases hg.node a ha with hleaf | ⟨b, c, -, -, hsons⟩
  · exact hleaf
  · exact absurd (hsons.leftSon_eq.symm.trans hl) (by simp)

/-- **A leaf holds the vertices that descend to it.** -/
theorem Heap.Good.inNode_leaf_iff (hg : heap.Good size) {d x : ℕ} (hd : d ∈ leavesOf heap size)
    (hx : x < (heap 0).nvtxs) : inNode heap d x = true ↔ ∃ w, Descends heap 0 x d w := by
  obtain ⟨hlt, hl⟩ := Finset.mem_filter.1 hd
  have hlt := Finset.mem_range.1 hlt
  constructor
  · intro hin
    obtain ⟨k, hk, rfl⟩ := inNode_iff.1 hin
    exact ⟨k, hg.descends_rootName hlt hk (.here hl (hg.isLeaf_of_leftSon hlt hl).rightSon_eq)⟩
  · rintro ⟨w, hw⟩
    obtain ⟨-, -, hwd, hname⟩ := hg.rootName_descends hw hg.pos hx
    exact inNode_iff.2 ⟨w, hwd, hname.trans (hg.rootName_root x)⟩

/-- An edge is whole in a leaf if and only if its pins have the same number. -/
theorem Heap.Good.whole_iff (hg : heap.Good size) {partnum : ℕ} {part : ℕ → ℤ}
    (hnumbers : NumbersLeaves heap partnum part) {pins : List ℕ} (hne : pins ≠ [])
    (hlt : ∀ v ∈ pins, v < (heap 0).nvtxs) :
    (∃ d ∈ leavesOf heap size, pins.all (inNode heap d) = true) ↔
      ∀ u ∈ pins, ∀ v ∈ pins, part u = part v := by
  constructor
  · rintro ⟨d, hd, hall⟩ u hu v hv
    rw [List.all_eq_true] at hall
    obtain ⟨w, hw⟩ := (hg.inNode_leaf_iff hd (hlt u hu)).1 (hall u hu)
    obtain ⟨x, hx⟩ := (hg.inNode_leaf_iff hd (hlt v hv)).1 (hall v hv)
    exact (hnumbers.part_eq_iff u (hlt u hu) v (hlt v hv) d d w x hw hx).2 rfl
  · intro hsame
    obtain ⟨u, hu⟩ := List.exists_mem_of_ne_nil _ hne
    obtain ⟨d, w, hw⟩ := hg.exists_descends hg.pos (hlt u hu)
    obtain ⟨hd, hl, -, -⟩ := hg.rootName_descends hw hg.pos (hlt u hu)
    have hleaf : d ∈ leavesOf heap size := Finset.mem_filter.2 ⟨Finset.mem_range.2 hd, hl⟩
    refine ⟨d, hleaf, List.all_eq_true.2 fun v hv ↦ (hg.inNode_leaf_iff hleaf (hlt v hv)).2 ?_⟩
    obtain ⟨e, x, hx⟩ := hg.exists_descends hg.pos (hlt v hv)
    have hde := (hnumbers.part_eq_iff u (hlt u hu) v (hlt v hv) d e w x hw hx).1 (hsame u hu v hv)
    exact ⟨x, hde ▸ hx⟩

/-- **A leaf is worth** the hyperedges of the root that are whole in it. -/
theorem Heap.Good.totalWeight_node (hg : heap.Good size) {a : ℕ} (ha : a < size) :
    totalWeight (heap a) = weight ((heap 0).edges.filter (·.2.all (inNode heap a))) := by
  have hne : ∀ e ∈ (heap 0).edges, e.2 ≠ [] := fun e he ↦ by
    obtain ⟨i, hi, rfl⟩ := CHypergraph.mem_edges_iff.1 he
    exact (hg.wellFormed 0 hg.pos).pins_ne_nil hi
  rw [← weight_restrict hne, ← (hg.restrictsRoot ha).edges_eq, weight_rename]
  rfl

end Tree

/-! ### Accounting for the weights -/

/-- The weight that a node accounts for: a leaf for its own, a cut node for what the cut takes. -/
def nodeWeight (h : CHypergraph) : ℤ := if h.leftSon = none then totalWeight h else cutWeight h

section Loop

variable {M : Type*} {myPartition : ℕ → CHypergraph → Outcome M} {s s' : BisectState M}

/-- The record may differ in the labelling and in what hangs below it, but not in its ratios. -/
structure CHypergraph.SameRatios (h h' : CHypergraph) : Prop where
  coupling_eq : h'.coupling = h.coupling
  cohesion_eq : h'.cohesion = h.cohesion

/-- **One round** on the tree: a leaf stays a leaf, or it is split. -/
theorem BisectState.Good.step_cases (hmy : LabelsSides myPartition) (hs : s.Good)
    (h : CArchitecture.bisectStep myPartition s = Sum.inl s') :
    ∃ a < s.size, (s.heap a).IsLeaf ∧
      ((∃ p, (s.heap a).SameGraph p ∧ (s.heap a).SameRatios p ∧ p.IsLeaf ∧
          s'.heap = Function.update s.heap a p ∧ s'.size = s.size) ∨
        ∃ (t : BisectState M) (q : CHypergraph), t.heap = s.heap ∧ t.size = s.size ∧
          (s.heap a).SameGraph q ∧ (s.heap a).SameRatios q ∧
          (∀ v < q.nvtxs, q.part v = 0 ∨ q.part v = 1) ∧ q.mapForG1 = ∅ ∧ q.mapForG2 = ∅ ∧
          s' = splitNode t a q) := by
  rw [CArchitecture.bisectStep] at h
  cases hq : s.subGraph with
  | nil => rw [hq] at h; exact absurd h (by simp)
  | cons a rest =>
    rw [hq] at h
    obtain ⟨ha, hleaf⟩ := hs.queued a (by rw [hq]; exact List.mem_cons_self)
    refine ⟨a, ha, hleaf, ?_⟩
    have hsame := sameGraph_partitioned myPartition s.calls (s.heap a)
    simp only at h
    by_cases hn : (s.heap a).nvtxs > END_NUM - 1
    · rw [if_pos hn] at h
      by_cases hp : (partitioned myPartition s.calls (s.heap a)).isParted = true
      · rw [if_pos hp] at h
        refine Or.inr ⟨_, _, ?_, ?_, hsame, ⟨rfl, rfl⟩, hmy _ _ hp, hleaf.mapForG1_eq,
          hleaf.mapForG2_eq, (Sum.inl.inj h).symm⟩ <;> rfl
      · rw [if_neg hp] at h
        obtain rfl := Sum.inl.inj h
        exact Or.inl ⟨_, hsame, ⟨rfl, rfl⟩, ⟨hleaf.leftSon_eq, hleaf.rightSon_eq,
          hleaf.mapForG1_eq, hleaf.mapForG2_eq⟩, rfl, rfl⟩
    · rw [if_neg hn] at h
      obtain rfl := Sum.inl.inj h
      exact Or.inl ⟨s.heap a, CHypergraph.SameGraph.refl _, ⟨rfl, rfl⟩, hleaf,
        by rw [Function.update_eq_self], rfl⟩

/-- The fields of the three nodes of a split. -/
theorem splitNode_heap {t : BisectState M} {a : ℕ} {q : CHypergraph} (ha : a < t.size) :
    ∃ sub1 sub2 : CHypergraph, sub1.mapForFather = ∅ ∧ sub2.mapForFather = ∅ ∧
      (q.SameRatios ((splitNode t a q).heap a) ∧ ((splitNode t a q).heap a).part = q.part) ∧
      ((splitNode t a q).heap t.size).coupling = sideCoupling (splitEdges q sub1 sub2) ∧
      ((splitNode t a q).heap (t.size + 1)).coupling = sideCoupling (splitEdges q sub1 sub2) ∧
      ((splitNode t a q).heap t.size).cohesion = sideCohesion (splitEdges q sub1 sub2).g1.wight
        (splitEdges q sub1 sub2).wightG1_G2 ∧
      ((splitNode t a q).heap (t.size + 1)).cohesion =
        sideCohesion (splitEdges q sub1 sub2).g2.wight (splitEdges q sub1 sub2).wightG1_G2 := by
  refine ⟨CHypergraph.new (t.heap t.size), CHypergraph.new (t.heap (t.size + 1)), rfl, rfl, ?_⟩
  set subs := createSubGraph a q (CHypergraph.new (t.heap t.size))
    (CHypergraph.new (t.heap (t.size + 1))) with hsubs
  have hdef : splitNode t a q =
      if subs.2.1.nvtxs ≠ 0 ∧ subs.2.2.nvtxs ≠ 0 then
        { linkSons t a subs.1 { subs.2.1 with floor := q.floor + 1 }
            { subs.2.2 with floor := q.floor + 1 } with
          subGraph := t.subGraph ++ [t.size, t.size + 1] }
      else linkSons t a subs.1 subs.2.1 subs.2.2 := rfl
  rw [hdef]
  split_ifs
  · show (q.SameRatios ((linkSons t a _ _ _).heap a) ∧ ((linkSons t a _ _ _).heap a).part = _) ∧
      ((linkSons t a _ _ _).heap t.size).coupling = _ ∧
      ((linkSons t a _ _ _).heap (t.size + 1)).coupling = _ ∧
      ((linkSons t a _ _ _).heap t.size).cohesion = _ ∧
      ((linkSons t a _ _ _).heap (t.size + 1)).cohesion = _
    rw [heap_linkSons_father ha, heap_linkSons_left, heap_linkSons_right]
    exact ⟨⟨⟨rfl, rfl⟩, rfl⟩, rfl, rfl, rfl, rfl⟩
  · rw [heap_linkSons_father ha, heap_linkSons_left, heap_linkSons_right]
    exact ⟨⟨⟨rfl, rfl⟩, rfl⟩, rfl, rfl, rfl, rfl⟩

/-- A son is worth what was added up on its side. -/
theorem IsSon.totalWeight_eq {G son : CHypergraph} {label : ℤ} {toSon : OrdMap ℕ ℕ}
    (hson : IsSon G label toSon son) :
    totalWeight son = ((sideEdges G label G.edges).map Prod.fst).sum := by
  rw [totalWeight, hson.edges_eq, List.map_map]
  rfl

/-- What a cut weighs depends on the labels of the pins only. -/
theorem CHypergraph.SameGraph.cutWeight_eq {h h' : CHypergraph} (hsame : h.SameGraph h')
    (hpart : ∀ e < h.nhedges, ∀ v ∈ h.pins e, h'.part v = h.part v) :
    cutWeight h' = cutWeight h := by
  rw [cutWeight, cutWeight, hsame.edges_eq]
  congr 2
  refine List.filter_congr fun e he ↦ ?_
  obtain ⟨i, hi, rfl⟩ := CHypergraph.mem_edges_iff.1 he
  have hany : ∀ label : ℤ, (h.pins i).any (h'.part · = label) =
      (h.pins i).any (h.part · = label) := fun label ↦ by
    rw [Bool.eq_iff_iff, List.any_eq_true, List.any_eq_true]
    exact exists_congr fun v ↦ and_congr_right fun hv ↦ by rw [hpart i hi v hv]
  rw [isCut, isCut, hany, hany]

/-- The ratios of the sons of `a` are those of the cut through `a`. -/
structure Heap.Ratios (heap : Heap) (a b c : ℕ) : Prop where
  coupling_left : (heap b).coupling = cutWeight (heap a) / totalWeight (heap a)
  coupling_right : (heap c).coupling = cutWeight (heap a) / totalWeight (heap a)
  cohesion_left : (heap b).cohesion =
    totalWeight (heap b) / (totalWeight (heap b) + cutWeight (heap a))
  cohesion_right : (heap c).cohesion =
    totalWeight (heap c) / (totalWeight (heap c) + cutWeight (heap a))

theorem sideCohesion_eq (w cut : ℤ) : sideCohesion w cut = w / (w + cut) := by
  rw [sideCohesion]
  split_ifs with hw
  · simp [hw]
  · rfl

/-- **A split** sets the ratios of the two new leaves. -/
theorem ratios_splitNode {t : BisectState M} {a : ℕ} {q : CHypergraph} (ha : a < t.size)
    (hw : q.WellFormed) (hbin : ∀ v < q.nvtxs, q.part v = 0 ∨ q.part v = 1) (h1 : q.mapForG1 = ∅)
    (h2 : q.mapForG2 = ∅) : (splitNode t a q).heap.Ratios a t.size (t.size + 1) := by
  have hsplit := isSplit_splitNode hw hbin h1 h2 ha
  obtain ⟨sub1, sub2, hs1, hs2, ⟨-, hpart⟩, hcl, hcr, hl, hr⟩ := splitNode_heap (q := q) ha
  have hholds := holds_splitEdges hw hbin h1 h2 hs1 hs2
  have hedges := hsplit.sameGraph.edges_eq
  have hsons := hsplit.hasSons
  have hside : ∀ label, sideEdges ((splitNode t a q).heap a) label = sideEdges q label :=
    fun label ↦ by funext es; simp only [sideEdges, labelled, hpart]
  have hwl : (splitEdges q sub1 sub2).g1.wight = totalWeight ((splitNode t a q).heap t.size) := by
    rw [hsons.left.totalWeight_eq, hside, hedges]
    exact hholds.g1.wight_eq
  have hwr : (splitEdges q sub1 sub2).g2.wight =
      totalWeight ((splitNode t a q).heap (t.size + 1)) := by
    rw [hsons.right.totalWeight_eq, hside, hedges]
    exact hholds.g2.wight_eq
  have hcut : (splitEdges q sub1 sub2).wightG1_G2 = cutWeight ((splitNode t a q).heap a) := by
    rw [hsplit.sameGraph.cutWeight_eq fun _ _ _ _ ↦ by rw [hpart]]
    exact hholds.wightG1_G2_eq
  have htotal := totalWeight_eq (hsplit.sameGraph.wellFormed hw) hsons.binary hsons.left hsons.right
  have hcoupling : sideCoupling (splitEdges q sub1 sub2) =
      cutWeight ((splitNode t a q).heap a) / totalWeight ((splitNode t a q).heap a) := by
    rw [sideCoupling, hwl, hwr, hcut, ← htotal]
    split_ifs with hzero
    · rw [hzero, Int.cast_zero, div_zero]
    · rw [htotal]
      push_cast
      rfl
  refine ⟨hcl.trans hcoupling, hcr.trans hcoupling, ?_, ?_⟩
  · rw [hl, hwl, hcut, sideCohesion_eq]
  · rw [hr, hwr, hcut, sideCohesion_eq]

/-- What the loop keeps about the weights of the tree and the ratios of its nodes. -/
structure BisectState.Accounted (s : BisectState M) (pHyper : CHypergraph) : Prop where
  good : s.Good
  root : pHyper.SameGraph (s.heap 0)
  sum_eq : ∑ a ∈ Finset.range s.size, nodeWeight (s.heap a) = totalWeight pHyper
  ratios : ∀ a < s.size, ∀ b c, (s.heap a).leftSon = some b → (s.heap a).rightSon = some c →
    s.heap.Ratios a b c

theorem CHypergraph.SameGraph.totalWeight_eq {h h' : CHypergraph} (hsame : h.SameGraph h') :
    totalWeight h' = totalWeight h := by
  rw [totalWeight, totalWeight, hsame.edges_eq]

theorem nodeWeight_leaf {h : CHypergraph} (hl : h.IsLeaf) : nodeWeight h = totalWeight h :=
  if_pos hl.leftSon_eq

/-- Ratios stay when the node that was cut stays, and its sons stay the same graphs with the same
ratios. -/
theorem Heap.Ratios.congr {heap heap' : Heap} {a b c : ℕ} (h : heap.Ratios a b c)
    (ha : heap' a = heap a) (hb : (heap b).SameGraph (heap' b))
    (hb' : (heap b).SameRatios (heap' b)) (hc : (heap c).SameGraph (heap' c))
    (hc' : (heap c).SameRatios (heap' c)) : heap'.Ratios a b c := by
  refine ⟨?_, ?_, ?_, ?_⟩
  · rw [hb'.coupling_eq, ha, h.coupling_left]
  · rw [hc'.coupling_eq, ha, h.coupling_right]
  · rw [hb'.cohesion_eq, ha, h.cohesion_left, hb.totalWeight_eq]
  · rw [hc'.cohesion_eq, ha, h.cohesion_right, hc.totalWeight_eq]

/-- **Every round keeps the weights accounted for.** -/
theorem BisectState.Accounted.bisectStep {pHyper : CHypergraph} (hmy : LabelsSides myPartition)
    (hs : s.Accounted pHyper) (h : CArchitecture.bisectStep myPartition s = Sum.inl s') :
    s'.Accounted pHyper := by
  obtain ⟨hgood', hroot', -⟩ := hs.good.bisectStep hmy h
  obtain ⟨a, ha, hleaf, hcase⟩ := hs.good.step_cases hmy h
  -- all nodes stay the same graphs with the same ratios, and all but `a` stay as they are
  have hkeep : (∀ x < s.size, x ≠ a → s'.heap x = s.heap x) →
      (s.heap a).SameGraph (s'.heap a) → (s.heap a).SameRatios (s'.heap a) →
      ∀ x < s.size, x ≠ a → ∀ b c, (s'.heap x).leftSon = some b →
        (s'.heap x).rightSon = some c → s'.heap.Ratios x b c := by
    intro heq hsame hratios x hx hxa b c hb hc
    have hall : ∀ y < s.size, (s.heap y).SameGraph (s'.heap y) ∧
        (s.heap y).SameRatios (s'.heap y) := fun y hy ↦ by
      rcases eq_or_ne y a with rfl | hya
      · exact ⟨hsame, hratios⟩
      · rw [heq y hy hya]
        exact ⟨.refl _, rfl, rfl⟩
    rw [heq x hx hxa] at hb hc
    rcases hs.good.tree.node x hx with hl | ⟨b', c', hb', hc', hsons⟩
    · exact absurd (hl.leftSon_eq.symm.trans hb) (by simp)
    · obtain rfl := Option.some.inj (hsons.leftSon_eq.symm.trans hb)
      obtain rfl := Option.some.inj (hsons.rightSon_eq.symm.trans hc)
      exact (hs.ratios x hx _ _ hb hc).congr (heq x hx hxa) (hall _ hb').1 (hall _ hb').2
        (hall _ hc').1 (hall _ hc').2
  have hsplitSum : ∑ x ∈ Finset.range s.size, nodeWeight (s.heap x) =
      totalWeight (s.heap a) +
        ∑ x ∈ (Finset.range s.size).erase a, nodeWeight (s.heap x) := by
    rw [← Finset.add_sum_erase _ _ (Finset.mem_range.2 ha), nodeWeight_leaf hleaf]
  rcases hcase with ⟨p, hp, hratios, hl, hheap, hsize⟩ |
    ⟨t, q, htheap, htsize, hq, hratios, hbin, h1, h2, rfl⟩
  · have heq : ∀ x < s.size, x ≠ a → s'.heap x = s.heap x := fun x _ hxa ↦ by
      rw [hheap, Function.update_of_ne hxa]
    have hself : s'.heap a = p := by rw [hheap, Function.update_self]
    refine ⟨hgood', hs.root.trans hroot', ?_, fun x hx b c hb hc ↦ ?_⟩
    · rw [← hs.sum_eq, hsize, hsplitSum, ← Finset.add_sum_erase _ _ (Finset.mem_range.2 ha),
        hself, nodeWeight_leaf hl, hp.totalWeight_eq]
      congr 1
      refine Finset.sum_congr rfl fun x hx ↦ ?_
      rw [heq x (Finset.mem_range.1 (Finset.mem_of_mem_erase hx)) (Finset.ne_of_mem_erase hx)]
    · have hxa : x ≠ a := fun hxa ↦ by
        rw [hxa, hself, hl.leftSon_eq] at hb
        exact absurd hb (by simp)
      exact hkeep heq (hself ▸ hp) (hself ▸ hratios) x (hsize ▸ hx) hxa b c hb hc
  · have hw := hq.wellFormed (hs.good.tree.wellFormed a ha)
    have hat : a < t.size := htsize ▸ ha
    have hsplit := isSplit_splitNode hw hbin h1 h2 hat
    obtain ⟨-, -, -, -, ⟨hratios', -⟩, -⟩ := splitNode_heap (q := q) hat
    have heq : ∀ x < s.size, x ≠ a → (splitNode t a q).heap x = s.heap x := fun x hx hxa ↦ by
      rw [hsplit.heap_eq x (htsize ▸ hx) hxa, htheap]
    have hsons := hsplit.hasSons
    have hsize := hsplit.size_eq
    have hleft := hsplit.left
    have hright := hsplit.right
    have hnew := ratios_splitNode hat hw hbin h1 h2
    rw [htsize] at hsons hsize hleft hright hnew
    have hfather : nodeWeight ((splitNode t a q).heap a) = cutWeight ((splitNode t a q).heap a) :=
      if_neg (by rw [hsons.leftSon_eq]; simp)
    have htotal := totalWeight_eq (hsplit.sameGraph.wellFormed hw) hsons.binary hsons.left
      hsons.right
    refine ⟨hgood', hs.root.trans hroot', ?_, fun x hx b c hb hc ↦ ?_⟩
    · have hrest : ∑ x ∈ (Finset.range s.size).erase a, nodeWeight ((splitNode t a q).heap x) =
          ∑ x ∈ (Finset.range s.size).erase a, nodeWeight (s.heap x) :=
        Finset.sum_congr rfl fun x hx ↦ by
          rw [heq x (Finset.mem_range.1 (Finset.mem_of_mem_erase hx)) (Finset.ne_of_mem_erase hx)]
      rw [← hs.sum_eq, hsplitSum, hsize, Finset.sum_range_succ, Finset.sum_range_succ,
        ← Finset.add_sum_erase _ _ (Finset.mem_range.2 ha), hrest, hfather, nodeWeight_leaf hleft,
        nodeWeight_leaf hright, ← (hq.trans hsplit.sameGraph).totalWeight_eq, htotal]
      ring
    · rw [hsize] at hx
      rcases eq_or_ne x a with rfl | hxa
      · obtain rfl := Option.some.inj (hsons.leftSon_eq.symm.trans hb)
        obtain rfl := Option.some.inj (hsons.rightSon_eq.symm.trans hc)
        exact hnew
      · by_cases hxs : x < s.size
        · exact hkeep heq (hq.trans hsplit.sameGraph)
            ⟨hratios'.coupling_eq.trans hratios.coupling_eq,
              hratios'.cohesion_eq.trans hratios.cohesion_eq⟩ x hxs hxa b c hb hc
        · -- the two new nodes are leaves
          obtain rfl | rfl : x = s.size ∨ x = s.size + 1 := by omega
          · exact absurd (hleft.leftSon_eq.symm.trans hb) (by simp)
          · exact absurd (hright.leftSon_eq.symm.trans hb) (by simp)

end Loop

/-! ### Every hyperedge has weight one -/

/-- The hyperedges of the root all of whose pins are in the node `a`. -/
def wholeEdges (heap : Heap) (a : ℕ) : Finset ℕ :=
  (Finset.range (heap 0).nhedges).filter fun e ↦ ∀ v ∈ (heap 0).pins e, inNode heap a v = true

/-- The hyperedges that the cut through `a` goes through: whole in `a`, but in neither son. -/
def cutEdges (heap : Heap) (a b c : ℕ) : Finset ℕ :=
  wholeEdges heap a \ (wholeEdges heap b ∪ wholeEdges heap c)

/-- The hyperedges that have pins with different labels. -/
def spanning (p : CHypergraph) (part : ℕ → ℤ) : Finset ℕ :=
  (Finset.range p.nhedges).filter fun e ↦ ∃ u ∈ p.pins e, ∃ v ∈ p.pins e, part u ≠ part v

theorem weight_filter_edges {p : CHypergraph} (hone : ∀ e < p.nhedges, p.hewgts e = 1)
    (P : List ℕ → Prop) [DecidablePred P] : weight (p.edges.filter fun e ↦ decide (P e.2)) =
      (((Finset.range p.nhedges).filter fun e ↦ P (p.pins e)).card : ℤ) := by
  have hmap : (p.edges.filter fun e ↦ decide (P e.2)) =
      ((List.range p.nhedges).filter fun e ↦ decide (P (p.pins e))).map
        fun e ↦ (p.hewgts e, p.pins e) := List.filter_map
  have hcard : ((Finset.range p.nhedges).filter fun e ↦ P (p.pins e)).card =
      ((List.range p.nhedges).filter fun e ↦ decide (P (p.pins e))).length := rfl
  rw [hmap, weight, List.map_map, hcard]
  refine (List.sum_eq_card_nsmul _ 1 fun w hw ↦ ?_).trans (by simp)
  obtain ⟨e, he, rfl⟩ := List.mem_map.1 hw
  exact hone e (List.mem_range.1 (List.mem_of_mem_filter he))

section Unit

variable {heap : Heap} {size : ℕ}

/-- **The weight of a node**: the hyperedges that are whole in it. -/
theorem Heap.Good.totalWeight_eq_card (hg : heap.Good size)
    (hone : ∀ e < (heap 0).nhedges, (heap 0).hewgts e = 1) {a : ℕ} (ha : a < size) :
    totalWeight (heap a) = (wholeEdges heap a).card := by
  have hfilter : (heap 0).edges.filter (·.2.all (inNode heap a)) =
      (heap 0).edges.filter fun e ↦ decide (∀ v ∈ e.2, inNode heap a v = true) :=
    List.filter_congr fun e _ ↦ by rw [Bool.eq_iff_iff, List.all_eq_true, decide_eq_true_iff]
  rw [hg.totalWeight_node ha, hfilter,
    weight_filter_edges hone fun pins ↦ ∀ v ∈ pins, inNode heap a v = true]
  rfl

/-- The sons hold nothing that their father does not, and nothing in common. -/
theorem Heap.Good.card_wholeEdges (hg : heap.Good size) {a b c : ℕ} (hb : b < size) (hc : c < size)
    (hsons : heap.HasSons a b c) : (wholeEdges heap a).card =
      (wholeEdges heap b).card + (wholeEdges heap c).card + (cutEdges heap a b c).card := by
  have hup : ∀ d, d < size → a < d → (heap d).fatherGraph = some a → ∀ label toSon,
      IsSon (heap a) label toSon (heap d) → wholeEdges heap d ⊆ wholeEdges heap a := by
    intro d hd had hfather label toSon hson e he
    obtain ⟨hlt, hwhole⟩ := Finset.mem_filter.1 he
    exact Finset.mem_filter.2
      ⟨hlt, fun v hv ↦ hg.inNode_father hd had hfather hson (hwhole v hv)⟩
  have hdisj : Disjoint (wholeEdges heap b) (wholeEdges heap c) :=
    Finset.disjoint_left.2 fun e heb hec ↦ by
      obtain ⟨hlt, hwhole⟩ := Finset.mem_filter.1 heb
      obtain ⟨v, hv⟩ := List.exists_mem_of_ne_nil _
        ((hg.wellFormed 0 hg.pos).pins_ne_nil (Finset.mem_range.1 hlt))
      have hvb := hwhole v hv
      have hvc := (Finset.mem_filter.1 hec).2 v hv
      -- the vertex has a name in the father, and there one label only
      obtain ⟨k, hk, rfl⟩ := inNode_iff.1
        (hg.inNode_father hb hsons.left_lt hsons.father_left hsons.left hvb)
      rw [hg.inNode_rootName hb hsons.left_lt hsons.father_left hsons.left hk,
        decide_eq_true_iff] at hvb
      rw [hg.inNode_rootName hc hsons.right_lt hsons.father_right hsons.right hk,
        decide_eq_true_iff, hvb] at hvc
      exact absurd hvc (by decide)
  have hsub : wholeEdges heap b ∪ wholeEdges heap c ⊆ wholeEdges heap a :=
    Finset.union_subset (hup b hb hsons.left_lt hsons.father_left _ _ hsons.left)
      (hup c hc hsons.right_lt hsons.father_right _ _ hsons.right)
  rw [cutEdges, ← Finset.card_union_of_disjoint hdisj, add_comm,
    Finset.card_sdiff_add_card_eq_card hsub]

/-- **The weight of a cut**: the hyperedges that it goes through. -/
theorem Heap.Good.cutWeight_eq_card (hg : heap.Good size)
    (hone : ∀ e < (heap 0).nhedges, (heap 0).hewgts e = 1) {a b c : ℕ} (ha : a < size)
    (hb : b < size) (hc : c < size) (hsons : heap.HasSons a b c) :
    cutWeight (heap a) = (cutEdges heap a b c).card := by
  have htotal := totalWeight_eq (hg.wellFormed a ha) hsons.binary hsons.left hsons.right
  have hcard := hg.card_wholeEdges hb hc hsons
  rw [hg.totalWeight_eq_card hone ha, hg.totalWeight_eq_card hone hb,
    hg.totalWeight_eq_card hone hc] at htotal
  omega

/-- The leaves are worth what the numbering keeps together. -/
theorem Heap.Good.sum_leaves (hg : heap.Good size)
    (hone : ∀ e < (heap 0).nhedges, (heap 0).hewgts e = 1) {partnum : ℕ} {part : ℕ → ℤ}
    (hnumbers : NumbersLeaves heap partnum part) :
    ∑ d ∈ leavesOf heap size, totalWeight (heap d) + (spanning (heap 0) part).card =
      totalWeight (heap 0) := by
  have hne : ∀ e ∈ (heap 0).edges, e.2 ≠ [] := fun e he ↦ by
    obtain ⟨i, hi, rfl⟩ := CHypergraph.mem_edges_iff.1 he
    exact (hg.wellFormed 0 hg.pos).pins_ne_nil hi
  have hlt : ∀ e ∈ (heap 0).edges, ∀ v ∈ e.2, v < (heap 0).nvtxs := fun e he v hv ↦ by
    obtain ⟨i, hi, rfl⟩ := CHypergraph.mem_edges_iff.1 he
    exact (hg.wellFormed 0 hg.pos).pins_lt i hi v hv
  have hdisj : ∀ v, ∀ d ∈ leavesOf heap size, ∀ d' ∈ leavesOf heap size,
      inNode heap d v = true → inNode heap d' v = true → d = d' := by
    intro v d hd d' hd' hin hin'
    obtain ⟨k, hk, rfl⟩ := inNode_iff.1 hin
    have hv := (hg.restrictsRoot (Finset.mem_range.1 (Finset.mem_filter.1 hd).1)).lt k hk
    obtain ⟨w, hw⟩ := (hg.inNode_leaf_iff hd hv).1 hin
    obtain ⟨x, hx⟩ := (hg.inNode_leaf_iff hd' hv).1 hin'
    exact (hg.descends_unique hg.pos hw hx).1
  have hleaf : ∑ d ∈ leavesOf heap size, totalWeight (heap d) =
      ∑ d ∈ leavesOf heap size, weight ((heap 0).edges.filter (·.2.all (inNode heap d))) :=
    Finset.sum_congr rfl fun d hd ↦
      hg.totalWeight_node (Finset.mem_range.1 (Finset.mem_filter.1 hd).1)
  have hspan : ((heap 0).edges.filter fun e ↦
        !decide (∃ d ∈ leavesOf heap size, e.2.all (inNode heap d) = true)) =
      (heap 0).edges.filter fun e ↦ decide (∃ u ∈ e.2, ∃ v ∈ e.2, part u ≠ part v) :=
    List.filter_congr fun e he ↦ by
      rw [← decide_not, decide_eq_decide, hg.whole_iff hnumbers (hne e he) (hlt e he)]
      push Not
      rfl
  have hcard := weight_filter_edges hone fun pins ↦ ∃ u ∈ pins, ∃ v ∈ pins, part u ≠ part v
  rw [hleaf, sum_weight_whole _ _ hdisj hne]
  show _ + ((spanning (heap 0) part).card : ℤ) = weight (heap 0).edges
  rw [← weight_filter_add (fun e ↦ decide (∃ d ∈ leavesOf heap size,
    e.2.all (inNode heap d) = true)) (heap 0).edges, hspan, hcard]
  rfl

end Unit

/-! ### The runs -/

section Run

variable {M : Type*} {myPartition : ℕ → CHypergraph → Outcome M} {r : CalledRelation}
  {fathermap : OrdMap Str Str} {pHyper : CHypergraph}

/-- The root is the only leaf at the beginning. -/
theorem IsHypergraphOf.accounted_bisectInit (hh : IsHypergraphOf r fathermap pHyper)
    (hr : r.Proper) (g : Option M) (memory : Heap) :
    (bisectInit g memory pHyper).Accounted pHyper := by
  have hgood := hh.good_bisectInit hr g memory
  have hroot : (bisectInit g memory pHyper).heap 0 = prepareRoot pHyper := by
    simp only [bisectInit, Function.update_self]
  have hleaf : (prepareRoot pHyper).leftSon = none := hh.leftSon_eq
  refine ⟨hgood, ⟨rfl, rfl, rfl, rfl, rfl, rfl, rfl, rfl⟩, ?_, fun a ha b c hb _ ↦ ?_⟩
  · show ∑ a ∈ Finset.range 1, nodeWeight ((bisectInit g memory pHyper).heap a) = _
    rw [Finset.sum_range_one, hroot, nodeWeight, if_pos hleaf]
    rfl
  · obtain rfl : a = 0 := Nat.lt_one_iff.1 ha
    rw [hroot, hleaf] at hb
    exact absurd hb (by simp)

/-- **What the loop keeps**, from the root on. -/
theorem IsHypergraphOf.accounted_of_reached (hh : IsHypergraphOf r fathermap pHyper)
    (hr : r.Proper) (hmy : LabelsSides myPartition) {g : Option M} {memory : Heap}
    {t : BisectState M}
    (ht : Loop.Reached (bisectStep myPartition) (bisectInit g memory pHyper) t) :
    t.Accounted pHyper :=
  ht.invariant (·.Accounted pHyper) (hh.accounted_bisectInit hr g memory)
    fun _ _ hacc hstep ↦ hacc.bisectStep hmy hstep

theorem IsHypergraphOf.hewgts_of_sameGraph (hh : IsHypergraphOf r fathermap pHyper)
    {p : CHypergraph} (hp : pHyper.SameGraph p) : ∀ e < p.nhedges, p.hewgts e = 1 := by
  intro e he
  rw [hp.hewgts_eq]
  exact hh.hewgts_eq e (hp.nhedges_eq ▸ he)

/-- **The weights of all cuts** made so far are the number of hyperedges with pins in different
leaves, as `dfsForWriteParts` would number them now. -/
theorem BisectState.Accounted.exists_sum_cuts {s : BisectState M} (hacc : s.Accounted pHyper)
    (hone : ∀ e < (s.heap 0).nhedges, (s.heap 0).hewgts e = 1) {climb n : ℕ}
    (hclimb : s.size ≤ climb) (hn : s.size ≤ n) : ∃ partnum part,
      dfsForWriteParts s.heap climb n (some 0) 0 (s.heap 0).part = some (partnum, part) ∧
      ∑ a ∈ cutsOf s.heap s.size, cutWeight (s.heap a) = (spanning pHyper part).card := by
  have hg := hacc.good.tree
  obtain ⟨leaves, part, hdfs, hwrites⟩ := hg.dfsForWriteParts_spec hclimb hg.pos (by omega) 0
    (s.heap 0).part
  refine ⟨leaves.length, part, hdfs, ?_⟩
  have hsum := hg.sum_leaves hone (hg.numbersLeaves hclimb hwrites)
  have hspan : spanning (s.heap 0) part = spanning pHyper part := by
    rw [spanning, spanning, hacc.root.nhedges_eq, hacc.root.pins_eq]
  have hall := hacc.sum_eq
  rw [← Finset.sum_filter_add_sum_filter_not _ fun a ↦ (s.heap a).leftSon = none] at hall
  have hleaf : ∑ a ∈ leavesOf s.heap s.size, nodeWeight (s.heap a) =
      ∑ a ∈ leavesOf s.heap s.size, totalWeight (s.heap a) :=
    Finset.sum_congr rfl fun a ha ↦ if_pos (Finset.mem_filter.1 ha).2
  have hcuts : ∑ a ∈ cutsOf s.heap s.size, nodeWeight (s.heap a) =
      ∑ a ∈ cutsOf s.heap s.size, cutWeight (s.heap a) :=
    Finset.sum_congr rfl fun a ha ↦ if_neg (Finset.mem_filter.1 ha).2
  change ∑ a ∈ leavesOf s.heap s.size, nodeWeight (s.heap a) +
    ∑ a ∈ cutsOf s.heap s.size, nodeWeight (s.heap a) = _ at hall
  rw [hleaf, hcuts, ← hacc.root.totalWeight_eq, ← hsum, hspan] at hall
  exact add_left_cancel hall

theorem labelsSides_cutFirst : LabelsSides cutFirst := fun k p _ v _ ↦ by
  rcases eq_or_ne v 0 with rfl | hv
  · exact Or.inl rfl
  · exact Or.inr (if_neg hv)

theorem proper_sampleRelation : sampleRelation.Proper := by
  unfold CalledRelation.Proper
  decide

/-- **Every node of the tree is the root, restricted to its vertices**, whenever it is looked at:
by the names that its vertices have in the root, its edges are those of the root that have a pin in
it, without the other pins, and only those that lost no pin kept their weight. -/
theorem bisect_restrictsRoot (r : CalledRelation) (hr : r.Proper) (fathermap : OrdMap Str Str)
    (strPara : Str) (raw : CHypergraph) (memory : Heap) (g : Option M)
    (myPartition : ℕ → CHypergraph → Outcome M) (hmy : LabelsSides myPartition) :
    ∃ pHyper, createHypergraph r fathermap strPara raw = some pHyper ∧
      ∀ t, Loop.Reached (bisectStep myPartition) (bisectInit g memory pHyper) t →
        pHyper.SameGraph (t.heap 0) ∧ ∀ a < t.size, RestrictsRoot t.heap a := by
  obtain ⟨pHyper, hsome, hh⟩ := exists_createHypergraph r fathermap strPara raw
  refine ⟨pHyper, hsome, fun t ht ↦ ?_⟩
  have hacc := hh.accounted_of_reached hr hmy ht
  exact ⟨hacc.root, fun a ha ↦ hacc.good.tree.restrictsRoot ha⟩

theorem bisect_restrictsRoot_sampleRelation :
    (sampleRelation.Proper ∧ LabelsSides cutFirst) ∧
    ∃ pHyper, createHypergraph sampleRelation ∅ [] default = some pHyper ∧
      ∀ t, Loop.Reached (bisectStep cutFirst) (bisectInit none default pHyper) t →
        pHyper.SameGraph (t.heap 0) ∧ ∀ a < t.size, RestrictsRoot t.heap a :=
  ⟨⟨proper_sampleRelation, labelsSides_cutFirst⟩, bisect_restrictsRoot sampleRelation
    proper_sampleRelation ∅ [] default default none cutFirst labelsSides_cutFirst⟩

/-- **The ratios of the sons**, in every state of the loop: the coupling is the share of the
hyperedges of the father that the cut goes through, and the cohesion of a son the share of its
hyperedges among those and the ones that are cut. -/
theorem bisect_ratios (r : CalledRelation) (hr : r.Proper) (fathermap : OrdMap Str Str)
    (strPara : Str) (raw : CHypergraph) (memory : Heap) (g : Option M)
    (myPartition : ℕ → CHypergraph → Outcome M) (hmy : LabelsSides myPartition) :
    ∃ pHyper, createHypergraph r fathermap strPara raw = some pHyper ∧
      ∀ t, Loop.Reached (bisectStep myPartition) (bisectInit g memory pHyper) t →
        ∀ a < t.size, ∀ b c, (t.heap a).leftSon = some b → (t.heap a).rightSon = some c →
          let cut : ℚ := (cutEdges t.heap a b c).card
          (wholeEdges t.heap a).card =
            (wholeEdges t.heap b).card + (wholeEdges t.heap c).card +
              (cutEdges t.heap a b c).card ∧
          (t.heap b).coupling = cut / (wholeEdges t.heap a).card ∧
          (t.heap c).coupling = cut / (wholeEdges t.heap a).card ∧
          (t.heap b).cohesion =
            (wholeEdges t.heap b).card / ((wholeEdges t.heap b).card + cut) ∧
          (t.heap c).cohesion =
            (wholeEdges t.heap c).card / ((wholeEdges t.heap c).card + cut) := by
  obtain ⟨pHyper, hsome, hh⟩ := exists_createHypergraph r fathermap strPara raw
  refine ⟨pHyper, hsome, fun t ht a ha b c hb hc ↦ ?_⟩
  have hacc := hh.accounted_of_reached hr hmy ht
  have hone := hh.hewgts_of_sameGraph hacc.root
  have hg := hacc.good.tree
  rcases hg.node a ha with hleaf | ⟨b', c', hb', hc', hsons⟩
  · exact absurd (hleaf.leftSon_eq.symm.trans hb) (by simp)
  · obtain rfl := Option.some.inj (hsons.leftSon_eq.symm.trans hb)
    obtain rfl := Option.some.inj (hsons.rightSon_eq.symm.trans hc)
    have hratios := hacc.ratios a ha _ _ hb hc
    have hcut := hg.cutWeight_eq_card hone ha hb' hc' hsons
    refine ⟨hg.card_wholeEdges hb' hc' hsons, ?_, ?_, ?_, ?_⟩
    · rw [hratios.coupling_left, hcut, hg.totalWeight_eq_card hone ha]
      rfl
    · rw [hratios.coupling_right, hcut, hg.totalWeight_eq_card hone ha]
      rfl
    · rw [hratios.cohesion_left, hcut, hg.totalWeight_eq_card hone hb']
      rfl
    · rw [hratios.cohesion_right, hcut, hg.totalWeight_eq_card hone hc']
      rfl

theorem bisect_ratios_sampleRelation :
    (sampleRelation.Proper ∧ LabelsSides cutFirst) ∧
    ∃ pHyper, createHypergraph sampleRelation ∅ [] default = some pHyper ∧
      ∀ t, Loop.Reached (bisectStep cutFirst) (bisectInit none default pHyper) t →
        ∀ a < t.size, ∀ b c, (t.heap a).leftSon = some b → (t.heap a).rightSon = some c →
          let cut : ℚ := (cutEdges t.heap a b c).card
          (wholeEdges t.heap a).card =
            (wholeEdges t.heap b).card + (wholeEdges t.heap c).card +
              (cutEdges t.heap a b c).card ∧
          (t.heap b).coupling = cut / (wholeEdges t.heap a).card ∧
          (t.heap c).coupling = cut / (wholeEdges t.heap a).card ∧
          (t.heap b).cohesion =
            (wholeEdges t.heap b).card / ((wholeEdges t.heap b).card + cut) ∧
          (t.heap c).cohesion =
            (wholeEdges t.heap c).card / ((wholeEdges t.heap c).card + cut) :=
  ⟨⟨proper_sampleRelation, labelsSides_cutFirst⟩, bisect_ratios sampleRelation
    proper_sampleRelation ∅ [] default default none cutFirst labelsSides_cutFirst⟩

/-- **What the cuts cost.** When the loop has ended, the weights of all cuts together are the number
of hyperedges with pins in different leaves: no hyperedge is counted at two cuts, and none that is
cut is missed. -/
theorem bisect_cutWeight (r : CalledRelation) (hr : r.Proper) (fathermap : OrdMap Str Str)
    (strPara : Str) (raw : CHypergraph) (memory : Heap) (g : Option M)
    (myPartition : ℕ → CHypergraph → Outcome M) (hmy : LabelsSides myPartition) :
    ∃ pHyper, createHypergraph r fathermap strPara raw = some pHyper ∧
      ∃ s fuel₀, (∀ fuel > fuel₀, bisect myPartition fuel (bisectInit g memory pHyper) = some s) ∧
        ∀ climb ≥ s.size, ∀ n ≥ s.size, ∃ partnum part,
          dfsForWriteParts s.heap climb n (some 0) 0 (s.heap 0).part = some (partnum, part) ∧
          ∑ a ∈ cutsOf s.heap s.size, cutWeight (s.heap a) = (spanning pHyper part).card := by
  obtain ⟨pHyper, hsome, hh⟩ := exists_createHypergraph r fathermap strPara raw
  have hinit := hh.accounted_bisectInit hr g memory
  obtain ⟨s, hrun, -, -⟩ := exists_bisect hmy hinit.good
  -- the state at the end is the last one that was reached
  have hacc : s.Accounted pHyper :=
    Loop.run_invariant (·.Accounted pHyper) (·.Accounted pHyper)
      (fun _ _ ht hstep ↦ ht.bisectStep hmy hstep)
      (fun _ _ ht hstep ↦ (eq_of_bisectStep_eq_inr hstep).1 ▸ ht) hinit
      (hrun _ (Nat.lt_succ_self _))
  exact ⟨pHyper, hsome, s, _, hrun, fun climb hclimb n hn ↦
    hacc.exists_sum_cuts (hh.hewgts_of_sameGraph hacc.root) hclimb hn⟩

theorem bisect_cutWeight_sampleRelation :
    (sampleRelation.Proper ∧ LabelsSides cutFirst) ∧
    ∃ pHyper, createHypergraph sampleRelation ∅ [] default = some pHyper ∧
      ∃ s fuel₀, (∀ fuel > fuel₀,
          bisect cutFirst fuel (bisectInit none default pHyper) = some s) ∧
        ∀ climb ≥ s.size, ∀ n ≥ s.size, ∃ partnum part,
          dfsForWriteParts s.heap climb n (some 0) 0 (s.heap 0).part = some (partnum, part) ∧
          ∑ a ∈ cutsOf s.heap s.size, cutWeight (s.heap a) = (spanning pHyper part).card :=
  ⟨⟨proper_sampleRelation, labelsSides_cutFirst⟩, bisect_cutWeight sampleRelation
    proper_sampleRelation ∅ [] default default none cutFirst labelsSides_cutFirst⟩

end Run

end CArchitecture
