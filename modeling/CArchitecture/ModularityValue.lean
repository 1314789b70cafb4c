import CArchitecture.PartSymmetry
import Mathlib.Algebra.BigOperators.Ring.Finset
import Mathlib.Data.Finset.Card

/-!
# The value of modularity

`ComputeModularity` makes one pass over the edges, in which it finds out whether an edge is cut,
adds up three sums and counts vertices. A vertex is counted when it is met for the first time,
whichever part it is counted for, so there is **one** table of visited vertices for both parts. This
does no harm: an edge is counted only if all its pins lie in one part, so a vertex is met for its
own part only, and the number for a part is the number of its visited vertices (`Counted`).

* `modularity` is the value as a formula in sums over edges and numbers of vertices.
* The formula does not depend on any order or numbering (`Renamed.modularity_eq`).
-/

namespace CArchitecture

/-! ### The formula -/

section Formula

variable (p : CHypergraph) (part : ℕ → ℤ)

/-- The edge lies wholly in part `s`. -/
def LiesIn (s : ℤ) (e : ℕ) : Prop := ∀ v ∈ p.pins e, part v = s

/-- The edge has pins in different parts. -/
def IsCut (e : ℕ) : Prop := ∃ u ∈ p.pins e, ∃ v ∈ p.pins e, part u ≠ part v

instance (s : ℤ) (e : ℕ) : Decidable (LiesIn p part s e) :=
  inferInstanceAs (Decidable (∀ v ∈ p.pins e, _))

instance (e : ℕ) : Decidable (IsCut p part e) :=
  inferInstanceAs (Decidable (∃ u ∈ p.pins e, _))

/-- What an inner edge contributes. -/
def innerWeight (e : ℕ) : ℚ := p.hewgts e * (1 - 1 / ((p.pins e).length : ℚ))

/-- The first `n` edges that lie in part `s`, summed up. -/
def innerValue (n : ℕ) (s : ℤ) : ℚ :=
  ∑ e ∈ (Finset.range n).filter (LiesIn p part s), innerWeight p e

/-- The vertices on these edges. -/
def innerVertices (n : ℕ) (s : ℤ) : Finset ℕ :=
  ((Finset.range n).filter (LiesIn p part s)).biUnion fun e ↦ (p.pins e).toFinset

/-- The weight of those of the first `n` edges that are cut. -/
def cutValue (n : ℕ) : ℚ := ∑ e ∈ (Finset.range n).filter (IsCut p part), (p.hewgts e : ℚ)

/-- The modularity of a partition. -/
def modularity : ℚ :=
  let E := innerValue p part p.nhedges
  let V := fun s ↦ (innerVertices p part p.nhedges s).card
  let c := cutValue p part p.nhedges
  if V 0 ≠ 0 ∧ V 1 ≠ 0 then 2 * (E 0 / V 0 + E 1 / V 1) - c / V 0 - c / V 1 else -1000

theorem innerValue_succ (n : ℕ) (s : ℤ) : innerValue p part (n + 1) s =
    innerValue p part n s + if LiesIn p part s n then innerWeight p n else 0 := by
  rw [innerValue, Finset.sum_filter, Finset.sum_range_succ, ← Finset.sum_filter, ← innerValue]

theorem cutValue_succ (n : ℕ) : cutValue p part (n + 1) =
    cutValue p part n + if IsCut p part n then (p.hewgts n : ℚ) else 0 := by
  rw [cutValue, Finset.sum_filter, Finset.sum_range_succ, ← Finset.sum_filter, ← cutValue]

/-- The vertices on the first `n` edges that are not cut. -/
def wholeVertices (n : ℕ) : Finset ℕ :=
  ((Finset.range n).filter fun e ↦ ¬ IsCut p part e).biUnion fun e ↦ (p.pins e).toFinset

theorem wholeVertices_succ (n : ℕ) : wholeVertices p part (n + 1) =
    if IsCut p part n then wholeVertices p part n
    else wholeVertices p part n ∪ (p.pins n).toFinset := by
  rw [wholeVertices, Finset.range_add_one, Finset.filter_insert]
  by_cases hcut : IsCut p part n
  · rw [if_neg (not_not.2 hcut), if_pos hcut]
    rfl
  · rw [if_pos hcut, if_neg hcut, Finset.biUnion_insert, Finset.union_comm]
    rfl

end Formula

section Edges

variable {p : CHypergraph} {part : ℕ → ℤ} {e : ℕ}

/-- An edge lies in one part if and only if it is not cut. -/
theorem liesIn_iff {u : ℕ} (hu : u ∈ p.pins e) (s : ℤ) :
    LiesIn p part s e ↔ ¬ IsCut p part e ∧ part u = s := by
  constructor
  · intro h
    refine ⟨?_, h u hu⟩
    rintro ⟨v, hv, w, hw, hvw⟩
    exact hvw ((h v hv).trans (h w hw).symm)
  · rintro ⟨hcut, rfl⟩ v hv
    by_contra hvu
    exact hcut ⟨v, hv, u, hu, hvu⟩

/-- The first pin that is met. -/
theorem headD_mem_pins (hne : p.pins e ≠ []) : (p.pins e).reverse.headD 0 ∈ p.pins e := by
  obtain ⟨a, l, hal⟩ := List.exists_cons_of_ne_nil (mt List.reverse_eq_nil_iff.1 hne)
  rw [← List.mem_reverse, hal]
  exact List.mem_cons_self

theorem edgeIsCut_iff : edgeIsCut part (p.pins e).reverse = true ↔ IsCut p part e := by
  simp only [edgeIsCut_eq_true_iff, List.mem_reverse, IsCut]

/-- The vertices counted for a part lie on the edges in this part. -/
theorem filter_wholeVertices (p : CHypergraph) (part : ℕ → ℤ) (s : ℤ) :
    (wholeVertices p part p.nhedges).filter (part · = s) = innerVertices p part p.nhedges s := by
  ext v
  simp only [wholeVertices, innerVertices, Finset.mem_filter, Finset.mem_biUnion,
    Finset.mem_range, List.mem_toFinset]
  constructor
  · rintro ⟨⟨e, ⟨he, hcut⟩, hv⟩, hpart⟩
    exact ⟨e, ⟨he, (liesIn_iff hv s).2 ⟨hcut, hpart⟩⟩, hv⟩
  · rintro ⟨e, ⟨he, hlies⟩, hv⟩
    obtain ⟨hcut, hpart⟩ := (liesIn_iff hv s).1 hlies
    exact ⟨⟨e, ⟨he, hcut⟩, hv⟩, hpart⟩

end Edges

/-! ### The pass -/

/-- The vertices `seen` have been visited, and each was counted for its own part. -/
structure Counted (part : ℕ → ℤ) (s : ModularityState) (seen : Finset ℕ) : Prop where
  isSome_iff : ∀ v, (s.mapForInnerNodeCount.find? v).isSome ↔ v ∈ seen
  count_eq : ∀ k, s.innerVertCount k = (seen.filter (part · = k)).card

section Pass

variable {g : CMygraph} {p : CHypergraph} {part : ℕ → ℤ} {s : ModularityState} {seen : Finset ℕ}

/-- **One vertex**, for its own part. -/
theorem Counted.countInner (h : Counted part s seen) {v : ℕ}
    (hunit : (g.pAllVertices v).vweight = 1) :
    Counted part (countInner g (part v) s v) (insert v seen) := by
  rw [CArchitecture.countInner]
  cases hfind : s.mapForInnerNodeCount.find? v with
  | some b =>
    rw [Finset.insert_eq_of_mem ((h.isSome_iff v).1 (by rw [hfind]; rfl))]
    exact h
  | none =>
    have hnew : v ∉ seen := by
      rw [← h.isSome_iff, hfind]
      exact Bool.false_ne_true
    refine ⟨fun u ↦ ?_, fun k ↦ ?_⟩
    · rw [Finset.mem_insert, ← h.isSome_iff u]
      rcases eq_or_ne u v with rfl | hne
      · simp [OrdMap.find?_insert]
      · simp [OrdMap.find?_insert_of_ne, hne]
    · show Function.update s.innerVertCount (part v) _ k = _
      rw [Finset.filter_insert]
      rcases eq_or_ne k (part v) with rfl | hne
      · rw [Function.update_self, if_pos rfl, Finset.card_insert_of_notMem
          fun hmem ↦ hnew (Finset.mem_of_mem_filter v hmem), h.count_eq, hunit]
        norm_cast
      · rw [Function.update_of_ne hne, if_neg hne.symm, h.count_eq]

/-- The pins of an edge that lies in one part. -/
theorem Counted.foldl_countInner {k : ℤ} (l : List ℕ) (h : Counted part s seen)
    (hpart : ∀ v ∈ l, part v = k) (hunit : ∀ v ∈ l, (g.pAllVertices v).vweight = 1) :
    Counted part (l.foldl (CArchitecture.countInner g k) s) (seen ∪ l.toFinset) := by
  induction l generalizing s seen with
  | nil => simpa using h
  | cons v l ih =>
    obtain ⟨hv, hl⟩ := List.forall_mem_cons.1 hpart
    obtain ⟨hv1, hl1⟩ := List.forall_mem_cons.1 hunit
    rw [List.toFinset_cons, Finset.union_insert, ← Finset.insert_union]
    exact ih (hv ▸ h.countInner hv1) hl hl1

/-- Counting leaves the sums. -/
theorem foldl_countInner_sums (g : CMygraph) (k : ℤ) (l : List ℕ) (s : ModularityState) :
    (l.foldl (countInner g k) s).innerEdgeValue = s.innerEdgeValue ∧
      (l.foldl (countInner g k) s).cutEdgeValue = s.cutEdgeValue := by
  induction l generalizing s with
  | nil => exact ⟨rfl, rfl⟩
  | cons v l ih =>
    have hone : (countInner g k s v).innerEdgeValue = s.innerEdgeValue ∧
        (countInner g k s v).cutEdgeValue = s.cutEdgeValue := by
      rw [countInner]
      cases s.mapForInnerNodeCount.find? v with
      | some b => exact ⟨rfl, rfl⟩
      | none => exact ⟨rfl, rfl⟩
    rw [List.foldl_cons]
    exact ⟨(ih _).1.trans hone.1, (ih _).2.trans hone.2⟩

/-- The first `n` edges have been summed up. -/
structure Summed (p : CHypergraph) (part : ℕ → ℤ) (n : ℕ) (s : ModularityState) : Prop where
  innerEdgeValue_eq : ∀ k, s.innerEdgeValue k = innerValue p part n k
  cutEdgeValue_eq : s.cutEdgeValue = cutValue p part n
  counted : Counted part s (wholeVertices p part n)

theorem summed_init (p : CHypergraph) (part : ℕ → ℤ) : Summed p part 0 {} where
  innerEdgeValue_eq _ := rfl
  cutEdgeValue_eq := rfl
  counted := ⟨fun _ ↦ by simp [wholeVertices], fun _ ↦ rfl⟩

/-- **One edge.** -/
theorem Summed.modularityEdge {n : ℕ} (h : Summed p part n s) (hg : g.Represents p)
    (hw : p.WellFormed) (hunit : ∀ v < p.nvtxs, p.vwgts v = 1) (hn : n < p.nhedges) :
    Summed p part (n + 1) (modularityEdge id g part s n) := by
  have hne := hw.pins_ne_nil hn
  have hhead := headD_mem_pins hne
  have hsize : (g.pAllEdges n).nodeNum = (p.pins n).length := by
    rw [hg.edge_nodeNum n hn, List.map_congr_left fun v hv ↦ hunit v (hw.pins_lt n hn v hv),
      List.map_const', List.sum_replicate, nsmul_one]
  have hvweight : ∀ v ∈ (p.pins n).reverse, (g.pAllVertices v).vweight = 1 := fun v hv ↦
    (hg.vweight_eq v).trans (hunit v (hw.pins_lt n hn v (List.mem_reverse.1 hv)))
  rw [CArchitecture.modularityEdge, hg.edge_arcs n hn, hg.hweight_eq]
  simp only [id_eq]
  by_cases hcut : IsCut p part n
  · rw [if_pos (edgeIsCut_iff.2 hcut)]
    refine ⟨fun k ↦ ?_, ?_, ?_⟩
    · rw [innerValue_succ, if_neg fun hk ↦ ((liesIn_iff hhead k).1 hk).1 hcut, add_zero]
      exact h.innerEdgeValue_eq k
    · rw [cutValue_succ, if_pos hcut, ← h.cutEdgeValue_eq]
    · rw [wholeVertices_succ, if_pos hcut]
      exact ⟨h.counted.isSome_iff, h.counted.count_eq⟩
  · rw [if_neg (mt edgeIsCut_iff.1 hcut)]
    set k := part ((p.pins n).reverse.headD 0) with hk
    have hlies : LiesIn p part k n := (liesIn_iff hhead k).2 ⟨hcut, rfl⟩
    refine ⟨fun k' ↦ ?_, ?_, ?_⟩
    · rw [(foldl_countInner_sums g k _ _).1, innerValue_succ, ← h.innerEdgeValue_eq]
      show Function.update s.innerEdgeValue k _ k' = _
      rcases eq_or_ne k' k with rfl | hk'
      · rw [Function.update_self, if_pos hlies, innerWeight, hsize, Int.cast_natCast]
      · rw [Function.update_of_ne hk', if_neg, add_zero]
        exact fun hlies' ↦ hk' ((hlies' _ hhead).symm.trans hk.symm)
    · rw [(foldl_countInner_sums g k _ _).2, cutValue_succ, if_neg hcut, add_zero]
      exact h.cutEdgeValue_eq
    · rw [wholeVertices_succ, if_neg hcut, ← List.toFinset_reverse]
      exact Counted.foldl_countInner _ ⟨h.counted.isSome_iff, h.counted.count_eq⟩
        (fun v hv ↦ hlies v (List.mem_reverse.1 hv)) hvweight

/-- **The value is that of the formula.** -/
theorem computeModularity_eq_modularity (hg : g.Represents p) (hw : p.WellFormed)
    (hunit : ∀ v < p.nvtxs, p.vwgts v = 1) (part : ℕ → ℤ) :
    computeModularity g part = modularity p part := by
  have hpass : ∀ n ≤ p.nhedges,
      Summed p part n ((List.range n).foldl (CArchitecture.modularityEdge id g part) {}) := by
    intro n
    induction n with
    | zero => exact fun _ ↦ summed_init p part
    | succ n ih =>
      intro hn
      rw [List.range_succ, List.foldl_append]
      exact (ih (Nat.le_of_succ_le hn)).modularityEdge hg hw hunit hn
  have h := hpass p.nhedges le_rfl
  have hcount := h.counted.count_eq
  simp only [filter_wholeVertices] at hcount
  rw [computeModularity, hg.nhedges_eq]
  simp only [hcount, h.innerEdgeValue_eq, h.cutEdgeValue_eq, Nat.cast_ne_zero, Int.cast_natCast]
  rfl

end Pass

/-! ### Order and numbering -/

/-- Two labelled hypergraphs that differ in the order of the edges, in the order of the pins on an
edge and in the numbers of the vertices only. -/
structure Renamed (σ τ : ℕ → ℕ) (p : CHypergraph) (part : ℕ → ℤ) (p' : CHypergraph)
    (part' : ℕ → ℤ) : Prop where
  vertices : Set.BijOn σ {v | v < p.nvtxs} {v | v < p'.nvtxs}
  edges : Set.BijOn τ {e | e < p.nhedges} {e | e < p'.nhedges}
  hewgts_eq : ∀ e < p.nhedges, p'.hewgts (τ e) = p.hewgts e
  pins_perm : ∀ e < p.nhedges, (p'.pins (τ e)).Perm ((p.pins e).map σ)
  part_eq : ∀ v < p.nvtxs, part' (σ v) = part v

namespace Renamed

variable {σ τ : ℕ → ℕ} {p p' : CHypergraph} {part part' : ℕ → ℤ}

theorem mem_pins (h : Renamed σ τ p part p' part') {e : ℕ} (he : e < p.nhedges) {v' : ℕ} :
    v' ∈ p'.pins (τ e) ↔ ∃ v ∈ p.pins e, σ v = v' := by
  rw [(h.pins_perm e he).mem_iff, List.mem_map]

theorem liesIn_iff (h : Renamed σ τ p part p' part') (hw : p.WellFormed) {e : ℕ}
    (he : e < p.nhedges) (s : ℤ) : LiesIn p' part' s (τ e) ↔ LiesIn p part s e := by
  have hpart : ∀ v ∈ p.pins e, part' (σ v) = part v := fun v hv ↦ h.part_eq v (hw.pins_lt e he v hv)
  constructor
  · intro hlies v hv
    rw [← hpart v hv]
    exact hlies (σ v) ((h.mem_pins he).2 ⟨v, hv, rfl⟩)
  · intro hlies v' hv'
    obtain ⟨v, hv, rfl⟩ := (h.mem_pins he).1 hv'
    exact (hpart v hv).trans (hlies v hv)

theorem isCut_iff (h : Renamed σ τ p part p' part') (hw : p.WellFormed) {e : ℕ}
    (he : e < p.nhedges) : IsCut p' part' (τ e) ↔ IsCut p part e := by
  have hpart : ∀ v ∈ p.pins e, part' (σ v) = part v := fun v hv ↦ h.part_eq v (hw.pins_lt e he v hv)
  constructor
  · rintro ⟨u', hu', v', hv', hne⟩
    obtain ⟨u, hu, rfl⟩ := (h.mem_pins he).1 hu'
    obtain ⟨v, hv, rfl⟩ := (h.mem_pins he).1 hv'
    exact ⟨u, hu, v, hv, by rwa [hpart u hu, hpart v hv] at hne⟩
  · rintro ⟨u, hu, v, hv, hne⟩
    refine ⟨σ u, (h.mem_pins he).2 ⟨u, hu, rfl⟩, σ v, (h.mem_pins he).2 ⟨v, hv, rfl⟩, ?_⟩
    rwa [hpart u hu, hpart v hv]

/-- A sum over the edges of a kind is the sum over the renamed edges of this kind. -/
theorem sum_edges_eq (h : Renamed σ τ p part p' part') {P P' : ℕ → Prop} [DecidablePred P]
    [DecidablePred P'] {f f' : ℕ → ℚ} (hP : ∀ e < p.nhedges, P' (τ e) ↔ P e)
    (hf : ∀ e < p.nhedges, f' (τ e) = f e) :
    ∑ e ∈ (Finset.range p'.nhedges).filter P', f' e =
      ∑ e ∈ (Finset.range p.nhedges).filter P, f e := by
  symm
  refine Finset.sum_nbij τ (fun e he ↦ ?_) (fun e he d hd hed ↦ ?_) (fun e' he' ↦ ?_)
    fun e he ↦ ?_
  · obtain ⟨hlt, hPe⟩ := Finset.mem_filter.1 he
    rw [Finset.mem_range] at hlt
    exact Finset.mem_filter.2 ⟨Finset.mem_range.2 (h.edges.mapsTo hlt), (hP e hlt).2 hPe⟩
  · rw [Finset.mem_coe, Finset.mem_filter, Finset.mem_range] at he hd
    exact h.edges.injOn he.1 hd.1 hed
  · rw [Finset.mem_coe, Finset.mem_filter, Finset.mem_range] at he'
    obtain ⟨e, he, rfl⟩ := h.edges.surjOn he'.1
    exact ⟨e, Finset.mem_filter.2 ⟨Finset.mem_range.2 he, (hP e he).1 he'.2⟩, rfl⟩
  · rw [Finset.mem_filter, Finset.mem_range] at he
    exact (hf e he.1).symm

theorem innerVertices_eq (h : Renamed σ τ p part p' part') (hw : p.WellFormed) (s : ℤ) :
    innerVertices p' part' p'.nhedges s = (innerVertices p part p.nhedges s).image σ := by
  ext v'
  simp only [innerVertices, Finset.mem_biUnion, Finset.mem_filter, Finset.mem_range,
    List.mem_toFinset, Finset.mem_image]
  constructor
  · rintro ⟨e', ⟨he', hlies⟩, hv'⟩
    obtain ⟨e, he, rfl⟩ := h.edges.surjOn he'
    obtain ⟨v, hv, rfl⟩ := (h.mem_pins he).1 hv'
    exact ⟨v, ⟨e, ⟨he, (h.liesIn_iff hw he s).1 hlies⟩, hv⟩, rfl⟩
  · rintro ⟨v, ⟨e, ⟨he, hlies⟩, hv⟩, rfl⟩
    exact ⟨τ e, ⟨h.edges.mapsTo he, (h.liesIn_iff hw he s).2 hlies⟩, (h.mem_pins he).2 ⟨v, hv, rfl⟩⟩

theorem card_innerVertices_eq (h : Renamed σ τ p part p' part') (hw : p.WellFormed) (s : ℤ) :
    (innerVertices p' part' p'.nhedges s).card = (innerVertices p part p.nhedges s).card := by
  rw [h.innerVertices_eq hw]
  refine Finset.card_image_of_injOn (h.vertices.injOn.mono fun v hv ↦ ?_)
  obtain ⟨e, he, hve⟩ := Finset.mem_biUnion.1 (Finset.mem_coe.1 hv)
  exact hw.pins_lt e (Finset.mem_range.1 (Finset.mem_filter.1 he).1) v (List.mem_toFinset.1 hve)

/-- **Modularity does not depend on order and numbering.** -/
theorem modularity_eq (h : Renamed σ τ p part p' part') (hw : p.WellFormed) :
    modularity p' part' = modularity p part := by
  have hweight : ∀ e < p.nhedges, innerWeight p' (τ e) = innerWeight p e := by
    intro e he
    rw [innerWeight, innerWeight, h.hewgts_eq e he, (h.pins_perm e he).length_eq, List.length_map]
  have hvalue : ∀ s, innerValue p' part' p'.nhedges s = innerValue p part p.nhedges s :=
    fun s ↦ h.sum_edges_eq (fun e he ↦ h.liesIn_iff hw he s) hweight
  have hcut : cutValue p' part' p'.nhedges = cutValue p part p.nhedges :=
    h.sum_edges_eq (fun e he ↦ h.isCut_iff hw he) fun e he ↦ by rw [h.hewgts_eq e he]
  simp only [modularity, hvalue, hcut, h.card_innerVertices_eq hw]

end Renamed

/-- **`ComputeModularity`** is the modularity of the partition, so it does not depend on which part
is which, on the order of the edges and of their pins, or on the numbers of the vertices. -/
theorem computeModularity_spec {p : CHypergraph} (hw : p.WellFormed)
    (hunit : ∀ v < p.nvtxs, p.vwgts v = 1) (part_res : ℕ → ℤ) :
    computeModularity (CMygraph.ofHypergraph p) part_res = modularity p part_res ∧
    computeModularity (CMygraph.ofHypergraph p) (complement part_res) =
      computeModularity (CMygraph.ofHypergraph p) part_res ∧
    ∀ σ τ p' part', p'.WellFormed → (∀ v < p'.nvtxs, p'.vwgts v = 1) →
      Renamed σ τ p part_res p' part' →
        computeModularity (CMygraph.ofHypergraph p') part' =
          computeModularity (CMygraph.ofHypergraph p) part_res := by
  have hvalue := computeModularity_eq_modularity (CMygraph.represents_ofHypergraph p) hw hunit
  refine ⟨hvalue part_res, computeModularity_complement _ _, fun σ τ p' part' hw' hunit' h ↦ ?_⟩
  rw [computeModularity_eq_modularity (CMygraph.represents_ofHypergraph p') hw' hunit',
    h.modularity_eq hw, hvalue]

/-- An inner edge in each part and a cut edge that shares a vertex with one of them. -/
def sampleModularity : CHypergraph := CHypergraph.ofRows 4 [[0, 1], [2, 3], [1, 2, 3]]

theorem computeModularity_spec_sampleModularity :
    (sampleModularity.WellFormed ∧ ∀ v < sampleModularity.nvtxs, sampleModularity.vwgts v = 1) ∧
    computeModularity (CMygraph.ofHypergraph sampleModularity) (fun v ↦ if v < 2 then 0 else 1) =
      modularity sampleModularity (fun v ↦ if v < 2 then 0 else 1) := by
  have hhyps : sampleModularity.WellFormed ∧
      ∀ v < sampleModularity.nvtxs, sampleModularity.vwgts v = 1 := by decide
  exact ⟨hhyps, (computeModularity_spec hhyps.1 hhyps.2 _).1⟩

end CArchitecture
