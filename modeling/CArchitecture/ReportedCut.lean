import CArchitecture.DoHmetis
import CArchitecture.EndParts
import CArchitecture.SeedLoop
import CArchitecture.WritePartition
import Mathlib.Algebra.Order.BigOperators.Group.Finset

/-!
# The cut that is reported

`doHmetis` gives every call of `myPartition` a pointer `hcut` to the field `cutnum`, which
`doWriting` reports as the number of hyperedges that are cut. But `myPartition` **never assigns
it**, so the field stays as the constructor has set it, at `0` (`run_hmetisStep`).

So a state of the loop reports its cut exactly if no split so far goes through an edge that has a
weight (`IsHypergraphOf.reportsCut_iff`): an edge that was cut before has none, and is not counted
again. Whether a split does is up to `myPartition`, and that to the memory that it finds; what a
call may come to is decided by its graph and its draws alone (`NothingToCut`).

* `doHmetis_hcut_iff`: all states of all runs report their cut **if and only if** no call in them
  can find anything to cut. In a run of which this is true the final report is right as well:
  parts are only merged afterwards.
-/

namespace CArchitecture

open FirstSeen

/-! ### The source -/

/-- A call of `myPartition`: the hypergraph as it is left, and what `hcut` points to. -/
def myPartitionHcut (i : CallInput) (p : CHypergraph) (hcut : ℤ) : Option (CHypergraph × ℤ) :=
  (myPartition (partitionFuel p) i.other i.rand i.mem p).map fun q ↦ (q, hcut)

/-- One round of the loop of `doHmetis`, with the field `cutnum` that `hcut` points to. -/
def hmetisStep (input : ℕ → CallInput) (s : BisectState CMygraph × ℤ) :
    (BisectState CMygraph × ℤ) ⊕ (BisectState CMygraph × ℤ) :=
  let cutnum :=
    match s.1.subGraph with
    | [] => s.2
    | a :: _ =>
      let p := s.1.heap a
      if p.nvtxs > END_NUM - 1 then
        ((myPartitionHcut (input s.1.calls) { p with modu := 0 } s.2).map Prod.snd).getD s.2
      else s.2
  (bisectStep (partitioner input) s.1).map (·, cutnum) (·, cutnum)

/-- What `doHmetis` leaves for `doWriting`. -/
structure HmetisResult where
  /-- `pHyper->part`. -/
  part : ℕ → ℤ
  mapForLastPart : OrdMap ℤ ℤ
  cutnum : ℤ

/-- `doHmetis`: bisect, then merge parts. Nothing is left if `mergeParts` reads `pMyGraph` before it
is set. -/
def doHmetis (fuel : ℕ) (input : ℕ → CallInput) (memory : Heap) (pHyper : CHypergraph)
    (cutnum : ℤ) : Option HmetisResult := do
  let (s, cutnum) ← Loop.run (hmetisStep input) fuel (bisectInit none memory pHyper, cutnum)
  let pMyGraph ← s.pMyGraph
  let (part, mapForLastPart) ← mergeParts fuel fuel s.heap pMyGraph ∅
  pure { part := part, mapForLastPart := mapForLastPart, cutnum := cutnum }

/-! ### The field -/

/-- A round leaves the field alone. -/
theorem hmetisStep_eq (input : ℕ → CallInput) (s : BisectState CMygraph) (cutnum : ℤ) :
    hmetisStep input (s, cutnum) =
      (bisectStep (partitioner input) s).map (·, cutnum) (·, cutnum) := by
  have hcall : ∀ i p, ((myPartitionHcut i p cutnum).map Prod.snd).getD cutnum = cutnum := by
    intro i p
    rw [myPartitionHcut]
    cases myPartition (partitionFuel p) i.other i.rand i.mem p <;> rfl
  rw [hmetisStep]
  cases hq : s.subGraph with
  | nil => rfl
  | cons a rest => simp only [hcall, ite_self]

/-- **The whole loop leaves the field alone.** -/
theorem run_hmetisStep (input : ℕ → CallInput) (fuel : ℕ) (s : BisectState CMygraph)
    (cutnum : ℤ) : Loop.run (hmetisStep input) fuel (s, cutnum) =
      (bisect (partitioner input) fuel s).map (·, cutnum) :=
  Loop.run_map (fun t ↦ hmetisStep_eq input t cutnum) fuel s

/-! ### The hyperedges that are cut -/

/-- The hyperedges with pins that have different numbers in `partition.txt`. -/
def spanningEdges (p : CHypergraph) (numbers : List ℕ) : List ℕ :=
  (List.range p.nhedges).filter fun e ↦
    ∃ u ∈ p.pins e, ∃ v ∈ p.pins e, numbers[u]? ≠ numbers[v]?

/-- There are none exactly if the groups cut nothing. -/
theorem spanningEdges_eq_nil_iff {p : CHypergraph} {part : ℕ → ℤ} {partnum : ℕ}
    (map : OrdMap ℤ ℤ) (hlt : ∀ e < p.nhedges, ∀ v ∈ p.pins e, v < p.nvtxs)
    (hpart : ∀ v < p.nvtxs, 0 ≤ part v ∧ part v < partnum) :
    spanningEdges p (numbering ((List.range p.nvtxs).map fun v ↦ repOf map (part v))) = [] ↔
      Coarsening.Uncut (touches p part) (Finset.range p.nhedges) (groups partnum map) := by
  have hnumbers : ∀ u < p.nvtxs, ∀ v < p.nvtxs,
      (numbering ((List.range p.nvtxs).map fun v ↦ repOf map (part v)))[u]? =
        (numbering ((List.range p.nvtxs).map fun v ↦ repOf map (part v)))[v]? ↔
      repOf map (part u) = repOf map (part v) := by
    intro u hu v hv
    rw [numbering_getElem?_eq_iff (by simpa using hu) (by simpa using hv)]
    simp
  have hcast : ∀ v < p.nvtxs, ∃ i : Fin partnum, part v = i := by
    intro v hv
    obtain ⟨h0, hn⟩ := hpart v hv
    exact ⟨⟨(part v).toNat, by omega⟩, (Int.toNat_of_nonneg h0).symm⟩
  rw [spanningEdges, List.filter_eq_nil_iff]
  constructor
  · rintro h e he i j ⟨u, hu, hui⟩ ⟨v, hv, hvj⟩
    have hlte := hlt e (Finset.mem_range.1 he)
    rw [groups_iff, ← hui, ← hvj, ← hnumbers u (hlte u hu) v (hlte v hv)]
    by_contra hne
    exact h e (List.mem_range.2 (Finset.mem_range.1 he)) (decide_eq_true ⟨u, hu, v, hv, hne⟩)
  · intro h e he hspan
    have he := List.mem_range.1 he
    obtain ⟨u, hu, v, hv, hne⟩ := of_decide_eq_true hspan
    obtain ⟨i, hi⟩ := hcast u (hlt e he u hu)
    obtain ⟨j, hj⟩ := hcast v (hlt e he v hv)
    refine hne ((hnumbers u (hlt e he u hu) v (hlt e he v hv)).2 ?_)
    rw [hi, hj]
    exact h e (Finset.mem_range.2 he) i j ⟨u, hu, hi⟩ ⟨v, hv, hj⟩

/-! ### The whole of `doHmetis` -/

/-- The graph of the root is still that of the root after the bisection. -/
theorem CHypergraph.SameGraph.represents {p p' : CHypergraph} (h : p.SameGraph p') {g : CMygraph}
    (hg : g.Represents p) : g.Represents p' where
  nvetes_eq := hg.nvetes_eq.trans h.nvtxs_eq.symm
  nhedges_eq := hg.nhedges_eq.trans h.nhedges_eq.symm
  edge_arcs := by rw [h.nhedges_eq, h.pins_eq]; exact hg.edge_arcs
  edge_nodeNum := by rw [h.nhedges_eq, h.pins_eq, h.vwgts_eq]; exact hg.edge_nodeNum
  hweight_eq := by rw [h.hewgts_eq]; exact hg.hweight_eq
  vweight_eq := by rw [h.vwgts_eq]; exact hg.vweight_eq
  vert_arcs := by rw [h.nhedges_eq, h.pins_eq]; exact hg.vert_arcs
  vert_nodeNum := by rw [h.hewgts_eq]; exact hg.vert_nodeNum
  maxHweight_eq := by rw [h.nhedges_eq, h.hewgts_eq]; exact hg.maxHweight_eq

theorem CHypergraph.SameGraph.touches_eq {p p' : CHypergraph} (h : p.SameGraph p')
    (part : ℕ → ℤ) (partnum : ℕ) :
    (touches p' part : ℕ → Fin partnum → Prop) = touches p part := by
  funext e i
  rw [touches, touches, h.pins_eq]

/-- With enough fuel `doWriting` writes the groups. -/
theorem Descending.doWriting_eq {partnum fuel nvtxs : ℕ} {map : OrdMap ℤ ℤ} {part : ℕ → ℤ}
    (hdesc : Descending partnum map) (hpart : ∀ v < nvtxs, 0 ≤ part v ∧ part v < partnum)
    (hle : partnum ≤ fuel) : doWriting map fuel nvtxs part =
      some (numbering ((List.range nvtxs).map fun v ↦ repOf map (part v))) := by
  refine CArchitecture.doWriting_eq fun v hv ↦ hdesc.lastPart_eq ?_
  have := hpart v hv
  omega

/-- **What `doHmetis` leaves** for a relation with three classes or more: the groups of the leaf
parts, and the field `cutnum` as it was. -/
theorem IsHypergraphOf.exists_doHmetis {r : CalledRelation} {fathermap : OrdMap Str Str}
    {pHyper : CHypergraph} (hh : IsHypergraphOf r fathermap pHyper) (hr : r.Proper)
    (memory : Heap) (input : ℕ → CallInput) (cutnum : ℤ) :
    ∃ s fuel₀,
      (∀ fuel > fuel₀, bisect (partitioner input) fuel (bisectInit none memory pHyper) = some s) ∧
      ∀ fuel > fuel₀, ∃ partnum part map,
        dfsForWriteParts s.heap fuel fuel (some 0) 0 (s.heap 0).part = some (partnum, part) ∧
        doHmetis fuel input memory pHyper cutnum =
          (if 3 ≤ pHyper.nvtxs then some ⟨part, map, cutnum⟩ else none) ∧
        (∀ v < pHyper.nvtxs, 0 ≤ part v ∧ part v < partnum) ∧ partnum ≤ fuel ∧
        Descending partnum map ∧
        IsLeast {g | Coarsening.Valid (touches pHyper part) (Finset.range pHyper.nhedges) g}
          (groups partnum map) := by
  have hinit := hh.good_bisectInit (M := CMygraph) hr none memory
  have hmy := labelsSides_partitioner input
  obtain ⟨s, hrun, hgood, hroot⟩ := exists_bisect hmy hinit
  have hprepared : pHyper.SameGraph
      ((bisectInit none memory pHyper : BisectState CMygraph).heap 0) :=
    ⟨rfl, rfl, rfl, rfl, rfl, rfl, rfl, rfl⟩
  have hsame := hprepared.trans hroot
  have hrep := hsame.represents (CMygraph.represents_ofHypergraph pHyper)
  refine ⟨s, max _ s.size, fun fuel hfuel ↦ hrun fuel (max_lt_iff.1 hfuel).1, fun fuel hfuel ↦ ?_⟩
  obtain ⟨hrounds, hsize⟩ := max_lt_iff.1 hfuel
  have hs := hrun fuel hrounds
  obtain ⟨partnum, part, map, hdfs, hmerge, hle, hnumbers, hdesc, hleast⟩ :=
    hgood.exists_mergeParts hrep hsize.le hsize
  have hrange := hnumbers.mem_range
  rw [hsame.nvtxs_eq] at hrange
  rw [hsame.nhedges_eq, hsame.touches_eq] at hleast
  refine ⟨partnum, part, map, hdfs, ?_, hrange, hle.trans hsize.le, hdesc, hleast⟩
  rw [doHmetis, run_hmetisStep, hs, Option.map_some, Option.bind_eq_bind, Option.bind_some]
  show s.pMyGraph.bind (fun pMyGraph ↦ (mergeParts fuel fuel s.heap pMyGraph ∅).bind
    fun x ↦ some (HmetisResult.mk x.1 x.2 cutnum)) = _
  rw [pMyGraph_of_bisectInit hmy hinit hs, partitioner_myGraph]
  split_ifs
  · show (mergeParts fuel fuel s.heap (CMygraph.ofHypergraph pHyper) ∅).bind _ = _
    rw [hmerge]
    rfl
  · rfl

/-! ### What a round cuts -/

section Round

variable {M : Type*} {myPartition : ℕ → CHypergraph → Outcome M} {s s' : BisectState M}

/-- The round at hand cuts its node through no edge that has a weight. -/
def CutsNothing (myPartition : ℕ → CHypergraph → Outcome M) (s : BisectState M) : Prop :=
  ∀ a ∈ s.subGraph.head?, END_NUM ≤ (s.heap a).nvtxs →
    (partitioned myPartition s.calls (s.heap a)).isParted = true →
      cutWeight (partitioned myPartition s.calls (s.heap a)) = 0

/-- Only the call at hand matters. -/
theorem CutsNothing.congr {mp mp' : ℕ → CHypergraph → Outcome M} (h : CutsNothing mp s)
    (hcall : mp' s.calls = mp s.calls) : CutsNothing mp' s := by
  have hsame : ∀ p, partitioned mp' s.calls p = partitioned mp s.calls p := fun p ↦ by
    rw [partitioned, partitioned, hcall]
  intro a ha hlarge
  rw [hsame]
  exact h a ha hlarge

/-- No cut so far goes through an edge that has a weight. -/
def BisectState.Uncut (s : BisectState M) : Prop :=
  ∀ a ∈ cutsOf s.heap s.size, cutWeight (s.heap a) = 0

theorem mem_cutsOf {heap : Heap} {size a : ℕ} :
    a ∈ cutsOf heap size ↔ a < size ∧ (heap a).leftSon ≠ none := by
  rw [cutsOf, Finset.mem_filter, Finset.mem_range]

/-- A round that changes a leaf only, and leaves it one, makes no cut. -/
theorem BisectState.Uncut.iff_of_leaf {a : ℕ} (hsize : s'.size = s.size)
    (hheap : ∀ x, x ≠ a → s'.heap x = s.heap x) (hleaf : (s.heap a).leftSon = none)
    (hleaf' : (s'.heap a).leftSon = none) : s'.Uncut ↔ s.Uncut := by
  refine forall_congr' fun x ↦ ?_
  rw [mem_cutsOf, mem_cutsOf, hsize]
  rcases eq_or_ne x a with rfl | hne
  · simp only [hleaf, hleaf', ne_eq, not_true_eq_false, and_false, false_imp_iff]
  · rw [hheap x hne]

/-- A round that cuts a leaf makes one more cut. -/
theorem BisectState.Uncut.iff_of_split {t : BisectState M} {a : ℕ} {p : CHypergraph}
    (hsplit : IsSplit t s' a p) (hheap : t.heap = s.heap) (hsize : t.size = s.size)
    (ha : a < s.size) (hleaf : (s.heap a).leftSon = none)
    (hcut : cutWeight (s'.heap a) = cutWeight p) : s'.Uncut ↔ s.Uncut ∧ cutWeight p = 0 := by
  have hsons := hsplit.hasSons
  have hsize' := hsplit.size_eq
  have hl := hsplit.left.leftSon_eq
  have hr := hsplit.right.leftSon_eq
  rw [hsize] at hsons hsize' hl hr
  have hkeep : ∀ x < s.size, x ≠ a → s'.heap x = s.heap x := fun x hx hxa ↦ by
    rw [hsplit.heap_eq x (hsize ▸ hx) hxa, hheap]
  constructor
  · refine fun h ↦ ⟨fun x hx ↦ ?_, ?_⟩
    · obtain ⟨hx, hne⟩ := mem_cutsOf.1 hx
      have hxa : x ≠ a := fun hxa ↦ hne (hxa ▸ hleaf)
      rw [← hkeep x hx hxa]
      exact h x (mem_cutsOf.2 ⟨by omega, by rwa [hkeep x hx hxa]⟩)
    · rw [← hcut]
      exact h a (mem_cutsOf.2 ⟨by omega, by rw [hsons.leftSon_eq]; simp⟩)
  · rintro ⟨h, hzero⟩ x hx
    obtain ⟨hx, hne⟩ := mem_cutsOf.1 hx
    rcases eq_or_ne x a with rfl | hxa
    · exact hcut.trans hzero
    · have hxs : x < s.size := by
        by_contra hge
        -- the two new nodes are leaves
        obtain rfl | rfl : x = s.size ∨ x = s.size + 1 := by omega
        · exact hne hl
        · exact hne hr
      rw [hkeep x hxs hxa] at hne ⊢
      exact h x (mem_cutsOf.2 ⟨hxs, hne⟩)

/-- **One round**: the cuts go through nothing exactly if they did before and the round does. -/
theorem BisectState.Good.uncut_bisectStep (hmy : LabelsSides myPartition) (hs : s.Good)
    (hstep : CArchitecture.bisectStep myPartition s = Sum.inl s') :
    s'.Uncut ↔ s.Uncut ∧ CutsNothing myPartition s := by
  obtain ⟨a, rest, hq, hround⟩ := bisectRound_of_step hstep
  obtain ⟨ha, hleaf⟩ := hs.queued a (by rw [hq]; exact List.mem_cons_self)
  have hfront : CutsNothing myPartition s ↔ (END_NUM ≤ (s.heap a).nvtxs →
      (partitioned myPartition s.calls (s.heap a)).isParted = true →
        cutWeight (partitioned myPartition s.calls (s.heap a)) = 0) := by
    simp [CutsNothing, hq]
  rw [hfront]
  cases hround with
  | small hsmall =>
    refine Iff.trans (BisectState.Uncut.iff_of_leaf rfl (fun _ _ ↦ rfl) hleaf.leftSon_eq
      hleaf.leftSon_eq) ?_
    exact (and_iff_left fun hlarge ↦ absurd hsmall (not_lt.2 hlarge)).symm
  | kept g hlarge hnot =>
    refine Iff.trans (BisectState.Uncut.iff_of_leaf (s := s) (a := a) rfl
      (fun x hxa ↦ Function.update_of_ne hxa _ _) hleaf.leftSon_eq ?_) ?_
    · show (Function.update s.heap a _ a).leftSon = none
      rw [Function.update_self]
      exact hleaf.leftSon_eq
    · exact (and_iff_left fun _ hparted ↦ absurd (hnot.symm.trans hparted)
        Bool.false_ne_true).symm
  | cut g hlarge hparted =>
    have hw := (sameGraph_partitioned myPartition s.calls (s.heap a)).wellFormed
      (hs.tree.wellFormed a ha)
    have hsplit := isSplit_splitNode
      (s := { s with subGraph := rest, calls := s.calls + 1, pMyGraph := g }) hw (hmy _ _ hparted)
      hleaf.mapForG1_eq hleaf.mapForG2_eq ha
    have hpart := (splitNode_fields
      (s := { s with subGraph := rest, calls := s.calls + 1, pMyGraph := g })
      (partitioned myPartition s.calls (s.heap a)) ha).2.1.1
    have hcut := hsplit.sameGraph.cutWeight_eq fun _ _ _ _ ↦ by rw [hpart]
    refine Iff.trans (BisectState.Uncut.iff_of_split (s := s) hsplit rfl rfl ha hleaf.leftSon_eq
      hcut) ?_
    exact and_congr_right' ⟨fun h _ _ ↦ h, fun h ↦ h hlarge hparted⟩

/-- **All rounds**: no state has a cut through anything if no round that is reached makes one. -/
theorem BisectState.Good.uncut_of_reached (hmy : LabelsSides myPartition) (hs : s.Good)
    (hinit : s.Uncut)
    (hnothing : ∀ t, Loop.Reached (CArchitecture.bisectStep myPartition) s t →
      CutsNothing myPartition t)
    (hreached : Loop.Reached (CArchitecture.bisectStep myPartition) s s') : s'.Uncut := by
  have hgood : ∀ t, Loop.Reached (CArchitecture.bisectStep myPartition) s t → t.Good := fun t ht ↦
    ht.invariant BisectState.Good hs fun _ _ ht hstep ↦ (ht.bisectStep hmy hstep).1
  induction hreached with
  | start => exact hinit
  | next ht hstep ih => exact ((hgood _ ht).uncut_bisectStep hmy hstep).2 ⟨ih, hnothing _ ht⟩

/-- A round asks `myPartition` once at most, and depends on nothing else that it may answer. -/
theorem bisectStep_of_agree (mp mp' : ℕ → CHypergraph → Outcome M) (s s' : BisectState M)
    (hstep : bisectStep mp s = Sum.inl s') :
    s.calls ≤ s'.calls ∧ ((∀ k < s'.calls, mp k = mp' k) → bisectStep mp' s = Sum.inl s') := by
  have hsame : mp s.calls = mp' s.calls → bisectStep mp' s = bisectStep mp s := by
    intro heq
    simp only [bisectStep, partitioned, heq]
  obtain ⟨a, rest, hq, hround⟩ := bisectRound_of_step hstep
  have hcall : ∀ {t : BisectState M}, t.calls = s.calls + 1 → s.calls ≤ t.calls ∧
      ((∀ k < t.calls, mp k = mp' k) → bisectStep mp' s = bisectStep mp s) := fun ht ↦
    ⟨by omega, fun hagree ↦ hsame (hagree _ (by omega))⟩
  rw [← hstep]
  cases hround with
  | small hsmall =>
    refine ⟨le_rfl, fun _ ↦ ?_⟩
    have hnot : ¬ (s.heap a).nvtxs > END_NUM - 1 := by
      rw [END_NUM] at hsmall ⊢
      omega
    simp only [bisectStep, hq, if_neg hnot]
  | kept => exact hcall rfl
  | cut =>
    refine hcall ?_
    rw [splitNode]
    simp only
    split_ifs <;> rfl

end Round

/-! ### What a call may cut -/

/-- The same calls with other memory for `seedmap` and `part_res`. -/
def withMemory (input : ℕ → CallInput) (mem : ℕ → FreshMemory) (k : ℕ) : CallInput :=
  { input k with mem := mem k }

/-- The call that the loop is about to make can find no split through an edge that has a weight:
of no seed that can be tried, and no labelling that has the half grown from it in part `0`, does
`myFM` make one with a modularity above the bound. -/
def NothingToCut (input : ℕ → CallInput) (s : BisectState CMygraph) : Prop :=
  ∀ a ∈ s.subGraph.head?, END_NUM ≤ (s.heap a).nvtxs →
    ∀ r, Found (partitionFuel (s.heap a)) (input s.calls).other (input s.calls).rand (s.heap a)
      (CMygraph.ofHypergraph (s.heap a)) (seedGraph (input s.calls).other (s.heap a)) r →
      cutWeight { s.heap a with part := r.2 } = 0

theorem partitioner_congr {input input' : ℕ → CallInput} {k : ℕ} (h : input k = input' k) :
    partitioner input k = partitioner input' k := by
  funext p
  rw [partitioner, partitioner, h]

theorem partitioned_of_myPartition (input : ℕ → CallInput) {k : ℕ} {p q : CHypergraph}
    (hq : myPartition (partitionFuel p) (input k).other (input k).rand (input k).mem
      { p with modu := 0 } = some q) :
    (partitioned (partitioner input) k p).isParted = q.isParted ∧
      (partitioned (partitioner input) k p).part = q.part := by
  have hcall : partitioner input k { p with modu := 0 } =
      ⟨q.isParted, q.modu, q.part, CMygraph.ofHypergraph p⟩ := by
    rw [partitioner]
    split
    next q' hq' =>
      obtain rfl := Option.some.inj (hq'.symm.trans hq)
      rfl
    next hnone => exact absurd (hq.symm.trans hnone) (Option.some_ne_none q)
  rw [partitioned]
  simp only [hcall, and_self]

/-- **A call cuts nothing, whatever the memory holds, exactly if it can find nothing to cut.** -/
theorem BisectState.Good.nothingToCut_iff {input : ℕ → CallInput} {s : BisectState CMygraph}
    (hs : s.Good) (hweights : (s.heap 0).WeightsNonneg) : NothingToCut input s ↔
      ∀ mem : ℕ → FreshMemory, CutsNothing (partitioner (withMemory input mem)) s := by
  have hnode : ∀ a ∈ s.subGraph.head?, (s.heap a).WellFormed ∧ (s.heap a).WeightsNonneg :=
    fun a ha ↦ by
      obtain ⟨hlt, -⟩ := hs.queued a (List.mem_of_mem_head? ha)
      exact ⟨hs.tree.wellFormed a hlt, hs.tree.weightsNonneg hweights hlt⟩
  have hcut : ∀ a ∈ s.subGraph.head?, ∀ mem q r,
      myPartition (partitionFuel (s.heap a)) (input s.calls).other (input s.calls).rand
        (mem s.calls) { s.heap a with modu := 0 } = some q → PartedBy (s.heap a).nvtxs r q →
      (partitioned (partitioner (withMemory input mem)) s.calls (s.heap a)).isParted = true ∧
      cutWeight (partitioned (partitioner (withMemory input mem)) s.calls (s.heap a)) =
        cutWeight { s.heap a with part := r.2 } := by
    intro a ha mem q r hq hby
    obtain ⟨hparted, hpart⟩ := partitioned_of_myPartition (withMemory input mem) hq
    have hsame : CHypergraph.SameGraph { s.heap a with part := r.2 }
        (partitioned (partitioner (withMemory input mem)) s.calls (s.heap a)) :=
      ⟨rfl, rfl, rfl, rfl, rfl, rfl, rfl, rfl⟩
    refine ⟨hparted.trans hby.1, hsame.cutWeight_eq fun e he v hv ↦ ?_⟩
    rw [hpart]
    exact hby.2 v ((hnode a ha).1.pins_lt e he v hv)
  have hcall : ∀ a ∈ s.subGraph.head?, _ := fun a ha ↦
    have hsame : (s.heap a).SameGraph { s.heap a with modu := 0 } :=
      ⟨rfl, rfl, rfl, rfl, rfl, rfl, rfl, rfl⟩
    have hpos := hsame.weightsNonneg (hnode a ha).2
    myPartition_found (hsame.wellFormed (hnode a ha).1) hpos.vwgts hpos.hewgts
      (le_refl (partitionFuel (s.heap a))) (input s.calls).other (input s.calls).rand
  constructor
  · intro hnothing mem a ha hlarge hparted
    obtain ⟨q, hq, hfound⟩ := (hcall a ha).1 (mem s.calls)
    have hsplit := (partitioned_of_myPartition (withMemory input mem) hq).1
    obtain ⟨r, hr, hby⟩ := hfound (hsplit.symm.trans hparted)
    exact (hcut a ha mem q r hq hby).2.trans (hnothing a ha hlarge r hr)
  · intro hcuts a ha hlarge r hr
    obtain ⟨mem, q, hq, hby⟩ := (hcall a ha).2.1 r hr
    obtain ⟨hparted, hweight⟩ := hcut a ha (fun _ ↦ mem) q r hq hby
    exact hweight.symm.trans (hcuts (fun _ ↦ mem) a ha hlarge hparted)

/-! ### The report -/

/-- The states at the head of the loop of `doHmetis`. -/
def HmetisReached (input : ℕ → CallInput) (memory : Heap) (pHyper : CHypergraph)
    (t : BisectState CMygraph × ℤ) : Prop :=
  Loop.Reached (hmetisStep input) (bisectInit none memory pHyper, 0) t

/-- If the loop ended in this state, the field would be right: it is the number of hyperedges with
pins in different leaves. -/
def ReportsCut (pHyper : CHypergraph) (t : BisectState CMygraph × ℤ) : Prop :=
  ∃ partnum part, dfsForWriteParts t.1.heap t.1.size t.1.size (some 0) 0 (t.1.heap 0).part =
    some (partnum, part) ∧ t.2 = (spanning pHyper part).card

/-- In all of them the field is as it was. -/
theorem hmetisReached_iff {input : ℕ → CallInput} {memory : Heap} {pHyper : CHypergraph}
    {t : BisectState CMygraph × ℤ} : HmetisReached input memory pHyper t ↔
      Loop.Reached (bisectStep (partitioner input)) (bisectInit none memory pHyper) t.1 ∧
        t.2 = 0 := by
  have h := Loop.reached_map_iff (fun s ↦ hmetisStep_eq input s 0)
    (s := bisectInit none memory pHyper) (u := t)
  refine h.trans ⟨?_, fun ⟨ht, hzero⟩ ↦ ⟨t.1, ht, Prod.ext rfl hzero.symm⟩⟩
  rintro ⟨s, hs, rfl⟩
  exact ⟨hs, rfl⟩

theorem Heap.Good.cutWeight_nonneg {heap : Heap} {size : ℕ} (hg : heap.Good size)
    (hone : ∀ e < (heap 0).nhedges, (heap 0).hewgts e = 1) {a : ℕ} (ha : a ∈ cutsOf heap size) :
    0 ≤ cutWeight (heap a) := by
  obtain ⟨hlt, hne⟩ := mem_cutsOf.1 ha
  rcases hg.node a hlt with hleaf | ⟨b, c, hb, hc, hsons⟩
  · exact absurd hleaf.leftSon_eq hne
  · rw [hg.cutWeight_eq_card hone hlt hb hc hsons]
    exact Int.natCast_nonneg _

/-- **The number of hyperedges with pins in different leaves is `0`** exactly if no cut goes through
anything. -/
theorem BisectState.Accounted.exists_spanning {M : Type*} {s : BisectState M}
    {pHyper : CHypergraph} (hacc : s.Accounted pHyper)
    (hone : ∀ e < (s.heap 0).nhedges, (s.heap 0).hewgts e = 1) {climb n : ℕ}
    (hclimb : s.size ≤ climb) (hn : s.size ≤ n) : ∃ partnum part,
      dfsForWriteParts s.heap climb n (some 0) 0 (s.heap 0).part = some (partnum, part) ∧
      (s.Uncut ↔ (spanning pHyper part).card = 0) := by
  obtain ⟨partnum, part, hdfs, hsum⟩ := hacc.exists_sum_cuts hone hclimb hn
  refine ⟨partnum, part, hdfs, ?_⟩
  rw [← Int.natCast_eq_zero, ← hsum,
    Finset.sum_eq_zero_iff_of_nonneg fun a ha ↦ hacc.good.tree.cutWeight_nonneg hone ha]
  rfl

section Reports

variable {r : CalledRelation} {fathermap : OrdMap Str Str} {pHyper : CHypergraph}
  {input : ℕ → CallInput} {memory : Heap} {t : BisectState CMygraph × ℤ}

/-- **A state reports its cut** exactly if it has cut nothing. -/
theorem IsHypergraphOf.reportsCut_iff (hh : IsHypergraphOf r fathermap pHyper) (hr : r.Proper)
    (ht : HmetisReached input memory pHyper t) : ReportsCut pHyper t ↔ t.1.Uncut := by
  obtain ⟨ht, hzero⟩ := hmetisReached_iff.1 ht
  have hacc := hh.accounted_of_reached hr (labelsSides_partitioner input) ht
  obtain ⟨partnum, part, hdfs, huncut⟩ :=
    hacc.exists_spanning (hh.hewgts_of_sameGraph hacc.root) le_rfl le_rfl
  rw [huncut, ReportsCut, hzero]
  constructor
  · rintro ⟨partnum', part', hdfs', hcut⟩
    obtain ⟨-, rfl⟩ := Prod.mk.inj (Option.some.inj (hdfs'.symm.trans hdfs))
    exact Int.natCast_eq_zero.1 hcut.symm
  · intro hcut
    exact ⟨partnum, part, hdfs, by rw [hcut]; rfl⟩

theorem IsHypergraphOf.weightsNonneg_of_reached (hh : IsHypergraphOf r fathermap pHyper)
    (hr : r.Proper) (ht : HmetisReached input memory pHyper t) :
    t.1.Good ∧ (t.1.heap 0).WeightsNonneg := by
  have hacc := hh.accounted_of_reached hr (labelsSides_partitioner input) (hmetisReached_iff.1 ht).1
  refine ⟨hacc.good, hacc.root.weightsNonneg ⟨fun v hv ↦ ?_, fun e he ↦ ?_⟩⟩
  · rw [hh.vwgts_eq v hv]
    decide
  · rw [hh.hewgts_eq e he]
    decide

/-- **A run reports its cuts** if none of its calls can find anything to cut. -/
theorem IsHypergraphOf.uncut_of_nothingToCut (hh : IsHypergraphOf r fathermap pHyper)
    (hr : r.Proper) {mem : ℕ → FreshMemory}
    (hnothing : ∀ t, HmetisReached (withMemory input mem) memory pHyper t → NothingToCut input t.1)
    (ht : HmetisReached (withMemory input mem) memory pHyper t) : t.1.Uncut := by
  have hmy := labelsSides_partitioner (withMemory input mem)
  have hinit := hh.good_bisectInit (M := CMygraph) hr none memory
  refine hinit.uncut_of_reached hmy ?_ (fun s hs ↦ ?_) (hmetisReached_iff.1 ht).1
  · intro a ha
    obtain ⟨ha, hne⟩ := mem_cutsOf.1 ha
    obtain rfl : a = 0 := Nat.lt_one_iff.1 ha
    refine absurd ?_ hne
    show (Function.update memory 0 (prepareRoot pHyper) 0).leftSon = none
    rw [Function.update_self]
    exact hh.leftSon_eq
  · have hs' : HmetisReached (withMemory input mem) memory pHyper (s, 0) :=
      hmetisReached_iff.2 ⟨hs, rfl⟩
    obtain ⟨hgood, hweights⟩ := hh.weightsNonneg_of_reached hr hs'
    exact (hgood.nothingToCut_iff hweights).1 (hnothing _ hs') mem

/-- **A call that can find something to cut** makes the next state report a wrong cut, for some
memory that leads to the call. -/
theorem IsHypergraphOf.nothingToCut_of_reports (hh : IsHypergraphOf r fathermap pHyper)
    (hr : r.Proper)
    (hreports : ∀ mem t, HmetisReached (withMemory input mem) memory pHyper t → ReportsCut pHyper t)
    {mem : ℕ → FreshMemory} (ht : HmetisReached (withMemory input mem) memory pHyper t) :
    NothingToCut input t.1 := by
  obtain ⟨hgood, hweights⟩ := hh.weightsNonneg_of_reached hr ht
  refine (hgood.nothingToCut_iff hweights).2 fun mem' ↦ ?_
  -- the memory of this run up to the call, and any other from there on
  set mem'' : ℕ → FreshMemory := fun k ↦ if k < t.1.calls then mem k else mem' k with hmem''
  have hagree : ∀ k < t.1.calls,
      partitioner (withMemory input mem) k = partitioner (withMemory input mem'') k := fun k hk ↦
    partitioner_congr (by simp only [withMemory, hmem'', if_pos hk])
  have hreached : Loop.Reached (bisectStep (partitioner (withMemory input mem'')))
      (bisectInit none memory pHyper) t.1 :=
    (hmetisReached_iff.1 ht).1.of_agree BisectState.calls bisectStep_of_agree hagree
  have hnothing : CutsNothing (partitioner (withMemory input mem'')) t.1 := by
    rcases hstep : bisectStep (partitioner (withMemory input mem'')) t.1 with t' | b
    · have ht' : HmetisReached (withMemory input mem'') memory pHyper (t', 0) :=
        hmetisReached_iff.2 ⟨.next hreached hstep, rfl⟩
      have huncut := (hh.reportsCut_iff hr ht').1 (hreports _ _ ht')
      exact ((hgood.uncut_bisectStep (labelsSides_partitioner _) hstep).1 huncut).2
    · intro a ha
      rw [(eq_of_bisectStep_eq_inr hstep).2] at ha
      exact absurd ha (Option.not_mem_none a)
  refine hnothing.congr (partitioner_congr ?_)
  simp only [withMemory, hmem'', lt_irrefl, if_false]

/-- **The final report**, if no cut goes through anything: it is right, as then the groups cut
nothing either, unless `pMyGraph` is read before it is set. -/
theorem IsHypergraphOf.exists_hcut (hh : IsHypergraphOf r fathermap pHyper) (hr : r.Proper)
    (huncut : ∀ t, HmetisReached input memory pHyper t → t.1.Uncut) :
    ∃ fuel₀, ∀ fuel > fuel₀,
      ((∃ res numbers, doHmetis fuel input memory pHyper 0 = some res ∧
          doWriting res.mapForLastPart fuel pHyper.nvtxs res.part = some numbers ∧
          res.cutnum = (spanningEdges pHyper numbers).length) ↔ 3 ≤ pHyper.nvtxs) := by
  obtain ⟨s, fuel₀, hrun, hres⟩ := hh.exists_doHmetis hr memory input 0
  obtain ⟨s', hreached, hend⟩ := Loop.exists_reached_of_run (hrun _ (Nat.lt_succ_self _))
  obtain rfl := (eq_of_bisectStep_eq_inr hend).1
  have hacc := hh.accounted_of_reached hr (labelsSides_partitioner input) hreached
  refine ⟨max fuel₀ s.size, fun fuel hfuel ↦ ?_⟩
  obtain ⟨hrounds, hsize⟩ := max_lt_iff.1 hfuel
  obtain ⟨partnum, part, map, hdfs, hdo, hpart, hle, hdesc, -⟩ := hres fuel hrounds
  obtain ⟨partnum', part', hdfs', hcard⟩ :=
    hacc.exists_spanning (hh.hewgts_of_sameGraph hacc.root) hsize.le hsize.le
  obtain ⟨rfl, rfl⟩ := Prod.mk.inj (Option.some.inj (hdfs'.symm.trans hdfs))
  have hspan : spanning pHyper part' = ∅ :=
    Finset.card_eq_zero.1 (hcard.1 (huncut (s, 0) (hmetisReached_iff.2 ⟨hreached, rfl⟩)))
  have hbot : Coarsening.Uncut (touches pHyper part') (Finset.range pHyper.nhedges)
      (⊥ : Setoid (Fin partnum')) := by
    rintro e he i j ⟨u, hu, hui⟩ ⟨v, hv, hvj⟩
    have hnot : e ∉ spanning pHyper part' := by
      rw [hspan]
      exact Finset.notMem_empty e
    rw [spanning, Finset.mem_filter] at hnot
    have heq : part' u = part' v := by
      by_contra hne
      exact hnot ⟨he, u, hu, v, hv, hne⟩
    rw [hui, hvj, Int.natCast_inj] at heq
    exact Fin.ext heq
  have hnil := (spanningEdges_eq_nil_iff map (hh.wellFormed hr).pins_lt hpart).2
    (hbot.mono (bot_le : ⊥ ≤ groups partnum' map))
  rw [hdo]
  constructor
  · rintro ⟨res, numbers, hsome, -, -⟩
    by_contra hsmall
    rw [if_neg hsmall] at hsome
    exact absurd hsome (Option.some_ne_none res).symm
  · intro h3
    exact ⟨_, _, if_pos h3, hdesc.doWriting_eq hpart hle, by rw [hnil]; rfl⟩

end Reports

/-- **The cut that is reported is the number of hyperedges that are cut**, in every state of the
loop and whatever the memory holds, if and only if no call of `myPartition` can find anything to
cut. If none can in a run, its final report is the number of hyperedges with pins in different
groups of `partition.txt`, unless `pMyGraph` is read before it is set. -/
theorem doHmetis_hcut_iff (r : CalledRelation) (hr : r.Proper) (fathermap : OrdMap Str Str)
    (strPara : Str) (raw : CHypergraph) (memory : Heap) (input : ℕ → CallInput) :
    ∃ pHyper, createHypergraph r fathermap strPara raw = some pHyper ∧
      ((∀ mem t, HmetisReached (withMemory input mem) memory pHyper t → ReportsCut pHyper t) ↔
        ∀ mem t, HmetisReached (withMemory input mem) memory pHyper t → NothingToCut input t.1) ∧
      ∀ mem, (∀ t, HmetisReached (withMemory input mem) memory pHyper t → NothingToCut input t.1) →
        (∀ t, HmetisReached (withMemory input mem) memory pHyper t → ReportsCut pHyper t) ∧
        ∃ fuel₀, ∀ fuel > fuel₀,
          ((∃ res numbers, doHmetis fuel (withMemory input mem) memory pHyper 0 = some res ∧
              doWriting res.mapForLastPart fuel pHyper.nvtxs res.part = some numbers ∧
              res.cutnum = (spanningEdges pHyper numbers).length) ↔
            3 ≤ (classOrder r).length) := by
  obtain ⟨pHyper, hsome, hh⟩ := exists_createHypergraph r fathermap strPara raw
  have henough : ∀ mem,
      (∀ t, HmetisReached (withMemory input mem) memory pHyper t → NothingToCut input t.1) →
      ∀ t, HmetisReached (withMemory input mem) memory pHyper t → ReportsCut pHyper t :=
    fun mem hnothing t ht ↦ (hh.reportsCut_iff hr ht).2 (hh.uncut_of_nothingToCut hr hnothing ht)
  refine ⟨pHyper, hsome, ⟨fun hreports mem t ht ↦ hh.nothingToCut_of_reports hr hreports ht,
    fun hnothing mem ↦ henough mem (hnothing mem)⟩, fun mem hnothing ↦ ⟨henough mem hnothing, ?_⟩⟩
  rw [← hh.nvtxs_eq]
  exact hh.exists_hcut hr fun t ht ↦ hh.uncut_of_nothingToCut hr hnothing ht

theorem doHmetis_hcut_iff_sampleRelation :
    sampleRelation.Proper ∧
    ∃ pHyper, createHypergraph sampleRelation ∅ [] default = some pHyper ∧
      ((∀ mem t, HmetisReached (withMemory sampleInput mem) default pHyper t →
          ReportsCut pHyper t) ↔
        ∀ mem t, HmetisReached (withMemory sampleInput mem) default pHyper t →
          NothingToCut sampleInput t.1) := by
  have hproper : sampleRelation.Proper := by unfold CalledRelation.Proper; decide
  obtain ⟨pHyper, hsome, hiff, -⟩ :=
    doHmetis_hcut_iff sampleRelation hproper ∅ [] default default sampleInput
  exact ⟨hproper, pHyper, hsome, hiff⟩

/-- Two pairs of classes that call each other, and a call between the pairs. -/
def bridgeRelation : CalledRelation :=
  ((((∅ : CalledRelation).insert "A".toList [{ name := "B".toList }]).insert "B".toList
    [{ name := "A".toList }, { name := "C".toList }]).insert "C".toList
    [{ name := "D".toList }]).insert "D".toList [{ name := "C".toList }]

/-- Calls that find ones in the memory for `part_res`. -/
def onesInput (_ : ℕ) : CallInput := ⟨sampleOther, id, ⟨fun _ ↦ 0, fun _ _ ↦ 1⟩⟩

/-- The root is cut into the two pairs, which share one hyperedge and so are not merged again: the
hyperedge has pins in both groups, but the cut that is reported is `0`. -/
theorem doHmetis_bridgeRelation_hcut :
    bridgeRelation.Proper ∧
    ∃ pHyper, createHypergraph bridgeRelation ∅ [] default = some pHyper ∧
      ∃ res numbers, doHmetis 20 onesInput default pHyper 0 = some res ∧
        doWriting res.mapForLastPart 20 pHyper.nvtxs res.part = some numbers ∧
        res.cutnum ≠ (spanningEdges pHyper numbers).length := by
  refine ⟨by unfold CalledRelation.Proper; decide, ?_⟩
  have hrun : (createHypergraph bridgeRelation ∅ [] default).bind (fun pHyper ↦
      (doHmetis 20 onesInput default pHyper 0).bind fun res ↦
        (doWriting res.mapForLastPart 20 pHyper.nvtxs res.part).map fun numbers ↦
          (res.cutnum, spanningEdges pHyper numbers)) = some (0, [1]) := by
    decide +kernel
  obtain ⟨pHyper, hsome, hrun⟩ := Option.bind_eq_some_iff.1 hrun
  obtain ⟨res, hres, hrun⟩ := Option.bind_eq_some_iff.1 hrun
  obtain ⟨numbers, hnumbers, hcut⟩ := Option.map_eq_some_iff.1 hrun
  obtain ⟨hzero, hone⟩ := Prod.mk.inj hcut
  refine ⟨pHyper, hsome, res, numbers, hres, hnumbers, ?_⟩
  rw [hzero, hone]
  decide

end CArchitecture
