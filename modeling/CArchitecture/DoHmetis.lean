import CArchitecture.LeafNumbers
import CArchitecture.Partition

/-!
# The graph that `mergeParts` reads

`doHmetis` bisects with `myPartition`, which builds an incidence graph of its argument at every
call, and keeps the one of the call for the root in `pMyGraph`, for `mergeParts` to read. The
constructor of the test case **does not set** that pointer, and the root is not handed to
`myPartition` at all if it has less than `END_NUM` vertices.

Here the bisection runs with `myPartition` itself, whatever the memory and the draws of each call
(`partitioner`). All calls return (`exists_myPartition`), nodes below the root have a greater floor,
so nothing overwrites the pointer once it is set, and it is set exactly if the relation has three
classes (`doHmetis_pMyGraph_iff`).
-/

namespace CArchitecture

/-! ### The partitioner -/

/-- What one call of `myPartition` finds: memory that is not initialised, the rounding of the
machine, and the draws. -/
structure CallInput where
  other : OtherInput
  rand : ℕ → ℕ
  mem : FreshMemory

/-- Enough fuel for `myPartition`. -/
def partitionFuel (p : CHypergraph) : ℕ := 2 * p.nvtxs + 12

/-- The `k`-th call of `myPartition`, with what it leaves in the fields of its argument and in
`pInitGraph`. -/
def partitioner (input : ℕ → CallInput) (k : ℕ) (p : CHypergraph) : Outcome CMygraph :=
  match myPartition (partitionFuel p) (input k).other (input k).rand (input k).mem p with
  | some q => ⟨q.isParted, q.modu, q.part, CMygraph.ofHypergraph p⟩
  | none => ⟨false, p.modu, p.part, CMygraph.ofHypergraph p⟩

theorem partitioner_myGraph (input : ℕ → CallInput) (k : ℕ) (p : CHypergraph) :
    (partitioner input k p).myGraph = CMygraph.ofHypergraph p := by
  rw [partitioner]
  split <;> rfl

theorem labelsSides_partitioner (input : ℕ → CallInput) : LabelsSides (partitioner input) := by
  refine labelsSides_of_myPartition fun k p hparted ↦ ?_
  cases hq : myPartition (partitionFuel p) (input k).other (input k).rand (input k).mem p with
  | none =>
    rw [partitioner, hq] at hparted
    exact absurd hparted Bool.false_ne_true
  | some q =>
    rw [partitioner, hq] at hparted ⊢
    exact ⟨_, _, _, _, q, hq, hparted, rfl⟩

/-- No vertex and no edge has a negative weight. -/
structure CHypergraph.WeightsNonneg (p : CHypergraph) : Prop where
  vwgts : ∀ v < p.nvtxs, 0 ≤ p.vwgts v
  hewgts : ∀ e < p.nhedges, 0 ≤ p.hewgts e

theorem CHypergraph.SameGraph.weightsNonneg {h h' : CHypergraph} (hh : h.SameGraph h')
    (hw : h.WeightsNonneg) : h'.WeightsNonneg where
  vwgts := by rw [hh.nvtxs_eq, hh.vwgts_eq]; exact hw.vwgts
  hewgts := by rw [hh.nhedges_eq, hh.hewgts_eq]; exact hw.hewgts

/-- **`myPartition` returns** on every hypergraph that the later stages can work on. -/
theorem exists_myPartition {p : CHypergraph} (hw : p.WellFormed) (hp : p.WeightsNonneg)
    (i : CallInput) : ∃ q, myPartition (partitionFuel p) i.other i.rand i.mem p = some q := by
  have hrep := CMygraph.represents_ofHypergraph p
  have hcoarse := (isCoarsening (hrep.edgesOk hw hp.hewgts) i.other.graph).groupsVertices
  have hnvetes := hcoarse.nvetes_le
  rw [hrep.nvetes_eq] at hnvetes
  have hfuel : 2 * p.nvtxs + 12 ≤ partitionFuel p := le_rfl
  have htry := fun seed hseed Node_Rank raw ↦
    (exists_trySeed i.other.fl hw hp.vwgts hrep hcoarse
      (by omega : 2 * p.nvtxs + 2 ≤ partitionFuel p)
      Node_Rank raw seed hseed).elim fun _ h ↦ h.imp fun _ h ↦ h.2.2
  have hrun : ∃ q, myPartition (partitionFuel p) i.other i.rand i.mem p = some q ∧ True :=
    exists_run_seedRound (fun _ ↦ True) (fun _ ↦ True) htry (fun _ _ _ _ _ ↦ trivial)
      (fun _ _ _ ↦ trivial) (drawn_seedInit p i.mem.seedmap) trivial (by omega)
  exact hrun.imp fun _ h ↦ h.1

/-! ### Weights below the root -/

/-- A son inherits its weights, or has edges of weight zero. -/
theorem IsSon.weightsNonneg {G son : CHypergraph} {label : ℤ} {toSon : OrdMap ℕ ℕ}
    (hson : IsSon G label toSon son) (hG : G.WeightsNonneg) : son.WeightsNonneg where
  vwgts k hk := by
    obtain ⟨v, hv⟩ := Option.isSome_iff_exists.1 ((hson.isSome_iff k).2 hk)
    have hbij := hson.bijOn.mapsTo (show k ∈ {k | k < son.nvtxs} from hk)
    simp only [hv, Option.getD_some] at hbij
    rw [hson.vwgts_eq k v hv]
    exact hG.vwgts v hbij.1
  hewgts e he := by
    have hmem : (son.hewgts e, son.pins e) ∈ son.edges :=
      CHypergraph.mem_edges_iff.2 ⟨e, he, rfl⟩
    rw [hson.edges_eq] at hmem
    obtain ⟨d, hd, heq⟩ := List.mem_map.1 hmem
    rw [sideEdges] at hd
    obtain ⟨c, hc, rfl⟩ := List.mem_map.1 hd
    obtain ⟨j, hj, rfl⟩ := CHypergraph.mem_edges_iff.1 (List.mem_filter.1 hc).1
    have hweight : (if (G.pins j).all (G.part · = label) then G.hewgts j else 0) = son.hewgts e :=
      congrArg Prod.fst heq
    rw [← hweight]
    split_ifs
    · exact hG.hewgts j hj
    · exact le_rfl

/-- **All weights of the tree are non-negative** if those of the root are. -/
theorem Heap.Good.weightsNonneg {heap : Heap} {size : ℕ} (hg : heap.Good size)
    (hroot : (heap 0).WeightsNonneg) {a : ℕ} (ha : a < size) : (heap a).WeightsNonneg := by
  induction a using Nat.strong_induction_on with
  | _ a ih =>
    rcases eq_or_ne a 0 with rfl | h0
    · exact hroot
    · obtain ⟨f, b, c, hb, hc, hs, hbc⟩ := hg.father a ha h0
      have hf := ih f (by rcases hbc with rfl | rfl; exacts [hs.left_lt, hs.right_lt])
        (hs.left_lt.trans hb)
      rcases hbc with rfl | rfl
      · exact hs.left.weightsNonneg hf
      · exact hs.right.weightsNonneg hf

/-! ### The pointer -/

section Pointer

variable {M : Type*} {myPartition : ℕ → CHypergraph → Outcome M} {s s' : BisectState M}

/-- What the front of the queue does to the pointer. -/
def nextMyGraph (myPartition : ℕ → CHypergraph → Outcome M) (s : BisectState M) (a : ℕ) :
    Option M :=
  if (s.heap a).nvtxs > END_NUM - 1 ∧ (s.heap a).floor = 1 then
    some (myPartition s.calls { s.heap a with modu := 0 }).myGraph
  else s.pMyGraph

/-- Splitting leaves the pointer alone, keeps the other nodes, and queues nodes one floor above
their father at most. -/
theorem splitNode_floor {a : ℕ} {p : CHypergraph} :
    (splitNode s a p).pMyGraph = s.pMyGraph ∧
      (∀ x < s.size, x ≠ a → (splitNode s a p).heap x = s.heap x) ∧
      ∀ x ∈ (splitNode s a p).subGraph,
        x ∈ s.subGraph ∨ ((splitNode s a p).heap x).floor = p.floor + 1 := by
  simp only [splitNode]
  split_ifs with hne
  · refine ⟨rfl, fun x hx hxa ↦ heap_linkSons_of_ne hx hxa, fun x hx ↦ ?_⟩
    rcases List.mem_append.1 hx with hx | hx
    · exact Or.inl hx
    · right
      rcases List.mem_cons.1 hx with rfl | hx
      · exact congrArg CHypergraph.floor heap_linkSons_left
      · obtain rfl := List.mem_singleton.1 hx
        exact congrArg CHypergraph.floor heap_linkSons_right
  · exact ⟨rfl, fun x hx hxa ↦ heap_linkSons_of_ne hx hxa, fun x hx ↦ Or.inl hx⟩

/-- **One round** sets the pointer if its node is on the first floor, and queues nodes of higher
floors only. -/
theorem BisectState.Good.bisectStep_pMyGraph (hs : s.Good) {a : ℕ} {rest : List ℕ}
    (hq : s.subGraph = a :: rest) (hfloor : 1 ≤ (s.heap a).floor)
    (hrest : ∀ x ∈ rest, 2 ≤ (s.heap x).floor)
    (h : CArchitecture.bisectStep myPartition s = Sum.inl s') :
    s'.pMyGraph = nextMyGraph myPartition s a ∧ ∀ x ∈ s'.subGraph, 2 ≤ (s'.heap x).floor := by
  have hnodup := hs.nodup
  rw [hq, List.nodup_cons] at hnodup
  have hlt : ∀ x ∈ rest, x < s.size ∧ x ≠ a := fun x hx ↦
    ⟨(hs.queued x (hq ▸ List.mem_cons_of_mem _ hx)).1, fun e ↦ hnodup.1 (e ▸ hx)⟩
  rw [CArchitecture.bisectStep, hq] at h
  simp only at h
  rw [nextMyGraph]
  rcases Nat.lt_or_ge (END_NUM - 1) (s.heap a).nvtxs with hn | hn
  · rw [if_pos hn] at h
    simp only [hn, true_and]
    by_cases hparted : (partitioned myPartition s.calls (s.heap a)).isParted = true
    · rw [if_pos hparted] at h
      obtain rfl := Sum.inl.inj h
      refine ⟨splitNode_floor.1, fun x hx ↦ ?_⟩
      rcases splitNode_floor.2.2 x hx with hx' | hx'
      · refine (hrest x hx').trans_eq (congrArg CHypergraph.floor ?_).symm
        exact splitNode_floor.2.1 x (hlt x hx').1 (hlt x hx').2
      · rw [hx']
        exact Nat.succ_le_succ hfloor
    · rw [if_neg hparted] at h
      obtain rfl := Sum.inl.inj h
      refine ⟨rfl, fun x hx ↦ ?_⟩
      refine (hrest x hx).trans_eq (congrArg CHypergraph.floor ?_).symm
      exact Function.update_of_ne (hlt x hx).2 _ _
  · rw [if_neg (not_lt.2 hn)] at h
    rw [if_neg fun hc ↦ absurd hc.1 (not_lt.2 hn)]
    obtain rfl := Sum.inl.inj h
    exact ⟨rfl, hrest⟩

/-- **Nothing overwrites the pointer** once only higher floors are queued. -/
theorem pMyGraph_eq_of_bisect (hmy : LabelsSides myPartition) (hs : s.Good)
    (hfloor : ∀ x ∈ s.subGraph, 2 ≤ (s.heap x).floor) {fuel : ℕ}
    (h : bisect myPartition fuel s = some s') : s'.pMyGraph = s.pMyGraph := by
  refine Loop.run_invariant
    (fun t : BisectState M ↦ (t.Good ∧ ∀ x ∈ t.subGraph, 2 ≤ (t.heap x).floor) ∧
      t.pMyGraph = s.pMyGraph) (fun t ↦ t.pMyGraph = s.pMyGraph) ?_ ?_ ⟨⟨hs, hfloor⟩, rfl⟩ h
  · rintro t t' ⟨⟨ht, hhigh⟩, hptr⟩ hstep
    obtain ⟨a, rest, hq, -⟩ := bisectStep_cases hstep
    have ha := hhigh a (by rw [hq]; exact List.mem_cons_self)
    obtain ⟨hptr', hhigh'⟩ := ht.bisectStep_pMyGraph hq (by omega)
      (fun x hx ↦ hhigh x (by rw [hq]; exact List.mem_cons_of_mem _ hx)) hstep
    refine ⟨⟨(ht.bisectStep hmy hstep).1, hhigh'⟩, hptr'.trans ?_⟩
    rw [nextMyGraph, if_neg fun hc ↦ by omega, hptr]
  · rintro t t' ⟨-, hptr⟩ hstep
    rw [(eq_of_bisectStep_eq_inr hstep).1, hptr]

end Pointer

/-- The root alone is on the first floor: after the loop the pointer is as the root left it. -/
theorem pMyGraph_of_bisectInit {M : Type*} {myPartition : ℕ → CHypergraph → Outcome M}
    (hmy : LabelsSides myPartition) {g : Option M} {memory : Heap} {pHyper : CHypergraph}
    (hinit : (bisectInit g memory pHyper).Good) {fuel : ℕ} {s : BisectState M}
    (h : bisect myPartition fuel (bisectInit g memory pHyper) = some s) :
    s.pMyGraph = if 3 ≤ pHyper.nvtxs then
      some (myPartition 0 { prepareRoot pHyper with modu := 0 }).myGraph else g := by
  have hroot : (bisectInit g memory pHyper).heap 0 = prepareRoot pHyper := by
    simp only [bisectInit, Function.update_self]
  obtain ⟨n, rfl⟩ : ∃ n, fuel = n + 1 := by
    cases fuel with
    | zero => exact absurd h (by simp [bisect, Loop.run])
    | succ n => exact ⟨n, rfl⟩
  rcases hstep : bisectStep myPartition (bisectInit g memory pHyper) with t | t
  · have hrun : bisect myPartition n t = some s := by
      rw [bisect, Loop.run_succ_of_inl hstep] at h
      exact h
    obtain ⟨hptr, hhigh⟩ := hinit.bisectStep_pMyGraph (rfl : _ = 0 :: [])
      (by rw [hroot]; exact le_rfl) (fun x hx ↦ absurd hx List.not_mem_nil) hstep
    rw [pMyGraph_eq_of_bisect hmy (hinit.bisectStep hmy hstep).1 hhigh hrun, hptr, nextMyGraph,
      hroot]
    simp only [prepareRoot, and_true]
    rfl
  · -- the queue is not empty at the start
    exact absurd (eq_of_bisectStep_eq_inr hstep).2 (List.cons_ne_nil _ _)

/-- **`pMyGraph` is the graph of the root, when `mergeParts` reads it, exactly if the relation has
three classes or more.** Whatever the memory and the draws are, the bisection loop ends and all its
calls of `myPartition` return; the pointer, which is not set before, is the incidence graph of
`pHyper` after it if and only if the root is large enough to be bisected at all. -/
theorem doHmetis_pMyGraph_iff (r : CalledRelation) (hr : r.Proper) (fathermap : OrdMap Str Str)
    (strPara : Str) (raw : CHypergraph) (memory : Heap) (input : ℕ → CallInput) :
    ∃ pHyper, createHypergraph r fathermap strPara raw = some pHyper ∧
      ∃ s fuel₀, (∀ fuel > fuel₀,
          bisect (partitioner input) fuel (bisectInit none memory pHyper) = some s) ∧
        (∀ t, Loop.Reached (bisectStep (partitioner input)) (bisectInit none memory pHyper) t →
          ∀ a ∈ t.subGraph, ∀ i : CallInput,
            ∃ q, myPartition (partitionFuel (t.heap a)) i.other i.rand i.mem
              { t.heap a with modu := 0 } = some q) ∧
        (s.pMyGraph = some (CMygraph.ofHypergraph pHyper) ↔ 3 ≤ (classOrder r).length) := by
  obtain ⟨pHyper, hsome, hh⟩ := exists_createHypergraph r fathermap strPara raw
  have hinit := hh.good_bisectInit (M := CMygraph) hr none memory
  have hmy := labelsSides_partitioner input
  have hweights : pHyper.WeightsNonneg :=
    ⟨fun v hv ↦ by rw [hh.vwgts_eq v hv]; decide, fun e he ↦ by rw [hh.hewgts_eq e he]; decide⟩
  obtain ⟨s, hrun, -, -⟩ := exists_bisect hmy hinit
  refine ⟨pHyper, hsome, s, _, hrun, fun t ht a ha i ↦ ?_, ?_⟩
  · -- every state that is reached is a tree with the same root
    have hinv := ht.invariant (fun t ↦ t.Good ∧ pHyper.SameGraph (t.heap 0))
      ⟨hinit, ⟨rfl, rfl, rfl, rfl, rfl, rfl, rfl, rfl⟩⟩ fun t t' hgood hstep ↦
        ⟨(hgood.1.bisectStep hmy hstep).1, hgood.2.trans (hgood.1.bisectStep hmy hstep).2.1⟩
    obtain ⟨hlt, -⟩ := hinv.1.queued a ha
    have hw := hinv.1.tree.wellFormed a hlt
    have hn := hinv.1.tree.weightsNonneg (hinv.2.weightsNonneg hweights) hlt
    have hsame : (t.heap a).SameGraph { t.heap a with modu := 0 } :=
      ⟨rfl, rfl, rfl, rfl, rfl, rfl, rfl, rfl⟩
    exact exists_myPartition (hsame.wellFormed hw) (hsame.weightsNonneg hn) i
  · rw [pMyGraph_of_bisectInit hmy hinit (hrun _ (Nat.lt_succ_self _)), hh.nvtxs_eq,
      partitioner_myGraph]
    split_ifs with h3
    · exact ⟨fun _ ↦ h3, fun _ ↦ rfl⟩
    · exact ⟨fun hnone ↦ absurd hnone (by simp), fun h ↦ absurd h h3⟩

/-- Calls that find nothing of note in the memory, and draw the seeds in order. -/
def sampleInput (_ : ℕ) : CallInput := ⟨sampleOther, id, ⟨fun _ ↦ 0, fun _ _ ↦ 0⟩⟩

theorem doHmetis_pMyGraph_iff_sampleRelation :
    sampleRelation.Proper ∧
    ∃ pHyper, createHypergraph sampleRelation ∅ [] default = some pHyper ∧
      ∃ s fuel₀, (∀ fuel > fuel₀,
          bisect (partitioner sampleInput) fuel (bisectInit none default pHyper) = some s) ∧
        (∀ t,
          Loop.Reached (bisectStep (partitioner sampleInput)) (bisectInit none default pHyper) t →
          ∀ a ∈ t.subGraph, ∀ i : CallInput,
            ∃ q, myPartition (partitionFuel (t.heap a)) i.other i.rand i.mem
              { t.heap a with modu := 0 } = some q) ∧
        (s.pMyGraph = some (CMygraph.ofHypergraph pHyper) ↔
          3 ≤ (classOrder sampleRelation).length) := by
  have hproper : sampleRelation.Proper := by unfold CalledRelation.Proper; decide
  exact ⟨hproper, doHmetis_pMyGraph_iff sampleRelation hproper ∅ [] default default sampleInput⟩

/-- A relation with two classes: `B` calls `A`. -/
def smallRelation : CalledRelation :=
  (∅ : CalledRelation).insert "A".toList [{ name := "B".toList }]

/-- **With two classes the pointer is not set** when `mergeParts` reads it. -/
theorem doHmetis_pMyGraph_smallRelation :
    smallRelation.Proper ∧
    ∃ pHyper, createHypergraph smallRelation ∅ [] default = some pHyper ∧
      ∃ s fuel, bisect (partitioner sampleInput) fuel (bisectInit none default pHyper) = some s ∧
        s.pMyGraph = none := by
  have hproper : smallRelation.Proper := by unfold CalledRelation.Proper; decide
  obtain ⟨pHyper, hsome, hh⟩ := exists_createHypergraph smallRelation ∅ [] default
  have hinit := hh.good_bisectInit (M := CMygraph) hproper none default
  have hmy := labelsSides_partitioner sampleInput
  obtain ⟨s, hrun, -, -⟩ := exists_bisect hmy hinit
  have hs := hrun _ (Nat.lt_succ_self _)
  refine ⟨hproper, pHyper, hsome, s, _, hs, ?_⟩
  have hsmall : ¬ 3 ≤ (classOrder smallRelation).length := by decide
  rw [pMyGraph_of_bisectInit hmy hinit hs, hh.nvtxs_eq, if_neg hsmall]

end CArchitecture
