import CArchitecture.ZeroCounts
import Mathlib.Tactic.NormNum

/-!
# Exchanging the two parts

Nothing distinguishes part `0` from part `1`, so refining a bisection with the labels exchanged
should do the same thing with the labels exchanged. Everything that the climb is given is symmetric
in this sense: `ComputeModularity`, the cut edges and the cut nodes, the ranks, and the value of
every candidate.

The bookkeeping of the moves is written once for each direction. In terms of the side that the node
leaves, a move out of part `0` makes the candidates be evaluated again if an edge was whole on that
side, or if the node was the last of its pins there. A move out of part `1` tests the latter only:
its first test repeats the negation of the branch. So the two runs mirror each other **exactly as
long as both forms of the tests agree on every move** (`ClimbMove.Unbiased`).

* `Tracked` is the invariant of one run: the zero counts are those of the current labelling.
* `Mirrored` relates the two runs, and one move keeps it if and only if the move is unbiased
  (`Mirrored.moveCandidate_iff`).
-/

namespace CArchitecture

open FirstSeen

/-- The labelling with `0` and `1` exchanged. -/
def complement (part_res : ℕ → ℤ) : ℕ → ℤ := fun v ↦ 1 - part_res v

/-! ### Labellings -/

theorem complement_update (part_res : ℕ → ℤ) (v : ℕ) (x : ℤ) :
    complement (Function.update part_res v x) =
      Function.update (complement part_res) v (1 - x) := by
  funext u
  rcases eq_or_ne u v with rfl | hne
  · simp [complement]
  · simp [complement, hne]

theorem flipNode_complement {part_res : ℕ → ℤ} {v : ℕ} (hv : part_res v = 0 ∨ part_res v = 1) :
    flipNode (complement part_res) v = complement (flipNode part_res v) := by
  rw [flipNode, flipNode, complement_update]
  rcases hv with hv | hv
  · simp [complement, hv]
  · simp [complement, hv]

theorem IsBisection.complement {g : CMygraph} {part_res : ℕ → ℤ} (h : IsBisection g part_res) :
    IsBisection g (complement part_res) := by
  intro v hv
  rcases h v hv with h₀ | h₁
  · exact Or.inr (by rw [CArchitecture.complement, h₀]; rfl)
  · exact Or.inl (by rw [CArchitecture.complement, h₁]; rfl)

/-! ### What the climb is given -/

theorem edgeIsCut_complement (part_res : ℕ → ℤ) (arcs : List ℕ) :
    edgeIsCut (complement part_res) arcs = edgeIsCut part_res arcs := by
  simp [edgeIsCut, complement]

theorem findCutEdges_complement (g : CMygraph) (part_res : ℕ → ℤ) :
    findCutEdges g (complement part_res) = findCutEdges g part_res := by
  simp only [findCutEdges, edgeIsCut_complement]

/-- The variables of `ComputeModularity` with the parts exchanged. -/
def ModularityState.exchange (s : ModularityState) : ModularityState :=
  { s with
    innerEdgeValue := fun x ↦ s.innerEdgeValue (1 - x)
    innerVertCount := fun x ↦ s.innerVertCount (1 - x) }

/-- An entry that is assigned and then looked up on the other side. -/
theorem update_one_sub {A : Type*} (f : ℤ → A) (x : ℤ) (a : A) :
    (fun y ↦ Function.update f x a (1 - y)) = Function.update (fun y ↦ f (1 - y)) (1 - x) a := by
  funext y
  rcases eq_or_ne y (1 - x) with rfl | hne
  · simp
  · rw [Function.update_of_ne hne, Function.update_of_ne (by omega)]

theorem countInner_exchange (g : CMygraph) (part_num : ℤ) (s : ModularityState) (v : ℕ) :
    countInner g (1 - part_num) s.exchange v = (countInner g part_num s v).exchange := by
  cases hv : s.mapForInnerNodeCount.find? v with
  | some b =>
    have hv' : s.exchange.mapForInnerNodeCount.find? v = some b := hv
    rw [countInner, countInner, hv, hv']
  | none =>
    have hv' : s.exchange.mapForInnerNodeCount.find? v = none := hv
    rw [countInner, countInner, hv, hv']
    simp [ModularityState.exchange, update_one_sub]

theorem modularityEdge_complement (g : CMygraph) (part_res : ℕ → ℤ) (s : ModularityState) (i : ℕ) :
    modularityEdge id g (complement part_res) s.exchange i =
      (modularityEdge id g part_res s i).exchange := by
  have hfold : ∀ (part_num : ℤ) (l : List ℕ) (t : ModularityState),
      l.foldl (countInner g (1 - part_num)) t.exchange =
        (l.foldl (countInner g part_num) t).exchange := fun part_num _ _ ↦
    List.foldl_hom ModularityState.exchange (countInner_exchange g part_num)
  rw [modularityEdge, modularityEdge, edgeIsCut_complement]
  split_ifs
  · rfl
  · rw [← hfold]
    simp [ModularityState.exchange, update_one_sub, complement]

/-- **Modularity does not depend on which part is which.** -/
theorem computeModularity_complement (g : CMygraph) (part_res : ℕ → ℤ) :
    computeModularity g (complement part_res) = computeModularity g part_res := by
  have hfold : (List.range g.nhedges).foldl (modularityEdge id g (complement part_res)) {} =
      ((List.range g.nhedges).foldl (modularityEdge id g part_res) {}).exchange := by
    show List.foldl _ ({} : ModularityState).exchange _ = _
    exact List.foldl_hom ModularityState.exchange (modularityEdge_complement g part_res)
  rw [computeModularity, computeModularity, hfold]
  simp only [ModularityState.exchange, sub_zero, sub_self, and_comm, id_eq]
  split_ifs
  · ring
  · rfl

/-- Nor does the value of a candidate. -/
theorem evaluateNode_complement (g : CMygraph) (part_res : ℕ → ℤ) (v : ℕ) :
    evaluateNode g (complement part_res) v = evaluateNode g part_res v := by
  have hzero : complement part_res v = 0 ↔ part_res v = 1 := by
    rw [complement]
    omega
  have hone : complement part_res v = 1 ↔ part_res v = 0 := by
    rw [complement]
    omega
  have hflip : ∀ x, computeModularity g (Function.update (complement part_res) v (1 - x)) =
      computeModularity g (Function.update part_res v x) := by
    intro x
    rw [← complement_update, computeModularity_complement]
  rw [evaluateNode, evaluateNode]
  simp only [hzero, hone]
  split_ifs with h₁ h₀
  · omega
  · exact hflip 0
  · exact hflip 1
  · rfl

theorem evaluateAll_complement (g : CMygraph) (part_res : ℕ → ℤ) (len : ℕ) (A : ℕ → ModStruct) :
    evaluateAll g (complement part_res) len A = evaluateAll g part_res len A := by
  funext i
  rw [evaluateAll, evaluateAll, evaluateNode_complement]

/-! ### Zero counts -/

/-- The pins that are not in part `0` are there when the parts are exchanged. -/
theorem zeroPins_complement {part_res : ℕ → ℤ} {arcs : List ℕ}
    (h : ∀ v ∈ arcs, part_res v = 0 ∨ part_res v = 1) :
    zeroPins (complement part_res) arcs = arcs.length - zeroPins part_res arcs := by
  induction arcs with
  | nil => rfl
  | cons v arcs ih =>
    have hv := h v List.mem_cons_self
    rw [zeroPins_cons, zeroPins_cons, ih fun u hu ↦ h u (List.mem_cons_of_mem v hu), complement,
      List.length_cons, Nat.cast_succ]
    rcases hv with hv | hv
    · simp [hv]
    · simp [hv]
      omega

/-- Distinct edges, whose pins are distinct vertices. -/
structure ProperEdges (g : CMygraph) (edges : List ℕ) : Prop where
  nodup : edges.Nodup
  arcs_nodup : ∀ e ∈ edges, (g.pAllEdges e).arcs.Nodup
  arcs_lt : ∀ e ∈ edges, ∀ v ∈ (g.pAllEdges e).arcs, v < g.nvetes

/-- The cut edges of a node, the last one first. -/
def cutEdgesAt (g : CMygraph) (cutEdges : List ℕ) (v : ℕ) : List ℕ :=
  (cutEdges.filter fun e ↦ v ∈ (g.pAllEdges e).arcs).reverse

theorem mem_cutEdgesAt {g : CMygraph} {cutEdges : List ℕ} {v e : ℕ} :
    e ∈ cutEdgesAt g cutEdges v ↔ e ∈ cutEdges ∧ v ∈ (g.pAllEdges e).arcs := by
  simp [cutEdgesAt]

/-- Each of these edges has a node once. -/
theorem ProperEdges.edgeListAt_eq {g : CMygraph} {cutEdges : List ℕ}
    (hcut : ProperEdges g cutEdges) : edgeListAt g cutEdges = cutEdgesAt g cutEdges := by
  funext v
  rw [edgeListAt, cutEdgesAt]
  refine congrArg List.reverse ?_
  have hnd := hcut.arcs_nodup
  clear hcut
  induction cutEdges with
  | nil => rfl
  | cons e edges ih =>
    obtain ⟨he, hnd⟩ := List.forall_mem_cons.1 hnd
    rw [List.flatMap_cons, ih hnd, he.count, List.filter_cons]
    by_cases hv : v ∈ (g.pAllEdges e).arcs
    · simp [hv]
    · simp [hv]

/-- **`FindZeroNodeCount`**: the count of each cut edge is the number of its pins in part `0`, and
each node gets its cut edges, the last one first. -/
theorem findZeroNodeCount_spec {g : CMygraph} {cutEdges : List ℕ} (hcut : ProperEdges g cutEdges)
    (part_res : ℕ → ℤ) :
    (∀ e ∈ cutEdges, (findZeroNodeCount g cutEdges part_res).1 e =
      zeroPins part_res (g.pAllEdges e).arcs) ∧
    (findZeroNodeCount g cutEdges part_res).2 = cutEdgesAt g cutEdges := by
  obtain ⟨hcount, harcs⟩ := findZeroNodeCount_eq (g := g) hcut.nodup part_res
  exact ⟨hcount, harcs.trans hcut.edgeListAt_eq⟩

/-! ### Ranks

The array of ranks is not initialised, so two runs start with different ones. All ranks that the
climb reads have been assigned.
-/

section Rank

variable {g : CMygraph} {cutEdges : List ℕ}

/-- The same state, had the array of ranks held `raw`. -/
def RankState.over (raw : ℕ → ℤ) (s : RankState) : RankState :=
  { s with Node_Rank := fun v ↦ if (s.ExitInList.find? v).isSome then s.Node_Rank v else raw v }

theorem rankNode_over (raw : ℕ → ℤ) (total : ℕ) (s : RankState) (v : ℕ) :
    rankNode total (s.over raw) v = (rankNode total s v).over raw := by
  have hstep : (s.over raw).step = s.step := rfl
  have hfind : (s.over raw).ExitInList = s.ExitInList := rfl
  rw [rankNode, rankNode, hstep, hfind]
  split_ifs
  · rfl
  · cases hv : s.ExitInList.find? v with
    | some _ => rfl
    | none =>
      simp only [RankState.over, RankState.mk.injEq, and_true]
      funext u
      rcases eq_or_ne u v with rfl | hne
      · simp [OrdMap.find?_insert]
      · simp [OrdMap.find?_insert_of_ne, hne]

theorem rankRound_over (raw : ℕ → ℤ) (cutNodes : List ℕ) (s : RankState) :
    rankRound g cutNodes cutEdges (s.over raw) =
      (rankRound g cutNodes cutEdges s).map (RankState.over raw) (RankState.over raw) := by
  rw [rankRound, rankRound]
  show (if s.step < cutNodes.length then _ else _) = _
  split_ifs
  · refine congrArg Sum.inl (List.foldl_hom (RankState.over raw) fun t e ↦ ?_)
    exact List.foldl_hom (RankState.over raw) (rankNode_over raw cutNodes.length)
  · rfl

/-- The nodes ranked so far are among `nodes`. -/
def RankedAmong (nodes : List ℕ) (s : RankState) : Prop :=
  ∃ seen, Ranked s seen ∧ seen ⊆ nodes

theorem RankedAmong.rankNode {nodes : List ℕ} {s : RankState} (h : RankedAmong nodes s)
    (total : ℕ) {v : ℕ} (hv : v ∈ nodes) : RankedAmong nodes (rankNode total s v) := by
  obtain ⟨seen, hseen, hsub⟩ := h
  rw [CArchitecture.rankNode]
  split_ifs
  · exact ⟨seen, hseen, hsub⟩
  · cases hfind : s.ExitInList.find? v with
    | some _ => exact ⟨seen, hseen, hsub⟩
    | none =>
      refine ⟨seen ++ [v], ⟨hseen.marks.insert hfind true, ?_⟩,
        List.append_subset.2 ⟨hsub, by simpa⟩⟩
      rw [List.length_append, List.length_singleton, ← hseen.step_eq]

theorem RankedAmong.rankRound {s s' : RankState}
    (h : RankedAmong (findCutNodes g cutEdges) s)
    (hs : rankRound g (findCutNodes g cutEdges) cutEdges s = Sum.inl s') :
    RankedAmong (findCutNodes g cutEdges) s' := by
  rw [CArchitecture.rankRound] at hs
  split_ifs at hs
  obtain rfl := Sum.inl.inj hs
  refine List.foldlRecOn _ _ h fun t ht e he ↦ ?_
  refine List.foldlRecOn _ _ ht fun u hu v hv ↦ hu.rankNode _ ?_
  exact mem_findCutNodes.2 ⟨e, (mem_rankOrder.1 he).1, hv⟩

/-- When `NodeRank` is done, all nodes have been ranked. -/
theorem RankedAmong.isSome_find? {nodes : List ℕ} {s : RankState} (h : RankedAmong nodes s)
    (hdone : nodes.length ≤ s.step) {v : ℕ} (hv : v ∈ nodes) :
    (s.ExitInList.find? v).isSome := by
  obtain ⟨seen, hseen, hsub⟩ := h
  rw [hseen.step_eq] at hdone
  have hperm := (hseen.marks.nodup.subperm hsub).perm_of_length_le hdone
  exact (hseen.marks.isSome_iff v).2 (hperm.mem_iff.2 hv)

/-- **The ranks of the cut nodes do not depend on what the array held.** -/
theorem nodeRank_rel (g : CMygraph) (cutEdges : List ℕ) (fuel : ℕ) (raw raw' : ℕ → ℤ) :
    Option.Rel (fun Node_Rank Node_Rank' ↦
        ∀ v ∈ findCutNodes g cutEdges, Node_Rank v = Node_Rank' v)
      (nodeRank fuel g (findCutNodes g cutEdges) cutEdges raw)
      (nodeRank fuel g (findCutNodes g cutEdges) cutEdges raw') := by
  have hmap : Loop.run (rankRound g (findCutNodes g cutEdges) cutEdges) fuel
      { Node_Rank := raw' } = (Loop.run (rankRound g (findCutNodes g cutEdges) cutEdges) fuel
        { Node_Rank := raw }).map (RankState.over raw') :=
    Loop.run_map (rankRound_over raw' _) fuel { Node_Rank := raw }
  rw [nodeRank, nodeRank, hmap]
  cases hrun : Loop.run (rankRound g (findCutNodes g cutEdges) cutEdges) fuel
      { Node_Rank := raw } with
  | none => exact Option.Rel.none
  | some s =>
    refine Option.Rel.some fun v hv ↦ ?_
    have hsome := Loop.run_invariant (RankedAmong (findCutNodes g cutEdges))
      (fun t ↦ ∀ v ∈ findCutNodes g cutEdges, (t.ExitInList.find? v).isSome)
      (fun _ _ ↦ RankedAmong.rankRound)
      (fun t t' ht hexit ↦ by
        rw [rankRound] at hexit
        split_ifs at hexit with hstep
        obtain rfl := Sum.inr.inj hexit
        exact fun v ↦ ht.isSome_find? (not_lt.1 hstep))
      ⟨[], ⟨marks_empty, rfl⟩, List.nil_subset _⟩ hrun v hv
    exact (if_pos hsome).symm

end Rank

/-! ### One move -/

/-- The pins of an edge that are on the side that the node leaves, itself included. -/
def ClimbMove.ownPins (g : CMygraph) (m : ClimbMove) (e : ℕ) : ℤ :=
  (g.pAllEdges e).arcs.countP fun v ↦ m.before v = m.before m.node

/-- The tests of the source on a move out of part `0`, in terms of the side that the node leaves: an
edge has all pins there, or only this one. -/
def ClimbMove.RenewsFromZero (g : CMygraph) (cutEdges : List ℕ) (m : ClimbMove) : Prop :=
  ∃ e ∈ cutEdgesAt g cutEdges m.node,
    m.ownPins g e = (g.pAllEdges e).nodeNum ∨ m.ownPins g e = 1

/-- The tests of the source on a move out of part `1`, in the same terms: on the other side an edge
has all pins but this one. -/
def ClimbMove.RenewsFromOne (g : CMygraph) (cutEdges : List ℕ) (m : ClimbMove) : Prop :=
  ∃ e ∈ cutEdgesAt g cutEdges m.node,
    (g.pAllEdges e).arcs.length - m.ownPins g e + 1 = (g.pAllEdges e).nodeNum

instance (g : CMygraph) (cutEdges : List ℕ) (m : ClimbMove) :
    Decidable (m.RenewsFromZero g cutEdges) :=
  inferInstanceAs (Decidable (∃ e ∈ cutEdgesAt g cutEdges m.node, _))

instance (g : CMygraph) (cutEdges : List ℕ) (m : ClimbMove) :
    Decidable (m.RenewsFromOne g cutEdges) :=
  inferInstanceAs (Decidable (∃ e ∈ cutEdgesAt g cutEdges m.node, _))

/-- The move has the candidates evaluated again, or not, whichever part is called `0`. -/
def ClimbMove.Unbiased (g : CMygraph) (cutEdges : List ℕ) (m : ClimbMove) : Prop :=
  m.RenewsFromZero g cutEdges ↔ m.RenewsFromOne g cutEdges

instance (g : CMygraph) (cutEdges : List ℕ) (m : ClimbMove) :
    Decidable (m.Unbiased g cutEdges) :=
  inferInstanceAs (Decidable (_ ↔ _))

/-- A cut edge of the node lies in one part before the move. -/
def ClimbMove.Breaks (g : CMygraph) (cutEdges : List ℕ) (m : ClimbMove) : Prop :=
  ∃ e ∈ cutEdgesAt g cutEdges m.node, edgeIsCut m.before (g.pAllEdges e).arcs = false

/-- A cut edge of the node lies in one part after the move. -/
def ClimbMove.Completes (g : CMygraph) (cutEdges : List ℕ) (m : ClimbMove) : Prop :=
  ∃ e ∈ cutEdgesAt g cutEdges m.node,
    edgeIsCut (flipNode m.before m.node) (g.pAllEdges e).arcs = false

section Move

variable {g : CMygraph} {cutEdges : List ℕ}

/-- A loop that changes each count of a list by the same amount and raises a flag on the counts it
met there: these are the counts from before. -/
theorem foldl_update_or {t : ℤ → ℕ → Bool} (d : ℤ) {f : (ℕ → ℤ) × Bool → ℕ → (ℕ → ℤ) × Bool}
    (hf : ∀ s e, f s e = (Function.update s.1 e (s.1 e + d), s.2 || t (s.1 e) e))
    {edges : List ℕ} (hnd : edges.Nodup) (s : (ℕ → ℤ) × Bool) :
    (edges.foldl f s).2 = true ↔ s.2 = true ∨ ∃ e ∈ edges, t (s.1 e) e = true := by
  induction edges generalizing s with
  | nil => simp
  | cons x edges ih =>
    obtain ⟨hx, hnd⟩ := List.nodup_cons.1 hnd
    have hother : ∀ e, e ≠ x → (f s x).1 e = s.1 e := by
      intro e hne
      rw [hf]
      exact Function.update_of_ne hne _ _
    have hrest : (∃ e ∈ edges, t ((f s x).1 e) e = true) ↔ ∃ e ∈ edges, t (s.1 e) e = true := by
      refine exists_congr fun e ↦ and_congr_right fun he ↦ ?_
      rw [hother e (ne_of_mem_of_not_mem he hx)]
    rw [List.foldl_cons, ih hnd, hrest, hf, Bool.or_eq_true, List.exists_mem_cons_iff, or_assoc]

/-- The cut edges of a node that leaves part `0`. -/
theorem foldl_updateZero_zero {edges : List ℕ} (hnd : edges.Nodup) (s : (ℕ → ℤ) × Bool) :
    (edges.foldl (updateZero g 0) s).2 = true ↔
      s.2 = true ∨ ∃ e ∈ edges, s.1 e = (g.pAllEdges e).nodeNum ∨ s.1 e = 1 := by
  have h := foldl_update_or (f := updateZero g 0)
    (t := fun c e ↦ c == (g.pAllEdges e).nodeNum || c - 1 == 0) (-1)
    (fun s e ↦ by rw [updateZero, if_pos rfl, Bool.or_assoc, sub_eq_add_neg]) hnd s
  simpa [sub_eq_zero] using h

/-- The cut edges of a node that leaves part `1`: only the second test counts. -/
theorem foldl_updateZero_one {edges : List ℕ} (hnd : edges.Nodup) (s : (ℕ → ℤ) × Bool) :
    (edges.foldl (updateZero g 1) s).2 = true ↔
      s.2 = true ∨ ∃ e ∈ edges, s.1 e + 1 = (g.pAllEdges e).nodeNum := by
  have h := foldl_update_or (f := updateZero g 1)
    (t := fun c e ↦ c + 1 == (g.pAllEdges e).nodeNum) 1
    (fun s e ↦ by rw [updateZero, if_neg one_ne_zero, if_pos rfl, beq_false_of_ne one_ne_zero,
      Bool.or_false]) hnd s
  simpa using h

theorem ClimbMove.ownPins_of_zero {m : ClimbMove} (h : m.before m.node = 0) (e : ℕ) :
    m.ownPins g e = zeroPins m.before (g.pAllEdges e).arcs := by
  rw [ClimbMove.ownPins, zeroPins, h]

theorem ClimbMove.ownPins_of_one {m : ClimbMove} {e : ℕ} (h : m.before m.node = 1)
    (hpins : ∀ v ∈ (g.pAllEdges e).arcs, m.before v = 0 ∨ m.before v = 1) :
    m.ownPins g e = (g.pAllEdges e).arcs.length - zeroPins m.before (g.pAllEdges e).arcs := by
  rw [← zeroPins_complement hpins, ClimbMove.ownPins, zeroPins, h]
  refine congrArg Nat.cast (List.countP_congr fun v hv ↦ ?_)
  rw [decide_eq_true_iff, decide_eq_true_iff, complement]
  omega

/-- The node that is about to move, as it is entered in the trace. -/
def nextMove (s : ClimbState) : ClimbMove :=
  { node := (s.pModularityList s.HeapLen).node, before := s.part_res, evaluated := s.evaluated }

/-- What one run keeps: the labels are `0` and `1`, the candidates are cut nodes, and the zero
counts are those of the current labelling. -/
structure Tracked (g : CMygraph) (cutEdges : List ℕ) (s : ClimbState) : Prop where
  isBisection : IsBisection g s.part_res
  heapLen_add : s.HeapLen + s.fixnum = (findCutNodes g cutEdges).length
  node_mem : ∀ i < s.HeapLen, (s.pModularityList i).node ∈ findCutNodes g cutEdges
  zero_eq : ∀ e ∈ cutEdges,
    s.PartZeroNodeCount e = zeroPins s.part_res (g.pAllEdges e).arcs
  stone_lt : ∀ stone ∈ s.hill, stone.isChanged → stone.node.toNat < g.nvetes

variable {s : ClimbState}

theorem ProperEdges.nodup_cutEdgesAt (hcut : ProperEdges g cutEdges) (v : ℕ) :
    (cutEdgesAt g cutEdges v).Nodup :=
  List.nodup_reverse.2 (hcut.nodup.filter _)

/-- Before the loop. -/
theorem tracked_climbInit (hcut : ProperEdges g cutEdges) {part_res : ℕ → ℤ}
    (hpart : IsBisection g part_res) : Tracked g cutEdges (climbInit g part_res
      (findCutNodes g cutEdges) (findZeroNodeCount g cutEdges part_res).1) where
  isBisection := hpart
  heapLen_add := Nat.add_zero _
  node_mem i hi := by
    show (findCutNodes g cutEdges).getD i 0 ∈ _
    rw [List.getD_eq_getElem _ _ hi]
    exact List.getElem_mem hi
  zero_eq := (findZeroNodeCount_spec hcut part_res).1
  stone_lt stone hstone hchanged := by
    rw [climbInit, List.mem_singleton] at hstone
    rw [hstone] at hchanged
    exact absurd hchanged Bool.false_ne_true

theorem Tracked.pickCandidate (h : Tracked g cutEdges s)
    (hlt : s.fixnum < (findCutNodes g cutEdges).length) (Node_Rank : ℕ → ℤ) :
    Tracked g cutEdges (pickCandidate Node_Rank s) ∧
      (nextMove (CArchitecture.pickCandidate Node_Rank s)).node ∈ findCutNodes g cutEdges := by
  have hlen := h.heapLen_add
  have hmoved := rearranges_getMax s.renew (by omega : 0 < s.HeapLen) Node_Rank s.pModularityList
  have hnode : ∀ i < s.HeapLen,
      ((CArchitecture.pickCandidate Node_Rank s).pModularityList i).node ∈
        findCutNodes g cutEdges := by
    intro i hi
    obtain ⟨l, hl, heq⟩ := hmoved.exists_eq hi
    show (getMax s.renew s.HeapLen Node_Rank s.pModularityList i).node ∈ _
    rw [heq]
    exact h.node_mem l hl
  refine ⟨?_, hnode _ (by show s.HeapLen - 1 < s.HeapLen; omega)⟩
  exact {
    isBisection := h.isBisection
    heapLen_add := heapLen_add_pickCandidate hlen hlt Node_Rank
    node_mem := fun i hi ↦ hnode i (hi.trans_le (Nat.sub_le _ _))
    zero_eq := h.zero_eq
    stone_lt := h.stone_lt }

/-- The flag after the cut edges of the node have been passed. -/
theorem Tracked.renew_moveCandidate_iff (h : Tracked g cutEdges s) (hcut : ProperEdges g cutEdges)
    (hnode : (nextMove s).node ∈ findCutNodes g cutEdges) :
    (moveCandidate g (cutEdgesAt g cutEdges) s).renew = true ↔
      if s.part_res (nextMove s).node = 0 then (nextMove s).RenewsFromZero g cutEdges
      else (nextMove s).RenewsFromOne g cutEdges := by
  have hlabel := h.isBisection _ (lt_of_mem_findCutNodes hcut.arcs_lt hnode)
  show ((cutEdgesAt g cutEdges (nextMove s).node).foldl
    (updateZero g (s.part_res (nextMove s).node)) (s.PartZeroNodeCount, false)).2 = true ↔ _
  set v := (nextMove s).node with hv
  have hnd := hcut.nodup_cutEdgesAt v
  rcases hlabel with hzero | hone
  · rw [hzero, foldl_updateZero_zero hnd, if_pos rfl, ClimbMove.RenewsFromZero, ← hv]
    simp only [Bool.false_eq_true, false_or]
    refine exists_congr fun e ↦ and_congr_right fun hmem ↦ ?_
    rw [h.zero_eq e (mem_cutEdgesAt.1 hmem).1, ClimbMove.ownPins_of_zero hzero]
    rfl
  · rw [hone, foldl_updateZero_one hnd, if_neg one_ne_zero, ClimbMove.RenewsFromOne, ← hv]
    simp only [Bool.false_eq_true, false_or]
    refine exists_congr fun e ↦ and_congr_right fun hmem ↦ ?_
    have hedge := (mem_cutEdgesAt.1 hmem).1
    have hown := ClimbMove.ownPins_of_one (m := nextMove s) hone
      fun u hu ↦ h.isBisection u (hcut.arcs_lt e hedge u hu)
    rw [h.zero_eq e hedge, hown]
    show _ ↔ _ - (_ - zeroPins s.part_res (g.pAllEdges e).arcs) + 1 = _
    rw [sub_sub_cancel]

theorem Tracked.moveCandidate (h : Tracked g cutEdges s) (hcut : ProperEdges g cutEdges)
    (hnode : (nextMove s).node ∈ findCutNodes g cutEdges) :
    Tracked g cutEdges (moveCandidate g (cutEdgesAt g cutEdges) s) where
  isBisection := h.isBisection.flipNode _
  heapLen_add := h.heapLen_add
  node_mem i hi := by
    rw [node_moveCandidate]
    exact h.node_mem i hi
  zero_eq := hcut.edgeListAt_eq ▸ CountsZeros.moveCandidate h.zero_eq hcut.nodup
  stone_lt stone hstone hchanged := by
    rcases List.mem_cons.1 hstone with rfl | hstone
    · exact lt_of_mem_findCutNodes hcut.arcs_lt hnode
    · exact h.stone_lt stone hstone hchanged

/-! ### Two runs -/

/-- The two runs are in the same state, with the parts exchanged. -/
structure Mirrored (s s' : ClimbState) : Prop where
  part_eq : s'.part_res = complement s.part_res
  list_eq : s'.pModularityList = s.pModularityList
  heapLen_eq : s'.HeapLen = s.HeapLen
  fixnum_eq : s'.fixnum = s.fixnum
  hill_eq : s'.hill = s.hill
  maxModu_eq : s'.maxModu = s.maxModu
  renew_eq : s'.renew = s.renew

variable {s' : ClimbState}

theorem mirrored_climbInit (part_res : ℕ → ℤ) (cutNodes : List ℕ) (zero zero' : ℕ → ℤ) :
    Mirrored (climbInit g part_res cutNodes zero)
      (climbInit g (complement part_res) cutNodes zero') where
  part_eq := rfl
  list_eq := by
    funext i
    exact congrArg (ModStruct.mk _) (evaluateNode_complement g part_res _)
  heapLen_eq := rfl
  fixnum_eq := rfl
  hill_eq := by rw [climbInit, climbInit, computeModularity_complement]
  maxModu_eq := computeModularity_complement g part_res
  renew_eq := rfl

theorem Mirrored.pickCandidate (h : Mirrored s s') {Node_Rank Node_Rank' : ℕ → ℤ}
    (hranks : SameRanks s.HeapLen s.pModularityList Node_Rank Node_Rank') :
    Mirrored (pickCandidate Node_Rank s) (pickCandidate Node_Rank' s') where
  part_eq := h.part_eq
  list_eq := by
    show getMax s'.renew s'.HeapLen Node_Rank' s'.pModularityList = _
    rw [h.renew_eq, h.heapLen_eq, h.list_eq]
    exact (hranks.getMax_eq s.renew).symm
  heapLen_eq := congrArg (· - 1) h.heapLen_eq
  fixnum_eq := congrArg (· + 1) h.fixnum_eq
  hill_eq := h.hill_eq
  maxModu_eq := h.maxModu_eq
  renew_eq := rfl

theorem Mirrored.node_eq (h : Mirrored s s') : (nextMove s').node = (nextMove s).node := by
  rw [nextMove, nextMove, h.list_eq, h.heapLen_eq]

theorem Mirrored.ownPins_eq (h : Mirrored s s') (e : ℕ) :
    (nextMove s').ownPins g e = (nextMove s).ownPins g e := by
  have hbefore : ∀ v, (nextMove s').before v = 1 - (nextMove s).before v := congrFun h.part_eq
  rw [ClimbMove.ownPins, ClimbMove.ownPins, h.node_eq]
  refine congrArg Nat.cast (List.countP_congr fun v _ ↦ ?_)
  rw [decide_eq_true_iff, decide_eq_true_iff, hbefore, hbefore]
  omega

/-- The flag in both runs, in terms of the move. -/
theorem Mirrored.renew_eq_iff (h : Mirrored s s') (hs : Tracked g cutEdges s)
    (hs' : Tracked g cutEdges s') (hcut : ProperEdges g cutEdges)
    (hnode : (nextMove s).node ∈ findCutNodes g cutEdges) :
    (moveCandidate g (cutEdgesAt g cutEdges) s').renew =
        (moveCandidate g (cutEdgesAt g cutEdges) s).renew ↔
      (nextMove s).Unbiased g cutEdges := by
  have hzero : (nextMove s').RenewsFromZero g cutEdges ↔
      (nextMove s).RenewsFromZero g cutEdges := by
    simp only [ClimbMove.RenewsFromZero, h.node_eq, h.ownPins_eq]
  have hone : (nextMove s').RenewsFromOne g cutEdges ↔ (nextMove s).RenewsFromOne g cutEdges := by
    simp only [ClimbMove.RenewsFromOne, h.node_eq, h.ownPins_eq]
  have hflag := hs.renew_moveCandidate_iff hcut hnode
  have hflag' := hs'.renew_moveCandidate_iff hcut (h.node_eq.symm ▸ hnode)
  have hlabel' : s'.part_res (nextMove s').node = 1 - s.part_res (nextMove s).node := by
    rw [h.part_eq, h.node_eq]
    rfl
  rw [hlabel', hzero, hone] at hflag'
  rw [Bool.eq_iff_iff, hflag, hflag', ClimbMove.Unbiased]
  -- the two runs are in different branches
  rcases hs.isBisection _ (lt_of_mem_findCutNodes hcut.arcs_lt hnode) with hlabel | hlabel
  · rw [hlabel, if_neg (by decide), if_pos rfl]
    exact Iff.comm
  · rw [hlabel, if_pos (by decide), if_neg one_ne_zero]

/-- **One move of both runs.** They stay mirrored exactly if the move is unbiased. -/
theorem Mirrored.moveCandidate_iff (h : Mirrored s s') (hs : Tracked g cutEdges s)
    (hs' : Tracked g cutEdges s') (hcut : ProperEdges g cutEdges)
    (hnode : (nextMove s).node ∈ findCutNodes g cutEdges) :
    Mirrored (moveCandidate g (cutEdgesAt g cutEdges) s)
        (moveCandidate g (cutEdgesAt g cutEdges) s') ↔ (nextMove s).Unbiased g cutEdges := by
  rw [← h.renew_eq_iff hs hs' hcut hnode]
  refine ⟨Mirrored.renew_eq, fun hrenew ↦ ?_⟩
  have hpart : (moveCandidate g (cutEdgesAt g cutEdges) s').part_res =
      complement (moveCandidate g (cutEdgesAt g cutEdges) s).part_res := by
    show flipNode s'.part_res (nextMove s').node =
      complement (flipNode s.part_res (nextMove s).node)
    rw [h.part_eq, h.node_eq]
    exact flipNode_complement (hs.isBisection _ (lt_of_mem_findCutNodes hcut.arcs_lt hnode))
  have hbest : s'.pModularityList s'.HeapLen = s.pModularityList s.HeapLen := by
    rw [h.list_eq, h.heapLen_eq]
  exact {
    part_eq := hpart
    list_eq := by
      show (if (moveCandidate g (cutEdgesAt g cutEdges) s').renew then evaluateAll g
          (moveCandidate g (cutEdgesAt g cutEdges) s').part_res s'.HeapLen s'.pModularityList
        else s'.pModularityList) = if (moveCandidate g (cutEdgesAt g cutEdges) s).renew then
          evaluateAll g (moveCandidate g (cutEdgesAt g cutEdges) s).part_res s.HeapLen
            s.pModularityList
        else s.pModularityList
      rw [hrenew, hpart, h.heapLen_eq, h.list_eq, evaluateAll_complement]
    heapLen_eq := h.heapLen_eq
    fixnum_eq := h.fixnum_eq
    hill_eq := by
      show Stone.mk _ _ _ :: s'.hill = Stone.mk _ _ _ :: s.hill
      rw [hbest, h.hill_eq]
    maxModu_eq := by
      show (if (s'.pModularityList s'.HeapLen).dMod > s'.maxModu then _ else s'.maxModu) = _
      rw [hbest, h.maxModu_eq]
      rfl
    renew_eq := hrenew }

/-- Rolling back the same stones. -/
theorem rollBack_complement (maxModu : ℚ) {hill : List Stone} {part_res : ℕ → ℤ}
    (hpart : IsBisection g part_res)
    (hstone : ∀ stone ∈ hill, stone.isChanged → stone.node.toNat < g.nvetes) :
    rollBack maxModu hill (complement part_res) = complement (rollBack maxModu hill part_res) := by
  induction hill generalizing part_res with
  | nil => rfl
  | cons stone hill ih =>
    have hrest := fun t ht ↦ hstone t (List.mem_cons_of_mem stone ht)
    rw [rollBack, rollBack]
    by_cases hbest : stone.curModu = maxModu
    · rw [if_pos hbest, if_pos hbest]
    · rw [if_neg hbest, if_neg hbest]
      by_cases hchanged : stone.isChanged = true
      · rw [if_pos hchanged, if_pos hchanged]
        have hflip : Function.update (complement part_res) stone.node.toNat
            (if complement part_res stone.node.toNat = 0 then 1 else 0) =
              complement (Function.update part_res stone.node.toNat
                (if part_res stone.node.toNat = 0 then 1 else 0)) := by
          rw [complement_update]
          rcases hpart _ (hstone stone List.mem_cons_self hchanged) with h₀ | h₁
          · simp [complement, h₀]
          · simp [complement, h₁]
        rw [hflip]
        exact ih (hpart.update _ (by split_ifs <;> simp)) hrest
      · rw [if_neg hchanged, if_neg hchanged]
        exact ih hpart hrest

/-! ### Whole runs -/

section Rounds

variable {total : ℕ} {Node_Rank : ℕ → ℤ} {pCutNodes : ℕ → List ℕ}

theorem subset_trace_climb (k : ℕ) (s : ClimbState) :
    s.trace ⊆ (climb g total Node_Rank pCutNodes k s).trace := by
  refine climb_invariant (fun t ↦ s.trace ⊆ t.trace) (fun t ht _ _ ↦ ht) (fun t ht _ _ ↦ ?_)
    (List.Subset.refl _) k
  exact List.Subset.trans ht (List.subset_cons_self _ t.trace)

end Rounds

theorem Tracked.sameRanks (h : Tracked g cutEdges s) {Node_Rank Node_Rank' : ℕ → ℤ}
    (hranks : ∀ v ∈ findCutNodes g cutEdges, Node_Rank v = Node_Rank' v) :
    SameRanks s.HeapLen s.pModularityList Node_Rank Node_Rank' :=
  fun i hi ↦ hranks _ (h.node_mem i hi)

/-- **Every run of the loop.** The runs are mirrored after any number of rounds exactly if all moves
are unbiased. -/
theorem mirrored_climb_iff (hcut : ProperEdges g cutEdges) {Node_Rank Node_Rank' : ℕ → ℤ}
    (hranks : ∀ v ∈ findCutNodes g cutEdges, Node_Rank v = Node_Rank' v) (k : ℕ)
    (h : Mirrored s s') (hs : Tracked g cutEdges s) (hs' : Tracked g cutEdges s')
    (htrace : ∀ m ∈ s.trace, m.Unbiased g cutEdges) :
    (∀ j ≤ k, Mirrored
      (climb g (findCutNodes g cutEdges).length Node_Rank (cutEdgesAt g cutEdges) j s)
      (climb g (findCutNodes g cutEdges).length Node_Rank' (cutEdgesAt g cutEdges) j s')) ↔
    ∀ m ∈ (climb g (findCutNodes g cutEdges).length Node_Rank (cutEdgesAt g cutEdges) k s).trace,
      m.Unbiased g cutEdges := by
  induction k generalizing s s' with
  | zero => exact ⟨fun _ ↦ htrace, fun _ j hj ↦ by rwa [Nat.le_zero.1 hj]⟩
  | succ k ih =>
    rcases lt_or_ge s.fixnum (findCutNodes g cutEdges).length with hlt | hle
    · have hlt' := h.fixnum_eq.trans_lt hlt
      obtain ⟨hpick, hnode⟩ := hs.pickCandidate hlt Node_Rank
      obtain ⟨hpick', hnode'⟩ := hs'.pickCandidate hlt' Node_Rank'
      have hmirror := h.pickCandidate (hs.sameRanks hranks)
      by_cases hlast : (pickCandidate Node_Rank s).HeapLen = 0
      · have hlast' := hmirror.heapLen_eq.trans hlast
        rw [climb_of_last k hlt hlast]
        refine ⟨fun _ ↦ htrace, fun _ j _ ↦ ?_⟩
        cases j with
        | zero => exact h
        | succ j =>
          rw [climb_of_last j hlt hlast, climb_of_last j hlt' hlast']
          exact hmirror
      · have hlast' : (pickCandidate Node_Rank' s').HeapLen ≠ 0 := hmirror.heapLen_eq.trans_ne hlast
        have hmove := hmirror.moveCandidate_iff hpick hpick' hcut hnode
        rw [climb_of_move k hlt hlast]
        by_cases hunbiased : (nextMove (pickCandidate Node_Rank s)).Unbiased g cutEdges
        · -- the move keeps the runs mirrored, and the rest is the induction hypothesis
          rw [← ih (hmove.2 hunbiased) (hpick.moveCandidate hcut hnode)
            (hpick'.moveCandidate hcut hnode') (List.forall_mem_cons.2 ⟨hunbiased, htrace⟩)]
          refine ⟨fun hall j hj ↦ ?_, fun hall j hj ↦ ?_⟩
          · have hnext := hall (j + 1) (by omega)
            rwa [climb_of_move j hlt hlast, climb_of_move j hlt' hlast'] at hnext
          · cases j with
            | zero => exact h
            | succ j =>
              rw [climb_of_move j hlt hlast, climb_of_move j hlt' hlast']
              exact hall j (by omega)
        · -- the runs part at this move, which stays in the trace
          refine iff_of_false (fun hall ↦ hunbiased (hmove.1 ?_)) fun hall ↦ hunbiased ?_
          · have hnext := hall 1 (by omega)
            rwa [climb_of_move 0 hlt hlast, climb_of_move 0 hlt' hlast'] at hnext
          · exact hall _ (subset_trace_climb k _ List.mem_cons_self)
    · rw [climb_of_le _ hle]
      refine ⟨fun _ ↦ htrace, fun _ j _ ↦ ?_⟩
      rw [climb_of_le _ hle, climb_of_le _ (h.fixnum_eq.symm ▸ hle)]
      exact h

theorem Tracked.climb (h : Tracked g cutEdges s) (hcut : ProperEdges g cutEdges)
    (Node_Rank : ℕ → ℤ) (k : ℕ) : Tracked g cutEdges
      (climb g (findCutNodes g cutEdges).length Node_Rank (cutEdgesAt g cutEdges) k s) := by
  refine climb_invariant (Tracked g cutEdges) (fun t ht hlt _ ↦ ?_) (fun t ht hlt _ ↦ ?_) h k
  · exact (ht.pickCandidate hlt Node_Rank).1
  · obtain ⟨hpick, hnode⟩ := ht.pickCandidate hlt Node_Rank
    exact hpick.moveCandidate hcut hnode

end Move

theorem Chained.isBisection_before {g : CMygraph} {part₀ : ℕ → ℤ} {moves : List ClimbMove}
    (h : Chained g part₀ moves) : ∀ m ∈ moves, IsBisection g m.before := by
  induction h with
  | nil => simp
  | cons _ _ _ hbis _ ih => exact List.forall_mem_cons.2 ⟨hbis, ih⟩

/-! ### Unit weights

Where the vertices weigh nothing but one each, `nodeNum` is the number of pins, and a move is biased
exactly if it breaks a whole edge and completes none.
-/

section Unit

variable {g : CMygraph} {cutEdges : List ℕ} {m : ClimbMove}

theorem edgeIsCut_eq_false_iff {part_res : ℕ → ℤ} {arcs : List ℕ} {v : ℕ} (hv : v ∈ arcs) :
    edgeIsCut part_res arcs = false ↔ ∀ u ∈ arcs, part_res u = part_res v := by
  cases arcs with
  | nil => exact absurd hv List.not_mem_nil
  | cons x arcs =>
    have hhead : edgeIsCut part_res (x :: arcs) = false ↔
        ∀ u ∈ x :: arcs, part_res u = part_res x := by
      simp [edgeIsCut]
    rw [hhead]
    constructor
    · intro h u hu
      rw [h u hu, h v hv]
    · intro h u hu
      rw [h u hu, h x List.mem_cons_self]

theorem ClimbMove.ownPins_eq_length_iff {e : ℕ} (hm : m.node ∈ (g.pAllEdges e).arcs) :
    m.ownPins g e = (g.pAllEdges e).arcs.length ↔
      edgeIsCut m.before (g.pAllEdges e).arcs = false := by
  rw [edgeIsCut_eq_false_iff hm, ClimbMove.ownPins, Nat.cast_inj, List.countP_eq_length]
  simp only [decide_eq_true_iff]

theorem ClimbMove.ownPins_eq_one_iff {e : ℕ} (hm : m.node ∈ (g.pAllEdges e).arcs)
    (hnd : (g.pAllEdges e).arcs.Nodup)
    (hpins : ∀ v ∈ (g.pAllEdges e).arcs, m.before v = 0 ∨ m.before v = 1) :
    m.ownPins g e = 1 ↔
      edgeIsCut (flipNode m.before m.node) (g.pAllEdges e).arcs = false := by
  have hperm := List.perm_cons_erase hm
  -- the node itself is counted, so no other pin is
  have hown : m.ownPins g e = ((g.pAllEdges e).arcs.erase m.node).countP
      (fun v ↦ m.before v = m.before m.node) + 1 := by
    rw [ClimbMove.ownPins, hperm.countP_eq, List.countP_cons]
    simp
  rw [hown, edgeIsCut_eq_false_iff hm]
  have hother : ∀ u ∈ (g.pAllEdges e).arcs, u ≠ m.node →
      (m.before u ≠ m.before m.node ↔
        flipNode m.before m.node u = flipNode m.before m.node m.node) := by
    intro u hu hne
    rw [flipNode, Function.update_self, Function.update_of_ne hne]
    rcases hpins u hu with h | h <;> rcases hpins _ hm with h' | h' <;> simp [h, h']
  simp only [add_eq_right, Nat.cast_eq_zero, List.countP_eq_zero, decide_eq_true_iff,
    hnd.mem_erase_iff]
  constructor
  · intro h u hu
    rcases eq_or_ne u m.node with rfl | hne
    · rfl
    · exact (hother u hu hne).1 (h u ⟨hne, hu⟩)
  · intro h u hu
    exact (hother u hu.2 hu.1).2 (h u hu.2)

/-- With unit weights the tests on a move out of part `0` find the edges that it breaks or
completes. -/
theorem ClimbMove.renewsFromZero_iff (hcut : ProperEdges g cutEdges) (hm : IsBisection g m.before)
    (hunit : ∀ e ∈ cutEdges, (g.pAllEdges e).nodeNum = (g.pAllEdges e).arcs.length) :
    m.RenewsFromZero g cutEdges ↔ m.Breaks g cutEdges ∨ m.Completes g cutEdges := by
  rw [ClimbMove.RenewsFromZero, ClimbMove.Breaks, ClimbMove.Completes, ← exists_or]
  refine exists_congr fun e ↦ ?_
  rw [← and_or_left]
  refine and_congr_right fun he ↦ ?_
  obtain ⟨he, hme⟩ := mem_cutEdgesAt.1 he
  rw [hunit e he, ClimbMove.ownPins_eq_length_iff hme,
    ClimbMove.ownPins_eq_one_iff hme (hcut.arcs_nodup e he)
      fun v hv ↦ hm v (hcut.arcs_lt e he v hv)]

/-- With unit weights the test on a move out of part `1` finds the edges that it completes. -/
theorem ClimbMove.renewsFromOne_iff (hcut : ProperEdges g cutEdges) (hm : IsBisection g m.before)
    (hunit : ∀ e ∈ cutEdges, (g.pAllEdges e).nodeNum = (g.pAllEdges e).arcs.length) :
    m.RenewsFromOne g cutEdges ↔ m.Completes g cutEdges := by
  refine exists_congr fun e ↦ and_congr_right fun he ↦ ?_
  obtain ⟨he, hme⟩ := mem_cutEdgesAt.1 he
  rw [← ClimbMove.ownPins_eq_one_iff hme (hcut.arcs_nodup e he)
    fun v hv ↦ hm v (hcut.arcs_lt e he v hv), hunit e he]
  omega

/-- With unit weights a move is unbiased if it completes an edge whenever it breaks one. -/
theorem ClimbMove.unbiased_iff (hcut : ProperEdges g cutEdges) (hm : IsBisection g m.before)
    (hunit : ∀ e ∈ cutEdges, (g.pAllEdges e).nodeNum = (g.pAllEdges e).arcs.length) :
    m.Unbiased g cutEdges ↔ (m.Breaks g cutEdges → m.Completes g cutEdges) := by
  rw [ClimbMove.Unbiased, ClimbMove.renewsFromZero_iff hcut hm hunit,
    ClimbMove.renewsFromOne_iff hcut hm hunit]
  tauto

end Unit

/-! ### The two runs of `myFM` -/

section Runs

variable {g : CMygraph} {part_res : ℕ → ℤ}

theorem myFM_eq_map (fuel : ℕ) (raw : ℕ → ℤ) :
    myFM fuel g raw part_res = (stateOfFM fuel g raw part_res iDistance).map
      fun s ↦ (s.maxModu, rollBack s.maxModu s.hill s.part_res) := by
  rw [myFM, stateOfFM]
  cases nodeRank fuel g (findCutNodes g (findCutEdges g part_res)) (findCutEdges g part_res)
    raw with
  | none => rfl
  | some _ => rfl

theorem movesOfFM_eq_map (fuel : ℕ) (raw : ℕ → ℤ) :
    movesOfFM fuel g raw part_res = (stateOfFM fuel g raw part_res iDistance).map
      ClimbState.trace := by
  rw [movesOfFM, stateOfFM]
  cases nodeRank fuel g (findCutNodes g (findCutEdges g part_res)) (findCutEdges g part_res)
    raw with
  | none => rfl
  | some _ => rfl

theorem tracked_of_stateOfFM (hcut : ProperEdges g (findCutEdges g part_res))
    (hpart : IsBisection g part_res) {fuel : ℕ} {raw : ℕ → ℤ} {k : ℕ} {s : ClimbState}
    (hs : stateOfFM fuel g raw part_res k = some s) : Tracked g (findCutEdges g part_res) s := by
  rw [stateOfFM] at hs
  obtain ⟨Node_Rank, -, hs⟩ := Option.bind_eq_some_iff.1 hs
  obtain rfl := Option.some.inj hs
  rw [(findZeroNodeCount_spec hcut part_res).2]
  exact (tracked_climbInit hcut hpart).climb hcut Node_Rank k

/-- The moves of a run start from labellings with two parts. -/
theorem isBisection_before (hcut : ProperEdges g (findCutEdges g part_res))
    (hpart : IsBisection g part_res) {fuel : ℕ} {raw : ℕ → ℤ} {moves : List ClimbMove}
    (hmoves : movesOfFM fuel g raw part_res = some moves) :
    ∀ m ∈ moves, IsBisection g m.before := by
  rw [movesOfFM] at hmoves
  obtain ⟨Node_Rank, -, hmoves⟩ := Option.bind_eq_some_iff.1 hmoves
  obtain rfl := Option.some.inj hmoves
  have hclimbed := (climbed_climbInit hpart (fun v hv ↦ lt_of_mem_findCutNodes hcut.arcs_lt hv)
    (findZeroNodeCount g (findCutEdges g part_res) part_res).1).climb Node_Rank
    (findZeroNodeCount g (findCutEdges g part_res) part_res).2 iDistance
  exact hclimbed.chained.isBisection_before

/-- **The states of both runs.** -/
theorem stateOfFM_complement_iff (hcut : ProperEdges g (findCutEdges g part_res))
    (hpart : IsBisection g part_res) (fuel : ℕ) (raw raw' : ℕ → ℤ) :
    (∀ k ≤ iDistance, Option.Rel Mirrored (stateOfFM fuel g raw part_res k)
      (stateOfFM fuel g raw' (complement part_res) k)) ↔
    ∀ moves ∈ movesOfFM fuel g raw part_res, ∀ m ∈ moves,
      m.Unbiased g (findCutEdges g part_res) := by
  have hinit := tracked_climbInit hcut hpart
  have hinit' := tracked_climbInit hcut hpart.complement
  have hmirror := mirrored_climbInit (g := g) part_res
    (findCutNodes g (findCutEdges g part_res))
    (findZeroNodeCount g (findCutEdges g part_res) part_res).1
    (findZeroNodeCount g (findCutEdges g part_res) (complement part_res)).1
  have hrel := nodeRank_rel g (findCutEdges g part_res) fuel raw raw'
  rw [movesOfFM_eq_map]
  simp only [stateOfFM, findCutEdges_complement, (findZeroNodeCount_spec hcut _).2]
  generalize nodeRank fuel g (findCutNodes g (findCutEdges g part_res)) (findCutEdges g part_res)
    raw = o, nodeRank fuel g (findCutNodes g (findCutEdges g part_res)) (findCutEdges g part_res)
    raw' = o' at hrel ⊢
  cases hrel with
  | none => exact ⟨fun _ _ hmoves ↦ absurd hmoves (by simp), fun _ _ _ ↦ Option.Rel.none⟩
  | @some Node_Rank Node_Rank' hranks =>
    have h := mirrored_climb_iff hcut hranks iDistance hmirror hinit hinit' (by simp [climbInit])
    simp only [Option.bind_eq_bind, Option.bind_some, Option.pure_def, Option.map_some,
      Option.mem_some_iff, forall_eq', Option.rel_some_some]
    exact h

/-- **The results of both runs.** -/
theorem myFM_complement_eq (hcut : ProperEdges g (findCutEdges g part_res))
    (hpart : IsBisection g part_res) {fuel : ℕ} {raw : ℕ → ℤ} (raw' : ℕ → ℤ)
    (hmoves : ∀ moves ∈ movesOfFM fuel g raw part_res, ∀ m ∈ moves,
      m.Unbiased g (findCutEdges g part_res)) :
    myFM fuel g raw' (complement part_res) =
      (myFM fuel g raw part_res).map fun r ↦ (r.1, complement r.2) := by
  have hrel := (stateOfFM_complement_iff hcut hpart fuel raw raw').2 hmoves iDistance le_rfl
  have htracked : ∀ s ∈ stateOfFM fuel g raw part_res iDistance,
      Tracked g (findCutEdges g part_res) s := fun s hs ↦ tracked_of_stateOfFM hcut hpart hs
  rw [myFM_eq_map, myFM_eq_map]
  generalize stateOfFM fuel g raw part_res iDistance = o,
    stateOfFM fuel g raw' (complement part_res) iDistance = o' at hrel htracked ⊢
  cases hrel with
  | none => rfl
  | @some s s' h =>
    have hs := htracked s rfl
    simp only [Option.map_some, Option.some_inj, Prod.mk.injEq]
    rw [h.maxModu_eq, h.hill_eq, h.part_eq]
    exact ⟨rfl, rollBack_complement s.maxModu hs.isBisection hs.stone_lt⟩

end Runs

section Represents

variable {g : CMygraph} {p : CHypergraph} (hrep : g.Represents p) (hw : p.WellFormed)
include hrep hw

theorem arcs_nodup_of_wellFormed {e : ℕ} (he : e < g.nhedges) : (g.pAllEdges e).arcs.Nodup := by
  have hlt := hrep.nhedges_eq ▸ he
  rw [hrep.edge_arcs e hlt, List.nodup_reverse]
  exact hw.pins_nodup e hlt

/-- The cut edges of a labelling of a well-formed hypergraph. -/
theorem properEdges_findCutEdges (part_res : ℕ → ℤ) : ProperEdges g (findCutEdges g part_res) where
  nodup := List.nodup_range.filter _
  arcs_nodup _ he := arcs_nodup_of_wellFormed hrep hw (lt_of_mem_findCutEdges he)
  arcs_lt e he := hrep.arcs_lt hw.pins_lt e (lt_of_mem_findCutEdges he)

/-- With unit weights the weight of an edge is the number of its pins. -/
theorem nodeNum_eq_length (hunit : ∀ v < p.nvtxs, p.vwgts v = 1) {e : ℕ} (he : e < g.nhedges) :
    (g.pAllEdges e).nodeNum = (g.pAllEdges e).arcs.length := by
  have hlt := hrep.nhedges_eq ▸ he
  rw [hrep.edge_nodeNum e hlt, hrep.edge_arcs e hlt, List.length_reverse,
    List.map_congr_left fun v hv ↦ hunit v (hw.pins_lt e hlt v hv)]
  simp

end Represents

/-- **Refining the complement**, whatever the weights are. `myFM` returns; the climb on the
complement is in the same states, with the parts exchanged, exactly if every move is unbiased; and
then it returns the same value and leaves the complement. With unit weights a move is unbiased
exactly if it completes an edge whenever it breaks one. -/
theorem myFM_complement {p : CHypergraph} (hw : p.WellFormed) {part_res : ℕ → ℤ}
    (hpart : ∀ v < p.nvtxs, part_res v = 0 ∨ part_res v = 1) (fuel : ℕ) (raw raw' : ℕ → ℤ) :
    (2 ≤ fuel → (∀ v < p.nvtxs, 0 ≤ p.vwgts v) →
      (myFM fuel (CMygraph.ofHypergraph p) raw part_res).isSome) ∧
    ((∀ moves ∈ movesOfFM fuel (CMygraph.ofHypergraph p) raw part_res, ∀ m ∈ moves,
        m.Unbiased (CMygraph.ofHypergraph p) (findCutEdges (CMygraph.ofHypergraph p) part_res)) →
      myFM fuel (CMygraph.ofHypergraph p) raw' (complement part_res) =
        (myFM fuel (CMygraph.ofHypergraph p) raw part_res).map fun r ↦ (r.1, complement r.2)) ∧
    ((∀ k ≤ iDistance, Option.Rel Mirrored
        (stateOfFM fuel (CMygraph.ofHypergraph p) raw part_res k)
        (stateOfFM fuel (CMygraph.ofHypergraph p) raw' (complement part_res) k)) ↔
      ∀ moves ∈ movesOfFM fuel (CMygraph.ofHypergraph p) raw part_res, ∀ m ∈ moves,
        m.Unbiased (CMygraph.ofHypergraph p) (findCutEdges (CMygraph.ofHypergraph p) part_res)) ∧
    ((∀ v < p.nvtxs, p.vwgts v = 1) →
      ∀ moves ∈ movesOfFM fuel (CMygraph.ofHypergraph p) raw part_res, ∀ m ∈ moves,
        (m.Unbiased (CMygraph.ofHypergraph p) (findCutEdges (CMygraph.ofHypergraph p) part_res) ↔
          (m.Breaks (CMygraph.ofHypergraph p)
              (findCutEdges (CMygraph.ofHypergraph p) part_res) →
            m.Completes (CMygraph.ofHypergraph p)
              (findCutEdges (CMygraph.ofHypergraph p) part_res)))) := by
  have hrep := CMygraph.represents_ofHypergraph p
  generalize CMygraph.ofHypergraph p = g at hrep ⊢
  have hcut := properEdges_findCutEdges hrep hw part_res
  have hbis : IsBisection g part_res := fun v hv ↦ hpart v (hrep.nvetes_eq ▸ hv)
  refine ⟨fun hfuel hvwgts ↦ ?_, myFM_complement_eq hcut hbis raw',
    stateOfFM_complement_iff hcut hbis fuel raw raw', fun hunit moves hmoves m hm ↦ ?_⟩
  · obtain ⟨r, -, hr, -⟩ := exists_myFM hfuel (hrep.arcs_lt hw.pins_lt)
      (hrep.nodeNum_nonneg hw.pins_lt hvwgts) hbis raw
    rw [hr]
    rfl
  · exact ClimbMove.unbiased_iff hcut (isBisection_before hcut hbis hmoves m hm)
      fun _ he ↦ nodeNum_eq_length hrep hw hunit (lt_of_mem_findCutEdges he)

/-- A chain, with one of its inner vertices on the other side. The second move takes this vertex out
of an edge that the first one has made whole, and makes another edge whole. -/
def sampleChain : CHypergraph := CHypergraph.ofRows 4 [[2, 3], [1, 0], [2, 1]]

/-- The labelling that the climb on the chain starts from. -/
def chainSides : ℕ → ℤ := fun v ↦ if v = 1 then 1 else 0

theorem myFM_complement_sampleChain :
    (sampleChain.WellFormed ∧ (∀ v < sampleChain.nvtxs, chainSides v = 0 ∨ chainSides v = 1) ∧
      (∀ v < sampleChain.nvtxs, 0 ≤ sampleChain.vwgts v) ∧
      ∀ moves ∈ movesOfFM 2 (CMygraph.ofHypergraph sampleChain) (fun _ ↦ 0) chainSides,
        ∀ m ∈ moves, m.Unbiased (CMygraph.ofHypergraph sampleChain)
          (findCutEdges (CMygraph.ofHypergraph sampleChain) chainSides)) ∧
    (myFM 2 (CMygraph.ofHypergraph sampleChain) (fun _ ↦ 0) chainSides).isSome ∧
    myFM 2 (CMygraph.ofHypergraph sampleChain) (fun _ ↦ -1) (complement chainSides) =
      (myFM 2 (CMygraph.ofHypergraph sampleChain) (fun _ ↦ 0) chainSides).map
        fun r ↦ (r.1, complement r.2) := by
  have hw : sampleChain.WellFormed := by decide
  have hpart : ∀ v < sampleChain.nvtxs, chainSides v = 0 ∨ chainSides v = 1 := by decide
  have hvwgts : ∀ v < sampleChain.nvtxs, 0 ≤ sampleChain.vwgts v := by decide
  have hmoves : ∀ moves ∈ movesOfFM 2 (CMygraph.ofHypergraph sampleChain) (fun _ ↦ 0) chainSides,
      ∀ m ∈ moves, m.Unbiased (CMygraph.ofHypergraph sampleChain)
        (findCutEdges (CMygraph.ofHypergraph sampleChain) chainSides) := by
    decide +kernel
  have h := myFM_complement hw hpart 2 (fun _ ↦ 0) fun _ ↦ -1
  exact ⟨⟨hw, hpart, hvwgts, hmoves⟩, h.1 le_rfl hvwgts, h.2.1 hmoves⟩

/-- Two edges that share a vertex, and a third one inside the second. -/
def sampleNested : CHypergraph := CHypergraph.ofRows 5 [[2, 4], [3, 1, 0], [4, 1, 2]]

/-- One vertex of each of the larger edges is on the other side. -/
def nestedSides : ℕ → ℤ := fun v ↦ if v = 0 ∨ v = 2 then 1 else 0

/-- After the first move the second edge and the one inside it are whole. Both runs then take the
shared vertex out of it, but only the run in which this is a move out of part `0` evaluates the
candidates again. -/
theorem myFM_sampleNested_not_complement :
    sampleNested.WellFormed ∧ (∀ v < sampleNested.nvtxs, sampleNested.vwgts v = 1) ∧
    (∀ v < sampleNested.nvtxs, nestedSides v = 0 ∨ nestedSides v = 1) ∧
    (myFM 2 (CMygraph.ofHypergraph sampleNested) (fun _ ↦ 0) nestedSides).map
      (fun r ↦ (r.1, (List.range 5).map r.2)) = some (1 / 9, [1, 1, 0, 1, 0]) ∧
    (myFM 2 (CMygraph.ofHypergraph sampleNested) (fun _ ↦ 0) (complement nestedSides)).map
      (fun r ↦ (r.1, (List.range 5).map r.2)) = some (-1000, [1, 0, 1, 0, 1]) ∧
    ¬ ∃ r r', myFM 2 (CMygraph.ofHypergraph sampleNested) (fun _ ↦ 0) nestedSides = some r ∧
      myFM 2 (CMygraph.ofHypergraph sampleNested) (fun _ ↦ 0) (complement nestedSides) = some r' ∧
      r'.1 = r.1 ∧ ∀ v < sampleNested.nvtxs, r'.2 v = 1 - r.2 v := by
  have hrun : (myFM 2 (CMygraph.ofHypergraph sampleNested) (fun _ ↦ 0) nestedSides).map
      (fun r ↦ (r.1, (List.range 5).map r.2)) = some (1 / 9, [1, 1, 0, 1, 0]) := by
    decide +kernel
  have hrun' : (myFM 2 (CMygraph.ofHypergraph sampleNested) (fun _ ↦ 0)
      (complement nestedSides)).map (fun r ↦ (r.1, (List.range 5).map r.2)) =
        some (-1000, [1, 0, 1, 0, 1]) := by
    decide +kernel
  refine ⟨by decide, by decide, by decide, hrun, hrun', ?_⟩
  rintro ⟨r, r', hr, hr', hvalue, -⟩
  rw [hr, Option.map_some, Option.some_inj] at hrun
  rw [hr', Option.map_some, Option.some_inj] at hrun'
  have h := congrArg Prod.fst hrun
  have h' := congrArg Prod.fst hrun'
  simp only at h h'
  rw [hvalue, h] at h'
  exact absurd h' (by norm_num)

end CArchitecture
