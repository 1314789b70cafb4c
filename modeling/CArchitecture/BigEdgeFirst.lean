import CArchitecture.HillClimbing

/-!
# Moving the nodes of big edges first

`HillClimbingBigEdgeFirst` chooses its moves before it makes any: the first twenty cut nodes in the
order in which `NodeRank` would rank them. It then moves them one after another, with a stone for
the value of each labelling, and pops stones to get back to the best one.

Unlike `HillClimbing`, it undoes the move of a stone **before** it looks at the value of the stone.
So what it returns to is the labelling one move before the last best one
(`exists_last_popStones`), unless that is the labelling it was given, whose stone has no move. Its
value is the best one only if the two labellings are equally good
(`hillClimbingBigEdgeFirst_keepsBest_iff`).
-/

namespace CArchitecture

open FirstSeen

/-! ### The source -/

/-- The variables of the loop that lists the nodes. -/
structure ListState where
  NodesList : List ℕ := []
  step : ℕ := 0
  ExitInList : OrdMap ℕ Bool := ∅

/-- One node: it is listed unless it is already. After `iDistance` nodes, or all cut nodes, the
loops are left. -/
def listNode (total : ℕ) (s : ListState) (v : ℕ) : ListState :=
  if s.step ≥ iDistance ∨ s.step ≥ total then s
  else
    match s.ExitInList.find? v with
    | some _ => s
    | none =>
      { NodesList := s.NodesList ++ [v]
        step := s.step + 1
        ExitInList := s.ExitInList.insert v true }

/-- One round of the loop that lists the nodes. The edges are filed as in `NodeRank`. -/
def listRound (g : CMygraph) (cutNodes cutEdges : List ℕ) (s : ListState) : ListState ⊕ ListState :=
  if s.step < iDistance ∧ s.step < cutNodes.length then
    Sum.inl ((rankOrder g cutEdges).foldl
      (fun s e ↦ (g.pAllEdges e).arcs.foldl (listNode cutNodes.length) s) s)
  else Sum.inr s

/-- The queue of the nodes that will be moved. -/
def nodesList (fuel : ℕ) (g : CMygraph) (cutNodes cutEdges : List ℕ) : Option (List ℕ) :=
  (Loop.run (listRound g cutNodes cutEdges) fuel {}).map ListState.NodesList

/-- A labelling with one node on the other side. -/
def toggle (part_res : ℕ → ℤ) (v : ℕ) : ℕ → ℤ :=
  Function.update part_res v (if part_res v = 0 then 1 else 0)

/-- The variables of the loop that moves the nodes. -/
structure MoveState where
  part_res : ℕ → ℤ
  /-- The stack `Hill`, top first. -/
  hill : List Stone
  maxModu : ℚ

/-- Before the first move. -/
def firstStone (g : CMygraph) (part_res : ℕ → ℤ) : MoveState where
  part_res := part_res
  hill := [{ curModu := computeModularity g part_res, node := -1, isChanged := false }]
  maxModu := computeModularity g part_res

/-- Move one node. -/
def oneStone (g : CMygraph) (s : MoveState) (nownode : ℕ) : MoveState :=
  let part_res := toggle s.part_res nownode
  let curModu := computeModularity g part_res
  { part_res := part_res
    hill := { curModu := curModu, node := nownode, isChanged := true } :: s.hill
    maxModu := if curModu > s.maxModu then curModu else s.maxModu }

/-- The loop that pops stones: the move of a stone is undone whether or not it is the last one. -/
def popStones (maxModu : ℚ) : List Stone → (ℕ → ℤ) → ℕ → ℤ
  | [], part_res => part_res
  | stone :: hill, part_res =>
    let part_res := if stone.isChanged then toggle part_res stone.node.toNat else part_res
    if stone.curModu = maxModu then part_res else popStones maxModu hill part_res

/-- `HillClimbingBigEdgeFirst`: the labelling left. -/
def hillClimbingBigEdgeFirst (fuel : ℕ) (g : CMygraph) (part_res : ℕ → ℤ)
    (cutNodes cutEdges : List ℕ) : Option (ℕ → ℤ) := do
  let NodesList ← nodesList fuel g cutNodes cutEdges
  let s := NodesList.foldl (oneStone g) (firstStone g part_res)
  pure (popStones s.maxModu s.hill s.part_res)

/-! ### The moves -/

section Moves

variable {g : CMygraph} {cutEdges : List ℕ}

/-- The nodes listed so far are `seen`. -/
structure Listed (s : ListState) (seen : List ℕ) : Prop where
  marks : Marks s.ExitInList seen
  step_eq : s.step = seen.length
  nodesList_eq : s.NodesList = seen

/-- **One node.** -/
theorem Listed.listNode {s : ListState} {seen : List ℕ} (h : Listed s seen) (total x : ℕ) :
    Listed (listNode total s x) (pushUpTo (min iDistance total) seen x) := by
  rw [CArchitecture.listNode, pushUpTo]
  have hfull : (s.step ≥ iDistance ∨ s.step ≥ total) ↔ min iDistance total ≤ seen.length := by
    rw [h.step_eq, min_le_iff]
  simp only [hfull]
  split_ifs
  · exact h
  · cases hx : s.ExitInList.find? x with
    | some b =>
      rw [push_of_mem (h.marks.mem_of_find? hx)]
      exact h
    | none =>
      rw [push_of_notMem (h.marks.notMem_of_find? hx)]
      refine ⟨h.marks.insert hx true, ?_, ?_⟩
      · rw [List.length_append, List.length_singleton, ← h.step_eq]
      · rw [h.nodesList_eq]

theorem Listed.foldl_listNode {s : ListState} {seen : List ℕ} (h : Listed s seen) (total : ℕ)
    (l : List ℕ) : Listed (l.foldl (CArchitecture.listNode total) s)
      (l.foldl (pushUpTo (min iDistance total)) seen) :=
  List.foldl_rel h fun x _ _ _ h ↦ h.listNode total x

/-- **The nodes listed** are the first ones of those that `NodeRank` ranks. -/
theorem nodesList_eq {fuel : ℕ} (hfuel : 2 ≤ fuel)
    (hnonneg : ∀ e ∈ cutEdges, 0 ≤ (g.pAllEdges e).nodeNum) :
    nodesList fuel g (findCutNodes g cutEdges) cutEdges =
      some ((rankScan g cutEdges).take (min iDistance (findCutNodes g cutEdges).length)) := by
  set total := (findCutNodes g cutEdges).length with htotal
  have hlen : (rankScan g cutEdges).length = total := (perm_rankScan hnonneg).length_eq
  suffices h : ∃ s, Loop.run (listRound g (findCutNodes g cutEdges) cutEdges) fuel {} = some s ∧
      s.NodesList = (rankScan g cutEdges).take (min iDistance total) by
    obtain ⟨s, hs, hlist⟩ := h
    rw [nodesList, hs, Option.map_some, hlist]
  rcases Nat.eq_zero_or_pos total with hzero | hpos
  · -- without cut nodes the loop is not entered
    have hexit : listRound g (findCutNodes g cutEdges) cutEdges {} = Sum.inr {} :=
      if_neg fun h ↦ (htotal ▸ h.2).ne' hzero
    refine ⟨_, Loop.run_eq_of_inr hexit (by omega), ?_⟩
    rw [hzero, Nat.min_zero, List.take_zero]
  · set t := (rankOrder g cutEdges).foldl (fun s e ↦
      (g.pAllEdges e).arcs.foldl (listNode total) s) {} with ht
    have hlisted : Listed t ((rankScan g cutEdges).take (min iDistance total)) := by
      have hinit : Listed {} [] := ⟨marks_empty, rfl, rfl⟩
      have hfold := hinit.foldl_listNode total
        ((rankOrder g cutEdges).flatMap fun e ↦ (g.pAllEdges e).arcs)
      rwa [List.foldl_flatMap, foldl_pushUpTo (Nat.zero_le _)] at hfold
    have hpass : listRound g (findCutNodes g cutEdges) cutEdges {} = Sum.inl t :=
      if_pos ⟨Nat.zero_lt_succ _, hpos⟩
    refine ⟨t, Loop.run_eq_of_pass hpass (if_neg ?_) hfuel, hlisted.nodesList_eq⟩
    rw [hlisted.step_eq, List.length_take, hlen]
    omega

end Moves

/-! ### The way back -/

/-- The labelling after the given moves. -/
def labelling (part_res : ℕ → ℤ) (moves : List ℕ) : ℕ → ℤ := moves.foldl toggle part_res

/-- The modularity after the first `j` moves. -/
def prefixValue (g : CMygraph) (part_res : ℕ → ℤ) (moves : List ℕ) (j : ℕ) : ℚ :=
  computeModularity g (labelling part_res (moves.take j))

section Climb

variable {g : CMygraph} {part_res : ℕ → ℤ}

theorem labelling_concat (part_res : ℕ → ℤ) (moves : List ℕ) (v : ℕ) :
    labelling part_res (moves ++ [v]) = toggle (labelling part_res moves) v := by
  rw [labelling, List.foldl_append]
  rfl

theorem IsBisection.labelling (h : IsBisection g part_res) (moves : List ℕ) :
    IsBisection g (labelling part_res moves) := by
  induction moves using List.reverseRecOn with
  | nil => exact h
  | append_singleton moves v ih =>
    rw [labelling_concat, toggle]
    refine ih.update v ?_
    split_ifs
    · exact Or.inr rfl
    · exact Or.inl rfl

/-- Moving a node twice. -/
theorem IsBisection.toggle_toggle (h : IsBisection g part_res) {v : ℕ} (hv : v < g.nvetes) :
    toggle (toggle part_res v) v = part_res := by
  have hflip : toggle part_res v = CArchitecture.flipNode part_res v := by
    rw [toggle, CArchitecture.flipNode]
    rcases h v hv with h₀ | h₁
    · rw [h₀, if_pos rfl, if_neg (by decide)]
    · rw [h₁, if_neg (by decide), if_pos rfl]
  rw [hflip]
  exact h.undo_flipNode hv

theorem prefixValue_append (moves : List ℕ) (v : ℕ) {i : ℕ} (hi : i ≤ moves.length) :
    prefixValue g part_res (moves ++ [v]) i = prefixValue g part_res moves i := by
  rw [prefixValue, List.take_append_of_le_length hi, prefixValue]

theorem prefixValue_length (g : CMygraph) (part_res : ℕ → ℤ) (moves : List ℕ) :
    prefixValue g part_res moves moves.length = computeModularity g (labelling part_res moves) := by
  rw [prefixValue, List.take_length]

/-- One more stone. -/
theorem foldl_oneStone_concat (moves : List ℕ) (v : ℕ) :
    (moves ++ [v]).foldl (oneStone g) (firstStone g part_res) =
      oneStone g (moves.foldl (oneStone g) (firstStone g part_res)) v := by
  rw [List.foldl_append]
  rfl

theorem part_res_foldl_oneStone (moves : List ℕ) :
    (moves.foldl (oneStone g) (firstStone g part_res)).part_res = labelling part_res moves := by
  induction moves using List.reverseRecOn with
  | nil => rfl
  | append_singleton moves v ih =>
    rw [foldl_oneStone_concat, labelling_concat, ← ih]
    rfl

/-- `maxModu` is the best value so far. -/
theorem isGreatest_maxModu (g : CMygraph) (part_res : ℕ → ℤ) (moves : List ℕ) :
    IsGreatest {c | ∃ j ≤ moves.length, c = prefixValue g part_res moves j}
      (moves.foldl (oneStone g) (firstStone g part_res)).maxModu := by
  induction moves using List.reverseRecOn with
  | nil =>
    refine ⟨⟨0, le_rfl, rfl⟩, ?_⟩
    rintro c ⟨j, hj, rfl⟩
    rw [Nat.le_zero.1 hj]
    exact le_rfl
  | append_singleton moves v ih =>
    have hlast := prefixValue_length g part_res (moves ++ [v])
    obtain ⟨⟨j, hj, hmax⟩, hle⟩ := ih
    rw [foldl_oneStone_concat, oneStone, part_res_foldl_oneStone, ← labelling_concat, ← hlast]
    rw [List.length_append, List.length_singleton] at hlast ⊢
    dsimp only
    constructor
    · split_ifs
      · exact ⟨moves.length + 1, le_rfl, rfl⟩
      · exact ⟨j, hj.trans (Nat.le_succ _), by rw [hmax, prefixValue_append moves v hj]⟩
    · rintro c ⟨i, hi, rfl⟩
      rcases Nat.le_or_eq_of_le_succ hi with hi | rfl
      · rw [prefixValue_append moves v hi]
        have hi' := hle ⟨i, hi, rfl⟩
        split_ifs with hgt
        · exact hi'.trans hgt.le
        · exact hi'
      · split_ifs with hgt
        · exact le_rfl
        · exact not_lt.1 hgt

/-- **Popping goes one move too far**: the moves that are left are one less than those up to the
last stone with the value `best`. -/
theorem exists_last_popStones (hpart : IsBisection g part_res) {moves : List ℕ}
    (hlt : ∀ v ∈ moves, v < g.nvetes) {best : ℚ}
    (h : ∃ i ≤ moves.length, prefixValue g part_res moves i = best) :
    ∃ j ≤ moves.length, prefixValue g part_res moves j = best ∧
      (∀ i ≤ moves.length, j < i → prefixValue g part_res moves i ≠ best) ∧
      popStones best (moves.foldl (oneStone g) (firstStone g part_res)).hill
        (labelling part_res moves) = labelling part_res (moves.take (j - 1)) := by
  induction moves using List.reverseRecOn with
  | nil =>
    obtain ⟨i, hi, hbest⟩ := h
    obtain rfl := Nat.le_zero.1 hi
    exact ⟨0, le_rfl, hbest, fun i hi hpos ↦ absurd hi (Nat.not_le.2 hpos), if_pos hbest⟩
  | append_singleton moves v ih =>
    have hlen : (moves ++ [v]).length = moves.length + 1 := by
      rw [List.length_append, List.length_singleton]
    have hvalue := prefixValue_length g part_res (moves ++ [v])
    have hundo : toggle (labelling part_res (moves ++ [v])) v = labelling part_res moves := by
      rw [labelling_concat]
      exact (hpart.labelling moves).toggle_toggle (hlt v (by simp))
    -- the move of the top stone is undone first, then its value is looked at
    have hpop : popStones best ((moves ++ [v]).foldl (oneStone g) (firstStone g part_res)).hill
        (labelling part_res (moves ++ [v])) =
          if prefixValue g part_res (moves ++ [v]) (moves.length + 1) = best then
            labelling part_res moves
          else popStones best (moves.foldl (oneStone g) (firstStone g part_res)).hill
            (labelling part_res moves) := by
      rw [foldl_oneStone_concat, oneStone, part_res_foldl_oneStone, ← labelling_concat, ← hvalue,
        hlen, popStones, if_pos rfl, Int.toNat_natCast, hundo]
    rw [hpop, hlen]
    by_cases hbest : prefixValue g part_res (moves ++ [v]) (moves.length + 1) = best
    · refine ⟨moves.length + 1, le_rfl, hbest, fun i hi hgt ↦ absurd hi (Nat.not_le.2 hgt), ?_⟩
      rw [if_pos hbest, Nat.add_sub_cancel, List.take_left]
    · have hearlier : ∃ i ≤ moves.length, prefixValue g part_res moves i = best := by
        obtain ⟨i, hi, hi'⟩ := h
        rw [hlen] at hi
        rcases Nat.le_or_eq_of_le_succ hi with hi | rfl
        · exact ⟨i, hi, by rwa [prefixValue_append moves v hi] at hi'⟩
        · exact absurd hi' hbest
      obtain ⟨j, hj, hjbest, hjlast, hleft⟩ :=
        ih (fun u hu ↦ hlt u (List.mem_append_left _ hu)) hearlier
      refine ⟨j, hj.trans (Nat.le_succ _), by rwa [prefixValue_append moves v hj], ?_, ?_⟩
      · intro i hi hji
        rcases Nat.le_or_eq_of_le_succ hi with hi | rfl
        · rw [prefixValue_append moves v hi]
          exact hjlast i hi hji
        · exact hbest
      · rw [if_neg hbest, hleft, List.take_append_of_le_length (by omega)]

end Climb

/-- The first `j` moves are the longest ones that lead to a labelling as good as any on the way. -/
structure LastBest (g : CMygraph) (part_res : ℕ → ℤ) (moves : List ℕ) (j : ℕ) : Prop where
  le_length : j ≤ moves.length
  best : ∀ i ≤ moves.length, prefixValue g part_res moves i ≤ prefixValue g part_res moves j
  last : ∀ i ≤ moves.length, j < i →
    prefixValue g part_res moves i < prefixValue g part_res moves j

/-- **Moving the nodes of big edges first** leaves a labelling as good as the best one on the way if
and only if the last best one is no better than the one before it, or has none before it. -/
theorem hillClimbingBigEdgeFirst_keepsBest_iff {p : CHypergraph} (hw : p.WellFormed)
    (hvwgts : ∀ v < p.nvtxs, 0 ≤ p.vwgts v) {part_res : ℕ → ℤ}
    (hpart : ∀ v < p.nvtxs, part_res v = 0 ∨ part_res v = 1) {fuel : ℕ} (hfuel : 2 ≤ fuel) :
    let g := CMygraph.ofHypergraph p
    let cutEdges := findCutEdges g part_res
    let cutNodes := findCutNodes g cutEdges
    let moves := (rankScan g cutEdges).take (min iDistance cutNodes.length)
    ∃ res, nodesList fuel g cutNodes cutEdges = some moves ∧
      hillClimbingBigEdgeFirst fuel g part_res cutNodes cutEdges = some res ∧
      (IsGreatest {c | ∃ j ≤ moves.length, c = prefixValue g part_res moves j}
          (computeModularity g res) ↔
        ∀ j, LastBest g part_res moves j →
          prefixValue g part_res moves (j - 1) = prefixValue g part_res moves j) := by
  intro g cutEdges cutNodes moves
  have hrep := CMygraph.represents_ofHypergraph p
  have hnonneg : ∀ e ∈ cutEdges, 0 ≤ (g.pAllEdges e).nodeNum :=
    fun e he ↦ hrep.nodeNum_nonneg hw.pins_lt hvwgts e (lt_of_mem_findCutEdges he)
  have hlist : nodesList fuel g cutNodes cutEdges = some moves := nodesList_eq hfuel hnonneg
  have hlt : ∀ v ∈ moves, v < g.nvetes := by
    intro v hv
    have hcut : v ∈ cutNodes := (mem_rankScan hnonneg).1 (List.mem_of_mem_take hv)
    exact lt_of_mem_findCutNodes
      (fun e he ↦ hrep.arcs_lt hw.pins_lt e (lt_of_mem_findCutEdges he)) hcut
  have hbis : IsBisection g part_res := fun v hv ↦ hpart v (hrep.nvetes_eq ▸ hv)
  have hmax := isGreatest_maxModu g part_res moves
  obtain ⟨j, hj, hjbest, hjlast, hleft⟩ := exists_last_popStones hbis hlt
    (hmax.1.imp fun i hi ↦ ⟨hi.1, hi.2.symm⟩)
  refine ⟨_, hlist, by rw [hillClimbingBigEdgeFirst, hlist]; rfl, ?_⟩
  rw [part_res_foldl_oneStone, hleft, ← prefixValue]
  have hlastBest : LastBest g part_res moves j := by
    refine ⟨hj, fun i hi ↦ hjbest ▸ hmax.2 ⟨i, hi, rfl⟩, fun i hi hji ↦ ?_⟩
    exact lt_of_le_of_ne (hjbest ▸ hmax.2 ⟨i, hi, rfl⟩) (hjbest ▸ hjlast i hi hji)
  constructor
  · intro hgreatest i hi
    -- there is one last best labelling
    have hij : i = j := by
      rcases Nat.lt_trichotomy i j with hlt' | heq | hgt
      · exact absurd (hi.last j hj hlt') (hlastBest.best i hi.le_length).not_gt
      · exact heq
      · exact absurd (hlastBest.last i hi.le_length hgt) (hi.best j hj).not_gt
    rw [hij, hjbest]
    exact hgreatest.unique hmax
  · intro hall
    rw [hall j hlastBest, hjbest]
    exact hmax

/-- An edge in part `0`, and a larger one with one pin there. -/
def sampleBigEdge : CHypergraph := CHypergraph.ofRows 5 [[0, 1], [2, 3, 4]]

/-- The labelling that cuts the larger edge. -/
def bigEdgeSides : ℕ → ℤ := fun v ↦ if v = 2 ∨ v = 3 then 1 else 0

theorem hillClimbingBigEdgeFirst_keepsBest_iff_sampleBigEdge :
    (sampleBigEdge.WellFormed ∧ (∀ v < sampleBigEdge.nvtxs, 0 ≤ sampleBigEdge.vwgts v) ∧
      ∀ v < sampleBigEdge.nvtxs, bigEdgeSides v = 0 ∨ bigEdgeSides v = 1) ∧
    ∃ res, hillClimbingBigEdgeFirst 2 (CMygraph.ofHypergraph sampleBigEdge) bigEdgeSides
      (findCutNodes (CMygraph.ofHypergraph sampleBigEdge)
        (findCutEdges (CMygraph.ofHypergraph sampleBigEdge) bigEdgeSides))
      (findCutEdges (CMygraph.ofHypergraph sampleBigEdge) bigEdgeSides) = some res := by
  have hhyps : sampleBigEdge.WellFormed ∧ (∀ v < sampleBigEdge.nvtxs, 0 ≤ sampleBigEdge.vwgts v) ∧
      ∀ v < sampleBigEdge.nvtxs, bigEdgeSides v = 0 ∨ bigEdgeSides v = 1 := by decide
  obtain ⟨res, -, hres, -⟩ :=
    hillClimbingBigEdgeFirst_keepsBest_iff hhyps.1 hhyps.2.1 hhyps.2.2 (le_refl 2)
  exact ⟨hhyps, res, hres⟩

/-- The first move makes both edges whole and the later ones undo this. Popping back to the first
stone undoes its move, too, and leaves the value `-1000` of the labelling before. -/
theorem hillClimbingBigEdgeFirst_sampleBigEdge_not_keepsBest :
    sampleBigEdge.WellFormed ∧ (∀ v < sampleBigEdge.nvtxs, sampleBigEdge.vwgts v = 1) ∧
    (∀ v < sampleBigEdge.nvtxs, bigEdgeSides v = 0 ∨ bigEdgeSides v = 1) ∧
    ¬ ∃ moves res,
      nodesList 2 (CMygraph.ofHypergraph sampleBigEdge)
        (findCutNodes (CMygraph.ofHypergraph sampleBigEdge)
          (findCutEdges (CMygraph.ofHypergraph sampleBigEdge) bigEdgeSides))
        (findCutEdges (CMygraph.ofHypergraph sampleBigEdge) bigEdgeSides) = some moves ∧
      hillClimbingBigEdgeFirst 2 (CMygraph.ofHypergraph sampleBigEdge) bigEdgeSides
        (findCutNodes (CMygraph.ofHypergraph sampleBigEdge)
          (findCutEdges (CMygraph.ofHypergraph sampleBigEdge) bigEdgeSides))
        (findCutEdges (CMygraph.ofHypergraph sampleBigEdge) bigEdgeSides) = some res ∧
      IsGreatest {c | ∃ j ≤ moves.length,
          c = prefixValue (CMygraph.ofHypergraph sampleBigEdge) bigEdgeSides moves j}
        (computeModularity (CMygraph.ofHypergraph sampleBigEdge) res) := by
  refine ⟨by decide, by decide, by decide, ?_⟩
  rintro ⟨moves, res, hmoves, hres, hgreatest⟩
  have hlist : nodesList 2 (CMygraph.ofHypergraph sampleBigEdge)
      (findCutNodes (CMygraph.ofHypergraph sampleBigEdge)
        (findCutEdges (CMygraph.ofHypergraph sampleBigEdge) bigEdgeSides))
      (findCutEdges (CMygraph.ofHypergraph sampleBigEdge) bigEdgeSides) = some [4, 3, 2] := by
    decide +kernel
  obtain rfl := Option.some.inj (hmoves.symm.trans hlist)
  have hworse : (hillClimbingBigEdgeFirst 2 (CMygraph.ofHypergraph sampleBigEdge) bigEdgeSides
      (findCutNodes (CMygraph.ofHypergraph sampleBigEdge)
        (findCutEdges (CMygraph.ofHypergraph sampleBigEdge) bigEdgeSides))
      (findCutEdges (CMygraph.ofHypergraph sampleBigEdge) bigEdgeSides)).map (fun res ↦
        decide (computeModularity (CMygraph.ofHypergraph sampleBigEdge) res <
          prefixValue (CMygraph.ofHypergraph sampleBigEdge) bigEdgeSides [4, 3, 2] 1)) =
            some true := by
    decide +kernel
  rw [hres, Option.map_some, Option.some_inj, decide_eq_true_eq] at hworse
  exact absurd (hgreatest.2 ⟨1, by decide, rfl⟩) hworse.not_ge

end CArchitecture
