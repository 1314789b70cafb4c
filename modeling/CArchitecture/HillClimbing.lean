import CArchitecture.HeapSort
import CArchitecture.Library.FirstSeen
import CArchitecture.Mygraph
import Mathlib.Data.List.GetD
import Mathlib.Data.List.TakeWhile
import Mathlib.Data.Rat.Defs

/-!
# Refining a bisection

`myFM` improves a 0/1 labelling of the vertices by a hill climb: it moves up to twenty cut nodes to
the other side, one after another, and then rolls back to the best labelling on the way. The
modularity that each candidate would lead to is computed once, and **again only when `renew` is
raised**; in between, the climb records the value it computed before.

* The `double`s of the source are rationals. How the result of an operation on them is rounded is a
  parameter `fl` of all that computes with them; where it is not given, nothing is rounded.
  `roundDouble` is what a machine does.
* The climb is a bounded loop over `ClimbState`. Its field `trace` is not in the source: it records
  for every move the labelling before it and the labelling in which the candidates were last
  evaluated, so that one can say what a recorded value is the modularity *of*.
* What a round preserves holds after any number of rounds (`climb_invariant`).
* `Climbed` relates the stones on the stack to that trace, and rolling back to a value returns to
  the labelling that the trace has for it (`rollBack_stonesOf`).
* So what counts is the last move that was recorded with a new best value (`lastRecord`). Its value
  is right if the moves since it was computed left every edge where it was (`ClimbMove.Fresh`): the
  modularity depends on nothing else (`computeModularity_congr`).
-/

namespace CArchitecture

open FirstSeen

/-! ### Modularity -/

/-- Rounding to the nearest `double`, of two to the even one: `53` binary digits are kept. The range
of the exponents is not looked at. -/
def roundDouble (x : ℚ) : ℚ :=
  let k : ℤ := (x.num.natAbs.log2 : ℤ) - x.den.log2
  -- the first digit of `x` is that of `2 ^ (k - 1)` or of `2 ^ k`
  let e : ℤ := if |x| < 2 ^ k then k - 53 else k - 52
  let n : ℤ := (x / 2 ^ e).floor
  let rest : ℚ := x / 2 ^ e - n
  (if rest < 1 / 2 ∨ rest = 1 / 2 ∧ n % 2 = 0 then n else n + 1) * 2 ^ e

example : roundDouble (1 / 3) = 6004799503160661 / 2 ^ 54 := by decide +kernel

/-- The variables of `ComputeModularity`. The count of cut vertices is never read there and is left
out. -/
structure ModularityState where
  innerEdgeValue : ℤ → ℚ := fun _ ↦ 0
  innerVertCount : ℤ → ℤ := fun _ ↦ 0
  cutEdgeValue : ℚ := 0
  mapForInnerNodeCount : OrdMap ℕ Bool := ∅

/-- Whether the pins of an edge lie in different parts. The first pin decides which part the others
are compared with. -/
def edgeIsCut (part_res : ℕ → ℤ) (arcs : List ℕ) : Bool :=
  arcs.any fun v ↦ part_res v ≠ part_res (arcs.headD 0)

/-- A vertex of an inner edge is counted in its part, once. -/
def countInner (g : CMygraph) (part_num : ℤ) (s : ModularityState) (v : ℕ) : ModularityState :=
  match s.mapForInnerNodeCount.find? v with
  | some _ => s
  | none =>
    { s with
      mapForInnerNodeCount := s.mapForInnerNodeCount.insert v true
      innerVertCount := Function.update s.innerVertCount part_num
        (s.innerVertCount part_num + (g.pAllVertices v).vweight) }

/-- One edge. -/
def modularityEdge (fl : ℚ → ℚ) (g : CMygraph) (part_res : ℕ → ℤ) (s : ModularityState) (i : ℕ) :
    ModularityState :=
  let e := g.pAllEdges i
  let part_num := part_res (e.arcs.headD 0)
  if edgeIsCut part_res e.arcs then
    { s with cutEdgeValue := fl (s.cutEdgeValue + e.hweight) }
  else
    e.arcs.foldl (countInner g part_num)
      { s with
        innerEdgeValue := Function.update s.innerEdgeValue part_num
          (fl (s.innerEdgeValue part_num + fl (e.hweight * fl (1 - fl (1 / (e.nodeNum : ℚ)))))) }

/-- `ComputeModularity`, where `fl` rounds the result of each operation on `double`s; without it
nothing is rounded. Without inner vertices on one of the sides the value is `-1000`. -/
def computeModularity (g : CMygraph) (part_res : ℕ → ℤ) (fl : ℚ → ℚ := id) : ℚ :=
  let s := (List.range g.nhedges).foldl (modularityEdge fl g part_res) {}
  if s.innerVertCount 0 ≠ 0 ∧ s.innerVertCount 1 ≠ 0 then
    fl (fl (fl (2 * fl (fl (s.innerEdgeValue 0 / s.innerVertCount 0) +
        fl (s.innerEdgeValue 1 / s.innerVertCount 1))) -
      fl (s.cutEdgeValue / s.innerVertCount 0)) - fl (s.cutEdgeValue / s.innerVertCount 1))
  else -1000

/-- The part that the pins of an edge lie in, unless it is cut. -/
def edgePart (part_res : ℕ → ℤ) (arcs : List ℕ) : Option ℤ :=
  if edgeIsCut part_res arcs then none else some (part_res (arcs.headD 0))

/-- The part of an edge is all that counts. -/
theorem modularityEdge_congr {g : CMygraph} {part part' : ℕ → ℤ} {i : ℕ}
    (h : edgePart part (g.pAllEdges i).arcs = edgePart part' (g.pAllEdges i).arcs)
    (fl : ℚ → ℚ) (s : ModularityState) :
    modularityEdge fl g part s i = modularityEdge fl g part' s i := by
  rw [edgePart, edgePart] at h
  rw [modularityEdge, modularityEdge]
  split_ifs at h ⊢ with hcut hcut'
  · rfl
  · rw [Option.some.inj h]

/-- **Modularity depends on the parts of the edges only.** -/
theorem computeModularity_congr {g : CMygraph} {part part' : ℕ → ℤ}
    (h : ∀ e < g.nhedges,
      edgePart part (g.pAllEdges e).arcs = edgePart part' (g.pAllEdges e).arcs) :
    computeModularity g part = computeModularity g part' := by
  have hfold : (List.range g.nhedges).foldl (modularityEdge id g part) {} =
      (List.range g.nhedges).foldl (modularityEdge id g part') {} :=
    List.foldl_ext _ _ _ fun s e he ↦ modularityEdge_congr (h e (List.mem_range.1 he)) id s
  rw [computeModularity, computeModularity, hfold]

/-! ### What the climb is given -/

/-- `FindCutEdges`. -/
def findCutEdges (g : CMygraph) (part_res : ℕ → ℤ) : List ℕ :=
  (List.range g.nhedges).filter fun i ↦ edgeIsCut part_res (g.pAllEdges i).arcs

/-- One pin of `FindCutNodes`. -/
def addCutNode (s : OrdMap ℕ Bool × List ℕ) (v : ℕ) : OrdMap ℕ Bool × List ℕ :=
  match s.1.find? v with
  | some _ => s
  | none => (s.1.insert v true, s.2 ++ [v])

/-- `FindCutNodes`: the pins of the cut edges, each once. -/
def findCutNodes (g : CMygraph) (cutedges : List ℕ) : List ℕ :=
  (cutedges.foldl (fun s e ↦ (g.pAllEdges e).arcs.foldl addCutNode s) (∅, [])).2

/-- The variables of `NodeRank`. -/
structure RankState where
  Node_Rank : ℕ → ℤ
  RankValue : ℕ := 0
  step : ℕ := 0
  ExitInList : OrdMap ℕ Bool := ∅

/-- One node: it gets the next rank unless it has one. After `total` nodes all loops are left. -/
def rankNode (total : ℕ) (s : RankState) (v : ℕ) : RankState :=
  if s.step ≥ total then s
  else
    match s.ExitInList.find? v with
    | some _ => s
    | none =>
      { Node_Rank := Function.update s.Node_Rank v s.RankValue
        RankValue := s.RankValue + 1
        step := s.step + 1
        ExitInList := s.ExitInList.insert v true }

/-- The cut edges by size, largest first, and among those of one size the last one first. -/
def rankOrder (g : CMygraph) (cutEdges : List ℕ) : List ℕ :=
  let largest := cutEdges.foldl (fun m e ↦ max m (g.pAllEdges e).nodeNum) 0
  let NodeMap := cutEdges.foldl (fun (NodeMap : ℤ → List ℕ) e ↦
    Function.update NodeMap (g.pAllEdges e).nodeNum (e :: NodeMap (g.pAllEdges e).nodeNum))
    fun _ ↦ []
  (List.range (largest + 1).toNat).reverse.flatMap fun i : ℕ ↦ NodeMap (i : ℤ)

/-- One round of the outer loop of `NodeRank`. -/
def rankRound (g : CMygraph) (cutNodes cutEdges : List ℕ) (s : RankState) :
    RankState ⊕ RankState :=
  if s.step < cutNodes.length then
    Sum.inl ((rankOrder g cutEdges).foldl
      (fun s e ↦ (g.pAllEdges e).arcs.foldl (rankNode cutNodes.length) s) s)
  else Sum.inr s

/-- `NodeRank`, on an array that holds `raw`. -/
def nodeRank (fuel : ℕ) (g : CMygraph) (cutNodes cutEdges : List ℕ) (raw : ℕ → ℤ) :
    Option (ℕ → ℤ) :=
  (Loop.run (rankRound g cutNodes cutEdges) fuel { Node_Rank := raw }).map RankState.Node_Rank

/-- One pin of `FindZeroNodeCount`: it counts if it is in part `0`, and the node gets an arc to the
cut edge. -/
def countZero (part_res : ℕ → ℤ) (edge : ℕ) (s : (ℕ → ℤ) × (ℕ → List ℕ)) (v : ℕ) :
    (ℕ → ℤ) × (ℕ → List ℕ) :=
  (if part_res v = 0 then Function.update s.1 edge (s.1 edge + 1) else s.1,
    Function.update s.2 v (edge :: s.2 v))

/-- `FindZeroNodeCount`: for each cut edge the number of its pins in part `0`, and for each node its
cut edges. -/
def findZeroNodeCount (g : CMygraph) (cutEdges : List ℕ) (part_res : ℕ → ℤ) :
    (ℕ → ℤ) × (ℕ → List ℕ) :=
  cutEdges.foldl (fun s e ↦ (g.pAllEdges e).arcs.foldl (countZero part_res e) s)
    (fun _ ↦ 0, fun _ ↦ [])

/-! ### The climb -/

/-- The number of moves that are tried. -/
def iDistance : ℕ := 20

/-- What was recorded when a labelling was reached. -/
structure Stone where
  curModu : ℚ
  node : ℤ
  isChanged : Bool

/-- The move that led to a stone: the node, the labelling it was moved in, and the labelling in
which its value had been computed. -/
structure ClimbMove where
  node : ℕ
  before : ℕ → ℤ
  evaluated : ℕ → ℤ

/-- The variables of `HillClimbing`. -/
structure ClimbState where
  part_res : ℕ → ℤ
  pModularityList : ℕ → ModStruct
  HeapLen : ℕ
  fixnum : ℕ := 0
  /-- The stack `Hill`, top first. -/
  hill : List Stone
  maxModu : ℚ
  PartZeroNodeCount : ℕ → ℤ
  /-- The flag `mySort->renew`. -/
  renew : Bool := true
  /-- The labelling in which the candidates were last evaluated. -/
  evaluated : ℕ → ℤ
  /-- The moves so far, last one first. -/
  trace : List ClimbMove := []

/-- A labelling with one node on the other side. -/
def flipNode (part_res : ℕ → ℤ) (v : ℕ) : ℕ → ℤ :=
  Function.update part_res v (if part_res v = 1 then 0 else 1)

/-- The value of a candidate: the node is moved, and moved back. -/
def evaluateNode (g : CMygraph) (part_res : ℕ → ℤ) (node : ℕ) (fl : ℚ → ℚ := id) : ℚ :=
  if part_res node = 0 then computeModularity g (Function.update part_res node 1) fl
  else if part_res node = 1 then computeModularity g (Function.update part_res node 0) fl
  else 0

/-- One cut edge of the node that is about to move: the count of pins in part `0`, and whether the
candidates have to be evaluated again. In the second branch the first test repeats the negation of
the branch and so never holds. -/
def updateZero (g : CMygraph) (label : ℤ) (s : (ℕ → ℤ) × Bool) (e : ℕ) : (ℕ → ℤ) × Bool :=
  if label = 0 then
    (Function.update s.1 e (s.1 e - 1),
      s.2 || s.1 e == (g.pAllEdges e).nodeNum || s.1 e - 1 == 0)
  else if label = 1 then
    (Function.update s.1 e (s.1 e + 1),
      s.2 || label == 0 || s.1 e + 1 == (g.pAllEdges e).nodeNum)
  else s

/-- Evaluate the first `len` candidates again. -/
def evaluateAll (g : CMygraph) (part_res : ℕ → ℤ) (len : ℕ) (A : ℕ → ModStruct)
    (fl : ℚ → ℚ := id) : ℕ → ModStruct :=
  fun i ↦ if i < len then { A i with dMod := evaluateNode g part_res (A i).node fl } else A i

/-- Move the candidate at position `HeapLen` and record it. -/
def moveCandidate (g : CMygraph) (pCutNodes : ℕ → List ℕ) (s : ClimbState)
    (fl : ℚ → ℚ := id) : ClimbState :=
  let best := s.pModularityList s.HeapLen
  let (zero, renew) := (pCutNodes best.node).foldl (updateZero g (s.part_res best.node))
    (s.PartZeroNodeCount, false)
  let part_res := flipNode s.part_res best.node
  { s with
    part_res := part_res
    pModularityList :=
      if renew then evaluateAll g part_res s.HeapLen s.pModularityList fl else s.pModularityList
    hill := { curModu := best.dMod, node := best.node, isChanged := true } :: s.hill
    maxModu := if best.dMod > s.maxModu then best.dMod else s.maxModu
    PartZeroNodeCount := zero
    renew := renew
    evaluated := if renew then part_res else s.evaluated
    trace :=
      { node := best.node, before := s.part_res, evaluated := s.evaluated } :: s.trace }

/-- Take the candidate that `getMax` puts at the end of the heap. -/
def pickCandidate (Node_Rank : ℕ → ℤ) (s : ClimbState) : ClimbState :=
  { s with
    pModularityList := getMax s.renew s.HeapLen Node_Rank s.pModularityList
    renew := false
    fixnum := s.fixnum + 1
    HeapLen := s.HeapLen - 1 }

/-- One round: take a candidate and move it, unless it is the only one left. -/
def climbStep (g : CMygraph) (Node_Rank : ℕ → ℤ) (pCutNodes : ℕ → List ℕ) (s : ClimbState)
    (fl : ℚ → ℚ := id) : ClimbState ⊕ ClimbState :=
  let s := pickCandidate Node_Rank s
  if s.HeapLen = 0 then Sum.inr s else Sum.inl (moveCandidate g pCutNodes s fl)

/-- The loop, with `k` rounds left of the `iDistance` that are allowed. -/
def climb (g : CMygraph) (total : ℕ) (Node_Rank : ℕ → ℤ) (pCutNodes : ℕ → List ℕ) :
    ℕ → ClimbState → (fl : ℚ → ℚ := id) → ClimbState
  | 0, s, _ => s
  | k + 1, s, fl =>
    if s.fixnum < total then
      match climbStep g Node_Rank pCutNodes s fl with
      | Sum.inl s => climb g total Node_Rank pCutNodes k s fl
      | Sum.inr s => s
    else s

/-- The state before the loop: every cut node is evaluated. -/
def climbInit (g : CMygraph) (part_res : ℕ → ℤ) (cutNodes : List ℕ)
    (PartZeroNodeCount : ℕ → ℤ) (fl : ℚ → ℚ := id) : ClimbState where
  part_res := part_res
  pModularityList i :=
    { node := cutNodes.getD i 0, dMod := evaluateNode g part_res (cutNodes.getD i 0) fl }
  HeapLen := cutNodes.length
  hill := [{ curModu := computeModularity g part_res fl, node := -1, isChanged := false }]
  maxModu := computeModularity g part_res fl
  PartZeroNodeCount := PartZeroNodeCount
  evaluated := part_res

/-- The loop that pops stones until it meets one with the value `maxModu`. -/
def rollBack (maxModu : ℚ) : List Stone → (ℕ → ℤ) → ℕ → ℤ
  | [], part_res => part_res
  | stone :: hill, part_res =>
    if stone.curModu = maxModu then part_res
    else
      rollBack maxModu hill
        (if stone.isChanged then
          Function.update part_res stone.node.toNat
            (if part_res stone.node.toNat = 0 then 1 else 0)
        else part_res)

/-- The loop of `HillClimbing`, and the state in which it ends. -/
def climbEnd (g : CMygraph) (part_res : ℕ → ℤ) (cutNodes : List ℕ) (Node_Rank : ℕ → ℤ)
    (zero : (ℕ → ℤ) × (ℕ → List ℕ)) (fl : ℚ → ℚ := id) : ClimbState :=
  climb g cutNodes.length Node_Rank zero.2 iDistance (climbInit g part_res cutNodes zero.1 fl) fl

/-- `HillClimbing`: the value returned and the labelling left. -/
def hillClimbing (g : CMygraph) (part_res : ℕ → ℤ) (cutNodes : List ℕ) (Node_Rank : ℕ → ℤ)
    (zero : (ℕ → ℤ) × (ℕ → List ℕ)) (fl : ℚ → ℚ := id) : ℚ × (ℕ → ℤ) :=
  let s := climbEnd g part_res cutNodes Node_Rank zero fl
  (s.maxModu, rollBack s.maxModu s.hill s.part_res)

/-- `myFM`: prepare what the climb needs, and climb. The array of ranks holds `raw` before. -/
def myFM (fuel : ℕ) (g : CMygraph) (raw part_res : ℕ → ℤ) (fl : ℚ → ℚ := id) :
    Option (ℚ × (ℕ → ℤ)) := do
  let cutEdges := findCutEdges g part_res
  let cutNodes := findCutNodes g cutEdges
  let Node_Rank ← nodeRank fuel g cutNodes cutEdges raw
  pure (hillClimbing g part_res cutNodes Node_Rank (findZeroNodeCount g cutEdges part_res) fl)

/-- The moves that `myFM` makes before it rolls back, last one first. -/
def movesOfFM (fuel : ℕ) (g : CMygraph) (raw part_res : ℕ → ℤ) : Option (List ClimbMove) := do
  let cutEdges := findCutEdges g part_res
  let cutNodes := findCutNodes g cutEdges
  let Node_Rank ← nodeRank fuel g cutNodes cutEdges raw
  pure (climbEnd g part_res cutNodes Node_Rank (findZeroNodeCount g cutEdges part_res)).trace

/-! ### The nodes that are cut -/

theorem addCutNode_foldl (l : List ℕ) {s : OrdMap ℕ Bool × List ℕ} (h : Marks s.1 s.2) :
    Marks (l.foldl addCutNode s).1 (l.foldl addCutNode s).2 ∧
      (l.foldl addCutNode s).2 = scan s.2 l := by
  induction l generalizing s with
  | nil => exact ⟨h, rfl⟩
  | cons x l ih =>
    rw [List.foldl_cons, scan_cons]
    suffices hs : Marks (addCutNode s x).1 (addCutNode s x).2 ∧ (addCutNode s x).2 = push s.2 x by
      rw [← hs.2]
      exact ih hs.1
    rw [addCutNode]
    cases hx : s.1.find? x with
    | some b => exact ⟨h, (push_of_mem (h.mem_of_find? hx)).symm⟩
    | none => exact ⟨h.insert hx true, (push_of_notMem (h.notMem_of_find? hx)).symm⟩

theorem findCutNodes_eq_scan (g : CMygraph) (cutedges : List ℕ) :
    findCutNodes g cutedges = scan [] (cutedges.flatMap fun e ↦ (g.pAllEdges e).arcs) := by
  rw [findCutNodes, ← List.foldl_flatMap]
  exact (addCutNode_foldl _ marks_empty).2

theorem nodup_findCutNodes (g : CMygraph) (cutedges : List ℕ) :
    (findCutNodes g cutedges).Nodup := by
  rw [findCutNodes_eq_scan]
  exact nodup_scan List.nodup_nil _

theorem mem_findCutNodes {g : CMygraph} {cutedges : List ℕ} {v : ℕ} :
    v ∈ findCutNodes g cutedges ↔ ∃ e ∈ cutedges, v ∈ (g.pAllEdges e).arcs := by
  rw [findCutNodes_eq_scan, mem_scan, List.mem_flatMap]
  simp

theorem lt_of_mem_findCutEdges {g : CMygraph} {part_res : ℕ → ℤ} {e : ℕ}
    (he : e ∈ findCutEdges g part_res) : e < g.nhedges :=
  List.mem_range.1 (List.mem_filter.1 he).1

theorem lt_of_mem_findCutNodes {g : CMygraph} {cutedges : List ℕ}
    (hlt : ∀ e ∈ cutedges, ∀ v ∈ (g.pAllEdges e).arcs, v < g.nvetes) {v : ℕ}
    (hv : v ∈ findCutNodes g cutedges) : v < g.nvetes := by
  obtain ⟨e, he, hve⟩ := mem_findCutNodes.1 hv
  exact hlt e he v hve

/-! ### Ranking -/

section Rank

variable {g : CMygraph} {cutEdges : List ℕ}

/-- The edges are filed by their size. -/
theorem mem_foldl_file (l : List ℕ) (i : ℤ) (e : ℕ) :
    e ∈ l.foldl (fun (NodeMap : ℤ → List ℕ) e ↦
      Function.update NodeMap (g.pAllEdges e).nodeNum (e :: NodeMap (g.pAllEdges e).nodeNum))
      (fun _ ↦ []) i ↔ e ∈ l ∧ (g.pAllEdges e).nodeNum = i := by
  refine Loop.foldl_invariant (fun done (NodeMap : ℤ → List ℕ) ↦ ∀ i e, e ∈ NodeMap i ↔
    e ∈ done ∧ (g.pAllEdges e).nodeNum = i) (by simp) ?_ i e
  intro done x _ NodeMap _ hmap i e
  rw [List.mem_append, List.mem_singleton, or_and_right, ← hmap i e]
  rcases eq_or_ne i (g.pAllEdges x).nodeNum with rfl | hne
  · rw [Function.update_self, List.mem_cons, or_comm]
    exact or_congr_right ⟨fun h ↦ ⟨h, h ▸ rfl⟩, And.left⟩
  · rw [Function.update_of_ne hne, or_iff_left]
    rintro ⟨rfl, rfl⟩
    exact hne rfl

/-- **The cut edges are met in a pass**, and nothing else. -/
theorem mem_rankOrder {e : ℕ} :
    e ∈ rankOrder g cutEdges ↔ e ∈ cutEdges ∧ 0 ≤ (g.pAllEdges e).nodeNum := by
  simp only [rankOrder, List.mem_flatMap, List.mem_reverse, List.mem_range, mem_foldl_file]
  constructor
  · rintro ⟨i, -, he, hi⟩
    exact ⟨he, by omega⟩
  · rintro ⟨he, hnonneg⟩
    have hle := (Loop.isGreatest_foldl_max (fun e ↦ (g.pAllEdges e).nodeNum) cutEdges 0).2
      (Or.inr ⟨e, he, rfl⟩)
    exact ⟨(g.pAllEdges e).nodeNum.toNat, by omega, he, (Int.toNat_of_nonneg hnonneg).symm⟩

/-- **Larger edges are met first.** -/
theorem pairwise_rankOrder (g : CMygraph) (cutEdges : List ℕ) :
    (rankOrder g cutEdges).Pairwise fun e e' ↦
    (g.pAllEdges e').nodeNum ≤ (g.pAllEdges e).nodeNum := by
  rw [rankOrder, List.pairwise_flatMap]
  refine ⟨fun i _ ↦ ?_, ?_⟩
  · refine List.pairwise_of_forall_mem_list fun e he e' he' ↦ ?_
    exact (((mem_foldl_file _ _ _).1 he').2.trans ((mem_foldl_file _ _ _).1 he).2.symm).le
  · rw [List.pairwise_reverse]
    refine List.pairwise_lt_range.imp fun {i j} hij e he e' he' ↦ ?_
    rw [((mem_foldl_file _ _ _).1 he).2, ((mem_foldl_file _ _ _).1 he').2]
    exact_mod_cast hij.le

/-- The nodes ranked so far are `seen`. -/
structure Ranked (s : RankState) (seen : List ℕ) : Prop where
  marks : Marks s.ExitInList seen
  step_eq : s.step = seen.length

/-- They have their positions as ranks, and the other nodes what the array held before. -/
structure RankedFrom (raw : ℕ → ℤ) (s : RankState) (seen : List ℕ) : Prop
    extends Ranked s seen where
  rankValue_eq : s.RankValue = seen.length
  node_rank_eq : ∀ v, s.Node_Rank v = if v ∈ seen then (number seen v : ℤ) else raw v

theorem rankedFrom_init (raw : ℕ → ℤ) : RankedFrom raw { Node_Rank := raw } [] where
  marks := marks_empty
  step_eq := rfl
  rankValue_eq := rfl
  node_rank_eq _ := rfl

/-- **One node.** -/
theorem RankedFrom.rankNode {raw : ℕ → ℤ} {s : RankState} {seen : List ℕ}
    (h : RankedFrom raw s seen) (total x : ℕ) :
    RankedFrom raw (rankNode total s x) (pushUpTo total seen x) := by
  rw [CArchitecture.rankNode, pushUpTo]
  by_cases hfull : total ≤ seen.length
  · rw [if_pos hfull, if_pos (h.step_eq ▸ hfull)]
    exact h
  · rw [if_neg hfull, if_neg (h.step_eq ▸ hfull)]
    cases hx : s.ExitInList.find? x with
    | some b =>
      rw [push_of_mem (h.marks.mem_of_find? hx)]
      exact h
    | none =>
      have hnew := h.marks.notMem_of_find? hx
      rw [push_of_notMem hnew]
      refine ⟨⟨h.marks.insert hx true, ?_⟩, ?_, fun v ↦ ?_⟩
      · rw [List.length_append, List.length_singleton, ← h.step_eq]
      · rw [List.length_append, List.length_singleton, ← h.rankValue_eq]
      · show Function.update s.Node_Rank x s.RankValue v = _
        rcases eq_or_ne v x with rfl | hne
        · rw [Function.update_self, if_pos (by simp), number_append_self hnew, h.rankValue_eq]
        · rw [Function.update_of_ne hne, h.node_rank_eq v]
          by_cases hv : v ∈ seen
          · rw [if_pos hv, if_pos (List.mem_append_left _ hv),
              number_eq_of_isPrefix (List.prefix_append _ _) hv]
          · rw [if_neg hv, if_neg (by simp [hv, hne])]

theorem RankedFrom.foldl_rankNode {raw : ℕ → ℤ} (total : ℕ) (l : List ℕ) {s : RankState}
    {seen : List ℕ} (h : RankedFrom raw s seen) (hlen : seen.length ≤ total) :
    RankedFrom raw (l.foldl (CArchitecture.rankNode total) s) ((scan seen l).take total) := by
  rw [← foldl_pushUpTo hlen]
  exact List.foldl_rel h fun x _ _ _ h ↦ h.rankNode total x

/-- The nodes in the order in which they are met. -/
def rankScan (g : CMygraph) (cutEdges : List ℕ) : List ℕ :=
  scan [] ((rankOrder g cutEdges).flatMap fun e ↦ (g.pAllEdges e).arcs)

theorem nodup_rankScan (g : CMygraph) (cutEdges : List ℕ) : (rankScan g cutEdges).Nodup :=
  nodup_scan List.nodup_nil _

theorem mem_rankScan (hnonneg : ∀ e ∈ cutEdges, 0 ≤ (g.pAllEdges e).nodeNum) {v : ℕ} :
    v ∈ rankScan g cutEdges ↔ v ∈ findCutNodes g cutEdges := by
  rw [rankScan, mem_scan, List.mem_flatMap, mem_findCutNodes]
  constructor
  · rintro (hnil | ⟨e, he, hv⟩)
    · exact absurd hnil List.not_mem_nil
    · exact ⟨e, (mem_rankOrder.1 he).1, hv⟩
  · rintro ⟨e, he, hv⟩
    exact Or.inr ⟨e, mem_rankOrder.2 ⟨he, hnonneg e he⟩, hv⟩

theorem perm_rankScan (hnonneg : ∀ e ∈ cutEdges, 0 ≤ (g.pAllEdges e).nodeNum) :
    (rankScan g cutEdges).Perm (findCutNodes g cutEdges) :=
  (List.perm_ext_iff_of_nodup (nodup_rankScan g cutEdges) (nodup_findCutNodes g cutEdges)).2
    fun _ ↦ mem_rankScan hnonneg

/-- **`NodeRank` returns** after one pass, in which it has ranked the nodes in the order in which it
met them. -/
theorem exists_nodeRank_eq {fuel : ℕ} (hfuel : 2 ≤ fuel) (raw : ℕ → ℤ)
    (hnonneg : ∀ e ∈ cutEdges, 0 ≤ (g.pAllEdges e).nodeNum) :
    ∃ Node_Rank, nodeRank fuel g (findCutNodes g cutEdges) cutEdges raw = some Node_Rank ∧
      ∀ v, Node_Rank v =
        if v ∈ rankScan g cutEdges then (number (rankScan g cutEdges) v : ℤ) else raw v := by
  have hlen := (perm_rankScan hnonneg).length_eq
  suffices h : ∃ s, Loop.run (rankRound g (findCutNodes g cutEdges) cutEdges) fuel
      { Node_Rank := raw } = some s ∧ RankedFrom raw s (rankScan g cutEdges) by
    obtain ⟨s, hs, hranked⟩ := h
    refine ⟨s.Node_Rank, ?_, hranked.node_rank_eq⟩
    rw [nodeRank, hs, Option.map_some]
  rcases Nat.eq_zero_or_pos (findCutNodes g cutEdges).length with hzero | hpos
  · -- without cut nodes the loop is not entered
    have hexit : rankRound g (findCutNodes g cutEdges) cutEdges { Node_Rank := raw } =
        Sum.inr { Node_Rank := raw } := if_neg hzero.not_gt
    refine ⟨_, Loop.run_eq_of_inr hexit (by omega), ?_⟩
    rw [List.length_eq_zero_iff.1 (hlen.trans hzero)]
    exact rankedFrom_init raw
  · set t := (rankOrder g cutEdges).foldl (fun s e ↦
      (g.pAllEdges e).arcs.foldl (rankNode (findCutNodes g cutEdges).length) s)
      { Node_Rank := raw } with ht
    have hranked : RankedFrom raw t (rankScan g cutEdges) := by
      have hfold := (rankedFrom_init raw).foldl_rankNode (findCutNodes g cutEdges).length
        ((rankOrder g cutEdges).flatMap fun e ↦ (g.pAllEdges e).arcs) (Nat.zero_le _)
      rwa [List.foldl_flatMap, ← rankScan, List.take_of_length_le hlen.le] at hfold
    have hpass : rankRound g (findCutNodes g cutEdges) cutEdges { Node_Rank := raw } = Sum.inl t :=
      if_pos hpos
    refine ⟨t, Loop.run_eq_of_pass hpass (if_neg ?_) hfuel, hranked⟩
    rw [hranked.step_eq, hlen]
    exact Nat.lt_irrefl _

/-- `NodeRank` returns. -/
theorem exists_nodeRank {fuel : ℕ} (hfuel : 2 ≤ fuel) (raw : ℕ → ℤ)
    (hnonneg : ∀ e ∈ cutEdges, 0 ≤ (g.pAllEdges e).nodeNum) :
    ∃ Node_Rank, nodeRank fuel g (findCutNodes g cutEdges) cutEdges raw = some Node_Rank := by
  obtain ⟨Node_Rank, hrank, -⟩ := exists_nodeRank_eq hfuel raw hnonneg
  exact ⟨Node_Rank, hrank⟩

/-- What is met in the edges up to some point. -/
theorem isPrefix_rankScan {front rear : List ℕ} (h : rankOrder g cutEdges = front ++ rear) :
    scan [] (front.flatMap fun e ↦ (g.pAllEdges e).arcs) <+: rankScan g cutEdges := by
  rw [rankScan, h, List.flatMap_append, scan_append]
  exact isPrefix_scan _ _

/-- A node that is met before another one has an edge at least as large as all edges of that one. -/
theorem exists_larger_of_number_lt {u v : ℕ}
    (h : number (rankScan g cutEdges) u < number (rankScan g cutEdges) v) {e' : ℕ}
    (he' : e' ∈ rankOrder g cutEdges) (hv : v ∈ (g.pAllEdges e').arcs) :
    ∃ e ∈ rankOrder g cutEdges, u ∈ (g.pAllEdges e).arcs ∧
      (g.pAllEdges e').nodeNum ≤ (g.pAllEdges e).nodeNum := by
  obtain ⟨before, after, horder⟩ := List.append_of_mem he'
  have hsorted := pairwise_rankOrder g cutEdges
  rw [horder, List.pairwise_append] at hsorted
  by_cases hu : u ∈ scan [] ((before ++ [e']).flatMap fun e ↦ (g.pAllEdges e).arcs)
  · -- the first edge of `u` comes before this edge, or is this edge
    rw [mem_scan, List.mem_flatMap, or_iff_right List.not_mem_nil] at hu
    obtain ⟨e, he, hue⟩ := hu
    rcases List.mem_append.1 he with he | he
    · exact ⟨e, horder ▸ List.mem_append_left _ he, hue,
        hsorted.2.2 e he e' List.mem_cons_self⟩
    · obtain rfl := List.mem_singleton.1 he
      exact ⟨e, he', hue, le_rfl⟩
  · -- else `v` is met up to this edge and `u` is not
    have hmet : v ∈ scan [] ((before ++ [e']).flatMap fun e ↦ (g.pAllEdges e).arcs) := by
      rw [mem_scan, List.mem_flatMap]
      exact Or.inr ⟨e', by simp, hv⟩
    exact absurd h (number_lt_number
      (isPrefix_rankScan (horder.trans (List.append_cons before e' after))) hmet hu).not_gt

end Rank

/-- The size of the largest cut edge of a node. -/
def largestCutEdge (g : CMygraph) (cutEdges : List ℕ) (v : ℕ) : ℤ :=
  (cutEdges.filter fun e ↦ v ∈ (g.pAllEdges e).arcs).foldl
    (fun m e ↦ max m (g.pAllEdges e).nodeNum) 0

/-- **`NodeRank` ranks the cut nodes**, and no other node: each rank below their number is given
once, and the nodes of larger cut edges come first. -/
theorem nodeRank_bijOn {p : CHypergraph} (hw : p.WellFormed)
    (hunit : ∀ v < p.nvtxs, p.vwgts v = 1) (part_res raw : ℕ → ℤ) {fuel : ℕ} (hfuel : 2 ≤ fuel) :
    let g := CMygraph.ofHypergraph p
    let cutEdges := findCutEdges g part_res
    let cutNodes := findCutNodes g cutEdges
    ∃ Node_Rank, nodeRank fuel g cutNodes cutEdges raw = some Node_Rank ∧
      (∀ v ∉ cutNodes, Node_Rank v = raw v) ∧
      Set.BijOn Node_Rank {v | v ∈ cutNodes} {k | 0 ≤ k ∧ k < cutNodes.length} ∧
      ∀ u ∈ cutNodes, ∀ v ∈ cutNodes, Node_Rank u < Node_Rank v →
        largestCutEdge g cutEdges v ≤ largestCutEdge g cutEdges u := by
  intro g cutEdges cutNodes
  have hrep := CMygraph.represents_ofHypergraph p
  have hnonneg : ∀ e ∈ cutEdges, 0 ≤ (g.pAllEdges e).nodeNum := by
    intro e he
    exact hrep.nodeNum_nonneg hw.pins_lt (fun v hv ↦ (hunit v hv).ge.trans' Int.one_nonneg) e
      (lt_of_mem_findCutEdges he)
  obtain ⟨Node_Rank, hrank, heq⟩ := exists_nodeRank_eq hfuel raw hnonneg
  have hmem : ∀ v, v ∈ rankScan g cutEdges ↔ v ∈ cutNodes := fun v ↦ mem_rankScan hnonneg
  have hnumber : ∀ v ∈ cutNodes, Node_Rank v = number (rankScan g cutEdges) v :=
    fun v hv ↦ (heq v).trans (if_pos ((hmem v).2 hv))
  refine ⟨Node_Rank, hrank, fun v hv ↦ (heq v).trans (if_neg fun h ↦ hv ((hmem v).1 h)), ?_, ?_⟩
  · have hbij := bijOn_number (nodup_rankScan g cutEdges)
    have hlen : (rankScan g cutEdges).length = cutNodes.length := (perm_rankScan hnonneg).length_eq
    refine ⟨fun v hv ↦ ?_, fun u hu v hv huv ↦ ?_, fun k hk ↦ ?_⟩
    · have hlt : number (rankScan g cutEdges) v < _ := hbij.mapsTo ((hmem v).2 hv)
      show 0 ≤ Node_Rank v ∧ Node_Rank v < cutNodes.length
      rw [hnumber v hv]
      omega
    · rw [hnumber u hu, hnumber v hv, Nat.cast_inj] at huv
      exact hbij.injOn ((hmem u).2 hu) ((hmem v).2 hv) huv
    · obtain ⟨hk0, hklt⟩ := hk
      obtain ⟨v, hv, hvk⟩ := hbij.surjOn (show k.toNat < (rankScan g cutEdges).length by omega)
      refine ⟨v, (hmem v).1 hv, ?_⟩
      rw [hnumber v ((hmem v).1 hv), hvk, Int.toNat_of_nonneg hk0]
  · intro u hu v hv huv
    rw [hnumber u hu, hnumber v hv, Nat.cast_lt] at huv
    have hgreatest := fun w ↦ Loop.isGreatest_foldl_max (fun e ↦ (g.pAllEdges e).nodeNum)
      (cutEdges.filter fun e ↦ w ∈ (g.pAllEdges e).arcs) 0
    rcases (hgreatest v).1 with hzero | ⟨e', he', hsize⟩
    · exact hzero.trans_le ((hgreatest u).2 (Or.inl rfl))
    · obtain ⟨hcut, hve'⟩ := List.mem_filter.1 he'
      obtain ⟨e, he, hue, hle⟩ := exists_larger_of_number_lt huv
        (mem_rankOrder.2 ⟨hcut, hnonneg e' hcut⟩) (by simpa using hve')
      refine (hsize.trans_le hle).trans ((hgreatest u).2 (Or.inr ⟨e, ?_, rfl⟩))
      exact List.mem_filter.2 ⟨(mem_rankOrder.1 he).1, by simpa using hue⟩

/-- Two cut edges of different size that share a vertex. -/
def sampleRanks : CHypergraph := CHypergraph.ofRows 4 [[0, 1], [1, 2, 3]]

/-- The labelling that cuts both. -/
def rankSides : ℕ → ℤ := fun v ↦ if v = 1 then 1 else 0

theorem nodeRank_bijOn_sampleRanks :
    (sampleRanks.WellFormed ∧ ∀ v < sampleRanks.nvtxs, sampleRanks.vwgts v = 1) ∧
    ∃ Node_Rank, nodeRank 2 (CMygraph.ofHypergraph sampleRanks)
        (findCutNodes (CMygraph.ofHypergraph sampleRanks)
          (findCutEdges (CMygraph.ofHypergraph sampleRanks) rankSides))
        (findCutEdges (CMygraph.ofHypergraph sampleRanks) rankSides) (fun _ ↦ 0) =
          some Node_Rank := by
  have hhyps : sampleRanks.WellFormed ∧ ∀ v < sampleRanks.nvtxs, sampleRanks.vwgts v = 1 := by
    decide
  obtain ⟨Node_Rank, hrank, -⟩ :=
    nodeRank_bijOn hhyps.1 hhyps.2 rankSides (fun _ ↦ 0) (le_refl 2)
  exact ⟨hhyps, Node_Rank, hrank⟩

/-! ### Rounds -/

section Rounds

variable {g : CMygraph} {total : ℕ} {Node_Rank : ℕ → ℤ} {pCutNodes : ℕ → List ℕ} {s : ClimbState}
  {fl : ℚ → ℚ}

theorem climb_of_le (k : ℕ) (h : total ≤ s.fixnum) :
    climb g total Node_Rank pCutNodes k s fl = s := by
  cases k with
  | zero => rfl
  | succ k => rw [climb, if_neg (not_lt.2 h)]

/-- The round that finds the last candidate. -/
theorem climb_of_last (k : ℕ) (hlt : s.fixnum < total)
    (hlast : (pickCandidate Node_Rank s).HeapLen = 0) :
    climb g total Node_Rank pCutNodes (k + 1) s fl = pickCandidate Node_Rank s := by
  rw [climb, if_pos hlt, climbStep, if_pos hlast]

/-- Any other round. -/
theorem climb_of_move (k : ℕ) (hlt : s.fixnum < total)
    (hlast : (pickCandidate Node_Rank s).HeapLen ≠ 0) :
    climb g total Node_Rank pCutNodes (k + 1) s fl =
      climb g total Node_Rank pCutNodes k
        (moveCandidate g pCutNodes (pickCandidate Node_Rank s) fl) fl := by
  rw [climb, if_pos hlt, climbStep, if_neg hlast]

/-- **The rule for runs of the climb**: what taking the last candidate and what taking another one
and moving it preserve holds after any number of rounds. -/
theorem climb_invariant (I : ClimbState → Prop)
    (hlast : ∀ t, I t → t.fixnum < total → (pickCandidate Node_Rank t).HeapLen = 0 →
      I (pickCandidate Node_Rank t))
    (hmove : ∀ t, I t → t.fixnum < total → (pickCandidate Node_Rank t).HeapLen ≠ 0 →
      I (moveCandidate g pCutNodes (pickCandidate Node_Rank t) fl))
    (hs : I s) (k : ℕ) : I (climb g total Node_Rank pCutNodes k s fl) := by
  induction k generalizing s with
  | zero => exact hs
  | succ k ih =>
    rcases lt_or_ge s.fixnum total with hlt | hle
    · by_cases hlen : (pickCandidate Node_Rank s).HeapLen = 0
      · rw [climb_of_last k hlt hlen]
        exact hlast s hs hlt hlen
      · rw [climb_of_move k hlt hlen]
        exact ih (hmove s hs hlt hlen)
    · rw [climb_of_le _ hle]
      exact hs

end Rounds

/-! ### Labellings with two parts -/

/-- Every vertex has the label `0` or `1`. -/
def IsBisection (g : CMygraph) (part_res : ℕ → ℤ) : Prop :=
  ∀ v < g.nvetes, part_res v = 0 ∨ part_res v = 1

theorem IsBisection.update {g : CMygraph} {part_res : ℕ → ℤ} (h : IsBisection g part_res) (v : ℕ)
    {x : ℤ} (hx : x = 0 ∨ x = 1) : IsBisection g (Function.update part_res v x) := by
  intro u hu
  rcases eq_or_ne u v with rfl | hne
  · rw [Function.update_self]
    exact hx
  · rw [Function.update_of_ne hne]
    exact h u hu

theorem IsBisection.flipNode {g : CMygraph} {part_res : ℕ → ℤ} (h : IsBisection g part_res)
    (v : ℕ) : IsBisection g (flipNode part_res v) := by
  refine h.update v ?_
  split_ifs
  · exact Or.inl rfl
  · exact Or.inr rfl

/-- A candidate's value is the modularity of the labelling that moving it leads to. -/
theorem IsBisection.evaluateNode_eq {g : CMygraph} {part_res : ℕ → ℤ} (h : IsBisection g part_res)
    {v : ℕ} (hv : v < g.nvetes) :
    evaluateNode g part_res v = computeModularity g (CArchitecture.flipNode part_res v) := by
  rw [evaluateNode, CArchitecture.flipNode]
  rcases h v hv with h₀ | h₁
  · rw [if_pos h₀, if_neg (by rw [h₀]; decide)]
  · rw [if_neg (by rw [h₁]; decide), if_pos h₁, if_pos h₁]

/-- Popping a stone undoes its move. -/
theorem IsBisection.undo_flipNode {g : CMygraph} {part_res : ℕ → ℤ} (h : IsBisection g part_res)
    {v : ℕ} (hv : v < g.nvetes) :
    Function.update (CArchitecture.flipNode part_res v) v
      (if CArchitecture.flipNode part_res v v = 0 then 1 else 0) = part_res := by
  rw [CArchitecture.flipNode, Function.update_idem, Function.update_self]
  refine Function.update_eq_self_iff.2 ?_
  rcases h v hv with h₀ | h₁
  · rw [if_neg (by rw [h₀]; decide : ¬ part_res v = 1), if_neg (by decide), h₀]
  · rw [if_pos h₁, if_pos rfl, h₁]

theorem IsBisection.rollBack {g : CMygraph} (maxModu : ℚ) (hill : List Stone) {part_res : ℕ → ℤ}
    (h : IsBisection g part_res) : IsBisection g (rollBack maxModu hill part_res) := by
  induction hill generalizing part_res with
  | nil => exact h
  | cons stone hill ih =>
    rw [CArchitecture.rollBack]
    split_ifs
    · exact h
    · exact ih (h.update _ (Or.inr rfl))
    · exact ih (h.update _ (Or.inl rfl))
    · exact ih h

theorem IsBisection.climb {g : CMygraph} {total : ℕ} {Node_Rank : ℕ → ℤ} {pCutNodes : ℕ → List ℕ}
    (k : ℕ) {s : ClimbState} {fl : ℚ → ℚ} (h : IsBisection g s.part_res) :
    IsBisection g (climb g total Node_Rank pCutNodes k s fl).part_res :=
  climb_invariant (fun t ↦ IsBisection g t.part_res) (fun _ ht _ _ ↦ ht)
    (fun _ ht _ _ ↦ ht.flipNode _) h k

/-- **Refining keeps two parts**, whatever the graph is and however the values are rounded. -/
theorem IsBisection.myFM {g : CMygraph} {part_res raw : ℕ → ℤ} {fuel : ℕ} {fl : ℚ → ℚ}
    {r : ℚ × (ℕ → ℤ)} (h : IsBisection g part_res) (hr : myFM fuel g raw part_res fl = some r) :
    IsBisection g r.2 := by
  rw [CArchitecture.myFM] at hr
  obtain ⟨Node_Rank, -, hr⟩ := Option.bind_eq_some_iff.1 hr
  obtain rfl := Option.some.inj hr
  exact IsBisection.rollBack _ _ (IsBisection.climb _ h)

/-- The best value never drops. -/
theorem le_maxModu_climb {g : CMygraph} {total : ℕ} {Node_Rank : ℕ → ℤ} {pCutNodes : ℕ → List ℕ}
    (k : ℕ) (s : ClimbState) {fl : ℚ → ℚ} :
    s.maxModu ≤ (climb g total Node_Rank pCutNodes k s fl).maxModu := by
  refine climb_invariant (fun t ↦ s.maxModu ≤ t.maxModu) (fun _ ht _ _ ↦ ht)
    (fun t ht _ _ ↦ ?_) le_rfl k
  show s.maxModu ≤ if _ then _ else _
  split_ifs with hbetter
  · exact ht.trans hbetter.le
  · exact ht

/-- **`myFM` returns** a value no less than the modularity that it starts from, however the values
are rounded. -/
theorem exists_myFM_eq_some {g : CMygraph} {fuel : ℕ} (hfuel : 2 ≤ fuel)
    (hnonneg : ∀ e < g.nhedges, 0 ≤ (g.pAllEdges e).nodeNum) (raw part_res : ℕ → ℤ)
    (fl : ℚ → ℚ) :
    ∃ r, myFM fuel g raw part_res fl = some r ∧ computeModularity g part_res fl ≤ r.1 := by
  obtain ⟨Node_Rank, hrank⟩ := exists_nodeRank hfuel raw
    fun e (he : e ∈ findCutEdges g part_res) ↦ hnonneg e (lt_of_mem_findCutEdges he)
  refine ⟨hillClimbing g part_res _ Node_Rank _ fl, ?_, le_maxModu_climb iDistance
    (climbInit g part_res (findCutNodes g (findCutEdges g part_res))
      (findZeroNodeCount g (findCutEdges g part_res) part_res).1 fl)⟩
  rw [myFM]
  simp only [hrank]
  rfl

/-! ### What the stones record -/

/-- The value a move was recorded with: the modularity it had when it was last evaluated. -/
def ClimbMove.recorded (g : CMygraph) (m : ClimbMove) : ℚ :=
  computeModularity g (flipNode m.evaluated m.node)

/-- The modularity of the labelling that the move leads to. -/
def ClimbMove.reached (g : CMygraph) (m : ClimbMove) : ℚ :=
  computeModularity g (flipNode m.before m.node)

/-- The labelling after the given moves. -/
def labelAfter (part₀ : ℕ → ℤ) : List ClimbMove → ℕ → ℤ
  | [] => part₀
  | m :: _ => flipNode m.before m.node

/-- The largest value on the stack. -/
def bestRecorded (g : CMygraph) (part₀ : ℕ → ℤ) : List ClimbMove → ℚ
  | [] => computeModularity g part₀
  | m :: moves => max (bestRecorded g part₀ moves) (m.recorded g)

/-- The moves that are left after rolling back to the value `best`. -/
def keptMoves (g : CMygraph) (best : ℚ) (moves : List ClimbMove) : List ClimbMove :=
  moves.dropWhile fun m ↦ m.recorded g ≠ best

/-- Every move starts where the one before it ended, and the first one where the candidates were
evaluated. -/
inductive Chained (g : CMygraph) (part₀ : ℕ → ℤ) : List ClimbMove → Prop
  | nil : Chained g part₀ []
  | cons {m : ClimbMove} {moves : List ClimbMove} : Chained g part₀ moves →
      m.before = labelAfter part₀ moves → (moves = [] → m.evaluated = m.before) →
      IsBisection g m.before → m.node < g.nvetes → Chained g part₀ (m :: moves)

/-- The stack that belongs to the given moves. -/
def stonesOf (g : CMygraph) (part₀ : ℕ → ℤ) (moves : List ClimbMove) : List Stone :=
  (moves.map fun m ↦ { curModu := m.recorded g, node := m.node, isChanged := true }) ++
    [{ curModu := computeModularity g part₀, node := -1, isChanged := false }]

/-- **Rolling back** to a value returns to the labelling after the moves that are kept. -/
theorem rollBack_stonesOf {g : CMygraph} {part₀ : ℕ → ℤ} {moves : List ClimbMove}
    (h : Chained g part₀ moves) (best : ℚ) :
    rollBack best (stonesOf g part₀ moves) (labelAfter part₀ moves) =
      labelAfter part₀ (keptMoves g best moves) := by
  induction h with
  | nil =>
    rw [stonesOf, List.map_nil, List.nil_append, rollBack]
    rcases eq_or_ne (computeModularity g part₀) best with hbest | hbest
    · exact if_pos hbest
    · exact if_neg hbest
  | @cons m moves hmoves hbefore _ hbis hnode ih =>
    rw [keptMoves, List.dropWhile_cons]
    rcases eq_or_ne (m.recorded g) best with hbest | hbest
    · rw [if_neg (by simpa using hbest)]
      exact if_pos hbest
    · rw [if_pos (by simpa using hbest), ← keptMoves, ← ih, ← hbefore]
      have hpop := hbis.undo_flipNode hnode
      refine (if_neg hbest).trans ?_
      rw [if_pos rfl]
      exact congrArg (rollBack best (stonesOf g part₀ moves)) hpop

theorem le_bestRecorded (g : CMygraph) (part₀ : ℕ → ℤ) (moves : List ClimbMove) :
    computeModularity g part₀ ≤ bestRecorded g part₀ moves := by
  induction moves with
  | nil => exact le_rfl
  | cons m moves ih => exact ih.trans (le_max_left _ _)

theorem recorded_le_bestRecorded (g : CMygraph) (part₀ : ℕ → ℤ) {moves : List ClimbMove}
    {m : ClimbMove} (hm : m ∈ moves) : m.recorded g ≤ bestRecorded g part₀ moves := by
  induction moves with
  | nil => exact absurd hm List.not_mem_nil
  | cons m' moves ih =>
    rcases List.mem_cons.1 hm with rfl | hm
    · exact le_max_right _ _
    · exact (ih hm).trans (le_max_left _ _)

/-- The largest value is the first one or that of a move. -/
theorem bestRecorded_eq_or_exists (g : CMygraph) (part₀ : ℕ → ℤ) (moves : List ClimbMove) :
    bestRecorded g part₀ moves = computeModularity g part₀ ∨
      ∃ m ∈ moves, m.recorded g = bestRecorded g part₀ moves := by
  induction moves with
  | nil => exact Or.inl rfl
  | cons m moves ih =>
    rw [bestRecorded]
    rcases max_choice (bestRecorded g part₀ moves) (m.recorded g) with hmax | hmax
    · rw [hmax]
      exact ih.imp_right fun ⟨m', hm', heq⟩ ↦ ⟨m', List.mem_cons_of_mem _ hm', heq⟩
    · rw [hmax]
      exact Or.inr ⟨m, List.mem_cons_self, rfl⟩

/-- If no move is kept, no move was recorded with the largest value, which then is the first one. -/
theorem bestRecorded_eq_of_keptMoves_eq_nil {g : CMygraph} {part₀ : ℕ → ℤ} {moves : List ClimbMove}
    (h : keptMoves g (bestRecorded g part₀ moves) moves = []) :
    bestRecorded g part₀ moves = computeModularity g part₀ := by
  have hne : ∀ m ∈ moves, m.recorded g ≠ bestRecorded g part₀ moves := by
    simpa [keptMoves, List.dropWhile_eq_nil_iff] using h
  refine (bestRecorded_eq_or_exists g part₀ moves).resolve_right ?_
  rintro ⟨m, hm, heq⟩
  exact hne m hm heq

theorem recorded_of_keptMoves_eq_cons {g : CMygraph} {best : ℚ} {m : ClimbMove}
    {moves kept : List ClimbMove} (h : keptMoves g best moves = m :: kept) :
    m.recorded g = best := by
  have hhead := List.head?_dropWhile_not (fun m : ClimbMove ↦ decide (m.recorded g ≠ best)) moves
  rw [← keptMoves, h] at hhead
  simpa using hhead

/-- The last move that was recorded with at least the largest value before it. -/
def lastRecord (g : CMygraph) (part₀ : ℕ → ℤ) : List ClimbMove → Option ClimbMove
  | [] => none
  | m :: moves =>
    if bestRecorded g part₀ moves ≤ m.recorded g then some m else lastRecord g part₀ moves

/-- It is the last move that rolling back keeps. -/
theorem head?_keptMoves (g : CMygraph) (part₀ : ℕ → ℤ) (moves : List ClimbMove) :
    (keptMoves g (bestRecorded g part₀ moves) moves).head? = lastRecord g part₀ moves := by
  induction moves with
  | nil => rfl
  | cons m moves ih =>
    rw [keptMoves, List.dropWhile_cons, bestRecorded, lastRecord]
    rcases le_or_gt (bestRecorded g part₀ moves) (m.recorded g) with hle | hlt
    · rw [if_pos hle, max_eq_right hle, if_neg (by simp)]
      rfl
    · rw [if_neg hlt.not_ge, max_eq_left hlt.le, if_pos (by simpa using hlt.ne), ← ih]
      rfl

/-! ### The invariant of the climb -/

/-- The climb from `part₀` over `total` candidates has reached this state. -/
structure Climbed (g : CMygraph) (part₀ : ℕ → ℤ) (total : ℕ) (s : ClimbState) : Prop where
  chained : Chained g part₀ s.trace
  part_eq : s.part_res = labelAfter part₀ s.trace
  hill_eq : s.hill = stonesOf g part₀ s.trace
  maxModu_eq : s.maxModu = bestRecorded g part₀ s.trace
  isBisection : IsBisection g s.part_res
  evaluated_isBisection : IsBisection g s.evaluated
  heapLen_add : s.HeapLen + s.fixnum = total
  evaluated_eq : s.trace = [] → s.evaluated = s.part_res
  length_trace_le : s.trace.length ≤ s.fixnum
  /-- The last candidate is never moved. -/
  length_trace_le_sub_one : s.trace.length ≤ total - 1
  node_lt : ∀ i < s.HeapLen, (s.pModularityList i).node < g.nvetes
  /-- The candidates hold the values they had when they were last evaluated. -/
  dMod_eq : ∀ i < s.HeapLen, (s.pModularityList i).dMod =
    computeModularity g (flipNode s.evaluated (s.pModularityList i).node)

section Climb

variable {g : CMygraph} {part₀ : ℕ → ℤ} {total : ℕ} {s : ClimbState}

/-- Before the loop. -/
theorem climbed_climbInit {cutNodes : List ℕ} (hpart : IsBisection g part₀)
    (hcut : ∀ v ∈ cutNodes, v < g.nvetes) (zero : ℕ → ℤ) :
    Climbed g part₀ cutNodes.length (climbInit g part₀ cutNodes zero) := by
  have hnode : ∀ i < cutNodes.length, cutNodes.getD i 0 < g.nvetes := by
    intro i hi
    rw [List.getD_eq_getElem _ _ hi]
    exact hcut _ (List.getElem_mem hi)
  exact {
    chained := Chained.nil
    part_eq := rfl
    hill_eq := rfl
    maxModu_eq := rfl
    isBisection := hpart
    evaluated_isBisection := hpart
    heapLen_add := Nat.add_zero _
    evaluated_eq := fun _ ↦ rfl
    length_trace_le := le_rfl
    length_trace_le_sub_one := Nat.zero_le _
    node_lt := hnode
    dMod_eq := fun i hi ↦ hpart.evaluateNode_eq (hnode i hi) }

/-- A candidate that is taken out is counted. -/
theorem heapLen_add_pickCandidate (h : s.HeapLen + s.fixnum = total) (hlt : s.fixnum < total)
    (Node_Rank : ℕ → ℤ) :
    (pickCandidate Node_Rank s).HeapLen + (pickCandidate Node_Rank s).fixnum = total := by
  show s.HeapLen - 1 + (s.fixnum + 1) = total
  omega

/-- Whatever `getMax` does to the order, each candidate keeps its node and its value, and so does
the one that it takes out. -/
theorem Climbed.pickCandidate (h : Climbed g part₀ total s) (hlt : s.fixnum < total)
    (Node_Rank : ℕ → ℤ) :
    Climbed g part₀ total (pickCandidate Node_Rank s) ∧
      ((CArchitecture.pickCandidate Node_Rank s).pModularityList (s.HeapLen - 1)).node < g.nvetes ∧
      ((CArchitecture.pickCandidate Node_Rank s).pModularityList (s.HeapLen - 1)).dMod =
        computeModularity g (flipNode s.evaluated
          ((CArchitecture.pickCandidate Node_Rank s).pModularityList (s.HeapLen - 1)).node) := by
  have hlen := h.heapLen_add
  have hmoved := rearranges_getMax s.renew (by omega : 0 < s.HeapLen) Node_Rank s.pModularityList
  have hnode : ∀ i < s.HeapLen,
      ((CArchitecture.pickCandidate Node_Rank s).pModularityList i).node < g.nvetes := by
    intro i hi
    obtain ⟨l, hl, heq⟩ := hmoved.exists_eq hi
    exact (congrArg ModStruct.node heq).trans_lt (h.node_lt l hl)
  have hdMod : ∀ i < s.HeapLen,
      ((CArchitecture.pickCandidate Node_Rank s).pModularityList i).dMod =
        computeModularity g (flipNode s.evaluated
          ((CArchitecture.pickCandidate Node_Rank s).pModularityList i).node) := by
    intro i hi
    obtain ⟨l, hl, heq⟩ := hmoved.exists_eq hi
    refine (congrArg ModStruct.dMod heq).trans ((h.dMod_eq l hl).trans ?_)
    exact congrArg (fun c : ModStruct ↦ computeModularity g (flipNode s.evaluated c.node)) heq.symm
  refine ⟨?_, hnode _ (by omega), hdMod _ (by omega)⟩
  exact {
    chained := h.chained
    part_eq := h.part_eq
    hill_eq := h.hill_eq
    maxModu_eq := h.maxModu_eq
    isBisection := h.isBisection
    evaluated_isBisection := h.evaluated_isBisection
    heapLen_add := heapLen_add_pickCandidate hlen hlt Node_Rank
    evaluated_eq := h.evaluated_eq
    length_trace_le := h.length_trace_le.trans (Nat.le_succ _)
    length_trace_le_sub_one := h.length_trace_le_sub_one
    node_lt := fun i hi ↦ hnode i (hi.trans_le (Nat.sub_le _ _))
    dMod_eq := fun i hi ↦ hdMod i (hi.trans_le (Nat.sub_le _ _)) }

/-- Evaluating the candidates again leaves their nodes. -/
theorem node_moveCandidate (pCutNodes : ℕ → List ℕ) (s : ClimbState) (i : ℕ) :
    ((moveCandidate g pCutNodes s).pModularityList i).node = (s.pModularityList i).node := by
  simp only [moveCandidate]
  split_ifs
  · rw [evaluateAll]
    split_ifs <;> rfl
  · rfl

/-- A move whose value was computed in the labelling that the state remembers. -/
theorem Climbed.moveCandidate (h : Climbed g part₀ total s) (hlen : s.HeapLen ≠ 0)
    (htrace : s.trace.length < s.fixnum)
    (hnode : (s.pModularityList s.HeapLen).node < g.nvetes)
    (hdMod : (s.pModularityList s.HeapLen).dMod =
      computeModularity g (flipNode s.evaluated (s.pModularityList s.HeapLen).node))
    (pCutNodes : ℕ → List ℕ) : Climbed g part₀ total (moveCandidate g pCutNodes s) := by
  have hflip := h.isBisection.flipNode (s.pModularityList s.HeapLen).node
  exact {
    chained := h.chained.cons h.part_eq h.evaluated_eq h.isBisection hnode
    part_eq := rfl
    hill_eq := by
      show Stone.mk _ _ _ :: s.hill = _
      rw [h.hill_eq, hdMod]
      rfl
    maxModu_eq := by
      show (if (s.pModularityList s.HeapLen).dMod > s.maxModu then
        (s.pModularityList s.HeapLen).dMod else s.maxModu) = max _ _
      rw [h.maxModu_eq, hdMod]
      exact (max_def_lt _ _).symm
    isBisection := hflip
    evaluated_isBisection := by
      show IsBisection g (if _ then _ else _)
      split_ifs
      · exact hflip
      · exact h.evaluated_isBisection
    heapLen_add := h.heapLen_add
    evaluated_eq := fun hnil ↦ absurd hnil (List.cons_ne_nil _ _)
    length_trace_le := htrace
    length_trace_le_sub_one := by
      have hadd := h.heapLen_add
      show s.trace.length + 1 ≤ total - 1
      omega
    node_lt := fun i hi ↦ (node_moveCandidate pCutNodes s i).trans_lt (h.node_lt i hi)
    dMod_eq := fun i hi ↦ by
      rw [node_moveCandidate]
      -- either all candidates below were evaluated in the new labelling, or nothing changed
      simp only [CArchitecture.moveCandidate] at hi ⊢
      split_ifs
      · rw [evaluateAll, if_pos hi]
        exact hflip.evaluateNode_eq (h.node_lt i hi)
      · exact h.dMod_eq i hi }

/-- **Every round.** -/
theorem Climbed.climb (h : Climbed g part₀ total s) (Node_Rank : ℕ → ℤ) (pCutNodes : ℕ → List ℕ)
    (k : ℕ) : Climbed g part₀ total (climb g total Node_Rank pCutNodes k s) := by
  refine climb_invariant (Climbed g part₀ total) (fun t ht hlt _ ↦ ?_) (fun t ht hlt hlen ↦ ?_) h k
  · exact (ht.pickCandidate hlt Node_Rank).1
  · obtain ⟨hpick, hnode, hdMod⟩ := ht.pickCandidate hlt Node_Rank
    exact hpick.moveCandidate hlen (Nat.lt_succ_of_le ht.length_trace_le) hnode hdMod pCutNodes

end Climb

/-! ### The value returned -/

/-- The value that the move was recorded with is the one that it leads to. -/
def ClimbMove.UpToDate (g : CMygraph) (m : ClimbMove) : Prop := m.recorded g = m.reached g

/-- The moves since the candidates were last evaluated make no difference to where the edges are
when this one is made. -/
def ClimbMove.Fresh (g : CMygraph) (m : ClimbMove) : Prop :=
  ∀ e < g.nhedges, edgePart (flipNode m.evaluated m.node) (g.pAllEdges e).arcs =
    edgePart (flipNode m.before m.node) (g.pAllEdges e).arcs

theorem ClimbMove.Fresh.upToDate {g : CMygraph} {m : ClimbMove} (h : m.Fresh g) : m.UpToDate g :=
  computeModularity_congr h

/-- A move is fresh if the candidates were evaluated right before it. -/
theorem ClimbMove.fresh_of_evaluated_eq {g : CMygraph} {m : ClimbMove}
    (h : m.evaluated = m.before) : m.Fresh g := by
  intro e _
  rw [h]

/-- The value returned is the modularity of the labelling left, and no worse than that of the
labelling given. -/
def ReturnsModularity (g : CMygraph) (part₀ : ℕ → ℤ) (r : ℚ × (ℕ → ℤ)) : Prop :=
  r.1 = computeModularity g r.2 ∧ computeModularity g part₀ ≤ r.1

/-- What the climb returns, in terms of its moves. -/
theorem Climbed.result {g : CMygraph} {part₀ : ℕ → ℤ} {total : ℕ} {s : ClimbState}
    (h : Climbed g part₀ total s) :
    ReturnsModularity g part₀ (s.maxModu, rollBack s.maxModu s.hill s.part_res) ↔
      ∀ m ∈ lastRecord g part₀ s.trace, m.UpToDate g := by
  rw [ReturnsModularity, h.hill_eq, h.part_eq, h.maxModu_eq, rollBack_stonesOf h.chained,
    ← head?_keptMoves]
  -- the half about the entry labelling always holds, because its stone is on the stack
  simp only [le_bestRecorded, and_true]
  rcases hkept : keptMoves g (bestRecorded g part₀ s.trace) s.trace with - | ⟨m, kept⟩
  · simp [labelAfter, bestRecorded_eq_of_keptMoves_eq_nil hkept]
  · simp only [List.head?_cons, Option.mem_some_iff, forall_eq', labelAfter]
    rw [ClimbMove.UpToDate, recorded_of_keptMoves_eq_cons hkept, ClimbMove.reached]

/-- With at most two candidates only the first move is made. -/
theorem Climbed.fresh_of_total_le {g : CMygraph} {part₀ : ℕ → ℤ} {total : ℕ} {s : ClimbState}
    (h : Climbed g part₀ total s) (htotal : total ≤ 2) :
    ∀ m ∈ lastRecord g part₀ s.trace, m.Fresh g := by
  have hlen := h.length_trace_le_sub_one
  have hchained := h.chained
  rcases htrace : s.trace with - | ⟨m, - | ⟨m', moves⟩⟩
  · simp [lastRecord]
  · rw [htrace] at hchained
    rcases hchained with - | ⟨-, -, hfirst, -, -⟩
    intro m' hm'
    rw [lastRecord] at hm'
    split_ifs at hm' with hle
    · obtain rfl := Option.some.inj hm'
      exact ClimbMove.fresh_of_evaluated_eq (hfirst rfl)
    · exact absurd hm' (by simp [lastRecord])
  · rw [htrace, List.length_cons, List.length_cons] at hlen
    omega

/-- **`myFM` returns**, and what it returns in terms of its moves. -/
theorem exists_myFM {g : CMygraph} {part_res : ℕ → ℤ} {fuel : ℕ} (hfuel : 2 ≤ fuel)
    (hlt : ∀ e < g.nhedges, ∀ v ∈ (g.pAllEdges e).arcs, v < g.nvetes)
    (hnonneg : ∀ e < g.nhedges, 0 ≤ (g.pAllEdges e).nodeNum) (hpart : IsBisection g part_res)
    (raw : ℕ → ℤ) :
    ∃ r moves, myFM fuel g raw part_res = some r ∧ movesOfFM fuel g raw part_res = some moves ∧
      (ReturnsModularity g part_res r ↔
        ∀ m ∈ lastRecord g part_res moves, m.UpToDate g) ∧
      ((findCutNodes g (findCutEdges g part_res)).length ≤ 2 →
        ∀ m ∈ lastRecord g part_res moves, m.Fresh g) := by
  have hcutNode : ∀ v ∈ findCutNodes g (findCutEdges g part_res), v < g.nvetes :=
    fun v hv ↦ lt_of_mem_findCutNodes (fun e he ↦ hlt e (lt_of_mem_findCutEdges he)) hv
  obtain ⟨Node_Rank, hrank⟩ := exists_nodeRank hfuel raw
    fun e (he : e ∈ findCutEdges g part_res) ↦ hnonneg e (lt_of_mem_findCutEdges he)
  have hclimbed := (climbed_climbInit hpart hcutNode
    (findZeroNodeCount g (findCutEdges g part_res) part_res).1).climb Node_Rank
    (findZeroNodeCount g (findCutEdges g part_res) part_res).2 iDistance
  refine ⟨_, _, ?_, ?_, hclimbed.result, hclimbed.fresh_of_total_le⟩
  · rw [myFM]
    simp only [hrank]
    rfl
  · rw [movesOfFM]
    simp only [hrank]
    rfl

/-- **`myFM` returns the modularity of what it leaves** exactly if the last move with a new best
value was recorded with the modularity that it leads to. That is so if, since the value was
computed, no edge went to another place, and always if there are no more than two cut nodes. -/
theorem myFM_returnsModularity_iff {p : CHypergraph} {part_res : ℕ → ℤ} {fuel : ℕ}
    (hpins : ∀ e < p.nhedges, ∀ v ∈ p.pins e, v < p.nvtxs) (hunit : ∀ v < p.nvtxs, p.vwgts v = 1)
    (hpart : ∀ v < p.nvtxs, part_res v = 0 ∨ part_res v = 1) (raw : ℕ → ℤ) (hfuel : 2 ≤ fuel) :
    ∃ r moves, myFM fuel (CMygraph.ofHypergraph p) raw part_res = some r ∧
      movesOfFM fuel (CMygraph.ofHypergraph p) raw part_res = some moves ∧
      (ReturnsModularity (CMygraph.ofHypergraph p) part_res r ↔
        ∀ m ∈ lastRecord (CMygraph.ofHypergraph p) part_res moves,
          m.UpToDate (CMygraph.ofHypergraph p)) ∧
      ((∀ m ∈ lastRecord (CMygraph.ofHypergraph p) part_res moves,
          m.Fresh (CMygraph.ofHypergraph p)) →
        ReturnsModularity (CMygraph.ofHypergraph p) part_res r) ∧
      ((findCutNodes (CMygraph.ofHypergraph p)
          (findCutEdges (CMygraph.ofHypergraph p) part_res)).length ≤ 2 →
        ReturnsModularity (CMygraph.ofHypergraph p) part_res r) := by
  have hrep := CMygraph.represents_ofHypergraph p
  obtain ⟨r, moves, hr, hmoves, hiff, htwo⟩ := exists_myFM hfuel (hrep.arcs_lt hpins)
    (hrep.nodeNum_nonneg hpins fun v hv ↦ (hunit v hv).ge.trans' Int.one_nonneg)
    (fun v hv ↦ hpart v (hrep.nvetes_eq ▸ hv)) raw
  have hfresh : (∀ m ∈ lastRecord (CMygraph.ofHypergraph p) part_res moves,
      m.Fresh (CMygraph.ofHypergraph p)) →
        ReturnsModularity (CMygraph.ofHypergraph p) part_res r :=
    fun h ↦ hiff.2 fun m hm ↦ (h m hm).upToDate
  exact ⟨r, moves, hr, hmoves, hiff, hfresh, fun h ↦ hfresh (htwo h)⟩

/-- Two disjoint edges, with one vertex of the larger one on the other side. -/
def sampleClimb : CHypergraph := CHypergraph.ofRows 5 [[1, 3], [2, 4, 0]]

/-- The labelling that the climb starts from. -/
def sampleSides : ℕ → ℤ := fun v ↦ if v = 4 then 1 else 0

theorem myFM_returnsModularity_iff_sampleClimb :
    ((∀ e < sampleClimb.nhedges, ∀ v ∈ sampleClimb.pins e, v < sampleClimb.nvtxs) ∧
      (∀ v < sampleClimb.nvtxs, sampleClimb.vwgts v = 1) ∧
      ∀ v < sampleClimb.nvtxs, sampleSides v = 0 ∨ sampleSides v = 1) ∧
    ∃ r moves, myFM 2 (CMygraph.ofHypergraph sampleClimb) (fun _ ↦ 0) sampleSides = some r ∧
      movesOfFM 2 (CMygraph.ofHypergraph sampleClimb) (fun _ ↦ 0) sampleSides = some moves ∧
      (ReturnsModularity (CMygraph.ofHypergraph sampleClimb) sampleSides r ↔
        ∀ m ∈ lastRecord (CMygraph.ofHypergraph sampleClimb) sampleSides moves,
          m.UpToDate (CMygraph.ofHypergraph sampleClimb)) := by
  have hhyps : (∀ e < sampleClimb.nhedges, ∀ v ∈ sampleClimb.pins e, v < sampleClimb.nvtxs) ∧
      (∀ v < sampleClimb.nvtxs, sampleClimb.vwgts v = 1) ∧
      ∀ v < sampleClimb.nvtxs, sampleSides v = 0 ∨ sampleSides v = 1 := by decide
  obtain ⟨r, moves, hr, hmoves, hiff, -, -⟩ :=
    myFM_returnsModularity_iff hhyps.1 hhyps.2.1 hhyps.2.2 (fun _ ↦ 0) (le_refl 2)
  exact ⟨hhyps, r, moves, hr, hmoves, hiff⟩

/-- Moving two vertices to the side of the third makes their edge whole, away from the other edge,
and modularity rises from `-1000` to `17/18`. But the first of these moves does not raise `renew`,
so the second is recorded with the `-1000` that it had before the first. -/
theorem myFM_sampleClimb_not_returnsModularity :
    sampleClimb.WellFormed ∧ (∀ v < sampleClimb.nvtxs, sampleClimb.vwgts v = 1) ∧
    (∀ e < sampleClimb.nhedges, 0 ≤ sampleClimb.hewgts e) ∧
    (∀ v < sampleClimb.nvtxs, sampleSides v = 0 ∨ sampleSides v = 1) ∧
    ¬ ∃ r, myFM 2 (CMygraph.ofHypergraph sampleClimb) (fun _ ↦ 0) sampleSides = some r ∧
      ReturnsModularity (CMygraph.ofHypergraph sampleClimb) sampleSides r := by
  refine ⟨by decide, by decide, by decide, by decide, ?_⟩
  rintro ⟨r, hr, hvalue, -⟩
  have hrun : (myFM 2 (CMygraph.ofHypergraph sampleClimb) (fun _ ↦ 0) sampleSides).map
      (fun r ↦ decide (r.1 = computeModularity (CMygraph.ofHypergraph sampleClimb) r.2)) =
        some false := by
    decide +kernel
  rw [hr, Option.map_some, Option.some_inj, decide_eq_false_iff_not] at hrun
  exact hrun hvalue

end CArchitecture
