import CArchitecture.HillClimbing
import Mathlib.Tactic.Ring

/-!
# The zero counts of the climb

For each edge that was cut when the climb began, `PartZeroNodeCount` holds the number of its pins in
part `0`. The counts are set up by `FindZeroNodeCount`, which also files the cut edges at each node,
and a move changes them edge by edge, along the list of the node and before its label is written. So
three structures have to agree: the counts, the lists and the labelling.

* The list of a node has every cut edge **as often as the node is a pin of it** (`edgeListAt`), and
  passing it changes each count by that many times the same amount (`foldl_updateZero_fst`).
* By the same amount the move changes the number of pins in part `0` (`zeroPins_flipNode`), whatever
  label the node had.

Hence a move keeps the counts right (`CountsZeros.moveCandidate`), and with it every run of the loop
(`CountsZeros.climb`). Nothing is assumed of the hypergraph or the labels: pins may be repeated, and
a label other than `0` and `1` is counted nowhere.
-/

namespace CArchitecture

/-! ### Pins in part zero -/

/-- The number of pins in part `0`. -/
def zeroPins (part_res : ℕ → ℤ) (arcs : List ℕ) : ℤ := arcs.countP fun v ↦ part_res v = 0

/-- By how much the count of an edge changes for each pin at a node that moves: a move out of part
`0` lowers it, one out of part `1` raises it. -/
def zeroShift (label : ℤ) : ℤ := if label = 0 then -1 else if label = 1 then 1 else 0

theorem zeroPins_cons (part_res : ℕ → ℤ) (v : ℕ) (arcs : List ℕ) :
    zeroPins part_res (v :: arcs) =
      zeroPins part_res arcs + if part_res v = 0 then 1 else 0 := by
  rw [zeroPins, zeroPins, List.countP_cons]
  by_cases hv : part_res v = 0
  · simp [hv]
  · simp [hv]

/-- **A move in terms of the labelling**: each pin at the node counts. -/
theorem zeroPins_flipNode (part_res : ℕ → ℤ) (v : ℕ) (arcs : List ℕ) :
    zeroPins (flipNode part_res v) arcs =
      zeroPins part_res arcs + zeroShift (part_res v) * arcs.count v := by
  induction arcs with
  | nil => simp [zeroPins]
  | cons u arcs ih =>
    rw [zeroPins_cons, zeroPins_cons, ih, flipNode, List.count_cons]
    rcases eq_or_ne u v with rfl | hne
    · rw [Function.update_self, zeroShift, beq_self_eq_true, if_pos rfl]
      split_ifs <;> omega
    · rw [Function.update_of_ne hne, beq_false_of_ne hne]
      simp only [Bool.false_eq_true, if_false, add_zero]
      ring

/-! ### What the climb is given -/

/-- The cut edges at a node, the last one first, each as often as the node is a pin of it. -/
def edgeListAt (g : CMygraph) (cutEdges : List ℕ) (v : ℕ) : List ℕ :=
  (cutEdges.flatMap fun e ↦ List.replicate ((g.pAllEdges e).arcs.count v) e).reverse

section Counts

variable {g : CMygraph} {cutEdges : List ℕ} {part_res : ℕ → ℤ}

theorem count_edgeListAt (hnd : cutEdges.Nodup) {e : ℕ} (he : e ∈ cutEdges) (v : ℕ) :
    (edgeListAt g cutEdges v).count e = (g.pAllEdges e).arcs.count v := by
  rw [edgeListAt, List.count_reverse, List.count_flatMap]
  induction cutEdges with
  | nil => exact absurd he List.not_mem_nil
  | cons x edges ih =>
    obtain ⟨hx, hnd⟩ := List.nodup_cons.1 hnd
    rw [List.map_cons, List.sum_cons, Function.comp_apply, List.count_replicate]
    rcases List.mem_cons.1 he with rfl | he
    · -- the other edges have nothing in the list for this one
      have hrest : (edges.map (List.count e ∘ fun d ↦
          List.replicate ((g.pAllEdges d).arcs.count v) d)).sum = 0 := by
        refine List.sum_eq_zero fun n hn ↦ ?_
        obtain ⟨d, hd, rfl⟩ := List.mem_map.1 hn
        rw [Function.comp_apply, List.count_replicate, if_neg]
        rw [beq_iff_eq]
        exact ne_of_mem_of_not_mem hd hx
      rw [hrest, if_pos (beq_self_eq_true e), add_zero]
    · rw [ih hnd he, if_neg, zero_add]
      rw [beq_iff_eq]
      exact (ne_of_mem_of_not_mem he hx).symm

/-- The pins of one cut edge. -/
theorem foldl_countZero (part_res : ℕ → ℤ) (e : ℕ) (l : List ℕ) (s : (ℕ → ℤ) × (ℕ → List ℕ)) :
    (l.foldl (countZero part_res e) s).1 = Function.update s.1 e (s.1 e + zeroPins part_res l) ∧
      ∀ v, (l.foldl (countZero part_res e) s).2 v = List.replicate (l.count v) e ++ s.2 v := by
  induction l generalizing s with
  | nil => simp [zeroPins]
  | cons u l ih =>
    obtain ⟨hcount, harcs⟩ := ih (countZero part_res e s u)
    rw [List.foldl_cons]
    refine ⟨?_, fun v ↦ ?_⟩
    · rw [hcount, zeroPins_cons, countZero]
      by_cases hzero : part_res u = 0
      · simp [hzero, add_assoc, add_comm]
      · simp [hzero]
    · rw [harcs v, countZero, List.count_cons]
      rcases eq_or_ne u v with rfl | hne
      · simp [List.replicate_succ']
      · simp [hne, hne.symm]

/-- **`FindZeroNodeCount`**: the count of each cut edge is the number of its pins in part `0`, and
each node gets its list of cut edges. -/
theorem findZeroNodeCount_eq (hnd : cutEdges.Nodup) (part_res : ℕ → ℤ) :
    (∀ e ∈ cutEdges, (findZeroNodeCount g cutEdges part_res).1 e =
      zeroPins part_res (g.pAllEdges e).arcs) ∧
    (findZeroNodeCount g cutEdges part_res).2 = edgeListAt g cutEdges := by
  have h := Loop.foldl_invariant (l := cutEdges)
    (s := ((fun _ ↦ 0, fun _ ↦ []) : (ℕ → ℤ) × (ℕ → List ℕ)))
    (f := fun s e ↦ (g.pAllEdges e).arcs.foldl (countZero part_res e) s)
    (fun done s ↦ (∀ e ∈ done, s.1 e = zeroPins part_res (g.pAllEdges e).arcs) ∧
      (∀ e ∉ done, s.1 e = 0) ∧ ∀ v, s.2 v = edgeListAt g done v) (by simp [edgeListAt])
    fun done e rest s hl ⟨hdone, hrest, harcs⟩ ↦ by
      have he : e ∉ done := by
        rw [hl, List.nodup_append] at hnd
        exact fun hd ↦ hnd.2.2 e hd e List.mem_cons_self rfl
      obtain ⟨h₁, h₂⟩ := foldl_countZero part_res e (g.pAllEdges e).arcs s
      rw [h₁, hrest e he, zero_add]
      refine ⟨fun d hd ↦ ?_, fun d hd ↦ ?_, fun v ↦ ?_⟩
      · rcases eq_or_ne d e with rfl | hne
        · exact Function.update_self _ _ _
        · rw [Function.update_of_ne hne]
          exact hdone d ((List.mem_append.1 hd).resolve_right (by simpa using hne))
      · rw [List.mem_append, List.mem_singleton, not_or] at hd
        rw [Function.update_of_ne hd.2]
        exact hrest d hd.1
      · rw [h₂ v, harcs v, edgeListAt, edgeListAt, List.flatMap_append, List.reverse_append,
          List.flatMap_singleton, List.reverse_replicate]
  exact ⟨h.1, funext h.2.2⟩

/-! ### Moves -/

/-- **A move in terms of the counts**: the edges of a list are passed. -/
theorem foldl_updateZero_fst (label : ℤ) (edges : List ℕ) (s : (ℕ → ℤ) × Bool) (e : ℕ) :
    (edges.foldl (updateZero g label) s).1 e = s.1 e + zeroShift label * edges.count e := by
  induction edges generalizing s with
  | nil => simp
  | cons x edges ih =>
    have hone : (updateZero g label s x).1 =
        Function.update s.1 x (s.1 x + zeroShift label) := by
      rw [updateZero, zeroShift]
      split_ifs
      · rw [sub_eq_add_neg]
      · rfl
      · rw [add_zero, Function.update_eq_self]
    rw [List.foldl_cons, ih, hone, List.count_cons]
    rcases eq_or_ne x e with rfl | hne
    · rw [Function.update_self, if_pos (beq_self_eq_true x)]
      push_cast
      ring
    · rw [Function.update_of_ne hne.symm, if_neg (by simpa using hne), add_zero]

/-- The counts of the cut edges are those of the current labelling. -/
def CountsZeros (g : CMygraph) (cutEdges : List ℕ) (s : ClimbState) : Prop :=
  ∀ e ∈ cutEdges, s.PartZeroNodeCount e = zeroPins s.part_res (g.pAllEdges e).arcs

variable {s : ClimbState}

/-- Before the loop. -/
theorem countsZeros_climbInit (hnd : cutEdges.Nodup) (part_res : ℕ → ℤ) (cutNodes : List ℕ) :
    CountsZeros g cutEdges
      (climbInit g part_res cutNodes (findZeroNodeCount g cutEdges part_res).1) :=
  (findZeroNodeCount_eq hnd part_res).1

/-- **One move.** The counts are changed along the list of the node by what the new label changes,
whatever the old one was. -/
theorem CountsZeros.moveCandidate (h : CountsZeros g cutEdges s) (hnd : cutEdges.Nodup) :
    CountsZeros g cutEdges (moveCandidate g (edgeListAt g cutEdges) s) := by
  intro e he
  set v := (s.pModularityList s.HeapLen).node
  show ((edgeListAt g cutEdges v).foldl (updateZero g (s.part_res v))
    (s.PartZeroNodeCount, false)).1 e = zeroPins (flipNode s.part_res v) _
  rw [foldl_updateZero_fst, zeroPins_flipNode, count_edgeListAt hnd he, ← h e he]

/-- **Every run of the loop.** Taking a candidate changes neither the counts nor the labels, and
moving it keeps them together. -/
theorem CountsZeros.climb (h : CountsZeros g cutEdges s) (hnd : cutEdges.Nodup) (total : ℕ)
    (Node_Rank : ℕ → ℤ) (k : ℕ) :
    CountsZeros g cutEdges (climb g total Node_Rank (edgeListAt g cutEdges) k s) := by
  refine climb_invariant (CountsZeros g cutEdges) (fun t ht _ _ ↦ ht) (fun t ht _ _ ↦ ?_) h k
  have hpick : CountsZeros g cutEdges (pickCandidate Node_Rank t) := ht
  exact hpick.moveCandidate hnd

end Counts

/-! ### The runs of `myFM` -/

/-- The climb of `myFM` after at most `k` rounds. -/
def stateOfFM (fuel : ℕ) (g : CMygraph) (raw part_res : ℕ → ℤ) (k : ℕ) : Option ClimbState := do
  let cutEdges := findCutEdges g part_res
  let cutNodes := findCutNodes g cutEdges
  let Node_Rank ← nodeRank fuel g cutNodes cutEdges raw
  let zero := findZeroNodeCount g cutEdges part_res
  pure (climb g cutNodes.length Node_Rank zero.2 k (climbInit g part_res cutNodes zero.1))

theorem nodup_findCutEdges (g : CMygraph) (part_res : ℕ → ℤ) : (findCutEdges g part_res).Nodup :=
  List.nodup_range.filter _

theorem countsZeros_stateOfFM {fuel : ℕ} {g : CMygraph} {raw part_res : ℕ → ℤ} {k : ℕ}
    {s : ClimbState} (hs : stateOfFM fuel g raw part_res k = some s) :
    CountsZeros g (findCutEdges g part_res) s := by
  obtain ⟨Node_Rank, -, hs⟩ := Option.bind_eq_some_iff.1 hs
  obtain rfl := Option.some.inj hs
  have hnd := nodup_findCutEdges g part_res
  rw [(findZeroNodeCount_eq hnd part_res).2]
  exact (countsZeros_climbInit hnd part_res _).climb hnd _ Node_Rank k

/-- The test of the source compares all pins with the first one. -/
theorem edgeIsCut_eq_true_iff {part_res : ℕ → ℤ} {arcs : List ℕ} :
    edgeIsCut part_res arcs = true ↔ ∃ u ∈ arcs, ∃ v ∈ arcs, part_res u ≠ part_res v := by
  cases arcs with
  | nil => simp [edgeIsCut]
  | cons x arcs =>
    have hhead : edgeIsCut part_res (x :: arcs) = true ↔
        ∃ v ∈ x :: arcs, part_res v ≠ part_res x := by
      simp [edgeIsCut]
    rw [hhead]
    constructor
    · rintro ⟨v, hv, hne⟩
      exact ⟨v, hv, x, List.mem_cons_self, hne⟩
    · rintro ⟨u, hu, v, hv, hne⟩
      by_cases hux : part_res u = part_res x
      · exact ⟨v, hv, fun hvx ↦ hne (hux.trans hvx.symm)⟩
      · exact ⟨u, hu, hux⟩

end CArchitecture
