import CArchitecture.HillClimbing
import Mathlib.Algebra.Order.Group.Unbundled.Basic
import Mathlib.Algebra.Order.Ring.Rat

/-!
# Moving the best node, one at a time

`OptimalSteps` moves in each round the node whose move raises the modularity most, until no move
raises it or all cut nodes have been moved. Among equally good candidates it prefers the one with
the smaller rank.

* A gain starts at `0` with no candidate, `fix = -1`. So a candidate that gains exactly `0` is *as
  good as* none, and its rank is compared with `Node_Rank[-1]`. The ranks are a function on all
  integers here, and `reads` records where it is asked.
* That happens in a round exactly if the first candidate that does not lose anything gains nothing
  (`Considered.neg_one_notMem_iff`).
* Whatever lies there, the function ends, moves no node twice and does not lower the modularity
  (`optimalSteps_reads_iff`).
-/

namespace CArchitecture

open FirstSeen

/-! ### The source -/

/-- The variables of the loop that looks for the best candidate. The field `reads` is not in the
source: it has the positions at which `Node_Rank` was read. -/
structure GainState where
  addmodu : ℚ := 0
  fix : ℤ := -1
  reads : List ℤ := []

/-- A candidate that would change the modularity by `gain`. After the first assignment the second
test holds, and compares the node with itself. -/
def considerGain (Node_Rank : ℤ → ℤ) (gain : ℚ) (s : GainState) (node : ℕ) : GainState :=
  let s := if gain > s.addmodu then { s with fix := node, addmodu := gain } else s
  if gain = s.addmodu then
    let taken := if Node_Rank node < Node_Rank s.fix then
      { s with fix := (node : ℤ), addmodu := gain } else s
    { taken with reads := s.reads ++ [(node : ℤ), s.fix] }
  else s

/-- The variables of `OptimalSteps`. The fields `reads` and `moved` are not in the source: they have
the positions at which `Node_Rank` was read, and the nodes that were moved. -/
structure OptimalState where
  part_res : ℕ → ℤ
  fixnum : ℕ := 0
  fixed : OrdMap ℕ Bool := ∅
  reads : List ℤ := []
  moved : List ℕ := []

/-- One cut node: nodes that were moved are passed over. -/
def considerNode (g : CMygraph) (Node_Rank : ℤ → ℤ) (s : OptimalState) (modularity : ℚ)
    (best : GainState) (node : ℕ) : GainState :=
  match s.fixed.find? node with
  | some _ => best
  | none => considerGain Node_Rank (evaluateNode g s.part_res node - modularity) best node

/-- One round. -/
def optimalRound (g : CMygraph) (cutNodes : List ℕ) (Node_Rank : ℤ → ℤ) (s : OptimalState) :
    OptimalState ⊕ (ℚ × OptimalState) :=
  if s.fixnum < cutNodes.length then
    let modularity := computeModularity g s.part_res
    let best := cutNodes.foldl (considerNode g Node_Rank s modularity) {}
    let s := { s with reads := s.reads ++ best.reads }
    if best.fix = -1 then Sum.inr (modularity, s)
    else
      Sum.inl
        { s with
          part_res := flipNode s.part_res best.fix.toNat
          fixed := s.fixed.insert best.fix.toNat true
          fixnum := s.fixnum + 1
          moved := s.moved ++ [best.fix.toNat] }
  else Sum.inr (computeModularity g s.part_res, s)

/-- `OptimalSteps`: the value returned and the state left. -/
def optimalSteps (fuel : ℕ) (g : CMygraph) (cutNodes : List ℕ) (part_res : ℕ → ℤ)
    (Node_Rank : ℤ → ℤ) : Option (ℚ × OptimalState) :=
  Loop.run (optimalRound g cutNodes Node_Rank) fuel { part_res := part_res }

/-! ### The best candidate -/

section Gain

variable {Node_Rank : ℤ → ℤ} {gain : ℚ} {s : GainState}

theorem considerGain_of_gt (h : s.addmodu < gain) (node : ℕ) :
    considerGain Node_Rank gain s node =
      { addmodu := gain, fix := node, reads := s.reads ++ [(node : ℤ), (node : ℤ)] } := by
  rw [considerGain, if_pos h, if_pos rfl, if_neg (lt_irrefl _)]

theorem considerGain_of_eq (h : gain = s.addmodu) (node : ℕ) :
    considerGain Node_Rank gain s node =
      { addmodu := gain
        fix := if Node_Rank node < Node_Rank s.fix then (node : ℤ) else s.fix
        reads := s.reads ++ [(node : ℤ), s.fix] } := by
  rw [considerGain, if_neg h.le.not_gt, if_pos h]
  split_ifs
  · rfl
  · rw [h]

theorem considerGain_of_lt (h : gain < s.addmodu) (node : ℕ) :
    considerGain Node_Rank gain s node = s := by
  rw [considerGain, if_neg h.not_gt, if_neg h.ne]

end Gain

/-- The first candidate that does not lower the modularity raises it. -/
def GainsFirst (gain : ℕ → ℚ) (candidates : List ℕ) : Prop :=
  ∀ v, candidates.find? (fun v ↦ 0 ≤ gain v) = some v → 0 < gain v

section Candidates

variable {gain : ℕ → ℚ} {done : List ℕ}

/-- Only the first such candidate counts. -/
theorem gainsFirst_concat_of_mem {u : ℕ} (hu : u ∈ done) (hgain : 0 ≤ gain u) (x : ℕ) :
    GainsFirst gain (done ++ [x]) ↔ GainsFirst gain done := by
  have hsome : (done.find? fun v ↦ 0 ≤ gain v).isSome :=
    List.find?_isSome.2 ⟨u, hu, decide_eq_true hgain⟩
  rw [GainsFirst, GainsFirst, List.find?_append, Option.or_of_isSome hsome]

theorem gainsFirst_concat_of_neg {x : ℕ} (hx : gain x < 0) :
    GainsFirst gain (done ++ [x]) ↔ GainsFirst gain done := by
  have hnone : [x].find? (fun v ↦ 0 ≤ gain v) = none := by simpa using hx
  rw [GainsFirst, GainsFirst, List.find?_append, hnone, Option.or_none]

/-- What is known of the best of the candidates `done`. -/
structure Considered (gain : ℕ → ℚ) (done : List ℕ) (s : GainState) : Prop where
  fix_spec : (s.fix = -1 ∧ s.addmodu = 0) ∨ ∃ v ∈ done, s.fix = (v : ℤ) ∧ s.addmodu = gain v
  addmodu_nonneg : 0 ≤ s.addmodu
  le_addmodu : ∀ v ∈ done, gain v ≤ s.addmodu
  mem_of_mem_reads : ∀ i ∈ s.reads, i = -1 ∨ ∃ v ∈ done, i = (v : ℤ)
  neg_one_notMem_iff : -1 ∉ s.reads ↔ GainsFirst gain done

theorem considered_init (gain : ℕ → ℚ) : Considered gain [] {} where
  fix_spec := Or.inl ⟨rfl, rfl⟩
  addmodu_nonneg := le_rfl
  le_addmodu := by simp
  mem_of_mem_reads := by simp
  neg_one_notMem_iff := by simp [GainsFirst]

/-- What was known is known of more candidates. -/
theorem Considered.fix_spec_concat {s : GainState} (h : Considered gain done s) (x : ℕ) :
    (s.fix = -1 ∧ s.addmodu = 0) ∨
      ∃ v ∈ done ++ [x], s.fix = (v : ℤ) ∧ s.addmodu = gain v :=
  h.fix_spec.imp_right fun ⟨v, hv, hfix⟩ ↦ ⟨v, List.mem_append_left _ hv, hfix⟩

theorem Considered.mem_of_mem_reads_concat {s : GainState} (h : Considered gain done s) (x : ℕ) :
    ∀ i ∈ s.reads, i = -1 ∨ ∃ v ∈ done ++ [x], i = (v : ℤ) :=
  fun i hi ↦ (h.mem_of_mem_reads i hi).imp_right
    fun ⟨v, hv, hiv⟩ ↦ ⟨v, List.mem_append_left _ hv, hiv⟩

theorem Considered.le_concat {s : GainState} (h : Considered gain done s) {x : ℕ} {q : ℚ}
    (hq : s.addmodu ≤ q) (hx : gain x ≤ q) : ∀ v ∈ done ++ [x], gain v ≤ q := by
  rw [List.forall_mem_append, List.forall_mem_singleton]
  exact ⟨fun v hv ↦ (h.le_addmodu v hv).trans hq, hx⟩

/-- A candidate that is worse than the best one, or than none. -/
theorem Considered.worse {s : GainState} (h : Considered gain done s) {x : ℕ}
    (hlt : gain x < s.addmodu) : Considered gain (done ++ [x]) s where
  fix_spec := h.fix_spec_concat x
  addmodu_nonneg := h.addmodu_nonneg
  le_addmodu := h.le_concat le_rfl hlt.le
  mem_of_mem_reads := h.mem_of_mem_reads_concat x
  neg_one_notMem_iff := by
    rw [h.neg_one_notMem_iff]
    rcases h.fix_spec with ⟨-, hzero⟩ | ⟨v, hv, -, hgain⟩
    · exact (gainsFirst_concat_of_neg (hzero ▸ hlt)).symm
    · exact (gainsFirst_concat_of_mem hv (hgain ▸ h.addmodu_nonneg) x).symm

/-- A candidate that is as good as the best one. Without one before it, it gains nothing, and is
compared with position `-1`. -/
theorem Considered.equal {s : GainState} (h : Considered gain done s) {x : ℕ}
    (heq : gain x = s.addmodu) {i : ℤ} (hi : i = (x : ℤ) ∨ i = s.fix) :
    Considered gain (done ++ [x])
      { addmodu := gain x, fix := i, reads := s.reads ++ [(x : ℤ), s.fix] } where
  fix_spec := by
    rcases hi with rfl | rfl
    · exact Or.inr ⟨x, by simp, rfl, rfl⟩
    · rw [heq]
      exact h.fix_spec_concat x
  addmodu_nonneg := heq ▸ h.addmodu_nonneg
  le_addmodu := h.le_concat heq.ge le_rfl
  mem_of_mem_reads := by
    rw [List.forall_mem_append, List.forall_mem_cons, List.forall_mem_singleton]
    refine ⟨h.mem_of_mem_reads_concat x, Or.inr ⟨x, by simp, rfl⟩, ?_⟩
    exact (h.fix_spec_concat x).imp And.left fun ⟨v, hv, hfix, _⟩ ↦ ⟨v, hv, hfix⟩
  neg_one_notMem_iff := by
    rcases h.fix_spec with ⟨hnone, hzero⟩ | ⟨v, hv, hsome, hgain⟩
    · refine iff_of_false (by simp [hnone]) fun hfirst ↦ ?_
      cases hfind : done.find? (fun v ↦ 0 ≤ gain v) with
      | none =>
        have hpos := hfirst x (by simp [List.find?_append, hfind, heq, hzero])
        exact hpos.ne' (heq.trans hzero)
      | some u =>
        have hpos := hfirst u (by rw [List.find?_append, hfind, Option.some_or])
        exact hpos.not_ge (hzero ▸ h.le_addmodu u (List.mem_of_find?_eq_some hfind))
    · rw [gainsFirst_concat_of_mem hv (hgain ▸ h.addmodu_nonneg), ← h.neg_one_notMem_iff]
      simp [hsome]

/-- A candidate that is better than the best one. Its rank is compared with itself. -/
theorem Considered.better {s : GainState} (h : Considered gain done s) {x : ℕ}
    (hgt : s.addmodu < gain x) :
    Considered gain (done ++ [x])
      { addmodu := gain x, fix := x, reads := s.reads ++ [(x : ℤ), (x : ℤ)] } where
  fix_spec := Or.inr ⟨x, by simp, rfl, rfl⟩
  addmodu_nonneg := h.addmodu_nonneg.trans hgt.le
  le_addmodu := h.le_concat hgt.le le_rfl
  mem_of_mem_reads := by
    rw [List.forall_mem_append, List.forall_mem_cons, List.forall_mem_singleton]
    exact ⟨h.mem_of_mem_reads_concat x, Or.inr ⟨x, by simp, rfl⟩, Or.inr ⟨x, by simp, rfl⟩⟩
  neg_one_notMem_iff := by
    have hpos : 0 < gain x := h.addmodu_nonneg.trans_lt hgt
    have hne : (-1 : ℤ) ≠ x := by omega
    have hold : -1 ∉ s.reads ++ [(x : ℤ), (x : ℤ)] ↔ -1 ∉ s.reads := by simp [hne]
    rw [hold, h.neg_one_notMem_iff]
    cases hfind : done.find? (fun v ↦ 0 ≤ gain v) with
    | none =>
      refine iff_of_true (fun v hv ↦ absurd hv (by simp [hfind])) fun v hv ↦ ?_
      have hxv : x = v := by simpa [List.find?_append, hfind, hpos.le] using hv
      exact hxv ▸ hpos
    | some u =>
      exact (gainsFirst_concat_of_mem (List.mem_of_find?_eq_some hfind)
        (by simpa using List.find?_some hfind) x).symm

/-- **One candidate.** -/
theorem Considered.considerGain {s : GainState} (h : Considered gain done s)
    (Node_Rank : ℤ → ℤ) (x : ℕ) :
    Considered gain (done ++ [x]) (considerGain Node_Rank (gain x) s x) := by
  rcases lt_trichotomy (gain x) s.addmodu with hlt | heq | hgt
  · rw [considerGain_of_lt hlt]
    exact h.worse hlt
  · rw [considerGain_of_eq heq]
    refine h.equal heq ?_
    split_ifs
    · exact Or.inl rfl
    · exact Or.inr rfl
  · rw [considerGain_of_gt hgt]
    exact h.better hgt

/-- All positions read are in the array, unless `Node_Rank[-1]` is one of them. -/
theorem Considered.reads_inRange_iff {s : GainState} {n : ℕ} (h : Considered gain done s)
    (hlt : ∀ v ∈ done, v < n) :
    (∀ i ∈ s.reads, 0 ≤ i ∧ i < (n : ℤ)) ↔ GainsFirst gain done := by
  rw [← h.neg_one_notMem_iff]
  constructor
  · intro hrange hneg
    exact absurd (hrange _ hneg).1 (by decide)
  · intro hneg i hi
    rcases h.mem_of_mem_reads i hi with rfl | ⟨v, hv, rfl⟩
    · exact absurd hi hneg
    · exact ⟨Int.natCast_nonneg v, Int.ofNat_lt.2 (hlt v hv)⟩

/-- **All candidates.** -/
theorem considered_foldl (gain : ℕ → ℚ) (Node_Rank : ℤ → ℤ) (candidates : List ℕ) :
    Considered gain candidates
      (candidates.foldl (fun s v ↦ considerGain Node_Rank (gain v) s v) {}) :=
  Loop.foldl_invariant (Considered gain) (considered_init gain)
    fun _ x _ _ _ h ↦ h.considerGain Node_Rank x

end Candidates

/-! ### The rounds -/

section Rounds

variable {g : CMygraph} {cutNodes : List ℕ} {Node_Rank : ℤ → ℤ} {part_res : ℕ → ℤ}

/-- The cut nodes that have not been moved. -/
def OptimalState.candidates (s : OptimalState) (cutNodes : List ℕ) : List ℕ :=
  cutNodes.filter fun v ↦ (s.fixed.find? v).isNone

/-- What moving a node would add to the modularity. -/
def OptimalState.gain (s : OptimalState) (g : CMygraph) (v : ℕ) : ℚ :=
  evaluateNode g s.part_res v - computeModularity g s.part_res

/-- The best candidate of a round. -/
theorem considered_best (g : CMygraph) (cutNodes : List ℕ) (Node_Rank : ℤ → ℤ)
    (s : OptimalState) :
    Considered (s.gain g) (s.candidates cutNodes)
      (cutNodes.foldl (considerNode g Node_Rank s (computeModularity g s.part_res)) {}) := by
  have hfold : cutNodes.foldl (considerNode g Node_Rank s (computeModularity g s.part_res)) {} =
      (s.candidates cutNodes).foldl
        (fun best v ↦ considerGain Node_Rank (s.gain g v) best v) {} := by
    rw [OptimalState.candidates, List.foldl_filter]
    refine List.foldl_ext _ _ _ fun best v _ ↦ ?_
    rw [considerNode]
    cases s.fixed.find? v <;> rfl
  rw [hfold]
  exact considered_foldl _ _ _

/-- What holds before every round. -/
structure Climbing (g : CMygraph) (cutNodes : List ℕ) (part_res : ℕ → ℤ) (s : OptimalState) :
    Prop where
  marks : Marks s.fixed s.moved
  fixnum_eq : s.fixnum = s.moved.length
  subset : ∀ v ∈ s.moved, v ∈ cutNodes
  part_res_eq : s.part_res = s.moved.foldl flipNode part_res
  isBisection : IsBisection g s.part_res
  modularity_le : computeModularity g part_res ≤ computeModularity g s.part_res

theorem Climbing.fixnum_le {s : OptimalState} (h : Climbing g cutNodes part_res s) :
    s.fixnum ≤ cutNodes.length :=
  h.fixnum_eq ▸ (h.marks.nodup.subperm h.subset).length_le

/-- Once all cut nodes have been moved there is no candidate. -/
theorem Climbing.candidates_eq_nil {s : OptimalState} (h : Climbing g cutNodes part_res s)
    (hlen : ¬ s.fixnum < cutNodes.length) : s.candidates cutNodes = [] := by
  refine List.filter_eq_nil_iff.2 fun v hv hfree ↦ hlen ?_
  have hnew : v ∉ s.moved := h.marks.notMem_of_find? (Option.isNone_iff_eq_none.1 hfree)
  have hsub : (v :: s.moved).Subperm cutNodes :=
    (List.nodup_cons.2 ⟨hnew, h.marks.nodup⟩).subperm
      (List.forall_mem_cons.2 ⟨hv, h.subset⟩)
  rw [h.fixnum_eq]
  exact hsub.length_le

theorem climbing_init (h : IsBisection g part_res) :
    Climbing g cutNodes part_res { part_res := part_res } where
  marks := marks_empty
  fixnum_eq := rfl
  subset := by simp
  part_res_eq := rfl
  isBisection := h
  modularity_le := le_rfl

/-- The positions at which `Node_Rank` was read are in the array. -/
def OptimalState.InRange (s : OptimalState) (g : CMygraph) : Prop :=
  ∀ i ∈ s.reads, 0 ≤ i ∧ i < (g.nvetes : ℤ)

/-- **A round that moves a node.** -/
theorem Climbing.next {s s' : OptimalState} (h : Climbing g cutNodes part_res s)
    (hlt : ∀ v ∈ cutNodes, v < g.nvetes)
    (hs : optimalRound g cutNodes Node_Rank s = Sum.inl s') :
    Climbing g cutNodes part_res s' ∧ s'.fixnum = s.fixnum + 1 ∧
      (s'.InRange g ↔ s.InRange g ∧ GainsFirst (s.gain g) (s.candidates cutNodes)) := by
  have hbest := considered_best g cutNodes Node_Rank s
  have hreads := hbest.reads_inRange_iff fun v hv ↦ hlt v (List.mem_of_mem_filter hv)
  rw [optimalRound] at hs
  dsimp only at hs
  split_ifs at hs with hlen hfix
  obtain rfl := Sum.inl.inj hs
  obtain ⟨v, hv, hfixv, hgain⟩ := hbest.fix_spec.resolve_left fun hnone ↦ hfix hnone.1
  obtain ⟨hcut, hfree⟩ := List.mem_filter.1 hv
  rw [Option.isNone_iff_eq_none] at hfree
  rw [hfixv, Int.toNat_natCast]
  refine ⟨?_, rfl, ?_⟩
  · refine ⟨h.marks.insert hfree true, ?_, ?_, ?_, h.isBisection.flipNode v, ?_⟩
    · rw [List.length_append, List.length_singleton, ← h.fixnum_eq]
    · rw [List.forall_mem_append, List.forall_mem_singleton]
      exact ⟨h.subset, hcut⟩
    · rw [List.foldl_append, ← h.part_res_eq]
      rfl
    · have hvalue := h.isBisection.evaluateNode_eq (hlt v hcut)
      have hnonneg : 0 ≤ evaluateNode g s.part_res v - computeModularity g s.part_res :=
        hbest.addmodu_nonneg.trans_eq hgain
      rw [sub_nonneg, hvalue] at hnonneg
      exact h.modularity_le.trans hnonneg
  · rw [← hreads]
    exact List.forall_mem_append

/-- **The last round.** -/
theorem Climbing.exit {s : OptimalState} {b : ℚ × OptimalState}
    (h : Climbing g cutNodes part_res s) (hlt : ∀ v ∈ cutNodes, v < g.nvetes)
    (hs : optimalRound g cutNodes Node_Rank s = Sum.inr b) :
    (Climbing g cutNodes part_res b.2 ∧ b.1 = computeModularity g b.2.part_res) ∧
      (b.2.InRange g ↔ s.InRange g ∧ GainsFirst (s.gain g) (s.candidates cutNodes)) := by
  have hreads := (considered_best g cutNodes Node_Rank s).reads_inRange_iff
    fun v hv ↦ hlt v (List.mem_of_mem_filter hv)
  rw [optimalRound] at hs
  dsimp only at hs
  split_ifs at hs with hlen hfix
  · obtain rfl := Sum.inr.inj hs
    refine ⟨⟨{ h with }, rfl⟩, ?_⟩
    rw [← hreads]
    exact List.forall_mem_append
  · obtain rfl := Sum.inr.inj hs
    refine ⟨⟨h, rfl⟩, ?_⟩
    rw [h.candidates_eq_nil hlen]
    exact (and_iff_left fun v hv ↦ absurd hv (by simp)).symm

end Rounds

/-- **`OptimalSteps`** ends, whatever the ranks are and whatever lies before them: it moves cut
nodes only, each at most once, and returns the modularity of the labelling it leaves, which is not
below that of the labelling it was given. It reads ranks of vertices only, if and only if in every
round the first candidate whose move does not lower the modularity raises it. -/
theorem optimalSteps_reads_iff {p : CHypergraph} (hw : p.WellFormed) {part_res : ℕ → ℤ}
    (hpart : ∀ v < p.nvtxs, part_res v = 0 ∨ part_res v = 1) (Node_Rank : ℤ → ℤ) :
    let g := CMygraph.ofHypergraph p
    let cutNodes := findCutNodes g (findCutEdges g part_res)
    ∀ fuel, cutNodes.length < fuel →
      ∃ value t, optimalSteps fuel g cutNodes part_res Node_Rank = some (value, t) ∧
        t.moved.Nodup ∧ (∀ v ∈ t.moved, v ∈ cutNodes) ∧
        t.part_res = t.moved.foldl flipNode part_res ∧
        value = computeModularity g t.part_res ∧ computeModularity g part_res ≤ value ∧
        ((∀ i ∈ t.reads, 0 ≤ i ∧ i < (g.nvetes : ℤ)) ↔
          ∀ s, Loop.Reached (optimalRound g cutNodes Node_Rank) { part_res := part_res } s →
            GainsFirst (s.gain g) (s.candidates cutNodes)) := by
  intro g cutNodes fuel hfuel
  have hrep := CMygraph.represents_ofHypergraph p
  have hlt : ∀ v ∈ cutNodes, v < g.nvetes := fun v hv ↦
    lt_of_mem_findCutNodes (fun e he ↦ hrep.arcs_lt hw.pins_lt e (lt_of_mem_findCutEdges he)) hv
  have hinit : Climbing g cutNodes part_res { part_res := part_res } :=
    climbing_init fun v hv ↦ hpart v (hrep.nvetes_eq ▸ hv)
  obtain ⟨⟨value, t⟩, hrun, ht, hvalue⟩ := Loop.exists_run_eq_some (Climbing g cutNodes part_res)
    (fun s ↦ cutNodes.length - s.fixnum)
    (fun b ↦ Climbing g cutNodes part_res b.2 ∧ b.1 = computeModularity g b.2.part_res)
    (fun s s' hs (hstep : optimalRound g cutNodes Node_Rank s = Sum.inl s') ↦ by
      obtain ⟨hs', hnum, -⟩ := hs.next hlt hstep
      have hle := hs'.fixnum_le
      exact ⟨hs', by omega⟩)
    (fun s b hs hstep ↦ (hs.exit hlt hstep).1) hinit (Nat.lt_of_le_of_lt (Nat.sub_le _ _) hfuel)
  refine ⟨value, t, hrun, ht.marks.nodup, ht.subset, ht.part_res_eq, hvalue, ?_, ?_⟩
  · exact ht.modularity_le.trans_eq hvalue.symm
  · have hreads := Loop.run_iff_forall_reached (Climbing g cutNodes part_res)
      (fun s ↦ s.InRange g) (fun s ↦ GainsFirst (s.gain g) (s.candidates cutNodes))
      (fun b ↦ b.2.InRange g)
      (fun s s' hs hstep ↦ ⟨(hs.next hlt hstep).1, (hs.next hlt hstep).2.2⟩)
      (fun s b hs hstep ↦ (hs.exit hlt hstep).2) hinit hrun
    exact hreads.trans (and_iff_right fun i hi ↦ absurd hi (List.not_mem_nil))

theorem optimalSteps_reads_iff_sampleRanks :
    (sampleRanks.WellFormed ∧ ∀ v < sampleRanks.nvtxs, rankSides v = 0 ∨ rankSides v = 1) ∧
    ∃ value t, optimalSteps 5 (CMygraph.ofHypergraph sampleRanks)
      (findCutNodes (CMygraph.ofHypergraph sampleRanks)
        (findCutEdges (CMygraph.ofHypergraph sampleRanks) rankSides))
      rankSides (fun i ↦ i) = some (value, t) ∧ t.moved.Nodup := by
  have hhyps : sampleRanks.WellFormed ∧
      ∀ v < sampleRanks.nvtxs, rankSides v = 0 ∨ rankSides v = 1 := by decide
  obtain ⟨value, t, hrun, hnodup, -⟩ :=
    optimalSteps_reads_iff hhyps.1 hhyps.2 (fun i ↦ i) 5 (by decide +kernel)
  exact ⟨hhyps, value, t, hrun, hnodup⟩

/-- Moving the first cut node makes one edge whole, and leaves nothing whole on the other side. So
the value stays at `-1000`, and the rank of the node is compared with what lies before the array. -/
theorem optimalSteps_sampleRanks_reads_outside :
    sampleRanks.WellFormed ∧ (∀ v < sampleRanks.nvtxs, rankSides v = 0 ∨ rankSides v = 1) ∧
    ∃ Node_Rank,
      nodeRank 2 (CMygraph.ofHypergraph sampleRanks)
        (findCutNodes (CMygraph.ofHypergraph sampleRanks)
          (findCutEdges (CMygraph.ofHypergraph sampleRanks) rankSides))
        (findCutEdges (CMygraph.ofHypergraph sampleRanks) rankSides) (fun _ ↦ -1) =
          some Node_Rank ∧
      ¬ ∃ value t,
        optimalSteps 5 (CMygraph.ofHypergraph sampleRanks)
          (findCutNodes (CMygraph.ofHypergraph sampleRanks)
            (findCutEdges (CMygraph.ofHypergraph sampleRanks) rankSides))
          rankSides (fun i ↦ if i < 0 then 0 else Node_Rank i.toNat) = some (value, t) ∧
        ∀ i ∈ t.reads, 0 ≤ i ∧ i < ((CMygraph.ofHypergraph sampleRanks).nvetes : ℤ) := by
  refine ⟨by decide, by decide, ?_⟩
  have houtside : (nodeRank 2 (CMygraph.ofHypergraph sampleRanks)
      (findCutNodes (CMygraph.ofHypergraph sampleRanks)
        (findCutEdges (CMygraph.ofHypergraph sampleRanks) rankSides))
      (findCutEdges (CMygraph.ofHypergraph sampleRanks) rankSides) (fun _ ↦ -1)).bind
        (fun Node_Rank ↦ (optimalSteps 5 (CMygraph.ofHypergraph sampleRanks)
          (findCutNodes (CMygraph.ofHypergraph sampleRanks)
            (findCutEdges (CMygraph.ofHypergraph sampleRanks) rankSides))
          rankSides (fun i ↦ if i < 0 then 0 else Node_Rank i.toNat)).map
            fun r ↦ decide (-1 ∈ r.2.reads)) = some true := by
    decide +kernel
  obtain ⟨Node_Rank, hrank, hreads⟩ := Option.bind_eq_some_iff.1 houtside
  refine ⟨Node_Rank, hrank, ?_⟩
  rintro ⟨value, t, hrun, hrange⟩
  rw [hrun, Option.map_some, Option.some_inj, decide_eq_true_eq] at hreads
  exact absurd (hrange _ hreads).1 (by decide)

end CArchitecture
