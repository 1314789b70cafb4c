import CArchitecture.PartSymmetry

/-!
# The nodes that a climb moves

What a run of `HillClimbing` does to the labelling, move by move.

* The flag `renew` is to be raised by every move that takes an edge out of one part or makes it lie
  in one part, so that the candidates left are evaluated again before the next one is chosen. The
  counts behind it are kept for the edges that were cut at the start, and each direction of a move
  has its own tests on them. `ClimbMove.Noticed` is what these tests come to, and a run raises the
  flag whenever it has to **exactly if each of its moves that changes an edge is noticed**
  (`renewsOnChange_iff`).
* The candidates lie in an array that `getMax` rearranges, and the moves on a stack. `KeptApart`
  says that both together are different members of the list of candidates; so the nodes moved are
  distinct, and the labelling is the first one with these on the other side.
* Popping the stack undoes the moves down to the last one with the value returned
  (`KeepsBestPrefix`). All that the array goes through on the way is in `HeldBy`.
-/

namespace CArchitecture

/-! ### Rounds -/

section Rounds

variable {g : CMygraph} {total : ℕ} {Node_Rank : ℕ → ℤ} {pCutNodes : ℕ → List ℕ} {s : ClimbState}

/-- One more round at the end. -/
theorem climb_succ (k : ℕ) (h : s.HeapLen + s.fixnum = total) :
    climb g total Node_Rank pCutNodes (k + 1) s =
      climb g total Node_Rank pCutNodes 1 (climb g total Node_Rank pCutNodes k s) := by
  induction k generalizing s with
  | zero => rfl
  | succ k ih =>
    rcases lt_or_ge s.fixnum total with hlt | hle
    · have hpicked := heapLen_add_pickCandidate h hlt Node_Rank
      by_cases hlast : (pickCandidate Node_Rank s).HeapLen = 0
      · rw [climb_of_last _ hlt hlast, climb_of_last _ hlt hlast, climb_of_le _ (by omega)]
      · rw [climb_of_move _ hlt hlast, climb_of_move _ hlt hlast]
        exact ih hpicked
    · rw [climb_of_le _ hle, climb_of_le _ hle, climb_of_le _ hle]

/-- A round that makes a move. -/
theorem climb_one_of_trace_eq {m : ClimbMove}
    (h : (climb g total Node_Rank pCutNodes 1 s).trace = m :: s.trace) :
    s.fixnum < total ∧
      climb g total Node_Rank pCutNodes 1 s =
        moveCandidate g pCutNodes (pickCandidate Node_Rank s) ∧
      m = nextMove (pickCandidate Node_Rank s) := by
  have hne : ∀ l : List ClimbMove, l ≠ m :: l :=
    fun l hl ↦ absurd (congrArg List.length hl) (by simp)
  rcases lt_or_ge s.fixnum total with hlt | hle
  · by_cases hlast : (pickCandidate Node_Rank s).HeapLen = 0
    · rw [climb_of_last _ hlt hlast] at h
      exact absurd h (hne _)
    · rw [climb_of_move _ hlt hlast] at h ⊢
      exact ⟨hlt, rfl, (List.cons.inj h).1.symm⟩
  · rw [climb_of_le _ hle] at h
    exact absurd h (hne _)

/-- Each move is made in one of the rounds. -/
theorem mem_trace_climb_iff (k : ℕ) (h : s.HeapLen + s.fixnum = total) (hs : s.trace = [])
    {m : ClimbMove} :
    m ∈ (climb g total Node_Rank pCutNodes k s).trace ↔
      ∃ j < k, (climb g total Node_Rank pCutNodes (j + 1) s).trace =
        m :: (climb g total Node_Rank pCutNodes j s).trace := by
  have hround : ∀ t : ClimbState, (climb g total Node_Rank pCutNodes 1 t).trace = t.trace ∨
      ∃ m', (climb g total Node_Rank pCutNodes 1 t).trace = m' :: t.trace := by
    intro t
    rcases lt_or_ge t.fixnum total with hlt | hle
    · by_cases hlast : (pickCandidate Node_Rank t).HeapLen = 0
      · rw [climb_of_last _ hlt hlast]
        exact Or.inl rfl
      · rw [climb_of_move _ hlt hlast]
        exact Or.inr ⟨_, rfl⟩
    · rw [climb_of_le _ hle]
      exact Or.inl rfl
  induction k with
  | zero => simp [climb, hs]
  | succ k ih =>
    refine Iff.trans ?_ (Nat.exists_lt_succ_right.trans (or_congr_left ih.symm)).symm
    rw [climb_succ k h]
    rcases hround (climb g total Node_Rank pCutNodes k s) with hsame | ⟨m', hmove⟩
    · rw [hsame]
      refine (or_iff_left ?_).symm
      exact fun hl ↦ absurd (congrArg List.length hl) (by simp)
    · rw [hmove, List.mem_cons, List.cons.injEq, and_iff_left rfl, or_comm, eq_comm]

end Rounds

/-! ### Edges that change -/

/-- All pins of the edge have the same label. -/
def LiesInOnePart (g : CMygraph) (part_res : ℕ → ℤ) (e : ℕ) : Prop :=
  ∀ u ∈ (g.pAllEdges e).arcs, ∀ v ∈ (g.pAllEdges e).arcs, part_res u = part_res v

instance (g : CMygraph) (part_res : ℕ → ℤ) (e : ℕ) : Decidable (LiesInOnePart g part_res e) :=
  inferInstanceAs (Decidable (∀ u ∈ (g.pAllEdges e).arcs, ∀ v ∈ (g.pAllEdges e).arcs, _))

/-- The move changes whether the edge lies in one part. -/
def ClimbMove.ChangesEdge (g : CMygraph) (m : ClimbMove) (e : ℕ) : Prop :=
  ¬ (LiesInOnePart g (flipNode m.before m.node) e ↔ LiesInOnePart g m.before e)

instance (g : CMygraph) (m : ClimbMove) (e : ℕ) : Decidable (m.ChangesEdge g e) :=
  inferInstanceAs (Decidable (¬ (_ ↔ _)))

/-- The tests of the source on the move: those of the direction that it has. -/
def ClimbMove.Noticed (g : CMygraph) (cutEdges : List ℕ) (m : ClimbMove) : Prop :=
  if m.before m.node = 0 then m.RenewsFromZero g cutEdges else m.RenewsFromOne g cutEdges

instance (g : CMygraph) (cutEdges : List ℕ) (m : ClimbMove) :
    Decidable (m.Noticed g cutEdges) :=
  inferInstanceAs (Decidable (if m.before m.node = 0 then _ else _))

/-- An edge of two or more pins at the node lies in one part before the move or after it. -/
def ClimbMove.Touches (g : CMygraph) (m : ClimbMove) (e : ℕ) : Prop :=
  m.node ∈ (g.pAllEdges e).arcs ∧ 2 ≤ (g.pAllEdges e).arcs.length ∧
    (LiesInOnePart g m.before e ∨ LiesInOnePart g (flipNode m.before m.node) e)

/-- The two kinds of moves that escape the tests when all weights are one. No edge that was cut at
the start is completed, and either the node leaves part `1` and breaks one of these edges, or none
of them is broken and an edge that was not cut at the start is broken or completed. -/
def ClimbMove.Escapes (g : CMygraph) (cutEdges : List ℕ) (m : ClimbMove) : Prop :=
  ¬ m.Completes g cutEdges ∧
    (m.before m.node ≠ 0 ∧ m.Breaks g cutEdges ∨
      ¬ m.Breaks g cutEdges ∧ ∃ e < g.nhedges, e ∉ cutEdges ∧ m.Touches g e)

/-- The flag is up and the candidates that are left hold the values of the current labelling. -/
def ClimbState.Renewed (g : CMygraph) (s : ClimbState) : Prop :=
  s.renew = true ∧ ∀ i < s.HeapLen,
    (s.pModularityList i).dMod = evaluateNode g s.part_res (s.pModularityList i).node

/-- In each round whose move changes an edge, the candidates are evaluated again. -/
def RenewsOnChange (fuel : ℕ) (g : CMygraph) (raw part_res : ℕ → ℤ) : Prop :=
  ∀ k < iDistance, ∀ s ∈ stateOfFM fuel g raw part_res k,
    ∀ s' ∈ stateOfFM fuel g raw part_res (k + 1), ∀ m : ClimbMove, s'.trace = m :: s.trace →
      (∃ e < g.nhedges, m.ChangesEdge g e) → s'.Renewed g

section Change

variable {g : CMygraph} {cutEdges : List ℕ} {m : ClimbMove} {e : ℕ}

theorem edgeIsCut_eq_false_iff_liesInOnePart {part_res : ℕ → ℤ} {v : ℕ}
    (hv : v ∈ (g.pAllEdges e).arcs) :
    edgeIsCut part_res (g.pAllEdges e).arcs = false ↔ LiesInOnePart g part_res e := by
  rw [edgeIsCut_eq_false_iff hv]
  exact ⟨fun h u hu w hw ↦ (h u hu).trans (h w hw).symm, fun h u hu ↦ h u hu v hv⟩

/-- An edge that is cut has two pins. -/
theorem two_le_length_of_mem_findCutEdges {part_res : ℕ → ℤ} (he : e ∈ findCutEdges g part_res) :
    2 ≤ (g.pAllEdges e).arcs.length := by
  have hcut := (List.mem_filter.1 he).2
  generalize (g.pAllEdges e).arcs = arcs at hcut ⊢
  rcases arcs with - | ⟨x, - | ⟨y, arcs⟩⟩
  · simp [edgeIsCut] at hcut
  · simp [edgeIsCut] at hcut
  · simp

/-- A node that moves leaves every other pin of its edge behind, or joins it. -/
theorem not_liesInOnePart_flipNode {part_res : ℕ → ℤ} {v w : ℕ} (hv : v ∈ (g.pAllEdges e).arcs)
    (hw : w ∈ (g.pAllEdges e).arcs) (hne : w ≠ v) (h : LiesInOnePart g part_res e) :
    ¬ LiesInOnePart g (flipNode part_res v) e := by
  intro hflip
  have hbefore := h v hv w hw
  have hafter := hflip v hv w hw
  rw [flipNode, Function.update_self, Function.update_of_ne hne, ← hbefore] at hafter
  split_ifs at hafter with hone
  · exact absurd (hafter.trans hone) zero_ne_one
  · exact hone hafter.symm

/-- The edges that a move changes are the ones that it breaks and the ones that it completes. -/
theorem ClimbMove.changesEdge_iff (hnd : (g.pAllEdges e).arcs.Nodup) :
    m.ChangesEdge g e ↔ m.Touches g e := by
  rw [ClimbMove.ChangesEdge, ClimbMove.Touches]
  by_cases hm : m.node ∈ (g.pAllEdges e).arcs
  · rcases lt_or_ge (g.pAllEdges e).arcs.length 2 with hlen | hlen
    · -- the node is the only pin
      have hpins : ∀ part_res : ℕ → ℤ, LiesInOnePart g part_res e := by
        intro part_res u hu w hw
        obtain ⟨x, hx⟩ := List.length_eq_one_iff.1
          (le_antisymm (Nat.lt_succ_iff.1 hlen) (List.length_pos_of_mem hm))
        rw [hx, List.mem_singleton] at hu hw
        rw [hu, hw]
      simp [hpins, hlen.not_ge]
    · obtain ⟨w, hw, hne⟩ := Finset.exists_mem_ne
        (hlen.trans_eq (List.toFinset_card_of_nodup hnd).symm) m.node
      have hboth : LiesInOnePart g m.before e → ¬ LiesInOnePart g (flipNode m.before m.node) e :=
        not_liesInOnePart_flipNode hm (List.mem_toFinset.1 hw) hne
      simp only [hm, hlen, true_and]
      tauto
  · have hsame : LiesInOnePart g (flipNode m.before m.node) e ↔ LiesInOnePart g m.before e := by
      refine forall₂_congr fun u hu ↦ forall₂_congr fun w hw ↦ ?_
      rw [flipNode, Function.update_of_ne (ne_of_mem_of_not_mem hu hm),
        Function.update_of_ne (ne_of_mem_of_not_mem hw hm)]
    simp [hsame, hm]

theorem ClimbMove.touches_of_mem_cutEdgesAt
    (hpins : ∀ e ∈ cutEdges, 2 ≤ (g.pAllEdges e).arcs.length)
    (he : e ∈ cutEdgesAt g cutEdges m.node) :
    m.Touches g e ↔ edgeIsCut m.before (g.pAllEdges e).arcs = false ∨
      edgeIsCut (flipNode m.before m.node) (g.pAllEdges e).arcs = false := by
  obtain ⟨he, hm⟩ := mem_cutEdgesAt.1 he
  rw [ClimbMove.Touches, edgeIsCut_eq_false_iff_liesInOnePart hm,
    edgeIsCut_eq_false_iff_liesInOnePart hm]
  exact ⟨fun h ↦ h.2.2, fun h ↦ ⟨hm, hpins e he, h⟩⟩

theorem ClimbMove.noticed_iff (hcut : ProperEdges g cutEdges) (hm : IsBisection g m.before)
    (hunit : ∀ e ∈ cutEdges, (g.pAllEdges e).nodeNum = (g.pAllEdges e).arcs.length) :
    m.Noticed g cutEdges ↔
      m.Completes g cutEdges ∨ m.before m.node = 0 ∧ m.Breaks g cutEdges := by
  rw [ClimbMove.Noticed]
  split_ifs with hzero
  · rw [ClimbMove.renewsFromZero_iff hcut hm hunit]
    tauto
  · rw [ClimbMove.renewsFromOne_iff hcut hm hunit]
    tauto

/-- With unit weights, the moves that change an edge and are not noticed are the two kinds that
escape the tests. -/
theorem ClimbMove.escapes_iff (hcut : ProperEdges g cutEdges) (hm : IsBisection g m.before)
    (hunit : ∀ e ∈ cutEdges, (g.pAllEdges e).nodeNum = (g.pAllEdges e).arcs.length)
    (hnd : ∀ e < g.nhedges, (g.pAllEdges e).arcs.Nodup) (hlt : ∀ e ∈ cutEdges, e < g.nhedges)
    (hpins : ∀ e ∈ cutEdges, 2 ≤ (g.pAllEdges e).arcs.length) :
    m.Escapes g cutEdges ↔ ¬ ((∃ e < g.nhedges, m.ChangesEdge g e) → m.Noticed g cutEdges) := by
  have hchange : (∃ e < g.nhedges, m.ChangesEdge g e) ↔ ∃ e < g.nhedges, m.Touches g e :=
    exists_congr fun e ↦ and_congr_right fun he ↦ ClimbMove.changesEdge_iff (hnd e he)
  -- an edge that was cut at the start is touched if it is broken or completed
  have htouch : ∀ e ∈ cutEdges, m.Touches g e → m.Breaks g cutEdges ∨ m.Completes g cutEdges := by
    intro e he h
    have hat := mem_cutEdgesAt.2 ⟨he, h.1⟩
    exact ((ClimbMove.touches_of_mem_cutEdgesAt hpins hat).1 h).imp (⟨e, hat, ·⟩) (⟨e, hat, ·⟩)
  have hbreak : m.Breaks g cutEdges → ∃ e < g.nhedges, m.Touches g e := by
    rintro ⟨e, he, hwhole⟩
    exact ⟨e, hlt e (mem_cutEdgesAt.1 he).1,
      (ClimbMove.touches_of_mem_cutEdgesAt hpins he).2 (Or.inl hwhole)⟩
  rw [hchange, ClimbMove.noticed_iff hcut hm hunit, ClimbMove.Escapes]
  constructor
  · rintro ⟨hcomplete, ⟨hone, hbroken⟩ | ⟨hbroken, e, he, -, h⟩⟩ hnoticed
    · exact (hnoticed (hbreak hbroken)).elim hcomplete fun h ↦ hone h.1
    · exact (hnoticed ⟨e, he, h⟩).elim hcomplete fun h ↦ hbroken h.2
  · intro h
    obtain ⟨⟨e, he, htouches⟩, hunnoticed⟩ := Classical.not_imp.1 h
    rw [not_or] at hunnoticed
    refine ⟨hunnoticed.1, ?_⟩
    by_cases hbroken : m.Breaks g cutEdges
    · exact Or.inl ⟨fun hzero ↦ hunnoticed.2 ⟨hzero, hbroken⟩, hbroken⟩
    · refine Or.inr ⟨hbroken, e, he, fun hmem ↦ ?_, htouches⟩
      exact (htouch e hmem htouches).elim hbroken hunnoticed.1

end Change

section Renew

variable {g : CMygraph} {cutEdges : List ℕ} {s : ClimbState}

/-- One move: the candidates are evaluated again exactly if it is noticed. -/
theorem Tracked.renewed_iff (h : Tracked g cutEdges s) (hcut : ProperEdges g cutEdges)
    (hlt : s.fixnum < (findCutNodes g cutEdges).length) (Node_Rank : ℕ → ℤ) :
    (CArchitecture.moveCandidate g (cutEdgesAt g cutEdges)
      (CArchitecture.pickCandidate Node_Rank s)).Renewed g ↔
        (nextMove (CArchitecture.pickCandidate Node_Rank s)).Noticed g cutEdges := by
  obtain ⟨htracked, hnode⟩ := h.pickCandidate hlt Node_Rank
  have hrenew := htracked.renew_moveCandidate_iff hcut hnode
  refine (and_iff_left_of_imp fun hflag i hi ↦ ?_).trans hrenew
  simp only [CArchitecture.moveCandidate] at hflag hi ⊢
  rw [if_pos hflag, evaluateAll, if_pos hi]

/-- **Every run.** The candidates are evaluated again after every move that changes an edge, exactly
if each of these moves is noticed. -/
theorem renewsOnChange_iff {part_res : ℕ → ℤ} (hcut : ProperEdges g (findCutEdges g part_res))
    (hpart : IsBisection g part_res) (fuel : ℕ) (raw : ℕ → ℤ) :
    RenewsOnChange fuel g raw part_res ↔
      ∀ moves ∈ movesOfFM fuel g raw part_res, ∀ m ∈ moves,
        (∃ e < g.nhedges, m.ChangesEdge g e) → m.Noticed g (findCutEdges g part_res) := by
  have hinit := tracked_climbInit hcut hpart
  rw [RenewsOnChange, movesOfFM_eq_map]
  simp only [stateOfFM, (findZeroNodeCount_spec hcut _).2]
  generalize nodeRank fuel g (findCutNodes g (findCutEdges g part_res)) (findCutEdges g part_res)
    raw = o
  cases o with
  | none => simp
  | some Node_Rank =>
    simp only [Option.bind_eq_bind, Option.bind_some, Option.pure_def, Option.map_some,
      Option.mem_some_iff, forall_eq', mem_trace_climb_iff _ hinit.heapLen_add rfl]
    -- the round that makes the move is the one whose state is asked about
    have hround : ∀ k (m : ClimbMove),
        (climb g (findCutNodes g (findCutEdges g part_res)).length Node_Rank
            (cutEdgesAt g (findCutEdges g part_res)) (k + 1) (climbInit g part_res
              (findCutNodes g (findCutEdges g part_res))
              (findZeroNodeCount g (findCutEdges g part_res) part_res).1)).trace =
          m :: (climb g (findCutNodes g (findCutEdges g part_res)).length Node_Rank
            (cutEdgesAt g (findCutEdges g part_res)) k (climbInit g part_res
              (findCutNodes g (findCutEdges g part_res))
              (findZeroNodeCount g (findCutEdges g part_res) part_res).1)).trace →
        ((climb g (findCutNodes g (findCutEdges g part_res)).length Node_Rank
            (cutEdgesAt g (findCutEdges g part_res)) (k + 1) (climbInit g part_res
              (findCutNodes g (findCutEdges g part_res))
              (findZeroNodeCount g (findCutEdges g part_res) part_res).1)).Renewed g ↔
          m.Noticed g (findCutEdges g part_res)) := by
      intro k m hm
      rw [climb_succ k hinit.heapLen_add] at hm ⊢
      obtain ⟨hlt, hmove, rfl⟩ := climb_one_of_trace_eq hm
      rw [hmove]
      exact (hinit.climb hcut Node_Rank k).renewed_iff hcut hlt Node_Rank
    constructor
    · rintro h m ⟨k, hk, hm⟩ hchange
      exact (hround k m hm).1 (h k hk m hm hchange)
    · intro h k hk m hm hchange
      exact (hround k m hm).2 (h m ⟨k, hk, hm⟩ hchange)

end Renew

/-- The labelling with the given nodes on the other side. -/
def flipNodes (part_res : ℕ → ℤ) (nodes : List ℕ) : ℕ → ℤ :=
  fun v ↦ if v ∈ nodes then 1 - part_res v else part_res v

/-- The nodes of the stones, first one first. -/
def ClimbState.movedNodes (s : ClimbState) : List ℕ :=
  ((s.hill.filter Stone.isChanged).map fun stone ↦ stone.node.toNat).reverse

/-- The values of the stones, first one first: the one at the start, then one for each move. -/
def ClimbState.values (s : ClimbState) : List ℚ := (s.hill.map Stone.curModu).reverse

/-- The labellings that the array goes through while a candidate is tried, one for each write. -/
def trialLabels (part_res : ℕ → ℤ) (node : ℕ) : List (ℕ → ℤ) :=
  if part_res node = 0 then
    [Function.update part_res node 1, Function.update (Function.update part_res node 1) node 0]
  else if part_res node = 1 then
    [Function.update part_res node 0, Function.update (Function.update part_res node 0) node 1]
  else []

/-- The labellings that the array goes through while stones are popped, one for each write. -/
def rollBackLabels (maxModu : ℚ) : List Stone → (ℕ → ℤ) → List (ℕ → ℤ)
  | [], _ => []
  | stone :: hill, part_res =>
    if stone.curModu = maxModu then []
    else if stone.isChanged then
      Function.update part_res stone.node.toNat
          (if part_res stone.node.toNat = 0 then 1 else 0) ::
        rollBackLabels maxModu hill (Function.update part_res stone.node.toNat
          (if part_res stone.node.toNat = 0 then 1 else 0))
    else rollBackLabels maxModu hill part_res

/-- The labels are `0` and `1`, and only the given nodes may have other ones than before. -/
structure MovesOnly (g : CMygraph) (nodes : List ℕ) (part_res labels : ℕ → ℤ) : Prop where
  isBisection : IsBisection g labels
  eq_of_notMem : ∀ v ∉ nodes, labels v = part_res v

/-- The climb after at most `k` rounds. -/
def climbRounds (g : CMygraph) (part_res : ℕ → ℤ) (cutNodes : List ℕ) (Node_Rank : ℕ → ℤ)
    (zero : (ℕ → ℤ) × (ℕ → List ℕ)) (k : ℕ) : ClimbState :=
  climb g cutNodes.length Node_Rank zero.2 k (climbInit g part_res cutNodes zero.1)

/-- The labellings that the array holds while `HillClimbing` runs: after each round, while the
candidates that are left are tried, and while stones are popped. -/
inductive HeldBy (g : CMygraph) (part_res : ℕ → ℤ) (cutNodes : List ℕ) (Node_Rank : ℕ → ℤ)
    (zero : (ℕ → ℤ) × (ℕ → List ℕ)) : (ℕ → ℤ) → Prop
  | moved {k : ℕ} : k ≤ iDistance → HeldBy g part_res cutNodes Node_Rank zero
      (climbRounds g part_res cutNodes Node_Rank zero k).part_res
  | tried {k i : ℕ} {labels : ℕ → ℤ} : k ≤ iDistance →
      i < (climbRounds g part_res cutNodes Node_Rank zero k).HeapLen →
      labels ∈ trialLabels (climbRounds g part_res cutNodes Node_Rank zero k).part_res
        ((climbRounds g part_res cutNodes Node_Rank zero k).pModularityList i).node →
      HeldBy g part_res cutNodes Node_Rank zero labels
  | popped {labels : ℕ → ℤ} :
      labels ∈ rollBackLabels (climbEnd g part_res cutNodes Node_Rank zero).maxModu
        (climbEnd g part_res cutNodes Node_Rank zero).hill
        (climbEnd g part_res cutNodes Node_Rank zero).part_res →
      HeldBy g part_res cutNodes Node_Rank zero labels

/-- The nodes moved are different candidates, as many as the bound and the number of candidates
allow. The value returned is the largest one recorded, and the moves that are kept are those up to
the last one recorded with it. -/
structure KeepsBestPrefix (g : CMygraph) (cutNodes : List ℕ) (part_res : ℕ → ℤ) (s : ClimbState)
    (r : ℚ × (ℕ → ℤ)) : Prop where
  nodup : s.movedNodes.Nodup
  mem_cutNodes : ∀ v ∈ s.movedNodes, v ∈ cutNodes
  length_movedNodes : s.movedNodes.length = min iDistance (cutNodes.length - 1)
  length_values : s.values.length = s.movedNodes.length + 1
  head_values : s.values.head? = some (computeModularity g part_res)
  isGreatest : IsGreatest {c | c ∈ s.values} r.1
  exists_last : ∃ j ≤ s.movedNodes.length, s.values[j]? = some r.1 ∧
    (∀ i, j < i → s.values[i]? ≠ some r.1) ∧ r.2 = flipNodes part_res (s.movedNodes.take j)

section Labels

variable {g : CMygraph} {part_res : ℕ → ℤ} {nodes : List ℕ}

theorem evaluateNode_eq_head?_trialLabels (node : ℕ) :
    evaluateNode g part_res node =
      ((trialLabels part_res node).head?.map (computeModularity g)).getD 0 := by
  rw [evaluateNode, trialLabels]
  split_ifs <;> rfl

/-- Trying a candidate leaves the array as it was. -/
theorem getLast?_trialLabels (node : ℕ) :
    (trialLabels part_res node).getLast?.getD part_res = part_res := by
  rw [trialLabels]
  split_ifs with hzero hone
  · show Function.update (Function.update part_res node 1) node 0 = part_res
    rw [Function.update_idem, ← hzero, Function.update_eq_self]
  · show Function.update (Function.update part_res node 0) node 1 = part_res
    rw [Function.update_idem, ← hone, Function.update_eq_self]
  · rfl

/-- What rolling back leaves is what it wrote last. -/
theorem rollBack_eq_getLast? (maxModu : ℚ) (hill : List Stone) (labels : ℕ → ℤ) :
    rollBack maxModu hill labels = (rollBackLabels maxModu hill labels).getLast?.getD labels := by
  induction hill generalizing labels with
  | nil => rfl
  | cons stone hill ih =>
    rw [rollBack, rollBackLabels, ih]
    generalize (if labels stone.node.toNat = 0 then 1 else 0 : ℤ) = x
    split_ifs
    · rfl
    · rw [List.getLast?_cons, Option.getD_some]
    · rfl

theorem MovesOnly.update {labels : ℕ → ℤ} (h : MovesOnly g nodes part_res labels) {v : ℕ} {x : ℤ}
    (hv : v ∈ nodes) (hx : x = 0 ∨ x = 1) :
    MovesOnly g nodes part_res (Function.update labels v x) where
  isBisection := h.isBisection.update v hx
  eq_of_notMem u hu := by
    rw [Function.update_of_ne (ne_of_mem_of_not_mem hv hu).symm]
    exact h.eq_of_notMem u hu

theorem MovesOnly.trialLabels {labels : ℕ → ℤ} (h : MovesOnly g nodes part_res labels) {v : ℕ}
    (hv : v ∈ nodes) :
    ∀ l ∈ CArchitecture.trialLabels labels v, MovesOnly g nodes part_res l := by
  intro l hl
  rw [CArchitecture.trialLabels] at hl
  have hone := h.update hv (Or.inr rfl)
  have hzero := h.update hv (Or.inl rfl)
  split_ifs at hl
  · rcases List.mem_pair.1 hl with rfl | rfl
    · exact hone
    · exact hone.update hv (Or.inl rfl)
  · rcases List.mem_pair.1 hl with rfl | rfl
    · exact hzero
    · exact hzero.update hv (Or.inr rfl)
  · exact absurd hl List.not_mem_nil

theorem MovesOnly.rollBackLabels {maxModu : ℚ} {hill : List Stone} {labels : ℕ → ℤ}
    (h : MovesOnly g nodes part_res labels)
    (hill_mem : ∀ stone ∈ hill, stone.isChanged → stone.node.toNat ∈ nodes) :
    ∀ l ∈ CArchitecture.rollBackLabels maxModu hill labels, MovesOnly g nodes part_res l := by
  induction hill generalizing labels with
  | nil => exact fun l hl ↦ absurd hl List.not_mem_nil
  | cons stone hill ih =>
    have hrest := fun st hst ↦ hill_mem st (List.mem_cons_of_mem _ hst)
    intro l hl
    have hlabel : (if labels stone.node.toNat = 0 then 1 else 0 : ℤ) = 0 ∨
        (if labels stone.node.toNat = 0 then 1 else 0 : ℤ) = 1 := by
      split_ifs <;> simp
    rw [CArchitecture.rollBackLabels] at hl
    generalize (if labels stone.node.toNat = 0 then 1 else 0 : ℤ) = x at hl hlabel
    split_ifs at hl with _ hchanged
    · exact absurd hl List.not_mem_nil
    · have hpop := h.update (hill_mem stone List.mem_cons_self hchanged) hlabel
      rcases List.mem_cons.1 hl with rfl | hl
      · exact hpop
      · exact ih hpop hrest l hl
    · exact ih h hrest l hl

/-- Flipping nodes one after another. -/
theorem flipNode_flipNodes {v : ℕ} (hv : v ∉ nodes) (hlabel : part_res v = 0 ∨ part_res v = 1) :
    flipNode (flipNodes part_res nodes) v = flipNodes part_res (v :: nodes) := by
  funext u
  rcases eq_or_ne u v with rfl | hne
  · rw [flipNode, Function.update_self, flipNodes, if_neg hv, flipNodes,
      if_pos List.mem_cons_self]
    rcases hlabel with h | h <;> simp [h]
  · rw [flipNode, Function.update_of_ne hne]
    simp [flipNodes, hne]

theorem movesOnly_flipNodes {candidates : List ℕ} (hpart : IsBisection g part_res)
    (hnodes : ∀ v ∈ nodes, v ∈ candidates) :
    MovesOnly g candidates part_res (flipNodes part_res nodes) where
  isBisection v hv := by
    rw [flipNodes]
    have := hpart v hv
    split_ifs
    · omega
    · exact this
  eq_of_notMem v hv := if_neg fun hmem ↦ hv (hnodes v hmem)

end Labels

/-! ### The candidates that are left -/

/-- The candidates that are left and the nodes that were moved are different members of the list
that the climb was given. -/
structure KeptApart (cutNodes : List ℕ) (s : ClimbState) : Prop where
  heapLen_add : s.HeapLen + s.fixnum = cutNodes.length
  length_trace : s.trace.length = min s.fixnum (cutNodes.length - 1)
  node_mem : ∀ i < s.HeapLen, (s.pModularityList i).node ∈ cutNodes
  node_inj : ∀ i < s.HeapLen, ∀ j < s.HeapLen,
    (s.pModularityList i).node = (s.pModularityList j).node → i = j
  node_notMem : ∀ i < s.HeapLen, (s.pModularityList i).node ∉ s.trace.map ClimbMove.node
  nodup_trace : (s.trace.map ClimbMove.node).Nodup
  trace_mem : ∀ v ∈ s.trace.map ClimbMove.node, v ∈ cutNodes

section KeptApart

variable {g : CMygraph} {cutNodes : List ℕ} {s : ClimbState} {Node_Rank : ℕ → ℤ}
  {pCutNodes : ℕ → List ℕ}

theorem keptApart_climbInit (hnd : cutNodes.Nodup) (part_res zero : ℕ → ℤ) :
    KeptApart cutNodes (climbInit g part_res cutNodes zero) where
  heapLen_add := Nat.add_zero _
  length_trace := (Nat.zero_min _).symm
  node_mem i hi := by
    show cutNodes.getD i 0 ∈ cutNodes
    rw [List.getD_eq_getElem _ _ hi]
    exact List.getElem_mem hi
  node_inj i hi j hj heq := by
    change cutNodes.getD i 0 = cutNodes.getD j 0 at heq
    rw [List.getD_eq_getElem _ _ hi, List.getD_eq_getElem _ _ hj] at heq
    exact (hnd.getElem_inj_iff).1 heq
  node_notMem _ _ := List.not_mem_nil
  nodup_trace := List.nodup_nil
  trace_mem _ hv := absurd hv List.not_mem_nil

/-- **One round.** The candidate that is taken out is moved, unless it is the last one. -/
theorem KeptApart.climb_one (h : KeptApart cutNodes s) (hlt : s.fixnum < cutNodes.length) :
    KeptApart cutNodes (climb g cutNodes.length Node_Rank pCutNodes 1 s) := by
  have hadd := h.heapLen_add
  have hlen := h.length_trace
  obtain ⟨σ, hinj, hσ⟩ := (rearranges_getMax s.renew (by omega : 0 < s.HeapLen) Node_Rank
    s.pModularityList).exists_injective
  have hnode : ∀ i < s.HeapLen, σ i < s.HeapLen ∧
      ((pickCandidate Node_Rank s).pModularityList i).node = (s.pModularityList (σ i)).node :=
    fun i hi ↦ ⟨(hσ i hi).1, congrArg ModStruct.node (hσ i hi).2⟩
  by_cases hlast : s.HeapLen - 1 = 0
  · rw [climb_of_last _ hlt hlast]
    have hnone : ∀ i, ¬ i < s.HeapLen - 1 := by omega
    exact {
      heapLen_add := heapLen_add_pickCandidate hadd hlt Node_Rank
      length_trace := by
        show s.trace.length = min (s.fixnum + 1) (cutNodes.length - 1)
        omega
      node_mem := fun i hi ↦ absurd hi (hnone i)
      node_inj := fun i hi ↦ absurd hi (hnone i)
      node_notMem := fun i hi ↦ absurd hi (hnone i)
      nodup_trace := h.nodup_trace
      trace_mem := h.trace_mem }
  · rw [climb_of_move _ hlt hlast, climb]
    have hbest := hnode (s.HeapLen - 1) (by omega)
    have hbest_notMem := h.node_notMem _ hbest.1
    have hleft : ∀ i < s.HeapLen - 1, σ i < s.HeapLen ∧
        ((moveCandidate g pCutNodes (pickCandidate Node_Rank s)).pModularityList i).node =
          (s.pModularityList (σ i)).node := fun i hi ↦
      ⟨(hnode i (by omega)).1, (node_moveCandidate _ _ i).trans (hnode i (by omega)).2⟩
    exact {
      heapLen_add := heapLen_add_pickCandidate hadd hlt Node_Rank
      length_trace := by
        show s.trace.length + 1 = min (s.fixnum + 1) (cutNodes.length - 1)
        omega
      node_mem := fun i hi ↦ (hleft i hi).2 ▸ h.node_mem _ (hleft i hi).1
      node_inj := fun i hi j hj heq ↦ by
        rw [(hleft i hi).2, (hleft j hj).2] at heq
        exact hinj (h.node_inj _ (hleft i hi).1 _ (hleft j hj).1 heq)
      node_notMem := fun i hi hmem ↦ by
        rw [(hleft i hi).2] at hmem
        rcases List.mem_cons.1 hmem with heq | hmem
        · -- it is not the one that was taken out, which was elsewhere
          have hsame := hinj (h.node_inj _ (hleft i hi).1 _ hbest.1 (heq.trans hbest.2))
          have hlt : i < s.HeapLen - 1 := hi
          omega
        · exact h.node_notMem _ (hleft i hi).1 hmem
      nodup_trace := List.nodup_cons.2 ⟨hbest.2 ▸ hbest_notMem, h.nodup_trace⟩
      trace_mem := fun v hv ↦ by
        rcases List.mem_cons.1 hv with rfl | hv
        · exact hbest.2 ▸ h.node_mem _ hbest.1
        · exact h.trace_mem v hv }

/-- **Every round**, and how many there are. -/
theorem keptApart_climb (hnd : cutNodes.Nodup) (part_res zero : ℕ → ℤ) (k : ℕ) :
    KeptApart cutNodes (climb g cutNodes.length Node_Rank pCutNodes k
        (climbInit g part_res cutNodes zero)) ∧
      (climb g cutNodes.length Node_Rank pCutNodes k
        (climbInit g part_res cutNodes zero)).fixnum = min k cutNodes.length := by
  induction k with
  | zero => exact ⟨keptApart_climbInit hnd part_res zero, (Nat.zero_min _).symm⟩
  | succ k ih =>
    obtain ⟨hapart, hfixnum⟩ := ih
    rw [climb_succ k (keptApart_climbInit (g := g) hnd part_res zero).heapLen_add]
    generalize climb g cutNodes.length Node_Rank pCutNodes k
      (climbInit g part_res cutNodes zero) = s at hapart hfixnum ⊢
    rcases lt_or_ge s.fixnum cutNodes.length with hlt | hle
    · refine ⟨hapart.climb_one hlt, ?_⟩
      have hnext : (climb g cutNodes.length Node_Rank pCutNodes 1 s).fixnum = s.fixnum + 1 := by
        by_cases hlast : (pickCandidate Node_Rank s).HeapLen = 0
        · rw [climb_of_last _ hlt hlast]
          rfl
        · rw [climb_of_move _ hlt hlast]
          rfl
      omega
    · rw [climb_of_le _ hle]
      exact ⟨hapart, by omega⟩

end KeptApart

/-! ### What is kept -/

section Kept

variable {g : CMygraph} {part_res : ℕ → ℤ} {cutNodes : List ℕ} {total : ℕ} {s : ClimbState}

/-- The labelling after moves of different nodes has exactly these on the other side. -/
theorem Chained.labelAfter_eq {moves : List ClimbMove} (h : Chained g part_res moves)
    (hpart : IsBisection g part_res) (hnd : (moves.map ClimbMove.node).Nodup) :
    labelAfter part_res moves = flipNodes part_res (moves.map ClimbMove.node) := by
  induction h with
  | nil => rfl
  | @cons m moves hmoves hbefore _ _ hnode ih =>
    obtain ⟨hm, hnd⟩ := List.nodup_cons.1 hnd
    rw [labelAfter, hbefore, ih hnd]
    exact flipNode_flipNodes hm (hpart _ hnode)

theorem Chained.of_suffix {moves kept : List ClimbMove} (h : Chained g part_res moves)
    (hsuffix : kept <:+ moves) : Chained g part_res kept := by
  induction h with
  | nil => rw [List.suffix_nil.1 hsuffix]; exact Chained.nil
  | cons hmoves hbefore hfirst hbis hnode ih =>
    rcases List.suffix_cons_iff.1 hsuffix with rfl | hsuffix
    · exact hmoves.cons hbefore hfirst hbis hnode
    · exact ih hsuffix

theorem Climbed.movedNodes_eq (h : Climbed g part_res total s) :
    s.movedNodes = (s.trace.map ClimbMove.node).reverse := by
  rw [ClimbState.movedNodes, h.hill_eq, stonesOf, List.filter_append]
  simp [List.filter_map, Function.comp_def]

theorem Climbed.values_eq (h : Climbed g part_res total s) :
    s.values = computeModularity g part_res :: (s.trace.map (ClimbMove.recorded g)).reverse := by
  rw [ClimbState.values, h.hill_eq, stonesOf]
  simp [Function.comp_def]

/-- The values up to that of the last move that is kept, and those of the moves taken back. -/
theorem Climbed.exists_last (h : Climbed g part_res total s) (hpart : IsBisection g part_res)
    (hnd : (s.trace.map ClimbMove.node).Nodup) :
    ∃ j ≤ s.movedNodes.length, s.values[j]? = some s.maxModu ∧
      (∀ i, j < i → s.values[i]? ≠ some s.maxModu) ∧
      rollBack s.maxModu s.hill s.part_res = flipNodes part_res (s.movedNodes.take j) := by
  set kept := keptMoves g s.maxModu s.trace with hkept
  set undone := s.trace.takeWhile fun m ↦ m.recorded g ≠ s.maxModu with hundone
  have hsplit : undone ++ kept = s.trace := List.takeWhile_append_dropWhile
  have hmoved : s.movedNodes = (kept.map ClimbMove.node).reverse ++
      (undone.map ClimbMove.node).reverse := by
    rw [h.movedNodes_eq, ← hsplit, List.map_append, List.reverse_append]
  have hvalues : s.values = (computeModularity g part_res ::
      (kept.map (ClimbMove.recorded g)).reverse) ++
        (undone.map (ClimbMove.recorded g)).reverse := by
    rw [h.values_eq, ← hsplit, List.map_append, List.reverse_append, List.cons_append]
  refine ⟨kept.length, ?_, ?_, fun i hi hvalue ↦ ?_, ?_⟩
  · rw [hmoved]
    simp
  · rw [hvalues, List.getElem?_append_left (by simp)]
    rcases hcases : kept with - | ⟨m, rest⟩
    · -- no move is kept, and the value is the first one
      have hnil : keptMoves g (bestRecorded g part_res s.trace) s.trace = [] := by
        rw [← h.maxModu_eq, ← hkept, hcases]
      rw [h.maxModu_eq, bestRecorded_eq_of_keptMoves_eq_nil hnil]
      rfl
    · have hbest := recorded_of_keptMoves_eq_cons (hkept.symm.trans hcases)
      simp [hbest]
  · rw [hvalues, List.getElem?_append_right (by simpa [Nat.succ_le_iff] using hi)] at hvalue
    have hmem := List.mem_reverse.1 (List.mem_of_getElem? hvalue)
    obtain ⟨m, hm, hrecorded⟩ := List.mem_map.1 hmem
    have hne := List.mem_takeWhile_imp hm
    exact absurd hrecorded (by simpa using hne)
  · have hchained : Chained g part_res kept := h.chained.of_suffix ⟨undone, hsplit⟩
    have hsub : (kept.map ClimbMove.node).Nodup := by
      rw [← hsplit, List.map_append] at hnd
      exact hnd.of_append_right
    rw [h.hill_eq, h.part_eq, rollBack_stonesOf h.chained, ← hkept,
      hchained.labelAfter_eq hpart hsub, hmoved,
      List.take_append_of_le_length (by simp), List.take_of_length_le (by simp)]
    funext v
    simp [flipNodes]

theorem Climbed.keepsBestPrefix (h : Climbed g part_res total s) (hpart : IsBisection g part_res)
    (hapart : KeptApart cutNodes s) (hfixnum : s.fixnum = min iDistance cutNodes.length) :
    KeepsBestPrefix g cutNodes part_res s
      (s.maxModu, rollBack s.maxModu s.hill s.part_res) where
  nodup := by
    rw [h.movedNodes_eq]
    exact List.nodup_reverse.2 hapart.nodup_trace
  mem_cutNodes v hv := by
    rw [h.movedNodes_eq, List.mem_reverse] at hv
    exact hapart.trace_mem v hv
  length_movedNodes := by
    have hlen := hapart.length_trace
    rw [h.movedNodes_eq, List.length_reverse, List.length_map]
    omega
  length_values := by
    rw [h.movedNodes_eq, h.values_eq]
    simp
  head_values := by
    rw [h.values_eq]
    rfl
  isGreatest := by
    rw [h.values_eq]
    constructor
    · rw [Set.mem_ofPred_eq, List.mem_cons, List.mem_reverse, List.mem_map, h.maxModu_eq]
      exact bestRecorded_eq_or_exists g part_res s.trace
    · intro c hc
      rw [Set.mem_ofPred_eq, List.mem_cons, List.mem_reverse, List.mem_map] at hc
      rcases hc with rfl | ⟨m, hm, rfl⟩
      · exact h.maxModu_eq ▸ le_bestRecorded g part_res s.trace
      · exact h.maxModu_eq ▸ recorded_le_bestRecorded g part_res hm
  exists_last := h.exists_last hpart hapart.nodup_trace

end Kept

end CArchitecture
