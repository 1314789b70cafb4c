import CArchitecture.Partition

/-!
# The loop over the seeds

The loop of `myPartition` counts up to ten, but one of its paths takes the count back and starts
over with another random seed, according to what `seedmap` held before it was written. So the count
says nothing about how long it runs. What bounds it is `seedexit`: a draw either repeats an earlier
one, and is counted, or enters a new seed there, and there are no more seeds than coarse vertices
(`Drawn.seedRound`).

A seed is tried where it is entered, so it is tried **at most once** (`Tries.eq_of_reached`). The
trial follows the list of the seed to a vertex of the fine graph, and that list is not empty, since
every coarse vertex stands for a group of fine ones (`exists_startVertex`). None of this depends on
the weights, on the draws or on the memory; the weights matter for whether a trial itself returns.
-/

namespace CArchitecture

/-! ### What a round tries -/

/-- The walk from a vertex of a graph to the vertices it stands for, through a list of fathers. The
oldest father has none, and ends the walk. -/
def walkFathers : List CMygraph → ℕ → Option ℕ
  | [], pInitVert => some pInitVert
  | [_], pInitVert => some pInitVert
  | hisfather :: older :: rest, pInitVert =>
    (hisfather.pMyHashForVert pInitVert).head?.bind (walkFathers (older :: rest))

/-- The vertex that `subpartition` starts from, unless the walk meets an empty list. -/
def startVertex (coarse : CMygraph) (fathers : List CMygraph) (seed : ℕ) : Option ℕ :=
  (coarse.pMyHashForVert seed).head?.bind (walkFathers fathers)

/-- The coarse graph that `myPartition` draws its seeds from. -/
def seedGraph (other : OtherInput) (p : CHypergraph) : CMygraph :=
  coarseningGraph other.graph (CMygraph.ofHypergraph p)

/-! ### The states of the loop -/

section Run

variable {fuel : ℕ} {rand : ℕ → ℕ} {g coarse : CMygraph} {other : OtherInput}
  {part_res : ℕ → ℕ → ℤ} {nvtxs : ℕ} {s s' : SeedState}

theorem SeedStep.draws_eq (h : SeedStep fuel g coarse other part_res rand s s') :
    s'.draws = s.draws + 1 := by
  cases h with
  | repeated => rfl
  | passed => rfl
  | tried => rw [(keepBetter_counters _ _).1]

/-- A round that goes on. -/
theorem Drawn.of_seedRound (h : Drawn rand coarse nvtxs s)
    (hround : CArchitecture.seedRound fuel g coarse other part_res rand s = Sum.inl s') :
    Drawn rand coarse nvtxs s' ∧ s.draws < s'.draws ∧
      roundsLeft rand coarse.nvetes s' < roundsLeft rand coarse.nvetes s := by
  by_cases hmore : s.i < 10 ∧ s.i < coarse.nvetes
  · rcases h.seedRound hmore with ⟨t, ht, hstep, hdrawn, hlt⟩ | ⟨hnone, -⟩
    · obtain rfl := Sum.inl.inj (ht.symm.trans hround)
      exact ⟨hdrawn, by rw [hstep.draws_eq]; exact Nat.lt_succ_self _, hlt⟩
    · exact absurd (hnone.symm.trans hround) Sum.inr_ne_inl
  · rw [CArchitecture.seedRound, if_neg hmore] at hround
    exact absurd hround Sum.inr_ne_inl

/-- **The loop ends**, whatever its trials do. -/
theorem Drawn.exists_run (h : Drawn rand coarse nvtxs s) (hfuel : 10 + coarse.nvetes < fuel) :
    ∃ r, Loop.run (CArchitecture.seedRound fuel g coarse other part_res rand) fuel s = some r := by
  obtain ⟨r, hr, -⟩ := Loop.exists_run_eq_some (Drawn rand coarse nvtxs)
    (roundsLeft rand coarse.nvetes) (fun _ ↦ True)
    (fun t t' ht hround ↦ ⟨(ht.of_seedRound hround).1, (ht.of_seedRound hround).2.2⟩)
    (fun _ _ _ _ ↦ trivial) h (by rw [roundsLeft]; omega : _ < fuel)
  exact ⟨r, hr⟩

/-- **A seed is not tried again**: what was drawn before a round is in `seedexit`. -/
theorem Tries.eq_of_reached (h' : Tries coarse rand s') (hs : Drawn rand coarse nvtxs s)
    (hreached : Loop.Reached (seedRound fuel g coarse other part_res rand) s s')
    (hseed : seedAt rand coarse.nvetes s'.draws = seedAt rand coarse.nvetes s.draws) : s' = s := by
  have hnext : ∀ t t', Drawn rand coarse nvtxs t →
      seedRound fuel g coarse other part_res rand t = Sum.inl t' →
      Drawn rand coarse nvtxs t' ∧ t.draws < t'.draws :=
    fun t t' ht hround ↦ ⟨(ht.of_seedRound hround).1, (ht.of_seedRound hround).2.1⟩
  refine (hreached.eq_or_lt _ SeedState.draws hs hnext).resolve_right fun hlt ↦ ?_
  have hs' : Drawn rand coarse nvtxs s' :=
    hreached.invariant _ hs fun t t' ht hround ↦ (hnext t t' ht hround).1
  exact hs'.marks.notMem_of_find? h'.2.1 (mem_seedsBefore.2 ⟨s.draws, hlt, hseed.symm⟩)

theorem exists_startVertex (hcoarse : GroupsVertices g coarse) {seed : ℕ}
    (hseed : seed < coarse.nvetes) : ∃ v, startVertex coarse [g] seed = some v ∧ v < g.nvetes ∧
      coarse.keyTokey.find? v = some seed := by
  obtain ⟨v, hhead, hv, hfind⟩ := hcoarse.exists_head? hseed
  refine ⟨v, ?_, hv, hfind⟩
  rw [startVertex, hhead]
  rfl

end Run

/-- The states at the head of the loop over the seeds. -/
def SeedReached (fuel : ℕ) (other : OtherInput) (rand : ℕ → ℕ) (mem : FreshMemory)
    (p : CHypergraph) (s : SeedState) : Prop :=
  Loop.Reached (seedRound fuel (CMygraph.ofHypergraph p) (seedGraph other p) other mem.part_res
    rand) (seedInit p mem.seedmap) s

/-- **The loop over the seeds**, for all draws and whatever the memory holds. It ends, and if no
vertex has a negative weight its trials return, and `myPartition` does. A round that tries a seed
draws the number of a coarse vertex, no other round tries the same one, and its trial grows one half
from a vertex of the hypergraph that `keyTokey` maps to the seed. -/
theorem seedLoop_triesOnce {p : CHypergraph} (hw : p.WellFormed) {fuel : ℕ}
    (hfuel : 2 * p.nvtxs + 12 ≤ fuel) (other : OtherInput) (rand : ℕ → ℕ) (mem : FreshMemory) :
    (∃ r, Loop.run (seedRound fuel (CMygraph.ofHypergraph p) (seedGraph other p) other
        mem.part_res rand) fuel (seedInit p mem.seedmap) = some r) ∧
    ((∀ v < p.nvtxs, 0 ≤ p.vwgts v) → ∃ q, myPartition fuel other rand mem p = some q) ∧
    ∀ s, SeedReached fuel other rand mem p s → Tries (seedGraph other p) rand s →
      seedAt rand (seedGraph other p).nvetes s.draws < (seedGraph other p).nvetes ∧
      (∀ s', SeedReached fuel other rand mem p s' → Tries (seedGraph other p) rand s' →
        seedAt rand (seedGraph other p).nvetes s'.draws =
          seedAt rand (seedGraph other p).nvetes s.draws → s' = s) ∧
      ∃ v, startVertex (seedGraph other p) [CMygraph.ofHypergraph p]
          (seedAt rand (seedGraph other p).nvetes s.draws) = some v ∧ v < p.nvtxs ∧
        (seedGraph other p).keyTokey.find? v =
          some (seedAt rand (seedGraph other p).nvetes s.draws) := by
  have hrep := CMygraph.represents_ofHypergraph p
  have hcoarse : GroupsVertices (CMygraph.ofHypergraph p) (seedGraph other p) :=
    groupsVertices_coarseningGraph (hrep.pinsOk hw) other.graph
  have hnvetes := hcoarse.nvetes_le
  rw [hrep.nvetes_eq] at hnvetes
  have hinit : Drawn rand (seedGraph other p) p.nvtxs (seedInit p mem.seedmap) :=
    drawn_seedInit p mem.seedmap
  refine ⟨hinit.exists_run (by omega), fun hvwgts ↦ ?_, fun s hs htries ↦ ?_⟩
  · have htry := fun seed hseed Node_Rank raw ↦
      (exists_trySeed other.fl hw hvwgts hrep hcoarse (by omega : 2 * p.nvtxs + 2 ≤ fuel)
        Node_Rank raw seed hseed).elim fun _ h ↦ h.imp fun _ h ↦ h.2.2
    have hrun : ∃ q, myPartition fuel other rand mem p = some q ∧ True :=
      exists_run_seedRound (fun _ ↦ True) (fun _ ↦ True) htry (fun _ _ _ _ _ ↦ trivial)
        (fun _ _ _ ↦ trivial) hinit trivial
        (show 10 + (seedGraph other p).nvetes < fuel by omega)
    exact hrun.imp fun _ h ↦ h.1
  · have hlt : seedAt rand (seedGraph other p).nvetes s.draws < (seedGraph other p).nvetes :=
      Nat.mod_lt _ (Nat.zero_lt_of_lt htries.1.2)
    refine ⟨hlt, fun s' hs' htries' hseed ↦ ?_, ?_⟩
    · have hdrawn : ∀ t, SeedReached fuel other rand mem p t →
          Drawn rand (seedGraph other p) p.nvtxs t := fun t ht ↦
        ht.invariant _ hinit fun _ _ ht hround ↦ (ht.of_seedRound hround).1
      rcases Loop.Reached.comparable hs hs' with hreached | hreached
      · exact htries'.eq_of_reached (hdrawn s hs) hreached hseed
      · exact (htries.eq_of_reached (hdrawn s' hs') hreached hseed.symm).symm
    · obtain ⟨v, hstart, hv, hfind⟩ := exists_startVertex hcoarse hlt
      exact ⟨v, hstart, hrep.nvetes_eq ▸ hv, hfind⟩

/-- The first draw tries the first of the two edges. -/
theorem seedLoop_triesOnce_sampleHalves :
    sampleHalves.WellFormed ∧
    (∃ q, myPartition 20 sampleOther id ⟨fun _ ↦ 0, fun _ _ ↦ 7⟩ sampleHalves = some q) ∧
    ∃ s, SeedReached 20 sampleOther id ⟨fun _ ↦ 0, fun _ _ ↦ 7⟩ sampleHalves s ∧
      Tries (seedGraph sampleOther sampleHalves) id s ∧
      ∃ v, startVertex (seedGraph sampleOther sampleHalves) [CMygraph.ofHypergraph sampleHalves]
          (seedAt id (seedGraph sampleOther sampleHalves).nvetes s.draws) = some v ∧
        v < sampleHalves.nvtxs ∧ (seedGraph sampleOther sampleHalves).keyTokey.find? v =
          some (seedAt id (seedGraph sampleOther sampleHalves).nvetes s.draws) := by
  have hw : sampleHalves.WellFormed := by decide
  have htries : Tries (seedGraph sampleOther sampleHalves) id
      (seedInit sampleHalves fun _ ↦ 0) := by decide
  obtain ⟨-, hreturns, htry⟩ := seedLoop_triesOnce hw (by decide : 2 * sampleHalves.nvtxs + 12 ≤ 20)
    sampleOther id ⟨fun _ ↦ 0, fun _ _ ↦ 7⟩
  exact ⟨hw, hreturns (by decide), _, .start, htries, (htry _ .start htries).2.2⟩

end CArchitecture
