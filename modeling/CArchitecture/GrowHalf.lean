import CArchitecture.Library.Components
import CArchitecture.Partition

/-!
# The half that is grown

`subpartition` grows one half of a hypergraph breadth first from a seed, and takes the next vertex
that has not been met as another seed whenever the queue is empty. It stops in the middle of an
expansion as soon as it has half of the vertices. So the half has **exactly** that many vertices,
and its border runs through one connected component only: the seeds before the last one were taken
up after everything connected to them had been grown (`subpartition_grows`).
-/

namespace CArchitecture

open Components

/-- Two vertices lie on one edge. -/
def CHypergraph.Adjacent (p : CHypergraph) (u v : ℕ) : Prop :=
  ∃ e < p.nhedges, u ∈ p.pins e ∧ v ∈ p.pins e

/-- Two vertices lie in one connected component. -/
def CHypergraph.Connected (p : CHypergraph) : ℕ → ℕ → Prop := Relation.ReflTransGen p.Adjacent

instance (p : CHypergraph) : Std.Symm p.Adjacent where
  symm _ _ := by
    rintro ⟨e, he, hu, hv⟩
    exact ⟨e, he, hv, hu⟩

section Grow

variable {p : CHypergraph} {g : CMygraph} {s : GrowState} {seen : List ℕ}

/-- The pins that an expansion meets are the vertices adjacent to the one that is expanded. -/
theorem adjacent_iff (hg : g.Represents p) {u v : ℕ} :
    p.Adjacent u v ↔ ∃ e ∈ (g.pAllVertices u).arcs, v ∈ (g.pAllEdges e).arcs := by
  constructor
  · rintro ⟨e, he, hu, hv⟩
    refine ⟨e, hg.mem_vert_arcs.2 ⟨he, hu⟩, ?_⟩
    rwa [hg.edge_arcs e he, List.mem_reverse]
  · rintro ⟨e, he, hv⟩
    obtain ⟨he', hu⟩ := hg.mem_vert_arcs.1 he
    rw [hg.edge_arcs e he', List.mem_reverse] at hv
    exact ⟨e, he', hu, hv⟩

/-- The invariant of the loop. What is not in the queue any more has been expanded, unless the half
is complete. -/
structure GrowsHalf (p : CHypergraph) (s : GrowState) (seen : List ℕ) : Prop where
  growing : Growing p.nvtxs s seen
  pos : 1 ≤ s.vertices_num
  num_le : s.vertices_num ≤ max 1 (p.nvtxs / 2)
  busy : s.onepart ≠ [] ∨ p.nvtxs / 2 ≤ s.vertices_num
  explores : ∃ c, Explores p.Adjacent {v | v ∈ seen} {v | v ∈ s.onepart} c
  done : s.vertices_num < p.nvtxs / 2 →
    ∀ v ∈ seen, v ∉ s.onepart → ∀ u, p.Adjacent v u → u ∈ seen

theorem growsHalf_growInit {seed : ℕ} (hseed : seed < p.nvtxs) (raw : ℕ → ℤ) :
    GrowsHalf p (growInit seed raw) [seed] where
  growing := ⟨FirstSeen.marks_empty.insert (by simp) true, by simpa using hseed, rfl⟩
  pos := le_rfl
  num_le := le_max_left _ _
  busy := Or.inl (by simp [growInit])
  explores := by
    refine ⟨seed, ?_⟩
    simpa [growInit] using explores_start p.Adjacent seed
  done _ v hv hnot := absurd hv hnot

/-- An expansion keeps the exploration in its component, and finishes the vertex that is taken out
of the queue. -/
theorem GrowsHalf.expanded (h : GrowsHalf p s seen) (hg : g.Represents p) {nowVert : ℕ}
    {rest new : List ℕ} {t : GrowState} (he : Expanded p.nvtxs g s seen nowVert rest new t) :
    (∃ c, Explores p.Adjacent {v | v ∈ seen ++ new} {v | v ∈ t.onepart} c) ∧
      (t.vertices_num < p.nvtxs / 2 →
        ∀ v ∈ seen ++ new, v ∉ t.onepart → ∀ u, p.Adjacent v u → u ∈ seen ++ new) := by
  constructor
  · obtain ⟨c, hc⟩ := h.explores
    have hnow : nowVert ∈ {v | v ∈ s.onepart} := by
      rw [Set.mem_ofPred_eq, he.queue]
      exact List.mem_cons_self
    have hexp := hc.expand hnow (N := {v | v ∈ new})
      fun v hv ↦ (adjacent_iff hg).2 (he.mem v hv)
    have hZ : {v | v ∈ seen ++ new} = {v | v ∈ seen} ∪ {v | v ∈ new} := by
      ext v
      simp
    rw [hZ]
    refine ⟨c, hexp.mono fun v hv ↦ ?_⟩
    rw [Set.mem_ofPred_eq, he.queue_eq] at hv
    rcases List.mem_append.1 hv with hv | hv
    · exact Or.inl (by rw [Set.mem_ofPred_eq, he.queue]; exact List.mem_cons_of_mem _ hv)
    · exact Or.inr hv
  · intro hroom v hv hnot u huv
    rw [he.queue_eq, List.mem_append, not_or] at hnot
    rcases List.mem_append.1 hv with hv | hv
    · rcases eq_or_ne v nowVert with rfl | hne
      · obtain ⟨e, hev, hue⟩ := (adjacent_iff hg).1 huv
        exact he.all hroom e hev u hue
      · refine List.mem_append_left _ (h.done he.room v hv (fun hq ↦ ?_) u huv)
        rw [he.queue] at hq
        rcases List.mem_cons.1 hq with hq | hq
        · exact hne hq
        · exact hnot.1 hq
    · exact absurd hv hnot.2

/-- **One round.** -/
theorem GrowsHalf.growStep (h : GrowsHalf p s seen) (hg : g.Represents p) {s' : GrowState}
    (hstep : GrowStep p.nvtxs g s seen (Sum.inl s')) :
    ∃ seen', GrowsHalf p s' seen' ∧ growLeft p.nvtxs s' < growLeft p.nvtxs s := by
  cases hstep with
  | @expand nowVert rest new _ he hgo =>
    obtain ⟨hexp, hdone⟩ := h.expanded hg he
    have hcount := he.growing.num_eq
    have hpos := h.pos
    rw [h.growing.num_eq] at hpos
    rw [List.length_append] at hcount
    exact ⟨_, ⟨he.growing, by omega, he.num_le.trans (le_max_right _ _), hgo, hexp, hdone⟩,
      he.growLeft_lt h.growing⟩
  | @reseed nowVert rest new t he hempty hroom v hv hnew =>
    obtain ⟨-, hdone⟩ := h.expanded hg he
    have hclosed : ∀ v ∈ {v | v ∈ seen ++ new}, ∀ u, p.Adjacent v u → u ∈ {v | v ∈ seen ++ new} :=
      fun v hv u huv ↦ hdone hroom v hv (by rw [hempty]; exact List.not_mem_nil) u huv
    have hqueue : (t.add v).onepart = [v] := by rw [GrowState.add, hempty, List.nil_append]
    refine ⟨seen ++ new ++ [v], ?_, ?_⟩
    · exact {
        growing := he.growing.add hv hnew
        pos := Nat.le_add_left 1 t.vertices_num
        num_le := le_trans (Nat.succ_le_of_lt hroom) (le_max_right _ _)
        busy := Or.inl (by rw [hqueue]; exact List.cons_ne_nil _ _)
        explores := by
          refine ⟨v, ?_⟩
          have hre := Explores.restart hclosed v
          have hZ : {u | u ∈ seen ++ new ++ [v]} = {u | u ∈ seen ++ new} ∪ {v} := by
            ext u
            simp only [List.mem_append, List.mem_singleton, Set.mem_ofPred_eq, Set.mem_union,
              Set.mem_singleton_iff]
          rw [hZ, hqueue]
          simpa using hre
        done := fun _ u hu hnot w huw ↦ by
          rw [hqueue] at hnot
          rcases List.mem_append.1 hu with hu | hu
          · exact List.mem_append_left _ (hclosed u hu w huw)
          · exact absurd hu hnot }
    · refine lt_of_le_of_lt ?_ (he.growLeft_lt h.growing)
      have hle := he.growing.num_le
      simp only [growLeft, GrowState.add, List.length_append, List.length_singleton]
      omega

/-- The loop writes a `0` for the vertices that it grows, and nothing else. -/
theorem part_res_of_grown {fuel nvtxs seed : ℕ} {raw : ℕ → ℤ}
    (h : (Loop.run (growRound fuel nvtxs g seed) fuel (growInit seed raw)).join = some s) :
    s.part_res = cleared s.vertExist raw := by
  rw [growInit_eq_withMemory, Loop.run_map (withMemory_growRound raw fuel nvtxs g seed)] at h
  generalize Loop.run (growRound fuel nvtxs g seed) fuel (growInit seed fun _ ↦ 0) = r at h
  rcases r with - | - | t
  · exact absurd h (by simp)
  · exact absurd h (by simp)
  · obtain rfl : t.withMemory raw = s := Option.some.inj h
    rfl

end Grow

/-- **What `subpartition` grows.** From every seed, and whatever the memory held, the loop ends; the
vertices that it puts into part `0` are the larger one of `1` and half the number of vertices, and
at most one connected component has vertices both among them and outside. -/
theorem subpartition_grows (p : CHypergraph) (hw : p.WellFormed) (seed : ℕ) (hseed : seed < p.nvtxs)
    (raw : ℕ → ℤ) (fuel : ℕ) (hfuel : 2 * p.nvtxs < fuel) :
    ∃ s, (Loop.run (growRound fuel p.nvtxs (CMygraph.ofHypergraph p) seed) fuel
        (growInit seed raw)).join = some s ∧
      s.part_res = (fun v ↦ if v ∈ s.vertExist.keys then 0 else raw v) ∧
      (∀ v ∈ s.vertExist.keys, v < p.nvtxs) ∧
      s.vertExist.keys.Nodup ∧ s.vertExist.keys.length = max 1 (p.nvtxs / 2) ∧
      ∀ a ∈ s.vertExist.keys, ∀ b ∉ s.vertExist.keys, p.Connected a b →
        ∀ a' ∈ s.vertExist.keys, ∀ b' ∉ s.vertExist.keys, p.Connected a' b' →
          p.Connected a a' := by
  have hg := CMygraph.represents_ofHypergraph p
  have hpins : ∀ v, ∀ e ∈ ((CMygraph.ofHypergraph p).pAllVertices v).arcs,
      ∀ u ∈ ((CMygraph.ofHypergraph p).pAllEdges e).arcs, u < p.nvtxs := by
    intro v e he u hu
    obtain ⟨e', he', -, hu'⟩ := (adjacent_iff hg).2 ⟨e, he, hu⟩
    exact hw.pins_lt e' he' u hu'
  have hround : ∀ s, (∃ seen, GrowsHalf p s seen) →
      (∃ s', growRound fuel p.nvtxs (CMygraph.ofHypergraph p) seed s = Sum.inl s' ∧
        (∃ seen, GrowsHalf p s' seen) ∧ growLeft p.nvtxs s' < growLeft p.nvtxs s) ∨
      ∃ t, growRound fuel p.nvtxs (CMygraph.ofHypergraph p) seed s = Sum.inr (some t) ∧
        p.nvtxs / 2 ≤ t.vertices_num ∧ ∃ seen, GrowsHalf p t seen := by
    rintro s ⟨seen, hs⟩
    have hstep := hs.growing.growStep hpins hseed (by omega : p.nvtxs < fuel)
    rcases hres : growRound fuel p.nvtxs (CMygraph.ofHypergraph p) seed s with s' | t
    · rw [hres] at hstep
      obtain ⟨seen', hs', hlt⟩ := hs.growStep hg hstep
      exact Or.inl ⟨s', rfl, ⟨seen', hs'⟩, hlt⟩
    · rw [hres] at hstep
      cases hstep with
      | exit hend =>
        -- the queue is empty only when the half is complete
        refine Or.inr ⟨s, rfl, ?_, seen, hs⟩
        rcases hend with hempty | hfull
        · exact hs.busy.resolve_left (not_not.2 hempty)
        · exact hfull
  obtain ⟨s, hrun, hfull, seen, hs⟩ := Loop.exists_join_run_eq_some _ _ _ hround
    ⟨[seed], growsHalf_growInit hseed raw⟩
    (by simp only [growLeft, growInit, List.length_singleton]; omega : _ < fuel)
  have hkeys := hs.growing.marks.perm_keys
  refine ⟨s, hrun, ?_, fun v hv ↦ hs.growing.lt v (hkeys.mem_iff.1 hv), s.vertExist.nodup_keys,
    ?_, ?_⟩
  · rw [part_res_of_grown hrun]
    funext v
    simp only [cleared, OrdMap.mem_keys_iff]
  · have hnum := hs.growing.num_eq
    have hle := hs.num_le
    have hpos := hs.pos
    rw [hkeys.length_eq]
    omega
  · obtain ⟨c, hc⟩ := hs.explores
    intro a ha b hb hab a' ha' b' hb' hab'
    rw [hkeys.mem_iff] at ha hb ha' hb'
    exact hc.not_split ha hb hab ha' hb' hab'

/-- Of two disjoint edges one is grown. -/
theorem subpartition_grows_sampleHalves :
    sampleHalves.WellFormed ∧
    ∃ s, (Loop.run (growRound 9 4 (CMygraph.ofHypergraph sampleHalves) 1) 9
        (growInit 1 fun _ ↦ 7)).join = some s ∧
      s.part_res = (fun v ↦ if v ∈ s.vertExist.keys then 0 else 7) ∧
      (∀ v ∈ s.vertExist.keys, v < 4) ∧
      s.vertExist.keys.Nodup ∧ s.vertExist.keys.length = 2 ∧
      ∀ a ∈ s.vertExist.keys, ∀ b ∉ s.vertExist.keys, sampleHalves.Connected a b →
        ∀ a' ∈ s.vertExist.keys, ∀ b' ∉ s.vertExist.keys, sampleHalves.Connected a' b' →
          sampleHalves.Connected a a' := by
  have hw : sampleHalves.WellFormed := by decide
  exact ⟨hw, subpartition_grows sampleHalves hw 1 (by decide) (fun _ ↦ 7) 9 (by decide)⟩

end CArchitecture
