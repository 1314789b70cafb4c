import CArchitecture.Bisection
import CArchitecture.Coarsen
import CArchitecture.HillClimbing

/-!
# Bisecting a graph

`myPartition` draws seeds, grows one half of the graph from each, refines the result with `myFM` and
keeps the best one. Two of the arrays that it works with are **never initialised**: `seedmap`, which
is to tell the seeds that were used, and `part_res`, of which growing writes the cells of the grown
half only, while the loop that follows reads every cell.

So what the memory held before is an input here (`FreshMemory`). So is the way in which the machine
rounds a `double` (`OtherInput.fl`): whether a split is found at all may depend on it.

* `subpartition_eq` says what becomes of `part_res`: the grown vertices get `0`, and every other
  vertex `0` or `1` according to what its cell held. Which vertices are grown does not depend on the
  memory.
* What may be found is up to the graph and the draws (`Found`). A graph that is parted is parted
  along something of this, and for all of it there is memory that leads to it (`myPartition_found`).
* So the results of `myPartition` are the same for all memory exactly if there is nothing to be
  found (`myPartition_sameResults_iff`): with `seedmap` full of ones no seed is ever tried.
-/

namespace CArchitecture

open FirstSeen

/-! ### Growing one half -/

/-- The variables of `subpartition`. -/
structure GrowState where
  /-- The queue, front first. -/
  onepart : List ℕ
  vertExist : OrdMap ℕ Bool
  part_res : ℕ → ℤ
  vertices_num : ℕ

/-- Put a vertex into the grown half. -/
def GrowState.add (s : GrowState) (v : ℕ) : GrowState where
  onepart := s.onepart ++ [v]
  vertExist := s.vertExist.insert v true
  part_res := Function.update s.part_res v 0
  vertices_num := s.vertices_num + 1

/-- One pin. With `half` of the vertices all loops are left. -/
def growVert (half : ℕ) (s : GrowState) (v : ℕ) : GrowState :=
  if s.vertices_num ≥ half then s
  else
    match s.vertExist.find? v with
    | some _ => s
    | none => s.add v

/-- The first vertex after `seed`, in a circle, that has not been met. -/
def anotherSeed (fuel nvtxs : ℕ) (vertExist : OrdMap ℕ Bool) (seed : ℕ) : Option ℕ :=
  Loop.run (fun s ↦
    match vertExist.find? ((s + 1) % nvtxs) with
    | some _ => Sum.inl ((s + 1) % nvtxs)
    | none => Sum.inr ((s + 1) % nvtxs)) fuel seed

/-- One round: the neighbours of the vertex at the front, and a new seed if the queue is empty
then. -/
def growRound (fuel nvtxs : ℕ) (g : CMygraph) (seed : ℕ) (s : GrowState) :
    GrowState ⊕ Option GrowState :=
  match s.onepart with
  | [] => Sum.inr (some s)
  | nowVert :: _ =>
    if s.vertices_num < nvtxs / 2 then
      let t := (g.pAllVertices nowVert).arcs.foldl
        (fun s e ↦ (g.pAllEdges e).arcs.foldl (growVert (nvtxs / 2)) s) s
      let t := { t with onepart := t.onepart.tail }
      if t.onepart = [] ∧ t.vertices_num < nvtxs / 2 then
        match anotherSeed fuel nvtxs t.vertExist seed with
        | some v => Sum.inl (t.add v)
        | none => Sum.inr none
      else Sum.inl t
    else Sum.inr (some s)

/-- The state before the loop. -/
def growInit (seed : ℕ) (raw : ℕ → ℤ) : GrowState where
  onepart := [seed]
  vertExist := (∅ : OrdMap ℕ Bool).insert seed true
  part_res := Function.update raw seed 0
  vertices_num := 1

/-- `subpartition`, on an array that holds `raw`. Of the hypergraph it reads `nvtxs` alone. -/
def subpartition (fuel nvtxs : ℕ) (g : CMygraph) (seed : ℕ) (raw : ℕ → ℤ) :
    Option (ℕ → ℤ) := do
  let s ← (Loop.run (growRound fuel nvtxs g seed) fuel (growInit seed raw)).join
  pure fun i ↦ if i < nvtxs ∧ s.part_res i ≠ 0 then 1 else s.part_res i

/-- The vertices of the grown half. -/
def grown (fuel nvtxs : ℕ) (g : CMygraph) (seed : ℕ) : Option (OrdMap ℕ Bool) :=
  (Loop.run (growRound fuel nvtxs g seed) fuel (growInit seed fun _ ↦ 0)).join.map
    GrowState.vertExist

/-! ### Trying seeds -/

/-- The bound that a modularity has to exceed. -/
def CRITICAL : ℚ := 0

/-- What the memory holds that `myPartition` obtains for `seedmap` and, at the `t`-th draw of a
seed, for `part_res`. -/
structure FreshMemory where
  seedmap : ℕ → ℤ
  part_res : ℕ → ℕ → ℤ

/-- What else a run depends on: other memory that is not initialised, which is the coarse graph and,
at the `t`-th draw, the array of ranks; and how the machine rounds. -/
structure OtherInput where
  graph : CMygraph
  Node_Rank : ℕ → ℕ → ℤ
  /-- The rounding of the result of an operation on `double`s. -/
  fl : ℚ → ℚ

/-- The variables of `myPartition`. -/
structure SeedState where
  p : CHypergraph
  i : ℕ
  /-- The number of calls of `rand`. -/
  draws : ℕ
  seedexit : OrdMap ℕ Bool
  seedmap : ℕ → ℤ
  modularity : ℚ

/-- Grow from a seed and refine. The coarse graph has the fine one as its father, which has none, so
the walk through the fathers ends at once with the first fine vertex of the seed. -/
def trySeed (fl : ℚ → ℚ) (fuel nvtxs : ℕ) (g coarse : CMygraph) (Node_Rank raw : ℕ → ℤ)
    (seed : ℕ) : Option (ℚ × (ℕ → ℤ)) := do
  let pInitVert ← (coarse.pMyHashForVert seed).head?
  let part_res ← subpartition fuel nvtxs g pInitVert raw
  myFM fuel g Node_Rank part_res fl

/-- Keep a result that is better than the best so far. -/
def keepBetter (r : ℚ × (ℕ → ℤ)) (s : SeedState) : SeedState :=
  if r.1 > s.modularity ∧ r.1 > CRITICAL then
    { s with
      p :=
        { s.p with
          modu := r.1
          isParted := true
          part := fun k ↦ if k < s.p.nvtxs then r.2 k else s.p.part k }
      modularity := r.1 }
  else s

/-- The seed of the `t`-th draw. -/
def seedAt (rand : ℕ → ℕ) (n t : ℕ) : ℕ := rand t % n

/-- One round of the loop over the seeds. A seed that is new but has a one in `seedmap` is passed
over, and does not count: the `i--` there undoes the `i++` of the loop. -/
def seedRound (fuel : ℕ) (g coarse : CMygraph) (other : OtherInput) (part_res : ℕ → ℕ → ℤ)
    (rand : ℕ → ℕ) (s : SeedState) : SeedState ⊕ Option CHypergraph :=
  if s.i < 10 ∧ s.i < coarse.nvetes then
    let seed := seedAt rand coarse.nvetes s.draws
    match s.seedexit.find? seed with
    | some _ => Sum.inl { s with i := s.i + 1, draws := s.draws + 1 }
    | none =>
      let s' := { s with draws := s.draws + 1, seedexit := s.seedexit.insert seed true }
      if s.seedmap seed ≠ 1 then
        match trySeed other.fl fuel s.p.nvtxs g coarse (other.Node_Rank s.draws)
          (part_res s.draws) seed with
        | some r => Sum.inl (keepBetter r
            { s' with i := s.i + 1, seedmap := Function.update s.seedmap seed 1 })
        | none => Sum.inr none
      else Sum.inl s'
  else Sum.inr (some s.p)

/-- The state before the loop over the seeds. -/
def seedInit (p : CHypergraph) (seedmap : ℕ → ℤ) : SeedState where
  p := { p with isParted := false }
  i := 0
  draws := 0
  seedexit := ∅
  seedmap := seedmap
  modularity := -10000

/-- The loop over the seeds. -/
def seedLoop (fuel : ℕ) (g coarse : CMygraph) (other : OtherInput) (rand : ℕ → ℕ)
    (mem : FreshMemory) (p : CHypergraph) : Option CHypergraph :=
  (Loop.run (seedRound fuel g coarse other mem.part_res rand) fuel (seedInit p mem.seedmap)).join

/-- `myPartition`: the hypergraph as it is left. -/
def myPartition (fuel : ℕ) (other : OtherInput) (rand : ℕ → ℕ) (mem : FreshMemory)
    (p : CHypergraph) : Option CHypergraph :=
  let g := CMygraph.ofHypergraph p
  seedLoop fuel g (coarseningGraph other.graph g) other rand mem p

/-! ### Growing does not depend on the memory -/

/-- The array `raw` with a `0` in every marked cell. -/
def cleared (m : OrdMap ℕ Bool) (raw : ℕ → ℤ) : ℕ → ℤ :=
  fun v ↦ if (m.find? v).isSome then 0 else raw v

theorem cleared_empty (raw : ℕ → ℤ) : cleared ∅ raw = raw := by
  funext v
  simp [cleared]

theorem cleared_insert (m : OrdMap ℕ Bool) (v : ℕ) (raw : ℕ → ℤ) :
    cleared (m.insert v true) raw = Function.update (cleared m raw) v 0 := by
  funext u
  rw [cleared]
  rcases eq_or_ne u v with rfl | hne
  · rw [Function.update_self, OrdMap.find?_insert, if_pos rfl, if_pos]
    cases m.find? u <;> rfl
  · rw [Function.update_of_ne hne, OrdMap.find?_insert_of_ne _ _ hne]
    rfl

/-- The same state, had the array held `raw` before. -/
def GrowState.withMemory (raw : ℕ → ℤ) (s : GrowState) : GrowState :=
  { s with part_res := cleared s.vertExist raw }

section Memory

variable (raw : ℕ → ℤ)

theorem withMemory_add (s : GrowState) (v : ℕ) :
    (s.withMemory raw).add v = (s.add v).withMemory raw := by
  simp only [GrowState.add, GrowState.withMemory, cleared_insert]

theorem withMemory_growVert (half : ℕ) (s : GrowState) (v : ℕ) :
    growVert half (s.withMemory raw) v = (growVert half s v).withMemory raw := by
  rw [growVert, growVert]
  by_cases hfull : s.vertices_num ≥ half
  · rw [if_pos hfull]
    exact if_pos hfull
  · rw [if_neg hfull]
    refine (if_neg hfull).trans ?_
    show (match s.vertExist.find? v with | some _ => _ | none => _) = _
    cases s.vertExist.find? v with
    | some b => rfl
    | none => exact withMemory_add raw s v

theorem withMemory_foldl_growVert (half : ℕ) (l : List ℕ) (s : GrowState) :
    l.foldl (growVert half) (s.withMemory raw) = (l.foldl (growVert half) s).withMemory raw := by
  induction l generalizing s with
  | nil => rfl
  | cons v l ih => rw [List.foldl_cons, List.foldl_cons, withMemory_growVert, ih]

theorem withMemory_growRound (fuel nvtxs : ℕ) (g : CMygraph) (seed : ℕ) (s : GrowState) :
    growRound fuel nvtxs g seed (s.withMemory raw) =
      (growRound fuel nvtxs g seed s).map (GrowState.withMemory raw)
        (Option.map (GrowState.withMemory raw)) := by
  simp only [growRound, ← List.foldl_flatMap]
  show (match s.onepart with | [] => _ | nowVert :: _ => _) = _
  cases s.onepart with
  | nil => rfl
  | cons nowVert rest =>
    simp only [withMemory_foldl_growVert]
    generalize List.foldl (growVert (nvtxs / 2)) s _ = t
    by_cases hnum : s.vertices_num < nvtxs / 2
    · rw [if_pos hnum]
      refine (if_pos hnum).trans ?_
      by_cases hempty : t.onepart.tail = [] ∧ t.vertices_num < nvtxs / 2
      · rw [if_pos hempty]
        refine (if_pos hempty).trans ?_
        show (match anotherSeed fuel nvtxs t.vertExist seed with | some _ => _ | none => _) = _
        cases anotherSeed fuel nvtxs t.vertExist seed with
        | none => rfl
        | some v => exact congrArg Sum.inl (withMemory_add raw { t with onepart := _ } v)
      · rw [if_neg hempty]
        exact if_neg hempty
    · rw [if_neg hnum]
      exact if_neg hnum

theorem growInit_eq_withMemory (seed : ℕ) :
    growInit seed raw = (growInit seed fun _ ↦ 0).withMemory raw := by
  simp only [growInit, GrowState.withMemory, cleared_insert, cleared_empty]

/-- **What `subpartition` leaves**: `0` on the grown half, and elsewhere what its cells held, made
`0` or `1`. -/
theorem subpartition_eq (fuel nvtxs : ℕ) (g : CMygraph) (seed : ℕ) :
    subpartition fuel nvtxs g seed raw = (grown fuel nvtxs g seed).map fun Z i ↦
      if (Z.find? i).isSome then 0 else if i < nvtxs ∧ raw i ≠ 0 then 1 else raw i := by
  rw [subpartition, grown, growInit_eq_withMemory,
    Loop.run_map (withMemory_growRound raw fuel nvtxs g seed)]
  rcases Loop.run (growRound fuel nvtxs g seed) fuel (growInit seed fun _ ↦ 0) with - | - | s
  · rfl
  · rfl
  · refine congrArg some (funext fun i ↦ ?_)
    show (if i < nvtxs ∧ cleared s.vertExist raw i ≠ 0 then (1 : ℤ)
      else cleared s.vertExist raw i) = _
    rw [cleared]
    by_cases hgrown : (s.vertExist.find? i).isSome
    · simp [hgrown]
    · simp [hgrown]

end Memory

/-! ### Growing ends -/

/-- While a vertex has not been met, the circle leads to one. -/
theorem exists_anotherSeed {fuel nvtxs seed : ℕ} {m : OrdMap ℕ Bool} {seen : List ℕ}
    (h : Marks m seen) (hlen : seen.length < nvtxs) (hseed : seed < nvtxs) (hfuel : nvtxs < fuel) :
    ∃ v, anotherSeed fuel nvtxs m seed = some v ∧ m.find? v = none ∧ v < nvtxs := by
  obtain ⟨u, hu, hnew⟩ : ∃ u < nvtxs, u ∉ seen := by
    by_contra hall
    -- otherwise all vertices have been seen, and they are too many
    have hsub : List.range nvtxs ⊆ seen := fun u hu ↦ by
      by_contra hnot
      exact hall ⟨u, List.mem_range.1 hu, hnot⟩
    have := (List.nodup_range.subperm hsub).length_le
    rw [List.length_range] at this
    omega
  -- the way from `s` on to `u` gets shorter with every step
  refine Loop.exists_run_eq_some (· < nvtxs) (fun s ↦ if s < u then u - s else u + nvtxs - s)
    (fun v ↦ m.find? v = none ∧ v < nvtxs) ?_ ?_ hseed ?_
  · intro s s' hs hstep
    cases hfind : m.find? ((s + 1) % nvtxs) with
    | none => simp [hfind] at hstep
    | some b =>
      simp only [hfind, Sum.inl.injEq] at hstep
      have hne : s' ≠ u := by
        rintro rfl
        exact hnew (h.mem_of_find? (hstep ▸ hfind))
      rcases Nat.lt_or_ge (s + 1) nvtxs with hlt | hge
      · rw [Nat.mod_eq_of_lt hlt] at hstep
        refine ⟨by omega, ?_⟩
        split_ifs <;> omega
      · have hwrap : s + 1 = nvtxs := by omega
        rw [hwrap, Nat.mod_self] at hstep
        refine ⟨by omega, ?_⟩
        split_ifs <;> omega
  · intro s v hs hstep
    cases hfind : m.find? ((s + 1) % nvtxs) with
    | some b => simp [hfind] at hstep
    | none =>
      simp only [hfind, Sum.inr.injEq] at hstep
      exact ⟨hstep ▸ hfind, hstep ▸ Nat.mod_lt _ (by omega)⟩
  · split_ifs <;> omega

/-- The grown vertices are counted. -/
structure Growing (nvtxs : ℕ) (s : GrowState) (seen : List ℕ) : Prop where
  marks : Marks s.vertExist seen
  lt : ∀ v ∈ seen, v < nvtxs
  num_eq : s.vertices_num = seen.length

section Grow

variable {nvtxs : ℕ} {s : GrowState} {seen : List ℕ}

theorem Growing.num_le (h : Growing nvtxs s seen) : s.vertices_num ≤ nvtxs := by
  rw [h.num_eq]
  exact h.marks.length_le h.lt

theorem Growing.add (h : Growing nvtxs s seen) {v : ℕ} (hv : v < nvtxs)
    (hnew : s.vertExist.find? v = none) : Growing nvtxs (s.add v) (seen ++ [v]) where
  marks := h.marks.insert hnew true
  lt u hu := by
    rcases List.mem_append.1 hu with hu | hu
    · exact h.lt u hu
    · exact List.mem_singleton.1 hu ▸ hv
  num_eq := by
    rw [List.length_append, List.length_singleton, ← h.num_eq]
    rfl

/-- Every vertex that is added is counted and waits in the queue, and nothing is left out as long as
there is room. -/
theorem Growing.foldl_growVert (half : ℕ) (l : List ℕ) (hl : ∀ v ∈ l, v < nvtxs)
    (h : Growing nvtxs s seen) : ∃ new, Growing nvtxs (l.foldl (growVert half) s) (seen ++ new) ∧
      (l.foldl (growVert half) s).onepart = s.onepart ++ new ∧ (∀ v ∈ new, v ∈ l) ∧
      ((l.foldl (growVert half) s).vertices_num < half → ∀ v ∈ l, v ∈ seen ++ new) ∧
      (s.vertices_num ≤ half → (l.foldl (growVert half) s).vertices_num ≤ half) := by
  induction l generalizing s seen with
  | nil => exact ⟨[], by simpa using h, by simp, by simp, by simp, id⟩
  | cons v l ih =>
    rw [List.foldl_cons]
    have hl' : ∀ v ∈ l, v < nvtxs := fun u hu ↦ hl u (List.mem_cons_of_mem _ hu)
    rcases Nat.lt_or_ge s.vertices_num half with hroom | hfull
    · cases hfind : s.vertExist.find? v with
      | some b =>
        have hsame : growVert half s v = s := by rw [growVert, if_neg (not_le.2 hroom), hfind]
        obtain ⟨new, h', hqueue, hmem, hall, hle⟩ := ih hl' h
        rw [hsame]
        refine ⟨new, h', hqueue, fun u hu ↦ List.mem_cons_of_mem _ (hmem u hu),
          fun hlt u hu ↦ ?_, hle⟩
        rcases List.mem_cons.1 hu with rfl | hu
        · exact List.mem_append_left _ (h.marks.mem_of_find? hfind)
        · exact hall hlt u hu
      | none =>
        have hadd : growVert half s v = s.add v := by rw [growVert, if_neg (not_le.2 hroom), hfind]
        obtain ⟨new, h', hqueue, hmem, hall, hle⟩ := ih hl' (h.add (hl v List.mem_cons_self) hfind)
        rw [hadd]
        rw [List.append_assoc, List.singleton_append] at h'
        refine ⟨v :: new, h', ?_, fun u hu ↦ ?_, fun hlt u hu ↦ ?_, fun _ ↦ hle hroom⟩
        · rw [hqueue, GrowState.add, List.append_assoc, List.singleton_append]
        · rcases List.mem_cons.1 hu with rfl | hu
          · exact List.mem_cons_self
          · exact List.mem_cons_of_mem _ (hmem u hu)
        · rcases List.mem_cons.1 hu with rfl | hu
          · simp
          · simpa using hall hlt u hu
    · -- nothing more is added
      have hsame : ∀ l' : List ℕ, l'.foldl (growVert half) s = s := by
        intro l'
        induction l' with
        | nil => rfl
        | cons u l' ih' => rw [List.foldl_cons, growVert, if_pos hfull, ih']
      have hv : growVert half s v = s := hsame [v]
      rw [hv, hsame]
      exact ⟨[], by simpa using h, by simp, by simp, fun hlt ↦ absurd hlt (not_lt.2 hfull), id⟩

/-- The vertex at the front has been expanded: `new` are the vertices that were added. -/
structure Expanded (nvtxs : ℕ) (g : CMygraph) (s : GrowState) (seen : List ℕ) (nowVert : ℕ)
    (rest new : List ℕ) (t : GrowState) : Prop where
  queue : s.onepart = nowVert :: rest
  room : s.vertices_num < nvtxs / 2
  growing : Growing nvtxs t (seen ++ new)
  queue_eq : t.onepart = rest ++ new
  mem : ∀ v ∈ new, ∃ e ∈ (g.pAllVertices nowVert).arcs, v ∈ (g.pAllEdges e).arcs
  all : t.vertices_num < nvtxs / 2 →
    ∀ e ∈ (g.pAllVertices nowVert).arcs, ∀ v ∈ (g.pAllEdges e).arcs, v ∈ seen ++ new
  num_le : t.vertices_num ≤ nvtxs / 2

/-- What one round does: it exits, expands the vertex at the front, or does so and then takes a new
seed. -/
inductive GrowStep (nvtxs : ℕ) (g : CMygraph) (s : GrowState) (seen : List ℕ) :
    GrowState ⊕ Option GrowState → Prop
  | exit (hend : s.onepart = [] ∨ nvtxs / 2 ≤ s.vertices_num) :
      GrowStep nvtxs g s seen (Sum.inr (some s))
  | expand {nowVert : ℕ} {rest new : List ℕ} {t : GrowState}
      (h : Expanded nvtxs g s seen nowVert rest new t)
      (hgo : t.onepart ≠ [] ∨ nvtxs / 2 ≤ t.vertices_num) : GrowStep nvtxs g s seen (Sum.inl t)
  | reseed {nowVert : ℕ} {rest new : List ℕ} {t : GrowState}
      (h : Expanded nvtxs g s seen nowVert rest new t) (hempty : t.onepart = [])
      (hroom : t.vertices_num < nvtxs / 2) {v : ℕ} (hv : v < nvtxs)
      (hnew : t.vertExist.find? v = none) : GrowStep nvtxs g s seen (Sum.inl (t.add v))

/-- **One round.** -/
theorem Growing.growStep {fuel seed : ℕ} {g : CMygraph}
    (hpins : ∀ v, ∀ e ∈ (g.pAllVertices v).arcs, ∀ u ∈ (g.pAllEdges e).arcs, u < nvtxs)
    (hseed : seed < nvtxs) (hfuel : nvtxs < fuel) (h : Growing nvtxs s seen) :
    GrowStep nvtxs g s seen (growRound fuel nvtxs g seed s) := by
  rw [growRound]
  rcases hqueue : s.onepart with - | ⟨nowVert, rest⟩
  · exact GrowStep.exit (Or.inl hqueue)
  rcases Nat.lt_or_ge s.vertices_num (nvtxs / 2) with hnum | hnum
  swap
  · simp only [if_neg (not_lt.2 hnum)]
    exact GrowStep.exit (Or.inr hnum)
  simp only [if_pos hnum]
  obtain ⟨new, ht, hq, hmem, hall, hle⟩ := h.foldl_growVert (nvtxs / 2)
    ((g.pAllVertices nowVert).arcs.flatMap fun e ↦ (g.pAllEdges e).arcs) fun u hu ↦ by
      obtain ⟨e, he, hue⟩ := List.mem_flatMap.1 hu
      exact hpins nowVert e he u hue
  rw [List.foldl_flatMap] at ht hq hall hle
  set t := (g.pAllVertices nowVert).arcs.foldl
    (fun s e ↦ (g.pAllEdges e).arcs.foldl (growVert (nvtxs / 2)) s) s
  have htail : t.onepart.tail = rest ++ new := by
    rw [hq, hqueue]
    rfl
  have hexp : Expanded nvtxs g s seen nowVert rest new { t with onepart := t.onepart.tail } := {
    queue := hqueue
    room := hnum
    growing := ⟨ht.marks, ht.lt, ht.num_eq⟩
    queue_eq := htail
    mem := fun v hv ↦ List.mem_flatMap.1 (hmem v hv)
    all := fun hlt e he v hv ↦ hall hlt v (List.mem_flatMap.2 ⟨e, he, hv⟩)
    num_le := hle hnum.le }
  by_cases hempty : t.onepart.tail = [] ∧ t.vertices_num < nvtxs / 2
  · have hsmall : (seen ++ new).length < nvtxs := by
      rw [← ht.num_eq]
      omega
    obtain ⟨v, hv, hnew, hlt⟩ := exists_anotherSeed ht.marks hsmall hseed hfuel
    simp only [if_pos hempty, hv]
    exact GrowStep.reseed hexp hempty.1 hempty.2 hlt hnew
  · rw [if_neg hempty]
    refine GrowStep.expand hexp ?_
    rw [not_and_or, not_lt] at hempty
    exact hempty

/-- What is left to do: vertices that can still be added, and vertices in the queue. -/
def growLeft (nvtxs : ℕ) (s : GrowState) : ℕ := 2 * (nvtxs - s.vertices_num) + s.onepart.length

theorem Expanded.growLeft_lt {g : CMygraph} {nowVert : ℕ} {rest new : List ℕ} {t : GrowState}
    (he : Expanded nvtxs g s seen nowVert rest new t) (h : Growing nvtxs s seen) :
    growLeft nvtxs t < growLeft nvtxs s := by
  have hnum := h.num_eq
  have hnum' := he.growing.num_eq
  have hle := he.growing.num_le
  rw [List.length_append] at hnum'
  rw [growLeft, growLeft, he.queue, he.queue_eq, List.length_append, List.length_cons]
  omega

/-- A round takes a vertex out of the queue and puts only new ones in, so that what is left to do
gets less. -/
theorem Growing.growRound {fuel seed : ℕ} {g : CMygraph}
    (hpins : ∀ v, ∀ e ∈ (g.pAllVertices v).arcs, ∀ u ∈ (g.pAllEdges e).arcs, u < nvtxs)
    (hseed : seed < nvtxs) (hfuel : nvtxs < fuel) (h : Growing nvtxs s seen) :
    growRound fuel nvtxs g seed s = Sum.inr (some s) ∨
      ∃ s' seen', growRound fuel nvtxs g seed s = Sum.inl s' ∧ Growing nvtxs s' seen' ∧
        growLeft nvtxs s' < growLeft nvtxs s := by
  have hstep := h.growStep hpins hseed hfuel
  generalize CArchitecture.growRound fuel nvtxs g seed s = r at hstep
  cases hstep with
  | exit _ => exact Or.inl rfl
  | expand hexp _ => exact Or.inr ⟨_, _, rfl, hexp.growing, hexp.growLeft_lt h⟩
  | @reseed _ _ _ t hexp _ hroom v hv hnew =>
    refine Or.inr ⟨_, _, rfl, hexp.growing.add hv hnew, lt_of_le_of_lt ?_ (hexp.growLeft_lt h)⟩
    have hle := hexp.growing.num_le
    simp only [growLeft, GrowState.add, List.length_append, List.length_singleton]
    omega

/-- **Growing ends.** -/
theorem exists_grown {fuel seed : ℕ} {g : CMygraph}
    (hpins : ∀ v, ∀ e ∈ (g.pAllVertices v).arcs, ∀ u ∈ (g.pAllEdges e).arcs, u < nvtxs)
    (hseed : seed < nvtxs) (hfuel : 2 * nvtxs < fuel) :
    ∃ Z, grown fuel nvtxs g seed = some Z := by
  have hinit : Growing nvtxs (growInit seed fun _ ↦ 0) [seed] :=
    ⟨marks_empty.insert (by simp) true, by simpa using hseed, rfl⟩
  have hround : ∀ s, (∃ seen, Growing nvtxs s seen) →
      (∃ s', CArchitecture.growRound fuel nvtxs g seed s = Sum.inl s' ∧
        (∃ seen, Growing nvtxs s' seen) ∧ growLeft nvtxs s' < growLeft nvtxs s) ∨
      ∃ t, CArchitecture.growRound fuel nvtxs g seed s = Sum.inr (some t) ∧ True := by
    rintro s ⟨seen, hs⟩
    rcases hs.growRound hpins hseed (by omega : nvtxs < fuel) with hend | ⟨t, seen', ht, hgrow, hμ⟩
    · exact Or.inr ⟨s, hend, trivial⟩
    · exact Or.inl ⟨t, ht, ⟨seen', hgrow⟩, hμ⟩
  obtain ⟨s, hs, -⟩ := Loop.exists_join_run_eq_some _ _ _ hround ⟨[seed], hinit⟩
    (by simp only [growLeft, growInit, List.length_singleton]; omega : _ < fuel)
  exact ⟨s.vertExist, by rw [grown, hs]; rfl⟩

end Grow

/-! ### One seed -/

/-- What a seed can be tried with: the labellings that have the grown half in part `0`. -/
def Labels (fuel nvtxs : ℕ) (g coarse : CMygraph) (seed : ℕ) (part_res : ℕ → ℤ) : Prop :=
  ∃ v ∈ (coarse.pMyHashForVert seed).head?, ∃ Z ∈ grown fuel nvtxs g v,
    IsBisection g part_res ∧ ∀ u, (Z.find? u).isSome → part_res u = 0

section Trial

variable {fuel : ℕ} {p : CHypergraph} {g coarse : CMygraph}

/-- **A trial refines one of these labellings**, whatever the memory held. -/
theorem exists_trySeed (fl : ℚ → ℚ) (hw : p.WellFormed) (hvwgts : ∀ v < p.nvtxs, 0 ≤ p.vwgts v)
    (hg : g.Represents p) (hcoarse : GroupsVertices g coarse) (hfuel : 2 * p.nvtxs + 2 ≤ fuel)
    (Node_Rank raw : ℕ → ℤ) (seed : ℕ) (hseed : seed < coarse.nvetes) :
    ∃ part_res r, Labels fuel p.nvtxs g coarse seed part_res ∧
      myFM fuel g Node_Rank part_res fl = some r ∧
      trySeed fl fuel p.nvtxs g coarse Node_Rank raw seed = some r := by
  obtain ⟨v, hhead, hv, -⟩ := hcoarse.exists_head? hseed
  rw [hg.nvetes_eq] at hv
  have hpins : ∀ w, ∀ e ∈ (g.pAllVertices w).arcs, ∀ u ∈ (g.pAllEdges e).arcs, u < p.nvtxs := by
    intro w e he u hu
    obtain ⟨he, -⟩ := hg.mem_vert_arcs.1 he
    exact hg.nvetes_eq ▸ hg.arcs_lt hw.pins_lt e (hg.nhedges_eq ▸ he) u hu
  obtain ⟨Z, hZ⟩ := exists_grown hpins hv (by omega : 2 * p.nvtxs < fuel)
  have hsub := subpartition_eq raw fuel p.nvtxs g v
  rw [hZ, Option.map_some] at hsub
  set part_res : ℕ → ℤ := fun i ↦
    if (Z.find? i).isSome then 0 else if i < p.nvtxs ∧ raw i ≠ 0 then 1 else raw i with hpart
  have hlabels : IsBisection g part_res := by
    intro i hi
    rw [hg.nvetes_eq] at hi
    rw [hpart]
    simp only
    split_ifs with h₁ h₂
    · exact Or.inl rfl
    · exact Or.inr rfl
    · exact Or.inl (by by_contra hne; exact h₂ ⟨hi, hne⟩)
  obtain ⟨r, hr, -⟩ := exists_myFM_eq_some (by omega : 2 ≤ fuel)
    (hg.nodeNum_nonneg hw.pins_lt hvwgts) Node_Rank part_res fl
  refine ⟨part_res, r, ⟨v, hhead, Z, hZ, hlabels, fun u hu ↦ if_pos hu⟩, hr, ?_⟩
  rw [trySeed, hhead, Option.bind_eq_bind, Option.bind_some, hsub]
  exact hr

/-- **Each of them is tried**, if the memory held it. -/
theorem trySeed_of_labels {fl : ℚ → ℚ} {Node_Rank part_res : ℕ → ℤ} {seed : ℕ}
    (hg : g.Represents p) (h : Labels fuel p.nvtxs g coarse seed part_res) :
    trySeed fl fuel p.nvtxs g coarse Node_Rank part_res seed =
      myFM fuel g Node_Rank part_res fl := by
  obtain ⟨v, hv, Z, hZ, hlabels, hzero⟩ := h
  have hsub := subpartition_eq part_res fuel p.nvtxs g v
  rw [Option.mem_def.1 hZ, Option.map_some] at hsub
  have hsame : (fun i ↦ if (Z.find? i).isSome then 0 else
      if i < p.nvtxs ∧ part_res i ≠ 0 then 1 else part_res i) = part_res := by
    funext i
    split_ifs with h₁ h₂
    · exact (hzero i h₁).symm
    · exact ((hlabels i (hg.nvetes_eq ▸ h₂.1)).resolve_left h₂.2).symm
    · rfl
  rw [hsame] at hsub
  rw [trySeed, Option.mem_def.1 hv, Option.bind_eq_bind, Option.bind_some, hsub]
  rfl

end Trial

/-! ### The draws -/

/-- The seeds of the first `t` draws, each once. -/
def seedsBefore (rand : ℕ → ℕ) (n t : ℕ) : List ℕ := scan [] ((List.range t).map (seedAt rand n))

section Draws

variable {rand : ℕ → ℕ} {n : ℕ}

theorem seedsBefore_succ (t : ℕ) :
    seedsBefore rand n (t + 1) = push (seedsBefore rand n t) (seedAt rand n t) := by
  rw [seedsBefore, List.range_succ, List.map_append, scan_append]
  rfl

theorem mem_seedsBefore {t v : ℕ} : v ∈ seedsBefore rand n t ↔ ∃ k < t, seedAt rand n k = v := by
  simp [seedsBefore, mem_scan]

theorem length_seedsBefore_succ_le (rand : ℕ → ℕ) (n t : ℕ) :
    (seedsBefore rand n (t + 1)).length ≤ (seedsBefore rand n t).length + 1 := by
  rw [seedsBefore_succ, push]
  split_ifs
  · exact Nat.le_succ _
  · rw [List.length_append, List.length_singleton]

/-- The number of draws that repeat an earlier one never drops. -/
theorem length_seedsBefore_le (rand : ℕ → ℕ) (n : ℕ) {t u : ℕ} (h : t ≤ u) :
    (seedsBefore rand n u).length ≤ (seedsBefore rand n t).length + (u - t) := by
  induction u, h using Nat.le_induction with
  | base => omega
  | succ u hle ih =>
    have := length_seedsBefore_succ_le rand n u
    omega

/-- The `t`-th draw can be tried: its seed is new, and fewer than ten draws before it, and fewer
than there are vertices, repeat an earlier one. -/
def CanTry (rand : ℕ → ℕ) (n t : ℕ) : Prop :=
  seedAt rand n t ∉ seedsBefore rand n t ∧
    t - (seedsBefore rand n t).length < 10 ∧ t - (seedsBefore rand n t).length < n

end Draws

/-! ### The loop over the seeds -/

/-- The round tries its seed: the loop goes on, the seed is new, and `seedmap` has no one for it. -/
def Tries (coarse : CMygraph) (rand : ℕ → ℕ) (s : SeedState) : Prop :=
  (s.i < 10 ∧ s.i < coarse.nvetes) ∧
    s.seedexit.find? (seedAt rand coarse.nvetes s.draws) = none ∧
    s.seedmap (seedAt rand coarse.nvetes s.draws) ≠ 1

instance (coarse : CMygraph) (rand : ℕ → ℕ) (s : SeedState) : Decidable (Tries coarse rand s) :=
  inferInstanceAs (Decidable (_ ∧ _ ∧ _))

/-- **What one round does**: it leaves the loop, draws a seed again, passes a new one over, or tries
it. -/
theorem seedRound_cases (fuel : ℕ) (g coarse : CMygraph) (other : OtherInput)
    (part_res : ℕ → ℕ → ℤ) (rand : ℕ → ℕ) (s : SeedState) :
    (¬ (s.i < 10 ∧ s.i < coarse.nvetes) ∧
      seedRound fuel g coarse other part_res rand s = Sum.inr (some s.p)) ∨
    ((s.i < 10 ∧ s.i < coarse.nvetes) ∧
      (s.seedexit.find? (seedAt rand coarse.nvetes s.draws)).isSome ∧
      seedRound fuel g coarse other part_res rand s =
        Sum.inl { s with i := s.i + 1, draws := s.draws + 1 }) ∨
    ((s.i < 10 ∧ s.i < coarse.nvetes) ∧
      s.seedexit.find? (seedAt rand coarse.nvetes s.draws) = none ∧
      s.seedmap (seedAt rand coarse.nvetes s.draws) = 1 ∧
      seedRound fuel g coarse other part_res rand s =
        Sum.inl
          { s with
            draws := s.draws + 1
            seedexit := s.seedexit.insert (seedAt rand coarse.nvetes s.draws) true }) ∨
    (Tries coarse rand s ∧
      seedRound fuel g coarse other part_res rand s =
        (trySeed other.fl fuel s.p.nvtxs g coarse (other.Node_Rank s.draws) (part_res s.draws)
          (seedAt rand coarse.nvetes s.draws)).elim (Sum.inr none) fun r ↦
            Sum.inl (keepBetter r
              { s with
                i := s.i + 1
                draws := s.draws + 1
                seedexit := s.seedexit.insert (seedAt rand coarse.nvetes s.draws) true
                seedmap := Function.update s.seedmap (seedAt rand coarse.nvetes s.draws) 1 })) := by
  rw [seedRound]
  by_cases hmore : s.i < 10 ∧ s.i < coarse.nvetes
  · rw [if_pos hmore]
    right
    cases hfind : s.seedexit.find? (seedAt rand coarse.nvetes s.draws) with
    | some b => exact Or.inl ⟨hmore, rfl, by simp only [hfind]⟩
    | none =>
      right
      by_cases hone : s.seedmap (seedAt rand coarse.nvetes s.draws) = 1
      · exact Or.inl ⟨hmore, rfl, hone, by simp only [hfind, if_neg (not_not.2 hone)]⟩
      · refine Or.inr ⟨⟨hmore, hfind, hone⟩, ?_⟩
        simp only [hfind, if_pos hone]
        cases trySeed other.fl fuel s.p.nvtxs g coarse (other.Node_Rank s.draws) (part_res s.draws)
          (seedAt rand coarse.nvetes s.draws) <;> rfl
  · exact Or.inl ⟨hmore, if_neg hmore⟩

/-- The loop has made these draws. -/
structure Drawn (rand : ℕ → ℕ) (coarse : CMygraph) (nvtxs : ℕ) (s : SeedState) : Prop where
  marks : Marks s.seedexit (seedsBefore rand coarse.nvetes s.draws)
  /-- Every draw that repeats an earlier one counts. -/
  draws_le : s.draws ≤ s.i + (seedsBefore rand coarse.nvetes s.draws).length
  nvtxs_eq : s.p.nvtxs = nvtxs

section Seeds

variable {fuel : ℕ} {rand : ℕ → ℕ} {g coarse : CMygraph} {other : OtherInput}
  {part_res : ℕ → ℕ → ℤ} {nvtxs : ℕ} {s : SeedState}

theorem nvtxs_keepBetter (r : ℚ × (ℕ → ℤ)) (s : SeedState) :
    (keepBetter r s).p.nvtxs = s.p.nvtxs := by
  rw [keepBetter]
  split_ifs <;> rfl

theorem keepBetter_counters (r : ℚ × (ℕ → ℤ)) (s : SeedState) :
    (keepBetter r s).draws = s.draws ∧ (keepBetter r s).i = s.i ∧
      (keepBetter r s).seedexit = s.seedexit := by
  rw [keepBetter]
  split_ifs <;> exact ⟨rfl, rfl, rfl⟩

/-- A draw that repeats an earlier one. -/
theorem Drawn.next_repeat (h : Drawn rand coarse nvtxs s)
    (hmem : seedAt rand coarse.nvetes s.draws ∈ seedsBefore rand coarse.nvetes s.draws) :
    Drawn rand coarse nvtxs { s with i := s.i + 1, draws := s.draws + 1 } ∧
      seedsBefore rand coarse.nvetes (s.draws + 1) = seedsBefore rand coarse.nvetes s.draws := by
  have hsucc : seedsBefore rand coarse.nvetes (s.draws + 1) =
      seedsBefore rand coarse.nvetes s.draws :=
    (seedsBefore_succ _).trans (push_of_mem hmem)
  refine ⟨⟨hsucc ▸ h.marks, ?_, h.nvtxs_eq⟩, hsucc⟩
  have := h.draws_le
  show s.draws + 1 ≤ s.i + 1 + (seedsBefore rand coarse.nvetes (s.draws + 1)).length
  rw [hsucc]
  omega

/-- A draw of a new seed. -/
theorem Drawn.next_new (h : Drawn rand coarse nvtxs s)
    (hfind : s.seedexit.find? (seedAt rand coarse.nvetes s.draws) = none) {s' : SeedState}
    (hdraws : s'.draws = s.draws + 1) (hi : s.i ≤ s'.i)
    (hseedexit : s'.seedexit = s.seedexit.insert (seedAt rand coarse.nvetes s.draws) true)
    (hp : s'.p.nvtxs = s.p.nvtxs) :
    Drawn rand coarse nvtxs s' ∧ (seedsBefore rand coarse.nvetes s'.draws).length =
      (seedsBefore rand coarse.nvetes s.draws).length + 1 := by
  have hsucc := (seedsBefore_succ s.draws).trans (push_of_notMem (h.marks.notMem_of_find? hfind))
  have hlen : (seedsBefore rand coarse.nvetes s'.draws).length =
      (seedsBefore rand coarse.nvetes s.draws).length + 1 := by
    rw [hdraws, hsucc, List.length_append, List.length_singleton]
  refine ⟨⟨?_, ?_, hp.trans h.nvtxs_eq⟩, hlen⟩
  · rw [hseedexit, hdraws, hsucc]
    exact h.marks.insert hfind true
  · have := h.draws_le
    omega

/-- What one round does: it repeats, passes over or tries a seed. -/
inductive SeedStep (fuel : ℕ) (g coarse : CMygraph) (other : OtherInput) (part_res : ℕ → ℕ → ℤ)
    (rand : ℕ → ℕ) (s : SeedState) : SeedState → Prop
  | repeated : seedAt rand coarse.nvetes s.draws ∈ seedsBefore rand coarse.nvetes s.draws →
      SeedStep fuel g coarse other part_res rand s { s with i := s.i + 1, draws := s.draws + 1 }
  | passed (seedexit : OrdMap ℕ Bool) :
      seedAt rand coarse.nvetes s.draws ∉ seedsBefore rand coarse.nvetes s.draws →
      s.seedmap (seedAt rand coarse.nvetes s.draws) = 1 →
      SeedStep fuel g coarse other part_res rand s
        { s with draws := s.draws + 1, seedexit := seedexit }
  | tried (seedexit : OrdMap ℕ Bool) (r : ℚ × (ℕ → ℤ)) :
      CanTry rand coarse.nvetes s.draws → s.seedmap (seedAt rand coarse.nvetes s.draws) ≠ 1 →
      trySeed other.fl fuel s.p.nvtxs g coarse (other.Node_Rank s.draws) (part_res s.draws)
        (seedAt rand coarse.nvetes s.draws) = some r →
      SeedStep fuel g coarse other part_res rand s
        (keepBetter r { s with
          i := s.i + 1
          draws := s.draws + 1
          seedexit := seedexit
          seedmap := Function.update s.seedmap (seedAt rand coarse.nvetes s.draws) 1 })

/-- The rounds that are left, at most. -/
def roundsLeft (rand : ℕ → ℕ) (n : ℕ) (s : SeedState) : ℕ :=
  (10 - s.i) + (n - (seedsBefore rand n s.draws).length)

/-- **One round.** It goes on, with fewer rounds left, unless a trial does not return. -/
theorem Drawn.seedRound (h : Drawn rand coarse nvtxs s)
    (hmore : s.i < 10 ∧ s.i < coarse.nvetes) :
    (∃ s', seedRound fuel g coarse other part_res rand s = Sum.inl s' ∧
      SeedStep fuel g coarse other part_res rand s s' ∧ Drawn rand coarse nvtxs s' ∧
      roundsLeft rand coarse.nvetes s' < roundsLeft rand coarse.nvetes s) ∨
    seedRound fuel g coarse other part_res rand s = Sum.inr none ∧
      trySeed other.fl fuel nvtxs g coarse (other.Node_Rank s.draws) (part_res s.draws)
        (seedAt rand coarse.nvetes s.draws) = none := by
  have hlt : ∀ t, seedAt rand coarse.nvetes t < coarse.nvetes := fun t ↦ Nat.mod_lt _ (by omega)
  have hdraws := h.draws_le
  have hroom : ∀ s', Drawn rand coarse nvtxs s' →
      (seedsBefore rand coarse.nvetes s'.draws).length ≤ coarse.nvetes := by
    intro s' hs'
    refine hs'.marks.length_le fun v hv ↦ ?_
    obtain ⟨k, -, rfl⟩ := mem_seedsBefore.1 hv
    exact hlt k
  rcases seedRound_cases fuel g coarse other part_res rand s with
    ⟨hend, -⟩ | ⟨-, hsome, hround⟩ | ⟨-, hfind, hone, hround⟩ | ⟨⟨-, hfind, hone⟩, hround⟩
  · exact absurd hmore hend
  · obtain ⟨b, hb⟩ := Option.isSome_iff_exists.1 hsome
    have hmem := h.marks.mem_of_find? hb
    obtain ⟨hdrawn, hsame⟩ := h.next_repeat hmem
    refine Or.inl ⟨_, hround, SeedStep.repeated hmem, hdrawn, ?_⟩
    simp only [roundsLeft, hsame]
    omega
  · -- passed over: the counter stays, but there is one new seed less
    set s' : SeedState :=
      { s with
        draws := s.draws + 1
        seedexit := s.seedexit.insert (seedAt rand coarse.nvetes s.draws) true }
    obtain ⟨hdrawn, hlen⟩ := h.next_new hfind (rfl : s'.draws = _) le_rfl rfl rfl
    have := hroom s' hdrawn
    refine Or.inl ⟨s', hround, SeedStep.passed _ (h.marks.notMem_of_find? hfind) hone, hdrawn, ?_⟩
    have hi : s'.i = s.i := rfl
    rw [roundsLeft, roundsLeft]
    omega
  · rcases hr : trySeed other.fl fuel s.p.nvtxs g coarse (other.Node_Rank s.draws)
      (part_res s.draws) (seedAt rand coarse.nvetes s.draws) with - | r
    · rw [hr] at hround
      exact Or.inr ⟨hround, h.nvtxs_eq ▸ hr⟩
    rw [hr] at hround
    obtain ⟨hkd, hki, hke⟩ := keepBetter_counters r { s with
      i := s.i + 1
      draws := s.draws + 1
      seedexit := s.seedexit.insert (seedAt rand coarse.nvetes s.draws) true
      seedmap := Function.update s.seedmap (seedAt rand coarse.nvetes s.draws) 1 }
    obtain ⟨hdrawn, hlen⟩ := h.next_new hfind hkd (by rw [hki]; exact Nat.le_succ _) hke
      (nvtxs_keepBetter _ _)
    have := hroom _ hdrawn
    refine Or.inl ⟨_, hround, SeedStep.tried _ r
      ⟨h.marks.notMem_of_find? hfind, by omega, by omega⟩ hone hr, hdrawn, ?_⟩
    simp only [roundsLeft]
    rw [hki]
    simp only
    omega

/-- **The rule for the loop over the seeds**: what every round keeps holds at the end. -/
theorem exists_run_seedRound (I : SeedState → Prop) (Q : CHypergraph → Prop)
    (htry : ∀ seed < coarse.nvetes, ∀ Node_Rank raw,
      ∃ r, trySeed other.fl fuel nvtxs g coarse Node_Rank raw seed = some r)
    (hstep : ∀ s s', Drawn rand coarse nvtxs s → I s →
      SeedStep fuel g coarse other part_res rand s s' → I s')
    (hexit : ∀ s, I s → ¬ (s.i < 10 ∧ s.i < coarse.nvetes) → Q s.p)
    (hs : Drawn rand coarse nvtxs s) (hI : I s) (hfuel : 10 + coarse.nvetes < fuel) :
    ∃ q, (Loop.run (CArchitecture.seedRound fuel g coarse other part_res rand) fuel s).join =
      some q ∧ Q q := by
  refine Loop.exists_join_run_eq_some (fun s ↦ Drawn rand coarse nvtxs s ∧ I s)
    (roundsLeft rand coarse.nvetes) Q ?_ ⟨hs, hI⟩ (by rw [roundsLeft]; omega)
  rintro s ⟨hs, hI⟩
  by_cases hmore : s.i < 10 ∧ s.i < coarse.nvetes
  · rcases hs.seedRound hmore with ⟨t, ht, hst, hdrawn, hlt⟩ | ⟨-, hnone⟩
    · exact Or.inl ⟨t, ht, ⟨hdrawn, hstep s t hs hI hst⟩, hlt⟩
    · obtain ⟨r, hr⟩ := htry _ (Nat.mod_lt _ (by omega)) _ _
      exact absurd (hr.symm.trans hnone) (Option.some_ne_none r)
  · refine Or.inr ⟨s.p, ?_, hexit s hI hmore⟩
    rw [CArchitecture.seedRound, if_neg hmore]

end Seeds

/-! ### The results -/

/-- Two hypergraphs are left with the same results. -/
def SameResults (nvtxs : ℕ) (q q' : CHypergraph) : Prop :=
  q.isParted = q'.isParted ∧
    (q.isParted = true → q.modu = q'.modu ∧ ∀ k < nvtxs, q.part k = q'.part k)

/-- No seed that can be tried leads to a modularity above the bound, however the vertices outside
the grown half are labelled. -/
def NothingToFind (fuel : ℕ) (other : OtherInput) (rand : ℕ → ℕ) (p : CHypergraph)
    (g coarse : CMygraph) : Prop :=
  ∀ t, CanTry rand coarse.nvetes t → ∀ part_res,
    Labels fuel p.nvtxs g coarse (seedAt rand coarse.nvetes t) part_res →
    ∀ r ∈ myFM fuel g (other.Node_Rank t) part_res other.fl, r.1 ≤ CRITICAL

/-- What the loop may keep: the result of a trial of a seed that can be tried, if it is above the
bound. The labelling that the trial starts from is left to the memory. -/
def Found (fuel : ℕ) (other : OtherInput) (rand : ℕ → ℕ) (p : CHypergraph) (g coarse : CMygraph)
    (r : ℚ × (ℕ → ℤ)) : Prop :=
  ∃ t, CanTry rand coarse.nvetes t ∧ ∃ part_res,
    Labels fuel p.nvtxs g coarse (seedAt rand coarse.nvetes t) part_res ∧
    myFM fuel g (other.Node_Rank t) part_res other.fl = some r ∧ CRITICAL < r.1

/-- The hypergraph has been parted along the labelling of `r`. -/
def PartedBy (nvtxs : ℕ) (r : ℚ × (ℕ → ℤ)) (q : CHypergraph) : Prop :=
  q.isParted = true ∧ ∀ k < nvtxs, q.part k = r.2 k

/-- A trial whose result is kept parts the hypergraph, and leaves the counters alone. -/
theorem keepBetter_of_gt {r : ℚ × (ℕ → ℤ)} {s : SeedState} (hbetter : r.1 > s.modularity)
    (hgt : r.1 > CRITICAL) :
    PartedBy s.p.nvtxs r (keepBetter r s).p ∧ (keepBetter r s).seedmap = s.seedmap := by
  rw [keepBetter, if_pos ⟨hbetter, hgt⟩]
  exact ⟨⟨rfl, fun k hk ↦ if_pos hk⟩, rfl⟩

/-- The loop has not drawn the `t`-th seed yet, and waits for it: every draw so far was a
repetition, or a seed that the memory passes over. -/
structure WaitsFor (rand : ℕ → ℕ) (n t : ℕ) (s : SeedState) : Prop where
  draws_le : s.draws ≤ t
  count_le : s.i + (seedsBefore rand n s.draws).length ≤ s.draws
  modularity_eq : s.modularity = -10000
  seedmap_eq : s.seedmap = Function.update (fun _ ↦ 1) (seedAt rand n t) 0

/-- The loop has tried a seed, and passes over all others. -/
structure HasTried (nvtxs : ℕ) (r : ℚ × (ℕ → ℤ)) (s : SeedState) : Prop where
  partedBy : PartedBy nvtxs r s.p
  seedmap_eq : s.seedmap = fun _ ↦ 1

section Results

variable {fuel : ℕ} {rand : ℕ → ℕ} {p : CHypergraph} {other : OtherInput} {g coarse : CMygraph}

/-- With `seedmap` full of ones nothing is tried any more. -/
theorem SeedStep.of_seedmap_one {s s' : SeedState} {part_res : ℕ → ℕ → ℤ}
    (hstep : SeedStep fuel g coarse other part_res rand s s') (h : s.seedmap = fun _ ↦ 1) :
    s'.p = s.p ∧ s'.seedmap = fun _ ↦ 1 := by
  cases hstep with
  | repeated => exact ⟨rfl, h⟩
  | passed => exact ⟨rfl, h⟩
  | tried _ r _ hne => exact absurd (congrFun h _) hne

/-- The waiting ends with the `t`-th seed, and that one parts the graph. -/
theorem WaitsFor.seedStep {t : ℕ} {s s' : SeedState} {part_res : ℕ → ℤ}
    (h : WaitsFor rand coarse.nvetes t s) (hs : Drawn rand coarse p.nvtxs s)
    (hrep : g.Represents p) (hcan : CanTry rand coarse.nvetes t)
    (hlab : Labels fuel p.nvtxs g coarse (seedAt rand coarse.nvetes t) part_res)
    {r : ℚ × (ℕ → ℤ)} (hr : myFM fuel g (other.Node_Rank t) part_res other.fl = some r)
    (hgt : CRITICAL < r.1)
    (hstep : SeedStep fuel g coarse other (fun _ ↦ part_res) rand s s') :
    HasTried p.nvtxs r s' ∨ WaitsFor rand coarse.nvetes t s' := by
  have hle := h.draws_le
  have hcount := h.count_le
  cases hstep with
  | repeated hmem =>
    have hne : s.draws ≠ t := fun heq ↦ hcan.1 (heq ▸ hmem)
    have hsame := (hs.next_repeat hmem).2
    refine Or.inr ⟨?_, ?_, h.modularity_eq, h.seedmap_eq⟩
    · show s.draws + 1 ≤ t
      omega
    · show s.i + 1 + (seedsBefore rand coarse.nvetes (s.draws + 1)).length ≤ s.draws + 1
      rw [hsame]
      omega
  | passed seedexit hnew hone =>
    have hne : s.draws ≠ t := by
      rintro heq
      rw [h.seedmap_eq, heq, Function.update_self] at hone
      exact absurd hone (by decide)
    have hlen := length_seedsBefore_succ_le rand coarse.nvetes s.draws
    refine Or.inr ⟨?_, ?_, h.modularity_eq, h.seedmap_eq⟩
    · show s.draws + 1 ≤ t
      omega
    · show s.i + (seedsBefore rand coarse.nvetes (s.draws + 1)).length ≤ s.draws + 1
      omega
  | tried seedexit r' _ hne hr' =>
    have hseed : seedAt rand coarse.nvetes s.draws = seedAt rand coarse.nvetes t := by
      by_contra hother
      rw [h.seedmap_eq, Function.update_of_ne hother] at hne
      exact hne rfl
    obtain rfl : s.draws = t := by
      by_contra hne'
      exact hcan.1 (mem_seedsBefore.2 ⟨s.draws, by omega, hseed⟩)
    rw [hs.nvtxs_eq, trySeed_of_labels hrep hlab, hr] at hr'
    obtain rfl := Option.some.inj hr'
    have hbetter : r.1 > s.modularity := by
      rw [h.modularity_eq]
      exact lt_trans (by decide) hgt
    obtain ⟨hparted, hmap⟩ := keepBetter_of_gt (s := { s with
      i := s.i + 1
      draws := s.draws + 1
      seedexit := seedexit
      seedmap := Function.update s.seedmap (seedAt rand coarse.nvetes s.draws) 1 }) hbetter hgt
    refine Or.inl ⟨hs.nvtxs_eq ▸ hparted, hmap.trans ?_⟩
    -- the one cell that held a `0` holds a `1` now
    simp only [h.seedmap_eq, Function.update_idem]
    exact Function.update_eq_self _ _

theorem drawn_seedInit (p : CHypergraph) (seedmap : ℕ → ℤ) :
    Drawn rand coarse p.nvtxs (seedInit p seedmap) :=
  ⟨marks_empty, Nat.zero_le _, rfl⟩

variable (htry : ∀ seed < coarse.nvetes, ∀ Node_Rank raw,
    ∃ r, trySeed other.fl fuel p.nvtxs g coarse Node_Rank raw seed = some r)
  (hfuel : 10 + coarse.nvetes < fuel)

include htry hfuel

/-- With `seedmap` full of ones no seed is tried. -/
theorem seedLoop_of_seedmap_one (rand : ℕ → ℕ) (part_res : ℕ → ℕ → ℤ) :
    ∃ q, seedLoop fuel g coarse other rand ⟨fun _ ↦ 1, part_res⟩ p = some q ∧
      q.isParted = false := by
  refine exists_run_seedRound (fun s ↦ s.seedmap = (fun _ ↦ 1) ∧ s.p.isParted = false)
    (fun q ↦ q.isParted = false) htry ?_ (fun s hs _ ↦ hs.2) (drawn_seedInit p _) ⟨rfl, rfl⟩ hfuel
  rintro s s' - ⟨hone, hnot⟩ hstep
  obtain ⟨hp, hone'⟩ := hstep.of_seedmap_one hone
  exact ⟨hone', hp ▸ hnot⟩

/-- **Whatever the memory holds**, a graph that is parted is parted along something that can be
found. -/
theorem found_of_seedLoop
    (hlabels : ∀ seed < coarse.nvetes, ∀ Node_Rank raw, ∃ part_res r,
      Labels fuel p.nvtxs g coarse seed part_res ∧
        myFM fuel g Node_Rank part_res other.fl = some r ∧
        trySeed other.fl fuel p.nvtxs g coarse Node_Rank raw seed = some r)
    (mem : FreshMemory) :
    ∃ q, seedLoop fuel g coarse other rand mem p = some q ∧
      (q.isParted = true → ∃ r, Found fuel other rand p g coarse r ∧ PartedBy p.nvtxs r q) := by
  refine exists_run_seedRound
    (fun s ↦ s.p.isParted = true → ∃ r, Found fuel other rand p g coarse r ∧ PartedBy p.nvtxs r s.p)
    (fun q ↦ q.isParted = true → ∃ r, Found fuel other rand p g coarse r ∧ PartedBy p.nvtxs r q)
    htry ?_ (fun s hs _ ↦ hs) (drawn_seedInit p _) (fun h ↦ absurd h Bool.false_ne_true) hfuel
  intro s s' hs hfound hstep
  cases hstep with
  | repeated => exact hfound
  | passed => exact hfound
  | tried seedexit r hcan _ hr =>
    rw [hs.nvtxs_eq] at hr
    obtain ⟨part_res, r', hlab, hfm, hr'⟩ := hlabels _ (Nat.mod_lt _ (by have := hcan.2; omega))
      (other.Node_Rank s.draws) (mem.part_res s.draws)
    obtain rfl : r' = r := Option.some.inj (hr'.symm.trans hr)
    set t : SeedState := { s with
      i := s.i + 1
      draws := s.draws + 1
      seedexit := seedexit
      seedmap := Function.update s.seedmap (seedAt rand coarse.nvetes s.draws) 1 }
    by_cases hkept : r'.1 > t.modularity ∧ r'.1 > CRITICAL
    · exact fun _ ↦ ⟨r', ⟨s.draws, hcan, part_res, hlab, hfm, hkept.2⟩,
        hs.nvtxs_eq ▸ (keepBetter_of_gt hkept.1 hkept.2).1⟩
    · rw [keepBetter, if_neg hkept]
      exact hfound

/-- **Whatever can be found is found for some memory**: one that has ones in `seedmap` everywhere
but for the seed that leads to it, so that this seed is the only one tried. -/
theorem seedLoop_of_found (hrep : g.Represents p) {r : ℚ × (ℕ → ℤ)}
    (hfound : Found fuel other rand p g coarse r) :
    ∃ mem q, seedLoop fuel g coarse other rand mem p = some q ∧ PartedBy p.nvtxs r q := by
  obtain ⟨t, hcan, part_res, hlab, hr, hgt⟩ := hfound
  refine ⟨⟨Function.update (fun _ ↦ 1) (seedAt rand coarse.nvetes t) 0, fun _ ↦ part_res⟩, ?_⟩
  refine exists_run_seedRound (fun s ↦ HasTried p.nvtxs r s ∨ WaitsFor rand coarse.nvetes t s)
    (PartedBy p.nvtxs r) htry ?_ ?_ (drawn_seedInit p _)
    (Or.inr ⟨Nat.zero_le _, le_rfl, rfl, rfl⟩) hfuel
  · rintro s s' hs (htried | hwaits) hstep
    · obtain ⟨hp, hone⟩ := hstep.of_seedmap_one htried.seedmap_eq
      exact Or.inl ⟨hp ▸ htried.partedBy, hone⟩
    · exact hwaits.seedStep hs hrep hcan hlab hr hgt hstep
  · rintro s (htried | hwaits) hend
    · exact htried.partedBy
    · -- the draws before the `t`-th one are too few to end the loop
      have hle := hwaits.draws_le
      have hcount := hwaits.count_le
      have hmono := length_seedsBefore_le rand coarse.nvetes hle
      have hcan₁ := hcan.2.1
      have hcan₂ := hcan.2.2
      exact absurd ⟨by omega, by omega⟩ hend

end Results

/-- **What `myPartition` may find**: for a graph without negative weights it always returns, a graph
that it parts is parted along something that can be found, and all that can be found is found for
some memory. -/
theorem myPartition_found {p : CHypergraph} {fuel : ℕ} (hw : p.WellFormed)
    (hvwgts : ∀ v < p.nvtxs, 0 ≤ p.vwgts v) (hhewgts : ∀ e < p.nhedges, 0 ≤ p.hewgts e)
    (hfuel : 2 * p.nvtxs + 12 ≤ fuel) (other : OtherInput) (rand : ℕ → ℕ) :
    let g := CMygraph.ofHypergraph p
    let coarse := coarseningGraph other.graph g
    (∀ mem, ∃ q, myPartition fuel other rand mem p = some q ∧
      (q.isParted = true → ∃ r, Found fuel other rand p g coarse r ∧ PartedBy p.nvtxs r q)) ∧
    (∀ r, Found fuel other rand p g coarse r →
      ∃ mem q, myPartition fuel other rand mem p = some q ∧ PartedBy p.nvtxs r q) ∧
    ∃ mem q, myPartition fuel other rand mem p = some q ∧ q.isParted = false := by
  have hrep := CMygraph.represents_ofHypergraph p
  have hcoarse := isCoarsening (hrep.edgesOk hw hhewgts) other.graph
  have hnvetes := hcoarse.nvetes_le
  rw [hrep.nvetes_eq] at hnvetes
  have hlabels := fun seed hseed Node_Rank raw ↦ exists_trySeed other.fl hw hvwgts hrep
    hcoarse.groupsVertices (by omega : 2 * p.nvtxs + 2 ≤ fuel) Node_Rank raw seed hseed
  have htry := fun seed hseed Node_Rank raw ↦
    (hlabels seed hseed Node_Rank raw).elim fun _ h ↦ h.imp fun _ h ↦ h.2.2
  exact ⟨fun mem ↦ found_of_seedLoop htry (by omega) hlabels mem,
    fun r hr ↦ seedLoop_of_found htry (by omega) hrep hr,
    _, seedLoop_of_seedmap_one htry (by omega) rand fun _ _ ↦ 0⟩

/-- **The results do not depend on the memory** exactly if there is nothing to find, however the
machine rounds. -/
theorem myPartition_sameResults_iff {p : CHypergraph} {fuel : ℕ} (hw : p.WellFormed)
    (hvwgts : ∀ v < p.nvtxs, 0 < p.vwgts v) (hhewgts : ∀ e < p.nhedges, 0 ≤ p.hewgts e)
    (hfuel : 2 * p.nvtxs + 12 ≤ fuel) (other : OtherInput) (rand : ℕ → ℕ) :
    (∀ mem mem' : FreshMemory, ∃ q q', myPartition fuel other rand mem p = some q ∧
      myPartition fuel other rand mem' p = some q' ∧ SameResults p.nvtxs q q') ↔
    NothingToFind fuel other rand p (CMygraph.ofHypergraph p)
      (coarseningGraph other.graph (CMygraph.ofHypergraph p)) := by
  obtain ⟨hall, hsome, mem₀, q₀, hq₀, hnot⟩ := myPartition_found hw (fun v hv ↦ (hvwgts v hv).le)
    hhewgts hfuel other rand
  constructor
  · intro hsame t hcan part_res hlab r hr
    by_contra hgt
    -- one memory tries nothing, the other one finds the split
    obtain ⟨mem, q, hq, hparted, -⟩ := hsome r ⟨t, hcan, part_res, hlab, hr, not_le.1 hgt⟩
    obtain ⟨q₁, q₁', hq₁, hq₁', hresults, -⟩ := hsame mem₀ mem
    obtain rfl := Option.some.inj (hq₁.symm.trans hq₀)
    obtain rfl := Option.some.inj (hq₁'.symm.trans hq)
    rw [hnot, hparted] at hresults
    exact Bool.false_ne_true hresults
  · intro hnothing
    have hnever : ∀ mem, ∃ q, myPartition fuel other rand mem p = some q ∧ q.isParted = false := by
      intro mem
      obtain ⟨q, hq, hfound⟩ := hall mem
      refine ⟨q, hq, Bool.eq_false_iff.2 fun hparted ↦ ?_⟩
      obtain ⟨r, ⟨t, hcan, part_res, hlab, hr, hgt⟩, -⟩ := hfound hparted
      exact absurd hgt (not_lt.2 (hnothing t hcan part_res hlab r hr))
    intro mem mem'
    obtain ⟨q, hq, hq_not⟩ := hnever mem
    obtain ⟨q', hq', hq'_not⟩ := hnever mem'
    exact ⟨q, q', hq, hq', hq_not.trans hq'_not.symm,
      fun h ↦ absurd (hq_not.symm.trans h) Bool.false_ne_true⟩

/-- Two disjoint edges. -/
def sampleHalves : CHypergraph := CHypergraph.ofRows 4 [[0, 1], [2, 3]]

/-- Other memory that holds nothing of note, and the rounding of `double`s. -/
def sampleOther : OtherInput := ⟨default, fun _ _ ↦ 0, roundDouble⟩

theorem myPartition_sameResults_iff_sampleHalves :
    sampleHalves.WellFormed ∧ (∀ v < sampleHalves.nvtxs, 0 < sampleHalves.vwgts v) ∧
    (∀ e < sampleHalves.nhedges, 0 ≤ sampleHalves.hewgts e) ∧
    ((∀ mem mem' : FreshMemory, ∃ q q', myPartition 20 sampleOther id mem sampleHalves = some q ∧
      myPartition 20 sampleOther id mem' sampleHalves = some q' ∧
      SameResults sampleHalves.nvtxs q q') ↔
    NothingToFind 20 sampleOther id sampleHalves (CMygraph.ofHypergraph sampleHalves)
      (coarseningGraph sampleOther.graph (CMygraph.ofHypergraph sampleHalves))) :=
  ⟨by decide, by decide, by decide,
    myPartition_sameResults_iff (by decide) (by decide) (by decide) (by decide) sampleOther id⟩

/-- The first seed grows one edge. If the cells of the other one held something, the halves are
found; if they held `0`, all vertices are in part `0`, no node is cut, and nothing is found. -/
theorem myPartition_sampleHalves_not_sameResults :
    sampleHalves.WellFormed ∧
    ¬ ∀ mem mem' : FreshMemory, ∃ q q', myPartition 20 sampleOther id mem sampleHalves = some q ∧
      myPartition 20 sampleOther id mem' sampleHalves = some q' ∧
      SameResults sampleHalves.nvtxs q q' := by
  refine ⟨by decide, fun h ↦ ?_⟩
  obtain ⟨q, q', hq, hq', hsame, -⟩ := h ⟨fun _ ↦ 0, fun _ _ ↦ 0⟩ ⟨fun _ ↦ 0, fun _ _ ↦ 7⟩
  have hrun : (myPartition 20 sampleOther id ⟨fun _ ↦ 0, fun _ _ ↦ 0⟩ sampleHalves).map
      CHypergraph.isParted = some false := by decide +kernel
  have hrun' : (myPartition 20 sampleOther id ⟨fun _ ↦ 0, fun _ _ ↦ 7⟩ sampleHalves).map
      CHypergraph.isParted = some true := by decide +kernel
  rw [hq, Option.map_some, Option.some_inj] at hrun
  rw [hq', Option.map_some, Option.some_inj] at hrun'
  rw [hrun, hrun'] at hsame
  exact Bool.false_ne_true hsame

/-! ### What the bisection relies on -/

section Sides

variable {fuel : ℕ} {p q : CHypergraph} {g coarse : CMygraph} {other : OtherInput} {rand : ℕ → ℕ}
  {mem : FreshMemory}

theorem isBisection_subpartition {seed : ℕ} {raw part_res : ℕ → ℤ}
    (h : subpartition fuel g.nvetes g seed raw = some part_res) : IsBisection g part_res := by
  obtain ⟨s, -, hs⟩ := Option.bind_eq_some_iff.1 h
  obtain rfl := Option.some.inj hs
  intro i hi
  rcases eq_or_ne (s.part_res i) 0 with hzero | hne
  · exact Or.inl ((if_neg fun h ↦ h.2 hzero).trans hzero)
  · exact Or.inr (if_pos ⟨hi, hne⟩)

theorem isBisection_trySeed {fl : ℚ → ℚ} {seed : ℕ} {Node_Rank raw : ℕ → ℤ} {r : ℚ × (ℕ → ℤ)}
    (h : trySeed fl fuel g.nvetes g coarse Node_Rank raw seed = some r) : IsBisection g r.2 := by
  obtain ⟨v, -, h⟩ := Option.bind_eq_some_iff.1 h
  obtain ⟨part_res, hsub, hfm⟩ := Option.bind_eq_some_iff.1 h
  exact (isBisection_subpartition hsub).myFM hfm

/-- The hypergraph is labelled with `0` and `1` if it is parted. -/
def Sides (g : CMygraph) (q : CHypergraph) : Prop :=
  q.nvtxs = g.nvetes ∧ (q.isParted = true → IsBisection g q.part)

theorem Sides.keepBetter {r : ℚ × (ℕ → ℤ)} {s : SeedState} (h : Sides g s.p)
    (hr : IsBisection g r.2) : Sides g (keepBetter r s).p := by
  rw [CArchitecture.keepBetter]
  split_ifs
  · refine ⟨h.1, fun _ v hv ↦ ?_⟩
    simp only [h.1, if_pos hv]
    exact hr v hv
  · exact h

/-- **A split that `myPartition` reports gives every vertex a side**, whatever the hypergraph, the
draws and the memory are. -/
theorem sides_myPartition (h : myPartition fuel other rand mem p = some q) :
    Sides (CMygraph.ofHypergraph p) q := by
  have hinit : Sides (CMygraph.ofHypergraph p) (seedInit p mem.seedmap).p :=
    ⟨(CMygraph.represents_ofHypergraph p).nvetes_eq.symm,
      fun hparted ↦ absurd hparted Bool.false_ne_true⟩
  refine Loop.join_run_invariant (fun s : SeedState ↦ Sides (CMygraph.ofHypergraph p) s.p)
    (Sides (CMygraph.ofHypergraph p)) ?_ ?_ hinit h
  · intro s s' hs hround
    rcases seedRound_cases fuel (CMygraph.ofHypergraph p) (coarseningGraph other.graph
        (CMygraph.ofHypergraph p)) other mem.part_res rand s with
      ⟨-, heq⟩ | ⟨-, -, heq⟩ | ⟨-, -, -, heq⟩ | ⟨-, heq⟩
    · exact absurd (heq.symm.trans hround) Sum.inr_ne_inl
    · obtain rfl := Sum.inl.inj (heq.symm.trans hround)
      exact hs
    · obtain rfl := Sum.inl.inj (heq.symm.trans hround)
      exact hs
    · rw [hround] at heq
      rcases Option.eq_none_or_eq_some (trySeed _ _ _ _ _ _ _ _) with hr | ⟨r, hr⟩
      · rw [hr] at heq
        exact absurd heq Sum.inl_ne_inr
      · rw [hr] at heq
        rw [hs.1] at hr
        obtain rfl := Sum.inl.inj heq
        exact Sides.keepBetter hs (isBisection_trySeed hr)
  · intro s q hs hround
    rcases seedRound_cases fuel (CMygraph.ofHypergraph p) (coarseningGraph other.graph
        (CMygraph.ofHypergraph p)) other mem.part_res rand s with
      ⟨-, heq⟩ | ⟨-, -, heq⟩ | ⟨-, -, -, heq⟩ | ⟨-, heq⟩
    · obtain rfl := Option.some.inj (Sum.inr.inj (hround.symm.trans heq))
      exact hs
    · exact absurd (hround.symm.trans heq) Sum.inr_ne_inl
    · exact absurd (hround.symm.trans heq) Sum.inr_ne_inl
    · rw [hround] at heq
      rcases Option.eq_none_or_eq_some (trySeed _ _ _ _ _ _ _ _) with hr | ⟨r, hr⟩
      · rw [hr] at heq
        exact absurd (Sum.inr.inj heq) (Option.some_ne_none q)
      · rw [hr] at heq
        exact absurd heq Sum.inr_ne_inl

/-- **The bisection may use `myPartition`**: a partitioner whose splits are those of runs of
`myPartition` does what `doHmetis` relies on. -/
theorem labelsSides_of_myPartition {M : Type*} {partitioner : ℕ → CHypergraph → Outcome M}
    (h : ∀ k p, (partitioner k p).isParted = true → ∃ fuel other rand mem q,
      myPartition fuel other rand mem p = some q ∧ q.isParted = true ∧
        (partitioner k p).part = q.part) : LabelsSides partitioner := by
  intro k p hparted v hv
  obtain ⟨fuel, other, rand, mem, q, hq, hqparted, hpart⟩ := h k p hparted
  rw [hpart]
  refine (sides_myPartition hq).2 hqparted v ?_
  rwa [(CMygraph.represents_ofHypergraph p).nvetes_eq]

end Sides

end CArchitecture
