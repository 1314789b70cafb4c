import CArchitecture.Library.FirstSeen
import CArchitecture.Mygraph
import Mathlib.Data.List.GetD
import Mathlib.Data.List.Perm.Basic

/-!
# Coarsening

`coarseningGraph` builds a smaller graph in which several vertices of the given one have become a
single vertex. The vertices are grouped in **three phases that share one counter**: edges whose pins
are all free are contracted, heaviest first; the free pins of each of the other edges form a group;
and every vertex that is left is a group of its own. Then the edges that were not contracted are
rewritten.

What the three phases build is a list of groups: the number of a coarse vertex is the position of
its group. `CoarsenState.Holds` says that the table `keyTokey` and the lists `pMyHashForVert` agree
with such a list, `putVertex` adds to the group that is open, and advancing the counter closes it.
-/

namespace CArchitecture

open FirstSeen

/-! ### The phases -/

/-- The lists of edges by weight. -/
def edgeBuckets (g : CMygraph) : ℤ → List ℕ :=
  (List.range g.nhedges).foldl (fun pMyHash i ↦
    Function.update pMyHash (g.pAllEdges i).hweight (i :: pMyHash (g.pAllEdges i).hweight))
    fun _ ↦ []

/-- The order in which the edges are visited: by descending weight. -/
def edgeOrder (g : CMygraph) : List ℕ :=
  (List.range (g.maxHweight + 1).toNat).reverse.flatMap fun w : ℕ ↦ edgeBuckets g (w : ℤ)

/-- The variables of the three phases. -/
structure CoarsenState where
  keyTokey : OrdMap ℕ ℕ := ∅
  pMyHashForVert : ℕ → List ℕ
  vertCount : ℕ := 0
  newedges_queue : List ℕ := []
  maxweight : ℤ := 1

/-- The vertex `v` joins the group with number `vertCount`. -/
def putVertex (s : CoarsenState) (v : ℕ) : CoarsenState :=
  { s with
    keyTokey := s.keyTokey.insert v s.vertCount
    pMyHashForVert := Function.update s.pMyHashForVert s.vertCount
      (v :: s.pMyHashForVert s.vertCount) }

/-- First phase: an edge whose pins are all free is contracted, any other is queued. -/
def contractEdge (g : CMygraph) (s : CoarsenState) (e : ℕ) : CoarsenState :=
  if (g.pAllEdges e).arcs.any fun v ↦ (s.keyTokey.find? v).isSome then
    { s with
      newedges_queue := s.newedges_queue ++ [e]
      maxweight := max s.maxweight (g.pAllEdges e).hweight }
  else
    let s := (g.pAllEdges e).arcs.foldl putVertex s
    { s with vertCount := s.vertCount + 1 }

/-- A pin of a queued edge: with `false`, some pin before it was free. -/
def putFree (s : CoarsenState × Bool) (v : ℕ) : CoarsenState × Bool :=
  match s.1.keyTokey.find? v with
  | some _ => s
  | none => (putVertex s.1 v, false)

/-- Second phase: the free pins of a queued edge form a group, if there are any. -/
def groupLeftovers (g : CMygraph) (s : CoarsenState) (e : ℕ) : CoarsenState :=
  let (s, allvertexist) := (g.pAllEdges e).arcs.foldl putFree (s, true)
  if allvertexist then s else { s with vertCount := s.vertCount + 1 }

/-- Third phase: a free vertex is a group of its own. -/
def groupAlone (s : CoarsenState) (v : ℕ) : CoarsenState :=
  match s.keyTokey.find? v with
  | some _ => s
  | none =>
    let s := putVertex s v
    { s with vertCount := s.vertCount + 1 }

/-- The state before the first phase: the lists are cleared up to `nvetes`. -/
def coarsenInit (g : CMygraph) (raw : CMygraph) : CoarsenState where
  pMyHashForVert i := if i ≤ g.nvetes then [] else raw.pMyHashForVert i

/-- The state after the first phase. -/
def contractPhase (g : CMygraph) (raw : CMygraph) : CoarsenState :=
  (edgeOrder g).foldl (contractEdge g) (coarsenInit g raw)

/-- The state after the second phase. -/
def leftoverPhase (g : CMygraph) (raw : CMygraph) : CoarsenState :=
  (contractPhase g raw).newedges_queue.foldl (groupLeftovers g) (contractPhase g raw)

/-- The state after the third phase. -/
def alonePhase (g : CMygraph) (raw : CMygraph) : CoarsenState :=
  (List.range g.nvetes).foldl groupAlone (leftoverPhase g raw)

/-! ### The coarse edges -/

/-- The variables of the loop that writes one coarse edge. -/
structure CoarseEdges where
  pAllVertices : ℕ → Vnode
  pAllEdges : ℕ → HEnode
  NodeExist : OrdMap ℕ Bool := ∅

/-- One pin of the fine edge, which is rewritten as the coarse edge `hedgenum` of weight `w`. -/
def coarsePin (keyTokey : OrdMap ℕ ℕ) (hedgenum : ℕ) (w : ℤ) (s : CoarseEdges) (v : ℕ) :
    CoarseEdges :=
  match keyTokey.find? v with
  | none => s
  | some c =>
    match s.NodeExist.find? c with
    | some _ => s
    | none =>
      { pAllEdges := Function.update s.pAllEdges hedgenum
          { s.pAllEdges hedgenum with arcs := c :: (s.pAllEdges hedgenum).arcs, hweight := w }
        pAllVertices := Function.update s.pAllVertices c
          { s.pAllVertices c with arcs := hedgenum :: (s.pAllVertices c).arcs }
        NodeExist := s.NodeExist.insert c true }

/-- One edge of the queue: the coarse edge gets the next number. -/
def coarseEdge (g : CMygraph) (keyTokey : OrdMap ℕ ℕ) (s : CoarseEdges × ℕ) (e : ℕ) :
    CoarseEdges × ℕ :=
  ((g.pAllEdges e).arcs.foldl (coarsePin keyTokey s.2 (g.pAllEdges e).hweight)
    { s.1 with NodeExist := ∅ }, s.2 + 1)

/-- `coarseningGraph`, in memory that held `raw`. -/
def coarseningGraph (raw g : CMygraph) : CMygraph :=
  let s := alonePhase g raw
  let edges_queue := (contractPhase g raw).newedges_queue
  let start : CoarseEdges :=
    { pAllVertices := fun i ↦
        if i < s.vertCount then { raw.pAllVertices i with arcs := [] } else raw.pAllVertices i
      pAllEdges := fun i ↦
        if i < edges_queue.length then { raw.pAllEdges i with arcs := [] } else raw.pAllEdges i }
  let c := (edges_queue.foldl (coarseEdge g s.keyTokey) (start, 0)).1
  { pAllVertices := c.pAllVertices
    pAllEdges := c.pAllEdges
    keyTokey := s.keyTokey
    pMyHashForVert := s.pMyHashForVert
    nvetes := s.vertCount
    nhedges := edges_queue.length
    maxHweight := s.maxweight }

/-! ### Groups -/

/-- The tables hold the groups `gs`, numbered by their positions, and the open group `cur`. The
lists are only known up to index `n`, the number of fine vertices. -/
structure CoarsenState.Holds (n : ℕ) (s : CoarsenState) (gs : List (List ℕ)) (cur : List ℕ) :
    Prop where
  vertCount_eq : s.vertCount = gs.length
  find?_iff : ∀ v c, s.keyTokey.find? v = some c ↔
    ∃ grp, (gs ++ [cur])[c]? = some grp ∧ v ∈ grp
  hash_eq : ∀ c ≤ n, s.pMyHashForVert c = ((gs ++ [cur]).getD c []).reverse
  nodup : (gs ++ [cur]).flatten.Nodup
  lt : ∀ v ∈ (gs ++ [cur]).flatten, v < n
  ne_nil : ∀ grp ∈ gs, grp ≠ []

section Groups

variable {n : ℕ} {s : CoarsenState} {gs : List (List ℕ)} {cur : List ℕ}

/-- Non-empty groups without common elements are no more than there are elements. -/
theorem length_le_of_nodup_flatten (hne : ∀ grp ∈ gs, grp ≠ []) (hnd : gs.flatten.Nodup)
    (hlt : ∀ v ∈ gs.flatten, v < n) : gs.length ≤ n := by
  have hcount : gs.flatten.length ≤ n := by
    have hsub : gs.flatten ⊆ List.range n := fun v hv ↦ List.mem_range.2 (hlt v hv)
    simpa using (hnd.subperm hsub).length_le
  have hgroups : ∀ l : List (List ℕ), (∀ grp ∈ l, grp ≠ []) → l.length ≤ l.flatten.length := by
    intro l
    induction l with
    | nil => simp
    | cons grp l ih =>
      intro hl
      have hpos := List.length_pos_iff_ne_nil.2 (hl grp List.mem_cons_self)
      have := ih fun x hx ↦ hl x (List.mem_cons_of_mem _ hx)
      rw [List.flatten_cons, List.length_append, List.length_cons]
      omega
  exact (hgroups gs hne).trans hcount

/-- An empty open group cannot be told from none. -/
theorem getElem?_append_nil_iff {c : ℕ} {grp : List ℕ} (hne : grp ≠ []) :
    (gs ++ [[]])[c]? = some grp ↔ gs[c]? = some grp := by
  rcases Nat.lt_trichotomy c gs.length with hlt | rfl | hgt
  · rw [List.getElem?_append_left hlt]
  · rw [List.getElem?_concat_length, List.getElem?_eq_none le_rfl]
    simp [Ne.symm hne]
  · rw [List.getElem?_eq_none (by rw [List.length_append, List.length_singleton]; omega),
      List.getElem?_eq_none (by omega)]

theorem getD_append_nil (gs : List (List ℕ)) (c : ℕ) : (gs ++ [[]]).getD c [] = gs.getD c [] := by
  rcases Nat.lt_or_ge c gs.length with hlt | hge
  · rw [List.getD_append _ _ _ _ hlt]
  · rw [List.getD_append_right _ _ _ _ hge, List.getD_eq_default _ _ hge]
    cases c - gs.length <;> rfl

theorem CoarsenState.Holds.vertCount_le (h : s.Holds n gs cur) : s.vertCount ≤ n := by
  rw [h.vertCount_eq]
  refine length_le_of_nodup_flatten h.ne_nil ?_ fun v hv ↦ h.lt v ?_
  · have := h.nodup
    rw [List.flatten_append] at this
    exact this.of_append_left
  · rw [List.flatten_append]
    exact List.mem_append_left _ hv

/-- A vertex is free if it is in no group. -/
theorem CoarsenState.Holds.find?_eq_none_iff (h : s.Holds n gs cur) {v : ℕ} :
    s.keyTokey.find? v = none ↔ v ∉ (gs ++ [cur]).flatten := by
  rw [List.mem_flatten]
  constructor
  · rintro hnone ⟨grp, hgrp, hv⟩
    obtain ⟨c, hc⟩ := List.mem_iff_getElem?.1 hgrp
    rw [(h.find?_iff v c).2 ⟨grp, hc, hv⟩] at hnone
    exact absurd hnone (by simp)
  · intro hno
    cases hfind : s.keyTokey.find? v with
    | none => rfl
    | some c =>
      obtain ⟨grp, hgrp, hv⟩ := (h.find?_iff v c).1 hfind
      exact absurd ⟨grp, List.mem_of_getElem? hgrp, hv⟩ hno

/-- **A free vertex joins the open group.** -/
theorem CoarsenState.Holds.putVertex (h : s.Holds n gs cur) {v : ℕ} (hv : v < n)
    (hfree : s.keyTokey.find? v = none) : (putVertex s v).Holds n gs (cur ++ [v]) := by
  have hnotin := h.find?_eq_none_iff.1 hfree
  have hflat : (gs ++ [cur ++ [v]]).flatten = (gs ++ [cur]).flatten ++ [v] := by simp
  -- only the open group, which is the last one, gets a new member
  have hget : ∀ c, c ≠ gs.length → (gs ++ [cur ++ [v]])[c]? = (gs ++ [cur])[c]? := fun c hc ↦ by
    rcases Nat.lt_or_ge c gs.length with hlt | hge
    · rw [List.getElem?_append_left hlt, List.getElem?_append_left hlt]
    · rw [List.getElem?_eq_none (by simp; omega), List.getElem?_eq_none (by simp; omega)]
  refine ⟨h.vertCount_eq, fun u c ↦ ?_, fun c hc ↦ ?_, ?_, fun u hu ↦ ?_, h.ne_nil⟩
  · show (s.keyTokey.insert v s.vertCount).find? u = some c ↔ _
    rw [OrdMap.find?_insert, h.vertCount_eq]
    rcases eq_or_ne u v with rfl | hne
    · rw [if_pos rfl, hfree, Option.none_or, Option.some_inj]
      constructor
      · rintro rfl
        exact ⟨cur ++ [u], by simp, by simp⟩
      · rintro ⟨grp, hgrp, hu⟩
        by_contra hc
        rw [hget c fun h ↦ hc h.symm] at hgrp
        exact hnotin (List.mem_flatten.2 ⟨grp, List.mem_of_getElem? hgrp, hu⟩)
    · rw [if_neg hne, h.find?_iff]
      rcases eq_or_ne c gs.length with rfl | hc
      · simp [hne]
      · rw [hget c hc]
  · show Function.update s.pMyHashForVert s.vertCount (v :: s.pMyHashForVert s.vertCount) c = _
    rw [h.vertCount_eq]
    rcases eq_or_ne c gs.length with rfl | hne
    · rw [Function.update_self, h.hash_eq _ hc]
      simp
    · rw [Function.update_of_ne hne, h.hash_eq c hc, List.getD_eq_getElem?_getD,
        List.getD_eq_getElem?_getD, hget c hne]
  · rw [hflat]
    exact h.nodup.append (List.nodup_singleton v) (List.disjoint_singleton.2 hnotin)
  · rw [hflat, List.mem_append, List.mem_singleton] at hu
    rcases hu with hu | rfl
    · exact h.lt u hu
    · exact hv

/-- **Advancing the counter closes the group.** -/
theorem CoarsenState.Holds.close (h : s.Holds n gs cur) (hcur : cur ≠ []) :
    CoarsenState.Holds n { s with vertCount := s.vertCount + 1 } (gs ++ [cur]) [] := by
  refine ⟨?_, fun v c ↦ ?_, fun c hc ↦ ?_, ?_, ?_, ?_⟩
  · show s.vertCount + 1 = _
    rw [h.vertCount_eq, List.length_append, List.length_singleton]
  · rw [h.find?_iff]
    refine exists_congr fun grp ↦ and_congr_left fun hv ↦ ?_
    exact (getElem?_append_nil_iff (List.ne_nil_of_mem hv)).symm
  · show s.pMyHashForVert c = _
    rw [h.hash_eq c hc, getD_append_nil]
  · simpa using h.nodup
  · simpa using h.lt
  · intro grp hgrp
    rcases List.mem_append.1 hgrp with hgrp | hgrp
    · exact h.ne_nil grp hgrp
    · rw [List.mem_singleton.1 hgrp]
      exact hcur

end Groups

/-! ### The first phase -/

/-- Every edge has a pin, none twice, and pins are vertices. -/
structure CMygraph.PinsOk (g : CMygraph) : Prop where
  ne_nil : ∀ e < g.nhedges, (g.pAllEdges e).arcs ≠ []
  nodup : ∀ e < g.nhedges, (g.pAllEdges e).arcs.Nodup
  lt : ∀ e < g.nhedges, ∀ v ∈ (g.pAllEdges e).arcs, v < g.nvetes

/-- A graph that can be coarsened: every edge has a pin, none twice, pins are vertices, and the
weights have a list. -/
structure CMygraph.EdgesOk (g : CMygraph) : Prop where
  ne_nil : ∀ e < g.nhedges, (g.pAllEdges e).arcs ≠ []
  nodup : ∀ e < g.nhedges, (g.pAllEdges e).arcs.Nodup
  lt : ∀ e < g.nhedges, ∀ v ∈ (g.pAllEdges e).arcs, v < g.nvetes
  hweight_nonneg : ∀ e < g.nhedges, 0 ≤ (g.pAllEdges e).hweight
  hweight_le : ∀ e < g.nhedges, (g.pAllEdges e).hweight ≤ g.maxHweight

theorem CMygraph.EdgesOk.pinsOk {g : CMygraph} (hg : g.EdgesOk) : g.PinsOk :=
  { hg with }

section Order

variable {g : CMygraph}

theorem edgeBuckets_eq (g : CMygraph) (w : ℤ) :
    edgeBuckets g w =
      ((List.range g.nhedges).filter fun e ↦ (g.pAllEdges e).hweight = w).reverse := by
  refine Loop.foldl_invariant (fun done (pMyHash : ℤ → List ℕ) ↦
    pMyHash w = (done.filter fun e ↦ (g.pAllEdges e).hweight = w).reverse) rfl ?_
  intro done e rest pMyHash _ hinv
  rw [List.filter_append, List.reverse_append]
  rcases eq_or_ne (g.pAllEdges e).hweight w with rfl | hne
  · rw [Function.update_self, hinv]
    simp
  · rw [Function.update_of_ne hne.symm, hinv]
    simp [hne]

/-- Nothing but edges is visited. -/
theorem lt_of_mem_edgeOrder {e : ℕ} (he : e ∈ edgeOrder g) : e < g.nhedges := by
  simp only [edgeOrder, List.mem_flatMap, edgeBuckets_eq, List.mem_reverse, List.mem_filter,
    List.mem_range] at he
  obtain ⟨w, -, he, -⟩ := he
  exact he

/-- **Every edge is visited once.** -/
theorem edgeOrder_perm (hg : g.EdgesOk) : (edgeOrder g).Perm (List.range g.nhedges) := by
  have hmem : ∀ e, e ∈ edgeOrder g ↔ e ∈ List.range g.nhedges := by
    intro e
    refine ⟨fun he ↦ List.mem_range.2 (lt_of_mem_edgeOrder he), ?_⟩
    · simp only [edgeOrder, List.mem_flatMap, List.mem_reverse, edgeBuckets_eq, List.mem_filter,
        List.mem_range, decide_eq_true_eq]
      intro he
      have h0 := hg.hweight_nonneg e he
      have h1 := hg.hweight_le e he
      exact ⟨(g.pAllEdges e).hweight.toNat, by omega, he, by omega⟩
  have hnd : (edgeOrder g).Nodup := by
    refine List.nodup_flatMap.2 ⟨fun w _ ↦ ?_, ?_⟩
    · rw [edgeBuckets_eq]
      exact List.nodup_reverse.2 (List.nodup_range.filter _)
    · refine List.Nodup.pairwise_of_forall_ne (List.nodup_reverse.2 List.nodup_range) ?_
      intro w _ w' _ hne e he he'
      simp only [edgeBuckets_eq, List.mem_reverse, List.mem_filter, decide_eq_true_eq] at he he'
      omega
  exact (List.perm_ext_iff_of_nodup hnd List.nodup_range).2 hmem

end Order

section Contract

variable {g : CMygraph} {raw : CMygraph}

/-- Free vertices join the open group one after another. -/
theorem CoarsenState.Holds.foldl_putVertex {n : ℕ} {s : CoarsenState} {gs : List (List ℕ)}
    {cur l : List ℕ} (h : s.Holds n gs cur) (hl : ∀ v ∈ l, v < n) (hnd : l.Nodup)
    (hfree : ∀ v ∈ l, s.keyTokey.find? v = none) :
    (l.foldl CArchitecture.putVertex s).Holds n gs (cur ++ l) ∧
      (l.foldl CArchitecture.putVertex s).newedges_queue = s.newedges_queue := by
  induction l generalizing s cur with
  | nil => exact ⟨by simpa using h, rfl⟩
  | cons v l ih =>
    have hput := h.putVertex (hl v List.mem_cons_self) (hfree v List.mem_cons_self)
    have hfree' : ∀ u ∈ l, (CArchitecture.putVertex s v).keyTokey.find? u = none := by
      intro u hu
      have hne : u ≠ v := fun heq ↦ (List.nodup_cons.1 hnd).1 (heq ▸ hu)
      show (s.keyTokey.insert v s.vertCount).find? u = none
      rw [OrdMap.find?_insert_of_ne _ _ hne]
      exact hfree u (List.mem_cons_of_mem _ hu)
    rw [List.append_cons, List.foldl_cons]
    exact ih hput (fun u hu ↦ hl u (List.mem_cons_of_mem _ hu)) (List.nodup_cons.1 hnd).2 hfree'

/-- The first phase has visited the edges `done`: the groups are the pins of the contracted ones,
and the others are queued. -/
structure Contracted (g : CMygraph) (s : CoarsenState) (contracted done : List ℕ) : Prop where
  holds : s.Holds g.nvetes (contracted.map fun e ↦ (g.pAllEdges e).arcs) []
  perm : (contracted ++ s.newedges_queue).Perm done

theorem contracted_init (g raw : CMygraph) : Contracted g (coarsenInit g raw) [] [] where
  holds :=
    { vertCount_eq := rfl
      find?_iff := fun v c ↦ by
        constructor
        · intro h
          exact absurd h (by simp [coarsenInit])
        · rintro ⟨grp, hgrp, hv⟩
          cases c with
          | zero => exact absurd (Option.some.inj hgrp ▸ hv) List.not_mem_nil
          | succ c => exact absurd hgrp (by simp)
      hash_eq := fun c hc ↦ by
        simp only [coarsenInit, if_pos hc]
        cases c <;> rfl
      nodup := by simp
      lt := by simp
      ne_nil := by simp }
  perm := List.Perm.nil

/-- **One edge.** -/
theorem Contracted.contractEdge {s : CoarsenState} {contracted done : List ℕ} (hg : g.PinsOk)
    (h : Contracted g s contracted done) {e : ℕ} (he : e < g.nhedges) :
    ∃ contracted', Contracted g (contractEdge g s e) contracted' (done ++ [e]) := by
  rw [CArchitecture.contractEdge]
  split_ifs with hany
  · refine ⟨contracted, ⟨h.holds.vertCount_eq, h.holds.find?_iff, h.holds.hash_eq, h.holds.nodup,
      h.holds.lt, h.holds.ne_nil⟩, ?_⟩
    show (contracted ++ (s.newedges_queue ++ [e])).Perm (done ++ [e])
    rw [← List.append_assoc]
    exact h.perm.append_right [e]
  · have hfree : ∀ v ∈ (g.pAllEdges e).arcs, s.keyTokey.find? v = none := by
      intro v hv
      cases hfind : s.keyTokey.find? v with
      | none => rfl
      | some c => exact absurd (List.any_eq_true.2 ⟨v, hv, by rw [hfind]; rfl⟩) hany
    obtain ⟨hput, hqueue⟩ := h.holds.foldl_putVertex (hg.lt e he) (hg.nodup e he) hfree
    rw [List.nil_append] at hput
    refine ⟨contracted ++ [e], ?_, ?_⟩
    · rw [List.map_append, List.map_singleton]
      exact hput.close (hg.ne_nil e he)
    · show (contracted ++ [e] ++ ((g.pAllEdges e).arcs.foldl _ s).newedges_queue).Perm _
      rw [hqueue, List.append_assoc]
      refine (List.Perm.append_left contracted List.perm_append_comm).trans ?_
      rw [← List.append_assoc]
      exact h.perm.append_right [e]

/-- **The first phase**, summarised. -/
theorem exists_contracted (hg : g.PinsOk) (raw : CMygraph) :
    ∃ contracted, Contracted g (contractPhase g raw) contracted (edgeOrder g) :=
  Loop.foldl_invariant (f := CArchitecture.contractEdge g) (l := edgeOrder g)
    (s := coarsenInit g raw) (fun done s ↦ ∃ contracted, Contracted g s contracted done)
    ⟨[], contracted_init g raw⟩ fun done e rest s hl ⟨contracted, hs⟩ ↦
      hs.contractEdge hg (lt_of_mem_edgeOrder (hl ▸ by simp))

end Contract

/-! ### The second and the third phase -/

section Leftovers

variable {g : CMygraph} {raw : CMygraph} {n : ℕ} {s : CoarsenState} {gs : List (List ℕ)}

/-- With no open group, a vertex is free if it is in no closed one. -/
theorem CoarsenState.Holds.isSome_iff (h : s.Holds n gs []) {v : ℕ} :
    (s.keyTokey.find? v).isSome ↔ v ∈ gs.flatten := by
  rw [← Option.ne_none_iff_isSome, ne_eq, h.find?_eq_none_iff, not_not, List.flatten_append]
  simp

theorem CoarsenState.Holds.find?_eq_some_iff (h : s.Holds n gs []) {v c : ℕ} :
    s.keyTokey.find? v = some c ↔ ∃ grp, gs[c]? = some grp ∧ v ∈ grp := by
  rw [h.find?_iff]
  exact exists_congr fun grp ↦ and_congr_left fun hv ↦
    getElem?_append_nil_iff (List.ne_nil_of_mem hv)

/-- The list of a closed group. -/
theorem CoarsenState.Holds.hash_getElem (h : s.Holds n gs []) {c : ℕ} (hc : c < gs.length) :
    s.pMyHashForVert c = gs[c].reverse := by
  have hle := h.vertCount_le
  rw [h.vertCount_eq] at hle
  rw [h.hash_eq c (by omega), getD_append_nil, List.getD_eq_getElem _ _ hc]

/-- The free pins of an edge join the open group. -/
theorem CoarsenState.Holds.foldl_putFree (h : s.Holds n gs []) {l : List ℕ} (hl : ∀ v ∈ l, v < n) :
    ∃ cur, (l.foldl putFree (s, true)).1.Holds n gs cur ∧
      ((l.foldl putFree (s, true)).2 = true ↔ cur = []) ∧
      ∀ v ∈ l, v ∈ (gs ++ [cur]).flatten := by
  refine Loop.foldl_invariant (fun done (t : CoarsenState × Bool) ↦ ∃ cur, t.1.Holds n gs cur ∧
    (t.2 = true ↔ cur = []) ∧ ∀ v ∈ done, v ∈ (gs ++ [cur]).flatten)
    ⟨[], h, by simp, by simp⟩ ?_
  rintro done v rest t hsplit ⟨cur, ht, hflag, hdone⟩
  rw [putFree]
  cases hfind : t.1.keyTokey.find? v with
  | some c =>
    refine ⟨cur, ht, hflag, fun u hu ↦ ?_⟩
    rcases List.mem_append.1 hu with hu | hu
    · exact hdone u hu
    · rw [List.mem_singleton.1 hu]
      by_contra hno
      exact absurd (ht.find?_eq_none_iff.2 hno) (by simp [hfind])
  | none =>
    refine ⟨cur ++ [v], ht.putVertex (hl v (hsplit ▸ by simp)) hfind, by simp, fun u hu ↦ ?_⟩
    rcases List.mem_append.1 hu with hu | hu
    · have := hdone u hu
      simp only [List.flatten_append, List.flatten_singleton, List.mem_append] at this ⊢
      tauto
    · rw [List.mem_singleton.1 hu]
      simp

/-- **One queued edge.** -/
theorem CoarsenState.Holds.groupLeftovers (h : s.Holds n gs []) {e : ℕ}
    (he : ∀ v ∈ (g.pAllEdges e).arcs, v < n) :
    ∃ extra, (groupLeftovers g s e).Holds n (gs ++ extra) [] ∧
      ∀ v ∈ (g.pAllEdges e).arcs, v ∈ (gs ++ extra).flatten := by
  obtain ⟨cur, hcur, hflag, hmem⟩ := h.foldl_putFree he
  rw [CArchitecture.groupLeftovers]
  set t := (g.pAllEdges e).arcs.foldl putFree (s, true) with ht
  cases hb : t.2 with
  | true =>
    obtain rfl := hflag.1 hb
    refine ⟨[], ?_, fun v hv ↦ by simpa using hmem v hv⟩
    simpa [hb] using hcur
  | false =>
    have hne : cur ≠ [] := fun hnil ↦ by
      rw [hflag.2 hnil] at hb
      exact absurd hb (by simp)
    refine ⟨[cur], ?_, hmem⟩
    simpa [hb] using hcur.close hne

/-- The second phase. -/
theorem CoarsenState.Holds.foldl_groupLeftovers (h : s.Holds n gs []) {queue : List ℕ}
    (hqueue : ∀ e ∈ queue, ∀ v ∈ (g.pAllEdges e).arcs, v < n) :
    ∃ extra, (queue.foldl (CArchitecture.groupLeftovers g) s).Holds n (gs ++ extra) [] ∧
      ∀ e ∈ queue, ∀ v ∈ (g.pAllEdges e).arcs, v ∈ (gs ++ extra).flatten := by
  refine Loop.foldl_invariant (fun done (t : CoarsenState) ↦ ∃ extra, t.Holds n (gs ++ extra) [] ∧
    ∀ e ∈ done, ∀ v ∈ (g.pAllEdges e).arcs, v ∈ (gs ++ extra).flatten)
    ⟨[], by simpa using h, by simp⟩ ?_
  rintro done e rest t hsplit ⟨extra, ht, hdone⟩
  obtain ⟨more, ht', hmem⟩ := ht.groupLeftovers (hqueue e (hsplit ▸ by simp))
  rw [List.append_assoc] at ht' hmem
  refine ⟨extra ++ more, ht', fun d hd v hv ↦ ?_⟩
  rcases List.mem_append.1 hd with hd | hd
  · rw [← List.append_assoc, List.flatten_append]
    exact List.mem_append_left _ (hdone d hd v hv)
  · exact hmem v (List.mem_singleton.1 hd ▸ hv)

/-- The third phase. -/
theorem CoarsenState.Holds.foldl_groupAlone (h : s.Holds n gs []) {l : List ℕ}
    (hl : ∀ v ∈ l, v < n) :
    ∃ extra, (l.foldl groupAlone s).Holds n (gs ++ extra) [] ∧
      ∀ v ∈ l, v ∈ (gs ++ extra).flatten := by
  refine Loop.foldl_invariant (fun done (t : CoarsenState) ↦ ∃ extra, t.Holds n (gs ++ extra) [] ∧
    ∀ v ∈ done, v ∈ (gs ++ extra).flatten) ⟨[], by simpa using h, by simp⟩ ?_
  rintro done v rest t hsplit ⟨extra, ht, hdone⟩
  rw [groupAlone]
  cases hfind : t.keyTokey.find? v with
  | some c =>
    refine ⟨extra, ht, fun u hu ↦ ?_⟩
    rcases List.mem_append.1 hu with hu | hu
    · exact hdone u hu
    · exact ht.isSome_iff.1 (by rw [List.mem_singleton.1 hu, hfind]; rfl)
  | none =>
    have hput := ht.putVertex (hl v (hsplit ▸ by simp)) hfind
    rw [List.nil_append] at hput
    refine ⟨extra ++ [[v]], ?_, fun u hu ↦ ?_⟩
    · rw [← List.append_assoc]
      exact hput.close (List.cons_ne_nil v [])
    · rw [← List.append_assoc, List.flatten_append]
      rcases List.mem_append.1 hu with hu | hu
      · exact List.mem_append_left _ (hdone u hu)
      · exact List.mem_append_right _ (by simpa using hu)

/-- **The three phases**, summarised: the groups begin with the contracted edges, and every vertex
is in one of them. -/
theorem exists_groups (hg : g.PinsOk) (raw : CMygraph) :
    ∃ contracted extra, (contracted ++ (contractPhase g raw).newedges_queue).Perm (edgeOrder g) ∧
      (alonePhase g raw).Holds g.nvetes
        ((contracted.map fun e ↦ (g.pAllEdges e).arcs) ++ extra) [] ∧
      ∀ v < g.nvetes, v ∈ ((contracted.map fun e ↦ (g.pAllEdges e).arcs) ++ extra).flatten := by
  obtain ⟨contracted, hcon⟩ := exists_contracted hg raw
  have hqueue : ∀ e ∈ (contractPhase g raw).newedges_queue, ∀ v ∈ (g.pAllEdges e).arcs,
      v < g.nvetes := by
    intro e he
    exact hg.lt e (lt_of_mem_edgeOrder (hcon.perm.mem_iff.1 (List.mem_append_right _ he)))
  obtain ⟨extra, hleft, -⟩ := hcon.holds.foldl_groupLeftovers hqueue
  obtain ⟨more, halone, hall⟩ := hleft.foldl_groupAlone (l := List.range g.nvetes)
    fun v hv ↦ List.mem_range.1 hv
  rw [List.append_assoc] at halone hall
  exact ⟨contracted, extra ++ more, hcon.perm, halone, fun v hv ↦ hall v (List.mem_range.2 hv)⟩

end Leftovers

/-! ### The coarse edges -/

section Edges

variable {g : CMygraph} {keyTokey : OrdMap ℕ ℕ}

/-- The coarse vertex of a fine one. -/
def coarseVertex (keyTokey : OrdMap ℕ ℕ) (v : ℕ) : ℕ := (keyTokey.find? v).getD 0

/-- The pins `done` of the fine edge have been rewritten. -/
structure CoarseEdges.Holds (s₀ s : CoarseEdges) (keyTokey : OrdMap ℕ ℕ) (hedgenum : ℕ) (w : ℤ)
    (done : List ℕ) : Prop where
  exist_iff : ∀ c, s.NodeExist.find? c = none ↔ c ∉ done.map (coarseVertex keyTokey)
  arcs_eq : (s.pAllEdges hedgenum).arcs = (scan [] (done.map (coarseVertex keyTokey))).reverse
  hweight_eq : done ≠ [] → (s.pAllEdges hedgenum).hweight = w
  frame : ∀ i ≠ hedgenum, s.pAllEdges i = s₀.pAllEdges i

theorem CoarseEdges.Holds.coarsePin {s₀ s : CoarseEdges} {hedgenum : ℕ} {w : ℤ} {done : List ℕ}
    (h : s₀.Holds s keyTokey hedgenum w done) {v : ℕ} (hv : (keyTokey.find? v).isSome) :
    s₀.Holds (coarsePin keyTokey hedgenum w s v) keyTokey hedgenum w (done ++ [v]) := by
  obtain ⟨c, hc⟩ := Option.isSome_iff_exists.1 hv
  have hcv : coarseVertex keyTokey v = c := by rw [coarseVertex, hc, Option.getD_some]
  have hmap : (done ++ [v]).map (coarseVertex keyTokey) =
      done.map (coarseVertex keyTokey) ++ [c] := by rw [List.map_append, List.map_singleton, hcv]
  have hscan : ∀ l : List ℕ, scan [] (l ++ [c]) = push (scan [] l) c := fun l ↦ by
    rw [scan_append]
    rfl
  rw [CArchitecture.coarsePin, hc]
  simp only
  cases hfind : s.NodeExist.find? c with
  | some b =>
    -- the image of an earlier pin: nothing is written
    have hin : c ∈ done.map (coarseVertex keyTokey) := by
      by_contra hno
      exact absurd ((h.exist_iff c).2 hno) (by simp [hfind])
    have hdone : done ≠ [] := by
      rintro rfl
      exact absurd hin (by simp)
    refine ⟨fun d ↦ ?_, ?_, fun _ ↦ h.hweight_eq hdone, h.frame⟩
    · rw [hmap, h.exist_iff, List.mem_append, List.mem_singleton]
      exact not_congr ⟨Or.inl, fun hd ↦ hd.elim id fun heq ↦ heq ▸ hin⟩
    · rw [hmap, hscan, push_of_mem (mem_scan.2 (Or.inr hin))]
      exact h.arcs_eq
  | none =>
    have hnotin : c ∉ scan [] (done.map (coarseVertex keyTokey)) := fun hmem ↦
      (h.exist_iff c).1 hfind ((mem_scan.1 hmem).resolve_left List.not_mem_nil)
    refine ⟨fun d ↦ ?_, ?_, fun _ ↦ ?_, fun i hi ↦ ?_⟩
    · show (s.NodeExist.insert c true).find? d = none ↔ _
      rw [hmap, OrdMap.find?_insert, List.mem_append, List.mem_singleton]
      split_ifs with hd
      · simp [hd]
      · rw [h.exist_iff]
        simp [hd]
    · simp only [Function.update_self]
      rw [hmap, hscan, push_of_notMem hnotin, List.reverse_concat, h.arcs_eq]
    · simp only [Function.update_self]
    · simp only [Function.update_of_ne hi]
      exact h.frame i hi

/-- **One edge of the queue** becomes the coarse edge with the duplicate-free image of its pins. -/
theorem coarseEdge_spec {s : CoarseEdges × ℕ} {e : ℕ} (harcs : (g.pAllEdges e).arcs ≠ [])
    (hkey : ∀ v ∈ (g.pAllEdges e).arcs, (keyTokey.find? v).isSome)
    (hblank : (s.1.pAllEdges s.2).arcs = []) :
    ((coarseEdge g keyTokey s e).1.pAllEdges s.2).arcs =
        (scan [] ((g.pAllEdges e).arcs.map (coarseVertex keyTokey))).reverse ∧
      ((coarseEdge g keyTokey s e).1.pAllEdges s.2).hweight = (g.pAllEdges e).hweight ∧
      (∀ i ≠ s.2, (coarseEdge g keyTokey s e).1.pAllEdges i = s.1.pAllEdges i) ∧
      (coarseEdge g keyTokey s e).2 = s.2 + 1 := by
  have hinit : s.1.Holds { s.1 with NodeExist := ∅ } keyTokey s.2 (g.pAllEdges e).hweight [] :=
    ⟨fun c ↦ by simp, hblank, fun h ↦ absurd rfl h, fun _ _ ↦ rfl⟩
  have key := Loop.foldl_invariant
    (f := CArchitecture.coarsePin keyTokey s.2 (g.pAllEdges e).hweight) (l := (g.pAllEdges e).arcs)
    (fun done t ↦ s.1.Holds t keyTokey s.2 (g.pAllEdges e).hweight done) hinit
    fun done v rest t hsplit ht ↦ ht.coarsePin (hkey v (hsplit ▸ by simp))
  exact ⟨key.arcs_eq, key.hweight_eq harcs, key.frame, rfl⟩

/-- The edges `done` of the queue have been rewritten, and there is room for `total`. -/
structure Rewritten (g : CMygraph) (keyTokey : OrdMap ℕ ℕ) (total : ℕ) (s : CoarseEdges × ℕ)
    (done : List ℕ) : Prop where
  num_eq : s.2 = done.length
  edge_eq : ∀ (i : ℕ) (hi : i < done.length),
    (s.1.pAllEdges i).arcs =
        (scan [] ((g.pAllEdges done[i]).arcs.map (coarseVertex keyTokey))).reverse ∧
      (s.1.pAllEdges i).hweight = (g.pAllEdges done[i]).hweight
  blank : ∀ i, done.length ≤ i → i < total → (s.1.pAllEdges i).arcs = []

theorem Rewritten.coarseEdge {s : CoarseEdges × ℕ} {done : List ℕ} {total e : ℕ}
    (h : Rewritten g keyTokey total s done) (hroom : done.length < total)
    (harcs : (g.pAllEdges e).arcs ≠ [])
    (hkey : ∀ v ∈ (g.pAllEdges e).arcs, (keyTokey.find? v).isSome) :
    Rewritten g keyTokey total (coarseEdge g keyTokey s e) (done ++ [e]) := by
  obtain ⟨ha, hw, hframe, hnum⟩ := coarseEdge_spec harcs hkey
    (h.blank s.2 h.num_eq.ge (h.num_eq ▸ hroom))
  rw [h.num_eq] at ha hw hframe
  refine ⟨?_, fun i hi ↦ ?_, fun i hi hlt ↦ ?_⟩
  · rw [hnum, h.num_eq, List.length_append, List.length_singleton]
  · rcases Nat.lt_or_ge i done.length with hlt | hge
    · rw [hframe i hlt.ne, List.getElem_append_left hlt]
      exact h.edge_eq i hlt
    · rw [List.length_append, List.length_singleton] at hi
      obtain rfl : i = done.length := by omega
      rw [List.getElem_concat_length rfl]
      exact ⟨ha, hw⟩
  · rw [List.length_append, List.length_singleton] at hi
    rw [hframe i (by omega)]
    exact h.blank i (by omega) hlt

end Edges

/-! ### The coarse graph -/

/-- Whether a bipartition of the vertices cuts an edge with these pins. -/
def cutBy (side : ℕ → Bool) (arcs : List ℕ) : Bool :=
  arcs.any fun u ↦ arcs.any fun v ↦ side u != side v

/-- The weight of the edges that a bipartition cuts. -/
def cutSum (g : CMygraph) (side : ℕ → Bool) : ℤ :=
  ((List.range g.nhedges).map fun e ↦
    if cutBy side (g.pAllEdges e).arcs then (g.pAllEdges e).hweight else 0).sum

theorem cutBy_eq_true_iff {side : ℕ → Bool} {arcs : List ℕ} :
    cutBy side arcs = true ↔ ∃ u ∈ arcs, ∃ v ∈ arcs, side u ≠ side v := by
  simp [cutBy]

/-- The edges of `coarse` are the edges `kept` of `g`, with the images of their pins, while each of
the edges `contracted` has become one vertex. -/
structure RewritesEdges (g coarse : CMygraph) (contracted kept : List ℕ) : Prop where
  perm : (contracted ++ kept).Perm (List.range g.nhedges)
  /-- A contracted edge has a vertex of its own, which stands for its pins. -/
  contracted_eq : ∀ (c : ℕ) (hc : c < contracted.length), c < coarse.nvetes ∧
    coarse.pMyHashForVert c = (g.pAllEdges contracted[c]).arcs.reverse
  nhedges_eq : coarse.nhedges = kept.length
  hweight_eq : ∀ (i : ℕ) (hi : i < kept.length),
    (coarse.pAllEdges i).hweight = (g.pAllEdges kept[i]).hweight
  arcs_nodup : ∀ i < kept.length, (coarse.pAllEdges i).arcs.Nodup
  mem_arcs : ∀ (i : ℕ) (hi : i < kept.length) (c : ℕ), c ∈ (coarse.pAllEdges i).arcs ↔
    ∃ v ∈ (g.pAllEdges kept[i]).arcs, coarse.keyTokey.find? v = some c

/-- `coarse` is a coarsening of `g`. -/
structure IsCoarsening (g coarse : CMygraph) : Prop where
  /-- Every fine vertex has a coarse one, and nothing else has. -/
  find?_isSome_iff : ∀ v, (coarse.keyTokey.find? v).isSome ↔ v < g.nvetes
  lt : ∀ v c, coarse.keyTokey.find? v = some c → c < coarse.nvetes
  surjective : ∀ c < coarse.nvetes, ∃ v, coarse.keyTokey.find? v = some c
  hash_nodup : ∀ c < coarse.nvetes, (coarse.pMyHashForVert c).Nodup
  mem_hash : ∀ c < coarse.nvetes, ∀ v,
    v ∈ coarse.pMyHashForVert c ↔ coarse.keyTokey.find? v = some c
  /-- The numbers stay within the array `pMyHashForVert`. -/
  nvetes_le : coarse.nvetes ≤ g.nvetes
  edges : ∃ contracted kept, RewritesEdges g coarse contracted kept

/-- The vertices of `coarse` are groups of vertices of `g`: the part of `IsCoarsening` that does not
depend on the edges, nor on their weights. -/
structure GroupsVertices (g coarse : CMygraph) : Prop where
  /-- Every fine vertex has a coarse one, and nothing else has. -/
  find?_isSome_iff : ∀ v, (coarse.keyTokey.find? v).isSome ↔ v < g.nvetes
  lt : ∀ v c, coarse.keyTokey.find? v = some c → c < coarse.nvetes
  surjective : ∀ c < coarse.nvetes, ∃ v, coarse.keyTokey.find? v = some c
  hash_nodup : ∀ c < coarse.nvetes, (coarse.pMyHashForVert c).Nodup
  mem_hash : ∀ c < coarse.nvetes, ∀ v,
    v ∈ coarse.pMyHashForVert c ↔ coarse.keyTokey.find? v = some c
  nvetes_le : coarse.nvetes ≤ g.nvetes

theorem IsCoarsening.groupsVertices {g coarse : CMygraph} (h : IsCoarsening g coarse) :
    GroupsVertices g coarse :=
  { h with }

/-- **The list of a coarse vertex is not empty**, and begins with a vertex of its group. -/
theorem GroupsVertices.exists_head? {g coarse : CMygraph} (h : GroupsVertices g coarse) {c : ℕ}
    (hc : c < coarse.nvetes) :
    ∃ v, (coarse.pMyHashForVert c).head? = some v ∧ v < g.nvetes ∧
      coarse.keyTokey.find? v = some c := by
  obtain ⟨u, hu⟩ := h.surjective c hc
  obtain ⟨v, rest, hhash⟩ := List.exists_cons_of_ne_nil
    (List.ne_nil_of_mem ((h.mem_hash c hc u).2 hu))
  have hfind := (h.mem_hash c hc v).1 (by rw [hhash]; exact List.mem_cons_self)
  exact ⟨v, by rw [hhash, List.head?_cons], (h.find?_isSome_iff v).1 (by rw [hfind]; rfl), hfind⟩

section Cut

variable {g coarse : CMygraph}

/-- The pins of a contracted edge stay together. -/
theorem IsCoarsening.cutBy_contracted (h : IsCoarsening g coarse) {contracted kept : List ℕ}
    (hr : RewritesEdges g coarse contracted kept) (side : ℕ → Bool) {e : ℕ}
    (he : e ∈ contracted) :
    cutBy (side ∘ coarseVertex coarse.keyTokey) (g.pAllEdges e).arcs = false := by
  obtain ⟨c, hc, rfl⟩ := List.mem_iff_getElem.1 he
  obtain ⟨hlt, hhash⟩ := hr.contracted_eq c hc
  have hkey : ∀ v ∈ (g.pAllEdges contracted[c]).arcs, coarseVertex coarse.keyTokey v = c := by
    intro v hv
    have hfind := (h.mem_hash c hlt v).1 (by rw [hhash, List.mem_reverse]; exact hv)
    rw [coarseVertex, hfind, Option.getD_some]
  rw [Bool.eq_false_iff, ne_eq, cutBy_eq_true_iff]
  rintro ⟨u, hu, v, hv, hne⟩
  simp only [Function.comp_apply, hkey u hu, hkey v hv] at hne
  exact hne rfl

/-- An edge that is kept is cut where its fine edge is. -/
theorem RewritesEdges.cutBy_kept {contracted kept : List ℕ}
    (hr : RewritesEdges g coarse contracted kept)
    (hkey : ∀ i (hi : i < kept.length), ∀ v ∈ (g.pAllEdges kept[i]).arcs,
      (coarse.keyTokey.find? v).isSome) (side : ℕ → Bool) {i : ℕ} (hi : i < kept.length) :
    cutBy side (coarse.pAllEdges i).arcs =
      cutBy (side ∘ coarseVertex coarse.keyTokey) (g.pAllEdges kept[i]).arcs := by
  have hmem := hr.mem_arcs i hi
  rw [Bool.eq_iff_iff, cutBy_eq_true_iff, cutBy_eq_true_iff]
  constructor
  · rintro ⟨c, hc, d, hd, hne⟩
    obtain ⟨u, hu, huc⟩ := (hmem c).1 hc
    obtain ⟨v, hv, hvd⟩ := (hmem d).1 hd
    refine ⟨u, hu, v, hv, ?_⟩
    simpa only [Function.comp_apply, coarseVertex, huc, hvd, Option.getD_some] using hne
  · rintro ⟨u, hu, v, hv, hne⟩
    obtain ⟨c, hc⟩ := Option.isSome_iff_exists.1 (hkey i hi u hu)
    obtain ⟨d, hd⟩ := Option.isSome_iff_exists.1 (hkey i hi v hv)
    refine ⟨c, (hmem c).2 ⟨u, hu, hc⟩, d, (hmem d).2 ⟨v, hv, hd⟩, ?_⟩
    simpa only [Function.comp_apply, coarseVertex, hc, hd, Option.getD_some] using hne

/-- **Cuts are preserved**: a bipartition of the coarse vertices cuts as much as the one it projects
to. -/
theorem IsCoarsening.cutSum_eq (h : IsCoarsening g coarse) (hg : g.EdgesOk) (side : ℕ → Bool) :
    cutSum coarse side = cutSum g (side ∘ coarseVertex coarse.keyTokey) := by
  obtain ⟨contracted, kept, hr⟩ := h.edges
  have hkey : ∀ i (hi : i < kept.length), ∀ v ∈ (g.pAllEdges kept[i]).arcs,
      (coarse.keyTokey.find? v).isSome := by
    intro i hi v hv
    have hmem : kept[i] ∈ List.range g.nhedges :=
      hr.perm.mem_iff.1 (List.mem_append_right _ (List.getElem_mem hi))
    exact (h.find?_isSome_iff v).2 (hg.lt _ (List.mem_range.1 hmem) v hv)
  set f : ℕ → ℤ := fun e ↦ if cutBy (side ∘ coarseVertex coarse.keyTokey) (g.pAllEdges e).arcs then
    (g.pAllEdges e).hweight else 0 with hf
  have hzero : (contracted.map f).sum = 0 := by
    refine List.sum_eq_zero fun x hx ↦ ?_
    obtain ⟨e, he, rfl⟩ := List.mem_map.1 hx
    simp only [hf, h.cutBy_contracted hr side he, Bool.false_eq_true, if_false]
  have hsame : (List.range kept.length).map (fun i ↦
      if cutBy side (coarse.pAllEdges i).arcs then (coarse.pAllEdges i).hweight else 0) =
      kept.map f := by
    refine List.ext_getElem (by simp) fun i hi _ ↦ ?_
    rw [List.length_map, List.length_range] at hi
    simp only [List.getElem_map, List.getElem_range, hf, hr.cutBy_kept hkey side hi,
      hr.hweight_eq i hi]
  calc cutSum coarse side = (kept.map f).sum := by rw [cutSum, hr.nhedges_eq, hsame]
    _ = ((contracted ++ kept).map f).sum := by
      rw [List.map_append, List.sum_append, hzero, zero_add]
    _ = cutSum g (side ∘ coarseVertex coarse.keyTokey) := (hr.perm.map f).sum_eq

end Cut

section Result

variable {g : CMygraph} {raw : CMygraph}

/-- All edges of the queue. -/
theorem rewritten_foldl (hg : g.EdgesOk) {keyTokey : OrdMap ℕ ℕ} {kept : List ℕ}
    (hkept : ∀ e ∈ kept, e < g.nhedges)
    (hkey : ∀ v < g.nvetes, (keyTokey.find? v).isSome) {s : CoarseEdges}
    (hs : ∀ i < kept.length, (s.pAllEdges i).arcs = []) :
    Rewritten g keyTokey kept.length (kept.foldl (coarseEdge g keyTokey) (s, 0)) kept := by
  refine Loop.foldl_invariant (fun done t ↦ Rewritten g keyTokey kept.length t done)
    ⟨rfl, fun i hi ↦ absurd hi (Nat.not_lt_zero i), fun i _ hi ↦ hs i hi⟩ ?_
  intro done e rest t hsplit ht
  have he : e < g.nhedges := hkept e (hsplit ▸ by simp)
  refine ht.coarseEdge ?_ (hg.ne_nil e he) fun v hv ↦ hkey v (hg.lt e he v hv)
  rw [hsplit, List.length_append, List.length_cons]
  omega

/-- The groups that `alonePhase` leaves are the vertices of the coarse graph. -/
theorem CoarsenState.Holds.groupsVertices {gs : List (List ℕ)}
    (h : (alonePhase g raw).Holds g.nvetes gs []) (hall : ∀ v < g.nvetes, v ∈ gs.flatten) :
    GroupsVertices g (coarseningGraph raw g) := by
  have hnvetes : (coarseningGraph raw g).nvetes = gs.length := h.vertCount_eq
  have hnd : gs.flatten.Nodup := by simpa using h.nodup
  refine ⟨fun v ↦ ?_, fun v c hvc ↦ ?_, fun c hc ↦ ?_, fun c hc ↦ ?_, fun c hc v ↦ ?_,
    h.vertCount_le⟩
  · refine h.isSome_iff.trans ⟨fun hv ↦ h.lt v ?_, hall v⟩
    rw [List.flatten_append]
    exact List.mem_append_left _ hv
  · obtain ⟨grp, hgrp, -⟩ := h.find?_eq_some_iff.1 hvc
    rw [hnvetes]
    exact (List.getElem?_eq_some_iff.1 hgrp).1
  · rw [hnvetes] at hc
    obtain ⟨v, hv⟩ := List.exists_mem_of_ne_nil _ (h.ne_nil gs[c] (List.getElem_mem hc))
    exact ⟨v, h.find?_eq_some_iff.2 ⟨gs[c], List.getElem?_eq_getElem hc, hv⟩⟩
  · rw [hnvetes] at hc
    show ((alonePhase g raw).pMyHashForVert c).Nodup
    rw [h.hash_getElem hc, List.nodup_reverse]
    exact (List.nodup_flatten.1 hnd).1 _ (List.getElem_mem hc)
  · rw [hnvetes] at hc
    show v ∈ (alonePhase g raw).pMyHashForVert c ↔ (alonePhase g raw).keyTokey.find? v = some c
    rw [h.hash_getElem hc, List.mem_reverse, h.find?_eq_some_iff]
    simp [List.getElem?_eq_getElem hc]

/-- **`coarseningGraph` groups the vertices**, whatever the weights are. -/
theorem groupsVertices_coarseningGraph (hg : g.PinsOk) (raw : CMygraph) :
    GroupsVertices g (coarseningGraph raw g) := by
  obtain ⟨contracted, extra, -, hholds, hall⟩ := exists_groups hg raw
  exact hholds.groupsVertices hall

/-- **What `coarseningGraph` leaves.** -/
theorem isCoarsening (hg : g.EdgesOk) (raw : CMygraph) :
    IsCoarsening g (coarseningGraph raw g) := by
  obtain ⟨contracted, extra, hvisited, hholds, hall⟩ := exists_groups hg.pinsOk raw
  have hgroups := hholds.groupsVertices hall
  have hperm := hvisited.trans (edgeOrder_perm hg)
  set gs := (contracted.map fun e ↦ (g.pAllEdges e).arcs) ++ extra with hgs
  have hkept : ∀ e ∈ (contractPhase g raw).newedges_queue, e < g.nhedges := fun e he ↦
    List.mem_range.1 (hperm.mem_iff.1 (List.mem_append_right _ he))
  have hrewritten := rewritten_foldl hg hkept
    (fun v hv ↦ (hgroups.find?_isSome_iff v).2 hv) (s :=
      { pAllVertices := fun i ↦ if i < (alonePhase g raw).vertCount then
          { raw.pAllVertices i with arcs := [] } else raw.pAllVertices i
        pAllEdges := fun i ↦ if i < (contractPhase g raw).newedges_queue.length then
          { raw.pAllEdges i with arcs := [] } else raw.pAllEdges i })
    fun i hi ↦ by simp only [if_pos hi]
  refine { hgroups with edges := ⟨contracted, (contractPhase g raw).newedges_queue, hperm,
    fun c hc ↦ ?_, rfl, fun i hi ↦ (hrewritten.edge_eq i hi).2, fun i hi ↦ ?_,
    fun i hi c ↦ ?_⟩ }
  · have hlt : c < gs.length := by
      rw [hgs, List.length_append, List.length_map]
      omega
    refine ⟨hlt.trans_eq hholds.vertCount_eq.symm, ?_⟩
    show (alonePhase g raw).pMyHashForVert c = _
    rw [hholds.hash_getElem hlt]
    simp only [hgs, List.getElem_append_left (by simpa using hc : c < (contracted.map _).length),
      List.getElem_map]
  · exact (hrewritten.edge_eq i hi).1 ▸ List.nodup_reverse.2 (nodup_scan List.nodup_nil _)
  · have he : (contractPhase g raw).newedges_queue[i] < g.nhedges := hkept _ (List.getElem_mem hi)
    refine (Eq.to_iff (congrArg (c ∈ ·) (hrewritten.edge_eq i hi).1)).trans ?_
    rw [List.mem_reverse, mem_scan, List.mem_map]
    simp only [List.not_mem_nil, false_or]
    refine exists_congr fun v ↦ and_congr_right fun hv ↦ ?_
    obtain ⟨d, hd⟩ := Option.isSome_iff_exists.1
      ((hgroups.find?_isSome_iff v).2 (hg.lt _ he v hv))
    rw [hd]
    show coarseVertex (alonePhase g raw).keyTokey v = c ↔ _
    rw [coarseVertex]
    have hd' : (alonePhase g raw).keyTokey.find? v = some d := hd
    rw [hd', Option.getD_some, Option.some_inj]

end Result

theorem CMygraph.Represents.pinsOk {g : CMygraph} {p : CHypergraph} (h : g.Represents p)
    (hw : p.WellFormed) : g.PinsOk where
  ne_nil e he := by
    rw [h.nhedges_eq] at he
    rw [h.edge_arcs e he, ne_eq, List.reverse_eq_nil_iff]
    exact hw.pins_ne_nil he
  nodup e he := by
    rw [h.nhedges_eq] at he
    rw [h.edge_arcs e he, List.nodup_reverse]
    exact hw.pins_nodup e he
  lt := h.arcs_lt hw.pins_lt

/-- The incidence graph of a well-formed hypergraph can be coarsened. -/
theorem CMygraph.Represents.edgesOk {g : CMygraph} {p : CHypergraph} (h : g.Represents p)
    (hw : p.WellFormed) (hweights : ∀ e < p.nhedges, 0 ≤ p.hewgts e) : g.EdgesOk where
  ne_nil := (h.pinsOk hw).ne_nil
  nodup := (h.pinsOk hw).nodup
  lt := (h.pinsOk hw).lt
  hweight_nonneg e he := by
    rw [h.nhedges_eq] at he
    rw [h.hweight_eq]
    exact hweights e he
  hweight_le e he := by
    rw [h.nhedges_eq] at he
    rw [h.hweight_eq, h.maxHweight_eq]
    have key := Loop.foldl_invariant (f := fun w m ↦ max w (p.hewgts m)) (l := List.range p.nhedges)
      (s := 1) (fun done w ↦ ∀ m ∈ done, p.hewgts m ≤ w) (by simp) fun done m _ w _ hw k hk ↦ by
        rcases List.mem_append.1 hk with hk | hk
        · exact (hw k hk).trans (le_max_left _ _)
        · rw [List.mem_singleton.1 hk]
          exact le_max_right _ _
    exact key e (List.mem_range.2 he)

/-- **Coarsening** groups the vertices, keeps the edges that are not contracted, and preserves the
weight of every cut. -/
theorem coarseningGraph_spec (raw initGraph : CMygraph) (hg : initGraph.EdgesOk) :
    IsCoarsening initGraph (coarseningGraph raw initGraph) ∧
      ∀ side : ℕ → Bool, cutSum (coarseningGraph raw initGraph) side =
        cutSum initGraph (side ∘ coarseVertex (coarseningGraph raw initGraph).keyTokey) :=
  ⟨isCoarsening hg raw, fun side ↦ (isCoarsening hg raw).cutSum_eq hg side⟩

/-- Three edges in a row: the outer two are contracted, and the one between them is kept. -/
def samplePath : CHypergraph := CHypergraph.ofRows 5 [[0, 1], [1, 2], [2, 3, 4]]

theorem coarseningGraph_spec_samplePath :
    (CMygraph.ofHypergraph samplePath).EdgesOk ∧
    IsCoarsening (CMygraph.ofHypergraph samplePath)
        (coarseningGraph default (CMygraph.ofHypergraph samplePath)) ∧
      ∀ side : ℕ → Bool, cutSum (coarseningGraph default (CMygraph.ofHypergraph samplePath)) side =
        cutSum (CMygraph.ofHypergraph samplePath) (side ∘ coarseVertex
          (coarseningGraph default (CMygraph.ofHypergraph samplePath)).keyTokey) := by
  have hok : (CMygraph.ofHypergraph samplePath).EdgesOk :=
    (CMygraph.represents_ofHypergraph samplePath).edgesOk (by decide) (by decide)
  exact ⟨hok, coarseningGraph_spec default (CMygraph.ofHypergraph samplePath) hok⟩

end CArchitecture
