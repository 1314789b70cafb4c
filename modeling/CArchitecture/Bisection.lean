import CArchitecture.CreateHypergraph
import CArchitecture.SubGraph
import Mathlib.Data.Set.Card

/-!
# Recursive bisection

`doHmetis` cuts the root hypergraph again and again: a queue of hypergraphs, each of which is handed
to `myPartition` and, if that reports a split, replaced by its two sons. The sons stay linked to
their father, so that the loop leaves a tree.

The objects live in a **heap** addressed by numbers; `new` takes the next address, with whatever the
memory held. `myPartition` is a parameter, indexed by the number of the call, so that it may answer
the same question differently each time.

The invariant of the loop is `Heap.Good`: every node is a leaf with empty tables or a father whose
two sons are its two sides (`Heap.HasSons`), and every node but the root is the son of its father.
A round either leaves the front of the queue a leaf or splits it (`bisectStep_cases`), so the
invariant has two step lemmas and no more, and **the loop terminates** because two sons that are
queued have fewer rounds between them than their father (`exists_bisect`).
-/

namespace CArchitecture

/-! ### The loop -/

/-- Hypergraphs with no more vertices than this are not cut. -/
def END_NUM : ℕ := 3

/-- What `myPartition` leaves: the fields it assigns, and the graph it built from its argument. -/
structure Outcome (M : Type*) where
  isParted : Bool
  modu : ℚ
  part : ℕ → ℤ
  myGraph : M

/-- The memory that holds the hypergraphs. -/
abbrev Heap := ℕ → CHypergraph

/-- The variables of `doHmetis`. -/
structure BisectState (M : Type*) where
  heap : Heap
  /-- The first address that has not been handed out. -/
  size : ℕ
  /-- The queue, front first. -/
  subGraph : List ℕ
  endParts : List ℕ
  /-- The number of calls of `myPartition` so far. -/
  calls : ℕ
  pMyGraph : Option M

section Loop

variable {M : Type*} (myPartition : ℕ → CHypergraph → Outcome M)

/-- The hypergraph after `myPartition` has been called on it. -/
def partitioned (k : ℕ) (p : CHypergraph) : CHypergraph :=
  let p := { p with modu := 0 }
  let o := myPartition k p
  { p with isParted := o.isParted, modu := o.modu, part := o.part }

/-- Store the father and its two sons, which take the next two addresses. -/
def linkSons (s : BisectState M) (a : ℕ) (p subG1 subG2 : CHypergraph) : BisectState M :=
  { s with
    heap := Function.update (Function.update (Function.update s.heap a
      { p with leftSon := some s.size, rightSon := some (s.size + 1) }) s.size subG1)
      (s.size + 1) subG2
    size := s.size + 2 }

/-- The split of the hypergraph `p` at address `a`. The sons are only queued if neither of them is
empty. -/
def splitNode (s : BisectState M) (a : ℕ) (p : CHypergraph) : BisectState M :=
  let (p', subG1, subG2) := createSubGraph a p (CHypergraph.new (s.heap s.size))
    (CHypergraph.new (s.heap (s.size + 1)))
  if subG1.nvtxs ≠ 0 ∧ subG2.nvtxs ≠ 0 then
    { linkSons s a p' { subG1 with floor := p.floor + 1 } { subG2 with floor := p.floor + 1 } with
      subGraph := s.subGraph ++ [s.size, s.size + 1] }
  else linkSons s a p' subG1 subG2

/-- One round: the front of the queue is cut, or it is an end part. -/
def bisectStep (s : BisectState M) : BisectState M ⊕ BisectState M :=
  match s.subGraph with
  | [] => Sum.inr s
  | a :: rest =>
    let s := { s with subGraph := rest }
    let p := s.heap a
    if p.nvtxs > END_NUM - 1 then
      let o := myPartition s.calls { p with modu := 0 }
      let q := partitioned myPartition s.calls p
      let s :=
        { s with
          calls := s.calls + 1
          pMyGraph := if p.floor = 1 then some o.myGraph else s.pMyGraph }
      if q.isParted then Sum.inl (splitNode s a q)
      else
        Sum.inl { s with heap := Function.update s.heap a q, endParts := s.endParts ++ [a] }
    else Sum.inl { s with endParts := s.endParts ++ [a] }

/-- The root as `doHmetis` prepares it. -/
def prepareRoot (pHyper : CHypergraph) : CHypergraph :=
  { pHyper with floor := 1, coupling := 0, cohesion := 1, trueNvtxs := pHyper.nvtxs, modu := 0 }

/-- The state before the loop: the root at address `0`, in memory that held `raw`. -/
def bisectInit (pMyGraph : Option M) (raw : Heap) (pHyper : CHypergraph) : BisectState M where
  heap := Function.update raw 0 (prepareRoot pHyper)
  size := 1
  subGraph := [0]
  endParts := []
  calls := 0
  pMyGraph := pMyGraph

/-- The loop of `doHmetis`, with fuel. -/
def bisect (fuel : ℕ) (s : BisectState M) : Option (BisectState M) :=
  Loop.run (bisectStep myPartition) fuel s

end Loop

/-! ### The tree -/

/-- The two records are the same hypergraph, with the same place below a father. They may differ in
the labelling and in what hangs below them. -/
structure CHypergraph.SameGraph (h h' : CHypergraph) : Prop where
  nvtxs_eq : h'.nvtxs = h.nvtxs
  nhedges_eq : h'.nhedges = h.nhedges
  vwgts_eq : h'.vwgts = h.vwgts
  eptr_eq : h'.eptr = h.eptr
  eind_eq : h'.eind = h.eind
  hewgts_eq : h'.hewgts = h.hewgts
  fatherGraph_eq : h'.fatherGraph = h.fatherGraph
  mapForFather_eq : h'.mapForFather = h.mapForFather

namespace CHypergraph.SameGraph

variable {h h' : CHypergraph}

theorem refl (h : CHypergraph) : h.SameGraph h := ⟨rfl, rfl, rfl, rfl, rfl, rfl, rfl, rfl⟩

theorem trans {h'' : CHypergraph} (hh : h.SameGraph h') (hh' : h'.SameGraph h'') :
    h.SameGraph h'' :=
  ⟨hh'.nvtxs_eq.trans hh.nvtxs_eq, hh'.nhedges_eq.trans hh.nhedges_eq,
    hh'.vwgts_eq.trans hh.vwgts_eq, hh'.eptr_eq.trans hh.eptr_eq, hh'.eind_eq.trans hh.eind_eq,
    hh'.hewgts_eq.trans hh.hewgts_eq, hh'.fatherGraph_eq.trans hh.fatherGraph_eq,
    hh'.mapForFather_eq.trans hh.mapForFather_eq⟩

theorem pins_eq (hh : h.SameGraph h') : h'.pins = h.pins := by
  funext i
  rw [pins, hh.eptr_eq, hh.eind_eq, pins]

theorem edges_eq (hh : h.SameGraph h') : h'.edges = h.edges := by
  rw [edges, edges, hh.nhedges_eq, hh.hewgts_eq, hh.pins_eq]

theorem wellFormed (hh : h.SameGraph h') (hw : h.WellFormed) : h'.WellFormed where
  eptr_zero := by rw [hh.eptr_eq, hw.eptr_zero]
  eptr_lt := by rw [hh.eptr_eq, hh.nhedges_eq]; exact hw.eptr_lt
  pins_nodup := by rw [hh.pins_eq, hh.nhedges_eq]; exact hw.pins_nodup
  pins_lt := by rw [hh.pins_eq, hh.nhedges_eq, hh.nvtxs_eq]; exact hw.pins_lt
  covered := by rw [hh.pins_eq, hh.nhedges_eq, hh.nvtxs_eq]; exact hw.covered

/-- A son stays a son when its own labelling and what hangs below it change. -/
theorem isSon {G : CHypergraph} {label : ℤ} {toSon : OrdMap ℕ ℕ} (hh : h.SameGraph h')
    (hson : IsSon G label toSon h) : IsSon G label toSon h' where
  wellFormed := hh.wellFormed hson.wellFormed
  bijOn := by rw [hh.mapForFather_eq, hh.nvtxs_eq]; exact hson.bijOn
  inverse := by rw [hh.mapForFather_eq]; exact hson.inverse
  isSome_iff := by rw [hh.mapForFather_eq, hh.nvtxs_eq]; exact hson.isSome_iff
  vwgts_eq := by rw [hh.mapForFather_eq, hh.vwgts_eq]; exact hson.vwgts_eq
  edges_eq := by rw [hh.edges_eq]; exact hson.edges_eq

end CHypergraph.SameGraph

/-- The links and the tables of the father do not matter to a son. -/
theorem IsSon.setLinks {G son : CHypergraph} {label : ℤ} {toSon : OrdMap ℕ ℕ}
    (hson : IsSon G label toSon son) (m1 m2 : OrdMap ℕ ℕ) (l r : Option ℕ) :
    IsSon { G with mapForG1 := m1, mapForG2 := m2, leftSon := l, rightSon := r } label toSon son :=
  ⟨hson.wellFormed, hson.bijOn, hson.inverse, hson.isSome_iff, hson.vwgts_eq, hson.edges_eq⟩

/-- A node without sons, whose tables are therefore still empty. -/
structure CHypergraph.IsLeaf (h : CHypergraph) : Prop where
  leftSon_eq : h.leftSon = none
  rightSon_eq : h.rightSon = none
  mapForG1_eq : h.mapForG1 = ∅
  mapForG2_eq : h.mapForG2 = ∅

namespace Heap

/-- A node with the sons `b` and `c`, which are its two sides. -/
structure HasSons (heap : Heap) (a b c : ℕ) : Prop where
  leftSon_eq : (heap a).leftSon = some b
  rightSon_eq : (heap a).rightSon = some c
  left_lt : a < b
  right_lt : a < c
  ne : b ≠ c
  father_left : (heap b).fatherGraph = some a
  father_right : (heap c).fatherGraph = some a
  left : IsSon (heap a) 0 (heap a).mapForG1 (heap b)
  right : IsSon (heap a) 1 (heap a).mapForG2 (heap c)
  binary : ∀ v < (heap a).nvtxs, (heap a).part v = 0 ∨ (heap a).part v = 1

/-- **The tree that the bisection builds**, at the addresses below `size`. -/
structure Good (heap : Heap) (size : ℕ) : Prop where
  wellFormed : ∀ a < size, (heap a).WellFormed
  node : ∀ a < size, (heap a).IsLeaf ∨ ∃ b c, b < size ∧ c < size ∧ heap.HasSons a b c
  pos : 0 < size
  root : (heap 0).fatherGraph = none
  /-- Every other node is the son of its father. -/
  father : ∀ a < size, a ≠ 0 →
    ∃ f b c, b < size ∧ c < size ∧ heap.HasSons f b c ∧ (a = b ∨ a = c)

section Update

variable {heap heap' : Heap} {size a : ℕ}

/-- `heap'` differs from `heap` below `size` only at the leaf `a`, which stays the same graph. -/
structure ChangesLeaf (heap heap' : Heap) (size a : ℕ) : Prop where
  lt : a < size
  isLeaf : (heap a).IsLeaf
  sameGraph : (heap a).SameGraph (heap' a)
  eq_of_ne : ∀ x < size, x ≠ a → heap' x = heap x

theorem ChangesLeaf.sameGraph_of_lt (h : ChangesLeaf heap heap' size a) {x : ℕ} (hx : x < size) :
    (heap x).SameGraph (heap' x) := by
  rcases eq_or_ne x a with rfl | hne
  · exact h.sameGraph
  · rw [h.eq_of_ne x hx hne]
    exact CHypergraph.SameGraph.refl _

/-- The other nodes keep their sons. -/
theorem ChangesLeaf.hasSons (h : ChangesLeaf heap heap' size a) {x b c : ℕ} (hb : b < size)
    (hc : c < size) (hx : heap.HasSons x b c) : heap'.HasSons x b c := by
  have hne : x ≠ a := by
    rintro rfl
    exact absurd (h.isLeaf.leftSon_eq.symm.trans hx.leftSon_eq) (by simp)
  have heq := h.eq_of_ne x (hx.left_lt.trans hb) hne
  have hsb := h.sameGraph_of_lt hb
  have hsc := h.sameGraph_of_lt hc
  exact {
    leftSon_eq := by rw [heq]; exact hx.leftSon_eq
    rightSon_eq := by rw [heq]; exact hx.rightSon_eq
    left_lt := hx.left_lt
    right_lt := hx.right_lt
    ne := hx.ne
    father_left := by rw [hsb.fatherGraph_eq]; exact hx.father_left
    father_right := by rw [hsc.fatherGraph_eq]; exact hx.father_right
    left := by rw [heq]; exact hsb.isSon hx.left
    right := by rw [heq]; exact hsc.isSon hx.right
    binary := by rw [heq]; exact hx.binary }

theorem ChangesLeaf.isLeaf_of_ne (h : ChangesLeaf heap heap' size a) {x : ℕ} (hx : x < size)
    (hne : x ≠ a) (hl : (heap x).IsLeaf) : (heap' x).IsLeaf := by
  rw [h.eq_of_ne x hx hne]
  exact hl

theorem ChangesLeaf.node_of_ne (h : ChangesLeaf heap heap' size a) (hg : heap.Good size) {x : ℕ}
    (hx : x < size) (hne : x ≠ a) :
    (heap' x).IsLeaf ∨ ∃ b c, b < size ∧ c < size ∧ heap'.HasSons x b c := by
  rcases hg.node x hx with hl | ⟨b, c, hb, hc, hs⟩
  · exact Or.inl (h.isLeaf_of_ne hx hne hl)
  · exact Or.inr ⟨b, c, hb, hc, h.hasSons hb hc hs⟩

/-- A leaf that stays a leaf. -/
theorem Good.of_changesLeaf (hg : heap.Good size) (h : ChangesLeaf heap heap' size a)
    (hl : (heap' a).IsLeaf) : heap'.Good size where
  wellFormed x hx := (h.sameGraph_of_lt hx).wellFormed (hg.wellFormed x hx)
  node x hx := by
    rcases eq_or_ne x a with rfl | hne
    · exact Or.inl hl
    · exact h.node_of_ne hg hx hne
  pos := hg.pos
  root := by rw [(h.sameGraph_of_lt hg.pos).fatherGraph_eq]; exact hg.root
  father x hx h0 := by
    obtain ⟨f, b, c, hb, hc, hs, hxbc⟩ := hg.father x hx h0
    exact ⟨f, b, c, hb, hc, h.hasSons hb hc hs, hxbc⟩

/-- A leaf that gets two new nodes as sons. -/
theorem Good.of_hasSons (hg : heap.Good size) (h : ChangesLeaf heap heap' size a)
    (hs : heap'.HasSons a size (size + 1)) (hl : (heap' size).IsLeaf)
    (hr : (heap' (size + 1)).IsLeaf) : heap'.Good (size + 2) where
  wellFormed x hx := by
    rcases Nat.lt_or_ge x size with hlt | hge
    · exact (h.sameGraph_of_lt hlt).wellFormed (hg.wellFormed x hlt)
    · rcases (by omega : x = size ∨ x = size + 1) with rfl | rfl
      · exact hs.left.wellFormed
      · exact hs.right.wellFormed
  node x hx := by
    rcases Nat.lt_or_ge x size with hlt | hge
    · rcases eq_or_ne x a with rfl | hne
      · exact Or.inr ⟨size, size + 1, by omega, by omega, hs⟩
      · rcases h.node_of_ne hg hlt hne with hx | ⟨b, c, hb, hc, hx⟩
        · exact Or.inl hx
        · exact Or.inr ⟨b, c, by omega, by omega, hx⟩
    · rcases (by omega : x = size ∨ x = size + 1) with rfl | rfl
      · exact Or.inl hl
      · exact Or.inl hr
  pos := by omega
  root := by rw [(h.sameGraph_of_lt hg.pos).fatherGraph_eq]; exact hg.root
  father x hx h0 := by
    rcases Nat.lt_or_ge x size with hlt | hge
    · obtain ⟨f, b, c, hb, hc, hf, hxbc⟩ := hg.father x hlt h0
      exact ⟨f, b, c, by omega, by omega, h.hasSons hb hc hf, hxbc⟩
    · exact ⟨a, size, size + 1, by omega, by omega, hs, by omega⟩

end Update

end Heap

/-! ### The loop keeps the tree -/

section Step

variable {M : Type*} {myPartition : ℕ → CHypergraph → Outcome M}

/-- What the bisection relies on: whenever a split is reported, every vertex has a side. -/
def LabelsSides (myPartition : ℕ → CHypergraph → Outcome M) : Prop :=
  ∀ k p, (myPartition k p).isParted = true →
    ∀ v < p.nvtxs, (myPartition k p).part v = 0 ∨ (myPartition k p).part v = 1

theorem sameGraph_partitioned (myPartition : ℕ → CHypergraph → Outcome M) (k : ℕ)
    (p : CHypergraph) :
    p.SameGraph (partitioned myPartition k p) := ⟨rfl, rfl, rfl, rfl, rfl, rfl, rfl, rfl⟩

/-- The state of the loop: a tree, and a queue of different leaves of it. -/
structure BisectState.Good (s : BisectState M) : Prop where
  tree : s.heap.Good s.size
  nodup : s.subGraph.Nodup
  queued : ∀ a ∈ s.subGraph, a < s.size ∧ (s.heap a).IsLeaf

section Link

variable {s : BisectState M} {a : ℕ} {p g1 g2 : CHypergraph}

theorem heap_linkSons_father (ha : a < s.size) : (linkSons s a p g1 g2).heap a =
    { p with leftSon := some s.size, rightSon := some (s.size + 1) } := by
  simp only [linkSons]
  rw [Function.update_of_ne (by omega), Function.update_of_ne (by omega), Function.update_self]

theorem heap_linkSons_left : (linkSons s a p g1 g2).heap s.size = g1 := by
  simp only [linkSons]
  rw [Function.update_of_ne (by omega), Function.update_self]

theorem heap_linkSons_right : (linkSons s a p g1 g2).heap (s.size + 1) = g2 :=
  Function.update_self ..

theorem heap_linkSons_of_ne {x : ℕ} (hx : x < s.size) (hne : x ≠ a) :
    (linkSons s a p g1 g2).heap x = s.heap x := by
  simp only [linkSons]
  rw [Function.update_of_ne (by omega), Function.update_of_ne (by omega),
    Function.update_of_ne hne]

/-- Linking two sides of `p` below `a`. -/
theorem hasSons_linkSons (ha : a < s.size) (hbin : ∀ v < p.nvtxs, p.part v = 0 ∨ p.part v = 1)
    (hf1 : g1.fatherGraph = some a) (hf2 : g2.fatherGraph = some a)
    (h1 : IsSon p 0 p.mapForG1 g1) (h2 : IsSon p 1 p.mapForG2 g2) :
    (linkSons s a p g1 g2).heap.HasSons a s.size (s.size + 1) where
  leftSon_eq := by rw [heap_linkSons_father ha]
  rightSon_eq := by rw [heap_linkSons_father ha]
  left_lt := ha
  right_lt := by omega
  ne := by omega
  father_left := by rw [heap_linkSons_left, hf1]
  father_right := by rw [heap_linkSons_right, hf2]
  left := by
    rw [heap_linkSons_father ha, heap_linkSons_left]
    exact h1.setLinks _ _ _ _
  right := by
    rw [heap_linkSons_father ha, heap_linkSons_right]
    exact h2.setLinks _ _ _ _
  binary := by rw [heap_linkSons_father ha]; exact hbin

end Link

/-- What a split does to the state, in terms of the tree. -/
structure IsSplit (s s' : BisectState M) (a : ℕ) (p : CHypergraph) : Prop where
  size_eq : s'.size = s.size + 2
  heap_eq : ∀ x < s.size, x ≠ a → s'.heap x = s.heap x
  sameGraph : p.SameGraph (s'.heap a)
  hasSons : s'.heap.HasSons a s.size (s.size + 1)
  left : (s'.heap s.size).IsLeaf
  right : (s'.heap (s.size + 1)).IsLeaf
  queue : s'.subGraph = s.subGraph ∨ s'.subGraph = s.subGraph ++ [s.size, s.size + 1] ∧
    (s'.heap s.size).nvtxs ≠ 0 ∧ (s'.heap (s.size + 1)).nvtxs ≠ 0

theorem isSplit_linkSons {s : BisectState M} {a : ℕ} {p p' g1 g2 : CHypergraph} (ha : a < s.size)
    (hp : p.SameGraph p') (hbin : ∀ v < p'.nvtxs, p'.part v = 0 ∨ p'.part v = 1)
    (hf1 : g1.fatherGraph = some a) (hf2 : g2.fatherGraph = some a)
    (h1 : IsSon p' 0 p'.mapForG1 g1) (h2 : IsSon p' 1 p'.mapForG2 g2) (hl1 : g1.IsLeaf)
    (hl2 : g2.IsLeaf) : IsSplit s (linkSons s a p' g1 g2) a p where
  size_eq := rfl
  heap_eq x hx hne := heap_linkSons_of_ne hx hne
  sameGraph := by
    rw [heap_linkSons_father ha]
    exact ⟨hp.nvtxs_eq, hp.nhedges_eq, hp.vwgts_eq, hp.eptr_eq, hp.eind_eq, hp.hewgts_eq,
      hp.fatherGraph_eq, hp.mapForFather_eq⟩
  hasSons := hasSons_linkSons ha hbin hf1 hf2 h1 h2
  left := by rw [heap_linkSons_left]; exact hl1
  right := by rw [heap_linkSons_right]; exact hl2
  queue := Or.inl rfl

/-- The level that a queued son gets does not matter to the tree. -/
theorem sameGraph_setFloor (g : CHypergraph) (k : ℕ) : g.SameGraph { g with floor := k } :=
  ⟨rfl, rfl, rfl, rfl, rfl, rfl, rfl, rfl⟩

/-- **A split**: two new leaves below `a`. -/
theorem isSplit_splitNode {s : BisectState M} {a : ℕ} {p : CHypergraph} (hw : p.WellFormed)
    (hbin : ∀ v < p.nvtxs, p.part v = 0 ∨ p.part v = 1) (h1 : p.mapForG1 = ∅)
    (h2 : p.mapForG2 = ∅) (ha : a < s.size) : IsSplit s (splitNode s a p) a p := by
  set subs := createSubGraph a p (CHypergraph.new (s.heap s.size))
    (CHypergraph.new (s.heap (s.size + 1))) with hsubs
  have hson1 : IsSon p 0 subs.1.mapForG1 subs.2.1 := isSon_left a hw hbin h1 h2 rfl rfl
  have hson2 : IsSon p 1 subs.1.mapForG2 subs.2.2 := isSon_right a hw hbin h1 h2 rfl rfl
  -- `createSubGraph` fills the tables of the father, which no son looks at
  have hson1' : IsSon subs.1 0 subs.1.mapForG1 subs.2.1 :=
    hson1.setLinks subs.1.mapForG1 subs.1.mapForG2 p.leftSon p.rightSon
  have hson2' : IsSon subs.1 1 subs.1.mapForG2 subs.2.2 :=
    hson2.setLinks subs.1.mapForG1 subs.1.mapForG2 p.leftSon p.rightSon
  have hp : p.SameGraph subs.1 := ⟨rfl, rfl, rfl, rfl, rfl, rfl, rfl, rfl⟩
  have hl1 : subs.2.1.IsLeaf := ⟨rfl, rfl, rfl, rfl⟩
  have hl2 : subs.2.2.IsLeaf := ⟨rfl, rfl, rfl, rfl⟩
  have hdef : splitNode s a p =
      if subs.2.1.nvtxs ≠ 0 ∧ subs.2.2.nvtxs ≠ 0 then
        { linkSons s a subs.1 { subs.2.1 with floor := p.floor + 1 }
            { subs.2.2 with floor := p.floor + 1 } with
          subGraph := s.subGraph ++ [s.size, s.size + 1] }
      else linkSons s a subs.1 subs.2.1 subs.2.2 := rfl
  rw [hdef]
  split_ifs with hne
  · have hlink := isSplit_linkSons ha hp hbin rfl rfl
      ((sameGraph_setFloor _ (p.floor + 1)).isSon hson1')
      ((sameGraph_setFloor _ (p.floor + 1)).isSon hson2') ⟨rfl, rfl, rfl, rfl⟩ ⟨rfl, rfl, rfl, rfl⟩
    refine ⟨rfl, hlink.heap_eq, hlink.sameGraph, hlink.hasSons, hlink.left, hlink.right,
      Or.inr ⟨rfl, ?_, ?_⟩⟩
    · show ((linkSons s a _ _ _).heap s.size).nvtxs ≠ 0
      rw [heap_linkSons_left]
      exact hne.1
    · show ((linkSons s a _ _ _).heap (s.size + 1)).nvtxs ≠ 0
      rw [heap_linkSons_right]
      exact hne.2
  · exact isSplit_linkSons ha hp hbin rfl rfl hson1' hson2' hl1 hl2

/-! ### Termination -/

/-- The number of rounds a queued hypergraph can still cause: the nodes of the largest tree below
it. -/
def rounds (p : CHypergraph) : ℕ := max 1 (2 * p.nvtxs - 1)

/-- The rounds that the queue can still cause. -/
def BisectState.rounds (s : BisectState M) : ℕ :=
  (s.subGraph.map fun a ↦ CArchitecture.rounds (s.heap a)).sum

/-- The vertices of one side, counted. -/
theorem IsSon.nvtxs_eq {G son : CHypergraph} {label : ℤ} {toSon : OrdMap ℕ ℕ}
    (hson : IsSon G label toSon son) :
    son.nvtxs = ((Finset.range G.nvtxs).filter (G.part · = label)).card := by
  have hbij : Set.BijOn (fun k ↦ (son.mapForFather.find? k).getD 0)
      (Finset.range son.nvtxs : Set ℕ)
      (((Finset.range G.nvtxs).filter (G.part · = label) : Finset ℕ) : Set ℕ) := by
    convert hson.bijOn using 1
    · ext k
      simp
    · ext v
      simp
  rw [← hbij.finsetCard_eq, Finset.card_range]

/-- No vertex is lost at a split. -/
theorem Heap.HasSons.nvtxs_eq {heap : Heap} {a b c : ℕ} (h : heap.HasSons a b c) :
    (heap a).nvtxs = (heap b).nvtxs + (heap c).nvtxs := by
  have hsides : (Finset.range (heap a).nvtxs).filter ((heap a).part · = 1) =
      (Finset.range (heap a).nvtxs).filter fun v ↦ ¬ (heap a).part v = 0 := by
    refine Finset.filter_congr fun v hv ↦ ?_
    have := h.binary v (Finset.mem_range.1 hv)
    omega
  rw [h.left.nvtxs_eq, h.right.nvtxs_eq, hsides, Finset.card_filter_add_card_filter_not,
    Finset.card_range]

/-- **One round.** The front of the queue stays a leaf, or it is split. -/
theorem bisectStep_cases {s s' : BisectState M} (h : bisectStep myPartition s = Sum.inl s') :
    ∃ a rest, s.subGraph = a :: rest ∧
      ((∃ p, (s.heap a).SameGraph p ∧ ((s.heap a).IsLeaf → p.IsLeaf) ∧
          s'.heap = Function.update s.heap a p ∧ s'.size = s.size ∧ s'.subGraph = rest) ∨
        ∃ k g, (myPartition k { s.heap a with modu := 0 }).isParted = true ∧
          s' = splitNode { s with subGraph := rest, calls := k + 1, pMyGraph := g } a
            (partitioned myPartition k (s.heap a))) := by
  rw [bisectStep] at h
  cases hq : s.subGraph with
  | nil => rw [hq] at h; exact absurd h (by simp)
  | cons a rest =>
    rw [hq] at h
    refine ⟨a, rest, rfl, ?_⟩
    simp only at h
    by_cases hn : (s.heap a).nvtxs > END_NUM - 1
    · rw [if_pos hn] at h
      by_cases hp : (partitioned myPartition s.calls (s.heap a)).isParted = true
      · rw [if_pos hp] at h
        exact Or.inr ⟨s.calls, _, hp, (Sum.inl.inj h).symm⟩
      · rw [if_neg hp] at h
        obtain rfl := Sum.inl.inj h
        exact Or.inl ⟨_, sameGraph_partitioned myPartition s.calls (s.heap a),
          fun hl ↦ ⟨hl.leftSon_eq, hl.rightSon_eq, hl.mapForG1_eq, hl.mapForG2_eq⟩, rfl, rfl, rfl⟩
    · rw [if_neg hn] at h
      obtain rfl := Sum.inl.inj h
      exact Or.inl ⟨s.heap a, CHypergraph.SameGraph.refl _, id, by rw [Function.update_eq_self],
        rfl, rfl⟩

/-- The loop exits when the queue is empty, with the state it is in. -/
theorem eq_of_bisectStep_eq_inr {s t : BisectState M}
    (h : bisectStep myPartition s = Sum.inr t) : t = s ∧ s.subGraph = [] := by
  rw [bisectStep] at h
  cases hq : s.subGraph with
  | nil =>
    rw [hq] at h
    exact ⟨(Sum.inr.inj h).symm, rfl⟩
  | cons a rest =>
    rw [hq] at h
    simp only at h
    split_ifs at h

/-- A round that leaves the front of the queue a leaf. -/
theorem BisectState.Good.of_end {s s' : BisectState M} {a : ℕ} {rest : List ℕ} {p : CHypergraph}
    (hs : s.Good) (hq : s.subGraph = a :: rest) (hp : (s.heap a).SameGraph p) (hl : p.IsLeaf)
    (hheap : s'.heap = Function.update s.heap a p) (hsize : s'.size = s.size)
    (hrest : s'.subGraph = rest) :
    s'.Good ∧ (s.heap 0).SameGraph (s'.heap 0) ∧ s'.rounds < s.rounds := by
  have ha := hs.queued a (by rw [hq]; exact List.mem_cons_self)
  have hnd := hs.nodup
  rw [hq, List.nodup_cons] at hnd
  have hself : s'.heap a = p := by rw [hheap, Function.update_self]
  have hchange : Heap.ChangesLeaf s.heap s'.heap s.size a :=
    ⟨ha.1, ha.2, hself ▸ hp, fun x _ hne ↦ by rw [hheap, Function.update_of_ne hne]⟩
  have hne : ∀ x ∈ rest, x ≠ a := fun x hx hxa ↦ hnd.1 (hxa ▸ hx)
  refine ⟨⟨?_, hrest ▸ hnd.2, fun x hx ↦ ?_⟩, hchange.sameGraph_of_lt hs.tree.pos, ?_⟩
  · rw [hsize]
    exact hs.tree.of_changesLeaf hchange (hself ▸ hl)
  · rw [hrest] at hx
    have hxs := hs.queued x (by rw [hq]; exact List.mem_cons_of_mem _ hx)
    exact ⟨hsize ▸ hxs.1, hchange.isLeaf_of_ne hxs.1 (hne x hx) hxs.2⟩
  · have hsame : rest.map (fun x ↦ CArchitecture.rounds (s'.heap x)) =
        rest.map fun x ↦ CArchitecture.rounds (s.heap x) :=
      List.map_congr_left fun x hx ↦ by rw [hheap, Function.update_of_ne (hne x hx)]
    have hpos : 0 < CArchitecture.rounds (s.heap a) := Nat.lt_of_lt_of_le Nat.one_pos
      (le_max_left _ _)
    rw [rounds, rounds, hrest, hsame, hq, List.map_cons, List.sum_cons]
    omega

/-- A round that splits the front of the queue. Two sons that are queued have fewer rounds between
them than their father. -/
theorem BisectState.Good.of_isSplit {s t s' : BisectState M} {a : ℕ} {rest : List ℕ}
    {p : CHypergraph} (hs : s.Good) (hq : s.subGraph = a :: rest) (hp : (s.heap a).SameGraph p)
    (hheap : t.heap = s.heap) (hsize : t.size = s.size) (hrest : t.subGraph = rest)
    (h : IsSplit t s' a p) :
    s'.Good ∧ (s.heap 0).SameGraph (s'.heap 0) ∧ s'.rounds < s.rounds := by
  have ha := hs.queued a (by rw [hq]; exact List.mem_cons_self)
  have hnd := hs.nodup
  rw [hq, List.nodup_cons] at hnd
  have hne : ∀ x ∈ rest, x ≠ a := fun x hx hxa ↦ hnd.1 (hxa ▸ hx)
  have hlt : ∀ x ∈ rest, x < s.size := fun x hx ↦
    (hs.queued x (by rw [hq]; exact List.mem_cons_of_mem _ hx)).1
  have heq : ∀ x < s.size, x ≠ a → s'.heap x = s.heap x := fun x hx hxa ↦ by
    rw [h.heap_eq x (hsize ▸ hx) hxa, hheap]
  have hsons := h.hasSons
  have hleft := h.left
  have hright := h.right
  have hsize' := h.size_eq
  have hqueue := h.queue
  rw [hsize] at hsons hleft hright hsize' hqueue
  rw [hrest] at hqueue
  have hchange : Heap.ChangesLeaf s.heap s'.heap s.size a :=
    ⟨ha.1, ha.2, hp.trans h.sameGraph, heq⟩
  have hold : ∀ x ∈ rest, x < s.size + 2 ∧ (s'.heap x).IsLeaf := fun x hx ↦
    ⟨by have := hlt x hx; omega, hchange.isLeaf_of_ne (hlt x hx) (hne x hx)
      (hs.queued x (by rw [hq]; exact List.mem_cons_of_mem _ hx)).2⟩
  have hsame : rest.map (fun x ↦ CArchitecture.rounds (s'.heap x)) =
      rest.map fun x ↦ CArchitecture.rounds (s.heap x) :=
    List.map_congr_left fun x hx ↦ by rw [heq x (hlt x hx) (hne x hx)]
  have htree : s'.heap.Good s'.size := by
    rw [hsize']
    exact hs.tree.of_hasSons hchange hsons hleft hright
  have hroot := hchange.sameGraph_of_lt hs.tree.pos
  -- without queued sons the round of `a` is used up; with them it pays for both
  rcases hqueue with hsub | ⟨hsub, hn1, hn2⟩
  · refine ⟨⟨htree, hsub ▸ hnd.2, fun x hx ↦ ?_⟩, hroot, ?_⟩
    · rw [hsub] at hx
      rw [hsize']
      exact hold x hx
    · have hpos : 0 < CArchitecture.rounds (s.heap a) := Nat.lt_of_lt_of_le Nat.one_pos
        (le_max_left _ _)
      rw [rounds, rounds, hsub, hsame, hq, List.map_cons, List.sum_cons]
      omega
  · refine ⟨⟨htree, ?_, fun x hx ↦ ?_⟩, hroot, ?_⟩
    · rw [hsub]
      refine hnd.2.append (by simp) fun x hx hx' ↦ ?_
      have := hlt x hx
      simp only [List.mem_cons, List.not_mem_nil, or_false] at hx'
      omega
    · rw [hsub, List.mem_append] at hx
      rw [hsize']
      rcases hx with hx | hx
      · exact hold x hx
      · simp only [List.mem_cons, List.not_mem_nil, or_false] at hx
        rcases hx with rfl | rfl
        · exact ⟨by omega, hleft⟩
        · exact ⟨by omega, hright⟩
    -- the vertices of the father are those of its sons, and neither son has none
    · have hn : (s.heap a).nvtxs =
          (s'.heap s.size).nvtxs + (s'.heap (s.size + 1)).nvtxs := by
        rw [← hsons.nvtxs_eq, h.sameGraph.nvtxs_eq, hp.nvtxs_eq]
      rw [rounds, rounds, hsub, List.map_append, List.sum_append, hsame, hq, List.map_cons,
        List.sum_cons]
      simp only [List.map_cons, List.map_nil, List.sum_cons, List.sum_nil, CArchitecture.rounds]
      omega

/-- **Every round keeps the tree and uses up rounds.** -/
theorem BisectState.Good.bisectStep {s s' : BisectState M} (hmy : LabelsSides myPartition)
    (hs : s.Good) (h : bisectStep myPartition s = Sum.inl s') :
    s'.Good ∧ (s.heap 0).SameGraph (s'.heap 0) ∧ s'.rounds < s.rounds := by
  obtain ⟨a, rest, hq, hcase⟩ := bisectStep_cases h
  have ha := hs.queued a (by rw [hq]; exact List.mem_cons_self)
  rcases hcase with ⟨p, hp, hl, hheap, hsize, hrest⟩ | ⟨k, g, hparted, rfl⟩
  · exact hs.of_end hq hp (hl ha.2) hheap hsize hrest
  · have hp := sameGraph_partitioned myPartition k (s.heap a)
    have hw := hp.wellFormed (hs.tree.wellFormed a ha.1)
    have hsplit := isSplit_splitNode
      (s := { s with subGraph := rest, calls := k + 1, pMyGraph := g }) hw (hmy k _ hparted)
      ha.2.mapForG1_eq ha.2.mapForG2_eq ha.1
    refine hs.of_isSplit hq hp ?_ ?_ ?_ hsplit <;> rfl

/-- **The loop terminates**, and leaves a tree whose root is the graph it started with. -/
theorem exists_bisect {s : BisectState M} (hmy : LabelsSides myPartition) (hs : s.Good) :
    ∃ s', (∀ fuel > s.rounds, bisect myPartition fuel s = some s') ∧ s'.heap.Good s'.size ∧
      (s.heap 0).SameGraph (s'.heap 0) := by
  have hnext : ∀ t t' : BisectState M, t.Good ∧ (s.heap 0).SameGraph (t.heap 0) →
      CArchitecture.bisectStep myPartition t = Sum.inl t' →
      (t'.Good ∧ (s.heap 0).SameGraph (t'.heap 0)) ∧ t'.rounds < t.rounds := by
    rintro t t' ⟨ht, hroot⟩ hstep
    obtain ⟨ht', hroot', hlt⟩ := ht.bisectStep hmy hstep
    exact ⟨⟨ht', hroot.trans hroot'⟩, hlt⟩
  have hexit : ∀ t t' : BisectState M, t.Good ∧ (s.heap 0).SameGraph (t.heap 0) →
      CArchitecture.bisectStep myPartition t = Sum.inr t' →
      t'.heap.Good t'.size ∧ (s.heap 0).SameGraph (t'.heap 0) := by
    rintro t t' ⟨ht, hroot⟩ hstep
    rw [(eq_of_bisectStep_eq_inr hstep).1]
    exact ⟨ht.tree, hroot⟩
  obtain ⟨s', hrun, hgood⟩ := Loop.exists_run_eq_some _ BisectState.rounds _ hnext hexit
    ⟨hs, CHypergraph.SameGraph.refl _⟩ (Nat.lt_succ_self _)
  exact ⟨s', fun fuel hfuel ↦ Loop.run_mono hfuel hrun, hgood⟩

end Step

end CArchitecture
