import CArchitecture.Hypergraph
import CArchitecture.Library.FirstSeen
import Mathlib.Algebra.Order.Ring.Int
import Mathlib.Data.Rat.Defs

/-!
# Cutting a hypergraph in two

`createSubGraph` builds the two sons of a hypergraph from the 0/1 labelling that a bisection left in
`part`. One loop over the edges serves both sides: a pin goes to the side of its label, is numbered
there when met for the first time, and an edge is closed on every side that got a pin of it.

* **One side at a time.** The two sides never read each other's variables, so each is a `Side` of
  its own, and the loop is described by what one pin and one edge do to a side
  (`Side.Holds.addPin`, `Side.Holds.closeEdge`).
* **The offset comes from the last index written**, not from a count: `closeEdge` gets `endG`, which
  is right because an edge is only closed on a side that it has a pin on.
* **The sons are described by the father**: `IsSon` says that a son is the father's edges restricted
  to one label, renumbered along `mapForFather`. This is all that the bisection uses later.
-/

namespace CArchitecture

open FirstSeen

/-! ### The construction -/

/-- The variables of one side: the father's table for it, the son's table and arrays, and the
counters. -/
structure Side where
  /-- The father's `mapForG1` or `mapForG2`. -/
  mapForG : OrdMap ℕ ℕ
  mapForFather : OrdMap ℕ ℕ
  vwgts : ℕ → ℤ
  eptr : ℕ → ℕ
  eind : ℕ → ℕ
  hewgts : ℕ → ℤ
  num : ℕ := 0
  eindnum : ℕ := 0
  edgenum : ℕ := 0
  wight : ℤ := 0

/-- The state of a side before the loop. The arrays are allocated here, so all they are known to
hold is the first offset. -/
def openSide (mapForG : OrdMap ℕ ℕ) (sub : CHypergraph) : Side where
  mapForG := mapForG
  mapForFather := sub.mapForFather
  vwgts := sub.vwgts
  eptr := Function.update sub.eptr 0 0
  eind := sub.eind
  hewgts := sub.hewgts

/-- A pin that belongs to this side. -/
def Side.addPin (G : CHypergraph) (s : Side) (v : ℕ) : Side :=
  match s.mapForG.find? v with
  | some k =>
    { s with
      eind := Function.update s.eind s.eindnum k
      eindnum := s.eindnum + 1 }
  | none =>
    { s with
      mapForG := s.mapForG.insert v s.num
      mapForFather := s.mapForFather.insert s.num v
      vwgts := Function.update s.vwgts s.num (G.vwgts v)
      eind := Function.update s.eind s.eindnum s.num
      num := s.num + 1
      eindnum := s.eindnum + 1 }

/-- An edge that has a pin on this side is closed, with its new weight. A cut edge is closed with
weight `0` on both sides and so does not add to their weights. -/
def Side.closeEdge (s : Side) (endG : ℤ) (w : ℤ) : Side :=
  { s with
    edgenum := s.edgenum + 1
    eptr := Function.update s.eptr (s.edgenum + 1) (endG + 1).toNat
    hewgts := Function.update s.hewgts s.edgenum w
    wight := s.wight + w }

/-- The variables of the loop over the pins of one edge. -/
structure PinState where
  g1 : Side
  g2 : Side
  /-- The last cell written on each side, `-1` if none was. -/
  endG1 : ℤ := -1
  endG2 : ℤ := -1
  allzero : Bool := true
  allone : Bool := true

/-- One pin. A label other than `0` and `1` is reported on the console and otherwise skipped. -/
def splitPin (G : CHypergraph) (s : PinState) (v : ℕ) : PinState :=
  if G.part v = 0 then
    { s with g1 := s.g1.addPin G v, endG1 := s.g1.eindnum, allone := false }
  else if G.part v = 1 then
    { s with g2 := s.g2.addPin G v, endG2 := s.g2.eindnum, allzero := false }
  else s

/-- The variables of the loop over the edges. -/
structure SplitState where
  g1 : Side
  g2 : Side
  wightG1_G2 : ℤ := 0

/-- One edge. -/
def splitEdge (G : CHypergraph) (s : SplitState) (i : ℕ) : SplitState :=
  let e := (G.pins i).foldl (splitPin G) { g1 := s.g1, g2 := s.g2 }
  if e.allzero then
    { s with g1 := e.g1.closeEdge e.endG1 (G.hewgts i), g2 := e.g2 }
  else if e.allone then
    { s with g1 := e.g1, g2 := e.g2.closeEdge e.endG2 (G.hewgts i) }
  else
    { g1 := e.g1.closeEdge e.endG1 0
      g2 := e.g2.closeEdge e.endG2 0
      wightG1_G2 := s.wightG1_G2 + G.hewgts i }

/-- The loop over the edges. -/
def splitEdges (G subG1 subG2 : CHypergraph) : SplitState :=
  (List.range G.nhedges).foldl (splitEdge G)
    { g1 := openSide G.mapForG1 subG1, g2 := openSide G.mapForG2 subG2 }

/-- The cohesion of a side: the weight inside it against that and the cut. The ratio is exact; the
source rounds it to a `float`. -/
def sideCohesion (wight wightG1_G2 : ℤ) : ℚ :=
  if wight = 0 then 0 else wight / (wight + wightG1_G2)

/-- The coupling of two sides: the cut against everything. This ratio is exact as well. -/
def sideCoupling (s : SplitState) : ℚ :=
  if s.g1.wight + s.g2.wight + s.wightG1_G2 = 0 then 0
  else s.wightG1_G2 / (s.g1.wight + s.g2.wight + s.wightG1_G2)

/-- The assignments to one son. -/
def storeSon (addr : ℕ) (G sub : CHypergraph) (s : Side) (coupling cohesion : ℚ) : CHypergraph :=
  { sub with
    fatherGraph := some addr
    npart := 2
    ubfactor := G.ubfactor
    inOptions := fun k ↦ if k < 9 then G.inOptions k else sub.inOptions k
    mapForFather := s.mapForFather
    vwgts := s.vwgts
    eptr := s.eptr
    eind := s.eind
    hewgts := s.hewgts
    coupling := coupling
    cohesion := cohesion
    nhedges := s.edgenum
    nvtxs := s.num }

/-- `createSubGraph`, for a father at address `addr`: the father with its two tables filled, and
the two sons. -/
def createSubGraph (addr : ℕ) (G subG1 subG2 : CHypergraph) :
    CHypergraph × CHypergraph × CHypergraph :=
  let s := splitEdges G subG1 subG2
  ({ G with mapForG1 := s.g1.mapForG, mapForG2 := s.g2.mapForG },
    storeSon addr G subG1 s.g1 (sideCoupling s) (sideCohesion s.g1.wight s.wightG1_G2),
    storeSon addr G subG2 s.g2 (sideCoupling s) (sideCohesion s.g2.wight s.wightG1_G2))

/-! ### What one side holds -/

/-- The side has closed the edges `es`, given by their new weights and their pins in the father,
and has taken the pins `cur` of the edge after them. The vertices are numbered in the order in which
the pins `es` and `cur` meet them. -/
structure Side.Holds (G : CHypergraph) (s : Side) (es : List (ℤ × List ℕ)) (cur : List ℕ) :
    Prop where
  table : Numbers s.mapForG 0 (scan [] ((es.map Prod.snd).flatten ++ cur))
  inverse : Lists s.mapForFather (scan [] ((es.map Prod.snd).flatten ++ cur))
  num_eq : s.num = (scan [] ((es.map Prod.snd).flatten ++ cur)).length
  vwgts : Csr.Cells s.vwgts ((scan [] ((es.map Prod.snd).flatten ++ cur)).map G.vwgts)
  eind : Csr.Cells s.eind (((es.map Prod.snd).flatten ++ cur).map
    (number (scan [] ((es.map Prod.snd).flatten ++ cur))))
  eindnum_eq : s.eindnum = ((es.map Prod.snd).flatten ++ cur).length
  edgenum_eq : s.edgenum = es.length
  eptr : Csr.Offsets s.eptr (es.map Prod.snd) (es.length + 1)
  hewgts : Csr.Cells s.hewgts (es.map Prod.fst)
  wight_eq : s.wight = (es.map Prod.fst).sum

section Side

variable {G : CHypergraph} {s : Side} {es : List (ℤ × List ℕ)} {cur : List ℕ}

theorem holds_openSide {mapForG : OrdMap ℕ ℕ} {sub : CHypergraph} (hG : mapForG = ∅)
    (hsub : sub.mapForFather = ∅) : (openSide mapForG sub).Holds G [] [] := by
  subst hG
  refine ⟨numbers_empty 0, ?_, rfl, Csr.cells_nil _, Csr.cells_nil _, rfl, rfl, ?_,
    Csr.cells_nil _, rfl⟩
  · show Lists sub.mapForFather []
    rw [hsub]
    exact lists_empty
  · intro k hk
    obtain rfl : k = 0 := by simpa using hk
    show Function.update sub.eptr 0 0 0 = _
    rw [Function.update_self]
    rfl

/-- **One pin.** -/
theorem Side.Holds.addPin (hs : s.Holds G es cur) (v : ℕ) :
    (s.addPin G v).Holds G es (cur ++ [v]) := by
  set seq := (es.map Prod.snd).flatten ++ cur with hseq
  have happ : (es.map Prod.snd).flatten ++ (cur ++ [v]) = seq ++ [v] := by
    rw [hseq, List.append_assoc]
  have hscan : scan [] (seq ++ [v]) = push (scan [] seq) v := by rw [scan_append]; rfl
  -- the cells written so far keep their numbers
  have hold : seq.map (number (scan [] (seq ++ [v]))) = seq.map (number (scan [] seq)) := by
    refine List.map_congr_left fun x hx ↦ number_eq_of_isPrefix ?_ (mem_scan.2 (Or.inr hx))
    rw [hscan]
    exact isPrefix_push _ _
  have hlen : s.eindnum = (seq.map (number (scan [] seq))).length := by
    rw [List.length_map]
    exact hs.eindnum_eq
  -- a vertex that the side has has its number already; a new one gets the next
  by_cases hv : v ∈ scan [] seq
  · have hfind : s.mapForG.find? v = some (number (scan [] seq) v) := by
      rw [hs.table.find?_of_mem hv, Nat.zero_add]
    rw [Side.addPin, hfind]
    rw [push_of_mem hv] at hscan
    refine ⟨?_, ?_, ?_, ?_, ?_, ?_, hs.edgenum_eq, hs.eptr, hs.hewgts, hs.wight_eq⟩ <;>
      rw [happ]
    · rw [hscan]; exact hs.table
    · rw [hscan]; exact hs.inverse
    · rw [hscan]; exact hs.num_eq
    · rw [hscan]; exact hs.vwgts
    · rw [List.map_append, hold, hscan, List.map_singleton]
      show Csr.Cells (Function.update s.eind s.eindnum _) _
      rw [hlen]
      exact hs.eind.push _
    · show s.eindnum + 1 = _
      rw [List.length_append, List.length_singleton]
      exact congrArg (· + 1) hs.eindnum_eq
  · have hfind : s.mapForG.find? v = none := hs.table.find?_of_notMem hv
    rw [Side.addPin, hfind]
    rw [push_of_notMem hv] at hscan
    refine ⟨?_, ?_, ?_, ?_, ?_, ?_, hs.edgenum_eq, hs.eptr, hs.hewgts, hs.wight_eq⟩ <;>
      rw [happ]
    · rw [hscan]
      show Numbers (s.mapForG.insert v s.num) 0 _
      rw [hs.num_eq, ← Nat.zero_add (scan [] seq).length]
      exact hs.table.insert hv
    · rw [hscan]
      show Lists (s.mapForFather.insert s.num v) _
      rw [hs.num_eq]
      exact hs.inverse.insert v
    · show s.num + 1 = _
      rw [hscan, hs.num_eq, List.length_append, List.length_singleton]
    · rw [hscan, List.map_append, List.map_singleton]
      show Csr.Cells (Function.update s.vwgts s.num _) _
      rw [hs.num_eq, ← List.length_map (f := G.vwgts)]
      exact hs.vwgts.push _
    · rw [List.map_append, hold, hscan, List.map_singleton, number_append_self hv]
      show Csr.Cells (Function.update s.eind s.eindnum s.num) _
      rw [hlen, hs.num_eq]
      exact hs.eind.push _
    · show s.eindnum + 1 = _
      rw [List.length_append, List.length_singleton]
      exact congrArg (· + 1) hs.eindnum_eq

/-- **One edge**: the pins taken since the last one become its row. -/
theorem Side.Holds.closeEdge (hs : s.Holds G es cur) (w : ℤ) {endG : ℤ}
    (hend : endG + 1 = s.eindnum) : (s.closeEdge endG w).Holds G (es ++ [(w, cur)]) [] := by
  have hflat : ((es ++ [(w, cur)]).map Prod.snd).flatten ++ [] =
      (es.map Prod.snd).flatten ++ cur := by simp
  have hrows : (es ++ [(w, cur)]).map Prod.snd = es.map Prod.snd ++ [cur] := by simp
  refine ⟨?_, ?_, ?_, ?_, ?_, ?_, ?_, ?_, ?_, ?_⟩
  · rw [hflat]; exact hs.table
  · rw [hflat]; exact hs.inverse
  · rw [hflat]; exact hs.num_eq
  · rw [hflat]; exact hs.vwgts
  · rw [hflat]; exact hs.eind
  · rw [hflat]; exact hs.eindnum_eq
  · show s.edgenum + 1 = _
    rw [hs.edgenum_eq, List.length_append, List.length_singleton]
  · show Csr.Offsets (Function.update s.eptr (s.edgenum + 1) (endG + 1).toNat) _ _
    have hrow := hs.eptr.append_row (by rw [List.length_map]) cur
    have hnext := hrow.push
    have htake : (es.map Prod.snd ++ [cur]).take (es.length + 1) = es.map Prod.snd ++ [cur] :=
      List.take_of_length_le (by simp)
    rw [htake, List.flatten_append, List.flatten_singleton] at hnext
    rw [hend, Int.toNat_natCast, hs.edgenum_eq, hs.eindnum_eq, hrows]
    simpa using hnext
  · show Csr.Cells (Function.update s.hewgts s.edgenum w) _
    rw [hs.edgenum_eq, List.map_append, ← List.length_map (f := Prod.fst)]
    exact hs.hewgts.push w
  · show s.wight + w = _
    rw [hs.wight_eq]
    simp

end Side

/-! ### The loop -/

/-- The pins of one edge that carry the label `s`. -/
def labelled (G : CHypergraph) (s : ℤ) (pins : List ℕ) : List ℕ := pins.filter (G.part · = s)

/-- The edges of `G` that have a pin labelled `s`, each restricted to those pins. An edge with all
its pins there keeps its weight, a cut one gets weight zero. -/
def sideEdges (G : CHypergraph) (s : ℤ) (es : List (ℤ × List ℕ)) : List (ℤ × List ℕ) :=
  (es.filter fun e ↦ e.2.any (G.part · = s)).map fun e ↦
    (if e.2.all (G.part · = s) then e.1 else 0, labelled G s e.2)

/-- An edge is cut if it has pins of both labels. -/
def isCut (G : CHypergraph) (e : ℤ × List ℕ) : Bool :=
  e.2.any (G.part · = 0) && e.2.any (G.part · = 1)

section Edges

variable {G : CHypergraph}

theorem sideEdges_append_singleton (s : ℤ) (es : List (ℤ × List ℕ)) (e : ℤ × List ℕ) :
    sideEdges G s (es ++ [e]) = sideEdges G s es ++ sideEdges G s [e] := by
  rw [sideEdges, List.filter_append, List.map_append]
  rfl

theorem labelled_eq_nil_iff {s : ℤ} {pins : List ℕ} :
    labelled G s pins = [] ↔ ∀ v ∈ pins, G.part v ≠ s := by
  simp [labelled, List.filter_eq_nil_iff]

/-- The pin loop has taken the pins `done` of an edge. -/
structure PinState.Holds (G : CHypergraph) (s : PinState) (es₁ es₂ : List (ℤ × List ℕ))
    (done : List ℕ) : Prop where
  g1 : s.g1.Holds G es₁ (labelled G 0 done)
  g2 : s.g2.Holds G es₂ (labelled G 1 done)
  endG1_eq : labelled G 0 done ≠ [] → s.endG1 + 1 = s.g1.eindnum
  endG2_eq : labelled G 1 done ≠ [] → s.endG2 + 1 = s.g2.eindnum
  allone_iff : s.allone = true ↔ labelled G 0 done = []
  allzero_iff : s.allzero = true ↔ labelled G 1 done = []

theorem eindnum_addPin (G : CHypergraph) (s : Side) (v : ℕ) :
    (s.addPin G v).eindnum = s.eindnum + 1 := by
  rw [Side.addPin]
  split <;> rfl

theorem PinState.Holds.splitPin {s : PinState} {es₁ es₂ : List (ℤ × List ℕ)} {done : List ℕ}
    (hs : s.Holds G es₁ es₂ done) (v : ℕ) : (splitPin G s v).Holds G es₁ es₂ (done ++ [v]) := by
  have happ : ∀ t, labelled G t (done ++ [v]) =
      labelled G t done ++ if G.part v = t then [v] else [] := fun t ↦ by
    rw [labelled, List.filter_append, labelled]
    by_cases h : G.part v = t <;> simp [h]
  by_cases h0 : G.part v = 0
  · have h₀ : labelled G 0 (done ++ [v]) = labelled G 0 done ++ [v] := by rw [happ, if_pos h0]
    have h₁ : labelled G 1 (done ++ [v]) = labelled G 1 done := by
      rw [happ, if_neg (by omega), List.append_nil]
    rw [CArchitecture.splitPin, if_pos h0]
    refine ⟨?_, ?_, fun _ ↦ ?_, ?_, ?_, ?_⟩
    · rw [h₀]; exact hs.g1.addPin v
    · rw [h₁]; exact hs.g2
    · show (s.g1.eindnum : ℤ) + 1 = ((s.g1.addPin G v).eindnum : ℕ)
      rw [eindnum_addPin]
      rfl
    · rw [h₁]; exact hs.endG2_eq
    · simp [h₀]
    · rw [h₁]; exact hs.allzero_iff
  by_cases h1 : G.part v = 1
  · have h₀ : labelled G 0 (done ++ [v]) = labelled G 0 done := by
      rw [happ, if_neg h0, List.append_nil]
    have h₁ : labelled G 1 (done ++ [v]) = labelled G 1 done ++ [v] := by rw [happ, if_pos h1]
    rw [CArchitecture.splitPin, if_neg h0, if_pos h1]
    refine ⟨?_, ?_, ?_, fun _ ↦ ?_, ?_, ?_⟩
    · rw [h₀]; exact hs.g1
    · rw [h₁]; exact hs.g2.addPin v
    · rw [h₀]; exact hs.endG1_eq
    · show (s.g2.eindnum : ℤ) + 1 = ((s.g2.addPin G v).eindnum : ℕ)
      rw [eindnum_addPin]
      rfl
    · rw [h₀]; exact hs.allone_iff
    · simp [h₁]
  · have h₀ : labelled G 0 (done ++ [v]) = labelled G 0 done := by
      rw [happ, if_neg h0, List.append_nil]
    have h₁ : labelled G 1 (done ++ [v]) = labelled G 1 done := by
      rw [happ, if_neg h1, List.append_nil]
    rw [CArchitecture.splitPin, if_neg h0, if_neg h1]
    exact ⟨h₀ ▸ hs.g1, h₁ ▸ hs.g2, h₀ ▸ hs.endG1_eq, h₁ ▸ hs.endG2_eq, h₀ ▸ hs.allone_iff,
      h₁ ▸ hs.allzero_iff⟩

/-- All pins of an edge. -/
theorem PinState.holds_foldl {g1 g2 : Side} {es₁ es₂ : List (ℤ × List ℕ)}
    (h1 : g1.Holds G es₁ []) (h2 : g2.Holds G es₂ []) (pins : List ℕ) :
    (pins.foldl (CArchitecture.splitPin G) { g1 := g1, g2 := g2 }).Holds G es₁ es₂ pins := by
  refine Loop.foldl_invariant (fun done (s : PinState) ↦ s.Holds G es₁ es₂ done) ?_
    fun done v _ s _ hs ↦ hs.splitPin v
  exact ⟨h1, h2, fun h ↦ absurd rfl h, fun h ↦ absurd rfl h, by simp [labelled],
    by simp [labelled]⟩

/-- The edge loop has split the edges `done`. -/
structure SplitState.Holds (G : CHypergraph) (s : SplitState) (done : List (ℤ × List ℕ)) :
    Prop where
  g1 : s.g1.Holds G (sideEdges G 0 done) []
  g2 : s.g2.Holds G (sideEdges G 1 done) []
  wightG1_G2_eq : s.wightG1_G2 = ((done.filter (isCut G)).map Prod.fst).sum

/-- What an edge without a pin of a label leaves of that side: nothing. -/
theorem sideEdges_of_labelled_eq_nil {s : ℤ} {e : ℤ × List ℕ} (h : labelled G s e.2 = []) :
    sideEdges G s [e] = [] := by
  have hany : e.2.any (G.part · = s) = false := by
    simpa [List.any_eq_false] using labelled_eq_nil_iff.1 h
  simp [sideEdges, hany]

/-- An edge with a pin of a label leaves one edge on that side. -/
theorem sideEdges_of_labelled_ne_nil {s : ℤ} {e : ℤ × List ℕ} (h : labelled G s e.2 ≠ []) :
    sideEdges G s [e] =
      [(if e.2.all (G.part · = s) then e.1 else 0, labelled G s e.2)] := by
  have hany : e.2.any (G.part · = s) = true := by
    by_contra hno
    refine h (labelled_eq_nil_iff.2 fun v hv hvs ↦ hno ?_)
    exact List.any_eq_true.2 ⟨v, hv, by simpa using hvs⟩
  simp [sideEdges, hany]

/-- Under a 0/1 labelling, having all pins on one side is having none on the other. -/
theorem all_eq_true_iff {pins : List ℕ} {s t : ℤ} (hst : s ≠ t)
    (hbin : ∀ v ∈ pins, G.part v = s ∨ G.part v = t) :
    pins.all (G.part · = s) = true ↔ labelled G t pins = [] := by
  rw [List.all_eq_true, labelled_eq_nil_iff]
  refine ⟨fun h v hv ↦ ?_, fun h v hv ↦ ?_⟩
  · rw [of_decide_eq_true (h v hv)]
    exact hst
  · exact decide_eq_true ((hbin v hv).resolve_right (h v hv))

theorem isCut_iff {e : ℤ × List ℕ} :
    isCut G e = true ↔ labelled G 0 e.2 ≠ [] ∧ labelled G 1 e.2 ≠ [] := by
  simp [isCut, labelled_eq_nil_iff]

/-- An edge has a pin, so it has one on some side. -/
theorem labelled_ne_nil {pins : List ℕ} (hne : pins ≠ [])
    (hbin : ∀ v ∈ pins, G.part v = 0 ∨ G.part v = 1) (h1 : labelled G 1 pins = []) :
    labelled G 0 pins ≠ [] := by
  intro h0
  obtain ⟨v, hv⟩ := List.exists_mem_of_ne_nil _ hne
  rcases hbin v hv with h | h
  · exact labelled_eq_nil_iff.1 h0 v hv h
  · exact labelled_eq_nil_iff.1 h1 v hv h

/-- **One edge** of a 0/1 labelled hypergraph. -/
theorem SplitState.Holds.splitEdge {s : SplitState} {done : List (ℤ × List ℕ)} {i : ℕ}
    (hs : s.Holds G done) (hbin : ∀ v ∈ G.pins i, G.part v = 0 ∨ G.part v = 1)
    (hne : G.pins i ≠ []) :
    (splitEdge G s i).Holds G (done ++ [(G.hewgts i, G.pins i)]) := by
  have he := PinState.holds_foldl hs.g1 hs.g2 (G.pins i)
  have hall0 := all_eq_true_iff (by decide) hbin
  have hall1 := all_eq_true_iff (by decide) fun v hv ↦ (hbin v hv).symm
  rw [CArchitecture.splitEdge]
  set e := (G.pins i).foldl (CArchitecture.splitPin G) { g1 := s.g1, g2 := s.g2 } with hedef
  -- the three branches: all pins on side 0, all on side 1, a cut edge
  by_cases hz : e.allzero = true
  · have h1 := he.allzero_iff.1 hz
    have h0 := labelled_ne_nil hne hbin h1
    have hcut : isCut G (G.hewgts i, G.pins i) = false := by
      rw [Bool.eq_false_iff, ne_eq, isCut_iff]
      exact fun h ↦ h.2 h1
    simp only [hz, if_true]
    refine ⟨?_, ?_, ?_⟩
    · rw [sideEdges_append_singleton, sideEdges_of_labelled_ne_nil h0, if_pos (hall0.2 h1)]
      exact he.g1.closeEdge _ (he.endG1_eq h0)
    · rw [sideEdges_append_singleton, sideEdges_of_labelled_eq_nil h1, List.append_nil, ← h1]
      exact he.g2
    · rw [List.filter_append, List.filter_singleton, hcut]
      simpa using hs.wightG1_G2_eq
  have h1 : labelled G 1 (G.pins i) ≠ [] := fun h ↦ hz (he.allzero_iff.2 h)
  by_cases ho : e.allone = true
  · have h0 := he.allone_iff.1 ho
    have hcut : isCut G (G.hewgts i, G.pins i) = false := by
      rw [Bool.eq_false_iff, ne_eq, isCut_iff]
      exact fun h ↦ h.1 h0
    simp only [hz, ho, if_true]
    refine ⟨?_, ?_, ?_⟩
    · rw [sideEdges_append_singleton, sideEdges_of_labelled_eq_nil h0, List.append_nil, ← h0]
      exact he.g1
    · rw [sideEdges_append_singleton, sideEdges_of_labelled_ne_nil h1, if_pos (hall1.2 h0)]
      exact he.g2.closeEdge _ (he.endG2_eq h1)
    · rw [List.filter_append, List.filter_singleton, hcut]
      simpa using hs.wightG1_G2_eq
  -- a cut edge leaves a row of weight zero on both sides
  · have h0 : labelled G 0 (G.pins i) ≠ [] := fun h ↦ ho (he.allone_iff.2 h)
    have hcut : isCut G (G.hewgts i, G.pins i) = true := isCut_iff.2 ⟨h0, h1⟩
    simp only [hz, ho]
    refine ⟨?_, ?_, ?_⟩
    · rw [sideEdges_append_singleton, sideEdges_of_labelled_ne_nil h0,
        if_neg fun h ↦ h1 (hall0.1 h)]
      exact he.g1.closeEdge _ (he.endG1_eq h0)
    · rw [sideEdges_append_singleton, sideEdges_of_labelled_ne_nil h1,
        if_neg fun h ↦ h0 (hall1.1 h)]
      exact he.g2.closeEdge _ (he.endG2_eq h1)
    · rw [List.filter_append, List.filter_singleton, hcut]
      simp [hs.wightG1_G2_eq]

/-- **The loop over the edges**, summarised. -/
theorem holds_splitEdges {subG1 subG2 : CHypergraph} (hw : G.WellFormed)
    (hbin : ∀ v < G.nvtxs, G.part v = 0 ∨ G.part v = 1) (h1 : G.mapForG1 = ∅)
    (h2 : G.mapForG2 = ∅) (hs1 : subG1.mapForFather = ∅) (hs2 : subG2.mapForFather = ∅) :
    (splitEdges G subG1 subG2).Holds G G.edges := by
  refine Loop.foldl_invariant
    (fun done (s : SplitState) ↦ s.Holds G (done.map fun i ↦ (G.hewgts i, G.pins i)))
    ⟨holds_openSide h1 hs1, holds_openSide h2 hs2, rfl⟩ fun done i rest s hl hs ↦ ?_
  have hi : i < G.nhedges := List.mem_range.1 (hl ▸ by simp)
  rw [List.map_append]
  exact hs.splitEdge (fun v hv ↦ hbin v (hw.pins_lt i hi v hv)) (hw.pins_ne_nil hi)

end Edges

/-! ### Sons -/

/-- `son` is the part of `G` labelled `s`, numbered by `toSon` one way and by its `mapForFather` the
other. -/
structure IsSon (G : CHypergraph) (s : ℤ) (toSon : OrdMap ℕ ℕ) (son : CHypergraph) : Prop where
  wellFormed : son.WellFormed
  /-- The vertices of the son are the vertices labelled `s`, one to one. -/
  bijOn : Set.BijOn (fun k ↦ (son.mapForFather.find? k).getD 0) {k | k < son.nvtxs}
    {v | v < G.nvtxs ∧ G.part v = s}
  /-- The two tables are inverse to each other. -/
  inverse : ∀ k v, son.mapForFather.find? k = some v ↔ toSon.find? v = some k
  isSome_iff : ∀ k, (son.mapForFather.find? k).isSome ↔ k < son.nvtxs
  vwgts_eq : ∀ k v, son.mapForFather.find? k = some v → son.vwgts k = G.vwgts v
  /-- The edges of the son are those of the father that have a pin here, restricted, renumbered and
  in order, with weight zero if they were cut. -/
  edges_eq : son.edges = (sideEdges G s G.edges).map fun e ↦
    (e.1, e.2.map fun v ↦ (toSon.find? v).getD 0)

/-- The weight of all edges together. -/
def totalWeight (h : CHypergraph) : ℤ := (h.edges.map Prod.fst).sum

/-- The weight of the edges that the labelling cuts. -/
def cutWeight (h : CHypergraph) : ℤ := ((h.edges.filter (isCut h)).map Prod.fst).sum

section Sons

variable {G : CHypergraph} {label : ℤ}

theorem mem_sideEdges {e : ℤ × List ℕ} (he : e ∈ sideEdges G label G.edges) :
    ∃ i < G.nhedges, e.2 = labelled G label (G.pins i) ∧ e.2 ≠ [] := by
  obtain ⟨e', he', rfl⟩ := List.mem_map.1 he
  obtain ⟨hmem, hany⟩ := List.mem_filter.1 he'
  obtain ⟨i, hi, rfl⟩ := CHypergraph.mem_edges_iff.1 hmem
  refine ⟨i, hi, rfl, fun hnil ↦ ?_⟩
  obtain ⟨v, hv, hvs⟩ := List.any_eq_true.1 hany
  exact labelled_eq_nil_iff.1 hnil v hv (of_decide_eq_true hvs)

theorem mem_labelled {v : ℕ} {pins : List ℕ} :
    v ∈ labelled G label pins ↔ v ∈ pins ∧ G.part v = label := by
  simp [labelled]

/-- The pins on one side are the vertices with its label: here every vertex has to be a pin. -/
theorem mem_flatten_sideEdges (hw : G.WellFormed) {v : ℕ} :
    v ∈ ((sideEdges G label G.edges).map Prod.snd).flatten ↔ v < G.nvtxs ∧ G.part v = label := by
  rw [List.mem_flatten]
  constructor
  · rintro ⟨row, hrow, hv⟩
    obtain ⟨e, he, rfl⟩ := List.mem_map.1 hrow
    obtain ⟨i, hi, heq, -⟩ := mem_sideEdges he
    rw [heq, mem_labelled] at hv
    exact ⟨hw.pins_lt i hi v hv.1, hv.2⟩
  · rintro ⟨hv, hlabel⟩
    obtain ⟨i, hi, hmem⟩ := hw.covered v hv
    refine ⟨labelled G label (G.pins i), ?_, mem_labelled.2 ⟨hmem, hlabel⟩⟩
    rw [sideEdges, List.map_map]
    refine List.mem_map.2 ⟨(G.hewgts i, G.pins i), List.mem_filter.2 ⟨?_, ?_⟩, rfl⟩
    · exact CHypergraph.mem_edges_iff.2 ⟨i, hi, rfl⟩
    · exact List.any_eq_true.2 ⟨v, hmem, decide_eq_true hlabel⟩

/-- The vertices of one side, in the order in which they are met and numbered. -/
def sideOrder (G : CHypergraph) (label : ℤ) : List ℕ :=
  scan [] ((sideEdges G label G.edges).map Prod.snd).flatten

theorem nodup_sideOrder (G : CHypergraph) (label : ℤ) : (sideOrder G label).Nodup :=
  nodup_scan List.nodup_nil _

theorem mem_sideOrder (hw : G.WellFormed) {v : ℕ} :
    v ∈ sideOrder G label ↔ v < G.nvtxs ∧ G.part v = label := by
  rw [sideOrder, mem_scan, ← mem_flatten_sideEdges hw]
  simp

theorem mem_sideOrder_of_mem {e : ℤ × List ℕ} (he : e ∈ sideEdges G label G.edges) {v : ℕ}
    (hv : v ∈ e.2) : v ∈ sideOrder G label :=
  mem_scan.2 (Or.inr (List.mem_flatten.2 ⟨e.2, List.mem_map_of_mem he, hv⟩))

/-- What the son is made of, in terms of `sideOrder`. -/
structure FinishedSide (G : CHypergraph) (label : ℤ) (toSon : OrdMap ℕ ℕ) (son : CHypergraph) :
    Prop where
  table : Numbers toSon 0 (sideOrder G label)
  inverse : Lists son.mapForFather (sideOrder G label)
  nvtxs_eq : son.nvtxs = (sideOrder G label).length
  vwgts : Csr.Cells son.vwgts ((sideOrder G label).map G.vwgts)
  hewgts : Csr.Cells son.hewgts ((sideEdges G label G.edges).map Prod.fst)
  holdsRows : son.HoldsRows
    (((sideEdges G label G.edges).map Prod.snd).map (List.map (number (sideOrder G label))))

theorem Side.Holds.finishedSide {s : Side} (hs : s.Holds G (sideEdges G label G.edges) [])
    (addr : ℕ) (sub : CHypergraph) (c c' : ℚ) :
    FinishedSide G label s.mapForG (storeSon addr G sub s c c') := by
  obtain ⟨htable, hinverse, hnum, hvwgts, heind, -, hedgenum, heptr, hhewgts, -⟩ := hs
  rw [List.append_nil] at htable hinverse hnum hvwgts heind
  refine ⟨htable, hinverse, hnum, hvwgts, hhewgts, ?_, ?_, ?_⟩
  · rw [List.length_map, List.length_map]
    exact hedgenum
  · rw [List.length_map, List.length_map]
    exact heptr.map _
  · rw [← List.map_flatten]
    exact heind

section Finished

variable {toSon : OrdMap ℕ ℕ} {son : CHypergraph}

theorem FinishedSide.wellFormed (hf : FinishedSide G label toSon son) (hw : G.WellFormed) :
    son.WellFormed := by
  refine hf.holdsRows.wellFormed ?_ ?_ ?_ ?_
  · intro r hr
    obtain ⟨e, he, rfl⟩ := List.mem_map.1 (List.map_map ▸ hr)
    obtain ⟨i, hi, -, hne⟩ := mem_sideEdges he
    simpa using hne
  · intro r hr
    obtain ⟨e, he, rfl⟩ := List.mem_map.1 (List.map_map ▸ hr)
    obtain ⟨i, hi, heq, -⟩ := mem_sideEdges he
    refine (List.nodup_map_iff_inj_on ?_).2 fun x hx y hy hxy ↦ ?_
    · rw [heq]
      exact (hw.pins_nodup i hi).filter _
    · exact (bijOn_number (nodup_sideOrder G label)).injOn (mem_sideOrder_of_mem he hx)
        (mem_sideOrder_of_mem he hy) hxy
  · intro r hr v hv
    obtain ⟨e, he, rfl⟩ := List.mem_map.1 (List.map_map ▸ hr)
    obtain ⟨x, hx, rfl⟩ := List.mem_map.1 hv
    rw [hf.nvtxs_eq]
    exact number_lt (mem_sideOrder_of_mem he hx)
  · intro v hv
    rw [hf.nvtxs_eq] at hv
    obtain ⟨x, hx, rfl⟩ := (bijOn_number (nodup_sideOrder G label)).surjOn hv
    obtain ⟨row, hrow, hxrow⟩ := List.mem_flatten.1 ((mem_scan.1 hx).resolve_left List.not_mem_nil)
    exact ⟨_, List.mem_map_of_mem hrow, List.mem_map_of_mem hxrow⟩

/-- The table to the father is the order itself. -/
theorem FinishedSide.getD_find? (hf : FinishedSide G label toSon son) {k : ℕ}
    (hk : k < (sideOrder G label).length) :
    (son.mapForFather.find? k).getD 0 = (sideOrder G label)[k] := by
  rw [hf.inverse k, List.getElem?_eq_getElem hk, Option.getD_some]

theorem FinishedSide.bijOn (hf : FinishedSide G label toSon son) (hw : G.WellFormed) :
    Set.BijOn (fun k ↦ (son.mapForFather.find? k).getD 0) {k | k < son.nvtxs}
      {v | v < G.nvtxs ∧ G.part v = label} := by
  have hlt : ∀ k < son.nvtxs, k < (sideOrder G label).length := fun k hk ↦ hf.nvtxs_eq ▸ hk
  refine ⟨fun k hk ↦ ?_, fun k hk l hl hkl ↦ ?_, fun v hv ↦ ?_⟩
  · show (son.mapForFather.find? k).getD 0 ∈ _
    rw [hf.getD_find? (hlt k hk)]
    exact (mem_sideOrder hw).1 (List.getElem_mem _)
  · have heq := hkl
    simp only [hf.getD_find? (hlt k hk), hf.getD_find? (hlt l hl)] at heq
    exact (nodup_sideOrder G label).getElem_inj_iff.1 heq
  · have hmem : v ∈ sideOrder G label := (mem_sideOrder hw).2 hv
    refine ⟨number (sideOrder G label) v, ?_, ?_⟩
    · show _ < son.nvtxs
      rw [hf.nvtxs_eq]
      exact number_lt hmem
    · show (son.mapForFather.find? _).getD 0 = v
      rw [hf.inverse, getElem?_number hmem, Option.getD_some]

theorem FinishedSide.find?_iff (hf : FinishedSide G label toSon son) (k v : ℕ) :
    son.mapForFather.find? k = some v ↔ toSon.find? v = some k := by
  rw [hf.inverse k]
  constructor
  · intro hget
    obtain ⟨hk, rfl⟩ := List.getElem?_eq_some_iff.1 hget
    rw [hf.table.find?_of_mem (List.getElem_mem hk), number_getElem (nodup_sideOrder G label) hk,
      Nat.zero_add]
  · intro hfind
    obtain ⟨hv, rfl⟩ := hf.table.mem_of_find? hfind
    rw [Nat.zero_add, getElem?_number hv]

theorem FinishedSide.edges_eq (hf : FinishedSide G label toSon son) :
    son.edges = (sideEdges G label G.edges).map fun e ↦
      (e.1, e.2.map fun v ↦ (toSon.find? v).getD 0) := by
  have hlen : son.nhedges = (sideEdges G label G.edges).length := by
    simpa using hf.holdsRows.nhedges_eq
  refine List.ext_getElem ?_ fun i hi hi' ↦ ?_
  · rw [CHypergraph.length_edges, List.length_map, hlen]
  · rw [List.length_map] at hi'
    have hweight := hf.hewgts i (by rwa [List.length_map])
    have hpins := hf.holdsRows.pins_eq (i := i) (by rwa [List.length_map, List.length_map])
    simp only [CHypergraph.edges, List.getElem_map, List.getElem_range]
    rw [hpins, List.getElem_map, List.getElem_map]
    refine Prod.ext (hweight.trans (List.getElem_map _)) (List.map_congr_left fun v hv ↦ ?_)
    rw [hf.table.find?_of_mem (mem_sideOrder_of_mem (List.getElem_mem hi') hv), Option.getD_some,
      Nat.zero_add]

/-- **A finished side is a son.** -/
theorem FinishedSide.isSon (hf : FinishedSide G label toSon son) (hw : G.WellFormed) :
    IsSon G label toSon son where
  wellFormed := hf.wellFormed hw
  bijOn := hf.bijOn hw
  inverse := hf.find?_iff
  isSome_iff k := by
    rw [hf.inverse k, hf.nvtxs_eq]
    simp
  vwgts_eq k v hkv := by
    rw [hf.inverse k] at hkv
    obtain ⟨hk, rfl⟩ := List.getElem?_eq_some_iff.1 hkv
    rw [hf.vwgts k (by rwa [List.length_map]), List.getElem_map]
  edges_eq := hf.edges_eq

end Finished

/-! ### The two sons together -/

/-- **Weight is only lost to the cut**: one edge. -/
theorem fst_eq_sum_sideEdges {e : ℤ × List ℕ} (hne : e.2 ≠ [])
    (hbin : ∀ v ∈ e.2, G.part v = 0 ∨ G.part v = 1) :
    e.1 = ((sideEdges G 0 [e]).map Prod.fst).sum + ((sideEdges G 1 [e]).map Prod.fst).sum +
      (([e].filter (isCut G)).map Prod.fst).sum := by
  have hall0 := all_eq_true_iff (by decide) hbin
  have hall1 := all_eq_true_iff (by decide) fun v hv ↦ (hbin v hv).symm
  rcases eq_or_ne (labelled G 1 e.2) [] with h1 | h1
  · have h0 := labelled_ne_nil hne hbin h1
    have hcut : isCut G e = false := Bool.eq_false_iff.2 fun h ↦ (isCut_iff.1 h).2 h1
    rw [sideEdges_of_labelled_eq_nil h1, sideEdges_of_labelled_ne_nil h0, if_pos (hall0.2 h1)]
    simp [hcut]
  · rcases eq_or_ne (labelled G 0 e.2) [] with h0 | h0
    · have hcut : isCut G e = false := Bool.eq_false_iff.2 fun h ↦ (isCut_iff.1 h).1 h0
      rw [sideEdges_of_labelled_eq_nil h0, sideEdges_of_labelled_ne_nil h1, if_pos (hall1.2 h0)]
      simp [hcut]
    · have hcut : isCut G e = true := isCut_iff.2 ⟨h0, h1⟩
      rw [sideEdges_of_labelled_ne_nil h0, sideEdges_of_labelled_ne_nil h1,
        if_neg fun h ↦ h1 (hall0.1 h), if_neg fun h ↦ h0 (hall1.1 h)]
      simp [hcut]

theorem sum_eq_sum_sideEdges (es : List (ℤ × List ℕ))
    (hbin : ∀ e ∈ es, e.2 ≠ [] ∧ ∀ v ∈ e.2, G.part v = 0 ∨ G.part v = 1) :
    (es.map Prod.fst).sum = ((sideEdges G 0 es).map Prod.fst).sum +
      ((sideEdges G 1 es).map Prod.fst).sum + ((es.filter (isCut G)).map Prod.fst).sum := by
  induction es using List.reverseRecOn with
  | nil => rfl
  | append_singleton es e ih =>
    obtain ⟨hne, hlab⟩ := hbin e (by simp)
    have hes := ih fun e he ↦ hbin e (List.mem_append_left _ he)
    have he := fst_eq_sum_sideEdges hne hlab
    simp only [sideEdges_append_singleton, List.filter_append, List.map_append, List.sum_append,
      List.map_singleton, List.sum_singleton]
    omega

end Sons

section Sons

variable {G subG1 subG2 : CHypergraph}

theorem isSon_left (addr : ℕ) (hw : G.WellFormed)
    (hbin : ∀ v < G.nvtxs, G.part v = 0 ∨ G.part v = 1) (h1 : G.mapForG1 = ∅)
    (h2 : G.mapForG2 = ∅) (hs1 : subG1.mapForFather = ∅) (hs2 : subG2.mapForFather = ∅) :
    IsSon G 0 (createSubGraph addr G subG1 subG2).1.mapForG1
      (createSubGraph addr G subG1 subG2).2.1 :=
  ((holds_splitEdges hw hbin h1 h2 hs1 hs2).g1.finishedSide addr subG1 _ _).isSon hw

theorem isSon_right (addr : ℕ) (hw : G.WellFormed)
    (hbin : ∀ v < G.nvtxs, G.part v = 0 ∨ G.part v = 1) (h1 : G.mapForG1 = ∅)
    (h2 : G.mapForG2 = ∅) (hs1 : subG1.mapForFather = ∅) (hs2 : subG2.mapForFather = ∅) :
    IsSon G 1 (createSubGraph addr G subG1 subG2).1.mapForG2
      (createSubGraph addr G subG1 subG2).2.2 :=
  ((holds_splitEdges hw hbin h1 h2 hs1 hs2).g2.finishedSide addr subG2 _ _).isSon hw

/-- The weights of two sons are those of the father's edges that are not cut. -/
theorem totalWeight_eq {son1 son2 : CHypergraph} {m1 m2 : OrdMap ℕ ℕ} (hw : G.WellFormed)
    (hbin : ∀ v < G.nvtxs, G.part v = 0 ∨ G.part v = 1) (hson1 : IsSon G 0 m1 son1)
    (hson2 : IsSon G 1 m2 son2) :
    totalWeight G = totalWeight son1 + totalWeight son2 + cutWeight G := by
  have hlab : ∀ e ∈ G.edges, e.2 ≠ [] ∧ ∀ v ∈ e.2, G.part v = 0 ∨ G.part v = 1 := by
    intro e he
    obtain ⟨i, hi, rfl⟩ := CHypergraph.mem_edges_iff.1 he
    exact ⟨hw.pins_ne_nil hi, fun v hv ↦ hbin v (hw.pins_lt i hi v hv)⟩
  have hfst : ∀ (es : List (ℤ × List ℕ)) (f : ℕ → ℕ),
      (es.map fun e ↦ (e.1, e.2.map f)).map Prod.fst = es.map Prod.fst := fun es f ↦ by
    rw [List.map_map]
    rfl
  rw [totalWeight, totalWeight, totalWeight, hson1.edges_eq, hson2.edges_eq, hfst, hfst]
  exact sum_eq_sum_sideEdges G.edges hlab

end Sons

/-- **Cutting a hypergraph in two**, for the fresh objects that the bisection passes as sons. -/
theorem createSubGraph_isSon (addr : ℕ) (G subG1 subG2 : CHypergraph) (hw : G.WellFormed)
    (hbin : ∀ v < G.nvtxs, G.part v = 0 ∨ G.part v = 1) (h1 : G.mapForG1 = ∅)
    (h2 : G.mapForG2 = ∅) (hs1 : subG1.mapForFather = ∅) (hs2 : subG2.mapForFather = ∅) :
    ∃ G' son1 son2, createSubGraph addr G subG1 subG2 = (G', son1, son2) ∧
      IsSon G 0 G'.mapForG1 son1 ∧ IsSon G 1 G'.mapForG2 son2 ∧
      totalWeight G = totalWeight son1 + totalWeight son2 + cutWeight G := by
  have hson1 := isSon_left addr hw hbin h1 h2 hs1 hs2
  have hson2 := isSon_right addr hw hbin h1 h2 hs1 hs2
  exact ⟨_, _, _, rfl, hson1, hson2, totalWeight_eq hw hbin hson1 hson2⟩

/-- Two edges that share a vertex, and a cut through the second. -/
def sampleSplit : CHypergraph :=
  { CHypergraph.ofRows 4 [[2, 0], [2, 1, 3]] with part := fun v ↦ if v = 1 then 1 else 0 }

theorem createSubGraph_isSon_sampleSplit :
    (sampleSplit.WellFormed ∧ ∀ v < sampleSplit.nvtxs, sampleSplit.part v = 0 ∨
      sampleSplit.part v = 1) ∧
    ∃ G' son1 son2, createSubGraph 0 sampleSplit default default = (G', son1, son2) ∧
      IsSon sampleSplit 0 G'.mapForG1 son1 ∧ IsSon sampleSplit 1 G'.mapForG2 son2 ∧
      totalWeight sampleSplit = totalWeight son1 + totalWeight son2 + cutWeight sampleSplit :=
  ⟨by decide, createSubGraph_isSon 0 sampleSplit default default (by decide) (by decide) rfl rfl
    rfl rfl⟩

end CArchitecture
