import CArchitecture.Library.Csr
import CArchitecture.Library.OrdMap
import CArchitecture.Library.Text
import Mathlib.Algebra.BigOperators.Group.Finset.Basic
import Mathlib.Data.Rat.Defs
import Mathlib.Data.Set.Function

/-!
# Hypergraphs in compressed form

`CHypergraph` is the record every stage after parsing works on: the hypergraph in compressed rows
(`eptr`, `eind`), the current labelling `part`, the links of the bisection tree and the renumbering
tables between a graph and its sons.

Two conventions make the record say what the source's object holds:

* **Arrays are functions.** An `int` array is a function on indices. Memory obtained with `new` is
  not initialised, so a fresh array is an arbitrary function, and only what has been assigned may
  be relied upon.
* **Pointers are addresses.** `fatherGraph`, `leftSon` and `rightSon` hold an address of the heap
  the bisection runs on, or nothing for `NULL`.

The `float` and `double` fields are exact rationals.
-/

namespace CArchitecture

/-- The hypergraph object of the program. -/
structure CHypergraph where
  /-- The text written to `hypergraph.hgr`. -/
  hyperstring : Str
  /-- The text written to `vertice.txt`. -/
  verticestring : Str
  /-- The text written to `relation.txt`. -/
  answerstring : Str
  nvtxs : ℕ
  trueNvtxs : ℕ
  nhedges : ℕ
  vwgts : ℕ → ℤ
  /-- Row offsets: edge `i` owns the cells `eptr i ≤ j < eptr (i + 1)` of `eind`. -/
  eptr : ℕ → ℕ
  /-- The pins of all edges, one edge after another. -/
  eind : ℕ → ℕ
  hewgts : ℕ → ℤ
  npart : ℤ
  ubfactor : ℤ
  /-- The label of each vertex: a side while bisecting, a part number at the end. -/
  part : ℕ → ℤ
  inOptions : ℕ → ℤ
  fatherGraph : Option ℕ
  leftSon : Option ℕ
  rightSon : Option ℕ
  coupling : ℚ
  cohesion : ℚ
  floor : ℕ
  modu : ℚ
  isParted : Bool
  /-- The number in the left son of each vertex that went there. -/
  mapForG1 : OrdMap ℕ ℕ
  /-- The number in the right son of each vertex that went there. -/
  mapForG2 : OrdMap ℕ ℕ
  /-- The number in the father of each own vertex. -/
  mapForFather : OrdMap ℕ ℕ
  deriving Inhabited

namespace CHypergraph

/-- `new CHypergraph()`: the constructor clears the links, the two ratios and the tables; every
other field keeps what the memory `raw` happened to hold. -/
def new (raw : CHypergraph) : CHypergraph :=
  { raw with
    hyperstring := []
    verticestring := []
    answerstring := []
    coupling := 0
    cohesion := 0
    leftSon := none
    rightSon := none
    fatherGraph := none
    mapForG1 := ∅
    mapForG2 := ∅
    mapForFather := ∅ }

/-- The hypergraph with the given rows and unit weights, and nothing else set. -/
def ofRows (nvtxs : ℕ) (rows : List (List ℕ)) : CHypergraph :=
  { (default : CHypergraph) with
    nvtxs := nvtxs
    nhedges := rows.length
    vwgts := fun _ ↦ 1
    hewgts := fun _ ↦ 1
    eptr := fun k ↦ (rows.take k).flatten.length
    eind := fun j ↦ rows.flatten.getD j 0 }

variable (h : CHypergraph)

/-- The pins of edge `i`. -/
def pins (i : ℕ) : List ℕ := Csr.segment h.eptr h.eind i

/-- The edges, each with its weight, in order. -/
def edges : List (ℤ × List ℕ) := (List.range h.nhedges).map fun i ↦ (h.hewgts i, h.pins i)

theorem length_edges : h.edges.length = h.nhedges := by
  rw [edges, List.length_map, List.length_range]

theorem mem_edges_iff {h : CHypergraph} {e : ℤ × List ℕ} :
    e ∈ h.edges ↔ ∃ i < h.nhedges, e = (h.hewgts i, h.pins i) := by
  simp [edges, eq_comm]

/-- A hypergraph that the later stages can work on. -/
structure WellFormed : Prop where
  eptr_zero : h.eptr 0 = 0
  /-- Every edge has a pin. -/
  eptr_lt : ∀ i < h.nhedges, h.eptr i < h.eptr (i + 1)
  /-- No edge has a pin twice. -/
  pins_nodup : ∀ i < h.nhedges, (h.pins i).Nodup
  /-- Pins are vertices. -/
  pins_lt : ∀ i < h.nhedges, ∀ v ∈ h.pins i, v < h.nvtxs
  /-- Every vertex is a pin. This is the condition that makes a hypergraph recoverable from its
  edges, and the one that bisection has to hand down: sons are built from pins alone. -/
  covered : ∀ v < h.nvtxs, ∃ i < h.nhedges, v ∈ h.pins i

instance : Decidable h.WellFormed :=
  decidable_of_iff
    (h.eptr 0 = 0 ∧ (∀ i < h.nhedges, h.eptr i < h.eptr (i + 1)) ∧
      (∀ i < h.nhedges, (h.pins i).Nodup) ∧ (∀ i < h.nhedges, ∀ v ∈ h.pins i, v < h.nvtxs) ∧
      ∀ v < h.nvtxs, ∃ i < h.nhedges, v ∈ h.pins i)
    ⟨fun ⟨h₁, h₂, h₃, h₄, h₅⟩ ↦ ⟨h₁, h₂, h₃, h₄, h₅⟩,
      fun ⟨h₁, h₂, h₃, h₄, h₅⟩ ↦ ⟨h₁, h₂, h₃, h₄, h₅⟩⟩

variable {h}

theorem length_pins (i : ℕ) : (h.pins i).length = h.eptr (i + 1) - h.eptr i := by
  rw [pins, Csr.segment, List.length_map, List.length_range']

theorem WellFormed.pins_ne_nil (hw : h.WellFormed) {i : ℕ} (hi : i < h.nhedges) :
    h.pins i ≠ [] := by
  have := hw.eptr_lt i hi
  rw [← List.length_pos_iff_ne_nil, length_pins]
  omega

end CHypergraph

/-! ### Well-formedness from rows

The producers of hypergraphs fill the arrays row by row; this is how a description of the rows they
wrote becomes well-formedness. -/

/-- What the arrays of `h` hold, as a list of rows. -/
structure CHypergraph.HoldsRows (h : CHypergraph) (rows : List (List ℕ)) : Prop where
  nhedges_eq : h.nhedges = rows.length
  offsets : Csr.Offsets h.eptr rows (rows.length + 1)
  cells : Csr.Cells h.eind rows.flatten

namespace CHypergraph.HoldsRows

variable {h : CHypergraph} {rows : List (List ℕ)}

theorem pins_eq (hr : h.HoldsRows rows) {i : ℕ} (hi : i < rows.length) : h.pins i = rows[i] :=
  Csr.segment_eq_getElem hr.offsets hr.cells hi

theorem wellFormed (hr : h.HoldsRows rows) (hne : ∀ r ∈ rows, r ≠ []) (hnd : ∀ r ∈ rows, r.Nodup)
    (hlt : ∀ r ∈ rows, ∀ v ∈ r, v < h.nvtxs) (hcov : ∀ v < h.nvtxs, ∃ r ∈ rows, v ∈ r) :
    h.WellFormed where
  eptr_zero := by simpa using hr.offsets 0 (by omega)
  eptr_lt i hi := by
    have hi' : i < rows.length := hr.nhedges_eq ▸ hi
    have hpos := List.length_pos_iff_ne_nil.2 (hne rows[i] (List.getElem_mem hi'))
    rw [hr.offsets i (by omega), hr.offsets (i + 1) (by omega), Csr.flatten_take_succ hi',
      List.length_append]
    omega
  pins_nodup i hi := by
    have hi' : i < rows.length := hr.nhedges_eq ▸ hi
    rw [hr.pins_eq hi']
    exact hnd _ (List.getElem_mem hi')
  pins_lt i hi := by
    have hi' : i < rows.length := hr.nhedges_eq ▸ hi
    rw [hr.pins_eq hi']
    exact hlt _ (List.getElem_mem hi')
  covered v hv := by
    obtain ⟨r, hmem, hvr⟩ := hcov v hv
    obtain ⟨i, hi, rfl⟩ := List.mem_iff_getElem.1 hmem
    exact ⟨i, hr.nhedges_eq ▸ hi, by rwa [hr.pins_eq hi]⟩

end CHypergraph.HoldsRows

end CArchitecture
