import CArchitecture.CreateHypergraph

/-!
# The published text and the stored arrays

`createHypergraph` produces its hypergraph twice: as the text written to `hypergraph.hgr`, and as
the arrays that are then partitioned. This file reads the text back.

The reader `readHgr` is a **specification** of the hMETIS format with flag `11`, written from the
format and not from the writer: a header `edges vertices 11`, one line `weight pin pin ...` for each
edge with pins counted from one, and one weight line for each vertex. Blank lines and repeated
blanks are skipped, anything else is refused. The result `readHgr_hyperstring` says that this reader
recovers the stored arrays, pin by pin and for every relation.
-/

namespace CArchitecture

open FirstSeen Text

/-! ### The reader -/

/-- A hypergraph as read from a text. -/
structure HgrFile where
  nhedges : ℕ
  nvtxs : ℕ
  hewgts : List ℤ
  /-- The pins of each edge as printed, counted from one. -/
  rows : List (List ℕ)
  vwgts : List ℤ
  deriving DecidableEq

/-- The cells of the rows, counted from zero. -/
def HgrFile.eind (f : HgrFile) : List ℕ := f.rows.flatten.map (· - 1)

/-- The offsets of the rows, with the final one. -/
def HgrFile.eptr (f : HgrFile) : List ℕ :=
  (List.range (f.rows.length + 1)).map fun k ↦ (f.rows.take k).flatten.length

/-- The numbers of a line. -/
def readLine (line : Str) : Option (List ℕ) := (fields ' ' line).mapM readNat

/-- An edge line: a weight and at least one pin. -/
def readEdge : List ℕ → Option (ℤ × List ℕ)
  | w :: v :: pins => some (w, v :: pins)
  | _ => none

/-- A vertex line: a weight. -/
def readWeight : List ℕ → Option ℤ
  | [w] => some w
  | _ => none

/-- Read a text in the hMETIS format with flag `11`. -/
def readHgr (text : Str) : Option HgrFile := do
  let lines ← (fields '\n' text).mapM readLine
  match lines with
  | [e, v, 11] :: body =>
    if body.length = e + v then
      let edges ← (body.take e).mapM readEdge
      let weights ← (body.drop e).mapM readWeight
      pure
        { nhedges := e
          nvtxs := v
          hewgts := edges.map Prod.fst
          rows := edges.map Prod.snd
          vwgts := weights }
    else none
  | _ => none

/-! ### The lines of the text -/

/-- The header, without its line end. -/
def headerLine (e v : ℕ) : Str :=
  decimal e ++ " ".toList ++ decimal v ++ " ".toList ++ "11".toList

/-- The line of an entry, without its line end. -/
def entryLine (all : List Str) (e : Str × List CalledClass) : Str :=
  "1 ".toList ++ (entryNames e).flatMap (pinText all)

/-- All lines of the text. -/
def hgrLines (r : CalledRelation) : List Str :=
  headerLine r.entries.length (classOrder r).length ::
    (r.entries.map (entryLine (classOrder r)) ++ List.replicate (classOrder r).length "1".toList)

/-- The text is its lines, each ended. -/
theorem finishHyperstring_numberingPass (r : CalledRelation) (fathermap : OrdMap Str Str) :
    finishHyperstring (numberingPass r fathermap) = (hgrLines r).flatMap (· ++ ['\n']) := by
  obtain ⟨hmet, htext, hi⟩ := numberingPass_spec r fathermap
  have hnum : (numberingPass r fathermap).classnum - 1 = (classOrder r).length := by
    rw [hmet.classnum_eq, Nat.add_sub_cancel]
    rfl
  have hedges : r.entries.flatMap (edgeLine (classOrder r)) =
      (r.entries.map (entryLine (classOrder r))).flatMap (· ++ ['\n']) := by
    rw [List.flatMap_map]
    rfl
  have hweights : (List.replicate (classOrder r).length "1\n".toList).flatten =
      (List.replicate (classOrder r).length "1".toList).flatMap (· ++ ['\n']) := by
    rw [List.flatMap_replicate]
    rfl
  rw [finishHyperstring, hi, hnum, htext, hedges, hweights, hgrLines, List.flatMap_cons,
    List.flatMap_append, headerLine]
  simp only [List.append_assoc]
  rfl

/-- No line contains a line end. -/
theorem newline_notMem_hgrLines (r : CalledRelation) : ∀ l ∈ hgrLines r, '\n' ∉ l := by
  have hdec : ∀ n, '\n' ∉ decimal n := notMem_decimal (by decide)
  intro l hl
  rw [hgrLines, List.mem_cons, List.mem_append] at hl
  rcases hl with rfl | hl | hl
  · simp [headerLine, hdec]
  · obtain ⟨e, -, rfl⟩ := List.mem_map.1 hl
    simp [entryLine, pinText, hdec]
  · rw [List.eq_of_mem_replicate hl]
    decide

theorem ne_nil_of_mem_hgrLines (r : CalledRelation) : ∀ l ∈ hgrLines r, l ≠ [] := by
  intro l hl
  rw [hgrLines, List.mem_cons, List.mem_append] at hl
  rcases hl with rfl | hl | hl
  · simp [headerLine]
  · obtain ⟨e, -, rfl⟩ := List.mem_map.1 hl
    simp [entryLine]
  · rw [List.eq_of_mem_replicate hl]
    decide

theorem mapM_readNat_decimal (ns : List ℕ) : (ns.map decimal).mapM readNat = some ns := by
  rw [List.mapM_map, Loop.mapM_eq_some (f := readNat ∘ decimal) fun n _ ↦ readNat_decimal n,
    List.map_id']

/-- A line of numerals, each followed by a blank, with an unended last one. -/
theorem readLine_flatMap_append (ns : List ℕ) (n : ℕ) :
    readLine ((ns.map decimal).flatMap (· ++ [' ']) ++ decimal n) = some (ns ++ [n]) := by
  have hblank : ∀ k, ' ' ∉ decimal k := notMem_decimal (by decide)
  rw [readLine, fields_flatMap_append (by simp [hblank]) (by simp [decimal_ne_nil]),
    fields_of_notMem (hblank n) (decimal_ne_nil n)]
  simpa using mapM_readNat_decimal (ns ++ [n])

/-- A line of numerals, each followed by a blank. -/
theorem readLine_flatMap (ns : List ℕ) :
    readLine ((ns.map decimal).flatMap (· ++ [' '])) = some ns := by
  have hblank : ∀ k, ' ' ∉ decimal k := notMem_decimal (by decide)
  rw [readLine, fields_flatMap (by simp [hblank]) (by simp [decimal_ne_nil]), mapM_readNat_decimal]

theorem readLine_headerLine (e v : ℕ) : readLine (headerLine e v) = some [e, v, 11] := by
  have hshape : headerLine e v =
      ([e, v].map decimal).flatMap (· ++ [' ']) ++ decimal 11 := by
    have hflag : decimal 11 = "11".toList := rfl
    simp [headerLine, hflag]
  rw [hshape, readLine_flatMap_append]
  rfl

/-- The printed pins of an entry: its numbers, counted from one. -/
def printedPins (all : List Str) (e : Str × List CalledClass) : List ℕ :=
  (entryPins all e).map (· + 1)

theorem readLine_entryLine (all : List Str) (e : Str × List CalledClass) :
    readLine (entryLine all e) = some (1 :: printedPins all e) := by
  have hshape : entryLine all e =
      ((1 :: printedPins all e).map decimal).flatMap (· ++ [' ']) := by
    have hone : decimal 1 ++ [' '] = "1 ".toList := rfl
    rw [List.map_cons, List.flatMap_cons, hone, entryLine, printedPins, entryPins, List.map_map,
      List.map_map, List.flatMap_map]
    rfl
  rw [hshape, readLine_flatMap]

/-! ### Reading the text back -/

/-- The body of the text, read line by line: the entries, then the weights. -/
theorem mapM_readLine_hgrLines (r : CalledRelation) :
    (hgrLines r).mapM readLine = some ([r.entries.length, (classOrder r).length, 11] ::
      (r.entries.map (fun e ↦ 1 :: printedPins (classOrder r) e) ++
        List.replicate (classOrder r).length [1])) := by
  have hweight : readLine "1".toList = some [1] := by decide
  rw [hgrLines, List.mapM_cons, readLine_headerLine, List.mapM_append, List.mapM_map,
    Loop.mapM_eq_some (f := readLine ∘ entryLine (classOrder r))
      fun e _ ↦ readLine_entryLine (classOrder r) e,
    Loop.mapM_eq_some (g := fun _ ↦ [1]) fun l hl ↦ by rw [List.eq_of_mem_replicate hl, hweight],
    List.map_replicate]
  rfl

/-- The file that a hypergraph text describes. -/
def fileOf (r : CalledRelation) : HgrFile where
  nhedges := r.entries.length
  nvtxs := (classOrder r).length
  hewgts := List.replicate r.entries.length 1
  rows := r.entries.map (printedPins (classOrder r))
  vwgts := List.replicate (classOrder r).length 1

/-- An entry always has its key as a pin. -/
theorem readEdge_printedPins (all : List Str) (e : Str × List CalledClass) :
    readEdge (1 :: printedPins all e) = some (1, printedPins all e) := rfl

theorem readHgr_finishHyperstring (r : CalledRelation) (fathermap : OrdMap Str Str) :
    readHgr (finishHyperstring (numberingPass r fathermap)) = some (fileOf r) := by
  have hedges : (r.entries.map fun e ↦ 1 :: printedPins (classOrder r) e).mapM readEdge =
      some (r.entries.map fun e ↦ (1, printedPins (classOrder r) e)) := by
    rw [List.mapM_map]
    exact Loop.mapM_eq_some fun e _ ↦ readEdge_printedPins (classOrder r) e
  have hweights : (List.replicate (classOrder r).length [1]).mapM readWeight =
      some (List.replicate (classOrder r).length 1) := by
    rw [Loop.mapM_eq_some (g := fun _ ↦ 1) fun l hl ↦ by rw [List.eq_of_mem_replicate hl]; rfl,
      List.map_replicate]
  rw [readHgr, finishHyperstring_numberingPass,
    fields_flatMap (newline_notMem_hgrLines r) (ne_nil_of_mem_hgrLines r), mapM_readLine_hgrLines]
  have hlen : (r.entries.map fun e ↦ 1 :: printedPins (classOrder r) e).length =
      r.entries.length := List.length_map _
  simp only [Option.bind_eq_bind, Option.bind_some, List.take_left' hlen, List.drop_left' hlen,
    hedges, hweights]
  rw [if_pos (by simp), fileOf]
  simp [Function.comp_def, List.map_const']

/-- **The text and the arrays describe the same hypergraph**, for every relation: reading
`hyperstring` back gives the counts and the weights that are stored, and its rows, counted from
zero, fill exactly the stored `eptr` and `eind`. -/
theorem readHgr_hyperstring (r : CalledRelation) (fathermap : OrdMap Str Str) (strPara : Str)
    (raw : CHypergraph) :
    ∃ h f, createHypergraph r fathermap strPara raw = some h ∧ readHgr h.hyperstring = some f ∧
      f.nhedges = h.nhedges ∧ f.nvtxs = h.nvtxs ∧
      f.hewgts = (List.range h.nhedges).map h.hewgts ∧
      f.vwgts = (List.range h.nvtxs).map h.vwgts ∧
      f.eptr = (List.range (h.nhedges + 1)).map h.eptr ∧
      f.eind = (List.range (h.eptr h.nhedges)).map h.eind := by
  obtain ⟨h, hsome, hh⟩ := exists_createHypergraph r fathermap strPara raw
  have hnhedges : h.nhedges = r.entries.length := hh.holdsRows.nhedges_eq.trans (List.length_map _)
  -- the printed rows are the stored ones, shifted by one
  have hshift : (fileOf r).rows.map (List.map (· - 1)) =
      r.entries.map (entryPins (classOrder r)) := by
    simp [fileOf, printedPins, Function.comp_def]
  have hlast : h.eptr h.nhedges = (r.entries.map (entryPins (classOrder r))).flatten.length := by
    rw [hh.holdsRows.nhedges_eq, hh.holdsRows.offsets _ (Nat.lt_succ_self _), List.take_length]
  refine ⟨h, fileOf r, hsome, ?_, hnhedges.symm, hh.nvtxs_eq.symm, ?_, ?_, ?_, ?_⟩
  · rw [hh.hyperstring_eq, readHgr_finishHyperstring]
  · rw [List.map_congr_left fun k hk ↦ hh.hewgts_eq k (List.mem_range.1 hk), hnhedges]
    simp [fileOf, List.map_const']
  · rw [List.map_congr_left fun k hk ↦ hh.vwgts_eq k (List.mem_range.1 hk), hh.nvtxs_eq]
    simp [fileOf, List.map_const']
  · have hrows : (fileOf r).rows.length = h.nhedges := by
      rw [hnhedges]
      exact List.length_map _
    rw [HgrFile.eptr, hrows]
    refine List.map_congr_left fun k hk ↦ ?_
    rw [hh.holdsRows.offsets k (by rw [← hh.holdsRows.nhedges_eq]; exact List.mem_range.1 hk),
      ← hshift, ← List.map_take, ← List.map_flatten, List.length_map]
  · rw [HgrFile.eind, List.map_flatten, hshift, hlast]
    exact (Csr.map_range_of_cells hh.holdsRows.cells).symm

end CArchitecture
