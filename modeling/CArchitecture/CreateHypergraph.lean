import CArchitecture.Hypergraph
import CArchitecture.Library.CString
import CArchitecture.Library.FirstSeen
import Mathlib.Data.Char

/-!
# From class relations to a hypergraph

`createHypergraph` turns the relation *class ↦ callers* into a hypergraph: a class is a vertex, and
a key with its callers is an edge. It makes **two passes** over the relation. The numbering pass
gives every class name met for the first time the next number, counts the pins, and writes the
three texts; the array pass then looks the numbers up again and fills `eptr` and `eind`, trusting
the counts and the table of the first.

The two agree because both follow one list, `classSeq`: the numbering is numbering by first
occurrence along it (`numberingPass_spec`), and the array pass writes the numbers of the same list,
row by row (`arrayPass_spec`). Everything said about the arrays afterwards comes from
`HoldsRows`.
-/

namespace CArchitecture

open FirstSeen

/-! ### The relation -/

/-- One caller in the list of a called class. -/
structure CalledClass where
  name : Str
  count : ℕ := 1
  bIsmemberVar : Bool := false
  deriving DecidableEq, Inhabited

/-- The relation *class ↦ callers*, in key order. -/
abbrev CalledRelation := OrdMap Str (List CalledClass)

/-- The names of one entry: the key, then its callers in list order. -/
def entryNames (e : Str × List CalledClass) : List Str := e.1 :: e.2.map CalledClass.name

/-- All names of a relation in the order in which both passes meet them. -/
def classSeq (entries : List (Str × List CalledClass)) : List Str := entries.flatMap entryNames

/-- Every key has callers, no caller is listed twice, and no class is its own caller. -/
def CalledRelation.Proper (r : CalledRelation) : Prop :=
  ∀ e ∈ r.entries, e.2 ≠ [] ∧ (e.2.map CalledClass.name).Nodup ∧ e.1 ∉ e.2.map CalledClass.name

/-! ### The numbering pass -/

/-- The variables of the numbering pass. -/
structure NumberingState where
  classtonum : OrdMap Str ℕ := ∅
  /-- The next free number; numbers start at one. -/
  classnum : ℕ := 1
  /-- The number of keys passed. -/
  i : ℕ := 0
  /-- The number of pins passed: the length `eind` is allocated with. -/
  eindLength : ℕ := 0
  hyperstring : Str := []
  verticestring : Str := []
  answerstring : Str := []

/-- What `vertice.txt` says after the name of a key: its base classes, if it has any. -/
def fatherSuffix (fathermap : OrdMap Str Str) (name : Str) : Str :=
  match fathermap.find? name with
  | some father => "  father: ".toList ++ father
  | none => []

/-- Meeting a name: a new one is numbered and gets its line in `vertice.txt`, with `suffix` after
the name; old or new, its number is printed. -/
def meet (suffix : Str) (s : NumberingState) (name : Str) : NumberingState :=
  match s.classtonum.find? name with
  | none =>
    { s with
      classtonum := s.classtonum.insert name s.classnum
      verticestring := s.verticestring ++ Text.decimal s.classnum ++ "  ".toList ++ name ++ suffix
        ++ "\n".toList
      eindLength := s.eindLength + 1
      hyperstring := s.hyperstring ++ Text.decimal s.classnum ++ " ".toList
      classnum := s.classnum + 1 }
  | some k =>
    { s with
      hyperstring := s.hyperstring ++ Text.decimal k ++ " ".toList
      eindLength := s.eindLength + 1 }

/-- Meeting a key. Only here do base classes go into `vertice.txt`. -/
def meetKey (fathermap : OrdMap Str Str) (s : NumberingState) (name : Str) : NumberingState :=
  meet (fatherSuffix fathermap name) s name

/-- Meeting a caller. -/
def meetCaller (s : NumberingState) (p : CalledClass) : NumberingState :=
  meet [] { s with answerstring := s.answerstring ++ p.name ++ "  ".toList } p.name

/-- One key with its callers. -/
def numberEntry (fathermap : OrdMap Str Str) (s : NumberingState)
    (e : Str × List CalledClass) : NumberingState :=
  let s := meetKey fathermap { s with hyperstring := s.hyperstring ++ "1 ".toList } e.1
  let s := { s with answerstring := s.answerstring ++ e.1 ++ "   ->   ".toList }
  let s := e.2.foldl meetCaller s
  { s with
    answerstring := s.answerstring ++ "\n".toList
    hyperstring := s.hyperstring ++ "\n".toList
    i := s.i + 1 }

/-- The first loop of `createHypergraph`. -/
def numberingPass (calledrelation : CalledRelation) (fathermap : OrdMap Str Str) :
    NumberingState :=
  calledrelation.entries.foldl (numberEntry fathermap) {}

/-- The text of `hypergraph.hgr`: the header goes before the edge lines, the vertex weights after
them. -/
def finishHyperstring (s : NumberingState) : Str :=
  Text.decimal s.i ++ " ".toList ++ Text.decimal (s.classnum - 1) ++ " ".toList ++ "11".toList
    ++ "\n".toList ++ s.hyperstring
    ++ (List.replicate (s.classnum - 1) "1\n".toList).flatten

/-! ### The array pass -/

/-- The variables of the array pass. -/
structure ArrayState where
  eind : ℕ → ℕ
  eptr : ℕ → ℕ
  eindnum : ℕ := 0
  edgenum : ℕ := 0

/-- Write the number of one name. A name without a number would be an access through `end()`. -/
def writePin (classtonum : OrdMap Str ℕ) (s : ArrayState) (name : Str) : Option ArrayState :=
  (classtonum.find? name).map fun k ↦
    { s with
      eind := Function.update s.eind s.eindnum (k - 1)
      eindnum := s.eindnum + 1 }

/-- One key with its callers: the offset is taken before the first pin. -/
def writeEntry (classtonum : OrdMap Str ℕ) (s : ArrayState) (e : Str × List CalledClass) :
    Option ArrayState := do
  let s' ← writePin classtonum { s with eptr := Function.update s.eptr s.edgenum s.eindnum } e.1
  let s'' ← e.2.foldlM (fun s p ↦ writePin classtonum s p.name) s'
  pure { s'' with edgenum := s''.edgenum + 1 }

/-- The second loop of `createHypergraph`, with the last offset. -/
def arrayPass (calledrelation : CalledRelation) (classtonum : OrdMap Str ℕ) (s : ArrayState) :
    Option ArrayState := do
  let s' ← calledrelation.entries.foldlM (writeEntry classtonum) s
  pure { s' with eptr := Function.update s'.eptr s'.edgenum s'.eindnum }

/-! ### The options -/

/-- The loop that cuts the configuration line at its blanks, with `pos` the blank found last. A
piece runs from the blank before it, and the piece after the last blank is never stored. -/
def lineWords (s : Str) : ℕ → ℕ → Option ℕ → List Str
  | 0, _, _ => []
  | _ + 1, _, none => []
  | n + 1, lastpos, some pos =>
    CString.substr s lastpos (pos - lastpos) ::
      lineWords s n pos (CString.find " ".toList s (pos + 1))

/-- The array `str`: each round finds a later blank, so the length of the line is fuel enough. The
array has ten cells, and the loop does not look at that; see `LineFits`. -/
def optionWords (strPara : Str) : List Str :=
  lineWords strPara (strPara.length + 1) 0 (CString.find " ".toList strPara 0)

/-- The words of the line find room in `str`. With an eleventh blank the loop writes behind it. -/
def LineFits (strPara : Str) : Prop := (optionWords strPara).length ≤ 10

instance (strPara : Str) : Decidable (LineFits strPara) := inferInstanceAs (Decidable (_ ≤ 10))

/-- The defaults for the options of a three-word line. -/
def defaultOptions : ℕ → ℤ
  | 0 => 0
  | 1 => 10
  | 2 => 1
  | 3 => 1
  | 4 => 1
  | 7 => -1
  | _ => 0

/-- The `switch` on the number of words. With any other number the options stay as they were. -/
def readOptions (strPara : Str) (h : CHypergraph) : CHypergraph :=
  let str := optionWords strPara
  let word (k : ℕ) : ℤ := CString.atoi (str.getD k [])
  match str.length + 1 with
  | 3 =>
    { h with
      npart := word 1
      ubfactor := word 2
      inOptions := fun k ↦ if k < 9 then defaultOptions k else h.inOptions k }
  | 9 =>
    { h with
      npart := word 1
      ubfactor := word 2
      inOptions := fun k ↦
        if k = 0 then 1
        else if k < 6 then word (k + 2)
        else if k = 6 then 0
        else if k = 7 then -1
        else if k = 8 then word 8
        else h.inOptions k }
  | _ => h

/-! ### The whole function -/

/-- The assignments to the object that `createHypergraph` builds: all weights are one. -/
def storeHypergraph (h : CHypergraph) (s : NumberingState) (a : ArrayState) : CHypergraph :=
  { h with
    hyperstring := finishHyperstring s
    answerstring := s.answerstring
    verticestring := s.verticestring
    nhedges := s.i
    nvtxs := s.classnum - 1
    hewgts := fun k ↦ if k < s.i then 1 else h.hewgts k
    vwgts := fun k ↦ if k < s.classnum - 1 then 1 else h.vwgts k
    eptr := a.eptr
    eind := a.eind }

/-- `createHypergraph`, for a line whose words find room (`LineFits`): the object `raw` is the
memory `new` returns for it. -/
def createHypergraph (calledrelation : CalledRelation) (fathermap : OrdMap Str Str)
    (strPara : Str) (raw : CHypergraph) : Option CHypergraph := do
  let h := CHypergraph.new raw
  let s := numberingPass calledrelation fathermap
  let a ← arrayPass calledrelation s.classtonum { eind := h.eind, eptr := h.eptr }
  pure (readOptions strPara (storeHypergraph h s a))

/-! ### What the numbering pass leaves -/

/-- The numbering pass has met the names `seq`, in this order. -/
structure NumberingState.HasMet (s : NumberingState) (seq : List Str) : Prop where
  table : Numbers s.classtonum 1 (scan [] seq)
  classnum_eq : s.classnum = (scan [] seq).length + 1
  eindLength_eq : s.eindLength = seq.length

/-- The print of one pin under the numbering `all`: numbers in the text start at one. -/
def pinText (all : List Str) (name : Str) : Str :=
  Text.decimal (number all name + 1) ++ " ".toList

/-- The line of one edge under the numbering `all`. -/
def edgeLine (all : List Str) (e : Str × List CalledClass) : Str :=
  "1 ".toList ++ (entryNames e).flatMap (pinText all) ++ "\n".toList

section Numbering

variable {s : NumberingState} {seq : List Str} {all : List Str}

theorem hasMet_init : NumberingState.HasMet {} [] :=
  ⟨numbers_empty 1, rfl, rfl⟩

/-- **Meeting a name is one step of numbering by first occurrence.** -/
theorem NumberingState.HasMet.meet (h : s.HasMet seq) (suffix x : Str) :
    (meet suffix s x).HasMet (seq ++ [x]) := by
  have hscan : scan [] (seq ++ [x]) = push (scan [] seq) x := by rw [scan_append]; rfl
  by_cases hx : x ∈ scan [] seq
  · have hfind := h.table.find?_of_mem hx
    rw [CArchitecture.meet, hfind]
    refine ⟨?_, ?_, ?_⟩
    · rw [hscan, push_of_mem hx]
      exact h.table
    · rw [hscan, push_of_mem hx]
      exact h.classnum_eq
    · simp [h.eindLength_eq]
  · have hfind := h.table.find?_of_notMem hx
    rw [CArchitecture.meet, hfind]
    refine ⟨?_, ?_, ?_⟩
    · rw [hscan, push_of_notMem hx]
      show Numbers (s.classtonum.insert x s.classnum) 1 _
      rw [h.classnum_eq, Nat.add_comm]
      exact h.table.insert hx
    · rw [hscan, push_of_notMem hx]
      show s.classnum + 1 = _
      rw [h.classnum_eq, List.length_append, List.length_singleton]
    · simp [h.eindLength_eq]

/-- Old or new, a name is printed with its number in the final numbering. -/
theorem NumberingState.HasMet.hyperstring_meet (h : s.HasMet seq) (suffix x : Str)
    (hall : scan [] (seq ++ [x]) <+: all) :
    (CArchitecture.meet suffix s x).hyperstring = s.hyperstring ++ pinText all x := by
  have hscan : scan [] (seq ++ [x]) = push (scan [] seq) x := by rw [scan_append]; rfl
  have hmem : x ∈ scan [] (seq ++ [x]) := by rw [hscan, mem_push]; exact Or.inr rfl
  have hidx := number_eq_of_isPrefix hall hmem
  by_cases hx : x ∈ scan [] seq
  · rw [hscan, push_of_mem hx] at hidx
    rw [CArchitecture.meet, h.table.find?_of_mem hx, pinText, hidx]
    simp [Nat.add_comm]
  · rw [hscan, push_of_notMem hx, number_append_self hx] at hidx
    rw [CArchitecture.meet, h.table.find?_of_notMem hx, pinText, hidx]
    simp [h.classnum_eq]

@[simp] theorem i_meet (suffix x : Str) : (meet suffix s x).i = s.i := by
  rw [meet]
  split <;> rfl

/-- The callers of one key. -/
theorem foldl_meetCaller_spec (ps : List CalledClass) (h : s.HasMet seq)
    (hall : scan [] (seq ++ ps.map CalledClass.name) <+: all) :
    (ps.foldl meetCaller s).HasMet (seq ++ ps.map CalledClass.name) ∧
      (ps.foldl meetCaller s).hyperstring =
        s.hyperstring ++ (ps.map CalledClass.name).flatMap (pinText all) ∧
      (ps.foldl meetCaller s).i = s.i := by
  induction ps generalizing s seq with
  | nil => simpa using h
  | cons p ps ih =>
    rw [List.map_cons, List.append_cons] at hall ⊢
    have hone : scan [] (seq ++ [p.name]) <+: all := by
      rw [scan_append] at hall
      exact (isPrefix_scan _ _).trans hall
    -- the print into `relation.txt` that comes first touches nothing that is counted
    have h' : NumberingState.HasMet
        { s with answerstring := s.answerstring ++ p.name ++ "  ".toList } seq :=
      ⟨h.table, h.classnum_eq, h.eindLength_eq⟩
    obtain ⟨hmet, htext, hi⟩ := ih (h'.meet [] p.name) hall
    refine ⟨hmet, ?_, ?_⟩
    · rw [List.foldl_cons]
      refine htext.trans ?_
      rw [h'.hyperstring_meet [] p.name hone, List.flatMap_cons, List.append_assoc]
    · rw [List.foldl_cons]
      exact hi.trans (i_meet [] p.name)

/-- One key with its callers. -/
theorem numberEntry_spec (fathermap : OrdMap Str Str) (e : Str × List CalledClass)
    (h : s.HasMet seq) (hall : scan [] (seq ++ entryNames e) <+: all) :
    (numberEntry fathermap s e).HasMet (seq ++ entryNames e) ∧
      (numberEntry fathermap s e).hyperstring = s.hyperstring ++ edgeLine all e ∧
      (numberEntry fathermap s e).i = s.i + 1 := by
  rw [entryNames, List.append_cons] at hall
  have hone : scan [] (seq ++ [e.1]) <+: all := by
    rw [scan_append] at hall
    exact (isPrefix_scan _ _).trans hall
  have h' : NumberingState.HasMet { s with hyperstring := s.hyperstring ++ "1 ".toList } seq :=
    ⟨h.table, h.classnum_eq, h.eindLength_eq⟩
  have hkey := h'.meet (fatherSuffix fathermap e.1) e.1
  have hkeyText := h'.hyperstring_meet (fatherSuffix fathermap e.1) e.1 hone
  set k := meet (fatherSuffix fathermap e.1)
    { s with hyperstring := s.hyperstring ++ "1 ".toList } e.1 with hk
  have hk' : NumberingState.HasMet
      { k with answerstring := k.answerstring ++ e.1 ++ "   ->   ".toList } (seq ++ [e.1]) :=
    ⟨hkey.table, hkey.classnum_eq, hkey.eindLength_eq⟩
  obtain ⟨hmet, htext, hi⟩ := foldl_meetCaller_spec e.2 hk' hall
  refine ⟨?_, ?_, ?_⟩
  · rw [entryNames, List.append_cons]
    exact ⟨hmet.table, hmet.classnum_eq, hmet.eindLength_eq⟩
  · refine (congrArg (· ++ "\n".toList) htext).trans ?_
    show k.hyperstring ++ _ ++ _ = _
    rw [hkeyText, edgeLine, entryNames, List.flatMap_cons]
    simp only [List.append_assoc]
  · refine (congrArg (· + 1) hi).trans ?_
    show k.i + 1 = _
    rw [hk, i_meet]

end Numbering

/-- The final numbering: the classes of the relation in the order of first occurrence. -/
def classOrder (r : CalledRelation) : List Str := scan [] (classSeq r.entries)

theorem nodup_classOrder (r : CalledRelation) : (classOrder r).Nodup :=
  nodup_scan List.nodup_nil _

theorem mem_classOrder {r : CalledRelation} {x : Str} :
    x ∈ classOrder r ↔ x ∈ classSeq r.entries := by
  rw [classOrder, mem_scan]
  simp

/-- **The numbering pass**, summarised: the table numbers `classOrder` from one, the counters are
right, and the text is one line per entry, in the final numbering. -/
theorem numberingPass_spec (r : CalledRelation) (fathermap : OrdMap Str Str) :
    (numberingPass r fathermap).HasMet (classSeq r.entries) ∧
      (numberingPass r fathermap).hyperstring = r.entries.flatMap (edgeLine (classOrder r)) ∧
      (numberingPass r fathermap).i = r.entries.length := by
  refine Loop.foldl_invariant
    (fun done (s : NumberingState) ↦ s.HasMet (classSeq done) ∧
      s.hyperstring = done.flatMap (edgeLine (classOrder r)) ∧ s.i = done.length)
    ⟨hasMet_init, rfl, rfl⟩ fun done e rest s hl hs ↦ ?_
  obtain ⟨hmet, htext, hi⟩ := hs
  have hall : scan [] (classSeq done ++ entryNames e) <+: classOrder r := by
    have hseq : classSeq r.entries = classSeq done ++ entryNames e ++ classSeq rest := by
      simp [hl, classSeq]
    rw [classOrder, hseq, scan_append _ _ (classSeq rest)]
    exact isPrefix_scan _ _
  obtain ⟨hmet', htext', hi'⟩ := numberEntry_spec fathermap e hmet hall
  refine ⟨?_, ?_, ?_⟩
  · rw [classSeq, List.flatMap_append, List.flatMap_singleton]
    exact hmet'
  · rw [htext', htext, List.flatMap_append, List.flatMap_singleton]
  · rw [hi', hi, List.length_append, List.length_singleton]

/-! ### What the array pass leaves -/

/-- The pins of one entry under the numbering `all`. -/
def entryPins (all : List Str) (e : Str × List CalledClass) : List ℕ :=
  (entryNames e).map (number all)

/-- The array pass has closed the rows `rows` and written the pins `cur` of the next one. The
offset of the open row is not part of this: it is taken when the row is opened. -/
structure ArrayState.HasRows (s : ArrayState) (rows : List (List ℕ)) (cur : List ℕ) : Prop where
  cells : Csr.Cells s.eind (rows.flatten ++ cur)
  eindnum_eq : s.eindnum = (rows.flatten ++ cur).length
  edgenum_eq : s.edgenum = rows.length

section Arrays

variable {all : List Str} {m : OrdMap Str ℕ} {s : ArrayState} {rows : List (List ℕ)}
  {cur : List ℕ}

/-- A numbered name is written with its number, counted from zero. -/
theorem writePin_spec (hm : Numbers m 1 all) (hs : s.HasRows rows cur) {x : Str} (hx : x ∈ all) :
    ∃ s', writePin m s x = some s' ∧ s'.HasRows rows (cur ++ [number all x]) ∧
      s'.eptr = s.eptr := by
  refine ⟨{ s with
      eind := Function.update s.eind s.eindnum (number all x), eindnum := s.eindnum + 1 },
    ?_, ⟨?_, ?_, hs.edgenum_eq⟩, rfl⟩
  · rw [writePin, hm.find?_of_mem hx, Option.map_some, Nat.add_sub_cancel_left]
  · rw [← List.append_assoc, hs.eindnum_eq]
    exact hs.cells.push (number all x)
  · show s.eindnum + 1 = _
    simp [hs.eindnum_eq, Nat.add_assoc]

theorem foldlM_writePin_spec (hm : Numbers m 1 all) (hs : s.HasRows rows cur)
    (ps : List CalledClass) (hps : ∀ p ∈ ps, p.name ∈ all) :
    ∃ s', ps.foldlM (fun s p ↦ writePin m s p.name) s = some s' ∧
      s'.HasRows rows (cur ++ (ps.map CalledClass.name).map (number all)) ∧
      s'.eptr = s.eptr := by
  induction ps generalizing s cur with
  | nil => exact ⟨s, rfl, by simpa using hs, rfl⟩
  | cons p ps ih =>
    obtain ⟨s₁, h₁, hs₁, he₁⟩ := writePin_spec hm hs (hps p List.mem_cons_self)
    obtain ⟨s₂, h₂, hs₂, he₂⟩ := ih hs₁ fun q hq ↦ hps q (List.mem_cons_of_mem _ hq)
    refine ⟨s₂, ?_, ?_, he₂.trans he₁⟩
    · rw [List.foldlM_cons, h₁]
      exact h₂
    · rw [List.map_cons, List.map_cons, List.append_cons]
      exact hs₂

/-- One entry closes one row. -/
theorem writeEntry_spec (hm : Numbers m 1 all) (hs : s.HasRows rows [])
    (ho : Csr.Offsets s.eptr rows rows.length) {e : Str × List CalledClass}
    (he : ∀ x ∈ entryNames e, x ∈ all) :
    ∃ s', writeEntry m s e = some s' ∧ s'.HasRows (rows ++ [entryPins all e]) [] ∧
      Csr.Offsets s'.eptr (rows ++ [entryPins all e]) (rows.length + 1) := by
  have hopen : ArrayState.HasRows { s with eptr := Function.update s.eptr s.edgenum s.eindnum }
      rows [] := ⟨hs.cells, hs.eindnum_eq, hs.edgenum_eq⟩
  obtain ⟨s₁, h₁, hs₁, he₁⟩ := writePin_spec hm hopen (he e.1 List.mem_cons_self)
  obtain ⟨s₂, h₂, hs₂, he₂⟩ := foldlM_writePin_spec hm hs₁ e.2 fun p hp ↦
    he p.name (List.mem_cons_of_mem _ (List.mem_map_of_mem hp))
  refine ⟨_, by rw [writeEntry, h₁]; exact congrArg (Option.bind · _) h₂, ⟨?_, ?_, ?_⟩, ?_⟩
  · rw [List.flatten_append, List.flatten_singleton, List.append_nil]
    exact hs₂.cells
  · rw [List.flatten_append, List.flatten_singleton, List.append_nil]
    exact hs₂.eindnum_eq
  · show s₂.edgenum + 1 = _
    rw [hs₂.edgenum_eq, List.length_append, List.length_singleton]
  · show Csr.Offsets s₂.eptr _ _
    have hnext := ho.push
    rw [List.take_length] at hnext
    rw [he₂, he₁, hs.edgenum_eq, hs.eindnum_eq, List.append_nil]
    exact hnext.append_row le_rfl _

/-- **The array pass**, summarised: it never meets a name without a number, and the arrays hold the
pins of the entries, row by row. -/
theorem arrayPass_spec {r : CalledRelation} (hm : Numbers m 1 all)
    (hall : ∀ x ∈ classSeq r.entries, x ∈ all) (eind eptr : ℕ → ℕ) :
    ∃ s', arrayPass r m { eind := eind, eptr := eptr } = some s' ∧
      Csr.Cells s'.eind (r.entries.map (entryPins all)).flatten ∧
      Csr.Offsets s'.eptr (r.entries.map (entryPins all)) (r.entries.length + 1) := by
  -- induction on the entries that are left, with the rows written so far
  have key : ∀ (rest done : List (Str × List CalledClass)) (s : ArrayState),
      (∀ e ∈ rest, ∀ x ∈ entryNames e, x ∈ all) →
      s.HasRows (done.map (entryPins all)) [] →
      Csr.Offsets s.eptr (done.map (entryPins all)) (done.map (entryPins all)).length →
      ∃ s', rest.foldlM (writeEntry m) s = some s' ∧
        s'.HasRows ((done ++ rest).map (entryPins all)) [] ∧
        Csr.Offsets s'.eptr ((done ++ rest).map (entryPins all)) (done ++ rest).length := by
    intro rest
    induction rest with
    | nil =>
      intro done s _ hs ho
      exact ⟨s, rfl, by simpa using hs, by simpa using ho⟩
    | cons e rest ih =>
      intro done s hnames hs ho
      obtain ⟨s₁, h₁, hs₁, ho₁⟩ := writeEntry_spec hm hs ho (hnames e List.mem_cons_self)
      have hsplit : done.map (entryPins all) ++ [entryPins all e] =
          (done ++ [e]).map (entryPins all) := by simp
      rw [hsplit] at hs₁ ho₁
      obtain ⟨s₂, h₂, hs₂, ho₂⟩ := ih (done ++ [e]) s₁
        (fun f hf ↦ hnames f (List.mem_cons_of_mem _ hf)) hs₁ (by simpa using ho₁)
      refine ⟨s₂, ?_, by rw [List.append_cons]; exact hs₂, by rw [List.append_cons]; exact ho₂⟩
      rw [List.foldlM_cons, h₁]
      exact h₂
  have hnames : ∀ e ∈ r.entries, ∀ x ∈ entryNames e, x ∈ all := fun e he x hx ↦
    hall x (List.mem_flatMap.2 ⟨e, he, hx⟩)
  obtain ⟨s, hs, hrows, hoff⟩ := key r.entries [] { eind := eind, eptr := eptr } hnames
    ⟨Csr.cells_nil _, rfl, rfl⟩ (Csr.offsets_zero _ _)
  rw [List.nil_append] at hrows hoff
  refine ⟨{ s with eptr := Function.update s.eptr s.edgenum s.eindnum }, ?_, ?_, ?_⟩
  · rw [arrayPass, hs]
    rfl
  · simpa using hrows.cells
  · have hlast := hoff.push
    rw [List.take_of_length_le (by simp)] at hlast
    have hedge : s.edgenum = r.entries.length := by simpa using hrows.edgenum_eq
    have hcount : s.eindnum = (r.entries.map (entryPins all)).flatten.length := by
      simpa using hrows.eindnum_eq
    rw [hedge, hcount]
    exact hlast

end Arrays

/-! ### The hypergraph and the relation -/

/-- The options touch nothing but the options. -/
theorem readOptions_eq (strPara : Str) (h : CHypergraph) :
    ∃ np ub opts, readOptions strPara h =
      { h with npart := np, ubfactor := ub, inOptions := opts } := by
  rw [readOptions]
  split
  · exact ⟨_, _, _, rfl⟩
  · exact ⟨_, _, _, rfl⟩
  · exact ⟨h.npart, h.ubfactor, h.inOptions, rfl⟩

/-- What `createHypergraph` leaves, in terms of the rows it wrote. -/
structure IsHypergraphOf (r : CalledRelation) (fathermap : OrdMap Str Str)
    (h : CHypergraph) : Prop where
  nvtxs_eq : h.nvtxs = (classOrder r).length
  holdsRows : h.HoldsRows (r.entries.map (entryPins (classOrder r)))
  hewgts_eq : ∀ k < h.nhedges, h.hewgts k = 1
  vwgts_eq : ∀ k < h.nvtxs, h.vwgts k = 1
  hyperstring_eq : h.hyperstring = finishHyperstring (numberingPass r fathermap)
  fatherGraph_eq : h.fatherGraph = none
  leftSon_eq : h.leftSon = none
  rightSon_eq : h.rightSon = none
  mapForG1_eq : h.mapForG1 = ∅
  mapForG2_eq : h.mapForG2 = ∅

theorem IsHypergraphOf.readOptions {r : CalledRelation} {fathermap : OrdMap Str Str}
    {h : CHypergraph} (strPara : Str) (hh : IsHypergraphOf r fathermap h) :
    IsHypergraphOf r fathermap (readOptions strPara h) := by
  obtain ⟨np, ub, opts, heq⟩ := readOptions_eq strPara h
  rw [heq]
  exact ⟨hh.nvtxs_eq, ⟨hh.holdsRows.nhedges_eq, hh.holdsRows.offsets, hh.holdsRows.cells⟩,
    hh.hewgts_eq, hh.vwgts_eq, hh.hyperstring_eq, hh.fatherGraph_eq, hh.leftSon_eq,
    hh.rightSon_eq, hh.mapForG1_eq, hh.mapForG2_eq⟩

/-- **`createHypergraph` always returns**, whatever the relation, and leaves the rows of its
entries. -/
theorem exists_createHypergraph (r : CalledRelation) (fathermap : OrdMap Str Str) (strPara : Str)
    (raw : CHypergraph) :
    ∃ h, createHypergraph r fathermap strPara raw = some h ∧ IsHypergraphOf r fathermap h := by
  obtain ⟨hmet, -, hi⟩ := numberingPass_spec r fathermap
  obtain ⟨a, ha, hcells, hoff⟩ := arrayPass_spec (r := r) hmet.table
    (fun x hx ↦ mem_classOrder.2 hx) (CHypergraph.new raw).eind (CHypergraph.new raw).eptr
  have hnum : (numberingPass r fathermap).classnum - 1 = (classOrder r).length := by
    rw [hmet.classnum_eq, Nat.add_sub_cancel]
    rfl
  refine ⟨_, by rw [createHypergraph, ha]; rfl, IsHypergraphOf.readOptions strPara ?_⟩
  exact {
    nvtxs_eq := hnum
    holdsRows := ⟨hi.trans (List.length_map _).symm, by rw [List.length_map]; exact hoff, hcells⟩
    hewgts_eq := fun k hk ↦ if_pos hk
    vwgts_eq := fun k hk ↦ if_pos hk
    hyperstring_eq := rfl
    fatherGraph_eq := rfl
    leftSon_eq := rfl
    rightSon_eq := rfl
    mapForG1_eq := rfl
    mapForG2_eq := rfl }

/-- The object that is returned was stored and then given its options. -/
theorem eq_readOptions_of_createHypergraph {r : CalledRelation} {fathermap : OrdMap Str Str}
    {strPara : Str} {raw h : CHypergraph} (hh : createHypergraph r fathermap strPara raw = some h) :
    ∃ a, h = readOptions strPara
      (storeHypergraph (CHypergraph.new raw) (numberingPass r fathermap) a) := by
  rw [createHypergraph] at hh
  obtain ⟨a, -, hstore⟩ := Option.bind_eq_some_iff.1 hh
  exact ⟨a, (Option.some.inj hstore).symm⟩

section Encoding

variable {r : CalledRelation} {fathermap : OrdMap Str Str} {h : CHypergraph}

theorem number_injOn (r : CalledRelation) :
    Set.InjOn (number (classOrder r)) {x | x ∈ classSeq r.entries} := by
  intro x hx y hy hxy
  exact (bijOn_number (nodup_classOrder r)).injOn (mem_classOrder.2 hx) (mem_classOrder.2 hy) hxy

theorem mem_classSeq_of_mem_entryNames {e : Str × List CalledClass} (he : e ∈ r.entries) {x : Str}
    (hx : x ∈ entryNames e) : x ∈ classSeq r.entries :=
  List.mem_flatMap.2 ⟨e, he, hx⟩

/-- The entries of a proper relation have distinct names. -/
theorem CalledRelation.Proper.nodup_entryNames (hr : r.Proper) {e : Str × List CalledClass}
    (he : e ∈ r.entries) : (entryNames e).Nodup :=
  List.nodup_cons.2 ⟨(hr e he).2.2, (hr e he).2.1⟩

/-- **The hypergraph of a proper relation is well formed.** -/
theorem IsHypergraphOf.wellFormed (hh : IsHypergraphOf r fathermap h) (hr : r.Proper) :
    h.WellFormed := by
  refine hh.holdsRows.wellFormed ?_ ?_ ?_ ?_
  · intro row hrow
    obtain ⟨e, -, rfl⟩ := List.mem_map.1 hrow
    simp [entryPins, entryNames]
  · intro row hrow
    obtain ⟨e, he, rfl⟩ := List.mem_map.1 hrow
    refine (List.nodup_map_iff_inj_on (hr.nodup_entryNames he)).2 fun x hx y hy hxy ↦ ?_
    exact number_injOn r (mem_classSeq_of_mem_entryNames he hx)
      (mem_classSeq_of_mem_entryNames he hy) hxy
  · intro row hrow v hv
    obtain ⟨e, he, rfl⟩ := List.mem_map.1 hrow
    obtain ⟨x, hx, rfl⟩ := List.mem_map.1 hv
    rw [hh.nvtxs_eq]
    exact number_lt (mem_classOrder.2 (mem_classSeq_of_mem_entryNames he hx))
  · intro v hv
    rw [hh.nvtxs_eq] at hv
    obtain ⟨x, hx, rfl⟩ := (bijOn_number (nodup_classOrder r)).surjOn hv
    obtain ⟨e, he, hxe⟩ := List.mem_flatMap.1 (mem_classOrder.1 hx)
    exact ⟨_, List.mem_map_of_mem he, List.mem_map_of_mem hxe⟩

end Encoding

/-- The vertex of a class under the table of the numbering pass. -/
def vertexNumber (classtonum : OrdMap Str ℕ) (name : Str) : ℕ :=
  (classtonum.find? name).getD 0 - 1

/-- The class of a vertex under the same table. -/
def className (classtonum : OrdMap Str ℕ) (v : ℕ) : Option Str :=
  (classtonum.entries.find? fun e ↦ e.2 = v + 1).map Prod.fst

/-- An edge read as a key with its callers. -/
def decodeEdge (classtonum : OrdMap Str ℕ) (pins : List ℕ) : Option (Str × List Str) :=
  match pins.mapM (className classtonum) with
  | some (key :: callers) => some (key, callers)
  | _ => none

/-- All edges read back. -/
def decodeRelation (classtonum : OrdMap Str ℕ) (h : CHypergraph) :
    Option (List (Str × List Str)) :=
  ((List.range h.nhedges).map h.pins).mapM (decodeEdge classtonum)

section Decoding

variable {all : List Str} {m : OrdMap Str ℕ}

theorem vertexNumber_eq (hm : Numbers m 1 all) {x : Str} (hx : x ∈ all) :
    vertexNumber m x = number all x := by
  rw [vertexNumber, hm.find?_of_mem hx, Option.getD_some, Nat.add_sub_cancel_left]

/-- The table has one name for each number it gave. -/
theorem className_number (hm : Numbers m 1 all) (hnd : all.Nodup) {x : Str} (hx : x ∈ all) :
    className m (number all x) = some x := by
  have hentry : (x, number all x + 1) ∈ m.entries := by
    rw [OrdMap.mem_entries_iff, hm.find?_of_mem hx, Nat.add_comm]
  rcases hfind : m.entries.find? fun e ↦ e.2 = number all x + 1 with _ | ⟨y, k⟩
  · exact absurd (List.find?_eq_none.1 hfind _ hentry) (by simp)
  · have hk : k = number all x + 1 := by simpa using List.find?_some hfind
    obtain ⟨hy, hk'⟩ := hm.mem_of_find? (OrdMap.mem_entries_iff.1 (List.mem_of_find?_eq_some hfind))
    have hyx : y = x := (bijOn_number hnd).injOn hy hx (by omega)
    rw [className, hfind, hyx]
    rfl

theorem mapM_className (hm : Numbers m 1 all) (hnd : all.Nodup) {l : List Str}
    (hl : ∀ x ∈ l, x ∈ all) : (l.map (number all)).mapM (className m) = some l := by
  rw [List.mapM_map, Loop.mapM_eq_some (f := className m ∘ number all) fun x hx ↦
    className_number hm hnd (hl x hx), List.map_id']

theorem mapM_decodeEdge (hm : Numbers m 1 all) (hnd : all.Nodup)
    {entries : List (Str × List CalledClass)} (hl : ∀ e ∈ entries, ∀ x ∈ entryNames e, x ∈ all) :
    (entries.map (entryPins all)).mapM (decodeEdge m) =
      some (entries.map fun e ↦ (e.1, e.2.map CalledClass.name)) := by
  rw [List.mapM_map]
  refine Loop.mapM_eq_some fun e he ↦ ?_
  show decodeEdge m (entryPins all e) = _
  rw [decodeEdge, entryPins, mapM_className hm hnd (hl e he)]
  rfl

end Decoding

/-- The arrays of `h`, read through the table `s.classtonum`, **are** the relation `r`. -/
structure Encodes (r : CalledRelation) (s : NumberingState) (h : CHypergraph) : Prop where
  /-- The classes of the relation are numbered by the vertices, one to one. -/
  bijOn : Set.BijOn (vertexNumber s.classtonum) {x | x ∈ classSeq r.entries} {k | k < h.nvtxs}
  eptr_zero : h.eptr 0 = 0
  nhedges_eq : h.nhedges = r.entries.length
  /-- The offsets end where the allocation of `eind` ends. -/
  eptr_last : h.eptr h.nhedges = s.eindLength
  /-- Edge `i` is entry `i`: the key, then its callers in list order. -/
  pins_decode : ∀ i (hi : i < r.entries.length),
    (h.pins i).mapM (className s.classtonum) = some (entryNames r.entries[i])
  two_le_length : ∀ i < h.nhedges, 2 ≤ (h.pins i).length
  wellFormed : h.WellFormed
  /-- Nothing of the keys and the caller lists is lost. -/
  decode_eq : decodeRelation s.classtonum h =
    some (r.entries.map fun e ↦ (e.1, e.2.map CalledClass.name))

theorem IsHypergraphOf.encodes {r : CalledRelation} {fathermap : OrdMap Str Str} {h : CHypergraph}
    (hh : IsHypergraphOf r fathermap h) (hr : r.Proper) :
    Encodes r (numberingPass r fathermap) h := by
  obtain ⟨hmet, -, -⟩ := numberingPass_spec r fathermap
  have hm : Numbers (numberingPass r fathermap).classtonum 1 (classOrder r) := hmet.table
  have hnames : ∀ e ∈ r.entries, ∀ x ∈ entryNames e, x ∈ classOrder r := fun e he x hx ↦
    mem_classOrder.2 (mem_classSeq_of_mem_entryNames he hx)
  have hnhedges : h.nhedges = r.entries.length :=
    hh.holdsRows.nhedges_eq.trans (List.length_map _)
  have hpins : ∀ i (hi : i < r.entries.length),
      h.pins i = entryPins (classOrder r) r.entries[i] := fun i hi ↦ by
    rw [hh.holdsRows.pins_eq (by rwa [List.length_map]), List.getElem_map]
  refine ⟨?_, (hh.wellFormed hr).eptr_zero, hnhedges, ?_, fun i hi ↦ ?_, fun i hi ↦ ?_,
    hh.wellFormed hr, ?_⟩
  · rw [hh.nvtxs_eq]
    refine Set.BijOn.congr ?_ fun x hx ↦ (vertexNumber_eq hm (mem_classOrder.2 hx)).symm
    have hset : {x | x ∈ classSeq r.entries} = {x | x ∈ classOrder r} :=
      Set.ext fun x ↦ mem_classOrder.symm
    rw [hset]
    exact bijOn_number (nodup_classOrder r)
  · have hlast := hh.holdsRows.offsets _ (Nat.lt_succ_self _)
    rw [List.take_length] at hlast
    rw [hh.holdsRows.nhedges_eq, hlast, hmet.eindLength_eq, classSeq, List.length_flatten,
      List.length_flatMap, List.map_map]
    exact congrArg List.sum (List.map_congr_left fun e _ ↦ List.length_map _)
  · rw [hpins i hi]
    exact mapM_className hm (nodup_classOrder r) (hnames _ (List.getElem_mem hi))
  · have hi' : i < r.entries.length := hnhedges ▸ hi
    have hpos := List.length_pos_iff_ne_nil.2 (hr _ (List.getElem_mem hi')).1
    rw [hpins i hi', entryPins, List.length_map, entryNames, List.length_cons, List.length_map]
    omega
  · rw [decodeRelation, hh.holdsRows.nhedges_eq]
    refine (congrArg (List.mapM _) (Csr.map_segment_range hh.holdsRows.offsets
      hh.holdsRows.cells)).trans ?_
    exact mapM_decodeEdge hm (nodup_classOrder r) hnames

/-- **The hypergraph of a proper relation encodes it**, whatever the base classes, the
configuration line and the memory it is built in. -/
theorem createHypergraph_encodes (r : CalledRelation) (hr : r.Proper)
    (fathermap : OrdMap Str Str) (strPara : Str) (raw : CHypergraph) :
    ∃ h, createHypergraph r fathermap strPara raw = some h ∧
      Encodes r (numberingPass r fathermap) h := by
  obtain ⟨h, hsome, hh⟩ := exists_createHypergraph r fathermap strPara raw
  exact ⟨h, hsome, hh.encodes hr⟩

/-- A relation in which `B` is first met as a caller and later as a key. -/
def sampleRelation : CalledRelation :=
  ((∅ : CalledRelation).insert "A".toList [{ name := "B".toList }, { name := "C".toList }]).insert
    "B".toList [{ name := "D".toList }]

theorem createHypergraph_encodes_sampleRelation :
    sampleRelation.Proper ∧
      ∃ h, createHypergraph sampleRelation ∅ [] default = some h ∧
        Encodes sampleRelation (numberingPass sampleRelation ∅) h := by
  have hproper : sampleRelation.Proper := by unfold CalledRelation.Proper; decide
  exact ⟨hproper, createHypergraph_encodes sampleRelation hproper ∅ [] default⟩

end CArchitecture
