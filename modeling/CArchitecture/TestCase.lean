import CArchitecture.DfsFolder
import CArchitecture.NamesFound
import CArchitecture.ReportedCut

/-!
# A test case, from the folder to the files

`CTestCaseCpp` takes a folder through three stages. `doReading` finds the files and takes them
apart, `doParsing` makes a relation of them, and of that a hypergraph which it cuts, and `doWriting`
writes down what came out, for other programs to read. The other files look into the stages one by
one. Here they follow each other, and what is said is about what is written.

* `runTestCase_agree`: **the five files agree**. Each of them can be read back, each but the last
  can be told from the one before it, and no two groups of `partition.txt` have more than one
  hyperedge of `hypergraph.hgr` in common.
* `isSome_runTestCase_iff`: **when the files are written at all**. All loops end, so this is a
  matter of the texts: every walk through one of them has to end before it does, the line of the
  menu must not have more words than there is room for, and the lines of `ans.txt` have to name
  three classes.
-/

namespace CArchitecture

open FirstSeen Text

/-! ### The stages -/

/-- What the constructor of a test case sets. -/
structure CTestCaseCpp where
  strPara : Str
  strTestPath : Str
  testcasename : Str
  cutnum : ℤ

/-- The constructor: the folder is the first word of the line, and the name of the test case is what
follows the last slash in it. -/
def newTestCase (strNameTest : Str) : CTestCaseCpp :=
  let strTestPath :=
    strNameTest.take ((CString.find " ".toList strNameTest 0).getD strNameTest.length)
  { strPara := strNameTest
    strTestPath := strTestPath
    testcasename := strTestPath.rtakeWhile (· ≠ '/')
    cutnum := 0 }

/-- What a test case finds in the memory that it does not initialise, in the clock and in the
draws. -/
structure Machine where
  /-- What is behind the buffer that a header, or a source file, is read into. -/
  behindH : Str → Str
  behindCpp : Str → Str
  raw : CHypergraph
  heap : Heap
  input : ℕ → CallInput
  /-- The times that were measured, together. -/
  allTime : ℕ

/-- `readallfile`. The buffer has no room for a final zero, so the text goes on behind it. -/
def readallfile (file behind : Str) : Str := (file ++ behind).takeWhile (· ≠ '\x00')

/-- The files of these names. -/
def filesNamed (disk behind : Str → Str) (names : List Str) : List FileText :=
  names.map fun name ↦ ⟨name, readallfile (disk name) (behind name)⟩

/-- One header, with all that is read of it. -/
def readHeaderFile (hmap : OrdMap Str HeaderFile) (f : FileText) :
    Option (OrdMap Str HeaderFile) := do
  let p ← readH f.content
  let headname ← headname f.fileName
  some (hmap.insert headname p)

/-- `doReading`. -/
def doReading (m : Machine) (folder : Folder) (disk : Str → Str) (t : CTestCaseCpp) :
    Option (OrdMap Str HeaderFile × List CReadCpp) := do
  let names ← dfsFolderPosix folder t.strTestPath {}
  let hmap ← (filesNamed disk m.behindH names.aryh_fileName).foldlM readHeaderFile ∅
  let head ← (filesNamed disk m.behindCpp names.arycpp_fileName).foldlM readSource []
  some (hmap, head)

/-- The base classes of one class. -/
def noteFather (fathermap : OrdMap Str Str) (e : Str × HeaderClass) : OrdMap Str Str :=
  if e.2.fatherclass ≠ [] then fathermap.insert e.1 e.2.fatherclass else fathermap

/-- The last loop of `doParsing`: the base classes of all classes, header by header. -/
def fathersOf (hmap : OrdMap Str HeaderFile) : OrdMap Str Str :=
  hmap.entries.foldl (fun fathermap h ↦ h.2.classdef.entries.foldl noteFather fathermap) ∅

/-- The files that `doWriting` writes to the folder of the test case, but for the times, and the
line that it appends to `recordsForExcel.txt`. -/
structure OutputFiles where
  ans : Str
  relation : Str
  hypergraph : Str
  vertice : Str
  partition : Str
  record : Str

/-- A number with its sign, as `"%d"` prints it. -/
def signedDecimal : ℤ → Str
  | .ofNat n => decimal n
  | .negSucc n => '-' :: decimal (n + 1)

/-- The line that is appended to `recordsForExcel.txt`. -/
def recordLine (testcasename : Str) (cutnum : ℤ) (allTime : ℕ) : Str :=
  testcasename ++ "\t".toList ++ signedDecimal cutnum ++ "\t".toList ++ "000000".toList ++
    "\t".toList ++ "000000".toList ++ "\t".toList ++ decimal allTime ++ "\n".toList

/-- What `doParsing` leaves for `doWriting`. -/
structure Modelled where
  lastans : Str
  pHyper : CHypergraph
  res : HmetisResult

/-- `doParsing` with its call of `doModeling`. The line is cut into words when the hypergraph is
made, and has to find room then. -/
def doModeling (fuel : ℕ) (m : Machine) (t : CTestCaseCpp)
    (files : OrdMap Str HeaderFile × List CReadCpp) : Option Modelled := do
  let s ← doParsing fuel (files.1.mapValues HeaderFile.toCReadH) files.2
  let pHyper ← (if LineFits t.strPara then
    createHypergraph s.calledrelation (fathersOf files.1) t.strPara m.raw else none)
  let res ← doHmetis fuel m.input m.heap pHyper t.cutnum
  some { lastans := s.lastans, pHyper := pHyper, res := res }

/-- `doWriting`, with all its files. -/
def writeFiles (fuel : ℕ) (m : Machine) (t : CTestCaseCpp) (x : Modelled) :
    Option OutputFiles := do
  let numbers ← doWriting x.res.mapForLastPart fuel x.pHyper.nvtxs x.res.part
  some
    { ans := x.lastans
      relation := x.pHyper.answerstring
      hypergraph := x.pHyper.hyperstring
      vertice := x.pHyper.verticestring
      partition := numbers.flatMap fun n ↦ decimal n ++ "\n".toList
      record := recordLine t.testcasename x.res.cutnum m.allTime }

/-- All stages of a test case, one after another. -/
def runTestCase (fuel : ℕ) (m : Machine) (folder : Folder) (disk : Str → Str)
    (strNameTest : Str) : Option OutputFiles := do
  let t := newTestCase strNameTest
  let files ← doReading m folder disk t
  let x ← doModeling fuel m t files
  writeFiles fuel m t x

/-! ### Reading the files -/

/-- The headers of a test case. -/
def headerFiles (m : Machine) (folder : Folder) (disk : Str → Str) (path : Str) : List FileText :=
  filesNamed disk m.behindH ((folder.files.filter (isHPosix ·.2)).map (posixPath path))

/-- The source files of a test case. -/
def sourceFiles (m : Machine) (folder : Folder) (disk : Str → Str) (path : Str) :
    List FileText :=
  filesNamed disk m.behindCpp ((folder.files.filter (isCppPosix ·.2)).map (posixPath path))

section Reading

variable {m : Machine} {folder : Folder} {disk : Str → Str} {t : CTestCaseCpp}

/-- What is left out of the headers later makes no difference to reading them. -/
theorem readHeader_mapValues (hmap : OrdMap Str HeaderFile) (f : FileText) :
    readHeader (hmap.mapValues HeaderFile.toCReadH) f =
      (readHeaderFile hmap f).map (·.mapValues HeaderFile.toCReadH) := by
  rw [readHeader, readHeaderFile]
  cases readH f.content with
  | none => rfl
  | some p =>
    cases headname f.fileName with
    | none => rfl
    | some k =>
      simp only [Option.bind_eq_bind, Option.bind_some, Option.map_some, Option.some.injEq]
      exact (OrdMap.mapValues_insert _ _ _ _).symm

theorem foldlM_readHeader_mapValues (l : List FileText) (hmap : OrdMap Str HeaderFile) :
    l.foldlM readHeader (hmap.mapValues HeaderFile.toCReadH) =
      (l.foldlM readHeaderFile hmap).map (·.mapValues HeaderFile.toCReadH) := by
  induction l generalizing hmap with
  | nil => rfl
  | cons f l ih =>
    rw [List.foldlM_cons, List.foldlM_cons, readHeader_mapValues]
    cases readHeaderFile hmap f with
    | none => rfl
    | some hmap' => exact ih hmap'

/-- **What `doReading` does**, if all paths fit into the buffer. -/
theorem doReading_eq (hfits : folder.Fits t.strTestPath) :
    doReading m folder disk t =
      ((headerFiles m folder disk t.strTestPath).foldlM readHeaderFile ∅).bind fun hmap ↦
        ((sourceFiles m folder disk t.strTestPath).foldlM readSource []).map fun head ↦
          (hmap, head) := by
  rw [doReading, dfsFolderPosix_eq _ _ _ hfits]
  simp only [Option.bind_eq_bind, Option.bind_some, FileNames.add, List.nil_append, headerFiles,
    sourceFiles, Option.map_eq_bind, Function.comp_def]

theorem doReading_eq_none (hfits : ¬ folder.Fits t.strTestPath) :
    doReading m folder disk t = none := by
  rw [doReading, dfsFolderPosix_eq_none _ _ _ hfits]
  rfl

theorem readEachfile_of_doReading {hmap : OrdMap Str HeaderFile} {head : List CReadCpp}
    (h : doReading m folder disk t = some (hmap, head)) :
    readEachfile (headerFiles m folder disk t.strTestPath)
        (sourceFiles m folder disk t.strTestPath) =
      some (hmap.mapValues HeaderFile.toCReadH, head) := by
  have hfits : folder.Fits t.strTestPath := by
    by_contra hno
    rw [doReading_eq_none hno] at h
    exact absurd h (by simp)
  rw [doReading_eq hfits] at h
  obtain ⟨hmap', hh, hrest⟩ := Option.bind_eq_some_iff.1 h
  obtain ⟨head', hc, heq⟩ := Option.map_eq_some_iff.1 hrest
  obtain ⟨rfl, rfl⟩ := Prod.mk.inj heq
  have hmapped := foldlM_readHeader_mapValues (headerFiles m folder disk t.strTestPath) ∅
  rw [hh, Option.map_some] at hmapped
  rw [readEachfile, show (∅ : OrdMap Str CReadH) = (∅ : OrdMap Str HeaderFile).mapValues _ from rfl,
    hmapped, hc]
  rfl

/-- Every path that is collected has a slash before the name. -/
theorem isSome_headname_posixPath (path : Str) (x : List Str × Str) :
    (headname (posixPath path x)).isSome := by
  have hslash : ∃ c ∈ (posixPath path x).take (posixPath path x).length, decide (c ≠ '/') = false :=
    ⟨'/', by rw [List.take_length, posixPath]; simp, by simp⟩
  obtain ⟨k, hk⟩ := Option.isSome_iff_exists.1 ((CString.isSome_back_iff le_rfl).2 hslash)
  rw [headname, hk]
  rfl

/-- **When `doReading` returns**: all paths fit, and all files are taken apart. -/
theorem isSome_doReading_iff :
    (doReading m folder disk t).isSome ↔ folder.Fits t.strTestPath ∧
      (∀ f ∈ headerFiles m folder disk t.strTestPath, (readH f.content).isSome) ∧
      ∀ f ∈ sourceFiles m folder disk t.strTestPath, (readCpp f.content).isSome := by
  by_cases hfits : folder.Fits t.strTestPath
  · have hheaders : ((headerFiles m folder disk t.strTestPath).foldlM readHeaderFile ∅).isSome ↔
        ∀ f ∈ headerFiles m folder disk t.strTestPath, (readH f.content).isSome := by
      refine Loop.isSome_foldlM_iff (fun hmap f hf ↦ ?_) _
      obtain ⟨name, hname, rfl⟩ := List.mem_map.1 hf
      obtain ⟨x, -, rfl⟩ := List.mem_map.1 hname
      obtain ⟨k, hk⟩ := Option.isSome_iff_exists.1
        (isSome_headname_posixPath t.strTestPath x)
      rw [readHeaderFile, hk]
      cases readH _ <;> rfl
    have hsources : ((sourceFiles m folder disk t.strTestPath).foldlM readSource []).isSome ↔
        ∀ f ∈ sourceFiles m folder disk t.strTestPath, (readCpp f.content).isSome :=
      Loop.isSome_foldlM_iff (fun head f _ ↦ by rw [readSource]; cases readCpp f.content <;> rfl) _
    rw [doReading_eq hfits, ← hheaders, ← hsources]
    cases (headerFiles m folder disk t.strTestPath).foldlM readHeaderFile ∅ with
    | none => simp
    | some hmap => simp [hfits]
  · rw [doReading_eq_none hfits]
    simp [hfits]

end Reading

/-! ### What the files say -/

/-- Read `partition.txt`. -/
def readPartition (text : Str) : Option (List ℕ) := (fields '\n' text).mapM readNat

/-- The files of a test case, read back. -/
structure FilesRead where
  /-- `ans.txt`: a class, and the class that it calls, call by call. -/
  lines : List (Str × Str)
  /-- `relation.txt`: the classes that are called, each with its callers. -/
  callers : List (Str × List Str)
  hypergraph : HgrFile
  /-- `vertice.txt`: the classes, some with their base classes. -/
  vertices : List (Str × Option Str)
  /-- `partition.txt`: the group of each vertex. -/
  numbers : List ℕ

/-- Read the files. -/
def OutputFiles.read (out : OutputFiles) : Option FilesRead := do
  let lines ← readAns out.ans
  let callers ← readRelation out.relation
  let hypergraph ← readHgr out.hypergraph
  let vertices ← readVertice out.vertice
  let numbers ← readPartition out.partition
  some ⟨lines, callers, hypergraph, vertices, numbers⟩

/-- The hyperedges that two groups have in common. -/
def FilesRead.common (r : FilesRead) (a b : ℕ) : List (List ℕ) :=
  r.hypergraph.rows.filter fun row ↦
    (∃ k ∈ row, r.numbers[k - 1]? = some a) ∧ ∃ k ∈ row, r.numbers[k - 1]? = some b

/-- The files agree: each but the last can be told from the one before it. -/
structure FilesRead.Agree (r : FilesRead) : Prop where
  /-- A class is in `relation.txt` if another one calls it, with its callers as they come in
  `ans.txt`. -/
  mem_callers_iff : ∀ T callers,
    (T, callers) ∈ r.callers ↔ callers ≠ [] ∧ callers = callersIn r.lines T
  sorted : r.callers.Pairwise fun e e' ↦ e.1 < e'.1
  /-- The classes are numbered as they come in `relation.txt`. -/
  names_eq : r.vertices.map Prod.fst = scan [] (r.callers.flatMap fun e ↦ e.1 :: e.2)
  /-- A hyperedge for each called class. -/
  rows_eq : r.hypergraph.namedRows r.vertices = some (r.callers.map fun e ↦ e.1 :: e.2)
  nvtxs_eq : r.hypergraph.nvtxs = r.vertices.length
  /-- A group for each vertex, and groups are numbered as they come. -/
  length_numbers : r.numbers.length = r.hypergraph.nvtxs
  restrictedGrowth : RestrictedGrowth r.numbers
  /-- **Groups have little in common.** -/
  length_common_le : ∀ a b, a ≠ b → (r.common a b).length ≤ 1

/-! ### The groups -/

section Groups

variable {p : CHypergraph} {part : ℕ → ℤ} {partnum : ℕ} {map : OrdMap ℤ ℤ}

/-- The hyperedges with pins in both of two groups. -/
def commonEdges (p : CHypergraph) (numbers : List ℕ) (a b : ℕ) : List ℕ :=
  (List.range p.nhedges).filter fun e ↦
    (∃ v ∈ p.pins e, numbers[v]? = some a) ∧ ∃ v ∈ p.pins e, numbers[v]? = some b

/-- **In a valid grouping** two groups have at most one of them. -/
theorem length_commonEdges_le (hlt : ∀ e < p.nhedges, ∀ v ∈ p.pins e, v < p.nvtxs)
    (hpart : ∀ v < p.nvtxs, 0 ≤ part v ∧ part v < partnum)
    (hvalid : Coarsening.Valid (touches p part) (Finset.range p.nhedges) (groups partnum map))
    {a b : ℕ} (hab : a ≠ b) :
    (commonEdges p (numbering ((List.range p.nvtxs).map fun v ↦ repOf map (part v))) a b).length
      ≤ 1 := by
  classical
  set numbers := numbering ((List.range p.nvtxs).map fun v ↦ repOf map (part v)) with hdef
  have hnumbers : ∀ u < p.nvtxs, ∀ v < p.nvtxs,
      numbers[u]? = numbers[v]? ↔ repOf map (part u) = repOf map (part v) := by
    intro u hu v hv
    rw [hdef, numbering_getElem?_eq_iff (by simpa using hu) (by simpa using hv)]
    simp
  have hcast : ∀ v < p.nvtxs, ∃ i : Fin partnum, part v = i := by
    intro v hv
    obtain ⟨h0, hn⟩ := hpart v hv
    exact ⟨⟨(part v).toNat, by omega⟩, (Int.toNat_of_nonneg h0).symm⟩
  rcases (commonEdges p numbers a b).eq_nil_or_concat with hnil | ⟨front, e, hcommon⟩
  · simp [hnil]
  -- the groups are those of two parts, which have different representatives
  have hmem : e ∈ commonEdges p numbers a b := by simp [hcommon]
  obtain ⟨he, hpins⟩ := List.mem_filter.1 hmem
  obtain ⟨⟨u, hu, hua⟩, v, hv, hvb⟩ := of_decide_eq_true hpins
  have hlte := hlt e (List.mem_range.1 he)
  obtain ⟨i, hi⟩ := hcast u (hlte u hu)
  obtain ⟨j, hj⟩ := hcast v (hlte v hv)
  have hij : ¬ groups partnum map i j := by
    rw [groups_iff, ← hi, ← hj, ← hnumbers u (hlte u hu) v (hlte v hv), hua, hvb]
    simpa using hab
  -- a hyperedge with pins in both groups meets the groups of both parts
  have hmeets : ∀ e' < p.nhedges, ∀ w ∈ p.pins e', ∀ x < p.nvtxs, ∀ k : Fin partnum,
      part x = k → numbers[w]? = numbers[x]? →
      Coarsening.Meets (touches p part) (groups partnum map) e' k := by
    intro e' he' w hw x hx k hk hwx
    obtain ⟨l, hl⟩ := hcast w (hlt e' he' w hw)
    refine ⟨l, groups_iff.2 ?_, w, hw, hl⟩
    rw [← hk, ← hl]
    exact ((hnumbers w (hlt e' he' w hw) x hx).1 hwx).symm
  have hle := hvalid i j hij
  rw [Coarsening.shared] at hle
  have hnodup : (commonEdges p numbers a b).Nodup := List.nodup_range.filter _
  rw [← List.toFinset_card_of_nodup hnodup]
  refine le_trans (Finset.card_le_card fun e' he' ↦ ?_) hle
  obtain ⟨hrange, hpins'⟩ := List.mem_filter.1 (List.mem_toFinset.1 he')
  obtain ⟨⟨w, hw, hwa⟩, x, hx, hxb⟩ := of_decide_eq_true hpins'
  have he'lt := List.mem_range.1 hrange
  exact Finset.mem_filter.2 ⟨Finset.mem_range.2 he'lt,
    hmeets e' he'lt w hw u (hlte u hu) i hi (hwa.trans hua.symm),
    hmeets e' he'lt x hx v (hlte v hv) j hj (hxb.trans hvb.symm)⟩

/-- **Cutting and writing**, for a relation with three classes or more: both return, and what is
written is as it should be. -/
theorem IsHypergraphOf.exists_doWriting {r : CalledRelation} {fathermap : OrdMap Str Str}
    {pHyper : CHypergraph} (hh : IsHypergraphOf r fathermap pHyper) (hr : r.Proper)
    (memory : Heap) (input : ℕ → CallInput) (cutnum : ℤ) :
    ∃ fuel₀, ∀ fuel > fuel₀,
      (¬ 3 ≤ pHyper.nvtxs → doHmetis fuel input memory pHyper cutnum = none) ∧
      (3 ≤ pHyper.nvtxs → ∃ res numbers, doHmetis fuel input memory pHyper cutnum = some res ∧
        doWriting res.mapForLastPart fuel pHyper.nvtxs res.part = some numbers ∧
        numbers.length = pHyper.nvtxs ∧ RestrictedGrowth numbers ∧
        ∀ a b, a ≠ b → (commonEdges pHyper numbers a b).length ≤ 1) := by
  obtain ⟨s, fuel₀, -, hres⟩ := hh.exists_doHmetis hr memory input cutnum
  refine ⟨fuel₀, fun fuel hfuel ↦ ?_⟩
  obtain ⟨partnum, part, map, -, hdo, hpart, hle, hdesc, hleast⟩ := hres fuel hfuel
  refine ⟨fun hno ↦ hdo.trans (if_neg hno), fun h3 ↦ ⟨_, _, hdo.trans (if_pos h3), ?_, ?_, ?_,
    fun a b ↦ length_commonEdges_le (hh.wellFormed hr).pins_lt hpart hleast.1⟩⟩
  · exact hdesc.doWriting_eq hpart hle
  · rw [length_numbering]
    simp
  · exact restrictedGrowth_numbering _

end Groups

/-! ### From the folder to the files -/

/-- The tables that the symbols are looked up in. -/
def parsedTables (hmap : OrdMap Str CReadH) (head : List CReadCpp) : SymbolTables :=
  ⟨hmap, typeDefs hmap head, head.map CReadCpp.withParameters⟩

/-- No walk through a method, or through a text that a type is looked for in, leaves it. -/
structure SymbolsOk (hmap : OrdMap Str CReadH) (head : List CReadCpp) : Prop where
  arrows : ∀ p ∈ head, ∀ q ∈ p.methods, ArrowsOk q.body
  symbols : ∀ call ∈ parsingCalls (head.map CReadCpp.withParameters), ∀ pos,
    call.symbol <+: call.methodbody.drop pos → SymbolOk (parsedTables hmap head) call pos

/-- The lines of `ans.txt`, told from the headers and the source files. -/
def foundLines (hmap : OrdMap Str CReadH) (head : List CReadCpp) : List (Str × Str) :=
  (parsingCalls (head.map CReadCpp.withParameters)).flatMap
    (callLines (parsedTables hmap head))

/-- The classes that have to do with another one, according to the lines. -/
def classesIn (lines : List (Str × Str)) : List Str :=
  ((lines.filter fun line ↦ line.1 ≠ line.2).flatMap fun line ↦ [line.2, line.1]).dedup

/-- What the line and the files of a test case have to be like. -/
structure TestCaseOk (m : Machine) (folder : Folder) (disk : Str → Str) (t : CTestCaseCpp) :
    Prop where
  line : LineFits t.strPara
  fits : folder.Fits t.strTestPath
  /-- No class is cut off, and the includes before the first one are closed. -/
  headers : ∀ f ∈ headerFiles m folder disk t.strTestPath,
    (∀ pos, classText <+: f.content.drop pos → ClassComplete f.content pos) ∧
      IncludesClosed (f.content.take ((firstClass f.content).elim 0 (· + 1)))
  /-- Every definition can be taken up, and the includes before the end of the first one are
  closed. -/
  sources : ∀ f ∈ sourceFiles m folder disk t.strTestPath,
    (∀ pos ∈ visits f.content, CanVisit f.content pos) ∧ headfilesRead f.content
  symbols : ∀ hmap head, readEachfile (headerFiles m folder disk t.strTestPath)
    (sourceFiles m folder disk t.strTestPath) = some (hmap, head) → SymbolsOk hmap head
  /-- Three classes have to do with another one. -/
  classes : ∀ hmap head, readEachfile (headerFiles m folder disk t.strTestPath)
    (sourceFiles m folder disk t.strTestPath) = some (hmap, head) →
      3 ≤ (classesIn (foundLines hmap head)).length

section Parsing

variable {hmap : OrdMap Str CReadH} {head : List CReadCpp} {fuel fuel' : ℕ}

theorem doParsing_mono (hle : fuel ≤ fuel') {s : RelationState}
    (h : doParsing fuel hmap head = some s) : doParsing fuel' hmap head = some s := by
  rw [doParsing] at h ⊢
  obtain ⟨head', hhead', h⟩ := Option.bind_eq_some_iff.1 h
  rw [hhead']
  exact Loop.foldlM_mono (fun _ _ _ _ hcall ↦ findsymbol_mono hle hcall) h

/-- **When the parsing returns**, with its two passes over the methods apart. -/
theorem isSome_doParsing (hfuel : parsingFuel hmap head ≤ fuel) :
    (doParsing fuel hmap head).isSome ↔ SymbolsOk hmap head := by
  rw [doParsing]
  by_cases harrows : ∀ p ∈ head, ∀ q ∈ p.methods, ArrowsOk q.body
  · rw [mapM_initCalledParameters harrows, Option.bind_eq_bind, Option.bind_some]
    exact (isSome_findsymbols_iff (searched_of_mem_parsingCalls hfuel _ rfl) fun T ↦ by simp).trans
      ⟨fun h ↦ ⟨harrows, h⟩, SymbolsOk.symbols⟩
  · rw [mapM_initCalledParameters_eq_none harrows]
    exact iff_of_false (by simp) fun h ↦ harrows h.arrows

/-- The classes of the relation are those that the lines tell. -/
theorem Summarises.length_classOrder {s : RelationState} (h : Summarises s)
    (hr : s.calledrelation.Proper) :
    (classOrder s.calledrelation).length = (classesIn s.lines).length := by
  refine ((List.perm_ext_iff_of_nodup (nodup_classOrder _) (List.nodup_dedup _)).2
    fun x ↦ ?_).length_eq
  have hentries : x ∈ classSeq s.calledrelation.entries ↔
      ∃ T callers, (T, callers) ∈ callersOf s.calledrelation ∧ (x = T ∨ x ∈ callers) := by
    constructor
    · intro hx
      obtain ⟨e, he, hx⟩ := List.mem_flatMap.1 hx
      exact ⟨e.1, _, List.mem_map.2 ⟨e, he, rfl⟩, List.mem_cons.1 hx⟩
    · rintro ⟨T, callers, hmem, hx⟩
      obtain ⟨e, he, heq⟩ := List.mem_map.1 hmem
      obtain ⟨rfl, rfl⟩ := Prod.ext_iff.1 heq
      exact List.mem_flatMap.2 ⟨e, he, List.mem_cons.2 hx⟩
  rw [mem_classOrder, hentries, List.mem_dedup, List.mem_flatMap]
  constructor
  · rintro ⟨T, callers, hmem, hx⟩
    obtain ⟨hne, hcallers⟩ := (h.mem_callersOf_iff hr).1 hmem
    obtain ⟨X, hX, hxX⟩ : ∃ X ∈ callers, x = T ∨ x = X := by
      rcases hx with rfl | hx
      · obtain ⟨X, hX⟩ := List.exists_mem_of_ne_nil _ hne
        exact ⟨X, hX, Or.inl rfl⟩
      · exact ⟨x, hx, Or.inr rfl⟩
    obtain ⟨hline, hXT⟩ := mem_callersIn.1 (hcallers ▸ hX)
    exact ⟨(X, T), List.mem_filter.2 ⟨hline, decide_eq_true hXT⟩, by simpa using hxX⟩
  · rintro ⟨⟨X, T⟩, hline, hx⟩
    obtain ⟨hline, hXT⟩ := List.mem_filter.1 hline
    have hcaller : X ∈ callersIn s.lines T := mem_callersIn.2 ⟨hline, of_decide_eq_true hXT⟩
    refine ⟨T, _, (h.mem_callersOf_iff hr).2 ⟨List.ne_nil_of_mem hcaller, rfl⟩, ?_⟩
    rcases List.mem_cons.1 hx with rfl | hx
    · exact Or.inl rfl
    · exact Or.inr (List.mem_singleton.1 hx ▸ hcaller)

end Parsing

/-! ### More fuel -/

section Fuel

variable {fuel fuel' : ℕ}

theorem writeLeaf_mono (hle : fuel ≤ fuel') {heap : Heap} {a parts : ℕ} {part part' : ℕ → ℤ}
    (h : writeLeaf heap fuel a parts part = some part') :
    writeLeaf heap fuel' a parts part = some part' := by
  refine Loop.foldlM_mono (fun part v _ part' hstep ↦ ?_) h
  obtain ⟨x, hx, rfl⟩ := Option.map_eq_some_iff.1 hstep
  rw [toRoot_mono hle hx]
  rfl

theorem dfsForWriteParts_mono (hle : fuel ≤ fuel') {heap : Heap} {n n' : ℕ} (hn : n ≤ n')
    {G : Option ℕ} {parts : ℕ} {part : ℕ → ℤ} {res : ℕ × (ℕ → ℤ)}
    (h : dfsForWriteParts heap fuel n G parts part = some res) :
    dfsForWriteParts heap fuel' n' G parts part = some res := by
  induction n generalizing n' G parts part res with
  | zero => rw [dfsForWriteParts] at h; exact absurd h (by simp)
  | succ n ih =>
    obtain ⟨n', rfl⟩ := Nat.exists_eq_add_of_lt hn
    have hn : n ≤ n + n' := by omega
    cases G with
    | none => exact h
    | some a =>
      have hsons : ∀ p q : Option ℕ,
          ((dfsForWriteParts heap fuel n p parts part).bind fun x ↦
            (dfsForWriteParts heap fuel n q (parts + x.1) x.2).bind fun y ↦
              some (x.1 + y.1, y.2)) = some res →
          ((dfsForWriteParts heap fuel' (n + n') p parts part).bind fun x ↦
            (dfsForWriteParts heap fuel' (n + n') q (parts + x.1) x.2).bind fun y ↦
              some (x.1 + y.1, y.2)) = some res := by
        intro p q h
        obtain ⟨x, hx, h⟩ := Option.bind_eq_some_iff.1 h
        obtain ⟨y, hy, h⟩ := Option.bind_eq_some_iff.1 h
        rw [ih hn hx, Option.bind_some, ih hn hy]
        exact h
      rw [dfsForWriteParts] at h ⊢
      cases hp : (heap a).leftSon with
      | some b => rw [hp] at h; exact hsons _ _ h
      | none =>
        cases hq : (heap a).rightSon with
        | some c => rw [hp, hq] at h; exact hsons _ _ h
        | none =>
          rw [hp, hq] at h
          obtain ⟨part', hpart', rfl⟩ := Option.map_eq_some_iff.1 h
          show (writeLeaf heap fuel' a parts part).map _ = _
          rw [writeLeaf_mono hle hpart']
          rfl

theorem countEdge_mono (hle : fuel ≤ fuel') {map : OrdMap ℤ ℤ} {part : ℕ → ℤ} {arcs : List ℕ}
    {E E' : ℤ → ℤ → ℕ} (h : countEdge map fuel part arcs E = some E') :
    countEdge map fuel' part arcs E = some E' := by
  rw [countEdge] at h ⊢
  obtain ⟨parts, hparts, h⟩ := Option.bind_eq_some_iff.1 h
  rw [Loop.mapM_mono (fun v _ q hq ↦ lastPart_mono hle hq) hparts]
  exact h

theorem mergeLoop_mono (hle : fuel ≤ fuel') {g : CMygraph} {part : ℕ → ℤ} {partnum : ℕ}
    {map res : OrdMap ℤ ℤ} (h : mergeLoop fuel fuel g part partnum map = some res) :
    mergeLoop fuel' fuel' g part partnum map = some res := by
  have hcount : ∀ map E, countEdges map fuel g part = some E →
      countEdges map fuel' g part = some E := fun map E hE ↦
    Loop.foldlM_mono (fun _ _ _ _ hstep ↦ countEdge_mono hle hstep) hE
  have hstep : ∀ map, (∃ E, countEdges map fuel g part = some E) →
      mergeStep fuel' g part partnum map = mergeStep fuel g part partnum map := by
    rintro map ⟨E, hE⟩
    rw [mergeStep, mergeStep, hE, hcount map E hE]
  refine Loop.join_run_mono (fun map next hnext ↦ ?_) (fun map b hb ↦ ?_) hle h
  · cases hE : countEdges map fuel g part with
    | none => rw [mergeStep, hE] at hnext; exact absurd hnext (by simp)
    | some E => rw [hstep map ⟨E, hE⟩]; exact hnext
  · cases hE : countEdges map fuel g part with
    | none => rw [mergeStep, hE] at hb; exact absurd hb (by simp)
    | some E => rw [hstep map ⟨E, hE⟩]; exact hb

theorem doHmetis_mono (hle : fuel ≤ fuel') {input : ℕ → CallInput} {memory : Heap}
    {pHyper : CHypergraph} {cutnum : ℤ} {res : HmetisResult}
    (h : doHmetis fuel input memory pHyper cutnum = some res) :
    doHmetis fuel' input memory pHyper cutnum = some res := by
  rw [doHmetis] at h ⊢
  obtain ⟨⟨s, cutnum⟩, hrun, h⟩ := Option.bind_eq_some_iff.1 h
  obtain ⟨g, hg, h⟩ := Option.bind_eq_some_iff.1 h
  obtain ⟨⟨part, map⟩, hmerge, h⟩ := Option.bind_eq_some_iff.1 h
  rw [mergeParts] at hmerge
  obtain ⟨⟨partnum, part'⟩, hdfs, hmerge⟩ := Option.bind_eq_some_iff.1 hmerge
  obtain ⟨map', hloop, hmerge⟩ := Option.bind_eq_some_iff.1 hmerge
  simp only [Loop.run_mono hle hrun, hg, mergeParts, dfsForWriteParts_mono hle hle hdfs,
    mergeLoop_mono hle hloop, Option.bind_eq_bind, Option.bind_some]
  rw [hmerge]
  exact h

theorem doWriting_mono (hle : fuel ≤ fuel') {map : OrdMap ℤ ℤ} {nvtxs : ℕ} {part : ℕ → ℤ}
    {numbers : List ℕ} (h : doWriting map fuel nvtxs part = some numbers) :
    doWriting map fuel' nvtxs part = some numbers := by
  rw [doWriting] at h ⊢
  obtain ⟨s, hs, rfl⟩ := Option.map_eq_some_iff.1 h
  rw [Loop.foldlM_mono (fun s v _ s' hstep ↦ ?_) hs]
  · rfl
  · rw [writePart] at hstep ⊢
    obtain ⟨q, hq, hstep⟩ := Option.bind_eq_some_iff.1 hstep
    rw [lastPart_mono hle hq]
    exact hstep

theorem doModeling_mono (hle : fuel ≤ fuel') {m : Machine} {t : CTestCaseCpp}
    {files : OrdMap Str HeaderFile × List CReadCpp} {x : Modelled}
    (h : doModeling fuel m t files = some x) : doModeling fuel' m t files = some x := by
  rw [doModeling] at h ⊢
  obtain ⟨s, hparse, h⟩ := Option.bind_eq_some_iff.1 h
  obtain ⟨pHyper, hsome, h⟩ := Option.bind_eq_some_iff.1 h
  obtain ⟨res, hres, h⟩ := Option.bind_eq_some_iff.1 h
  simp only [doParsing_mono hle hparse, hsome, doHmetis_mono hle hres, Option.bind_eq_bind,
    Option.bind_some]
  exact h

theorem writeFiles_mono (hle : fuel ≤ fuel') {m : Machine} {t : CTestCaseCpp} {x : Modelled}
    {out : OutputFiles} (h : writeFiles fuel m t x = some out) :
    writeFiles fuel' m t x = some out := by
  rw [writeFiles] at h ⊢
  obtain ⟨numbers, hnumbers, h⟩ := Option.bind_eq_some_iff.1 h
  rw [doWriting_mono hle hnumbers]
  exact h

/-- **A run that has returned returns the same with more fuel.** -/
theorem runTestCase_mono (hle : fuel ≤ fuel') {m : Machine} {folder : Folder} {disk : Str → Str}
    {strNameTest : Str} {out : OutputFiles}
    (h : runTestCase fuel m folder disk strNameTest = some out) :
    runTestCase fuel' m folder disk strNameTest = some out := by
  rw [runTestCase] at h ⊢
  obtain ⟨files, hread, h⟩ := Option.bind_eq_some_iff.1 h
  obtain ⟨x, hx, h⟩ := Option.bind_eq_some_iff.1 h
  simp only [hread, doModeling_mono hle hx, Option.bind_eq_bind, Option.bind_some]
  exact writeFiles_mono hle h

end Fuel

/-! ### The files agree -/

section Agree

variable {r : CalledRelation} {fathermap : OrdMap Str Str} {pHyper : CHypergraph}

/-- **The base classes** are told in one line each. -/
theorem oneLine_fathersOf {hmap : OrdMap Str HeaderFile}
    (h : ∀ e ∈ hmap.entries, e.2.Named) : OneLine (fathersOf hmap) := by
  have hnote : ∀ {fathermap : OrdMap Str Str} {e : Str × HeaderClass}, OneLine fathermap →
      '\n' ∉ e.2.fatherclass → OneLine (noteFather fathermap e) := by
    intro fathermap e hfathers he x father hx
    rw [noteFather] at hx
    split_ifs at hx
    · rw [OrdMap.find?_insert] at hx
      split_ifs at hx with hxe
      · cases hfind : fathermap.find? e.1 with
        | none => rw [hfind] at hx; exact Option.some.inj hx ▸ he
        | some f => rw [hfind] at hx; exact hfathers e.1 father (hfind.trans hx)
      · exact hfathers x father hx
    · exact hfathers x father hx
  have hclasses : ∀ (l : List (Str × HeaderClass)) (fathermap : OrdMap Str Str),
      OneLine fathermap → (∀ e ∈ l, '\n' ∉ e.2.fatherclass) →
      OneLine (l.foldl noteFather fathermap) := by
    intro l
    induction l with
    | nil => exact fun fathermap hfathers _ ↦ hfathers
    | cons e l ih =>
      exact fun fathermap hfathers hl ↦ ih _ (hnote hfathers (hl e List.mem_cons_self))
        fun e he ↦ hl e (List.mem_cons_of_mem _ he)
  have hheaders : ∀ (l : List (Str × HeaderFile)) (fathermap : OrdMap Str Str),
      OneLine fathermap → (∀ e ∈ l, e.2.Named) →
      OneLine (l.foldl (fun fathermap h ↦ h.2.classdef.entries.foldl noteFather fathermap)
        fathermap) := by
    intro l
    induction l with
    | nil => exact fun fathermap hfathers _ ↦ hfathers
    | cons e l ih =>
      exact fun fathermap hfathers hl ↦
        ih _ (hclasses _ _ hfathers (hl e List.mem_cons_self).father)
          fun e he ↦ hl e (List.mem_cons_of_mem _ he)
  exact hheaders _ _ (fun x father hx ↦ by simp at hx) h

/-- The headers that are kept have been read. -/
theorem named_of_doReading {m : Machine} {folder : Folder} {disk : Str → Str} {t : CTestCaseCpp}
    {hmap : OrdMap Str HeaderFile} {head : List CReadCpp}
    (h : doReading m folder disk t = some (hmap, head)) : ∀ e ∈ hmap.entries, e.2.Named := by
  rw [doReading] at h
  obtain ⟨names, -, h⟩ := Option.bind_eq_some_iff.1 h
  obtain ⟨hmap', hread, h⟩ := Option.bind_eq_some_iff.1 h
  obtain ⟨head', -, h⟩ := Option.bind_eq_some_iff.1 h
  obtain ⟨rfl, rfl⟩ := Prod.mk.inj (Option.some.inj h)
  refine Loop.foldlM_invariant (fun hmap : OrdMap Str HeaderFile ↦ ∀ e ∈ hmap.entries, e.2.Named)
    (fun hmap f _ hmap' hnamed hround e he ↦ ?_) (by simp) hread
  obtain ⟨p, hp, hround⟩ := Option.bind_eq_some_iff.1 hround
  obtain ⟨k, -, hround⟩ := Option.bind_eq_some_iff.1 hround
  obtain rfl := Option.some.inj hround
  rcases OrdMap.mem_insertIn he with rfl | he
  · exact named_readH hp
  · exact hnamed e he

/-- The rows of the text are the pins, counted from one. -/
theorem IsHypergraphOf.rows_eq (hh : IsHypergraphOf r fathermap pHyper) :
    (fileOf r).rows = (List.range pHyper.nhedges).map fun e ↦ (pHyper.pins e).map (· + 1) := by
  have hlen := hh.holdsRows.nhedges_eq
  rw [List.length_map] at hlen
  refine List.ext_getElem (by simp [fileOf, hlen]) fun e he _ ↦ ?_
  have he' : e < (r.entries.map (entryPins (classOrder r))).length := by simpa [fileOf] using he
  simp only [fileOf, List.getElem_map, List.getElem_range, hh.holdsRows.pins_eq he']
  rfl

/-- Common hyperedges are common rows. -/
theorem IsHypergraphOf.length_common (hh : IsHypergraphOf r fathermap pHyper) (files : FilesRead)
    (hfile : files.hypergraph = fileOf r) (a b : ℕ) :
    (files.common a b).length = (commonEdges pHyper files.numbers a b).length := by
  rw [FilesRead.common, hfile, hh.rows_eq, List.filter_map, List.length_map, commonEdges]
  congr 2
  funext e
  simp

theorem readPartition_flatMap (numbers : List ℕ) :
    readPartition (numbers.flatMap fun n ↦ decimal n ++ "\n".toList) = some numbers := by
  have hlines : (numbers.flatMap fun n ↦ decimal n ++ "\n".toList) =
      (numbers.map decimal).flatMap (· ++ ['\n']) := by
    rw [List.flatMap_map]
    rfl
  rw [readPartition, hlines, fields_flatMap, mapM_readNat_decimal]
  · rintro l hl
    obtain ⟨n, -, rfl⟩ := List.mem_map.1 hl
    exact notMem_decimal (by decide) n
  · rintro l hl
    obtain ⟨n, -, rfl⟩ := List.mem_map.1 hl
    exact decimal_ne_nil n

/-- The files of a run, if its calls have left `s` and its headers these base classes. -/
structure FilesRead.ComeFrom (files : FilesRead) (s : RelationState) (fathermap : OrdMap Str Str) :
    Prop where
  lines_eq : files.lines = s.lines
  callers_eq : files.callers = callersOf s.calledrelation
  vertices_eq : files.vertices = verticesOf s.calledrelation fathermap
  agree : files.Agree

/-- **What the last stages write agrees**, whatever they are handed. -/
theorem IsHypergraphOf.exists_read {s : RelationState} {tables : SymbolTables}
    (hs : Agrees tables s) (hsum : Summarises s)
    (hnames : ∀ line ∈ s.lines, IsName line.1 ∧ IsName line.2 ∧ line.2 ≠ [])
    (hfathers : OneLine fathermap) {strPara : Str} {raw : CHypergraph}
    (hsome : createHypergraph s.calledrelation fathermap strPara raw = some pHyper)
    (hh : IsHypergraphOf s.calledrelation fathermap pHyper) {numbers : List ℕ}
    (hlength : numbers.length = pHyper.nvtxs) (hgrowth : RestrictedGrowth numbers)
    (hcommon : ∀ a b, a ≠ b → (commonEdges pHyper numbers a b).length ≤ 1) (record : Str) :
    ∃ files, OutputFiles.read
        { ans := s.lastans
          relation := pHyper.answerstring
          hypergraph := pHyper.hyperstring
          vertice := pHyper.verticestring
          partition := numbers.flatMap fun n ↦ decimal n ++ "\n".toList
          record := record } = some files ∧ files.ComeFrom s fathermap := by
  have hr := hsum.named hs.proper hnames
  obtain ⟨hvertice, hrelation⟩ := texts_of_createHypergraph hsome
  have hvertices : (verticesOf s.calledrelation fathermap).map Prod.fst =
      classOrder s.calledrelation := by
    rw [verticesOf, List.map_map]
    exact List.map_id _
  refine ⟨⟨s.lines, callersOf s.calledrelation, fileOf s.calledrelation,
    verticesOf s.calledrelation fathermap, numbers⟩, ?_, rfl, rfl, rfl, ?_⟩
  · simp only [OutputFiles.read, hvertice, hrelation, hh.hyperstring_eq, readHgr_finishHyperstring,
      readRelation_answerstring hr, readVertice_verticestring hr hfathers, readPartition_flatMap,
      readAns_lastans hs hnames, Option.bind_eq_bind, Option.bind_some]
  · exact
      { mem_callers_iff := fun T callers ↦ hsum.mem_callersOf_iff hs.proper
        sorted := List.pairwise_map.2 s.calledrelation.sorted
        names_eq := by
          rw [hvertices, classOrder, callersOf, List.flatMap_map]
          rfl
        rows_eq := namedRows_fileOf _ _
        nvtxs_eq := by
          rw [verticesOf, List.length_map]
          rfl
        length_numbers := hlength.trans hh.nvtxs_eq
        restrictedGrowth := hgrowth
        length_common_le := fun a b hab ↦
          (hh.length_common _ rfl a b).trans_le (hcommon a b hab) }

end Agree

/-! ### Whole runs -/

section Runs

variable {m : Machine} {folder : Folder} {disk : Str → Str} {strNameTest : Str}

/-- **The last stages**, after the files were read and parsed, for a line whose words find room:
with enough fuel they write their files exactly if the relation has three classes. -/
theorem exists_runTestCase (hline : LineFits strNameTest) {hmap : OrdMap Str HeaderFile}
    {head : List CReadCpp} {fuel₁ : ℕ} {s : RelationState}
    (hread : doReading m folder disk (newTestCase strNameTest) = some (hmap, head))
    (hparse : doParsing fuel₁ (hmap.mapValues HeaderFile.toCReadH) head = some s) :
    ∃ fuel₀, ∀ fuel > fuel₀,
      (¬ 3 ≤ (classOrder s.calledrelation).length →
        runTestCase fuel m folder disk strNameTest = none) ∧
      (3 ≤ (classOrder s.calledrelation).length → ∃ out files,
        runTestCase fuel m folder disk strNameTest = some out ∧ out.read = some files ∧
          files.ComeFrom s (fathersOf hmap)) := by
  have hagrees := (lines_doParsing hparse).1
  obtain ⟨pHyper, hsome, hh⟩ := exists_createHypergraph s.calledrelation (fathersOf hmap)
    (newTestCase strNameTest).strPara m.raw
  obtain ⟨fuel₀, hwrite⟩ := hh.exists_doWriting hagrees.proper m.heap m.input
    (newTestCase strNameTest).cutnum
  refine ⟨max fuel₀ fuel₁, fun fuel hfuel ↦ ?_⟩
  obtain ⟨hfuel₀, hfuel₁⟩ := max_lt_iff.1 hfuel
  obtain ⟨hno, hyes⟩ := hwrite fuel hfuel₀
  rw [hh.nvtxs_eq] at hno hyes
  have hline' : LineFits (newTestCase strNameTest).strPara := hline
  simp only [runTestCase, hread, doModeling, doParsing_mono hfuel₁.le hparse, if_pos hline', hsome,
    Option.bind_eq_bind, Option.bind_some]
  refine ⟨fun hfew ↦ by rw [hno hfew]; rfl, fun h3 ↦ ?_⟩
  obtain ⟨res, numbers, hres, hnumbers, hlength, hgrowth, hcommon⟩ := hyes h3
  simp only [hres, writeFiles, hnumbers, hh.nvtxs_eq, Option.bind_eq_bind, Option.bind_some]
  obtain ⟨files, hfiles, hfrom⟩ := hh.exists_read hagrees (summarises_doParsing hparse)
    (named_lines (readEachfile_of_doReading hread) hparse)
    (oneLine_fathersOf (named_of_doReading hread)) hsome (hlength.trans hh.nvtxs_eq.symm) hgrowth
    hcommon (recordLine (newTestCase strNameTest).testcasename res.cutnum m.allTime)
  exact ⟨_, files, rfl, hfiles, hfrom⟩

/-- A line is cut into words before anything is written. -/
theorem lineFits_of_run {fuel : ℕ} {out : OutputFiles}
    (h : runTestCase fuel m folder disk strNameTest = some out) : LineFits strNameTest := by
  obtain ⟨files, -, h⟩ := Option.bind_eq_some_iff.1 h
  obtain ⟨x, hx, -⟩ := Option.bind_eq_some_iff.1 h
  obtain ⟨s, -, hx⟩ := Option.bind_eq_some_iff.1 hx
  obtain ⟨pHyper, hsome, -⟩ := Option.bind_eq_some_iff.1 hx
  by_contra hnot
  rw [if_neg (show ¬ LineFits (newTestCase strNameTest).strPara from hnot)] at hsome
  exact absurd hsome (by simp)

/-- **A run that has returned**, with what its stages have handed on. -/
theorem comeFrom_of_runTestCase {fuel : ℕ} {out : OutputFiles}
    (h : runTestCase fuel m folder disk strNameTest = some out) :
    ∃ hmap head s files, doReading m folder disk (newTestCase strNameTest) = some (hmap, head) ∧
      doParsing fuel (hmap.mapValues HeaderFile.toCReadH) head = some s ∧
      3 ≤ (classOrder s.calledrelation).length ∧
      out.read = some files ∧ files.ComeFrom s (fathersOf hmap) := by
  have hrun := h
  have hline := lineFits_of_run h
  rw [runTestCase] at h
  obtain ⟨⟨hmap, head⟩, hread, h⟩ := Option.bind_eq_some_iff.1 h
  obtain ⟨x, hx, -⟩ := Option.bind_eq_some_iff.1 h
  obtain ⟨s, hparse, -⟩ := Option.bind_eq_some_iff.1 hx
  obtain ⟨fuel₀, hlast⟩ := exists_runTestCase hline hread hparse
  have hmore := runTestCase_mono (le_max_left fuel (fuel₀ + 1)) hrun
  obtain ⟨hno, hyes⟩ := hlast _ (le_max_right fuel (fuel₀ + 1))
  by_cases h3 : 3 ≤ (classOrder s.calledrelation).length
  · obtain ⟨out', files, hout, hfiles⟩ := hyes h3
    obtain rfl := Option.some.inj (hmore.symm.trans hout)
    exact ⟨hmap, head, s, files, hread, hparse, h3, hfiles⟩
  · rw [hno h3] at hmore
    exact absurd hmore (by simp)

/-- **The files of a test case agree.** Whatever is in the folder, in the memory and in the draws,
if a test case comes to its end, then its files can be read back; the relation is what the lines of
`ans.txt` amount to; the classes are numbered as they come in `relation.txt`, and under their
numbers the hyperedges are its lines; every class is in a group, groups are numbered as they come,
and no two of them have more than one hyperedge in common. -/
theorem runTestCase_agree {fuel : ℕ} {out : OutputFiles}
    (h : runTestCase fuel m folder disk strNameTest = some out) :
    ∃ files, out.read = some files ∧ files.Agree := by
  obtain ⟨_, _, _, files, _, _, _, hfiles, hfrom⟩ := comeFrom_of_runTestCase h
  exact ⟨files, hfiles, hfrom.agree⟩

/-- A folder with a header, and two files of which only one counts as a source file. -/
def sampleTestFolder : Folder :=
  .file "a.h".toList (.file "m.cc".toList (.file "m.cpp".toList .nil))

/-- Two classes in the header, and a method of a third one that calls both. -/
def sampleDisk (name : Str) : Str :=
  if name = "..//t//a.h".toList then
    "\nclass B \x7b\n\x7d;\nclass C : public B \x7b\n\x7d;\n".toList
  else if name = "..//t//m.cpp".toList then
    "\nvoid A::f()\n\x7b\n B *b;\n b->g();\n C *c;\n c->g();\n\x7d\n".toList
  else []

/-- A machine with zeros behind the buffers. -/
def sampleMachine : Machine where
  behindH _ := ['\x00']
  behindCpp _ := ['\x00']
  raw := default
  heap := default
  input := sampleInput
  allTime := 7

theorem runTestCase_agree_sampleDisk :
    ∃ out files, runTestCase 60 sampleMachine sampleTestFolder sampleDisk "..//t 2 5".toList =
        some out ∧ out.read = some files ∧ files.Agree := by
  have hsome : (runTestCase 60 sampleMachine sampleTestFolder sampleDisk
      "..//t 2 5".toList).isSome := by decide +kernel
  obtain ⟨out, hout⟩ := Option.isSome_iff_exists.1 hsome
  obtain ⟨files, hfiles⟩ := runTestCase_agree hout
  exact ⟨out, files, hout, hfiles⟩

/-- The files that can be read, and what is in them. -/
theorem isSome_doReading_iff_texts {t : CTestCaseCpp} :
    (doReading m folder disk t).isSome ↔ folder.Fits t.strTestPath ∧
      (∀ f ∈ headerFiles m folder disk t.strTestPath,
        (∀ pos, classText <+: f.content.drop pos → ClassComplete f.content pos) ∧
          IncludesClosed (f.content.take ((firstClass f.content).elim 0 (· + 1)))) ∧
      ∀ f ∈ sourceFiles m folder disk t.strTestPath,
        (∀ pos ∈ visits f.content, CanVisit f.content pos) ∧ headfilesRead f.content := by
  simp only [isSome_doReading_iff, isSome_readH_iff, isSome_readCpp_iff]

/-- The classes of the relation, counted in the lines. -/
theorem length_classOrder_doParsing {hmap : OrdMap Str CReadH} {head : List CReadCpp} {fuel : ℕ}
    {s : RelationState} (h : doParsing fuel hmap head = some s) :
    (classOrder s.calledrelation).length = (classesIn (foundLines hmap head)).length := by
  obtain ⟨hagrees, hlines⟩ := lines_doParsing h
  rw [(summarises_doParsing h).length_classOrder hagrees.proper, hlines]
  rfl

/-- **Files that are as they have to be are enough.** -/
theorem TestCaseOk.exists_run (h : TestCaseOk m folder disk (newTestCase strNameTest)) :
    ∃ fuel₀, ∀ fuel > fuel₀, ∃ out, runTestCase fuel m folder disk strNameTest = some out := by
  obtain ⟨⟨hmap, head⟩, hread⟩ := Option.isSome_iff_exists.1
    (isSome_doReading_iff_texts.2 ⟨h.fits, h.headers, h.sources⟩)
  have hfiles := readEachfile_of_doReading hread
  obtain ⟨s, hparse⟩ := Option.isSome_iff_exists.1
    ((isSome_doParsing le_rfl).2 (h.symbols _ _ hfiles))
  obtain ⟨fuel₀, hlast⟩ := exists_runTestCase h.line hread hparse
  refine ⟨fuel₀, fun fuel hfuel ↦ ?_⟩
  obtain ⟨out, -, hout, -⟩ := (hlast fuel hfuel).2
    ((h.classes _ _ hfiles).trans_eq (length_classOrder_doParsing hparse).symm)
  exact ⟨out, hout⟩

/-- **They are needed**, whatever the fuel. -/
theorem testCaseOk_of_run {fuel : ℕ} {out : OutputFiles}
    (h : runTestCase fuel m folder disk strNameTest = some out) :
    TestCaseOk m folder disk (newTestCase strNameTest) := by
  obtain ⟨hmap, head, s, -, hread, hparse, h3, -⟩ := comeFrom_of_runTestCase h
  obtain ⟨hfits, hheaders, hsources⟩ := isSome_doReading_iff_texts.1
    (Option.isSome_iff_exists.2 ⟨_, hread⟩)
  have hfiles := readEachfile_of_doReading hread
  have hsymbols : SymbolsOk (hmap.mapValues HeaderFile.toCReadH) head :=
    (isSome_doParsing (le_max_right fuel _)).1
      (Option.isSome_iff_exists.2 ⟨s, doParsing_mono (le_max_left _ _) hparse⟩)
  have hclasses := h3.trans_eq (length_classOrder_doParsing hparse)
  refine ⟨lineFits_of_run h, hfits, hheaders, hsources, fun _ _ h' ↦ ?_, fun _ _ h' ↦ ?_⟩ <;>
  obtain ⟨rfl, rfl⟩ := Prod.mk.inj (Option.some.inj (hfiles.symm.trans h'))
  exacts [hsymbols, hclasses]

end Runs

end CArchitecture
