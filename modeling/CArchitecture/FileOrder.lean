import CArchitecture.TestCase

/-!
# The order of the files, up to what is written

The operating system enumerates a directory in some order, and all tables of a test case are filled
in that order. Where the files agree with each other, as `doParsing_perm` has it, this leaves the
relation as it is; here it is followed to the end. What is left of it in the files that are written
is **an order**: of the lines of `ans.txt`, of the callers on a line of `relation.txt`, and so of
the numbers of the classes.

The base classes on the lines of `vertice.txt` come from the headers, and there it is not the order
of the directory that counts but that of the names of the headers (`firstFathers`).

* `runTestCase_fathers`: which base classes a run tells of which class.
* `runTestCase_perm`: two runs on the same files, found in different orders.
-/

namespace CArchitecture

open FirstSeen Text

/-! ### The base classes -/

/-- The base classes of a class, if it has any. -/
def HeaderClass.fathers (c : HeaderClass) : Option Str :=
  if c.fatherclass ≠ [] then some c.fatherclass else none

/-- The base classes of a class by the first header, in the order of the names, that has any. -/
def firstFathers (hmap : OrdMap Str HeaderFile) (x : Str) : Option Str :=
  hmap.entries.findSome? fun h ↦ (h.2.classdef.find? x).bind HeaderClass.fathers

theorem noteFather_eq (fathermap : OrdMap Str Str) (e : Str × HeaderClass) :
    noteFather fathermap e = fathermap.insertMany ((e.2.fathers.map (e.1, ·)).toList) := by
  rw [noteFather, HeaderClass.fathers]
  split_ifs <;> rfl

/-- **The table of base classes** has those of the first header. -/
theorem find?_fathersOf (hmap : OrdMap Str HeaderFile) (x : Str) :
    (fathersOf hmap).find? x = firstFathers hmap x := by
  have hclass : ∀ (l : List (Str × HeaderClass)) (fathermap : OrdMap Str Str),
      l.foldl noteFather fathermap =
        fathermap.insertMany (l.filterMap fun e ↦ e.2.fathers.map (e.1, ·)) := by
    intro l
    induction l with
    | nil => exact fun fathermap ↦ rfl
    | cons e l ih =>
      intro fathermap
      rw [List.foldl_cons, ih, noteFather_eq, ← OrdMap.insertMany_append, List.filterMap_cons]
      cases e.2.fathers <;> rfl
  have hheaders : ∀ (l : List (Str × HeaderFile)) (fathermap : OrdMap Str Str),
      l.foldl (fun fathermap h ↦ h.2.classdef.entries.foldl noteFather fathermap) fathermap =
        fathermap.insertMany (l.flatMap fun h ↦
          h.2.classdef.entries.filterMap fun e ↦ e.2.fathers.map (e.1, ·)) := by
    intro l
    induction l with
    | nil => exact fun fathermap ↦ rfl
    | cons h l ih =>
      intro fathermap
      rw [List.foldl_cons, ih, hclass, ← OrdMap.insertMany_append, List.flatMap_cons]
  rw [fathersOf, hheaders, OrdMap.find?_insertMany, OrdMap.find?_empty, Option.none_or,
    OrdMap.lookupIn_flatMap, firstFathers]
  congr 1
  funext h
  exact OrdMap.lookupIn_filterMap HeaderClass.fathers h.2.classdef.sorted x

/-! ### The headers -/

/-- The first header with this name. -/
def firstHeader (files : List FileText) (k : Str) : Option HeaderFile :=
  files.findSome? fun f ↦ if headname f.fileName = some k then readH f.content else none

section Headers

variable {m : Machine} {folder : Folder} {disk : Str → Str} {t : CTestCaseCpp}
  {hmap : OrdMap Str HeaderFile} {head : List CReadCpp}

/-- **The table of the headers** has, for each name, the first file with this name. -/
theorem find?_of_doReading (h : doReading m folder disk t = some (hmap, head)) (k : Str) :
    hmap.find? k = firstHeader (headerFiles m folder disk t.strTestPath) k := by
  have hfits : folder.Fits t.strTestPath := by
    by_contra hno
    rw [doReading_eq_none hno] at h
    exact absurd h (by simp)
  rw [doReading_eq hfits] at h
  obtain ⟨hmap', hread, h⟩ := Option.bind_eq_some_iff.1 h
  obtain ⟨head', -, h⟩ := Option.map_eq_some_iff.1 h
  obtain rfl := (Prod.mk.inj h).1
  have hentry : readHeaderFile = fun hmap f ↦
      ((readH f.content).bind fun p ↦ (headname f.fileName).map fun n ↦ (n, p)).map
        fun e ↦ hmap.insert e.1 e.2 := by
    funext hmap f
    rw [readHeaderFile]
    cases readH f.content with
    | none => rfl
    | some p => cases headname f.fileName <;> rfl
  rw [hentry] at hread
  rw [OrdMap.find?_foldlM_insert hread, OrdMap.find?_empty, Option.none_or, firstHeader]
  congr 1
  funext f
  cases readH f.content with
  | none => simp [OrdMap.lookupIn]
  | some p =>
    cases headname f.fileName with
    | none => simp [OrdMap.lookupIn]
    | some n => simp [OrdMap.lookupIn, eq_comm]

end Headers

/-! ### What is told of a class -/

/-- The class is called, and no class before it in `relation.txt` is called by it. -/
def FirstCalled (callers : List (Str × List Str)) (x : Str) : Prop :=
  x ∈ callers.map Prod.fst ∧ ∀ e ∈ callers, e.1 < x → x ∉ e.2

instance (callers : List (Str × List Str)) (x : Str) : Decidable (FirstCalled callers x) :=
  inferInstanceAs (Decidable (_ ∧ _))

theorem firstMetAsKey_iff (r : CalledRelation) (x : Str) :
    FirstMetAsKey r x ↔ FirstCalled (callersOf r) x := by
  rw [FirstMetAsKey, FirstCalled, callersOf, List.forall_mem_map, List.map_map]
  rfl

/-- **The base classes that are told**, and where they come from. -/
theorem toldFathers_fathersOf (r : CalledRelation) (hmap : OrdMap Str HeaderFile) (x : Str) :
    toldFathers r (fathersOf hmap) x =
      if FirstCalled (callersOf r) x then firstFathers hmap x else none := by
  rw [toldFathers, find?_fathersOf]
  simp only [firstMetAsKey_iff]

/-- **Which base classes a run tells.** On the line of a class in `vertice.txt` there are those that
the first header in the order of the names declares, if one declares any; but only if the class is
called, and calls no class that comes before it in `relation.txt`. The headers are told apart by
their names without the directories, and of those with the same name the one found first counts. -/
theorem runTestCase_fathers {m : Machine} {folder : Folder} {disk : Str → Str} {strNameTest : Str}
    {fuel : ℕ} {out : OutputFiles} (h : runTestCase fuel m folder disk strNameTest = some out) :
    ∃ hmap files, out.read = some files ∧
      (∀ k, hmap.find? k =
        firstHeader (headerFiles m folder disk (newTestCase strNameTest).strTestPath) k) ∧
      ∀ e ∈ files.vertices, e.2 =
        if FirstCalled files.callers e.1 then firstFathers hmap e.1 else none := by
  obtain ⟨hmap, _, s, files, hread, _, _, hfiles, hfrom⟩ := comeFrom_of_runTestCase h
  refine ⟨hmap, files, hfiles, find?_of_doReading hread, fun e he ↦ ?_⟩
  rw [hfrom.vertices_eq] at he
  obtain ⟨x, -, rfl⟩ := List.mem_map.1 he
  rw [hfrom.callers_eq]
  exact toldFathers_fathersOf _ _ _

theorem runTestCase_fathers_sampleDisk :
    ∃ out hmap files, runTestCase 60 sampleMachine sampleTestFolder sampleDisk
        "..//t 2 5".toList = some out ∧ out.read = some files ∧
      (∀ k, hmap.find? k = firstHeader (headerFiles sampleMachine sampleTestFolder sampleDisk
        (newTestCase "..//t 2 5".toList).strTestPath) k) ∧
      ∀ e ∈ files.vertices, e.2 =
        if FirstCalled files.callers e.1 then firstFathers hmap e.1 else none := by
  have hsome : (runTestCase 60 sampleMachine sampleTestFolder sampleDisk
      "..//t 2 5".toList).isSome := by decide +kernel
  obtain ⟨out, hout⟩ := Option.isSome_iff_exists.1 hsome
  obtain ⟨hmap, files, hfathers⟩ := runTestCase_fathers hout
  exact ⟨out, hmap, files, hout, hfathers⟩

/-! ### Another order -/

section Order

variable {m m' : Machine} {folder folder' : Folder} {disk : Str → Str}

/-- The same headers are found. -/
theorem headerFiles_perm (disk : Str → Str) (path : Str)
    (hfiles : folder.files.Perm folder'.files) (hbehind : m'.behindH = m.behindH) :
    (headerFiles m folder disk path).Perm (headerFiles m' folder' disk path) := by
  rw [headerFiles, headerFiles, hbehind]
  exact ((hfiles.filter _).map _).map _

/-- The same source files are found. -/
theorem sourceFiles_perm (disk : Str → Str) (path : Str)
    (hfiles : folder.files.Perm folder'.files) (hbehind : m'.behindCpp = m.behindCpp) :
    (sourceFiles m folder disk path).Perm (sourceFiles m' folder' disk path) := by
  rw [sourceFiles, sourceFiles, hbehind]
  exact ((hfiles.filter _).map _).map _

theorem SameHeaders.firstHeader_eq {aryh aryh' : List FileText} (hsame : SameHeaders aryh)
    (hperm : aryh.Perm aryh') (k : Str) : firstHeader aryh k = firstHeader aryh' k := by
  refine OrdMap.findSome?_eq_of_perm hperm fun f hf g hg x y hx hy ↦ ?_
  have hname : ∀ {f : FileText} {x : HeaderFile},
      (if headname f.fileName = some k then readH f.content else none) = some x →
        headname f.fileName = some k ∧ readH f.content = some x := by
    intro f x hx
    split_ifs at hx with hk
    exact ⟨hk, hx⟩
  obtain ⟨hkf, hx⟩ := hname hx
  obtain ⟨hkg, hy⟩ := hname hy
  rw [hsame f hf g hg (hkf.trans hkg.symm)] at hx
  exact Option.some.inj (hx.symm.trans hy)

/-- Another order of the lines, another order of the callers. -/
theorem callersIn_perm {lines lines' : List (Str × Str)} (h : lines.Perm lines') (T : Str) :
    (callersIn lines T).Perm (callersIn lines' T) := by
  refine (List.perm_ext_iff_of_nodup (nodup_scan List.nodup_nil _)
    (nodup_scan List.nodup_nil _)).2 fun X ↦ ?_
  have hX : X ∈ callersIn lines T ↔ X ∈ callersIn lines' T := by
    rw [mem_callersIn, mem_callersIn, h.mem_iff]
  exact hX

/-- **The lines of `relation.txt`** stay in their order. -/
theorem callers_forall₂ {files files' : FilesRead} (hagree : files.Agree) (hagree' : files'.Agree)
    (h : files.lines.Perm files'.lines) :
    List.Forall₂ (fun e e' ↦ e.1 = e'.1 ∧ e.2.Perm e'.2) files.callers files'.callers := by
  have hother : files'.callers = files.callers.map fun e ↦ (e.1, callersIn files'.lines e.1) := by
    have hsorted : (files.callers.map fun e ↦ (e.1, callersIn files'.lines e.1)).Pairwise
        fun e e' ↦ e.1 < e'.1 := List.pairwise_map.2 hagree.sorted
    have hnodup : ∀ {l : List (Str × List Str)}, l.Pairwise (fun e e' ↦ e.1 < e'.1) → l.Nodup :=
      fun hl ↦ hl.imp fun hlt heq ↦ absurd (heq ▸ hlt) (lt_irrefl _)
    refine List.Perm.eq_of_pairwise (fun e e' _ _ hlt hlt' ↦ absurd hlt' hlt.not_gt)
      hagree'.sorted hsorted ((List.perm_ext_iff_of_nodup (hnodup hagree'.sorted)
        (hnodup hsorted)).2 fun e ↦ ?_)
    rw [hagree'.mem_callers_iff, List.mem_map]
    constructor
    · rintro ⟨hne, heq⟩
      refine ⟨(e.1, callersIn files.lines e.1),
        (hagree.mem_callers_iff _ _).2 ⟨fun hnil ↦ hne ?_, rfl⟩, Prod.ext rfl heq.symm⟩
      have hperm := callersIn_perm h e.1
      rw [hnil] at hperm
      exact heq.trans hperm.nil_eq.symm
    · rintro ⟨d, hd, rfl⟩
      obtain ⟨hne, heq⟩ := (hagree.mem_callers_iff d.1 d.2).1 hd
      refine ⟨fun hnil ↦ hne ?_, rfl⟩
      have hperm := callersIn_perm h d.1
      rw [show callersIn files'.lines d.1 = [] from hnil, ← heq] at hperm
      exact hperm.eq_nil
  rw [hother, List.forall₂_map_right_iff, List.forall₂_same]
  intro e he
  refine ⟨rfl, ?_⟩
  rw [((hagree.mem_callers_iff e.1 e.2).1 he).2]
  exact callersIn_perm h e.1

/-- Which classes are called first does not depend on the order of the callers. -/
theorem firstCalled_iff {callers callers' : List (Str × List Str)}
    (h : List.Forall₂ (fun e e' ↦ e.1 = e'.1 ∧ e.2.Perm e'.2) callers callers') (x : Str) :
    FirstCalled callers x ↔ FirstCalled callers' x := by
  have hkeys : callers.map Prod.fst = callers'.map Prod.fst := by
    induction h with
    | nil => rfl
    | cons he _ ih => rw [List.map_cons, List.map_cons, he.1, ih]
  have hbefore : (∀ e ∈ callers, e.1 < x → x ∉ e.2) ↔ ∀ e ∈ callers', e.1 < x → x ∉ e.2 := by
    clear hkeys
    induction h with
    | nil => simp
    | cons he _ ih =>
      rw [List.forall_mem_cons, List.forall_mem_cons, he.1, he.2.mem_iff, ih]
  rw [FirstCalled, FirstCalled, hkeys, hbefore]

/-- The same classes have to do with others. -/
theorem scan_callers_perm {callers callers' : List (Str × List Str)}
    (h : List.Forall₂ (fun e e' ↦ e.1 = e'.1 ∧ e.2.Perm e'.2) callers callers') :
    (scan [] (callers.flatMap fun e ↦ e.1 :: e.2)).Perm
      (scan [] (callers'.flatMap fun e ↦ e.1 :: e.2)) := by
  refine (List.perm_ext_iff_of_nodup (nodup_scan List.nodup_nil _)
    (nodup_scan List.nodup_nil _)).2 fun x ↦ ?_
  rw [mem_scan, mem_scan]
  refine or_congr_right ?_
  induction h with
  | nil => rfl
  | cons he _ ih =>
    rw [List.flatMap_cons, List.flatMap_cons, List.mem_append, List.mem_append, ih, List.mem_cons,
      List.mem_cons, he.1, he.2.mem_iff]

/-- The lines that a run finds depend on the order of the source files in their order only. -/
theorem foundLines_perm {hmap : OrdMap Str CReadH} {head head' : List CReadCpp}
    (hperm : head.Perm head') (htypes : typeDefs hmap head = typeDefs hmap head') :
    (foundLines hmap head).Perm (foundLines hmap head') := by
  rw [foundLines, foundLines, parsedTables, parsedTables, ← htypes]
  exact ((hperm.map CReadCpp.withParameters).flatMap_right _).flatMap_right _

/-- **The order of the files.** Two runs on the same files, with the same behind them but whatever
else in the memory and in the draws, in whatever orders the files are found: if headers with the
same file name have the same content, the source files agree on what their type definitions name,
and both runs come to their end, then they write the same lines to `ans.txt` but for their order;
the same classes to `relation.txt`, in the same order, each with the same callers; and the same
classes to `vertice.txt`, with the same base classes. So the hypergraph is the same but for the
numbers of the vertices. -/
theorem runTestCase_perm {strNameTest : Str} (hfiles : folder.files.Perm folder'.files)
    (hbehindH : m'.behindH = m.behindH) (hbehindCpp : m'.behindCpp = m.behindCpp)
    (hsame : SameHeaders (headerFiles m folder disk (newTestCase strNameTest).strTestPath))
    (haliases : SameAliases (headerFiles m folder disk (newTestCase strNameTest).strTestPath)
      (sourceFiles m folder disk (newTestCase strNameTest).strTestPath))
    {fuel fuel' : ℕ} {out out' : OutputFiles}
    (h : runTestCase fuel m folder disk strNameTest = some out)
    (h' : runTestCase fuel' m' folder' disk strNameTest = some out') :
    ∃ files files', out.read = some files ∧ out'.read = some files' ∧
      files.lines.Perm files'.lines ∧
      List.Forall₂ (fun e e' ↦ e.1 = e'.1 ∧ e.2.Perm e'.2) files.callers files'.callers ∧
      files.vertices.Perm files'.vertices ∧
      ∃ rows rows', files.hypergraph.namedRows files.vertices = some rows ∧
        files'.hypergraph.namedRows files'.vertices = some rows' ∧
        List.Forall₂ List.Perm rows rows' := by
  obtain ⟨hmap, head, s, files, hread, hparse, -, hfiles₁, hfrom⟩ := comeFrom_of_runTestCase h
  obtain ⟨hmap', head', s', files', hread', hparse', -, hfiles₂, hfrom'⟩ :=
    comeFrom_of_runTestCase h'
  have hheaders := headerFiles_perm disk (newTestCase strNameTest).strTestPath hfiles hbehindH
  have hsources := sourceFiles_perm disk (newTestCase strNameTest).strTestPath hfiles hbehindCpp
  -- the tables are the same
  obtain rfl : hmap = hmap' := OrdMap.ext_find? fun k ↦ by
    rw [find?_of_doReading hread, find?_of_doReading hread', hsame.firstHeader_eq hheaders]
  have heach := readEachfile_of_doReading hread
  have heach' := readEachfile_of_doReading hread'
  rw [readEachfile] at heach heach'
  obtain ⟨hm, hhmap, heach⟩ := Option.bind_eq_some_iff.1 heach
  obtain ⟨hl, hhead, heach⟩ := Option.bind_eq_some_iff.1 heach
  obtain ⟨rfl, rfl⟩ := Prod.mk.inj (Option.some.inj heach)
  obtain ⟨hm', -, heach'⟩ := Option.bind_eq_some_iff.1 heach'
  obtain ⟨hl', hhead', heach'⟩ := Option.bind_eq_some_iff.1 heach'
  obtain ⟨-, rfl⟩ := Prod.mk.inj (Option.some.inj heach')
  have hperm := head_perm hsources hhead hhead'
  have hlines : files.lines.Perm files'.lines := by
    rw [hfrom.lines_eq, hfrom'.lines_eq, (lines_doParsing hparse).2, (lines_doParsing hparse').2]
    exact foundLines_perm hperm (typeDefs_eq hsame haliases hhmap hhead hperm)
  have hcallers := callers_forall₂ hfrom.agree hfrom'.agree hlines
  refine ⟨files, files', hfiles₁, hfiles₂, hlines, hcallers, ?_, _, _, hfrom.agree.rows_eq,
    hfrom'.agree.rows_eq, ?_⟩
  · have hnames := scan_callers_perm hcallers
    rw [← hfrom.agree.names_eq, ← hfrom'.agree.names_eq, hfrom.vertices_eq, hfrom'.vertices_eq,
      verticesOf, verticesOf, List.map_map, List.map_map] at hnames
    rw [hfrom.vertices_eq, hfrom'.vertices_eq, verticesOf, verticesOf]
    have htold : toldFathers s.calledrelation (fathersOf hmap) =
        toldFathers s'.calledrelation (fathersOf hmap) := by
      funext x
      rw [hfrom.callers_eq, hfrom'.callers_eq] at hcallers
      rw [toldFathers_fathersOf, toldFathers_fathersOf]
      simp only [firstCalled_iff hcallers]
    rw [htold]
    refine List.Perm.map _ ?_
    simpa [Function.comp_def] using hnames
  · rw [List.forall₂_map_left_iff, List.forall₂_map_right_iff]
    refine hcallers.imp fun e e' he ↦ ?_
    rw [he.1]
    exact he.2.cons _

/-- A folder with a header and two source files. -/
def sampleSources : Folder :=
  .file "a.h".toList (.file "m.cpp".toList (.file "n.cpp".toList .nil))

/-- The same files, found in another order. -/
def sampleSources' : Folder :=
  .file "n.cpp".toList (.file "a.h".toList (.file "m.cpp".toList .nil))

/-- The second source file has a method of a class that calls one of the two in the header. -/
def sampleDisk' (name : Str) : Str :=
  if name = "..//t//n.cpp".toList then
    "\nvoid D::f()\n\x7b\n B *b;\n b->g();\n\x7d\n".toList
  else sampleDisk name

theorem sameHeaders_sampleSources :
    SameHeaders (headerFiles sampleMachine sampleSources sampleDisk'
      (newTestCase "..//t 2 5".toList).strTestPath) := by
  rw [SameHeaders]
  decide +kernel

/-- There are no type definitions to agree on. -/
theorem sameAliases_sampleSources (aryh : List FileText) :
    SameAliases aryh (sourceFiles sampleMachine sampleSources sampleDisk'
      (newTestCase "..//t 2 5".toList).strTestPath) := by
  have hnone : ∀ f ∈ sourceFiles sampleMachine sampleSources sampleDisk'
      (newTestCase "..//t 2 5".toList).strTestPath,
        (dealwithTypeDef ∅ (findGlobal f.content)).entries = [] := by decide +kernel
  intro name _ f hf _ _ T _ hT _
  have hmem := OrdMap.mem_entries_iff.2 hT
  rw [hnone f hf] at hmem
  exact absurd hmem List.not_mem_nil

theorem runTestCase_perm_sampleSources :
    ∃ out out' files files',
      runTestCase 60 sampleMachine sampleSources sampleDisk' "..//t 2 5".toList = some out ∧
      runTestCase 60 sampleMachine sampleSources' sampleDisk' "..//t 2 5".toList = some out' ∧
      out.read = some files ∧ out'.read = some files' ∧ files.lines.Perm files'.lines ∧
      files.vertices.Perm files'.vertices := by
  have hsome : (runTestCase 60 sampleMachine sampleSources sampleDisk'
      "..//t 2 5".toList).isSome := by decide +kernel
  have hsome' : (runTestCase 60 sampleMachine sampleSources' sampleDisk'
      "..//t 2 5".toList).isSome := by decide +kernel
  obtain ⟨out, hout⟩ := Option.isSome_iff_exists.1 hsome
  obtain ⟨out', hout'⟩ := Option.isSome_iff_exists.1 hsome'
  have hperm : sampleSources.files.Perm sampleSources'.files := by decide
  obtain ⟨files, files', hfiles, hfiles', hlines, -, hvertices, -⟩ := runTestCase_perm hperm rfl rfl
    sameHeaders_sampleSources (sameAliases_sampleSources _) hout hout'
  exact ⟨out, out', files, files', hout, hout', hfiles, hfiles', hlines, hvertices⟩

end Order

end CArchitecture
