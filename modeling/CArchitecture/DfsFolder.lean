import CArchitecture.Library.CString
import Mathlib.Data.List.Nodup
import Mathlib.Data.List.Perm.Basic

/-!
# Finding the source files

`dfsFolder` walks through a directory and collects the sources and the headers below it. It is
written twice, for Windows and for POSIX systems, and the two take different tests for what a source
or a header is: the one looks at the **end** of a name (`.cpp`, `.cc`, `.h`), the other at whether
the name **contains** `cpp` or `h` somewhere. They also spell the path of a subdirectory
differently.

Both are described by the files that are reached, each with the directories that lead to it
(`Folder.files`), so that where they agree is a matter of single names (`dfsFolder_agree_iff`).
-/

namespace CArchitecture

/-- The entries of a directory, in the order in which they are enumerated. A directory has its own
entries. -/
inductive Folder where
  | nil
  | file (name : Str) (rest : Folder)
  | dir (name : Str) (sub rest : Folder)

/-- What `dfsFolder` collects. -/
structure FileNames where
  arycpp_fileName : List Str := []
  aryh_fileName : List Str := []

/-! ### The two walks -/

/-- The last `n` characters of a name, or nothing if it is shorter. -/
def extension (n : ℕ) (name : Str) : Str :=
  if name.length ≥ n then CString.substr name (name.length - n) n else []

/-- A source, for Windows. -/
def isCppWin (name : Str) : Bool :=
  extension 4 name = ".cpp".toList ∨ extension 3 name = ".cc".toList

/-- A header, for Windows. -/
def isHWin (name : Str) : Bool := ¬ isCppWin name ∧ extension 2 name = ".h".toList

/-- A source, for POSIX. -/
def isCppPosix (name : Str) : Bool := (CString.find "cpp".toList name 0).isSome

/-- A header, for POSIX. -/
def isHPosix (name : Str) : Bool := (CString.find "h".toList name 0).isSome

/-- File one name. The tests are independent, although for Windows they exclude each other. -/
def fileName (isCpp isH : Str → Bool) (path name : Str) (s : FileNames) : FileNames where
  arycpp_fileName :=
    if isCpp name then s.arycpp_fileName ++ [path ++ "//".toList ++ name] else s.arycpp_fileName
  aryh_fileName :=
    if isH name then s.aryh_fileName ++ [path ++ "//".toList ++ name] else s.aryh_fileName

/-- The entries for the directory itself and the one above it. -/
def isDots (name : Str) : Bool := name = ".".toList ∨ name = "..".toList

/-- `dfsFolder`, for Windows. -/
def dfsFolderWin : Folder → Str → FileNames → FileNames
  | .nil, _, s => s
  | .file name rest, path, s => dfsFolderWin rest path (fileName isCppWin isHWin path name s)
  | .dir name sub rest, path, s =>
    dfsFolderWin rest path
      (if isDots name then s else dfsFolderWin sub (path ++ "//".toList ++ name) s)

/-- The size of the buffer `childpath`. -/
def childpathSize : ℕ := 512

/-- `dfsFolder`, for POSIX. The path of a subdirectory is printed to a buffer; if it does not fit
there, with its final zero, the program has no defined behaviour. -/
def dfsFolderPosix : Folder → Str → FileNames → Option FileNames
  | .nil, _, s => some s
  | .file name rest, path, s => dfsFolderPosix rest path (fileName isCppPosix isHPosix path name s)
  | .dir name sub rest, path, s =>
    if isDots name then dfsFolderPosix rest path s
    else
      let childpath := path ++ "/".toList ++ name
      if childpath.length + 1 ≤ childpathSize then
        (dfsFolderPosix sub childpath s).bind (dfsFolderPosix rest path)
      else none

/-! ### The files that are reached -/

namespace Folder

/-- The files below a directory, each with the directories that lead to it. -/
def files : Folder → List (List Str × Str)
  | nil => []
  | file name rest => ([], name) :: rest.files
  | dir name sub rest =>
    (if isDots name then [] else sub.files.map fun x ↦ (name :: x.1, x.2)) ++ rest.files

/-- The paths of the subdirectories fit into the buffer. -/
def Fits : Folder → Str → Prop
  | nil, _ => True
  | file _ rest, path => rest.Fits path
  | dir name sub rest, path =>
    (isDots name = false → (path ++ "/".toList ++ name).length + 1 ≤ childpathSize ∧
      sub.Fits (path ++ "/".toList ++ name)) ∧ rest.Fits path

/-- What a file system guarantees: names are not empty and have no slash. -/
def WellNamed : Folder → Prop
  | nil => True
  | file name rest => (name ≠ [] ∧ '/' ∉ name) ∧ rest.WellNamed
  | dir name sub rest => (name ≠ [] ∧ '/' ∉ name) ∧ sub.WellNamed ∧ rest.WellNamed

end Folder

/-- The path of a file, as Windows spells it. -/
def winPath (path : Str) (x : List Str × Str) : Str :=
  path ++ x.1.flatMap ("//".toList ++ ·) ++ "//".toList ++ x.2

/-- The path of a file, as POSIX spells it. -/
def posixPath (path : Str) (x : List Str × Str) : Str :=
  path ++ x.1.flatMap ("/".toList ++ ·) ++ "//".toList ++ x.2

/-- The names that a walk adds: those of the files that pass the test. -/
def FileNames.add (s : FileNames) (isCpp isH : Str → Bool) (spell : List Str × Str → Str)
    (files : List (List Str × Str)) : FileNames where
  arycpp_fileName := s.arycpp_fileName ++ (files.filter (isCpp ·.2)).map spell
  aryh_fileName := s.aryh_fileName ++ (files.filter (isH ·.2)).map spell

section Walks

variable {isCpp isH : Str → Bool}

theorem FileNames.add_nil (s : FileNames) (spell : List Str × Str → Str) :
    s.add isCpp isH spell [] = s := by
  simp [FileNames.add]

theorem FileNames.add_append (s : FileNames) (spell : List Str × Str → Str)
    (l l' : List (List Str × Str)) :
    s.add isCpp isH spell (l ++ l') = (s.add isCpp isH spell l).add isCpp isH spell l' := by
  simp [FileNames.add]

theorem fileName_eq_add (s : FileNames) (path name : Str) (spell : List Str × Str → Str)
    (hspell : spell ([], name) = path ++ "//".toList ++ name) :
    fileName isCpp isH path name s = s.add isCpp isH spell [([], name)] := by
  simp only [fileName, FileNames.add, List.filter_cons, List.filter_nil]
  split_ifs <;> simp [hspell]

theorem FileNames.add_map (s : FileNames) (spell : List Str × Str → Str) (name : Str)
    (l : List (List Str × Str)) :
    s.add isCpp isH spell (l.map fun x ↦ (name :: x.1, x.2)) =
      s.add isCpp isH (fun x ↦ spell (name :: x.1, x.2)) l := by
  simp only [FileNames.add, List.filter_map, List.map_map]
  rfl

/-- **What the walk for Windows collects.** -/
theorem dfsFolderWin_eq (f : Folder) (path : Str) (s : FileNames) :
    dfsFolderWin f path s = s.add isCppWin isHWin (winPath path) f.files := by
  induction f generalizing path s with
  | nil => rw [Folder.files, FileNames.add_nil, dfsFolderWin]
  | file name rest ih =>
    rw [dfsFolderWin, ih, Folder.files, ← List.singleton_append, FileNames.add_append,
      fileName_eq_add s path name (winPath path) (by simp [winPath])]
  | dir name sub rest ihsub ih =>
    rw [dfsFolderWin, ih, Folder.files, FileNames.add_append]
    split_ifs with hdots
    · rw [FileNames.add_nil]
    · have hspell : winPath (path ++ "//".toList ++ name) =
          fun x ↦ winPath path (name :: x.1, x.2) := by
        funext x
        simp [winPath]
      rw [ihsub, FileNames.add_map, hspell]

/-- **What the walk for POSIX collects**, if all paths fit. -/
theorem dfsFolderPosix_eq (f : Folder) (path : Str) (s : FileNames) (hfits : f.Fits path) :
    dfsFolderPosix f path s = some (s.add isCppPosix isHPosix (posixPath path) f.files) := by
  induction f generalizing path s with
  | nil => rw [Folder.files, FileNames.add_nil, dfsFolderPosix]
  | file name rest ih =>
    rw [dfsFolderPosix, ih _ _ hfits, Folder.files, ← List.singleton_append, FileNames.add_append,
      fileName_eq_add s path name (posixPath path) (by simp [posixPath])]
  | dir name sub rest ihsub ih =>
    rw [dfsFolderPosix, Folder.files, FileNames.add_append]
    split_ifs with hdots
    · rw [ih _ _ hfits.2, FileNames.add_nil]
    · obtain ⟨hlen, hsub⟩ := hfits.1 (by simpa using hdots)
      have hspell : posixPath (path ++ "/".toList ++ name) =
          fun x ↦ posixPath path (name :: x.1, x.2) := by
        funext x
        simp [posixPath]
      simp only [if_pos hlen]
      rw [ihsub _ _ hsub, Option.bind_some, ih _ _ hfits.2, FileNames.add_map, hspell]

/-- Otherwise the buffer is overrun. -/
theorem dfsFolderPosix_eq_none (f : Folder) (path : Str) (s : FileNames) (hfits : ¬ f.Fits path) :
    dfsFolderPosix f path s = none := by
  induction f generalizing path s with
  | nil => exact absurd trivial hfits
  | file name rest ih => exact ih _ _ hfits
  | dir name sub rest ihsub ih =>
    rw [dfsFolderPosix]
    rw [Folder.Fits, not_and_or] at hfits
    split_ifs with hdots
    · refine ih _ _ (hfits.resolve_left fun h ↦ h fun hno ↦ ?_)
      exact absurd hdots (by simp [hno])
    · simp only
      split_ifs with hlen
      · by_cases hsub : sub.Fits (path ++ "/".toList ++ name)
        · rw [dfsFolderPosix_eq _ _ _ hsub, Option.bind_some]
          exact ih _ _ (hfits.resolve_left fun h ↦ h fun _ ↦ ⟨hlen, hsub⟩)
        · rw [ihsub _ _ hsub, Option.bind_none]
      · rfl

end Walks

/-! ### Where they agree -/

section Paths

open Text

variable {path : Str} {x : List Str × Str}

/-- The directories of a file and its name are proper names. -/
def ProperPath (x : List Str × Str) : Prop := ∀ d ∈ x.1 ++ [x.2], d ≠ [] ∧ '/' ∉ d

theorem Folder.WellNamed.properPath {f : Folder} (h : f.WellNamed) (hx : x ∈ f.files) :
    ProperPath x := by
  induction f generalizing x with
  | nil => exact absurd hx List.not_mem_nil
  | file name rest ih =>
    rcases List.mem_cons.1 hx with rfl | hx
    · intro d hd
      obtain rfl := List.mem_singleton.1 hd
      exact h.1
    · exact ih h.2 hx
  | dir name sub rest ihsub ih =>
    rw [Folder.files] at hx
    rcases List.mem_append.1 hx with hx | hx
    · split_ifs at hx with hdots
      · exact absurd hx List.not_mem_nil
      · obtain ⟨y, hy, rfl⟩ := List.mem_map.1 hx
        intro d hd
        rcases List.mem_cons.1 hd with rfl | hd
        · exact h.1
        · exact ihsub h.2.1 hy d hd
    · exact ih h.2.2 hx

/-- A path in which every name follows some slashes has these names after those it starts with. -/
theorem fields_flatMap_slashes (slashes : Str) (hs : ∀ c ∈ slashes, c = '/') (hne : slashes ≠ [])
    (path : Str) {ds : List Str} (hds : ∀ d ∈ ds, d ≠ [] ∧ '/' ∉ d) :
    fields '/' (path ++ ds.flatMap (slashes ++ ·)) = fields '/' path ++ ds := by
  have hslashes : ∀ (slashes p t : Str), (∀ c ∈ slashes, c = '/') → slashes ≠ [] →
      fields '/' (p ++ (slashes ++ t)) = fields '/' p ++ fields '/' t := by
    intro slashes
    induction slashes with
    | nil => exact fun _ _ _ hne ↦ absurd rfl hne
    | cons c slashes ih =>
      intro p t hc _
      obtain rfl := hc c List.mem_cons_self
      rw [List.cons_append, fields_append_cons]
      rcases eq_or_ne slashes [] with rfl | hne
      · rw [List.nil_append]
      · have := ih [] t (fun d hd ↦ hc d (List.mem_cons_of_mem _ hd)) hne
        rw [List.nil_append, fields_nil, List.nil_append] at this
        rw [this]
  induction ds generalizing path with
  | nil => simp
  | cons d ds ih =>
    obtain ⟨hd, hdslash⟩ := hds d List.mem_cons_self
    have hpath : path ++ (d :: ds).flatMap (slashes ++ ·) =
        path ++ (slashes ++ d) ++ ds.flatMap (slashes ++ ·) := by simp
    rw [hpath, ih _ fun e he ↦ hds e (List.mem_cons_of_mem _ he), hslashes _ _ _ hs hne,
      fields_of_notMem hdslash hd, List.append_assoc, List.singleton_append]

/-- **Both spellings name the same file.** -/
theorem fields_winPath (h : ProperPath x) :
    fields '/' (winPath path x) = fields '/' path ++ (x.1 ++ [x.2]) := by
  have hshape : winPath path x = path ++ (x.1 ++ [x.2]).flatMap ("//".toList ++ ·) := by
    simp [winPath]
  rw [hshape, fields_flatMap_slashes _ (by simp) (by decide) path h]

theorem fields_posixPath (h : ProperPath x) :
    fields '/' (posixPath path x) = fields '/' path ++ (x.1 ++ [x.2]) := by
  have hshape : posixPath path x =
      path ++ x.1.flatMap ("/".toList ++ ·) ++ [x.2].flatMap ("//".toList ++ ·) := by
    simp [posixPath]
  rw [hshape, fields_flatMap_slashes _ (by simp) (by decide) _ fun d hd ↦
      h d (List.mem_append_right _ hd),
    fields_flatMap_slashes _ (by simp) (by decide) path fun d hd ↦
      h d (List.mem_append_left _ hd), List.append_assoc]

theorem eq_of_append_singleton {x y : List Str × Str} (h : x.1 ++ [x.2] = y.1 ++ [y.2]) :
    x = y := by
  obtain ⟨h₁, h₂⟩ := List.append_inj' h rfl
  exact Prod.ext h₁ (List.singleton_inj.1 h₂)

/-- The two spellings are the same text only for a file of the directory that the walk starts in. -/
theorem winPath_eq_posixPath_iff : winPath path x = posixPath path x ↔ x.1 = [] := by
  constructor
  · intro h
    have hlen := congrArg List.length h
    simp only [winPath, posixPath, List.length_append, List.length_flatMap] at hlen
    have hsum : ∀ ds : List Str, (ds.map fun d ↦ "//".toList.length + d.length).sum =
        (ds.map fun d ↦ "/".toList.length + d.length).sum + ds.length := by
      intro ds
      induction ds with
      | nil => rfl
      | cons d ds ih =>
        rw [List.map_cons, List.map_cons, List.sum_cons, List.sum_cons, ih]
        simp only [String.reduceToList, List.length_cons, List.length_nil]
        omega
    rw [hsum] at hlen
    exact List.length_eq_zero_iff.1 (by omega)
  · intro h
    simp [winPath, posixPath, h]

end Paths

/-- Two selections from one list, under spellings that tell its elements apart, are the same names
if and only if they select the same elements and spell these alike. -/
theorem perm_map_filter_iff {α β : Type*} {l : List α} {p q : α → Bool} {f g : α → β}
    (hinj : ∀ x ∈ l, ∀ y ∈ l, f x = g y → x = y) :
    ((l.filter p).map f).Perm ((l.filter q).map g) ↔
      ∀ x ∈ l, p x = q x ∧ (p x = true → f x = g x) := by
  constructor
  · intro h x hx
    have hpq : p x = true → q x = true ∧ f x = g x := by
      intro hp
      have hmem := h.subset (List.mem_map_of_mem (List.mem_filter.2 ⟨hx, hp⟩))
      obtain ⟨y, hy, hxy⟩ := List.mem_map.1 hmem
      obtain rfl := hinj x hx y (List.mem_filter.1 hy).1 hxy.symm
      exact ⟨(List.mem_filter.1 hy).2, hxy.symm⟩
    have hqp : q x = true → p x = true := by
      intro hq
      have hmem := h.symm.subset (List.mem_map_of_mem (List.mem_filter.2 ⟨hx, hq⟩))
      obtain ⟨y, hy, hxy⟩ := List.mem_map.1 hmem
      obtain rfl := hinj y (List.mem_filter.1 hy).1 x hx hxy
      exact (List.mem_filter.1 hy).2
    exact ⟨Bool.eq_iff_iff.2 ⟨fun hp ↦ (hpq hp).1, hqp⟩, fun hp ↦ (hpq hp).2⟩
  · intro h
    have hfilter : l.filter p = l.filter q := List.filter_congr fun x hx ↦ (h x hx).1
    have hmap : (l.filter p).map f = (l.filter p).map g := List.map_congr_left fun x hx ↦
      (h x (List.mem_filter.1 hx).1).2 (List.mem_filter.1 hx).2
    rw [hmap, hfilter]

/-- The two systems classify a name alike. -/
def ClassifiedAlike (name : Str) : Prop :=
  isCppWin name = isCppPosix name ∧ isHWin name = isHPosix name

/-- **Where the two walks collect the same names.** The names are the same texts exactly if the
paths of the subdirectories fit into the buffer, every file that is reached is classified alike, and
nothing is collected below a subdirectory, whose path is spelled differently. As names of files, for
which a doubled slash means the same as a single one, they are the same exactly if the paths fit and
every file that is reached is classified alike. -/
theorem dfsFolder_agree_iff (folder : Folder) (hnames : folder.WellNamed) (path : Str) :
    let win := dfsFolderWin folder path {}
    ((∃ posix, dfsFolderPosix folder path {} = some posix ∧
        win.arycpp_fileName.Perm posix.arycpp_fileName ∧
        win.aryh_fileName.Perm posix.aryh_fileName) ↔
      folder.Fits path ∧ ∀ x ∈ folder.files, ClassifiedAlike x.2 ∧
        (x.1 = [] ∨ isCppWin x.2 = false ∧ isHWin x.2 = false)) ∧
    ((∃ posix, dfsFolderPosix folder path {} = some posix ∧
        (win.arycpp_fileName.map (Text.fields '/')).Perm
          (posix.arycpp_fileName.map (Text.fields '/')) ∧
        (win.aryh_fileName.map (Text.fields '/')).Perm
          (posix.aryh_fileName.map (Text.fields '/'))) ↔
      folder.Fits path ∧ ∀ x ∈ folder.files, ClassifiedAlike x.2) := by
  intro win
  have hproper : ∀ x ∈ folder.files, ProperPath x := fun x hx ↦ hnames.properPath hx
  have hfields : ∀ x ∈ folder.files, ∀ y ∈ folder.files,
      Text.fields '/' (winPath path x) = Text.fields '/' (posixPath path y) → x = y := by
    intro x hx y hy hxy
    rw [fields_winPath (hproper x hx), fields_posixPath (hproper y hy)] at hxy
    exact eq_of_append_singleton (List.append_cancel_left hxy)
  have hsame : ∀ x ∈ folder.files,
      Text.fields '/' (winPath path x) = Text.fields '/' (posixPath path x) := fun x hx ↦ by
    rw [fields_winPath (hproper x hx), fields_posixPath (hproper x hx)]
  have hwin : win = FileNames.add {} isCppWin isHWin (winPath path) folder.files :=
    dfsFolderWin_eq folder path {}
  by_cases hfits : folder.Fits path
  · rw [dfsFolderPosix_eq folder path {} hfits, hwin]
    simp only [FileNames.add, List.nil_append, Option.some.injEq, exists_eq_left', hfits, true_and,
      List.map_map]
    refine ⟨?_, ?_⟩
    · have hinj : ∀ x ∈ folder.files, ∀ y ∈ folder.files,
          winPath path x = posixPath path y → x = y := fun x hx y hy hxy ↦
        hfields x hx y hy (congrArg _ hxy)
      rw [perm_map_filter_iff hinj, perm_map_filter_iff hinj, ← forall₂_and]
      refine forall₂_congr fun x _ ↦ ?_
      rw [winPath_eq_posixPath_iff, ClassifiedAlike]
      grind
    · rw [perm_map_filter_iff (f := Text.fields '/' ∘ winPath path) (g := _ ∘ posixPath path)
          hfields,
        perm_map_filter_iff (f := Text.fields '/' ∘ winPath path) (g := _ ∘ posixPath path) hfields,
        ← forall₂_and]
      refine forall₂_congr fun x hx ↦ ?_
      simp only [ClassifiedAlike, Function.comp_apply, hsame x hx, implies_true, and_true]
  · rw [dfsFolderPosix_eq_none folder path {} hfits]
    simp [hfits]

/-- A source and a header, and a subdirectory with a text. -/
def sampleFolder : Folder :=
  .dir ".".toList .nil (.file "a.cpp".toList (.dir "sub".toList (.file "notes".toList .nil)
    (.file "b.h".toList .nil)))

theorem dfsFolder_agree_iff_sampleFolder :
    sampleFolder.WellNamed ∧
    let win := dfsFolderWin sampleFolder "p".toList {}
    ∃ posix, dfsFolderPosix sampleFolder "p".toList {} = some posix ∧
      win.arycpp_fileName.Perm posix.arycpp_fileName ∧
      win.aryh_fileName.Perm posix.aryh_fileName := by
  have hnames : sampleFolder.WellNamed := by simp [sampleFolder, Folder.WellNamed]
  refine ⟨hnames, (dfsFolder_agree_iff sampleFolder hnames "p".toList).1.2 ⟨?_, ?_⟩⟩
  · simp only [sampleFolder, Folder.Fits]
    decide
  · unfold ClassifiedAlike
    decide +kernel

/-- **A source `a.cc` is collected for Windows only.** -/
theorem dfsFolder_cc_differs :
    let folder := Folder.file "a.cc".toList .nil
    folder.WellNamed ∧
      (dfsFolderWin folder "p".toList {}).arycpp_fileName = ["p//a.cc".toList] ∧
      ∃ posix, dfsFolderPosix folder "p".toList {} = some posix ∧ posix.arycpp_fileName = [] ∧
        ¬ (dfsFolderWin folder "p".toList {}).arycpp_fileName.Perm posix.arycpp_fileName := by
  intro folder
  have hwin : (dfsFolderWin folder "p".toList {}).arycpp_fileName = ["p//a.cc".toList] := by
    decide +kernel
  have hposix : fileName isCppPosix isHPosix "p".toList "a.cc".toList {} = {} := by
    have hcpp : isCppPosix "a.cc".toList = false := by decide +kernel
    have hh : isHPosix "a.cc".toList = false := by decide +kernel
    rw [fileName, hcpp, hh]
    rfl
  refine ⟨by simp [folder, Folder.WellNamed], hwin, {}, congrArg some hposix, rfl, fun h ↦ ?_⟩
  rw [hwin] at h
  exact absurd h.length_eq (by decide)

end CArchitecture
