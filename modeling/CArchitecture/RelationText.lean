import CArchitecture.HgrText
import CArchitecture.VerticeText
import CArchitecture.FindSymbol

/-!
# The three texts of a hypergraph

`createHypergraph` writes a class relation down three times: `relation.txt` says by names who calls
whom, `hypergraph.hgr` says it by numbers, and `vertice.txt` tells the names of the numbers. The
three are printed in one pass and read by different tools.

Here each of them gets a reader, written from its format. As long as names are made of letters,
digits and underscores, every text is read back as what it was printed from
(`readRelation_answerstring`, `readVertice_verticestring`), although a name may be empty. So the
edges of `hypergraph.hgr`, under the names of `vertice.txt`, are the lines of `relation.txt`
(`createHypergraph_textsAgree`).
-/

namespace CArchitecture

open FirstSeen Text

/-! ### The readers -/

/-- A text that a name can be: letters, digits and underscores, or nothing. -/
def IsName (s : Str) : Prop := ∀ c ∈ s, isNameChar c = true

instance (s : Str) : Decidable (IsName s) := inferInstanceAs (Decidable (∀ c ∈ s, _))

/-- What stands between a called class and its callers. -/
def arrowText : Str := "   ->   ".toList

/-- What stands behind a caller. -/
def gapText : Str := "  ".toList

/-- What stands between a class and its base classes. -/
def fatherText : Str := "  father: ".toList

/-- Read names that are each followed by two blanks. -/
def readNames : ℕ → Str → Option (List Str)
  | _, [] => some []
  | 0, _ :: _ => none
  | n + 1, s =>
    let rest := s.dropWhile isNameChar
    if gapText <+: rest then
      (readNames n (rest.drop gapText.length)).map (s.takeWhile isNameChar :: ·)
    else none

/-- Read a line of `relation.txt`: the called class, and its callers. -/
def readRelationLine (line : Str) : Option (Str × List Str) :=
  let rest := line.dropWhile isNameChar
  if arrowText <+: rest then
    (readNames rest.length (rest.drop arrowText.length)).map (line.takeWhile isNameChar, ·)
  else none

/-- Read `relation.txt`. -/
def readRelation (text : Str) : Option (List (Str × List Str)) :=
  (fields '\n' text).mapM readRelationLine

/-- Read the `k`-th line of `vertice.txt`, counted from zero: the class, and its base classes, if
any are told. -/
def readVerticeLine (k : ℕ) (line : Str) : Option (Str × Option Str) :=
  let rest := line.dropWhile Char.isDigit
  if readNat (line.takeWhile Char.isDigit) = some (k + 1) ∧ gapText <+: rest then
    let rest := rest.drop gapText.length
    match rest.dropWhile isNameChar with
    | [] => some (rest, none)
    | c :: told =>
      if fatherText <+: c :: told then
        some (rest.takeWhile isNameChar, some ((c :: told).drop fatherText.length))
      else none
  else none

/-- Read `vertice.txt`. -/
def readVertice (text : Str) : Option (List (Str × Option Str)) :=
  (fields '\n' text).zipIdx.mapM fun p ↦ readVerticeLine p.2 p.1

theorem arrowText_eq : arrowText = [' ', ' ', ' ', '-', '>', ' ', ' ', ' '] := by decide

theorem gapText_eq : gapText = [' ', ' '] := by decide

/-! ### Names and what follows them -/

section Names

variable {x : Str} {c : Char} {rest : Str}

/-- A name ends where something else begins. -/
theorem IsName.span_append (hx : IsName x) (hrest : ∀ c ∈ rest.head?, isNameChar c = false) :
    (x ++ rest).takeWhile isNameChar = x ∧ (x ++ rest).dropWhile isNameChar = rest := by
  have htake : rest.takeWhile isNameChar = [] := by
    cases rest with
    | nil => rfl
    | cons c rest => exact List.takeWhile_cons_of_neg (by simpa using hrest c rfl)
  have hdrop : rest.dropWhile isNameChar = rest := by
    cases rest with
    | nil => rfl
    | cons c rest => exact List.dropWhile_cons_of_neg (by simpa using hrest c rfl)
  refine ⟨?_, ?_⟩
  · rw [List.takeWhile_append_of_pos hx, htake, List.append_nil]
  · rw [List.dropWhile_append_of_pos hx, hdrop]

theorem IsName.notMem (hx : IsName x) (hc : isNameChar c = false) : c ∉ x := fun hmem ↦ by
  have hname := hx c hmem
  rw [hc] at hname
  exact absurd hname (by decide)

end Names

/-! ### `relation.txt` -/

/-- The line of a called class, without its line end. -/
def relationLine (e : Str × List Str) : Str := e.1 ++ arrowText ++ e.2.flatMap (· ++ gapText)

/-- Who calls whom, by names. -/
def callersOf (r : CalledRelation) : List (Str × List Str) :=
  r.entries.map fun e ↦ (e.1, e.2.map CalledClass.name)

@[simp] theorem answerstring_meet (suffix : Str) (s : NumberingState) (x : Str) :
    (meet suffix s x).answerstring = s.answerstring := by
  rw [meet]
  split <;> rfl

theorem foldl_meetCaller_answerstring (ps : List CalledClass) (s : NumberingState) :
    (ps.foldl meetCaller s).answerstring =
      s.answerstring ++ (ps.map CalledClass.name).flatMap (· ++ gapText) := by
  induction ps generalizing s with
  | nil => simp
  | cons p ps ih =>
    rw [List.foldl_cons, ih, meetCaller, answerstring_meet, List.map_cons, List.flatMap_cons]
    simp only [gapText, List.append_assoc]

/-- **The text of the numbering pass**: a line for each key, in order. -/
theorem numberingPass_answerstring (r : CalledRelation) (fathermap : OrdMap Str Str) :
    (numberingPass r fathermap).answerstring =
      (callersOf r).flatMap fun e ↦ relationLine e ++ ['\n'] := by
  have hentry : ∀ (s : NumberingState) (e : Str × List CalledClass),
      (numberEntry fathermap s e).answerstring =
        s.answerstring ++ (relationLine (e.1, e.2.map CalledClass.name) ++ ['\n']) := by
    intro s e
    have hend : "\n".toList = ['\n'] := by simp
    show (e.2.foldl meetCaller { meetKey fathermap { s with
        hyperstring := s.hyperstring ++ "1 ".toList } e.1 with
      answerstring := (meetKey fathermap { s with
        hyperstring := s.hyperstring ++ "1 ".toList } e.1).answerstring ++ e.1 ++
          arrowText }).answerstring ++ "\n".toList = _
    rw [foldl_meetCaller_answerstring, meetKey, answerstring_meet, relationLine, hend]
    simp only [List.append_assoc]
  refine Loop.foldl_invariant
    (fun done (s : NumberingState) ↦ s.answerstring =
      (done.map fun e : Str × List CalledClass ↦ (e.1, e.2.map CalledClass.name)).flatMap
        fun e ↦ relationLine e ++ ['\n'])
    rfl fun done e rest s _ hs ↦ ?_
  rw [hentry, hs, List.map_append, List.flatMap_append, List.map_singleton, List.flatMap_singleton]

theorem readNames_succ {s : Str} (hne : s ≠ []) (n : ℕ) : readNames (n + 1) s =
    if gapText <+: s.dropWhile isNameChar then
      (readNames n ((s.dropWhile isNameChar).drop gapText.length)).map (s.takeWhile isNameChar :: ·)
    else none := by
  obtain ⟨c, t, rfl⟩ := List.exists_cons_of_ne_nil hne
  rfl

/-- Names that are each followed by two blanks are read back. -/
theorem readNames_flatMap {xs : List Str} (hxs : ∀ x ∈ xs, IsName x) {n : ℕ}
    (hn : xs.length ≤ n) : readNames n (xs.flatMap (· ++ gapText)) = some xs := by
  induction xs generalizing n with
  | nil => cases n <;> rfl
  | cons x xs ih =>
    obtain ⟨m, rfl⟩ : ∃ m, n = m + 1 := ⟨n - 1, by simp at hn; omega⟩
    set rest := xs.flatMap (· ++ gapText) with hrest
    have hshape : (x :: xs).flatMap (· ++ gapText) = x ++ (gapText ++ rest) := by
      rw [List.flatMap_cons, List.append_assoc]
    have hgap : ∀ c ∈ (gapText ++ rest).head?, isNameChar c = false := by
      rw [gapText_eq]
      rintro c ⟨⟩
      decide
    have hspan := (hxs x List.mem_cons_self).span_append hgap
    have hne : x ++ (gapText ++ rest) ≠ [] := by simp [gapText]
    rw [hshape, readNames_succ hne, hspan.1, hspan.2, if_pos (List.prefix_append _ _),
      List.drop_left, ih (fun y hy ↦ hxs y (List.mem_cons_of_mem _ hy)) (by simpa using hn),
      Option.map_some]

theorem length_le_length_flatMap_gap (xs : List Str) :
    xs.length ≤ (xs.flatMap (· ++ gapText)).length := by
  induction xs with
  | nil => exact Nat.le_refl 0
  | cons x xs ih =>
    rw [List.flatMap_cons, List.length_append, List.length_append, List.length_cons]
    have : gapText.length = 2 := rfl
    omega

/-- **A line is read back.** -/
theorem readRelationLine_relationLine {e : Str × List Str} (hkey : IsName e.1)
    (hcallers : ∀ x ∈ e.2, IsName x) : readRelationLine (relationLine e) = some e := by
  have harrow : ∀ c ∈ (arrowText ++ e.2.flatMap (· ++ gapText)).head?, isNameChar c = false := by
    rw [arrowText_eq]
    rintro c ⟨⟩
    decide
  have hspan := hkey.span_append harrow
  have hlen : e.2.length ≤ (arrowText ++ e.2.flatMap (· ++ gapText)).length := by
    rw [List.length_append]
    exact (length_le_length_flatMap_gap e.2).trans (Nat.le_add_left _ _)
  rw [relationLine, List.append_assoc, readRelationLine, hspan.1, hspan.2,
    if_pos (List.prefix_append _ _), List.drop_left, readNames_flatMap hcallers hlen,
    Option.map_some]

/-- Every name of a relation is a name. -/
def CalledRelation.Named (r : CalledRelation) : Prop := ∀ x ∈ classSeq r.entries, IsName x

instance (r : CalledRelation) : Decidable r.Named := inferInstanceAs (Decidable (∀ x ∈ _, _))

theorem CalledRelation.Named.of_mem_callersOf {r : CalledRelation} (hr : r.Named)
    {e : Str × List Str} (he : e ∈ callersOf r) : IsName e.1 ∧ ∀ x ∈ e.2, IsName x := by
  obtain ⟨entry, hentry, rfl⟩ := List.mem_map.1 he
  exact ⟨hr _ (mem_classSeq_of_mem_entryNames hentry List.mem_cons_self),
    fun x hx ↦ hr x (mem_classSeq_of_mem_entryNames hentry (List.mem_cons_of_mem _ hx))⟩

theorem mapM_eq_some_of_forall {α β : Type*} {f : α → Option β} {g : β → α} {l : List β}
    (h : ∀ b ∈ l, f (g b) = some b) : (l.map g).mapM f = some l := by
  have hmap : l.mapM (f ∘ g) = some (l.map id) := Loop.mapM_eq_some h
  rw [List.mapM_map, hmap, List.map_id]

theorem newline_notMem_relationLine {e : Str × List Str} (hkey : IsName e.1)
    (hcallers : ∀ x ∈ e.2, IsName x) : '\n' ∉ relationLine e := by
  have hend : isNameChar '\n' = false := by decide
  rw [relationLine, List.mem_append, List.mem_append, List.mem_flatMap]
  rintro ((hmem | hmem) | ⟨x, hx, hmem⟩)
  · exact hkey.notMem hend hmem
  · rw [arrowText_eq] at hmem
    exact absurd hmem (by decide)
  · rcases List.mem_append.1 hmem with hmem | hmem
    · exact (hcallers x hx).notMem hend hmem
    · rw [gapText_eq] at hmem
      exact absurd hmem (by decide)

/-- **`relation.txt` is read back.** -/
theorem readRelation_answerstring {r : CalledRelation} (hr : r.Named)
    (fathermap : OrdMap Str Str) :
    readRelation (numberingPass r fathermap).answerstring = some (callersOf r) := by
  have hlines : (numberingPass r fathermap).answerstring =
      ((callersOf r).map relationLine).flatMap (· ++ ['\n']) := by
    rw [numberingPass_answerstring, List.flatMap_map]
  rw [readRelation, hlines, fields_flatMap]
  · exact mapM_eq_some_of_forall fun e he ↦
      readRelationLine_relationLine (hr.of_mem_callersOf he).1 (hr.of_mem_callersOf he).2
  · intro line hline
    obtain ⟨e, he, rfl⟩ := List.mem_map.1 hline
    exact newline_notMem_relationLine (hr.of_mem_callersOf he).1 (hr.of_mem_callersOf he).2
  · intro line hline hnil
    obtain ⟨e, -, rfl⟩ := List.mem_map.1 hline
    simp [relationLine, arrowText_eq] at hnil

/-! ### `vertice.txt` -/

/-- The base classes that the line of a class tells. -/
def toldFathers (r : CalledRelation) (fathermap : OrdMap Str Str) (x : Str) : Option Str :=
  if FirstMetAsKey r x then fathermap.find? x else none

/-- The classes in the order of their numbers, with the base classes that are told. -/
def verticesOf (r : CalledRelation) (fathermap : OrdMap Str Str) : List (Str × Option Str) :=
  (classOrder r).map fun x ↦ (x, toldFathers r fathermap x)

theorem writtenSuffix_eq (r : CalledRelation) (fathermap : OrdMap Str Str) (x : Str) :
    writtenSuffix r fathermap x = (toldFathers r fathermap x).elim [] (fatherText ++ ·) := by
  rw [writtenSuffix, toldFathers]
  split_ifs with hkey
  · rw [fatherSuffix]
    cases fathermap.find? x <;> rfl
  · rfl

theorem fatherText_eq : fatherText = ' ' :: ' ' :: "father: ".toList := by decide

/-- The line of a vertex, without its line end. -/
def vertexLine (k : ℕ) (p : Str × Option Str) : Str :=
  decimal (k + 1) ++ gapText ++ p.1 ++ p.2.elim [] (fatherText ++ ·)

/-- **A line is read back.** -/
theorem readVerticeLine_vertexLine {x : Str} (hx : IsName x) (k : ℕ) (told : Option Str) :
    readVerticeLine k (vertexLine k (x, told)) = some (x, told) := by
  rw [vertexLine]
  set suffix := told.elim [] (fatherText ++ ·) with hsuffix
  have hdigit : ∀ c ∈ decimal (k + 1), Char.isDigit c = true := fun c hc ↦
    isDigit_of_mem_decimal hc
  have hshape : decimal (k + 1) ++ gapText ++ x ++ suffix =
      decimal (k + 1) ++ (gapText ++ (x ++ suffix)) := by simp only [List.append_assoc]
  have htake : (decimal (k + 1) ++ (gapText ++ (x ++ suffix))).takeWhile Char.isDigit =
      decimal (k + 1) := by
    rw [List.takeWhile_append_of_pos hdigit, gapText_eq]
    exact (congrArg (decimal (k + 1) ++ ·) rfl).trans (List.append_nil _)
  have hdrop : (decimal (k + 1) ++ (gapText ++ (x ++ suffix))).dropWhile Char.isDigit =
      gapText ++ (x ++ suffix) := by
    rw [List.dropWhile_append_of_pos hdigit, gapText_eq]
    rfl
  have hhead : ∀ c ∈ suffix.head?, isNameChar c = false := by
    cases told with
    | none => exact fun c hc ↦ absurd hc (by simp [hsuffix])
    | some father =>
      rw [hsuffix, Option.elim_some, fatherText_eq]
      rintro c ⟨⟩
      decide
  obtain ⟨hname, hrest⟩ := hx.span_append hhead
  rw [hshape, readVerticeLine, htake, hdrop,
    if_pos ⟨readNat_decimal (k + 1), List.prefix_append _ _⟩]
  simp only [List.drop_left, hrest, hname]
  cases told with
  | none => simp only [hsuffix, Option.elim_none, List.append_nil]
  | some father =>
    have hne : suffix = ' ' :: (' ' :: "father: ".toList ++ father) := by
      rw [hsuffix, Option.elim_some, fatherText_eq]
      rfl
    rw [hne]
    show (if fatherText <+: ' ' :: (' ' :: "father: ".toList ++ father) then
      some (x, some ((' ' :: (' ' :: "father: ".toList ++ father)).drop fatherText.length))
      else none) = _
    rw [← hne, hsuffix, Option.elim_some, if_pos (List.prefix_append _ _), List.drop_left]

theorem mapM_readVerticeLine {l : List (Str × Option Str)} (hl : ∀ p ∈ l, IsName p.1) (n : ℕ) :
    (((l.zipIdx n).map fun p ↦ vertexLine p.2 p.1).zipIdx n).mapM
      (fun p ↦ readVerticeLine p.2 p.1) = some l := by
  induction l generalizing n with
  | nil => rfl
  | cons p l ih =>
    rw [List.zipIdx_cons, List.map_cons, List.zipIdx_cons, List.mapM_cons,
      ih fun q hq ↦ hl q (List.mem_cons_of_mem _ hq),
      readVerticeLine_vertexLine (hl p List.mem_cons_self)]
    rfl

/-- No list of base classes has a line end in it. -/
def OneLine (fathermap : OrdMap Str Str) : Prop :=
  ∀ x father, fathermap.find? x = some father → '\n' ∉ father

theorem newline_notMem_vertexLine {fathermap : OrdMap Str Str} (hfathers : OneLine fathermap)
    (r : CalledRelation) {x : Str} (hx : IsName x) (k : ℕ) :
    '\n' ∉ vertexLine k (x, toldFathers r fathermap x) := by
  have hend : isNameChar '\n' = false := by decide
  rw [vertexLine, List.mem_append, List.mem_append, List.mem_append]
  rintro (((hmem | hmem) | hmem) | hmem)
  · exact notMem_decimal (by decide) _ hmem
  · rw [gapText_eq] at hmem
    exact absurd hmem (by decide)
  · exact hx.notMem hend hmem
  · rw [toldFathers] at hmem
    split_ifs at hmem
    · cases hfind : fathermap.find? x with
      | none => rw [hfind] at hmem; exact absurd hmem List.not_mem_nil
      | some father =>
        rw [hfind] at hmem
        rcases List.mem_append.1 hmem with hmem | hmem
        · rw [fatherText_eq] at hmem
          exact absurd hmem (by decide)
        · exact hfathers x father hfind hmem
    · exact absurd hmem List.not_mem_nil

/-- **`vertice.txt` is read back.** -/
theorem readVertice_verticestring {r : CalledRelation} (hr : r.Named)
    {fathermap : OrdMap Str Str} (hfathers : OneLine fathermap) :
    readVertice (numberingPass r fathermap).verticestring = some (verticesOf r fathermap) := by
  have hname : ∀ x ∈ classOrder r, IsName x := fun x hx ↦ hr x (mem_classOrder.1 hx)
  have hlines : (numberingPass r fathermap).verticestring =
      ((verticesOf r fathermap).zipIdx.map fun p ↦ vertexLine p.2 p.1).flatMap (· ++ ['\n']) := by
    rw [numberingPass_verticestring, verticeText, verticesOf, List.zipIdx_map, List.map_map,
      List.flatMap_map]
    refine List.flatMap_congr fun p _ ↦ ?_
    rw [verticeLine, writtenSuffix_eq]
    rfl
  rw [readVertice, hlines, fields_flatMap]
  · refine mapM_readVerticeLine (fun p hp ↦ ?_) 0
    obtain ⟨x, hx, rfl⟩ := List.mem_map.1 hp
    exact hname x hx
  · intro line hline
    obtain ⟨⟨p, k⟩, hp, rfl⟩ := List.mem_map.1 hline
    obtain ⟨x, hx, rfl⟩ := List.mem_map.1 (List.fst_mem_of_mem_zipIdx hp)
    exact newline_notMem_vertexLine hfathers r (hname x hx) k
  · intro line hline hnil
    obtain ⟨⟨p, k⟩, -, rfl⟩ := List.mem_map.1 hline
    simp [vertexLine, decimal_ne_nil] at hnil

/-! ### The texts together -/

/-- The edges of a hypergraph text, under the names of its vertices. -/
def HgrFile.namedRows (f : HgrFile) (vertices : List (Str × Option Str)) :
    Option (List (List Str)) :=
  f.rows.mapM fun row ↦ row.mapM fun k ↦ (vertices[k - 1]?).map Prod.fst

/-- The edges are the entries of the relation. -/
theorem namedRows_fileOf (r : CalledRelation) (fathermap : OrdMap Str Str) :
    (fileOf r).namedRows (verticesOf r fathermap) =
      some ((callersOf r).map fun e ↦ e.1 :: e.2) := by
  have hrow : ∀ e ∈ r.entries, ((printedPins (classOrder r) e).mapM fun k ↦
      ((verticesOf r fathermap)[k - 1]?).map Prod.fst) = some (entryNames e) := by
    intro e he
    have hpins : printedPins (classOrder r) e =
        (entryNames e).map fun x ↦ number (classOrder r) x + 1 := by
      rw [printedPins, entryPins, List.map_map]
      rfl
    rw [hpins]
    refine mapM_eq_some_of_forall fun x hx ↦ ?_
    have hmem : x ∈ classOrder r := mem_classOrder.2 (mem_classSeq_of_mem_entryNames he hx)
    rw [Nat.add_sub_cancel, verticesOf, List.getElem?_map, getElem?_number hmem]
    rfl
  have hshape : ((callersOf r).map fun e ↦ e.1 :: e.2) = r.entries.map entryNames := by
    rw [callersOf, List.map_map]
    rfl
  rw [HgrFile.namedRows, hshape]
  show (r.entries.map (printedPins (classOrder r))).mapM _ = _
  rw [List.mapM_map]
  exact Loop.mapM_eq_some hrow

/-- Two of the texts are kept as the numbering pass has left them. -/
theorem texts_of_createHypergraph {r : CalledRelation} {fathermap : OrdMap Str Str} {strPara : Str}
    {raw h : CHypergraph} (hsome : createHypergraph r fathermap strPara raw = some h) :
    h.verticestring = (numberingPass r fathermap).verticestring ∧
      h.answerstring = (numberingPass r fathermap).answerstring := by
  obtain ⟨a, heq⟩ := eq_readOptions_of_createHypergraph hsome
  obtain ⟨np, ub, opts, hopts⟩ := readOptions_eq strPara
    (storeHypergraph (CHypergraph.new raw) (numberingPass r fathermap) a)
  rw [heq, hopts]
  exact ⟨rfl, rfl⟩

/-- **The three texts agree.** All of them are read back: `relation.txt` as the relation, and the
edges of `hypergraph.hgr`, under the names of `vertice.txt`, as the lines of `relation.txt`, in the
same order. There are no more vertices than names, and no two have the same. -/
theorem createHypergraph_textsAgree {r : CalledRelation} (hr : r.Named)
    {fathermap : OrdMap Str Str} (hfathers : OneLine fathermap) (strPara : Str)
    (raw : CHypergraph) :
    ∃ h f vertices, createHypergraph r fathermap strPara raw = some h ∧
      readHgr h.hyperstring = some f ∧ readVertice h.verticestring = some vertices ∧
      readRelation h.answerstring = some (callersOf r) ∧
      (vertices.map Prod.fst).Nodup ∧ vertices.length = f.nvtxs ∧
      f.namedRows vertices = some ((callersOf r).map fun e ↦ e.1 :: e.2) := by
  obtain ⟨h, hsome, hh⟩ := exists_createHypergraph r fathermap strPara raw
  have htexts := texts_of_createHypergraph hsome
  refine ⟨h, fileOf r, verticesOf r fathermap, hsome, ?_, ?_, ?_, ?_, ?_, ?_⟩
  · rw [hh.hyperstring_eq, readHgr_finishHyperstring]
  · rw [htexts.1, readVertice_verticestring hr hfathers]
  · rw [htexts.2, readRelation_answerstring hr]
  · rw [verticesOf, List.map_map]
    exact (List.map_id _).symm ▸ nodup_classOrder r
  · rw [verticesOf, List.length_map]
    rfl
  · exact namedRows_fileOf r fathermap

theorem createHypergraph_textsAgree_sampleRelation :
    (sampleRelation.Named ∧ OneLine ∅) ∧
    ∃ h f vertices, createHypergraph sampleRelation ∅ [] default = some h ∧
      readHgr h.hyperstring = some f ∧ readVertice h.verticestring = some vertices ∧
      readRelation h.answerstring = some (callersOf sampleRelation) ∧
      (vertices.map Prod.fst).Nodup ∧ vertices.length = f.nvtxs ∧
      f.namedRows vertices = some ((callersOf sampleRelation).map fun e ↦ e.1 :: e.2) := by
  have hnamed : sampleRelation.Named := by decide
  have hfathers : OneLine ∅ := fun x father h ↦ by simp at h
  exact ⟨⟨hnamed, hfathers⟩, createHypergraph_textsAgree hnamed hfathers [] default⟩

end CArchitecture
