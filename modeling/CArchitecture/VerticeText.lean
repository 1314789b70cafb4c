import CArchitecture.CreateHypergraph

/-!
# The text of the vertices

`createHypergraph` writes a line of `vertice.txt` when it meets a class for the first time, and it
does so in two places: for a class met as a key, the line tells its base classes, and for a class
met as a caller it does not. A class that is both is met as a caller first if a smaller key has it
among its callers.

* The lines are those of the numbering, in order, and the base classes are there exactly for the
  classes that were met as keys (`numberingPass_verticestring`).
* So the text is the one intended if and only if no class with base classes was met as a caller
  (`createHypergraph_verticestring_iff`). A missing suffix shows in the length of the text.
-/

namespace CArchitecture

open FirstSeen

/-! ### Lines -/

/-- The line of a vertex: its number, its name, and what is told of it. -/
def verticeLine (suffix : Str → Str) (p : Str × ℕ) : Str :=
  Text.decimal (p.2 + 1) ++ "  ".toList ++ p.1 ++ suffix p.1 ++ "\n".toList

/-- One line for each name, in the order of their numbers. -/
def verticeText (suffix : Str → Str) (names : List Str) : Str :=
  names.zipIdx.flatMap (verticeLine suffix)

section Lines

variable {suffix suffix' : Str → Str}

theorem verticeText_concat (suffix : Str → Str) (names : List Str) (x : Str) :
    verticeText suffix (names ++ [x]) =
      verticeText suffix names ++ verticeLine suffix (x, names.length) := by
  rw [verticeText, List.zipIdx_append, List.flatMap_append, ← verticeText]
  simp

/-- What is told at most. -/
def Omits (suffix suffix' : Str → Str) : Prop := ∀ x, suffix x = suffix' x ∨ suffix x = []

theorem Omits.length_suffix_le (h : Omits suffix suffix') (x : Str) :
    (suffix x).length ≤ (suffix' x).length := by
  rcases h x with hx | hx
  · rw [hx]
  · rw [hx]
    exact Nat.zero_le _

theorem length_verticeLine (suffix : Str → Str) (p : Str × ℕ) : (verticeLine suffix p).length =
    (Text.decimal (p.2 + 1)).length + 2 + p.1.length + (suffix p.1).length + 1 := by
  simp only [verticeLine, List.length_append]
  rfl

theorem Omits.length_flatMap_le (h : Omits suffix suffix') (l : List (Str × ℕ)) :
    (l.flatMap (verticeLine suffix)).length ≤ (l.flatMap (verticeLine suffix')).length := by
  induction l with
  | nil => exact le_rfl
  | cons p l ih =>
    have hp := h.length_suffix_le p.1
    simp only [List.flatMap_cons, List.length_append, length_verticeLine]
    omega

/-- **An omission shows**: the texts are the same only if the lines are. -/
theorem Omits.eq_of_flatMap_eq (h : Omits suffix suffix') {l : List (Str × ℕ)}
    (heq : l.flatMap (verticeLine suffix) = l.flatMap (verticeLine suffix')) :
    ∀ p ∈ l, suffix p.1 = suffix' p.1 := by
  induction l with
  | nil => simp
  | cons p l ih =>
    rw [List.flatMap_cons, List.flatMap_cons] at heq
    have hlen := congrArg List.length heq
    have hp := h.length_suffix_le p.1
    have hl := h.length_flatMap_le l
    rw [List.length_append, List.length_append, length_verticeLine, length_verticeLine] at hlen
    have hsame : (suffix p.1).length = (suffix' p.1).length := by omega
    refine List.forall_mem_cons.2 ⟨?_, ih (List.append_inj_right heq ?_)⟩
    · refine (h p.1).elim id fun hnil ↦ ?_
      rw [hnil, List.length_nil] at hsame
      rw [hnil, List.eq_nil_of_length_eq_zero hsame.symm]
    · rw [length_verticeLine, length_verticeLine, hsame]

theorem Omits.verticeText_eq_iff (h : Omits suffix suffix') (names : List Str) :
    verticeText suffix names = verticeText suffix' names ↔
      ∀ x ∈ names, suffix x = suffix' x := by
  constructor
  · intro heq x hx
    obtain ⟨i, hi, rfl⟩ := List.mem_iff_getElem.1 hx
    exact h.eq_of_flatMap_eq heq (names[i], i) (List.mk_mem_zipIdx_iff_getElem?.2
      (List.getElem?_eq_getElem hi))
  · intro hall
    refine List.flatMap_congr fun p hp ↦ ?_
    rw [verticeLine, verticeLine, hall p.1 (List.fst_mem_of_mem_zipIdx hp)]

end Lines

/-! ### Which branch writes the line -/

/-- The class is a key, and no smaller key has it among its callers. -/
def FirstMetAsKey (r : CalledRelation) (x : Str) : Prop :=
  x ∈ r.keys ∧ ∀ e ∈ r.entries, e.1 < x → x ∉ e.2.map CalledClass.name

instance (r : CalledRelation) (x : Str) : Decidable (FirstMetAsKey r x) :=
  inferInstanceAs (Decidable (_ ∧ _))

/-- What the line of a class tells behind its name. -/
def writtenSuffix (r : CalledRelation) (fathermap : OrdMap Str Str) (x : Str) : Str :=
  if FirstMetAsKey r x then fatherSuffix fathermap x else []

section Branches

variable {r : CalledRelation} {done rest : List (Str × List CalledClass)}
  {e : Str × List CalledClass}

/-- Smaller keys come before. -/
theorem mem_done_of_lt (hr : r.entries = done ++ e :: rest) {e' : Str × List CalledClass}
    (he' : e' ∈ r.entries) (hlt : e'.1 < e.1) : e' ∈ done := by
  have hsorted := r.sorted
  rw [hr] at he' hsorted
  rcases List.mem_append.1 he' with hmem | hmem
  · exact hmem
  · have hle : e.1 ≤ e'.1 := by
      rcases List.mem_cons.1 hmem with rfl | hmem
      · exact le_rfl
      · exact (List.rel_of_pairwise_cons (List.pairwise_append.1 hsorted).2.1 hmem).le
    exact absurd hlt hle.not_gt

/-- A key that has not been met. -/
theorem firstMetAsKey_of_notMem (hr : r.entries = done ++ e :: rest)
    (h : e.1 ∉ classSeq done) : FirstMetAsKey r e.1 := by
  refine ⟨List.mem_map_of_mem (hr ▸ by simp), fun e' he' hlt hmem ↦ h ?_⟩
  exact List.mem_flatMap.2 ⟨e', mem_done_of_lt hr he' hlt, List.mem_cons_of_mem _ hmem⟩

/-- A caller that has not been met. -/
theorem not_firstMetAsKey_of_notMem (hr : r.entries = done ++ e :: rest) {x : Str}
    (hx : x ∈ e.2.map CalledClass.name) (h : x ∉ classSeq done ++ [e.1]) :
    ¬ FirstMetAsKey r x := by
  rintro ⟨hkey, hsmaller⟩
  obtain ⟨e', he', rfl⟩ := List.mem_map.1 hkey
  rw [List.mem_append, List.mem_singleton, not_or] at h
  have hge : ¬ e.1 < e'.1 := fun hlt ↦ hsmaller e (hr ▸ by simp) hlt hx
  have hdone := mem_done_of_lt hr he' (lt_of_le_of_ne (not_lt.1 hge) h.2)
  exact h.1 (List.mem_flatMap.2 ⟨e', hdone, List.mem_cons_self⟩)

end Branches

/-! ### What is written -/

section Writing

variable {s : NumberingState} {seq : List Str} {suffix : Str → Str}

/-- A name met for the first time gets the next line. -/
theorem NumberingState.HasMet.verticestring_meet (h : s.HasMet seq)
    (htext : s.verticestring = verticeText suffix (scan [] seq)) {told x : Str}
    (htold : x ∉ seq → told = suffix x) :
    (CArchitecture.meet told s x).verticestring = verticeText suffix (scan [] (seq ++ [x])) := by
  have hscan : scan [] (seq ++ [x]) = push (scan [] seq) x := scan_append [] seq [x]
  by_cases hx : x ∈ scan [] seq
  · rw [CArchitecture.meet, h.table.find?_of_mem hx, hscan, push_of_mem hx]
    exact htext
  · have hnew : x ∉ seq := fun hmem ↦ hx (mem_scan.2 (Or.inr hmem))
    rw [CArchitecture.meet, h.table.find?_of_notMem hx, hscan, push_of_notMem hx,
      verticeText_concat, ← htext, verticeLine, ← htold hnew, ← h.classnum_eq]
    simp only [List.append_assoc]

/-- The callers of one key. -/
theorem foldl_meetCaller_verticestring (ps : List CalledClass) (h : s.HasMet seq)
    (htext : s.verticestring = verticeText suffix (scan [] seq))
    (hsuffix : ∀ x ∈ ps.map CalledClass.name, x ∉ seq → suffix x = []) :
    (ps.foldl meetCaller s).HasMet (seq ++ ps.map CalledClass.name) ∧
      (ps.foldl meetCaller s).verticestring =
        verticeText suffix (scan [] (seq ++ ps.map CalledClass.name)) := by
  induction ps generalizing s seq with
  | nil => simpa using ⟨h, htext⟩
  | cons p ps ih =>
    rw [List.map_cons, List.append_cons]
    rw [List.map_cons] at hsuffix
    have h' : NumberingState.HasMet
        { s with answerstring := s.answerstring ++ p.name ++ "  ".toList } seq :=
      ⟨h.table, h.classnum_eq, h.eindLength_eq⟩
    refine ih (h'.meet [] p.name) (h'.verticestring_meet htext fun hnew ↦ ?_) fun x hx hnew ↦ ?_
    · exact (hsuffix p.name List.mem_cons_self hnew).symm
    · exact hsuffix x (List.mem_cons_of_mem _ hx) fun hmem ↦ hnew (List.mem_append_left _ hmem)

end Writing

/-- **The text of the numbering pass**: a line for each class, in order, with the base classes of
those that were met as keys. -/
theorem numberingPass_verticestring (r : CalledRelation) (fathermap : OrdMap Str Str) :
    (numberingPass r fathermap).verticestring =
      verticeText (writtenSuffix r fathermap) (classOrder r) := by
  refine (Loop.foldl_invariant
    (fun done (s : NumberingState) ↦ s.HasMet (classSeq done) ∧
      s.verticestring = verticeText (writtenSuffix r fathermap) (scan [] (classSeq done)))
    ⟨hasMet_init, rfl⟩ fun done e rest s hr hs ↦ ?_).2
  obtain ⟨hmet, htext⟩ := hs
  have h' : NumberingState.HasMet { s with hyperstring := s.hyperstring ++ "1 ".toList }
      (classSeq done) := ⟨hmet.table, hmet.classnum_eq, hmet.eindLength_eq⟩
  have hkey := h'.meet (fatherSuffix fathermap e.1) e.1
  have hkeyText := h'.verticestring_meet htext fun hnew : e.1 ∉ classSeq done ↦
    (if_pos (firstMetAsKey_of_notMem hr hnew) : writtenSuffix r fathermap e.1 = _).symm
  have hcallers := foldl_meetCaller_verticestring e.2
    (s := { meetKey fathermap { s with hyperstring := s.hyperstring ++ "1 ".toList } e.1 with
      answerstring := (meetKey fathermap
        { s with hyperstring := s.hyperstring ++ "1 ".toList } e.1).answerstring ++ e.1 ++
          "   ->   ".toList })
    ⟨hkey.table, hkey.classnum_eq, hkey.eindLength_eq⟩ hkeyText
    fun x hx hnew ↦ if_neg (not_firstMetAsKey_of_notMem hr hx hnew)
  rw [classSeq, List.flatMap_append, List.flatMap_singleton, ← classSeq, entryNames,
    List.append_cons]
  exact ⟨⟨hcallers.1.table, hcallers.1.classnum_eq, hcallers.1.eindLength_eq⟩, hcallers.2⟩

theorem verticestring_of_createHypergraph {r : CalledRelation} {fathermap : OrdMap Str Str}
    {strPara : Str} {raw h : CHypergraph} (hh : createHypergraph r fathermap strPara raw = some h) :
    h.verticestring = verticeText (writtenSuffix r fathermap) (classOrder r) := by
  obtain ⟨a, rfl⟩ := eq_readOptions_of_createHypergraph hh
  obtain ⟨np, ub, opts, heq⟩ := readOptions_eq strPara
    (storeHypergraph (CHypergraph.new raw) (numberingPass r fathermap) a)
  rw [heq]
  exact numberingPass_verticestring r fathermap

/-- Base classes are missing from a line if there are any and the class was not met as a key. -/
theorem writtenSuffix_eq_iff {r : CalledRelation} {fathermap : OrdMap Str Str} {x : Str} :
    writtenSuffix r fathermap x = fatherSuffix fathermap x ↔
      ((fathermap.find? x).isSome → FirstMetAsKey r x) := by
  rw [writtenSuffix, fatherSuffix]
  by_cases hkey : FirstMetAsKey r x
  · rw [if_pos hkey]
    exact iff_of_true rfl fun _ ↦ hkey
  · rw [if_neg hkey]
    cases fathermap.find? x with
    | none => exact iff_of_true rfl fun hsome ↦ absurd hsome Bool.false_ne_true
    | some father =>
      refine iff_of_false (fun hnil ↦ ?_) fun himp ↦ hkey (himp rfl)
      exact List.cons_ne_nil _ _ hnil.symm

theorem omits_writtenSuffix (r : CalledRelation) (fathermap : OrdMap Str Str) :
    Omits (writtenSuffix r fathermap) (fatherSuffix fathermap) := by
  intro x
  rw [writtenSuffix]
  split_ifs
  · exact Or.inl rfl
  · exact Or.inr rfl

/-- **`vertice.txt`** has a line for each vertex, with the base classes of every class that has an
entry in `fathermap`, if and only if every such class is met as a key before it is met as a
caller. -/
theorem createHypergraph_verticestring_iff (r : CalledRelation) (fathermap : OrdMap Str Str)
    (strPara : Str) (raw : CHypergraph) :
    ∃ h, createHypergraph r fathermap strPara raw = some h ∧
      h.nvtxs = (classOrder r).length ∧
      (∀ v < h.nvtxs, className (numberingPass r fathermap).classtonum v = (classOrder r)[v]?) ∧
      (h.verticestring = verticeText (fatherSuffix fathermap) (classOrder r) ↔
        ∀ x ∈ classOrder r, (fathermap.find? x).isSome → FirstMetAsKey r x) := by
  obtain ⟨h, hcreate, hh⟩ := exists_createHypergraph r fathermap strPara raw
  refine ⟨h, hcreate, hh.nvtxs_eq, fun v hv ↦ ?_, ?_⟩
  · rw [hh.nvtxs_eq] at hv
    have htable : Numbers (numberingPass r fathermap).classtonum 1 (classOrder r) :=
      (numberingPass_spec r fathermap).1.table
    have hname := className_number htable (nodup_classOrder r) (List.getElem_mem hv)
    rwa [number_getElem (nodup_classOrder r) hv, ← List.getElem?_eq_getElem hv] at hname
  · rw [verticestring_of_createHypergraph hcreate,
      (omits_writtenSuffix r fathermap).verticeText_eq_iff]
    exact forall₂_congr fun x _ ↦ writtenSuffix_eq_iff

/-- `B` has a base class and is met as a caller of `A` before it is met as a key. -/
theorem createHypergraph_sampleRelation_verticestring :
    ¬ ∃ h, createHypergraph sampleRelation ((∅ : OrdMap Str Str).insert "B".toList "Base".toList)
        [] default = some h ∧
      h.verticestring = verticeText
        (fatherSuffix ((∅ : OrdMap Str Str).insert "B".toList "Base".toList))
        (classOrder sampleRelation) := by
  rintro ⟨h, hcreate, htext⟩
  rw [verticestring_of_createHypergraph hcreate, (omits_writtenSuffix _ _).verticeText_eq_iff]
    at htext
  exact absurd (htext "B".toList (by decide)) (by decide)

end CArchitecture
