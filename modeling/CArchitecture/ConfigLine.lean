import CArchitecture.CreateHypergraph
import Mathlib.Data.List.GetD

/-!
# The configuration line

`createHypergraph` cuts the line at its blanks. A piece is stored when the blank **behind** it is
found, so the last word never is, although it counts: the `switch` is on one more than the number of
blanks. The option that is taken from the last word is read from an empty text, and is `0`.

* Every other piece begins with the blank before it, which `atoi` skips.
* So the options are the words of the line if and only if the last word has the value `0` anyway
  (`createHypergraph_optionsAre_iff`).
-/

namespace CArchitecture

/-- Words with single blanks between them, the first one taken apart. -/
theorem intercalate_blank (w : Str) (ws : List Str) :
    [' '].intercalate (w :: ws) = w ++ ws.flatMap (' ' :: ·) := by
  induction ws generalizing w with
  | nil => rw [List.intercalate_singleton, List.flatMap_nil, List.append_nil]
  | cons u ws ih =>
    rw [List.intercalate_cons_cons, ih, List.flatMap_cons, List.append_assoc]
    rfl

/-- **The pieces.** The search goes on behind `lead`, which is the blank found last, or nothing at
the beginning of the line; the piece that is open begins with it. -/
theorem lineWords_eq (front lead : Str) {w : Str} (hw : ' ' ∉ w) {ws : List Str}
    (hws : ∀ u ∈ ws, ' ' ∉ u) {fuel : ℕ} (hfuel : ws.length < fuel) :
    lineWords (front ++ lead ++ (w ++ ws.flatMap (' ' :: ·))) fuel front.length
      (CString.find " ".toList (front ++ lead ++ (w ++ ws.flatMap (' ' :: ·)))
        (front ++ lead).length) =
    ((lead ++ w) :: ws.map (' ' :: ·)).dropLast := by
  have hblank : " ".toList = ' ' :: [] := rfl
  induction ws generalizing front lead w fuel with
  | nil =>
    have hnone : CString.find " ".toList
        (front ++ lead ++ (w ++ ([] : List Str).flatMap (' ' :: ·))) (front ++ lead).length =
          none := by
      refine (CString.find_eq_none_iff (List.cons_ne_nil _ _)).2 fun q hq hpre ↦ hw ?_
      have hget := CString.getElem?_of_isPrefix hpre
      rw [List.flatMap_nil, List.append_nil, List.getElem?_append_right hq] at hget
      exact List.mem_of_getElem? hget
    rw [hnone]
    cases fuel with
    | zero => rfl
    | succ n => rfl
  | cons u ws ih =>
    obtain ⟨n, rfl⟩ : ∃ n, fuel = n + 1 := ⟨fuel - 1, by omega⟩
    have hfind : CString.find " ".toList
        (front ++ lead ++ (w ++ (u :: ws).flatMap (' ' :: ·))) (front ++ lead).length =
          some ((front ++ lead).length + w.length) :=
      CString.find_of_notMem hw (front ++ lead) [] (u ++ ws.flatMap (' ' :: ·))
    -- the piece runs to the blank that is found, and the next one begins there
    have hpiece : CString.substr (front ++ lead ++ (w ++ (u :: ws).flatMap (' ' :: ·)))
        front.length ((front ++ lead).length + w.length - front.length) = lead ++ w := by
      rw [CString.substr, List.append_assoc, List.drop_left, ← List.append_assoc]
      refine List.take_left' ?_
      simp only [List.length_append]
      omega
    have hfewer : ws.length < n := by simpa using hfuel
    have hnext := ih (front ++ lead ++ w) [' '] (hws u List.mem_cons_self)
      (fun v hv ↦ hws v (List.mem_cons_of_mem _ hv)) hfewer
    have hline : front ++ lead ++ w ++ [' '] ++ (u ++ ws.flatMap (' ' :: ·)) =
        front ++ lead ++ (w ++ (u :: ws).flatMap (' ' :: ·)) := by
      simp
    have hlen : (front ++ lead ++ w ++ [' ']).length = (front ++ lead).length + w.length + 1 := by
      simp only [List.length_append, List.length_singleton]
    rw [hline, hlen, List.length_append] at hnext
    rw [hfind, lineWords, hpiece, List.map_cons, List.dropLast_cons_cons]
    exact congrArg _ hnext

/-- **The array `str`** holds all words but the last one, and a blank before all but the first. -/
theorem optionWords_intercalate {w : Str} (hw : ' ' ∉ w) {ws : List Str}
    (hws : ∀ u ∈ ws, ' ' ∉ u) :
    optionWords ([' '].intercalate (w :: ws)) = (w :: ws.map (' ' :: ·)).dropLast := by
  have hfuel : ws.length < (w ++ ws.flatMap (' ' :: ·)).length + 1 := by
    have hle : ws.length ≤ (ws.flatMap (' ' :: ·)).length := by
      have hone := List.length_le_sum_of_one_le (ws.map fun u ↦ (' ' :: u).length) fun n hn ↦ by
        obtain ⟨u, -, rfl⟩ := List.mem_map.1 hn
        exact Nat.succ_pos _
      rwa [List.length_map, ← List.length_flatMap] at hone
    rw [List.length_append]
    omega
  rw [intercalate_blank, optionWords]
  exact lineWords_eq [] [] hw hws hfuel

section Options

variable {words : List Str}

theorem length_optionWords (hblank : ∀ w ∈ words, ' ' ∉ w) (hne : words ≠ []) :
    (optionWords ([' '].intercalate words)).length + 1 = words.length := by
  obtain ⟨w, ws, rfl⟩ := List.exists_cons_of_ne_nil hne
  obtain ⟨hw, hws⟩ := List.forall_mem_cons.1 hblank
  rw [optionWords_intercalate hw hws, List.length_dropLast, List.length_cons, List.length_map,
    Nat.add_sub_cancel, List.length_cons]

/-- **The value of a word**: the last one counts as `0`. -/
theorem atoi_optionWords (hblank : ∀ w ∈ words, ' ' ∉ w) (hne : words ≠ []) {k : ℕ} (hk : k ≠ 0) :
    CString.atoi ((optionWords ([' '].intercalate words)).getD k []) =
      if k + 1 < words.length then CString.atoi (words.getD k []) else 0 := by
  obtain ⟨w, ws, rfl⟩ := List.exists_cons_of_ne_nil hne
  obtain ⟨hw, hws⟩ := List.forall_mem_cons.1 hblank
  obtain ⟨k, rfl⟩ := Nat.exists_eq_succ_of_ne_zero hk
  rw [optionWords_intercalate hw hws, List.getD_eq_getElem?_getD, List.getElem?_dropLast,
    List.length_cons, List.length_map, List.length_cons]
  by_cases hlt : k + 1 < ws.length
  · rw [if_pos (by omega), if_pos (by omega), List.getElem?_cons_succ, List.getElem?_map,
      List.getElem?_eq_getElem (by omega), Option.map_some, Option.getD_some,
      CString.atoi_cons_of_isspace rfl, List.getD_cons_succ, List.getD_eq_getElem _ _ (by omega)]
  · rw [if_neg (by omega), if_neg (by omega)]
    rfl

/-- The options are the words of a configuration line. -/
structure CHypergraph.OptionsAre (h : CHypergraph) (words : List Str) : Prop where
  npart_eq : h.npart = CString.atoi (words.getD 1 [])
  ubfactor_eq : h.ubfactor = CString.atoi (words.getD 2 [])
  inOptions_eq : words.length = 9 → ∀ k, 1 ≤ k → k ≤ 5 →
    h.inOptions k = CString.atoi (words.getD (k + 2) [])
  seed_eq : words.length = 9 → h.inOptions 8 = CString.atoi (words.getD 8 [])

/-- Only the last word of the line is at stake. -/
theorem readOptions_optionsAre_iff (hblank : ∀ w ∈ words, ' ' ∉ w)
    (hlen : words.length = 3 ∨ words.length = 9) (h : CHypergraph) :
    (readOptions ([' '].intercalate words) h).OptionsAre words ↔
      CString.atoi (words.getD (words.length - 1) []) = 0 := by
  have hne : words ≠ [] := by
    rintro rfl
    simp at hlen
  have hcount := length_optionWords hblank hne
  have hstored : ∀ k, k ≠ 0 → k + 1 < words.length →
      CString.atoi ((optionWords ([' '].intercalate words)).getD k []) =
        CString.atoi (words.getD k []) :=
    fun k hk hlt ↦ (atoi_optionWords hblank hne hk).trans (if_pos hlt)
  have hlost : CString.atoi ((optionWords ([' '].intercalate words)).getD (words.length - 1) []) =
      0 := (atoi_optionWords hblank hne (by omega)).trans (if_neg (by omega))
  rw [readOptions]
  rcases hlen with hthree | hnine
  · have hnot : words.length ≠ 9 := by omega
    rw [hthree] at hlost ⊢
    simp only [hcount, hthree]
    constructor
    · exact fun hopt ↦ hopt.ubfactor_eq.symm.trans hlost
    · exact fun hzero ↦ {
        npart_eq := hstored 1 (by decide) (by omega)
        ubfactor_eq := hlost.trans hzero.symm
        inOptions_eq := fun h9 ↦ absurd h9 hnot
        seed_eq := fun h9 ↦ absurd h9 hnot }
  · rw [hnine] at hlost ⊢
    simp only [hcount, hnine]
    constructor
    · exact fun hopt ↦ (hopt.seed_eq hnine).symm.trans hlost
    · exact fun hzero ↦ {
        npart_eq := hstored 1 (by decide) (by omega)
        ubfactor_eq := hstored 2 (by decide) (by omega)
        inOptions_eq := fun _ k hk hk' ↦ by
          show (if k = 0 then _ else if k < 6 then _ else _) = _
          rw [if_neg (by omega), if_pos (by omega)]
          exact hstored (k + 2) (by omega) (by omega)
        seed_eq := fun _ ↦ hlost.trans hzero.symm }

end Options

/-- **The options of a configuration line** of three or nine words are its words if and only if the
last word has the value that is read for it, which is `0`. -/
theorem createHypergraph_optionsAre_iff (r : CalledRelation) (fathermap : OrdMap Str Str)
    (raw : CHypergraph) {words : List Str} (hblank : ∀ w ∈ words, ' ' ∉ w)
    (hlen : words.length = 3 ∨ words.length = 9) :
    ∃ h, createHypergraph r fathermap ([' '].intercalate words) raw = some h ∧
      (h.OptionsAre words ↔ CString.atoi (words.getD (words.length - 1) []) = 0) := by
  obtain ⟨h, hcreate, -⟩ := exists_createHypergraph r fathermap ([' '].intercalate words) raw
  obtain ⟨a, rfl⟩ := eq_readOptions_of_createHypergraph hcreate
  exact ⟨_, hcreate, readOptions_optionsAre_iff hblank hlen _⟩

/-- A line of three words. -/
def sampleLine : List Str := ["hTest_1".toList, "2".toList, "10".toList]

/-- A line with all options, as in the menu of test cases. -/
def sampleMenuLine : List Str :=
  ["hTest_1".toList, "2".toList, "10".toList, "10".toList, "1".toList, "1".toList, "1".toList,
    "0".toList, "0".toList]

theorem createHypergraph_optionsAre_iff_sampleMenuLine :
    (∀ w ∈ sampleMenuLine, ' ' ∉ w) ∧
    ∃ h, createHypergraph ∅ ∅ ([' '].intercalate sampleMenuLine) default = some h ∧
      h.OptionsAre sampleMenuLine := by
  have hblank : ∀ w ∈ sampleMenuLine, ' ' ∉ w := by decide
  obtain ⟨h, hcreate, hiff⟩ := createHypergraph_optionsAre_iff ∅ ∅ default hblank (Or.inr rfl)
  exact ⟨hblank, h, hcreate, hiff.2 (by decide)⟩

/-- The line asks for a balance of `10` and gets `0`. -/
theorem createHypergraph_sampleLine_not_optionsAre :
    sampleLine.length = 3 ∧ (∀ w ∈ sampleLine, w ≠ [] ∧ ' ' ∉ w) ∧
    ¬ ∃ h, createHypergraph ∅ ∅ ([' '].intercalate sampleLine) default = some h ∧
      h.OptionsAre sampleLine := by
  refine ⟨rfl, by decide, ?_⟩
  rintro ⟨h, hcreate, hopt⟩
  have hub : (createHypergraph ∅ ∅ ([' '].intercalate sampleLine) default).map
      CHypergraph.ubfactor = some 0 := by decide
  rw [hcreate, Option.map_some, Option.some_inj, hopt.ubfactor_eq] at hub
  exact absurd hub (by decide)

end CArchitecture
