import CArchitecture.Parsing
import CArchitecture.Readers

/-!
# The type of a declared variable

`findtype` finds a variable by its name, and the name may come before inside of longer names. It
passes over such an occurrence by as many characters as the name has. That never leads past the
variable itself: an occurrence consists of name characters only, and before the variable stands
another character (`WholeWordAt.add_length_le`). So the first occurrence that is a whole word
decides (`findtype_eq_declaredType`).

What is read there is the type, **exactly if there is something before the type**
(`Declaration.findtype_eq_some_iff`): a type at the very beginning of the text counts as none.
-/

namespace CArchitecture

/-- The name `v` is a whole word at position `j`. -/
def WholeWordAt (v s : Str) (j : ℕ) : Prop :=
  v <+: s.drop j ∧ (∀ c ∈ (s.take j).getLast?, isNameChar c = false) ∧
    ∀ c ∈ s[v.length + j]?, isNameChar c = false

instance (v s : Str) (j : ℕ) : Decidable (WholeWordAt v s j) :=
  inferInstanceAs (Decidable (_ ∧ _ ∧ _))

section WholeWord

variable {v content : Str} {endpos i j : ℕ}

theorem getLast?_take_of_pos {s : Str} (hi : 0 < i) (hle : i ≤ s.length) :
    (s.take i).getLast? = s[i - 1]? := by
  rw [List.getLast?_eq_getElem?, List.length_take, Nat.min_eq_left hle, List.getElem?_take,
    if_pos (by omega)]

/-- An occurrence of a name consists of name characters. -/
theorem exists_nameChar_of_isPrefix (hname : ∀ c ∈ v, isNameChar c) (h : v <+: content.drop j)
    (hj : j ≤ i) (hi : i < j + v.length) : ∃ c, content[i]? = some c ∧ isNameChar c := by
  have hlt : i - j < v.length := by omega
  refine ⟨v[i - j], ?_, hname _ (List.getElem_mem hlt)⟩
  have hget := (List.prefix_iff_getElem?.1 h) (i - j) hlt
  rwa [List.getElem?_drop, Nat.add_sub_cancel' hj] at hget

/-- A name occurs inside of the text only. -/
theorem forall_not_wholeWordAt (hne : v ≠ [])
    (h : ∀ j < content.length, ¬ WholeWordAt v content j) :
    ∀ j, ¬ WholeWordAt v content j := by
  intro j hword
  have hlen := hword.1.length_le
  have hpos := List.length_pos_iff_ne_nil.2 hne
  rw [List.length_drop] at hlen
  exact h j (by omega) hword

/-- **An occurrence before a whole word ends before it.** -/
theorem WholeWordAt.add_length_le (hname : ∀ c ∈ v, isNameChar c) {w : Str}
    (hword : WholeWordAt w content i) (hi : i ≤ content.length) (h : v <+: content.drop j)
    (hlt : j < i) : j + v.length ≤ i := by
  by_contra hover
  obtain ⟨c, hc, hcname⟩ := exists_nameChar_of_isPrefix hname h (i := i - 1) (by omega) (by omega)
  have hlast := hword.2.1 c (by rw [getLast?_take_of_pos (by omega) hi]; exact hc)
  exact Bool.false_ne_true (hlast.symm.trans hcname)

/-- An occurrence that is a part of a longer name is passed over. -/
theorem findtypeRound_of_not_wholeWordAt (h : v <+: content.drop j)
    (hnot : ¬ WholeWordAt v content j) (hlt : v.length + j < content.length) :
    findtypeRound content v endpos (some j) =
      Sum.inl (CString.find v content (v.length + j)) := by
  obtain ⟨c, hc⟩ : ∃ c, content[v.length + j]? = some c := ⟨_, List.getElem?_eq_getElem hlt⟩
  have hbehind : isNameChar c = false → ∀ d ∈ content[v.length + j]?, isNameChar d = false := by
    intro hno d hd
    rw [hc] at hd
    rwa [← Option.some.inj hd]
  rcases Nat.eq_zero_or_pos j with rfl | hj
  · have hcname : isNameChar c = true := by
      by_contra hno
      exact hnot ⟨h, by simp, hbehind (Bool.not_eq_true _ ▸ hno)⟩
    simp only [findtypeRound, CString.at?_natCast, hc, if_pos hcname]
    rw [if_neg (by omega)]
  · have hd := List.getElem?_eq_getElem (by omega : j - 1 < content.length)
    rw [findtypeRound_eq hj hc hd, if_pos]
    by_contra hno
    rw [not_or, Bool.not_eq_true, Bool.not_eq_true] at hno
    refine hnot ⟨h, fun d hd' ↦ ?_, hbehind hno.1⟩
    rw [getLast?_take_of_pos hj (by omega), hd] at hd'
    rw [← Option.some.inj hd']
    exact hno.2

/-- A whole word that is neither at the beginning nor at the end decides. -/
theorem findtypeRound_of_wholeWordAt (hword : WholeWordAt v content i) (hi : 0 < i)
    (hlt : v.length + i < content.length) (hend : i < endpos) :
    findtypeRound content v endpos (some i) = Sum.inr (declaredType content i) := by
  have hc := List.getElem?_eq_getElem hlt
  have hcname := hword.2.2 _ hc
  have hd := List.getElem?_eq_getElem (by omega : i - 1 < content.length)
  have hdname := hword.2.1 content[i - 1] (by rw [getLast?_take_of_pos hi (by omega)]; exact hd)
  rw [findtypeRound_eq hi hc hd, if_neg (by simp [hcname, hdname]), if_neg (by omega)]
  rfl

/-- **The first whole word decides.** -/
theorem findtype_eq_declaredType (hne : v ≠ []) (hname : ∀ c ∈ v, isNameChar c) (hi : 0 < i)
    (hlt : v.length + i < content.length) (hword : WholeWordAt v content i)
    (hfirst : ∀ j < i, ¬ WholeWordAt v content j) (hend : i < endpos) :
    findtype content v endpos = declaredType content i := by
  have hpos := List.length_pos_iff_ne_nil.2 hne
  -- from any position before the word on
  have key : ∀ n s, s ≤ i → i < s + n →
      Loop.run (findtypeRound content v endpos) n (CString.find v content s) =
        some (declaredType content i) := by
    intro n
    induction n with
    | zero => omega
    | succ n ih =>
      intro s hs hn
      obtain ⟨j, hfind, hle⟩ := CString.find_le_of_isPrefix hs hword.1 hne
      obtain ⟨hsj, hpre⟩ := CString.of_find_eq_some hfind
      rw [hfind]
      rcases Nat.eq_or_lt_of_le hle with rfl | hji
      · exact Loop.run_succ_of_inr (findtypeRound_of_wholeWordAt hword hi hlt hend) n
      · have hbehind := hword.add_length_le hname (by omega) hpre hji
        rw [Loop.run_succ_of_inl
          (findtypeRound_of_not_wholeWordAt hpre (hfirst j hji) (by omega)) n]
        exact ih (v.length + j) (by omega) (by omega)
  rw [findtype, key _ 0 (Nat.zero_le i) (by omega), Option.join_some]

end WholeWord

/-! ### A declaration -/

/-- A declaration `T v` after the text `pre`, with blanks and stars in between. -/
structure Declaration where
  pre : Str
  typeName : Str
  sep : Str
  valuename : Str
  behind : Char
  rest : Str

namespace Declaration

/-- The text of a declaration, with what comes before and after it. -/
def text (d : Declaration) : Str :=
  d.pre ++ (d.typeName ++ (d.sep ++ (d.valuename ++ d.behind :: d.rest)))

/-- Where the variable is. -/
def pos (d : Declaration) : ℕ := d.pre.length + d.typeName.length + d.sep.length

/-- The type and the variable are different names, and the variable is not a whole word before. -/
structure WellFormed (d : Declaration) : Prop where
  typeName : IsIdentifier d.typeName
  valuename : IsIdentifier d.valuename
  ne : d.typeName ≠ d.valuename
  sep_ne_nil : d.sep ≠ []
  sep_mem : ∀ c ∈ d.sep, isStarOrBlank c
  behind : isNameChar d.behind = false
  pre_getLast : ∀ c ∈ d.pre.getLast?, isNameChar c = false
  pre_words : ∀ j, ¬ WholeWordAt d.valuename d.pre j

variable {d : Declaration} {j : ℕ}

theorem length_text (d : Declaration) :
    d.text.length = d.pos + d.valuename.length + 1 + d.rest.length := by
  simp only [text, pos, List.length_append, List.length_cons]
  omega

theorem drop_pos (d : Declaration) : d.text.drop d.pos = d.valuename ++ d.behind :: d.rest := by
  rw [text, pos, Nat.add_assoc, List.drop_length_add_append, List.drop_length_add_append,
    List.drop_left]

namespace WellFormed

theorem not_nameChar_sep (h : d.WellFormed) {i : ℕ} (hi : d.pre.length + d.typeName.length ≤ i)
    (hlt : i < d.pos) : ∃ c, d.text[i]? = some c ∧ isNameChar c = false := by
  rw [pos] at hlt
  have hget : d.text[i]? = some d.sep[i - d.pre.length - d.typeName.length] := by
    rw [text, List.getElem?_append_right (by omega), List.getElem?_append_right (by omega),
      List.getElem?_append_left (by omega), List.getElem?_eq_getElem]
  have hin : i - d.pre.length - d.typeName.length < d.sep.length := by omega
  exact ⟨_, hget, isNameChar_eq_false_of_isStarOrBlank (h.sep_mem _ (List.getElem_mem hin))⟩

/-- The variable is a whole word. -/
theorem wholeWordAt_pos (h : d.WellFormed) : WholeWordAt d.valuename d.text d.pos := by
  have hsep := List.length_pos_iff_ne_nil.2 h.sep_ne_nil
  have hlen := d.length_text
  refine ⟨?_, fun c hc ↦ ?_, fun c hc ↦ ?_⟩
  · rw [drop_pos]
    exact List.prefix_append _ _
  · obtain ⟨b, hb, hno⟩ := h.not_nameChar_sep (i := d.pos - 1) (by rw [pos]; omega)
      (by rw [pos]; omega)
    rw [getLast?_take_of_pos (by rw [pos]; omega) (by omega), hb] at hc
    rwa [← Option.some.inj hc]
  · rw [Nat.add_comm, ← List.getElem?_drop, drop_pos, List.getElem?_append_right le_rfl,
      Nat.sub_self] at hc
    rw [← Option.some.inj hc]
    exact h.behind

/-- An occurrence of the name before the variable ends before the separator. -/
theorem add_length_le (h : d.WellFormed) (hpre : d.valuename <+: d.text.drop j) (hlt : j < d.pos) :
    j + d.valuename.length ≤ d.pre.length + d.typeName.length := by
  have hsep := List.length_pos_iff_ne_nil.2 h.sep_ne_nil
  have hvalue := List.length_pos_iff_ne_nil.2 h.valuename.ne_nil
  have hpos : d.pos = d.pre.length + d.typeName.length + d.sep.length := rfl
  by_contra hover
  obtain ⟨c, hc, hcname⟩ := exists_nameChar_of_isPrefix h.valuename.nameChars hpre
    (i := max j (d.pre.length + d.typeName.length)) (le_max_left _ _) (by omega)
  obtain ⟨b, hb, hno⟩ := h.not_nameChar_sep
    (i := max j (d.pre.length + d.typeName.length)) (le_max_right _ _) (by omega)
  obtain rfl := Option.some.inj (hc.symm.trans hb)
  exact Bool.false_ne_true (hno.symm.trans hcname)

theorem nameChar_typeName (h : d.WellFormed) {k : ℕ} (hk : k < d.typeName.length) :
    ∃ c, d.text[d.pre.length + k]? = some c ∧ isNameChar c := by
  refine ⟨d.typeName[k], ?_, h.typeName.nameChars _ (List.getElem_mem hk)⟩
  rw [text, List.getElem?_append_right (by omega), Nat.add_sub_cancel_left,
    List.getElem?_append_left hk, List.getElem?_eq_getElem]

/-- A whole word that ends in the text before the declaration is one of that text. -/
theorem not_wholeWordAt_pre (h : d.WellFormed)
    (hbefore : j + d.valuename.length ≤ d.pre.length) :
    ¬ WholeWordAt d.valuename d.text j := by
  rintro ⟨hpre, hprev, hnext⟩
  refine h.pre_words j ⟨?_, fun c hc ↦ hprev c ?_, fun c hc ↦ hnext c ?_⟩
  · rw [text, List.drop_append_of_le_length (by omega)] at hpre
    exact List.prefix_of_prefix_length_le hpre (List.prefix_append _ _)
      (by rw [List.length_drop]; omega)
  · rwa [text, List.take_append_of_le_length (by omega)]
  · have hin := (List.getElem?_eq_some_iff.1 hc).1
    rwa [text, List.getElem?_append_left hin]

/-- A whole word before it would be one of the text before the declaration, or the type. -/
theorem not_wholeWordAt (h : d.WellFormed) (hlt : j < d.pos) :
    ¬ WholeWordAt d.valuename d.text j := by
  intro hword
  have hend := h.add_length_le hword.1 hlt
  rcases Nat.lt_or_ge d.pre.length (j + d.valuename.length) with hbehind | hbefore
  swap
  · exact h.not_wholeWordAt_pre hbefore hword
  obtain ⟨hpre, hprev, hnext⟩ := hword
  -- it does not start before the type
  obtain ⟨a, rfl⟩ : ∃ a, j = d.pre.length + a := by
    refine Nat.exists_eq_add_of_le (not_lt.1 fun hj ↦ ?_)
    obtain ⟨c, hc, hcname⟩ := exists_nameChar_of_isPrefix h.valuename.nameChars hpre
      (i := d.pre.length - 1) (by omega) (by omega)
    rw [text, List.getElem?_append_left (by omega), ← List.getLast?_eq_getElem?] at hc
    exact Bool.false_ne_true ((h.pre_getLast c hc).symm.trans hcname)
  have hvalue := List.length_pos_iff_ne_nil.2 h.valuename.ne_nil
  -- nor inside of it
  obtain rfl : a = 0 := by
    by_contra hne
    obtain ⟨c, hc, hcname⟩ := h.nameChar_typeName (k := a - 1) (by omega)
    rw [← Nat.add_sub_assoc (Nat.pos_of_ne_zero hne)] at hc
    have hno := hprev c (by
      rw [getLast?_take_of_pos (by omega) (by have := d.length_text; omega)]
      exact hc)
    exact Bool.false_ne_true (hno.symm.trans hcname)
  rw [Nat.add_zero, text, List.drop_left] at hpre
  have hle : d.valuename.length ≤ d.typeName.length := by omega
  have hinit := List.prefix_of_prefix_length_le hpre (List.prefix_append _ _) hle
  rcases Nat.eq_or_lt_of_le hle with heq | hshort
  · exact h.ne (hinit.eq_of_length heq).symm
  · obtain ⟨c, hc, hcname⟩ := h.nameChar_typeName hshort
    rw [Nat.add_comm] at hc
    exact Bool.false_ne_true ((hnext c hc).symm.trans hcname)

/-- **What is read at the variable.** -/
theorem declaredType_text (h : d.WellFormed) :
    declaredType d.text d.pos = some (if d.pre = [] then [] else d.typeName) := by
  have hstars : ∀ c ∈ d.sep, c = '*' ∨ c = ' ' ∨ c = '\t' :=
    fun c hc ↦ isStarOrBlank_iff.1 (h.sep_mem c hc)
  split_ifs with hnil
  · have hskip := skipBack_append h.typeName hstars [] (d.valuename ++ d.behind :: d.rest)
    rw [List.nil_append, List.length_nil, Nat.zero_add] at hskip
    rw [declaredType, text, pos, hnil, List.nil_append, List.length_nil, Nat.zero_add, hskip,
      Option.bind_eq_bind, Option.bind_some]
    refine typeBefore_eq_nil (List.length_pos_iff_ne_nil.2 h.typeName.ne_nil) (by simp) ?_ []
    rw [List.take_left]
    exact h.typeName.nameChars
  · obtain ⟨p, c, hpre⟩ := (List.eq_nil_or_concat d.pre).resolve_left hnil
    rw [List.concat_eq_append] at hpre
    refine declaredType_eq h.typeName ⟨p, c, d.sep, d.valuename ++ d.behind :: d.rest, ?_, ?_,
      h.pre_getLast c (by rw [hpre, List.getLast?_concat]; rfl), hstars⟩
    · rw [text, hpre]
      simp
    · rw [pos, hpre]
      simp
      omega

end WellFormed

/-- **The type of a declared variable** is found exactly if the declaration is not at the very
beginning of the text. There the code has read the type, and returns nothing. -/
theorem findtype_eq_some_iff (h : d.WellFormed) {endpos : ℕ} (hend : d.pos < endpos) :
    findtype d.text d.valuename endpos = some d.typeName ↔ d.pre ≠ [] := by
  have hsep := List.length_pos_iff_ne_nil.2 h.sep_ne_nil
  rw [findtype_eq_declaredType h.valuename.ne_nil h.valuename.nameChars (i := d.pos)
    (by rw [pos]; omega) (by rw [length_text]; omega) h.wholeWordAt_pos
    (fun j hj ↦ h.not_wholeWordAt hj) hend, h.declaredType_text, Option.some.injEq]
  split_ifs with hnil
  · simp [hnil, h.typeName.ne_nil.symm]
  · simp [hnil]

/-- A declaration behind names that contain the name of the variable. -/
def sampleAfter : Declaration :=
  ⟨"int count2, recount;\n".toList, "Graph".toList, " *".toList, "count".toList, ';', []⟩

/-- A declaration at the very beginning of the text. -/
def sampleAtStart : Declaration :=
  ⟨[], "Graph".toList, " ".toList, "count".toList, ';', "\nint i;".toList⟩

theorem findtype_eq_some_iff_sampleAfter :
    sampleAfter.WellFormed ∧ sampleAfter.pos < 100 ∧
      findtype sampleAfter.text "count".toList 100 = some "Graph".toList := by
  have hwell : sampleAfter.WellFormed :=
    { typeName := ⟨by decide, 'G', rfl, by decide⟩
      valuename := ⟨by decide, 'c', rfl, by decide⟩
      ne := by decide
      sep_ne_nil := by decide
      sep_mem := by decide
      behind := by decide
      pre_getLast := by decide
      pre_words := forall_not_wholeWordAt (by decide) (by decide +kernel) }
  exact ⟨hwell, by decide, (findtype_eq_some_iff hwell (by decide)).2 (by decide)⟩

theorem findtype_sampleAtStart :
    sampleAtStart.WellFormed ∧ sampleAtStart.pos < 100 ∧
      findtype sampleAtStart.text "count".toList 100 = some [] ∧
      findtype sampleAtStart.text "count".toList 100 ≠ some "Graph".toList := by
  have hrun : findtype sampleAtStart.text "count".toList 100 = some [] := by decide +kernel
  refine ⟨?_, by decide, hrun, by rw [hrun]; decide⟩
  exact
    { typeName := ⟨by decide, 'G', rfl, by decide⟩
      valuename := ⟨by decide, 'c', rfl, by decide⟩
      ne := by decide
      sep_ne_nil := by decide
      sep_mem := by decide
      behind := by decide
      pre_getLast := by decide
      pre_words := forall_not_wholeWordAt (by decide) (by decide +kernel) }

end Declaration

end CArchitecture
