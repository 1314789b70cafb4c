import CArchitecture.ReadCpp
import CArchitecture.ReadH
import Mathlib.Algebra.GroupWithZero.Nat
import Mathlib.Algebra.Order.BigOperators.Group.List
import Mathlib.Algebra.Order.Group.Nat

/-!
# From the files to the relation

`readEachfile` reads the headers into a map and the source files into a list, and `doParsing` makes
the relation of them: it collects the type definitions, finds out which parameters each method
calls, and calls `findsymbol` twice for every method, for the symbols `->` and `.`.

The functions that take names out of a text walk back from a symbol, or on from it, without a test
for the ends of the text, and the arguments of a call go to an array of fixed length. The second
half of this file says for which files nothing goes wrong (`isSome_doParsing_iff`): a condition for
every occurrence of a symbol (`SymbolOk`), which mentions all texts that the type of the variable
before it is looked for in (`lookups`).
-/

namespace CArchitecture

/-! ### Reading the files -/

/-- What the later stages use of a header. -/
def HeaderFile.toCReadH (h : HeaderFile) : CReadH where
  globalStr := h.globalStr
  headfile := h.headfile
  classdef := h.classdef.mapValues HeaderClass.toCClassContent

/-- A file: its name, with the directories, and its content. -/
structure FileText where
  fileName : Str
  content : Str

/-- The name of a file without the directories. -/
def headname (fileName : Str) : Option Str := do
  let k ← CString.back (· ≠ '/') fileName fileName.length
  some (fileName.drop k)

/-- One header. Of several with the same name the first one counts. -/
def readHeader (hmap : OrdMap Str CReadH) (f : FileText) : Option (OrdMap Str CReadH) := do
  let p ← readH f.content
  let headname ← headname f.fileName
  some (hmap.insert headname p.toCReadH)

/-- One source file. The list grows at its front. -/
def readSource (head : List CReadCpp) (f : FileText) : Option (List CReadCpp) := do
  let p ← readCpp f.content
  some (p :: head)

/-- `readEachfile`. -/
def readEachfile (aryh arycpp : List FileText) : Option (OrdMap Str CReadH × List CReadCpp) := do
  let hmap ← aryh.foldlM readHeader ∅
  let head ← arycpp.foldlM readSource []
  some (hmap, head)

/-! ### Type definitions -/

/-- `split`: the words of a line, none if it looks like more than a list of names. -/
def split (line : Str) : List Str :=
  if line.any (· ∈ ['\x7b', '<', '/', '(', '\x7d']) then []
  else (line.splitOnP (· ∈ [' ', '\t', ',', '\n', '*'])).filter (· ≠ [])

/-- Note the names that a type is given. A name that has one keeps it. -/
def insertNames (type : Str) (mapForTypeDef : OrdMap Str Str) (names : List Str) : OrdMap Str Str :=
  names.foldl (fun m name ↦ m.insert name type) mapForTypeDef

/-- One type definition. -/
def noteTypeDef (content : Str) (mapForTypeDef : OrdMap Str Str) (pos1 : ℕ) : OrdMap Str Str :=
  match CString.find ";".toList content pos1 with
  | none => mapForTypeDef
  | some pos2 =>
    match split (CString.substr content pos1 (pos2 - pos1)) with
    | _ :: type :: name :: names =>
      if type = "class".toList then insertNames name mapForTypeDef names
      else insertNames type mapForTypeDef (name :: names)
    | _ => mapForTypeDef

/-- `dealwithTypeDef`. Once there is no semicolon behind a type definition, there is none behind the
later ones. -/
def dealwithTypeDef (mapForTypeDef : OrdMap Str Str) (content : Str) : OrdMap Str Str :=
  (CString.occurrences "typedef".toList content).foldl (noteTypeDef content) mapForTypeDef

/-- The type definitions of all files, the headers first. -/
def typeDefs (hmap : OrdMap Str CReadH) (head : List CReadCpp) : OrdMap Str Str :=
  (hmap.entries.map (·.2.globalStr) ++ head.map (·.globalStr)).foldl dealwithTypeDef ∅

/-! ### Called parameters -/

/-- What stands between the first parentheses of a method. Without an opening one it starts with the
text. -/
def parameterList (methodbody : Str) : Str :=
  match CString.find ")".toList methodbody 0 with
  | none => []
  | some posEnd =>
    (methodbody.take posEnd).drop ((CString.find "(".toList methodbody 0).elim 0 (· + 1))

/-- The number of the parameter in which a name occurs first, counted from one. An empty name
occurs in the first one. -/
def parameterNumber (funcPara valuename : Str) : Option ℤ :=
  (CString.find valuename funcPara 0).map fun pos2 ↦ ((funcPara.take pos2).count ',' : ℤ) + 1

/-- One arrow of a method. -/
def noteParameter (methodbody : Str) (CallParemeter : List ℤ) (pos : ℕ) : Option (List ℤ) := do
  let valuename ← nameBefore methodbody pos
  some (CallParemeter ++ (parameterNumber (parameterList methodbody) valuename).toList)

/-- `InitCalledParameter`. -/
def initCalledParameter (p : CMethodBody) : Option CMethodBody := do
  let CallParemeter ←
    (CString.occurrences "->".toList p.body).foldlM (noteParameter p.body) p.CallParemeter
  some { p with CallParemeter := CallParemeter }

/-- The called parameters of all methods of a file. -/
def initCalledParameters (p : CReadCpp) : Option CReadCpp := do
  let cppclass ← p.cppclass.traverse (·.mapM initCalledParameter)
  some { p with cppclass := cppclass }

/-- `doParsing`, up to the call of `doModeling`. -/
def doParsing (fuel : ℕ) (hmap : OrdMap Str CReadH) (head : List CReadCpp) :
    Option RelationState := do
  let mapForTypeDef := typeDefs hmap head
  let head ← head.mapM initCalledParameters
  findsymbols fuel ⟨hmap, mapForTypeDef, head⟩ (parsingCalls head) {}

/-! ### Names around a symbol -/

/-- The name before position `pos`. -/
def valueAt (s : Str) (pos : ℕ) : Str := (s.take pos).rtakeWhile isNameChar

/-- A name is read if something stands before it. -/
theorem nameBefore_eq {s : Str} {pos : ℕ} (hpos : pos ≤ s.length)
    (h : ∃ c ∈ s.take pos, isNameChar c = false) : nameBefore s pos = some (valueAt s pos) := by
  induction pos with
  | zero => simp at h
  | succ pos ih =>
    have hlt : pos < s.length := hpos
    have htake : s.take (pos + 1) = s.take pos ++ [s[pos]] := (List.take_append_getElem hlt).symm
    rw [nameBefore, List.getElem?_eq_getElem hlt, Option.bind_eq_bind, Option.bind_some, valueAt,
      htake]
    rcases hname : isNameChar s[pos] with - | -
    · rw [if_neg Bool.false_ne_true, List.rtakeWhile_concat_neg _ _ _ (by simp [hname])]
    · obtain ⟨c, hc, hno⟩ := h
      rw [htake] at hc
      have hc' : c ∈ s.take pos := (List.mem_append.1 hc).resolve_right fun hlast ↦ by
        rw [List.mem_singleton.1 hlast, hname] at hno
        exact absurd hno (by simp)
      rw [if_pos rfl, ih hlt.le ⟨c, hc', hno⟩, List.rtakeWhile_concat_pos _ _ _ hname]
      rfl

theorem nameBefore_eq_none {s : Str} {pos : ℕ} (h : ¬ ∃ c ∈ s.take pos, isNameChar c = false) :
    nameBefore s pos = none := by
  induction pos with
  | zero => rfl
  | succ pos ih =>
    rw [nameBefore]
    cases hget : s[pos]? with
    | none => rfl
    | some c =>
      rw [List.take_add_one, hget] at h
      have hc : isNameChar c = true := by
        by_contra hno
        exact h ⟨c, by simp, Bool.eq_false_iff.2 hno⟩
      rw [Option.bind_eq_bind, Option.bind_some, if_pos hc,
        ih fun ⟨d, hd, hno⟩ ↦ h ⟨d, List.mem_append_left _ hd, hno⟩]
      rfl

/-- The called parameters of a method, if every name can be read. -/
def calledParameters (methodbody : Str) : List ℤ :=
  (CString.occurrences "->".toList methodbody).flatMap fun pos ↦
    (parameterNumber (parameterList methodbody) (valueAt methodbody pos)).toList

/-- A method with its called parameters. -/
def withParameters (p : CMethodBody) : CMethodBody :=
  { p with CallParemeter := p.CallParemeter ++ calledParameters p.body }

/-- A file with the called parameters of its methods. -/
def CReadCpp.withParameters (p : CReadCpp) : CReadCpp :=
  { p with cppclass := p.cppclass.mapValues (·.map CArchitecture.withParameters) }

/-- Something stands before the names of all arrows. -/
def ArrowsOk (methodbody : Str) : Prop :=
  ∀ pos, "->".toList <+: methodbody.drop pos → ∃ c ∈ methodbody.take pos, isNameChar c = false

theorem le_length_of_isPrefix {pat s : Str} {pos : ℕ} (hne : pat ≠ []) (h : pat <+: s.drop pos) :
    pos + pat.length ≤ s.length := by
  have hle := h.length_le
  have hpos := List.length_pos_iff_ne_nil.2 hne
  rw [List.length_drop] at hle
  omega

theorem initCalledParameter_eq {p : CMethodBody} (h : ArrowsOk p.body) :
    initCalledParameter p = some (withParameters p) := by
  have key : ∀ (l : List ℕ) (acc : List ℤ), (∀ pos ∈ l, "->".toList <+: p.body.drop pos) →
      l.foldlM (noteParameter p.body) acc = some (acc ++ l.flatMap fun pos ↦
        (parameterNumber (parameterList p.body) (valueAt p.body pos)).toList) := by
    intro l
    induction l with
    | nil =>
      intro acc _
      rw [List.flatMap_nil, List.append_nil]
      rfl
    | cons pos l ih =>
      intro acc hl
      have hpos := hl pos List.mem_cons_self
      have hle := le_length_of_isPrefix (by decide) hpos
      rw [List.foldlM_cons, noteParameter, nameBefore_eq (by omega) (h pos hpos),
        List.flatMap_cons, ← List.append_assoc]
      exact ih _ fun q hq ↦ hl q (List.mem_cons_of_mem _ hq)
  have hmem : ∀ pos ∈ CString.occurrences "->".toList p.body, "->".toList <+: p.body.drop pos :=
    fun pos hpos ↦ (CString.mem_occurrences (by decide)).1 hpos
  rw [initCalledParameter, key _ _ hmem]
  rfl

theorem initCalledParameter_eq_none {p : CMethodBody} (h : ¬ ArrowsOk p.body) :
    initCalledParameter p = none := by
  have hfold : ¬ ((CString.occurrences "->".toList p.body).foldlM (noteParameter p.body)
      p.CallParemeter).isSome := by
    rw [Loop.isSome_foldlM_iff (P := fun pos ↦ ∃ c ∈ p.body.take pos, isNameChar c = false)]
    · intro hall
      exact h fun pos hpos ↦ hall pos ((CString.mem_occurrences (by decide)).2 hpos)
    · intro acc pos hpos
      have hle := le_length_of_isPrefix (by decide) ((CString.mem_occurrences (by decide)).1 hpos)
      rw [noteParameter]
      by_cases hbefore : ∃ c ∈ p.body.take pos, isNameChar c = false
      · rw [nameBefore_eq (by omega) hbefore]
        simp [hbefore]
      · rw [nameBefore_eq_none hbefore]
        exact iff_of_false (by simp) hbefore
  rw [initCalledParameter, Option.not_isSome_iff_eq_none.1 hfold]
  rfl

/-- The methods of a file. -/
def CReadCpp.methods (p : CReadCpp) : List CMethodBody := p.cppclass.entries.flatMap (·.2)

/-- **The called parameters are found**, if there is something before the names of all arrows. -/
theorem mapM_initCalledParameters {head : List CReadCpp}
    (h : ∀ p ∈ head, ∀ q ∈ p.methods, ArrowsOk q.body) :
    head.mapM initCalledParameters = some (head.map CReadCpp.withParameters) := by
  refine Loop.mapM_eq_some fun p hp ↦ ?_
  have hclass : p.cppclass.traverse (·.mapM initCalledParameter) =
      some (p.cppclass.mapValues (·.map withParameters)) := by
    refine OrdMap.traverse_eq_some fun e he ↦ Loop.mapM_eq_some fun q hq ↦ ?_
    exact initCalledParameter_eq (h p hp q (List.mem_flatMap.2 ⟨e, he, hq⟩))
  rw [initCalledParameters, hclass]
  rfl

theorem mapM_initCalledParameters_eq_none {head : List CReadCpp}
    (h : ¬ ∀ p ∈ head, ∀ q ∈ p.methods, ArrowsOk q.body) :
    head.mapM initCalledParameters = none := by
  push Not at h
  obtain ⟨p, hp, q, hq, harrows⟩ := h
  obtain ⟨e, he, hqe⟩ := List.mem_flatMap.1 hq
  refine Loop.mapM_eq_none hp ?_
  rw [initCalledParameters, OrdMap.traverse_eq_none he
    (Loop.mapM_eq_none hqe (initCalledParameter_eq_none harrows))]
  rfl

/-! ### Method calls -/

/-- The name after the symbol at `pos` is followed by a parenthesis. -/
def CallAt (symbol methodbody : Str) (pos : ℕ) : Prop :=
  ((methodbody.drop (pos + symbol.length)).dropWhile isNameChar).head? = some '('

/-- What stands between the first parentheses after position `pos`. -/
def argumentText (methodbody : Str) (pos : ℕ) : Str :=
  match CString.find "(".toList methodbody pos, CString.find ")".toList methodbody pos with
  | some posStart, some posEnd => (methodbody.take posEnd).drop (posStart + 1)
  | _, _ => []

/-- There is room for the arguments if less than twenty commas come before the last character. -/
theorem isSome_foldlM_addArgumentChar {l : Str} {f : ℕ → Str} {n : ℕ} :
    (l.foldlM addArgumentChar (f, n)).isSome ↔
      l = [] ∨ n + l.dropLast.count ',' < maxArguments := by
  induction l generalizing f n with
  | nil => simp
  | cons c l ih =>
    rw [List.foldlM_cons, addArgumentChar, Option.bind_eq_bind]
    rcases Nat.lt_or_ge n maxArguments with hroom | hroom
    · rw [if_pos hroom, Option.bind_some, ih]
      rcases eq_or_ne l [] with rfl | hne
      · simpa using hroom
      · rw [List.dropLast_cons_of_ne_nil hne, List.count_cons]
        rcases eq_or_ne c ',' with rfl | hc
        · simp only [hne, false_or, if_true, beq_self_eq_true, reduceCtorEq]
          omega
        · simp [hne, hc]
    · rw [if_neg (by simpa using hroom), Option.bind_none]
      simp only [Option.isSome_none, Bool.false_eq_true, false_iff, not_or, not_lt]
      exact ⟨List.cons_ne_nil _ _, by omega⟩

theorem isSome_nameAfter_iff {s : Str} {i : ℕ} :
    (nameAfter s i).isSome ↔ ∃ c ∈ s.drop i, isNameChar c = false := by
  rw [nameAfter]
  cases hhead : ((s.drop i).dropWhile isNameChar).head? with
  | none =>
    rw [List.head?_eq_none_iff, List.dropWhile_eq_nil_iff] at hhead
    refine iff_of_false (by simp) ?_
    rintro ⟨c, hc, hno⟩
    rw [hhead c hc] at hno
    exact absurd hno (by simp)
  | some c =>
    refine iff_of_true (by simp) ⟨c, ?_, ?_⟩
    · exact (List.dropWhile_suffix _).subset (List.mem_of_mem_head? hhead)
    · have hnot := List.head?_dropWhile_not isNameChar (s.drop i)
      rw [hhead] at hnot
      exact hnot

/-- A parenthesis after the name is a parenthesis after the symbol. -/
theorem CallAt.find_isSome {symbol methodbody : Str} {pos : ℕ} (h : CallAt symbol methodbody pos) :
    ∃ posStart, CString.find "(".toList methodbody pos = some posStart := by
  have hmem : '(' ∈ methodbody.drop (pos + symbol.length) :=
    (List.dropWhile_suffix _).subset (List.mem_of_mem_head? h)
  obtain ⟨i, hi, hget⟩ := List.mem_iff_getElem.1 hmem
  have hpre : "(".toList <+: methodbody.drop (pos + symbol.length + i) := by
    rw [← List.drop_drop, List.drop_eq_getElem_cons hi, hget]
    exact ⟨_, rfl⟩
  obtain ⟨q, hq, -⟩ := CString.find_le_of_isPrefix (by omega : pos ≤ pos + symbol.length + i) hpre
    (by decide)
  exact ⟨q, hq⟩

/-- **When a method call can be read**: the name after the symbol ends before the text does, and
there is room for the arguments. -/
theorem isSome_methodCall_iff {symbol methodbody : Str} {pos : ℕ} :
    (methodCall symbol methodbody pos).isSome ↔
      (∃ c ∈ methodbody.drop (pos + symbol.length), isNameChar c = false) ∧
        (CallAt symbol methodbody pos →
          (argumentText methodbody pos).dropLast.count ',' < maxArguments) := by
  rw [← isSome_nameAfter_iff, methodCall, nameAfter]
  cases hhead : ((methodbody.drop (pos + symbol.length)).dropWhile isNameChar).head? with
  | none => simp
  | some c =>
    simp only [Option.bind_eq_bind, Option.bind_some, Option.isSome_some, true_and]
    rcases eq_or_ne c '(' with rfl | hc
    · obtain ⟨posStart, hstart⟩ := CallAt.find_isSome hhead
      have hfold : ∀ l : Str, ((l.foldlM addArgumentChar (fun _ ↦ [], 0)).bind fun x ↦
          some (some (⟨(methodbody.drop (pos + symbol.length)).takeWhile isNameChar, x.1, x.2⟩ :
            MethodCall))).isSome ↔ l.dropLast.count ',' < maxArguments := by
        intro l
        have hroom := isSome_foldlM_addArgumentChar (l := l) (f := fun _ ↦ []) (n := 0)
        have hnil : l = [] ∨ 0 + l.dropLast.count ',' < maxArguments ↔
            l.dropLast.count ',' < maxArguments := by
          rw [Nat.zero_add]
          refine or_iff_right_of_imp ?_
          rintro rfl
          decide
        rw [← hnil, ← hroom]
        cases l.foldlM addArgumentChar (fun _ ↦ [], 0) <;> simp
      rw [if_pos rfl, hstart, Option.bind_some, hfold]
      simp only [CallAt, hhead, true_imp_iff, argumentText, hstart]
      cases CString.find ")".toList methodbody pos <;> rfl
    · rw [if_neg hc]
      simp [CallAt, hhead, hc]

/-! ### The type of a variable -/

/-- A star or a blank. -/
def isStarOrBlank (c : Char) : Bool := c == '*' || c == ' ' || c == '\t'

theorem isStarOrBlank_iff {c : Char} : isStarOrBlank c ↔ c = '*' ∨ c = ' ' ∨ c = '\t' := by
  rw [isStarOrBlank, Bool.or_eq_true, Bool.or_eq_true, beq_iff_eq, beq_iff_eq, beq_iff_eq, or_assoc]

theorem isNameChar_eq_false_of_isStarOrBlank {c : Char} (h : isStarOrBlank c) :
    isNameChar c = false := by
  rcases isStarOrBlank_iff.1 h with rfl | rfl | rfl <;> rfl

/-- The text starts with stars and blanks, and then the name of the variable. -/
def LeadingName (content valuename : Str) (endpos : ℕ) : Prop :=
  ∃ blanks c rest, content = blanks ++ (valuename ++ c :: rest) ∧ blanks ≠ [] ∧
    blanks.length < endpos ∧ (∀ b ∈ blanks, isStarOrBlank b) ∧ isNameChar c = false

theorem isSome_typeBefore {s : Str} {k : ℕ} (hpos : 0 < k) (hk : k ≤ s.length) (typeofname : Str) :
    (typeBefore s k typeofname).isSome := by
  induction k generalizing typeofname with
  | zero => omega
  | succ k ih =>
    rw [typeBefore, List.getElem?_eq_getElem (by omega), Option.bind_eq_bind, Option.bind_some]
    split_ifs with hname hzero
    · rfl
    · exact ih (by omega) (by omega) _
    · rfl

section Findtype

variable {content valuename : Str} {endpos : ℕ}

/-- What `findtype` does at an occurrence that is neither at the beginning nor at the end. -/
theorem findtypeRound_eq {i : ℕ} {c d : Char} (hi : 0 < i)
    (hc : content[valuename.length + i]? = some c) (hd : content[i - 1]? = some d) :
    findtypeRound content valuename endpos (some i) =
      if isNameChar c ∨ isNameChar d then
        Sum.inl (CString.find valuename content (valuename.length + i))
      else if endpos ≤ i then Sum.inr (some [])
      else Sum.inr ((skipBack content i).bind fun k ↦ typeBefore content k []) := by
  have hlt := (List.getElem?_eq_some_iff.1 hc).1
  simp only [findtypeRound, CString.at?_natCast, hc, hd]
  rw [if_neg (by omega)]
  by_cases hc' : isNameChar c
  · rw [if_pos hc', if_pos (Or.inl hc')]
  · rw [if_neg hc', if_neg (by omega)]
    by_cases hd' : isNameChar d
    · rw [if_pos hd', if_pos (Or.inr hd')]
    · rw [if_neg hd', if_neg (not_or.2 ⟨hc', hd'⟩)]
      rfl

/-- A walk back over stars and blanks that ends does so inside of the text. -/
theorem pos_and_le_of_skipBack {i k : ℕ} (hi : i ≤ content.length)
    (hskip : skipBack content i = some k) : 0 < k ∧ k ≤ content.length := by
  rw [skipBack_eq_back] at hskip
  obtain ⟨b, hb, hno⟩ := (CString.isSome_back_iff hi).1 (Option.isSome_of_eq_some hskip)
  obtain rfl := CString.eq_of_back_eq_some hi hskip
  constructor
  · refine List.length_pos_iff_ne_nil.2 fun hnil ↦ ?_
    rw [List.dropWhile_eq_nil_iff.1 hnil b (List.mem_reverse.2 hb)] at hno
    exact absurd hno (by simp)
  · refine (List.dropWhile_suffix _).length_le.trans ?_
    rw [List.length_reverse, List.length_take]
    omega

/-- An occurrence at which `findtype` leaves the text has only stars and blanks before it. -/
theorem leadingName_of_findtypeRound (hne : valuename ≠ []) {i : ℕ}
    (hoccurs : valuename <+: content.drop i)
    (h : findtypeRound content valuename endpos (some i) = Sum.inr none) :
    LeadingName content valuename endpos := by
  have hlen := le_length_of_isPrefix hne hoccurs
  have hpos := List.length_pos_iff_ne_nil.2 hne
  rcases Nat.lt_or_ge (valuename.length + i) content.length with hlt | hge
  swap
  · rw [findtypeRound, if_pos (by omega)] at h
    exact absurd (Sum.inr.inj h) (by simp)
  rcases Nat.eq_zero_or_pos i with rfl | hi
  · simp only [findtypeRound, CString.at?_natCast, List.getElem?_eq_getElem hlt] at h
    rw [if_neg (by omega)] at h
    split_ifs at h
    exact absurd (Sum.inr.inj h) (by simp)
  have hc := List.getElem?_eq_getElem hlt
  have hd := List.getElem?_eq_getElem (by omega : i - 1 < content.length)
  rw [findtypeRound_eq hi hc hd] at h
  split_ifs at h with hname hend
  · exact absurd (Sum.inr.inj h) (by simp)
  · -- the walk over stars and blanks has no end
    have hback : skipBack content i = none := by
      cases hskip : skipBack content i with
      | none => rfl
      | some k =>
        rw [hskip, Option.bind_some] at h
        have hk := pos_and_le_of_skipBack (by omega) hskip
        have hsome := isSome_typeBefore hk.1 hk.2 []
        rw [Sum.inr.inj h] at hsome
        exact absurd hsome (by simp)
    obtain ⟨t, ht⟩ := hoccurs
    have hcontent : content = content.take i ++ (valuename ++ t) := by
      rw [ht, List.take_append_drop]
    have hblanks : ∀ b ∈ content.take i, isStarOrBlank b := by
      intro b hb
      by_contra hno
      rw [skipBack_eq_back, ← Option.not_isSome_iff_eq_none,
        CString.isSome_back_iff (by omega)] at hback
      exact hback ⟨b, hb, Bool.eq_false_iff.2 hno⟩
    have hnext : t.head? = some content[valuename.length + i] := by
      have := congrArg List.head? (congrArg (List.drop valuename.length) ht)
      rw [List.drop_left, List.drop_drop, List.head?_drop, Nat.add_comm, hc] at this
      exact this
    obtain ⟨rest, rfl⟩ : ∃ rest, t = content[valuename.length + i] :: rest :=
      ⟨t.tail, List.eq_cons_of_mem_head? hnext⟩
    refine ⟨content.take i, _, rest, hcontent, ?_, ?_, hblanks, ?_⟩
    · refine List.ne_nil_of_length_pos ?_
      rw [List.length_take]
      omega
    · rw [List.length_take]
      omega
    · exact Bool.eq_false_iff.2 fun h ↦ hname (Or.inl h)

theorem findtype_eq_none (hne : valuename ≠ []) (hname : ∀ c ∈ valuename, isNameChar c)
    (h : LeadingName content valuename endpos) : findtype content valuename endpos = none := by
  obtain ⟨blanks, c, rest, rfl, hblanks, hend, hall, hc⟩ := h
  have hpos := List.length_pos_iff_ne_nil.2 hblanks
  have hblank : ∀ b ∈ blanks, isNameChar b = false :=
    fun b hb ↦ isNameChar_eq_false_of_isStarOrBlank (hall b hb)
  -- the first occurrence is behind the blanks
  have hfind : CString.find valuename (blanks ++ (valuename ++ c :: rest)) 0 =
      some blanks.length := by
    obtain ⟨v, valuename, rfl⟩ := List.exists_cons_of_ne_nil hne
    have hv : v ∉ blanks := by
      intro hmem
      have hblankv := hblank v hmem
      rw [hname v List.mem_cons_self] at hblankv
      exact absurd hblankv (by simp)
    have hfirst := CString.find_of_notMem hv [] valuename (c :: rest)
    rwa [List.nil_append, List.length_nil, Nat.zero_add] at hfirst
  have hnext :
      (blanks ++ (valuename ++ c :: rest))[valuename.length + blanks.length]? = some c := by
    rw [List.getElem?_append_right (by omega), Nat.add_sub_cancel,
      List.getElem?_append_right le_rfl, Nat.sub_self]
    rfl
  have hbefore : (blanks ++ (valuename ++ c :: rest))[blanks.length - 1]? =
      some blanks[blanks.length - 1] := by
    rw [List.getElem?_append_left (by omega), List.getElem?_eq_getElem]
  have hback : skipBack (blanks ++ (valuename ++ c :: rest)) blanks.length = none := by
    rw [skipBack_eq_back, ← Option.not_isSome_iff_eq_none, CString.isSome_back_iff (by simp),
      List.take_left]
    rintro ⟨b, hb, hno⟩
    exact absurd (hall b hb) (by rw [isStarOrBlank, hno]; exact Bool.false_ne_true)
  have hround : findtypeRound (blanks ++ (valuename ++ c :: rest)) valuename endpos
      (some blanks.length) = Sum.inr none := by
    rw [findtypeRound_eq hpos hnext hbefore, if_neg, if_neg (by omega), hback, Option.bind_none]
    rw [hc, hblank _ (List.getElem_mem _)]
    simp
  rw [findtype, hfind, Loop.run_succ_of_inr hround]
  rfl

/-- **When a type can be looked for in a text**: if this does not start with stars and blanks and
then the name. -/
theorem isSome_findtype_iff (hne : valuename ≠ []) (hname : ∀ c ∈ valuename, isNameChar c) :
    (findtype content valuename endpos).isSome ↔ ¬ LeadingName content valuename endpos := by
  constructor
  · intro h hleading
    rw [findtype_eq_none hne hname hleading] at h
    exact absurd h (by simp)
  · intro h
    rw [Option.isSome_iff_ne_none]
    intro hnone
    obtain ⟨b, hb⟩ := exists_run_findtypeRound hne content endpos
    rw [findtype, hb, Option.join_some] at hnone
    refine h (Loop.run_invariant (fun pos ↦ ∀ i ∈ pos, valuename <+: content.drop i)
      (fun b ↦ b = none → LeadingName content valuename endpos) ?_ ?_ ?_ hb hnone)
    · rintro (- | i) pos' hpos hround
      · exact absurd hround Sum.inr_ne_inl
      · obtain rfl := eq_find_of_findtypeRound hround
        exact fun j hj ↦ (CString.of_find_eq_some hj).2
    · rintro (- | i) b hpos hround rfl
      · exact absurd (Sum.inr.inj hround) (by simp)
      · exact leadingName_of_findtypeRound hne (hpos i rfl) hround
    · exact fun i hi ↦ (CString.of_find_eq_some hi).2

end Findtype

/-! ### The texts that a type is looked for in -/

/-- The type that the first text gives which gives one. -/
def firstType (valuename : Str) : List (Str × ℕ) → Option Str
  | [] => some []
  | text :: rest => do
    let typeofname ← findtype text.1 valuename text.2
    if typeofname ≠ [] then some typeofname else firstType valuename rest

theorem firstType_append (valuename : Str) (l l' : List (Str × ℕ)) :
    firstType valuename (l ++ l') = (firstType valuename l).bind fun typeofname ↦
      if typeofname ≠ [] then some typeofname else firstType valuename l' := by
  induction l with
  | nil => simp [firstType]
  | cons text l ih =>
    rw [List.cons_append, firstType, firstType, ih]
    cases findtype text.1 valuename text.2 with
    | none => rfl
    | some typeofname =>
      simp only [Option.bind_eq_bind, Option.bind_some]
      split_ifs with htype
      · simp [htype]
      · rfl

/-- The search fails at the first text that it cannot look through. -/
theorem isSome_firstType_iff {valuename : Str} (hne : valuename ≠ [])
    (hname : ∀ c ∈ valuename, isNameChar c) {l : List (Str × ℕ)} :
    (firstType valuename l).isSome ↔ ∀ done text rest, l = done ++ text :: rest →
      (∀ t ∈ done, findtype t.1 valuename t.2 = some []) →
      ¬ LeadingName text.1 valuename text.2 := by
  simp only [← isSome_findtype_iff hne hname]
  induction l with
  | nil => simp [firstType]
  | cons t l ih =>
    rw [firstType]
    constructor
    · rintro h (- | ⟨u, done⟩) text rest heq hdone
      · obtain ⟨rfl, -⟩ := List.cons.inj heq
        exact Option.isSome_of_isSome_bind h
      · obtain ⟨rfl, rfl⟩ := List.cons.inj heq
        rw [hdone t List.mem_cons_self, Option.bind_eq_bind, Option.bind_some,
          if_neg (not_not.2 rfl), ih] at h
        exact h done text rest rfl fun u hu ↦ hdone u (List.mem_cons_of_mem _ hu)
    · intro h
      obtain ⟨typeofname, htype⟩ := Option.isSome_iff_exists.1
        (h [] t l rfl fun u hu ↦ absurd hu List.not_mem_nil)
      rw [htype, Option.bind_eq_bind, Option.bind_some]
      split_ifs with hnil
      · rfl
      · rw [not_not] at hnil
        subst hnil
        refine ih.2 fun done text rest heq hdone ↦ h (t :: done) text rest (by rw [heq]; rfl) ?_
        rintro u hu
        rcases List.mem_cons.1 hu with rfl | hu
        · exact htype
        · exact hdone u hu

/-- The headers that a queue of names leads to, in the order of the search. -/
def headersFrom (hmap : OrdMap Str CReadH) : ℕ → OrdMap Str Bool × List Str → List CReadH
  | 0, _ => []
  | _ + 1, (_, []) => []
  | n + 1, (donemap, oneheadfile :: allheadfile) =>
    match hmap.find? oneheadfile with
    | none => headersFrom hmap n (donemap, allheadfile)
    | some h => h :: headersFrom hmap n (h.headfile.foldl pushHeadfile (donemap, allheadfile))

/-- The names of headers that can be met from a file. -/
def headNames (hmap : OrdMap Str CReadH) (p : CReadCpp) : List Str :=
  ((p.headfile ++ hmap.entries.flatMap (·.2.headfile)).map baseName).dedup

/-- The headers that a file includes, directly or not. -/
def includedHeaders (hmap : OrdMap Str CReadH) (p : CReadCpp) : List CReadH :=
  headersFrom hmap ((headNames hmap p).length + 1) (p.headfile.foldl pushHeadfile (∅, []))

/-- The names that are queued or were not met yet. -/
def unmet (names : List Str) (s : OrdMap Str Bool × List Str) : ℕ :=
  s.2.length + (names.filter fun n ↦ (s.1.find? n).isNone).length

section Headers

variable {names : List Str} {s : OrdMap Str Bool × List Str}

theorem unmet_pushHeadfile (hnodup : names.Nodup) {headname : Str} (h : baseName headname ∈ names) :
    unmet names (pushHeadfile s headname) = unmet names s := by
  rw [pushHeadfile]
  cases hfind : s.1.find? (baseName headname) with
  | some b => rfl
  | none =>
    have hfilter : (names.filter fun n ↦ ((s.1.insert (baseName headname) true).find? n).isNone) =
        (names.filter fun n ↦ (s.1.find? n).isNone).erase (baseName headname) := by
      rw [(hnodup.filter _).erase_eq_filter, List.filter_filter]
      refine List.filter_congr fun n _ ↦ ?_
      rw [OrdMap.find?_insert]
      rcases eq_or_ne n (baseName headname) with rfl | hn
      · simp [hfind]
      · simp [hn]
    have hmem : baseName headname ∈ names.filter fun n ↦ (s.1.find? n).isNone :=
      List.mem_filter.2 ⟨h, by rw [hfind]; rfl⟩
    have hpos := List.length_pos_of_mem hmem
    simp only [unmet, hfilter, List.length_append, List.length_singleton,
      List.length_erase_of_mem hmem]
    omega

theorem unmet_foldl (hnodup : names.Nodup) {l : List Str} (h : ∀ n ∈ l, baseName n ∈ names) :
    unmet names (l.foldl pushHeadfile s) = unmet names s := by
  induction l generalizing s with
  | nil => rfl
  | cons n l ih =>
    rw [List.foldl_cons, ih fun m hm ↦ h m (List.mem_cons_of_mem _ hm),
      unmet_pushHeadfile hnodup (h n List.mem_cons_self)]

theorem nodup_headNames (hmap : OrdMap Str CReadH) (p : CReadCpp) : (headNames hmap p).Nodup :=
  List.nodup_dedup _

theorem baseName_mem_headNames (hmap : OrdMap Str CReadH) (p : CReadCpp) :
    ∀ e ∈ hmap.entries, ∀ n ∈ e.2.headfile, baseName n ∈ headNames hmap p := fun e he n hn ↦
  List.mem_dedup.2 (List.mem_map.2
    ⟨n, List.mem_append_right _ (List.mem_flatMap.2 ⟨e, he, hn⟩), rfl⟩)

/-- At the beginning all names were not met, or are queued. -/
theorem unmet_start_le (hmap : OrdMap Str CReadH) (p : CReadCpp) :
    unmet (headNames hmap p) (p.headfile.foldl pushHeadfile (∅, [])) ≤
      (headNames hmap p).length := by
  have hown : ∀ n ∈ p.headfile, baseName n ∈ headNames hmap p := fun n hn ↦
    List.mem_dedup.2 (List.mem_map.2 ⟨n, List.mem_append_left _ hn, rfl⟩)
  rw [unmet_foldl (nodup_headNames hmap p) hown, unmet, List.length_nil, Nat.zero_add]
  exact List.length_filter_le _ _

/-- **The search through the headers** is a search through their global variables, in order. -/
theorem run_headerRound_eq {tables : SymbolTables} {valuename : Str} (hnodup : names.Nodup)
    (hnames : ∀ e ∈ tables.hmap.entries, ∀ n ∈ e.2.headfile, baseName n ∈ names) {n m : ℕ}
    (hn : unmet names s < n) (hm : unmet names s < m) :
    (Loop.run (headerRound tables valuename) n s).join = firstType valuename
      ((headersFrom tables.hmap m s).map fun h ↦ (h.globalStr, h.globalStr.length)) := by
  induction n generalizing m s with
  | zero => omega
  | succ n ih =>
    obtain ⟨m, rfl⟩ : ∃ m', m = m' + 1 := ⟨m - 1, by omega⟩
    obtain ⟨donemap, - | ⟨oneheadfile, allheadfile⟩⟩ := s
    · rfl
    have hpop : unmet names (donemap, oneheadfile :: allheadfile) =
        unmet names (donemap, allheadfile) + 1 := by
      simp only [unmet, List.length_cons]
      omega
    rw [headersFrom]
    cases hfind : tables.hmap.find? oneheadfile with
    | none =>
      have hround : headerRound tables valuename (donemap, oneheadfile :: allheadfile) =
          Sum.inl (donemap, allheadfile) := by
        simp only [headerRound, hfind]
      rw [Loop.run_succ_of_inl hround]
      exact ih (by omega) (by omega)
    | some h =>
      have hpush : unmet names (h.headfile.foldl pushHeadfile (donemap, allheadfile)) =
          unmet names (donemap, allheadfile) :=
        unmet_foldl hnodup (hnames (oneheadfile, h) (OrdMap.mem_entries_iff.2 hfind))
      rw [List.map_cons, firstType]
      cases htype : findtype h.globalStr valuename h.globalStr.length with
      | none =>
        have hround : headerRound tables valuename (donemap, oneheadfile :: allheadfile) =
            Sum.inr none := by
          simp only [headerRound, hfind, htype]
        rw [Loop.run_succ_of_inr hround]
        rfl
      | some typeofname =>
        rw [Option.bind_eq_bind, Option.bind_some]
        rcases eq_or_ne typeofname [] with rfl | hne
        · have hround : headerRound tables valuename (donemap, oneheadfile :: allheadfile) =
              Sum.inl (h.headfile.foldl pushHeadfile (donemap, allheadfile)) := by
            simp [headerRound, hfind, htype]
          rw [Loop.run_succ_of_inl hround, if_neg (not_not.2 rfl)]
          exact ih (by omega) (by omega)
        · have hround : headerRound tables valuename (donemap, oneheadfile :: allheadfile) =
              Sum.inr (some typeofname) := by
            simp [headerRound, hfind, htype, hne]
          rw [Loop.run_succ_of_inr hround, if_pos hne]
          rfl

end Headers

/-- The definition of a class, in the first header of a file that has one. -/
def classBody (hmap : OrdMap Str CReadH) (classname : Str) (p : CReadCpp) : Option CClassContent :=
  p.headfile.findSome? fun headname ↦
    (hmap.find? (baseName headname)).bind fun h ↦ h.classdef.find? classname

/-- The texts in which the type of a variable before position `pos` is looked for, in order: the
method, the class, the global variables of the file and those of the headers. -/
def lookups (hmap : OrdMap Str CReadH) (methodbody classname : Str) (p : CReadCpp) (pos : ℕ) :
    List (Str × ℕ) :=
  (methodbody, pos) ::
    ((classBody hmap classname p).toList.map (fun c ↦ (c.defbody, c.defbody.length)) ++
      (p.globalStr, p.globalStr.length) ::
        (includedHeaders hmap p).map fun h ↦ (h.globalStr, h.globalStr.length))

section TypeOf

variable {tables : SymbolTables} {valuename methodbody classname : Str} {p : CReadCpp}
  {pos fuel : ℕ}

theorem findInClass_eq : (findInClass tables valuename classname p.headfile).map Prod.fst =
    firstType valuename ((classBody tables.hmap classname p).toList.map fun c ↦
      (c.defbody, c.defbody.length)) := by
  rw [classBody]
  induction p.headfile with
  | nil => rfl
  | cons headname headfile ih =>
    rw [findInClass, List.findSome?_cons]
    cases (tables.hmap.find? (baseName headname)).bind fun h ↦ h.classdef.find? classname with
    | none => exact ih
    | some c =>
      simp only [Option.toList_some, List.map_cons, List.map_nil, firstType]
      cases findtype c.defbody valuename c.defbody.length with
      | none => rfl
      | some typeofname =>
        rcases eq_or_ne typeofname [] with rfl | hne
        · simp
        · simp [hne]

theorem findInGlobals_eq (hfuel : (headNames tables.hmap p).length < fuel) :
    findInGlobals tables valuename fuel p = firstType valuename
      ((p.globalStr, p.globalStr.length) ::
        (includedHeaders tables.hmap p).map fun h ↦ (h.globalStr, h.globalStr.length)) := by
  have hstart := unmet_start_le tables.hmap p
  rw [findInGlobals, firstType, run_headerRound_eq (nodup_headNames _ _)
    (baseName_mem_headNames _ _) (by omega) (Nat.lt_succ_of_le hstart)]
  rfl

/-- **The type of a variable** is the first one that is found in a text. -/
theorem typeOf_eq (hfuel : (headNames tables.hmap p).length < fuel)
    (valuename methodbody classname : Str) (pos : ℕ) :
    (typeOf tables valuename fuel methodbody classname p pos).map Prod.fst =
      firstType valuename (lookups tables.hmap methodbody classname p pos) := by
  rw [typeOf, lookups, firstType, firstType_append, ← findInClass_eq, ← findInGlobals_eq hfuel]
  cases findtype methodbody valuename pos with
  | none => rfl
  | some typeofname =>
    simp only [Option.bind_eq_bind, Option.bind_some]
    rcases eq_or_ne typeofname [] with rfl | htype
    · rw [if_neg (not_not.2 rfl), if_neg (not_not.2 rfl)]
      cases findInClass tables valuename classname p.headfile with
      | none => rfl
      | some res =>
        obtain ⟨typeofname, isMember⟩ := res
        simp only [Option.bind_some, Option.map_some]
        split_ifs with htype
        · rfl
        · cases findInGlobals tables valuename fuel p <;> rfl
    · rw [if_pos htype, if_pos htype]
      rfl

end TypeOf

/-! ### One occurrence of a symbol -/

/-- No list of callers is empty. -/
def NoEmptyList (r : CalledRelation) : Prop := ∀ T, r.find? T ≠ some []

/-- The lists that a call of `findsymbol` works on. -/
def RecordsOk (s : RelationState × CalledRelation) : Prop :=
  NoEmptyList s.1.calledrelation ∧ NoEmptyList s.2

/-- The parameters that the called method calls have arguments in the array. -/
def ParametersFit (head : List CReadCpp) (typeofname : Str) (call : MethodCall) : Prop :=
  ∀ m, findMethod head typeofname call = some m →
    ∀ k ∈ m.CallParemeter, 0 ≤ k - 1 ∧ k - 1 < (maxArguments : ℤ)

section Records

variable {r r' : CalledRelation} {key : Str} {new : CalledClass}

theorem NoEmptyList.isSome_addRelation (h : NoEmptyList r) (key : Str) (new : CalledClass) :
    (addRelation r key new).isSome := by
  rw [addRelation]
  rcases hfind : r.find? key with - | - | ⟨c, l⟩
  · rfl
  · exact absurd hfind (h key)
  · rfl

theorem NoEmptyList.addRelation (h : NoEmptyList r) (hadd : addRelation r key new = some r') :
    NoEmptyList r' := by
  intro T
  rw [find?_addRelation hadd]
  split_ifs with hT
  · exact fun h ↦ addCaller_ne_nil (Option.some.inj h)
  · exact h T

theorem noteCall_some {s : RelationState} (h : NoEmptyList s.calledrelation)
    (classname typeofname : Str) (isMember : Bool) :
    ∃ s', noteCall classname typeofname isMember s = some s' ∧ NoEmptyList s'.calledrelation := by
  rw [noteCall]
  split_ifs with hself
  · obtain ⟨r', hr'⟩ := Option.isSome_iff_exists.1
      (h.isSome_addRelation typeofname { name := classname, count := 1, bIsmemberVar := isMember })
    exact ⟨_, by simp only [hr']; rfl, h.addRelation hr'⟩
  · exact ⟨_, rfl, h⟩

variable {head : List CReadCpp} {typeofname valuename : Str} {call : MethodCall}

theorem NoEmptyList.isSome_noteObjects_iff (h : NoEmptyList r) :
    (noteObjects head typeofname valuename call r).isSome ↔ ParametersFit head typeofname call := by
  rw [noteObjects, ParametersFit]
  cases findMethod head typeofname call with
  | none => simp
  | some m =>
    simp only [Option.some.injEq, forall_eq']
    refine Loop.isSome_foldlM_iff_of_invariant NoEmptyList ?_ ?_ h
    · intro r k _ r' hr hstep
      split_ifs at hstep
      exact hr.addRelation hstep
    · intro r hr k _
      split_ifs with hk
      · exact iff_of_true (hr.isSome_addRelation _ _) hk
      · exact iff_of_false (by simp) hk

theorem NoEmptyList.noteObjects (h : NoEmptyList r)
    (hnote : noteObjects head typeofname valuename call r = some r') : NoEmptyList r' := by
  rw [CArchitecture.noteObjects] at hnote
  cases hm : findMethod head typeofname call with
  | none =>
    rw [hm] at hnote
    exact Option.some.inj hnote ▸ h
  | some m =>
    rw [hm] at hnote
    refine Loop.foldlM_invariant NoEmptyList (fun r k _ r' hr hstep ↦ ?_) h hnote
    split_ifs at hstep
    exact hr.addRelation hstep

end Records

/-- The type that a name stands for. -/
def SymbolTables.resolve (tables : SymbolTables) (typeofname : Str) : Str :=
  (tables.mapForTypeDef.find? typeofname).getD typeofname

/-- Some header defines the class. -/
def SymbolTables.Defined (tables : SymbolTables) (typeofname : Str) : Prop :=
  ∃ e ∈ tables.hmap.entries, (e.2.classdef.find? typeofname).isSome

/-- **What the symbol at `pos` needs.** -/
structure SymbolOk (tables : SymbolTables) (call : SymbolCall) (pos : ℕ) : Prop where
  /-- Something stands before the name before it. -/
  before : ∃ c ∈ call.methodbody.take pos, isNameChar c = false
  /-- Something stands behind the name behind it. -/
  after : ∃ c ∈ call.methodbody.drop (pos + call.symbol.length), isNameChar c = false
  /-- If that is a method call, there is room for the arguments. -/
  arguments : CallAt call.symbol call.methodbody pos →
    (argumentText call.methodbody pos).dropLast.count ',' < maxArguments
  /-- No text that is looked through starts with stars and blanks and then the variable. -/
  types : valueAt call.methodbody pos ≠ [] → ∀ done text rest,
    lookups tables.hmap call.methodbody call.classname call.p pos = done ++ text :: rest →
    (∀ t ∈ done, findtype t.1 (valueAt call.methodbody pos) t.2 = some []) →
    ¬ LeadingName text.1 (valueAt call.methodbody pos) text.2
  /-- The parameters that the called method calls have arguments in the array. -/
  parameters : valueAt call.methodbody pos ≠ [] → ∀ typeofname,
    firstType (valueAt call.methodbody pos)
      (lookups tables.hmap call.methodbody call.classname call.p pos) = some typeofname →
    typeofname ≠ [] → tables.Defined (tables.resolve typeofname) →
    ∀ c, methodCall call.symbol call.methodbody pos = some (some c) →
      ParametersFit tables.head (tables.resolve typeofname) c

section Symbol

variable {tables : SymbolTables} {t t' : RelationState × CalledRelation}

theorem RecordsOk.noteHeader {classname valuename typeofname : Str} {isMember : Bool}
    {call : Option MethodCall} (ht : RecordsOk t) {h : Str × CReadH}
    (hnote : noteHeader tables classname valuename typeofname isMember call t h = some t') :
    RecordsOk t' := by
  rw [CArchitecture.noteHeader] at hnote
  cases hdef : h.2.classdef.find? typeofname with
  | none =>
    simp only [hdef] at hnote
    exact Option.some.inj hnote ▸ ht
  | some c =>
    simp only [hdef] at hnote
    obtain ⟨relations, hrelations, hnote⟩ := Option.bind_eq_some_iff.1 hnote
    obtain ⟨objectrelation, hobjects, hnote⟩ := Option.bind_eq_some_iff.1 hnote
    obtain rfl := Option.some.inj hnote
    obtain ⟨s', hs', hok⟩ := noteCall_some ht.1 classname typeofname isMember
    obtain rfl := Option.some.inj (hrelations.symm.trans hs')
    refine ⟨hok, ?_⟩
    cases call with
    | none => exact Option.some.inj hobjects ▸ ht.2
    | some call => exact ht.2.noteObjects hobjects

theorem RecordsOk.isSome_noteHeader_iff {classname valuename typeofname : Str} {isMember : Bool}
    {call : Option MethodCall} (ht : RecordsOk t) {h : Str × CReadH} :
    (CArchitecture.noteHeader tables classname valuename typeofname isMember call t h).isSome ↔
      ((h.2.classdef.find? typeofname).isSome →
        ∀ c, call = some c → ParametersFit tables.head typeofname c) := by
  rw [CArchitecture.noteHeader]
  cases h.2.classdef.find? typeofname with
  | none => simp
  | some c =>
    obtain ⟨s', hs', -⟩ := noteCall_some ht.1 classname typeofname isMember
    simp only [hs', Option.bind_eq_bind, Option.bind_some, Option.isSome_some, true_imp_iff]
    cases call with
    | none => simp
    | some call =>
      have hobjects : (noteObjects tables.head typeofname valuename call t.2).isSome ↔ _ :=
        ht.2.isSome_noteObjects_iff
      simp only [Option.some.injEq, forall_eq', Option.elim_some]
      rw [← hobjects]
      cases noteObjects tables.head typeofname valuename call t.2 <;> simp

theorem RecordsOk.noteSymbol {fuel : ℕ} {call : SymbolCall} {pos : ℕ} (ht : RecordsOk t)
    (hnote : noteSymbol fuel tables call.symbol call.methodbody call.classname call.p pos t =
      some t') :
    RecordsOk t' := by
  rw [CArchitecture.noteSymbol] at hnote
  obtain ⟨valuename, -, hnote⟩ := Option.bind_eq_some_iff.1 hnote
  obtain ⟨c, -, hnote⟩ := Option.bind_eq_some_iff.1 hnote
  split_ifs at hnote with hname
  swap
  · exact Option.some.inj hnote ▸ ht
  obtain ⟨⟨typeofname, isMember⟩, -, hnote⟩ := Option.bind_eq_some_iff.1 hnote
  simp only at hnote
  split_ifs at hnote with htype
  swap
  · exact Option.some.inj hnote ▸ ht
  exact Loop.foldlM_invariant RecordsOk (fun _ _ _ _ hu hround ↦ hu.noteHeader hround) ht hnote

/-- The loop over the headers goes through if the arguments of the call fit wherever the type is
defined. -/
theorem RecordsOk.isSome_noteHeaders_iff {classname valuename typeofname : Str} {isMember : Bool}
    {call : Option MethodCall} (ht : RecordsOk t) :
    (tables.hmap.entries.foldlM
        (CArchitecture.noteHeader tables classname valuename typeofname isMember call) t).isSome ↔
      (tables.Defined typeofname →
        ∀ c, call = some c → ParametersFit tables.head typeofname c) := by
  have hfold : (tables.hmap.entries.foldlM
      (CArchitecture.noteHeader tables classname valuename typeofname isMember call) t).isSome ↔
        ∀ e ∈ tables.hmap.entries, (e.2.classdef.find? typeofname).isSome →
          ∀ c, call = some c → ParametersFit tables.head typeofname c := by
    refine Loop.isSome_foldlM_iff_of_invariant RecordsOk ?_ ?_ ht
    · intro u e _ u' hu hround
      exact hu.noteHeader hround
    · intro u hu e _
      exact hu.isSome_noteHeader_iff
  rw [hfold]
  constructor
  · rintro h ⟨e, he, hdef⟩
    exact h e he hdef
  · intro h e he hdef
    exact h ⟨e, he, hdef⟩

theorem forall_mem_valueAt (s : Str) (pos : ℕ) : ∀ c ∈ valueAt s pos, isNameChar c :=
  fun _ h ↦ List.mem_rtakeWhile_imp h

/-- **When the symbol at `pos` can be worked on.** -/
theorem RecordsOk.isSome_noteSymbol_iff {fuel : ℕ} {call : SymbolCall} {pos : ℕ} (ht : RecordsOk t)
    (hpos : pos ≤ call.methodbody.length) (hfuel : (headNames tables.hmap call.p).length < fuel) :
    (CArchitecture.noteSymbol fuel tables call.symbol call.methodbody call.classname call.p pos
      t).isSome ↔ SymbolOk tables call pos := by
  have htypes := typeOf_eq hfuel (valueAt call.methodbody pos) call.methodbody call.classname pos
  rw [CArchitecture.noteSymbol]
  by_cases hbefore : ∃ c ∈ call.methodbody.take pos, isNameChar c = false
  swap
  · rw [nameBefore_eq_none hbefore]
    exact iff_of_false (by simp) fun h ↦ hbefore h.before
  rw [nameBefore_eq hpos hbefore, Option.bind_eq_bind, Option.bind_some]
  cases hcall : methodCall call.symbol call.methodbody pos with
  | none =>
    refine iff_of_false (by simp) fun h ↦ ?_
    have := isSome_methodCall_iff.2 ⟨h.after, h.arguments⟩
    rw [hcall] at this
    exact absurd this (by simp)
  | some c =>
    obtain ⟨hafter, harguments⟩ := isSome_methodCall_iff.1 (Option.isSome_of_eq_some hcall)
    rw [Option.bind_eq_bind, Option.bind_some]
    by_cases hvalue : valueAt call.methodbody pos ≠ []
    swap
    · rw [if_neg hvalue]
      exact iff_of_true rfl ⟨hbefore, hafter, harguments, fun h ↦ absurd h hvalue,
        fun h ↦ absurd h hvalue⟩
    rw [if_pos hvalue]
    have hlookups := isSome_firstType_iff hvalue (forall_mem_valueAt call.methodbody pos)
      (l := lookups tables.hmap call.methodbody call.classname call.p pos)
    cases htype : typeOf tables (valueAt call.methodbody pos) fuel call.methodbody call.classname
        call.p pos with
    | none =>
      rw [htype, Option.map_none] at htypes
      rw [← htypes] at hlookups
      exact iff_of_false (by simp) fun h ↦ absurd (hlookups.2 (h.types hvalue)) (by simp)
    | some res =>
      obtain ⟨typeofname, isMember⟩ := res
      rw [htype, Option.map_some] at htypes
      rw [← htypes] at hlookups
      have hleading := hlookups.1 rfl
      simp only [Option.bind_eq_bind, Option.bind_some]
      by_cases hfound : typeofname ≠ []
      swap
      · rw [if_neg hfound]
        refine iff_of_true rfl ⟨hbefore, hafter, harguments, fun _ ↦ hleading, ?_⟩
        intro _ typeofname' htype'
        rw [← htypes] at htype'
        obtain rfl := Option.some.inj htype'
        exact fun hne ↦ absurd hne hfound
      rw [if_pos hfound]
      refine ht.isSome_noteHeaders_iff.trans ?_
      constructor
      · intro h
        refine ⟨hbefore, hafter, harguments, fun _ ↦ hleading, ?_⟩
        intro _ typeofname' htype' _ hdef c' hc'
        rw [← htypes] at htype'
        obtain rfl := Option.some.inj htype'
        exact h hdef c' (Option.some.inj (hcall.symm.trans hc'))
      · rintro h hdef c' rfl
        exact h.parameters hvalue typeofname htypes.symm hfound hdef c' hcall

end Symbol

/-! ### All symbols -/

section Calls

variable {tables : SymbolTables} {fuel : ℕ} {call : SymbolCall}

/-- One occurrence of the symbol of a call. -/
def noteOccurrence (fuel : ℕ) (tables : SymbolTables) (call : SymbolCall)
    (t : RelationState × CalledRelation) (pos : ℕ) : Option (RelationState × CalledRelation) :=
  noteSymbol fuel tables call.symbol call.methodbody call.classname call.p pos t

/-- The loop over the symbols goes through their occurrences. -/
theorem run_symbolRound_eq (hne : call.symbol ≠ []) {n m start : ℕ}
    {t : RelationState × CalledRelation} (hstart : start ≤ call.methodbody.length)
    (hn : call.methodbody.length + 1 < start + n) (hm : call.methodbody.length < start + m) :
    (Loop.run (symbolRound fuel tables call.symbol call.methodbody call.classname call.p) n
      (CString.find call.symbol call.methodbody start, t)).join =
        ((CString.occurrencesFrom call.symbol call.methodbody m start).foldlM
          (noteOccurrence fuel tables call) t).map Prod.fst := by
  induction n generalizing m start t with
  | zero => omega
  | succ n ih =>
    obtain ⟨m, rfl⟩ : ∃ m', m = m' + 1 := ⟨m - 1, by omega⟩
    rw [CString.occurrencesFrom]
    cases hfind : CString.find call.symbol call.methodbody start with
    | none => rfl
    | some pos =>
      have hlt := (CString.of_find_eq_some hfind).1
      have hle := CString.add_length_le_of_find hfind hne
      have hpos := List.length_pos_iff_ne_nil.2 hne
      rw [List.foldlM_cons, noteOccurrence]
      cases hnote :
        noteSymbol fuel tables call.symbol call.methodbody call.classname call.p pos t with
      | none =>
        have hround : symbolRound fuel tables call.symbol call.methodbody call.classname call.p
            (some pos, t) = Sum.inr none := by
          simp only [symbolRound, hnote]
        rw [Loop.run_succ_of_inr hround]
        rfl
      | some t' =>
        have hround : symbolRound fuel tables call.symbol call.methodbody call.classname call.p
            (some pos, t) = Sum.inl
              (CString.find call.symbol call.methodbody (pos + call.symbol.length), t') := by
          simp only [symbolRound, hnote]
        rw [Loop.run_succ_of_inl hround, Option.bind_eq_bind, Option.bind_some]
        exact ih hle (by omega) (by omega)

theorem findsymbol_eq (hne : call.symbol ≠ []) (hfuel : call.methodbody.length + 1 < fuel)
    (s : RelationState) : findsymbol fuel tables s call =
      ((CString.occurrences call.symbol call.methodbody).foldlM (noteOccurrence fuel tables call)
        (s, ∅)).map Prod.fst :=
  run_symbolRound_eq hne (Nat.zero_le _) (by omega) (by omega)

/-- The symbol of a call is one of the two, and `find` meets all of its occurrences. -/
def SymbolCall.Searched (call : SymbolCall) : Prop :=
  ∃ c pat, call.symbol = c :: pat ∧ c ∉ pat

/-- The fuel that a call needs. -/
def SymbolCall.Fueled (tables : SymbolTables) (fuel : ℕ) (call : SymbolCall) : Prop :=
  call.methodbody.length + 1 < fuel ∧ (headNames tables.hmap call.p).length < fuel

theorem noEmptyList_findsymbol (hsymbol : call.Searched) (hfuel : call.Fueled tables fuel)
    {s s' : RelationState} (hs : NoEmptyList s.calledrelation)
    (h : findsymbol fuel tables s call = some s') : NoEmptyList s'.calledrelation := by
  obtain ⟨c, pat, hcall, -⟩ := hsymbol
  rw [findsymbol_eq (by rw [hcall]; exact List.cons_ne_nil _ _) hfuel.1] at h
  obtain ⟨t, ht, rfl⟩ := Option.map_eq_some_iff.1 h
  have hstart : RecordsOk (s, ∅) := ⟨hs, fun T ↦ by simp⟩
  exact (Loop.foldlM_invariant RecordsOk (fun _ _ _ _ hu hround ↦ hu.noteSymbol hround) hstart ht).1

/-- **When a call of `findsymbol` returns.** -/
theorem isSome_findsymbol_iff (hsymbol : call.Searched) (hfuel : call.Fueled tables fuel)
    {s : RelationState} (hs : NoEmptyList s.calledrelation) :
    (findsymbol fuel tables s call).isSome ↔
      ∀ pos, call.symbol <+: call.methodbody.drop pos → SymbolOk tables call pos := by
  obtain ⟨c, pat, hcall, hc⟩ := hsymbol
  have hne : call.symbol ≠ [] := by
    rw [hcall]
    exact List.cons_ne_nil _ _
  have hmem : ∀ {pos}, pos ∈ CString.occurrences call.symbol call.methodbody ↔
      call.symbol <+: call.methodbody.drop pos := by
    rw [hcall]
    exact CString.mem_occurrences hc
  have hstart : RecordsOk (s, ∅) := ⟨hs, fun T ↦ by simp⟩
  have hfold : ((CString.occurrences call.symbol call.methodbody).foldlM
      (noteOccurrence fuel tables call) (s, ∅)).isSome ↔
        ∀ pos ∈ CString.occurrences call.symbol call.methodbody, SymbolOk tables call pos := by
    refine Loop.isSome_foldlM_iff_of_invariant RecordsOk ?_ ?_ hstart
    · intro t pos _ t' ht hround
      exact ht.noteSymbol hround
    · intro t ht pos hpos
      have hle := le_length_of_isPrefix hne (hmem.1 hpos)
      exact ht.isSome_noteSymbol_iff (by omega) hfuel.2
  rw [findsymbol_eq hne hfuel.1, Option.isSome_map, hfold]
  exact forall_congr' fun pos ↦ imp_congr_left hmem

/-- **When calls of `findsymbol` return**, one after another. -/
theorem isSome_findsymbols_iff {calls : List SymbolCall}
    (hcalls : ∀ call ∈ calls, call.Searched ∧ call.Fueled tables fuel) {s : RelationState}
    (hs : NoEmptyList s.calledrelation) :
    (findsymbols fuel tables calls s).isSome ↔ ∀ call ∈ calls, ∀ pos,
      call.symbol <+: call.methodbody.drop pos → SymbolOk tables call pos :=
  Loop.isSome_foldlM_iff_of_invariant (fun s ↦ NoEmptyList s.calledrelation)
    (fun _ call hcall _ hs h ↦
      noEmptyList_findsymbol (hcalls call hcall).1 (hcalls call hcall).2 hs h)
    (fun _ hs call hcall ↦ isSome_findsymbol_iff (hcalls call hcall).1 (hcalls call hcall).2 hs) hs

end Calls

/-- The rounds that `doParsing` takes at most: characters of the methods, and names of headers. -/
def parsingFuel (hmap : OrdMap Str CReadH) (head : List CReadCpp) : ℕ :=
  ((parsingCalls head).map (·.methodbody.length)).sum +
    (head.map fun p ↦ (headNames hmap p).length).sum + 2

theorem parsingCalls_withParameters (head : List CReadCpp) :
    parsingCalls (head.map CReadCpp.withParameters) =
      (parsingCalls head).map fun call ↦ { call with p := call.p.withParameters } := by
  simp only [parsingCalls, List.flatMap_map, List.map_flatMap, CReadCpp.withParameters,
    OrdMap.mapValues, withParameters, List.map_cons, List.map_nil]

theorem mem_parsingCalls {head : List CReadCpp} {call : SymbolCall} :
    call ∈ parsingCalls head ↔ call.p ∈ head ∧ ∃ q, (∃ e ∈ call.p.cppclass.entries,
      call.classname = e.1 ∧ q ∈ e.2) ∧ call.methodbody = q.body ∧
        (call.symbol = "->".toList ∨ call.symbol = ".".toList) := by
  obtain ⟨symbol, methodbody, classname, p⟩ := call
  simp only [parsingCalls, List.mem_flatMap, List.mem_cons, List.not_mem_nil, or_false,
    SymbolCall.mk.injEq]
  constructor
  · rintro ⟨p', hp', e, he, q, hq, ⟨rfl, rfl, rfl, rfl⟩ | ⟨rfl, rfl, rfl, rfl⟩⟩
    · exact ⟨hp', q, ⟨e, he, rfl, hq⟩, rfl, Or.inl rfl⟩
    · exact ⟨hp', q, ⟨e, he, rfl, hq⟩, rfl, Or.inr rfl⟩
  · rintro ⟨hp, q, ⟨e, he, rfl, hq⟩, rfl, rfl | rfl⟩
    · exact ⟨p, hp, e, he, q, hq, Or.inl ⟨rfl, rfl, rfl, rfl⟩⟩
    · exact ⟨p, hp, e, he, q, hq, Or.inr ⟨rfl, rfl, rfl, rfl⟩⟩

/-- The calls of `doParsing` have enough fuel, and search for one of the two symbols. -/
theorem searched_of_mem_parsingCalls {hmap : OrdMap Str CReadH} {head : List CReadCpp} {fuel : ℕ}
    (hfuel : parsingFuel hmap head ≤ fuel) (tables : SymbolTables) (htables : tables.hmap = hmap) :
    ∀ call ∈ parsingCalls (head.map CReadCpp.withParameters),
      call.Searched ∧ call.Fueled tables fuel := by
  rw [parsingCalls_withParameters]
  intro call' hcall'
  obtain ⟨call, hcall, rfl⟩ := List.mem_map.1 hcall'
  have hbody := List.le_sum_of_mem (List.mem_map_of_mem (f := (·.methodbody.length)) hcall)
  obtain ⟨hp, -, -, -, hsymbol⟩ := mem_parsingCalls.1 hcall
  have hnames :=
    List.le_sum_of_mem (List.mem_map_of_mem (f := fun p ↦ (headNames hmap p).length) hp)
  rw [parsingFuel] at hfuel
  refine ⟨?_, ?_, ?_⟩
  · rcases hsymbol with h | h
    · exact ⟨'-', ['>'], h, by decide⟩
    · exact ⟨'.', [], h, by decide⟩
  · show call.methodbody.length + 1 < fuel
    omega
  · show (headNames tables.hmap call.p).length < fuel
    rw [htables]
    omega

/-- **When `doParsing` leaves no text and no array**, given enough fuel: exactly if every occurrence
of a symbol in a method has what it needs. -/
theorem isSome_doParsing_iff {hmap : OrdMap Str CReadH} {head : List CReadCpp} {fuel : ℕ}
    (hfuel : parsingFuel hmap head ≤ fuel) :
    (doParsing fuel hmap head).isSome ↔
      ∀ call ∈ parsingCalls (head.map CReadCpp.withParameters), ∀ pos,
        call.symbol <+: call.methodbody.drop pos →
          SymbolOk ⟨hmap, typeDefs hmap head, head.map CReadCpp.withParameters⟩ call pos := by
  rw [doParsing]
  by_cases harrows : ∀ p ∈ head, ∀ q ∈ p.methods, ArrowsOk q.body
  · rw [mapM_initCalledParameters harrows, Option.bind_eq_bind, Option.bind_some]
    exact isSome_findsymbols_iff (searched_of_mem_parsingCalls hfuel _ rfl) fun T ↦ by simp
  · -- the arrow without anything before its name is one of the occurrences
    rw [mapM_initCalledParameters_eq_none harrows]
    refine iff_of_false (by simp) fun h ↦ harrows fun p hp q hq pos hpos ↦ ?_
    obtain ⟨e, he, hqe⟩ := List.mem_flatMap.1 hq
    have hcall : (⟨"->".toList, q.body, e.1, p⟩ : SymbolCall) ∈ parsingCalls head :=
      mem_parsingCalls.2 ⟨hp, q, ⟨e, he, rfl, hqe⟩, rfl, Or.inl rfl⟩
    rw [parsingCalls_withParameters] at h
    exact (h _ (List.mem_map_of_mem hcall) pos hpos).before

/-- Two headers and a method for which nothing goes wrong. -/
theorem isSome_doParsing_iff_sampleTables :
    (doParsing (parsingFuel sampleTables.hmap sampleTables.head) sampleTables.hmap
        sampleTables.head).isSome ∧
      ∀ call ∈ parsingCalls (sampleTables.head.map CReadCpp.withParameters), ∀ pos,
        call.symbol <+: call.methodbody.drop pos →
          SymbolOk ⟨sampleTables.hmap, typeDefs sampleTables.hmap sampleTables.head,
            sampleTables.head.map CReadCpp.withParameters⟩ call pos := by
  have hsome : (doParsing (parsingFuel sampleTables.hmap sampleTables.head) sampleTables.hmap
      sampleTables.head).isSome := by decide +kernel
  exact ⟨hsome, (isSome_doParsing_iff le_rfl).1 hsome⟩

/-- A source file with a call that has twenty-two arguments. -/
def manyArguments : FileText where
  fileName := "src//a.cpp".toList
  content :=
    ("\nvoid A::f()\n\x7b\n b->g(0,0,0,0,0,0,0,0,0,0,0,0,0,0,0,0,0,0,0,0,0,0);\n\x7d\n").toList

/-- There is no room for the arguments, although the file is read. -/
theorem doParsing_manyArguments :
    ¬ ∀ aryh arycpp hmap head fuel, readEachfile aryh arycpp = some (hmap, head) →
      parsingFuel hmap head ≤ fuel → (doParsing fuel hmap head).isSome := by
  intro h
  have hnone : ((readEachfile [] [manyArguments]).map fun r ↦
      (doParsing (parsingFuel r.1 r.2) r.1 r.2).isSome) = some false := by decide +kernel
  obtain ⟨⟨hmap, head⟩, hread, hfalse⟩ := Option.map_eq_some_iff.1 hnone
  have hsome := h [] [manyArguments] hmap head _ hread le_rfl
  rw [hfalse] at hsome
  exact Bool.false_ne_true hsome

end CArchitecture
