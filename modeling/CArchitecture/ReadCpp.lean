import CArchitecture.SourceText
import Mathlib.Data.List.TakeWhile

/-!
# Reading a source file

`CReadCpp` finds the methods that a source file defines. It looks for `::` and takes the line around
it for the beginning of a definition, unless the line ends in a semicolon or starts with a blank.
The class is the word before the `::`, the body reaches from the beginning of the line to the
closing brace, and the search goes on behind it.

Most of this is done by loops that walk to a line end or to a blank, forwards or backwards, with no
test for the ends of the text. Which of them run out of it is a matter of the positions that the
search takes up (`visits`): a `::` in the last line, if that has no line end, or a definition in the
first line (`isSome_readCpp_iff`).
-/

namespace CArchitecture

/-! ### One definition -/

/-- Where the line ends that position `i` is in. -/
def lineEnd (content : Str) (i : ℕ) : Option ℕ := CString.scan (· == '\n') content i

/-- Where the line starts that position `pos` is in. The first line starts with the text. -/
def lineStart (content : Str) : ℕ → ℕ
  | 0 => 0
  | i + 1 => if content[i]? = some '\n' then i + 1 else lineStart content i

/-- The first two tests of `findclasses`: the line of the `::` at `pos` does not end in a semicolon,
and does not start with a blank. -/
def isDefinition (content : Str) (pos : ℕ) : Option Bool := do
  let i ← lineEnd content (pos + "::".length)
  if content[i - 1]? = some ';' then some false
  else some (¬ (content[lineStart content pos]?).any isBlank)

/-- The class of the `::` at `pos`: the word before it, as far as it is a name. -/
def classBefore (content : Str) (pos : ℕ) : Option Str := do
  let wordEnd ← CString.back isBlank content pos
  let wordStart ← CString.back (fun c ↦ ¬ (isBlank c ∨ c = '\n')) content wordEnd
  some ((CString.substr content wordStart (wordEnd - wordStart)).takeWhile isNameChar)

/-- Erase the blanks of a text, in a loop that goes on behind the next character after each erased
one, so that of several blanks every other one stays. -/
def eraseBlanks : Str → Str
  | [] => []
  | [c] => if isBlank c then [] else [c]
  | c :: d :: rest => if isBlank c then d :: eraseBlanks rest else c :: eraseBlanks (d :: rest)

/-- `s.substr(a, b - a)`, where the difference is taken modulo the size of the type: if `b` is
missing, for `npos`, or smaller than `a`, that is more than there is. -/
def between (s : Str) (a : ℕ) (b : Option ℕ) : Str :=
  match b with
  | some b => if a ≤ b then CString.substr s a (b - a) else s.drop a
  | none => s.drop a

/-- The name of the method in a body: what stands between the first `::` and the first
parenthesis. -/
def functionName (oneclassbody : Str) : Str :=
  eraseBlanks (between oneclassbody (((CString.find "::".toList oneclassbody 0).getD 0) + 2)
    (CString.find "(".toList oneclassbody 0))

/-- The parameters of the method in a body. Without an opening parenthesis they start with the
text. -/
def parameterText (oneclassbody : Str) : Str :=
  eraseBlanks (between oneclassbody ((CString.find "(".toList oneclassbody 0).elim 0 (· + 1))
    (CString.find ")".toList oneclassbody 0))

/-- The number of parameters: commas up to a brace, and one more if there are more than two
characters. -/
def parameterCount (strPara : Str) : ℕ :=
  (if strPara.length > 2 then 1 else 0) + (strPara.takeWhile (· ≠ '\x7b')).count ','

/-- The entry for a body. -/
def methodOf (oneclassbody : Str) : CMethodBody where
  body := oneclassbody
  funcline := functionName oneclassbody
  paraCnt := parameterCount (parameterText oneclassbody)
  CallParemeter := []

/-- Append a method to the list of its class. -/
def addMethod (cppclass : OrdMap Str (List CMethodBody)) (classname : Str) (m : CMethodBody) :
    OrdMap Str (List CMethodBody) :=
  match cppclass.find? classname with
  | some _ => cppclass.modify classname (· ++ [m])
  | none => cppclass.insert classname [m]

/-! ### The search -/

/-- The variables that `findclasses` writes. -/
structure CppClasses where
  classposition : Option ℕ := none
  cppclass : OrdMap Str (List CMethodBody) := ∅

/-- `findclasses`: take up the next `::` from position `s` on, and return where to go on. -/
def findclasses (s : ℕ) (content : Str) (classes : CppClasses) :
    Option (Option ℕ × CppClasses) :=
  match CString.find "::".toList content s with
  | none => some (none, classes)
  | some pos => do
    let isclass ← isDefinition content pos
    if isclass then do
      let oneclassname ← classBefore content pos
      match CString.find "\x7b".toList content pos with
      | none => some (none, classes)
      | some bodystart => do
        let k := bodyEnd content bodystart
        let start ← CString.back (· ≠ '\n') content (pos + 1)
        let oneclassbody := CString.substr content start (k + 1 - start)
        some (some k,
          { classposition := some k
            cppclass := addMethod classes.cppclass oneclassname (methodOf oneclassbody) })
    else some (some (pos + 2), classes)

/-- The variables of `getrelation`. -/
structure RelationScan where
  pos : Option ℕ
  classstart : Option ℕ
  classes : CppClasses

/-- One round of the loop of `getrelation`. -/
def getrelationRound (content : Str) (s : RelationScan) :
    RelationScan ⊕ Option (Option ℕ × CppClasses) :=
  match s.pos with
  | none => Sum.inr (some (s.classstart, s.classes))
  | some pos =>
    match findclasses pos content s.classes with
    | none => Sum.inr none
    | some (pos, classes) =>
      Sum.inl
        { pos := pos
          classstart := s.classstart.or s.classes.classposition
          classes := classes }

/-- `getrelation`, for a file with this content. -/
def readCpp (content : Str) : Option CReadCpp := do
  let (pos, classes) ← findclasses 0 content {}
  let (classstart, classes) ←
    (Loop.run (getrelationRound content) (content.length + 2) ⟨pos, none, classes⟩).join
  let headfile ← if classstart.isSome then getheadfile classstart content else some []
  some
    { globalStr := findGlobal content
      headfile := headfile
      cppclass := classes.cppclass }

/-! ### The positions that are visited -/

/-- The end of the body that the `::` at `pos` belongs to, if it is in a definition with one. -/
def bodyAt (content : Str) (pos : ℕ) : Option ℕ :=
  if isDefinition content pos = some true then
    (CString.find "\x7b".toList content pos).map (bodyEnd content)
  else none

/-- Where the search goes on after the `::` at `pos`: behind the body of a definition, nowhere if
that has none, and right behind the `::` otherwise. -/
def resume (content : Str) (pos : ℕ) : Option ℕ :=
  if isDefinition content pos = some true then bodyAt content pos else some (pos + 2)

/-- The `::` that the search takes up from position `s` on. -/
def visitsFrom (content : Str) : ℕ → ℕ → List ℕ
  | 0, _ => []
  | n + 1, s =>
    match CString.find "::".toList content s with
    | none => []
    | some pos => pos :: (resume content pos).elim [] (visitsFrom content n)

/-- The `::` that the search takes up: those that do not stand in the body of a definition before
them. -/
def visits (content : Str) : List ℕ := visitsFrom content (content.length + 1) 0

/-- The end of the first body. -/
def firstBody (content : Str) : Option ℕ := (visits content).findSome? (bodyAt content)

/-- The `::` at `pos` can be taken up: a line end comes after it, and if its line is a definition,
it is not the first line, unless no body follows and there is a blank before the class. -/
def CanVisit (content : Str) (pos : ℕ) : Prop :=
  '\n' ∈ content.drop (pos + 2) ∧
    (isDefinition content pos = some true → '\n' ∈ content.take pos ∨
      '\x7b' ∉ content.drop pos ∧ ∃ c ∈ (content.take pos).reverse.dropWhile isBlank, isBlank c)

section Visits

variable {content : Str} {pos s : ℕ}

theorem add_two_le_of_find (h : CString.find "::".toList content s = some pos) :
    s ≤ pos ∧ pos + 2 ≤ content.length :=
  ⟨(CString.of_find_eq_some h).1, CString.add_length_le_of_find h (by decide)⟩

/-- The search goes on further behind, and inside the text. -/
theorem lt_of_resume (h : CString.find "::".toList content s = some pos) {s' : ℕ}
    (hs' : resume content pos = some s') : s < s' ∧ s' ≤ content.length := by
  have hpos := add_two_le_of_find h
  rw [resume, bodyAt] at hs'
  split_ifs at hs' with hdef
  · obtain ⟨b, hb, rfl⟩ := Option.map_eq_some_iff.1 hs'
    have hle := CString.add_length_le_of_find hb (by decide)
    have hb' := (CString.of_find_eq_some hb).1
    have hlt := lt_bodyEnd content b
    have hlen : "\x7b".toList.length = 1 := rfl
    exact ⟨by omega, bodyEnd_le (by omega)⟩
  · obtain rfl := Option.some.inj hs'
    omega

theorem isSome_isDefinition_iff :
    (isDefinition content pos).isSome ↔ '\n' ∈ content.drop (pos + 2) := by
  have hscan := CString.isSome_scan_iff (· == '\n') content (pos + 2)
  simp only [beq_iff_eq, exists_eq_right] at hscan
  rw [← hscan, isDefinition]
  show (Option.bind (CString.scan _ content (pos + 2)) _).isSome ↔ _
  cases CString.scan (· == '\n') content (pos + 2) with
  | none => simp
  | some i =>
    rw [Option.bind_some]
    split_ifs <;> simp

/-- A brace is found exactly if there is one. -/
theorem find_brace_eq_none_iff :
    CString.find "\x7b".toList content pos = none ↔ '\x7b' ∉ content.drop pos := by
  rw [CString.find_eq_none_iff (by decide)]
  constructor
  · intro h hmem
    obtain ⟨i, hi, hget⟩ := List.mem_iff_getElem.1 hmem
    refine h (pos + i) (by omega) ?_
    rw [← List.drop_drop, List.drop_eq_getElem_cons hi, hget]
    exact ⟨_, rfl⟩
  · rintro h q hq ⟨t, ht⟩
    refine h ?_
    have hsub : content.drop q <:+ content.drop pos := by
      rw [← Nat.add_sub_cancel' hq, ← List.drop_drop]
      exact List.drop_suffix _ _
    exact hsub.subset (ht ▸ by simp)

/-- The loops that look for the class end exactly if the line is not the first one, or there is a
blank before the word. -/
theorem isSome_classBefore_iff (hpos : pos ≤ content.length) :
    (classBefore content pos).isSome ↔ '\n' ∈ content.take pos ∨
      ∃ c ∈ (content.take pos).reverse.dropWhile isBlank, isBlank c := by
  set rest := (content.take pos).reverse.dropWhile isBlank with hrest
  have hsuffix : rest <:+ (content.take pos).reverse := List.dropWhile_suffix _
  -- the text up to the last character that is not a blank
  have htake : content.take rest.length = rest.reverse := by
    have hpre : rest.reverse <+: content :=
      (List.reverse_suffix.1 (by rwa [List.reverse_reverse])).trans (List.take_prefix pos content)
    rw [← List.length_reverse, ← List.prefix_iff_eq_take.1 hpre]
  have hlen : rest.length ≤ content.length := by
    have := hsuffix.length_le
    rw [List.length_reverse, List.length_take] at this
    omega
  have hnewline : '\n' ∈ content.take pos ↔ '\n' ∈ rest := by
    constructor
    · intro h
      have hsplit :=
        List.takeWhile_append_dropWhile (p := isBlank) (l := (content.take pos).reverse)
      rw [← List.mem_reverse, ← hsplit] at h
      rcases List.mem_append.1 h with h | h
      · exact absurd (List.mem_takeWhile_imp h) (by decide)
      · exact h
    · exact fun h ↦ List.mem_reverse.1 (hsuffix.subset h)
  have hword : (CString.back (fun c ↦ ¬ (isBlank c ∨ c = '\n')) content rest.length).isSome ↔
      '\n' ∈ content.take pos ∨ ∃ c ∈ rest, isBlank c := by
    rw [CString.isSome_back_iff hlen, htake, hnewline]
    simp only [List.mem_reverse, decide_eq_false_iff_not, not_not]
    constructor
    · rintro ⟨c, hc, hblank | rfl⟩
      · exact Or.inr ⟨c, hc, hblank⟩
      · exact Or.inl hc
    · rintro (hc | ⟨c, hc, hblank⟩)
      · exact ⟨_, hc, Or.inr rfl⟩
      · exact ⟨c, hc, Or.inl hblank⟩
  rw [classBefore, ← hword]
  cases hend : CString.back isBlank content pos with
  | some wordEnd =>
    obtain rfl := CString.eq_of_back_eq_some hpos hend
    rw [← hrest, Option.bind_eq_bind, Option.bind_some]
    cases CString.back (fun c ↦ ¬ (isBlank c ∨ c = '\n')) content rest.length <;> simp
  | none =>
    -- a text of blanks only
    have hnil : rest = [] := by
      rw [hrest, List.dropWhile_eq_nil_iff]
      intro c hc
      by_contra hno
      have hsome := (CString.isSome_back_iff hpos).2
        ⟨c, List.mem_reverse.1 hc, Bool.eq_false_iff.2 hno⟩
      rw [hend] at hsome
      exact absurd hsome (by simp)
    simp [hnil, CString.back]

/-- What is stored for a definition with a body. -/
theorem findclasses_eq_of_body (hfind : CString.find "::".toList content s = some pos)
    (hclass : isDefinition content pos = some true) {oneclassname : Str}
    (hname : classBefore content pos = some oneclassname) {bodystart : ℕ}
    (hbrace : CString.find "\x7b".toList content pos = some bodystart)
    (hnewline : '\n' ∈ content.take pos) : ∃ m, ∀ classes, findclasses s content classes =
      some (some (bodyEnd content bodystart),
        { classposition := some (bodyEnd content bodystart)
          cppclass := addMethod classes.cppclass oneclassname m }) := by
  have hpos := add_two_le_of_find hfind
  have hstart : (CString.back (· ≠ '\n') content (pos + 1)).isSome := by
    rw [CString.isSome_back_iff (by omega)]
    exact ⟨'\n', List.take_subset_take_left content (Nat.le_succ pos) hnewline, by decide⟩
  obtain ⟨start, hstart⟩ := Option.isSome_iff_exists.1 hstart
  refine ⟨methodOf (CString.substr content start (bodyEnd content bodystart + 1 - start)),
    fun classes ↦ ?_⟩
  rw [findclasses, hfind]
  simp only [hclass, hname, hbrace, hstart, Option.bind_eq_bind, Option.bind_some, if_true]

/-- **When a `::` can be taken up**, and what that does. -/
theorem findclasses_eq (classes : CppClasses)
    (hfind : CString.find "::".toList content s = some pos)
    (hok : CanVisit content pos) : ∃ classes', findclasses s content classes =
      some (resume content pos, classes') ∧
      classes'.classposition = (bodyAt content pos).or classes.classposition := by
  have hpos := add_two_le_of_find hfind
  obtain ⟨isclass, hclass⟩ := Option.isSome_iff_exists.1 (isSome_isDefinition_iff.2 hok.1)
  rw [resume, bodyAt, hclass]
  rcases isclass with - | -
  · refine ⟨classes, ?_, by simp⟩
    rw [findclasses, hfind]
    simp [hclass]
  · rw [if_pos rfl]
    have hline := hok.2 hclass
    have hname : (classBefore content pos).isSome := (isSome_classBefore_iff (by omega)).2
      (hline.imp id fun h ↦ h.2)
    obtain ⟨oneclassname, hname⟩ := Option.isSome_iff_exists.1 hname
    cases hbrace : CString.find "\x7b".toList content pos with
    | none =>
      refine ⟨classes, ?_, by simp⟩
      rw [findclasses, hfind]
      simp only [hclass, hname, hbrace, Option.bind_eq_bind, Option.bind_some, if_true,
        Option.map_none]
    | some bodystart =>
      have hnewline : '\n' ∈ content.take pos := hline.resolve_right fun h ↦ by
        rw [find_brace_eq_none_iff.2 h.1] at hbrace
        exact absurd hbrace (by simp)
      obtain ⟨m, hm⟩ := findclasses_eq_of_body hfind hclass hname hbrace hnewline
      exact ⟨_, hm classes, by simp⟩

theorem findclasses_eq_none (classes : CppClasses)
    (hfind : CString.find "::".toList content s = some pos) (hno : ¬ CanVisit content pos) :
    findclasses s content classes = none := by
  have hpos := add_two_le_of_find hfind
  rw [findclasses, hfind]
  simp only [Option.bind_eq_bind]
  by_cases hend : '\n' ∈ content.drop (pos + 2)
  · obtain ⟨isclass, hclass⟩ := Option.isSome_iff_exists.1 (isSome_isDefinition_iff.2 hend)
    rw [CanVisit, not_and, Classical.not_imp, not_or] at hno
    obtain ⟨htrue, hfirst, hbody⟩ := hno hend
    rw [htrue, Option.bind_some, if_pos rfl]
    cases hname : classBefore content pos with
    | none => rfl
    | some oneclassname =>
      -- the class was found in the first line, so the body is looked for, and its line start too
      have hblank :=
        ((isSome_classBefore_iff (by omega)).1 (by rw [hname]; rfl)).resolve_left hfirst
      have hbrace : '\x7b' ∈ content.drop pos := by
        by_contra hno
        exact hbody ⟨hno, hblank⟩
      obtain ⟨b, hb⟩ := Option.ne_none_iff_exists'.1
        (fun h ↦ find_brace_eq_none_iff.1 h hbrace : CString.find "\x7b".toList content pos ≠ none)
      have hstart : CString.back (· ≠ '\n') content (pos + 1) = none := by
        rw [← Option.not_isSome_iff_eq_none, CString.isSome_back_iff (by omega)]
        rintro ⟨c, hc, hnl⟩
        rw [decide_eq_false_iff_not, not_not] at hnl
        subst hnl
        rw [List.take_add_one, List.mem_append] at hc
        rcases hc with hc | hc
        · exact hfirst hc
        · have hcolon : content[pos]? = some ':' :=
            CString.getElem?_of_isPrefix (CString.of_find_eq_some hfind).2
          rw [hcolon] at hc
          simp at hc
      rw [Option.bind_some, hb]
      simp only [hstart, Option.bind_none]
  · have hnone : isDefinition content pos = none := by
      rw [← Option.not_isSome_iff_eq_none, isSome_isDefinition_iff]
      exact hend
    rw [hnone, Option.bind_none]

/-- The search ends where there is no `::`. -/
theorem visitsFrom_of_find_eq_none (hfind : CString.find "::".toList content s = none) (n : ℕ) :
    visitsFrom content n s = [] := by
  cases n with
  | zero => rfl
  | succ n => rw [visitsFrom, hfind]

theorem visitsFrom_of_find_eq_some (hfind : CString.find "::".toList content s = some pos)
    (n : ℕ) : visitsFrom content (n + 1) s =
      pos :: (resume content pos).elim [] (visitsFrom content n) := by
  rw [visitsFrom, hfind]

theorem findclasses_of_find_eq_none (hfind : CString.find "::".toList content s = none)
    (classes : CppClasses) : findclasses s content classes = some (none, classes) := by
  rw [findclasses, hfind]

/-- **One round** is one call. -/
theorem getrelationRound_of_eq_some {classes : CppClasses} {res : Option ℕ × CppClasses}
    (hcall : findclasses s content classes = some res) (classstart : Option ℕ) :
    getrelationRound content ⟨some s, classstart, classes⟩ =
      Sum.inl ⟨res.1, classstart.or classes.classposition, res.2⟩ := by
  simp only [getrelationRound, hcall]

theorem getrelationRound_of_eq_none {classes : CppClasses}
    (hcall : findclasses s content classes = none) (classstart : Option ℕ) :
    getrelationRound content ⟨some s, classstart, classes⟩ = Sum.inr none := by
  simp only [getrelationRound, hcall]

theorem getrelationRound_none (content : Str) (classstart : Option ℕ) (classes : CppClasses) :
    getrelationRound content ⟨none, classstart, classes⟩ =
      Sum.inr (some (classstart, classes)) := rfl

/-- Where the search goes on after a whole run, and what it needs to get there. -/
theorem run_getrelationRound (content : Str) (n m : ℕ) (classstart : Option ℕ)
    (classes : CppClasses)
    (hs : s ≤ content.length) (hn : content.length + 1 < s + n) (hm : content.length < s + m) :
    ((Loop.run (getrelationRound content) n ⟨some s, classstart, classes⟩).join.isSome ↔
        ∀ pos ∈ visitsFrom content m s, CanVisit content pos) ∧
      ∀ res, (Loop.run (getrelationRound content) n ⟨some s, classstart, classes⟩).join = some res →
        res.1 = classstart.or (classes.classposition.or
          ((visitsFrom content m s).findSome? (bodyAt content))) := by
  induction n generalizing s m classstart classes with
  | zero => omega
  | succ n ih =>
    obtain ⟨m, rfl⟩ : ∃ m', m = m' + 1 := ⟨m - 1, by omega⟩
    obtain ⟨n, rfl⟩ : ∃ n', n = n' + 1 := ⟨n - 1, by omega⟩
    cases hfind : CString.find "::".toList content s with
    | none =>
      -- nothing more is found, and the loop ends in the next round
      have hcall := findclasses_of_find_eq_none hfind classes
      rw [Loop.run_succ_of_inl (getrelationRound_of_eq_some hcall classstart),
        Loop.run_succ_of_inr (getrelationRound_none content _ _),
        visitsFrom_of_find_eq_none hfind]
      simp
    | some pos =>
      have hvisits := visitsFrom_of_find_eq_some hfind m
      by_cases hok : CanVisit content pos
      · obtain ⟨classes', hcall, hclasspos⟩ := findclasses_eq classes hfind hok
        rw [Loop.run_succ_of_inl (getrelationRound_of_eq_some hcall classstart), hvisits]
        cases hres : resume content pos with
        | none =>
          have hbody : bodyAt content pos = none := by
            rw [resume] at hres
            split_ifs at hres with hdef
            exact hres
          rw [Loop.run_succ_of_inr (getrelationRound_none content _ _)]
          simp [hok, hbody]
        | some s' =>
          obtain ⟨hlt, hle⟩ := lt_of_resume hfind hres
          obtain ⟨hiff, hval⟩ := ih m (classstart.or classes.classposition) classes' hle (by omega)
            (by omega)
          refine ⟨?_, fun res hrun ↦ ?_⟩
          · rw [hiff, Option.elim_some, List.forall_mem_cons]
            exact ⟨fun h ↦ ⟨hok, h⟩, fun h ↦ h.2⟩
          · rw [hval res hrun, hclasspos, Option.elim_some, List.findSome?_cons]
            cases bodyAt content pos <;> cases classstart <;> cases classes.classposition <;> simp
      · have hcall := findclasses_eq_none classes hfind hok
        rw [Loop.run_succ_of_inr (getrelationRound_of_eq_none hcall classstart), hvisits]
        simp [hok]

end Visits

/-- The files that are included before the first body end in it. -/
def headfilesRead (content : Str) : Prop :=
  ∀ k, firstBody content = some k → IncludesClosed (content.take (k + 1))

/-- The first call of `findclasses` is a round of the loop like the others. -/
theorem readCpp_eq (content : Str) : readCpp content =
    (Loop.run (getrelationRound content) (content.length + 3) ⟨some 0, none, {}⟩).join.bind
      fun res ↦ (if res.1.isSome then getheadfile res.1 content else some []).map fun headfile ↦
        { globalStr := findGlobal content
          headfile := headfile
          cppclass := res.2.cppclass } := by
  rw [readCpp]
  cases hcall : findclasses 0 content {} with
  | none =>
    rw [Loop.run_succ_of_inr (getrelationRound_of_eq_none hcall none)]
    rfl
  | some res =>
    rw [Loop.run_succ_of_inl (getrelationRound_of_eq_some hcall none)]
    simp only [Option.bind_eq_bind, Option.bind_some, Option.map_eq_bind]
    congr 1
    funext res
    cases res.1.isSome <;> rfl

/-- **When the reader of source files returns**: every `::` that the search takes up can be taken
up, and every include before the end of the first body is closed before it. -/
theorem isSome_readCpp_iff {content : Str} :
    (readCpp content).isSome ↔
      (∀ pos ∈ visits content, CanVisit content pos) ∧ headfilesRead content := by
  obtain ⟨hvisit, hstart⟩ := run_getrelationRound content (content.length + 3)
    (content.length + 1) none {} (Nat.zero_le _) (by omega) (by omega)
  rw [readCpp_eq]
  show _ ↔ (∀ pos ∈ visitsFrom content (content.length + 1) 0, CanVisit content pos) ∧ _
  rw [← hvisit]
  cases hrun :
    (Loop.run (getrelationRound content) (content.length + 3) ⟨some 0, none, {}⟩).join with
  | none => simp
  | some res =>
    have hfirst : res.1 = firstBody content := by
      rw [hstart res hrun]
      rfl
    rw [Option.bind_some, Option.isSome_map, hfirst, headfilesRead]
    cases hbody : firstBody content with
    | none => simp
    | some k => simp [isSome_getheadfile_iff]

end CArchitecture
