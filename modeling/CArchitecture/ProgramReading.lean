import CArchitecture.ProgramTypes
import CArchitecture.GlobalText
import CArchitecture.ReadingOrder

/-!
# Reading a printed program

What the two readers make of the files of a program. They find what was printed: a header is read as
its classes (`HeaderUnit.exists_readH`), and a source file as its methods under their classes, with
its includes (`SourceUnit.exists_readCpp`). And nothing else: outside of braces there is no type
definition.
-/

namespace CArchitecture

/-! ### The characters of printed texts -/

/-- The text consists of names, and of characters from `l`. -/
def ConsistsOf (l s : Str) : Prop := ∀ c ∈ s, isNameChar c ∨ c ∈ l

section ConsistsOf

variable {l a b s : Str}

theorem ConsistsOf.notMem (h : ConsistsOf l s) {c : Char} (hc : isNameChar c = false)
    (hl : c ∉ l) : c ∉ s := fun hmem ↦
  (h c hmem).elim (fun hname ↦ Bool.false_ne_true (hc.symm.trans hname)) hl

theorem ConsistsOf.append (ha : ConsistsOf l a) (hb : ConsistsOf l b) : ConsistsOf l (a ++ b) :=
  fun c hc ↦ (List.mem_append.1 hc).elim (ha c) (hb c)

theorem consistsOf_of_subset (h : s ⊆ l) : ConsistsOf l s := fun _ hc ↦ Or.inr (h hc)

theorem consistsOf_of_nameChars (h : ∀ c ∈ s, isNameChar c) : ConsistsOf l s :=
  fun c hc ↦ Or.inl (h c hc)

theorem ConsistsOf.mono (h : ConsistsOf a s) (hab : a ⊆ b) : ConsistsOf b s :=
  fun c hc ↦ (h c hc).imp_right fun hmem ↦ hab hmem

theorem ConsistsOf.flatMap {A : Type*} {f : A → Str} {xs : List A}
    (h : ∀ x ∈ xs, ConsistsOf l (f x)) : ConsistsOf l (xs.flatMap f) := fun c hc ↦ by
  obtain ⟨x, hx, hc⟩ := List.mem_flatMap.1 hc
  exact h x hx c hc

theorem consistsOf_commaList {xs : List Str} (h : ∀ x ∈ xs, ConsistsOf l x)
    (hcomma : ", ".toList ⊆ l) : ConsistsOf l (commaList xs) := by
  cases xs with
  | nil => exact fun c hc ↦ absurd hc List.not_mem_nil
  | cons x xs =>
    exact (h x List.mem_cons_self).append (.flatMap fun y hy ↦
      (consistsOf_of_subset hcomma).append (h y (List.mem_cons_of_mem _ hy)))

theorem Variable.consistsOf_text {d : Variable} (htype : IsIdentifier d.type)
    (hname : IsIdentifier d.name) : ConsistsOf " *".toList d.text :=
  (consistsOf_of_nameChars htype.nameChars).append
    ((consistsOf_of_subset (by decide)).append (consistsOf_of_nameChars hname.nameChars))

theorem Stmt.consistsOf_declare {d : Variable} (htype : IsIdentifier d.type)
    (hname : IsIdentifier d.name) : ConsistsOf " *;\n".toList (Stmt.declare d).text :=
  (consistsOf_of_subset (s := [' ']) (by decide)).append
    (((Variable.consistsOf_text htype hname).mono (by decide)).append
      (consistsOf_of_subset (by decide)))

theorem Stmt.consistsOf_text {st : Stmt}
    (hst : ∀ x ∈ st.otherNames ++ st.varNames, IsIdentifier x) :
    ConsistsOf " *->(),;\n".toList st.text := by
  cases st with
  | declare d =>
    exact (Stmt.consistsOf_declare (hst _ (by simp [otherNames]))
      (hst _ (by simp [varNames]))).mono (by decide)
  | call v f args =>
    have hargs : ConsistsOf " *->(),;\n".toList (commaList args) := by
      refine consistsOf_commaList (fun x hx ↦ consistsOf_of_nameChars ?_) (by decide)
      exact (hst x (by simp [varNames, hx])).nameChars
    have hword : ∀ x ∈ [v, f], ConsistsOf " *->(),;\n".toList x := fun x hx ↦
      consistsOf_of_nameChars (hst x (by
        rcases List.mem_pair.1 hx with rfl | rfl <;> simp [otherNames, varNames])).nameChars
    have hchars : ∀ {s : Str}, s ⊆ " *->(),;\n".toList → ConsistsOf " *->(),;\n".toList s :=
      consistsOf_of_subset
    exact (hchars (s := [' ']) (by decide)).append ((hword v (by simp)).append
      ((hchars (by decide)).append ((hword f (by simp)).append
        ((hchars (s := ['(']) (by decide)).append (hargs.append (hchars (by decide)))))))

end ConsistsOf

/-! ### Headers -/

/-- In a text without braces they match. -/
theorem balanced_of_notMem {s : Str} (hleft : '\x7b' ∉ s) (hright : '\x7d' ∉ s) : Balanced s where
  count_le p hp := by
    rw [List.count_eq_zero.2 fun h ↦ hright (hp.subset h)]
    exact Nat.zero_le _
  count_eq := by rw [List.count_eq_zero.2 hright, List.count_eq_zero.2 hleft]

/-- The lines of a body start with a blank. -/
theorem bodyText_line {l : List Stmt}
    (hl : ∀ st ∈ l, ∃ t, st.text = ' ' :: (t ++ ['\n']) ∧ '\n' ∉ t) {q : ℕ}
    (hq : ('\n' :: bodyText l)[q]? = some '\n') :
    ∀ c ∈ ('\n' :: bodyText l)[q + 1]?, c = ' ' := by
  induction l generalizing q with
  | nil =>
    intro c hc
    simp [bodyText] at hc
  | cons st l ih =>
    obtain ⟨t, ht, hline⟩ := hl st List.mem_cons_self
    have htext : '\n' :: bodyText (st :: l) = ('\n' :: ' ' :: t) ++ '\n' :: bodyText l := by
      simp [bodyText, ht]
    rw [htext] at hq ⊢
    rcases Nat.lt_or_ge q ('\n' :: ' ' :: t).length with hlt | hge
    · rw [List.getElem?_append_left hlt] at hq
      rcases q with - | q
      · simp
      · -- no line ends inside of the line
        have hmem := List.mem_of_getElem? (List.getElem?_cons_succ ▸ hq)
        rcases List.mem_cons.1 hmem with h | h
        · exact absurd h (by decide)
        · exact absurd h hline
    · obtain ⟨k, rfl⟩ := Nat.exists_eq_add_of_le hge
      rw [List.getElem?_append_right hge, Nat.add_sub_cancel_left] at hq
      rw [Nat.add_assoc, List.getElem?_append_right (Nat.le_add_right _ _),
        Nat.add_sub_cancel_left]
      exact ih (fun st hst ↦ hl st (List.mem_cons_of_mem _ hst)) hq

namespace ClassDecl.WellFormed

variable {c : ClassDecl}

theorem consistsOf_members (hc : c.WellFormed) :
    ConsistsOf " *;\n".toList (bodyText (c.members.map Stmt.declare)) := by
  refine .flatMap fun st hst ↦ ?_
  obtain ⟨d, hd, rfl⟩ := List.mem_map.1 hst
  exact Stmt.consistsOf_declare (hc.types d hd) (hc.names d hd).1

theorem wellFormed_item (hc : c.WellFormed) : c.item.WellFormed := by
  refine ⟨hc.name, hc.bases, by decide, balanced_of_notMem ?_ ?_, fun q hq ↦ ?_⟩
  · simpa using hc.consistsOf_members.notMem (by decide) (by decide)
  · simpa using hc.consistsOf_members.notMem (by decide) (by decide)
  · -- behind a line end comes a blank
    have hlines : ∀ st ∈ c.members.map Stmt.declare,
        ∃ t, st.text = ' ' :: (t ++ ['\n']) ∧ '\n' ∉ t := by
      intro st hst
      obtain ⟨d, hd, rfl⟩ := List.mem_map.1 hst
      refine ⟨d.text ++ [';'], by simp [Stmt.text], ?_⟩
      have htext := (Variable.consistsOf_text (hc.types d hd) (hc.names d hd).1).notMem (c := '\n')
        (by decide) (by decide)
      simpa using htext
    have hnewline : ('\n' :: bodyText (c.members.map Stmt.declare))[q]? = some '\n' :=
      CString.getElem?_of_isPrefix hq
    have hletter : ('\n' :: bodyText (c.members.map Stmt.declare))[q + 1]? = some 'c' := by
      obtain ⟨t, ht⟩ := hq
      rw [← List.head?_drop, ← List.drop_drop, ← ht]
      rfl
    exact absurd (bodyText_line hlines hnewline 'c' hletter) (by decide)

end ClassDecl.WellFormed

theorem hash_notMem_defline {it : HeaderItem} (h : it.WellFormed) : '#' ∉ it.defline := by
  intro hmem
  rcases h.of_mem_defline hmem with h | h | h | h <;> exact absurd h (by decide)

/-- Outside of its classes a header has semicolons only. -/
theorem findGlobalFrom_printHeader {cs : List ClassDecl} (hcs : ∀ c ∈ cs, c.WellFormed)
    {s t : Str} (hs : CutsOff s) (ht : t = [] ∨ t = [';']) :
    findGlobalFrom 0 s (t ++ printHeader (cs.map ClassDecl.item)) =
      s ++ (t ++ List.replicate cs.length ';') := by
  have hbraces : '\x7b' ∉ t ∧ '\x7d' ∉ t := by
    rcases ht with rfl | rfl <;> decide
  induction cs generalizing s t with
  | nil =>
    have hrun := findGlobalFrom_run hbraces.1 hbraces.2 s []
    simpa [printHeader, findGlobalFrom] using hrun
  | cons c cs ih =>
    have hc := hcs c List.mem_cons_self
    have hitem := hc.wellFormed_item
    obtain ⟨hleft, hsemi, -⟩ := hitem.notMem_defline
    have hright : '\x7d' ∉ c.item.defline := fun hmem ↦ by
      rcases hitem.of_mem_defline hmem with h | h | h | h <;> exact absurd h (by decide)
    have hcut : cutAfterSemicolon (t ++ '\n' :: c.item.defline) = t := by
      rw [cutAfterSemicolon_append_of_notMem (by simp [hsemi])]
      rcases ht with rfl | rfl
      · rfl
      · exact cutsOff_concat []
    have htext : t ++ printHeader ((c :: cs).map ClassDecl.item) =
        (t ++ '\n' :: c.item.defline) ++ '\x7b' ::
          (('\n' :: bodyText (c.members.map Stmt.declare)) ++ ['\x7d']) ++
            ([';'] ++ printHeader (cs.map ClassDecl.item)) := by
      rw [List.map_cons, printHeader_cons, HeaderItem.text, ClassDecl.item, HeaderItem.ending]
      simp
    have hclosed := findGlobalFrom_closed (b := (t ++ '\n' :: c.item.defline,
      '\n' :: bodyText (c.members.map Stmt.declare))) hs
      ⟨by simp [hbraces.1, hleft], by simp [hbraces.2, hright]⟩ hitem.2.2.2.1
      ([';'] ++ printHeader (cs.map ClassDecl.item))
    have hcutsOff := hs.append_cut (t ++ '\n' :: c.item.defline)
    rw [htext, hclosed]
    rw [hcut] at hcutsOff ⊢
    rw [ih (fun d hd ↦ hcs d (List.mem_cons_of_mem _ hd)) hcutsOff (Or.inr rfl) (by decide),
      List.length_cons, List.replicate_succ, List.append_assoc]
    rfl

/-- The entries that are made for classes are those of their definitions. -/
theorem lookupIn_of_stores {cs : List ClassDecl} {es : List (Option (Str × HeaderClass))}
    (hes : List.Forall₂ Stores (cs.map ClassDecl.item) es) (T : Str) :
    (OrdMap.lookupIn T es.reduceOption).map HeaderClass.toCClassContent =
      (cs.find? (·.name = T)).map fun c ↦ ⟨c.definedText⟩ := by
  induction cs generalizing es with
  | nil =>
    obtain rfl := List.forall₂_nil_left_iff.1 hes
    rfl
  | cons c cs ih =>
    rw [List.map_cons] at hes
    obtain ⟨e, es, he, hrest, rfl⟩ := List.forall₂_cons_left_iff.1 hes
    obtain ⟨p, rfl, hp⟩ : ∃ p : HeaderClass, e = some (c.name, p) ∧
        p.toCClassContent = ⟨c.definedText⟩ := by
      rw [ClassDecl.item] at he
      cases he
      exact ⟨_, rfl, rfl⟩
    rw [List.reduceOption_cons_of_some, List.find?_cons]
    by_cases hT : T = c.name
    · rw [hT, OrdMap.lookupIn_cons_self]
      simp [hp]
    · rw [OrdMap.lookupIn_cons_of_ne hT, ih hrest]
      simp [Ne.symm hT]

namespace HeaderUnit

variable {h : HeaderUnit}

theorem hash_notMem_text (hh : ∀ c ∈ h.classes, c.WellFormed) : '#' ∉ h.text := by
  intro hmem
  obtain ⟨it, hit, hmem⟩ := List.mem_flatMap.1 hmem
  obtain ⟨c, hc, rfl⟩ := List.mem_map.1 hit
  have hline := hash_notMem_defline (hh c hc).wellFormed_item
  have hbody := (hh c hc).consistsOf_members.notMem (c := '#') (by decide) (by decide)
  rw [HeaderItem.text, ClassDecl.item, HeaderItem.ending] at hmem
  rw [ClassDecl.item] at hline
  simp [hline, hbody] at hmem

/-- What is kept of a header: its classes, each with its definition. -/
structure KeptAs (h : HeaderUnit) (r : CReadH) : Prop where
  globalStr : r.globalStr = List.replicate h.classes.length ';'
  classdef : ∀ T, r.classdef.find? T = (h.classes.find? (·.name = T)).map fun c ↦ ⟨c.definedText⟩

/-- **What is read of a header.** -/
theorem exists_readH (hh : ∀ c ∈ h.classes, c.WellFormed) :
    ∃ r, readH h.text = some r ∧ h.KeptAs r.toCReadH := by
  have hitems : ∀ it ∈ h.classes.map ClassDecl.item, it.WellFormed := by
    intro it hit
    obtain ⟨c, hc, rfl⟩ := List.mem_map.1 hit
    exact (hh c hc).wellFormed_item
  have hcontent : h.text = [] ++ (printHeader (h.classes.map ClassDecl.item) ++ []) := by
    simp [HeaderUnit.text]
  obtain ⟨es, s, hes, hrun, hclassdef⟩ := exists_foldlM_getclassRound
    (n := h.text.length + 1) (k := 0) hitems (by simp) hcontent (Nat.zero_le _) (by omega)
    (by simp) {}
  have hclosed : IncludesClosed (h.text.take (s.classposition.elim 0 (· + 1))) := by
    intro q hq
    have hget : (h.text.take (s.classposition.elim 0 (· + 1)))[q]? = some '#' :=
      CString.getElem?_of_isPrefix hq
    exact absurd (List.mem_of_mem_take (List.mem_of_getElem? hget)) (hash_notMem_text hh)
  obtain ⟨headfile, hhead⟩ := Option.isSome_iff_exists.1 (isSome_getheadfile_iff.2 hclosed)
  have hclass : getclass h.text = some s := hrun
  refine ⟨⟨findGlobal h.text, headfile, s.classposition, s.classdef⟩, ?_, ?_, fun T ↦ ?_⟩
  · rw [readH, hclass, Option.bind_eq_bind, Option.bind_some, hhead]
    rfl
  · exact findGlobalFrom_printHeader hh (s := []) (t := []) rfl (Or.inl rfl)
  · rw [HeaderFile.toCReadH, OrdMap.find?_mapValues, hclassdef, OrdMap.find?_insertMany,
      OrdMap.find?_empty, Option.none_or, lookupIn_of_stores hes]

/-- The name that a header is kept under. -/
theorem headname_file (hname : IsFileName h.name) : headname h.file.fileName = some h.name := by
  have hslash : '/' ∉ h.name := fun hmem ↦ (hname _ hmem).elim (by decide) (by decide)
  have hdrop : h.name.rdropWhile (fun c ↦ decide (c ≠ '/')) = [] :=
    List.rdropWhile_eq_nil_iff.2 fun c hc ↦ decide_eq_true (ne_of_mem_of_not_mem hc hslash)
  have hback := CString.back_append (f := fun c ↦ decide (c ≠ '/')) (c := '/') (by decide) h.dir
    h.name []
  have hlen : (h.dir ++ '/' :: h.name).length = h.dir.length + 1 + h.name.length := by
    simp
    omega
  rw [hdrop, List.append_nil, ← hlen, List.length_nil, Nat.add_zero] at hback
  show headname (h.dir ++ '/' :: h.name) = some h.name
  rw [headname, hback, Option.bind_eq_bind, Option.bind_some]
  simp

/-- **What a header puts into the map.** -/
theorem exists_headerEntry (hname : IsFileName h.name) (hh : ∀ c ∈ h.classes, c.WellFormed) :
    ∃ r, headerEntry h.file = some (h.name, r) ∧ h.KeptAs r := by
  obtain ⟨r, hr, hkept⟩ := exists_readH hh
  refine ⟨r.toCReadH, ?_, hkept⟩
  show (readH h.text).bind _ = _
  rw [hr, Option.bind_some, headname_file hname]
  rfl

end HeaderUnit

/-! ### Source files -/

namespace Method.WellFormed

variable {m : Method}

theorem consistsOf_params (hm : m.WellFormed) :
    ConsistsOf " *,".toList (commaList (m.params.map Variable.text)) := by
  refine consistsOf_commaList (fun x hx ↦ ?_) (by decide)
  obtain ⟨d, hd, rfl⟩ := List.mem_map.1 hx
  obtain ⟨htype, hname, -⟩ := hm.param hd
  exact (Variable.consistsOf_text htype hname).mono (by decide)

theorem consistsOf_body (hm : m.WellFormed) : ConsistsOf " *->(),;\n".toList (bodyText m.body) :=
  .flatMap fun _ hst ↦ Stmt.consistsOf_text (hm.isIdentifier_stmt hst)

theorem isIdentifier_name (hm : m.WellFormed) {x : Str}
    (hx : x ∈ [m.returnType, m.classname, m.methodName]) : IsIdentifier x :=
  hm.isIdentifier_otherName (mem_otherNames m hx)

theorem wellFormed_methodText (hm : m.WellFormed) : m.methodText.WellFormed where
  returnType := hm.isIdentifier_name (x := m.returnType) (by simp)
  sep_ne_nil := List.cons_ne_nil _ _
  sep_mem c hc := Or.inl (List.mem_singleton.1 hc ▸ rfl)
  classname := hm.isIdentifier_name (x := m.classname) (by simp)
  methodName := hm.isIdentifier_name (x := m.methodName) (by simp)
  params_colons q hq := by
    have hget : (commaList (m.params.map Variable.text))[q]? = some ':' :=
      CString.getElem?_of_isPrefix hq
    exact hm.consistsOf_params.notMem (by decide) (by decide) (List.mem_of_getElem? hget)
  params_notMem := by
    have hnot : ∀ c ∈ "\x7b\x7d\n".toList, c ∉ commaList (m.params.map Variable.text) :=
      fun c hc ↦ hm.consistsOf_params.notMem (by revert c; decide) (by revert c; decide)
    exact ⟨hnot _ (by decide), hnot _ (by decide), hnot _ (by decide)⟩
  body := by
    have hnot : ∀ c ∈ "\x7b\x7d".toList, c ∉ '\n' :: bodyText m.body := fun c hc ↦ by
      refine (ConsistsOf.append (a := ['\n']) (consistsOf_of_subset (by decide))
        hm.consistsOf_body).notMem ?_ ?_ <;> revert c <;> decide
    exact balanced_of_notMem (hnot _ (by decide)) (hnot _ (by decide))

theorem consistsOf_opening (hm : m.WellFormed) : ConsistsOf " :(".toList m.opening := by
  have hname : ∀ x ∈ [m.returnType, m.classname, m.methodName], ConsistsOf " :(".toList x :=
    fun x hx ↦ consistsOf_of_nameChars (hm.isIdentifier_name hx).nameChars
  have hchars : ∀ {s : Str}, s ⊆ " :(".toList → ConsistsOf " :(".toList s := consistsOf_of_subset
  exact (hname _ (by simp)).append ((hchars (s := [' ']) (by decide)).append
    ((hname _ (by simp)).append ((hchars (by decide)).append
      ((hname _ (by simp)).append (hchars (by decide))))))

/-- The line of a method. -/
theorem consistsOf_line (hm : m.WellFormed) : ConsistsOf " *,:()".toList
    (m.methodText.beforeColons ++ "::".toList ++ m.methodText.afterColons) := by
  have hline : m.methodText.beforeColons ++ "::".toList ++ m.methodText.afterColons =
      m.opening ++ (commaList (m.params.map Variable.text) ++ [')']) := by
    simp [opening, methodText, MethodText.beforeColons, MethodText.afterColons]
  rw [hline]
  exact (hm.consistsOf_opening.mono (by decide)).append
    ((hm.consistsOf_params.mono (by decide)).append (consistsOf_of_subset (by decide)))

theorem consistsOf_head (hm : m.WellFormed) : ConsistsOf " *,:()\n\x7b".toList m.head := by
  rw [m.head_eq]
  exact (hm.consistsOf_opening.mono (by decide)).append
    ((hm.consistsOf_params.mono (by decide)).append (consistsOf_of_subset (by decide)))

theorem consistsOf_text (hm : m.WellFormed) :
    ConsistsOf " *->(),;:\n\x7b\x7d".toList m.text := by
  rw [m.text_eq]
  exact (hm.consistsOf_head.mono (by decide)).append ((consistsOf_of_subset (s := ['\n'])
    (by decide)).append ((hm.consistsOf_body.mono (by decide)).append
      (consistsOf_of_subset (by decide))))

end Method.WellFormed

/-- Outside of its methods a source file has no semicolon. -/
theorem semicolon_notMem_findGlobalFrom {ms : List Method} (hms : ∀ m ∈ ms, m.WellFormed) {t : Str}
    (hleft : '\x7b' ∉ t) (hright : '\x7d' ∉ t) (hsemi : ';' ∉ t) :
    ';' ∉ findGlobalFrom 0 [] (t ++ printMethods (ms.map Method.methodText)) := by
  induction ms generalizing t with
  | nil =>
    have hrun := findGlobalFrom_run hleft hright [] []
    rw [List.map_nil, printMethods, List.flatMap_nil, hrun]
    simpa [findGlobalFrom] using hsemi
  | cons m ms ih =>
    have hm := hms m List.mem_cons_self
    have hline : ∀ c ∈ "\x7b\x7d;".toList, c ∉ m.methodText.beforeColons ++ "::".toList ++
        m.methodText.afterColons ++ ['\n'] := fun c hc ↦ by
      refine (ConsistsOf.append (l := " *,:()\n".toList) (hm.consistsOf_line.mono (by decide))
        (consistsOf_of_subset (by decide))).notMem ?_ ?_ <;> revert c <;> decide
    have htext : t ++ printMethods ((m :: ms).map Method.methodText) =
        (t ++ (m.methodText.beforeColons ++ "::".toList ++ m.methodText.afterColons ++ ['\n'])) ++
          '\x7b' :: (m.methodText.body ++ ['\x7d']) ++
            (['\n'] ++ printMethods (ms.map Method.methodText)) := by
      rw [List.map_cons, printMethods_cons, MethodText.text]
      simp
    have hrun : ∀ c ∈ "\x7b\x7d;".toList, c ∉ t → c ∉ t ++ (m.methodText.beforeColons ++
        "::".toList ++ m.methodText.afterColons ++ ['\n']) := fun c hc ht hmem ↦
      (List.mem_append.1 hmem).elim ht (hline c hc)
    have hclosed := findGlobalFrom_closed (s := []) (b := (t ++ (m.methodText.beforeColons ++
      "::".toList ++ m.methodText.afterColons ++ ['\n']), m.methodText.body)) rfl
      ⟨hrun _ (by decide) hleft, hrun _ (by decide) hright⟩ hm.wellFormed_methodText.body
      (['\n'] ++ printMethods (ms.map Method.methodText))
    have hcut : cutAfterSemicolon (t ++ (m.methodText.beforeColons ++ "::".toList ++
        m.methodText.afterColons ++ ['\n'])) = [] := by
      have hnil := cutAfterSemicolon_append_of_notMem (hrun ';' (by decide) hsemi) []
      rwa [List.nil_append] at hnil
    rw [htext, hclosed, hcut, List.append_nil]
    exact ih (fun d hd ↦ hms d (List.mem_cons_of_mem _ hd)) (by decide) (by decide) (by decide)

/-- The pattern is found at the start of the line, and what is behind the line does not matter. -/
theorem occurrences_includeLine {n : Str} (hn : IsFileName n) (rest : Str) :
    CString.occurrences includeText (includeLine n ++ rest) =
      0 :: (CString.occurrences includeText rest).map ((includeLine n).length + ·) := by
  have hpat : includeText = '#' :: "include \"".toList := rfl
  have hhash : '#' ∉ n ++ ['"', '\n'] := by
    have hname : '#' ∉ n := fun hmem ↦ (hn _ hmem).elim (by decide) (by decide)
    simpa using hname
  have hline : CString.occurrences includeText (includeText ++ (n ++ ['"']) ++ ['\n']) = [0] := by
    have hsingle := CString.occurrences_of_single (List.not_mem_nil (a := '#')) hhash
      "include \"".toList
    simpa [hpat] using hsingle
  have happend := CString.occurrences_append (x := '\n') (by decide : '#' ∉ "include \"".toList)
    (by decide) (includeText ++ (n ++ ['"'])) rest
  have htext : includeLine n = includeText ++ (n ++ ['"']) ++ ['\n'] := by
    simp [includeLine]
  rw [← hpat, hline] at happend
  rw [htext, happend]
  rfl

/-- One include is read. -/
theorem takeHeadfile_includeLine {n : Str} (hn : IsFileName n) (a rest : Str) (acc : List Str) :
    takeHeadfile (a ++ (includeLine n ++ rest)) acc a.length = some (acc ++ [n]) := by
  have hquote : '"' ∉ n := fun hmem ↦ (hn _ hmem).elim (by decide) (by decide)
  have hdrop : (a ++ (includeLine n ++ rest)).drop (a.length + includeText.length) =
      n ++ '"' :: ('\n' :: rest) := by
    rw [List.drop_length_add_append, includeLine, List.append_assoc, List.drop_left]
    simp
  have hspan := (CString.span_append (p := fun c ↦ decide (c ≠ '"')) (a := n)
    (b := '"' :: ('\n' :: rest)) (fun c hc ↦ by simpa using ne_of_mem_of_not_mem hc hquote)
    (by simp)).1
  rw [takeHeadfile, hdrop, if_pos (by simp), hspan]

/-- The includes are read one after another. -/
theorem foldlM_takeHeadfile {ns : List Str} (hns : ∀ n ∈ ns, IsFileName n) {rest : Str}
    (hrest : '#' ∉ rest) (a : Str) (acc : List Str) :
    ((CString.occurrences includeText (ns.flatMap includeLine ++ rest)).map (a.length + ·)).foldlM
      (takeHeadfile (a ++ (ns.flatMap includeLine ++ rest))) acc = some (acc ++ ns) := by
  induction ns generalizing a acc with
  | nil =>
    have hnone : CString.occurrences includeText rest = [] :=
      CString.occurrences_of_notMem hrest "include \"".toList
    rw [List.flatMap_nil, List.nil_append, hnone]
    simp
  | cons n ns ih =>
    have hn := hns n List.mem_cons_self
    have hih := ih (fun k hk ↦ hns k (List.mem_cons_of_mem _ hk)) (a ++ includeLine n) (acc ++ [n])
    rw [List.append_assoc a, List.length_append] at hih
    rw [List.flatMap_cons, List.append_assoc, occurrences_includeLine hn, List.map_cons,
      List.foldlM_cons, Nat.add_zero, takeHeadfile_includeLine hn, Option.bind_eq_bind,
      Option.bind_some, List.map_map]
    simpa [Function.comp_def, Nat.add_assoc] using hih

namespace SourceUnit

variable {s : SourceUnit}

theorem consistsOf_preamble (hs : ∀ n ∈ s.includes, IsFileName n) :
    ConsistsOf " #\".\n".toList s.preamble := by
  refine ConsistsOf.append (.flatMap fun n hn ↦ ?_) (consistsOf_of_subset (by decide))
  have hname : ConsistsOf " #\".\n".toList n := fun c hc ↦
    (hs n hn c hc).imp_right fun h ↦ by
      rw [h]
      decide
  refine ConsistsOf.append (fun c hc ↦ ?_) (hname.append (consistsOf_of_subset (by decide)))
  revert c
  decide

/-- The includes before the end of the first body are those of the file. -/
theorem getheadfile_text (hs : ∀ n ∈ s.includes, IsFileName n) {m : Method} {ms : List Method}
    (hm : m.WellFormed) (hmethods : s.methods = m :: ms) :
    getheadfile (some ((s.includes.flatMap includeLine).length + m.text.length)) s.text =
      some s.includes := by
  have htake : s.text.take ((s.includes.flatMap includeLine).length + m.text.length + 1) =
      s.includes.flatMap includeLine ++ '\n' :: m.text := by
    have htext : s.text = (s.includes.flatMap includeLine ++ '\n' :: m.text) ++
        '\n' :: printMethods (ms.map Method.methodText) := by
      rw [SourceUnit.text, hmethods, printSource, List.map_cons, printMethods_cons, preamble,
        Method.text]
      simp
    rw [htext]
    exact List.take_left' (by simp; omega)
  have hhash : '#' ∉ '\n' :: m.text := by
    simpa using hm.consistsOf_text.notMem (c := '#') (by decide) (by decide)
  have hrun := foldlM_takeHeadfile hs hhash [] []
  rw [getheadfile, Option.elim_some, htake]
  simpa using hrun

/-- What is kept of a source file: its methods, each under its class, and its includes. -/
structure KeptAs (s : SourceUnit) (p : CReadCpp) : Prop where
  globalStr : ';' ∉ p.globalStr
  headfile : s.methods ≠ [] → p.headfile = s.includes
  methods : (p.cppclass.entries.flatMap fun e ↦ e.2.map (e.1, ·)).Perm
    (s.methods.map fun m ↦ (m.classname, methodOf m.text))

theorem text_eq (s : SourceUnit) : s.text = s.includes.flatMap includeLine ++
    '\n' :: printMethods (s.methods.map Method.methodText) := by
  simp [SourceUnit.text, printSource, preamble]

/-- **The methods are found**: the loop does not fail, it comes behind the includes first, and what
is recorded are the methods, in order. -/
theorem visits_text (hs : ∀ n ∈ s.includes, IsFileName n) (hms : ∀ m ∈ s.methods, m.WellFormed) :
    (∀ pos ∈ visits s.text, CanVisit s.text pos) ∧
      firstBody s.text = (s.methods.map Method.methodText).head?.map
        (fun d ↦ (s.includes.flatMap includeLine).length + d.text.length) ∧
      (recordings s.text).map (fun e ↦ (e.classname, methodOf (e.body s.text))) =
        s.methods.map fun m ↦ (m.classname, methodOf m.text) := by
  have hcolons : ∀ q, ¬ "::".toList <+: s.preamble.drop q := fun q hq ↦ by
    have hget : s.preamble[q]? = some ':' := CString.getElem?_of_isPrefix hq
    exact (consistsOf_preamble hs).notMem (by decide) (by decide) (List.mem_of_getElem? hget)
  have hdefs : ∀ d ∈ s.methods.map Method.methodText, d.WellFormed := by
    intro d hd
    obtain ⟨m, hm, rfl⟩ := List.mem_map.1 hd
    exact (hms m hm).wellFormed_methodText
  obtain ⟨hvisit, hfirst, hrecordings⟩ := visitsFrom_printMethods hdefs s.text_eq (Nat.zero_le _)
    (Nat.lt_add_left 0 (Nat.lt_succ_self _)) (fun q _ hq ↦ by
      rw [s.text_eq]
      exact not_isPrefix_preamble hcolons rfl hq)
  refine ⟨hvisit, hfirst, ?_⟩
  have hnames : ((recordings s.text).map fun e ↦ (e.classname, e.body s.text)) =
      s.methods.map fun m ↦ (m.classname, m.text) := by
    refine hrecordings.trans ?_
    rw [List.map_map]
    refine List.map_congr_left fun m hm ↦ Prod.ext ?_ rfl
    exact (hms m hm).wellFormed_methodText.lastName_eq_iff.2 (Or.inl ⟨' ', rfl, rfl⟩)
  have hbodies := congrArg (List.map fun x ↦ (x.1, methodOf x.2)) hnames
  rwa [List.map_map, List.map_map] at hbodies

/-- **What is read of a source file.** -/
theorem exists_readCpp (hs : ∀ n ∈ s.includes, IsFileName n) (hms : ∀ m ∈ s.methods, m.WellFormed) :
    ∃ p, readCpp s.text = some p ∧ s.KeptAs p := by
  obtain ⟨hvisit, hfirst, hmethods⟩ := visits_text hs hms
  -- the loop comes to its end, and then the includes are read
  obtain ⟨hsome, hresult⟩ := run_getrelationRound s.text (s.text.length + 3) (s.text.length + 1)
    none {} (Nat.zero_le _) (by omega) (by omega)
  obtain ⟨res, hres⟩ := Option.isSome_iff_exists.1 (hsome.2 hvisit)
  have hstart : res.1 = (s.methods.map Method.methodText).head?.map fun d ↦
      (s.includes.flatMap includeLine).length + d.text.length := by
    rw [hresult res hres, ← hfirst]
    rfl
  obtain ⟨headfile, hhead, hincludes⟩ : ∃ headfile,
      (if res.1.isSome then getheadfile res.1 s.text else some []) = some headfile ∧
        (s.methods ≠ [] → headfile = s.includes) := by
    rw [hstart]
    rcases hlist : s.methods with - | ⟨m, ms⟩
    · exact ⟨[], rfl, fun hne ↦ absurd rfl hne⟩
    · refine ⟨s.includes, ?_, fun _ ↦ rfl⟩
      have hm := hms m (by rw [hlist]; exact List.mem_cons_self)
      exact getheadfile_text hs hm hlist
  have hread : readCpp s.text = some ⟨findGlobal s.text, headfile, res.2.cppclass⟩ := by
    rw [readCpp_eq, hres, Option.bind_some, hhead]
    rfl
  refine ⟨_, hread, ?_, hincludes, OrdMap.perm_flatMap_entries fun key ↦ ?_⟩
  · have hnot : ∀ c ∈ "\x7b\x7d;".toList, c ∉ s.preamble := fun c hc ↦
      (consistsOf_preamble hs).notMem (by revert c; decide) (by revert c; decide)
    exact semicolon_notMem_findGlobalFrom hms (hnot _ (by decide)) (hnot _ (by decide))
      (hnot _ (by decide))
  · obtain ⟨hkey, hlist⟩ := find?_readCpp hread key
    rw [hkey, hlist, ← hmethods, List.filter_map, List.map_map]
    exact ⟨by simp, congrArg _ (List.filter_congr fun e _ ↦ decide_eq_decide.2 Iff.rfl)⟩

end SourceUnit

/-! ### All files -/

namespace Program

/-- What is kept of a program: its headers under their names, and its source files, the last one
first. -/
structure KeptAs (P : Program) (hmap : OrdMap Str CReadH) (head : List CReadCpp) : Prop where
  headers : ∀ k, Option.Rel HeaderUnit.KeptAs (P.headers.find? (·.name = k)) (hmap.find? k)
  sources : List.Forall₂ SourceUnit.KeptAs P.sources.reverse head

variable {P : Program}

/-- The first header with a name is found under it. -/
theorem rel_lookupIn_headerEntry {headers : List HeaderUnit}
    (h : ∀ h ∈ headers, IsFileName h.name ∧ ∀ c ∈ h.classes, c.WellFormed) (k : Str) :
    Option.Rel HeaderUnit.KeptAs (headers.find? (·.name = k))
      ((headers.map HeaderUnit.file).findSome? fun f ↦
        OrdMap.lookupIn k (headerEntry f).toList) := by
  induction headers with
  | nil => exact .none
  | cons h₀ headers ih =>
    obtain ⟨r, hr, hkept⟩ := HeaderUnit.exists_headerEntry (h h₀ List.mem_cons_self).1
      (h h₀ List.mem_cons_self).2
    have hrest := ih fun g hg ↦ h g (List.mem_cons_of_mem _ hg)
    rw [List.map_cons, List.findSome?_cons, List.find?_cons, hr, Option.toList_some]
    by_cases hk : h₀.name = k
    · rw [← hk, OrdMap.lookupIn_cons_self]
      simpa using Option.Rel.some hkept
    · rw [OrdMap.lookupIn_cons_of_ne (Ne.symm hk)]
      simpa [hk, OrdMap.lookupIn] using hrest

/-- What is made of the items of a list, if something is made of each. -/
theorem forall₂_filterMap {A B : Type*} {R : A → B → Prop} {f : A → Option B} {l : List A}
    (h : ∀ a ∈ l, ∃ b, f a = some b ∧ R a b) : List.Forall₂ R l (l.filterMap f) := by
  induction l with
  | nil => exact List.Forall₂.nil
  | cons a l ih =>
    obtain ⟨b, hb, hR⟩ := h a List.mem_cons_self
    rw [List.filterMap_cons_some hb]
    exact List.Forall₂.cons hR (ih fun a ha ↦ h a (List.mem_cons_of_mem _ ha))

/-- **All files of a program are read.** -/
theorem WellFormed.exists_readEachfile (hP : P.WellFormed) : ∃ hmap head,
    readEachfile (P.headers.map HeaderUnit.file) (P.sources.map SourceUnit.file) =
      some (hmap, head) ∧ P.KeptAs hmap head := by
  have hheaders : ((P.headers.map HeaderUnit.file).foldlM readHeader ∅).isSome := by
    rw [Loop.isSome_foldlM_iff (P := fun f ↦ (headerEntry f).isSome)
      fun hmap f _ ↦ by rw [readHeader_eq, Option.isSome_map]]
    intro f hf
    obtain ⟨h, hh, rfl⟩ := List.mem_map.1 hf
    obtain ⟨r, hr, -⟩ := HeaderUnit.exists_headerEntry (hP.headers h hh).1 (hP.headers h hh).2
    rw [hr]
    rfl
  have hread : ∀ s ∈ P.sources, ∃ p, readCpp s.file.content = some p ∧ s.KeptAs p := fun s hs ↦
    SourceUnit.exists_readCpp (hP.includes s hs) fun m hm ↦ (hP.methods s hs m hm).1
  have hsources : ((P.sources.map SourceUnit.file).foldlM readSource []).isSome := by
    rw [Loop.isSome_foldlM_iff (P := fun f ↦ (readCpp f.content).isSome)
      fun head f _ ↦ by cases h : readCpp f.content <;> simp [readSource, h]]
    intro f hf
    obtain ⟨s, hs, rfl⟩ := List.mem_map.1 hf
    obtain ⟨p, hp, -⟩ := hread s hs
    rw [hp]
    rfl
  obtain ⟨hmap, hhmap⟩ := Option.isSome_iff_exists.1 hheaders
  obtain ⟨head, hhead⟩ := Option.isSome_iff_exists.1 hsources
  refine ⟨hmap, head, ?_, fun k ↦ ?_, ?_⟩
  · rw [readEachfile, hhmap, hhead]
    rfl
  · rw [find?_hmap hhmap]
    exact rel_lookupIn_headerEntry hP.headers k
  · rw [foldlM_readSource hhead, List.append_nil, List.filterMap_map]
    exact List.forall₂_reverse_iff.2 (forall₂_filterMap hread)

end Program

end CArchitecture
