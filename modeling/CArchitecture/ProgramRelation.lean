import CArchitecture.ProgramReading
import CArchitecture.TestCase
import CArchitecture.TypeDefs

/-!
# The relation of a printed program

A test case that is run on the files of a program says what the program means: the lines of
`ans.txt` are its calls (`runTestCase_printed`). The arrows of a printed method are its calls,
one behind the other, and for each of them the texts that the type is looked for in come to the
same as the scope, and behind it the members of the class. The loops neither leave a text nor the
array of the arguments.
-/

namespace CArchitecture

/-! ### The arrows of a method -/

/-- The arrow in a text of a statement, if it is a call. -/
def Stmt.arrow : Stmt → List ℕ
  | declare _ => []
  | call v _ _ => [1 + v.length]

/-- No arrow goes over the end of a line. -/
theorem occurrences_line (a b : Str) : CString.occurrences "->".toList (a ++ ['\n'] ++ b) =
    CString.occurrences "->".toList (a ++ ['\n']) ++
      (CString.occurrences "->".toList b).map ((a ++ ['\n']).length + ·) :=
  CString.occurrences_append (by decide : '-' ∉ ['>']) (by decide) a b

namespace Method

variable {m : Method} {v f : Str} {args : List Str} {l l' : List Stmt} {pos : ℕ}

/-- The positions of the arrows in the statements `l'`, which come behind `l`. -/
def arrows (m : Method) : List Stmt → List Stmt → List ℕ
  | _, [] => []
  | l, .declare d :: l' => arrows m (l ++ [.declare d]) l'
  | l, .call v f args :: l' => m.arrowAt l v :: arrows m (l ++ [.call v f args]) l'

theorem exists_of_mem_arrows (h : pos ∈ m.arrows l l') : ∃ l₁ v f args l₂,
    l ++ l' = l₁ ++ .call v f args :: l₂ ∧ pos = m.arrowAt l₁ v := by
  induction l' generalizing l with
  | nil => exact absurd h List.not_mem_nil
  | cons st l' ih =>
    have happend : l ++ [st] ++ l' = l ++ st :: l' := by simp
    cases st with
    | declare d => exact happend ▸ ih h
    | call v f args =>
      rcases List.mem_cons.1 h with h | h
      · exact ⟨l, v, f, args, l', rfl, h⟩
      · exact happend ▸ ih h

/-- The text of a method around a call. -/
theorem exists_text_eq (hbody : m.body = l ++ .call v f args :: l') : ∃ rest, m.text =
    (m.head ++ '\n' :: (bodyText l ++ [' '])) ++ (v ++ ("->".toList ++
      (f ++ '(' :: (commaList args ++ ')' :: rest)))) := by
  refine ⟨";\n".toList ++ (bodyText l' ++ ['\x7d']), ?_⟩
  rw [m.text_eq, hbody]
  simp [bodyText, Stmt.text]

namespace WellFormed

/-- An arrow is in a call. -/
theorem occurrences_stmt (hm : m.WellFormed) {st : Stmt} (hst : st ∈ m.body) :
    CString.occurrences "->".toList st.text = st.arrow := by
  have hid := hm.isIdentifier_stmt hst
  cases st with
  | declare d =>
    refine CString.occurrences_of_notMem (c := '-') ?_ ['>']
    exact (Stmt.consistsOf_declare (hid _ (by simp [Stmt.otherNames]))
      (hid _ (by simp [Stmt.varNames]))).notMem (by decide) (by decide)
  | call v f args =>
    have hname : ∀ x ∈ f :: v :: args, '-' ∉ x := fun x hx ↦
      (hid x (by simpa [Stmt.otherNames, Stmt.varNames] using hx)).notMem (by decide)
    have hargs : '-' ∉ commaList args := by
      refine (consistsOf_commaList (l := ", ".toList) (fun x hx ↦ consistsOf_of_nameChars ?_)
        (by decide)).notMem (by decide) (by decide)
      exact (hid x (by simp [Stmt.otherNames, Stmt.varNames, hx])).nameChars
    have hsingle := CString.occurrences_of_single (c := '-') (a := ' ' :: v)
      (b := f ++ '(' :: (commaList args ++ ");\n".toList)) (by simp [hname v (by simp)])
      (by simp [hname f (by simp), hargs]) ['>']
    have htext : (Stmt.call v f args).text = ' ' :: v ++ ('-' :: ['>'] ++
        (f ++ '(' :: (commaList args ++ ");\n".toList))) := by
      simp [Stmt.text]
    rw [htext]
    refine hsingle.trans ?_
    simp [Stmt.arrow, Nat.add_comm]

/-- **The arrows of a body.** -/
theorem occurrences_body (hm : m.WellFormed) (hbody : m.body = l ++ l') :
    (CString.occurrences "->".toList (bodyText l' ++ ['\x7d'])).map
      ((m.head ++ '\n' :: bodyText l).length + ·) = m.arrows l l' := by
  induction l' generalizing l with
  | nil => rfl
  | cons st l' ih =>
    obtain ⟨t, ht⟩ := st.exists_text_eq
    have hst := hm.occurrences_stmt (by rw [hbody]; simp : st ∈ m.body)
    have htext : bodyText (st :: l') ++ ['\x7d'] = t ++ ['\n'] ++ (bodyText l' ++ ['\x7d']) := by
      rw [← ht]
      simp [bodyText]
    have hih := ih (l := l ++ [st]) (by rw [hbody]; simp)
    have hlen : (m.head ++ '\n' :: bodyText (l ++ [st])).length =
        (m.head ++ '\n' :: bodyText l).length + st.text.length := by
      simp [bodyText]
      omega
    have hrest : ((CString.occurrences "->".toList (bodyText l' ++ ['\x7d'])).map
        (st.text.length + ·)).map ((m.head ++ '\n' :: bodyText l).length + ·) =
          m.arrows (l ++ [st]) l' := by
      rw [← hih, hlen, List.map_map]
      refine List.map_congr_left fun q _ ↦ ?_
      rw [Function.comp_apply, Nat.add_assoc]
    rw [htext, occurrences_line, ← ht, List.map_append, hrest, hst]
    cases st with
    | declare d => rfl
    | call v f args =>
      have hat : (m.head ++ '\n' :: bodyText l).length + (1 + v.length) = m.arrowAt l v := by
        simp [arrowAt]
        omega
      rw [Stmt.arrow, List.map_singleton, hat]
      rfl

/-- **The arrows of a method** are those of its calls, in order. -/
theorem occurrences_arrow (hm : m.WellFormed) :
    CString.occurrences "->".toList m.text = m.arrows [] m.body := by
  have hhead : '-' ∉ m.head := hm.consistsOf_head.notMem (by decide) (by decide)
  have htext : m.text = m.head ++ ['\n'] ++ (bodyText m.body ++ ['\x7d']) := by
    rw [m.text_eq]
    simp
  have hnone : CString.occurrences "->".toList (m.head ++ ['\n']) = [] :=
    CString.occurrences_of_notMem (c := '-') (by simp [hhead]) ['>']
  rw [htext, occurrences_line, hnone, List.nil_append]
  exact hm.occurrences_body (List.nil_append _).symm

/-- There are no other symbols. -/
theorem occurrences_dot (hm : m.WellFormed) : CString.occurrences ".".toList m.text = [] :=
  CString.occurrences_of_notMem (hm.consistsOf_text.notMem (by decide) (by decide)) []

end WellFormed

end Method

/-! ### Around an arrow -/

theorem count_commaList {xs : List Str} (h : ∀ x ∈ xs, ',' ∉ x) :
    (commaList xs).count ',' = xs.length - 1 := by
  have hfurther : ∀ ys : List Str, (∀ y ∈ ys, ',' ∉ y) →
      (ys.flatMap (", ".toList ++ ·)).count ',' = ys.length := by
    intro ys
    induction ys with
    | nil => exact fun _ ↦ rfl
    | cons y ys ih =>
      intro hys
      have hcomma : (", ".toList ++ y).count ',' = 1 := by
        rw [List.count_append, List.count_eq_zero.2 (hys y List.mem_cons_self)]
        rfl
      rw [List.flatMap_cons, List.count_append, hcomma,
        ih fun z hz ↦ hys z (List.mem_cons_of_mem _ hz), List.length_cons, Nat.add_comm]
  cases xs with
  | nil => rfl
  | cons x xs =>
    rw [commaList, List.count_append, List.count_eq_zero.2 (h x List.mem_cons_self),
      hfurther xs fun y hy ↦ h y (List.mem_cons_of_mem _ hy), Nat.zero_add]
    rfl

/-- The number of a parameter is at most that of the parameters. -/
theorem parameterNumber_mem {funcPara valuename : Str} {k : ℤ}
    (h : parameterNumber funcPara valuename = some k) :
    0 ≤ k - 1 ∧ k - 1 ≤ (funcPara.count ',' : ℤ) := by
  obtain ⟨q, -, rfl⟩ := Option.map_eq_some_iff.1 h
  have hle := (List.take_sublist q funcPara).count_le ','
  omega

/-- The arguments of a call. -/
theorem argumentText_append {f args : Str} (hopen : '(' ∉ f) (hf : ')' ∉ f) (hargs : ')' ∉ args)
    (a rest : Str) :
    argumentText (a ++ ("->".toList ++ (f ++ '(' :: (args ++ ')' :: rest)))) a.length = args := by
  have hfirst := CString.find_of_notMem (c := '(') (a := "->".toList ++ f) (by simp [hopen]) a []
    (args ++ ')' :: rest)
  have hlast := CString.find_of_notMem (c := ')') (a := "->".toList ++ (f ++ '(' :: args))
    (by simp [hf, hargs]) a [] rest
  have htext : a ++ ("->".toList ++ f ++ (['('] ++ (args ++ ')' :: rest))) =
      a ++ ("->".toList ++ (f ++ '(' :: (args ++ ')' :: rest))) := by
    simp
  have htext' : a ++ ("->".toList ++ (f ++ '(' :: args) ++ ([')'] ++ rest)) =
      a ++ ("->".toList ++ (f ++ '(' :: (args ++ ')' :: rest))) := by
    simp
  have hinner : a ++ ("->".toList ++ (f ++ '(' :: (args ++ ')' :: rest))) =
      (a ++ ("->".toList ++ f) ++ ['(']) ++ args ++ ')' :: rest := by
    simp
  have hlen : a.length + ("->".toList ++ (f ++ '(' :: args)).length =
      ((a ++ ("->".toList ++ f) ++ ['(']) ++ args).length := by
    simp
  rw [htext] at hfirst
  rw [htext', hlen] at hlast
  have hstart : CString.find "(".toList _ a.length = _ := hfirst
  have hend : CString.find ")".toList _ a.length = _ := hlast
  rw [argumentText, hstart, hend, hinner]
  simp only [List.take_left]
  exact List.drop_left' (by simp; omega)

namespace Method.WellFormed

variable {m : Method} {v f : Str} {args : List Str} {l l' : List Stmt}

/-- The parameters that a method calls have arguments in the array. -/
theorem calledParameters_le (hm : m.WellFormed) {k : ℤ} (hk : k ∈ calledParameters m.text) :
    0 ≤ k - 1 ∧ k - 1 < (maxArguments : ℤ) := by
  obtain ⟨pos, -, hk⟩ := List.mem_flatMap.1 hk
  obtain ⟨hpos, hle⟩ := parameterNumber_mem (Option.mem_toList.1 hk)
  -- the commas before the first closing parenthesis are those of the parameters
  have hcount : (parameterList m.text).count ',' ≤ m.params.length - 1 := by
    have hopen : ∀ c ∈ ",)".toList, c ∉ m.opening := fun c hc ↦
      hm.consistsOf_opening.notMem (by revert c; decide) (by revert c; decide)
    have hparams : ')' ∉ commaList (m.params.map Variable.text) :=
      hm.consistsOf_params.notMem (by decide) (by decide)
    have hsplit : m.text = m.opening ++ commaList (m.params.map Variable.text) ++
        ([')'] ++ ("\n\x7b".toList ++ '\n' :: (bodyText m.body ++ ['\x7d']))) := by
      rw [m.text_eq, m.head_eq]
      simp
    have hfind := CString.find_of_notMem (c := ')')
      (a := m.opening ++ commaList (m.params.map Variable.text))
      (by simp [hopen ')' (by decide), hparams]) [] []
      ("\n\x7b".toList ++ '\n' :: (bodyText m.body ++ ['\x7d']))
    rw [← hsplit, List.length_nil, Nat.zero_add] at hfind
    have hend : CString.find ")".toList m.text 0 = _ := hfind
    rw [parameterList, hend]
    refine ((List.drop_sublist _ _).count_le ',').trans ?_
    rw [hsplit, List.take_left' rfl, List.count_append,
      List.count_eq_zero.2 (hopen ',' (by decide)), Nat.zero_add, count_commaList, List.length_map]
    intro x hx
    obtain ⟨d, hd, rfl⟩ := List.mem_map.1 hx
    obtain ⟨htype, hname, -⟩ := hm.param hd
    exact (Variable.consistsOf_text htype hname).notMem (by decide) (by decide)
  have hparams := hm.params_le
  rw [maxArguments] at hparams ⊢
  omega

/-- The variable before an arrow. -/
theorem valueAt_append {a : Str} {c : Char} (hc : isNameChar c = false)
    (hv : ∀ d ∈ v, isNameChar d) (rest : Str) :
    valueAt (a ++ c :: v ++ rest) (a ++ c :: v).length = v := by
  have hrev : (a ++ c :: v).reverse = v.reverse ++ c :: a.reverse := by
    simp
  rw [valueAt, List.take_left, List.rtakeWhile, hrev,
    (CString.span_append (p := isNameChar) (fun d hd ↦ hv d (List.mem_reverse.1 hd))
      (by simp [hc])).1, List.reverse_reverse]

/-- **What stands around an arrow**: the variable before it, and behind it a method with as many
arguments as there is room for. -/
theorem around_arrow (hm : m.WellFormed) (hbody : m.body = l ++ .call v f args :: l') :
    valueAt m.text (m.arrowAt l v) = v ∧
      (∃ c ∈ m.text.take (m.arrowAt l v), isNameChar c = false) ∧
      (∃ c ∈ m.text.drop (m.arrowAt l v + "->".toList.length), isNameChar c = false) ∧
      (argumentText m.text (m.arrowAt l v)).dropLast.count ',' < maxArguments := by
  obtain ⟨rest, htext⟩ := m.exists_text_eq hbody
  have hcall : Stmt.call v f args ∈ m.body := by
    rw [hbody]
    simp
  have hid := hm.isIdentifier_stmt hcall
  have hv : IsIdentifier v := hid v (by simp [Stmt.varNames])
  have hf : IsIdentifier f := hid f (by simp [Stmt.otherNames])
  have hargs : ConsistsOf ", ".toList (commaList args) := by
    refine consistsOf_commaList (fun x hx ↦ consistsOf_of_nameChars ?_) (by decide)
    exact (hid x (by simp [Stmt.varNames, hx])).nameChars
  -- the text before the arrow, with the blank before the variable
  have hat : m.arrowAt l v = (m.head ++ '\n' :: bodyText l ++ ' ' :: v).length := by
    simp [arrowAt]
    omega
  have hsplit : m.text = m.head ++ '\n' :: bodyText l ++ ' ' :: v ++ ("->".toList ++
      (f ++ '(' :: (commaList args ++ ')' :: rest))) := by
    rw [htext]
    simp
  have hdrop : m.text.drop (m.arrowAt l v + "->".toList.length) =
      f ++ '(' :: (commaList args ++ ')' :: rest) := by
    rw [hat, hsplit, List.drop_length_add_append, List.drop_left]
  refine ⟨?_, ?_, ?_, ?_⟩
  · rw [hat, hsplit]
    exact valueAt_append rfl hv.nameChars _
  · rw [hat, hsplit, List.take_left]
    exact ⟨' ', by simp, rfl⟩
  · rw [hdrop]
    exact ⟨'(', by simp, rfl⟩
  · have hopen : '(' ∉ f := hf.notMem (by decide)
    have hclose : ')' ∉ f ∧ ')' ∉ commaList args :=
      ⟨hf.notMem (by decide), hargs.notMem (by decide) (by decide)⟩
    rw [hat, hsplit, argumentText_append hopen hclose.1 hclose.2]
    have hcount := count_commaList fun x (hx : x ∈ args) ↦
      (hid x (by simp [Stmt.varNames, hx])).notMem (by decide)
    have hle := (List.dropLast_sublist (commaList args)).count_le ','
    have hlength : args.length ≤ maxArguments := hm.args_le _ hcall
    rw [maxArguments] at hlength ⊢
    omega

end Method.WellFormed

/-! ### The tables of a program -/

/-- An item is found by what tells it from the others. -/
theorem find?_eq_some_of_nodup {A : Type*} {f : A → Str} {l : List A} (hnodup : (l.map f).Nodup)
    {a : A} (ha : a ∈ l) : l.find? (fun b ↦ f b = f a) = some a := by
  cases hfind : l.find? (fun b ↦ f b = f a) with
  | none => exact absurd (List.find?_eq_none.1 hfind a ha) (by simp)
  | some b =>
    have hname : f b = f a := by simpa using List.find?_some hfind
    rw [List.inj_on_of_nodup_map hnodup (List.mem_of_find?_eq_some hfind) ha hname]

/-- A list with one item of a kind. -/
theorem flatMap_ite_eq_singleton {A B : Type*} {p : A → Prop} [DecidablePred p] {l : List A}
    (hnodup : l.Nodup) {a : A} (ha : a ∈ l) (hp : p a) (huniq : ∀ b ∈ l, p b → b = a) (x : B) :
    (l.flatMap fun b ↦ if p b then [x] else []) = [x] := by
  obtain ⟨l₁, l₂, rfl⟩ := List.append_of_mem ha
  rw [List.nodup_middle, List.nodup_cons, List.mem_append, not_or] at hnodup
  have hnone : ∀ l' ⊆ l₁ ++ a :: l₂, a ∉ l' → (l'.flatMap fun b ↦ if p b then [x] else []) = [] :=
    fun l' hsub hnot ↦ List.flatMap_eq_nil_iff.2 fun b hb ↦
      if_neg fun hpb ↦ hnot (huniq b (hsub hb) hpb ▸ hb)
  rw [List.flatMap_append, List.flatMap_cons, if_pos hp,
    hnone l₁ (List.subset_append_left _ _) hnodup.1.1,
    hnone l₂ (fun b hb ↦ by simp [hb]) hnodup.1.2]
  rfl

/-- A text without a semicolon defines no types. -/
theorem dealwithTypeDef_of_notMem {s : Str} (h : ';' ∉ s) (mapForTypeDef : OrdMap Str Str) :
    dealwithTypeDef mapForTypeDef s = mapForTypeDef := by
  have hnone : ∀ q, CString.find ";".toList s q = none := fun q ↦
    (CString.find_eq_none_iff (by decide)).2 fun i _ hi ↦
      h (List.mem_of_getElem? (CString.getElem?_of_isPrefix hi))
  rw [dealwithTypeDef]
  induction CString.occurrences "typedef".toList s with
  | nil => rfl
  | cons q l ih => rw [List.foldl_cons, noteTypeDef, hnone, ih]

namespace Program

variable {P : Program} {hmap : OrdMap Str CReadH} {head : List CReadCpp}

/-- Classes with the same name are the same, and in the same header. -/
theorem WellFormed.eq_of_name (hP : P.WellFormed) {h h' : HeaderUnit} (hh : h ∈ P.headers)
    (hh' : h' ∈ P.headers) {c c' : ClassDecl} (hc : c ∈ h.classes) (hc' : c' ∈ h'.classes)
    (hname : c.name = c'.name) : h = h' ∧ c = c' := by
  refine ⟨?_, List.inj_on_of_nodup_map hP.classNames (List.mem_flatMap.2 ⟨h, hh, hc⟩)
    (List.mem_flatMap.2 ⟨h', hh', hc'⟩) hname⟩
  by_contra hne
  have hnodup := hP.classNames
  rw [classes, List.map_flatMap, List.nodup_flatMap] at hnodup
  have : Std.Symm (Function.onFun List.Disjoint
      fun h : HeaderUnit ↦ h.classes.map ClassDecl.name) := ⟨fun _ _ hd ↦ List.Disjoint.symm hd⟩
  have hdisjoint := hnodup.2.forall hh hh' hne
  exact hdisjoint (List.mem_map_of_mem hc) (hname ▸ List.mem_map_of_mem hc')

/-- The classes that a header is kept with. -/
theorem isSome_classdef_iff {h : HeaderUnit} {r : CReadH} (hr : h.KeptAs r) {T : Str} :
    (r.classdef.find? T).isSome ↔ ∃ c ∈ h.classes, c.name = T := by
  rw [hr.classdef, Option.isSome_map, List.find?_isSome]
  simp

namespace KeptAs

/-- Every header is found. -/
theorem exists_find? (hk : P.KeptAs hmap head) (hP : P.WellFormed) {h : HeaderUnit}
    (hh : h ∈ P.headers) : ∃ r, hmap.find? h.name = some r ∧ h.KeptAs r := by
  have hrel := hk.headers h.name
  rw [find?_eq_some_of_nodup hP.headerNames hh] at hrel
  cases hfind : hmap.find? h.name with
  | none =>
    rw [hfind] at hrel
    cases hrel
  | some r =>
    rw [hfind] at hrel
    cases hrel with
    | some hr => exact ⟨r, rfl, hr⟩

/-- What is found is a header. -/
theorem exists_header (hk : P.KeptAs hmap head) {k : Str} {r : CReadH}
    (hfind : hmap.find? k = some r) : ∃ h ∈ P.headers, h.name = k ∧ h.KeptAs r := by
  have hrel := hk.headers k
  rw [hfind] at hrel
  cases hheader : P.headers.find? (·.name = k) with
  | none =>
    rw [hheader] at hrel
    cases hrel
  | some h =>
    rw [hheader] at hrel
    cases hrel with
    | some hr =>
      exact ⟨h, List.mem_of_find?_eq_some hheader, by simpa using List.find?_some hheader, hr⟩

/-- What is kept of the source files is one of them. -/
theorem exists_source (hk : P.KeptAs hmap head) {p : CReadCpp} (hp : p ∈ head) :
    ∃ s ∈ P.sources, s.KeptAs p := by
  obtain ⟨i, hi, rfl⟩ := List.mem_iff_getElem.1 hp
  have hlt : i < P.sources.reverse.length := by rwa [hk.sources.length_eq]
  exact ⟨_, List.mem_reverse.1 (List.getElem_mem hlt), hk.sources.get hlt hi⟩

/-- No type is given another name. -/
theorem typeDefs_eq_empty (hk : P.KeptAs hmap head) : typeDefs hmap head = ∅ := by
  have hnone : ∀ text ∈ hmap.entries.map (·.2.globalStr) ++ head.map (·.globalStr),
      ∀ m, dealwithTypeDef m text = m := by
    intro text htext m
    rcases List.mem_append.1 htext with htext | htext
    · obtain ⟨e, he, rfl⟩ := List.mem_map.1 htext
      obtain ⟨h, -, -, hr⟩ := hk.exists_header (OrdMap.mem_entries_iff.1 he)
      refine dealwithTypeDef_of_forall (fun q hq ↦ ?_) m
      have hget : e.2.globalStr[q]? = some 't' := CString.getElem?_of_isPrefix hq
      rw [hr.globalStr] at hget
      exact absurd (List.eq_of_mem_replicate (List.mem_of_getElem? hget)) (by decide)
    · obtain ⟨p, hp, rfl⟩ := List.mem_map.1 htext
      obtain ⟨s, -, hs⟩ := hk.exists_source hp
      exact dealwithTypeDef_of_notMem hs.globalStr m
  rw [typeDefs]
  generalize hmap.entries.map (·.2.globalStr) ++ head.map (·.globalStr) = texts at hnone ⊢
  induction texts with
  | nil => rfl
  | cons text texts ih =>
    rw [List.foldl_cons, hnone text List.mem_cons_self]
    exact ih fun t ht ↦ hnone t (List.mem_cons_of_mem _ ht)

/-- **Every class is defined once.** -/
theorem flatMap_classdef (hk : P.KeptAs hmap head) (hP : P.WellFormed) (T : Str)
    (line : Str × Str) :
    (hmap.entries.flatMap fun e ↦ if (e.2.classdef.find? T).isSome then [line] else []) =
      if T ∈ P.classes.map ClassDecl.name then [line] else [] := by
  split_ifs with hT
  · obtain ⟨c, hc, rfl⟩ := List.mem_map.1 hT
    obtain ⟨h, hh, hc⟩ := List.mem_flatMap.1 hc
    obtain ⟨r, hr, hkept⟩ := hk.exists_find? hP hh
    have hnodup : hmap.entries.Nodup := List.Nodup.of_map Prod.fst hmap.nodup_keys
    refine flatMap_ite_eq_singleton hnodup (OrdMap.mem_entries_iff.2 hr)
      ((isSome_classdef_iff hkept).2 ⟨c, hc, rfl⟩) (fun e he hdef ↦ ?_) line
    have hfind := OrdMap.mem_entries_iff.1 he
    obtain ⟨h', hh', hname, hkept'⟩ := hk.exists_header hfind
    obtain ⟨c', hc', heq⟩ := (isSome_classdef_iff hkept').1 hdef
    obtain ⟨rfl, -⟩ := hP.eq_of_name hh hh' hc hc' heq.symm
    rw [← hname, hr] at hfind
    exact Prod.ext hname.symm (Option.some.inj hfind).symm
  · refine List.flatMap_eq_nil_iff.2 fun e he ↦ if_neg fun hdef ↦ hT ?_
    obtain ⟨h, hh, -, hkept⟩ := hk.exists_header (OrdMap.mem_entries_iff.1 he)
    obtain ⟨c, hc, rfl⟩ := (isSome_classdef_iff hkept).1 hdef
    exact List.mem_map_of_mem (List.mem_flatMap.2 ⟨h, hh, hc⟩)

/-- The definition of a class is found in the header that its methods include. -/
theorem classBody_eq (hk : P.KeptAs hmap head) (hP : P.WellFormed) {s : SourceUnit}
    (hs : s ∈ P.sources) {p : CReadCpp} (hp : p.headfile = s.includes) {m : Method}
    (hm : m ∈ s.methods) {c : ClassDecl}
    (hc : P.classes.find? (·.name = m.classname) = some c) :
    classBody hmap m.classname p = some ⟨c.definedText⟩ := by
  have hname : c.name = m.classname := by simpa using List.find?_some hc
  obtain ⟨h, hh, hch⟩ := List.mem_flatMap.1 (List.mem_of_find?_eq_some hc)
  have hincluded : h.name ∈ s.includes := hP.own s hs m hm h hh c hch hname
  have hbase : ∀ n ∈ s.includes, baseName n = n := fun n hn ↦ by
    have hslash : '/' ∉ n := fun hmem ↦ (hP.includes s hs n hn _ hmem).elim (by decide) (by decide)
    rw [baseName, if_neg hslash]
  -- whatever header has a class of this name, it is this one
  have honly : ∀ n ∈ s.includes, ∀ x, ((hmap.find? (baseName n)).bind fun r ↦
      r.classdef.find? m.classname) = some x → x = ⟨c.definedText⟩ := by
    intro n hn x hx
    obtain ⟨r, hr, hx⟩ := Option.bind_eq_some_iff.1 hx
    obtain ⟨h', hh', -, hkept⟩ := hk.exists_header hr
    rw [hkept.classdef] at hx
    obtain ⟨c', hc', rfl⟩ := Option.map_eq_some_iff.1 hx
    have hname' : c'.name = m.classname := by simpa using List.find?_some hc'
    rw [(hP.eq_of_name hh' hh (List.mem_of_find?_eq_some hc') hch
      (hname'.trans hname.symm)).2]
  have hhere : ((hmap.find? (baseName h.name)).bind fun r ↦
      r.classdef.find? m.classname).isSome := by
    obtain ⟨r, hr, hkept⟩ := hk.exists_find? hP hh
    rw [hbase _ hincluded, hr, Option.bind_some]
    exact (isSome_classdef_iff hkept).2 ⟨c, hch, hname⟩
  have hsome : (s.includes.findSome? fun n ↦ (hmap.find? (baseName n)).bind fun r ↦
      r.classdef.find? m.classname).isSome :=
    List.findSome?_isSome_iff.2 ⟨h.name, hincluded, hhere⟩
  rw [classBody, hp]
  obtain ⟨x, hx⟩ := Option.isSome_iff_exists.1 hsome
  obtain ⟨n, hn, hxn⟩ := List.exists_of_findSome?_eq_some hx
  rw [hx, honly n hn x hxn]

end KeptAs

end Program

/-- A type in a scope is that of a variable. -/
theorem exists_of_typeIn {scope : List Variable} {v T : Str} (h : typeIn scope v = some T) :
    ∃ d ∈ scope, d.type = T := by
  obtain ⟨d, hd, rfl⟩ := Option.map_eq_some_iff.1 h
  exact ⟨d, List.mem_of_find?_eq_some hd, rfl⟩

theorem Method.WellFormed.type_ne_nil {m : Method} (hm : m.WellFormed) {l l' : List Stmt}
    (hbody : m.body = l ++ l') {v T : Str} (hT : typeIn (m.params ++ declared l) v = some T) :
    T ≠ [] := by
  obtain ⟨d, hd, rfl⟩ := exists_of_typeIn hT
  rcases List.mem_append.1 hd with hd | hd
  · exact (hm.param hd).1.ne_nil
  · obtain ⟨st, hst, heq⟩ := List.mem_filterMap.1 hd
    have hbody' : st ∈ m.body := by
      rw [hbody]
      exact List.mem_append_left _ hst
    have hid := hm.isIdentifier_stmt hbody'
    cases st with
    | declare e =>
      obtain rfl := Option.some.inj heq
      exact (hid _ (by simp [Stmt.otherNames])).ne_nil
    | call u f args => exact absurd heq (by simp)

/-- What is found in a method that is kept under a class. -/
def methodLines (tables : SymbolTables) (p : CReadCpp) (x : Str × CMethodBody) :
    List (Str × Str) :=
  callLines tables ⟨"->".toList, x.2.body, x.1, p⟩ ++
    callLines tables ⟨".".toList, x.2.body, x.1, p⟩

/-- The lines, told method by method. -/
theorem foundLines_eq (hmap : OrdMap Str CReadH) (head : List CReadCpp) :
    foundLines hmap head = head.flatMap fun p ↦
      (p.cppclass.entries.flatMap fun e ↦ e.2.map (e.1, ·)).flatMap
        (methodLines (parsedTables hmap head) p.withParameters) := by
  rw [foundLines, parsingCalls_withParameters, parsingCalls]
  simp [methodLines, List.flatMap_assoc, List.flatMap_map, List.map_flatMap]

/-- What is called is in scope, or a member. -/
theorem Program.WellFormed.exists_typeIn {P : Program} (hP : P.WellFormed) {s : SourceUnit}
    (hs : s ∈ P.sources) {m : Method} (hm : m ∈ s.methods) {v f : Str} {args : List Str}
    {l l' : List Stmt} (hbody : m.body = l ++ .call v f args :: l') :
    ∃ T, typeIn (m.params ++ declared l ++ P.membersOf m.classname) v = some T := by
  obtain ⟨-, hscoped⟩ := hP.methods s hs m hm
  rw [hbody] at hscoped
  obtain ⟨used, hcall⟩ := hscoped.of_append_right
  exact Option.isSome_iff_exists.1 hcall.1

namespace Program.KeptAs

variable {P : Program} {hmap : OrdMap Str CReadH} {head : List CReadCpp} {s : SourceUnit}
  {p : CReadCpp} {m : Method} {v f : Str} {args : List Str} {l l' : List Stmt}

/-- **The type before an arrow** is the one that the variable has there: in the scope, or behind it
as a member. -/
theorem firstType_arrow (hk : P.KeptAs hmap head) (hP : P.WellFormed) (hs : s ∈ P.sources)
    (hp : p.headfile = s.includes) (hm : m ∈ s.methods)
    (hbody : m.body = l ++ .call v f args :: l') {T : Str}
    (hT : typeIn (m.params ++ declared l ++ P.membersOf m.classname) v = some T) :
    T ≠ [] ∧ firstType v (lookups hmap m.text m.classname p (m.arrowAt l v)) = some T := by
  obtain ⟨hwf, hscoped⟩ := hP.methods s hs m hm
  have hfirst : firstMention v l = typeIn (declared l) v :=
    (Scoped.of_append_left (hbody ▸ hscoped)).typeIn_declared.2 v
  have hmethod : findtype m.text v (m.arrowAt l v) =
      some ((typeIn (m.params ++ declared l) v).getD []) := by
    rw [hwf.findtype_arrow hbody, hfirst, typeIn_append]
  rw [typeIn_append] at hT
  rw [lookups, firstType, hmethod, Option.bind_eq_bind, Option.bind_some]
  cases hscope : typeIn (m.params ++ declared l) v with
  | some T' =>
    rw [hscope, Option.some_or] at hT
    obtain rfl := Option.some.inj hT
    have hne := hwf.type_ne_nil hbody hscope
    exact ⟨hne, by rw [Option.getD_some, if_pos hne]⟩
  | none =>
    -- it is a member
    rw [hscope, Option.none_or, membersOf] at hT
    cases hclass : P.classes.find? (·.name = m.classname) with
    | none =>
      rw [hclass] at hT
      exact absurd hT (by simp [typeIn])
    | some c =>
      rw [hclass, Option.map_some, Option.getD_some] at hT
      obtain ⟨h, hh, hc⟩ := List.mem_flatMap.1 (List.mem_of_find?_eq_some hclass)
      have hcwf := (hP.headers h hh).2 c hc
      obtain ⟨d, hd, hdT⟩ := exists_of_typeIn hT
      have hne : T ≠ [] := hdT ▸ (hcwf.types d hd).ne_nil
      refine ⟨hne, ?_⟩
      rw [hk.classBody_eq hP hs hp hm hclass, Option.getD_none, if_neg (by simp),
        Option.toList_some, List.map_singleton, List.singleton_append, firstType,
        hcwf.findtype_member hT, Option.bind_eq_bind, Option.bind_some, if_pos hne]

/-- The lines of an arrow. -/
theorem linesAt_arrow (hk : P.KeptAs hmap head) (hP : P.WellFormed) (hs : s ∈ P.sources)
    (hp : p.headfile = s.includes) (hm : m ∈ s.methods)
    (hbody : m.body = l ++ .call v f args :: l') {T : Str}
    (hT : typeIn (m.params ++ declared l ++ P.membersOf m.classname) v = some T) :
    linesAt (parsedTables hmap head) ⟨"->".toList, m.text, m.classname, p⟩ (m.arrowAt l v) =
      if T ∈ P.classes.map ClassDecl.name then [(m.classname, T)] else [] := by
  obtain ⟨hne, hfirst⟩ := hk.firstType_arrow hP hs hp hm hbody hT
  obtain ⟨hwf, -⟩ := hP.methods s hs m hm
  obtain ⟨hvalue, -⟩ := hwf.around_arrow hbody
  have hv : v ≠ [] := (hwf.isIdentifier_stmt (by rw [hbody]; simp : Stmt.call v f args ∈ m.body) v
    (by simp [Stmt.varNames])).ne_nil
  have hresolve : (parsedTables hmap head).resolve T = T := by
    rw [SymbolTables.resolve, parsedTables, hk.typeDefs_eq_empty]
    rfl
  have htype : firstType v (lookups (parsedTables hmap head).hmap m.text m.classname p
      (m.arrowAt l v)) = some T := hfirst
  rw [linesAt, hvalue, if_neg hv, htype]
  simp only [if_neg hne, hresolve]
  exact hk.flatMap_classdef hP T (m.classname, T)

/-- **The lines of the arrows** in the second part of a body. -/
theorem flatMap_linesAt (hk : P.KeptAs hmap head) (hP : P.WellFormed) (hs : s ∈ P.sources)
    (hp : p.headfile = s.includes) (hm : m ∈ s.methods) (hbody : m.body = l ++ l') :
    (m.arrows l l').flatMap
        (linesAt (parsedTables hmap head) ⟨"->".toList, m.text, m.classname, p⟩) =
      ((calledTypes (P.membersOf m.classname) (m.params ++ declared l) l').filter
        (· ∈ P.classes.map ClassDecl.name)).map (m.classname, ·) := by
  induction l' generalizing l with
  | nil => rfl
  | cons st l' ih =>
    have hih := ih (l := l ++ [st]) (by rw [hbody]; simp)
    rw [declared_append, ← List.append_assoc] at hih
    cases st with
    | declare d => exact hih
    | call v f args =>
      obtain ⟨T, hT⟩ := hP.exists_typeIn hs hm hbody
      have hnone : declared [Stmt.call v f args] = [] := rfl
      rw [hnone, List.append_nil] at hih
      rw [Method.arrows, List.flatMap_cons, hk.linesAt_arrow hP hs hp hm hbody hT, hih, calledTypes,
        hT, Option.toList_some, List.singleton_append, List.filter_cons]
      by_cases hmem : T ∈ P.classes.map ClassDecl.name
      · rw [if_pos hmem, if_pos (decide_eq_true hmem), List.map_cons, List.singleton_append]
      · rw [if_neg hmem, if_neg (by simpa using hmem), List.nil_append]

/-- What is found in a method are its calls. -/
theorem callLines_arrow (hk : P.KeptAs hmap head) (hP : P.WellFormed) (hs : s ∈ P.sources)
    (hp : p.headfile = s.includes) (hm : m ∈ s.methods) :
    callLines (parsedTables hmap head) ⟨"->".toList, m.text, m.classname, p⟩ = P.callsIn m := by
  rw [callLines, (hP.methods s hs m hm).1.occurrences_arrow,
    hk.flatMap_linesAt hP hs hp hm (List.nil_append _).symm]
  simp [callsIn, declared]

/-- What is found in the methods of a source file are its calls. -/
theorem flatMap_methodLines_perm (hk : P.KeptAs hmap head) (hP : P.WellFormed) (hs : s ∈ P.sources)
    (hkept : s.KeptAs p) : ((p.cppclass.entries.flatMap fun e ↦ e.2.map (e.1, ·)).flatMap
      (methodLines (parsedTables hmap head) p.withParameters)).Perm
        (s.methods.flatMap P.callsIn) := by
  refine (hkept.methods.flatMap_right _).trans (List.Perm.of_eq ?_)
  rw [List.flatMap_map]
  refine List.flatMap_congr fun m hm ↦ ?_
  have harrow := hk.callLines_arrow (p := p.withParameters) hP hs
    (hkept.headfile (List.ne_nil_of_mem hm)) hm
  have hdot : callLines (parsedTables hmap head)
      ⟨".".toList, m.text, m.classname, p.withParameters⟩ = [] := by
    rw [callLines, (hP.methods s hs m hm).1.occurrences_dot]
    rfl
  exact (congrArg₂ _ harrow hdot).trans (List.append_nil _)

/-- **The lines that are found** are the calls of the program, but for their order. -/
theorem foundLines_perm (hk : P.KeptAs hmap head) (hP : P.WellFormed) :
    (foundLines hmap head).Perm P.calls := by
  have hall : ∀ {ss : List SourceUnit} {ps}, List.Forall₂ SourceUnit.KeptAs ss ps →
      (∀ s ∈ ss, s ∈ P.sources) → (ps.flatMap fun p ↦
        (p.cppclass.entries.flatMap fun e ↦ e.2.map (e.1, ·)).flatMap
          (methodLines (parsedTables hmap head) p.withParameters)).Perm
            (ss.flatMap fun s ↦ s.methods.flatMap P.callsIn) := by
    intro ss ps hrel
    induction hrel with
    | nil => exact fun _ ↦ List.Perm.refl _
    | cons hkept _ ih =>
      intro hmem
      obtain ⟨hs, hss⟩ := List.forall_mem_cons.1 hmem
      rw [List.flatMap_cons, List.flatMap_cons]
      exact (hk.flatMap_methodLines_perm hP hs hkept).append (ih hss)
  rw [foundLines_eq]
  -- the source files are kept the other way round
  exact (hall hk.sources fun s hs ↦ List.mem_reverse.1 hs).trans
    (P.sources.reverse_perm.flatMap_right _)

/-- What is kept of a method, under its class. -/
theorem exists_method (hk : P.KeptAs hmap head) (hp : p ∈ head) {e : Str × List CMethodBody}
    (he : e ∈ p.cppclass.entries) {q : CMethodBody} (hq : q ∈ e.2) :
    ∃ s ∈ P.sources, p.headfile = s.includes ∧
      ∃ m ∈ s.methods, m.classname = e.1 ∧ methodOf m.text = q := by
  obtain ⟨s, hs, hkept⟩ := hk.exists_source hp
  have hmem := hkept.methods.mem_iff.1 (List.mem_flatMap.2 ⟨e, he, List.mem_map_of_mem hq⟩)
  obtain ⟨m, hm, heq⟩ := List.mem_map.1 hmem
  exact ⟨s, hs, hkept.headfile (List.ne_nil_of_mem hm), m, hm, Prod.ext_iff.1 heq⟩

/-- The parameters that are called have arguments in the array. -/
theorem parametersFit (hk : P.KeptAs hmap head) (hP : P.WellFormed) (typeofname : Str)
    (call : MethodCall) : ParametersFit (head.map CReadCpp.withParameters) typeofname call := by
  intro q hfound k hmem
  obtain ⟨p', hp', hfound⟩ := List.exists_of_findSome?_eq_some hfound
  obtain ⟨p, hp, rfl⟩ := List.mem_map.1 hp'
  obtain ⟨methods, hmethods, hfound⟩ := Option.bind_eq_some_iff.1 hfound
  rw [CReadCpp.withParameters, OrdMap.find?_mapValues] at hmethods
  obtain ⟨qs, hqs, rfl⟩ := Option.map_eq_some_iff.1 hmethods
  obtain ⟨q', hq', rfl⟩ := List.mem_map.1 (List.mem_of_find?_eq_some hfound)
  obtain ⟨s, hs, -, m, hm, -, rfl⟩ := hk.exists_method hp (OrdMap.mem_entries_iff.2 hqs) hq'
  exact (hP.methods s hs m hm).1.calledParameters_le hmem

/-- **An arrow has what it needs.** -/
theorem symbolOk (hk : P.KeptAs hmap head) (hP : P.WellFormed) (hs : s ∈ P.sources)
    (hp : p.headfile = s.includes) (hm : m ∈ s.methods)
    (hbody : m.body = l ++ .call v f args :: l') :
    SymbolOk (parsedTables hmap head) ⟨"->".toList, m.text, m.classname, p⟩ (m.arrowAt l v) := by
  obtain ⟨hvalue, hbefore, hafter, harguments⟩ := (hP.methods s hs m hm).1.around_arrow hbody
  obtain ⟨T, hT⟩ := hP.exists_typeIn hs hm hbody
  have hfirst := (hk.firstType_arrow hP hs hp hm hbody hT).2
  have hsome : (firstType (valueAt m.text (m.arrowAt l v))
      (lookups hmap m.text m.classname p (m.arrowAt l v))).isSome := by
    rw [hvalue, hfirst]
    rfl
  exact
    { before := hbefore
      after := hafter
      arguments := fun _ ↦ harguments
      types := fun hne ↦ (isSome_firstType_iff hne (forall_mem_valueAt _ _)).1 hsome
      parameters := fun _ _ _ _ _ _ _ ↦ hk.parametersFit hP _ _ }

/-- **No symbol leaves its text.** -/
theorem symbolsOk (hk : P.KeptAs hmap head) (hP : P.WellFormed) : SymbolsOk hmap head := by
  -- an arrow in a method is that of a call
  have harrow : ∀ s ∈ P.sources, ∀ m ∈ s.methods, ∀ pos, "->".toList <+: m.text.drop pos →
      ∃ l v f args l', m.body = l ++ .call v f args :: l' ∧ pos = m.arrowAt l v := by
    intro s hs m hm pos hpos
    have hmem := (CString.mem_occurrences (by decide : '-' ∉ ['>'])).2 hpos
    have hoccurrences := (hP.methods s hs m hm).1.occurrences_arrow
    exact Method.exists_of_mem_arrows (hoccurrences ▸ hmem)
  constructor
  · intro p hp q hq pos hpos
    obtain ⟨e, he, hq⟩ := List.mem_flatMap.1 hq
    obtain ⟨s, hs, -, m, hm, -, rfl⟩ := hk.exists_method hp he hq
    obtain ⟨l, v, f, args, l', hbody, rfl⟩ := harrow s hs m hm pos hpos
    exact ((hP.methods s hs m hm).1.around_arrow hbody).2.1
  · intro call' hcall' pos hpos
    rw [parsingCalls_withParameters] at hcall'
    obtain ⟨⟨symbol, methodbody, classname, p⟩, hcall, rfl⟩ := List.mem_map.1 hcall'
    obtain ⟨hp, q, ⟨e, he, rfl, hq⟩, rfl, hsymbol⟩ := mem_parsingCalls.1 hcall
    obtain ⟨s, hs, hheadfile, m, hm, hclass, rfl⟩ := hk.exists_method hp he hq
    rcases hsymbol with rfl | rfl
    · obtain ⟨l, v, f, args, l', hbody, rfl⟩ := harrow s hs m hm pos hpos
      rw [← hclass]
      exact hk.symbolOk (p := p.withParameters) hP hs hheadfile hm hbody
    · have hmem : pos ∈ CString.occurrences ".".toList m.text :=
        (CString.mem_occurrences (c := '.') List.not_mem_nil).2 hpos
      rw [(hP.methods s hs m hm).1.occurrences_dot] at hmem
      exact absurd hmem List.not_mem_nil

end Program.KeptAs

/-! ### Running on a program -/

/-- The classes are counted in any order of the lines. -/
theorem length_classesIn_perm {lines lines' : List (Str × Str)} (h : lines.Perm lines') :
    (classesIn lines).length = (classesIn lines').length :=
  ((h.filter _).flatMap_right _).dedup.length_eq

/-- The files that are found are those of the program, and their paths fit. -/
structure Program.StoredIn (P : Program) (m : Machine) (folder : Folder) (disk : Str → Str)
    (path : Str) : Prop where
  fits : folder.Fits path
  headers : headerFiles m folder disk path = P.headers.map HeaderUnit.file
  sources : sourceFiles m folder disk path = P.sources.map SourceUnit.file

section Runs

variable {P : Program} {m : Machine} {folder : Folder} {disk : Str → Str} {path : Str}

namespace Program.StoredIn

/-- What is read is the program. -/
theorem keptAs (h : P.StoredIn m folder disk path) (hP : P.WellFormed) {hmap : OrdMap Str CReadH}
    {head : List CReadCpp} (hread : readEachfile (headerFiles m folder disk path)
      (sourceFiles m folder disk path) = some (hmap, head)) : P.KeptAs hmap head := by
  obtain ⟨hmap', head', heq, hk⟩ := hP.exists_readEachfile
  rw [h.headers, h.sources, heq] at hread
  obtain ⟨rfl, rfl⟩ := Prod.mk.inj (Option.some.inj hread)
  exact hk

theorem isSome_doReading {t : CTestCaseCpp} (h : P.StoredIn m folder disk t.strTestPath)
    (hP : P.WellFormed) : (doReading m folder disk t).isSome := by
  refine isSome_doReading_iff.2 ⟨h.fits, fun f hf ↦ ?_, fun f hf ↦ ?_⟩
  · rw [h.headers] at hf
    obtain ⟨u, hu, rfl⟩ := List.mem_map.1 hf
    obtain ⟨r, hr, -⟩ := u.exists_readH (hP.headers u hu).2
    exact Option.isSome_of_eq_some hr
  · rw [h.sources] at hf
    obtain ⟨s, hs, rfl⟩ := List.mem_map.1 hf
    obtain ⟨p, hp, -⟩ := s.exists_readCpp (hP.includes s hs) fun m hm ↦ (hP.methods s hs m hm).1
    exact Option.isSome_of_eq_some hp

/-- **When a test case with the files of a program can be run**: if the words of its line find room,
and the calls of the program name three classes. -/
theorem testCaseOk_iff {t : CTestCaseCpp} (h : P.StoredIn m folder disk t.strTestPath)
    (hP : P.WellFormed) :
    TestCaseOk m folder disk t ↔ LineFits t.strPara ∧ 3 ≤ (classesIn P.calls).length := by
  have hclasses : ∀ hmap head, readEachfile (headerFiles m folder disk t.strTestPath)
      (sourceFiles m folder disk t.strTestPath) = some (hmap, head) →
        (classesIn (foundLines hmap head)).length = (classesIn P.calls).length :=
    fun hmap head hread ↦ length_classesIn_perm ((h.keptAs hP hread).foundLines_perm hP)
  obtain ⟨⟨hmap, head⟩, hdo⟩ := Option.isSome_iff_exists.1 (h.isSome_doReading hP)
  have hread := readEachfile_of_doReading hdo
  constructor
  · intro hok
    exact ⟨hok.line, (hok.classes _ _ hread).trans_eq (hclasses _ _ hread)⟩
  · rintro ⟨hline, h3⟩
    obtain ⟨-, hheaders, hsources⟩ := isSome_doReading_iff_texts.1 (h.isSome_doReading hP)
    exact
      { line := hline
        fits := h.fits
        headers := hheaders
        sources := hsources
        symbols := fun _ _ hread ↦ (h.keptAs hP hread).symbolsOk hP
        classes := fun _ _ hread ↦ h3.trans_eq (hclasses _ _ hread).symm }

end Program.StoredIn

/-- Three classes, of which one has the others as members, parameters and variables. -/
def sampleProgram : Program where
  headers := [⟨"..//t/".toList, "a.h".toList,
    [⟨"A".toList, [], [⟨"B".toList, "b".toList⟩]⟩, ⟨"B".toList, [], []⟩,
      ⟨"C".toList, ["B".toList], []⟩]⟩]
  sources := [⟨"..//t//m.cpp".toList, ["a.h".toList],
    [⟨"void".toList, "A".toList, "f".toList, [⟨"C".toList, "c".toList⟩],
      [.call "b".toList "g".toList ["c".toList], .declare ⟨"B".toList, "e".toList⟩,
        .call "c".toList "h".toList [], .call "e".toList "g".toList ["b".toList]]⟩]⟩]

/-- Its files. -/
def sampleProgramDisk (name : Str) : Str :=
  if name = "..//t//a.h".toList then (sampleProgram.headers.flatMap HeaderUnit.text)
  else if name = "..//t//m.cpp".toList then (sampleProgram.sources.flatMap SourceUnit.text)
  else []

theorem storedIn_sampleProgram : sampleProgram.StoredIn sampleMachine sampleTestFolder
    sampleProgramDisk (newTestCase "..//t 2 5".toList).strTestPath where
  fits := trivial
  headers := by rfl
  sources := by rfl

end Runs

end CArchitecture
