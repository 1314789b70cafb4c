import CArchitecture.ObjectProgram

/-!
# The types of printed variables

What `findtype` makes of a printed method, or of the printed definition of a class. It goes to the
first whole word that is the name of the variable, and takes the word before it if there are only
stars and blanks between them. In a printed text this first word is a declaration, whose type is
read, or it is a use, and then no type is read (`firstMention`). In a well scoped method that comes
to the same as a lookup in the scope (`Scoped.typeIn_declared`).
-/

namespace CArchitecture

/-! ### Texts without a name -/

/-- The name is no whole word of the text. -/
def Avoids (v s : Str) : Prop := ∀ j, ¬ WholeWordAt v s j

/-- No name character comes last. -/
def EndsName (s : Str) : Prop := ∀ c ∈ s.getLast?, isNameChar c = false

/-- A text without the name that may follow a name. -/
structure Follows (v s : Str) : Prop where
  avoids : Avoids v s
  head : ∀ c ∈ s.head?, isNameChar c = false

section Avoids

variable {v w a s : Str} {j : ℕ}

/-- A whole word that starts in the first of two texts, which no name goes on from. -/
theorem WholeWordAt.of_append_left (hv : IsIdentifier v) (hlast : EndsName a)
    (h : WholeWordAt v (a ++ s) j) (hlt : j < a.length) : WholeWordAt v a j := by
  obtain ⟨hpre, hprev, hnext⟩ := h
  have hend : j + v.length ≤ a.length := by
    by_contra hover
    obtain ⟨c, hc, hcname⟩ := exists_nameChar_of_isPrefix hv.nameChars hpre (i := a.length - 1)
      (by omega) (by omega)
    rw [List.getElem?_append_left (by omega), ← List.getLast?_eq_getElem?] at hc
    exact Bool.false_ne_true ((hlast c hc).symm.trans hcname)
  refine ⟨?_, fun c hc ↦ hprev c ?_, fun c hc ↦ hnext c ?_⟩
  · rw [List.drop_append_of_le_length (by omega)] at hpre
    exact List.prefix_of_prefix_length_le hpre (List.prefix_append _ _)
      (by rw [List.length_drop]; omega)
  · rwa [List.take_append_of_le_length (by omega)]
  · have hin := (List.getElem?_eq_some_iff.1 hc).1
    rwa [List.getElem?_append_left hin]

/-- A whole word that starts in the second of two texts. -/
theorem WholeWordAt.of_append_right (h : WholeWordAt v (a ++ s) (a.length + j)) :
    WholeWordAt v s j := by
  obtain ⟨hpre, hprev, hnext⟩ := h
  refine ⟨?_, fun c hc ↦ hprev c ?_, fun c hc ↦ hnext c ?_⟩
  · rwa [List.drop_length_add_append] at hpre
  · rw [List.take_length_add_append, List.getLast?_append, Option.mem_def.1 hc]
    rfl
  · rwa [Nat.add_left_comm, List.getElem?_append_right (Nat.le_add_right _ _),
      Nat.add_sub_cancel_left]

theorem avoids_nil (hv : IsIdentifier v) : Avoids v [] := fun j h ↦
  hv.ne_nil (List.prefix_nil.1 (by simpa using h.1))

/-- **One text behind another one**, which no name goes on from. -/
theorem Avoids.append (hv : IsIdentifier v) (ha : Avoids v a) (hlast : EndsName a)
    (hs : Avoids v s) : Avoids v (a ++ s) := by
  intro j h
  rcases Nat.lt_or_ge j a.length with hlt | hge
  · exact ha j (h.of_append_left hv hlast hlt)
  · obtain ⟨k, rfl⟩ := Nat.exists_eq_add_of_le hge
    exact hs k h.of_append_right

/-- Another name before a text that may follow it. -/
theorem Follows.word (hs : Follows v s) (hv : IsIdentifier v) (hw : ∀ c ∈ w, isNameChar c)
    (hne : w ≠ v) : Avoids v (w ++ s) := by
  intro j h
  rcases Nat.lt_or_ge j w.length with hlt | hge
  swap
  · obtain ⟨k, rfl⟩ := Nat.exists_eq_add_of_le hge
    exact hs.avoids k h.of_append_right
  obtain ⟨hpre, hprev, hnext⟩ := h
  have hget : ∀ i (hi : i < w.length), (w ++ s)[i]? = some w[i] := fun i hi ↦ by
    rw [List.getElem?_append_left hi, List.getElem?_eq_getElem]
  -- it starts with the other name
  obtain rfl : j = 0 := by
    by_contra hj
    have hno := hprev w[j - 1] (by
      rw [getLast?_take_of_pos (by omega) (by rw [List.length_append]; omega)]
      exact hget _ (by omega))
    exact Bool.false_ne_true (hno.symm.trans (hw _ (List.getElem_mem (by omega))))
  rw [Nat.add_zero] at hnext
  rcases Nat.lt_trichotomy v.length w.length with hshort | heq | hlong
  · exact Bool.false_ne_true ((hnext _ (hget _ hshort)).symm.trans (hw _ (List.getElem_mem hshort)))
  · rw [List.drop_zero] at hpre
    exact hne ((List.prefix_of_prefix_length_le (List.prefix_append w s) hpre heq.ge).eq_of_length
      heq.symm)
  · obtain ⟨c, hc, hcname⟩ := exists_nameChar_of_isPrefix hv.nameChars hpre (i := w.length)
      (Nat.zero_le _) (by omega)
    rw [List.getElem?_append_right le_rfl, Nat.sub_self, ← List.head?_eq_getElem?] at hc
    exact Bool.false_ne_true ((hs.head c hc).symm.trans hcname)

/-- Something else before a text. -/
theorem Avoids.of_not_name (hs : Avoids v s) (hv : IsIdentifier v)
    (ha : ∀ c ∈ a, isNameChar c = false) : Avoids v (a ++ s) := by
  refine Avoids.append hv (fun j h ↦ ?_) (fun c hc ↦ ha c (List.mem_of_getLast? hc)) hs
  obtain ⟨c, hc, hcname⟩ := exists_nameChar_of_isPrefix hv.nameChars h.1 le_rfl
    (Nat.lt_add_of_pos_right (List.length_pos_iff_ne_nil.2 hv.ne_nil))
  exact Bool.false_ne_true ((ha c (List.mem_of_getElem? hc)).symm.trans hcname)

/-- What separates names, before a text. -/
theorem Avoids.follows (hs : Avoids v s) (hv : IsIdentifier v) (ha : ∀ c ∈ a, isNameChar c = false)
    (hne : a ≠ []) : Follows v (a ++ s) := by
  refine ⟨hs.of_not_name hv ha, fun c hc ↦ ha c ?_⟩
  obtain ⟨b, a, rfl⟩ := List.exists_cons_of_ne_nil hne
  exact Option.some.inj hc ▸ List.mem_cons_self

end Avoids

/-! ### What is read at a word -/

section Mention

variable {v pre rest : Str} {c : Char} {endpos : ℕ}

/-- **The first word that is the name decides.** -/
theorem findtype_append (hv : IsIdentifier v) (hpre : Avoids v pre) (hlast : EndsName pre)
    (hne : pre ≠ []) (hc : isNameChar c = false) (hend : pre.length < endpos) :
    findtype (pre ++ (v ++ c :: rest)) v endpos =
      declaredType (pre ++ (v ++ c :: rest)) pre.length := by
  have hpos := List.length_pos_iff_ne_nil.2 hne
  have hword : WholeWordAt v (pre ++ (v ++ c :: rest)) pre.length := by
    refine ⟨?_, fun d hd ↦ hlast d ?_, fun d hd ↦ ?_⟩
    · rw [List.drop_left]
      exact List.prefix_append _ _
    · rwa [List.take_left] at hd
    · rw [Nat.add_comm, List.getElem?_append_right (Nat.le_add_right _ _), Nat.add_sub_cancel_left,
        List.getElem?_append_right le_rfl, Nat.sub_self] at hd
      exact Option.some.inj hd ▸ hc
  refine findtype_eq_declaredType hv.ne_nil hv.nameChars hpos ?_ hword (fun j hj h ↦
    hpre j (h.of_append_left hv hlast hj)) hend
  simp only [List.length_append, List.length_cons]
  omega

/-- A declaration gives its type. -/
theorem findtype_declared (hv : IsIdentifier v) {T : Str} (hT : IsIdentifier T) (hne : T ≠ v)
    {p : Str} {d : Char} (hpre : Avoids v (p ++ [d])) (hd : isNameChar d = false)
    (hc : isNameChar c = false) (hend : (p ++ [d]).length + T.length + 2 < endpos) :
    findtype (p ++ [d] ++ (T ++ (" *".toList ++ (v ++ c :: rest)))) v endpos = some T := by
  have hlast : EndsName (p ++ [d]) := fun b hb ↦ by
    rw [List.getLast?_concat] at hb
    exact Option.some.inj hb ▸ hd
  have hsep : Follows v " *".toList := by
    have hfollows := (avoids_nil hv).follows hv (a := " *".toList) (by decide) (by decide)
    rwa [List.append_nil] at hfollows
  have htext : p ++ [d] ++ (T ++ (" *".toList ++ (v ++ c :: rest))) =
      (p ++ [d] ++ (T ++ " *".toList)) ++ (v ++ c :: rest) := by
    simp
  have hlen : (p ++ [d] ++ (T ++ " *".toList)).length = (p ++ [d]).length + T.length + 2 := by
    simp
    omega
  rw [htext, findtype_append hv (hpre.append hv hlast (hsep.word hv hT.nameChars hne)) ?_ (by simp)
    hc (hlen ▸ hend)]
  · refine declaredType_eq hT ⟨p, d, " *".toList, v ++ c :: rest, ?_, ?_, hd, by decide⟩ <;> simp
  · intro b hb
    rw [List.getLast?_append_of_ne_nil _ (by simp),
      List.getLast?_append_of_ne_nil _ (by simp)] at hb
    exact Option.some.inj hb ▸ rfl

/-- A use gives none. -/
theorem findtype_used (hv : IsIdentifier v) {p blanks : Str} {d : Char}
    (hpre : Avoids v (p ++ d :: blanks)) (hd : isNameChar d = false ∧ isStarOrBlank d = false)
    (hblanks : ∀ b ∈ blanks, isStarOrBlank b) (hc : isNameChar c = false)
    (hend : (p ++ d :: blanks).length < endpos) :
    findtype (p ++ d :: blanks ++ (v ++ c :: rest)) v endpos = some [] := by
  have hlast : EndsName (p ++ d :: blanks) := fun b hb ↦ by
    rw [List.getLast?_append_of_ne_nil _ (List.cons_ne_nil _ _)] at hb
    rcases List.mem_cons.1 (List.mem_of_getLast? hb) with rfl | hb
    · exact hd.1
    · exact isNameChar_eq_false_of_isStarOrBlank (hblanks b hb)
  have hnil : blanks.rdropWhile isStarOrBlank = [] := List.rdropWhile_eq_nil_iff.2 hblanks
  have hback := CString.back_append hd.2 p blanks (v ++ c :: rest)
  have hskip : skipBack (p ++ d :: (blanks ++ (v ++ c :: rest))) (p.length + 1 + blanks.length) =
      some (p.length + 1) := by
    rw [skipBack_eq_back]
    exact hback.trans (by rw [hnil]; rfl)
  have htext : p ++ d :: blanks ++ (v ++ c :: rest) = p ++ d :: (blanks ++ (v ++ c :: rest)) := by
    simp
  have hlen : (p ++ d :: blanks).length = p.length + 1 + blanks.length := by
    simp
    omega
  rw [findtype_append hv hpre hlast (by simp) hc hend, declaredType, htext, hlen, hskip,
    Option.bind_eq_bind, Option.bind_some, typeBefore, List.getElem?_append_right le_rfl,
    Nat.sub_self, List.getElem?_cons_zero, Option.bind_eq_bind, Option.bind_some,
    if_neg (by simp [hd.1])]

end Mention

/-! ### Printed statements -/

/-- The type at the first mention of a variable, if that is a declaration. -/
def firstMention (v : Str) : List Stmt → Option Str
  | [] => none
  | .declare d :: l => if d.name = v then some d.type else firstMention v l
  | .call u _ args :: l => if (u :: args).contains v then none else firstMention v l

/-- The names in a statement are names, and the variable is none of those that are no variables. -/
structure Stmt.Apart (v : Str) (st : Stmt) : Prop where
  identifiers : ∀ x ∈ st.otherNames ++ st.varNames, IsIdentifier x
  notMem : v ∉ st.otherNames

theorem commaList_append_cons (xs : List Str) (y : Str) (ys : List Str) :
    commaList (xs ++ y :: ys) =
      xs.flatMap (· ++ ", ".toList) ++ (y ++ ys.flatMap (", ".toList ++ ·)) := by
  induction xs with
  | nil => rfl
  | cons x xs ih =>
    rw [List.flatMap_cons, List.append_assoc, ← ih]
    cases xs with
    | nil => simp [commaList]
    | cons x' xs => simp [commaList]

/-- A statement ends its line. -/
theorem Stmt.exists_text_eq (st : Stmt) : ∃ t, st.text = t ++ ['\n'] := by
  cases st with
  | declare d => exact ⟨' ' :: (d.text ++ [';']), by simp [Stmt.text]⟩
  | call v f args =>
    exact ⟨' ' :: (v ++ ("->".toList ++ (f ++ ('(' :: (commaList args ++ ");".toList))))),
      by simp [Stmt.text]⟩

/-- So does a body, if it is not empty. -/
theorem exists_bodyText_eq (l : List Stmt) : ∃ t, '\n' :: bodyText l = t ++ ['\n'] := by
  rcases List.eq_nil_or_concat l with rfl | ⟨l, st, rfl⟩
  · exact ⟨[], rfl⟩
  · obtain ⟨t, ht⟩ := st.exists_text_eq
    exact ⟨'\n' :: (bodyText l ++ t), by simp [bodyText, ht]⟩

section Printed

variable {v s : Str}

theorem avoids_commaList (hv : IsIdentifier v) {xs : List Str}
    (hxs : ∀ x ∈ xs, ∀ t, Follows v t → Avoids v (x ++ t)) (hs : Follows v s) :
    Avoids v (commaList xs ++ s) := by
  have hrest : ∀ ys : List Str, (∀ y ∈ ys, ∀ t, Follows v t → Avoids v (y ++ t)) →
      Follows v (ys.flatMap (", ".toList ++ ·) ++ s) := by
    intro ys
    induction ys with
    | nil => exact fun _ ↦ hs
    | cons y ys ih =>
      intro hys
      have hbehind := hys y List.mem_cons_self _ (ih fun z hz ↦ hys z (List.mem_cons_of_mem _ hz))
      rw [List.flatMap_cons, List.append_assoc, List.append_assoc]
      exact hbehind.follows hv (by decide) (by decide)
  cases xs with
  | nil => exact hs.avoids
  | cons x xs =>
    rw [commaList, List.append_assoc]
    exact hxs x List.mem_cons_self _ (hrest xs fun y hy ↦ hxs y (List.mem_cons_of_mem _ hy))

theorem Variable.avoids_text (hv : IsIdentifier v) {d : Variable} (htype : IsIdentifier d.type)
    (hname : IsIdentifier d.name) (hne : d.type ≠ v) (hne' : d.name ≠ v) (hs : Follows v s) :
    Avoids v (d.text ++ s) := by
  rw [Variable.text, List.append_assoc, List.append_assoc]
  refine Follows.word ?_ hv htype.nameChars hne
  exact (hs.word hv hname.nameChars hne').follows hv (by decide) (by decide)

/-- The beginning of a call. -/
theorem avoids_call (hv : IsIdentifier v) {u f : Str} (hu : IsIdentifier u) (hf : IsIdentifier f)
    (hne : u ≠ v) (hne' : f ≠ v) (hs : Avoids v s) :
    Avoids v (' ' :: (u ++ ("->".toList ++ (f ++ '(' :: s)))) := by
  have hopen : Follows v (['('] ++ s) := hs.follows hv (by decide) (by decide)
  have harrow := (hopen.word hv hf.nameChars hne').follows hv (a := "->".toList) (by decide)
    (by decide)
  exact (harrow.word hv hu.nameChars hne).of_not_name hv (a := [' ']) (by decide)

theorem Stmt.Apart.avoids_text (hv : IsIdentifier v) {st : Stmt} (h : st.Apart v)
    (hnot : v ∉ st.varNames) (hs : Avoids v s) : Avoids v (st.text ++ s) := by
  cases st with
  | declare d =>
    have hend : Follows v (";\n".toList ++ s) := hs.follows hv (by decide) (by decide)
    rw [Stmt.text, List.cons_append, List.append_assoc]
    refine Avoids.of_not_name (a := [' ']) ?_ hv (by decide)
    refine Variable.avoids_text hv (h.identifiers _ (by simp [otherNames, varNames]))
      (h.identifiers _ (by simp [otherNames, varNames])) (fun heq ↦ h.notMem ?_)
      (fun heq ↦ hnot ?_) hend
    · simp [otherNames, heq]
    · simp [varNames, heq]
  | call u f args =>
    have hend : Follows v (");\n".toList ++ s) := hs.follows hv (by decide) (by decide)
    have hargs : Avoids v (commaList args ++ (");\n".toList ++ s)) := by
      refine avoids_commaList hv (fun x hx t ht ↦ ht.word hv
        (h.identifiers x (by simp [otherNames, varNames, hx])).nameChars fun heq ↦ hnot ?_) hend
      simp [varNames, ← heq, hx]
    have hcall := avoids_call hv (u := u) (f := f)
      (h.identifiers _ (by simp [otherNames, varNames]))
      (h.identifiers _ (by simp [otherNames, varNames]))
      (fun heq ↦ hnot (by simp [varNames, heq])) (fun heq ↦ h.notMem (by simp [otherNames, heq]))
      hargs
    simpa [Stmt.text] using hcall

theorem avoids_bodyText (hv : IsIdentifier v) {l : List Stmt} (hl : ∀ st ∈ l, st.Apart v)
    (hnot : ∀ st ∈ l, v ∉ st.varNames) (hs : Avoids v s) : Avoids v (bodyText l ++ s) := by
  induction l with
  | nil => exact hs
  | cons st l ih =>
    rw [bodyText, List.flatMap_cons, List.append_assoc]
    exact (hl st List.mem_cons_self).avoids_text hv (hnot st List.mem_cons_self)
      (ih (fun t ht ↦ hl t (List.mem_cons_of_mem _ ht))
        fun t ht ↦ hnot t (List.mem_cons_of_mem _ ht))

/-- What comes before an entry of a list in parentheses. -/
theorem exists_commaBefore (xs : List Str) : ∃ q d blanks,
    '(' :: xs.flatMap (· ++ ", ".toList) = q ++ d :: blanks ∧
      (isNameChar d = false ∧ isStarOrBlank d = false) ∧ ∀ b ∈ blanks, isStarOrBlank b := by
  rcases List.eq_nil_or_concat xs with rfl | ⟨xs, x, rfl⟩
  · exact ⟨[], '(', [], rfl, by decide, by simp⟩
  · exact ⟨'(' :: (xs.flatMap (· ++ ", ".toList) ++ x), ',', [' '], by simp, by decide, by decide⟩

/-- What comes behind it. -/
theorem exists_commaBehind (ys : List Str) (rest : Str) : ∃ c r,
    ys.flatMap (", ".toList ++ ·) ++ ')' :: rest = c :: r ∧ isNameChar c = false := by
  cases ys with
  | nil => exact ⟨')', rest, rfl, by decide⟩
  | cons y ys => exact ⟨',', _, rfl, by decide⟩

/-- The entries before it. -/
theorem avoids_commaBefore (hv : IsIdentifier v) {xs : List Str}
    (hxs : ∀ x ∈ xs, ∀ t, Follows v t → Avoids v (x ++ t)) :
    Avoids v (xs.flatMap (· ++ ", ".toList)) := by
  induction xs with
  | nil => exact avoids_nil hv
  | cons x xs ih =>
    have hrest := (ih fun y hy ↦ hxs y (List.mem_cons_of_mem _ hy)).follows hv (a := ", ".toList)
      (by decide) (by decide)
    rw [List.flatMap_cons, List.append_assoc]
    exact hxs x List.mem_cons_self _ hrest

theorem firstMention_eq_none {l : List Stmt} (h : ∀ st ∈ l, v ∉ st.varNames) :
    firstMention v l = none := by
  induction l with
  | nil => rfl
  | cons st l ih =>
    have hst := h st List.mem_cons_self
    have hrest := ih fun t ht ↦ h t (List.mem_cons_of_mem _ ht)
    cases st with
    | declare d =>
      rw [firstMention, if_neg fun (heq : d.name = v) ↦ hst (by simp [Stmt.varNames, heq]), hrest]
    | call u f args => exact (if_neg (mt List.contains_iff_mem.1 hst)).trans hrest

/-- What is behind a line end. -/
theorem avoids_line (hv : IsIdentifier v) {p : Str} (hp : Avoids v (p ++ ['\n'])) {a : Str}
    (ha : Avoids v a) : Avoids v (p ++ ['\n'] ++ a) :=
  hp.append hv (fun b hb ↦ by
    rw [List.getLast?_concat] at hb
    exact Option.some.inj hb ▸ rfl) ha

/-- A declaration on a line of its own. -/
theorem findtype_declare (hv : IsIdentifier v) {d : Variable} (hd : (Stmt.declare d).Apart v)
    (hname : d.name = v) {p : Str} (hp : Avoids v (p ++ ['\n'])) {endpos : ℕ}
    (hend : (p ++ ['\n']).length + (Stmt.declare d).text.length ≤ endpos) (rest : Str) :
    findtype (p ++ '\n' :: ((Stmt.declare d).text ++ rest)) v endpos = some d.type := by
  have hblank : Avoids v (p ++ ['\n'] ++ [' ']) := by
    have hnil := (avoids_nil hv).of_not_name hv (a := [' ']) (by decide)
    rw [List.append_nil] at hnil
    exact avoids_line hv hp hnil
  have hT : IsIdentifier d.type := hd.identifiers _ (by simp [Stmt.otherNames])
  have hne : d.type ≠ v := fun heq ↦ hd.notMem (by simp [Stmt.otherNames, heq])
  have htext : p ++ '\n' :: ((Stmt.declare d).text ++ rest) =
      (p ++ ['\n']) ++ [' '] ++ (d.type ++ (" *".toList ++ (v ++ ';' :: ('\n' :: rest)))) := by
    simp [Stmt.text, Variable.text, hname]
  rw [htext]
  refine findtype_declared hv hT hne hblank rfl rfl ?_
  have hlen := List.length_pos_iff_ne_nil.2 hv.ne_nil
  simp only [Stmt.text, Variable.text, hname, List.length_append, List.length_cons,
    List.length_nil] at hend ⊢
  have htwo : " *".toList.length = 2 := rfl
  omega

/-- A call on a line of its own. -/
theorem findtype_call (hv : IsIdentifier v) {u f : Str} {args : List Str}
    (hst : (Stmt.call u f args).Apart v) (hmem : v ∈ u :: args) {p : Str}
    (hp : Avoids v (p ++ ['\n'])) {endpos : ℕ}
    (hend : (p ++ ['\n']).length + (Stmt.call u f args).text.length ≤ endpos) (rest : Str) :
    findtype (p ++ '\n' :: ((Stmt.call u f args).text ++ rest)) v endpos = some [] := by
  have hlen := List.length_pos_iff_ne_nil.2 hv.ne_nil
  by_cases hu : v = u
  · subst hu
    have htext : p ++ '\n' :: ((Stmt.call v f args).text ++ rest) =
        p ++ '\n' :: [' '] ++ (v ++ '-' :: ('>' :: (f ++ ('(' ::
          (commaList args ++ ");\n".toList ++ rest))))) := by
      simp [Stmt.text]
    have hblank : Avoids v (p ++ '\n' :: [' ']) := by
      have hnil := (avoids_nil hv).of_not_name hv (a := [' ']) (by decide)
      rw [List.append_nil] at hnil
      simpa using avoids_line hv hp hnil
    rw [htext]
    refine findtype_used hv hblank ⟨rfl, rfl⟩ (by decide) rfl ?_
    simp only [Stmt.text, List.length_append, List.length_cons, List.length_nil] at hend ⊢
    omega
  · -- it is an argument
    obtain ⟨xs, ys, rfl, hxs⟩ := List.eq_append_cons_of_mem ((List.mem_cons.1 hmem).resolve_left hu)
    have hid : ∀ x ∈ u :: f :: (xs ++ v :: ys), IsIdentifier x := fun x hx ↦
      hst.identifiers x (by
        simp only [Stmt.otherNames, Stmt.varNames]
        simp only [List.mem_cons] at hx
        simp only [List.singleton_append, List.mem_cons]
        tauto)
    have hbefore : Avoids v (xs.flatMap (· ++ ", ".toList)) :=
      avoids_commaBefore hv fun x hx t ht ↦
        ht.word hv (hid x (by simp [hx])).nameChars (ne_of_mem_of_not_mem hx hxs)
    have hcall := avoids_call hv (hid u (by simp)) (hid f (by simp)) (Ne.symm hu)
      (fun heq ↦ hst.notMem (by simp [Stmt.otherNames, heq])) hbefore
    obtain ⟨q, d, blanks, hopen, hd, hblanks⟩ := exists_commaBefore xs
    obtain ⟨c, r, hbehind, hc⟩ := exists_commaBehind ys (";\n".toList ++ rest)
    rw [hopen] at hcall
    have hline : p ++ ['\n'] ++ ' ' :: (u ++ ("->".toList ++ (f ++ (q ++ d :: blanks)))) =
        p ++ '\n' :: (' ' :: (u ++ ("->".toList ++ (f ++ q)))) ++ d :: blanks := by
      simp
    have htext : p ++ '\n' :: ((Stmt.call u f (xs ++ v :: ys)).text ++ rest) =
        p ++ '\n' :: (' ' :: (u ++ ("->".toList ++ (f ++ q)))) ++ d :: blanks ++
          (v ++ c :: r) := by
      rw [← hbehind, ← hline, ← hopen, Stmt.text, commaList_append_cons]
      simp
    have hlength := congrArg List.length htext
    have hlength' := congrArg List.length hbehind
    rw [htext]
    refine findtype_used hv (hline ▸ avoids_line hv hp hcall) hd hblanks hc ?_
    simp only [List.length_append, List.length_cons, List.length_nil] at hend hlength hlength' ⊢
    omega

/-- **The first mention in a body decides.** -/
theorem findtype_body (hv : IsIdentifier v) {l : List Stmt} (hl : ∀ st ∈ l, st.Apart v)
    (hmention : ∃ st ∈ l, v ∈ st.varNames) {p : Str} (hp : Avoids v (p ++ ['\n'])) {endpos : ℕ}
    (hend : (p ++ ['\n']).length + (bodyText l).length ≤ endpos) (rest : Str) :
    findtype (p ++ '\n' :: (bodyText l ++ rest)) v endpos =
      some ((firstMention v l).getD []) := by
  induction l generalizing p with
  | nil =>
    obtain ⟨st, hst, -⟩ := hmention
    exact absurd hst List.not_mem_nil
  | cons st l ih =>
    have hst := hl st List.mem_cons_self
    have hlength : (bodyText (st :: l)).length = st.text.length + (bodyText l).length := by
      rw [bodyText, List.flatMap_cons, List.length_append, bodyText]
    rw [hlength] at hend
    rw [bodyText, List.flatMap_cons, List.append_assoc]
    by_cases hnot : v ∈ st.varNames
    · have hhere : (p ++ ['\n']).length + st.text.length ≤ endpos := by omega
      cases st with
      | declare d =>
        have hname : d.name = v := (List.mem_singleton.1 hnot).symm
        rw [findtype_declare hv hst hname hp hhere, firstMention, if_pos hname]
        rfl
      | call u f args =>
        have hmem : v ∈ u :: args := hnot
        rw [findtype_call hv hst hmem hp hhere, firstMention, if_pos (List.contains_iff_mem.2 hmem)]
        rfl
    · -- it is not mentioned here
      have hrest : ∃ t ∈ l, v ∈ t.varNames := by
        obtain ⟨t, ht, hv⟩ := hmention
        rcases List.mem_cons.1 ht with rfl | ht
        · exact absurd hv hnot
        · exact ⟨t, ht, hv⟩
      obtain ⟨t, ht⟩ := st.exists_text_eq
      have hp' : p ++ '\n' :: t ++ ['\n'] = p ++ ['\n'] ++ st.text := by
        rw [ht]
        simp
      have havoids : Avoids v (p ++ '\n' :: t ++ ['\n']) := by
        have hnil := hst.avoids_text hv hnot (avoids_nil hv)
        rw [List.append_nil] at hnil
        rw [hp']
        exact avoids_line hv hp hnil
      have hih := ih (fun t ht ↦ hl t (List.mem_cons_of_mem _ ht)) hrest havoids (by
        rw [hp', List.length_append]
        omega)
      have hmention : firstMention v (st :: l) = firstMention v l := by
        cases st with
        | declare d => exact if_neg fun heq ↦ hnot (by simp [Stmt.varNames, heq])
        | call u f args => exact if_neg (mt List.contains_iff_mem.1 hnot)
      rw [hmention, ← hih, ht]
      simp [bodyText]

end Printed

/-! ### Scopes -/

/-- The variables that are declared in a body. -/
def declared (l : List Stmt) : List Variable :=
  l.filterMap fun
    | .declare d => some d
    | .call _ _ _ => none

theorem declared_append (l l' : List Stmt) : declared (l ++ l') = declared l ++ declared l' :=
  List.filterMap_append

section Scopes

variable {members scope : List Variable} {used : List Str} {l l' : List Stmt}

/-- What was used is not declared, and so **the first mention is what is in scope**. -/
theorem Scoped.typeIn_declared (h : Scoped members scope used l) :
    (∀ v ∈ used, typeIn (declared l) v = none) ∧
      ∀ v, firstMention v l = typeIn (declared l) v := by
  induction l generalizing scope used with
  | nil => exact ⟨fun _ _ ↦ rfl, fun _ ↦ rfl⟩
  | cons st l ih =>
    cases st with
    | declare d =>
      obtain ⟨hnew, hrest⟩ := h
      obtain ⟨hused, hfirst⟩ := ih hrest
      have hcons : ∀ v, typeIn (declared (.declare d :: l)) v =
          if d.name = v then some d.type else typeIn (declared l) v := fun v ↦ by
        rw [typeIn, typeIn, declared, List.filterMap_cons, List.find?_cons]
        by_cases hv : d.name = v <;> simp [hv, declared]
      refine ⟨fun v hv ↦ ?_, fun v ↦ ?_⟩
      · rw [hcons, if_neg fun (heq : d.name = v) ↦ hnew (heq ▸ hv)]
        exact hused v (List.mem_cons_of_mem _ hv)
      · rw [hcons, firstMention, hfirst]
    | call u f args =>
      obtain ⟨hused, hfirst⟩ := ih h.2
      refine ⟨fun v hv ↦ hused v (List.mem_append_right _ hv), fun v ↦ ?_⟩
      rw [firstMention]
      split_ifs with hv
      · exact (hused v (List.mem_append_left _ (List.contains_iff_mem.1 hv))).symm
      · exact hfirst v

/-- The first part of a body. -/
theorem Scoped.of_append_left (h : Scoped members scope used (l ++ l')) :
    Scoped members scope used l := by
  induction l generalizing scope used with
  | nil => trivial
  | cons st l ih =>
    cases st with
    | declare d => exact ⟨h.1, ih h.2⟩
    | call u f args => exact ⟨h.1, ih h.2⟩

/-- The second part, in the scope behind the first one. -/
theorem Scoped.of_append_right (h : Scoped members scope used (l ++ l')) :
    ∃ used', Scoped members (scope ++ declared l) used' l' := by
  induction l generalizing scope used with
  | nil => exact ⟨used, by simpa [declared] using h⟩
  | cons st l ih =>
    cases st with
    | declare d => simpa [declared] using ih h.2
    | call u f args => exact ih h.2

end Scopes

/-! ### Printed methods -/

namespace Method

/-- The text of a method. -/
def text (m : Method) : Str := m.methodText.text

/-- The text up to the parameters. -/
def opening (m : Method) : Str :=
  m.returnType ++ (' ' :: (m.classname ++ ("::".toList ++ (m.methodName ++ ['(']))))

/-- The text up to the opening brace. -/
def head (m : Method) : Str :=
  m.returnType ++ (' ' :: (m.classname ++ ("::".toList ++ (m.methodName ++
    ('(' :: (commaList (m.params.map Variable.text) ++ ")\n\x7b".toList))))))

theorem head_eq (m : Method) : m.head =
    m.opening ++ (commaList (m.params.map Variable.text) ++ ")\n\x7b".toList) := by
  simp [head, opening]

theorem text_eq (m : Method) : m.text = m.head ++ '\n' :: (bodyText m.body ++ ['\x7d']) := by
  simp [text, head, methodText, MethodText.text, MethodText.beforeColons, MethodText.afterColons]

variable {m : Method} {v f : Str} {args : List Str} {l l' : List Stmt}

/-- Where a call of `v` comes to its arrow, behind the statements `l`. -/
def arrowAt (m : Method) (l : List Stmt) (v : Str) : ℕ :=
  (m.head ++ '\n' :: (bodyText l ++ [' '])).length + v.length

theorem arrowAt_eq (m : Method) (l : List Stmt) (v : Str) :
    m.arrowAt l v = m.head.length + 2 + (bodyText l).length + v.length := by
  simp [arrowAt]
  omega

namespace WellFormed

theorem isIdentifier_otherName (hm : m.WellFormed) {x : Str} (hx : x ∈ m.otherNames) :
    IsIdentifier x :=
  hm.identifiers x (List.mem_append_left _ hx)

theorem isIdentifier_varName (hm : m.WellFormed) {x : Str} (hx : x ∈ m.varNames) :
    IsIdentifier x :=
  hm.identifiers x (List.mem_append_right _ hx)

theorem mem_otherNames (m : Method) {x : Str}
    (hx : x ∈ [m.returnType, m.classname, m.methodName]) : x ∈ m.otherNames := by
  simp only [otherNames, List.mem_cons, List.not_mem_nil, or_false] at hx ⊢
  tauto

theorem isIdentifier_stmt (hm : m.WellFormed) {st : Stmt} (hst : st ∈ m.body) :
    ∀ x ∈ st.otherNames ++ st.varNames, IsIdentifier x := fun x hx ↦ by
  refine hm.identifiers x ?_
  simp only [otherNames, varNames, List.mem_append, List.mem_cons, List.mem_flatMap]
  rcases List.mem_append.1 hx with hx | hx
  · exact Or.inl (Or.inr (Or.inr (Or.inr (Or.inr ⟨st, hst, hx⟩))))
  · exact Or.inr (Or.inr ⟨st, hst, hx⟩)

/-- What a statement says of the variables of the method. -/
theorem apart_stmt (hm : m.WellFormed) (hv : v ∈ m.varNames) {st : Stmt} (hst : st ∈ m.body) :
    st.Apart v where
  identifiers := hm.isIdentifier_stmt hst
  notMem hmem := by
    refine hm.apart v hv ?_
    simp only [otherNames, List.mem_append, List.mem_cons, List.mem_flatMap]
    exact Or.inr (Or.inr (Or.inr (Or.inr ⟨st, hst, hmem⟩)))

theorem param (hm : m.WellFormed) {d : Variable} (hd : d ∈ m.params) :
    IsIdentifier d.type ∧ IsIdentifier d.name ∧ d.type ∈ m.otherNames ∧ d.name ∈ m.varNames := by
  have htype : d.type ∈ m.otherNames := by
    simp only [otherNames, List.mem_append, List.mem_cons, List.mem_map]
    exact Or.inr (Or.inr (Or.inr (Or.inl ⟨d, hd, rfl⟩)))
  have hname : d.name ∈ m.varNames := List.mem_append_left _ (List.mem_map_of_mem hd)
  exact ⟨hm.isIdentifier_otherName htype, hm.isIdentifier_varName hname, htype, hname⟩

/-- The text up to the parameters. -/
theorem avoids_name (hm : m.WellFormed) (hv : v ∈ m.varNames) {s : Str} (hs : Avoids v s) :
    Avoids v (m.returnType ++ (' ' :: (m.classname ++ ("::".toList ++ (m.methodName ++
      ('(' :: s)))))) := by
  have hvar := hm.isIdentifier_varName hv
  have hother : ∀ x ∈ [m.returnType, m.classname, m.methodName],
      (∀ c ∈ x, isNameChar c) ∧ x ≠ v := fun x hx ↦ by
    have hmem := mem_otherNames m hx
    exact ⟨(hm.isIdentifier_otherName hmem).nameChars, fun heq ↦ hm.apart v hv (heq ▸ hmem)⟩
  have hopen : Follows v (['('] ++ s) := hs.follows hvar (by decide) (by decide)
  have hname := hopen.word hvar (hother m.methodName (by simp)).1 (hother m.methodName (by simp)).2
  have hcolons := hname.follows hvar (a := "::".toList) (by decide) (by decide)
  have hclass := hcolons.word hvar (hother m.classname (by simp)).1
    (hother m.classname (by simp)).2
  have hblank := hclass.follows hvar (a := [' ']) (by decide) (by decide)
  exact hblank.word hvar (hother m.returnType (by simp)).1 (hother m.returnType (by simp)).2

theorem avoids_param (hm : m.WellFormed) (hv : v ∈ m.varNames) {d : Variable} (hd : d ∈ m.params)
    (hne : d.name ≠ v) {s : Str} (hs : Follows v s) : Avoids v (d.text ++ s) := by
  obtain ⟨htype, hname, hmem, -⟩ := hm.param hd
  exact Variable.avoids_text (hm.isIdentifier_varName hv) htype hname
    (fun heq ↦ hm.apart v hv (heq ▸ hmem)) hne hs

/-- The head of a method without this parameter. -/
theorem avoids_head (hm : m.WellFormed) (hv : v ∈ m.varNames)
    (hnot : ∀ d ∈ m.params, d.name ≠ v) {s : Str} (hs : Avoids v s) : Avoids v (m.head ++ s) := by
  have hvar := hm.isIdentifier_varName hv
  have hparams : Avoids v (commaList (m.params.map Variable.text) ++ (")\n\x7b".toList ++ s)) := by
    refine avoids_commaList hvar ?_ (hs.follows hvar (by decide) (by decide))
    intro x hx t ht
    obtain ⟨d, hd, rfl⟩ := List.mem_map.1 hx
    exact hm.avoids_param hv hd (hnot d hd) ht
  have hname := hm.avoids_name hv hparams
  simpa [head] using hname

/-- A parameter gives its type. -/
theorem findtype_param (hm : m.WellFormed) {T : Str} (hT : typeIn m.params v = some T) {endpos : ℕ}
    (hend : m.head.length ≤ endpos) (s : Str) : findtype (m.head ++ s) v endpos = some T := by
  obtain ⟨d, hfind, rfl⟩ := Option.map_eq_some_iff.1 hT
  obtain ⟨hname, xs, ys, hparams, hxs⟩ := List.find?_eq_some_iff_append.1 hfind
  rw [decide_eq_true_iff] at hname
  obtain ⟨htype, hvar, hother, hv⟩ := hm.param (d := d) (by rw [hparams]; simp)
  rw [hname] at hvar hv
  have hne : d.type ≠ v := fun heq ↦ hm.apart v hv (heq ▸ hother)
  have hbefore : Avoids v ((xs.map Variable.text).flatMap (· ++ ", ".toList)) := by
    refine avoids_commaBefore hvar fun y hy t ht ↦ ?_
    obtain ⟨x, hx, rfl⟩ := List.mem_map.1 hy
    exact hm.avoids_param hv (hparams ▸ List.mem_append_left _ hx) (by simpa using hxs x hx) ht
  have hpre := hm.avoids_name hv hbefore
  obtain ⟨q, b, hb, hopen⟩ : ∃ q b, isNameChar b = false ∧
      '(' :: (xs.map Variable.text).flatMap (· ++ ", ".toList) = q ++ [b] := by
    rcases List.eq_nil_or_concat xs with rfl | ⟨xs, x, rfl⟩
    · exact ⟨[], '(', by decide, rfl⟩
    · exact ⟨'(' :: ((xs.map Variable.text).flatMap (· ++ ", ".toList) ++ (x.text ++ [','])), ' ',
        by decide, by simp⟩
  obtain ⟨c, r, hbehind, hc⟩ := exists_commaBehind (ys.map Variable.text) ("\n\x7b".toList ++ s)
  rw [hopen] at hpre
  have hhead : m.returnType ++ (' ' :: (m.classname ++ ("::".toList ++ (m.methodName ++
      (q ++ [b]))))) = m.returnType ++ (' ' :: (m.classname ++ ("::".toList ++ (m.methodName ++
      q)))) ++ [b] := by
    simp
  have htext : m.head ++ s = m.returnType ++ (' ' :: (m.classname ++ ("::".toList ++
      (m.methodName ++ q)))) ++ [b] ++ (d.type ++ (" *".toList ++ (v ++ c :: r))) := by
    rw [← hhead, ← hopen, ← hbehind, head, hparams, List.map_append, List.map_cons,
      commaList_append_cons, Variable.text, hname]
    simp
  have hlength := congrArg List.length htext
  have hlength' := congrArg List.length hbehind
  have hpos := List.length_pos_iff_ne_nil.2 hvar.ne_nil
  have htwo : " *".toList.length = 2 := rfl
  rw [htext]
  refine findtype_declared hvar htype hne (hhead ▸ hpre) hb hc ?_
  simp only [List.length_append, List.length_cons, List.length_nil] at hlength hlength' ⊢
  omega

/-- No type is read at an arrow, if the variable is mentioned there first. -/
theorem findtype_arrow_first (hm : m.WellFormed) (hbody : m.body = l ++ .call v f args :: l')
    (hv : v ∈ m.varNames) (hl : ∀ st ∈ l, st.Apart v) (hnot : ∀ st ∈ l, v ∉ st.varNames)
    (hline : Avoids v (m.head ++ ['\n'])) : findtype m.text v (m.arrowAt l v) = some [] := by
  have hvar := hm.isIdentifier_varName hv
  have hpos := List.length_pos_iff_ne_nil.2 hvar.ne_nil
  have hlines : Avoids v (m.head ++ ['\n'] ++ (bodyText l ++ [' '])) := by
    refine avoids_line hvar hline (avoids_bodyText hvar hl hnot ?_)
    have hnil := (avoids_nil hvar).of_not_name hvar (a := [' ']) (by decide)
    rwa [List.append_nil] at hnil
  obtain ⟨t, ht⟩ := exists_bodyText_eq l
  have hsplit : m.head ++ ['\n'] ++ (bodyText l ++ [' ']) = m.head ++ t ++ '\n' :: [' '] := by
    have hcons := congrArg (fun s ↦ m.head ++ s ++ [' ']) ht
    simpa using hcons
  have htext : m.text = m.head ++ t ++ '\n' :: [' '] ++ (v ++ '-' :: ('>' :: (f ++ ('(' ::
      (commaList args ++ ");\n".toList ++ (bodyText l' ++ ['\x7d'])))))) := by
    rw [← hsplit, m.text_eq, hbody]
    simp [bodyText, Stmt.text]
  have hat := m.arrowAt_eq l v
  rw [hsplit] at hlines
  have hlength := congrArg List.length hsplit
  rw [htext]
  refine findtype_used hvar hlines ⟨rfl, rfl⟩ (by decide) rfl ?_
  simp only [List.length_append, List.length_cons, List.length_nil] at hlength ⊢
  omega

/-- **The type that is read before an arrow** is that of a parameter, or what the first mention in
the body gives. -/
theorem findtype_arrow (hm : m.WellFormed) (hbody : m.body = l ++ .call v f args :: l') :
    findtype m.text v (m.arrowAt l v) =
      some (((typeIn m.params v).or (firstMention v l)).getD []) := by
  have hcall : Stmt.call v f args ∈ m.body := by
    rw [hbody]
    simp
  have hv : v ∈ m.varNames := List.mem_append_right _
    (List.mem_flatMap.2 ⟨_, hcall, List.mem_cons_self⟩)
  have hvar := hm.isIdentifier_varName hv
  have hpos := List.length_pos_iff_ne_nil.2 hvar.ne_nil
  have hbefore : ∀ st ∈ l, st ∈ m.body := fun st hst ↦ by
    rw [hbody]
    exact List.mem_append_left _ hst
  have hl : ∀ st ∈ l, st.Apart v := fun st hst ↦ hm.apart_stmt hv (hbefore st hst)
  have hat := m.arrowAt_eq l v
  cases hparam : typeIn m.params v with
  | some T =>
    rw [m.text_eq, hm.findtype_param hparam (by omega), Option.some_or, Option.getD_some]
  | none =>
    rw [typeIn_eq_none_iff] at hparam
    have hline : Avoids v (m.head ++ ['\n']) := by
      refine hm.avoids_head hv hparam ?_
      have hnil := (avoids_nil hvar).of_not_name hvar (a := ['\n']) (by decide)
      rwa [List.append_nil] at hnil
    rw [Option.none_or]
    by_cases hmention : ∃ st ∈ l, v ∈ st.varNames
    · have htext : m.text = m.head ++ '\n' :: (bodyText l ++
          (bodyText (.call v f args :: l') ++ ['\x7d'])) := by
        rw [m.text_eq, hbody, bodyText, List.flatMap_append, List.append_assoc]
        rfl
      rw [htext]
      exact findtype_body hvar hl hmention hline (by simp; omega) _
    · -- the first mention is the one at the arrow
      have hnot : ∀ st ∈ l, v ∉ st.varNames := fun st hst hmem ↦ hmention ⟨st, hst, hmem⟩
      rw [firstMention_eq_none hnot]
      exact hm.findtype_arrow_first hbody hv hl hnot hline

end WellFormed

end Method

/-! ### Printed classes -/

/-- A list of declarations mentions what it declares. -/
theorem firstMention_declare (members : List Variable) (v : Str) :
    firstMention v (members.map Stmt.declare) = typeIn members v := by
  induction members with
  | nil => rfl
  | cons d members ih =>
    rw [List.map_cons, firstMention, ih, typeIn, typeIn, List.find?_cons]
    by_cases hd : d.name = v <;> simp [hd]

namespace ClassDecl

/-- The text of a class, from the line end before it to its closing brace. -/
def definedText (c : ClassDecl) : Str :=
  HeaderItem.definedText c.name c.bases [' '] ('\n' :: bodyText (c.members.map Stmt.declare))

variable {c : ClassDecl} {v : Str}

theorem definedText_eq (c : ClassDecl) : c.definedText =
    '\n' :: ("class".toList ++ (' ' :: (c.name ++
      (HeaderItem.basesText c.bases ++ " \x7b".toList)))) ++
        '\n' :: (bodyText (c.members.map Stmt.declare) ++ ['\x7d']) := by
  simp [definedText, HeaderItem.definedText, HeaderItem.defline, HeaderItem.name,
    HeaderItem.afterName]

namespace WellFormed

/-- The names of the bases, and the words around them. -/
theorem follows_basesText (hc : c.WellFormed) (hv : IsIdentifier v) (hnot : v ∉ c.otherNames)
    {s : Str} (hs : Follows v s) : Follows v (HeaderItem.basesText c.bases ++ s) := by
  have hbase : ∀ B ∈ c.bases, (∀ x ∈ B, isNameChar x) ∧ B ≠ v := fun B hB ↦
    ⟨fun x hx ↦ (hc.bases B hB).isNameChar hx, fun heq ↦ hnot (by simp [otherNames, ← heq, hB])⟩
  have hpublic : ∀ {t : Str}, Avoids v t → Avoids v ("public".toList ++ (' ' :: t)) := fun ht ↦ by
    refine Follows.word ?_ hv (by decide) fun heq ↦ hnot (by simp [otherNames, ← heq])
    exact ht.follows hv (a := [' ']) (by decide) (by decide)
  have hfurther : ∀ Bs : List Str, (∀ B ∈ Bs, (∀ x ∈ B, isNameChar x) ∧ B ≠ v) →
      Follows v (furtherBases Bs ++ s) := by
    intro Bs
    induction Bs with
    | nil => exact fun _ ↦ hs
    | cons B Bs ih =>
      intro hBs
      have hrest := (ih fun X hX ↦ hBs X (List.mem_cons_of_mem _ hX)).word hv
        (hBs B List.mem_cons_self).1 (hBs B List.mem_cons_self).2
      have hcomma := (hpublic hrest).follows hv (a := ", ".toList) (by decide) (by decide)
      simpa [furtherBases] using hcomma
  cases hbases : c.bases with
  | nil => exact hs
  | cons B Bs =>
    rw [hbases] at hbase
    have hrest := (hfurther Bs fun X hX ↦ hbase X (List.mem_cons_of_mem _ hX)).word hv
      (hbase B List.mem_cons_self).1 (hbase B List.mem_cons_self).2
    have hcolon := (hpublic hrest).follows hv (a := " : ".toList) (by decide) (by decide)
    simpa [HeaderItem.basesText_cons] using hcolon

/-- **The type of a member** is read in the definition of its class. -/
theorem findtype_member (hc : c.WellFormed) {T : Str} (hT : typeIn c.members v = some T) :
    findtype c.definedText v c.definedText.length = some T := by
  obtain ⟨d, hfind, -⟩ := Option.map_eq_some_iff.1 hT
  have hd := List.mem_of_find?_eq_some hfind
  have hname : d.name = v := by simpa using List.find?_some hfind
  have hv : IsIdentifier v := hname ▸ (hc.names d hd).1
  have hnot : v ∉ c.otherNames := hname ▸ (hc.names d hd).2
  have hclass : Avoids v ('\n' :: ("class".toList ++ (' ' :: (c.name ++
      (HeaderItem.basesText c.bases ++ " \x7b".toList)))) ++ ['\n']) := by
    have hend : Follows v " \x7b\n".toList := by
      have hnil := (avoids_nil hv).follows hv (a := " \x7b\n".toList) (by decide) (by decide)
      rwa [List.append_nil] at hnil
    have hafter := (hc.follows_basesText hv hnot hend).word hv (w := c.name)
      (fun x hx ↦ hc.name.isNameChar hx) fun heq ↦ hnot (by simp [otherNames, ← heq])
    have hblank := hafter.follows hv (a := [' ']) (by decide) (by decide)
    have hword := (hblank.word hv (w := "class".toList) (by decide) fun heq ↦
      hnot (by simp [otherNames, ← heq])).of_not_name hv (a := ['\n']) (by decide)
    simpa using hword
  have hstmts : ∀ st ∈ c.members.map Stmt.declare, st.Apart v := by
    intro st hst
    obtain ⟨e, he, rfl⟩ := List.mem_map.1 hst
    refine ⟨fun x hx ↦ ?_, fun hmem ↦ hnot ?_⟩
    · rcases List.mem_pair.1 hx with rfl | rfl
      · exact hc.types e he
      · exact (hc.names e he).1
    · have htype : v = e.type := List.mem_singleton.1 hmem
      simp only [otherNames, List.mem_cons, List.mem_append, List.mem_map]
      exact Or.inr (Or.inr (Or.inr (Or.inr ⟨e, he, htype.symm⟩)))
  rw [definedText_eq, findtype_body hv hstmts
    ⟨.declare d, List.mem_map_of_mem hd, by simp [Stmt.varNames, hname]⟩ hclass (by simp; omega),
    firstMention_declare, hT, Option.getD_some]

end WellFormed

end ClassDecl

end CArchitecture
