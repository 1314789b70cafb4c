import CArchitecture.MethodBodies

/-!
# Reading a printed source file

A source file that is printed in the form the reader asks for: every definition starts a line, and
its body starts the next one. Then the search for `::` goes from definition to definition, whatever
the bodies contain, and what is recorded are the texts of the definitions.

The class is looked for separately, from the `::` back to a blank or a line end, and the name is
what the word found there starts with. A `*` or `&` that stands right before the class is in that
word, so the class is found **exactly if a blank comes last before it**, or none at all and the
return type is the class itself (`lastName_eq_iff`).
-/

namespace CArchitecture

/-- The parts of a definition `R S C::m(P)` with its body. -/
structure MethodText where
  returnType : Str
  sep : Str
  classname : Str
  methodName : Str
  params : Str
  body : Str

namespace MethodText

/-- What stands before the `::`. -/
def beforeColons (d : MethodText) : Str := d.returnType ++ d.sep ++ d.classname

/-- What stands behind the `::` in the line. -/
def afterColons (d : MethodText) : Str := d.methodName ++ '(' :: (d.params ++ [')'])

/-- The definition as it is printed, without the last line end. -/
def text (d : MethodText) : Str :=
  d.beforeColons ++ "::".toList ++ (d.afterColons ++ '\n' :: '\x7b' :: (d.body ++ ['\x7d']))

/-- What may stand for the parts. -/
structure WellFormed (d : MethodText) : Prop where
  returnType : IsIdentifier d.returnType
  sep_ne_nil : d.sep ≠ []
  sep_mem : ∀ c ∈ d.sep, isBlank c ∨ c = '*' ∨ c = '&'
  classname : IsIdentifier d.classname
  methodName : IsIdentifier d.methodName
  params_colons : ∀ q, ¬ "::".toList <+: d.params.drop q
  params_notMem : '\x7b' ∉ d.params ∧ '\x7d' ∉ d.params ∧ '\n' ∉ d.params
  body : Balanced d.body

/-- A blank comes last before the class, or none at all and the return type is the class. -/
def NameFound (d : MethodText) : Prop :=
  (∃ c ∈ d.sep.getLast?, isBlank c) ∨ (∀ c ∈ d.sep, isBlank c = false) ∧ d.returnType = d.classname

instance (d : MethodText) : Decidable d.NameFound :=
  inferInstanceAs (Decidable (_ ∨ (∀ c ∈ d.sep, isBlank c = false) ∧ _ = _))

end MethodText

/-- The definitions one behind the other. -/
def printMethods (defs : List MethodText) : Str := defs.flatMap fun d ↦ d.text ++ ['\n']

/-- The file: a preamble, and the definitions. -/
def printSource (pre : Str) (defs : List MethodText) : Str := pre ++ printMethods defs

/-- The map has the classes of the definitions as keys, and under each the texts of its definitions,
in their order. -/
def ListsMethods (defs : List MethodText) (cppclass : OrdMap Str (List CMethodBody)) : Prop :=
  ∀ key, ((cppclass.find? key).isSome ↔ ∃ d ∈ defs, d.classname = key) ∧
    ((cppclass.find? key).getD []).map CMethodBody.body =
      (defs.filter fun d ↦ d.classname = key).map MethodText.text

/-! ### The class of a definition -/

section Name

variable {d : MethodText}

/-- A word that starts with a separator has no name at its start. -/
theorem takeWhile_isNameChar_append {u t : Str} (hu : ∀ c ∈ u, isNameChar c = false)
    (hne : u ≠ []) : (u ++ t).takeWhile isNameChar = [] := by
  obtain ⟨c, u, rfl⟩ := List.exists_cons_of_ne_nil hne
  rw [List.cons_append, List.takeWhile_cons_of_neg (by simp [hu c List.mem_cons_self])]

namespace MethodText.WellFormed

theorem sep_not_nameChar (h : d.WellFormed) : ∀ c ∈ d.sep, isNameChar c = false := by
  intro c hc
  rcases h.sep_mem c hc with hblank | rfl | rfl
  · exact isNameChar_eq_false_of_isBlank hblank
  · decide
  · decide

theorem sep_notMem (h : d.WellFormed) : ':' ∉ d.sep ∧ '\n' ∉ d.sep := by
  constructor
  · intro hmem
    rcases h.sep_mem _ hmem with h | h | h <;> exact absurd h (by decide)
  · intro hmem
    rcases h.sep_mem _ hmem with h | h | h <;> exact absurd h (by decide)

theorem beforeColons_notMem (h : d.WellFormed) : ':' ∉ d.beforeColons ∧ '\n' ∉ d.beforeColons := by
  have hcolon : isNameChar ':' = false := by decide
  have hnewline : isNameChar '\n' = false := by decide
  simp only [MethodText.beforeColons, List.mem_append, not_or]
  exact ⟨⟨⟨h.returnType.notMem hcolon, h.sep_notMem.1⟩, h.classname.notMem hcolon⟩,
    ⟨⟨h.returnType.notMem hnewline, h.sep_notMem.2⟩, h.classname.notMem hnewline⟩⟩

/-- The class can be read off the text: it is the name before the first `::`. -/
theorem classname_eq (h : d.WellFormed) :
    (d.text.takeWhile (· ≠ ':')).rtakeWhile isNameChar = d.classname := by
  have hbefore : d.text.takeWhile (· ≠ ':') = d.beforeColons := by
    rw [MethodText.text, List.append_assoc, List.takeWhile_append_of_pos]
    · exact List.append_nil _
    · intro c hc
      simpa using ne_of_mem_of_not_mem hc h.beforeColons_notMem.1
  obtain ⟨S, c, hS⟩ := (List.eq_nil_or_concat d.sep).resolve_left h.sep_ne_nil
  have hc : isNameChar c = false := h.sep_not_nameChar c (by rw [hS]; simp)
  rw [hbefore, MethodText.beforeColons, hS, List.rtakeWhile]
  simp only [List.concat_eq_append, List.reverse_append, List.reverse_singleton,
    List.singleton_append]
  rw [List.takeWhile_append_of_pos fun x hx ↦ h.classname.nameChars x (List.mem_reverse.1 hx),
    List.cons_append, List.takeWhile_cons_of_neg (by simp [hc]), List.append_nil,
    List.reverse_reverse]

/-- The word before the `::`: the class, and all that no blank separates from it. -/
theorem lastName_eq (h : d.WellFormed) : lastName d.beforeColons =
    ((d.returnType ++ d.sep).rtakeWhile (fun c ↦ ¬ (isBlank c ∨ c = '\n')) ++
      d.classname).takeWhile isNameChar := by
  have hword : ∀ c ∈ d.classname, ¬ (isBlank c ∨ c = '\n') := by
    rintro c hc (hblank | rfl)
    · exact h.classname.notMem (isNameChar_eq_false_of_isBlank hblank) hc
    · exact h.classname.notMem (by decide) hc
  have hdrop : d.beforeColons.rdropWhile isBlank = d.beforeColons := by
    rw [MethodText.beforeColons, List.rdropWhile_eq_self_iff]
    intro hne hblank
    rw [List.getLast_append_of_ne_nil _ h.classname.ne_nil] at hblank
    exact hword _ (List.getLast_mem h.classname.ne_nil) (Or.inl hblank)
  rw [lastName, hdrop, MethodText.beforeColons, List.rtakeWhile, List.reverse_append,
    List.takeWhile_append_of_pos fun c hc ↦ by simpa using hword c (List.mem_reverse.1 hc),
    List.reverse_append, List.reverse_reverse]
  rfl

/-- **When the class is found.** -/
theorem lastName_eq_iff (h : d.WellFormed) :
    lastName d.beforeColons = d.classname ↔ d.NameFound := by
  have hwordChar : ∀ c, isBlank c = false → c ≠ '\n' → (!decide (isBlank c ∨ c = '\n')) = true := by
    intro c hc hne
    simp [hc, hne]
  have hsep : ∀ c ∈ d.sep, c ≠ '\n' := fun c hc ↦ ne_of_mem_of_not_mem hc h.sep_notMem.2
  obtain ⟨S, c, hS⟩ := (List.eq_nil_or_concat d.sep).resolve_left h.sep_ne_nil
  rw [List.concat_eq_append] at hS
  have hlast : d.sep.getLast? = some c := by rw [hS]; simp
  have hcmem : c ∈ d.sep := by rw [hS]; simp
  rw [h.lastName_eq, MethodText.NameFound, hlast, List.rtakeWhile, List.reverse_append]
  simp only [decide_not]
  by_cases hblank : isBlank c
  · -- the word is the class
    have hrev : d.sep.reverse = c :: S.reverse := by rw [hS]; simp
    rw [hrev, List.cons_append, List.takeWhile_cons_of_neg (by simp [hblank]), List.reverse_nil,
      List.nil_append]
    exact iff_of_true (List.takeWhile_eq_self_iff.2 h.classname.nameChars)
      (Or.inl ⟨c, rfl, hblank⟩)
  · have hright : (∃ x ∈ some c, isBlank x = true) ↔ False := by simp [hblank]
    rw [hright, false_or]
    by_cases hall : ∀ x ∈ d.sep, isBlank x = false
    · -- the word starts with the return type
      have hword : ∀ x ∈ d.sep.reverse ++ d.returnType.reverse,
          (!decide (isBlank x ∨ x = '\n')) = true := by
        intro x hx
        rcases List.mem_append.1 hx with hx | hx
        · rw [List.mem_reverse] at hx
          exact hwordChar x (hall x hx) (hsep x hx)
        · rw [List.mem_reverse] at hx
          exact hwordChar x (isBlank_eq_false_of_isNameChar (h.returnType.nameChars x hx))
            fun heq ↦ h.returnType.notMem (by decide) (heq ▸ hx)
      rw [List.takeWhile_eq_self_iff.2 hword, List.reverse_append, List.reverse_reverse,
        List.reverse_reverse, List.append_assoc,
        List.takeWhile_append_of_pos h.returnType.nameChars,
        takeWhile_isNameChar_append h.sep_not_nameChar h.sep_ne_nil, List.append_nil]
      exact (and_iff_right hall).symm
    · -- the word starts with a separator
      obtain ⟨b, hb, hbblank⟩ : ∃ b ∈ d.sep, isBlank b = true := by simpa using hall
      have htake := CString.takeWhile_append_of_mem (List.mem_reverse.2 hb)
        (p := fun x ↦ !decide (isBlank x ∨ x = '\n')) (by simp [hbblank]) d.returnType.reverse
      rw [htake, takeWhile_isNameChar_append]
      · exact iff_of_false h.classname.ne_nil.symm fun hno ↦ hall hno.1
      · intro x hx
        exact h.sep_not_nameChar x
          (List.mem_reverse.1 ((List.takeWhile_prefix _).subset (List.mem_reverse.1 hx)))
      · have hrev : d.sep.reverse = c :: S.reverse := by rw [hS]; simp
        rw [hrev, List.takeWhile_cons, hwordChar c (by simpa using hblank) (hsep c hcmem)]
        simp

theorem afterColons_notMem (h : d.WellFormed) :
    '\x7b' ∉ d.afterColons ∧ '\n' ∉ d.afterColons := by
  simp [MethodText.afterColons, h.params_notMem,
    h.methodName.notMem (by decide : isNameChar '\x7b' = false),
    h.methodName.notMem (by decide : isNameChar '\n' = false)]

end MethodText.WellFormed

end Name

/-! ### The search on a printed file -/

/-- A text with a definition in it, after a line end. -/
structure MethodAt (content p : Str) (d : MethodText) (rest : Str) : Prop where
  wellFormed : d.WellFormed
  content_eq : content = p ++ '\n' :: (d.text ++ '\n' :: rest)

namespace MethodAt

variable {content p rest : Str} {d : MethodText} {s : ℕ}

theorem length_text (d : MethodText) :
    d.text.length = d.beforeColons.length + d.afterColons.length + d.body.length + 5 := by
  simp [MethodText.text]
  omega

/-- The text around the `::`. -/
theorem content_eq_colons (h : MethodAt content p d rest) :
    content = (p ++ ['\n']) ++ (d.returnType ++ d.sep ++ d.classname ++ "::".toList ++
      (d.afterColons ++ '\n' :: ('\x7b' :: (d.body ++ '\x7d' :: '\n' :: rest)))) := by
  rw [h.content_eq, MethodText.text, MethodText.beforeColons]
  simp

theorem not_isPrefix_colons {content : Str} {q : ℕ} {c : Char} (hc : content[q]? = some c)
    (hne : c ≠ ':') : ¬ "::".toList <+: content.drop q := by
  intro hpre
  have hcolon : content[q]? = some ':' := CString.getElem?_of_isPrefix hpre
  exact hne (Option.some.inj (hc.symm.trans hcolon))

/-- From the closing brace to the next line there is no `::`. -/
theorem not_isPrefix_behind (h : MethodAt content p d rest) {q : ℕ}
    (hq : p.length + d.text.length ≤ q) (hlt : q < p.length + d.text.length + 2) :
    ¬ "::".toList <+: content.drop q := by
  have hlen := length_text d
  have hsplit : content = (p ++ '\n' :: (d.beforeColons ++ "::".toList ++ (d.afterColons ++
      '\n' :: '\x7b' :: d.body))) ++ '\x7d' :: '\n' :: rest := by
    rw [h.content_eq, MethodText.text]
    simp
  have hpos : p.length + d.text.length = (p ++ '\n' :: (d.beforeColons ++ "::".toList ++
      (d.afterColons ++ '\n' :: '\x7b' :: d.body))).length := by
    rw [hlen]
    simp
    omega
  rw [hpos] at hq hlt
  rcases Nat.eq_or_lt_of_le hq with rfl | hq
  · refine not_isPrefix_colons (c := '\x7d') ?_ (by decide)
    rw [hsplit, List.getElem?_append_right le_rfl, Nat.sub_self]
    rfl
  · refine not_isPrefix_colons (c := '\n') ?_ (by decide)
    rw [hsplit, List.getElem?_append_right hq.le, Nat.sub_eq_of_eq_add' (c := 1) (by omega)]
    rfl

/-- The `::` is the next one, if there is none before the line. -/
theorem find_colons (h : MethodAt content p d rest) (hs : s ≤ p.length + 1)
    (hbefore : ∀ q, s ≤ q → q < p.length + 1 → ¬ "::".toList <+: content.drop q) :
    CString.find "::".toList content s = some (p.length + 1 + d.beforeColons.length) := by
  have hline : CString.find "::".toList (d.beforeColons ++ "::".toList) 0 =
      some d.beforeColons.length := by
    have hfirst := CString.find_of_notMem h.wellFormed.beforeColons_notMem.1 [] [':'] []
    rwa [List.append_nil, List.nil_append, List.length_nil, Nat.zero_add] at hfirst
  have hcontent := h.content_eq_colons
  rw [← MethodText.beforeColons] at hcontent
  have hlen : (p ++ ['\n']).length = p.length + 1 := by simp
  rw [hcontent] at hbefore ⊢
  rw [← hlen] at hs hbefore ⊢
  exact CString.find_append (by decide) hs hbefore hline

theorem isDefinition_eq (h : MethodAt content p d rest) :
    isDefinition content (p.length + 1 + d.beforeColons.length) = some true := by
  have hlen : (p ++ ['\n']).length = p.length + 1 := by simp
  have hbefore := h.wellFormed.beforeColons_notMem.2
  simp only [MethodText.beforeColons, List.mem_append, not_or] at hbefore
  obtain ⟨c, hc, -⟩ := h.wellFormed.returnType.head
  have hblank : isBlank c = false := isBlank_eq_false_of_isNameChar
    (h.wellFormed.returnType.nameChars c (List.mem_of_mem_head? hc))
  rw [h.content_eq_colons, ← hlen]
  refine isDefinition_line (by simp [hbefore]) ⟨c, by simp [hc], hblank⟩ hbefore.2
    (Or.inr ⟨p, rfl⟩) h.wellFormed.afterColons_notMem.2 ?_ le_rfl
  have hlast : d.afterColons = d.methodName ++ '(' :: d.params ++ [')'] := by
    simp [MethodText.afterColons]
  rw [hlast, List.getLast?_concat]
  decide

theorem find_brace (h : MethodAt content p d rest) :
    CString.find "\x7b".toList content (p.length + 1 + d.beforeColons.length) =
      some (p.length + d.beforeColons.length + d.afterColons.length + 4) := by
  have hbetween : '\x7b' ∉ "::".toList ++ d.afterColons ++ ['\n'] := by
    simp [h.wellFormed.afterColons_notMem.1]
  have hfind := CString.find_of_notMem hbetween (p ++ '\n' :: d.beforeColons) []
    (d.body ++ '\x7d' :: '\n' :: rest)
  have hcontent : content = (p ++ '\n' :: d.beforeColons) ++ ("::".toList ++ d.afterColons ++
      ['\n'] ++ (['\x7b'] ++ (d.body ++ '\x7d' :: '\n' :: rest))) := by
    rw [h.content_eq_colons, MethodText.beforeColons]
    simp
  have hpos : (p ++ '\n' :: d.beforeColons).length = p.length + 1 + d.beforeColons.length := by
    simp
    omega
  have hlen : ("::".toList ++ d.afterColons ++ ['\n']).length = d.afterColons.length + 3 := by
    simp
  rw [← hcontent, hpos, hlen] at hfind
  refine hfind.trans (congrArg some ?_)
  omega

/-- The body ends where its text does. -/
theorem bodyAt_eq (h : MethodAt content p d rest) :
    bodyAt content (p.length + 1 + d.beforeColons.length) = some (p.length + d.text.length) := by
  have hdrop : content.drop (p.length + d.beforeColons.length + d.afterColons.length + 4 + 1) =
      d.body ++ '\x7d' :: '\n' :: rest := by
    have hcontent : content = (p ++ '\n' :: (d.beforeColons ++ "::".toList ++ d.afterColons ++
        ['\n', '\x7b'])) ++ (d.body ++ '\x7d' :: '\n' :: rest) := by
      rw [h.content_eq_colons, MethodText.beforeColons]
      simp
    rw [hcontent]
    refine List.drop_left' ?_
    simp
    omega
  rw [bodyAt, if_pos h.isDefinition_eq, h.find_brace, Option.map_some, bodyEnd, hdrop,
    h.wellFormed.body.closing_eq, length_text]
  congr 1
  omega

theorem resume_eq (h : MethodAt content p d rest) :
    resume content (p.length + 1 + d.beforeColons.length) = some (p.length + d.text.length) := by
  rw [resume, if_pos h.isDefinition_eq, h.bodyAt_eq]

theorem canVisit (h : MethodAt content p d rest) :
    CanVisit content (p.length + 1 + d.beforeColons.length) := by
  have hsplit : content = (p ++ '\n' :: d.beforeColons) ++ ("::".toList ++ (d.afterColons ++
      '\n' :: ('\x7b' :: (d.body ++ '\x7d' :: '\n' :: rest)))) := by
    rw [h.content_eq_colons, MethodText.beforeColons]
    simp
  have hlen : (p ++ '\n' :: d.beforeColons).length = p.length + 1 + d.beforeColons.length := by
    simp
    omega
  rw [CanVisit, ← hlen]
  refine ⟨?_, fun _ ↦ Or.inl ?_⟩
  · rw [hsplit, List.drop_length_add_append]
    simp
  · rw [hsplit, List.take_left]
    simp

/-- **What is recorded for a definition.** -/
theorem recordingAt_eq (h : MethodAt content p d rest) :
    recordingAt content (p.length + 1 + d.beforeColons.length) =
      some { pos := p.length + 1 + d.beforeColons.length
             classname := lastName d.beforeColons
             start := p.length + 1
             stop := p.length + d.text.length + 1 } := by
  have hname := classBefore_append p d.beforeColons ("::".toList ++ (d.afterColons ++
      '\n' :: ('\x7b' :: (d.body ++ '\x7d' :: '\n' :: rest))))
  have hstart := CString.back_append (f := fun c ↦ c ≠ '\n') (c := '\n') (by decide) p
    (d.beforeColons ++ [':']) (':' :: (d.afterColons ++
      '\n' :: ('\x7b' :: (d.body ++ '\x7d' :: '\n' :: rest))))
  have hcontent : content = p ++ '\n' :: (d.beforeColons ++ ("::".toList ++ (d.afterColons ++
      '\n' :: ('\x7b' :: (d.body ++ '\x7d' :: '\n' :: rest))))) := by
    rw [h.content_eq_colons, MethodText.beforeColons]
    simp
  have hcontent' : content = p ++ '\n' :: (d.beforeColons ++ [':'] ++ (':' :: (d.afterColons ++
      '\n' :: ('\x7b' :: (d.body ++ '\x7d' :: '\n' :: rest))))) := by
    rw [hcontent]
    simp
  have hnil : (d.beforeColons ++ [':']).rdropWhile (fun c ↦ decide (c ≠ '\n')) = [] := by
    rw [List.rdropWhile_eq_nil_iff]
    intro c hc
    rcases List.mem_append.1 hc with hc | hc
    · simpa using ne_of_mem_of_not_mem hc h.wellFormed.beforeColons_notMem.2
    · rw [List.mem_singleton.1 hc]
      decide
  rw [← hcontent] at hname
  rw [← hcontent', hnil, List.length_nil, Nat.add_zero, List.length_append, List.length_singleton,
    ← Nat.add_assoc] at hstart
  rw [recordingAt, h.bodyAt_eq, hname, hstart]
  rfl

/-- The text that is kept is that of the definition. -/
theorem body_eq (h : MethodAt content p d rest) (pos : ℕ) (classname : Str) :
    Recording.body content ⟨pos, classname, p.length + 1, p.length + d.text.length + 1⟩ =
      d.text := by
  have hsplit : content = (p ++ ['\n']) ++ (d.text ++ '\n' :: rest) := by
    rw [h.content_eq]
    simp
  have hpos : p.length + 1 = (p ++ ['\n']).length := by simp
  have hlen : p.length + d.text.length + 1 - (p.length + 1) = d.text.length := by omega
  rw [Recording.body, CString.substr]
  simp only [hlen]
  rw [hpos, hsplit, List.drop_left, List.take_left]

end MethodAt

section Printed

variable {content p : Str} {defs : List MethodText}

theorem printMethods_cons (d : MethodText) (defs : List MethodText) :
    printMethods (d :: defs) = d.text ++ '\n' :: printMethods defs := by
  simp [printMethods]

/-- **From definition to definition.** What is recorded from any position before the first one, and
that the reader gets there. -/
theorem visitsFrom_printMethods {n s : ℕ} (hdefs : ∀ d ∈ defs, d.WellFormed)
    (hcontent : content = p ++ '\n' :: printMethods defs) (hs : s ≤ p.length + 1)
    (hn : content.length < s + n)
    (hbefore : ∀ q, s ≤ q → q < p.length + 1 → ¬ "::".toList <+: content.drop q) :
    (∀ pos ∈ visitsFrom content n s, CanVisit content pos) ∧
      (visitsFrom content n s).findSome? (bodyAt content) =
        defs.head?.map (fun d ↦ p.length + d.text.length) ∧
      ((visitsFrom content n s).filterMap (recordingAt content)).map
          (fun e ↦ (e.classname, e.body content)) =
        defs.map fun d ↦ (lastName d.beforeColons, d.text) := by
  induction defs generalizing p n s with
  | nil =>
    have hlen : content.length = p.length + 1 := by
      rw [hcontent]
      simp [printMethods]
    have hnone : CString.find "::".toList content s = none := by
      rw [CString.find_eq_none_iff (by decide)]
      intro q hq hpre
      have := hpre.length_le
      rw [List.length_drop] at this
      have htwo : "::".toList.length = 2 := rfl
      exact hbefore q hq (by omega) hpre
    rw [visitsFrom_of_find_eq_none hnone]
    simp
  | cons d defs ih =>
    have hat : MethodAt content p d (printMethods defs) :=
      ⟨hdefs d List.mem_cons_self, by rw [hcontent, printMethods_cons]⟩
    have hlen := MethodAt.length_text d
    have htotal : content.length = p.length + d.text.length + 2 + (printMethods defs).length := by
      rw [hat.content_eq]
      simp
      omega
    obtain ⟨n, rfl⟩ : ∃ n', n = n' + 1 := ⟨n - 1, by omega⟩
    -- the rest is the same text, with this definition in front
    have hrest := ih (p := p ++ '\n' :: d.text) (n := n) (s := p.length + d.text.length)
      (fun d' hd' ↦ hdefs d' (List.mem_cons_of_mem _ hd')) (by rw [hat.content_eq]; simp)
      (by simp; omega) (by omega) (fun q hq hlt ↦ hat.not_isPrefix_behind hq (by
        simp only [List.length_append, List.length_cons] at hlt
        omega))
    have hvisits : visitsFrom content (n + 1) s = (p.length + 1 + d.beforeColons.length) ::
        visitsFrom content n (p.length + d.text.length) := by
      rw [visitsFrom_of_find_eq_some (hat.find_colons hs hbefore), hat.resume_eq, Option.elim_some]
    rw [hvisits]
    refine ⟨?_, ?_, ?_⟩
    · rw [List.forall_mem_cons]
      exact ⟨hat.canVisit, hrest.1⟩
    · rw [List.findSome?_cons, hat.bodyAt_eq]
      rfl
    · rw [List.filterMap_cons, hat.recordingAt_eq]
      simp only [List.map_cons, hrest.2.2]
      rw [hat.body_eq]

/-- Before the first definition there is no `::`. -/
theorem not_isPrefix_preamble {pre rest : Str} (hcolons : ∀ q, ¬ "::".toList <+: pre.drop q)
    (hpre : pre = p ++ ['\n']) {q : ℕ} (hq : q < p.length + 1) :
    ¬ "::".toList <+: (p ++ '\n' :: rest).drop q := by
  have hsplit : p ++ '\n' :: rest = pre ++ rest := by
    rw [hpre]
    simp
  have hlen : pre.length = p.length + 1 := by
    rw [hpre]
    simp
  rcases Nat.eq_or_lt_of_le (Nat.le_of_lt_succ hq) with rfl | hlt
  · exact MethodAt.not_isPrefix_colons (c := '\n') (by simp) (by decide)
  · intro h
    rw [hsplit, List.drop_append_of_le_length (by omega)] at h
    refine hcolons q (List.prefix_of_prefix_length_le h (List.prefix_append _ _) ?_)
    rw [List.length_drop, hlen]
    exact (by omega : 2 ≤ p.length + 1 - q)

end Printed

/-- The entries of the map, if each definition is entered under `name d`. -/
theorem listsMethods_iff {defs : List MethodText} (hdefs : ∀ d ∈ defs, d.WellFormed)
    {name : MethodText → Str} {cppclass : OrdMap Str (List CMethodBody)}
    (hclass : ∀ key, ((cppclass.find? key).isSome ↔ ∃ d ∈ defs, name d = key) ∧
      ((cppclass.find? key).getD []).map CMethodBody.body =
        (defs.filter fun d ↦ name d = key).map MethodText.text) :
    ListsMethods defs cppclass ↔ ∀ d ∈ defs, name d = d.classname := by
  constructor
  · intro h d hd
    -- another definition with this text would have this class
    have hmem : d.text ∈ (defs.filter fun d' ↦ d'.classname = name d).map MethodText.text := by
      rw [← (h (name d)).2, (hclass (name d)).2]
      exact List.mem_map_of_mem (List.mem_filter.2 ⟨hd, by simp⟩)
    obtain ⟨d', hd', htext⟩ := List.mem_map.1 hmem
    obtain ⟨hd', hkey⟩ := List.mem_filter.1 hd'
    rw [decide_eq_true_iff] at hkey
    rw [← hkey, ← (hdefs d hd).classname_eq, ← (hdefs d' hd').classname_eq, htext]
  · intro h key
    have hfilter : (defs.filter fun d ↦ name d = key) = defs.filter fun d ↦ d.classname = key :=
      List.filter_congr fun d hd ↦ by rw [h d hd]
    rw [← hfilter, (hclass key).1, (hclass key).2]
    refine ⟨exists_congr fun d ↦ and_congr_right fun hd ↦ ?_, rfl⟩
    rw [h d hd]

/-- **Reading a printed source file.** The reader returns and its map lists the texts of the
definitions under their classes, exactly if the includes before the end of the first body are closed
and each class is found. -/
theorem readCpp_printSource_iff {pre : Str} (hcolons : ∀ q, ¬ "::".toList <+: pre.drop q)
    (hline : ∃ p, pre = p ++ ['\n']) {defs : List MethodText} (hdefs : ∀ d ∈ defs, d.WellFormed) :
    (∃ r, readCpp (printSource pre defs) = some r ∧ ListsMethods defs r.cppclass) ↔
      (∀ d ∈ defs.head?, IncludesClosed (pre ++ d.text)) ∧ ∀ d ∈ defs, d.NameFound := by
  obtain ⟨p, hpre⟩ := hline
  have hcontent : printSource pre defs = p ++ '\n' :: printMethods defs := by
    rw [printSource, hpre]
    simp
  obtain ⟨hvisit, hfirst, hrecordings⟩ := visitsFrom_printMethods hdefs hcontent (Nat.zero_le _)
    (Nat.lt_add_left 0 (Nat.lt_succ_self _)) (fun q _ hq ↦ by
      rw [hcontent]
      exact not_isPrefix_preamble hcolons hpre hq)
  change (∀ pos ∈ visits (printSource pre defs), _) at hvisit
  change firstBody (printSource pre defs) = _ at hfirst
  change (recordings (printSource pre defs)).map _ = _ at hrecordings
  have hsome : (readCpp (printSource pre defs)).isSome ↔
      ∀ d ∈ defs.head?, IncludesClosed (pre ++ d.text) := by
    rw [isSome_readCpp_iff, and_iff_right hvisit, headfilesRead, hfirst]
    cases defs with
    | nil => simp
    | cons d defs =>
      have htake : (printSource pre (d :: defs)).take (p.length + d.text.length + 1) =
          pre ++ d.text := by
        rw [printSource, printMethods_cons, ← List.append_assoc]
        refine List.take_left' ?_
        rw [hpre]
        simp
        omega
      simp [htake]
  have hnames : (∀ d ∈ defs, d.NameFound) ↔
      ∀ d ∈ defs, lastName d.beforeColons = d.classname :=
    forall₂_congr fun d hd ↦ (hdefs d hd).lastName_eq_iff.symm
  -- what the map holds, in terms of the definitions
  have hlists : ∀ r, readCpp (printSource pre defs) = some r →
      (ListsMethods defs r.cppclass ↔ ∀ d ∈ defs, lastName d.beforeColons = d.classname) := by
    intro r hr
    refine listsMethods_iff hdefs fun key ↦ ?_
    obtain ⟨hkey, hbodies⟩ := find?_readCpp hr key
    have hexists : (∃ e ∈ recordings (printSource pre defs), e.classname = key) ↔
        ∃ x ∈ (recordings (printSource pre defs)).map
          (fun e ↦ (e.classname, e.body (printSource pre defs))), x.1 = key := by
      simp
    have hlist : (((recordings (printSource pre defs)).filter fun e ↦ e.classname = key).map
        fun e ↦ methodOf (e.body (printSource pre defs))).map CMethodBody.body =
          (((recordings (printSource pre defs)).map
            fun e ↦ (e.classname, e.body (printSource pre defs))).filter
              fun x ↦ x.1 = key).map Prod.snd := by
      rw [List.map_map, List.filter_map, List.map_map]
      rfl
    rw [hkey, hexists, hbodies, hlist, hrecordings, List.filter_map, List.map_map]
    simp [Function.comp_def]
  rw [← hsome, hnames, Option.isSome_iff_exists]
  constructor
  · rintro ⟨r, hr, hlist⟩
    exact ⟨⟨r, hr⟩, (hlists r hr).1 hlist⟩
  · rintro ⟨⟨r, hr⟩, hname⟩
    exact ⟨r, hr, (hlists r hr).2 hname⟩

/-- A method with a name of one letter and no parameters. -/
def samplePrinted (returnType sep classname body : String) : MethodText :=
  { returnType := returnType.toList, sep := sep.toList, classname := classname.toList,
    methodName := "m".toList, params := [], body := body.toList }

theorem wellFormed_samplePrinted {returnType sep classname body : String}
    (hreturn : IsIdentifier returnType.toList) (hsep : sep.toList ≠ [])
    (hmem : ∀ c ∈ sep.toList, isBlank c ∨ c = '*' ∨ c = '&')
    (hclass : IsIdentifier classname.toList) (hbody : Balanced body.toList) :
    (samplePrinted returnType sep classname body).WellFormed where
  returnType := hreturn
  sep_ne_nil := hsep
  sep_mem := hmem
  classname := hclass
  methodName := (⟨by decide, 'm', rfl, by decide⟩ : IsIdentifier "m".toList)
  params_colons q h := by
    have : "::".toList <+: List.drop q [] := h
    simp at this
  params_notMem := by simp [samplePrinted]
  body := hbody

/-- A definition with blanks around the star, one whose body mentions another class, and one of a
class that returns itself. -/
def sampleDefinitions : List MethodText :=
  [samplePrinted "T" " * " "C" " p->q(); ", samplePrinted "int" " " "C" "\x7b D::f(); \x7d",
    samplePrinted "A" "*" "A" ""]

theorem readCpp_printSource_iff_sampleDefinitions :
    (∀ d ∈ sampleDefinitions, d.WellFormed) ∧
    ∃ r, readCpp (printSource "\n".toList sampleDefinitions) = some r ∧
      ListsMethods sampleDefinitions r.cppclass := by
  have hdefs : ∀ d ∈ sampleDefinitions, d.WellFormed := by
    intro d hd
    rw [sampleDefinitions, List.mem_cons, List.mem_pair] at hd
    rcases hd with rfl | rfl | rfl
    · exact wellFormed_samplePrinted ⟨by decide, 'T', rfl, by decide⟩ (by decide) (by decide)
        ⟨by decide, 'C', rfl, by decide⟩ (by decide)
    · exact wellFormed_samplePrinted ⟨by decide, 'i', rfl, by decide⟩ (by decide) (by decide)
        ⟨by decide, 'C', rfl, by decide⟩ (by decide)
    · exact wellFormed_samplePrinted ⟨by decide, 'A', rfl, by decide⟩ (by decide) (by decide)
        ⟨by decide, 'A', rfl, by decide⟩ (by decide)
  have hcolons : ∀ q, ¬ "::".toList <+: "\n".toList.drop q := fun q ↦
    (CString.find_eq_none_iff (by decide)).1 (by decide +kernel) q (Nat.zero_le q)
  refine ⟨hdefs, (readCpp_printSource_iff hcolons ⟨[], rfl⟩ hdefs).2 ⟨?_, by decide⟩⟩
  intro d hd q hpre
  obtain rfl := Option.some.inj hd
  refine absurd hpre ((CString.find_eq_none_iff (by decide)).1 ?_ q (Nat.zero_le q))
  decide +kernel

/-- With the star right before the class, the method is entered under the empty name. -/
theorem readCpp_printSource_star :
    (samplePrinted "T" " *" "C" "").WellFormed ∧
    (readCpp (printSource "\n".toList [samplePrinted "T" " *" "C" ""])).map
      (fun r ↦ r.cppclass.keys) = some [[]] ∧
    ¬ ∃ r, readCpp (printSource "\n".toList [samplePrinted "T" " *" "C" ""]) = some r ∧
      ListsMethods [samplePrinted "T" " *" "C" ""] r.cppclass := by
  have hkeys : (readCpp (printSource "\n".toList [samplePrinted "T" " *" "C" ""])).map
      (fun r ↦ r.cppclass.keys) = some [[]] := by
    decide +kernel
  refine ⟨wellFormed_samplePrinted ⟨by decide, 'T', rfl, by decide⟩ (by decide) (by decide)
    ⟨by decide, 'C', rfl, by decide⟩ (by decide), hkeys, ?_⟩
  · rintro ⟨r, hr, hlist⟩
    rw [hr, Option.map_some, Option.some_inj] at hkeys
    have hmem := OrdMap.mem_keys_iff.2 ((hlist "C".toList).1.2 ⟨_, List.mem_singleton_self _, rfl⟩)
    rw [hkeys] at hmem
    exact absurd hmem (by decide)

end CArchitecture
