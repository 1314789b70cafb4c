import CArchitecture.Parsing
import CArchitecture.Readers

/-!
# Reading type definitions

`dealwithTypeDef` looks for the word `typedef`, takes the text up to the next semicolon, and splits
it into words: the type is the second one, or the third after the word `class`, and the rest are its
aliases. The search goes on right behind the word. So a type or an alias that contains the word is
taken for another type definition, which starts inside of a name.

That does no harm: the words from there on are the last ones of the statement, so the names that are
entered are aliases of this statement, and these have an entry already (`noteTypeDef_inside`). What
remains is that a text of statements is read statement by statement (`dealwithTypeDef_append`):
every alias gets the type of the first statement that declares it
(`find?_dealwithTypeDef_printStatements`).
-/

namespace CArchitecture

/-- The word that type definitions are looked for by. -/
def typedefText : Str := "typedef".toList

/-- A separator of words. -/
def isSeparator (c : Char) : Bool := c ∈ [' ', '\t', ',', '\n', '*']

theorem split_eq {line : Str} (h : ∀ c ∈ line, c ∉ ['\x7b', '<', '/', '(', '\x7d']) :
    split line = Text.words isSeparator line := by
  rw [split, if_neg]
  · rfl
  · rw [List.any_eq_true]
    rintro ⟨c, hc, hmem⟩
    exact h c hc (by simpa using hmem)

/-! ### Statement by statement -/

section Append

variable {a b : Str} {m : OrdMap Str Str} {q : ℕ}

/-- A type definition that ends in the first text. -/
theorem noteTypeDef_append_left {i : ℕ} (hsemi : CString.find ";".toList a q = some i) :
    noteTypeDef (a ++ b) m q = noteTypeDef a m q := by
  have hle := (CString.of_find_eq_some hsemi).1
  have hend := CString.add_length_le_of_find hsemi (by decide)
  have hsubstr : CString.substr (a ++ b) q (i - q) = CString.substr a q (i - q) := by
    rw [CString.substr, CString.substr, List.drop_append_of_le_length (by omega),
      List.take_append_of_le_length (by rw [List.length_drop]; omega)]
  simp only [noteTypeDef, hsemi, CString.find_append_left (by decide) hsemi, hsubstr]

/-- A type definition in the second text. -/
theorem noteTypeDef_append_right : noteTypeDef (a ++ b) m (a.length + q) = noteTypeDef b m q := by
  have hsubstr : ∀ i, CString.substr (a ++ b) (a.length + q) (a.length + i - (a.length + q)) =
      CString.substr b q (i - q) := fun i ↦ by
    rw [CString.substr, CString.substr, List.drop_length_add_append, Nat.add_sub_add_left]
  simp only [noteTypeDef, CString.find_append_right]
  cases CString.find ";".toList b q with
  | none => rfl
  | some i => simp only [Option.map_some, hsubstr]

/-- **A text is read up to a semicolon, and then on.** -/
theorem dealwithTypeDef_append (m : OrdMap Str Str) (a b : Str) :
    dealwithTypeDef m (a ++ [';'] ++ b) = dealwithTypeDef (dealwithTypeDef m (a ++ [';'])) b := by
  have hocc : CString.occurrences typedefText (a ++ [';'] ++ b) =
      CString.occurrences typedefText (a ++ [';']) ++
        (CString.occurrences typedefText b).map ((a ++ [';']).length + ·) :=
    CString.occurrences_append (by decide) (by decide) a b
  have hleft : ∀ m, (CString.occurrences typedefText (a ++ [';'])).foldl
      (noteTypeDef (a ++ [';'] ++ b)) m =
        (CString.occurrences typedefText (a ++ [';'])).foldl (noteTypeDef (a ++ [';'])) m := by
    intro m
    refine List.foldl_ext _ _ m fun m q hq ↦ ?_
    have hpre := (CString.isPrefix_of_mem_occurrencesFrom hq).2.length_le
    have hseven : typedefText.length = 7 := rfl
    rw [List.length_drop, List.length_append, List.length_singleton] at hpre
    have hsemi : ";".toList <+: (a ++ [';']).drop a.length := by
      rw [List.drop_left]
      exact List.prefix_rfl
    obtain ⟨i, hi, -⟩ := CString.find_le_of_isPrefix (show q ≤ a.length by omega) hsemi (by decide)
    exact noteTypeDef_append_left hi
  show (CString.occurrences typedefText (a ++ [';'] ++ b)).foldl _ m = _
  rw [hocc, List.foldl_append, hleft, List.foldl_map]
  simp only [noteTypeDef_append_right]
  rfl

end Append

/-! ### The statements -/

/-- A type definition `typedef class T a, *b;`, with or without the word `class`. Each word but the
first one comes with the separators before it. -/
structure TypeDefinition where
  lead : Str
  /-- The separators before the word `class`. -/
  classSep : Option Str
  typeSep : Str
  typeName : Str
  aliases : List (Str × Str)
  trail : Str

/-- A statement, without its semicolon. -/
inductive Statement
  | typedef (d : TypeDefinition)
  | other (text : Str)

/-- Separators, at least one. -/
def IsSeparators (s : Str) : Prop := s ≠ [] ∧ ∀ c ∈ s, isSeparator c

instance (s : Str) : Decidable (IsSeparators s) := inferInstanceAs (Decidable (_ ∧ _))

namespace TypeDefinition

/-- What comes behind the word `typedef`. -/
def afterWord (d : TypeDefinition) : Str :=
  d.classSep.elim [] (· ++ "class".toList) ++
    (d.typeSep ++ (d.typeName ++ (d.aliases.flatMap (fun a ↦ a.1 ++ a.2) ++ d.trail)))

/-- The type and the aliases are identifiers; the word `class` is no type. -/
structure WellFormed (d : TypeDefinition) : Prop where
  lead : ∀ c ∈ d.lead, isSeparator c
  classSep : ∀ s ∈ d.classSep, IsSeparators s
  typeSep : IsSeparators d.typeSep
  typeName : IsIdentifier d.typeName
  typeName_ne : d.classSep = none → d.typeName ≠ "class".toList
  aliases : ∀ a ∈ d.aliases, IsSeparators a.1 ∧ IsIdentifier a.2
  trail : ∀ c ∈ d.trail, isSeparator c

instance (d : TypeDefinition) : Decidable d.WellFormed :=
  decidable_of_iff ((∀ c ∈ d.lead, isSeparator c) ∧ (∀ s ∈ d.classSep, IsSeparators s) ∧
      IsSeparators d.typeSep ∧ IsIdentifier d.typeName ∧
      (d.classSep = none → d.typeName ≠ "class".toList) ∧
      (∀ a ∈ d.aliases, IsSeparators a.1 ∧ IsIdentifier a.2) ∧ ∀ c ∈ d.trail, isSeparator c)
    ⟨fun ⟨h₁, h₂, h₃, h₄, h₅, h₆, h₇⟩ ↦ ⟨h₁, h₂, h₃, h₄, h₅, h₆, h₇⟩,
      fun ⟨h₁, h₂, h₃, h₄, h₅, h₆, h₇⟩ ↦ ⟨h₁, h₂, h₃, h₄, h₅, h₆, h₇⟩⟩

/-- The names that get the type. -/
def names (d : TypeDefinition) : List Str := d.aliases.map Prod.snd

end TypeDefinition

namespace Statement

/-- The text of a statement. -/
def text : Statement → Str
  | typedef d => d.lead ++ (typedefText ++ d.afterWord) ++ [';']
  | other s => s ++ [';']

/-- Another statement does not contain the word. -/
def WellFormed : Statement → Prop
  | typedef d => d.WellFormed
  | other s => ';' ∉ s ∧ ∀ q, ¬ typedefText <+: s.drop q

/-- The type that the statement declares a name for. -/
def typeFor (key : Str) : Statement → Option Str
  | typedef d => if key ∈ d.names then some d.typeName else none
  | other _ => none

end Statement

/-- The statements, one after another. -/
def printStatements (l : List Statement) : Str := l.flatMap Statement.text

/-! ### One statement -/

/-- Nothing is read from a text without the word. -/
theorem dealwithTypeDef_of_forall {s : Str} (h : ∀ q, ¬ typedefText <+: s.drop q)
    (m : OrdMap Str Str) : dealwithTypeDef m s = m := by
  have hnil : CString.occurrences typedefText s = [] :=
    List.eq_nil_iff_forall_not_mem.2 fun q hq ↦
      h q (CString.isPrefix_of_mem_occurrencesFrom hq).2
  show (CString.occurrences typedefText s).foldl _ m = m
  rw [hnil, List.foldl_nil]

/-- Entering names: those that have no entry get the type. -/
theorem find?_insertNames (type : Str) (m : OrdMap Str Str) (l : List Str) (key : Str) :
    (insertNames type m l).find? key =
      (m.find? key).or (if key ∈ l then some type else none) := by
  induction l generalizing m with
  | nil => simp [insertNames]
  | cons n l ih =>
    have hcons : insertNames type m (n :: l) = insertNames type (m.insert n type) l := rfl
    rw [hcons, ih, OrdMap.find?_insert]
    rcases eq_or_ne key n with rfl | hne
    · simp
    · simp [hne]

/-- Entering names that have an entry changes nothing. -/
theorem insertNames_of_forall {type : Str} {m : OrdMap Str Str} {l : List Str}
    (h : ∀ n ∈ l, (m.find? n).isSome) : insertNames type m l = m := by
  refine OrdMap.ext_find? fun key ↦ ?_
  rw [find?_insertNames]
  by_cases hkey : key ∈ l
  · obtain ⟨T, hT⟩ := Option.isSome_iff_exists.1 (h key hkey)
    rw [hT, Option.some_or]
  · rw [if_neg hkey, Option.or_none]

section Line

variable {line : Str} {m : OrdMap Str Str}

/-- The line that is read at its beginning. -/
theorem find_and_substr_line (hsemi : ';' ∉ line) (p : Str) :
    CString.find ";".toList (p ++ (line ++ [';'])) p.length = some (p.length + line.length) ∧
      CString.substr (p ++ (line ++ [';'])) p.length (p.length + line.length - p.length) =
        line := by
  constructor
  · exact CString.find_of_notMem hsemi p [] []
  · rw [CString.substr, List.drop_left, Nat.add_sub_cancel_left, List.take_left]

theorem noteTypeDef_line (hsemi : ';' ∉ line) (p : Str) {w type name : Str} {names : List Str}
    (hwords : split line = w :: type :: name :: names) :
    noteTypeDef (p ++ (line ++ [';'])) m p.length =
      if type = "class".toList then insertNames name m names
      else insertNames type m (name :: names) := by
  obtain ⟨hfind, hsubstr⟩ := find_and_substr_line hsemi p
  simp only [noteTypeDef, hfind, hsubstr, hwords]

/-- Whatever is entered for a line, its first two words are not. -/
theorem exists_noteTypeDef_line (hsemi : ';' ∉ line) (p : Str) :
    ∃ type names, names <:+ (split line).tail.tail ∧
      noteTypeDef (p ++ (line ++ [';'])) m p.length = insertNames type m names := by
  obtain ⟨hfind, hsubstr⟩ := find_and_substr_line hsemi p
  cases hwords : split line with
  | nil =>
    refine ⟨[], [], List.nil_suffix, ?_⟩
    simp only [noteTypeDef, hfind, hsubstr, hwords]
    rfl
  | cons w l =>
    rcases l with - | ⟨type, - | ⟨name, names⟩⟩
    · refine ⟨[], [], List.nil_suffix, ?_⟩
      simp only [noteTypeDef, hfind, hsubstr, hwords]
      rfl
    · refine ⟨[], [], List.nil_suffix, ?_⟩
      simp only [noteTypeDef, hfind, hsubstr, hwords]
      rfl
    · rw [noteTypeDef_line hsemi p hwords]
      split_ifs
      · exact ⟨name, names, List.suffix_cons name names, rfl⟩
      · exact ⟨type, name :: names, List.suffix_rfl, rfl⟩

end Line

theorem isSeparator_eq_false_of_isNameChar {c : Char} (h : isNameChar c) :
    isSeparator c = false := by
  rw [Bool.eq_false_iff]
  intro hsep
  rw [isSeparator, decide_eq_true_iff] at hsep
  have hno : ∀ c ∈ [' ', '\t', ',', '\n', '*'], isNameChar c = false := by decide
  exact Bool.false_ne_true ((hno c hsep).symm.trans h)

theorem IsSeparators.head {s : Str} (h : IsSeparators s) (t : Str) :
    ∀ c ∈ (s ++ t).head?, isSeparator c := by
  intro c hc
  rw [List.head?_append_of_ne_nil _ h.1] at hc
  exact h.2 c (List.mem_of_mem_head? hc)

/-- A name and the separators before it. -/
theorem words_sep_append {sep X rest : Str} (hsep : ∀ c ∈ sep, isSeparator c) (hX : IsIdentifier X)
    (hrest : ∀ c ∈ rest.head?, isSeparator c) :
    Text.words isSeparator (sep ++ (X ++ rest)) = X :: Text.words isSeparator rest := by
  rw [Text.words_append_of_pos hsep, Text.words_append_of_neg
    (fun c hc ↦ isSeparator_eq_false_of_isNameChar (hX.nameChars c hc)) hX.ne_nil hrest]

/-- The aliases, and the separators behind them. -/
theorem words_aliases {l : List (Str × Str)} (hl : ∀ a ∈ l, IsSeparators a.1 ∧ IsIdentifier a.2)
    {trail : Str} (htrail : ∀ c ∈ trail, isSeparator c) :
    (∀ c ∈ (l.flatMap (fun a ↦ a.1 ++ a.2) ++ trail).head?, isSeparator c) ∧
      Text.words isSeparator (l.flatMap (fun a ↦ a.1 ++ a.2) ++ trail) = l.map Prod.snd := by
  induction l with
  | nil =>
    refine ⟨fun c hc ↦ htrail c (List.mem_of_mem_head? hc), ?_⟩
    have h := Text.words_append_of_pos htrail []
    rw [List.append_nil, Text.words_nil] at h
    exact h
  | cons a l ih =>
    obtain ⟨ha, hl⟩ := List.forall_mem_cons.1 hl
    obtain ⟨hhead, hwords⟩ := ih hl
    have hcons : (a :: l).flatMap (fun a ↦ a.1 ++ a.2) ++ trail =
        a.1 ++ (a.2 ++ (l.flatMap (fun a ↦ a.1 ++ a.2) ++ trail)) := by simp
    rw [hcons, words_sep_append ha.1.2 ha.2 hhead, hwords]
    exact ⟨ha.1.head _, rfl⟩

namespace TypeDefinition.WellFormed

variable {d : TypeDefinition}

/-- **The words behind the word `typedef`.** -/
theorem words_afterWord (h : d.WellFormed) :
    (∀ c ∈ d.afterWord.head?, isSeparator c) ∧ Text.words isSeparator d.afterWord =
      (d.classSep.elim [] fun _ ↦ ["class".toList]) ++ d.typeName :: d.names := by
  obtain ⟨hhead, hwords⟩ := words_aliases h.aliases h.trail
  have htype := words_sep_append h.typeSep.2 h.typeName hhead
  rw [hwords] at htype
  rw [afterWord]
  cases hclass : d.classSep with
  | none =>
    rw [Option.elim_none, List.nil_append, htype]
    exact ⟨h.typeSep.head _, rfl⟩
  | some s =>
    have hs := h.classSep s hclass
    have hword : IsIdentifier "class".toList := ⟨by decide, 'c', rfl, by decide⟩
    rw [Option.elim_some, List.append_assoc, words_sep_append hs.2 hword (h.typeSep.head _), htype]
    exact ⟨hs.head _, rfl⟩

/-- A statement consists of names and separators. -/
theorem mem_afterWord (h : d.WellFormed) {c : Char} (hc : c ∈ d.afterWord) :
    isSeparator c ∨ isNameChar c := by
  rw [afterWord] at hc
  simp only [List.mem_append, List.mem_flatMap] at hc
  rcases hc with hc | hc | hc | ⟨a, ha, hc | hc⟩ | hc
  · cases hclass : d.classSep with
    | none =>
      rw [hclass] at hc
      exact absurd hc List.not_mem_nil
    | some s =>
      rw [hclass] at hc
      rcases List.mem_append.1 hc with hc | hc
      · exact Or.inl ((h.classSep s hclass).2 c hc)
      · have hword : ∀ c ∈ "class".toList, isNameChar c := by decide
        exact Or.inr (hword c hc)
  · exact Or.inl (h.typeSep.2 c hc)
  · exact Or.inr (h.typeName.nameChars c hc)
  · exact Or.inl ((h.aliases a ha).1.2 c hc)
  · exact Or.inr ((h.aliases a ha).2.nameChars c hc)
  · exact Or.inl (h.trail c hc)

/-- So it has no semicolon, and is split into words. -/
theorem notMem_of_subset (h : d.WellFormed) {line : Str}
    (hline : line ⊆ typedefText ++ d.afterWord) :
    ';' ∉ line ∧ split line = Text.words isSeparator line := by
  have key : ∀ c ∈ line, isSeparator c ∨ isNameChar c := by
    intro c hc
    rcases List.mem_append.1 (hline hc) with hc | hc
    · have hword : ∀ c ∈ typedefText, isNameChar c := by decide
      exact Or.inr (hword c hc)
    · exact h.mem_afterWord hc
  refine ⟨fun hc ↦ absurd (key _ hc) (by decide), split_eq fun c hc hmem ↦ ?_⟩
  have hno : ∀ c ∈ ['\x7b', '<', '/', '(', '\x7d'], ¬ (isSeparator c ∨ isNameChar c) := by decide
  exact hno c hmem (key c hc)

/-- **What the statement says** is read at its first word. -/
theorem noteTypeDef_lead (h : d.WellFormed) (m : OrdMap Str Str) :
    noteTypeDef (Statement.typedef d).text m d.lead.length = insertNames d.typeName m d.names := by
  obtain ⟨hsemi, hsplit⟩ := h.notMem_of_subset (List.Subset.refl _)
  obtain ⟨hhead, hwords⟩ := h.words_afterWord
  have hword : ∀ c ∈ typedefText, isSeparator c = false := by decide
  rw [Text.words_append_of_neg hword (by decide) hhead, hwords] at hsplit
  rw [Statement.text, List.append_assoc]
  cases hclass : d.classSep with
  | none =>
    rw [hclass, Option.elim_none, List.nil_append] at hsplit
    cases hnames : d.names with
    | nil =>
      obtain ⟨type, names, hsuffix, hnote⟩ := exists_noteTypeDef_line (m := m) hsemi d.lead
      rw [hsplit, hnames] at hsuffix
      rw [hnote, List.suffix_nil.1 hsuffix]
      rfl
    | cons n names =>
      rw [hnames] at hsplit
      rw [noteTypeDef_line hsemi d.lead hsplit, if_neg (h.typeName_ne hclass)]
  | some s =>
    rw [hclass, Option.elim_some, List.singleton_append] at hsplit
    rw [noteTypeDef_line hsemi d.lead hsplit, if_pos rfl]

/-- **Reading on inside of a name** changes nothing: what would be entered are aliases, and they
have an entry. -/
theorem noteTypeDef_inside (h : d.WellFormed) {m : OrdMap Str Str}
    (hm : ∀ n ∈ d.names, (m.find? n).isSome) {i : ℕ} (hi : i ≤ d.afterWord.length) :
    noteTypeDef (Statement.typedef d).text m (d.lead.length + (typedefText.length + i)) = m := by
  obtain ⟨hsemi, hsplit⟩ := h.notMem_of_subset
    (fun c hc ↦ List.mem_append_right _ (List.mem_of_mem_drop (i := i) hc))
  have htext : (Statement.typedef d).text =
      (d.lead ++ (typedefText ++ d.afterWord.take i)) ++ (d.afterWord.drop i ++ [';']) := by
    simp only [Statement.text, List.append_assoc]
    rw [← List.append_assoc (d.afterWord.take i), List.take_append_drop]
  have hlen : (d.lead ++ (typedefText ++ d.afterWord.take i)).length =
      d.lead.length + (typedefText.length + i) := by
    simp [hi]
  obtain ⟨type, names, hsuffix, hnote⟩ := exists_noteTypeDef_line (m := m) hsemi
    (d.lead ++ (typedefText ++ d.afterWord.take i))
  rw [htext, ← hlen, hnote]
  refine insertNames_of_forall fun n hn ↦ hm n ?_
  rw [hsplit] at hsuffix
  have hn := hsuffix.subset hn
  have hlast := Text.tail_words_suffix (p := isSeparator) (List.drop_suffix i d.afterWord)
  rw [h.words_afterWord.2] at hlast
  cases hclass : d.classSep with
  | none =>
    rw [hclass] at hlast
    exact hlast.subset (List.mem_of_mem_tail hn)
  | some s =>
    rw [hclass] at hlast
    rcases List.suffix_cons_iff.1 hlast with heq | hlast
    · rwa [heq] at hn
    · exact hlast.subset (List.mem_of_mem_tail hn)

/-- Nor do all further occurrences of the word. -/
theorem foldl_noteTypeDef_inside (h : d.WellFormed) {m : OrdMap Str Str}
    (hm : ∀ n ∈ d.names, (m.find? n).isSome) {l : List ℕ}
    (hl : ∀ q ∈ l, d.lead.length + typedefText.length ≤ q ∧
      typedefText <+: (Statement.typedef d).text.drop q) :
    l.foldl (noteTypeDef (Statement.typedef d).text) m = m := by
  have hseven : typedefText.length = 7 := rfl
  have hlen : (Statement.typedef d).text.length =
      d.lead.length + (typedefText.length + d.afterWord.length) + 1 := by
    simp only [Statement.text, List.length_append, List.length_singleton]
  induction l with
  | nil => rfl
  | cons q l ih =>
    obtain ⟨⟨hq, hpre⟩, hrest⟩ := List.forall_mem_cons.1 hl
    have hle := hpre.length_le
    rw [List.length_drop] at hle
    obtain ⟨i, rfl⟩ := Nat.exists_eq_add_of_le hq
    rw [List.foldl_cons, Nat.add_assoc, h.noteTypeDef_inside hm (by omega)]
    exact ih hrest

/-- The statement starts with the word, but for separators. -/
theorem find_typedefText (h : d.WellFormed) :
    CString.find typedefText (Statement.typedef d).text 0 = some d.lead.length := by
  have hlead : 't' ∉ d.lead := fun hmem ↦ absurd (h.lead 't' hmem) (by decide)
  have hfirst := CString.find_of_notMem hlead [] "ypedef".toList (d.afterWord ++ [';'])
  rw [List.nil_append, List.length_nil, Nat.zero_add] at hfirst
  rw [Statement.text, List.append_assoc, List.append_assoc]
  exact hfirst

theorem dealwithTypeDef_text (h : d.WellFormed) (m : OrdMap Str Str) :
    dealwithTypeDef m (Statement.typedef d).text = insertNames d.typeName m d.names := by
  have hocc : CString.occurrences typedefText (Statement.typedef d).text = d.lead.length :: _ :=
    CString.occurrencesFrom_of_find_eq_some h.find_typedefText _
  show (CString.occurrences typedefText (Statement.typedef d).text).foldl _ m = _
  rw [hocc, List.foldl_cons, h.noteTypeDef_lead]
  refine h.foldl_noteTypeDef_inside (fun n hn ↦ ?_)
    fun q hq ↦ CString.isPrefix_of_mem_occurrencesFrom hq
  rw [find?_insertNames, if_pos hn]
  cases m.find? n <;> rfl

end TypeDefinition.WellFormed

/-- A statement is read up to its semicolon. -/
theorem find?_dealwithTypeDef_text {s : Statement} (h : s.WellFormed) (m : OrdMap Str Str)
    (rest key : Str) : ∃ m', dealwithTypeDef m (s.text ++ rest) = dealwithTypeDef m' rest ∧
      m'.find? key = (m.find? key).or (s.typeFor key) := by
  cases s with
  | typedef d =>
    refine ⟨insertNames d.typeName m d.names, ?_, find?_insertNames _ _ _ _⟩
    rw [Statement.text, dealwithTypeDef_append]
    exact congrArg (dealwithTypeDef · rest) (TypeDefinition.WellFormed.dealwithTypeDef_text h m)
  | other s =>
    refine ⟨m, ?_, Option.or_none.symm⟩
    rw [Statement.text, dealwithTypeDef_append, dealwithTypeDef_of_forall (s := s ++ [';'])]
    intro q hpre
    rcases Nat.le_total q s.length with hq | hq
    · rw [List.drop_append_of_le_length hq] at hpre
      refine h.2 q (CString.isPrefix_of_append (fun c hc ↦ ?_) hpre)
      rw [← Option.some.inj hc]
      decide
    · have hlen := hpre.length_le
      have hseven : typedefText.length = 7 := rfl
      rw [List.length_drop, List.length_append, List.length_singleton] at hlen
      omega

/-- **The type definitions of a text of statements.** Started with an empty table, every alias gets
the type of the first statement that declares it, and nothing else gets one. -/
theorem find?_dealwithTypeDef_printStatements {l : List Statement} (hl : ∀ s ∈ l, s.WellFormed)
    {ending : Str} (hending : ∀ q, ¬ typedefText <+: ending.drop q) (key : Str) :
    (dealwithTypeDef ∅ (printStatements l ++ ending)).find? key = l.findSome? (·.typeFor key) := by
  have hrun : ∀ m : OrdMap Str Str, (dealwithTypeDef m (printStatements l ++ ending)).find? key =
      (m.find? key).or (l.findSome? (·.typeFor key)) := by
    induction l with
    | nil =>
      intro m
      rw [printStatements, List.flatMap_nil, List.nil_append, dealwithTypeDef_of_forall hending,
        List.findSome?_nil, Option.or_none]
    | cons s l ih =>
      intro m
      obtain ⟨hs, hl⟩ := List.forall_mem_cons.1 hl
      have hcons : printStatements (s :: l) ++ ending =
          s.text ++ (printStatements l ++ ending) := by
        simp [printStatements]
      obtain ⟨m', hread, hfind⟩ := find?_dealwithTypeDef_text hs m (printStatements l ++ ending) key
      rw [hcons, hread, ih hl, hfind, List.findSome?_cons, Option.or_assoc]
      cases s.typeFor key <;> rfl
  rw [hrun, OrdMap.find?_empty, Option.none_or]

/-- Type definitions whose types and aliases contain the word `typedef`, and another statement. -/
def sampleTypeDefinitions : List Statement :=
  [Statement.typedef ⟨[], some " ".toList, " ".toList, "CClass".toList,
      [("\t\t".toList, "_CCLASS".toList), (",\t\t*".toList, "LPCLASS".toList)], []⟩,
    Statement.other "\nint x".toList,
    Statement.typedef ⟨"\n".toList, none, "\t".toList, "mytypedef".toList,
      [(" ".toList, "A".toList), (", *".toList, "typedef_t".toList), (",".toList, "B".toList),
        (", ".toList, "LPCLASS".toList)], " ".toList⟩]

theorem find?_dealwithTypeDef_printStatements_sampleTypeDefinitions :
    (∀ s ∈ sampleTypeDefinitions, s.WellFormed) ∧
    (dealwithTypeDef ∅ (printStatements sampleTypeDefinitions)).find? "LPCLASS".toList =
      some "CClass".toList ∧
    (dealwithTypeDef ∅ (printStatements sampleTypeDefinitions)).find? "B".toList =
      some "mytypedef".toList := by
  have hwell : ∀ s ∈ sampleTypeDefinitions, s.WellFormed := by
    have hother : (Statement.other "\nint x".toList).WellFormed :=
      ⟨by decide, fun q ↦
        (CString.find_eq_none_iff (by decide)).1 (by decide +kernel) q (Nat.zero_le q)⟩
    intro s hs
    rw [sampleTypeDefinitions, List.mem_cons, List.mem_pair] at hs
    rcases hs with rfl | rfl | rfl
    · show TypeDefinition.WellFormed _
      decide +kernel
    · exact hother
    · show TypeDefinition.WellFormed _
      decide +kernel
  have hending : ∀ q, ¬ typedefText <+: ([] : Str).drop q := fun q h ↦ by
    rw [List.drop_nil, List.prefix_nil] at h
    exact absurd h (by decide)
  have hfind := find?_dealwithTypeDef_printStatements hwell hending
  rw [List.append_nil] at hfind
  exact ⟨hwell, (hfind _).trans (by decide), (hfind _).trans (by decide)⟩

end CArchitecture
