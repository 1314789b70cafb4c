import CArchitecture.SourceText

/-!
# Reading a header

`CReadH` finds the classes that a header defines: every line that starts with `class `. From there
it reads the name, the base classes and the body, each in a loop of its own that walks on to a
delimiter. A forward declaration, whose name is followed by a semicolon, is passed over.

Two of these loops have no other end than the delimiter, so a class that is cut off at the end of
the file ends the program; and so does an include before the first class that is not closed.
Otherwise the reader returns (`isSome_readH_iff`).
-/

namespace CArchitecture

/-- What is stored for a class: its definition, and its base classes, each followed by a blank. -/
structure HeaderClass extends CClassContent where
  fatherclass : Str

/-- A header that has been read. -/
structure HeaderFile where
  globalStr : Str
  headfile : List Str
  /-- Where the first class starts, `-1` if it is missing. -/
  classposition : Option ℕ
  classdef : OrdMap Str HeaderClass

/-! ### One class -/

/-- What a class definition starts with. -/
def classText : Str := "\nclass ".toList

/-- `getclassname`: the letters and digits after the word `class`. The name of a forward declaration
counts as empty. -/
def getclassname (pos : ℕ) (content : Str) : Option Str :=
  let rest := (content.drop (pos + "\nclass".length)).dropWhile isBlank
  match rest.dropWhile isAlnum with
  | [] => none
  | c :: _ => some (if c = ';' then [] else rest.takeWhile isAlnum)

/-- One round of the search for base classes. A `public` at the very end makes the whole answer
empty, one that is not followed by a blank is passed over. -/
def publicRound (defline : Str) (s : Option ℕ × Str) : (Option ℕ × Str) ⊕ Str :=
  match s.1 with
  | none => Sum.inr s.2
  | some start =>
    let further := CString.find "public".toList defline (start + "public".length - 1)
    match defline.drop (start + "public".length) with
    | [] => Sum.inr []
    | c :: rest =>
      if isBlank c then
        match rest.dropWhile isBlank with
        | [] => Sum.inl (further, s.2)
        | d :: rest => Sum.inl (further, s.2 ++ (d :: rest).takeWhile isNameChar ++ [' '])
      else Sum.inl (further, s.2)

/-- `getfatherclassname`: the names after the words `public` up to the body. -/
def getfatherclassname (pos : ℕ) (content : Str) : Option Str := do
  let i ← CString.scan (fun c ↦ c == '\x7b' || c == ';') content (pos + "\nclass".length)
  let defline := CString.substr content (pos + 1) (i - pos - 1)
  Loop.run (publicRound defline) (defline.length + 2)
    (CString.find "public".toList defline 0, [])

/-- `getclassbody`: the text from the word `class` to the end of the body. -/
def getclassbody (pos : ℕ) (content : Str) : Str :=
  match CString.find "\x7b".toList content pos with
  | none => []
  | some bodystart => CString.substr content pos (bodyEnd content bodystart - pos + 1)

/-! ### The header -/

/-- The variables of `getclass`. -/
structure ClassState where
  classposition : Option ℕ := none
  classdef : OrdMap Str HeaderClass := ∅

/-- One round of `getclass`. A class that was stored before keeps its definition. -/
def getclassRound (allContent : Str) (s : ClassState) (pos : ℕ) : Option ClassState := do
  let classname ← getclassname pos allContent
  if classname ≠ [] then do
    let fatherclass ← getfatherclassname pos allContent
    let p : HeaderClass := { defbody := getclassbody pos allContent, fatherclass := fatherclass }
    some
      { classposition := s.classposition.or (some pos)
        classdef := s.classdef.insert classname p }
  else some s

/-- `getclass`. -/
def getclass (allContent : Str) : Option ClassState :=
  (CString.occurrences classText allContent).foldlM (getclassRound allContent) {}

/-- The constructor of `CReadH`, for a file with this content. -/
def readH (allContent : Str) : Option HeaderFile := do
  let s ← getclass allContent
  let headfile ← getheadfile s.classposition allContent
  some
    { globalStr := findGlobal allContent
      headfile := headfile
      classposition := s.classposition
      classdef := s.classdef }

/-! ### When the reader returns -/

/-- The search for base classes always ends: it is further on in the line each time. -/
theorem exists_run_publicRound (defline : Str) (ans : Str) :
    ∃ b, Loop.run (publicRound defline) (defline.length + 2)
      (CString.find "public".toList defline 0, ans) = some b := by
  have hinside : ∀ start, ∀ i ∈ CString.find "public".toList defline start,
      start ≤ i ∧ i < defline.length := fun start i hi ↦ by
    have hend := CString.add_length_le_of_find hi (by decide)
    exact ⟨(CString.of_find_eq_some hi).1, by simp at hend; omega⟩
  -- what is left of the line behind the occurrence
  refine (Loop.exists_run_eq_some (fun s : Option ℕ × Str ↦ ∀ i ∈ s.1, i < defline.length)
    (fun s ↦ s.1.elim 0 fun i ↦ defline.length + 1 - i) (fun _ ↦ True) ?_
    (fun _ _ _ _ ↦ trivial) (fun i hi ↦ (hinside 0 i hi).2) ?_).imp fun _ h ↦ h.1
  · rintro ⟨- | start, ans⟩ ⟨pos', ans'⟩ hlt hround
    · simp [publicRound] at hround
    · have hstart := hlt start rfl
      have hpos : pos' = CString.find "public".toList defline (start + 5) := by
        simp only [publicRound] at hround
        split at hround
        · exact absurd hround Sum.inr_ne_inl
        · split_ifs at hround
          · split at hround
            · exact (Prod.ext_iff.1 (Sum.inl.inj hround)).1.symm
            · exact (Prod.ext_iff.1 (Sum.inl.inj hround)).1.symm
          · exact (Prod.ext_iff.1 (Sum.inl.inj hround)).1.symm
      obtain rfl := hpos
      refine ⟨fun j hj ↦ (hinside _ j hj).2, ?_⟩
      rcases hfind : CString.find "public".toList defline (start + 5) with - | j
      · simp only [Option.elim_none, Option.elim_some]
        omega
      · have hj := hinside _ j hfind
        simp only [Option.elim_some]
        omega
  · cases CString.find "public".toList defline 0 with
    | none => simp
    | some i =>
      simp only [Option.elim_some]
      omega

theorem isSome_getfatherclassname_iff {pos : ℕ} {content : Str} :
    (getfatherclassname pos content).isSome ↔
      ∃ c ∈ content.drop (pos + 6), c = '\x7b' ∨ c = ';' := by
  have hscan := CString.isSome_scan_iff (fun c ↦ c == '\x7b' || c == ';') content (pos + 6)
  simp only [Bool.or_eq_true, beq_iff_eq] at hscan
  rw [← hscan, getfatherclassname]
  show (Option.bind (CString.scan _ content (pos + 6)) _).isSome ↔ _
  cases CString.scan (fun c ↦ c == '\x7b' || c == ';') content (pos + 6) with
  | none => rfl
  | some i =>
    obtain ⟨b, hb⟩ := exists_run_publicRound (CString.substr content (pos + 1) (i - pos - 1)) []
    simp only [Option.bind_some, hb]
    simp

/-- What follows the word `class` at `pos`: the name and whatever comes after it. -/
def afterClass (content : Str) (pos : ℕ) : Str := (content.drop (pos + 6)).dropWhile isBlank

/-- A class that is not cut off: something comes after its name and, if it is not a forward
declaration, a brace or a semicolon comes somewhere behind. -/
def ClassComplete (content : Str) (pos : ℕ) : Prop :=
  ∃ c, ((afterClass content pos).dropWhile isAlnum).head? = some c ∧
    (c ≠ ';' → (afterClass content pos).takeWhile isAlnum ≠ [] →
      ∃ d ∈ content.drop (pos + 6), d = '\x7b' ∨ d = ';')

/-- The class at `pos` is stored: it has a name and is not a forward declaration. -/
def ClassStored (content : Str) (pos : ℕ) : Prop :=
  (afterClass content pos).takeWhile isAlnum ≠ [] ∧
    ((afterClass content pos).dropWhile isAlnum).head? ≠ some ';'

instance (content : Str) (pos : ℕ) : Decidable (ClassStored content pos) :=
  inferInstanceAs (Decidable (_ ∧ _))

/-- Where the first class is that is stored. -/
def firstClass (content : Str) : Option ℕ :=
  (CString.occurrences classText content).find? fun pos ↦ ClassStored content pos

theorem getclassname_eq {content : Str} {pos : ℕ} :
    getclassname pos content = ((afterClass content pos).dropWhile isAlnum).head?.map fun c ↦
      if c = ';' then [] else (afterClass content pos).takeWhile isAlnum := by
  have hrest : (content.drop (pos + "\nclass".length)).dropWhile isBlank = afterClass content pos :=
    rfl
  simp only [getclassname, hrest]
  cases (afterClass content pos).dropWhile isAlnum with
  | nil => rfl
  | cons c rest => rfl

theorem isSome_getclassRound_iff {content : Str} {s : ClassState} {pos : ℕ} :
    (getclassRound content s pos).isSome ↔ ClassComplete content pos := by
  rw [getclassRound, getclassname_eq, ClassComplete]
  cases ((afterClass content pos).dropWhile isAlnum).head? with
  | none => simp
  | some c =>
    simp only [Option.map_some, Option.bind_eq_bind, Option.bind_some, Option.some.injEq,
      exists_eq_left']
    rw [← isSome_getfatherclassname_iff]
    rcases eq_or_ne c ';' with rfl | hc
    · simp
    · rw [if_neg hc]
      rcases eq_or_ne ((afterClass content pos).takeWhile isAlnum) [] with hnil | hne
      · simp [hnil]
      · rw [if_pos hne]
        cases getfatherclassname pos content with
        | none => simp [hc, hne]
        | some f => simp

/-- A round leaves the position of the first class that is stored. -/
theorem classposition_getclassRound {content : Str} {s s' : ClassState} {pos : ℕ}
    (h : getclassRound content s pos = some s') : s'.classposition =
      if ClassStored content pos then s.classposition.or (some pos) else s.classposition := by
  rw [getclassRound, getclassname_eq] at h
  obtain ⟨classname, hname, h⟩ := Option.bind_eq_some_iff.1 h
  obtain ⟨c, hc, rfl⟩ := Option.map_eq_some_iff.1 hname
  have hstored : ClassStored content pos ↔
      (if c = ';' then [] else (afterClass content pos).takeWhile isAlnum) ≠ [] := by
    rw [ClassStored, hc]
    split_ifs with hsemi
    · simp [hsemi]
    · simp [hsemi]
  generalize (if c = ';' then [] else (afterClass content pos).takeWhile isAlnum) = classname at *
  rw [if_congr hstored rfl rfl]
  split_ifs at h ⊢ with hne
  · obtain ⟨f, -, hs'⟩ := Option.bind_eq_some_iff.1 h
    rw [← Option.some.inj hs']
  · rw [Option.some.inj h]

theorem classposition_getclass {content : Str} {s : ClassState} (h : getclass content = some s) :
    s.classposition = firstClass content := by
  have key : ∀ (l : List ℕ) (s s' : ClassState), l.foldlM (getclassRound content) s = some s' →
      s'.classposition = s.classposition.or (l.find? fun pos ↦ ClassStored content pos) := by
    intro l
    induction l with
    | nil =>
      intro s s' h
      rw [← Option.some.inj h, List.find?_nil, Option.or_none]
    | cons pos l ih =>
      intro s s' h
      rw [List.foldlM_cons, Option.bind_eq_bind] at h
      obtain ⟨t, ht, hrest⟩ := Option.bind_eq_some_iff.1 h
      rw [ih t s' hrest, classposition_getclassRound ht, List.find?_cons]
      by_cases hstored : ClassStored content pos
      · rw [if_pos hstored, decide_eq_true hstored, Option.or_assoc, Option.some_or]
      · rw [if_neg hstored, decide_eq_false hstored]
  exact key _ {} s h

/-- **When the reader of headers returns**: no class is cut off, and every include before the first
class that is stored is closed before it. -/
theorem isSome_readH_iff {content : Str} :
    (readH content).isSome ↔
      (∀ pos, classText <+: content.drop pos → ClassComplete content pos) ∧
      IncludesClosed (content.take ((firstClass content).elim 0 (· + 1))) := by
  have hclass : (getclass content).isSome ↔
      ∀ pos, classText <+: content.drop pos → ClassComplete content pos := by
    rw [getclass, Loop.isSome_foldlM_iff (P := ClassComplete content)
      fun s pos _ ↦ isSome_getclassRound_iff]
    exact forall_congr' fun pos ↦ imp_congr_left (CString.mem_occurrences (by decide))
  rw [readH, ← hclass, ← isSome_getheadfile_iff]
  cases hs : getclass content with
  | none => simp
  | some s =>
    rw [Option.bind_eq_bind, Option.bind_some, classposition_getclass hs]
    cases getheadfile (firstClass content) content with
    | none => simp
    | some headfile => simp

/-! ### What the header includes -/

/-- The include directives of a text, from left to right. -/
def includeDirectives (content : Str) : List ℕ :=
  (List.range content.length).filter fun q ↦ includeText.isPrefixOf (content.drop q)

/-- The file that the directive at `q` names. -/
def includedName (content : Str) (q : ℕ) : Str :=
  (content.drop (q + includeText.length)).takeWhile (· ≠ '"')

/-- Every include directive is closed by a quote on its line. -/
def ClosedOnLine (content : Str) : Prop :=
  ∀ q, includeText <+: content.drop q →
    '"' ∈ (content.drop (q + includeText.length)).takeWhile (· ≠ '\n')

section Includes

variable {content : Str}

theorem occurrences_includeText (content : Str) :
    CString.occurrences includeText content = includeDirectives content :=
  CString.occurrences_eq_filter (by decide)

theorem mem_includeDirectives {q : ℕ} :
    q ∈ includeDirectives content ↔ includeText <+: content.drop q := by
  rw [← occurrences_includeText]
  exact CString.mem_occurrences (by decide)

instance (content : Str) : Decidable (ClosedOnLine content) :=
  decidable_of_iff (∀ q ∈ includeDirectives content,
      '"' ∈ (content.drop (q + includeText.length)).takeWhile (· ≠ '\n'))
    (forall_congr' fun _ ↦ imp_congr_left mem_includeDirectives)

/-- The names are taken one directive after the other. -/
theorem eq_of_getheadfile_eq_some {classstart : Option ℕ} {headfile : List Str}
    (h : getheadfile classstart content = some headfile) :
    headfile = (includeDirectives (content.take (classstart.elim 0 (· + 1)))).map
      (includedName (content.take (classstart.elim 0 (· + 1)))) := by
  have key : ∀ (text : Str) (l : List ℕ) (s s' : List Str),
      l.foldlM (takeHeadfile text) s = some s' → s' = s ++ l.map (includedName text) := by
    intro text l
    induction l with
    | nil =>
      intro s s' h
      rw [← Option.some.inj h, List.map_nil, List.append_nil]
    | cons q l ih =>
      intro s s' h
      rw [List.foldlM_cons, Option.bind_eq_bind] at h
      obtain ⟨t, ht, hrest⟩ := Option.bind_eq_some_iff.1 h
      rw [takeHeadfile] at ht
      split_ifs at ht
      rw [ih t s' hrest, ← Option.some.inj ht, List.append_assoc]
      rfl
  rw [← occurrences_includeText]
  exact key _ _ [] headfile h

/-- A directive that is closed on its line is as good in the text up to a line end behind it. -/
theorem directive_take {pos q : ℕ} (hclosed : ClosedOnLine content)
    (hline : content[pos]? = some '\n') (hq : includeText <+: content.drop q) :
    (includeText <+: (content.take (pos + 1)).drop q ↔ q < pos) ∧
      (q < pos → includedName (content.take (pos + 1)) q = includedName content q) := by
  have hten : includeText.length = 10 := rfl
  have hquote := hclosed q hq
  have hbehind : q < pos → q + 10 ≤ pos := by
    intro hlt
    by_contra hno
    obtain ⟨t, ht⟩ := hq
    have hget : (content.drop q)[pos - q]? = some '\n' := by
      rw [List.getElem?_drop, Nat.add_sub_cancel' hlt.le, hline]
    rw [← ht, List.getElem?_append_left (by omega)] at hget
    exact absurd (List.mem_of_getElem? hget) (by decide)
  constructor
  · rw [List.drop_take, List.prefix_take_iff, and_iff_right hq]
    omega
  · intro hlt
    obtain ⟨k, rfl⟩ := Nat.exists_eq_add_of_le (hbehind hlt)
    rw [hten] at hquote
    rw [includedName, includedName, hten, List.drop_take,
      Nat.add_assoc (q + 10), Nat.add_sub_cancel_left]
    generalize hrest : content.drop (q + 10) = rest at hquote ⊢
    have hget : rest[k]? = some '\n' := by
      rw [← hrest, List.getElem?_drop, hline]
    -- the quote comes before the line end
    have hmem : '"' ∈ rest.take (k + 1) := by
      have hnewline : '\n' ∈ rest.take (k + 1) :=
        List.mem_of_getElem? (by rw [List.getElem?_take, if_pos (Nat.lt_succ_self k), hget])
      rw [← List.take_append_drop (k + 1) rest,
        CString.takeWhile_append_of_mem hnewline (by decide)] at hquote
      exact (List.takeWhile_prefix _).subset hquote
    nth_rewrite 2 [← List.take_append_drop (k + 1) rest]
    rw [CString.takeWhile_append_of_mem hmem (by decide)]

theorem newline_of_firstClass {pos : ℕ} (h : firstClass content = some pos) :
    content[pos]? = some '\n' := by
  have hmem := List.mem_of_find?_eq_some h
  exact CString.getElem?_of_isPrefix ((CString.mem_occurrences (by decide)).1 hmem)

end Includes

/-- A header with includes and a class. -/
def sampleIncludes : Str := "#include \"a.h\"\n#include \"b.h\"\nclass A \x7b\x7d;\n".toList

/-- A header that only includes others. -/
def sampleUmbrella : Str := "#include \"a.h\"\n#include \"b.h\"\n".toList

end CArchitecture
