import CArchitecture.ReadH
import Mathlib.Data.List.ReduceOption

/-!
# Reading a printed header

A header that is printed as a list of forward declarations and definitions, each at the start of a
line. Then the reader comes to each of them, and to nothing else. But its three scanners take the
lines apart in their own ways:

* A forward declaration is recognised by a semicolon right behind the name. With a blank in between
  it is stored as a class, with whatever body comes next.
* The base classes are looked for by the word `public`, also inside the names of the class and of
  the bases (`baseNames`). That goes wrong if a class with bases has a name that ends in the word,
  and if the whole line ends in it.

Since `insert` keeps the first entry, neither does harm to a class that was defined before. So the
reader finds the definitions **exactly if no name is stored wrongly before its first definition is
over** (`getclass_printHeader_iff`).
-/

namespace CArchitecture

/-- A name that consists of letters and digits. -/
structure IsWord (X : Str) : Prop where
  ne_nil : X ≠ []
  alnum : ∀ c ∈ X, isAlnum c

instance (X : Str) : Decidable (IsWord X) :=
  decidable_of_iff (X ≠ [] ∧ ∀ c ∈ X, isAlnum c) ⟨fun h ↦ ⟨h.1, h.2⟩, fun h ↦ ⟨h.ne_nil, h.alnum⟩⟩

theorem IsWord.isNameChar {X : Str} (h : IsWord X) {c : Char} (hc : c ∈ X) : isNameChar c := by
  rw [isNameChar_eq, h.alnum c hc, Bool.true_or]

theorem IsWord.not_isBlank {X : Str} (h : IsWord X) {c : Char} (hc : c ∈ X) :
    isBlank c = false :=
  isBlank_eq_false_of_isNameChar (h.isNameChar hc)

/-! ### The search for base classes -/

/-- The word that base classes are looked for by. -/
def publicText : Str := "public".toList

/-- What is taken as a base class from the text behind a `public`. -/
def baseAfter : Str → Str
  | [] => []
  | c :: rest =>
    if isBlank c then
      match rest.dropWhile isBlank with
      | [] => []
      | d :: rest => (d :: rest).takeWhile isNameChar ++ [' ']
    else []

/-- What is taken behind every `public` of a text. A `public` at its end makes the whole answer
empty, whatever was found before. -/
def baseNames : Str → Option Str
  | [] => some []
  | c :: t =>
    if publicText.isPrefixOf (c :: t) then
      if t.drop 5 = [] then none else (baseNames t).map (baseAfter (t.drop 5) ++ ·)
    else baseNames t

section Bases

variable {defline : Str}

/-- Nothing is taken where there is no `public`. -/
theorem baseNames_drop {s q : ℕ} (hsq : s ≤ q)
    (h : ∀ p, s ≤ p → p < q → ¬ publicText <+: defline.drop p) :
    baseNames (defline.drop s) = baseNames (defline.drop q) := by
  induction q, hsq using Nat.le_induction with
  | base => rfl
  | succ q hsq ih =>
    rw [ih fun p hp hlt ↦ h p hp (by omega)]
    rcases Nat.lt_or_ge q defline.length with hlt | hge
    · have hno := h q hsq (Nat.lt_succ_self q)
      rw [List.drop_eq_getElem_cons hlt] at hno ⊢
      rw [baseNames, if_neg (by rwa [List.isPrefixOf_iff_prefix])]
    · rw [List.drop_eq_nil_of_le hge, List.drop_eq_nil_of_le (by omega)]

/-- A `public` in the text. -/
theorem baseNames_of_isPrefix {q : ℕ} (hpre : publicText <+: defline.drop q) :
    baseNames (defline.drop q) =
      if defline.drop (q + 6) = [] then none
      else (baseNames (defline.drop (q + 5))).map (baseAfter (defline.drop (q + 6)) ++ ·) := by
  have hlen := hpre.length_le
  have hsix : publicText.length = 6 := rfl
  rw [List.length_drop] at hlen
  -- the word does not overlap itself
  have hbehind : baseNames (defline.drop (q + 1)) = baseNames (defline.drop (q + 5)) :=
    baseNames_drop (by omega) fun p hp hlt hpre' ↦ by
      have hover := CString.add_length_le_of_isPrefix (by decide : 'p' ∉ "ublic".toList) hpre
        hpre' (by omega)
      have hsix : ('p' :: "ublic".toList).length = 6 := rfl
      omega
  have hcons := List.drop_eq_getElem_cons (show q < defline.length by omega)
  have hinit : publicText.isPrefixOf (defline[q] :: defline.drop (q + 1)) := by
    rw [← hcons, List.isPrefixOf_iff_prefix]
    exact hpre
  rw [hcons, baseNames, if_pos hinit, List.drop_drop, hbehind]

/-- **One round** of the loop over the words `public`. -/
theorem publicRound_some (q : ℕ) (ans : Str) : publicRound defline (some q, ans) =
    if defline.drop (q + 6) = [] then Sum.inr []
    else Sum.inl (CString.find "public".toList defline (q + 5),
      ans ++ baseAfter (defline.drop (q + 6))) := by
  have hlength : "public".length = 6 := rfl
  have hfive : q + 6 - 1 = q + 5 := rfl
  cases hcases : defline.drop (q + 6) with
  | nil => simp only [publicRound, hlength, hcases, if_true]
  | cons c rest =>
    rw [if_neg (List.cons_ne_nil c rest)]
    simp only [publicRound, hlength, hfive, hcases, baseAfter]
    split_ifs
    · cases rest.dropWhile isBlank with
      | nil => simp only [List.append_nil]
      | cons d rest => simp only [List.append_assoc]
    · rw [List.append_nil]

/-- **The loop** over the words `public`, from any position on. -/
theorem run_publicRound {n s : ℕ} (ans : Str) (hs : s ≤ defline.length)
    (hn : defline.length + 1 < s + n) :
    Loop.run (publicRound defline) n (CString.find "public".toList defline s, ans) =
      some ((baseNames (defline.drop s)).elim [] (ans ++ ·)) := by
  induction n generalizing s ans with
  | zero => omega
  | succ n ih =>
    cases hfind : CString.find "public".toList defline s with
    | none =>
      have hnone := (CString.find_eq_none_iff (by decide)).1 hfind
      have hnil : baseNames (defline.drop s) = some [] := by
        rw [baseNames_drop hs fun p hp _ ↦ hnone p hp, List.drop_length, baseNames]
      have hround : publicRound defline (none, ans) = Sum.inr ans := rfl
      rw [hnil, Loop.run_succ_of_inr hround, Option.elim_some, List.append_nil]
    | some q =>
      obtain ⟨hsq, hpre⟩ := CString.of_find_eq_some hfind
      have hend := CString.add_length_le_of_find hfind (by decide)
      have hlen : "public".toList.length = 6 := rfl
      have hbefore := baseNames_drop hsq fun p hp hlt ↦
        CString.not_isPrefix_of_lt_find hfind (by decide) hp hlt
      have hround : publicRound defline (some q, ans) = _ := publicRound_some q ans
      rw [hbefore, baseNames_of_isPrefix hpre]
      split_ifs at hround ⊢ with hnil
      · rw [Loop.run_succ_of_inr hround]
        rfl
      · rw [Loop.run_succ_of_inl hround, ih _ (by omega) (by omega)]
        cases baseNames (defline.drop (q + 5)) <;> simp

/-- **What the base classes are**, in terms of the line from the word `class` to the body. -/
theorem getfatherclassname_eq {pos i : ℕ} {content : Str}
    (hscan : CString.scan (fun c ↦ c == '\x7b' || c == ';') content (pos + 6) = some i) :
    getfatherclassname pos content =
      some ((baseNames (CString.substr content (pos + 1) (i - pos - 1))).getD []) := by
  rw [getfatherclassname]
  show (CString.scan _ content (pos + 6)).bind _ = _
  rw [hscan, Option.bind_some]
  generalize CString.substr content (pos + 1) (i - pos - 1) = defline
  refine (run_publicRound (n := defline.length + 2) (s := 0) [] (Nat.zero_le _) (by omega)).trans ?_
  rw [List.drop_zero]
  cases baseNames defline <;> rfl

/-- Passing a text without the first letter of the word. -/
theorem baseNames_append_of_notMem {u : Str} (hu : 'p' ∉ u) (t : Str) :
    baseNames (u ++ t) = baseNames t := by
  induction u with
  | nil => rfl
  | cons c u ih =>
    rw [List.mem_cons, not_or] at hu
    rw [List.cons_append, baseNames, if_neg, ih hu.2]
    rw [List.isPrefixOf_iff_prefix]
    rintro ⟨v, hv⟩
    exact hu.1 (List.cons.inj hv).1

/-- Passing a word. Something is taken behind it if it ends in `public`. -/
theorem baseNames_word {w t : Str} (hw : ∀ c ∈ w, isAlnum c)
    (hrest : ∀ c ∈ t.head?, isAlnum c = false) :
    (¬ publicText <:+ w → baseNames (w ++ t) = baseNames t) ∧
      (publicText <:+ w → baseNames (w ++ t) =
        if t = [] then none else (baseNames t).map (baseAfter t ++ ·)) := by
  induction w with
  | nil => exact ⟨fun _ ↦ rfl, fun h ↦ absurd (List.suffix_nil.1 h) (by decide)⟩
  | cons c w ih =>
    have ih := ih fun d hd ↦ hw d (List.mem_cons_of_mem _ hd)
    have hcons : publicText <:+ c :: w ↔ publicText = c :: w ∨ publicText <:+ w :=
      List.suffix_cons_iff
    by_cases hpre : publicText <+: c :: w ++ t
    · have hstep : baseNames (c :: w ++ t) = if (w ++ t).drop 5 = [] then none
          else (baseNames (w ++ t)).map (baseAfter ((w ++ t).drop 5) ++ ·) := by
        rw [List.cons_append, baseNames, if_pos (by rwa [List.isPrefixOf_iff_prefix])]
      obtain ⟨v, hv⟩ := CString.isPrefix_of_append (fun d hd hmem ↦ by
        have hletters : ∀ c ∈ publicText, isAlnum c := by decide
        exact Bool.false_ne_true ((hrest d hd).symm.trans (hletters d hmem))) hpre
      have hdrop : (w ++ t).drop 5 = v ++ t := by
        have htail : "ublic".toList ++ v = w := (List.cons.inj hv).2
        rw [← htail, List.append_assoc]
        exact List.drop_left' rfl
      rw [hstep, hdrop]
      cases v with
      | nil =>
        rw [List.append_nil] at hv
        -- behind its first letter the word is no `public` any more
        have hshort : ¬ publicText <:+ w := fun h ↦ by
          have := h.length_le
          rw [hv, List.length_cons] at this
          omega
        rw [ih.1 hshort, List.nil_append]
        exact ⟨fun h ↦ absurd (hcons.2 (Or.inl hv)) h, fun _ ↦ rfl⟩
      | cons d v =>
        have hd : isBlank d = false := by
          refine isBlank_eq_false_of_isNameChar ?_
          rw [isNameChar_eq, hw d (by rw [← hv]; simp), Bool.true_or]
        have hafter : baseAfter (d :: v ++ t) = [] := by
          rw [List.cons_append, baseAfter, if_neg (by simp [hd])]
        have hne : publicText ≠ c :: w := fun h ↦ by
          have := congrArg List.length hv
          rw [← h, List.length_append, List.length_cons] at this
          omega
        have hid : (baseNames (w ++ t)).map ([] ++ ·) = baseNames (w ++ t) := Option.map_id'
        rw [if_neg (List.append_ne_nil_of_left_ne_nil (List.cons_ne_nil d v) t), hafter, hid, hcons,
          or_iff_right hne]
        exact ih
    · have hstep : baseNames (c :: w ++ t) = baseNames (w ++ t) := by
        rw [List.cons_append, baseNames, if_neg (by rwa [List.isPrefixOf_iff_prefix])]
      rw [hstep, hcons, or_iff_right fun heq ↦ hpre (by rw [← heq]; exact List.prefix_append _ _)]
      exact ih

/-- Taking a base class. -/
theorem baseNames_public {B t : Str} (hB : IsWord B) (ht : ∀ c ∈ t.head?, isNameChar c = false) :
    baseNames ("public ".toList ++ (B ++ t)) = (baseNames (B ++ t)).map (B ++ [' '] ++ ·) := by
  obtain ⟨c, B', rfl⟩ := List.exists_cons_of_ne_nil hB.ne_nil
  have htake : (c :: B' ++ t).takeWhile isNameChar = c :: B' :=
    (CString.span_append (fun d hd ↦ hB.isNameChar hd) ht).1
  have hafter : baseAfter (' ' :: (c :: B' ++ t)) = c :: B' ++ [' '] := by
    have hc : isBlank c = false := hB.not_isBlank List.mem_cons_self
    have hdrop : (c :: (B' ++ t)).dropWhile isBlank = c :: (B' ++ t) :=
      List.dropWhile_cons_of_neg (by simp [hc])
    rw [List.cons_append] at htake ⊢
    rw [baseAfter, if_pos (by decide), hdrop, ← htake]
  have hpublic : "public ".toList ++ (c :: B' ++ t) =
      'p' :: ("ublic".toList ++ ' ' :: (c :: B' ++ t)) := rfl
  have hdrop : ("ublic".toList ++ ' ' :: (c :: B' ++ t)).drop 5 = ' ' :: (c :: B' ++ t) := rfl
  have hrest : baseNames ("ublic".toList ++ ' ' :: (c :: B' ++ t)) = baseNames (c :: B' ++ t) :=
    baseNames_append_of_notMem (u := "ublic ".toList) (by decide) _
  have hpre : publicText <+: 'p' :: ("ublic".toList ++ ' ' :: (c :: B' ++ t)) :=
    ⟨' ' :: (c :: B' ++ t), rfl⟩
  rw [hpublic, baseNames, if_pos (List.isPrefixOf_iff_prefix.2 hpre), hdrop,
    if_neg (List.cons_ne_nil _ _), hrest, hafter]

/-- Nothing is taken from blanks. -/
theorem baseNames_blanks {gap : Str} (hgap : ∀ c ∈ gap, isBlank c) :
    baseNames gap = some [] ∧ baseAfter gap = [] := by
  constructor
  · have h := baseNames_append_of_notMem (u := gap)
      (fun hp ↦ absurd (hgap 'p' hp) (by decide)) []
    rw [List.append_nil] at h
    rw [h, baseNames]
  · cases gap with
    | nil => rfl
    | cons c rest =>
      have hdrop : rest.dropWhile isBlank = [] :=
        List.dropWhile_eq_nil_iff.2 fun d hd ↦ hgap d (List.mem_cons_of_mem _ hd)
      simp only [baseAfter, hdrop]
      split_ifs <;> rfl

/-- A base class and what comes after it. It does harm if it ends in `public` and nothing comes
after it. -/
theorem baseNames_base {B t : Str} (hB : IsWord B) (ht : ∀ c ∈ t.head?, isNameChar c = false)
    (hafter : baseAfter t = []) :
    baseNames ("public ".toList ++ (B ++ t)) = if t = [] ∧ publicText <:+ B then none
      else (baseNames t).map (B ++ [' '] ++ ·) := by
  have hword := baseNames_word hB.alnum fun c hc ↦ by
    have hc := ht c hc
    rw [isNameChar_eq, Bool.or_eq_false_iff] at hc
    exact hc.1
  rw [baseNames_public hB ht]
  by_cases hsuffix : publicText <:+ B
  · rw [hword.2 hsuffix, hafter]
    by_cases hnil : t = []
    · rw [if_pos hnil, if_pos ⟨hnil, hsuffix⟩, Option.map_none]
    · have hid : (baseNames t).map ([] ++ ·) = baseNames t := Option.map_id'
      rw [if_neg hnil, if_neg fun h ↦ hnil h.1, hid]
  · rw [hword.1 hsuffix, if_neg fun h ↦ hsuffix h.2]

/-- The bases of a class after the first one, as they are printed. -/
def furtherBases (Bs : List Str) : Str := Bs.flatMap (", public ".toList ++ ·)

/-- The bases of a list are taken one after the other. Only one that ends in `public` does harm, at
the very end of the line. -/
theorem baseNames_bases {gap : Str} (hgap : ∀ c ∈ gap, isBlank c) {Bs : List Str} {B : Str}
    (hBs : ∀ X ∈ B :: Bs, IsWord X) :
    baseNames ("public ".toList ++ (B ++ (furtherBases Bs ++ gap))) =
      if gap = [] ∧ publicText <:+ (B :: Bs).getLast (List.cons_ne_nil B Bs) then none
      else some ((B :: Bs).flatMap (· ++ [' '])) := by
  obtain ⟨hnames, hafter⟩ := baseNames_blanks hgap
  induction Bs generalizing B with
  | nil =>
    have hhead : ∀ c ∈ gap.head?, isNameChar c = false := fun c hc ↦
      isNameChar_eq_false_of_isBlank (hgap c (List.mem_of_mem_head? hc))
    have hbase := baseNames_base (hBs B List.mem_cons_self) hhead hafter
    rw [hnames] at hbase
    refine hbase.trans ?_
    simp
  | cons C Cs ih =>
    obtain ⟨hB, hCs⟩ := List.forall_mem_cons.1 hBs
    have htext : furtherBases (C :: Cs) ++ gap =
        ", ".toList ++ ("public ".toList ++ (C ++ (furtherBases Cs ++ gap))) := by
      simp [furtherBases]
    have hbase := baseNames_base hB (t := furtherBases (C :: Cs) ++ gap)
      (fun c hc ↦ by
        rw [htext] at hc
        obtain rfl := Option.some.inj hc
        decide)
      (by rw [htext]; rfl)
    rw [hbase, if_neg (by rw [htext]; simp), htext, baseNames_append_of_notMem (by decide),
      ih hCs, List.getLast_cons (List.cons_ne_nil C Cs)]
    split_ifs with hlast
    · rfl
    · simp

end Bases

/-! ### The printed header -/

/-- What a header is printed from: forward declarations `class X;`, possibly with blanks before the
semicolon, and definitions `class X : public B, public C {…};`. -/
inductive HeaderItem
  | forward (name blanks : Str)
  | definition (name : Str) (bases : List Str) (gap body : Str)

namespace HeaderItem

/-- The name that is declared. -/
def name : HeaderItem → Str
  | forward name _ => name
  | definition name _ _ _ => name

/-- The base list, as it is printed behind the name. -/
def basesText : List Str → Str
  | [] => []
  | B :: Bs => " : public ".toList ++ (B ++ furtherBases Bs)

theorem basesText_cons (B : Str) (Bs : List Str) :
    basesText (B :: Bs) = " : public ".toList ++ (B ++ furtherBases Bs) := rfl

/-- What comes between the word `class` and the semicolon or the brace. -/
def afterName : HeaderItem → Str
  | forward _ blanks => blanks
  | definition _ bases gap _ => basesText bases ++ gap

/-- The line up to the semicolon or the brace. -/
def defline (it : HeaderItem) : Str := "class ".toList ++ (it.name ++ it.afterName)

theorem defline_eq (it : HeaderItem) :
    it.defline = "class ".toList ++ (it.name ++ it.afterName) := rfl

theorem length_defline (it : HeaderItem) :
    it.defline.length = 6 + (it.name ++ it.afterName).length := by
  rw [defline_eq, List.length_append]
  rfl

/-- The semicolon, or the body and the semicolon behind it. -/
def ending : HeaderItem → Str
  | forward _ _ => [';']
  | definition _ _ _ body => '\x7b' :: (body ++ ['\x7d', ';'])

/-- A forward declaration that is recognised. -/
def passedOver : HeaderItem → Bool
  | forward _ blanks => blanks.isEmpty
  | definition _ _ _ _ => false

/-- The text of an item. -/
def text (it : HeaderItem) : Str := it.defline ++ it.ending

/-- Names are letters and digits. The braces of a body match, and none of its lines starts with
`class `. -/
def WellFormed : HeaderItem → Prop
  | forward name blanks => IsWord name ∧ ∀ c ∈ blanks, isBlank c
  | definition name bases gap body => IsWord name ∧ (∀ B ∈ bases, IsWord B) ∧
      (∀ c ∈ gap, isBlank c) ∧ Balanced body ∧ ∀ q, ¬ classText <+: body.drop q

instance (body : Str) : Decidable (∀ q, ¬ classText <+: body.drop q) :=
  decidable_of_iff (CString.find classText body 0 = none)
    ((CString.find_eq_none_iff (by decide)).trans (forall_congr' fun q ↦ by simp))

instance : (it : HeaderItem) → Decidable it.WellFormed
  | forward _ _ => inferInstanceAs (Decidable (_ ∧ _))
  | definition _ _ _ _ => inferInstanceAs (Decidable (_ ∧ _))

/-- The text of a definition through its matching brace, with the line end before it. -/
def definedText (name : Str) (bases : List Str) (gap body : Str) : Str :=
  '\n' :: ((definition name bases gap body).defline ++ '\x7b' :: (body ++ ['\x7d']))

/-- What a definition says of its class: its text, and its bases in order, each followed by a
blank. -/
def content : HeaderItem → Option (Str × HeaderClass)
  | forward _ _ => none
  | definition name bases gap body =>
    some (name, ⟨⟨definedText name bases gap body⟩, bases.flatMap (· ++ [' '])⟩)

end HeaderItem

/-- Each item on a line of its own. -/
def printHeader (items : List HeaderItem) : Str := items.flatMap ('\n' :: ·.text)

namespace HeaderItem.WellFormed

variable {it : HeaderItem}

theorem isWord_name (h : it.WellFormed) : IsWord it.name := by
  cases it with
  | forward name blanks => exact h.1
  | definition name bases gap body => exact h.1

/-- What the line up to the semicolon or the brace is made of. -/
theorem of_mem_defline (h : it.WellFormed) {c : Char} (hc : c ∈ it.defline) :
    isAlnum c ∨ isBlank c ∨ c = ':' ∨ c = ',' := by
  have hword : ∀ X, IsWord X → c ∈ X → isAlnum c ∨ isBlank c ∨ c = ':' ∨ c = ',' :=
    fun X hX hmem ↦ Or.inl (hX.alnum c hmem)
  have hpublic : ∀ d ∈ "class ".toList ++ " : public ".toList ++ ", public ".toList,
      isAlnum d ∨ isBlank d ∨ d = ':' ∨ d = ',' := by decide
  simp only [HeaderItem.defline_eq, List.mem_append] at hc
  rcases hc with hc | hc | hc
  · exact hpublic c (by simp only [List.mem_append, hc, true_or])
  · exact hword _ h.isWord_name hc
  · cases it with
    | forward name blanks => exact Or.inr (Or.inl (h.2 c hc))
    | definition name bases gap body =>
      obtain ⟨-, hbases, hgap, -⟩ := h
      have hc : c ∈ HeaderItem.basesText bases ++ gap := hc
      rcases List.mem_append.1 hc with hc | hc
      · cases bases with
        | nil =>
          have hc : c ∈ ([] : Str) := hc
          exact absurd hc List.not_mem_nil
        | cons B Bs =>
          rw [HeaderItem.basesText_cons] at hc
          simp only [List.mem_append, furtherBases, List.mem_flatMap] at hc
          rcases hc with hc | hc | ⟨C, hC, hc | hc⟩
          · exact hpublic c (by simp only [List.mem_append, hc, or_true, true_or])
          · exact hword B (hbases B List.mem_cons_self) hc
          · exact hpublic c (by simp only [List.mem_append, hc, or_true])
          · exact hword C (hbases C (List.mem_cons_of_mem _ hC)) hc
      · exact Or.inr (Or.inl (hgap c hc))

theorem notMem_defline (h : it.WellFormed) :
    '\x7b' ∉ it.defline ∧ ';' ∉ it.defline ∧ '\n' ∉ it.defline :=
  ⟨fun hc ↦ absurd (h.of_mem_defline hc) (by decide),
    fun hc ↦ absurd (h.of_mem_defline hc) (by decide),
    fun hc ↦ absurd (h.of_mem_defline hc) (by decide)⟩

/-- Behind the name comes no letter and no digit; and a semicolon only in a forward declaration
without blanks. -/
theorem exists_afterName (h : it.WellFormed) (tail : Str) :
    ∃ c rest, it.afterName ++ (it.ending ++ tail) = c :: rest ∧ isAlnum c = false ∧
      (c = ';' ↔ it.passedOver = true) := by
  have hblank : ∀ c, isBlank c → isAlnum c = false ∧ c ≠ ';' := by
    intro c hc
    refine ⟨isAlnum_eq_false_of_isBlank hc, ?_⟩
    rintro rfl
    exact absurd hc (by decide)
  cases it with
  | forward name blanks =>
    cases blanks with
    | nil => exact ⟨';', tail, rfl, by decide, by simp [HeaderItem.passedOver]⟩
    | cons c blanks =>
      obtain ⟨halnum, hsemi⟩ := hblank c (h.2 c List.mem_cons_self)
      exact ⟨c, _, rfl, halnum, by simp [HeaderItem.passedOver, hsemi]⟩
  | definition name bases gap body =>
    cases bases with
    | nil =>
      cases gap with
      | nil => exact ⟨'\x7b', _, rfl, by decide, by simp [HeaderItem.passedOver]⟩
      | cons c gap =>
        obtain ⟨halnum, hsemi⟩ := hblank c (h.2.2.1 c List.mem_cons_self)
        exact ⟨c, _, rfl, halnum, by simp [HeaderItem.passedOver, hsemi]⟩
    | cons B Bs => exact ⟨' ', _, rfl, by decide, by simp [HeaderItem.passedOver]⟩

end HeaderItem.WellFormed

/-- The text `content` has the item `it` as a line after the text `p`. -/
structure ItemAt (content p : Str) (it : HeaderItem) (tail : Str) : Prop where
  wellFormed : it.WellFormed
  content_eq : content = p ++ '\n' :: (it.text ++ tail)

namespace ItemAt

variable {content p tail : Str} {it : HeaderItem}

theorem drop_eq (h : ItemAt content p it tail) : content.drop (p.length + 6) =
    ' ' :: (it.name ++ (it.afterName ++ (it.ending ++ tail))) := by
  rw [h.content_eq, List.drop_length_add_append, HeaderItem.text, HeaderItem.defline_eq]
  simp

theorem classname_eq (h : ItemAt content p it tail) :
    getclassname p.length content = some (if it.passedOver then [] else it.name) := by
  have hname := h.wellFormed.isWord_name
  obtain ⟨c, rest, hrest, hc, hsemi⟩ := h.wellFormed.exists_afterName tail
  have hafter : afterClass content p.length = it.name ++ c :: rest := by
    obtain ⟨d, X, hX⟩ := List.exists_cons_of_ne_nil hname.ne_nil
    rw [afterClass, h.drop_eq, List.dropWhile_cons_of_pos (by decide), hrest, hX,
      List.cons_append, List.dropWhile_cons_of_neg]
    rw [hname.not_isBlank (hX ▸ List.mem_cons_self)]
    exact Bool.false_ne_true
  obtain ⟨htake, hdrop⟩ := CString.span_append (b := c :: rest) hname.alnum fun d hd ↦ by
    rw [← Option.some.inj hd]
    exact hc
  rw [getclassname_eq, hafter, htake, hdrop, List.head?_cons, Option.map_some,
    if_congr hsemi rfl rfl]

theorem fatherclass_eq (h : ItemAt content p it tail) :
    getfatherclassname p.length content = some ((baseNames it.defline).getD []) := by
  obtain ⟨hbrace, hsemi, -⟩ := h.wellFormed.notMem_defline
  obtain ⟨c, rest, hrest, hc⟩ : ∃ c rest, it.ending ++ tail = c :: rest ∧
      (c == '\x7b' || c == ';') = true := by
    cases it with
    | forward name blanks => exact ⟨';', _, rfl, rfl⟩
    | definition name bases gap body => exact ⟨'\x7b', _, rfl, rfl⟩
  have hcontent : content = (p ++ '\n' :: it.defline) ++ c :: rest := by
    rw [h.content_eq, HeaderItem.text, List.append_assoc, hrest]
    simp
  have hlen : (p ++ '\n' :: it.defline).length = p.length + 1 + it.defline.length := by
    simp
    omega
  have hclass := it.length_defline
  have hscan : CString.scan (fun c ↦ c == '\x7b' || c == ';') content (p.length + 6) =
      some (p ++ '\n' :: it.defline).length := by
    rw [hcontent]
    refine CString.scan_append (by omega) (fun d hd ↦ ?_) hc
    rw [List.drop_length_add_append] at hd
    have hd : d ∈ it.defline := List.mem_of_mem_drop (i := 5) hd
    rw [Bool.or_eq_false_iff, beq_eq_false_iff_ne, beq_eq_false_iff_ne]
    exact ⟨ne_of_mem_of_not_mem hd hbrace, ne_of_mem_of_not_mem hd hsemi⟩
  have hsubstr : CString.substr content (p.length + 1)
      ((p ++ '\n' :: it.defline).length - p.length - 1) = it.defline := by
    have hdrop : content.drop (p.length + 1) = it.defline ++ c :: rest := by
      rw [hcontent, List.append_assoc, List.drop_length_add_append]
      rfl
    rw [CString.substr, hdrop]
    exact List.take_left' (by omega)
  rw [getfatherclassname_eq hscan, hsubstr]

/-- The body of a definition is read as it was printed. -/
theorem classbody_eq {name : Str} {bases : List Str} {gap body : Str}
    (h : ItemAt content p (HeaderItem.definition name bases gap body) tail) :
    getclassbody p.length content = HeaderItem.definedText name bases gap body := by
  rw [HeaderItem.definedText]
  obtain ⟨hbrace, -, -⟩ := h.wellFormed.notMem_defline
  obtain ⟨hwell, hcontent⟩ := h
  generalize hline : (HeaderItem.definition name bases gap body).defline = line at hbrace ⊢
  have hcontent : content = p ++ (('\n' :: line) ++ ("\x7b".toList ++
      (body ++ '\x7d' :: (';' :: tail)))) := by
    rw [hcontent, HeaderItem.text, hline, HeaderItem.ending]
    simp
  have hnotMem : '\x7b' ∉ '\n' :: line := by
    rw [List.mem_cons, not_or]
    exact ⟨by decide, hbrace⟩
  have hfind : CString.find "\x7b".toList content p.length =
      some (p.length + ('\n' :: line).length) := by
    rw [hcontent]
    exact CString.find_of_notMem hnotMem p [] _
  have hdrop : content.drop (p.length + ('\n' :: line).length + 1) =
      body ++ '\x7d' :: (';' :: tail) := by
    rw [hcontent, Nat.add_assoc, List.drop_length_add_append, List.drop_length_add_append]
    rfl
  have hend : bodyEnd content (p.length + ('\n' :: line).length) =
      p.length + ('\n' :: line).length + 1 + body.length := by
    rw [bodyEnd, hdrop, hwell.2.2.2.1.closing_eq]
  simp only [getclassbody, hfind, hend, CString.substr]
  rw [hcontent, List.drop_left]
  have hsplit : '\n' :: line ++ ("\x7b".toList ++ (body ++ '\x7d' :: ';' :: tail)) =
      ('\n' :: (line ++ '\x7b' :: (body ++ ['\x7d']))) ++ (';' :: tail) := by simp
  rw [hsplit]
  refine List.take_left' ?_
  simp
  omega

/-- A forward declaration that is taken for a class has the semicolon in its body, or none. -/
theorem classbody_forward {name blanks : Str}
    (h : ItemAt content p (HeaderItem.forward name blanks) tail) :
    getclassbody p.length content = [] ∨
      '\n' :: (HeaderItem.forward name blanks).text <+: getclassbody p.length content := by
  obtain ⟨hbrace, -, -⟩ := h.wellFormed.notMem_defline
  obtain ⟨hwell, hcontent⟩ := h
  generalize hline : (HeaderItem.forward name blanks).text = line at hcontent ⊢
  have hnotMem : '\x7b' ∉ '\n' :: line := by
    rw [← hline, HeaderItem.text, HeaderItem.ending]
    simp [hbrace]
  cases hfind : CString.find "\x7b".toList content p.length with
  | none =>
    left
    simp only [getclassbody, hfind]
  | some i =>
    right
    obtain ⟨hle, hpre⟩ := CString.of_find_eq_some hfind
    have hget := CString.getElem?_of_isPrefix hpre
    have hbehind : p.length + ('\n' :: line).length ≤ i := by
      by_contra hlt
      rw [hcontent, List.getElem?_append_right hle, ← List.cons_append,
        List.getElem?_append_left (by omega)] at hget
      exact hnotMem (List.mem_of_getElem? hget)
    have hend := lt_bodyEnd content i
    simp only [getclassbody, hfind, CString.substr]
    rw [hcontent, List.drop_left, ← hcontent, List.prefix_take_iff]
    exact ⟨List.prefix_append ('\n' :: line) tail, by omega⟩

/-- Inside of a line no other class starts. -/
theorem not_isPrefix (h : ItemAt content p it tail) {q : ℕ} (hq : p.length < q)
    (hlt : q < p.length + 1 + it.text.length) : ¬ classText <+: content.drop q := by
  intro hpre
  obtain ⟨i, rfl⟩ : ∃ i, q = p.length + (1 + i) := ⟨q - p.length - 1, by omega⟩
  have hdrop : content.drop (p.length + (1 + i)) = it.text.drop i ++ tail := by
    rw [h.content_eq, List.drop_length_add_append, Nat.add_comm 1 i, List.drop_succ_cons,
      List.drop_append_of_le_length (by omega)]
  have hnewline := CString.getElem?_of_isPrefix hpre
  obtain ⟨-, -, hline⟩ := h.wellFormed.notMem_defline
  rw [← List.head?_drop, hdrop, List.head?_append_of_ne_nil _ (by simp; omega), List.head?_drop,
    HeaderItem.text] at hnewline
  rcases Nat.lt_or_ge i it.defline.length with hi | hi
  · rw [List.getElem?_append_left hi] at hnewline
    exact hline (List.mem_of_getElem? hnewline)
  · rw [List.getElem?_append_right hi] at hnewline
    rw [hdrop, HeaderItem.text, List.drop_append, List.drop_eq_nil_of_le hi,
      List.nil_append] at hpre
    generalize i - it.defline.length = j at hnewline hpre
    cases it with
    | forward name blanks =>
      cases j with
      | zero => exact absurd (Option.some.inj hnewline) (by decide)
      | succ j => exact absurd hnewline (by simp [HeaderItem.ending])
    | definition name bases gap body =>
      cases j with
      | zero => exact absurd (Option.some.inj hnewline) (by decide)
      | succ j =>
        -- only the body has lines, and none of them starts with the word
        obtain ⟨-, -, -, -, hbody⟩ := h.wellFormed
        have hpre : classText <+: (body ++ ['\x7d', ';']).drop j ++ tail := hpre
        have hnewline : (body ++ ['\x7d', ';'])[j]? = some '\n' := hnewline
        have hj : j < body.length := by
          by_contra hge
          rw [List.getElem?_append_right (by omega)] at hnewline
          exact absurd (List.mem_of_getElem? hnewline) (by decide)
        rw [List.drop_append_of_le_length hj.le, List.append_assoc] at hpre
        refine hbody j (CString.isPrefix_of_append (fun c hc ↦ ?_) hpre)
        rw [← Option.some.inj hc]
        decide

end ItemAt

/-! ### What is stored -/

/-- The entry that the reader makes for an item: none if it is passed over, and for a forward
declaration that is not recognised one with a semicolon in the body, or without a body. -/
inductive Stores : HeaderItem → Option (Str × HeaderClass) → Prop
  | passed (name : Str) : Stores (HeaderItem.forward name []) none
  | forward (name : Str) {blanks : Str} (hne : blanks ≠ []) {p : HeaderClass}
      (hbody : p.defbody = [] ∨ '\n' :: (HeaderItem.forward name blanks).text <+: p.defbody) :
      Stores (HeaderItem.forward name blanks) (some (name, p))
  | definition (name : Str) (bases : List Str) (gap body : Str) :
      Stores (HeaderItem.definition name bases gap body)
        (some (name, ⟨⟨HeaderItem.definedText name bases gap body⟩,
          (baseNames (HeaderItem.definition name bases gap body).defline).getD []⟩))

/-- **One round** of `getclass`. -/
theorem ItemAt.exists_getclassRound {content p tail : Str} {it : HeaderItem}
    (h : ItemAt content p it tail) (s : ClassState) :
    ∃ e s', Stores it e ∧ getclassRound content s p.length = some s' ∧
      s'.classdef = s.classdef.insertMany e.toList := by
  have hname := h.wellFormed.isWord_name.ne_nil
  have hround : getclassRound content s p.length =
      if it.passedOver then some s
      else some ⟨s.classposition.or (some p.length), s.classdef.insert it.name
        ⟨⟨getclassbody p.length content⟩, (baseNames it.defline).getD []⟩⟩ := by
    rw [getclassRound, h.classname_eq, h.fatherclass_eq]
    cases it.passedOver with
    | true => rfl
    | false => exact if_pos hname
  rw [hround]
  cases it with
  | forward name blanks =>
    cases blanks with
    | nil => exact ⟨none, s, Stores.passed name, rfl, rfl⟩
    | cons c blanks =>
      exact ⟨_, _, Stores.forward name (List.cons_ne_nil c blanks) h.classbody_forward, rfl, rfl⟩
  | definition name bases gap body =>
    rw [h.classbody_eq]
    exact ⟨_, _, Stores.definition name bases gap body, rfl, rfl⟩

theorem printHeader_cons (it : HeaderItem) (items : List HeaderItem) :
    printHeader (it :: items) = '\n' :: (it.text ++ printHeader items) := by
  simp [printHeader]

/-- **From item to item.** -/
theorem exists_foldlM_getclassRound {content : Str} {items : List HeaderItem} {ending : Str}
    (hitems : ∀ it ∈ items, it.WellFormed) (hending : ∀ c ∈ ending, c = '\n') {p : Str} {n k : ℕ}
    (hcontent : content = p ++ (printHeader items ++ ending)) (hk : k ≤ p.length)
    (hn : content.length < k + n)
    (hbefore : ∀ q, k ≤ q → q < p.length → ¬ classText <+: content.drop q)
    (s : ClassState) :
    ∃ es s', List.Forall₂ Stores items es ∧
      (CString.occurrencesFrom classText content n k).foldlM (getclassRound content) s = some s' ∧
      s'.classdef = s.classdef.insertMany es.reduceOption := by
  have hne : classText ≠ [] := by decide
  induction items generalizing p n k s with
  | nil =>
    have hnone : CString.find classText content k = none := by
      rw [CString.find_eq_none_iff hne]
      intro q hq hpre
      rcases Nat.lt_or_ge q p.length with hlt | hge
      · exact hbefore q hq hlt hpre
      · have hmem : 'c' ∈ content.drop q := hpre.subset (by decide)
        obtain ⟨i, rfl⟩ := Nat.exists_eq_add_of_le hge
        rw [hcontent, List.drop_length_add_append] at hmem
        exact absurd (hending 'c' (List.mem_of_mem_drop hmem)) (by decide)
    rw [CString.occurrencesFrom_of_find_eq_none hnone]
    exact ⟨[], s, List.Forall₂.nil, rfl, rfl⟩
  | cons it items ih =>
    have hat : ItemAt content p it (printHeader items ++ ending) :=
      ⟨hitems it List.mem_cons_self, by rw [hcontent, printHeader_cons]; simp⟩
    have hlen : (p ++ '\n' :: it.text).length = p.length + 1 + it.text.length := by
      simp
      omega
    have hpre : classText <+: content.drop p.length := by
      have hword : classText = '\n' :: "class ".toList := rfl
      rw [hat.content_eq, List.drop_left, HeaderItem.text, HeaderItem.defline_eq, hword,
        List.prefix_cons_inj, List.append_assoc, List.append_assoc]
      exact List.prefix_append _ _
    have hfind : CString.find classText content k = some p.length :=
      CString.find_eq_some_of_forall hne hk hpre hbefore
    obtain ⟨n, rfl⟩ : ∃ n', n = n' + 1 := ⟨n - 1, by
      have := congrArg List.length hcontent
      rw [List.length_append] at this
      omega⟩
    obtain ⟨e, t, he, ht, htclass⟩ := hat.exists_getclassRound s
    have hseven : classText.length = 7 := rfl
    have hbehind : p.length + classText.length ≤ (p ++ '\n' :: it.text).length := by
      rw [hlen, HeaderItem.text, List.length_append, HeaderItem.length_defline]
      omega
    obtain ⟨es, s', hes, hs', hclass⟩ := ih (fun it' h ↦ hitems it' (List.mem_cons_of_mem _ h))
      (p := p ++ '\n' :: it.text) (n := n) (k := p.length + classText.length)
      (by rw [hat.content_eq]; simp) hbehind (by omega)
      (fun q hq hlt ↦ hat.not_isPrefix (by omega) (by omega)) t
    refine ⟨e :: es, s', List.Forall₂.cons he hes, ?_, ?_⟩
    · rw [CString.occurrencesFrom_of_find_eq_some hfind]
      simp only [List.foldlM_cons, ht, Option.bind_eq_bind, Option.bind_some, hs']
    · rw [hclass, htclass, ← OrdMap.insertMany_append]
      congr 1
      cases e <;> rfl

/-! ### What is found -/

/-- What the definition of the class `key` says, if there is one: the first one counts. -/
def definitionOf (items : List HeaderItem) (key : Str) : Option HeaderClass :=
  OrdMap.lookupIn key (items.filterMap HeaderItem.content)

theorem definitionOf_forward (name blanks : Str) (items : List HeaderItem) (key : Str) :
    definitionOf (HeaderItem.forward name blanks :: items) key = definitionOf items key := rfl

theorem definitionOf_definition_self (name : Str) (bases : List Str) (gap body : Str)
    (items : List HeaderItem) :
    definitionOf (HeaderItem.definition name bases gap body :: items) name =
      some ⟨⟨HeaderItem.definedText name bases gap body⟩, bases.flatMap (· ++ [' '])⟩ :=
  OrdMap.lookupIn_cons_self _ _ _

theorem definitionOf_definition_of_ne {name key : Str} (hne : key ≠ name) (bases : List Str)
    (gap body : Str) (items : List HeaderItem) :
    definitionOf (HeaderItem.definition name bases gap body :: items) key =
      definitionOf items key :=
  OrdMap.lookupIn_cons_of_ne hne _ _

theorem mem_of_definitionOf {items : List HeaderItem} {key : Str} {c : HeaderClass}
    (h : definitionOf items key = some c) : ∃ bases gap body,
      HeaderItem.definition key bases gap body ∈ items ∧
        c.defbody = HeaderItem.definedText key bases gap body := by
  induction items with
  | nil => exact absurd h (by simp [definitionOf, OrdMap.lookupIn])
  | cons it items ih =>
    cases it with
    | forward name blanks =>
      rw [definitionOf_forward] at h
      obtain ⟨bases, gap, body, hmem, htext⟩ := ih h
      exact ⟨bases, gap, body, List.mem_cons_of_mem _ hmem, htext⟩
    | definition name bases gap body =>
      by_cases hkey : key = name
      · obtain rfl := hkey
        rw [definitionOf_definition_self] at h
        exact ⟨bases, gap, body, List.mem_cons_self, by rw [← Option.some.inj h]⟩
      · rw [definitionOf_definition_of_ne hkey] at h
        obtain ⟨bases', gap', body', hmem, htext⟩ := ih h
        exact ⟨bases', gap', body', List.mem_cons_of_mem _ hmem, htext⟩

/-- The text of a definition is not that of a forward declaration. -/
theorem HeaderItem.WellFormed.not_isPrefix_definedText {name : Str} {bases : List Str}
    {gap body blanks : Str} (h : (HeaderItem.definition name bases gap body).WellFormed)
    (hforward : (HeaderItem.forward name blanks).WellFormed) :
    ¬ (definedText name bases gap body = [] ∨
      '\n' :: (HeaderItem.forward name blanks).text <+: definedText name bases gap body) := by
  obtain ⟨-, -, hgap, -⟩ := h
  obtain ⟨-, hblanks⟩ := hforward
  rintro (hnil | hpre)
  · exact List.cons_ne_nil _ _ hnil
  · rw [definedText, List.prefix_cons_inj, HeaderItem.text, defline_eq, defline_eq] at hpre
    simp only [List.append_assoc, List.prefix_append_right_inj] at hpre
    obtain ⟨t, ht⟩ := (List.prefix_append_right_inj name).1 hpre
    -- behind the blanks comes a semicolon, or else a colon or a brace
    have hsemi := congrArg (fun s ↦ (s.dropWhile isBlank).head?) ht
    have hleft : ((blanks ++ ([';'] : Str) ++ t).dropWhile isBlank).head? = some ';' := by
      rw [List.append_assoc, List.dropWhile_append_of_pos hblanks]
      rfl
    have hsemi := hleft.symm.trans hsemi
    cases bases with
    | nil =>
      have hright : ((gap ++ '\x7b' :: (body ++ ['\x7d'])).dropWhile isBlank).head? =
          some '\x7b' := by
        rw [List.dropWhile_append_of_pos hgap]
        rfl
      exact absurd (hsemi.trans hright) (by decide)
    | cons B Bs =>
      have hcolon : some ';' = some ':' := hsemi
      exact absurd hcolon (by decide)

/-- The base list is read as it was printed: there is none, or the word `public` ends neither the
name of the class nor the line. -/
def BasesFound (name : Str) (bases : List Str) (gap : Str) : Prop :=
  bases = [] ∨ ¬ publicText <:+ name ∧ (gap = [] → ∀ B ∈ bases.getLast?, ¬ publicText <:+ B)

/-- Until a class is defined, no forward declaration of it has a blank before the semicolon; and the
base list of its first definition is found. `seen` are the classes that were defined before. -/
def ReadsRight : List Str → List HeaderItem → Prop
  | _, [] => True
  | seen, HeaderItem.forward name blanks :: items =>
    (name ∈ seen ∨ blanks = []) ∧ ReadsRight seen items
  | seen, HeaderItem.definition name bases gap _ :: items =>
    (name ∈ seen ∨ BasesFound name bases gap) ∧ ReadsRight (name :: seen) items

instance (name : Str) (bases : List Str) (gap : Str) : Decidable (BasesFound name bases gap) :=
  inferInstanceAs (Decidable (_ ∨ _))

instance : (seen : List Str) → (items : List HeaderItem) → Decidable (ReadsRight seen items)
  | _, [] => inferInstanceAs (Decidable True)
  | seen, HeaderItem.forward name blanks :: items =>
    have := instDecidableReadsRight seen items
    inferInstanceAs (Decidable ((name ∈ seen ∨ blanks = []) ∧ ReadsRight seen items))
  | seen, HeaderItem.definition name bases gap _ :: items =>
    have := instDecidableReadsRight (name :: seen) items
    inferInstanceAs (Decidable
      ((name ∈ seen ∨ BasesFound name bases gap) ∧ ReadsRight (name :: seen) items))

/-- The base classes are found. -/
theorem baseNames_defline_iff {name : Str} {bases : List Str} {gap body : Str}
    (h : (HeaderItem.definition name bases gap body).WellFormed) :
    (baseNames (HeaderItem.definition name bases gap body).defline).getD [] =
      bases.flatMap (· ++ [' ']) ↔ BasesFound name bases gap := by
  obtain ⟨hname, hbases, hgap, -⟩ := h
  have hclass : baseNames (HeaderItem.definition name bases gap body).defline =
      baseNames (name ++ (HeaderItem.basesText bases ++ gap)) :=
    baseNames_append_of_notMem (u := "class ".toList) (by decide) _
  rw [hclass, BasesFound]
  cases bases with
  | nil =>
    obtain ⟨hnames, hafter⟩ := baseNames_blanks hgap
    have hword := baseNames_word (t := gap) hname.alnum fun c hc ↦
      isAlnum_eq_false_of_isBlank (hgap c (List.mem_of_mem_head? hc))
    refine iff_of_true ?_ (Or.inl rfl)
    show (baseNames (name ++ gap)).getD [] = []
    by_cases hsuffix : publicText <:+ name
    · rw [hword.2 hsuffix, hnames, hafter]
      split_ifs <;> rfl
    · rw [hword.1 hsuffix, hnames]
      rfl
  | cons B Bs =>
    have hrest : HeaderItem.basesText (B :: Bs) ++ gap =
        " : ".toList ++ ("public ".toList ++ (B ++ (furtherBases Bs ++ gap))) := by
      rw [HeaderItem.basesText_cons]
      simp
    have hnames := baseNames_append_of_notMem (u := " : ".toList) (by decide)
      ("public ".toList ++ (B ++ (furtherBases Bs ++ gap)))
    rw [baseNames_bases hgap hbases, ← hrest] at hnames
    have hafter : baseAfter (HeaderItem.basesText (B :: Bs) ++ gap) = [' '] := by
      rw [hrest]
      rfl
    have hword := baseNames_word (t := HeaderItem.basesText (B :: Bs) ++ gap) hname.alnum
      fun c hc ↦ by
        rw [hrest] at hc
        obtain rfl := Option.some.inj hc
        decide
    have hfound : ((B :: Bs).flatMap (· ++ [' '])) ≠ [] := by simp
    rw [or_iff_right (List.cons_ne_nil B Bs), List.getLast?_eq_some_getLast (List.cons_ne_nil B Bs)]
    simp only [Option.mem_def, Option.some.injEq, forall_eq']
    generalize (B :: Bs).flatMap (· ++ [' ']) = found at hnames hfound ⊢
    by_cases hsuffix : publicText <:+ name
    · -- a blank is taken for a name
      refine iff_of_false ?_ fun h ↦ h.1 hsuffix
      rw [hword.2 hsuffix, hafter, hnames]
      split_ifs
      · exact fun h ↦ hfound h.symm
      · exact fun h ↦ hfound h.symm
      · exact fun h ↦ absurd (congrArg List.length h) (by simp)
    · rw [hword.1 hsuffix, hnames, and_iff_right hsuffix]
      split_ifs with hlast
      · exact iff_of_false (fun h ↦ hfound h.symm) fun h ↦ h hlast.1 hlast.2
      · exact iff_of_true rfl fun hnil hpublic ↦ hlast ⟨hnil, hpublic⟩

/-- **The first entries are those of the definitions**, for the classes that were not seen before.
-/
theorem lookupIn_iff_readsRight {items : List HeaderItem} {es : List (Option (Str × HeaderClass))}
    (hitems : ∀ it ∈ items, it.WellFormed) (hes : List.Forall₂ Stores items es) (seen : List Str) :
    (∀ key ∉ seen, OrdMap.lookupIn key es.reduceOption = definitionOf items key) ↔
      ReadsRight seen items := by
  induction hes generalizing seen with
  | nil => exact iff_of_true (fun _ _ ↦ rfl) trivial
  | @cons it e items es he hes ih =>
    have hit := hitems it List.mem_cons_self
    have htail : ∀ it ∈ items, it.WellFormed := fun it' h ↦ hitems it' (List.mem_cons_of_mem _ h)
    have ih := ih htail
    cases he with
    | passed name =>
      refine (ih seen).trans ?_
      rw [ReadsRight, and_iff_right (Or.inr rfl)]
    | @forward name blanks hne p hbody =>
      rw [ReadsRight, or_iff_left hne, ← ih, List.reduceOption_cons_of_some]
      constructor
      · intro h
        have hseen : name ∈ seen := by
          by_contra hno
          have hp := h name hno
          rw [OrdMap.lookupIn_cons_self, definitionOf_forward] at hp
          obtain ⟨bases, gap, body, hmem, htext⟩ := mem_of_definitionOf hp.symm
          rw [htext] at hbody
          exact (htail _ hmem).not_isPrefix_definedText hit hbody
        refine ⟨hseen, fun key hkey ↦ ?_⟩
        rw [← definitionOf_forward name blanks, ← h key hkey,
          OrdMap.lookupIn_cons_of_ne (ne_of_mem_of_not_mem hseen hkey).symm]
      · rintro ⟨hseen, h⟩ key hkey
        rw [OrdMap.lookupIn_cons_of_ne (ne_of_mem_of_not_mem hseen hkey).symm, h key hkey,
          definitionOf_forward]
    | definition name bases gap body =>
      rw [ReadsRight, ← ih, ← baseNames_defline_iff hit, List.reduceOption_cons_of_some]
      constructor
      · intro h
        refine ⟨or_iff_not_imp_left.2 fun hno ↦ ?_, fun key hkey ↦ ?_⟩
        · have hname := h name hno
          rw [OrdMap.lookupIn_cons_self, definitionOf_definition_self] at hname
          exact congrArg HeaderClass.fatherclass (Option.some.inj hname)
        · rw [List.mem_cons, not_or] at hkey
          have hrest := h key hkey.2
          rwa [OrdMap.lookupIn_cons_of_ne hkey.1, definitionOf_definition_of_ne hkey.1] at hrest
      · rintro ⟨hfather, h⟩ key hkey
        by_cases hname : key = name
        · obtain rfl := hname
          rw [OrdMap.lookupIn_cons_self, definitionOf_definition_self, hfather.resolve_left hkey]
        · rw [OrdMap.lookupIn_cons_of_ne hname, definitionOf_definition_of_ne hname,
            h key (by simp [hname, hkey])]

/-- **Reading a printed header.** The reader returns with exactly the classes that are defined, each
with its first definition, exactly if no name is stored wrongly before its first definition is
over. -/
theorem getclass_printHeader_iff {items : List HeaderItem} (hitems : ∀ it ∈ items, it.WellFormed)
    {ending : Str} (hending : ∀ c ∈ ending, c = '\n') :
    (∃ s, getclass (printHeader items ++ ending) = some s ∧
      ∀ key, s.classdef.find? key = definitionOf items key) ↔ ReadsRight [] items := by
  obtain ⟨es, s, hes, hs, hclass⟩ := exists_foldlM_getclassRound hitems hending (p := [])
    (n := (printHeader items ++ ending).length + 1) (k := 0) rfl le_rfl (by simp)
    (fun q _ hq ↦ absurd hq (Nat.not_lt_zero q)) {}
  have hfind : ∀ key, s.classdef.find? key = OrdMap.lookupIn key es.reduceOption := fun key ↦ by
    rw [hclass, OrdMap.find?_insertMany]
    rfl
  rw [← lookupIn_iff_readsRight hitems hes []]
  show (∃ s', getclass (printHeader items ++ ending) = some s' ∧ _) ↔ _
  have hget : getclass (printHeader items ++ ending) = some s := hs
  rw [hget]
  constructor
  · rintro ⟨s', hs', hkeys⟩ key -
    rw [← Option.some.inj hs'] at hkeys
    rw [← hfind, hkeys]
  · exact fun hkeys ↦ ⟨s, rfl, fun key ↦ by rw [hfind, hkeys key List.not_mem_nil]⟩

/-- A class that is declared before it is defined, with two bases, and once more afterwards. -/
def sampleDeclarations : List HeaderItem :=
  [HeaderItem.forward "A".toList [],
    HeaderItem.definition "A".toList ["B".toList, "C".toList] " ".toList " f()\x7b\x7d ".toList,
    HeaderItem.forward "A".toList " ".toList,
    HeaderItem.definition "Public".toList [] [] "\n".toList]

/-- A class that is declared with a blank before the semicolon. -/
def sampleForward : List HeaderItem :=
  [HeaderItem.forward "A".toList " ".toList,
    HeaderItem.definition "B".toList [] " ".toList [],
    HeaderItem.definition "A".toList [] " ".toList []]

theorem getclass_printHeader_iff_sampleDeclarations :
    (∀ it ∈ sampleDeclarations, it.WellFormed) ∧
    ∃ s, getclass (printHeader sampleDeclarations ++ "\n".toList) = some s ∧
      ∀ key, s.classdef.find? key = definitionOf sampleDeclarations key := by
  have hitems : ∀ it ∈ sampleDeclarations, it.WellFormed := by decide +kernel
  exact ⟨hitems, (getclass_printHeader_iff hitems (by decide)).2 (by decide +kernel)⟩

/-- The forward declaration gets the body of the class that comes next, and hides the definition. -/
theorem getclass_printHeader_sampleForward :
    (∀ it ∈ sampleForward, it.WellFormed) ∧
    (∃ s, getclass (printHeader sampleForward) = some s ∧
      (s.classdef.find? "A".toList).map (·.defbody) =
        some "\nclass A ;\nclass B \x7b\x7d".toList) ∧
    ¬ ∃ s, getclass (printHeader sampleForward) = some s ∧
      ∀ key, s.classdef.find? key = definitionOf sampleForward key := by
  have hrun : (getclass (printHeader sampleForward)).map
      (fun s ↦ (s.classdef.find? "A".toList).map (·.defbody)) =
        some (some "\nclass A ;\nclass B \x7b\x7d".toList) := by
    decide +kernel
  obtain ⟨s, hs, hbody⟩ := Option.map_eq_some_iff.1 hrun
  refine ⟨by decide +kernel, ⟨s, hs, hbody⟩, ?_⟩
  rintro ⟨s', hs', hkeys⟩
  obtain rfl := Option.some.inj (hs.symm.trans hs')
  rw [hkeys] at hbody
  exact absurd hbody (by decide +kernel)

end CArchitecture
