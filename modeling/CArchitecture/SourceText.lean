import CArchitecture.FindSymbol

/-!
# What the two readers have in common

`CReadH` and `CReadCpp` take a file apart without a grammar: they look for a few patterns and walk
from there to a delimiter. Three things they do alike, in functions that are copies of each other:
they find the brace that closes a body, they collect the names of the included files before the
first class, and they keep what is outside of all braces, where global variables are declared.

An access outside the text ends the program; here it is a missing result. Of the functions in this
file only `getheadfile` can do that, when an include is not closed (`isSome_getheadfile_iff`).
-/

namespace CArchitecture

/-- A blank or a tab. -/
def isBlank (c : Char) : Bool := c == ' ' || c == '\t'

/-- A letter or a digit. -/
def isAlnum (c : Char) : Bool :=
  (65 ≤ c.toNat && c.toNat ≤ 90) || (97 ≤ c.toNat && c.toNat ≤ 122) ||
    (48 ≤ c.toNat && c.toNat ≤ 57)

theorem isNameChar_eq (c : Char) : isNameChar c = (isAlnum c || c == '_') := rfl

theorem isNameChar_eq_false_of_isBlank {c : Char} (h : isBlank c) : isNameChar c = false := by
  rw [isBlank, Bool.or_eq_true, beq_iff_eq, beq_iff_eq] at h
  rcases h with rfl | rfl <;> decide

theorem isBlank_eq_false_of_isNameChar {c : Char} (h : isNameChar c) : isBlank c = false := by
  rw [Bool.eq_false_iff]
  intro hblank
  exact Bool.false_ne_true ((isNameChar_eq_false_of_isBlank hblank).symm.trans h)

theorem isAlnum_eq_false_of_isBlank {c : Char} (h : isBlank c) : isAlnum c = false := by
  have hname := isNameChar_eq_false_of_isBlank h
  rw [isNameChar_eq, Bool.or_eq_false_iff] at hname
  exact hname.1

/-! ### Bodies -/

/-- How far it is to the brace that closes `ileft` open ones, or to the end of the text. -/
def closing (ileft : ℕ) : Str → ℕ
  | [] => 0
  | c :: rest =>
    let ileft := if c = '\x7b' then ileft + 1 else if c = '\x7d' then ileft - 1 else ileft
    if ileft = 0 then 0 else closing ileft rest + 1

/-- The position of the brace that closes the one at `bodystart`, or the length of the text. -/
def bodyEnd (content : Str) (bodystart : ℕ) : ℕ :=
  bodystart + 1 + closing 1 (content.drop (bodystart + 1))

theorem closing_le (ileft : ℕ) (s : Str) : closing ileft s ≤ s.length := by
  induction s generalizing ileft with
  | nil => exact le_rfl
  | cons c s ih =>
    simp only [closing, List.length_cons]
    generalize (if c = '\x7b' then ileft + 1 else if c = '\x7d' then ileft - 1 else ileft) = n
    split_ifs with hzero
    · exact Nat.zero_le _
    · exact Nat.succ_le_succ (ih _)

theorem bodyEnd_le {content : Str} {bodystart : ℕ} (h : bodystart < content.length) :
    bodyEnd content bodystart ≤ content.length := by
  have hle := closing_le 1 (content.drop (bodystart + 1))
  rw [List.length_drop] at hle
  rw [bodyEnd]
  omega

theorem lt_bodyEnd (content : Str) (bodystart : ℕ) : bodystart < bodyEnd content bodystart := by
  rw [bodyEnd]
  omega

/-- The braces of a text match. -/
structure Balanced (s : Str) : Prop where
  /-- No prefix closes more braces than it opens. -/
  count_le : ∀ p, p <+: s → p.count '\x7d' ≤ p.count '\x7b'
  count_eq : s.count '\x7d' = s.count '\x7b'

instance (s : Str) : Decidable (Balanced s) :=
  decidable_of_iff ((∀ p ∈ s.inits, p.count '\x7d' ≤ p.count '\x7b') ∧
      s.count '\x7d' = s.count '\x7b')
    ⟨fun h ↦ ⟨fun p hp ↦ h.1 p ((List.mem_inits p s).2 hp), h.2⟩,
      fun h ↦ ⟨fun p hp ↦ h.count_le p ((List.mem_inits p s).1 hp), h.count_eq⟩⟩

/-- Passing a text that does not close the last of the `ileft` open braces. -/
theorem closing_append {ileft : ℕ} {s : Str}
    (hs : ∀ p, p <+: s → p.count '\x7d' < ileft + p.count '\x7b') (rest : Str) :
    closing ileft (s ++ rest) =
      s.length + closing (ileft + s.count '\x7b' - s.count '\x7d') rest := by
  induction s generalizing ileft with
  | nil => simp
  | cons c s ih =>
    have hhead := hs [c] ⟨s, rfl⟩
    have htail : ∀ p, p <+: s → (c :: p).count '\x7d' < ileft + (c :: p).count '\x7b' :=
      fun p hp ↦ hs (c :: p) ((List.prefix_cons_inj c).2 hp)
    have hlast := hs (c :: s) List.prefix_rfl
    simp only [List.count_cons, List.count_nil, beq_iff_eq] at hhead htail hlast
    rw [List.cons_append, closing]
    -- the number of open braces after this character
    have hopen : (if c = '\x7b' then ileft + 1 else if c = '\x7d' then ileft - 1 else ileft) +
        (if c = '\x7d' then 1 else 0) = ileft + if c = '\x7b' then 1 else 0 := by
      split_ifs at hhead ⊢ with hleft hright hright
      · exact absurd (hleft.symm.trans hright) (by decide)
      all_goals omega
    generalize (if c = '\x7b' then ileft + 1 else if c = '\x7d' then ileft - 1 else ileft) = n
      at hopen ⊢
    have hrest := @ih n fun p hp ↦ by
      have := htail p hp
      omega
    simp only [List.length_cons, List.count_cons, beq_iff_eq]
    rw [if_neg (by omega), hrest, Nat.add_right_comm]
    congr 2
    omega

/-- The brace that closes a body with matching braces is the one behind it. -/
theorem Balanced.closing_eq {s : Str} (h : Balanced s) (rest : Str) :
    closing 1 (s ++ '\x7d' :: rest) = s.length := by
  rw [closing_append fun p hp ↦ by have := h.count_le p hp; omega]
  simp [h.count_eq, closing]

/-! ### Included files -/

/-- What an include looks like. -/
def includeText : Str := "#include \"".toList

/-- Take the name of the file that the include at `pos` names. It goes on to the next quote. -/
def takeHeadfile (mycontent : Str) (headfile : List Str) (pos : ℕ) : Option (List Str) :=
  let rest := mycontent.drop (pos + includeText.length)
  if '"' ∈ rest then some (headfile ++ [rest.takeWhile (· ≠ '"')]) else none

/-- `getheadfile`: the files that are included up to the position `classstart`, which counts as `-1`
if it is missing. -/
def getheadfile (classstart : Option ℕ) (content : Str) : Option (List Str) :=
  let mycontent := content.take (classstart.elim 0 (· + 1))
  (CString.occurrences includeText mycontent).foldlM (takeHeadfile mycontent) []

/-- Every include in the text is closed by a quote. -/
def IncludesClosed (s : Str) : Prop :=
  ∀ q, includeText <+: s.drop q → '"' ∈ s.drop (q + includeText.length)

theorem isSome_getheadfile_iff {classstart : Option ℕ} {content : Str} :
    (getheadfile classstart content).isSome ↔
      IncludesClosed (content.take (classstart.elim 0 (· + 1))) := by
  rw [getheadfile, Loop.isSome_foldlM_iff (P := fun q ↦
    '"' ∈ (content.take (classstart.elim 0 (· + 1))).drop (q + includeText.length))]
  · refine forall_congr' fun q ↦ imp_congr_left ?_
    exact CString.mem_occurrences (by decide)
  · intro headfile q _
    rw [takeHeadfile]
    split_ifs with hquote
    · simp [hquote]
    · simp [hquote]

/-! ### Global variables -/

/-- Forget what comes after the last semicolon. -/
def cutAfterSemicolon (s : Str) : Str := (s.reverse.dropWhile (· ≠ ';')).reverse

/-- The loop of `findGlobal`, inside `leftnum` braces. It ends early at a brace that closes
nothing. -/
def findGlobalFrom (leftnum : ℕ) (strForGlobal : Str) : Str → Str
  | [] => strForGlobal
  | c :: rest =>
    if c = '\x7b' then findGlobalFrom (leftnum + 1) (cutAfterSemicolon strForGlobal) rest
    else if c = '\x7d' then
      if leftnum = 0 then strForGlobal else findGlobalFrom (leftnum - 1) strForGlobal rest
    else findGlobalFrom leftnum (if leftnum = 0 then strForGlobal ++ [c] else strForGlobal) rest

/-- `findGlobal`: the text outside of braces, without what stands before an opening brace since the
last semicolon. -/
def findGlobal (content : Str) : Str := findGlobalFrom 0 [] content

end CArchitecture
