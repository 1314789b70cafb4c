import Mathlib.Data.List.Infix

/-!
# Text: decimal numerals, separated fields and words

Texts are lists of characters. Two facts carry every round trip over them: a decimal numeral reads
back as its number (`readNat_decimal`), and a sequence of non-empty fields, each ended by a
separator that occurs in none of them, splits back into its fields (`fields_flatMap_append`).

Where there are several separators, the pieces are called words. The end of a text has the last
words of the text, except that its first one may be cut off (`tail_words_suffix`).
-/

/-- A text: a list of characters. -/
abbrev Str := List Char

namespace Text

/-- A statement about all characters of a text is decided on the text, and not on all characters
that there are. -/
instance (priority := 1100) decidableForallMem (p : Char → Prop) [DecidablePred p] (s : Str) :
    Decidable (∀ c ∈ s, p c) :=
  List.decidableBAll p s

instance (priority := 1100) decidableForallMemOption (p : Char → Prop) [DecidablePred p]
    (o : Option Char) : Decidable (∀ c ∈ o, p c) :=
  Option.decidableForallMem o

instance (priority := 1100) decidableExistsMemOption (p : Char → Prop) [DecidablePred p]
    (o : Option Char) : Decidable (∃ c ∈ o, p c) :=
  Option.decidableExistsMem o

/-- The decimal numeral of a number, as `"%d"` prints it. -/
def decimal (n : ℕ) : Str := Nat.toDigits 10 n

/-- Read a decimal numeral; the whole text must consist of digits. -/
def readNat (s : Str) : Option ℕ :=
  if s ≠ [] ∧ s.all Char.isDigit then some (Nat.ofDigitChars 10 s 0) else none

theorem decimal_ne_nil (n : ℕ) : decimal n ≠ [] := Nat.toDigits_ne_nil

theorem isDigit_of_mem_decimal {n : ℕ} {c : Char} (h : c ∈ decimal n) : c.isDigit :=
  Nat.isDigit_of_mem_toDigits (by decide) (by decide) h

/-- A character that is not a digit does not occur in a numeral. -/
theorem notMem_decimal {c : Char} (hc : c.isDigit = false) (n : ℕ) : c ∉ decimal n := by
  intro h
  rw [isDigit_of_mem_decimal h] at hc
  exact absurd hc (by decide)

/-- **Numerals read back.** -/
theorem readNat_decimal (n : ℕ) : readNat (decimal n) = some n := by
  have hdigits : (decimal n).all Char.isDigit = true :=
    List.all_eq_true.2 fun _ h ↦ isDigit_of_mem_decimal h
  rw [readNat, if_pos ⟨decimal_ne_nil n, hdigits⟩, decimal, Nat.ofDigitChars_ten_toDigits]

/-! ### Fields -/

/-- The non-empty pieces of a text between the occurrences of a separator. -/
def fields (sep : Char) (s : Str) : List Str := (s.splitOn sep).filter (· ≠ [])

/-- The pieces of a list of fields, each ended by the separator, with an unended rest. -/
theorem fields_flatMap_append {sep : Char} {fs : List Str} (hsep : ∀ f ∈ fs, sep ∉ f)
    (hne : ∀ f ∈ fs, f ≠ []) (rest : Str) :
    fields sep (fs.flatMap (· ++ [sep]) ++ rest) = fs ++ fields sep rest := by
  induction fs with
  | nil => rfl
  | cons f fs ih =>
    have ih' := ih (fun g hg ↦ hsep g (List.mem_cons_of_mem _ hg))
      fun g hg ↦ hne g (List.mem_cons_of_mem _ hg)
    have hshape : (f :: fs).flatMap (· ++ [sep]) ++ rest =
        f ++ sep :: (fs.flatMap (· ++ [sep]) ++ rest) := by simp
    rw [fields] at ih' ⊢
    rw [hshape, List.splitOn_append_cons_self_of_not_mem (hsep f List.mem_cons_self),
      List.filter_cons_of_pos (by simpa using hne f List.mem_cons_self), ih']
    rfl

theorem fields_nil (sep : Char) : fields sep [] = [] := by
  simp [fields, List.splitOn]

theorem fields_flatMap {sep : Char} {fs : List Str} (hsep : ∀ f ∈ fs, sep ∉ f)
    (hne : ∀ f ∈ fs, f ≠ []) : fields sep (fs.flatMap (· ++ [sep])) = fs := by
  simpa [fields_nil] using fields_flatMap_append hsep hne []

/-- A text without the separator is its own single field. -/
theorem fields_of_notMem {sep : Char} {s : Str} (hsep : sep ∉ s) (hne : s ≠ []) :
    fields sep s = [s] := by
  rw [fields, List.splitOn_eq_singleton hsep, List.filter_cons_of_pos (by simpa using hne),
    List.filter_nil]

/-- A separator separates. -/
theorem fields_append_cons (sep : Char) (s t : Str) :
    fields sep (s ++ sep :: t) = fields sep s ++ fields sep t := by
  rw [fields, List.splitOn_append_cons_self, List.filter_append, fields, fields]

/-! ### Words -/

section Words

variable {p : Char → Bool} {u v w : Str}

/-- The non-empty pieces of a text between the separators. -/
def words (p : Char → Bool) (s : Str) : List Str := (s.splitOnP p).filter (· ≠ [])

theorem words_nil (p : Char → Bool) : words p [] = [] := by
  simp [words]

theorem words_cons_of_pos {c : Char} (hc : p c = true) (s : Str) :
    words p (c :: s) = words p s := by
  rw [words, List.splitOnP_cons_eq_if_modifyHead, if_pos hc, List.filter_cons_of_neg (by simp),
    words]

/-- Separators before the first word do not matter. -/
theorem words_append_of_pos (hu : ∀ c ∈ u, p c = true) (s : Str) :
    words p (u ++ s) = words p s := by
  induction u with
  | nil => rfl
  | cons c u ih =>
    rw [List.cons_append, words_cons_of_pos (hu c List.mem_cons_self),
      ih fun d hd ↦ hu d (List.mem_cons_of_mem _ hd)]

/-- The first word ends at a separator. -/
theorem words_append_of_neg (hw : ∀ c ∈ w, p c = false) (hne : w ≠ []) {s : Str}
    (hs : ∀ c ∈ s.head?, p c = true) : words p (w ++ s) = w :: words p s := by
  cases s with
  | nil =>
    rw [List.append_nil, words_nil, words, List.splitOnP_eq_singleton hw,
      List.filter_cons_of_pos (by simpa using hne), List.filter_nil]
  | cons c s =>
    have hc := hs c rfl
    rw [words, List.splitOnP_append_cons_of_forall_mem hw c hc,
      List.filter_cons_of_pos (by simpa using hne), words_cons_of_pos hc, words]

/-- **The words of the end of a text**, but for the first one. -/
theorem tail_words_suffix (h : v <:+ u) : (words p v).tail <:+ (words p u).tail := by
  induction u with
  | nil =>
    obtain rfl := List.suffix_nil.1 h
    exact List.suffix_rfl
  | cons c u ih =>
    rcases List.suffix_cons_iff.1 h with rfl | h
    · exact List.suffix_rfl
    refine (ih h).trans ?_
    by_cases hc : p c = true
    · simp only [words_cons_of_pos hc, List.suffix_rfl]
    · -- the first word gets longer, or there is one more
      obtain ⟨d, t, ht⟩ := List.exists_cons_of_ne_nil (List.splitOnP_ne_nil p u)
      have hcons : words p (c :: u) = (c :: d) :: t.filter (· ≠ []) := by
        rw [words, List.splitOnP_cons_eq_if_modifyHead, if_neg hc, ht, List.modifyHead_cons,
          List.filter_cons_of_pos (by simp)]
      rw [hcons, List.tail_cons, words, ht, List.filter_cons]
      split_ifs
      · exact List.suffix_rfl
      · exact List.tail_suffix _

end Words

end Text
