import CArchitecture.Library.Text
import Mathlib.Data.List.DropRight
import Mathlib.Data.List.Infix
import Mathlib.Data.List.Sort

/-!
# The string operations of the C++ library

`find`, `substr`, checked access and `atoi`, on texts. A position that `find` does not return is
`none`, for `npos`; an access outside the text is `none`, for the exception `at` throws.

Two kinds of loop over texts come back in every reader. A loop that walks to a delimiter, forwards
(`scan`) or backwards (`back`), and has no other end, returns exactly if the delimiter is there
(`isSome_scan_iff`, `isSome_back_iff`). A loop that takes up one occurrence of a pattern after
another runs through `occurrences`, which are all of them if the pattern does not overlap itself
(`mem_occurrences`).
-/

namespace CString

/-- `s.find(pat, start)`: the first occurrence of `pat` at or after `start`. -/
def find (pat s : Str) (start : ℕ) : Option ℕ :=
  (List.range' start (s.length + 1 - start)).find? fun i ↦ pat.isPrefixOf (s.drop i)

/-- `s.substr(start, len)`, for a start inside the text. -/
def substr (s : Str) (start len : ℕ) : Str := (s.drop start).take len

/-- `s.at(i)`, with a possibly negative index. -/
def at? (s : Str) (i : ℤ) : Option Char := if i < 0 then none else s[i.toNat]?

theorem at?_natCast (s : Str) (i : ℕ) : at? s i = s[i]? := by
  rw [at?, if_neg (by omega), Int.toNat_natCast]

/-- An occurrence is where `find` says, and `find` looks no earlier than asked. -/
theorem of_find_eq_some {pat s : Str} {start i : ℕ} (h : find pat s start = some i) :
    start ≤ i ∧ pat <+: s.drop i := by
  have hmem := List.mem_of_find?_eq_some h
  have hpre := List.find?_some h
  simp only [List.mem_range'_1] at hmem
  exact ⟨hmem.1, List.isPrefixOf_iff_prefix.1 hpre⟩

/-- An occurrence of a non-empty pattern is inside the text. -/
theorem add_length_le_of_find {pat s : Str} {start i : ℕ} (h : find pat s start = some i)
    (hne : pat ≠ []) : i + pat.length ≤ s.length := by
  have hle := (of_find_eq_some h).2.length_le
  have hpos := List.length_pos_iff_ne_nil.2 hne
  rw [List.length_drop] at hle
  omega

/-- `find` finds whatever there is. -/
theorem find_le_of_isPrefix {pat s : Str} {start q : ℕ} (hq : start ≤ q) (h : pat <+: s.drop q)
    (hne : pat ≠ []) : ∃ i, find pat s start = some i ∧ i ≤ q := by
  have hle := h.length_le
  have hpos := List.length_pos_iff_ne_nil.2 hne
  rw [List.length_drop] at hle
  have hmem : q ∈ List.range' start (s.length + 1 - start) := List.mem_range'_1.2 (by omega)
  have hsome : ((List.range' start (s.length + 1 - start)).find? fun i ↦
      pat.isPrefixOf (s.drop i)).isSome :=
    List.find?_isSome.2 ⟨q, hmem, List.isPrefixOf_iff_prefix.2 h⟩
  obtain ⟨i, hi⟩ := Option.isSome_iff_exists.1 hsome
  refine ⟨i, hi, ?_⟩
  by_contra hlt
  -- an occurrence before the one that is found would have been found
  obtain ⟨-, as, bs, hsplit, has⟩ := List.find?_eq_some_iff_append.1 hi
  have hsorted := List.pairwise_lt_range' (s := start) (n := s.length + 1 - start)
  rw [hsplit] at hmem hsorted
  rcases List.mem_append.1 hmem with hq' | hq'
  · have := has q hq'
    simp [List.isPrefixOf_iff_prefix.2 h] at this
  · rcases List.mem_cons.1 hq' with rfl | hq'
    · omega
    · have := List.rel_of_pairwise_cons (List.pairwise_append.1 hsorted).2.1 hq'
      omega

theorem find_eq_none_iff {pat s : Str} {start : ℕ} (hne : pat ≠ []) :
    find pat s start = none ↔ ∀ q, start ≤ q → ¬ pat <+: s.drop q := by
  constructor
  · intro h q hq hpre
    obtain ⟨i, hi, -⟩ := find_le_of_isPrefix hq hpre hne
    rw [h] at hi
    exact absurd hi (by simp)
  · intro h
    cases hfind : find pat s start with
    | none => rfl
    | some i => exact absurd (of_find_eq_some hfind).2 (h i (of_find_eq_some hfind).1)

/-- `find` stops at the first occurrence. -/
theorem not_isPrefix_of_lt_find {pat s : Str} {start p q : ℕ} (h : find pat s start = some q)
    (hne : pat ≠ []) (hp : start ≤ p) (hlt : p < q) : ¬ pat <+: s.drop p := by
  intro hpre
  obtain ⟨i, hi, hle⟩ := find_le_of_isPrefix hp hpre hne
  obtain rfl := Option.some.inj (h.symm.trans hi)
  omega

theorem find_eq_some_of_forall {pat s : Str} {start q : ℕ} (hne : pat ≠ []) (hq : start ≤ q)
    (h : pat <+: s.drop q) (hmin : ∀ p, start ≤ p → p < q → ¬ pat <+: s.drop p) :
    find pat s start = some q := by
  obtain ⟨i, hi, hle⟩ := find_le_of_isPrefix hq h hne
  rcases Nat.eq_or_lt_of_le hle with rfl | hlt
  · exact hi
  · exact absurd (of_find_eq_some hi).2 (hmin i (of_find_eq_some hi).1 hlt)

/-- The first occurrence in a part of the text is the first one in the text, if there is none
before. -/
theorem find_append {pat a b c : Str} {start q : ℕ} (hne : pat ≠ []) (hstart : start ≤ a.length)
    (hbefore : ∀ p, start ≤ p → p < a.length → ¬ pat <+: (a ++ (b ++ c)).drop p)
    (h : find pat b 0 = some q) : find pat (a ++ (b ++ c)) start = some (a.length + q) := by
  have hdrop : ∀ i, i ≤ b.length → (a ++ (b ++ c)).drop (a.length + i) = b.drop i ++ c := by
    intro i hi
    rw [List.drop_length_add_append, List.drop_append_of_le_length hi]
  have hle := add_length_le_of_find h hne
  refine find_eq_some_of_forall hne (by omega) ?_ fun p hp hlt hpre ↦ ?_
  · rw [hdrop q (by omega)]
    exact (of_find_eq_some h).2.trans (List.prefix_append _ _)
  · rcases Nat.lt_or_ge p a.length with hpa | hpa
    · exact hbefore p hp hpa hpre
    · obtain ⟨i, rfl⟩ := Nat.exists_eq_add_of_le hpa
      rw [hdrop i (by omega)] at hpre
      refine not_isPrefix_of_lt_find h hne (Nat.zero_le i) (by omega) ?_
      exact List.prefix_of_prefix_length_le hpre (List.prefix_append _ _)
        (by rw [List.length_drop]; omega)

/-- An occurrence in a part of a text that is followed by something else. -/
theorem isPrefix_of_append {pat a b : Str} (hb : ∀ c ∈ b.head?, c ∉ pat) (h : pat <+: a ++ b) :
    pat <+: a := by
  rcases Nat.le_total pat.length a.length with hle | hle
  · exact List.prefix_of_prefix_length_le h (List.prefix_append _ _) hle
  · obtain ⟨u, hu⟩ := List.prefix_of_prefix_length_le (List.prefix_append a b) h hle
    rw [← hu, List.prefix_append_right_inj] at h
    cases u with
    | nil => rw [← hu, List.append_nil]
    | cons c u =>
      obtain ⟨t, ht⟩ := h
      exact absurd (by rw [← hu]; simp : c ∈ pat) (hb c (by rw [← ht]; rfl))

theorem getElem?_of_isPrefix {c : Char} {pat s : Str} {q : ℕ} (h : c :: pat <+: s.drop q) :
    s[q]? = some c := by
  obtain ⟨t, ht⟩ := h
  rw [← List.head?_drop, ← ht]
  rfl

/-- The first character of the pattern does not come before it. -/
theorem find_of_notMem {c : Char} {a : Str} (hc : c ∉ a) (p pat t : Str) :
    find (c :: pat) (p ++ (a ++ (c :: pat ++ t))) p.length = some (p.length + a.length) := by
  refine find_eq_some_of_forall (List.cons_ne_nil c pat) (Nat.le_add_right _ _) ?_
    fun q hq hlt hpre ↦ ?_
  · rw [List.drop_length_add_append, List.drop_left]
    exact List.prefix_append _ _
  · have hget := getElem?_of_isPrefix hpre
    rw [List.getElem?_append_right hq, List.getElem?_append_left (by omega)] at hget
    exact hc (List.mem_of_getElem? hget)

/-- What is found in the first half of a text is found in the text. -/
theorem find_append_left {pat a : Str} {start i : ℕ} (hne : pat ≠ [])
    (h : find pat a start = some i) (b : Str) : find pat (a ++ b) start = some i := by
  obtain ⟨hle, hpre⟩ := of_find_eq_some h
  have hend := add_length_le_of_find h hne
  refine find_eq_some_of_forall hne hle ?_ fun q hq hlt hq' ↦ ?_
  · rw [List.drop_append_of_le_length (by omega)]
    exact hpre.trans (List.prefix_append _ _)
  · rw [List.drop_append_of_le_length (by omega)] at hq'
    refine not_isPrefix_of_lt_find h hne hq hlt ?_
    exact List.prefix_of_prefix_length_le hq' (List.prefix_append _ _)
      (by rw [List.length_drop]; omega)

/-- Searching in the second half of a text. -/
theorem find_append_right (pat a b : Str) (start : ℕ) :
    find pat (a ++ b) (a.length + start) = (find pat b start).map (a.length + ·) := by
  have hlen : (a ++ b).length + 1 - (a.length + start) = b.length + 1 - start := by
    rw [List.length_append]
    omega
  rw [find, hlen, ← List.map_add_range', List.find?_map, find]
  congr 2
  funext i
  rw [Function.comp_apply, List.drop_length_add_append]

/-! ### Walking to a delimiter -/

/-- A part of a text that ends within the first half. -/
theorem takeWhile_append_of_mem {p : Char → Bool} {a : Str} {c : Char} (hc : c ∈ a)
    (hp : p c = false) (b : Str) : (a ++ b).takeWhile p = a.takeWhile p := by
  rw [List.takeWhile_append, if_neg]
  intro hlen
  have hall := List.takeWhile_eq_self_iff.1 ((List.takeWhile_prefix p).eq_of_length hlen)
  exact Bool.false_ne_true (hp.symm.trans (hall c hc))

/-- A word of `p`-characters ends where something else comes. -/
theorem span_append {p : Char → Bool} {a b : Str} (ha : ∀ c ∈ a, p c = true)
    (hb : ∀ c ∈ b.head?, p c = false) :
    (a ++ b).takeWhile p = a ∧ (a ++ b).dropWhile p = b := by
  rw [List.takeWhile_append_of_pos ha, List.dropWhile_append_of_pos ha]
  cases b with
  | nil => simp
  | cons c b => simp [hb c rfl]

/-- Walk forwards from `i` to the first character that satisfies `stop`. -/
def scan (stop : Char → Bool) (s : Str) (i : ℕ) : Option ℕ :=
  ((s.drop i).findIdx? stop).map (i + ·)

theorem isSome_scan_iff (stop : Char → Bool) (s : Str) (i : ℕ) :
    (scan stop s i).isSome ↔ ∃ c ∈ s.drop i, stop c = true := by
  rw [scan, Option.isSome_map, List.findIdx?_isSome, List.any_eq_true]

theorem scan_append {stop : Char → Bool} {s rest : Str} {c : Char} {i : ℕ} (hi : i ≤ s.length)
    (hs : ∀ d ∈ s.drop i, stop d = false) (hc : stop c = true) :
    scan stop (s ++ c :: rest) i = some s.length := by
  rw [scan, List.drop_append_of_le_length hi, List.findIdx?_append,
    List.findIdx?_eq_none_iff.2 hs, Option.none_or, List.findIdx?_cons, if_pos hc]
  simp only [Option.map_some, List.length_drop, Option.some.injEq]
  omega

/-- Walk backwards from position `n - 1` over the characters that satisfy `go`: the position after
the first one that does not. -/
def back (go : Char → Bool) (s : Str) : ℕ → Option ℕ
  | 0 => none
  | n + 1 => do
    let c ← s[n]?
    if go c then back go s n else some (n + 1)

theorem isSome_back_iff {go : Char → Bool} {s : Str} {n : ℕ} (hn : n ≤ s.length) :
    (back go s n).isSome ↔ ∃ c ∈ s.take n, go c = false := by
  induction n with
  | zero => simp [back]
  | succ n ih =>
    have hlt : n < s.length := hn
    have htake : s.take (n + 1) = s.take n ++ [s[n]] := (List.take_append_getElem hlt).symm
    rw [back, List.getElem?_eq_getElem hlt, Option.bind_eq_bind, Option.bind_some, htake]
    rcases hgo : go s[n] with - | -
    · exact iff_of_true rfl ⟨s[n], List.mem_append_right _ (List.mem_singleton_self _), hgo⟩
    · rw [if_pos rfl, ih hlt.le]
      constructor
      · rintro ⟨c, hc, hno⟩
        exact ⟨c, List.mem_append_left _ hc, hno⟩
      · rintro ⟨c, hc, hno⟩
        rcases List.mem_append.1 hc with hc | hc
        · exact ⟨c, hc, hno⟩
        · rw [List.mem_singleton.1 hc, hgo] at hno
          exact absurd hno (by simp)

/-- A walk backwards ends behind the first character that stops it. -/
theorem of_back_eq_some {go : Char → Bool} {s : Str} {n k : ℕ} (h : back go s n = some k) :
    (∃ j c, k = j + 1 ∧ k ≤ n ∧ s[j]? = some c ∧ go c = false) ∧
      ∀ i, k ≤ i → i < n → ∃ c, s[i]? = some c ∧ go c = true := by
  induction n with
  | zero => exact absurd h (by simp [back])
  | succ n ih =>
    rw [back] at h
    obtain ⟨c, hc, h⟩ := Option.bind_eq_some_iff.1 h
    split_ifs at h with hgo
    · obtain ⟨⟨j, d, hj, hle, hd⟩, hwalk⟩ := ih h
      refine ⟨⟨j, d, hj, by omega, hd⟩, fun i hi hlt ↦ ?_⟩
      rcases Nat.eq_or_lt_of_le (Nat.le_of_lt_succ hlt) with rfl | hlt
      · exact ⟨c, hc, hgo⟩
      · exact hwalk i hi hlt
    · obtain rfl := Option.some.inj h
      exact ⟨⟨n, c, rfl, le_rfl, hc, by simpa using hgo⟩, fun i hi hlt ↦ absurd hlt (by omega)⟩

/-- Where a walk backwards ends. -/
theorem eq_of_back_eq_some {go : Char → Bool} {s : Str} {n k : ℕ} (hn : n ≤ s.length)
    (h : back go s n = some k) : k = ((s.take n).reverse.dropWhile go).length := by
  induction n with
  | zero => exact absurd h (by simp [back])
  | succ n ih =>
    have hlt : n < s.length := hn
    have htake : s.take (n + 1) = s.take n ++ [s[n]] := (List.take_append_getElem hlt).symm
    rw [back, List.getElem?_eq_getElem hlt, Option.bind_eq_bind, Option.bind_some] at h
    rw [htake, List.reverse_append, List.reverse_singleton, List.singleton_append]
    rcases hgo : go s[n] with - | -
    · rw [hgo, if_neg Bool.false_ne_true] at h
      rw [List.dropWhile_cons_of_neg (by simp [hgo]), ← Option.some.inj h]
      simp [List.length_take, Nat.min_eq_left hlt.le]
    · rw [hgo, if_pos rfl] at h
      rw [List.dropWhile_cons_of_pos hgo]
      exact ih hlt.le h

theorem back_append {f : Char → Bool} {c : Char} (hc : f c = false) (p t rest : Str) :
    back f (p ++ c :: (t ++ rest)) (p.length + 1 + t.length) =
      some (p.length + 1 + (t.rdropWhile f).length) := by
  have htake : (p ++ c :: (t ++ rest)).take (p.length + 1 + t.length) = p ++ c :: t := by
    rw [← List.cons_append, ← List.append_assoc]
    exact List.take_left' (by simp; omega)
  have hlen : p.length + 1 + t.length ≤ (p ++ c :: (t ++ rest)).length := by
    simp only [List.length_append, List.length_cons]
    omega
  obtain ⟨k, hk⟩ := Option.isSome_iff_exists.1
    ((isSome_back_iff hlen).2 ⟨c, by rw [htake]; simp, hc⟩)
  rw [hk, eq_of_back_eq_some hlen hk, htake]
  have hstop : (c :: p.reverse).dropWhile f = c :: p.reverse :=
    List.dropWhile_cons_of_neg (by simp [hc])
  have hdrop : (p ++ c :: t).reverse.dropWhile f = t.reverse.dropWhile f ++ c :: p.reverse := by
    rw [List.reverse_append, List.reverse_cons, List.append_assoc, List.singleton_append,
      List.dropWhile_append, hstop]
    split_ifs with hnil
    · rw [List.isEmpty_iff.1 hnil, List.nil_append]
    · rfl
  rw [hdrop, List.rdropWhile]
  simp only [List.length_append, List.length_cons, List.length_reverse, Option.some.injEq]
  omega

/-! ### Occurrence after occurrence -/

/-- The occurrences of a pattern that are met by searching on behind each of them. -/
def occurrencesFrom (pat s : Str) : ℕ → ℕ → List ℕ
  | 0, _ => []
  | n + 1, start =>
    match find pat s start with
    | none => []
    | some p => p :: occurrencesFrom pat s n (p + pat.length)

/-- The occurrences of a pattern, from the beginning of the text on. There are no more of them than
characters. -/
def occurrences (pat s : Str) : List ℕ := occurrencesFrom pat s (s.length + 1) 0

theorem occurrencesFrom_of_find_eq_none {pat s : Str} {start : ℕ} (h : find pat s start = none)
    (n : ℕ) : occurrencesFrom pat s n start = [] := by
  cases n with
  | zero => rfl
  | succ n => rw [occurrencesFrom, h]

theorem occurrencesFrom_of_find_eq_some {pat s : Str} {start p : ℕ}
    (h : find pat s start = some p) (n : ℕ) :
    occurrencesFrom pat s (n + 1) start = p :: occurrencesFrom pat s n (p + pat.length) := by
  rw [occurrencesFrom, h]

theorem isPrefix_of_mem_occurrencesFrom {pat s : Str} {n start q : ℕ}
    (h : q ∈ occurrencesFrom pat s n start) : start ≤ q ∧ pat <+: s.drop q := by
  induction n generalizing start with
  | zero => exact absurd h List.not_mem_nil
  | succ n ih =>
    cases hfind : find pat s start with
    | none =>
      rw [occurrencesFrom_of_find_eq_none hfind] at h
      exact absurd h List.not_mem_nil
    | some p =>
      rw [occurrencesFrom_of_find_eq_some hfind] at h
      obtain ⟨hp, hpre⟩ := of_find_eq_some hfind
      rcases List.mem_cons.1 h with rfl | h
      · exact ⟨hp, hpre⟩
      · obtain ⟨hle, hq⟩ := ih h
        exact ⟨by omega, hq⟩

/-- A pattern whose first character does not come back cannot overlap itself. -/
theorem add_length_le_of_isPrefix {c : Char} {pat s : Str} {p q : ℕ} (hc : c ∉ pat)
    (hp : c :: pat <+: s.drop p) (hq : c :: pat <+: s.drop q) (hlt : p < q) :
    p + (c :: pat).length ≤ q := by
  by_contra hover
  rw [List.length_cons] at hover
  obtain ⟨t, ht⟩ := hp
  have hget : (s.drop p)[q - p]? = some c := by
    rw [List.getElem?_drop, Nat.add_sub_cancel' hlt.le]
    exact getElem?_of_isPrefix hq
  rw [← ht, List.cons_append, List.getElem?_cons, if_neg (by omega),
    List.getElem?_append_left (by omega)] at hget
  exact hc (List.mem_of_getElem? hget)

theorem mem_occurrencesFrom {c : Char} {pat s : Str} (hc : c ∉ pat) {n start q : ℕ}
    (hn : s.length < start + n) (hstart : start ≤ q) (h : c :: pat <+: s.drop q) :
    q ∈ occurrencesFrom (c :: pat) s n start := by
  have hne : c :: pat ≠ [] := List.cons_ne_nil _ _
  induction n generalizing start with
  | zero =>
    have := h.length_le
    rw [List.length_drop, List.length_cons] at this
    omega
  | succ n ih =>
    obtain ⟨p, hfind, hle⟩ := find_le_of_isPrefix hstart h hne
    have hp := of_find_eq_some hfind
    rw [occurrencesFrom_of_find_eq_some hfind]
    rcases Nat.eq_or_lt_of_le hle with rfl | hlt
    · exact List.mem_cons_self
    · have hend := add_length_le_of_isPrefix hc hp.2 h hlt
      refine List.mem_cons_of_mem _ (ih ?_ hend)
      rw [List.length_cons]
      omega

/-- **A pattern that cannot overlap itself is met wherever it is.** -/
theorem mem_occurrences {c : Char} {pat s : Str} (hc : c ∉ pat) {q : ℕ} :
    q ∈ occurrences (c :: pat) s ↔ c :: pat <+: s.drop q :=
  ⟨fun h ↦ (isPrefix_of_mem_occurrencesFrom h).2,
    fun h ↦ mem_occurrencesFrom hc (by omega) (Nat.zero_le q) h⟩

theorem pairwise_occurrencesFrom {pat s : Str} (hne : pat ≠ []) (n start : ℕ) :
    (occurrencesFrom pat s n start).Pairwise (· < ·) := by
  induction n generalizing start with
  | zero => exact List.Pairwise.nil
  | succ n ih =>
    cases hfind : find pat s start with
    | none =>
      rw [occurrencesFrom_of_find_eq_none hfind]
      exact List.Pairwise.nil
    | some p =>
      rw [occurrencesFrom_of_find_eq_some hfind]
      have hpos := List.length_pos_iff_ne_nil.2 hne
      refine List.pairwise_cons.2 ⟨fun q hq ↦ ?_, ih _⟩
      have := (isPrefix_of_mem_occurrencesFrom hq).1
      omega

/-- The occurrences, from left to right. -/
theorem occurrences_eq_filter {c : Char} {pat s : Str} (hc : c ∉ pat) : occurrences (c :: pat) s =
    (List.range s.length).filter fun q ↦ (c :: pat).isPrefixOf (s.drop q) := by
  refine (pairwise_occurrencesFrom (List.cons_ne_nil c pat) _ _).eq_of_mem_iff
    (List.pairwise_lt_range.filter _) fun q ↦ ?_
  show q ∈ occurrences (c :: pat) s ↔ _
  rw [mem_occurrences hc, List.mem_filter, List.isPrefixOf_iff_prefix, List.mem_range]
  refine (and_iff_right_of_imp fun h ↦ ?_).symm
  have := h.length_le
  rw [List.length_drop, List.length_cons] at this
  omega

/-- **The occurrences in two texts**, one behind the other, if none begins in the first one and ends
in the second. -/
theorem occurrences_append {c x : Char} {pat : Str} (hc : c ∉ pat) (hx : x ∉ c :: pat) (a b : Str) :
    occurrences (c :: pat) (a ++ [x] ++ b) = occurrences (c :: pat) (a ++ [x]) ++
      (occurrences (c :: pat) b).map ((a ++ [x]).length + ·) := by
  rw [occurrences_eq_filter hc, occurrences_eq_filter hc, occurrences_eq_filter hc,
    List.length_append, List.range_add, List.filter_append, List.filter_map]
  congr 1
  · refine List.filter_congr fun q hq ↦ ?_
    rw [List.mem_range, List.length_append, List.length_singleton] at hq
    have key : ∀ t, c :: pat <+: (a ++ x :: t).drop q ↔ c :: pat <+: a.drop q := by
      intro t
      rw [List.drop_append_of_le_length (by omega)]
      refine ⟨isPrefix_of_append fun d hd ↦ ?_, fun h ↦ h.trans (List.prefix_append _ _)⟩
      rwa [← Option.some.inj hd]
    have hsplit : a ++ [x] ++ b = a ++ x :: b := by simp
    rw [Bool.eq_iff_iff, List.isPrefixOf_iff_prefix, List.isPrefixOf_iff_prefix, hsplit, key,
      key []]
  · congr 2
    funext q
    rw [Function.comp_apply, List.drop_length_add_append]

/-- There is none in a text without the first character of the pattern. -/
theorem occurrences_of_notMem {c : Char} {s : Str} (hc : c ∉ s) (pat : Str) :
    occurrences (c :: pat) s = [] := by
  refine List.eq_nil_iff_forall_not_mem.2 fun q hq ↦ hc ?_
  exact List.mem_of_getElem? (getElem?_of_isPrefix (isPrefix_of_mem_occurrencesFrom hq).2)

/-- A text with one occurrence. -/
theorem occurrences_of_single {c : Char} {a b : Str} (ha : c ∉ a) (hb : c ∉ b) (pat : Str) :
    occurrences (c :: pat) (a ++ (c :: pat ++ b)) = [a.length] := by
  have hfirst := find_of_notMem ha [] pat b
  rw [List.nil_append, List.length_nil, Nat.zero_add] at hfirst
  have hnone : find (c :: pat) b 0 = none := by
    rw [find_eq_none_iff (List.cons_ne_nil _ _)]
    intro q _ hq
    exact hb (List.mem_of_getElem? (getElem?_of_isPrefix hq))
  have hrest := find_append_right (c :: pat) (a ++ c :: pat) b 0
  rw [hnone, Option.map_none, List.append_assoc, List.length_append, Nat.add_zero] at hrest
  rw [occurrences, occurrencesFrom_of_find_eq_some hfirst,
    occurrencesFrom_of_find_eq_none hrest]

/-! ### `atoi` -/

/-- The value of the leading digits. -/
def leadingNat (s : Str) : ℕ := Nat.ofDigitChars 10 (s.takeWhile Char.isDigit) 0

/-- `isspace`, in the C locale: the blank, and the characters from the tab to the carriage return,
among which are the vertical tab and the form feed. -/
def isspace (c : Char) : Bool := c == ' ' || ('\t' ≤ c && c ≤ '\r')

/-- `strtol` to base ten: leading white space is skipped, a sign is honoured, and digits are read as
far as they go. A text without a numeral gives `0`, and a number that is no `long` of 64 bits the
end of their range. -/
def strtol (s : Str) : ℤ :=
  let n : ℤ :=
    match s.dropWhile isspace with
    | '-' :: t => -(leadingNat t : ℤ)
    | '+' :: t => leadingNat t
    | t => leadingNat t
  max (-0x8000000000000000) (min n 0x7fffffffffffffff)

/-- `atoi`: the `long` that `strtol` reads, of which an `int` keeps the lower 32 bits. -/
def atoi (s : Str) : ℤ := (strtol s).bmod 0x100000000

/-- White space in front does not count. -/
theorem atoi_cons_of_isspace {c : Char} (hc : isspace c = true) (s : Str) :
    atoi (c :: s) = atoi s := by
  rw [atoi, strtol, List.dropWhile_cons_of_pos hc, ← strtol, ← atoi]

example : ["42".toList, "\x0b -7x".toList, "4294967296".toList, "99999999999999999999".toList].map
    atoi = [42, -7, 0, -1] := by decide

end CString
