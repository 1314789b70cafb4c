import CArchitecture.Library.OrdMap
import CArchitecture.Library.Loop
import Mathlib.Data.List.Infix
import Mathlib.Data.List.Perm.Subperm
import Mathlib.Data.Set.Function

/-!
# Numbering by first occurrence

Scanning a sequence and giving every element that has not been met the next free number. Abstractly
the numbering **is** a list: `seen`, the distinct elements in the order of their first occurrence,
and the number of an element is its position there. A program keeps it as a lookup table and a
counter instead; `Numbers` says that a table agrees with a list, `Lists` says the same of the
inverse table, and the two `insert` lemmas are the step that keeps them in agreement. `Marks` is the
same for a table that only remembers which elements were met. The numbers themselves, written down
as they are given, are a `RestrictedGrowth` string.
-/

namespace FirstSeen

section Scan

variable {α : Type*} [LinearOrder α]

/-- Meet one element: it is appended unless it was met before. -/
def push (seen : List α) (x : α) : List α := if x ∈ seen then seen else seen ++ [x]

/-- Meet the elements of a list, one after another. -/
def scan (seen l : List α) : List α := l.foldl push seen

@[simp] theorem scan_nil (seen : List α) : scan seen [] = seen := rfl

theorem scan_cons (seen : List α) (x : α) (l : List α) :
    scan seen (x :: l) = scan (push seen x) l := rfl

theorem scan_append (seen l l' : List α) : scan seen (l ++ l') = scan (scan seen l) l' :=
  List.foldl_append

theorem push_of_mem {seen : List α} {x : α} (h : x ∈ seen) : push seen x = seen := if_pos h

theorem push_of_notMem {seen : List α} {x : α} (h : x ∉ seen) : push seen x = seen ++ [x] :=
  if_neg h

theorem mem_push {seen : List α} {x y : α} : y ∈ push seen x ↔ y ∈ seen ∨ y = x := by
  by_cases h : x ∈ seen
  · rw [push_of_mem h]
    exact ⟨Or.inl, fun hy ↦ hy.elim id fun e ↦ e ▸ h⟩
  · rw [push_of_notMem h, List.mem_append, List.mem_singleton]

theorem nodup_push {seen : List α} {x : α} (h : seen.Nodup) : (push seen x).Nodup := by
  by_cases hx : x ∈ seen
  · rwa [push_of_mem hx]
  · rw [push_of_notMem hx]
    exact h.append (List.nodup_singleton x) (List.disjoint_singleton.2 hx)

theorem isPrefix_push (seen : List α) (x : α) : seen <+: push seen x := by
  by_cases h : x ∈ seen
  · rw [push_of_mem h]
  · rw [push_of_notMem h]
    exact List.prefix_append _ _

theorem length_push_le (seen : List α) (x : α) : (push seen x).length ≤ seen.length + 1 := by
  rw [push]
  split_ifs
  · exact Nat.le_succ _
  · rw [List.length_append, List.length_singleton]

theorem mem_scan {seen l : List α} {y : α} : y ∈ scan seen l ↔ y ∈ seen ∨ y ∈ l := by
  induction l generalizing seen with
  | nil => simp
  | cons x l ih => rw [scan_cons, ih, mem_push, List.mem_cons, or_assoc]

theorem nodup_scan {seen : List α} (h : seen.Nodup) (l : List α) : (scan seen l).Nodup := by
  induction l generalizing seen with
  | nil => exact h
  | cons x l ih => exact ih (nodup_push h)

theorem isPrefix_scan (seen l : List α) : seen <+: scan seen l := by
  induction l generalizing seen with
  | nil => exact List.prefix_rfl
  | cons x l ih => exact (isPrefix_push seen x).trans (ih (push seen x))

/-- The number of an element: its position. -/
def number (seen : List α) (x : α) : ℕ := seen.idxOf x

/-- Numbers never change once given. -/
theorem number_eq_of_isPrefix {seen t : List α} {x : α} (h : seen <+: t) (hx : x ∈ seen) :
    number t x = number seen x := by
  obtain ⟨r, rfl⟩ := h
  exact List.idxOf_append_of_mem hx

/-- A new element gets the next number. -/
theorem number_append_self {seen : List α} {x : α} (hx : x ∉ seen) :
    number (seen ++ [x]) x = seen.length := by
  rw [number, List.idxOf_append_of_notMem hx]
  simp

theorem number_lt {seen : List α} {x : α} (hx : x ∈ seen) : number seen x < seen.length :=
  List.idxOf_lt_length_iff.2 hx

theorem getElem?_number {seen : List α} {x : α} (hx : x ∈ seen) :
    seen[number seen x]? = some x := by
  rw [List.getElem?_eq_getElem (number_lt hx)]
  exact congrArg some (List.getElem_idxOf (number_lt hx))

theorem number_getElem {seen : List α} (hnd : seen.Nodup) {i : ℕ} (hi : i < seen.length) :
    number seen seen[i] = i :=
  hnd.idxOf_getElem i hi

/-- What has been met comes before what has not. -/
theorem number_lt_number {seen t : List α} {x y : α} (h : seen <+: t) (hx : x ∈ seen)
    (hy : y ∉ seen) : number t x < number t y := by
  rw [number_eq_of_isPrefix h hx]
  obtain ⟨r, rfl⟩ := h
  have hlt := number_lt hx
  rw [number, number, List.idxOf_append_of_notMem hy]
  exact hlt.trans_le (Nat.le_add_right _ _)

/-- **Numbering is a bijection** between the elements met and the numbers given. -/
theorem bijOn_number {seen : List α} (hnd : seen.Nodup) :
    Set.BijOn (number seen) {x | x ∈ seen} {k | k < seen.length} := by
  refine ⟨fun x hx ↦ number_lt hx, fun x hx y hy hxy ↦ ?_, fun k hk ↦ ?_⟩
  · have h := getElem?_number hx
    rw [hxy, getElem?_number hy] at h
    exact (Option.some.inj h).symm
  · exact ⟨seen[k], List.getElem_mem hk, number_getElem hnd hk⟩

end Scan

/-! ### The sequence of the numbers -/

/-- A restricted growth string: it begins with `0`, and every further entry is at most one more than
some entry before it. -/
structure RestrictedGrowth (l : List ℕ) : Prop where
  head_eq_zero : ∀ x ∈ l.head?, x = 0
  exists_le : ∀ front x rear, l = front ++ x :: rear → front ≠ [] → ∃ y ∈ front, x ≤ y + 1

section Sequence

variable {α : Type*} [LinearOrder α]

/-- The elements of a list, numbered as they are met. -/
def numbering (l : List α) : List ℕ := l.map (number (scan [] l))

theorem length_numbering (l : List α) : (numbering l).length = l.length := List.length_map _

/-- Meeting one more element. -/
theorem numbering_concat (l : List α) (x : α) :
    numbering (l ++ [x]) = numbering l ++ [number (push (scan [] l) x) x] := by
  have hscan : scan [] (l ++ [x]) = push (scan [] l) x := scan_append [] l [x]
  rw [numbering, numbering, List.map_append, hscan]
  refine congrArg (· ++ _) (List.map_congr_left fun y hy ↦ ?_)
  exact number_eq_of_isPrefix (isPrefix_push _ x) (mem_scan.2 (Or.inr hy))

/-- An element has one of the numbers given before it, or the next one. -/
theorem number_scan_le {l front rear : List α} {x : α} (hl : l = front ++ x :: rear) :
    number (scan [] l) x ≤ (scan [] front).length := by
  have hmet : x ∈ push (scan [] front) x := mem_push.2 (Or.inr rfl)
  have hbefore : push (scan [] front) x <+: scan [] l := by
    rw [hl, scan_append, scan_cons]
    exact isPrefix_scan _ _
  rw [number_eq_of_isPrefix hbefore hmet]
  exact Nat.le_of_lt_succ ((number_lt hmet).trans_le (length_push_le _ x))

/-- **The numbers are a restricted growth string.** -/
theorem restrictedGrowth_numbering (l : List α) : RestrictedGrowth (numbering l) where
  head_eq_zero x hx := by
    cases l with
    | nil => exact absurd hx (by simp [numbering])
    | cons a l =>
      obtain rfl : number (scan [] (a :: l)) a = x := by simpa [numbering] using hx
      exact Nat.le_zero.1 (number_scan_le (List.nil_append (a :: l)).symm)
  exists_le front x rear hsplit hne := by
    obtain ⟨l₁, l₂, hl, hfront, hrear⟩ := List.map_eq_append_iff.1 hsplit
    obtain ⟨a, l₃, rfl, rfl, -⟩ := List.map_eq_cons_iff.1 hrear
    have hmet : scan [] l₁ ≠ [] := by
      obtain ⟨b, hb⟩ := List.exists_mem_of_ne_nil l₁ fun h ↦ hne (by rw [← hfront, h]; rfl)
      exact List.ne_nil_of_mem (mem_scan.2 (Or.inr hb))
    -- the element that was numbered last before this one
    have hlast := List.getLast_mem hmet
    have hnumber : number (scan [] l) ((scan [] l₁).getLast hmet) + 1 = (scan [] l₁).length := by
      have hbefore : scan [] l₁ <+: scan [] l := by
        rw [hl, scan_append]
        exact isPrefix_scan _ _
      have hpos := List.length_pos_of_ne_nil hmet
      rw [number_eq_of_isPrefix hbefore hlast, List.getLast_eq_getElem,
        number_getElem (nodup_scan List.nodup_nil l₁)]
      omega
    refine ⟨_, hfront ▸ List.mem_map_of_mem ((mem_scan.1 hlast).resolve_left List.not_mem_nil), ?_⟩
    exact (number_scan_le hl).trans hnumber.ge

/-- **Equal numbers are equal elements.** -/
theorem numbering_getElem?_eq_iff {l : List α} {i j : ℕ} (hi : i < l.length) (hj : j < l.length) :
    (numbering l)[i]? = (numbering l)[j]? ↔ l[i] = l[j] := by
  rw [numbering, List.getElem?_map, List.getElem?_map, List.getElem?_eq_getElem hi,
    List.getElem?_eq_getElem hj, Option.map_some, Option.map_some, Option.some_inj]
  refine ⟨fun h ↦ ?_, congrArg _⟩
  exact (bijOn_number (nodup_scan List.nodup_nil l)).injOn
    (mem_scan.2 (Or.inr (List.getElem_mem hi))) (mem_scan.2 (Or.inr (List.getElem_mem hj))) h

end Sequence

section Limit

variable {α : Type*} [LinearOrder α]

/-- Meet one element, unless `total` elements have been met. -/
def pushUpTo (total : ℕ) (seen : List α) (x : α) : List α :=
  if total ≤ seen.length then seen else push seen x

/-- Meeting elements up to a limit is meeting all and keeping the first ones. -/
theorem foldl_pushUpTo {total : ℕ} {seen : List α} (h : seen.length ≤ total) (l : List α) :
    l.foldl (pushUpTo total) seen = (scan seen l).take total := by
  induction l generalizing seen with
  | nil => exact (List.take_of_length_le h).symm
  | cons x l ih =>
    rw [List.foldl_cons, scan_cons, pushUpTo]
    split_ifs with hfull
    · -- nothing is added any more, and what a longer scan would add is cut off
      obtain rfl : seen.length = total := Nat.le_antisymm h hfull
      rw [ih h, ← List.prefix_iff_eq_take.1 (isPrefix_scan seen l)]
      exact List.prefix_iff_eq_take.1 ((isPrefix_push seen x).trans (isPrefix_scan _ l))
    · exact ih ((length_push_le seen x).trans (Nat.lt_of_not_le hfull))

end Limit

/-! ### Tables that agree with a numbering -/

section Tables

variable {α : Type*} [LinearOrder α]

/-- The table gives every element of `seen` its position, counted from `b`, and nothing else. -/
def Numbers (m : OrdMap α ℕ) (b : ℕ) (seen : List α) : Prop :=
  ∀ x, m.find? x = if x ∈ seen then some (b + number seen x) else none

theorem numbers_empty (b : ℕ) : Numbers (∅ : OrdMap α ℕ) b [] := fun _ ↦ by simp

theorem Numbers.find?_of_mem {m : OrdMap α ℕ} {b : ℕ} {seen : List α} {x : α}
    (h : Numbers m b seen) (hx : x ∈ seen) : m.find? x = some (b + number seen x) := by
  rw [h x, if_pos hx]

theorem Numbers.find?_of_notMem {m : OrdMap α ℕ} {b : ℕ} {seen : List α} {x : α}
    (h : Numbers m b seen) (hx : x ∉ seen) : m.find? x = none := by
  rw [h x, if_neg hx]

theorem Numbers.mem_of_find? {m : OrdMap α ℕ} {b : ℕ} {seen : List α} {x : α} {k : ℕ}
    (h : Numbers m b seen) (hx : m.find? x = some k) : x ∈ seen ∧ k = b + number seen x := by
  rw [h x] at hx
  split_ifs at hx with hmem
  exact ⟨hmem, (Option.some.inj hx).symm⟩

/-- **The numbering step**: an element not met before gets the next number. -/
theorem Numbers.insert {m : OrdMap α ℕ} {b : ℕ} {seen : List α} {x : α} (h : Numbers m b seen)
    (hx : x ∉ seen) : Numbers (m.insert x (b + seen.length)) b (seen ++ [x]) := by
  intro y
  rw [OrdMap.find?_insert]
  rcases eq_or_ne y x with hy | hy
  · subst hy
    rw [if_pos rfl, h.find?_of_notMem hx, Option.none_or, if_pos (by simp), number_append_self hx]
  · rw [if_neg hy, h y]
    by_cases hmem : y ∈ seen
    · rw [if_pos hmem, if_pos (List.mem_append_left _ hmem),
        number_eq_of_isPrefix (List.prefix_append _ _) hmem]
    · rw [if_neg hmem, if_neg (by simp [hmem, hy])]

end Tables

section Marks

variable {α B : Type*} [LinearOrder α]

/-- The table has an entry for the elements of `seen`, which are distinct, and for nothing else. -/
structure Marks (m : OrdMap α B) (seen : List α) : Prop where
  nodup : seen.Nodup
  isSome_iff : ∀ x, (m.find? x).isSome ↔ x ∈ seen

theorem marks_empty : Marks (∅ : OrdMap α B) [] := ⟨List.nodup_nil, by simp⟩

theorem Marks.mem_of_find? {m : OrdMap α B} {seen : List α} {x : α} {b : B} (h : Marks m seen)
    (hx : m.find? x = some b) : x ∈ seen :=
  (h.isSome_iff x).1 (by rw [hx]; rfl)

theorem Marks.notMem_of_find? {m : OrdMap α B} {seen : List α} {x : α} (h : Marks m seen)
    (hx : m.find? x = none) : x ∉ seen := by
  rw [← h.isSome_iff x, hx]
  exact Bool.false_ne_true

/-- **The marking step.** -/
theorem Marks.insert {m : OrdMap α B} {seen : List α} {x : α} (h : Marks m seen)
    (hx : m.find? x = none) (b : B) : Marks (m.insert x b) (seen ++ [x]) where
  nodup := push_of_notMem (h.notMem_of_find? hx) ▸ nodup_push h.nodup
  isSome_iff y := by
    rw [List.mem_append, List.mem_singleton, OrdMap.find?_insert, ← h.isSome_iff y]
    rcases eq_or_ne y x with hy | hy
    · simp [hy]
    · simp [hy]

/-- There is room for what has not been met. -/
theorem Marks.length_le {m : OrdMap ℕ B} {seen : List ℕ} {n : ℕ} (h : Marks m seen)
    (hlt : ∀ x ∈ seen, x < n) : seen.length ≤ n := by
  have hsub := (h.nodup.subperm fun x hx ↦ List.mem_range.2 (hlt x hx)).length_le
  rwa [List.length_range] at hsub

/-- The keys of the table, in their order, are what was met, in another one. -/
theorem Marks.perm_keys {m : OrdMap α B} {seen : List α} (h : Marks m seen) : m.keys.Perm seen :=
  (List.perm_ext_iff_of_nodup m.nodup_keys h.nodup).2 fun x ↦ by
    rw [OrdMap.mem_keys_iff, h.isSome_iff]

end Marks

section Inverse

variable {α : Type*}

/-- The table gives every position of `seen` its element. -/
def Lists (m : OrdMap ℕ α) (seen : List α) : Prop :=
  ∀ i, m.find? i = seen[i]?

theorem lists_empty : Lists (∅ : OrdMap ℕ α) [] := fun _ ↦ by simp

/-- The inverse table follows along. -/
theorem Lists.insert {m : OrdMap ℕ α} {seen : List α} (h : Lists m seen) (x : α) :
    Lists (m.insert seen.length x) (seen ++ [x]) := by
  intro i
  rw [OrdMap.find?_insert]
  rcases eq_or_ne i seen.length with hi | hi
  · subst hi
    rw [if_pos rfl, h, List.getElem?_eq_none le_rfl, Option.none_or]
    simp
  · rw [if_neg hi, h]
    rcases Nat.lt_or_ge i seen.length with hlt | hge
    · rw [List.getElem?_append_left hlt]
    · rw [List.getElem?_eq_none hge,
        List.getElem?_eq_none (by rw [List.length_append, List.length_singleton]; omega)]

end Inverse

end FirstSeen
