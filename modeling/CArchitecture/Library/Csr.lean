import Mathlib.Data.List.Basic
import Mathlib.Data.List.Range
import Mathlib.Logic.Function.Basic

/-!
# Compressed rows

A list of rows stored as two arrays: the cells one after another, and for each row the offset at
which it starts, with one more offset at the end. An array is a function on indices; what it holds
beyond the cells in question is left open, so `Cells` and `Offsets` say exactly which part of an
array a program has filled so far, and each of their `push` lemmas is one assignment.
`segment_eq_getElem` reads a row back.
-/

namespace Csr

variable {α : Type*}

/-- Row `i`: the cells from its offset up to the next one. -/
def segment (ptr : ℕ → ℕ) (ind : ℕ → α) (i : ℕ) : List α :=
  (List.range' (ptr i) (ptr (i + 1) - ptr i)).map ind

/-- The array starts with the entries of `l`. -/
def Cells (ind : ℕ → α) (l : List α) : Prop :=
  ∀ j (h : j < l.length), ind j = l[j]

/-- The first `n` offsets are those of the rows `rows`. -/
def Offsets (ptr : ℕ → ℕ) (rows : List (List α)) (n : ℕ) : Prop :=
  ∀ k < n, ptr k = (rows.take k).flatten.length

theorem cells_nil (ind : ℕ → α) : Cells ind [] := fun _ h ↦ absurd h (Nat.not_lt_zero _)

/-- Assigning the next cell. -/
theorem Cells.push {ind : ℕ → α} {l : List α} (h : Cells ind l) (x : α) :
    Cells (Function.update ind l.length x) (l ++ [x]) := by
  intro j hj
  rw [List.length_append, List.length_singleton] at hj
  rcases Nat.lt_or_ge j l.length with hlt | hge
  · rw [Function.update_of_ne hlt.ne, List.getElem_append_left hlt, h j hlt]
  · obtain rfl : j = l.length := by omega
    rw [Function.update_self, List.getElem_append_right le_rfl]
    simp

theorem offsets_zero (ptr : ℕ → ℕ) (rows : List (List α)) : Offsets ptr rows 0 :=
  fun _ h ↦ absurd h (Nat.not_lt_zero _)

/-- Assigning the next offset. -/
theorem Offsets.push {ptr : ℕ → ℕ} {rows : List (List α)} {n : ℕ} (h : Offsets ptr rows n) :
    Offsets (Function.update ptr n (rows.take n).flatten.length) rows (n + 1) := by
  intro k hk
  rcases Nat.lt_or_ge k n with hlt | hge
  · rw [Function.update_of_ne hlt.ne, h k hlt]
  · obtain rfl : k = n := by omega
    rw [Function.update_self]

/-- Offsets only look at the rows before them, so a new last row leaves them right. -/
theorem Offsets.append_row {ptr : ℕ → ℕ} {rows : List (List α)} {n : ℕ} (h : Offsets ptr rows n)
    (hn : n ≤ rows.length + 1) (row : List α) : Offsets ptr (rows ++ [row]) n := by
  intro k hk
  rw [h k hk, List.take_append_of_le_length (by omega)]

/-- Offsets only look at the lengths of the rows. -/
theorem Offsets.map {β : Type*} {ptr : ℕ → ℕ} {rows : List (List α)} {n : ℕ}
    (h : Offsets ptr rows n) (f : α → β) : Offsets ptr (rows.map (List.map f)) n := by
  intro k hk
  rw [h k hk, ← List.map_take, ← List.map_flatten, List.length_map]

theorem flatten_take_succ {rows : List (List α)} {i : ℕ} (hi : i < rows.length) :
    (rows.take (i + 1)).flatten = (rows.take i).flatten ++ rows[i] := by
  rw [List.take_succ_eq_append_getElem hi, List.flatten_append, List.flatten_singleton]

/-- **Reading a row back.** -/
theorem segment_eq_getElem {ptr : ℕ → ℕ} {ind : ℕ → α} {rows : List (List α)}
    (hptr : Offsets ptr rows (rows.length + 1)) (hind : Cells ind rows.flatten) {i : ℕ}
    (hi : i < rows.length) : segment ptr ind i = rows[i] := by
  have hsucc := flatten_take_succ hi
  have hlen : ptr (i + 1) - ptr i = rows[i].length := by
    rw [hptr _ (by omega), hptr _ (by omega), hsucc, List.length_append]
    omega
  -- the row sits inside the flattened list, after the rows before it
  have hsplit : rows.flatten = (rows.take i).flatten ++ rows[i] ++ (rows.drop (i + 1)).flatten := by
    rw [← hsucc, ← List.flatten_append, List.take_append_drop]
  refine List.ext_getElem (by rw [segment, hlen]; simp) fun j hj _ ↦ ?_
  rw [segment, hlen, List.length_map, List.length_range'] at hj
  have hcell : ptr i + j < rows.flatten.length := by
    rw [hsplit, hptr _ (by omega), List.length_append, List.length_append]
    omega
  have hget : ind (ptr i + j) = rows.flatten[ptr i + j] := hind _ hcell
  simp only [segment, List.getElem_map, List.getElem_range', Nat.one_mul]
  rw [hget]
  simp only [hsplit, hptr i (by omega)]
  rw [List.getElem_append_left (by rw [List.length_append]; omega),
    List.getElem_append_right (by omega)]
  simp

/-- All rows, in order. -/
theorem map_segment_range {ptr : ℕ → ℕ} {ind : ℕ → α} {rows : List (List α)}
    (hptr : Offsets ptr rows (rows.length + 1)) (hind : Cells ind rows.flatten) :
    (List.range rows.length).map (segment ptr ind) = rows := by
  refine List.ext_getElem (by simp) fun i hi _ ↦ ?_
  rw [List.length_map, List.length_range] at hi
  rw [List.getElem_map, List.getElem_range, segment_eq_getElem hptr hind hi]

/-- All cells, in order. -/
theorem map_range_of_cells {ind : ℕ → α} {l : List α} (h : Cells ind l) :
    (List.range l.length).map ind = l := by
  refine List.ext_getElem (by simp) fun i hi _ ↦ ?_
  rw [List.length_map, List.length_range] at hi
  rw [List.getElem_map, List.getElem_range, h i hi]

end Csr
