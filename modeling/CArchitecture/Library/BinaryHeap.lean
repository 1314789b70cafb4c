import Mathlib.Data.Nat.Init
import Mathlib.Order.Lattice
import Mathlib.Order.Nat

/-!
# Binary heaps in arrays

An array `K` is read as a binary tree: the children of position `i` are `2 * i + 1` and `2 * i + 2`.
Below a length `n` it is a heap where every position **tops** its children.

The operation that restores a heap lets an entry sink: it changes places with the larger one of its
children, as long as that is larger than itself. `SunkTo` says what the array is like in between:
all positions of the tree below `i` top their children except the one that the entry has reached,
and what is above that one is at least as large as everything below it. Each exchange keeps this
(`SunkTo.swap`), and where the entry stops, the tree is a heap (`SunkTo.tops_all`).
-/

namespace BinaryHeap

/-- The position `c` is a child of `i`. -/
def IsChild (i c : ℕ) : Prop := c = 2 * i + 1 ∨ c = 2 * i + 2

theorem IsChild.lt {i c : ℕ} (h : IsChild i c) : i < c := by
  rcases h with rfl | rfl <;> omega

theorem IsChild.parent_unique {i j c : ℕ} (hi : IsChild i c) (hj : IsChild j c) : i = j := by
  rcases hi with rfl | rfl <;> rcases hj with hj | hj <;> omega

/-- The tree below a position, which belongs to it. -/
inductive Under (i : ℕ) : ℕ → Prop
  | self : Under i i
  | child {k c : ℕ} : Under i k → IsChild k c → Under i c

namespace Under

variable {i k : ℕ}

theorem le (h : Under i k) : i ≤ k := by
  induction h with
  | self => exact le_rfl
  | child _ hc ih => exact ih.trans hc.lt.le

theorem trans {j : ℕ} (h : Under i j) (h' : Under j k) : Under i k := by
  induction h' with
  | self => exact h
  | child _ hc ih => exact ih.child hc

/-- Below a position are the trees of its children. -/
theorem eq_or_exists_child (h : Under i k) : k = i ∨ ∃ c, IsChild i c ∧ Under c k := by
  induction h with
  | self => exact Or.inl rfl
  | child hk hc ih =>
    rcases ih with rfl | ⟨d, hd, hdk⟩
    · exact Or.inr ⟨_, hc, self⟩
    · exact Or.inr ⟨d, hd, hdk.child hc⟩

theorem zero (k : ℕ) : Under 0 k := by
  induction k using Nat.strong_induction_on with
  | _ k ih =>
    rcases Nat.eq_zero_or_pos k with rfl | hpos
    · exact self
    · exact (ih ((k - 1) / 2) (by omega)).child (by rw [IsChild]; omega)

end Under

variable {β : Type*} [LinearOrder β] {K K' : ℕ → β} {n i j l : ℕ}

/-- A position is at least as large as its children. -/
def Tops (K : ℕ → β) (n i : ℕ) : Prop := ∀ c, IsChild i c → c < n → K c ≤ K i

theorem Tops.congr (h : Tops K n i) (hi : K' i = K i) (hc : ∀ c, IsChild i c → K' c = K c) :
    Tops K' n i := by
  intro c hic hcn
  rw [hi, hc c hic]
  exact h c hic hcn

/-- **The top of a heap is its largest entry.** -/
theorem le_top (h : ∀ k, Under i k → Tops K n k) {k : ℕ} (hk : Under i k) (hkn : k < n) :
    K k ≤ K i := by
  induction hk with
  | self => exact le_rfl
  | child hk hc ih => exact (h _ hk _ hc hkn).trans (ih (hc.lt.trans hkn))

/-- The entry that sinks from `i` has reached `j`. -/
structure SunkTo (K : ℕ → β) (n i j : ℕ) : Prop where
  under : Under i j
  tops : ∀ k, Under i k → k ≠ j → Tops K n k
  /-- What is above `j` is at least as large as what is below. -/
  above : ∀ k, Under i k → IsChild k j → ∀ c, IsChild j c → c < n → K c ≤ K k

/-- Before it sinks. -/
theorem SunkTo.start (h : ∀ k, Under i k → k ≠ i → Tops K n k) : SunkTo K n i i where
  under := Under.self
  tops := h
  above _ hk hki := absurd hk.le (not_le.2 hki.lt)

/-- **It sinks** to the child `l`, which is at least as large as itself and the other child. -/
theorem SunkTo.swap (h : SunkTo K n i j) (hl : IsChild j l) (hln : l < n) (hjl : K j ≤ K l)
    (hother : ∀ c, IsChild j c → c < n → K c ≤ K l) (hKj : K' j = K l) (hKl : K' l = K j)
    (hK : ∀ k, k ≠ j → k ≠ l → K' k = K k) : SunkTo K' n i l := by
  have hlt := hl.lt
  refine ⟨h.under.child hl, fun k hk hkl ↦ ?_, fun k _ hkl c hc hcn ↦ ?_⟩
  · rcases eq_or_ne k j with rfl | hkj
    · -- the larger child is on top now
      intro c hc hcn
      rw [hKj]
      rcases eq_or_ne c l with rfl | hcl
      · rw [hKl]
        exact hjl
      · rw [hK c hc.lt.ne' hcl]
        exact hother c hc hcn
    · intro c hc hcn
      have hcl : c ≠ l := fun e ↦ hkj ((e ▸ hc).parent_unique hl)
      rw [hK k hkj hkl]
      rcases eq_or_ne c j with rfl | hcj
      · rw [hKj]
        exact h.above k hk hc l hl hln
      · rw [hK c hcj hcl]
        exact h.tops k hk hkj c hc hcn
  · obtain rfl := hkl.parent_unique hl
    have hlc := hc.lt
    rw [hKj, hK c (by omega) hlc.ne']
    exact h.tops l (h.under.child hl) hlt.ne' c hc hcn

/-- **It stops** where it is at least as large as its children. -/
theorem SunkTo.tops_all (h : SunkTo K n i j) (hj : Tops K n j) {k : ℕ} (hk : Under i k) :
    Tops K n k := by
  rcases eq_or_ne k j with rfl | hne
  · exact hj
  · exact h.tops k hk hne

end BinaryHeap
