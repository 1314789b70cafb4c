import CArchitecture.Library.BinaryHeap
import CArchitecture.Library.Loop
import Mathlib.Algebra.Order.Ring.Rat
import Mathlib.Data.Prod.Lex
import Mathlib.Data.Rat.Defs
import Mathlib.Logic.Equiv.Basic
import Mathlib.Logic.Function.Basic

/-!
# The heap of candidates

`CHeapSort` keeps the candidates of the hill climb in an array that is ordered as a heap, by the
modularity a move would lead to and, among equals, by rank. Its operations only ever **swap** two
entries below the length they are given, so whatever they do to the order, they leave a permutation
of the array that is fixed from that length on (`Rearranges`).

`AdjustHeap` makes a heap of a tree whose subtrees are heaps (`tops_adjustHeap`), so `BuildHeap`
makes one of any array, and in both modes of `getMax` the greatest candidate comes to the **top**.
But the climb takes the last entry, and only with `renew` are the two exchanged
(`getMax_takesGreatest_iff`).

The operations are written as recursions; at the end the loop of `AdjustHeap` is run with the
variables it has in the source, and leaves the same array (`adjustHeapLoop_eq`).
-/

namespace CArchitecture

/-- A candidate: a node, and the modularity that moving it was found to lead to. -/
structure ModStruct where
  node : ℕ
  dMod : ℚ
  deriving Inhabited, DecidableEq

/-- Exchange two entries. -/
def swapEntries (A : ℕ → ModStruct) (i j : ℕ) : ℕ → ModStruct :=
  Function.update (Function.update A j (A i)) i (A j)

/-- The larger one of the entry `largest` and the entry `child`, if the latter is in the heap. -/
def largerChild (A : ℕ → ModStruct) (hLen : ℕ) (Node_Rank : ℕ → ℤ) (largest child : ℕ) : ℕ :=
  if child < hLen ∧ (A largest).dMod ≤ (A child).dMod then
    if (A largest).dMod = (A child).dMod then
      if Node_Rank (A largest).node > Node_Rank (A child).node then child else largest
    else child
  else largest

theorem largerChild_eq_or (A : ℕ → ModStruct) (hLen : ℕ) (Node_Rank : ℕ → ℤ) (l c : ℕ) :
    largerChild A hLen Node_Rank l c = l ∨
      largerChild A hLen Node_Rank l c = c ∧ c < hLen := by
  rw [largerChild]
  split_ifs with h₁ h₂ h₃
  · exact Or.inr ⟨rfl, h₁.1⟩
  · exact Or.inl rfl
  · exact Or.inr ⟨rfl, h₁.1⟩
  · exact Or.inl rfl

/-- The entry that has to be on top of `i` and its two children. -/
def largestOf (A : ℕ → ModStruct) (hLen : ℕ) (Node_Rank : ℕ → ℤ) (i : ℕ) : ℕ :=
  largerChild A hLen Node_Rank (largerChild A hLen Node_Rank i (2 * i + 1)) (2 * i + 2)

theorem largestOf_eq_or (A : ℕ → ModStruct) (hLen : ℕ) (Node_Rank : ℕ → ℤ) (i : ℕ) :
    largestOf A hLen Node_Rank i = i ∨
      i < largestOf A hLen Node_Rank i ∧ largestOf A hLen Node_Rank i < hLen := by
  rw [largestOf]
  rcases largerChild_eq_or A hLen Node_Rank (largerChild A hLen Node_Rank i (2 * i + 1))
    (2 * i + 2) with h | h
  · rw [h]
    rcases largerChild_eq_or A hLen Node_Rank i (2 * i + 1) with h' | h'
    · exact Or.inl h'
    · exact Or.inr ⟨by omega, by omega⟩
  · exact Or.inr ⟨by omega, by omega⟩

/-- `AdjustHeap`: let the entry `i` sink. -/
def adjustHeap (hLen : ℕ) (Node_Rank : ℕ → ℤ) (A : ℕ → ModStruct) (i : ℕ) : ℕ → ModStruct :=
  if 2 * i + 1 < hLen ∨ 2 * i + 2 < hLen then
    if _h : i ≠ largestOf A hLen Node_Rank i then
      adjustHeap hLen Node_Rank (swapEntries A i (largestOf A hLen Node_Rank i))
        (largestOf A hLen Node_Rank i)
    else A
  else A
termination_by hLen - i
decreasing_by
  have := (largestOf_eq_or A hLen Node_Rank i).resolve_left (Ne.symm _h)
  omega

/-- `BuildHeap`: sink the inner entries, the last one first. -/
def buildHeap (hLen : ℕ) (Node_Rank : ℕ → ℤ) (A : ℕ → ModStruct) : ℕ → ModStruct :=
  (List.range (hLen / 2)).reverse.foldl (adjustHeap hLen Node_Rank) A

/-- `getMax`: with `renew` the heap is built and its top exchanged with its last entry, without it
the top is only let sink. -/
def getMax (renew : Bool) (hLen : ℕ) (Node_Rank : ℕ → ℤ) (A : ℕ → ModStruct) : ℕ → ModStruct :=
  if renew then swapEntries (buildHeap hLen Node_Rank A) 0 (hLen - 1)
  else adjustHeap hLen Node_Rank A 0

/-! ### Rearranging -/

/-- `B` is `A` with the entries below `hLen` in another order. -/
def Rearranges (hLen : ℕ) (A B : ℕ → ModStruct) : Prop :=
  ∃ σ : Equiv.Perm ℕ, (∀ k, hLen ≤ k → σ k = k) ∧ B = A ∘ σ

namespace Rearranges

variable {hLen : ℕ} {A B C : ℕ → ModStruct}

theorem refl (hLen : ℕ) (A : ℕ → ModStruct) : Rearranges hLen A A :=
  ⟨Equiv.refl ℕ, fun _ _ ↦ rfl, rfl⟩

theorem trans (h : Rearranges hLen A B) (h' : Rearranges hLen B C) : Rearranges hLen A C := by
  obtain ⟨σ, hσ, rfl⟩ := h
  obtain ⟨τ, hτ, rfl⟩ := h'
  refine ⟨τ.trans σ, fun k hk ↦ ?_, rfl⟩
  rw [Equiv.trans_apply, hτ k hk, hσ k hk]

theorem swapEntries (A : ℕ → ModStruct) {i j : ℕ} (hi : i < hLen) (hj : j < hLen) :
    Rearranges hLen A (swapEntries A i j) := by
  refine ⟨Equiv.swap i j, fun k hk ↦ Equiv.swap_apply_of_ne_of_ne (by omega) (by omega), ?_⟩
  funext k
  rw [CArchitecture.swapEntries, Function.comp_apply]
  rcases eq_or_ne k i with rfl | hki
  · rw [Function.update_self, Equiv.swap_apply_left]
  · rw [Function.update_of_ne hki]
    rcases eq_or_ne k j with rfl | hkj
    · rw [Function.update_self, Equiv.swap_apply_right]
    · rw [Function.update_of_ne hkj, Equiv.swap_apply_of_ne_of_ne hki hkj]

/-- The entries below `hLen` come from different places below `hLen`. -/
theorem exists_injective (h : Rearranges hLen A B) :
    ∃ σ : ℕ → ℕ, Function.Injective σ ∧ ∀ k < hLen, σ k < hLen ∧ B k = A (σ k) := by
  obtain ⟨σ, hσ, rfl⟩ := h
  refine ⟨σ, σ.injective, fun k hk ↦ ⟨?_, rfl⟩⟩
  by_contra hge
  have hfix := hσ (σ k) (by omega)
  have := σ.injective hfix
  omega

theorem eq_of_le (h : Rearranges hLen A B) {k : ℕ} (hk : hLen ≤ k) : B k = A k := by
  obtain ⟨σ, hσ, rfl⟩ := h
  rw [Function.comp_apply, hσ k hk]

theorem exists_eq (h : Rearranges hLen A B) {k : ℕ} (hk : k < hLen) : ∃ l < hLen, B k = A l := by
  obtain ⟨σ, -, hσ⟩ := h.exists_injective
  exact ⟨σ k, hσ k hk⟩

end Rearranges

theorem rearranges_adjustHeap (hLen : ℕ) (Node_Rank : ℕ → ℤ) (A : ℕ → ModStruct) (i : ℕ) :
    Rearranges hLen A (adjustHeap hLen Node_Rank A i) := by
  induction hn : hLen - i using Nat.strong_induction_on generalizing A i with
  | _ n ih =>
    rw [adjustHeap]
    split_ifs with hchild hlargest
    · have hlt := (largestOf_eq_or A hLen Node_Rank i).resolve_left (Ne.symm hlargest)
      exact (Rearranges.swapEntries A (by omega) hlt.2).trans (ih _ (by omega) _ _ rfl)
    · exact Rearranges.refl hLen A
    · exact Rearranges.refl hLen A

theorem rearranges_buildHeap (hLen : ℕ) (Node_Rank : ℕ → ℤ) (A : ℕ → ModStruct) :
    Rearranges hLen A (buildHeap hLen Node_Rank A) := by
  rw [buildHeap]
  generalize (List.range (hLen / 2)).reverse = l
  induction l generalizing A with
  | nil => exact Rearranges.refl hLen A
  | cons i l ih => exact (rearranges_adjustHeap hLen Node_Rank A i).trans (ih _)

/-- **Both modes of `getMax` rearrange the candidates.** -/
theorem rearranges_getMax (renew : Bool) {hLen : ℕ} (hpos : 0 < hLen) (Node_Rank : ℕ → ℤ)
    (A : ℕ → ModStruct) : Rearranges hLen A (getMax renew hLen Node_Rank A) := by
  rw [getMax]
  split_ifs with hrenew
  · exact (rearranges_buildHeap hLen Node_Rank A).trans
      (Rearranges.swapEntries _ hpos (by omega))
  · exact rearranges_adjustHeap hLen Node_Rank A 0

/-! ### The ranks that are read -/

section SameRanks

variable {hLen : ℕ} {A B : ℕ → ModStruct} {Node_Rank Node_Rank' : ℕ → ℤ}

/-- The candidates have the same ranks in both arrays. -/
def SameRanks (hLen : ℕ) (A : ℕ → ModStruct) (Node_Rank Node_Rank' : ℕ → ℤ) : Prop :=
  ∀ i < hLen, Node_Rank (A i).node = Node_Rank' (A i).node

theorem SameRanks.rearranges (h : SameRanks hLen A Node_Rank Node_Rank')
    (hAB : Rearranges hLen A B) : SameRanks hLen B Node_Rank Node_Rank' := by
  intro i hi
  obtain ⟨l, hl, heq⟩ := hAB.exists_eq hi
  rw [heq]
  exact h l hl

theorem SameRanks.largerChild_eq (h : SameRanks hLen A Node_Rank Node_Rank') {l : ℕ} (hl : l < hLen)
    (c : ℕ) : largerChild A hLen Node_Rank l c = largerChild A hLen Node_Rank' l c := by
  rw [largerChild, largerChild]
  by_cases hc : c < hLen
  · rw [h l hl, h c hc]
  · rw [if_neg fun hle ↦ hc hle.1, if_neg fun hle ↦ hc hle.1]

theorem SameRanks.largestOf_eq (h : SameRanks hLen A Node_Rank Node_Rank') {i : ℕ} (hi : i < hLen) :
    largestOf A hLen Node_Rank i = largestOf A hLen Node_Rank' i := by
  rw [largestOf, largestOf, h.largerChild_eq hi]
  refine h.largerChild_eq ?_ _
  rcases largerChild_eq_or A hLen Node_Rank' i (2 * i + 1) with heq | heq
  · rw [heq]
    exact hi
  · rw [heq.1]
    exact heq.2

theorem SameRanks.adjustHeap_eq (h : SameRanks hLen A Node_Rank Node_Rank') (i : ℕ) :
    adjustHeap hLen Node_Rank A i = adjustHeap hLen Node_Rank' A i := by
  induction hn : hLen - i using Nat.strong_induction_on generalizing A i with
  | _ n ih =>
    rw [adjustHeap, adjustHeap.eq_1 hLen Node_Rank' A i]
    split_ifs with hchild hlargest hlargest' hlargest'
    · rw [h.largestOf_eq (by omega)] at hlargest ⊢
      have hlt := (largestOf_eq_or A hLen Node_Rank' i).resolve_left (Ne.symm hlargest)
      exact ih _ (by omega) (h.rearranges (Rearranges.swapEntries A (by omega) hlt.2)) _ rfl
    · exact absurd (h.largestOf_eq (by omega)) fun heq ↦ hlargest (heq ▸ of_not_not hlargest')
    · exact absurd (h.largestOf_eq (by omega)) fun heq ↦ hlargest (heq ▸ hlargest')
    · rfl
    · rfl

/-- **`getMax` reads the ranks of the candidates only.** -/
theorem SameRanks.getMax_eq (h : SameRanks hLen A Node_Rank Node_Rank') (renew : Bool) :
    getMax renew hLen Node_Rank A = getMax renew hLen Node_Rank' A := by
  have hbuild : ∀ (l : List ℕ) {B : ℕ → ModStruct}, SameRanks hLen B Node_Rank Node_Rank' →
      l.foldl (adjustHeap hLen Node_Rank) B = l.foldl (adjustHeap hLen Node_Rank') B := by
    intro l
    induction l with
    | nil => exact fun _ ↦ rfl
    | cons i l ih =>
      intro B hB
      rw [List.foldl_cons, List.foldl_cons, ← hB.adjustHeap_eq]
      exact ih (hB.rearranges (rearranges_adjustHeap hLen Node_Rank B i))
  rw [getMax, getMax, buildHeap, buildHeap, hbuild _ h, h.adjustHeap_eq]

end SameRanks

/-! ### The order of the candidates -/

open BinaryHeap

/-- Candidates are ordered by modularity and, among equals, by rank, the lowest rank last. -/
def candidateKey (Node_Rank : ℕ → ℤ) (c : ModStruct) : ℚ ×ₗ ℤ := toLex (c.dMod, -Node_Rank c.node)

theorem candidateKey_le_iff {Node_Rank : ℕ → ℤ} {a b : ModStruct} :
    candidateKey Node_Rank a ≤ candidateKey Node_Rank b ↔
      a.dMod < b.dMod ∨ a.dMod = b.dMod ∧ Node_Rank b.node ≤ Node_Rank a.node := by
  rw [candidateKey, candidateKey, Prod.Lex.toLex_le_toLex, neg_le_neg_iff]

/-- The keys of an array. -/
def keysOf (Node_Rank : ℕ → ℤ) (A : ℕ → ModStruct) (k : ℕ) : ℚ ×ₗ ℤ := candidateKey Node_Rank (A k)

section Order

variable {hLen : ℕ} {Node_Rank : ℕ → ℤ} {A : ℕ → ModStruct}

theorem le_largerChild (hLen : ℕ) (Node_Rank : ℕ → ℤ) (A : ℕ → ModStruct) (l c : ℕ) :
    keysOf Node_Rank A l ≤ keysOf Node_Rank A (largerChild A hLen Node_Rank l c) ∧
      (c < hLen →
        keysOf Node_Rank A c ≤ keysOf Node_Rank A (largerChild A hLen Node_Rank l c)) := by
  simp only [keysOf, candidateKey_le_iff, largerChild]
  split_ifs with hle heq hrank
  · exact ⟨Or.inr ⟨heq, hrank.le⟩, fun _ ↦ Or.inr ⟨rfl, le_rfl⟩⟩
  · exact ⟨Or.inr ⟨rfl, le_rfl⟩, fun _ ↦ Or.inr ⟨heq.symm, not_lt.1 hrank⟩⟩
  · exact ⟨Or.inl (lt_of_le_of_ne hle.2 heq), fun _ ↦ Or.inr ⟨rfl, le_rfl⟩⟩
  · refine ⟨Or.inr ⟨rfl, le_rfl⟩, fun hc ↦ Or.inl ?_⟩
    exact not_le.1 fun h ↦ hle ⟨hc, h⟩

/-- The entry that has to be on top is at least as large as the other two. -/
theorem le_largestOf (hLen : ℕ) (Node_Rank : ℕ → ℤ) (A : ℕ → ModStruct) (i : ℕ) :
    keysOf Node_Rank A i ≤ keysOf Node_Rank A (largestOf A hLen Node_Rank i) ∧
      ∀ c, IsChild i c → c < hLen →
        keysOf Node_Rank A c ≤ keysOf Node_Rank A (largestOf A hLen Node_Rank i) := by
  obtain ⟨h₁, hleft⟩ := le_largerChild hLen Node_Rank A i (2 * i + 1)
  obtain ⟨h₂, hright⟩ := le_largerChild hLen Node_Rank A
    (largerChild A hLen Node_Rank i (2 * i + 1)) (2 * i + 2)
  refine ⟨h₁.trans h₂, ?_⟩
  rintro c (rfl | rfl) hc
  · exact (hleft hc).trans h₂
  · exact hright hc

theorem isChild_largestOf {i : ℕ} (h : i ≠ largestOf A hLen Node_Rank i) :
    IsChild i (largestOf A hLen Node_Rank i) ∧ largestOf A hLen Node_Rank i < hLen := by
  refine ⟨?_, ((largestOf_eq_or A hLen Node_Rank i).resolve_left (Ne.symm h)).2⟩
  rw [largestOf] at h ⊢
  rcases largerChild_eq_or A hLen Node_Rank (largerChild A hLen Node_Rank i (2 * i + 1))
    (2 * i + 2) with h₂ | h₂
  · rw [h₂] at h ⊢
    exact Or.inl ((largerChild_eq_or A hLen Node_Rank i (2 * i + 1)).resolve_left (Ne.symm h)).1
  · exact Or.inr h₂.1

theorem swapEntries_left (A : ℕ → ModStruct) (i j : ℕ) : swapEntries A i j i = A j :=
  Function.update_self _ _ _

theorem swapEntries_right (A : ℕ → ModStruct) (i j : ℕ) : swapEntries A i j j = A i := by
  rw [swapEntries]
  rcases eq_or_ne j i with rfl | hne
  · rw [Function.update_self]
  · rw [Function.update_of_ne hne, Function.update_self]

theorem swapEntries_of_ne {i j k : ℕ} (hi : k ≠ i) (hj : k ≠ j) : swapEntries A i j k = A k := by
  rw [swapEntries, Function.update_of_ne hi, Function.update_of_ne hj]

theorem swapEntries_swapEntries (A : ℕ → ModStruct) (i j : ℕ) :
    swapEntries (swapEntries A i j) i j = A := by
  funext k
  rcases eq_or_ne k i with rfl | hi
  · rw [swapEntries_left, swapEntries_right]
  · rcases eq_or_ne k j with rfl | hj
    · rw [swapEntries_right, swapEntries_left]
    · rw [swapEntries_of_ne hi hj, swapEntries_of_ne hi hj]

/-! ### Sinking -/

/-- **Sinking goes on** until the tree is a heap. -/
theorem tops_adjustHeap_of_sunkTo {i j : ℕ} (h : SunkTo (keysOf Node_Rank A) hLen i j) :
    ∀ k, Under i k → Tops (keysOf Node_Rank (adjustHeap hLen Node_Rank A j)) hLen k := by
  induction hn : hLen - j using Nat.strong_induction_on generalizing A j with
  | _ n ih =>
    rw [adjustHeap]
    obtain ⟨hself, hchildren⟩ := le_largestOf hLen Node_Rank A j
    split_ifs with hchild hlargest
    · obtain ⟨hl, hlt⟩ := isChild_largestOf hlargest
      have hswap : SunkTo (keysOf Node_Rank (swapEntries A j (largestOf A hLen Node_Rank j))) hLen i
          (largestOf A hLen Node_Rank j) := by
        refine h.swap hl hlt hself hchildren ?_ ?_ fun k hj hl' ↦ ?_
        · rw [keysOf, swapEntries_left]
          rfl
        · rw [keysOf, swapEntries_right]
          rfl
        · rw [keysOf, swapEntries_of_ne hj hl']
          rfl
      have := hl.lt
      exact ih _ (by omega) hswap rfl
    · rw [not_ne_iff] at hlargest
      rw [← hlargest] at hchildren
      exact fun k hk ↦ h.tops_all hchildren hk
    · -- a position without children
      refine fun k hk ↦ h.tops_all (fun c hc hcn ↦ ?_) hk
      rcases hc with rfl | rfl <;> omega

/-- **`AdjustHeap` makes a heap** of a tree whose subtrees are heaps. -/
theorem tops_adjustHeap {i : ℕ}
    (h : ∀ k, Under i k → k ≠ i → Tops (keysOf Node_Rank A) hLen k) :
    ∀ k, Under i k → Tops (keysOf Node_Rank (adjustHeap hLen Node_Rank A i)) hLen k :=
  tops_adjustHeap_of_sunkTo (SunkTo.start h)

/-- It does not touch what is not under the entry. -/
theorem adjustHeap_of_not_under {i k : ℕ} (h : ¬ Under i k) :
    adjustHeap hLen Node_Rank A i k = A k := by
  induction hn : hLen - i using Nat.strong_induction_on generalizing A i with
  | _ n ih =>
    rw [adjustHeap]
    split_ifs with hchild hlargest
    · obtain ⟨hl, hlt⟩ := isChild_largestOf hlargest
      have hlt' := hl.lt
      have hunder : ∀ {a}, Under (largestOf A hLen Node_Rank i) a → Under i a := fun ha ↦
        (Under.self.child hl).trans ha
      rw [ih _ (by omega) (fun hk ↦ h (hunder hk)) rfl, swapEntries_of_ne]
      · rintro rfl
        exact h Under.self
      · rintro rfl
        exact h (Under.self.child hl)
    · rfl
    · rfl

/-- A heap that is built from the position `m` on is built from `0` on after `m` more rounds. -/
theorem tops_foldl_adjustHeap {m : ℕ}
    (h : ∀ k, m ≤ k → Tops (keysOf Node_Rank A) hLen k) (k : ℕ) :
    Tops (keysOf Node_Rank ((List.range m).reverse.foldl (adjustHeap hLen Node_Rank) A))
      hLen k := by
  induction m generalizing A with
  | zero => exact h k (Nat.zero_le k)
  | succ m ih =>
    rw [List.range_succ, List.reverse_append, List.reverse_singleton, List.singleton_append,
      List.foldl_cons]
    refine ih fun k hk ↦ ?_
    by_cases hunder : Under m k
    · refine tops_adjustHeap (fun j hj hne ↦ h j ?_) k hunder
      have := hj.le
      omega
    · -- neither `k` nor its children, whose only parent is `k`, are touched
      have hne : k ≠ m := fun e ↦ hunder (e ▸ Under.self)
      refine (h k (by omega)).congr ?_ fun c hc ↦ ?_
      · rw [keysOf, adjustHeap_of_not_under hunder]
        rfl
      · rw [keysOf, adjustHeap_of_not_under fun hmc ↦ ?_]
        · rfl
        · cases hmc with
          | self =>
            have := hc.lt
            omega
          | child hj hjc => exact hunder (hjc.parent_unique hc ▸ hj)

/-- **`BuildHeap` makes a heap** of any array. -/
theorem tops_buildHeap (hLen : ℕ) (Node_Rank : ℕ → ℤ) (A : ℕ → ModStruct) (k : ℕ) :
    Tops (keysOf Node_Rank (buildHeap hLen Node_Rank A)) hLen k := by
  refine tops_foldl_adjustHeap (fun j hj c hc hcn ↦ ?_) k
  rcases hc with rfl | rfl <;> omega

end Order

/-! ### The greatest candidate -/

/-- The entry `m` is the greatest one below `hLen`: no other has a higher modularity, or the same
and a lower rank. -/
def IsGreatestAt (hLen : ℕ) (Node_Rank : ℕ → ℤ) (A : ℕ → ModStruct) (m : ℕ) : Prop :=
  ∀ k < hLen, (A k).dMod < (A m).dMod ∨
    (A k).dMod = (A m).dMod ∧ Node_Rank (A m).node ≤ Node_Rank (A k).node

instance (hLen : ℕ) (Node_Rank : ℕ → ℤ) (A : ℕ → ModStruct) (m : ℕ) :
    Decidable (IsGreatestAt hLen Node_Rank A m) :=
  inferInstanceAs (Decidable (∀ k < hLen, _))

/-- The candidates below `hLen` have pairwise distinct ranks. -/
def DistinctRanks (hLen : ℕ) (Node_Rank : ℕ → ℤ) (A : ℕ → ModStruct) : Prop :=
  ∀ i < hLen, ∀ j < hLen, Node_Rank (A i).node = Node_Rank (A j).node → i = j

instance (hLen : ℕ) (Node_Rank : ℕ → ℤ) (A : ℕ → ModStruct) :
    Decidable (DistinctRanks hLen Node_Rank A) :=
  inferInstanceAs (Decidable (∀ i < hLen, ∀ j < hLen, _))

section Greatest

variable {hLen : ℕ} {Node_Rank : ℕ → ℤ} {A B : ℕ → ModStruct}

/-- The heap order at a position, in the words of the source: neither child has a higher modularity,
or the same and a lower rank. -/
theorem tops_keysOf_iff {i : ℕ} : Tops (keysOf Node_Rank A) hLen i ↔
    ∀ c, IsChild i c → c < hLen → (A c).dMod < (A i).dMod ∨
      (A c).dMod = (A i).dMod ∧ Node_Rank (A i).node ≤ Node_Rank (A c).node := by
  simp only [Tops, keysOf, candidateKey_le_iff]

theorem isGreatestAt_top (h : ∀ k, Tops (keysOf Node_Rank A) hLen k) :
    IsGreatestAt hLen Node_Rank A 0 := fun k hk ↦
  candidateKey_le_iff.1 (le_top (fun j _ ↦ h j) (Under.zero k) hk)

theorem Rearranges.distinctRanks (h : Rearranges hLen A B) (hA : DistinctRanks hLen Node_Rank A) :
    DistinctRanks hLen Node_Rank B := by
  obtain ⟨σ, hinj, hσ⟩ := h.exists_injective
  intro i hi j hj hij
  rw [(hσ i hi).2, (hσ j hj).2] at hij
  exact hinj (hA _ (hσ i hi).1 _ (hσ j hj).1 hij)

/-- Candidates of distinct ranks have one greatest entry. -/
theorem IsGreatestAt.unique (hA : DistinctRanks hLen Node_Rank A) {m n : ℕ} (hm : m < hLen)
    (hn : n < hLen) (h : IsGreatestAt hLen Node_Rank A m) (h' : IsGreatestAt hLen Node_Rank A n) :
    m = n := by
  rcases h n hn with hlt | ⟨heq, hrank⟩
  · rcases h' m hm with hlt' | ⟨heq', _⟩
    · exact absurd hlt' hlt.asymm
    · exact absurd heq' hlt.ne'
  · rcases h' m hm with hlt' | ⟨_, hrank'⟩
    · exact absurd heq hlt'.ne'
    · exact hA m hm n hn (le_antisymm hrank hrank')

theorem isGreatestAt_getMax_renew (hpos : 0 < hLen) :
    IsGreatestAt hLen Node_Rank (getMax true hLen Node_Rank A) (hLen - 1) := by
  have htop := isGreatestAt_top (tops_buildHeap hLen Node_Rank A)
  have hperm := Rearranges.swapEntries (buildHeap hLen Node_Rank A) hpos
    (show hLen - 1 < hLen by omega)
  intro k hk
  obtain ⟨l, hl, hkl⟩ := hperm.exists_eq hk
  have h := htop l hl
  simp only [getMax, if_true]
  rw [swapEntries_right, hkl]
  exact h

theorem isGreatestAt_getMax_keep
    (hheap : ∀ i, 0 < i → Tops (keysOf Node_Rank A) hLen i) :
    IsGreatestAt hLen Node_Rank (getMax false hLen Node_Rank A) 0 := by
  refine isGreatestAt_top fun k ↦ ?_
  simp only [getMax]
  exact tops_adjustHeap (fun j _ hne ↦ hheap j (by omega)) k (Under.zero k)

end Greatest

/-- **When `getMax` delivers the greatest candidate in the last entry.** Given candidates with
distinct ranks, which are in heap order below the root unless the heap is to be renewed, both modes
rearrange them, but the last entry is the greatest one only with `renew` or where it is the only
one: without `renew` the greatest candidate stays on top. -/
theorem getMax_takesGreatest_iff (renew : Bool) (hLen : ℕ) (Node_Rank : ℕ → ℤ) (A : ℕ → ModStruct)
    (hpos : 0 < hLen) (hranks : DistinctRanks hLen Node_Rank A)
    (hheap : renew = false → ∀ i, 0 < i → ∀ c, c = 2 * i + 1 ∨ c = 2 * i + 2 → c < hLen →
      (A c).dMod < (A i).dMod ∨
        (A c).dMod = (A i).dMod ∧ Node_Rank (A i).node ≤ Node_Rank (A c).node) :
    Rearranges hLen A (getMax renew hLen Node_Rank A) ∧
        IsGreatestAt hLen Node_Rank (getMax renew hLen Node_Rank A) (hLen - 1) ↔
      renew = true ∨ hLen = 1 := by
  have hperm := rearranges_getMax renew hpos Node_Rank A
  constructor
  · rintro ⟨-, hlast⟩
    rcases renew with _ | _
    · have htop := isGreatestAt_getMax_keep fun i hi ↦ tops_keysOf_iff.2 (hheap rfl i hi)
      have := IsGreatestAt.unique (hperm.distinctRanks hranks) hpos (by omega) htop hlast
      exact Or.inr (by omega)
    · exact Or.inl rfl
  · rintro (rfl | rfl)
    · exact ⟨hperm, isGreatestAt_getMax_renew hpos⟩
    · refine ⟨hperm, fun k hk ↦ ?_⟩
      obtain rfl : k = 0 := by omega
      exact Or.inr ⟨rfl, le_rfl⟩

/-- The rebuilt heap of five candidates, whose last entry is the greatest. -/
theorem getMax_takesGreatest_iff_five :
    let A : ℕ → ModStruct := fun k ↦ ⟨k, (k * 3 % 5 : ℕ)⟩
    Rearranges 5 A (getMax true 5 (fun v ↦ v) A) ∧
      IsGreatestAt 5 (fun v ↦ v) (getMax true 5 (fun v ↦ v) A) 4 :=
  (getMax_takesGreatest_iff true 5 (fun v ↦ v) _ (by decide) (by decide) nofun).2 (Or.inl rfl)

/-- **The incremental path picks the smaller one of two candidates.** Of the candidates with
modularities `0`, `1` and `2` the first call takes the last one and leaves the other two as they
are; the second call, without `renew`, exchanges them, so that the last entry is the candidate with
modularity `0`. -/
theorem getMax_keep_takes_smaller :
    let A : ℕ → ModStruct := fun k ↦ ⟨k, k⟩
    let Node_Rank : ℕ → ℤ := fun v ↦ v
    getMax true 3 Node_Rank A = A ∧ DistinctRanks 2 Node_Rank A ∧
      getMax false 2 Node_Rank A 1 = ⟨0, 0⟩ ∧
      ¬ IsGreatestAt 2 Node_Rank (getMax false 2 Node_Rank A) 1 := by
  intro A Node_Rank
  have hbuild : buildHeap 3 Node_Rank A = swapEntries A 0 2 := by
    have hlargest : largestOf A 3 Node_Rank 0 = 2 := by decide
    show adjustHeap 3 Node_Rank A 0 = _
    rw [adjustHeap, if_pos (by decide), hlargest, dif_pos (by decide), adjustHeap,
      if_neg (by decide)]
  have hkeep : getMax false 2 Node_Rank A = swapEntries A 0 1 := by
    have hlargest : largestOf A 2 Node_Rank 0 = 1 := by decide
    show adjustHeap 2 Node_Rank A 0 = _
    rw [adjustHeap, if_pos (by decide), hlargest, dif_pos (by decide), adjustHeap,
      if_neg (by decide)]
  refine ⟨?_, by decide, ?_, ?_⟩
  · show swapEntries (buildHeap 3 Node_Rank A) 0 2 = A
    rw [hbuild, swapEntries_swapEntries]
  · rw [hkeep, swapEntries_right]
    rfl
  · rw [hkeep]
    decide

/-! ### The loop

`adjustHeap` is the loop of the source without its variables. Here they are, and the two fields of
an entry that change places are written one by one.
-/

/-- The variables of `AdjustHeap`. -/
structure SiftState where
  A : ℕ → ModStruct
  i : ℕ
  left : ℕ
  right : ℕ
  largest : ℕ

/-- The four assignments that exchange two entries. -/
def exchangeFields (A : ℕ → ModStruct) (i largest : ℕ) : ℕ → ModStruct :=
  let tempMod := (A largest).dMod
  let tempNode := (A largest).node
  let A := Function.update A largest { A largest with dMod := (A i).dMod }
  let A := Function.update A largest { A largest with node := (A i).node }
  let A := Function.update A i { A i with dMod := tempMod }
  Function.update A i { A i with node := tempNode }

/-- One round of the loop. -/
def siftRound (hLen : ℕ) (Node_Rank : ℕ → ℤ) (s : SiftState) : SiftState ⊕ (ℕ → ModStruct) :=
  if s.left < hLen ∨ s.right < hLen then
    let largest := largerChild s.A hLen Node_Rank s.largest s.left
    let largest := largerChild s.A hLen Node_Rank largest s.right
    if s.i ≠ largest then
      Sum.inl
        { A := exchangeFields s.A s.i largest
          i := largest
          left := 2 * largest + 1
          right := 2 * largest + 2
          largest := largest }
    else Sum.inr s.A
  else Sum.inr s.A

/-- The state before the loop. -/
def siftInit (A : ℕ → ModStruct) (i : ℕ) : SiftState where
  A := A
  i := i
  left := 2 * i + 1
  right := 2 * i + 2
  largest := i

/-- `AdjustHeap` with its loop. -/
def adjustHeapLoop (fuel hLen : ℕ) (Node_Rank : ℕ → ℤ) (A : ℕ → ModStruct) (i : ℕ) :
    Option (ℕ → ModStruct) :=
  Loop.run (siftRound hLen Node_Rank) fuel (siftInit A i)

/-- `BuildHeap` with the loops of its calls. -/
def buildHeapLoop (fuel hLen : ℕ) (Node_Rank : ℕ → ℤ) (A : ℕ → ModStruct) :
    Option (ℕ → ModStruct) :=
  (List.range (hLen / 2)).reverse.foldlM (adjustHeapLoop fuel hLen Node_Rank) A

/-- The tree below a position is a heap: nobody has a higher modularity than its father, or the same
and a lower rank. -/
def IsHeapAt (hLen : ℕ) (Node_Rank : ℕ → ℤ) (A : ℕ → ModStruct) (i : ℕ) : Prop :=
  ∀ k, Under i k → ∀ c, IsChild k c → c < hLen → (A c).dMod < (A k).dMod ∨
    (A c).dMod = (A k).dMod ∧ Node_Rank (A k).node ≤ Node_Rank (A c).node

section Loops

variable {hLen : ℕ} {Node_Rank : ℕ → ℤ} {A B : ℕ → ModStruct} {i : ℕ}

theorem exchangeFields_eq (A : ℕ → ModStruct) (i largest : ℕ) :
    exchangeFields A i largest = swapEntries A i largest := by
  funext k
  simp only [exchangeFields, swapEntries, Function.update_self, Function.update_idem]
  rcases eq_or_ne k i with rfl | hi
  · simp only [Function.update_self]
  · simp only [Function.update_of_ne hi]
    rcases eq_or_ne k largest with rfl | hlargest
    · simp only [Function.update_self, Function.update_of_ne hi.symm]
    · simp only [Function.update_of_ne hlargest]

/-- At the head of the loop the other three indices are those of `i`. -/
theorem siftRound_siftInit (hLen : ℕ) (Node_Rank : ℕ → ℤ) (A : ℕ → ModStruct) (i : ℕ) :
    siftRound hLen Node_Rank (siftInit A i) =
      if 2 * i + 1 < hLen ∨ 2 * i + 2 < hLen then
        if i ≠ largestOf A hLen Node_Rank i then
          Sum.inl (siftInit (swapEntries A i (largestOf A hLen Node_Rank i))
            (largestOf A hLen Node_Rank i))
        else Sum.inr A
      else Sum.inr A := by
  rw [← exchangeFields_eq]
  rfl

/-- **The loop ends**, and leaves what `adjustHeap` says. -/
theorem adjustHeapLoop_eq {fuel : ℕ} (hfuel : hLen - i < fuel) :
    adjustHeapLoop fuel hLen Node_Rank A i = some (adjustHeap hLen Node_Rank A i) := by
  rw [adjustHeapLoop]
  induction fuel generalizing A i with
  | zero => exact absurd hfuel (Nat.not_lt_zero _)
  | succ fuel ih =>
    have hround := siftRound_siftInit hLen Node_Rank A i
    rw [adjustHeap]
    split_ifs at hround ⊢ with hchild hlargest
    · have hlt := (largestOf_eq_or A hLen Node_Rank i).resolve_left (Ne.symm hlargest)
      rw [Loop.run_succ_of_inl hround, ih (by omega)]
    · exact Loop.run_succ_of_inr hround _
    · exact Loop.run_succ_of_inr hround _

theorem buildHeapLoop_eq {fuel : ℕ} (hfuel : hLen < fuel) :
    buildHeapLoop fuel hLen Node_Rank A = some (buildHeap hLen Node_Rank A) := by
  have hloop : adjustHeapLoop fuel hLen Node_Rank =
      fun A i ↦ some (adjustHeap hLen Node_Rank A i) := by
    funext A i
    exact adjustHeapLoop_eq (by omega)
  rw [buildHeapLoop, hloop, buildHeap]
  exact List.foldlM_pure

theorem isHeapAt_iff : IsHeapAt hLen Node_Rank A i ↔
    ∀ k, Under i k → Tops (keysOf Node_Rank A) hLen k := by
  simp only [IsHeapAt, tops_keysOf_iff]

/-- A tree whose subtrees are heaps, except possibly at the root. -/
theorem tops_of_isHeapAt_children (h : ∀ c, IsChild i c → IsHeapAt hLen Node_Rank A c) :
    ∀ k, Under i k → k ≠ i → Tops (keysOf Node_Rank A) hLen k := by
  intro k hk hne
  obtain ⟨c, hc, hck⟩ := hk.eq_or_exists_child.resolve_left hne
  exact isHeapAt_iff.1 (h c hc) k hck

end Loops

/-- **`AdjustHeap` and `BuildHeap`**, on any array and with any ranks. Where the subtrees of an
entry are heaps, the loop of `AdjustHeap` ends with a heap; it rearranges the entries of this tree
and touches no other. So `BuildHeap` ends too, and makes one heap of all entries, with the greatest
one on top. -/
theorem adjustHeapLoop_makesHeap {fuel hLen : ℕ} (hfuel : hLen < fuel) (Node_Rank : ℕ → ℤ)
    (A : ℕ → ModStruct) :
    (∀ i, (∀ c, IsChild i c → IsHeapAt hLen Node_Rank A c) →
      ∃ B, adjustHeapLoop fuel hLen Node_Rank A i = some B ∧ IsHeapAt hLen Node_Rank B i ∧
        (∀ k, ¬ (Under i k ∧ k < hLen) → B k = A k) ∧ Rearranges hLen A B) ∧
    ∃ B, buildHeapLoop fuel hLen Node_Rank A = some B ∧ IsHeapAt hLen Node_Rank B 0 ∧
      Rearranges hLen A B ∧ IsGreatestAt hLen Node_Rank B 0 := by
  constructor
  · intro i hchildren
    have hmoved := rearranges_adjustHeap hLen Node_Rank A i
    refine ⟨_, adjustHeapLoop_eq (by omega), ?_, fun k hk ↦ ?_, hmoved⟩
    · exact isHeapAt_iff.2 (tops_adjustHeap (tops_of_isHeapAt_children hchildren))
    · rcases Nat.lt_or_ge k hLen with hlt | hge
      · exact adjustHeap_of_not_under fun hunder ↦ hk ⟨hunder, hlt⟩
      · exact hmoved.eq_of_le hge
  · have htops := tops_buildHeap hLen Node_Rank A
    exact ⟨_, buildHeapLoop_eq hfuel, isHeapAt_iff.2 fun k _ ↦ htops k,
      rearranges_buildHeap hLen Node_Rank A, isGreatestAt_top htops⟩

/-- Seven candidates, the later the smaller, but the first one is the smallest. -/
theorem adjustHeapLoop_makesHeap_seven :
    let A : ℕ → ModStruct := fun k ↦ ⟨k, if k = 0 then -10 else -k⟩
    (∀ c, IsChild 0 c → IsHeapAt 7 (fun v ↦ v) A c) ∧
    ∃ B, adjustHeapLoop 8 7 (fun v ↦ v) A 0 = some B ∧ IsHeapAt 7 (fun v ↦ v) B 0 ∧
      (∀ k, ¬ (Under 0 k ∧ k < 7) → B k = A k) ∧ Rearranges 7 A B := by
  intro A
  have hchildren : ∀ c, IsChild 0 c → IsHeapAt 7 (fun v ↦ v) A c := by
    intro c hc k hk d hd _
    have hpos : 0 < k := hc.lt.trans_le hk.le
    have hlt := hd.lt
    left
    show (if d = 0 then (-10 : ℚ) else -d) < if k = 0 then (-10 : ℚ) else -k
    rw [if_neg (by omega), if_neg (by omega), neg_lt_neg_iff]
    exact_mod_cast hlt
  exact ⟨hchildren, (adjustHeapLoop_makesHeap (by decide) _ A).1 0 hchildren⟩

end CArchitecture
