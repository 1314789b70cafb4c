import Mathlib.Data.Finset.Card
import Mathlib.Data.Setoid.Basic
import Mathlib.Order.Bounds.Basic
import Mathlib.Order.CompletePartialOrder
import Mathlib.Order.ConditionallyCompleteLattice.Basic

/-!
# Coarsening a partition until its groups are loosely connected

Parts are grouped by an equivalence relation, and edges touch parts. Two groups **share** an edge if
it touches a part of each. A grouping is `Valid` if different groups share at most one edge.

Merging two groups that share more than one edge is *forced*: sharing only grows when groups grow,
so every valid grouping that is coarser has merged them too. Hence it does not matter in which order
forced merges are made, how many are made between two counts, or whether the counts are still
current: `Merges` allows all of this, and whatever it reaches lies below every valid grouping. A
process of forced merges that stops in a valid grouping has therefore found the **least** one
(`Merges.isLeast`), and any two of them have found the same (`Merges.eq`).
-/

namespace Coarsening

open Classical

variable {P E : Type*} (touch : E → P → Prop) (edges : Finset E)

/-- The edge `e` touches the group of `p`. -/
def Meets (r : Setoid P) (e : E) (p : P) : Prop := ∃ q, r p q ∧ touch e q

/-- The number of edges that two groups share. -/
noncomputable def shared (r : Setoid P) (p q : P) : ℕ :=
  (edges.filter fun e ↦ Meets touch r e p ∧ Meets touch r e q).card

/-- Different groups share at most one edge. -/
def Valid (r : Setoid P) : Prop := ∀ p q, ¬ r p q → shared touch edges r p q ≤ 1

/-- The grouping that joins `p` and `q` and nothing else. -/
def join (p q : P) : Setoid P := Relation.EqvGen.setoid fun a b ↦ a = p ∧ b = q

/-- The groupings that forced merges can reach from the finest one. The count that forces a merge
may be taken in any grouping reached before. -/
inductive Merges : Setoid P → Prop
  | start : Merges ⊥
  | merge {r₀ r : Setoid P} {p q : P} (h₀ : Merges r₀) (h : Merges r)
    (hpq : 1 < shared touch edges r₀ p q) : Merges (r ⊔ join p q)

variable {touch edges}

theorem join_le_iff {p q : P} {r : Setoid P} : join p q ≤ r ↔ r p q := by
  constructor
  · intro h
    exact h (Relation.EqvGen.rel p q ⟨rfl, rfl⟩)
  · intro h
    refine Setoid.eqvGen_le ?_
    rintro a b ⟨rfl, rfl⟩
    exact h

theorem Meets.mono {r s : Setoid P} (hrs : r ≤ s) {e : E} {p : P} (h : Meets touch r e p) :
    Meets touch s e p := by
  obtain ⟨q, hq, ht⟩ := h
  exact ⟨q, hrs hq, ht⟩

/-- Counting the shared edges by any description of them. -/
theorem shared_eq_card {r : Setoid P} {p q : P} {S : Finset E}
    (hS : ∀ e, e ∈ S ↔ e ∈ edges ∧ Meets touch r e p ∧ Meets touch r e q) :
    shared touch edges r p q = S.card := by
  refine congrArg Finset.card (Finset.ext fun e ↦ ?_)
  rw [Finset.mem_filter, hS]

theorem shared_comm (r : Setoid P) (p q : P) :
    shared touch edges r p q = shared touch edges r q p := by
  simp only [shared, and_comm]

/-- Sharing grows with the groups. -/
theorem shared_mono {r s : Setoid P} (hrs : r ≤ s) (p q : P) :
    shared touch edges r p q ≤ shared touch edges s p q := by
  refine Finset.card_le_card fun e he ↦ ?_
  rw [Finset.mem_filter] at he ⊢
  exact ⟨he.1, he.2.1.mono hrs, he.2.2.mono hrs⟩

/-- **A merge is forced**: a valid grouping above has made it. -/
theorem Valid.rel_of_lt_shared {r s : Setoid P} (hs : Valid touch edges s) (hrs : r ≤ s) {p q : P}
    (h : 1 < shared touch edges r p q) : s p q := by
  by_contra hno
  exact absurd (hs p q hno) (not_le.2 (h.trans_le (shared_mono hrs p q)))

/-- **Confluence**: forced merges stay below every valid grouping. -/
theorem Merges.le_of_valid {r s : Setoid P} (hr : Merges touch edges r)
    (hs : Valid touch edges s) : r ≤ s := by
  induction hr with
  | start => exact bot_le
  | merge _ _ hpq ih₀ ih => exact sup_le ih (join_le_iff.2 (hs.rel_of_lt_shared ih₀ hpq))

theorem Merges.isLeast {r : Setoid P} (hr : Merges touch edges r) (hv : Valid touch edges r) :
    IsLeast {s | Valid touch edges s} r :=
  ⟨hv, fun _ hs ↦ hr.le_of_valid hs⟩

/-- However the merges are chosen, the outcome is the same. -/
theorem Merges.eq {r s : Setoid P} (hr : Merges touch edges r) (hvr : Valid touch edges r)
    (hs : Merges touch edges s) (hvs : Valid touch edges s) : r = s :=
  le_antisymm (hr.le_of_valid hvs) (hs.le_of_valid hvr)

/-! ### Groupings that cut nothing -/

/-- No edge touches two groups. -/
def Uncut (touch : E → P → Prop) (edges : Finset E) (r : Setoid P) : Prop :=
  ∀ e ∈ edges, ∀ p q, touch e p → touch e q → r p q

theorem Uncut.mono {r s : Setoid P} (hrs : r ≤ s) (h : Uncut touch edges r) :
    Uncut touch edges s :=
  fun e he p q hp hq ↦ hrs (h e he p q hp hq)

/-! ### Relabelling -/

/-- Only the edges that are counted matter. -/
theorem valid_congr {touch' : E → P → Prop} (h : ∀ e ∈ edges, ∀ p, touch e p ↔ touch' e p)
    {r : Setoid P} : Valid touch edges r ↔ Valid touch' edges r := by
  have hshared : ∀ p q, shared touch edges r p q = shared touch' edges r p q := fun p q ↦ by
    refine congrArg Finset.card (Finset.filter_congr fun e he ↦ ?_)
    simp only [Meets, h e he]
  simp only [Valid, hshared]

/-- Renaming the parts renames the valid groupings. -/
theorem valid_comap (σ : Equiv.Perm P) {r : Setoid P} :
    Valid (fun e p ↦ touch e (σ.symm p)) edges r ↔ Valid touch edges (r.comap σ) := by
  have hmeets : ∀ e p, Meets (fun e p ↦ touch e (σ.symm p)) r e (σ p) ↔
      Meets touch (r.comap σ) e p := by
    intro e p
    constructor
    · rintro ⟨q, hq, ht⟩
      exact ⟨σ.symm q, by rwa [Setoid.comap_rel, σ.apply_symm_apply], ht⟩
    · rintro ⟨q, hq, ht⟩
      refine ⟨σ q, hq, ?_⟩
      show touch e (σ.symm (σ q))
      rwa [σ.symm_apply_apply]
  have hshared : ∀ p q, shared (fun e p ↦ touch e (σ.symm p)) edges r (σ p) (σ q) =
      shared touch edges (r.comap σ) p q := fun p q ↦
    congrArg Finset.card (Finset.filter_congr fun e _ ↦ by rw [hmeets, hmeets])
  constructor
  · intro h p q hpq
    rw [← hshared]
    exact h _ _ hpq
  · intro h p q hpq
    have := h (σ.symm p) (σ.symm q) (by simpa [Setoid.comap_rel] using hpq)
    rwa [← hshared, σ.apply_symm_apply, σ.apply_symm_apply] at this

/-- **The least valid grouping does not depend on the names of the parts.** -/
theorem rel_iff_of_isLeast (σ : Equiv.Perm P) {r s : Setoid P}
    (hr : IsLeast {r | Valid touch edges r} r)
    (hs : IsLeast {s | Valid (fun e p ↦ touch e (σ.symm p)) edges s} s) (p q : P) :
    s (σ p) (σ q) ↔ r p q := by
  constructor
  · intro h
    have hback : (r.comap σ.symm).comap σ = r := by
      ext x y
      simp [Setoid.comap_rel]
    have hvalid : Valid (fun e p ↦ touch e (σ.symm p)) edges (r.comap σ.symm) :=
      (valid_comap σ).2 (hback.symm ▸ hr.1)
    simpa [Setoid.comap_rel] using hs.2 hvalid h
  · intro h
    exact hr.2 ((valid_comap σ).1 hs.1) h

end Coarsening
