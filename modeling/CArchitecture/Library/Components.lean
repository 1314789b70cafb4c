import Mathlib.Data.Set.Insert
import Mathlib.Logic.Relation

/-!
# Exploring a graph component by component

An exploration of a graph visits a set `Z` from a queue `Q`: it adds neighbours of what is in the
queue, takes vertices out of the queue, and starts again somewhere else when the queue is empty.

`Explores` is what keeps its sight on the components: the queue lies in the component of the current
start `c`, and what has been visited **outside** that component has all its neighbours visited. So,
wherever the exploration stops, the visited set splits no component but the current one
(`Explores.not_split`).
-/

namespace Components

variable {α : Type*} {adj : α → α → Prop} {Z Q : Set α} {c : α}

/-- A way that leaves a set leaves it over an edge. -/
theorem exists_boundary {a b : α} (h : Relation.ReflTransGen adj a b) (ha : a ∈ Z) (hb : b ∉ Z) :
    ∃ x ∈ Z, Relation.ReflTransGen adj a x ∧ ∃ y, adj x y ∧ y ∉ Z := by
  induction h with
  | refl => exact absurd ha hb
  | @tail y z hay hyz ih =>
    by_cases hy : y ∈ Z
    · exact ⟨y, hy, hay, z, hyz, hb⟩
    · exact ih hy

/-- The set `Z` has been visited, and `Q` is to be expanded, in the component of `c`. -/
structure Explores (adj : α → α → Prop) (Z Q : Set α) (c : α) : Prop where
  queue : ∀ q ∈ Q, Relation.ReflTransGen adj c q
  others : ∀ v ∈ Z, ¬ Relation.ReflTransGen adj c v → ∀ u, adj v u → u ∈ Z

/-- The first start. -/
theorem explores_start (adj : α → α → Prop) (c : α) : Explores adj {c} {c} c where
  queue _ hq := hq ▸ Relation.ReflTransGen.refl
  others _ hv hnot := absurd (hv ▸ Relation.ReflTransGen.refl) hnot

/-- **Expanding** a vertex of the queue. -/
theorem Explores.expand (h : Explores adj Z Q c) {q : α} (hq : q ∈ Q) {N : Set α}
    (hN : ∀ v ∈ N, adj q v) : Explores adj (Z ∪ N) (Q ∪ N) c where
  queue v hv := by
    rcases hv with hv | hv
    · exact h.queue v hv
    · exact (h.queue q hq).tail (hN v hv)
  others v hv hnot u huv := by
    rcases hv with hv | hv
    · exact Or.inl (h.others v hv hnot u huv)
    · exact absurd ((h.queue q hq).tail (hN v hv)) hnot

theorem Explores.mono (h : Explores adj Z Q c) {Q' : Set α} (hQ : Q' ⊆ Q) : Explores adj Z Q' c :=
  ⟨fun q hq ↦ h.queue q (hQ hq), h.others⟩

/-- **Starting again**, when all neighbours of what has been visited have been visited. -/
theorem Explores.restart (hclosed : ∀ v ∈ Z, ∀ u, adj v u → u ∈ Z) (c : α) :
    Explores adj (Z ∪ {c}) {c} c where
  queue _ hq := hq ▸ Relation.ReflTransGen.refl
  others v hv hnot u huv := by
    rcases hv with hv | rfl
    · exact Or.inl (hclosed v hv u huv)
    · exact absurd Relation.ReflTransGen.refl hnot

/-- What lies on both sides of the visited set is in the component of the current start. -/
theorem Explores.mem_component [Std.Symm adj] (h : Explores adj Z Q c) {a b : α} (ha : a ∈ Z)
    (hb : b ∉ Z) (hab : Relation.ReflTransGen adj a b) : Relation.ReflTransGen adj c a := by
  obtain ⟨x, hx, hax, y, hxy, hy⟩ := exists_boundary hab ha hb
  by_contra hnot
  refine hy (h.others x hx (fun hcx ↦ hnot (hcx.trans ?_)) y hxy)
  exact Std.Symm.symm _ _ hax

/-- **At most one component is split.** -/
theorem Explores.not_split [Std.Symm adj] (h : Explores adj Z Q c) {a b a' b' : α} (ha : a ∈ Z)
    (hb : b ∉ Z) (hab : Relation.ReflTransGen adj a b) (ha' : a' ∈ Z) (hb' : b' ∉ Z)
    (hab' : Relation.ReflTransGen adj a' b') :
    Relation.ReflTransGen adj a a' :=
  Relation.ReflTransGen.trans (Std.Symm.symm _ _ (h.mem_component ha hb hab))
    (h.mem_component ha' hb' hab')

end Components
