import CArchitecture.Bisection
import Mathlib.Logic.Relation

/-!
# Numbering the leaves of the bisection

After the loop `dfsForWriteParts` walks the tree from left to right, counts the leaves, and writes
the number of each leaf to the root vertices it holds, which it finds by climbing `mapForFather`.

Everything is read off the tree invariant `Heap.Good`:

* **The way up** (`toRoot`) is defined and injective on every node, because it composes the
  renumberings of the levels.
* **The way down** (`Descends`) exists and is unique, because the two sides of a node have all of
  its vertices and share none.
* The two are inverse to each other, so the walk over the part of the tree below a node writes
  exactly the root vertices of that node (`dfsForWriteParts_spec`), and nothing that it wrote on the
  left is overwritten on the right.
-/

namespace CArchitecture

/-! ### The numbering of the leaves -/

/-- The climb from a vertex of the node `a` to the root. A vertex that `mapForFather` does not know
would be an access through `end()`. -/
def toRoot (heap : Heap) : ℕ → ℕ → ℕ → Option ℕ
  | 0, _, _ => none
  | n + 1, a, node =>
    match (heap a).fatherGraph with
    | none => some node
    | some f => ((heap a).mapForFather.find? node).bind (toRoot heap n f)

/-- The loop over the vertices of a leaf. -/
def writeLeaf (heap : Heap) (fuel a : ℕ) (parts : ℕ) (part : ℕ → ℤ) : Option (ℕ → ℤ) :=
  (List.range (heap a).nvtxs).foldlM
    (fun part i ↦ (toRoot heap fuel a i).map fun node ↦ Function.update part node (parts : ℤ)) part

/-- `dfsForWriteParts`: the number of leaves below a node, and `pHyper->part` after they have been
numbered from `parts` on. The climbs have fuel `climb` each. -/
def dfsForWriteParts (heap : Heap) (climb : ℕ) :
    ℕ → Option ℕ → ℕ → (ℕ → ℤ) → Option (ℕ × (ℕ → ℤ))
  | 0, _, _, _ => none
  | _ + 1, none, _, part => some (0, part)
  | n + 1, some a, parts, part =>
    match (heap a).leftSon, (heap a).rightSon with
    | none, none => (writeLeaf heap climb a parts part).map fun part ↦ (1, part)
    | p, q => do
      let (count, part) ← dfsForWriteParts heap climb n p parts part
      let (count', part) ← dfsForWriteParts heap climb n q (parts + count) part
      pure (count + count', part)

/-! ### The way up and the way down -/

/-- `d` is a leaf at or below `a`. -/
inductive LeafBelow (heap : Heap) : ℕ → ℕ → Prop
  | here {a : ℕ} (hl : (heap a).leftSon = none) (hr : (heap a).rightSon = none) : LeafBelow heap a a
  | left {a b d : ℕ} (hl : (heap a).leftSon = some b) (h : LeafBelow heap b d) : LeafBelow heap a d
  | right {a c d : ℕ} (hr : (heap a).rightSon = some c) (h : LeafBelow heap c d) :
    LeafBelow heap a d

/-- Vertex `v` of the node `a` is vertex `w` of the leaf `d`: the way down, by the tables that the
splits filled. -/
inductive Descends (heap : Heap) : ℕ → ℕ → ℕ → ℕ → Prop
  | here {a v : ℕ} (hl : (heap a).leftSon = none) (hr : (heap a).rightSon = none) :
    Descends heap a v a v
  | left {a b v k d w : ℕ} (hl : (heap a).leftSon = some b)
    (hk : (heap a).mapForG1.find? v = some k) (h : Descends heap b k d w) : Descends heap a v d w
  | right {a c v k d w : ℕ} (hr : (heap a).rightSon = some c)
    (hk : (heap a).mapForG2.find? v = some k) (h : Descends heap c k d w) : Descends heap a v d w

section Sons

variable {G son : CHypergraph} {label : ℤ} {toSon : OrdMap ℕ ℕ}

/-- The table of a son knows exactly the vertices of its side. -/
theorem IsSon.of_find? (hson : IsSon G label toSon son) {k v : ℕ}
    (h : son.mapForFather.find? k = some v) : k < son.nvtxs ∧ v < G.nvtxs ∧ G.part v = label := by
  have hk : k < son.nvtxs := (hson.isSome_iff k).1 (by rw [h]; rfl)
  have hmaps := hson.bijOn.mapsTo hk
  simp only [h, Option.getD_some] at hmaps
  exact ⟨hk, hmaps⟩

theorem IsSon.exists_find?_of_lt (hson : IsSon G label toSon son) {k : ℕ} (hk : k < son.nvtxs) :
    ∃ v, son.mapForFather.find? k = some v :=
  Option.isSome_iff_exists.1 ((hson.isSome_iff k).2 hk)

/-- Every vertex of a side has a number in the son. -/
theorem IsSon.exists_find? (hson : IsSon G label toSon son) {v : ℕ} (hv : v < G.nvtxs)
    (hlabel : G.part v = label) : ∃ k, son.mapForFather.find? k = some v := by
  obtain ⟨k, hk, hkv⟩ := hson.bijOn.surjOn (show v ∈ {v | v < G.nvtxs ∧ G.part v = label} from
    ⟨hv, hlabel⟩)
  obtain ⟨u, hu⟩ := hson.exists_find?_of_lt hk
  simp only [hu, Option.getD_some] at hkv
  exact ⟨k, hkv ▸ hu⟩

theorem IsSon.find?_injective (hson : IsSon G label toSon son) {k l v : ℕ}
    (hk : son.mapForFather.find? k = some v) (hl : son.mapForFather.find? l = some v) : k = l :=
  hson.bijOn.injOn (hson.of_find? hk).1 (hson.of_find? hl).1 (by simp only [hk, hl])

end Sons

section Tree

variable {heap : Heap} {size : ℕ}

/-- Every node but the root is one side of a smaller node. -/
theorem Heap.Good.exists_father (hg : heap.Good size) {a : ℕ} (ha : a < size) (h0 : a ≠ 0) :
    ∃ f < a, (heap a).fatherGraph = some f ∧
      ∃ label toSon, IsSon (heap f) label toSon (heap a) := by
  obtain ⟨f, b, c, -, -, hs, rfl | rfl⟩ := hg.father a ha h0
  · exact ⟨f, hs.left_lt, hs.father_left, _, _, hs.left⟩
  · exact ⟨f, hs.right_lt, hs.father_right, _, _, hs.right⟩

theorem Heap.Good.lt_of_fatherGraph (hg : heap.Good size) {a f : ℕ} (ha : a < size)
    (hf : (heap a).fatherGraph = some f) : f < a := by
  have h0 : a ≠ 0 := by
    rintro rfl
    exact absurd (hg.root.symm.trans hf) (by simp)
  obtain ⟨f', hlt, hf', -⟩ := hg.exists_father ha h0
  rwa [← Option.some.inj (hf'.symm.trans hf)]

theorem toRoot_mono {n m a v x : ℕ} (hnm : n ≤ m) (h : toRoot heap n a v = some x) :
    toRoot heap m a v = some x := by
  induction n generalizing m a v with
  | zero => exact absurd h (by simp [toRoot])
  | succ n ih =>
    obtain ⟨m, rfl⟩ : ∃ m', m = m' + 1 := ⟨m - 1, by omega⟩
    rw [toRoot] at h ⊢
    cases hf : (heap a).fatherGraph with
    | none =>
      rw [hf] at h
      exact h
    | some f =>
      rw [hf] at h
      obtain ⟨u, hu, hx⟩ := Option.bind_eq_some_iff.1 h
      simp only [hu, Option.bind_some]
      exact ih (by omega) hx

/-- **The climb succeeds** from every vertex of every node. -/
theorem Heap.Good.exists_toRoot (hg : heap.Good size) {a v : ℕ} (ha : a < size)
    (hv : v < (heap a).nvtxs) {n : ℕ} (hn : a < n) : ∃ x, toRoot heap n a v = some x := by
  induction a using Nat.strong_induction_on generalizing v n with
  | _ a ih =>
    obtain ⟨n, rfl⟩ : ∃ n', n = n' + 1 := ⟨n - 1, by omega⟩
    rw [toRoot]
    rcases eq_or_ne a 0 with rfl | h0
    · exact ⟨v, by rw [hg.root]⟩
    · obtain ⟨f, hf, hfather, label, toSon, hson⟩ := hg.exists_father ha h0
      obtain ⟨u, hu⟩ := hson.exists_find?_of_lt hv
      obtain ⟨x, hx⟩ := ih f hf (by omega) (hson.of_find? hu).2.1 (n := n) (by omega)
      exact ⟨x, by simp only [hfather, hu, Option.bind_some, hx]⟩

/-- **The climb is injective** on every node. -/
theorem Heap.Good.toRoot_injective (hg : heap.Good size) {n a v v' x : ℕ} (ha : a < size)
    (h : toRoot heap n a v = some x) (h' : toRoot heap n a v' = some x) : v = v' := by
  induction n generalizing a v v' with
  | zero => exact absurd h (by simp [toRoot])
  | succ n ih =>
    rw [toRoot] at h h'
    rcases eq_or_ne a 0 with rfl | h0
    · rw [hg.root] at h h'
      exact (Option.some.inj h).trans (Option.some.inj h').symm
    · obtain ⟨f, hf, hfather, label, toSon, hson⟩ := hg.exists_father ha h0
      rw [hfather] at h h'
      obtain ⟨u, hu, hx⟩ := Option.bind_eq_some_iff.1 h
      obtain ⟨u', hu', hx'⟩ := Option.bind_eq_some_iff.1 h'
      obtain rfl := ih (by omega) hx hx'
      exact hson.find?_injective hu hu'

/-- Climbing from a son is climbing from the father. -/
theorem Heap.Good.toRoot_son (hg : heap.Good size) {a b k v : ℕ} (hb : b < size)
    (hfather : (heap b).fatherGraph = some a) (hk : (heap b).mapForFather.find? k = some v)
    (hv : v < (heap a).nvtxs) {n : ℕ} (hn : b < n) : toRoot heap n b k = toRoot heap n a v := by
  obtain ⟨n, rfl⟩ : ∃ n', n = n' + 1 := ⟨n - 1, by omega⟩
  have hab := hg.lt_of_fatherGraph hb hfather
  obtain ⟨x, hx⟩ := hg.exists_toRoot (by omega : a < size) hv (by omega : a < n)
  have hson : toRoot heap (n + 1) b k = toRoot heap n a v := by
    rw [toRoot, hfather]
    simp only [hk, Option.bind_some]
  rw [hson, hx, toRoot_mono (Nat.le_succ n) hx]

/-- A vertex of a father, found again in the son of its label. -/
theorem Heap.HasSons.exists_son {a b c : ℕ} (hs : heap.HasSons a b c) {v : ℕ}
    (hv : v < (heap a).nvtxs) :
    (∃ k, (heap a).mapForG1.find? v = some k ∧ (heap b).mapForFather.find? k = some v) ∨
      ∃ k, (heap a).mapForG2.find? v = some k ∧ (heap c).mapForFather.find? k = some v := by
  rcases hs.binary v hv with hlabel | hlabel
  · obtain ⟨k, hk⟩ := hs.left.exists_find? hv hlabel
    exact Or.inl ⟨k, (hs.left.inverse k v).1 hk, hk⟩
  · obtain ⟨k, hk⟩ := hs.right.exists_find? hv hlabel
    exact Or.inr ⟨k, (hs.right.inverse k v).1 hk, hk⟩

/-- No vertex of a father is on both sides. -/
theorem Heap.HasSons.not_both {a b c : ℕ} (hs : heap.HasSons a b c) {v k l : ℕ}
    (hk : (heap b).mapForFather.find? k = some v) (hl : (heap c).mapForFather.find? l = some v) :
    False := by
  have h0 := (hs.left.of_find? hk).2.2
  have h1 := (hs.right.of_find? hl).2.2
  omega

/-- **The way down exists.** -/
theorem Heap.Good.exists_descends (hg : heap.Good size) {a v : ℕ} (ha : a < size)
    (hv : v < (heap a).nvtxs) : ∃ d w, Descends heap a v d w := by
  induction hn : size - a using Nat.strong_induction_on generalizing a v with
  | _ n ih =>
    rcases hg.node a ha with hl | ⟨b, c, hb, hc, hs⟩
    · exact ⟨a, v, Descends.here hl.leftSon_eq hl.rightSon_eq⟩
    · have hab := hs.left_lt
      have hac := hs.right_lt
      rcases hs.exists_son hv with ⟨k, hk, hkv⟩ | ⟨k, hk, hkv⟩
      · obtain ⟨d, w, h⟩ := ih (size - b) (by omega) hb (hs.left.of_find? hkv).1 rfl
        exact ⟨d, w, Descends.left hs.leftSon_eq hk h⟩
      · obtain ⟨d, w, h⟩ := ih (size - c) (by omega) hc (hs.right.of_find? hkv).1 rfl
        exact ⟨d, w, Descends.right hs.rightSon_eq hk h⟩

/-- **The way down is unique.** -/
theorem Heap.Good.descends_unique (hg : heap.Good size) {a v d w d' w' : ℕ} (ha : a < size)
    (h : Descends heap a v d w) (h' : Descends heap a v d' w') : d = d' ∧ w = w' := by
  induction h with
  | @here a v hl hr =>
    cases h' with
    | here => exact ⟨rfl, rfl⟩
    | left hl' => exact absurd (hl.symm.trans hl') (by simp)
    | right hr' => exact absurd (hr.symm.trans hr') (by simp)
  | @left a b v k d w hl hk _ ih =>
    rcases hg.node a ha with hleaf | ⟨b', c, hb, hc, hs⟩
    · exact absurd (hleaf.leftSon_eq.symm.trans hl) (by simp)
    obtain rfl : b = b' := Option.some.inj (hl.symm.trans hs.leftSon_eq)
    cases h' with
    | here hl' => exact absurd (hl.symm.trans hl') (by simp)
    | left hl' hk' h' =>
      obtain rfl := Option.some.inj (hl.symm.trans hl')
      obtain rfl := Option.some.inj (hk.symm.trans hk')
      exact ih hb h'
    | right hr' hk' h' =>
      exact (hs.not_both ((hs.left.inverse _ _).2 hk) ((hs.right.inverse _ _).2 hk')).elim
  | @right a c v k d w hr hk _ ih =>
    rcases hg.node a ha with hleaf | ⟨b, c', hb, hc, hs⟩
    · exact absurd (hleaf.rightSon_eq.symm.trans hr) (by simp)
    obtain rfl : c = c' := Option.some.inj (hr.symm.trans hs.rightSon_eq)
    cases h' with
    | here _ hr' => exact absurd (hr.symm.trans hr') (by simp)
    | left hl' hk' h' =>
      exact (hs.not_both ((hs.left.inverse _ _).2 hk') ((hs.right.inverse _ _).2 hk)).elim
    | right hr' hk' h' =>
      obtain rfl := Option.some.inj (hr.symm.trans hr')
      obtain rfl := Option.some.inj (hk.symm.trans hk')
      exact ih hc h'

/-! ### The leaves of two brothers are different -/

/-- The link to the father, as a relation. -/
def IsFatherOf (heap : Heap) (a f : ℕ) : Prop := (heap a).fatherGraph = some f

theorem Heap.Good.reflTransGen_of_leafBelow (hg : heap.Good size) {a d : ℕ} (ha : a < size)
    (h : LeafBelow heap a d) : d < size ∧ Relation.ReflTransGen (IsFatherOf heap) d a := by
  induction h with
  | here => exact ⟨ha, Relation.ReflTransGen.refl⟩
  | @left a b d hl _ ih =>
    rcases hg.node a ha with hleaf | ⟨b', c, hb, hc, hs⟩
    · exact absurd (hleaf.leftSon_eq.symm.trans hl) (by simp)
    obtain rfl : b = b' := Option.some.inj (hl.symm.trans hs.leftSon_eq)
    exact ⟨(ih hb).1, (ih hb).2.tail hs.father_left⟩
  | @right a c d hr _ ih =>
    rcases hg.node a ha with hleaf | ⟨b, c', hb, hc, hs⟩
    · exact absurd (hleaf.rightSon_eq.symm.trans hr) (by simp)
    obtain rfl : c = c' := Option.some.inj (hr.symm.trans hs.rightSon_eq)
    exact ⟨(ih hc).1, (ih hc).2.tail hs.father_right⟩

/-- Fathers have smaller addresses. -/
theorem Heap.Good.le_of_reflTransGen (hg : heap.Good size) {a f : ℕ} (ha : a < size)
    (h : Relation.ReflTransGen (IsFatherOf heap) a f) : f ≤ a := by
  induction h with
  | refl => exact le_rfl
  | tail _ hf ih => exact (hg.lt_of_fatherGraph (by omega) hf).le.trans ih

/-- A brother is not an ancestor. -/
theorem Heap.Good.not_ancestor (hg : heap.Good size) {a b c : ℕ} (hab : a < b) (hac : a < c)
    (hc : c < size) (hne : c ≠ b) (hfather : (heap c).fatherGraph = some a)
    (h : Relation.ReflTransGen (IsFatherOf heap) c b) : False := by
  rcases Relation.ReflTransGen.cases_head h with rfl | ⟨f, hf, hrest⟩
  · exact hne rfl
  · obtain rfl : a = f := Option.some.inj (hfather.symm.trans hf)
    exact absurd (hg.le_of_reflTransGen (by omega) hrest) (by omega)

theorem Heap.Good.leafBelow_disjoint (hg : heap.Good size) {a b c d : ℕ} (hb : b < size)
    (hc : c < size) (hs : heap.HasSons a b c) (hbd : LeafBelow heap b d)
    (hcd : LeafBelow heap c d) : False := by
  have hunique : Relator.RightUnique (IsFatherOf heap) := fun x f f' hf hf' ↦
    Option.some.inj (hf.symm.trans hf')
  -- both brothers are on the one way up from the leaf, so one is above the other
  rcases Relation.ReflTransGen.total_of_right_unique hunique
    (hg.reflTransGen_of_leafBelow hb hbd).2 (hg.reflTransGen_of_leafBelow hc hcd).2 with h | h
  · exact hg.not_ancestor hs.right_lt hs.left_lt hb hs.ne hs.father_left h
  · exact hg.not_ancestor hs.left_lt hs.right_lt hc hs.ne.symm hs.father_right h

/-! ### The walk -/

/-- The loop over a leaf writes `parts` to the root vertices of the leaf, and nothing else. -/
theorem foldlM_writeLeaf {climb a parts : ℕ} (l : List ℕ) (part : ℕ → ℤ)
    (hl : ∀ v ∈ l, ∃ x, toRoot heap climb a v = some x) :
    ∃ part', l.foldlM (fun part i ↦ (toRoot heap climb a i).map fun node ↦
        Function.update part node (parts : ℤ)) part = some part' ∧
      (∀ v ∈ l, ∀ x, toRoot heap climb a v = some x → part' x = parts) ∧
      ∀ x, (∀ v ∈ l, toRoot heap climb a v ≠ some x) → part' x = part x := by
  induction l using List.reverseRecOn with
  | nil => exact ⟨part, rfl, by simp, fun _ _ ↦ rfl⟩
  | append_singleton l v ih =>
    obtain ⟨part', hfold, hwrite, hframe⟩ := ih fun v hv ↦ hl v (List.mem_append_left _ hv)
    obtain ⟨y, hy⟩ := hl v (by simp)
    refine ⟨Function.update part' y parts, ?_, fun u hu x hx ↦ ?_, fun x hx ↦ ?_⟩
    · rw [List.foldlM_append, hfold]
      simp [hy]
    · rcases eq_or_ne x y with rfl | hne
      · rw [Function.update_self]
      · rw [Function.update_of_ne hne]
        rcases List.mem_append.1 hu with hu | hu
        · exact hwrite u hu x hx
        · obtain rfl := List.mem_singleton.1 hu
          exact absurd (Option.some.inj (hy.symm.trans hx)).symm hne
    · have hne : x ≠ y := by
        rintro rfl
        exact hx v (by simp) hy
      rw [Function.update_of_ne hne]
      exact hframe x fun u hu ↦ hx u (List.mem_append_left _ hu)

/-- What the walk below the node `a` leaves, when it numbers from `parts` on: `leaves` are the
leaves below `a` in the order in which they are numbered. -/
structure WritesBelow (heap : Heap) (climb a parts : ℕ) (part part' : ℕ → ℤ) (leaves : List ℕ) :
    Prop where
  nodup : leaves.Nodup
  mem_iff : ∀ d, d ∈ leaves ↔ LeafBelow heap a d
  /-- A root vertex that belongs to `a` gets the number of the leaf it descends to. -/
  written : ∀ v < (heap a).nvtxs, ∀ x, toRoot heap climb a v = some x →
    ∃ j d w : ℕ, leaves[j]? = some d ∧ Descends heap a v d w ∧ part' x = (parts : ℤ) + j
  frame : ∀ x, (∀ v < (heap a).nvtxs, toRoot heap climb a v ≠ some x) → part' x = part x

/-- A leaf. -/
theorem Heap.Good.writesBelow_leaf (hg : heap.Good size) {climb a : ℕ} (ha : a < size)
    (hclimb : size ≤ climb) (hl : (heap a).IsLeaf) (parts : ℕ) (part : ℕ → ℤ) :
    ∃ part', writeLeaf heap climb a parts part = some part' ∧
      WritesBelow heap climb a parts part part' [a] := by
  have hup : ∀ v ∈ List.range (heap a).nvtxs, ∃ x, toRoot heap climb a v = some x := fun v hv ↦
    hg.exists_toRoot ha (List.mem_range.1 hv) (by omega)
  obtain ⟨part', hfold, hwrite, hframe⟩ := foldlM_writeLeaf _ part hup
  refine ⟨part', hfold, by simp, fun d ↦ ?_, fun v hv x hx ↦ ?_, fun x hx ↦ ?_⟩
  · rw [List.mem_singleton]
    constructor
    · rintro rfl
      exact LeafBelow.here hl.leftSon_eq hl.rightSon_eq
    · intro h
      cases h with
      | here => rfl
      | left hl' => exact absurd (hl.leftSon_eq.symm.trans hl') (by simp)
      | right hr' => exact absurd (hl.rightSon_eq.symm.trans hr') (by simp)
  · refine ⟨0, a, v, rfl, Descends.here hl.leftSon_eq hl.rightSon_eq, ?_⟩
    rw [hwrite v (List.mem_range.2 hv) x hx]
    simp
  · exact hframe x fun v hv ↦ hx v (List.mem_range.1 hv)

/-- A father: first the left son, then the right one. -/
theorem Heap.Good.writesBelow_father (hg : heap.Good size) {climb a b c parts : ℕ} (hb : b < size)
    (hc : c < size) (hclimb : size ≤ climb) (hs : heap.HasSons a b c) {part part₁ part₂ : ℕ → ℤ}
    {l₁ l₂ : List ℕ} (h₁ : WritesBelow heap climb b parts part part₁ l₁)
    (h₂ : WritesBelow heap climb c (parts + l₁.length) part₁ part₂ l₂) :
    WritesBelow heap climb a parts part part₂ (l₁ ++ l₂) := by
  -- the way up from a son leads through the father
  have hupb : ∀ {k v : ℕ}, (heap b).mapForFather.find? k = some v →
      toRoot heap climb b k = toRoot heap climb a v := fun hk ↦
    hg.toRoot_son hb hs.father_left hk (hs.left.of_find? hk).2.1 (by omega)
  have hupc : ∀ {k v : ℕ}, (heap c).mapForFather.find? k = some v →
      toRoot heap climb c k = toRoot heap climb a v := fun hk ↦
    hg.toRoot_son hc hs.father_right hk (hs.right.of_find? hk).2.1 (by omega)
  have ha : a < size := hs.left_lt.trans hb
  refine ⟨?_, fun d ↦ ?_, fun v hv x hx ↦ ?_, fun x hx ↦ ?_⟩
  · refine h₁.nodup.append h₂.nodup fun d hd hd' ↦ ?_
    exact hg.leafBelow_disjoint hb hc hs ((h₁.mem_iff d).1 hd) ((h₂.mem_iff d).1 hd')
  · rw [List.mem_append, h₁.mem_iff, h₂.mem_iff]
    constructor
    · rintro (h | h)
      · exact LeafBelow.left hs.leftSon_eq h
      · exact LeafBelow.right hs.rightSon_eq h
    · intro h
      cases h with
      | here hl => exact absurd (hl.symm.trans hs.leftSon_eq) (by simp)
      | left hl h => exact Or.inl (Option.some.inj (hl.symm.trans hs.leftSon_eq) ▸ h)
      | right hr h => exact Or.inr (Option.some.inj (hr.symm.trans hs.rightSon_eq) ▸ h)
  · rcases hs.exists_son hv with ⟨k, hk, hkv⟩ | ⟨k, hk, hkv⟩
    · obtain ⟨j, d, w, hj, hdesc, hpart⟩ := h₁.written k (hs.left.of_find? hkv).1 x
        ((hupb hkv).trans hx)
      refine ⟨j, d, w, ?_, Descends.left hs.leftSon_eq hk hdesc, ?_⟩
      · rw [List.getElem?_append_left (List.getElem?_eq_some_iff.1 hj).1, hj]
      · -- the walk on the right does not touch what belongs to the left
        rw [h₂.frame x fun l hl hlx ↦ ?_, hpart]
        obtain ⟨u, hu⟩ := hs.right.exists_find?_of_lt hl
        obtain rfl := hg.toRoot_injective ha hx ((hupc hu).symm.trans hlx)
        exact hs.not_both hkv hu
    · obtain ⟨j, d, w, hj, hdesc, hpart⟩ := h₂.written k (hs.right.of_find? hkv).1 x
        ((hupc hkv).trans hx)
      refine ⟨l₁.length + j, d, w, ?_, Descends.right hs.rightSon_eq hk hdesc, ?_⟩
      · rw [List.getElem?_append_right (Nat.le_add_right _ _), Nat.add_sub_cancel_left, hj]
      · rw [hpart]
        push_cast
        omega
  · have hleft : ∀ k < (heap b).nvtxs, toRoot heap climb b k ≠ some x := fun k hk hkx ↦ by
      obtain ⟨u, hu⟩ := hs.left.exists_find?_of_lt hk
      exact hx u (hs.left.of_find? hu).2.1 ((hupb hu).symm.trans hkx)
    have hright : ∀ k < (heap c).nvtxs, toRoot heap climb c k ≠ some x := fun k hk hkx ↦ by
      obtain ⟨u, hu⟩ := hs.right.exists_find?_of_lt hk
      exact hx u (hs.right.of_find? hu).2.1 ((hupc hu).symm.trans hkx)
    rw [h₂.frame x hright, h₁.frame x hleft]

/-- **The walk**, from any node. -/
theorem Heap.Good.dfsForWriteParts_spec (hg : heap.Good size) {climb : ℕ} (hclimb : size ≤ climb)
    {n a : ℕ} (ha : a < size) (hn : size - a ≤ n) (parts : ℕ) (part : ℕ → ℤ) :
    ∃ leaves part', dfsForWriteParts heap climb n (some a) parts part =
        some (leaves.length, part') ∧ WritesBelow heap climb a parts part part' leaves := by
  induction n generalizing a parts part with
  | zero => omega
  | succ n ih =>
    rw [dfsForWriteParts]
    rcases hg.node a ha with hl | ⟨b, c, hb, hc, hs⟩
    · obtain ⟨part', hleaf, hwrites⟩ := hg.writesBelow_leaf ha hclimb hl parts part
      refine ⟨[a], part', ?_, hwrites⟩
      simp only [hl.leftSon_eq, hl.rightSon_eq, hleaf, Option.map_some]
      rfl
    · have hab := hs.left_lt
      have hac := hs.right_lt
      obtain ⟨l₁, part₁, hrun₁, h₁⟩ := ih hb (by omega) parts part
      obtain ⟨l₂, part₂, hrun₂, h₂⟩ := ih hc (by omega) (parts + l₁.length) part₁
      refine ⟨l₁ ++ l₂, part₂, ?_, hg.writesBelow_father hb hc hclimb hs h₁ h₂⟩
      simp only [hs.leftSon_eq, hs.rightSon_eq, hrun₁, Option.bind_eq_bind, Option.bind_some,
        hrun₂, List.length_append]
      rfl

end Tree

/-! ### The whole of `doHmetis` up to the merging of parts -/

/-- `part` numbers the vertices of the root by the leaves they end up in. -/
structure NumbersLeaves (heap : Heap) (partnum : ℕ) (part : ℕ → ℤ) : Prop where
  partnum_eq : partnum = {d | LeafBelow heap 0 d}.ncard
  mem_range : ∀ v < (heap 0).nvtxs, 0 ≤ part v ∧ part v < partnum
  /-- Every vertex descends to one leaf. -/
  existsUnique_leaf : ∀ v < (heap 0).nvtxs, ∃! d, ∃ w, Descends heap 0 v d w
  part_eq_iff : ∀ u < (heap 0).nvtxs, ∀ v < (heap 0).nvtxs, ∀ d e w x,
    Descends heap 0 u d w → Descends heap 0 v e x → (part u = part v ↔ d = e)
  /-- Every lookup between a leaf and the root succeeds. -/
  exists_toRoot : ∀ d, LeafBelow heap 0 d → ∀ w < (heap d).nvtxs,
    ∃ v, toRoot heap (d + 1) d w = some v

theorem ncard_setOf_mem {l : List ℕ} (hl : l.Nodup) : {d | d ∈ l}.ncard = l.length := by
  have hset : {d | d ∈ l} = (l.toFinset : Set ℕ) := by
    ext d
    simp
  rw [hset, Set.ncard_coe_finset, List.toFinset_card_of_nodup hl]

theorem Heap.Good.toRoot_root {heap : Heap} {size : ℕ} (hg : heap.Good size) {n v : ℕ}
    (hn : 0 < n) : toRoot heap n 0 v = some v := by
  obtain ⟨n, rfl⟩ : ∃ n', n = n' + 1 := ⟨n - 1, by omega⟩
  rw [toRoot, hg.root]

/-- **The walk from the root numbers the leaves.** -/
theorem Heap.Good.numbersLeaves {heap : Heap} {size climb : ℕ} {part part' : ℕ → ℤ}
    {leaves : List ℕ} (hg : heap.Good size) (hclimb : size ≤ climb)
    (h : WritesBelow heap climb 0 0 part part' leaves) :
    NumbersLeaves heap leaves.length part' := by
  have hpos := hg.pos
  have hwritten : ∀ v < (heap 0).nvtxs, ∃ j d w : ℕ, leaves[j]? = some d ∧
      Descends heap 0 v d w ∧ part' v = j := fun v hv ↦ by
    obtain ⟨j, d, w, hj, hdesc, hpart⟩ := h.written v hv v (hg.toRoot_root (by omega))
    exact ⟨j, d, w, hj, hdesc, by simpa using hpart⟩
  refine ⟨?_, fun v hv ↦ ?_, fun v hv ↦ ?_, fun u hu v hv d e w x hd he ↦ ?_, fun d hd w hw ↦ ?_⟩
  · rw [← ncard_setOf_mem h.nodup]
    exact congrArg Set.ncard (Set.ext fun d ↦ h.mem_iff d)
  · obtain ⟨j, d, w, hj, -, hpart⟩ := hwritten v hv
    have hlt := (List.getElem?_eq_some_iff.1 hj).1
    omega
  · obtain ⟨d, w, hdesc⟩ := hg.exists_descends hpos hv
    exact ⟨d, ⟨w, hdesc⟩, fun e ⟨x, he⟩ ↦ (hg.descends_unique hpos he hdesc).1⟩
  · obtain ⟨i, d', w', hi, hd', hpu⟩ := hwritten u hu
    obtain ⟨j, e', x', hj, he', hpv⟩ := hwritten v hv
    obtain ⟨rfl, -⟩ := hg.descends_unique hpos hd hd'
    obtain ⟨rfl, -⟩ := hg.descends_unique hpos he he'
    obtain ⟨hi', rfl⟩ := List.getElem?_eq_some_iff.1 hi
    obtain ⟨hj', rfl⟩ := List.getElem?_eq_some_iff.1 hj
    rw [hpu, hpv, h.nodup.getElem_inj_iff, Nat.cast_inj]
  · exact hg.exists_toRoot (hg.reflTransGen_of_leafBelow hpos hd).1 hw (Nat.lt_succ_self d)

section Init

variable {M : Type*} {r : CalledRelation} {fathermap : OrdMap Str Str} {h : CHypergraph}

/-- The root alone is a tree. -/
theorem IsHypergraphOf.good_bisectInit (hh : IsHypergraphOf r fathermap h) (hr : r.Proper)
    (g : Option M) (raw : Heap) : (bisectInit g raw h).Good := by
  have hroot : (bisectInit g raw h).heap 0 = prepareRoot h := by
    simp only [bisectInit, Function.update_self]
  have hw := hh.wellFormed hr
  have hleaf : ((bisectInit g raw h).heap 0).IsLeaf := by
    rw [hroot]
    exact ⟨hh.leftSon_eq, hh.rightSon_eq, hh.mapForG1_eq, hh.mapForG2_eq⟩
  have hzero : ∀ a < (bisectInit g raw h).size, a = 0 := fun a ha ↦ Nat.lt_one_iff.1 ha
  refine ⟨⟨fun a ha ↦ ?_, fun a ha ↦ ?_, Nat.one_pos, ?_, fun a ha h0 ↦ ?_⟩, ?_, fun a ha ↦ ?_⟩
  · rw [hzero a ha, hroot]
    exact ⟨hw.eptr_zero, hw.eptr_lt, hw.pins_nodup, hw.pins_lt, hw.covered⟩
  · rw [hzero a ha]
    exact Or.inl hleaf
  · rw [hroot]
    exact hh.fatherGraph_eq
  · exact absurd (hzero a ha) h0
  · exact List.nodup_singleton 0
  · obtain rfl : a = 0 := List.mem_singleton.1 ha
    exact ⟨Nat.one_pos, hleaf⟩

end Init

/-- **The bisection of a class relation ends in a partition of its classes.** Whatever the memory
holds and however `myPartition` behaves, as long as a reported split gives every vertex a side: the
loop terminates, and the walk after it returns the number of leaves and gives every vertex of the
root the number of the one leaf it descends to. -/
theorem doHmetis_numbersLeaves {M : Type*} (r : CalledRelation) (hr : r.Proper)
    (fathermap : OrdMap Str Str) (strPara : Str) (raw : CHypergraph) (memory : Heap)
    (g : Option M) (myPartition : ℕ → CHypergraph → Outcome M)
    (hmy : LabelsSides myPartition) :
    ∃ pHyper, createHypergraph r fathermap strPara raw = some pHyper ∧
      ∃ s fuel₀, (∀ fuel > fuel₀, bisect myPartition fuel (bisectInit g memory pHyper) = some s) ∧
        pHyper.SameGraph (s.heap 0) ∧
        ∀ climb ≥ s.size, ∀ n ≥ s.size, ∃ partnum part,
          dfsForWriteParts s.heap climb n (some 0) 0 (s.heap 0).part = some (partnum, part) ∧
          NumbersLeaves s.heap partnum part := by
  obtain ⟨pHyper, hsome, hh⟩ := exists_createHypergraph r fathermap strPara raw
  obtain ⟨s, hrun, hgood, hroot⟩ := exists_bisect hmy (hh.good_bisectInit hr g memory)
  have hinit : pHyper.SameGraph ((bisectInit g memory pHyper).heap 0) :=
    ⟨rfl, rfl, rfl, rfl, rfl, rfl, rfl, rfl⟩
  refine ⟨pHyper, hsome, s, _, hrun, hinit.trans hroot, fun climb hclimb n hn ↦ ?_⟩
  have hpos := hgood.pos
  obtain ⟨leaves, part, hdfs, hwrites⟩ := hgood.dfsForWriteParts_spec hclimb hpos (by omega) 0
    (s.heap 0).part
  exact ⟨leaves.length, part, hdfs, hgood.numbersLeaves hclimb hwrites⟩

/-- A partitioner that cuts off the first vertex, whatever it is asked. -/
def cutFirst (_ : ℕ) (_ : CHypergraph) : Outcome Unit where
  isParted := true
  modu := 0
  part := fun v ↦ if v = 0 then 0 else 1
  myGraph := ()

theorem doHmetis_numbersLeaves_sampleRelation :
    (sampleRelation.Proper ∧ LabelsSides cutFirst) ∧
    ∃ pHyper, createHypergraph sampleRelation ∅ [] default = some pHyper ∧
      ∃ s fuel₀,
        (∀ fuel > fuel₀, bisect cutFirst fuel (bisectInit none default pHyper) = some s) ∧
        pHyper.SameGraph (s.heap 0) ∧
        ∀ climb ≥ s.size, ∀ n ≥ s.size, ∃ partnum part,
          dfsForWriteParts s.heap climb n (some 0) 0 (s.heap 0).part = some (partnum, part) ∧
          NumbersLeaves s.heap partnum part := by
  have hproper : sampleRelation.Proper := by unfold CalledRelation.Proper; decide
  have hlabels : LabelsSides cutFirst := fun k p _ v _ ↦ by
    rcases eq_or_ne v 0 with rfl | hv
    · exact Or.inl rfl
    · exact Or.inr (if_neg hv)
  exact ⟨⟨hproper, hlabels⟩, doHmetis_numbersLeaves sampleRelation hproper ∅ [] default default none
    cutFirst hlabels⟩

end CArchitecture
