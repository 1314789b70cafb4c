import CArchitecture.Library.Loop
import Mathlib.Data.List.Lex
import Mathlib.Data.List.Nodup
import Mathlib.Data.List.Pairwise
import Mathlib.Order.Lattice

/-!
# Ordered maps with insert-if-absent

A finite map kept as an association list in strictly increasing key order, with the operations an
ordered tree container offers: `find?`, an `insert` that **leaves an existing entry alone**, and an
in-place `modify`. The order matters because the entries are also iterated, in key order.

Sortedness is a field, so no operation carries a well-formedness premise. The lookup equations
`find?_insert` and `find?_modify` are what a client rewrites with, and `mem_entries_iff` is the
bridge to iteration.

Entries that are inserted one after another (`insertMany`) are found by the **first** one with their
key. So the order matters only where two of them disagree (`findSome?_eq_of_perm`), and two maps
with the same lookups are the same map (`ext_find?`). What a loop that inserts, and may fail, has
left is found in the same way (`find?_foldlM_insert`).
-/

/-- A finite map from `K` to `V`: entries in strictly increasing key order. -/
structure OrdMap (K V : Type*) [LinearOrder K] where
  /-- The entries, in key order. -/
  entries : List (K × V)
  /-- Keys increase strictly, so in particular no key is repeated. -/
  sorted : entries.Pairwise fun a b ↦ a.1 < b.1

namespace OrdMap

variable {K V : Type*} [LinearOrder K]

/-! ### Operations on entry lists -/

/-- Look a key up in an entry list. -/
def lookupIn (k : K) : List (K × V) → Option V
  | [] => none
  | (a, b) :: t => if k = a then some b else lookupIn k t

theorem lookupIn_cons_self (k : K) (v : V) (l : List (K × V)) :
    lookupIn k ((k, v) :: l) = some v := if_pos rfl

theorem lookupIn_cons_of_ne {k k' : K} (h : k' ≠ k) (v : V) (l : List (K × V)) :
    lookupIn k' ((k, v) :: l) = lookupIn k' l := if_neg h

/-- Insert an entry at its place, unless its key is present already. -/
def insertIn (k : K) (v : V) : List (K × V) → List (K × V)
  | [] => [(k, v)]
  | (a, b) :: t =>
    if k < a then (k, v) :: (a, b) :: t
    else if k = a then (a, b) :: t
    else (a, b) :: insertIn k v t

/-- Change the value stored under a key. -/
def modifyIn (k : K) (f : V → V) (l : List (K × V)) : List (K × V) :=
  l.map fun e ↦ if e.1 = k then (e.1, f e.2) else e

theorem mem_insertIn {k : K} {v : V} {e : K × V} {l : List (K × V)}
    (h : e ∈ insertIn k v l) : e = (k, v) ∨ e ∈ l := by
  induction l with
  | nil => exact Or.inl (List.mem_singleton.1 h)
  | cons a t ih =>
    rw [insertIn] at h
    split_ifs at h with hlt heq
    · exact List.mem_cons.1 h
    · exact Or.inr h
    · rcases List.mem_cons.1 h with rfl | h
      · exact Or.inr List.mem_cons_self
      · exact (ih h).imp_right (List.mem_cons_of_mem _)

theorem pairwise_insertIn {k : K} {v : V} {l : List (K × V)}
    (h : l.Pairwise fun a b ↦ a.1 < b.1) :
    (insertIn k v l).Pairwise fun a b ↦ a.1 < b.1 := by
  induction l with
  | nil => exact List.pairwise_singleton _ _
  | cons a t ih =>
    obtain ⟨hhead, htail⟩ := List.pairwise_cons.1 h
    rw [insertIn]
    split_ifs with hlt heq
    · refine List.pairwise_cons.2 ⟨fun e he ↦ ?_, h⟩
      rcases List.mem_cons.1 he with rfl | he
      · exact hlt
      · exact hlt.trans (hhead e he)
    · exact h
    · refine List.pairwise_cons.2 ⟨fun e he ↦ ?_, ih htail⟩
      rcases mem_insertIn he with rfl | he
      · exact lt_of_le_of_ne (not_lt.1 hlt) (Ne.symm heq)
      · exact hhead e he

/-- A key below every key of the list is not found. -/
theorem lookupIn_eq_none_of_forall_lt {k : K} {l : List (K × V)} (h : ∀ e ∈ l, k < e.1) :
    lookupIn k l = none := by
  induction l with
  | nil => rfl
  | cons a t ih =>
    rw [lookupIn, if_neg (h a List.mem_cons_self).ne]
    exact ih fun e he ↦ h e (List.mem_cons_of_mem _ he)

theorem lookupIn_insertIn_self {k : K} {v : V} {l : List (K × V)}
    (h : l.Pairwise fun a b ↦ a.1 < b.1) :
    lookupIn k (insertIn k v l) = (lookupIn k l).or (some v) := by
  induction l with
  | nil => simp [insertIn, lookupIn]
  | cons a t ih =>
    obtain ⟨hhead, htail⟩ := List.pairwise_cons.1 h
    rw [insertIn]
    split_ifs with hlt heq
    · -- below the head, hence below everything: the key was absent
      have habs : lookupIn k (a :: t) = none := by
        refine lookupIn_eq_none_of_forall_lt fun e he ↦ ?_
        rcases List.mem_cons.1 he with rfl | he
        · exact hlt
        · exact hlt.trans (hhead e he)
      rw [habs, lookupIn, if_pos rfl, Option.none_or]
    · simp [lookupIn, heq]
    · simp only [lookupIn, if_neg heq, ih htail]

theorem lookupIn_insertIn_of_ne {k k' : K} {v : V} {l : List (K × V)} (hne : k' ≠ k) :
    lookupIn k' (insertIn k v l) = lookupIn k' l := by
  induction l with
  | nil => simp [insertIn, lookupIn, hne]
  | cons a t ih =>
    rw [insertIn]
    split_ifs with hlt heq
    · rw [lookupIn, if_neg hne]
    · rfl
    · simp only [lookupIn, ih]

theorem lookupIn_modifyIn (k k' : K) (f : V → V) (l : List (K × V)) :
    lookupIn k' (modifyIn k f l) =
      if k' = k then (lookupIn k' l).map f else lookupIn k' l := by
  induction l with
  | nil => simp [modifyIn, lookupIn]
  | cons a t ih =>
    have ih' : lookupIn k' (t.map fun e ↦ if e.1 = k then (e.1, f e.2) else e) = _ := ih
    obtain ⟨a, b⟩ := a
    rcases eq_or_ne a k with ha | ha
    · subst ha
      by_cases hk : k' = a <;> simp [modifyIn, lookupIn, hk, ih']
    · rcases eq_or_ne k' a with hk | hk
      · subst hk
        simp [modifyIn, lookupIn, ha]
      · simp [modifyIn, lookupIn, ha, hk, ih']

theorem keys_modifyIn (k : K) (f : V → V) (l : List (K × V)) :
    (modifyIn k f l).map Prod.fst = l.map Prod.fst := by
  rw [modifyIn, List.map_map]
  refine List.map_congr_left fun e _ ↦ ?_
  by_cases h : e.1 = k <;> simp [h]

omit [LinearOrder K] in
/-- A loop over the entries that changes values only, and may fail. -/
theorem keys_mapM {W : Type*} {f : V → Option W} {l : List (K × V)} {l' : List (K × W)}
    (h : (l.mapM fun e ↦ (f e.2).map (e.1, ·)) = some l') : l'.map Prod.fst = l.map Prod.fst := by
  induction l generalizing l' with
  | nil =>
    obtain rfl := Option.some.inj h
    rfl
  | cons e l ih =>
    rw [List.mapM_cons, Option.bind_eq_bind] at h
    obtain ⟨a, ha, h⟩ := Option.bind_eq_some_iff.1 h
    obtain ⟨t, ht, h⟩ := Option.bind_eq_some_iff.1 h
    obtain ⟨w, -, rfl⟩ := Option.map_eq_some_iff.1 ha
    obtain rfl := Option.some.inj h
    rw [List.map_cons, List.map_cons, ih ht]

/-- In a sorted list an entry is found exactly when it is there. -/
theorem mem_iff_lookupIn {k : K} {v : V} {l : List (K × V)}
    (h : l.Pairwise fun a b ↦ a.1 < b.1) : (k, v) ∈ l ↔ lookupIn k l = some v := by
  induction l with
  | nil => simp [lookupIn]
  | cons a t ih =>
    obtain ⟨hhead, htail⟩ := List.pairwise_cons.1 h
    obtain ⟨a, b⟩ := a
    rw [List.mem_cons, lookupIn, Prod.mk.injEq]
    rcases eq_or_ne k a with hk | hk
    · subst hk
      have hnot : (k, v) ∉ t := fun hmem ↦ lt_irrefl k (hhead _ hmem)
      simp [hnot, eq_comm]
    · simp [hk, ih htail]

/-! ### The map -/

/-- The empty map. -/
def empty : OrdMap K V := ⟨[], List.Pairwise.nil⟩

instance : EmptyCollection (OrdMap K V) := ⟨empty⟩

instance : Inhabited (OrdMap K V) := ⟨∅⟩

/-- The value stored under a key. -/
def find? (m : OrdMap K V) (k : K) : Option V := lookupIn k m.entries

/-- Store a value under a key that has none; a key that has one **keeps** it. -/
def insert (m : OrdMap K V) (k : K) (v : V) : OrdMap K V :=
  ⟨insertIn k v m.entries, pairwise_insertIn m.sorted⟩

/-- Change the value stored under a key. -/
def modify (m : OrdMap K V) (k : K) (f : V → V) : OrdMap K V where
  entries := modifyIn k f m.entries
  sorted := by
    have hkeys := List.pairwise_map.2 m.sorted
    rw [← keys_modifyIn k f] at hkeys
    exact List.pairwise_map.1 hkeys

/-- Change all values. -/
def mapValues {W : Type*} (f : V → W) (m : OrdMap K V) : OrdMap K W where
  entries := m.entries.map fun e ↦ (e.1, f e.2)
  sorted := List.pairwise_map.2 m.sorted

/-- Change all values, by a function that may fail. -/
def traverse {W : Type*} (f : V → Option W) (m : OrdMap K V) : Option (OrdMap K W) :=
  match h : m.entries.mapM fun e ↦ (f e.2).map (e.1, ·) with
  | none => none
  | some l =>
    some
      { entries := l
        sorted := by
          have hkeys := List.pairwise_map.2 m.sorted
          rw [← keys_mapM h] at hkeys
          exact List.pairwise_map.1 hkeys }

/-- The keys, in order. -/
def keys (m : OrdMap K V) : List K := m.entries.map Prod.fst

@[simp] theorem entries_empty : (∅ : OrdMap K V).entries = [] := rfl

@[simp] theorem find?_empty (k : K) : (∅ : OrdMap K V).find? k = none := rfl

/-- **The lookup equation of `insert`.** -/
theorem find?_insert (m : OrdMap K V) (k k' : K) (v : V) :
    (m.insert k v).find? k' = if k' = k then (m.find? k).or (some v) else m.find? k' := by
  split_ifs with h
  · subst h
    exact lookupIn_insertIn_self m.sorted
  · exact lookupIn_insertIn_of_ne h

theorem find?_insert_self_of_none {m : OrdMap K V} {k : K} (v : V) (h : m.find? k = none) :
    (m.insert k v).find? k = some v := by
  rw [find?_insert, if_pos rfl, h, Option.none_or]

theorem find?_insert_of_ne (m : OrdMap K V) {k k' : K} (v : V) (h : k' ≠ k) :
    (m.insert k v).find? k' = m.find? k' := by
  rw [find?_insert, if_neg h]

/-- **The lookup equation of `modify`.** -/
theorem find?_modify (m : OrdMap K V) (k k' : K) (f : V → V) :
    (m.modify k f).find? k' = if k' = k then (m.find? k').map f else m.find? k' :=
  lookupIn_modifyIn k k' f m.entries

/-- Iteration meets exactly the entries that lookup finds. -/
theorem mem_entries_iff {m : OrdMap K V} {k : K} {v : V} :
    (k, v) ∈ m.entries ↔ m.find? k = some v :=
  mem_iff_lookupIn m.sorted

theorem mem_keys_iff {m : OrdMap K V} {k : K} : k ∈ m.keys ↔ (m.find? k).isSome := by
  rw [keys, List.mem_map, Option.isSome_iff_exists]
  constructor
  · rintro ⟨⟨k, v⟩, hmem, rfl⟩
    exact ⟨v, mem_entries_iff.1 hmem⟩
  · rintro ⟨v, hv⟩
    exact ⟨(k, v), mem_entries_iff.2 hv, rfl⟩

theorem nodup_keys (m : OrdMap K V) : m.keys.Nodup :=
  (List.pairwise_map.2 m.sorted).imp fun h ↦ h.ne

@[ext] theorem ext {m m' : OrdMap K V} (h : m.entries = m'.entries) : m = m' := by
  cases m
  cases m'
  simpa using h

theorem traverse_eq_some {W : Type*} {f : V → Option W} {g : V → W} {m : OrdMap K V}
    (h : ∀ e ∈ m.entries, f e.2 = some (g e.2)) : m.traverse f = some (m.mapValues g) := by
  have hmap : (m.entries.mapM fun e ↦ (f e.2).map (e.1, ·)) =
      some (m.entries.map fun e ↦ (e.1, g e.2)) :=
    Loop.mapM_eq_some fun e he ↦ by rw [h e he, Option.map_some]
  rw [traverse]
  split
  · next hnone => exact absurd (hnone.symm.trans hmap) (by simp)
  · next l hl =>
    rw [Option.some.injEq]
    exact ext (Option.some.inj (hl.symm.trans hmap))

theorem traverse_eq_none {W : Type*} {f : V → Option W} {m : OrdMap K V} {e : K × V}
    (he : e ∈ m.entries) (h : f e.2 = none) : m.traverse f = none := by
  have hmap : (m.entries.mapM fun e ↦ (f e.2).map (e.1, ·)) = none :=
    Loop.mapM_eq_none he (by rw [h, Option.map_none])
  rw [traverse]
  split
  · rfl
  · next l hl => exact absurd (hl.symm.trans hmap) (by simp)

/-! ### Maps with the same lookups -/

/-- A map is known by what is found in it. -/
theorem ext_find? {m m' : OrdMap K V} (h : ∀ k, m.find? k = m'.find? k) : m = m' := by
  have hnodup : ∀ m : OrdMap K V, m.entries.Nodup := fun m ↦ m.sorted.imp fun hlt heq ↦
    absurd (congrArg Prod.fst heq) hlt.ne
  have hperm : m.entries.Perm m'.entries :=
    (List.perm_ext_iff_of_nodup (hnodup m) (hnodup m')).2 fun e ↦ by
      rw [show e = (e.1, e.2) from rfl, mem_entries_iff, mem_entries_iff, h]
  refine ext (hperm.eq_of_pairwise (fun a b _ _ hab hba ↦ ?_) m.sorted m'.sorted)
  exact absurd (lt_trans hab hba) (lt_irrefl _)

/-- Changing all values goes well with looking up, and with inserting. -/
theorem find?_mapValues {W : Type*} (f : V → W) (m : OrdMap K V) (k : K) :
    (m.mapValues f).find? k = (m.find? k).map f := by
  obtain ⟨l, hl⟩ := m
  change lookupIn k (l.map fun e ↦ (e.1, f e.2)) = (lookupIn k l).map f
  induction l with
  | nil => rfl
  | cons e l ih =>
    rw [List.map_cons, lookupIn, lookupIn]
    split_ifs
    · rfl
    · exact ih (List.pairwise_cons.1 hl).2

theorem mapValues_insert {W : Type*} (f : V → W) (m : OrdMap K V) (k : K) (v : V) :
    (m.insert k v).mapValues f = (m.mapValues f).insert k (f v) :=
  ext_find? fun k' ↦ by
    rw [find?_mapValues, find?_insert, find?_insert, find?_mapValues, find?_mapValues]
    split_ifs
    · cases m.find? k <;> rfl
    · rfl

/-- Insert one entry after another. -/
def insertMany (m : OrdMap K V) (l : List (K × V)) : OrdMap K V :=
  l.foldl (fun m e ↦ m.insert e.1 e.2) m

theorem insertMany_append (m : OrdMap K V) (l l' : List (K × V)) :
    m.insertMany (l ++ l') = (m.insertMany l).insertMany l' :=
  List.foldl_append

/-- **The first entry with a key counts**, and an older one before it. -/
theorem find?_insertMany (m : OrdMap K V) (l : List (K × V)) (k : K) :
    (m.insertMany l).find? k = (m.find? k).or (lookupIn k l) := by
  induction l generalizing m with
  | nil => exact Option.or_none.symm
  | cons e l ih =>
    have hstep : m.insertMany (e :: l) = (m.insert e.1 e.2).insertMany l := rfl
    rw [hstep, ih, find?_insert, lookupIn]
    split_ifs with hk
    · rw [hk, Option.or_assoc, Option.some_or]
    · rfl

theorem lookupIn_flatMap {A : Type*} (f : A → List (K × V)) (l : List A) (k : K) :
    lookupIn k (l.flatMap f) = l.findSome? fun a ↦ lookupIn k (f a) := by
  have happend : ∀ l l' : List (K × V),
      lookupIn k (l ++ l') = (lookupIn k l).or (lookupIn k l') := by
    intro l l'
    induction l with
    | nil => rfl
    | cons e l ih =>
      rw [List.cons_append, lookupIn, lookupIn]
      split_ifs
      · rfl
      · exact ih
  induction l with
  | nil => rfl
  | cons a l ih =>
    rw [List.flatMap_cons, happend, ih, List.findSome?_cons]
    cases lookupIn k (f a) <;> rfl

/-- Where all answers agree, their order does not matter. -/
theorem findSome?_eq_of_perm {A B : Type*} {f : A → Option B} {l l' : List A} (hperm : l.Perm l')
    (hagree : ∀ a ∈ l, ∀ b ∈ l, ∀ x y, f a = some x → f b = some y → x = y) :
    l.findSome? f = l'.findSome? f := by
  cases hl : l.findSome? f with
  | none =>
    rw [List.findSome?_eq_none_iff] at hl
    exact (List.findSome?_eq_none_iff.2 fun a ha ↦ hl a (hperm.mem_iff.2 ha)).symm
  | some x =>
    obtain ⟨a, ha, hx⟩ := List.exists_of_findSome?_eq_some hl
    cases hl' : l'.findSome? f with
    | none =>
      rw [List.findSome?_eq_none_iff.1 hl' a (hperm.mem_iff.1 ha)] at hx
      exact absurd hx (by simp)
    | some y =>
      obtain ⟨b, hb, hy⟩ := List.exists_of_findSome?_eq_some hl'
      rw [hagree a ha b (hperm.mem_iff.2 hb) x y hx hy]

/-- A loop that inserts an entry for each of its items, and fails where an item has none. -/
theorem find?_foldlM_insert {A : Type*} {entry : A → Option (K × V)} {l : List A}
    {m m' : OrdMap K V}
    (h : l.foldlM (fun m a ↦ (entry a).map fun e ↦ m.insert e.1 e.2) m = some m') (k : K) :
    m'.find? k = (m.find? k).or (l.findSome? fun a ↦ lookupIn k (entry a).toList) := by
  induction l generalizing m with
  | nil =>
    obtain rfl := Option.some.inj h
    simp
  | cons a l ih =>
    rw [List.foldlM_cons, Option.bind_eq_bind] at h
    obtain ⟨m₁, hm₁, h⟩ := Option.bind_eq_some_iff.1 h
    obtain ⟨e, he, rfl⟩ := Option.map_eq_some_iff.1 hm₁
    rw [ih h, find?_insert, List.findSome?_cons, he, Option.toList_some, lookupIn]
    split_ifs with hk
    · rw [hk, Option.or_assoc, Option.some_or]
    · rfl

/-- Looking up in a list from which entries were left out, and the others changed. -/
theorem lookupIn_filterMap {W : Type*} (f : V → Option W) {l : List (K × V)}
    (h : l.Pairwise fun a b ↦ a.1 < b.1) (k : K) :
    lookupIn k (l.filterMap fun e ↦ (f e.2).map (e.1, ·)) = (lookupIn k l).bind f := by
  induction l with
  | nil => rfl
  | cons e l ih =>
    obtain ⟨hlt, htail⟩ := List.pairwise_cons.1 h
    rw [List.filterMap_cons, lookupIn]
    cases hf : f e.2 with
    | none =>
      rw [Option.map_none]
      refine (ih htail).trans ?_
      split_ifs with hk
      · rw [hk, lookupIn_eq_none_of_forall_lt hlt, Option.bind_none, Option.bind_some, hf]
      · rfl
    | some w =>
      rw [Option.map_some]
      refine (show lookupIn k ((e.1, w) :: _) = _ from ?_)
      rw [lookupIn, ih htail]
      split_ifs
      · rw [Option.bind_some, hf]
      · rfl

/-- A list falls apart into the parts with the same key. -/
theorem perm_flatMap_filter {ks : List K} (hnodup : ks.Nodup) {l : List (K × V)}
    (h : ∀ e ∈ l, e.1 ∈ ks) : (ks.flatMap fun k ↦ l.filter fun e ↦ e.1 = k).Perm l := by
  induction ks generalizing l with
  | nil =>
    rw [List.eq_nil_iff_forall_not_mem.2 fun e he ↦ List.not_mem_nil (h e he)]
    exact List.Perm.nil
  | cons k ks ih =>
    obtain ⟨hk, hks⟩ := List.nodup_cons.1 hnodup
    have hrest := ih hks (l := l.filter fun e ↦ ¬ e.1 = k) fun e he ↦ by
      obtain ⟨he, hne⟩ := List.mem_filter.1 he
      exact (List.mem_cons.1 (h e he)).resolve_left (by simpa using hne)
    have hsame : (ks.flatMap fun k' ↦ (l.filter fun e ↦ ¬ e.1 = k).filter fun e ↦ e.1 = k') =
        ks.flatMap fun k' ↦ l.filter fun e ↦ e.1 = k' := by
      refine List.flatMap_congr fun k' hk' ↦ ?_
      rw [List.filter_filter]
      refine List.filter_congr fun e _ ↦ ?_
      rcases eq_or_ne e.1 k' with heq | hne
      · simp [heq, ne_of_mem_of_not_mem hk' hk]
      · simp [hne]
    rw [hsame] at hrest
    rw [List.flatMap_cons]
    refine (hrest.append_left _).trans ?_
    have hsplit := List.filter_append_perm (fun e : K × V ↦ decide (e.1 = k)) l
    simpa only [decide_not] using hsplit

/-- **A map in which the values are collected key by key** has them all. -/
theorem perm_flatMap_entries {m : OrdMap K (List V)} {l : List (K × V)}
    (h : ∀ k, ((m.find? k).isSome ↔ ∃ e ∈ l, e.1 = k) ∧
      (m.find? k).getD [] = (l.filter fun e ↦ e.1 = k).map Prod.snd) :
    (m.entries.flatMap fun e ↦ e.2.map (e.1, ·)).Perm l := by
  have hparts : (m.entries.flatMap fun e ↦ e.2.map (e.1, ·)) =
      m.keys.flatMap fun k ↦ l.filter fun e ↦ e.1 = k := by
    rw [keys, List.flatMap_map]
    refine List.flatMap_congr fun e he ↦ ?_
    have hvalue := (h e.1).2
    rw [mem_entries_iff.1 he, Option.getD_some] at hvalue
    rw [hvalue, List.map_map]
    refine (List.map_congr_left fun d hd ↦ ?_).trans (List.map_id _)
    have hkey : d.1 = e.1 := by simpa using (List.mem_filter.1 hd).2
    exact Prod.ext hkey.symm rfl
  rw [hparts]
  exact perm_flatMap_filter m.nodup_keys fun e he ↦ mem_keys_iff.2 ((h e.1).1.2 ⟨e, he, rfl⟩)

end OrdMap
