import Mathlib.Algebra.BigOperators.Group.Finset.Basic
import Mathlib.Algebra.BigOperators.Group.Finset.Piecewise
import Mathlib.Data.List.Basic

/-!
# Restricting a hypergraph to some of its vertices

A hypergraph is a list of edges, each with a weight and its pins. `restrict p` keeps the edges that
have a pin in `p`, and of these the pins in `p`. An edge that is whole in `p` keeps its weight, and
one that loses a pin is worth nothing any more.

* `restrict_restrict`: restricting step by step is restricting once.
* `weight_restrict`: what is left is worth as much as the edges that are whole in `p`.
* `restrict_rename`: restricting does not depend on the names of the vertices.
* `sum_weight_whole`: disjoint parts are worth together as much as the edges that are whole in one.
-/

namespace Restriction

variable {V W M : Type*} [AddCommMonoid M]

/-- The edges that meet `p`, without the pins outside. -/
def restrict (p : V → Bool) (es : List (M × List V)) : List (M × List V) :=
  (es.filter (·.2.any p)).map fun e ↦ (if e.2.all p then e.1 else 0, e.2.filter p)

/-- Other names for the vertices. -/
def rename (f : V → W) (es : List (M × List V)) : List (M × List W) :=
  es.map fun e ↦ (e.1, e.2.map f)

/-- The weight of all edges. -/
def weight (es : List (M × List V)) : M := (es.map Prod.fst).sum

theorem restrict_cons_of_pos {p : V → Bool} {e : M × List V} (h : e.2.any p = true)
    (es : List (M × List V)) : restrict p (e :: es) =
      (if e.2.all p then e.1 else 0, e.2.filter p) :: restrict p es := by
  simp only [restrict, List.filter_cons, h, if_true, List.map_cons]

theorem restrict_cons_of_neg {p : V → Bool} {e : M × List V} (h : ¬ e.2.any p = true)
    (es : List (M × List V)) : restrict p (e :: es) = restrict p es := by
  simp only [restrict, List.filter_cons, if_neg h]

theorem any_congr {p q : V → Bool} {l : List V} (h : ∀ v ∈ l, p v = q v) : l.any p = l.any q := by
  rw [Bool.eq_iff_iff, List.any_eq_true, List.any_eq_true]
  exact exists_congr fun v ↦ and_congr_right fun hv ↦ by rw [h v hv]

theorem all_congr {p q : V → Bool} {l : List V} (h : ∀ v ∈ l, p v = q v) : l.all p = l.all q := by
  rw [Bool.eq_iff_iff, List.all_eq_true, List.all_eq_true]
  exact forall₂_congr fun v hv ↦ by rw [h v hv]

omit [AddCommMonoid M] in
theorem rename_congr {f g : V → W} {es : List (M × List V)} (h : ∀ e ∈ es, ∀ v ∈ e.2, f v = g v) :
    rename f es = rename g es :=
  List.map_congr_left fun e he ↦ by rw [List.map_congr_left (h e he)]

omit [AddCommMonoid M] in
theorem rename_rename {U : Type*} (f : U → V) (g : V → W) (es : List (M × List U)) :
    rename g (rename f es) = rename (fun u ↦ g (f u)) es := by
  simp [rename, List.map_map, Function.comp_def]

theorem weight_rename (f : V → W) (es : List (M × List V)) : weight (rename f es) = weight es := by
  simp [weight, rename, List.map_map, Function.comp_def]

/-- Only the pins of the edges matter. -/
theorem restrict_congr {p q : V → Bool} {es : List (M × List V)}
    (h : ∀ e ∈ es, ∀ v ∈ e.2, p v = q v) : restrict p es = restrict q es := by
  have hany : ∀ e ∈ es, e.2.any p = e.2.any q := fun e he ↦ any_congr (h e he)
  rw [restrict, restrict, List.filter_congr hany]
  refine List.map_congr_left fun e he ↦ ?_
  have hpins := h e (List.mem_of_mem_filter he)
  rw [all_congr hpins, List.filter_congr hpins]

/-- Nothing is lost if all pins stay. -/
theorem restrict_eq_self {p : V → Bool} {es : List (M × List V)} (hne : ∀ e ∈ es, e.2 ≠ [])
    (h : ∀ e ∈ es, ∀ v ∈ e.2, p v = true) : restrict p es = es := by
  have hany : ∀ e ∈ es, e.2.any p = true := fun e he ↦ by
    obtain ⟨v, hv⟩ := List.exists_mem_of_ne_nil _ (hne e he)
    exact List.any_eq_true.2 ⟨v, hv, h e he v hv⟩
  rw [restrict, List.filter_eq_self.2 hany]
  refine (List.map_congr_left fun e he ↦ ?_).trans (List.map_id es)
  rw [if_pos (List.all_eq_true.2 (h e he)), List.filter_eq_self.2 (h e he)]
  rfl

/-- **Restricting twice** is restricting once. -/
theorem restrict_restrict {p q : V → Bool} (hqp : ∀ v, q v = true → p v = true)
    (es : List (M × List V)) : restrict q (restrict p es) = restrict q es := by
  have hfilter : ∀ l : List V, (l.filter p).filter q = l.filter q := fun l ↦ by
    rw [List.filter_filter]
    exact List.filter_congr fun v _ ↦ by
      cases hq : q v with
      | false => rfl
      | true => rw [hqp v hq]; rfl
  have hany : ∀ l : List V, (l.filter p).any q = l.any q := fun l ↦ by
    rw [Bool.eq_iff_iff, List.any_eq_true, List.any_eq_true]
    constructor
    · rintro ⟨v, hv, hq⟩
      exact ⟨v, List.mem_of_mem_filter hv, hq⟩
    · rintro ⟨v, hv, hq⟩
      exact ⟨v, List.mem_filter.2 ⟨hv, hqp v hq⟩, hq⟩
  induction es with
  | nil => rfl
  | cons e es ih =>
    by_cases hp : e.2.any p = true
    · rw [restrict_cons_of_pos hp]
      by_cases hq : e.2.any q = true
      · rw [restrict_cons_of_pos hq, restrict_cons_of_pos (by rwa [hany]), ih, hfilter]
        congr 2
        -- an edge that is whole in `q` was whole in `p`
        by_cases hall : e.2.all q = true
        · have hallp : e.2.all p = true :=
            List.all_eq_true.2 fun v hv ↦ hqp v (List.all_eq_true.1 hall v hv)
          rw [if_pos hall, if_pos hallp, List.filter_eq_self.2 (List.all_eq_true.1 hallp),
            if_pos hall]
        · rw [if_neg hall]
          by_cases hallp : e.2.all p = true
          · rw [List.filter_eq_self.2 (List.all_eq_true.1 hallp), if_neg hall]
          · rw [if_neg hallp, ite_self]
      · rw [restrict_cons_of_neg hq, restrict_cons_of_neg (by rwa [hany]), ih]
    · have hq : ¬ e.2.any q = true := fun hq ↦ by
        obtain ⟨v, hv, hqv⟩ := List.any_eq_true.1 hq
        exact hp (List.any_eq_true.2 ⟨v, hv, hqp v hqv⟩)
      rw [restrict_cons_of_neg hp, restrict_cons_of_neg hq, ih]

/-- Restricting does not depend on the names. -/
theorem restrict_rename (f : V → W) (q : W → Bool) (es : List (M × List V)) :
    restrict q (rename f es) = rename f (restrict (fun v ↦ q (f v)) es) := by
  induction es with
  | nil => rfl
  | cons e es ih =>
    have hany : (e.2.map f).any q = e.2.any fun v ↦ q (f v) := List.any_map
    have hall : (e.2.map f).all q = e.2.all fun v ↦ q (f v) := List.all_map
    show restrict q ((e.1, e.2.map f) :: rename f es) = _
    by_cases h : e.2.any (fun v ↦ q (f v)) = true
    · rw [restrict_cons_of_pos h, restrict_cons_of_pos (by rwa [hany]), ih, hall, List.filter_map]
      rfl
    · rw [restrict_cons_of_neg h, restrict_cons_of_neg (by rwa [hany]), ih]

/-- **What is left** is worth as much as the edges that are whole. -/
theorem weight_restrict {p : V → Bool} {es : List (M × List V)} (hne : ∀ e ∈ es, e.2 ≠ []) :
    weight (restrict p es) = weight (es.filter (·.2.all p)) := by
  induction es with
  | nil => rfl
  | cons e es ih =>
    have hrest := ih fun e he ↦ hne e (List.mem_cons_of_mem _ he)
    rw [weight] at hrest ⊢
    by_cases hall : e.2.all p = true
    · obtain ⟨v, hv⟩ := List.exists_mem_of_ne_nil _ (hne e List.mem_cons_self)
      have hany : e.2.any p = true := List.any_eq_true.2 ⟨v, hv, List.all_eq_true.1 hall v hv⟩
      rw [restrict_cons_of_pos hany, List.filter_cons, if_pos hall, if_pos hall, List.map_cons,
        List.sum_cons, hrest]
      rfl
    · rw [List.filter_cons, if_neg hall]
      by_cases hany : e.2.any p = true
      · rw [restrict_cons_of_pos hany, List.map_cons, List.sum_cons, hrest, if_neg hall, zero_add]
      · rw [restrict_cons_of_neg hany, hrest]

/-! ### Several parts -/

theorem weight_cons (e : M × List V) (es : List (M × List V)) :
    weight (e :: es) = e.1 + weight es := by
  rw [weight, List.map_cons, List.sum_cons]
  rfl

/-- Every edge counts on one of the two sides. -/
theorem weight_filter_add (P : M × List V → Bool) (es : List (M × List V)) :
    weight (es.filter P) + weight (es.filter fun e ↦ !P e) = weight es := by
  induction es with
  | nil => exact add_zero _
  | cons e es ih =>
    rw [weight_cons, ← ih]
    cases hP : P e with
    | true => simp [hP, weight_cons, add_assoc]
    | false => simp [hP, weight_cons, add_left_comm]

/-- **Disjoint parts**: what they are worth together are the edges that are whole in one of them. -/
theorem sum_weight_whole {I : Type*} [DecidableEq I] (D : Finset I) (p : I → V → Bool)
    (hdisj : ∀ v, ∀ d ∈ D, ∀ d' ∈ D, p d v = true → p d' v = true → d = d')
    {es : List (M × List V)} (hne : ∀ e ∈ es, e.2 ≠ []) :
    ∑ d ∈ D, weight (es.filter (·.2.all (p d))) =
      weight (es.filter fun e ↦ decide (∃ d ∈ D, e.2.all (p d) = true)) := by
  induction es with
  | nil => exact Finset.sum_const_zero
  | cons e es ih =>
    have hrest := ih fun e he ↦ hne e (List.mem_cons_of_mem _ he)
    by_cases hwhole : ∃ d ∈ D, e.2.all (p d) = true
    · obtain ⟨d, hd, hall⟩ := hwhole
      have hterm : ∀ d' ∈ D, weight ((e :: es).filter (·.2.all (p d'))) =
          (if d' = d then e.1 else 0) + weight (es.filter (·.2.all (p d'))) := fun d' hd' ↦ by
        rcases eq_or_ne d' d with rfl | hdd
        · rw [List.filter_cons, if_pos hall, if_pos rfl, weight_cons]
        · -- a pin of an edge is in one part only
          have hnot : ¬ e.2.all (p d') = true := fun hall' ↦ by
            obtain ⟨v, hv⟩ := List.exists_mem_of_ne_nil _ (hne e List.mem_cons_self)
            exact hdd (hdisj v d' hd' d hd (List.all_eq_true.1 hall' v hv)
              (List.all_eq_true.1 hall v hv))
          rw [List.filter_cons, if_neg hnot, if_neg hdd, zero_add]
      have hsome : decide (∃ d ∈ D, e.2.all (p d) = true) = true :=
        decide_eq_true ⟨d, hd, hall⟩
      rw [Finset.sum_congr rfl hterm, Finset.sum_add_distrib, hrest, Finset.sum_ite_eq' D d,
        if_pos hd, List.filter_cons, if_pos hsome, weight_cons]
    · have hterm : ∀ d ∈ D, weight ((e :: es).filter (·.2.all (p d))) =
          weight (es.filter (·.2.all (p d))) := fun d hd ↦ by
        rw [List.filter_cons, if_neg fun hall ↦ hwhole ⟨d, hd, hall⟩]
      have hnone : ¬ decide (∃ d ∈ D, e.2.all (p d) = true) = true := fun h ↦
        hwhole (of_decide_eq_true h)
      rw [Finset.sum_congr rfl hterm, hrest, List.filter_cons, if_neg hnone]

end Restriction
