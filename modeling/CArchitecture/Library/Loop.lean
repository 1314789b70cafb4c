import Mathlib.Data.List.Basic
import Mathlib.Order.Bounds.Basic
import Mathlib.Order.MinMax

/-!
# Loops with fuel, and the two invariant rules

A `while` loop whose exit is not visible in its syntax is run with fuel: `run step n s` takes up to
`n` rounds, and `none` means that the rounds ran out — never that the loop stopped. So a statement
`run step n s = some b` is a termination statement.

* `exists_run_eq_some` is the rule for such loops: an invariant, a measure that every continuing
  round decreases, and a postcondition that every exiting round establishes.
* `run_invariant` is the same without the measure, for a loop that is known to have ended.
* A round that may fail exits with `none`, and the two results are joined; such loops have the same
  two rules, `exists_join_run_eq_some` and `join_run_invariant`.
* `Reached` are the states that a loop passes through, and `Reached.invariant` is the rule for what
  holds in all of them. Of two of them one is reached from the other (`Reached.comparable`), and
  where something increases they are told apart by it (`Reached.eq_or_lt`).
* What a loop writes down on the way is in order exactly if every round reached writes nothing else
  (`run_iff_forall_reached`).
* `run_map` carries a run over to a loop that does the same on other states.
* `foldl_invariant` is the rule for counted loops, which are plain `List.foldl`s: the invariant
  mentions the part of the list that has been traversed. `foldlM_invariant` is for those that may
  fail, `isSome_foldlM_iff` says when they do not, and `foldlM_append` what they have written.
  `isGreatest_foldl_max` is what a loop that keeps a maximum finds.
* A run that has ended does not depend on the fuel (`run_mono`), nor on the fuel of the loops inside
  its rounds (`join_run_mono`, `foldlM_mono`).
-/

namespace Loop

variable {S B : Type*}

/-- Run a loop for at most `n` rounds. A round either goes on, with a new state, or exits with a
result. -/
def run (step : S → S ⊕ B) : ℕ → S → Option B
  | 0, _ => none
  | n + 1, s =>
    match step s with
    | Sum.inl s' => run step n s'
    | Sum.inr b => some b

theorem run_succ_of_inl {step : S → S ⊕ B} {s s' : S} (h : step s = Sum.inl s') (n : ℕ) :
    run step (n + 1) s = run step n s' := by
  rw [run, h]

theorem run_succ_of_inr {step : S → S ⊕ B} {s : S} {b : B} (h : step s = Sum.inr b) (n : ℕ) :
    run step (n + 1) s = some b := by
  rw [run, h]

/-- More fuel does not change a result. -/
theorem run_mono {step : S → S ⊕ B} {n m : ℕ} {s : S} {b : B} (hnm : n ≤ m)
    (h : run step n s = some b) : run step m s = some b := by
  induction n generalizing m s with
  | zero => exact absurd h (by simp [run])
  | succ n ih =>
    obtain ⟨m, rfl⟩ : ∃ m', m = m' + 1 := ⟨m - 1, by omega⟩
    rcases hs : step s with s' | b'
    · rw [run_succ_of_inl hs] at h ⊢
      exact ih (by omega) h
    · rw [run_succ_of_inr hs] at h ⊢
      exact h

/-- A loop that is not entered. -/
theorem run_eq_of_inr {step : S → S ⊕ B} {s : S} {b : B} (h : step s = Sum.inr b) {n : ℕ}
    (hn : 1 ≤ n) : run step n s = some b :=
  run_mono hn (run_succ_of_inr h 0)

/-- A loop that is left after one round. -/
theorem run_eq_of_pass {step : S → S ⊕ B} {s t : S} {b : B} (h : step s = Sum.inl t)
    (ht : step t = Sum.inr b) {n : ℕ} (hn : 2 ≤ n) : run step n s = some b :=
  run_mono hn ((run_succ_of_inl h 1).trans (run_succ_of_inr ht 0))

/-- The states at the head of the loop that is started in `s`. -/
inductive Reached (step : S → S ⊕ B) (s : S) : S → Prop
  | start : Reached step s s
  | next {t t' : S} : Reached step s t → step t = Sum.inl t' → Reached step s t'

/-- **The rule for all states of a loop.** -/
theorem Reached.invariant {step : S → S ⊕ B} {s t : S} (h : Reached step s t) (I : S → Prop)
    (hs : I s) (hnext : ∀ t t', I t → step t = Sum.inl t' → I t') : I t := by
  induction h with
  | start => exact hs
  | next _ hstep ih => exact hnext _ _ ih hstep

/-- From a state, the state itself is reached and whatever is reached from the next one. -/
theorem reached_iff_of_inl {step : S → S ⊕ B} {s s' t : S} (hs : step s = Sum.inl s') :
    Reached step s t ↔ t = s ∨ Reached step s' t := by
  constructor
  · intro ht
    induction ht with
    | start => exact Or.inl rfl
    | next _ hstep ih =>
      rcases ih with rfl | hreached
      · obtain rfl := Sum.inl.inj (hs.symm.trans hstep)
        exact Or.inr .start
      · exact Or.inr (.next hreached hstep)
  · rintro (rfl | ht)
    · exact .start
    · induction ht with
      | start => exact .next .start hs
      | next _ hstep ih => exact .next ih hstep

/-- Of two states at the head of a loop, one is reached from the other. -/
theorem Reached.comparable {step : S → S ⊕ B} {s t t' : S} (h : Reached step s t)
    (h' : Reached step s t') : Reached step t t' ∨ Reached step t' t := by
  induction h with
  | start => exact Or.inl h'
  | next _ hstep ih =>
    rcases ih with ih | ih
    · rcases (reached_iff_of_inl hstep).1 ih with rfl | ih
      · exact Or.inr (.next .start hstep)
      · exact Or.inl ih
    · exact Or.inr (.next ih hstep)

/-- What every continuing round increases tells a state from those that are reached from it. -/
theorem Reached.eq_or_lt {step : S → S ⊕ B} {s t : S} (h : Reached step s t) (I : S → Prop)
    (μ : S → ℕ) (hs : I s) (hnext : ∀ t t', I t → step t = Sum.inl t' → I t' ∧ μ t < μ t') :
    t = s ∨ μ s < μ t := by
  suffices hall : I t ∧ (t = s ∨ μ s < μ t) from hall.2
  refine h.invariant (fun t ↦ I t ∧ (t = s ∨ μ s < μ t)) ⟨hs, Or.inl rfl⟩ ?_
  rintro t t' ⟨hI, hle⟩ hstep
  obtain ⟨hI', hlt⟩ := hnext t t' hI hstep
  refine ⟨hI', Or.inr ?_⟩
  rcases hle with rfl | hle
  · exact hlt
  · exact hle.trans hlt

theorem reached_iff_of_inr {step : S → S ⊕ B} {s t : S} {b : B} (hs : step s = Sum.inr b) :
    Reached step s t ↔ t = s := by
  refine ⟨fun ht ↦ ?_, fun ht ↦ ht ▸ .start⟩
  induction ht with
  | start => rfl
  | next _ hstep ih => exact absurd (hs.symm.trans (ih ▸ hstep)) Sum.inr_ne_inl

/-- **Simulation.** A loop that follows another one round by round ends when that one does. -/
theorem run_map {S' B' : Type*} {step : S → S ⊕ B} {step' : S' → S' ⊕ B'} {f : S → S'} {g : B → B'}
    (h : ∀ s, step' (f s) = (step s).map f g) (n : ℕ) (s : S) :
    run step' n (f s) = (run step n s).map g := by
  induction n generalizing s with
  | zero => rfl
  | succ n ih =>
    rcases hs : step s with s' | b
    · have hs' : step' (f s) = Sum.inl (f s') := by
        rw [h, hs]
        rfl
      rw [run_succ_of_inl hs, run_succ_of_inl hs', ih]
    · have hs' : step' (f s) = Sum.inr (g b) := by
        rw [h, hs]
        rfl
      rw [run_succ_of_inr hs, run_succ_of_inr hs', Option.map_some]

/-- The states that the loop reaches are those of the one that it follows. -/
theorem reached_map_iff {S' B' : Type*} {step : S → S ⊕ B} {step' : S' → S' ⊕ B'} {f : S → S'}
    {g : B → B'} (h : ∀ s, step' (f s) = (step s).map f g) {s : S} {u : S'} :
    Reached step' (f s) u ↔ ∃ t, Reached step s t ∧ f t = u := by
  constructor
  · intro hu
    induction hu with
    | start => exact ⟨s, .start, rfl⟩
    | next _ hstep ih =>
      obtain ⟨t, ht, rfl⟩ := ih
      rw [h] at hstep
      rcases hs : step t with t' | b
      · rw [hs] at hstep
        exact ⟨t', .next ht hs, Sum.inl.inj hstep⟩
      · rw [hs] at hstep
        exact absurd hstep Sum.inr_ne_inl
  · rintro ⟨t, ht, rfl⟩
    induction ht with
    | start => exact .start
    | next _ hstep ih => exact .next ih (by rw [h, hstep]; rfl)

/-- **A loop that asks an oracle**, whose questions are counted by `μ`, reaches a state with any
other oracle too that gives the same answers up to there. -/
theorem Reached.of_agree {A : Type*} {step : (ℕ → A) → S → S ⊕ B} (μ : S → ℕ)
    (hstep : ∀ (o o' : ℕ → A) (s s' : S), step o s = Sum.inl s' →
      μ s ≤ μ s' ∧ ((∀ k < μ s', o k = o' k) → step o' s = Sum.inl s')) {o o' : ℕ → A} {s t : S}
    (h : Reached (step o) s t) (hagree : ∀ k < μ t, o k = o' k) : Reached (step o') s t := by
  induction h with
  | start => exact .start
  | next _ ht ih =>
    obtain ⟨hle, hsame⟩ := hstep o o' _ _ ht
    exact .next (ih fun k hk ↦ hagree k (hk.trans_le hle)) (hsame hagree)

/-- **The rule for `while` loops.** A measure that every continuing round decreases bounds the
rounds, and the postcondition is what an exiting round makes of the invariant. -/
theorem exists_run_eq_some {step : S → S ⊕ B} (I : S → Prop) (μ : S → ℕ) (Q : B → Prop)
    (hnext : ∀ s s', I s → step s = Sum.inl s' → I s' ∧ μ s' < μ s)
    (hexit : ∀ s b, I s → step s = Sum.inr b → Q b) {s : S} (hs : I s) {n : ℕ} (hn : μ s < n) :
    ∃ b, run step n s = some b ∧ Q b := by
  induction n generalizing s with
  | zero => exact absurd hn (Nat.not_lt_zero _)
  | succ n ih =>
    rcases hstep : step s with s' | b
    · obtain ⟨hI, hμ⟩ := hnext s s' hs hstep
      obtain ⟨b, hb, hQ⟩ := ih hI (by omega)
      exact ⟨b, by rw [run_succ_of_inl hstep, hb], hQ⟩
    · exact ⟨b, run_succ_of_inr hstep n, hexit s b hs hstep⟩

/-- **The rule for `while` loops that are known to have ended.** -/
theorem run_invariant {step : S → S ⊕ B} (I : S → Prop) (Q : B → Prop)
    (hnext : ∀ s s', I s → step s = Sum.inl s' → I s')
    (hexit : ∀ s b, I s → step s = Sum.inr b → Q b) {n : ℕ} {s : S} {b : B} (hs : I s)
    (h : run step n s = some b) : Q b := by
  induction n generalizing s with
  | zero => exact absurd h (by simp [run])
  | succ n ih =>
    rcases hstep : step s with s' | b'
    · rw [run_succ_of_inl hstep] at h
      exact ih (hnext s s' hs hstep) h
    · rw [run_succ_of_inr hstep] at h
      exact Option.some.inj h ▸ hexit s b' hs hstep

/-- A loop that has ended did so in a state that it has reached. -/
theorem exists_reached_of_run {step : S → S ⊕ B} {n : ℕ} {s : S} {b : B}
    (h : run step n s = some b) : ∃ t, Reached step s t ∧ step t = Sum.inr b :=
  run_invariant (Reached step s) (fun b ↦ ∃ t, Reached step s t ∧ step t = Sum.inr b)
    (fun _ _ ht hstep ↦ .next ht hstep) (fun t _ ht hstep ↦ ⟨t, ht, hstep⟩) .start h

/-- **The rule for what rounds may spoil**: it is in order at the end exactly if it was at the
beginning and no round that is reached has spoilt it. -/
theorem run_iff_forall_reached {step : S → S ⊕ B} (I OK good : S → Prop) (Q : B → Prop)
    (hnext : ∀ s s', I s → step s = Sum.inl s' → I s' ∧ (OK s' ↔ OK s ∧ good s))
    (hexit : ∀ s b, I s → step s = Sum.inr b → (Q b ↔ OK s ∧ good s)) {n : ℕ} {s : S} {b : B}
    (hs : I s) (h : run step n s = some b) :
    Q b ↔ OK s ∧ ∀ t, Reached step s t → good t := by
  induction n generalizing s with
  | zero => exact absurd h (by simp [run])
  | succ n ih =>
    rcases hstep : step s with s' | b'
    · rw [run_succ_of_inl hstep] at h
      obtain ⟨hI, hOK⟩ := hnext s s' hs hstep
      simp only [reached_iff_of_inl hstep, forall_eq_or_imp]
      rw [ih hI h, hOK, and_assoc]
    · rw [run_succ_of_inr hstep] at h
      obtain rfl := Option.some.inj h
      simp only [reached_iff_of_inr hstep, forall_eq]
      exact hexit s b' hs hstep

/-- **The rule for `while` loops whose rounds may fail**: none of them does. -/
theorem exists_join_run_eq_some {step : S → S ⊕ Option B} (I : S → Prop) (μ : S → ℕ) (Q : B → Prop)
    (hstep : ∀ s, I s → (∃ s', step s = Sum.inl s' ∧ I s' ∧ μ s' < μ s) ∨
      ∃ b, step s = Sum.inr (some b) ∧ Q b) {s : S} (hs : I s) {n : ℕ} (hn : μ s < n) :
    ∃ b, (run step n s).join = some b ∧ Q b := by
  have hnext : ∀ s s', I s → step s = Sum.inl s' → I s' ∧ μ s' < μ s := by
    intro s s' hs hs'
    rcases hstep s hs with ⟨t, ht, hI⟩ | ⟨b, hb, -⟩
    · obtain rfl := Sum.inl.inj (ht.symm.trans hs')
      exact hI
    · exact absurd (hb.symm.trans hs') Sum.inr_ne_inl
  have hexit : ∀ s res, I s → step s = Sum.inr res → ∃ b, res = some b ∧ Q b := by
    intro s res hs hres
    rcases hstep s hs with ⟨t, ht, -⟩ | ⟨b, hb, hQ⟩
    · exact absurd (ht.symm.trans hres) Sum.inl_ne_inr
    · exact ⟨b, Sum.inr.inj (hres.symm.trans hb), hQ⟩
  obtain ⟨res, hrun, b, rfl, hb⟩ := exists_run_eq_some I μ _ hnext hexit hs hn
  exact ⟨b, by rw [hrun]; rfl, hb⟩

/-- **The rule for `while` loops whose rounds may fail**, but that are known to have ended. -/
theorem join_run_invariant {step : S → S ⊕ Option B} (I : S → Prop) (Q : B → Prop)
    (hnext : ∀ s s', I s → step s = Sum.inl s' → I s')
    (hexit : ∀ s b, I s → step s = Sum.inr (some b) → Q b) {n : ℕ} {s : S} {b : B} (hs : I s)
    (h : (run step n s).join = some b) : Q b := by
  refine run_invariant I (fun res ↦ ∀ b, res = some b → Q b) hnext ?_ hs
    (Option.join_eq_some_iff.1 h) b rfl
  rintro s - hs hres b rfl
  exact hexit s b hs hres

/-- A loop that fails in fewer rounds, and has more of them, comes to the same result. -/
theorem join_run_mono {step step' : S → S ⊕ Option B}
    (hnext : ∀ s s', step s = Sum.inl s' → step' s = Sum.inl s')
    (hexit : ∀ s b, step s = Sum.inr (some b) → step' s = Sum.inr (some b)) {n m : ℕ} (hnm : n ≤ m)
    {s : S} {b : B} (h : (run step n s).join = some b) : (run step' m s).join = some b := by
  induction n generalizing m s with
  | zero => exact absurd h (by simp [run])
  | succ n ih =>
    obtain ⟨m, rfl⟩ : ∃ m', m = m' + 1 := ⟨m - 1, by omega⟩
    rcases hs : step s with s' | res
    · rw [run_succ_of_inl hs] at h
      rw [run_succ_of_inl (hnext s s' hs)]
      exact ih (by omega) h
    · rw [run_succ_of_inr hs, Option.join_some] at h
      subst h
      rw [run_succ_of_inr (hexit s b hs)]
      rfl

/-- **The rule for counted loops**, with the traversed part of the list in the invariant. -/
theorem foldl_invariant {A : Type*} {f : S → A → S} (I : List A → S → Prop) {l : List A} {s : S}
    (hinit : I [] s)
    (hstep : ∀ done a rest t, l = done ++ a :: rest → I done t → I (done ++ [a]) (f t a)) :
    I l (l.foldl f s) := by
  have key : ∀ (rest done : List A) (t : S), l = done ++ rest → I done t →
      I l (rest.foldl f t) := by
    intro rest
    induction rest with
    | nil =>
      intro done t hl ht
      rw [List.append_nil] at hl
      exact hl ▸ ht
    | cons a rest ih =>
      intro done t hl ht
      exact ih (done ++ [a]) (f t a) (by rw [hl, List.append_assoc]; rfl)
        (hstep done a rest t hl ht)
  exact key l [] s rfl hinit

/-- **A loop that keeps a maximum** finds the greatest of the value before it and those it meets. -/
theorem isGreatest_foldl_max {A M : Type*} [LinearOrder M] (f : A → M) (l : List A) (m : M) :
    IsGreatest {w | w = m ∨ ∃ a ∈ l, w = f a} (l.foldl (fun w a ↦ max w (f a)) m) := by
  refine foldl_invariant (fun done w ↦ IsGreatest {w | w = m ∨ ∃ a ∈ done, w = f a} w) ?_ ?_
  · exact ⟨Or.inl rfl, by simp [upperBounds]⟩
  · rintro done a rest w - ⟨hmem, hle⟩
    refine ⟨?_, ?_⟩
    · rcases max_choice w (f a) with hmax | hmax
      · rw [hmax]
        exact hmem.imp_right fun ⟨b, hb, hw⟩ ↦ ⟨b, List.mem_append_left _ hb, hw⟩
      · rw [hmax]
        exact Or.inr ⟨a, by simp, rfl⟩
    · rintro x (rfl | ⟨b, hb, rfl⟩)
      · exact (hle (Or.inl rfl)).trans (le_max_left _ _)
      · rcases List.mem_append.1 hb with hb | hb
        · exact (hle (Or.inr ⟨b, hb, rfl⟩)).trans (le_max_left _ _)
        · rw [List.mem_singleton.1 hb]
          exact le_max_right _ _

/-- **The rule for counted loops that may fail**, and have not. -/
theorem foldlM_invariant {A : Type*} {f : S → A → Option S} (I : S → Prop) {l : List A}
    (hstep : ∀ s, ∀ a ∈ l, ∀ s', I s → f s a = some s' → I s') {s s' : S} (hs : I s)
    (h : l.foldlM f s = some s') : I s' := by
  induction l generalizing s with
  | nil => exact Option.some.inj h ▸ hs
  | cons a l ih =>
    rw [List.foldlM_cons, Option.bind_eq_bind] at h
    obtain ⟨t, ht, hrest⟩ := Option.bind_eq_some_iff.1 h
    exact ih (fun s b hb ↦ hstep s b (List.mem_cons_of_mem _ hb))
      (hstep s a List.mem_cons_self t hs ht) hrest

/-- A counted loop whose rounds fail less often comes to the same result. -/
theorem foldlM_mono {A : Type*} {f g : S → A → Option S} {l : List A}
    (hstep : ∀ s, ∀ a ∈ l, ∀ s', f s a = some s' → g s a = some s') {s s' : S}
    (h : l.foldlM f s = some s') : l.foldlM g s = some s' := by
  induction l generalizing s with
  | nil => exact h
  | cons a l ih =>
    rw [List.foldlM_cons, Option.bind_eq_bind] at h ⊢
    obtain ⟨t, ht, hrest⟩ := Option.bind_eq_some_iff.1 h
    rw [hstep s a List.mem_cons_self t ht, Option.bind_some]
    exact ih (fun s b hb ↦ hstep s b (List.mem_cons_of_mem _ hb)) hrest

/-- **The rule for counted loops that write a record**: what the rounds append, in order. -/
theorem foldlM_append {A C : Type*} {f : S → A → Option S} {l : List A} (record : S → List C)
    (add : A → List C)
    (hstep : ∀ s, ∀ a ∈ l, ∀ s', f s a = some s' → record s' = record s ++ add a) {s s' : S}
    (h : l.foldlM f s = some s') : record s' = record s ++ l.flatMap add := by
  induction l generalizing s with
  | nil =>
    obtain rfl := Option.some.inj h
    rw [List.flatMap_nil, List.append_nil]
  | cons a l ih =>
    rw [List.foldlM_cons, Option.bind_eq_bind] at h
    obtain ⟨t, ht, hrest⟩ := Option.bind_eq_some_iff.1 h
    rw [ih (fun s b hb ↦ hstep s b (List.mem_cons_of_mem _ hb)) hrest,
      hstep s a List.mem_cons_self t ht, List.flatMap_cons, List.append_assoc]

/-- **A counted loop returns** exactly if none of its rounds fails, when that does not depend on the
state except through the invariant. -/
theorem isSome_foldlM_iff_of_invariant {A : Type*} {f : S → A → Option S} {l : List A}
    {P : A → Prop} (I : S → Prop) (hstep : ∀ s, ∀ a ∈ l, ∀ s', I s → f s a = some s' → I s')
    (h : ∀ s, I s → ∀ a ∈ l, (f s a).isSome ↔ P a) {s : S} (hs : I s) :
    (l.foldlM f s).isSome ↔ ∀ a ∈ l, P a := by
  induction l generalizing s with
  | nil => simp
  | cons a l ih =>
    rw [List.foldlM_cons, Option.bind_eq_bind, List.forall_mem_cons,
      ← h s hs a List.mem_cons_self]
    cases hfs : f s a with
    | none => simp
    | some t =>
      rw [Option.bind_some, ih (fun s b hb ↦ hstep s b (List.mem_cons_of_mem _ hb))
        (fun s hs b hb ↦ h s hs b (List.mem_cons_of_mem _ hb))
        (hstep s a List.mem_cons_self t hs hfs)]
      simp

/-- The same, when it does not depend on the state at all. -/
theorem isSome_foldlM_iff {A : Type*} {f : S → A → Option S} {l : List A} {P : A → Prop}
    (h : ∀ s, ∀ a ∈ l, (f s a).isSome ↔ P a) (s : S) : (l.foldlM f s).isSome ↔ ∀ a ∈ l, P a :=
  isSome_foldlM_iff_of_invariant (fun _ ↦ True) (fun _ _ _ _ _ _ ↦ trivial) (fun s _ ↦ h s) trivial

/-- A loop that collects results and never fails. -/
theorem mapM_eq_some {A C : Type*} {f : A → Option C} {g : A → C} {l : List A}
    (h : ∀ a ∈ l, f a = some (g a)) : l.mapM f = some (l.map g) := by
  induction l with
  | nil => rfl
  | cons a l ih =>
    rw [List.mapM_cons, h a List.mem_cons_self, ih fun b hb ↦ h b (List.mem_cons_of_mem _ hb)]
    rfl

theorem mapM_eq_none {A C : Type*} {f : A → Option C} {l : List A} {a : A} (ha : a ∈ l)
    (h : f a = none) : l.mapM f = none := by
  induction l with
  | nil => exact absurd ha List.not_mem_nil
  | cons b l ih =>
    rw [List.mapM_cons]
    rcases List.mem_cons.1 ha with rfl | ha
    · rw [h]
      rfl
    · rw [ih ha]
      cases f b <;> rfl

/-- Doing more where it was done before does not change what was done. -/
theorem mapM_mono {A C : Type*} {f g : A → Option C} {l : List A} {cs : List C}
    (hfg : ∀ a ∈ l, ∀ c, f a = some c → g a = some c) (h : l.mapM f = some cs) :
    l.mapM g = some cs := by
  induction l generalizing cs with
  | nil => exact h
  | cons a l ih =>
    rw [List.mapM_cons] at h ⊢
    obtain ⟨c, hc, hrest⟩ := Option.bind_eq_some_iff.1 h
    obtain ⟨cs', hcs', hcons⟩ := Option.bind_eq_some_iff.1 hrest
    rw [hfg a List.mem_cons_self c hc, Option.bind_eq_bind, Option.bind_some,
      ih (fun a ha ↦ hfg a (List.mem_cons_of_mem _ ha)) hcs']
    exact hcons

end Loop
