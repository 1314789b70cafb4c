import Mathlib.Data.Finset.Card
import Mathlib.Tactic.Choose

/-!
# Runs under a fair schedule

A system is given by what a turn does to a state, `step : S → T → Option S`, and a schedule says
whose turn it is at every time. Nothing is assumed about the schedule but **fairness**: that some of
those who take turns always have another one, after any delay.

* `exists_isRun`: under an invariant that lets every turn be taken there is a run for every
  schedule.
* `LeadsTo P Q` says that whenever `P` holds, `Q` holds then or later. `LeadsTo.ensures` is the only
  rule that uses fairness: `P` stays until `Q` holds, and a turn of one who is scheduled fairly
  brings `Q` about. `LeadsTo.trans` and `LeadsTo.or` put such facts together.
* `LeadsTo.of_measure` is the induction on what is left to do.
-/

namespace FairRun

variable {S T : Type*}

/-- The states `s` are those of a run in which the turns are taken as `turn` says. -/
def IsRun (step : S → T → Option S) (turn : ℕ → T) (s : ℕ → S) : Prop :=
  ∀ n, step (s n) (turn n) = some (s (n + 1))

/-- There is always another turn of `t`. -/
def Fair (turn : ℕ → T) (t : T) : Prop := ∀ n, ∃ m ≥ n, turn m = t

/-- Whenever `P` holds, `Q` holds then or later. -/
def LeadsTo (s : ℕ → S) (P Q : S → Prop) : Prop := ∀ n, P (s n) → ∃ m ≥ n, Q (s m)

section Run

variable {step : S → T → Option S} {turn : ℕ → T} {s : ℕ → S}

/-- **Runs exist** for every schedule, if in the states that can be met every turn can be taken. -/
theorem exists_isRun (I : S → Prop) (hstep : ∀ a t, I a → ∃ b, step a t = some b ∧ I b) {a : S}
    (ha : I a) (turn : ℕ → T) : ∃ s, s 0 = a ∧ IsRun step turn s ∧ ∀ n, I (s n) := by
  classical
  choose! next hnext using hstep
  let s : ℕ → S := fun n ↦ n.rec a fun n b ↦ next b (turn n)
  have hI : ∀ n, I (s n) := by
    intro n
    induction n with
    | zero => exact ha
    | succ n ih => exact (hnext (s n) (turn n) ih).2
  exact ⟨s, rfl, fun n ↦ (hnext (s n) (turn n) (hI n)).1, hI⟩

/-- What every turn keeps holds from the time on at which it holds first. -/
theorem IsRun.stable (hrun : IsRun step turn s) (P : S → Prop)
    (hstep : ∀ a b n, P a → step a (turn n) = some b → P b) {n m : ℕ} (hnm : n ≤ m)
    (hn : P (s n)) : P (s m) := by
  induction m, hnm using Nat.le_induction with
  | base => exact hn
  | succ m _ ih => exact hstep _ _ m ih (hrun m)

end Run

namespace LeadsTo

variable {s : ℕ → S} {P Q R : S → Prop}

theorem of_imp (h : ∀ a, P a → Q a) : LeadsTo s P Q := fun n hn ↦ ⟨n, le_refl n, h _ hn⟩

theorem trans (h : LeadsTo s P Q) (h' : LeadsTo s Q R) : LeadsTo s P R := by
  intro n hn
  obtain ⟨m, hnm, hm⟩ := h n hn
  obtain ⟨k, hmk, hk⟩ := h' m hm
  exact ⟨k, hnm.trans hmk, hk⟩

/-- Two ways to go on. -/
theorem or (h : LeadsTo s P R) (h' : LeadsTo s Q R) : LeadsTo s (fun a ↦ P a ∨ Q a) R :=
  fun n hn ↦ hn.elim (h n) (h' n)

/-- **The rule for one turn.** Every turn keeps `P` or brings `Q` about, and a turn of `t`, of which
there is always another one, brings `Q` about. -/
theorem ensures {step : S → T → Option S} {turn : ℕ → T} {t : T} (hrun : IsRun step turn s)
    (hfair : Fair turn t)
    (hkeep : ∀ a b n, P a → turn n ≠ t → step a (turn n) = some b → P b ∨ Q b)
    (hact : ∀ a b, P a → step a t = some b → Q b) : LeadsTo s P Q := by
  have hwait : ∀ d n, P (s n) → turn (n + d) = t → ∃ m ≥ n, Q (s m) := by
    -- the next turn of `t` is `d` turns away
    intro d
    induction d with
    | zero =>
      intro n hn hturn
      exact ⟨n + 1, by omega, hact _ _ hn (hturn ▸ hrun n)⟩
    | succ d ih =>
      intro n hn hturn
      by_cases hnow : turn n = t
      · exact ⟨n + 1, by omega, hact _ _ hn (hnow ▸ hrun n)⟩
      · rcases hkeep _ _ n hn hnow (hrun n) with hP | hQ
        · obtain ⟨m, hm, hQ⟩ := ih (n + 1) hP (by rwa [Nat.add_assoc, Nat.add_comm 1 d])
          exact ⟨m, by omega, hQ⟩
        · exact ⟨n + 1, by omega, hQ⟩
  intro n hn
  obtain ⟨m, hnm, hm⟩ := hfair n
  exact hwait (m - n) n hn (by rwa [Nat.add_sub_cancel' hnm])

/-- **Induction on what is left**: if less and less is left, in the end nothing is. -/
theorem of_measure {P : ℕ → S → Prop}
    (h : ∀ k, LeadsTo s (P (k + 1)) fun a ↦ ∃ m ≤ k, P m a) (k : ℕ) :
    LeadsTo s (P k) (P 0) := by
  induction k using Nat.strong_induction_on with
  | h k ih =>
    cases k with
    | zero => exact of_imp fun _ ↦ id
    | succ k =>
      refine (h k).trans fun n hn ↦ ?_
      obtain ⟨m, hm, hP⟩ := hn
      exact ih m (by omega) n hP

end LeadsTo

end FairRun
