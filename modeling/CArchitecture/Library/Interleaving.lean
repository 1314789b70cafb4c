import Mathlib.Logic.Function.Basic
import Mathlib.Data.Option.Basic

/-!
# Interleavings of independent work

Each key has a state of its own, and a log says what is done to which key, in what order. Doing all
of it is then the same as doing, for each key alone, what the log has for this key
(`foldlM_step_eq_some_iff`): the whole succeeds exactly if every key does, and leaves at every key
what is left there. So how the work on different keys is interleaved makes no difference.
-/

namespace Interleaving

variable {K W L : Type*} [DecidableEq K]

/-- What the log has for a key. -/
def events (log : List (K × W)) (k : K) : List W := (log.filter (·.1 = k)).map Prod.snd

theorem events_cons_self (k : K) (w : W) (log : List (K × W)) :
    events ((k, w) :: log) k = w :: events log k := by
  simp [events]

theorem events_cons_of_ne {k k' : K} (h : k' ≠ k) (w : W) (log : List (K × W)) :
    events ((k, w) :: log) k' = events log k' := by
  simp [events, h.symm]

theorem events_append (log log' : List (K × W)) (k : K) :
    events (log ++ log') k = events log k ++ events log' k := by
  simp [events]

theorem events_eq_nil {log : List (K × W)} {k : K} (h : ∀ e ∈ log, e.1 ≠ k) :
    events log k = [] :=
  List.map_eq_nil_iff.2 (List.filter_eq_nil_iff.2 fun e he heq ↦ h e he (of_decide_eq_true heq))

variable (act : K → L → W → Option L)

/-- One entry of the log. -/
def step (f : K → L) (e : K × W) : Option (K → L) :=
  (act e.1 (f e.1) e.2).map (Function.update f e.1)

variable {act}

/-- **Keys do not meet.** -/
theorem foldlM_step_eq_some_iff {log : List (K × W)} {f g : K → L} :
    log.foldlM (step act) f = some g ↔ ∀ k, (events log k).foldlM (act k) (f k) = some (g k) := by
  induction log generalizing f with
  | nil =>
    constructor
    · rintro h k
      exact congrArg (fun f ↦ some (f k)) (Option.some.inj h)
    · exact fun h ↦ congrArg some (funext fun k ↦ Option.some.inj (h k))
  | cons e log ih =>
    obtain ⟨k, w⟩ := e
    rw [List.foldlM_cons]
    cases hact : act k (f k) w with
    | none =>
      -- what fails for one key fails on the whole
      rw [step, hact]
      refine iff_of_false (by simp) fun h ↦ ?_
      have hk := h k
      rw [events_cons_self, List.foldlM_cons, hact] at hk
      exact absurd hk (by simp)
    | some l =>
      rw [step, hact, Option.map_some, Option.bind_eq_bind, Option.bind_some, ih]
      refine forall_congr' fun k' ↦ ?_
      rcases eq_or_ne k' k with rfl | hne
      · rw [events_cons_self, List.foldlM_cons, hact, Function.update_self]
        rfl
      · rw [events_cons_of_ne hne, Function.update_of_ne hne]

end Interleaving
