import CArchitecture.Library.FairRun
import CArchitecture.Pipeline
import Mathlib.Algebra.Order.BigOperators.Group.List
import Mathlib.Algebra.Order.Ring.Nat
import Mathlib.Data.Nat.Count

/-!
# The job manager gets done

The loops of the manager never sleep: a thread that finds no job tests its flag and asks again. So
nothing is assumed of the scheduler but that each thread always gets another turn.

* `all_deleted`: then all jobs are read, parsed, written and deleted, if nobody types `exit`. What
  is left to do is counted by `turnsLeft`; a thread that holds a job makes it less by its next turn,
  and one that could take a job by its next turn or the one after.
* `done_of_exit`: after `exit` a thread leaves its loop within six turns of its own, and when all
  threads have left theirs no job is half done.
-/

namespace CArchitecture

open LinkedQueue FairRun

section Progress

variable {ι : Type} [DecidableEq ι] {submitted : List ℕ} {s s' : MgrState ι}
  {q q' : QueueId → List ℕ} {place : ℕ → Place ι} {t t' : Thread ι}

/-- The turns that the jobs still need. -/
def turnsLeft (submitted : List ℕ) (s : MgrState ι) (place : ℕ → Place ι) : ℕ :=
  (submitted.map fun j ↦ (place j).turnsLeft (s.jobs j).stage).sum

omit [DecidableEq ι] in
theorem Fits.turnsLeft_pos {P : Place ι} {stage : Stage} {history : List Work}
    (h : Fits P stage history) (hP : P ≠ .deleted) : 0 < P.turnsLeft stage := by
  cases h <;> simp [Place.turnsLeft] at hP ⊢

omit [DecidableEq ι] in
theorem Fits.history_deleted {stage : Stage} {history : List Work}
    (h : Fits (.deleted : Place ι) stage history) : history = [.reading, .parsing, .writing] := by
  cases h
  rfl

omit [DecidableEq ι] in
/-- If nothing is left to do, all jobs are deleted. -/
theorem Located.turnsLeft_eq_zero (h : Located submitted s q place)
    (hzero : turnsLeft submitted s place = 0) {j : ℕ} (hj : j ∈ submitted) :
    place j = .deleted := by
  have hz : (place j).turnsLeft (s.jobs j).stage = 0 :=
    List.sum_eq_zero_iff.1 hzero _ (List.mem_map.2 ⟨j, hj, rfl⟩)
  by_contra hne
  exact absurd hz ((h.fits j hj).turnsLeft_pos hne).ne'

/-- **A turn that moves a job leaves less to do.** -/
theorem MgrState.Moves.turnsLeft_lt {j : ℕ} {P : Place ι}
    (hmove : s.Moves submitted t s' q q' place j P) (h : Located submitted s q place) :
    turnsLeft submitted s' (Function.update place j P) < turnsLeft submitted s place := by
  have heq := hmove.turnsLeft_eq
  have hj : j ∈ submitted := h.mem_submitted j fun hdeleted ↦ by
    rw [hdeleted] at heq
    simp [Place.turnsLeft] at heq
  refine List.sum_lt_sum _ _ (fun a _ ↦ ?_) ⟨j, hj, ?_⟩
  · rcases eq_or_ne a j with rfl | hne
    · rw [Function.update_self]
      omega
    · rw [Function.update_of_ne hne, hmove.stage_other a hne]
  · rw [Function.update_self]
    omega

/-! ### One turn -/

/-- The threads are in their loops, the jobs need `n` more turns, and `C` is so for the thread `t`:
for the place it is at and the jobs that wait for it. -/
def Needs (submitted : List ℕ) (n : ℕ) (t : Thread ι) (C : Pc → List ℕ → Prop)
    (s : MgrState ι) : Prop :=
  Running s ∧ ∃ q place, Located submitted s q place ∧ turnsLeft submitted s place = n ∧
    C (s.pc t) (q t.source)

/-- The same with nothing about a thread. -/
def NeedsTurns (submitted : List ℕ) (n : ℕ) (s : MgrState ι) : Prop :=
  Running s ∧ ∃ q place, Located submitted s q place ∧ turnsLeft submitted s place = n

/-- A turn leaves less to do, or the thread that has it goes on in its loop. -/
theorem Located.less_or_idles (h : Located submitted s q place) (hs : Running s)
    (hstep : s.step (.thread t) = some s') :
    (∃ m < turnsLeft submitted s place, NeedsTurns submitted m s') ∨
      ∃ c, s.Idles q t c ∧ s' = s.goto t c := by
  obtain ⟨s₁, hs₁, heffect⟩ := h.effect t
  obtain rfl := Option.some.inj (hs₁.symm.trans hstep)
  rcases heffect with ⟨c, hidle, heq⟩ | ⟨q', j, P, hmove⟩
  · exact Or.inr ⟨c, hidle, heq⟩
  · exact Or.inl ⟨_, hmove.turnsLeft_lt h, hmove.running hs, q', _, hmove.located, rfl⟩

/-- A turn of another thread. -/
theorem Needs.step_other {n : ℕ} {C : Pc → List ℕ → Prop} (h : Needs submitted n t C s)
    (hne : t' ≠ t) (hstep : s.step (.thread t') = some s') :
    Needs submitted n t C s' ∨ ∃ m < n, NeedsTurns submitted m s' := by
  obtain ⟨hs, q, place, hlocated, rfl, hC⟩ := h
  rcases hlocated.less_or_idles hs hstep with hless | ⟨c, hidle, rfl⟩
  · exact Or.inr hless
  · refine Or.inl ⟨hidle.running hs, q, place, hlocated.of_idles hidle, rfl, ?_⟩
    show C (Function.update s.pc t' c t) _
    rwa [Function.update_of_ne hne.symm]

/-! ### Every job gets on -/

section Run

variable {turn : ℕ → Thread ι} {run : ℕ → MgrState ι} {n : ℕ}

/-- A thread that holds a job works on it in its next turn. -/
theorem holding_leadsTo (hrun : IsRun (fun s t ↦ MgrState.step s (.thread t)) turn run)
    (hfair : Fair turn t) :
    LeadsTo run (Needs submitted n t fun c _ ↦ c.job ≠ none)
      fun s ↦ ∃ m < n, NeedsTurns submitted m s := by
  refine LeadsTo.ensures hrun hfair (fun s s' k h hne hstep ↦ h.step_other hne hstep) ?_
  rintro s s' ⟨hs, q, place, hlocated, rfl, hjob⟩ hstep
  rcases hlocated.less_or_idles hs hstep with hless | ⟨c, hidle, rfl⟩
  · exact hless
  · cases hidle with
    | testLoop hpc | getJob hpc | done hpc => exact absurd (congrArg Pc.job hpc) hjob

/-- A thread that asks for a job gets one if one waits for it. -/
theorem getJob_leadsTo (hrun : IsRun (fun s t ↦ MgrState.step s (.thread t)) turn run)
    (hfair : Fair turn t) :
    LeadsTo run (Needs submitted n t fun c l ↦ c = .getJob ∧ l ≠ [])
      fun s ↦ ∃ m < n, NeedsTurns submitted m s := by
  refine LeadsTo.ensures hrun hfair (fun s s' k h hne hstep ↦ h.step_other hne hstep) ?_
  rintro s s' ⟨hs, q, place, hlocated, rfl, hpc, hwaiting⟩ hstep
  rcases hlocated.less_or_idles hs hstep with hless | ⟨c, hidle, rfl⟩
  · exact hless
  · cases hidle with
    | testLoop hc | done hc => exact absurd (hpc.symm.trans hc) (by simp)
    | getJob _ hempty => exact absurd hempty hwaiting

/-- A thread at the head of its loop asks for a job next. -/
theorem testLoop_leadsTo (hrun : IsRun (fun s t ↦ MgrState.step s (.thread t)) turn run)
    (hfair : Fair turn t) :
    LeadsTo run (Needs submitted n t fun c l ↦ c = .testLoop ∧ l ≠ [])
      fun s ↦ ∃ m < n, NeedsTurns submitted m s := by
  have hnext : LeadsTo run (Needs submitted n t fun c l ↦ c = .testLoop ∧ l ≠ [])
      fun s ↦ Needs submitted n t (fun c l ↦ c = .getJob ∧ l ≠ []) s ∨
        ∃ m < n, NeedsTurns submitted m s := by
    refine LeadsTo.ensures hrun hfair
      (fun s s' k h hne hstep ↦ (h.step_other hne hstep).imp id Or.inr) ?_
    rintro s s' ⟨hs, q, place, hlocated, rfl, hpc, hwaiting⟩ hstep
    rcases hlocated.less_or_idles hs hstep with hless | ⟨c, hidle, rfl⟩
    · exact Or.inr hless
    · refine Or.inl ⟨hidle.running hs, q, place, hlocated.of_idles hidle, rfl, ?_, hwaiting⟩
      show Function.update s.pc t c t = _
      rw [Function.update_self]
      cases hidle with
      | testLoop hc => rw [hs.loopWorking_eq]; rfl
      | getJob hc | done hc => exact absurd (hpc.symm.trans hc) (by simp)
  exact hnext.trans ((getJob_leadsTo hrun hfair).or (LeadsTo.of_imp fun _ ↦ id))

/-- As long as a job is not deleted, some thread holds it or can take one. -/
theorem NeedsTurns.exists_needs [Nonempty ι] (h : NeedsTurns submitted (n + 1) s) :
    ∃ t, Needs submitted (n + 1) t (fun c _ ↦ c.job ≠ none) s ∨
      Needs submitted (n + 1) t (fun c l ↦ c = .getJob ∧ l ≠ []) s ∨
      Needs submitted (n + 1) t (fun c l ↦ c = .testLoop ∧ l ≠ []) s := by
  obtain ⟨hs, q, place, hlocated, hn⟩ := h
  obtain ⟨j, hj, hne⟩ : ∃ j ∈ submitted, place j ≠ .deleted := by
    by_contra hall
    push Not at hall
    have hzero : turnsLeft submitted s place = 0 := List.sum_eq_zero fun x hx ↦ by
      obtain ⟨j, hj, rfl⟩ := List.mem_map.1 hx
      rw [hall j hj]
      rfl
    omega
  cases hplace : place j with
  | deleted => exact absurd hplace hne
  | held t point =>
    have hpc := (hlocated.holding_iff t point j).2 hplace
    exact ⟨t, Or.inl ⟨hs, q, place, hlocated, hn, by simp [hpc, Pc.job]⟩⟩
  | queued k =>
    -- somebody takes jobs out of this queue, and is asked to in any state but the last one
    obtain ⟨t, rfl⟩ : ∃ t : Thread ι, t.source = k := by
      cases k with
      | work => exact ⟨.worker (Classical.arbitrary ι), rfl⟩
      | io => exact ⟨.io, rfl⟩
    have hwaiting : q t.source ≠ [] :=
      List.ne_nil_of_mem ((hlocated.mem_queue _ j).2 hplace)
    refine ⟨t, ?_⟩
    cases hpc : s.pc t with
    | done => exact absurd hpc (hs.pc_ne t)
    | testLoop => exact Or.inr (Or.inr ⟨hs, q, place, hlocated, hn, hpc, hwaiting⟩)
    | getJob => exact Or.inr (Or.inl ⟨hs, q, place, hlocated, hn, hpc, hwaiting⟩)
    | holding point a => exact Or.inl ⟨hs, q, place, hlocated, hn, by simp [hpc, Pc.job]⟩

/-- In the end nothing is left to do. -/
theorem needsTurns_leadsTo_zero [Nonempty ι]
    (hrun : IsRun (fun s t ↦ MgrState.step s (.thread t)) turn run) (hfair : ∀ t, Fair turn t)
    (n : ℕ) : LeadsTo run (NeedsTurns submitted n) (NeedsTurns submitted 0) := by
  refine LeadsTo.of_measure (fun n k hk ↦ ?_) n
  obtain ⟨t, hneeds⟩ := hk.exists_needs
  obtain ⟨m, hm, i, hi, hdone⟩ :
      ∃ m ≥ k, ∃ i < n + 1, NeedsTurns submitted i (run m) := by
    rcases hneeds with hholds | hasks | htests
    · exact holding_leadsTo hrun (hfair t) k hholds
    · exact getJob_leadsTo hrun (hfair t) k hasks
    · exact testLoop_leadsTo hrun (hfair t) k htests
  exact ⟨m, hm, i, Nat.lt_succ_iff.1 hi, hdone⟩

/-- From some time on nothing is left to do. -/
theorem exists_isRun_needsTurns [Nonempty ι] (raw : ℕ → Job) (hnodup : submitted.Nodup)
    (hfair : ∀ t, Fair turn t) :
    ∃ run : ℕ → MgrState ι, MgrState.start raw submitted = some (run 0) ∧
      IsRun (fun s t ↦ MgrState.step s (.thread t)) turn run ∧
      ∃ n, ∀ m ≥ n, NeedsTurns submitted 0 (run m) := by
  obtain ⟨s₀, place, hs₀, hstarted, h⟩ := exists_start (ι := ι) raw hnodup
  obtain ⟨run, rfl, hrun, -⟩ := exists_isRun
    (fun s : MgrState ι ↦ ∃ q place, Located submitted s q place)
    (fun s t ⟨q, place, h⟩ ↦ h.step (.thread t)) ⟨_, place, h⟩ turn
  obtain ⟨n, -, hn⟩ := needsTurns_leadsTo_zero hrun hfair _ 0 ⟨hstarted.running, _, place, h, rfl⟩
  refine ⟨run, hs₀, hrun, n, fun m hm ↦ ?_⟩
  refine hrun.stable (NeedsTurns submitted 0) (fun s s' k hk hstep ↦ ?_) hm hn
  obtain ⟨hs, q, place, h, hzero⟩ := hk
  rcases h.less_or_idles hs hstep with ⟨m, hm, -⟩ | ⟨c, hidle, rfl⟩
  · omega
  · exact ⟨hidle.running hs, q, place, h.of_idles hidle, hzero⟩

omit [DecidableEq ι] in
/-- Then all jobs are deleted, with all done that was to be done. -/
theorem NeedsTurns.history_eq (h : NeedsTurns submitted 0 s) {j : ℕ} (hj : j ∈ submitted) :
    (s.jobs j).deleted = true ∧ s.history j = [.reading, .parsing, .writing] := by
  obtain ⟨-, q, place, h, hzero⟩ := h
  have hplace := h.turnsLeft_eq_zero hzero hj
  exact ⟨(h.deleted_iff j).2 hplace, (hplace ▸ h.fits j hj).history_deleted⟩

/-- **All jobs get done.** If each thread always gets another turn and nobody types `exit`, then
from some time on all submitted jobs have been read, parsed and written, in this order and once
each, and are deleted. -/
theorem all_deleted [Nonempty ι] (raw : ℕ → Job) (submitted : List ℕ) (hnodup : submitted.Nodup)
    (turn : ℕ → Thread ι) (hfair : ∀ t, Fair turn t) :
    ∃ run : ℕ → MgrState ι, MgrState.start raw submitted = some (run 0) ∧
      IsRun (fun s t ↦ MgrState.step s (.thread t)) turn run ∧
      ∃ n, ∀ m ≥ n, ∀ j ∈ submitted, ((run m).jobs j).deleted = true ∧
        (run m).history j = [.reading, .parsing, .writing] := by
  obtain ⟨run, hstart, hrun, n, hn⟩ := exists_isRun_needsTurns raw hnodup hfair
  exact ⟨run, hstart, hrun, n, fun m hm j hj ↦ (hn m hm).history_eq hj⟩

end Run

/-- The schedule of two parsing threads in which each thread has every third turn. -/
def roundRobin (n : ℕ) : Thread (Fin 2) :=
  if n % 3 = 0 then .io else .worker (if n % 3 = 1 then 0 else 1)

theorem fair_roundRobin (t : Thread (Fin 2)) : Fair roundRobin t := by
  intro n
  cases t with
  | io => exact ⟨3 * n, by omega, by simp [roundRobin]⟩
  | worker i =>
    rcases Fin.exists_fin_two.1 ⟨i, rfl⟩ with rfl | rfl
    · exact ⟨3 * n + 1, by omega, by simp [roundRobin]⟩
    · exact ⟨3 * n + 2, by omega, by simp [roundRobin]⟩

theorem all_deleted_two : [0, 1].Nodup ∧ (∀ t, Fair roundRobin t) ∧
    ∃ run : ℕ → MgrState (Fin 2),
      MgrState.start (fun _ ↦ ⟨.writeEndStage, fun _ ↦ some 7, false⟩) [0, 1] = some (run 0) ∧
      IsRun (fun s t ↦ MgrState.step s (.thread t)) roundRobin run ∧
      ∃ n, ∀ m ≥ n, ∀ j ∈ [0, 1], ((run m).jobs j).deleted = true ∧
        (run m).history j = [.reading, .parsing, .writing] :=
  ⟨by decide, fair_roundRobin, all_deleted _ [0, 1] (by decide) roundRobin fair_roundRobin⟩

/-! ### After `exit` -/

/-- Only the thread that waits for `exit` sets the flag. -/
theorem Located.loopWorking_eq (h : Located submitted s q place)
    (hstep : s.step (.thread t) = some s') : s'.loopWorking = s.loopWorking := by
  obtain ⟨s₁, hs₁, heffect⟩ := h.effect t
  obtain rfl := Option.some.inj (hs₁.symm.trans hstep)
  rcases heffect with ⟨c, -, rfl⟩ | ⟨q', j, P, hmove⟩
  · rfl
  · exact hmove.loopWorking_eq

/-- A turn of a thread does not move another one. -/
theorem Located.pc_other (h : Located submitted s q place)
    (hstep : s.step (.thread t) = some s') (hne : t' ≠ t) : s'.pc t' = s.pc t' := by
  obtain ⟨s₁, hs₁, heffect⟩ := h.effect t
  obtain rfl := Option.some.inj (hs₁.symm.trans hstep)
  rcases heffect with ⟨c, -, rfl⟩ | ⟨q', j, P, hmove⟩
  · exact Function.update_of_ne hne _ _
  · exact hmove.pc_other t' hne

/-- A thread whose loop is to end is nearer to its end after each of its turns. -/
theorem Located.done_or_turnsLeft_lt (h : Located submitted s q place)
    (hloop : s.loopWorking = false) (hstep : s.step (.thread t) = some s') :
    s'.pc t = .done ∨ (s'.pc t).turnsLeft < (s.pc t).turnsLeft := by
  obtain ⟨s₁, hs₁, heffect⟩ := h.effect t
  obtain rfl := Option.some.inj (hs₁.symm.trans hstep)
  rcases heffect with ⟨c, hidle, rfl⟩ | ⟨q', j, P, hmove⟩
  · rw [show (s.goto t c).pc t = c from Function.update_self _ _ _]
    cases hidle with
    | testLoop hpc => exact Or.inl (by rw [hloop]; rfl)
    | done hpc => exact Or.inl rfl
    | getJob hpc => exact Or.inr (by rw [hpc]; decide)
  · exact Or.inr hmove.pc_turnsLeft

theorem Pc.turnsLeft_le (c : Pc) : c.turnsLeft ≤ 6 := by
  cases c with
  | holding point j => cases point <;> simp [Pc.turnsLeft]
  | _ => simp [Pc.turnsLeft]

theorem Pc.eq_done {c : Pc} (h : c.turnsLeft = 0) : c = .done := by
  cases c with
  | holding point j => cases point <;> simp [Pc.turnsLeft] at h
  | done => rfl
  | _ => simp [Pc.turnsLeft] at h

/-- A job waits in one queue, where it stands once, and is not deleted. -/
structure WaitsIn (s : MgrState ι) (q : QueueId → List ℕ) (k : QueueId) (j : ℕ) : Prop where
  count_eq_one : (q k).count j = 1
  notMem : ∀ k' ≠ k, j ∉ q k'
  deleted_eq : (s.jobs j).deleted = false

/-- A job that no thread holds is at one of four places, its stage is the one that was set when it
got there, and what was done to it is whole. -/
inductive AtRest (s : MgrState ι) (q : QueueId → List ℕ) (j : ℕ) : Prop
  | toRead (hwaits : WaitsIn s q .io j) (hstage : (s.jobs j).stage = .initStage)
      (hhistory : s.history j = [])
  | toParse (hwaits : WaitsIn s q .work j) (hstage : (s.jobs j).stage = .readEndStage)
      (hhistory : s.history j = [.reading])
  | toWrite (hwaits : WaitsIn s q .io j) (hstage : (s.jobs j).stage = .modelEndStage)
      (hhistory : s.history j = [.reading, .parsing])
  | deleted (hnotMem : ∀ k, j ∉ q k) (hdeleted : (s.jobs j).deleted = true)
      (hhistory : s.history j = [.reading, .parsing, .writing])

omit [DecidableEq ι] in
theorem Located.waitsIn (h : Located submitted s q place) {j : ℕ} {k : QueueId}
    (hplace : place j = .queued k) : WaitsIn s q k j where
  count_eq_one := (h.represents k).nodup.count.trans (if_pos ((h.mem_queue k j).2 hplace))
  notMem k' hne := h.notMem_queue (by simpa [hplace] using hne.symm)
  deleted_eq := by simp [Bool.eq_false_iff, h.deleted_iff, hplace]

omit [DecidableEq ι] in
/-- **With all threads out of their loops every job is at rest.** -/
theorem Located.atRest (h : Located submitted s q place) (hdone : ∀ t, s.pc t = .done) {j : ℕ}
    (hj : j ∈ submitted) : AtRest s q j := by
  have hfits := h.fits j hj
  generalize hplace : place j = P at hfits
  generalize hstage : (s.jobs j).stage = stage at hfits
  generalize hhistory : s.history j = history at hfits
  cases hfits with
  | submitted => exact .toRead (h.waitsIn hplace) hstage hhistory
  | read => exact .toParse (h.waitsIn hplace) hstage hhistory
  | parsed => exact .toWrite (h.waitsIn hplace) hstage hhistory
  | deleted =>
    exact .deleted (fun k ↦ h.notMem_queue (by simp [hplace])) ((h.deleted_iff j).2 hplace) hhistory
  | _ => exact absurd ((hdone _).symm.trans ((h.holding_iff _ _ j).2 hplace)) (by simp)

deriving instance DecidableEq for MgrState.Turn

/-- **Leaving the loops.** If `exit` is typed once, then a thread that had six turns since has left
its loop, whatever the others do in between; and when all have left theirs, each job waits in
exactly one queue with the stage that was set for it, or is in none and deleted. -/
theorem done_of_exit (raw : ℕ → Job) (submitted : List ℕ) (hnodup : submitted.Nodup)
    (turn : ℕ → MgrState.Turn ι) (n : ℕ) (hexit : ∀ m, turn m = .setLoopWorking ↔ m = n) :
    ∃ run : ℕ → MgrState ι, MgrState.start raw submitted = some (run 0) ∧
      IsRun MgrState.step turn run ∧
      (∀ t m, Nat.count (turn · = .thread t) n + 6 ≤ Nat.count (turn · = .thread t) m →
        (run m).pc t = .done) ∧
      ∀ m, (∀ t, (run m).pc t = .done) →
        ∃ q, (∀ k, Represents (fun j ↦ ((run m).jobs j).next k) ((run m).queue k) (q k)) ∧
          ∀ j ∈ submitted, AtRest (run m) q j := by
  obtain ⟨s₀, place, hs₀, hstarted, h⟩ := exists_start (ι := ι) raw hnodup
  obtain ⟨run, rfl, hrun, hlocated⟩ := exists_isRun
    (fun s : MgrState ι ↦ ∃ q place, Located submitted s q place)
    (fun s turn ⟨q, place, h⟩ ↦ h.step turn) ⟨_, place, h⟩ turn
  have hthread : ∀ k ≠ n, ∃ t, turn k = .thread t := fun k hk ↦ by
    cases hturn : turn k with
    | thread t => exact ⟨t, rfl⟩
    | setLoopWorking => exact absurd ((hexit k).1 hturn) hk
  have hexit_n : turn n = .setLoopWorking := (hexit n).2 rfl
  -- the flag before `exit`, and after
  have hbefore : ∀ k ≤ n, (run k).loopWorking = true := by
    intro k hk
    induction k with
    | zero => exact hstarted.loopWorking_eq
    | succ k ih =>
      obtain ⟨t, ht⟩ := hthread k (by omega)
      obtain ⟨q, place, h⟩ := hlocated k
      rw [h.loopWorking_eq (ht ▸ hrun k), ih (by omega)]
  have hafter : ∀ k ≥ n + 1, (run k).loopWorking = false := by
    intro k hk
    induction k, hk using Nat.le_induction with
    | base =>
      have hstep := hrun n
      rw [hexit_n] at hstep
      obtain heq := Option.some.inj hstep
      rw [← heq, hbefore n le_rfl]
      rfl
    | succ k hk ih =>
      obtain ⟨t, ht⟩ := hthread k (by omega)
      obtain ⟨q, place, h⟩ := hlocated k
      rw [h.loopWorking_eq (ht ▸ hrun k), ih]
  refine ⟨run, hs₀, hrun, fun t m hm ↦ ?_, fun m hdone ↦ ?_⟩
  · have hleft : ∀ k ≥ n + 1, (run k).pc t = .done ∨
        ((run k).pc t).turnsLeft + Nat.count (turn · = .thread t) k ≤
          Nat.count (turn · = .thread t) n + 6 := by
      intro k hk
      induction k, hk using Nat.le_induction with
      | base =>
        have hle := ((run (n + 1)).pc t).turnsLeft_le
        rw [Nat.count_succ, hexit_n, if_neg (by simp)]
        exact Or.inr (by omega)
      | succ k hk ih =>
        obtain ⟨t', ht'⟩ := hthread k (by omega)
        obtain ⟨q, place, h⟩ := hlocated k
        have hstep : (run k).step (.thread t') = some (run (k + 1)) := ht' ▸ hrun k
        rcases eq_or_ne t t' with rfl | hne
        · rw [Nat.count_succ, if_pos ht']
          rcases h.done_or_turnsLeft_lt (hafter k hk) hstep with hdone | hlt
          · exact Or.inl hdone
          · rcases ih with hdone | hle
            · rw [hdone] at hlt
              exact absurd hlt (by simp [Pc.turnsLeft])
            · exact Or.inr (by omega)
        · rw [Nat.count_succ, ht', if_neg (by simpa using hne.symm), h.pc_other hstep hne]
          exact ih
    have hnm : n + 1 ≤ m := by
      by_contra hlt
      have := Nat.count_monotone (turn · = .thread t) (show m ≤ n by omega)
      omega
    rcases hleft m hnm with hdone | hle
    · exact hdone
    · have hzero : ((run m).pc t).turnsLeft = 0 := by omega
      exact Pc.eq_done hzero
  · obtain ⟨q, place, h⟩ := hlocated m
    exact ⟨q, h.represents, fun j hj ↦ h.atRest hdone hj⟩

theorem done_of_exit_two : [0, 1].Nodup ∧
    ∃ run : ℕ → MgrState (Fin 2),
      MgrState.start (fun _ ↦ ⟨.writeEndStage, fun _ ↦ some 7, false⟩) [0, 1] = some (run 0) ∧
      IsRun MgrState.step
        (fun k ↦ if k = 5 then .setLoopWorking else .thread (roundRobin k)) run ∧
      (∀ t m, Nat.count
          (fun k ↦ (if k = 5 then .setLoopWorking else .thread (roundRobin k)) =
            MgrState.Turn.thread t) 5 + 6 ≤
          Nat.count (fun k ↦ (if k = 5 then .setLoopWorking else .thread (roundRobin k)) =
            MgrState.Turn.thread t) m → (run m).pc t = .done) ∧
      ∀ m, (∀ t, (run m).pc t = .done) →
        ∃ q, (∀ k, Represents (fun j ↦ ((run m).jobs j).next k) ((run m).queue k) (q k)) ∧
          ∀ j ∈ [0, 1], AtRest (run m) q j :=
  ⟨by decide, done_of_exit _ [0, 1] (by decide)
    (fun k ↦ if k = 5 then .setLoopWorking else .thread (roundRobin k)) 5
    fun m ↦ by split_ifs with hm <;> simp [hm]⟩

end Progress

end CArchitecture
