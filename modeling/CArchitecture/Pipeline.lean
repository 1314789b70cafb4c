import CArchitecture.MgrJob

/-!
# What the job manager is for

Without addresses, links and loops the manager is a `Pipeline`: two lists of jobs that wait, at most
one job in the hands of each thread, and a log of what was done to which job. A thread takes the
first job that waits for it, does what is due, and passes the job on; the input and output thread
lets a job go when all has been done.

* `Located.effect` says once what a turn of a thread does: either the thread holds no job and goes
  on in its loop, or one job moves, and this is a step of the pipeline or none.
* `reaches_iff_pipeline_reaches`: the manager and the pipeline reach the same states.
* `reaches_inOrder_reading`: the jobs are read in the order in which they were submitted, whatever
  the number of threads that parse them and hand them back for writing.
-/

namespace CArchitecture

open LinkedQueue

/-! ### The pipeline -/

namespace Thread

variable {ι : Type}

/-- The queue a thread takes jobs from. -/
def source : Thread ι → QueueId
  | .worker _ => .work
  | .io => .io

/-- The queue a thread puts jobs into. -/
def target : Thread ι → QueueId
  | .worker _ => .io
  | .io => .work

/-- What a thread does to a job to which this was done. -/
def due : Thread ι → List Work → Option Work
  | .io, [] => some .reading
  | .worker _, [.reading] => some .parsing
  | .io, [.reading, .parsing] => some .writing
  | _, _ => none

/-- What was done to a job when the thread passes it on. -/
def passesOn : Thread ι → List Work
  | .io => [.reading]
  | .worker _ => [.reading, .parsing]

/-- Only the thread for input and output reads, and reading comes first. -/
theorem due_eq_some {t : Thread ι} {history : List Work} {w : Work} (h : t.due history = some w) :
    (t = .io ∧ history = [] ∧ w = .reading) ∨ (history ≠ [] ∧ w ≠ .reading) := by
  rw [due.eq_def] at h
  split at h
  · exact Or.inl ⟨rfl, rfl, (Option.some.inj h).symm⟩
  · exact Or.inr ⟨by simp, fun hw ↦ by simp [hw] at h⟩
  · exact Or.inr ⟨by simp, fun hw ↦ by simp [hw] at h⟩
  · exact absurd h (by simp)

end Thread

/-- The jobs that wait, those in the hands of the threads, and what was done. -/
structure Pipeline (ι : Type) where
  waiting : QueueId → List ℕ
  hand : Thread ι → Option ℕ
  present : ℕ → Bool
  log : List (ℕ × Work)

/-- The jobs to which this was done, in order. -/
def inOrder (w : Work) (log : List (ℕ × Work)) : List ℕ := (log.filter (·.2 = w)).map Prod.fst

namespace Pipeline

variable {ι : Type}

/-- What was done to a job. -/
def history (p : Pipeline ι) (j : ℕ) : List Work := (p.log.filter (·.1 = j)).map Prod.snd

/-- All jobs wait to be read. -/
def initial (submitted : List ℕ) : Pipeline ι where
  waiting := Function.update (fun _ ↦ []) .io submitted
  hand _ := none
  present j := decide (j ∈ submitted)
  log := []

/-- A turn of `t`. -/
inductive Step [DecidableEq ι] (t : Thread ι) (p : Pipeline ι) : Pipeline ι → Prop
  | take {j : ℕ} {rest : List ℕ} (hhand : p.hand t = none)
      (hwaiting : p.waiting t.source = j :: rest) :
      Step t p { p with
        waiting := Function.update p.waiting t.source rest
        hand := Function.update p.hand t (some j) }
  | perform {j : ℕ} {w : Work} (hhand : p.hand t = some j)
      (hdue : t.due (p.history j) = some w) :
      Step t p { p with log := p.log ++ [(j, w)] }
  | put {j : ℕ} (hhand : p.hand t = some j) (hpass : p.history j = t.passesOn) :
      Step t p { p with
        waiting := Function.update p.waiting t.target (p.waiting t.target ++ [j])
        hand := Function.update p.hand t none }
  | letGo {j : ℕ} (ht : t = .io) (hhand : p.hand t = some j)
      (hall : p.history j = [.reading, .parsing, .writing]) :
      Step t p { p with
        hand := Function.update p.hand t none
        present := Function.update p.present j false }

/-- The states that some order of turns leads to. -/
def Reaches [DecidableEq ι] (p p' : Pipeline ι) : Prop :=
  Relation.ReflTransGen (fun p p' ↦ ∃ t, Step t p p') p p'

/-- What a thread can do is determined by what it holds and what waits for it. -/
theorem Step.unique [DecidableEq ι] {t : Thread ι} {p p₁ p₂ : Pipeline ι} (h₁ : Step t p p₁)
    (h₂ : Step t p p₂) : p₁ = p₂ := by
  have hdue_passesOn : t.due t.passesOn = none := by cases t <;> rfl
  cases h₁ with
  | take hhand₁ hwaiting₁ =>
    cases h₂ with
    | take hhand₂ hwaiting₂ =>
      obtain ⟨rfl, rfl⟩ := List.cons.inj (hwaiting₁.symm.trans hwaiting₂)
      rfl
    | _ => simp_all
  | perform hhand₁ hdue₁ =>
    cases h₂ with
    | perform hhand₂ hdue₂ =>
      obtain rfl := Option.some.inj (hhand₁.symm.trans hhand₂)
      obtain rfl := Option.some.inj (hdue₁.symm.trans hdue₂)
      rfl
    | _ => simp_all [Thread.due]
  | put hhand₁ hpass₁ =>
    cases h₂ with
    | put hhand₂ hpass₂ =>
      obtain rfl := Option.some.inj (hhand₁.symm.trans hhand₂)
      rfl
    | _ => simp_all [Thread.passesOn]
  | letGo ht₁ hhand₁ hall₁ =>
    cases h₂ with
    | letGo ht₂ hhand₂ hall₂ =>
      obtain rfl := Option.some.inj (hhand₁.symm.trans hhand₂)
      rfl
    | _ => simp_all [Thread.due, Thread.passesOn]

/-! ### The order of reading -/

/-- The jobs that have not been read, the next one first. -/
def unread (p : Pipeline ι) : List ℕ :=
  ((p.hand .io).toList ++ p.waiting .io).filter fun j ↦ (p.history j).isEmpty

theorem history_append (p : Pipeline ι) (j a : ℕ) (w : Work) :
    { p with log := p.log ++ [(j, w)] }.history a =
      p.history a ++ if a = j then [w] else [] := by
  simp only [history, List.filter_append, List.map_append]
  split_ifs with h
  · simp [h]
  · simp [Ne.symm h]

/-- What is read is the first job that has not been read. -/
theorem Step.inOrder_append_unread [DecidableEq ι] {t : Thread ι} {p p' : Pipeline ι}
    (h : Step t p p') (hheld : ∀ j, p.hand .io = some j → j ∉ p.waiting .io) :
    inOrder .reading p'.log ++ p'.unread = inOrder .reading p.log ++ p.unread := by
  cases h with
  | @take j rest hhand hwaiting =>
    cases t with
    | worker i => rfl
    | io =>
      show _ ++ ((some j).toList ++ rest).filter _ = _ ++ ((p.hand .io).toList ++ _).filter _
      rw [hhand, show p.waiting .io = j :: rest from hwaiting]
      rfl
  | @perform j w hhand hdue =>
    have hlog : inOrder .reading (p.log ++ [(j, w)]) =
        inOrder .reading p.log ++ inOrder .reading [(j, w)] := by
      simp only [inOrder, List.filter_append, List.map_append]
    rcases Thread.due_eq_some hdue with ⟨rfl, hnil, rfl⟩ | ⟨hread, hw⟩
    · -- only the thread for input and output reads, and no other place has this job
      have hrest : ∀ a ∈ p.waiting .io,
          ({ p with log := p.log ++ [(j, Work.reading)] }.history a).isEmpty =
            (p.history a).isEmpty := fun a ha ↦ by
        have hne : a ≠ j := fun haj ↦ hheld j hhand (haj ▸ ha)
        rw [history_append, if_neg hne, List.append_nil]
      show inOrder .reading (p.log ++ [(j, .reading)]) ++
        ((p.hand .io).toList ++ p.waiting .io).filter _ = _
      rw [hlog, List.append_assoc, unread, hhand, Option.toList_some, List.singleton_append,
        List.filter_cons_of_neg (by rw [history_append]; simp), List.filter_congr hrest,
        List.filter_cons_of_pos (by rw [hnil]; rfl)]
      rfl
    · have hsame : ∀ a, ({ p with log := p.log ++ [(j, w)] }.history a).isEmpty =
          (p.history a).isEmpty := fun a ↦ by
        rw [history_append]
        split_ifs with haj
        · rw [haj, List.isEmpty_eq_false_iff.2 hread,
            List.isEmpty_eq_false_iff.2 (List.append_ne_nil_of_left_ne_nil hread _)]
        · rw [List.append_nil]
      show inOrder .reading (p.log ++ [(j, w)]) ++ ((p.hand .io).toList ++ p.waiting .io).filter _ =
        _
      rw [hlog, List.filter_congr fun a _ ↦ hsame a]
      simp [inOrder, hw, unread]
  | @put j hhand hpass =>
    have hread : (p.history j).isEmpty = false := by
      rw [hpass]
      cases t <;> rfl
    cases t with
    | worker i =>
      show _ ++ ((p.hand .io).toList ++ (p.waiting .io ++ [j])).filter
        (fun a ↦ (p.history a).isEmpty) = _ 
      rw [← List.append_assoc, List.filter_append, List.filter_cons_of_neg (by simp [hread]),
        List.filter_nil, List.append_nil]
      rfl
    | io =>
      show _ ++ ([] ++ p.waiting .io).filter (fun a ↦ (p.history a).isEmpty) = _ 
      rw [unread, hhand]
      simp [hread]
  | @letGo j ht hhand hall =>
    subst ht
    show _ ++ ([] ++ p.waiting .io).filter (fun a ↦ (p.history a).isEmpty) = _ 
    rw [unread, hhand]
    simp [hall]

end Pipeline

/-! ### The manager as a pipeline -/

/-- The job in the hands of a thread at this place of its loop. -/
def Pc.job : Pc → Option ℕ
  | .holding _ j => some j
  | _ => none

/-- The turns that bring a thread out of its loop, if the test at its head fails. -/
def Pc.turnsLeft : Pc → ℕ
  | .done => 0
  | .testLoop => 1
  | .holding .addIOJob _ | .holding .addJob _ | .holding .delete _ => 2
  | .holding .setModelEnd _ | .holding .setReadEnd _ | .holding .setWriteEnd _ => 3
  | .holding .doParsing _ | .holding .doReading _ | .holding .doWriting _ => 4
  | .holding .testStage _ | .holding .switchStage _ => 5
  | .getJob => 6

/-- The turns that a job at this place still needs of those who take and hold it. -/
def Place.turnsLeft {ι : Type} : Place ι → Stage → ℕ
  | .queued .io, .initStage => 15
  | .held .io .switchStage, .initStage => 14
  | .held .io .doReading, _ => 13
  | .held .io .setReadEnd, _ => 12
  | .held .io .addJob, _ => 11
  | .queued .work, _ => 10
  | .held (.worker _) .testStage, _ => 9
  | .held (.worker _) .doParsing, _ => 8
  | .held (.worker _) .setModelEnd, _ => 7
  | .held (.worker _) .addIOJob, _ => 6
  | .queued .io, _ => 5
  | .held .io .switchStage, _ => 4
  | .held .io .doWriting, _ => 3
  | .held .io .setWriteEnd, _ => 2
  | .held .io .delete, _ => 1
  | _, _ => 0

namespace MgrState

variable {ι : Type}

/-- The pipeline that the manager is, with `q` for the contents of the queues. -/
def pipeline (s : MgrState ι) (q : QueueId → List ℕ) : Pipeline ι where
  waiting := q
  hand t := (s.pc t).job
  present j := !(s.jobs j).deleted
  log := s.log

section Frame

variable {s s' : MgrState ι} {j : ℕ}

theorem frame_setJob {f : Job → Job} (h : s.setJob j f = some s') :
    s'.log = s.log ∧ s'.loopWorking = s.loopWorking ∧ s'.pc = s.pc := by
  obtain ⟨job, -, heq⟩ := Option.bind_eq_some_iff.1 h
  obtain rfl := Option.some.inj heq
  exact ⟨rfl, rfl, rfl⟩

theorem frame_perform {w : Work} (h : s.perform w j = some s') :
    s'.log = s.log ++ [(j, w)] ∧ s'.loopWorking = s.loopWorking := by
  obtain ⟨job, -, heq⟩ := Option.bind_eq_some_iff.1 h
  obtain rfl := Option.some.inj heq
  exact ⟨rfl, rfl⟩

theorem frame_addTo {k : QueueId} {b : Bool} (h : addTo k (some j) s = some (b, s')) :
    s'.loopWorking = s.loopWorking ∧ s'.pc = s.pc := by
  rw [addTo] at h
  split at h
  · obtain rfl := (Prod.ext_iff.1 (Option.some.inj h)).2
    exact ⟨rfl, rfl⟩
  · obtain ⟨t, -, h⟩ := Option.bind_eq_some_iff.1 h
    obtain ⟨s₁, hset, h⟩ := Option.bind_eq_some_iff.1 h
    obtain rfl := (Prod.ext_iff.1 (Option.some.inj h)).2
    exact (frame_setJob hset).2

end Frame

variable [DecidableEq ι]

/-- What `t` goes on to if it moves no job. -/
inductive Idles (s : MgrState ι) (q : QueueId → List ℕ) (t : Thread ι) : Pc → Prop
  | testLoop (hpc : s.pc t = .testLoop) :
      Idles s q t (if s.loopWorking then .getJob else .done)
  | getJob (hpc : s.pc t = .getJob) (hempty : q t.source = []) : Idles s q t .testLoop
  | done (hpc : s.pc t = .done) : Idles s q t .done

/-- A turn of `t` moved the job `j` to the place `P`. -/
structure Moves (submitted : List ℕ) (t : Thread ι) (s s' : MgrState ι) (q q' : QueueId → List ℕ)
    (place : ℕ → Place ι) (j : ℕ) (P : Place ι) : Prop where
  located : Located submitted s' q' (Function.update place j P)
  loopWorking_eq : s'.loopWorking = s.loopWorking
  pc_other : ∀ t' ≠ t, s'.pc t' = s.pc t'
  pc_turnsLeft : (s'.pc t).turnsLeft < (s.pc t).turnsLeft
  pc_ne : s'.pc t ≠ .done
  turnsLeft_eq : P.turnsLeft (s'.jobs j).stage + 1 = (place j).turnsLeft (s.jobs j).stage
  stage_other : ∀ a ≠ j, (s'.jobs a).stage = (s.jobs a).stage
  /-- For the pipeline this is a turn of `t`, or `t` still has the job and nothing happened. -/
  pipeline : (s'.pipeline q' = s.pipeline q ∧ (s'.pc t).job = some j) ∨
    Pipeline.Step t (s.pipeline q) (s'.pipeline q')

theorem step_testLoop {s : MgrState ι} {t : Thread ι} (hpc : s.pc t = .testLoop) :
    s.step (.thread t) = some (s.testLoop t) := by
  cases t with
  | worker i => simp only [step, dwLoopWork, hpc]
  | io => simp only [step, dwLoopIOWork, hpc]

/-- To go on in the loop is to change what is in the hand. -/
theorem pipeline_goto (s : MgrState ι) (q : QueueId → List ℕ) (t : Thread ι) (c : Pc) :
    (s.goto t c).pipeline q =
      { s.pipeline q with hand := Function.update (s.pipeline q).hand t c.job } := by
  have hhand : (fun t' ↦ (Function.update s.pc t c t').job) =
      Function.update (fun t' ↦ (s.pc t').job) t c.job :=
    funext fun t' ↦ Function.apply_update (fun _ ↦ Pc.job) s.pc t c t'
  show Pipeline.mk q (fun t' ↦ (Function.update s.pc t c t').job) _ _ = _
  rw [hhand]
  rfl

/-- A thread that goes on without a job is the same to the pipeline. -/
theorem pipeline_goto_of_idle {s : MgrState ι} {t : Thread ι} {c : Pc}
    (hc : c.job = (s.pc t).job) (q : QueueId → List ℕ) :
    (s.goto t c).pipeline q = s.pipeline q := by
  have hself : Function.update (s.pipeline q).hand t c.job = (s.pipeline q).hand := by
    rw [hc]
    exact Function.update_eq_self t _
  rw [pipeline_goto, hself]

end MgrState

namespace Located

theorem WorkedOn.refl {ι : Type} (s : MgrState ι) (j : ℕ) : WorkedOn s s j :=
  ⟨rfl, rfl, fun _ ↦ rfl, fun _ ↦ rfl, fun _ _ ↦ ⟨rfl, rfl⟩⟩

/-- The flag of the loops has nothing to do with the jobs. -/
theorem setLoopWorking {ι : Type} {submitted : List ℕ} {s : MgrState ι} {q : QueueId → List ℕ}
    {place : ℕ → Place ι} (h : Located submitted s q place) (b : Bool) :
    Located submitted { s with loopWorking := b } q place :=
  ⟨h.represents, h.mem_queue, h.holding_iff, h.deleted_iff, h.mem_submitted, h.fits⟩

/-- What is in the hands of a thread is there according to its place. -/
theorem place_of_hand {ι : Type} {submitted : List ℕ} {s : MgrState ι}
    {q : QueueId → List ℕ} {place : ℕ → Place ι} {t : Thread ι} (h : Located submitted s q place)
    {j : ℕ} (hj : (s.pipeline q).hand t = some j) : ∃ point, place j = .held t point := by
  have hjob : (s.pc t).job = some j := hj
  cases hpc : s.pc t with
  | holding point a =>
    rw [hpc] at hjob
    obtain rfl := Option.some.inj hjob
    exact ⟨point, (h.holding_iff t point a).1 hpc⟩
  | testLoop | getJob | done => exact absurd (hpc ▸ hjob) (by simp [Pc.job])

/-- What is in the hands of a thread does not wait. -/
theorem notMem_of_hand {ι : Type} {submitted : List ℕ} {s : MgrState ι}
    {q : QueueId → List ℕ} {place : ℕ → Place ι} {t : Thread ι} (h : Located submitted s q place)
    (j : ℕ) (hj : (s.pipeline q).hand t = some j) (k : QueueId) : j ∉ (s.pipeline q).waiting k := by
  obtain ⟨point, hplace⟩ := h.place_of_hand hj
  exact h.notMem_queue (by simp [hplace])

variable {ι : Type} [DecidableEq ι] {submitted : List ℕ} {s s' : MgrState ι}
  {q : QueueId → List ℕ} {place : ℕ → Place ι} {t : Thread ι} {point : Point} {j : ℕ}

/-- A turn that works on a job which stays in the hands of the thread. -/
theorem moves_keep (h : Located submitted s q place) (hpc : s.pc t = .holding point j)
    (point' : Point) (hwork : WorkedOn s s' j)
    (hfits : Fits (.held t point') (s'.jobs j).stage (s'.history j))
    (hloop : s'.loopWorking = s.loopWorking)
    (hturns : (Pc.holding point' j).turnsLeft < (Pc.holding point j).turnsLeft)
    (hleft : (Place.held t point').turnsLeft (s'.jobs j).stage + 1 =
      (Place.held t point).turnsLeft (s.jobs j).stage)
    (hlog : s'.log = s.log ∨
      ∃ w, t.due (s.history j) = some w ∧ s'.log = s.log ++ [(j, w)]) :
    s.Moves submitted t (s'.goto t (.holding point' j)) q q place j (.held t point') := by
  have hplace : place j = .held t point := (h.holding_iff t point j).1 hpc
  have hpresent : (fun a ↦ !(s'.jobs a).deleted) = fun a ↦ !(s.jobs a).deleted :=
    funext fun a ↦ by rw [hwork.deleted_eq]
  have hview : (s'.goto t (.holding point' j)).pipeline q =
      { s.pipeline q with log := s'.log } := by
    rw [MgrState.pipeline_goto_of_idle (by rw [hwork.pc_eq, hpc]; rfl)]
    show Pipeline.mk q (fun t ↦ (s'.pc t).job) (fun a ↦ !(s'.jobs a).deleted) s'.log = _
    rw [hpresent, hwork.pc_eq]
    rfl
  refine ⟨h.keep hpc point' hwork hfits, hloop, fun t' hne ↦ ?_, ?_, ?_, by rwa [hplace],
    fun a hne ↦ (hwork.other a hne).1, ?_⟩
  · show Function.update s'.pc t _ t' = _
    rw [Function.update_of_ne hne, hwork.pc_eq]
  · show (Function.update s'.pc t _ t).turnsLeft < _
    rwa [Function.update_self, hpc]
  · show Function.update s'.pc t _ t ≠ _
    rw [Function.update_self]
    simp
  · rw [hview]
    rcases hlog with hlog | ⟨w, hdue, hlog⟩
    · rw [hlog]
      refine Or.inl ⟨rfl, ?_⟩
      show (Function.update s'.pc t _ t).job = _
      rw [Function.update_self]
      rfl
    · rw [hlog]
      exact Or.inr (Pipeline.Step.perform (congrArg Pc.job hpc) hdue)

/-- A turn that takes the first job out of a queue. -/
theorem moves_take (h : Located submitted s q place) {rest : List ℕ} {e : Ends ℕ}
    (hq : q t.source = j :: rest)
    (he : Represents (fun a ↦ (s.jobs a).next t.source) e rest) (hpc : s.pc t = .getJob)
    (point : Point) (hfits : Fits (.held t point) (s.jobs j).stage (s.history j))
    (hturns : (Pc.holding point j).turnsLeft < 6)
    (hleft : (Place.held t point).turnsLeft (s.jobs j).stage + 1 =
      (Place.queued t.source : Place ι).turnsLeft (s.jobs j).stage) :
    s.Moves submitted t ((s.setEnds t.source e).goto t (.holding point j)) q
      (Function.update q t.source rest) place j (.held t point) := by
  have hplace : place j = .queued t.source :=
    (h.mem_queue _ j).1 (by rw [hq]; exact List.mem_cons_self)
  refine ⟨h.take hq he (fun p a ↦ by rw [hpc]; simp) point hfits, rfl, fun t' hne ↦ ?_, ?_, ?_,
    by rwa [hplace], fun _ _ ↦ rfl, Or.inr ?_⟩
  · exact Function.update_of_ne hne _ _
  · show (Function.update s.pc t _ t).turnsLeft < _
    rwa [Function.update_self, hpc]
  · show Function.update s.pc t _ t ≠ _
    rw [Function.update_self]
    simp
  · rw [MgrState.pipeline_goto]
    exact Pipeline.Step.take (p := s.pipeline q) (congrArg Pc.job hpc) hq

/-- A turn that puts a job into a queue. -/
theorem moves_put (h : Located submitted s q place) (hpc : s.pc t = .holding point j)
    (happ : Appended s s' q t.target j) (hloop : s'.loopWorking = s.loopWorking)
    (hfits : Fits (.queued t.target : Place ι) (s.jobs j).stage (s.history j))
    (hturns : 1 < (Pc.holding point j).turnsLeft)
    (hleft : (Place.queued t.target : Place ι).turnsLeft (s.jobs j).stage + 1 =
      (Place.held t point).turnsLeft (s.jobs j).stage)
    (hpass : s.history j = t.passesOn) :
    s.Moves submitted t (s'.goto t .testLoop) q
      (Function.update q t.target (q t.target ++ [j])) place j (.queued t.target) := by
  have hplace : place j = .held t point := (h.holding_iff t point j).1 hpc
  have hpresent : (fun a ↦ !(s'.jobs a).deleted) = fun a ↦ !(s.jobs a).deleted :=
    funext fun a ↦ by rw [happ.deleted_eq]
  refine ⟨h.put hpc happ (by simp) hfits, hloop, fun t' hne ↦ ?_, ?_, ?_, ?_,
    fun a _ ↦ happ.stage_eq a, Or.inr ?_⟩
  · show Function.update s'.pc t _ t' = _
    rw [Function.update_of_ne hne, happ.pc_eq]
  · show (Function.update s'.pc t _ t).turnsLeft < _
    rwa [Function.update_self, hpc]
  · show Function.update s'.pc t _ t ≠ _
    rw [Function.update_self]
    simp
  · rw [hplace, ← hleft]
    exact congrArg (fun stage ↦ (Place.queued t.target : Place ι).turnsLeft stage + 1)
      (happ.stage_eq j)
  · rw [MgrState.pipeline_goto]
    show Pipeline.Step t _ (Pipeline.mk _ (Function.update (fun t ↦ (s'.pc t).job) t none)
      (fun a ↦ !(s'.jobs a).deleted) s'.log)
    rw [hpresent, happ.pc_eq, happ.log_eq]
    exact Pipeline.Step.put (p := s.pipeline q) (congrArg Pc.job hpc) hpass

/-- The turn that deletes a job. -/
theorem moves_delete (h : Located submitted s q place) (hpc : s.pc .io = .holding .delete j)
    (hfits : Fits (.deleted : Place ι) (s.jobs j).stage (s.history j))
    (hall : s.history j = [.reading, .parsing, .writing]) :
    s.Moves submitted .io
      ({ s with jobs := Function.update s.jobs j { s.jobs j with deleted := true } }.goto .io
        .testLoop) q q place j .deleted := by
  have hplace : place j = .held .io .delete := (h.holding_iff .io .delete j).1 hpc
  have hpresent :
      (fun a ↦ !(Function.update s.jobs j { s.jobs j with deleted := true } a).deleted) =
        Function.update (fun a ↦ !(s.jobs a).deleted) j false :=
    funext fun a ↦ Function.apply_update (fun _ (job : Job) ↦ !job.deleted) s.jobs j _ a
  refine ⟨h.delete hpc (by simp) hfits, rfl, fun t' hne ↦ ?_, ?_, ?_, ?_, fun a hne ↦ ?_,
    Or.inr ?_⟩
  · exact Function.update_of_ne hne _ _
  · show (Function.update s.pc Thread.io Pc.testLoop Thread.io).turnsLeft < _
    rw [Function.update_self, hpc]
    exact Nat.one_lt_two
  · show Function.update s.pc Thread.io Pc.testLoop Thread.io ≠ _
    rw [Function.update_self]
    simp
  · rw [hplace]
    rfl
  · show (Function.update s.jobs j _ a).stage = _
    rw [Function.update_of_ne hne]
  · rw [MgrState.pipeline_goto]
    show Pipeline.Step .io _ (Pipeline.mk _ _
      (fun a ↦ !(Function.update s.jobs j { s.jobs j with deleted := true } a).deleted) _)
    rw [hpresent]
    exact Pipeline.Step.letGo (p := s.pipeline q) rfl (congrArg Pc.job hpc) hall

/-- A thread that wants a job takes the first one that waits for it, if there is one. -/
theorem getFrom_effect (h : Located submitted s q place) (hpc : s.pc t = .getJob) (point : Point)
    (hfits : ∀ stage history, Fits (.queued t.source : Place ι) stage history →
      Fits (.held t point) stage history ∧ (Place.held t point).turnsLeft stage + 1 =
        (Place.queued t.source : Place ι).turnsLeft stage)
    (hturns : ∀ j, (Pc.holding point j).turnsLeft < 6) :
    (s.getFrom t.source = some (none, s) ∧ s.Idles q t .testLoop) ∨
      ∃ j s', s.getFrom t.source = some (some j, s') ∧
        ∃ q' P, s.Moves submitted t (s'.goto t (.holding point j)) q q' place j P := by
  rcases h.getFrom t.source with ⟨hempty, hget⟩ | ⟨j, rest, e, hq, hget, he⟩
  · exact Or.inl ⟨hget, .getJob hpc hempty⟩
  · have hplace : place j = .queued t.source :=
      (h.mem_queue _ j).1 (by rw [hq]; exact List.mem_cons_self)
    have hj := h.fits j (h.mem_submitted j (by rw [hplace]; simp))
    rw [hplace] at hj
    obtain ⟨hfits, hleft⟩ := hfits _ _ hj
    exact Or.inr ⟨j, _, hget, _, _, h.moves_take hq he hpc point hfits (hturns j) hleft⟩

/-- The effect of a turn of `dwLoopWork`. -/
theorem dwLoopWork_effect (h : Located submitted s q place) (i : ι) :
    ∃ s', s.dwLoopWork i = some s' ∧
      ((∃ c, s.Idles q (.worker i) c ∧ s' = s.goto (.worker i) c) ∨
        ∃ q' j P, s.Moves submitted (.worker i) s' q q' place j P) := by
  rw [MgrState.dwLoopWork]
  cases hpc : s.pc (.worker i) with
  | testLoop => exact ⟨_, rfl, Or.inl ⟨_, .testLoop hpc, rfl⟩⟩
  | done =>
    refine ⟨_, rfl, Or.inl ⟨_, .done hpc, ?_⟩⟩
    rw [MgrState.goto, ← hpc, Function.update_eq_self]
  | getJob =>
    rcases h.getFrom_effect hpc .testStage (fun stage history hfits ↦ by
        cases hfits
        exact ⟨.testStage i, rfl⟩) (fun _ ↦ by simp [Pc.turnsLeft]) with
      ⟨hget, hidle⟩ | ⟨j, s', hget, q', P, hmove⟩
    · simp only [Thread.source] at hget
      simp only [MgrState.getJob, hget, Option.bind_eq_bind, Option.bind_some]
      exact ⟨_, rfl, Or.inl ⟨_, hidle, rfl⟩⟩
    · simp only [Thread.source] at hget
      simp only [MgrState.getJob, hget, Option.bind_eq_bind, Option.bind_some]
      exact ⟨_, rfl, Or.inr ⟨q', j, P, hmove⟩⟩
  | holding point j =>
    obtain ⟨hplace, hj, hfits⟩ := h.held hpc
    generalize hstage : (s.jobs j).stage = stage at hfits
    generalize hhistory : s.history j = history at hfits
    cases hfits with
    | testStage =>
      simp only [h.job_eq hj, Option.bind_eq_bind, Option.bind_some, hstage, if_true]
      refine ⟨_, rfl, Or.inr ⟨_, j, _, h.moves_keep hpc .doParsing (WorkedOn.refl s j) ?_ rfl
        (by simp [Pc.turnsLeft]) rfl (Or.inl rfl)⟩⟩
      rw [hstage, hhistory]
      exact Fits.doParsing i
    | doParsing =>
      obtain ⟨s', hs', hwork, hst, hhi⟩ := h.perform hj .parsing
      obtain ⟨hlog, hloop⟩ := MgrState.frame_perform hs'
      simp only [hs', Option.bind_eq_bind, Option.bind_some]
      refine ⟨_, rfl, Or.inr ⟨_, j, _, h.moves_keep hpc .setModelEnd hwork ?_ hloop
        (by simp [Pc.turnsLeft]) rfl (Or.inr ⟨.parsing, ?_, hlog⟩)⟩⟩
      · rw [hst, hhi, hstage, hhistory]
        exact Fits.setModelEnd i
      · rw [hhistory]
        rfl
    | setModelEnd =>
      obtain ⟨s', hs', hwork, hst, hhi⟩ := h.setStage hj .modelEndStage
      obtain ⟨hlog, hloop, -⟩ := MgrState.frame_setJob hs'
      simp only [hs', Option.bind_eq_bind, Option.bind_some]
      refine ⟨_, rfl, Or.inr ⟨_, j, _, h.moves_keep hpc .addIOJob hwork ?_ hloop
        (by simp [Pc.turnsLeft]) rfl (Or.inl hlog)⟩⟩
      rw [hst, hhi, hhistory]
      exact Fits.addIOJob i
    | addIOJob =>
      obtain ⟨s', hs', happ⟩ := h.addTo (k := .io) (by rw [hplace]; simp)
      simp only [MgrState.addIOJob, hs', Option.bind_eq_bind, Option.bind_some]
      refine ⟨_, rfl, Or.inr ⟨_, j, _, h.moves_put hpc happ (MgrState.frame_addTo hs').1 ?_
        (by simp [Pc.turnsLeft]) ?_ hhistory⟩⟩
      · rw [hstage, hhistory]
        exact Fits.parsed
      · rw [hstage]
        rfl

/-- The effect of a turn of `dwLoopIOWork`. -/
theorem dwLoopIOWork_effect (h : Located submitted s q place) :
    ∃ s', s.dwLoopIOWork = some s' ∧
      ((∃ c, s.Idles q .io c ∧ s' = s.goto .io c) ∨
        ∃ q' j P, s.Moves submitted .io s' q q' place j P) := by
  rw [MgrState.dwLoopIOWork]
  cases hpc : s.pc .io with
  | testLoop => exact ⟨_, rfl, Or.inl ⟨_, .testLoop hpc, rfl⟩⟩
  | done =>
    refine ⟨_, rfl, Or.inl ⟨_, .done hpc, ?_⟩⟩
    rw [MgrState.goto, ← hpc, Function.update_eq_self]
  | getJob =>
    rcases h.getFrom_effect hpc .switchStage (fun stage history hfits ↦ by
        cases hfits
        · exact ⟨.toRead, rfl⟩
        · exact ⟨.toWrite, rfl⟩) (fun _ ↦ by simp [Pc.turnsLeft]) with
      ⟨hget, hidle⟩ | ⟨j, s', hget, q', P, hmove⟩
    · simp only [Thread.source] at hget
      simp only [MgrState.getIOJob, hget, Option.bind_eq_bind, Option.bind_some]
      exact ⟨_, rfl, Or.inl ⟨_, hidle, rfl⟩⟩
    · simp only [Thread.source] at hget
      simp only [MgrState.getIOJob, hget, Option.bind_eq_bind, Option.bind_some]
      exact ⟨_, rfl, Or.inr ⟨q', j, P, hmove⟩⟩
  | holding point j =>
    obtain ⟨hplace, hj, hfits⟩ := h.held hpc
    generalize hstage : (s.jobs j).stage = stage at hfits
    generalize hhistory : s.history j = history at hfits
    cases hfits with
    | toRead =>
      simp only [h.job_eq hj, Option.bind_eq_bind, Option.bind_some, hstage]
      refine ⟨_, rfl, Or.inr ⟨_, j, _, h.moves_keep hpc .doReading (WorkedOn.refl s j) ?_ rfl
        (by simp [Pc.turnsLeft]) (by rw [hstage]; rfl) (Or.inl rfl)⟩⟩
      rw [hstage, hhistory]
      exact Fits.doReading
    | doReading =>
      obtain ⟨s', hs', hwork, hst, hhi⟩ := h.perform hj .reading
      obtain ⟨hlog, hloop⟩ := MgrState.frame_perform hs'
      simp only [hs', Option.bind_eq_bind, Option.bind_some]
      refine ⟨_, rfl, Or.inr ⟨_, j, _, h.moves_keep hpc .setReadEnd hwork ?_ hloop
        (by simp [Pc.turnsLeft]) rfl (Or.inr ⟨.reading, ?_, hlog⟩)⟩⟩
      · rw [hst, hhi, hstage, hhistory]
        exact Fits.setReadEnd
      · rw [hhistory]
        rfl
    | setReadEnd =>
      obtain ⟨s', hs', hwork, hst, hhi⟩ := h.setStage hj .readEndStage
      obtain ⟨hlog, hloop, -⟩ := MgrState.frame_setJob hs'
      simp only [hs', Option.bind_eq_bind, Option.bind_some]
      refine ⟨_, rfl, Or.inr ⟨_, j, _, h.moves_keep hpc .addJob hwork ?_ hloop
        (by simp [Pc.turnsLeft]) rfl (Or.inl hlog)⟩⟩
      rw [hst, hhi, hhistory]
      exact Fits.addJob
    | addJob =>
      obtain ⟨s', hs', happ⟩ := h.addTo (k := .work) (by rw [hplace]; simp)
      simp only [MgrState.addJob, hs', Option.bind_eq_bind, Option.bind_some]
      refine ⟨_, rfl, Or.inr ⟨_, j, _, h.moves_put hpc happ (MgrState.frame_addTo hs').1 ?_
        (by simp [Pc.turnsLeft]) ?_ hhistory⟩⟩
      · rw [hstage, hhistory]
        exact Fits.read
      · rw [hstage]
        rfl
    | toWrite =>
      simp only [h.job_eq hj, Option.bind_eq_bind, Option.bind_some, hstage]
      refine ⟨_, rfl, Or.inr ⟨_, j, _, h.moves_keep hpc .doWriting (WorkedOn.refl s j) ?_ rfl
        (by simp [Pc.turnsLeft]) (by rw [hstage]; rfl) (Or.inl rfl)⟩⟩
      rw [hstage, hhistory]
      exact Fits.doWriting
    | doWriting =>
      obtain ⟨s', hs', hwork, hst, hhi⟩ := h.perform hj .writing
      obtain ⟨hlog, hloop⟩ := MgrState.frame_perform hs'
      simp only [hs', Option.bind_eq_bind, Option.bind_some]
      refine ⟨_, rfl, Or.inr ⟨_, j, _, h.moves_keep hpc .setWriteEnd hwork ?_ hloop
        (by simp [Pc.turnsLeft]) rfl (Or.inr ⟨.writing, ?_, hlog⟩)⟩⟩
      · rw [hst, hhi, hstage, hhistory]
        exact Fits.setWriteEnd
      · rw [hhistory]
        rfl
    | setWriteEnd =>
      obtain ⟨s', hs', hwork, hst, hhi⟩ := h.setStage hj .writeEndStage
      obtain ⟨hlog, hloop, -⟩ := MgrState.frame_setJob hs'
      simp only [hs', Option.bind_eq_bind, Option.bind_some]
      refine ⟨_, rfl, Or.inr ⟨_, j, _, h.moves_keep hpc .delete hwork ?_ hloop
        (by simp [Pc.turnsLeft]) rfl (Or.inl hlog)⟩⟩
      rw [hst, hhi, hhistory]
      exact Fits.delete
    | delete =>
      simp only [h.setJob_eq hj, Option.bind_eq_bind, Option.bind_some]
      refine ⟨_, rfl, Or.inr ⟨_, j, _, h.moves_delete hpc ?_ hhistory⟩⟩
      rw [hstage, hhistory]
      exact Fits.deleted

/-- **The effect of a turn of any thread.** -/
theorem effect (h : Located submitted s q place) (t : Thread ι) :
    ∃ s', s.step (.thread t) = some s' ∧
      ((∃ c, s.Idles q t c ∧ s' = s.goto t c) ∨
        ∃ q' j P, s.Moves submitted t s' q q' place j P) :=
  match t with
  | .worker i => h.dwLoopWork_effect i
  | .io => h.dwLoopIOWork_effect

theorem of_idles (h : Located submitted s q place) {c : Pc} (hidle : s.Idles q t c) :
    Located submitted (s.goto t c) q place := by
  cases hidle with
  | testLoop hpc => exact h.testLoop hpc
  | getJob hpc => exact h.idle (by simp [hpc]) (by simp)
  | done hpc => exact h.idle (by simp [hpc]) (by simp)

/-- The pipeline does not see a thread that goes on in its loop. -/
theorem pipeline_of_idles {c : Pc} (hidle : s.Idles q t c) :
    (s.goto t c).pipeline q = s.pipeline q := by
  refine MgrState.pipeline_goto_of_idle ?_ q
  cases hidle with
  | testLoop hpc =>
    rw [hpc]
    split_ifs <;> rfl
  | getJob hpc => rw [hpc]; rfl
  | done hpc => rw [hpc]

/-- **One turn is at most one turn of the pipeline.** -/
theorem step_pipeline (h : Located submitted s q place) {turn : MgrState.Turn ι}
    (hstep : s.step turn = some s') :
    ∃ q' place', Located submitted s' q' place' ∧ (s'.pipeline q' = s.pipeline q ∨
      ∃ t, Pipeline.Step t (s.pipeline q) (s'.pipeline q')) := by
  cases turn with
  | setLoopWorking =>
    obtain rfl := Option.some.inj hstep
    exact ⟨q, place, h.setLoopWorking _, Or.inl rfl⟩
  | thread t =>
    obtain ⟨s₁, hs₁, heffect⟩ := h.effect t
    obtain rfl := Option.some.inj (hs₁.symm.trans hstep)
    rcases heffect with ⟨c, hidle, rfl⟩ | ⟨q', j, P, hmove⟩
    · exact ⟨q, place, h.of_idles hidle, Or.inl (pipeline_of_idles hidle)⟩
    · exact ⟨q', _, hmove.located, hmove.pipeline.imp And.left fun hp ↦ ⟨t, hp⟩⟩

end Located

/-! ### The first state -/

section Start

variable {ι : Type}

/-- The threads are in their loops. -/
structure Running (s : MgrState ι) : Prop where
  loopWorking_eq : s.loopWorking = true
  pc_ne : ∀ t, s.pc t ≠ .done

/-- What `start` leaves: the threads have done nothing. -/
structure Started (s : MgrState ι) : Prop where
  log_eq : s.log = []
  loopWorking_eq : s.loopWorking = true
  pc_eq : ∀ t, s.pc t = .testLoop

theorem Started.running {s : MgrState ι} (hs : Started s) : Running s :=
  ⟨hs.loopWorking_eq, fun t ↦ by rw [hs.pc_eq]; simp⟩

variable [DecidableEq ι]

/-- The jobs wait in the order in which they are submitted. -/
theorem Located.foldlM_submit_queue (l : List ℕ) {submitted : List ℕ} {s : MgrState ι}
    {q : QueueId → List ℕ} {place : ℕ → Place ι} (h : Located submitted s q place)
    (hs : Started s) (hnodup : (submitted ++ l).Nodup) :
    ∃ s' place', l.foldlM (fun s j ↦ ((MgrState.construct s j).addIOJob (some j)).map Prod.snd) s =
      some s' ∧ Started s' ∧
      Located (submitted ++ l) s' (Function.update q .io (q .io ++ l)) place' := by
  induction l generalizing submitted s q place with
  | nil => exact ⟨s, place, rfl, hs, by simpa using h⟩
  | cons j l ih =>
    have hj : j ∉ submitted := fun hmem ↦
      List.disjoint_of_nodup_append hnodup hmem List.mem_cons_self
    obtain ⟨s₁, hs₁, hlog, h₁⟩ := h.submit hs.log_eq hj
    obtain ⟨hloop, hpc⟩ := MgrState.frame_addTo hs₁
    rw [List.append_cons] at hnodup ⊢
    obtain ⟨s', place', hs', hstarted, hlocated⟩ := ih h₁
      ⟨hlog, hloop.trans hs.loopWorking_eq, fun t ↦ (congrFun hpc t).trans (hs.pc_eq t)⟩ hnodup
    refine ⟨s', place', by rw [List.foldlM_cons, hs₁]; exact hs', hstarted, ?_⟩
    rw [Function.update_self, Function.update_idem] at hlocated
    rwa [List.append_cons (q .io)]

theorem exists_start (raw : ℕ → Job) {submitted : List ℕ} (hnodup : submitted.Nodup) :
    ∃ (s₀ : MgrState ι) (place : ℕ → Place ι), MgrState.start raw submitted = some s₀ ∧
      Started s₀ ∧
      Located submitted s₀ (Function.update (fun _ ↦ []) .io submitted) place := by
  have hblank : Located [] (MgrState.blank raw : MgrState ι) (fun _ ↦ []) fun _ ↦ .deleted :=
    ⟨fun _ ↦ Represents.empty _, by simp, by simp [MgrState.blank], by simp [MgrState.blank],
      by simp, by simp⟩
  obtain ⟨s₀, place, hs₀, hstarted, h⟩ :=
    hblank.foldlM_submit_queue submitted ⟨rfl, rfl, fun _ ↦ rfl⟩ hnodup
  exact ⟨s₀, place, hs₀, hstarted, h⟩

/-- At first all jobs wait to be read. -/
theorem Started.pipeline_eq {submitted : List ℕ} {s : MgrState ι} {place : ℕ → Place ι}
    (hs : Started s)
    (h : Located submitted s (Function.update (fun _ ↦ []) .io submitted) place) :
    s.pipeline (Function.update (fun _ ↦ []) .io submitted) = Pipeline.initial submitted := by
  have hhand : (fun t ↦ (s.pc t).job) = fun _ ↦ none := funext fun t ↦ by rw [hs.pc_eq]; rfl
  have hpresent : (fun j ↦ !(s.jobs j).deleted) = fun j ↦ decide (j ∈ submitted) := by
    funext j
    have hmem : j ∈ submitted ↔ place j = .queued .io := by
      rw [← h.mem_queue, Function.update_self]
    by_cases hj : j ∈ submitted
    · have hnot : ¬ (s.jobs j).deleted = true := fun hd ↦ by
        rw [h.deleted_iff, hmem.1 hj] at hd
        exact absurd hd (by simp)
      simp [hj, hnot]
    · have hd : (s.jobs j).deleted = true := by
        rw [h.deleted_iff]
        by_contra hne
        exact hj (h.mem_submitted j hne)
      simp [hj, hd]
  show Pipeline.mk _ (fun t ↦ (s.pc t).job) (fun j ↦ !(s.jobs j).deleted) s.log = _
  rw [hhand, hpresent, hs.log_eq]
  rfl

end Start

/-! ### The same runs -/

section Runs

variable {ι : Type} [DecidableEq ι] {submitted : List ℕ} {s : MgrState ι} {q : QueueId → List ℕ}
  {place : ℕ → Place ι} {t : Thread ι}

/-- What the manager does after it was started, the pipeline does. -/
theorem Located.reaches_pipeline (h : Located submitted s q place) {s' : MgrState ι}
    (hs' : s.Reaches s') :
    ∃ q' place', Located submitted s' q' place' ∧ (s.pipeline q).Reaches (s'.pipeline q') := by
  induction hs' with
  | refl => exact ⟨q, place, h, Relation.ReflTransGen.refl⟩
  | tail _ hstep ih =>
    obtain ⟨turn, hturn⟩ := hstep
    obtain ⟨q₁, place₁, h₁, hreach⟩ := ih
    obtain ⟨q₂, place₂, h₂, hsame | ht⟩ := h₁.step_pipeline hturn
    · exact ⟨q₂, place₂, h₂, hsame ▸ hreach⟩
    · exact ⟨q₂, place₂, h₂, hreach.tail ht⟩

theorem MgrState.Moves.running {s' : MgrState ι} {q' : QueueId → List ℕ} {j : ℕ} {P : Place ι}
    (hmove : s.Moves submitted t s' q q' place j P) (hs : Running s) : Running s' := by
  refine ⟨hmove.loopWorking_eq.trans hs.loopWorking_eq, fun t' ↦ ?_⟩
  rcases eq_or_ne t' t with rfl | hne
  · exact hmove.pc_ne
  · rw [hmove.pc_other t' hne]
    exact hs.pc_ne t'

theorem MgrState.Idles.running {c : Pc} (hidle : s.Idles q t c) (hs : Running s) :
    Running (s.goto t c) := by
  refine ⟨hs.loopWorking_eq, fun t' ↦ ?_⟩
  show Function.update s.pc t c t' ≠ _
  rcases eq_or_ne t' t with rfl | hne
  · rw [Function.update_self]
    cases hidle with
    | testLoop hpc => simp [hs.loopWorking_eq]
    | getJob hpc => simp
    | done hpc => exact absurd hpc (hs.pc_ne t')
  · rw [Function.update_of_ne hne]
    exact hs.pc_ne t'

/-- A thread that is past the test at the head of its loop does what the pipeline lets it do: every
turn of it brings it nearer. -/
theorem Located.exists_reaches (n : ℕ) (h : Located submitted s q place) (hs : Running s)
    (hpc : s.pc t ≠ .testLoop) (hn : (s.pc t).turnsLeft ≤ n) {p : Pipeline ι}
    (hp : Pipeline.Step t (s.pipeline q) p) :
    ∃ s' q' place', s.Reaches s' ∧ Located submitted s' q' place' ∧ Running s' ∧
      s'.pipeline q' = p := by
  induction n generalizing s q place with
  | zero =>
    cases hc : s.pc t with
    | done => exact absurd hc (hs.pc_ne t)
    | testLoop => exact absurd hc hpc
    | getJob => simp [hc, Pc.turnsLeft] at hn
    | holding point j => cases point <;> simp [hc, Pc.turnsLeft] at hn
  | succ n ih =>
    obtain ⟨s₁, hs₁, heffect⟩ := h.effect t
    rcases heffect with ⟨c, hidle, rfl⟩ | ⟨q', j, P, hmove⟩
    · -- no job waits for a thread that idles
      cases hidle with
      | testLoop hc => exact absurd hc hpc
      | done hc => exact absurd hc (hs.pc_ne t)
      | getJob hc hempty =>
        cases hp with
        | take hhand hwaiting => exact absurd (hempty.symm.trans hwaiting) (by simp)
        | perform hhand | put hhand | letGo _ hhand =>
          exact absurd ((congrArg Pc.job hc).symm.trans hhand) (by simp [Pc.job])
    · have hstep : s.Reaches s₁ := Relation.ReflTransGen.single ⟨.thread t, hs₁⟩
      rcases hmove.pipeline with ⟨hsame, hjob⟩ | hstep'
      · have hpc₁ : s₁.pc t ≠ .testLoop := fun hc ↦ by simp [hc, Pc.job] at hjob
        have hlt := hmove.pc_turnsLeft
        obtain ⟨s', q₂, place₂, hreach, hs'⟩ :=
          ih hmove.located (hmove.running hs) hpc₁ (by omega) (hsame ▸ hp)
        exact ⟨s', q₂, place₂, hstep.trans hreach, hs'⟩
      · exact ⟨s₁, q', _, hstep, hmove.located, hmove.running hs, hstep'.unique hp⟩

/-- What the pipeline lets a thread do, the thread can do. -/
theorem Located.exists_reaches_step (h : Located submitted s q place) (hs : Running s)
    {p : Pipeline ι} (hp : Pipeline.Step t (s.pipeline q) p) :
    ∃ s' q' place', s.Reaches s' ∧ Located submitted s' q' place' ∧ Running s' ∧
      s'.pipeline q' = p := by
  by_cases hpc : s.pc t = .testLoop
  · have hidle := MgrState.Idles.testLoop (q := q) hpc
    have hgoto : (s.goto t (if s.loopWorking then .getJob else .done)).pc t = .getJob := by
      show Function.update s.pc t _ t = _
      rw [Function.update_self, hs.loopWorking_eq]
      rfl
    obtain ⟨s', q', place', hreach, hs'⟩ := (h.of_idles hidle).exists_reaches 6 (hidle.running hs)
      (by rw [hgoto]; simp) (by rw [hgoto]; rfl) (pipeline_of_idles hidle ▸ hp)
    exact ⟨s', q', place', (Relation.ReflTransGen.single
      ⟨.thread t, MgrState.step_testLoop hpc⟩).trans hreach, hs'⟩
  · exact h.exists_reaches _ hs hpc le_rfl hp

/-- What the pipeline does, the manager does in some run in which the loops go on. -/
theorem Located.exists_reaches_of_reaches (h : Located submitted s q place) (hs : Running s)
    {p : Pipeline ι} (hp : (s.pipeline q).Reaches p) :
    ∃ s' q' place', s.Reaches s' ∧ Located submitted s' q' place' ∧ Running s' ∧
      s'.pipeline q' = p := by
  induction hp with
  | refl => exact ⟨s, q, place, Relation.ReflTransGen.refl, h, hs, rfl⟩
  | tail _ hstep ih =>
    obtain ⟨t, ht⟩ := hstep
    obtain ⟨s₁, q₁, place₁, hreach₁, h₁, hs₁, rfl⟩ := ih
    obtain ⟨s₂, q₂, place₂, hreach₂, hs₂⟩ := h₁.exists_reaches_step hs₁ ht
    exact ⟨s₂, q₂, place₂, hreach₁.trans hreach₂, hs₂⟩

/-- **The job manager is the pipeline.** The states that some interleaving of its threads reaches
are, without addresses, links and loops, the states that the pipeline reaches: the same jobs wait in
the same order, are in the same hands, and the same was done. -/
theorem reaches_iff_pipeline_reaches (raw : ℕ → Job) (submitted : List ℕ)
    (hnodup : submitted.Nodup) :
    ∃ s₀ : MgrState ι, MgrState.start raw submitted = some s₀ ∧ ∀ p : Pipeline ι,
      (∃ s, s₀.Reaches s ∧
        (∀ k, Represents (fun j ↦ (s.jobs j).next k) (s.queue k) (p.waiting k)) ∧
        s.pipeline p.waiting = p) ↔
      (Pipeline.initial submitted).Reaches p := by
  obtain ⟨s₀, place, hs₀, hstarted, h⟩ := exists_start (ι := ι) raw hnodup
  refine ⟨s₀, hs₀, fun p ↦ ⟨?_, fun hp ↦ ?_⟩⟩
  · rintro ⟨s, hreach, hrep, hp⟩
    obtain ⟨q', place', h', hreach'⟩ := h.reaches_pipeline hreach
    have hq : q' = p.waiting := funext fun k ↦ (h'.represents k).unique (hrep k)
    rwa [hstarted.pipeline_eq h, hq, hp] at hreach'
  · rw [← hstarted.pipeline_eq h] at hp
    obtain ⟨s, q', place', hreach, h', -, rfl⟩ := h.exists_reaches_of_reaches hstarted.running hp
    exact ⟨s, hreach, h'.represents, rfl⟩

theorem reaches_iff_pipeline_reaches_two : [0, 1].Nodup ∧
    ∃ s₀ : MgrState (Fin 2),
      MgrState.start (fun _ ↦ ⟨.writeEndStage, fun _ ↦ some 7, false⟩) [0, 1] = some s₀ ∧
      ∀ p : Pipeline (Fin 2),
        (∃ s, s₀.Reaches s ∧
          (∀ k, Represents (fun j ↦ (s.jobs j).next k) (s.queue k) (p.waiting k)) ∧
          s.pipeline p.waiting = p) ↔
        (Pipeline.initial [0, 1]).Reaches p :=
  ⟨by decide, reaches_iff_pipeline_reaches _ [0, 1] (by decide)⟩

/-- One turn leaves the order of what was read and what is still to be read as it is. -/
theorem Located.inOrder_append_unread (h : Located submitted s q place) {s' : MgrState ι}
    (hs' : s.Reaches s') :
    ∃ q' place', Located submitted s' q' place' ∧
      inOrder .reading s'.log ++ (s'.pipeline q').unread =
        inOrder .reading s.log ++ (s.pipeline q).unread := by
  induction hs' with
  | refl => exact ⟨q, place, h, rfl⟩
  | tail _ hstep ih =>
    obtain ⟨turn, hturn⟩ := hstep
    obtain ⟨q₁, place₁, h₁, hsame₁⟩ := ih
    obtain ⟨q₂, place₂, h₂, hsame | ⟨t, ht⟩⟩ := h₁.step_pipeline hturn
    · refine ⟨q₂, place₂, h₂, Eq.trans ?_ hsame₁⟩
      rw [hsame]
      exact congrArg (inOrder .reading · ++ _) (congrArg Pipeline.log hsame)
    · exact ⟨q₂, place₂, h₂,
        (ht.inOrder_append_unread fun j hj ↦ h₁.notMem_of_hand j hj .io).trans hsame₁⟩

/-- **The jobs are read in the order in which they were submitted**, in every interleaving: what was
read, then the job that is about to be read, then the jobs in the queue that were not read, that is
the list of the submitted jobs at all times. -/
theorem reaches_inOrder_reading (raw : ℕ → Job) (submitted : List ℕ)
    (hnodup : submitted.Nodup) :
    ∃ s₀ : MgrState ι, MgrState.start raw submitted = some s₀ ∧ ∀ s, s₀.Reaches s →
      ∃ q, (∀ k, Represents (fun j ↦ (s.jobs j).next k) (s.queue k) (q k)) ∧
        inOrder .reading s.log ++ (s.pipeline q).unread = submitted := by
  obtain ⟨s₀, place, hs₀, hstarted, h⟩ := exists_start (ι := ι) raw hnodup
  refine ⟨s₀, hs₀, fun s hs ↦ ?_⟩
  obtain ⟨q, place', h', hsame⟩ := h.inOrder_append_unread hs
  refine ⟨q, h'.represents, hsame.trans ?_⟩
  rw [hstarted.pipeline_eq h, hstarted.log_eq]
  simp [inOrder, Pipeline.unread, Pipeline.initial, Pipeline.history]

theorem reaches_inOrder_reading_two : [0, 1].Nodup ∧
    ∃ s₀ : MgrState (Fin 2),
      MgrState.start (fun _ ↦ ⟨.writeEndStage, fun _ ↦ some 7, false⟩) [0, 1] = some s₀ ∧
      ∀ s, s₀.Reaches s →
        ∃ q, (∀ k, Represents (fun j ↦ (s.jobs j).next k) (s.queue k) (q k)) ∧
          inOrder .reading s.log ++ (s.pipeline q).unread = [0, 1] :=
  ⟨by decide, reaches_inOrder_reading _ [0, 1] (by decide)⟩

end Runs

end CArchitecture
