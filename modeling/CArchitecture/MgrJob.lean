import CArchitecture.Library.LinkedQueue
import Mathlib.Data.List.Infix
import Mathlib.Logic.Relation

/-!
# The job manager

Every test case of a run is a job. One thread reads and writes jobs (`dwLoopIOWork`), any number of
threads parse them (`dwLoopWork`), and the jobs travel between them in two queues that are linked
**through the jobs themselves**. At the end the thread that wrote a job deletes it.

The threads are interleaved at the granularity of their accesses to shared data: each critical
section is one step, and so is each access to a job outside of them. A step that touches a job that
is not there any more, or follows a `NULL` pointer, has no result; so that **every step from a
reachable state has a result** is part of what has to be shown.

* `Place` says where a job can be, and `Fits` which stage and which history it has there. That each
  job is at exactly one place, with what fits there, is the invariant `Located`.
* Every step moves at most one job, and `Located.move` says once what has to be checked for it.
-/

namespace CArchitecture

open LinkedQueue

/-- The stage of a job. -/
inductive Stage
  | initStage
  | readEndStage
  | modelEndStage
  | writeEndStage
  deriving DecidableEq

/-- The two queues: of jobs to be parsed, and of jobs to be read or written. -/
inductive QueueId
  | work
  | io
  deriving DecidableEq

/-- A job, as far as the manager uses it. -/
structure Job where
  stage : Stage
  /-- The links `m_pNext_test` and `m_pIONext_test`. -/
  next : QueueId → Option ℕ
  /-- The memory does not hold a job here, or does not any more. -/
  deleted : Bool

/-- The threads: one for input and output, and those that parse. -/
inductive Thread (ι : Type)
  | worker (i : ι)
  | io
  deriving DecidableEq

/-- What a thread is about to do with the job it holds. -/
inductive Point
  | testStage
  | doParsing
  | setModelEnd
  | addIOJob
  | switchStage
  | doReading
  | setReadEnd
  | addJob
  | doWriting
  | setWriteEnd
  | delete
  deriving DecidableEq

/-- Where a thread is in its loop. -/
inductive Pc
  | testLoop
  | getJob
  | done
  | holding (point : Point) (job : ℕ)
  deriving DecidableEq

/-- What is done to the contents of a job. -/
inductive Work
  | reading
  | parsing
  | writing
  deriving DecidableEq

/-- The state of the manager and its threads. Jobs are known by their addresses. -/
structure MgrState (ι : Type) where
  jobs : ℕ → Job
  /-- `mpHead`, `mpTail` and `mpIOHead`, `mpIOTail`. -/
  queue : QueueId → Ends ℕ
  loopWorking : Bool
  pc : Thread ι → Pc
  /-- What was done to which job, in order. This is not in the source. -/
  log : List (ℕ × Work)

namespace MgrState

variable {ι : Type} [DecidableEq ι]

/-! ### Steps -/

/-- Access a job. -/
def job (s : MgrState ι) (j : ℕ) : Option Job :=
  if (s.jobs j).deleted then none else some (s.jobs j)

/-- Change a job. -/
def setJob (s : MgrState ι) (j : ℕ) (f : Job → Job) : Option (MgrState ι) := do
  let job ← s.job j
  some { s with jobs := Function.update s.jobs j (f job) }

/-- A job with another stage. -/
def setStage (stage : Stage) (job : Job) : Job := { job with stage := stage }

/-- A job with another link. -/
def setNext (k : QueueId) (j : ℕ) (job : Job) : Job :=
  { job with next := Function.update job.next k (some j) }

/-- Move the pointers of a queue. -/
def setEnds (s : MgrState ι) (k : QueueId) (q : Ends ℕ) : MgrState ι :=
  { s with queue := Function.update s.queue k q }

/-- The critical section of `addJob` and `addIOJob`. -/
def addTo (k : QueueId) (addjob : Option ℕ) (s : MgrState ι) : Option (Bool × MgrState ι) :=
  match addjob with
  | none => some (false, s)
  | some j =>
    match (s.queue k).head with
    | none => some (true, s.setEnds k ⟨some j, some j⟩)
    | some h => do
      let t ← (s.queue k).tail
      let s ← s.setJob t (setNext k j)
      some (true, s.setEnds k ⟨some h, some j⟩)

/-- `addJob`. -/
def addJob (addjob : Option ℕ) (s : MgrState ι) : Option (Bool × MgrState ι) := addTo .work addjob s

/-- `addIOJob`. -/
def addIOJob (addIOJob : Option ℕ) (s : MgrState ι) : Option (Bool × MgrState ι) :=
  addTo .io addIOJob s

/-- The critical section of `getJob` and `getIOJob`. -/
def getFrom (k : QueueId) (s : MgrState ι) : Option (Option ℕ × MgrState ι) :=
  match (s.queue k).tail with
  | none => some (none, s)
  | some t =>
    if (s.queue k).head = (s.queue k).tail then
      some ((s.queue k).head, s.setEnds k ⟨none, none⟩)
    else do
      let h ← (s.queue k).head
      let job ← s.job h
      some (some h, s.setEnds k ⟨job.next k, some t⟩)

/-- `getJob`. -/
def getJob (s : MgrState ι) : Option (Option ℕ × MgrState ι) := getFrom .work s

/-- `getIOJob`. -/
def getIOJob (s : MgrState ι) : Option (Option ℕ × MgrState ι) := getFrom .io s

/-- Let a thread go on at another place. -/
def goto (s : MgrState ι) (t : Thread ι) (pc : Pc) : MgrState ι :=
  { s with pc := Function.update s.pc t pc }

/-- Read, parse or write a job: this returns, and touches nothing but the job. -/
def perform (s : MgrState ι) (w : Work) (j : ℕ) : Option (MgrState ι) := do
  let _ ← s.job j
  some { s with log := s.log ++ [(j, w)] }

/-- The test at the head of both loops. -/
def testLoop (s : MgrState ι) (t : Thread ι) : MgrState ι :=
  s.goto t (if s.loopWorking then .getJob else .done)

/-- One step of `dwLoopWork`. At a point of the other loop there is nothing to do. -/
def dwLoopWork (i : ι) (s : MgrState ι) : Option (MgrState ι) :=
  match s.pc (.worker i) with
  | .testLoop => some (s.testLoop (.worker i))
  | .getJob => do
    let (dealJob, s) ← s.getJob
    match dealJob with
    | some j => some (s.goto (.worker i) (.holding .testStage j))
    | none => some (s.goto (.worker i) .testLoop)
  | .holding .testStage j => do
    let job ← s.job j
    if job.stage = .readEndStage then some (s.goto (.worker i) (.holding .doParsing j))
    else some (s.goto (.worker i) .testLoop)
  | .holding .doParsing j => do
    let s ← s.perform .parsing j
    some (s.goto (.worker i) (.holding .setModelEnd j))
  | .holding .setModelEnd j => do
    let s ← s.setJob j (setStage .modelEndStage)
    some (s.goto (.worker i) (.holding .addIOJob j))
  | .holding .addIOJob j => do
    let (_, s) ← s.addIOJob (some j)
    some (s.goto (.worker i) .testLoop)
  | _ => some s

/-- One step of `dwLoopIOWork`. -/
def dwLoopIOWork (s : MgrState ι) : Option (MgrState ι) :=
  match s.pc .io with
  | .testLoop => some (s.testLoop .io)
  | .getJob => do
    let (IOJob, s) ← s.getIOJob
    match IOJob with
    | some j => some (s.goto .io (.holding .switchStage j))
    | none => some (s.goto .io .testLoop)
  | .holding .switchStage j => do
    let job ← s.job j
    match job.stage with
    | .initStage => some (s.goto .io (.holding .doReading j))
    | .modelEndStage => some (s.goto .io (.holding .doWriting j))
    | _ => some (s.goto .io .testLoop)
  | .holding .doReading j => do
    let s ← s.perform .reading j
    some (s.goto .io (.holding .setReadEnd j))
  | .holding .setReadEnd j => do
    let s ← s.setJob j (setStage .readEndStage)
    some (s.goto .io (.holding .addJob j))
  | .holding .addJob j => do
    let (_, s) ← s.addJob (some j)
    some (s.goto .io .testLoop)
  | .holding .doWriting j => do
    let s ← s.perform .writing j
    some (s.goto .io (.holding .setWriteEnd j))
  | .holding .setWriteEnd j => do
    let s ← s.setJob j (setStage .writeEndStage)
    some (s.goto .io (.holding .delete j))
  | .holding .delete j => do
    let s ← s.setJob j fun job ↦ { job with deleted := true }
    some (s.goto .io .testLoop)
  | _ => some s

/-- Whose step it is: a thread's, or that of the thread that waits for the word `exit`. -/
inductive Turn (ι : Type)
  | thread (t : Thread ι)
  | setLoopWorking

/-- One step of the whole. -/
def step (s : MgrState ι) : Turn ι → Option (MgrState ι)
  | .thread (.worker i) => s.dwLoopWork i
  | .thread .io => s.dwLoopIOWork
  | .setLoopWorking => some { s with loopWorking := !s.loopWorking }

/-- Before the first job is constructed. The memory holds `raw`. -/
def blank (raw : ℕ → Job) : MgrState ι where
  jobs j := { raw j with deleted := true }
  queue _ := ⟨none, none⟩
  loopWorking := true
  pc _ := .testLoop
  log := []

/-- Construct a job. Its links are not initialised. -/
def construct (s : MgrState ι) (j : ℕ) : MgrState ι :=
  { s with
    jobs := Function.update s.jobs j { s.jobs j with stage := .initStage, deleted := false } }

/-- The jobs are constructed and submitted before the threads are started. -/
def start (raw : ℕ → Job) (submitted : List ℕ) : Option (MgrState ι) :=
  submitted.foldlM (fun s j ↦ ((s.construct j).addIOJob (some j)).map Prod.snd) (blank raw)

/-- The states that some interleaving leads to. -/
def Reaches (s s' : MgrState ι) : Prop :=
  Relation.ReflTransGen (fun s s' ↦ ∃ turn, step s turn = some s') s s'

/-- What was done to a job. -/
def history (s : MgrState ι) (j : ℕ) : List Work := (s.log.filter (·.1 = j)).map Prod.snd

end MgrState

/-- Writing to one job what keeps a field of it keeps this field of every job. -/
theorem Job.field_update {γ : Type} (field : Job → γ) {jobs : ℕ → Job} {j : ℕ} {job : Job}
    (hjob : field job = field (jobs j)) (a : ℕ) :
    field (Function.update jobs j job a) = field (jobs a) := by
  rw [Function.apply_update (fun _ ↦ field), hjob, Function.update_eq_self]

/-! ### Places -/

/-- Where a job can be. -/
inductive Place (ι : Type)
  | queued (k : QueueId)
  | held (t : Thread ι) (point : Point)
  | deleted
  deriving DecidableEq

/-- The stage and the history that a job has at each place. -/
inductive Fits {ι : Type} : Place ι → Stage → List Work → Prop
  | submitted : Fits (.queued .io) .initStage []
  | toRead : Fits (.held .io .switchStage) .initStage []
  | doReading : Fits (.held .io .doReading) .initStage []
  | setReadEnd : Fits (.held .io .setReadEnd) .initStage [.reading]
  | addJob : Fits (.held .io .addJob) .readEndStage [.reading]
  | read : Fits (.queued .work) .readEndStage [.reading]
  | testStage (i : ι) : Fits (.held (.worker i) .testStage) .readEndStage [.reading]
  | doParsing (i : ι) : Fits (.held (.worker i) .doParsing) .readEndStage [.reading]
  | setModelEnd (i : ι) : Fits (.held (.worker i) .setModelEnd) .readEndStage [.reading, .parsing]
  | addIOJob (i : ι) : Fits (.held (.worker i) .addIOJob) .modelEndStage [.reading, .parsing]
  | parsed : Fits (.queued .io) .modelEndStage [.reading, .parsing]
  | toWrite : Fits (.held .io .switchStage) .modelEndStage [.reading, .parsing]
  | doWriting : Fits (.held .io .doWriting) .modelEndStage [.reading, .parsing]
  | setWriteEnd : Fits (.held .io .setWriteEnd) .modelEndStage [.reading, .parsing, .writing]
  | delete : Fits (.held .io .delete) .writeEndStage [.reading, .parsing, .writing]
  | deleted : Fits .deleted .writeEndStage [.reading, .parsing, .writing]

namespace Fits

variable {ι : Type} {stage : Stage} {history : List Work}

/-- The work on a job is done in order. -/
theorem isPrefix {P : Place ι} (h : Fits P stage history) :
    history <+: [.reading, .parsing, .writing] := by
  cases h <;> decide

theorem stage_work (h : Fits (.queued .work : Place ι) stage history) : stage = .readEndStage := by
  cases h
  rfl

theorem stage_io (h : Fits (.queued .io : Place ι) stage history) :
    stage = .initStage ∨ stage = .modelEndStage := by
  cases h
  · exact Or.inl rfl
  · exact Or.inr rfl

theorem stage_testStage {i : ι} (h : Fits (.held (.worker i) .testStage) stage history) :
    stage = .readEndStage := by
  cases h
  rfl

theorem stage_switchStage (h : Fits (.held .io .switchStage : Place ι) stage history) :
    stage = .initStage ∨ stage = .modelEndStage := by
  cases h
  · exact Or.inl rfl
  · exact Or.inr rfl

/-- What comes out of a queue is what its taker expects. -/
theorem take_work (h : Fits (.queued .work : Place ι) stage history) (i : ι) :
    Fits (.held (.worker i) .testStage) stage history := by
  cases h
  exact testStage i

theorem take_io (h : Fits (.queued .io : Place ι) stage history) :
    Fits (.held .io .switchStage : Place ι) stage history := by
  cases h
  · exact toRead
  · exact toWrite

end Fits

/-- Every job is at one place, which has all that belongs to it. The lists `q` are what the two
queues stand for. -/
structure Located {ι : Type} (submitted : List ℕ) (s : MgrState ι) (q : QueueId → List ℕ)
    (place : ℕ → Place ι) : Prop where
  represents : ∀ k, Represents (fun j ↦ (s.jobs j).next k) (s.queue k) (q k)
  mem_queue : ∀ k j, j ∈ q k ↔ place j = .queued k
  holding_iff : ∀ t point j, s.pc t = .holding point j ↔ place j = .held t point
  deleted_iff : ∀ j, (s.jobs j).deleted = true ↔ place j = .deleted
  mem_submitted : ∀ j, place j ≠ .deleted → j ∈ submitted
  fits : ∀ j ∈ submitted, Fits (place j) (s.jobs j).stage (s.history j)

namespace Located

section Move

variable {ι : Type} {submitted submitted' : List ℕ} {s s' : MgrState ι}
  {q q' : QueueId → List ℕ} {place : ℕ → Place ι} {t : Thread ι} {point : Point} {j : ℕ}

/-- A job that has not been deleted can be accessed. -/
theorem job_eq (h : Located submitted s q place) (hj : place j ≠ .deleted) :
    s.job j = some (s.jobs j) := by
  rw [MgrState.job, if_neg]
  rwa [h.deleted_iff]

theorem setJob_eq (h : Located submitted s q place) (hj : place j ≠ .deleted) (f : Job → Job) :
    s.setJob j f = some { s with jobs := Function.update s.jobs j (f (s.jobs j)) } := by
  rw [MgrState.setJob, h.job_eq hj]
  rfl

/-- **One job moves.** Everything else is as it was. -/
theorem move (h : Located submitted s q place) (P : Place ι)
    (hsubmitted : ∀ a, a ∈ submitted' ↔ a = j ∨ a ∈ submitted)
    (hqueue : ∀ k, Represents (fun a ↦ (s'.jobs a).next k) (s'.queue k) (q' k))
    (hmem : ∀ k a, a ∈ q' k ↔ if a = j then P = .queued k else a ∈ q k)
    (hpc : ∀ t point a, s'.pc t = .holding point a ↔
      if a = j then P = .held t point else s.pc t = .holding point a)
    (hdeleted : ∀ a, (s'.jobs a).deleted = true ↔
      if a = j then P = .deleted else (s.jobs a).deleted = true)
    (hother : ∀ a ≠ j, (s'.jobs a).stage = (s.jobs a).stage ∧ s'.history a = s.history a)
    (hfits : Fits P (s'.jobs j).stage (s'.history j)) :
    Located submitted' s' q' (Function.update place j P) where
  represents := hqueue
  mem_queue k a := by
    rw [hmem, Function.update_apply]
    split_ifs with haj
    · rfl
    · exact h.mem_queue k a
  holding_iff t point a := by
    rw [hpc, Function.update_apply]
    split_ifs with haj
    · rfl
    · exact h.holding_iff t point a
  deleted_iff a := by
    rw [hdeleted, Function.update_apply]
    split_ifs with haj
    · rfl
    · exact h.deleted_iff a
  mem_submitted a ha := by
    rw [hsubmitted]
    rcases eq_or_ne a j with rfl | hne
    · exact Or.inl rfl
    · rw [Function.update_of_ne hne] at ha
      exact Or.inr (h.mem_submitted a ha)
  fits a ha := by
    rcases eq_or_ne a j with rfl | hne
    · rwa [Function.update_self]
    · rw [Function.update_of_ne hne, (hother a hne).1, (hother a hne).2]
      exact h.fits a (((hsubmitted a).1 ha).resolve_left hne)

/-- The jobs stay the same if one of them only moves. -/
theorem submitted_iff (h : Located submitted s q place) (hj : place j ≠ .deleted) (a : ℕ) :
    a ∈ submitted ↔ a = j ∨ a ∈ submitted :=
  ⟨Or.inr, fun ha ↦ ha.elim (fun e ↦ e ▸ h.mem_submitted j hj) id⟩

/-- A job is in no other queue than the one of its place. -/
theorem notMem_queue (h : Located submitted s q place) {k : QueueId} (hj : place j ≠ .queued k) :
    j ∉ q k := fun hmem ↦ hj ((h.mem_queue k j).1 hmem)

variable [DecidableEq ι]

/-- What the threads hold after `t` went on to `c`: if `t` held a job, it was `j`, and if it holds
one now, it is `j`. -/
theorem pc_goto (h : Located submitted s q place) {c : Pc} {P : Place ι}
    (hplace : ∀ t' point, place j = .held t' point → t' = t)
    (hold : ∀ point a, s.pc t = .holding point a → a = j)
    (hnew : ∀ t' point, P = .held t' point ↔ t' = t ∧ c = .holding point j)
    (honly : ∀ point a, c = .holding point a → a = j) (t' : Thread ι) (point : Point) (a : ℕ) :
    Function.update s.pc t c t' = .holding point a ↔
      if a = j then P = .held t' point else s.pc t' = .holding point a := by
  rcases eq_or_ne t' t with rfl | hne
  · rw [Function.update_self]
    split_ifs with haj
    · rw [hnew, haj]
      exact ⟨fun hc ↦ ⟨rfl, hc⟩, fun hc ↦ hc.2⟩
    · exact ⟨fun hc ↦ absurd (honly point a hc) haj, fun hc ↦ absurd (hold point a hc) haj⟩
  · rw [Function.update_of_ne hne]
    split_ifs with haj
    · rw [hnew, haj, h.holding_iff]
      exact ⟨fun hp ↦ absurd (hplace t' point hp) hne, fun hp ↦ absurd hp.1 hne⟩
    · rfl

/-- The same for a thread that held `j`. -/
theorem pc_goto_of_holding (h : Located submitted s q place) (hpc : s.pc t = .holding point j)
    {c : Pc} {P : Place ι}
    (hnew : ∀ t' point, P = .held t' point ↔ t' = t ∧ c = .holding point j)
    (honly : ∀ point a, c = .holding point a → a = j) (t' : Thread ι) (point' : Point) (a : ℕ) :
    Function.update s.pc t c t' = .holding point' a ↔
      if a = j then P = .held t' point' else s.pc t' = .holding point' a := by
  have hplace : place j = .held t point := (h.holding_iff t point j).1 hpc
  refine h.pc_goto (fun t' p hp ↦ ?_) (fun p a hp ↦ ?_) hnew honly t' point' a
  · exact (Place.held.inj (hplace.symm.trans hp)).1.symm
  · exact (Pc.holding.inj (hpc.symm.trans hp)).2.symm

/-! ### The kinds of steps -/

/-- A thread that holds nothing goes on, and holds nothing. -/
theorem idle (h : Located submitted s q place) {c : Pc}
    (hold : ∀ point a, s.pc t ≠ .holding point a) (hnew : ∀ point a, c ≠ .holding point a) :
    Located submitted (s.goto t c) q place where
  represents := h.represents
  mem_queue := h.mem_queue
  holding_iff t' point a := by
    rw [← h.holding_iff t' point a]
    show Function.update s.pc t c t' = _ ↔ _
    rcases eq_or_ne t' t with rfl | hne
    · rw [Function.update_self]
      exact ⟨fun hc ↦ absurd hc (hnew point a), fun hc ↦ absurd hc (hold point a)⟩
    · rw [Function.update_of_ne hne]
  deleted_iff := h.deleted_iff
  mem_submitted := h.mem_submitted
  fits := h.fits

/-- The state `s'` differs from `s` in the contents, the stage and the history of `j` alone. -/
structure WorkedOn (s s' : MgrState ι) (j : ℕ) : Prop where
  pc_eq : s'.pc = s.pc
  queue_eq : s'.queue = s.queue
  next_eq : ∀ a, (s'.jobs a).next = (s.jobs a).next
  deleted_eq : ∀ a, (s'.jobs a).deleted = (s.jobs a).deleted
  other : ∀ a ≠ j, (s'.jobs a).stage = (s.jobs a).stage ∧ s'.history a = s.history a

/-- A thread works on the job it holds, and keeps it. -/
theorem keep (h : Located submitted s q place) (hpc : s.pc t = .holding point j) (point' : Point)
    (hwork : WorkedOn s s' j) (hfits : Fits (.held t point') (s'.jobs j).stage (s'.history j)) :
    Located submitted (s'.goto t (.holding point' j)) q
      (Function.update place j (.held t point')) := by
  have hplace : place j = .held t point := (h.holding_iff t point j).1 hpc
  refine h.move _ (h.submitted_iff (by rw [hplace]; simp)) (fun k ↦ ?_) (fun k a ↦ ?_) ?_
    (fun a ↦ ?_) hwork.other hfits
  · show Represents (fun a ↦ (s'.jobs a).next k) (s'.queue k) (q k)
    simp only [hwork.next_eq, hwork.queue_eq]
    exact h.represents k
  · split_ifs with haj
    · rw [haj, h.mem_queue, hplace]
      simp
    · rfl
  · show ∀ t' point a, Function.update s'.pc t _ t' = .holding point a ↔ _
    rw [hwork.pc_eq]
    refine h.pc_goto_of_holding hpc (fun t' p ↦ ?_) (fun p a hp ↦ ?_)
    · simp [eq_comm]
    · exact (Pc.holding.inj hp).2.symm
  · show (s'.jobs a).deleted = true ↔ _
    rw [hwork.deleted_eq]
    split_ifs with haj
    · rw [haj, h.deleted_iff, hplace]
      simp
    · rfl

/-- A thread that holds nothing takes the first job out of a queue. -/
theorem take (h : Located submitted s q place) {k : QueueId} {rest : List ℕ} {e : Ends ℕ}
    (hq : q k = j :: rest) (he : Represents (fun a ↦ (s.jobs a).next k) e rest)
    (hold : ∀ point a, s.pc t ≠ .holding point a) (point : Point)
    (hfits : Fits (.held t point) (s.jobs j).stage (s.history j)) :
    Located submitted ((s.setEnds k e).goto t (.holding point j)) (Function.update q k rest)
      (Function.update place j (.held t point)) := by
  have hplace : place j = .queued k := (h.mem_queue k j).1 (by rw [hq]; exact List.mem_cons_self)
  have hnodup := (h.represents k).nodup
  rw [hq] at hnodup
  refine h.move _ (h.submitted_iff (by rw [hplace]; simp)) (fun k' ↦ ?_) (fun k' a ↦ ?_) ?_
    (fun a ↦ ?_) (fun a _ ↦ ⟨rfl, rfl⟩) hfits
  · show Represents (fun a ↦ (s.jobs a).next k') (Function.update s.queue k e k') _
    rcases eq_or_ne k' k with rfl | hne
    · rw [Function.update_self, Function.update_self]
      exact he
    · rw [Function.update_of_ne hne, Function.update_of_ne hne]
      exact h.represents k'
  · rcases eq_or_ne k' k with rfl | hne
    · rw [Function.update_self, hq]
      split_ifs with haj
      · simpa [haj] using (List.nodup_cons.1 hnodup).1
      · simp [haj]
    · rw [Function.update_of_ne hne]
      split_ifs with haj
      · rw [haj, h.mem_queue, hplace]
        simp [hne.symm]
      · rfl
  · refine h.pc_goto (fun t' p hp ↦ ?_) (fun p a hp ↦ absurd hp (hold p a)) (fun t' p ↦ ?_)
      (fun p a hp ↦ ?_)
    · exact absurd (hplace.symm.trans hp) (by simp)
    · simp [eq_comm]
    · exact (Pc.holding.inj hp).2.symm
  · show (s.jobs a).deleted = true ↔ _
    split_ifs with haj
    · rw [haj, h.deleted_iff, hplace]
      simp
    · rfl

/-- The state `s'` differs from `s` in the queues alone: `j` was appended to one of them. -/
structure Appended (s s' : MgrState ι) (q : QueueId → List ℕ) (k : QueueId) (j : ℕ) : Prop where
  represents : ∀ k', Represents (fun a ↦ (s'.jobs a).next k') (s'.queue k')
    (Function.update q k (q k ++ [j]) k')
  pc_eq : s'.pc = s.pc
  log_eq : s'.log = s.log
  stage_eq : ∀ a, (s'.jobs a).stage = (s.jobs a).stage
  deleted_eq : ∀ a, (s'.jobs a).deleted = (s.jobs a).deleted

/-- A thread puts the job it holds into a queue. -/
theorem put (h : Located submitted s q place) (hpc : s.pc t = .holding point j) {k : QueueId}
    (happ : Appended s s' q k j) {c : Pc} (hnew : ∀ point a, c ≠ .holding point a)
    (hfits : Fits (.queued k : Place ι) (s.jobs j).stage (s.history j)) :
    Located submitted (s'.goto t c) (Function.update q k (q k ++ [j]))
      (Function.update place j (.queued k)) := by
  have hplace : place j = .held t point := (h.holding_iff t point j).1 hpc
  have hhistory : ∀ a, s'.history a = s.history a := fun a ↦ by
    rw [MgrState.history, happ.log_eq]
    rfl
  refine h.move _ (h.submitted_iff (by rw [hplace]; simp)) happ.represents (fun k' a ↦ ?_) ?_
    (fun a ↦ ?_) (fun a _ ↦ ⟨happ.stage_eq a, hhistory a⟩)
    (by rw [show ((s'.goto t c).jobs j).stage = _ from happ.stage_eq j,
      show (s'.goto t c).history j = _ from hhistory j]; exact hfits)
  · rcases eq_or_ne k' k with rfl | hne
    · rw [Function.update_self, List.mem_append, List.mem_singleton]
      split_ifs with haj
      · simp [haj]
      · simp [haj]
    · rw [Function.update_of_ne hne]
      split_ifs with haj
      · rw [haj, h.mem_queue, hplace]
        simp [hne.symm]
      · rfl
  · show ∀ t' point a, Function.update s'.pc t _ t' = .holding point a ↔ _
    rw [happ.pc_eq]
    exact h.pc_goto_of_holding hpc (fun t' p ↦ by simp [hnew]) fun p a hp ↦ absurd hp (hnew p a)
  · show (s'.jobs a).deleted = true ↔ _
    rw [happ.deleted_eq]
    split_ifs with haj
    · rw [haj, h.deleted_iff, hplace]
      simp
    · rfl

/-- A thread deletes the job it holds. -/
theorem delete (h : Located submitted s q place) (hpc : s.pc t = .holding point j) {c : Pc}
    (hnew : ∀ point a, c ≠ .holding point a)
    (hfits : Fits (.deleted : Place ι) (s.jobs j).stage (s.history j)) :
    Located submitted
      ({ s with jobs := Function.update s.jobs j { s.jobs j with deleted := true } }.goto t c) q
      (Function.update place j .deleted) := by
  have hplace : place j = .held t point := (h.holding_iff t point j).1 hpc
  have hnext : ∀ a, (Function.update s.jobs j { s.jobs j with deleted := true } a).next =
      (s.jobs a).next := Job.field_update Job.next rfl
  have hstage : ∀ a, (Function.update s.jobs j { s.jobs j with deleted := true } a).stage =
      (s.jobs a).stage := Job.field_update Job.stage rfl
  refine h.move _ (h.submitted_iff (by rw [hplace]; simp)) (fun k ↦ ?_) (fun k a ↦ ?_) ?_
    (fun a ↦ ?_) (fun a _ ↦ ⟨hstage a, rfl⟩) ?_
  · exact (h.represents k).congr fun a _ ↦ congrFun (hnext a) k
  · split_ifs with haj
    · rw [haj, h.mem_queue, hplace]
      simp
    · rfl
  · exact h.pc_goto_of_holding hpc (fun t' p ↦ by simp [hnew]) fun p a hp ↦ absurd hp (hnew p a)
  · show (Function.update s.jobs j { s.jobs j with deleted := true } a).deleted = true ↔ _
    split_ifs with haj
    · rw [haj, Function.update_self]
      simp
    · rw [Function.update_of_ne haj]
  · show Fits _ (Function.update s.jobs j { s.jobs j with deleted := true } j).stage (s.history j)
    rw [hstage j]
    exact hfits

end Move

/-! ### The critical sections -/

section Sections

variable {ι : Type} {submitted : List ℕ} {s : MgrState ι} {q : QueueId → List ℕ}
  {place : ℕ → Place ι} {j : ℕ}

/-- **`getJob` and `getIOJob`** take the first job, if there is one. -/
theorem exists_getFrom (hrep : ∀ k, Represents (fun a ↦ (s.jobs a).next k) (s.queue k) (q k))
    {k : QueueId} (halive : ∀ a ∈ q k, (s.jobs a).deleted = false) :
    (q k = [] ∧ s.getFrom k = some (none, s)) ∨
      ∃ j rest e, q k = j :: rest ∧ s.getFrom k = some (some j, s.setEnds k e) ∧
        Represents (fun a ↦ (s.jobs a).next k) e rest := by
  rw [MgrState.getFrom]
  cases htail : (s.queue k).tail with
  | none => exact Or.inl ⟨(hrep k).eq_nil_of_tail htail, rfl⟩
  | some t =>
    right
    rcases eq_or_ne (s.queue k).head (s.queue k).tail with heq | heq
    · refine ⟨t, [], ⟨none, none⟩, (hrep k).eq_singleton htail heq, ?_, Represents.empty _⟩
      simp only [heq.trans htail, if_true]
    · obtain ⟨a, rest, hq, hhead, hrest⟩ := (hrep k).exists_cons htail heq
      have hjob : s.job a = some (s.jobs a) := by
        rw [MgrState.job, halive a (by rw [hq]; exact List.mem_cons_self)]
        rfl
      refine ⟨a, rest, _, hq, ?_, hrest⟩
      rw [htail, hhead] at heq
      simp only [hhead, if_neg heq, Option.bind_eq_bind, Option.bind_some, hjob, htail]

/-- A queued job is there. -/
theorem deleted_of_mem (h : Located submitted s q place) {k : QueueId} {a : ℕ} (ha : a ∈ q k) :
    (s.jobs a).deleted = false := by
  rw [← Bool.not_eq_true, h.deleted_iff, (h.mem_queue k a).1 ha]
  simp

theorem getFrom (h : Located submitted s q place) (k : QueueId) :
    (q k = [] ∧ s.getFrom k = some (none, s)) ∨
      ∃ j rest e, q k = j :: rest ∧ s.getFrom k = some (some j, s.setEnds k e) ∧
        Represents (fun a ↦ (s.jobs a).next k) e rest :=
  exists_getFrom h.represents fun _ ↦ h.deleted_of_mem

/-- **`addJob` and `addIOJob`** append a job, and for this touch the last one at most. -/
theorem exists_addTo (hrep : ∀ k, Represents (fun a ↦ (s.jobs a).next k) (s.queue k) (q k))
    {k : QueueId} (halive : ∀ a ∈ q k, (s.jobs a).deleted = false) (hj : j ∉ q k) :
    ∃ s', s.addTo k (some j) = some (true, s') ∧ Appended s s' q k j := by
  rw [MgrState.addTo]
  cases hhead : (s.queue k).head with
  | none =>
    have hnil := (hrep k).eq_nil_of_head hhead
    refine ⟨_, rfl, ⟨fun k' ↦ ?_, rfl, rfl, fun _ ↦ rfl, fun _ ↦ rfl⟩⟩
    show Represents _ (Function.update s.queue k ⟨some j, some j⟩ k') _
    rcases eq_or_ne k' k with rfl | hne
    · rw [Function.update_self, Function.update_self, hnil]
      exact Represents.singleton _ j
    · rw [Function.update_of_ne hne, Function.update_of_ne hne]
      exact hrep k'
  | some x =>
    obtain ⟨t, htail⟩ := (hrep k).exists_tail hhead
    have hdeleted := halive t ((hrep k).mem_of_tail htail)
    have hset : s.setJob t (MgrState.setNext k j) =
        some { s with jobs := Function.update s.jobs t (MgrState.setNext k j (s.jobs t)) } := by
      rw [MgrState.setJob, MgrState.job, hdeleted]
      rfl
    have hother : ∀ a, a ≠ t →
        Function.update s.jobs t (MgrState.setNext k j (s.jobs t)) a = s.jobs a :=
      fun a hne ↦ Function.update_of_ne hne _ _
    simp only [htail, Option.bind_eq_bind, Option.bind_some, hset]
    refine ⟨_, rfl, ⟨fun k' ↦ ?_, rfl, rfl, Job.field_update Job.stage rfl,
      Job.field_update Job.deleted rfl⟩⟩
    show Represents
      (fun a ↦ (Function.update s.jobs t (MgrState.setNext k j (s.jobs t)) a).next k')
      (Function.update s.queue k ⟨some x, some j⟩ k') _
    rcases eq_or_ne k' k with rfl | hne
    · rw [Function.update_self, Function.update_self, ← hhead]
      refine (hrep k').append htail hj ?_ fun a _ hne ↦ by rw [hother a hne]
      simp [MgrState.setNext]
    · -- the other link of the last job is not touched
      rw [Function.update_of_ne hne, Function.update_of_ne hne]
      exact (hrep k').congr fun a _ ↦
        Job.field_update (fun job ↦ job.next k') (Function.update_of_ne hne _ _) a

theorem addTo (h : Located submitted s q place) {k : QueueId} (hj : place j ≠ .queued k) :
    ∃ s', s.addTo k (some j) = some (true, s') ∧ Appended s s' q k j :=
  exists_addTo h.represents (fun _ ↦ h.deleted_of_mem) (h.notMem_queue hj)

/-! ### Working on a job -/

/-- Reading, parsing or writing adds to the history. -/
theorem perform (h : Located submitted s q place) (hj : place j ≠ .deleted) (w : Work) :
    ∃ s', s.perform w j = some s' ∧ WorkedOn s s' j ∧ (s'.jobs j).stage = (s.jobs j).stage ∧
      s'.history j = s.history j ++ [w] := by
  refine ⟨{ s with log := s.log ++ [(j, w)] }, ?_, ⟨rfl, rfl, fun _ ↦ rfl, fun _ ↦ rfl, ?_⟩, rfl,
    ?_⟩
  · rw [MgrState.perform, h.job_eq hj]
    rfl
  · intro a ha
    refine ⟨rfl, ?_⟩
    simp [MgrState.history, ha.symm]
  · simp [MgrState.history]

/-- Setting the stage. -/
theorem setStage (h : Located submitted s q place) (hj : place j ≠ .deleted) (stage : Stage) :
    ∃ s', s.setJob j (MgrState.setStage stage) = some s' ∧ WorkedOn s s' j ∧
      (s'.jobs j).stage = stage ∧ s'.history j = s.history j := by
  refine ⟨_, h.setJob_eq hj _, ⟨rfl, rfl, Job.field_update Job.next rfl,
    Job.field_update Job.deleted rfl, fun a ha ↦ ?_⟩, ?_, rfl⟩
  · refine ⟨?_, rfl⟩
    show (Function.update s.jobs j (MgrState.setStage stage (s.jobs j)) a).stage = _
    rw [Function.update_of_ne ha]
  · show (Function.update s.jobs j (MgrState.setStage stage (s.jobs j)) j).stage = _
    rw [Function.update_self]
    rfl

/-- Where a job is that a thread holds, and that it can be accessed. -/
theorem held (h : Located submitted s q place) {t : Thread ι} {point : Point} {j : ℕ}
    (hpc : s.pc t = .holding point j) : place j = .held t point ∧ place j ≠ .deleted ∧
      Fits (.held t point) (s.jobs j).stage (s.history j) := by
  have hplace := (h.holding_iff t point j).1 hpc
  have hne : place j ≠ .deleted := by simp [hplace]
  exact ⟨hplace, hne, hplace ▸ h.fits j (h.mem_submitted j hne)⟩

end Sections

/-! ### Every step -/

section Step

variable {ι : Type} [DecidableEq ι] {submitted : List ℕ} {s : MgrState ι} {q : QueueId → List ℕ}
  {place : ℕ → Place ι}

/-- The test at the head of the loops. -/
theorem testLoop (h : Located submitted s q place) {t : Thread ι} (hpc : s.pc t = .testLoop) :
    Located submitted (s.testLoop t) q place := by
  refine h.idle (fun point a ↦ by rw [hpc]; simp) fun point a ↦ ?_
  split_ifs <;> simp

/-- A thread that holds nothing takes a job, if there is one. What comes out of the queue has to
be what the thread expects. -/
theorem exists_take (h : Located submitted s q place) {t : Thread ι}
    (hold : ∀ point a, s.pc t ≠ .holding point a) (k : QueueId) (point : Point)
    (hfits : ∀ stage history, Fits (.queued k : Place ι) stage history →
      Fits (.held t point) stage history) :
    s.getFrom k = some (none, s) ∨ ∃ j s', s.getFrom k = some (some j, s') ∧
      ∃ q' place', Located submitted (s'.goto t (.holding point j)) q' place' := by
  rcases h.getFrom k with ⟨-, hget⟩ | ⟨j, rest, e, hq, hget, he⟩
  · exact Or.inl hget
  · have hplace : place j = .queued k :=
      (h.mem_queue k j).1 (by rw [hq]; exact List.mem_cons_self)
    have hj := h.fits j (h.mem_submitted j (by rw [hplace]; simp))
    rw [hplace] at hj
    exact Or.inr ⟨j, _, hget, _, _, h.take hq he hold point (hfits _ _ hj)⟩

/-- **One step of `dwLoopWork`.** -/
theorem dwLoopWork (h : Located submitted s q place) (i : ι) :
    ∃ s', s.dwLoopWork i = some s' ∧ ∃ q' place', Located submitted s' q' place' := by
  rw [MgrState.dwLoopWork]
  cases hpc : s.pc (.worker i) with
  | testLoop => exact ⟨_, rfl, q, place, h.testLoop hpc⟩
  | done => exact ⟨_, rfl, q, place, h⟩
  | getJob =>
    have hidle : ∀ point a, s.pc (.worker i) ≠ .holding point a := fun point a ↦ by rw [hpc]; simp
    rcases h.exists_take hidle .work .testStage fun _ _ hfits ↦ hfits.take_work i with
      hget | ⟨j, s', hget, hlocated⟩
    · simp only [MgrState.getJob, hget, Option.bind_eq_bind, Option.bind_some]
      exact ⟨_, rfl, q, place, h.idle hidle (by simp)⟩
    · simp only [MgrState.getJob, hget, Option.bind_eq_bind, Option.bind_some]
      exact ⟨_, rfl, hlocated⟩
  | holding point j =>
    obtain ⟨hplace, hj, hfits⟩ := h.held hpc
    generalize hstage : (s.jobs j).stage = stage at hfits
    generalize hhistory : s.history j = history at hfits
    cases hfits with
    | testStage =>
      -- the test succeeds, so that the job is not dropped
      simp only [h.job_eq hj, Option.bind_eq_bind, Option.bind_some, hstage, if_true]
      refine ⟨_, rfl, _, _, h.keep hpc .doParsing ⟨rfl, rfl, fun _ ↦ rfl, fun _ ↦ rfl,
        fun _ _ ↦ ⟨rfl, rfl⟩⟩ ?_⟩
      rw [hstage, hhistory]
      exact Fits.doParsing i
    | doParsing =>
      obtain ⟨s', hs', hwork, hst, hhi⟩ := h.perform hj .parsing
      simp only [hs', Option.bind_eq_bind, Option.bind_some]
      refine ⟨_, rfl, _, _, h.keep hpc .setModelEnd hwork ?_⟩
      rw [hst, hhi, hstage, hhistory]
      exact Fits.setModelEnd i
    | setModelEnd =>
      obtain ⟨s', hs', hwork, hst, hhi⟩ := h.setStage hj .modelEndStage
      simp only [hs', Option.bind_eq_bind, Option.bind_some]
      refine ⟨_, rfl, _, _, h.keep hpc .addIOJob hwork ?_⟩
      rw [hst, hhi, hhistory]
      exact Fits.addIOJob i
    | addIOJob =>
      obtain ⟨s', hs', happ⟩ := h.addTo (k := .io) (by rw [hplace]; simp)
      simp only [MgrState.addIOJob, hs', Option.bind_eq_bind, Option.bind_some]
      refine ⟨_, rfl, _, _, h.put hpc happ (by simp) ?_⟩
      rw [hstage, hhistory]
      exact Fits.parsed

/-- **One step of `dwLoopIOWork`.** -/
theorem dwLoopIOWork (h : Located submitted s q place) :
    ∃ s', s.dwLoopIOWork = some s' ∧ ∃ q' place', Located submitted s' q' place' := by
  rw [MgrState.dwLoopIOWork]
  cases hpc : s.pc .io with
  | testLoop => exact ⟨_, rfl, q, place, h.testLoop hpc⟩
  | done => exact ⟨_, rfl, q, place, h⟩
  | getJob =>
    have hidle : ∀ point a, s.pc .io ≠ .holding point a := fun point a ↦ by rw [hpc]; simp
    rcases h.exists_take hidle .io .switchStage fun _ _ hfits ↦ hfits.take_io with
      hget | ⟨j, s', hget, hlocated⟩
    · simp only [MgrState.getIOJob, hget, Option.bind_eq_bind, Option.bind_some]
      exact ⟨_, rfl, q, place, h.idle hidle (by simp)⟩
    · simp only [MgrState.getIOJob, hget, Option.bind_eq_bind, Option.bind_some]
      exact ⟨_, rfl, hlocated⟩
  | holding point j =>
    obtain ⟨hplace, hj, hfits⟩ := h.held hpc
    have hsame : WorkedOn s s j := ⟨rfl, rfl, fun _ ↦ rfl, fun _ ↦ rfl, fun _ _ ↦ ⟨rfl, rfl⟩⟩
    generalize hstage : (s.jobs j).stage = stage at hfits
    generalize hhistory : s.history j = history at hfits
    cases hfits with
    -- no stage but these two fits here, so that the default branch is not taken
    | toRead =>
      simp only [h.job_eq hj, Option.bind_eq_bind, Option.bind_some, hstage]
      refine ⟨_, rfl, _, _, h.keep hpc .doReading hsame ?_⟩
      rw [hstage, hhistory]
      exact Fits.doReading
    | doReading =>
      obtain ⟨s', hs', hwork, hst, hhi⟩ := h.perform hj .reading
      simp only [hs', Option.bind_eq_bind, Option.bind_some]
      refine ⟨_, rfl, _, _, h.keep hpc .setReadEnd hwork ?_⟩
      rw [hst, hhi, hstage, hhistory]
      exact Fits.setReadEnd
    | setReadEnd =>
      obtain ⟨s', hs', hwork, hst, hhi⟩ := h.setStage hj .readEndStage
      simp only [hs', Option.bind_eq_bind, Option.bind_some]
      refine ⟨_, rfl, _, _, h.keep hpc .addJob hwork ?_⟩
      rw [hst, hhi, hhistory]
      exact Fits.addJob
    | addJob =>
      obtain ⟨s', hs', happ⟩ := h.addTo (k := .work) (by rw [hplace]; simp)
      simp only [MgrState.addJob, hs', Option.bind_eq_bind, Option.bind_some]
      refine ⟨_, rfl, _, _, h.put hpc happ (by simp) ?_⟩
      rw [hstage, hhistory]
      exact Fits.read
    | toWrite =>
      simp only [h.job_eq hj, Option.bind_eq_bind, Option.bind_some, hstage]
      refine ⟨_, rfl, _, _, h.keep hpc .doWriting hsame ?_⟩
      rw [hstage, hhistory]
      exact Fits.doWriting
    | doWriting =>
      obtain ⟨s', hs', hwork, hst, hhi⟩ := h.perform hj .writing
      simp only [hs', Option.bind_eq_bind, Option.bind_some]
      refine ⟨_, rfl, _, _, h.keep hpc .setWriteEnd hwork ?_⟩
      rw [hst, hhi, hstage, hhistory]
      exact Fits.setWriteEnd
    | setWriteEnd =>
      obtain ⟨s', hs', hwork, hst, hhi⟩ := h.setStage hj .writeEndStage
      simp only [hs', Option.bind_eq_bind, Option.bind_some]
      refine ⟨_, rfl, _, _, h.keep hpc .delete hwork ?_⟩
      rw [hst, hhi, hhistory]
      exact Fits.delete
    | delete =>
      simp only [h.setJob_eq hj, Option.bind_eq_bind, Option.bind_some]
      refine ⟨_, rfl, _, _, h.delete hpc (by simp) ?_⟩
      rw [hstage, hhistory]
      exact Fits.deleted

/-- **Every step has a result, and keeps every job at one place.** -/
theorem step (h : Located submitted s q place) (turn : MgrState.Turn ι) :
    ∃ s', s.step turn = some s' ∧ ∃ q' place', Located submitted s' q' place' := by
  rcases turn with (i | -) | -
  · exact h.dwLoopWork i
  · exact h.dwLoopIOWork
  · exact ⟨_, rfl, q, place, ⟨h.represents, h.mem_queue, h.holding_iff, h.deleted_iff,
      h.mem_submitted, h.fits⟩⟩

/-- One more job is constructed and submitted. -/
theorem submit (h : Located submitted s q place) (hlog : s.log = []) {j : ℕ} (hj : j ∉ submitted) :
    ∃ s', (s.construct j).addIOJob (some j) = some (true, s') ∧ s'.log = [] ∧
      Located (submitted ++ [j]) s' (Function.update q .io (q .io ++ [j]))
        (Function.update place j (.queued .io)) := by
  have hplace : place j = .deleted := by
    by_contra hne
    exact hj (h.mem_submitted j hne)
  have hother : ∀ a, a ≠ j → (s.construct j).jobs a = s.jobs a :=
    fun a hne ↦ Function.update_of_ne hne _ _
  have hself : (s.construct j).jobs j = { s.jobs j with stage := .initStage, deleted := false } :=
    Function.update_self _ _ _
  have hnot : ∀ k, j ∉ q k := fun k ↦ h.notMem_queue (by rw [hplace]; simp)
  -- what the memory held at `j` is in no queue, so constructing the job breaks no link
  obtain ⟨s', hs', happ⟩ := exists_addTo (s := s.construct j) (q := q) (j := j) (k := .io)
    (fun k ↦ (h.represents k).congr fun a ha ↦ by rw [hother a fun e ↦ hnot k (e ▸ ha)])
    (fun a ha ↦ by
      rw [hother a fun e ↦ hnot .io (e ▸ ha)]
      exact h.deleted_of_mem ha) (hnot .io)
  have hhistory : ∀ a, s'.history a = [] := fun a ↦ by
    rw [MgrState.history, happ.log_eq]
    show (s.log.filter _).map _ = _
    rw [hlog]
    rfl
  refine ⟨s', hs', happ.log_eq.trans hlog, h.move (.queued .io) (by simp [or_comm])
    happ.represents (fun k a ↦ ?_) (fun t point a ↦ ?_) (fun a ↦ ?_) (fun a ha ↦ ?_) ?_⟩
  · rcases eq_or_ne k .io with rfl | hne
    · rw [Function.update_self, List.mem_append, List.mem_singleton]
      split_ifs with haj
      · simp [haj]
      · simp [haj]
    · rw [Function.update_of_ne hne]
      split_ifs with haj
      · simp [haj, hnot k, hne.symm]
      · rfl
  · rw [happ.pc_eq]
    show s.pc t = _ ↔ _
    split_ifs with haj
    · rw [haj, h.holding_iff, hplace]
      simp
    · rfl
  · rw [happ.deleted_eq]
    split_ifs with haj
    · rw [haj, hself]
      simp
    · rw [hother a haj]
  · rw [happ.stage_eq, hother a ha, hhistory]
    refine ⟨rfl, ?_⟩
    rw [MgrState.history, hlog]
    rfl
  · rw [happ.stage_eq, hself, hhistory]
    exact Fits.submitted

/-- **Submitting the jobs** puts all of them into the queue for reading. -/
theorem foldlM_submit (l : List ℕ) (h : Located submitted s q place) (hlog : s.log = [])
    (hnodup : (submitted ++ l).Nodup) :
    ∃ s', l.foldlM (fun s j ↦ ((MgrState.construct s j).addIOJob (some j)).map Prod.snd) s =
      some s' ∧ ∃ q' place', Located (submitted ++ l) s' q' place' := by
  induction l generalizing submitted s q place with
  | nil => exact ⟨s, rfl, q, place, by rwa [List.append_nil]⟩
  | cons j l ih =>
    have hj : j ∉ submitted := fun hmem ↦
      List.disjoint_of_nodup_append hnodup hmem List.mem_cons_self
    obtain ⟨s', hs', hlog', h'⟩ := h.submit hlog hj
    rw [List.append_cons] at hnodup ⊢
    obtain ⟨s'', hs'', hlocated⟩ := ih h' hlog' hnodup
    exact ⟨s'', by rw [List.foldlM_cons, hs']; exact hs'', hlocated⟩

end Step

end Located

/-! ### Every reachable state -/

section Reachable

variable {ι : Type}

/-- The job `j` is at this place. -/
def MgrState.IsAt (s : MgrState ι) (q : QueueId → List ℕ) (j : ℕ) : Place ι → Prop
  | .queued k => j ∈ q k
  | .held t point => s.pc t = .holding point j
  | .deleted => (s.jobs j).deleted = true

/-- What holds of the jobs at all times, with `q` for the contents of the queues. -/
structure Accounted (submitted : List ℕ) (s : MgrState ι) (q : QueueId → List ℕ) : Prop where
  represents : ∀ k, Represents (fun j ↦ (s.jobs j).next k) (s.queue k) (q k)
  /-- Each job is in one queue, in the hands of one thread, or deleted. -/
  existsUnique : ∀ j ∈ submitted, ∃! P : Place ι, s.IsAt q j P
  mem_submitted : ∀ j P, s.IsAt q j P → P ≠ .deleted → j ∈ submitted
  io_stage : ∀ j ∈ q .io, (s.jobs j).stage = .initStage ∨ (s.jobs j).stage = .modelEndStage
  work_stage : ∀ j ∈ q .work, (s.jobs j).stage = .readEndStage
  /-- No job is dropped by the test in `dwLoopWork`. -/
  testStage : ∀ i j, s.pc (.worker i) = .holding .testStage j → (s.jobs j).stage = .readEndStage
  /-- No job is dropped by the default branch in `dwLoopIOWork`. -/
  switchStage : ∀ j, s.pc .io = .holding .switchStage j →
    (s.jobs j).stage = .initStage ∨ (s.jobs j).stage = .modelEndStage
  /-- Each job is read, parsed and written at most once, in this order. -/
  history : ∀ j ∈ submitted, s.history j <+: [.reading, .parsing, .writing]

theorem Located.accounted {submitted : List ℕ} {s : MgrState ι} {q : QueueId → List ℕ}
    {place : ℕ → Place ι} (h : Located submitted s q place) : Accounted submitted s q := by
  have hat : ∀ j P, s.IsAt q j P ↔ place j = P := by
    intro j P
    cases P with
    | queued k => exact h.mem_queue k j
    | held t point => exact h.holding_iff t point j
    | deleted => exact h.deleted_iff j
  have hfits : ∀ j P, place j = P → P ≠ .deleted → Fits P (s.jobs j).stage (s.history j) :=
    fun j P hP hne ↦ hP ▸ h.fits j (h.mem_submitted j (hP ▸ hne))
  refine ⟨h.represents, fun j _ ↦ ⟨place j, (hat j _).2 rfl, fun P hP ↦ ((hat j P).1 hP).symm⟩,
    fun j P hP hne ↦ h.mem_submitted j (by rwa [(hat j P).1 hP]), fun j hj ↦ ?_, fun j hj ↦ ?_,
    fun i j hj ↦ ?_, fun j hj ↦ ?_, fun j hj ↦ (h.fits j hj).isPrefix⟩
  · exact (hfits j _ ((h.mem_queue _ j).1 hj) (by simp)).stage_io
  · exact (hfits j _ ((h.mem_queue _ j).1 hj) (by simp)).stage_work
  · exact (hfits j _ ((h.holding_iff _ _ j).1 hj) (by simp)).stage_testStage
  · exact (hfits j _ ((h.holding_iff _ _ j).1 hj) (by simp)).stage_switchStage

variable [DecidableEq ι]

/-- **The threads never lose, double or touch a deleted job.** In every state that some
interleaving of any number of threads reaches, each job is at exactly one place, with the stage that
the loops expect there, and every thread can make its next step. -/
theorem reaches_accounted (raw : ℕ → Job) (submitted : List ℕ) (hnodup : submitted.Nodup) :
    ∃ s₀ : MgrState ι, MgrState.start raw submitted = some s₀ ∧ ∀ s, s₀.Reaches s →
      (∃ q, Accounted submitted s q) ∧ ∀ turn, ∃ s', s.step turn = some s' := by
  have hblank : Located [] (MgrState.blank raw : MgrState ι) (fun _ ↦ []) fun _ ↦ .deleted :=
    ⟨fun _ ↦ Represents.empty _, by simp, by simp [MgrState.blank], by simp [MgrState.blank],
      by simp, by simp⟩
  obtain ⟨s₀, hs₀, hlocated⟩ := hblank.foldlM_submit submitted rfl hnodup
  refine ⟨s₀, hs₀, fun s hs ↦ ?_⟩
  obtain ⟨q, place, h⟩ : ∃ q place, Located submitted s q place := by
    induction hs with
    | refl => exact hlocated
    | tail _ hstep ih =>
      obtain ⟨turn, hturn⟩ := hstep
      obtain ⟨q, place, h⟩ := ih
      obtain ⟨s', hs', hlocated'⟩ := h.step turn
      obtain rfl := Option.some.inj (hs'.symm.trans hturn)
      exact hlocated'
  exact ⟨⟨q, h.accounted⟩, fun turn ↦ (h.step turn).imp fun _ hs' ↦ hs'.1⟩

theorem reaches_accounted_two : [0, 1].Nodup ∧
    ∃ s₀ : MgrState (Fin 2),
      MgrState.start (fun _ ↦ ⟨.writeEndStage, fun _ ↦ some 7, false⟩) [0, 1] = some s₀ ∧
      ∀ s, s₀.Reaches s → (∃ q, Accounted [0, 1] s q) ∧ ∀ turn, ∃ s', s.step turn = some s' :=
  ⟨by decide, reaches_accounted _ [0, 1] (by decide)⟩

end Reachable

end CArchitecture
