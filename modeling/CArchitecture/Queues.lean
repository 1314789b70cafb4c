import CArchitecture.Library.Text
import CArchitecture.MgrJob

/-!
# The three queues

The jobs of `CMgrJob` wait in two queues and the messages of `CLog` in a third one. All of them are
linked through their elements, and none of them ever clears a link: an element that is added brings
along whatever its link holds, from memory that was not initialised or from an earlier stay. A call
that adds an element takes this value as an argument, `stale`, so that it can be anything at any
time.

`queues_refine` says that nothing of this shows: the calls return what they would return on lists.
-/

namespace CArchitecture

open LinkedQueue

/-! ### The queues of the job manager -/

/-- A call of one of the four functions. -/
inductive JobCall
  | addJob (addjob : ℕ) (stale : Option ℕ)
  | addIOJob (addIOJob : ℕ) (stale : Option ℕ)
  | getJob
  | getIOJob

/-- What the call is meant to do. -/
def JobCall.op : JobCall → Op QueueId ℕ
  | addJob j _ => .add .work j
  | addIOJob j _ => .add .io j
  | getJob => .get .work
  | getIOJob => .get .io

namespace MgrState

variable {ι : Type}

/-- A job whose link holds anything. -/
def holdStale (k : QueueId) (stale : Option ℕ) (job : Job) : Job :=
  { job with next := Function.update job.next k stale }

/-- Make a call. -/
def call (s : MgrState ι) : JobCall → Option (Answer ℕ × MgrState ι)
  | .addJob j stale => do
    let s ← s.setJob j (holdStale .work stale)
    let (ok, s) ← s.addJob (some j)
    some (.added ok, s)
  | .addIOJob j stale => do
    let s ← s.setJob j (holdStale .io stale)
    let (ok, s) ← s.addIOJob (some j)
    some (.added ok, s)
  | .getJob => do
    let (job, s) ← s.getJob
    some (.got job, s)
  | .getIOJob => do
    let (job, s) ← s.getIOJob
    some (.got job, s)

/-- The call gets a job, if any, that is there. -/
def Alive (s : MgrState ι) : JobCall → Prop
  | .addJob j _ => (s.jobs j).deleted = false
  | .addIOJob j _ => (s.jobs j).deleted = false
  | _ => True

/-- The queues stand for the lists `q`, and the jobs of `s₀` are there. -/
structure StandsFor (s₀ s : MgrState ι) (q : QueueId → List ℕ) : Prop where
  represents : ∀ k, Represents (fun a ↦ (s.jobs a).next k) (s.queue k) (q k)
  deleted_eq : ∀ a, (s.jobs a).deleted = (s₀.jobs a).deleted
  alive : ∀ k, ∀ a ∈ q k, (s₀.jobs a).deleted = false

namespace StandsFor

variable {s₀ s : MgrState ι} {q : QueueId → List ℕ} {k : QueueId} {j : ℕ}

/-- A link of an element that is not in the queue is none of its links. -/
theorem setJob (h : StandsFor s₀ s q) (hj : (s₀.jobs j).deleted = false) (hnot : j ∉ q k)
    (stale : Option ℕ) :
    ∃ s', s.setJob j (holdStale k stale) = some s' ∧ StandsFor s₀ s' q := by
  have hset : s.setJob j (holdStale k stale) =
      some { s with jobs := Function.update s.jobs j (holdStale k stale (s.jobs j)) } := by
    rw [MgrState.setJob, MgrState.job, h.deleted_eq, hj]
    rfl
  refine ⟨_, hset, fun k' ↦ (h.represents k').congr fun a ha ↦ ?_, fun a ↦ ?_, h.alive⟩
  · show (Function.update s.jobs j _ a).next k' = _
    rcases eq_or_ne a j with rfl | hne
    · have hk : k' ≠ k := fun hk ↦ hnot (hk ▸ ha)
      rw [Function.update_self]
      exact Function.update_of_ne hk _ _
    · rw [Function.update_of_ne hne]
  · show (Function.update s.jobs j (holdStale k stale (s.jobs j)) a).deleted = _
    rw [Job.field_update Job.deleted (by rfl), h.deleted_eq]

/-- **Adding.** -/
theorem addTo (h : StandsFor s₀ s q) (hj : (s₀.jobs j).deleted = false) (hnot : j ∉ q k) :
    ∃ s', s.addTo k (some j) = some (true, s') ∧
      StandsFor s₀ s' (Function.update q k (q k ++ [j])) := by
  obtain ⟨s', hs', happ⟩ := Located.exists_addTo h.represents
    (fun a ha ↦ (h.deleted_eq a).trans (h.alive k a ha)) hnot
  refine ⟨s', hs', happ.represents, fun a ↦ (happ.deleted_eq a).trans (h.deleted_eq a),
    fun k' a ha ↦ ?_⟩
  rcases eq_or_ne k' k with rfl | hne
  · rw [Function.update_self, List.mem_append, List.mem_singleton] at ha
    exact ha.elim (h.alive k' a) fun heq ↦ heq ▸ hj
  · rw [Function.update_of_ne hne] at ha
    exact h.alive k' a ha

/-- **Getting.** -/
theorem getFrom (h : StandsFor s₀ s q) (k : QueueId) :
    ∃ s', s.getFrom k = some ((q k).head?, s') ∧
      StandsFor s₀ s' (Function.update q k (q k).tail) := by
  have hthere : ∀ a ∈ q k, (s.jobs a).deleted = false :=
    fun a ha ↦ (h.deleted_eq a).trans (h.alive k a ha)
  rcases Located.exists_getFrom h.represents hthere with
    ⟨hnil, hget⟩ | ⟨j, rest, e, hq, hget, he⟩
  · refine ⟨s, by rw [hget, hnil]; rfl, ?_⟩
    rw [hnil, List.tail_nil, ← hnil, Function.update_eq_self]
    exact h
  · refine ⟨s.setEnds k e, by rw [hget, hq]; rfl, fun k' ↦ ?_, h.deleted_eq, fun k' a ha ↦ ?_⟩
    · show Represents _ (Function.update s.queue k e k') _
      rcases eq_or_ne k' k with rfl | hne
      · rw [Function.update_self, Function.update_self, hq]
        exact he
      · rw [Function.update_of_ne hne, Function.update_of_ne hne]
        exact h.represents k'
    · rcases eq_or_ne k' k with rfl | hne
      · rw [Function.update_self] at ha
        exact h.alive k' a (List.mem_of_mem_tail ha)
      · rw [Function.update_of_ne hne] at ha
        exact h.alive k' a ha

/-- **Each call does what it is meant to do.** -/
theorem call (h : StandsFor s₀ s q) (c : JobCall) (hc : s₀.Alive c) (hallowed : c.op.Allowed q) :
    ∃ s', s.call c = some ((c.op.apply q).1, s') ∧ StandsFor s₀ s' (c.op.apply q).2 := by
  cases c with
  | addJob j stale =>
    obtain ⟨s₁, h₁, hs₁⟩ := h.setJob hc hallowed stale
    obtain ⟨s₂, h₂, hs₂⟩ := hs₁.addTo hc hallowed
    refine ⟨s₂, ?_, hs₂⟩
    rw [MgrState.call, h₁, Option.bind_eq_bind, Option.bind_some, MgrState.addJob, h₂]
    rfl
  | addIOJob j stale =>
    obtain ⟨s₁, h₁, hs₁⟩ := h.setJob hc hallowed stale
    obtain ⟨s₂, h₂, hs₂⟩ := hs₁.addTo hc hallowed
    refine ⟨s₂, ?_, hs₂⟩
    rw [MgrState.call, h₁, Option.bind_eq_bind, Option.bind_some, MgrState.addIOJob, h₂]
    rfl
  | getJob =>
    obtain ⟨s', hs', hrest⟩ := h.getFrom .work
    refine ⟨s', ?_, hrest⟩
    rw [MgrState.call, MgrState.getJob, hs']
    rfl
  | getIOJob =>
    obtain ⟨s', hs', hrest⟩ := h.getFrom .io
    refine ⟨s', ?_, hrest⟩
    rw [MgrState.call, MgrState.getIOJob, hs']
    rfl

end StandsFor

end MgrState

/-! ### The queue of the log -/

/-- A message. -/
structure CLogWrite where
  message : Str
  ThreadID : Str
  next : Option ℕ

/-- The log, with the messages by their addresses. -/
structure CLog where
  writes : ℕ → CLogWrite
  /-- `mpHead` and `mpTail`. -/
  queue : Ends ℕ

namespace CLog

/-- `addCLogWrite`, called by the thread `id`. The message that it allocates and loses at once is
left out. -/
def addCLogWrite (id : Str) (temp : Option ℕ) (s : CLog) : Option (Bool × CLog) :=
  match temp with
  | none => some (false, s)
  | some j =>
    let writes := Function.update s.writes j { s.writes j with ThreadID := id }
    match s.queue.head with
    | none => some (true, { writes := writes, queue := ⟨some j, some j⟩ })
    | some h => do
      let t ← s.queue.tail
      some (true, {
        writes := Function.update writes t { writes t with next := some j }
        queue := ⟨some h, some j⟩ })

/-- `getCLogWrite`. -/
def getCLogWrite (s : CLog) : Option (Option ℕ × CLog) :=
  match s.queue.tail with
  | none => some (none, s)
  | some t =>
    if s.queue.head = s.queue.tail then
      some (s.queue.head, { s with queue := ⟨none, none⟩ })
    else do
      let h ← s.queue.head
      some (some h, { s with queue := ⟨(s.writes h).next, some t⟩ })

end CLog

/-- A call of one of the two functions. -/
inductive LogCall
  | addCLogWrite (id : Str) (temp : ℕ) (stale : Option ℕ)
  | getCLogWrite

/-- What the call is meant to do. -/
def LogCall.op : LogCall → Op Unit ℕ
  | addCLogWrite _ j _ => .add () j
  | getCLogWrite => .get ()

namespace CLog

/-- Make a call. -/
def call (s : CLog) : LogCall → Option (Answer ℕ × CLog)
  | .addCLogWrite id j stale => do
    let s := { s with writes := Function.update s.writes j { s.writes j with next := stale } }
    let (ok, s) ← s.addCLogWrite id (some j)
    some (.added ok, s)
  | .getCLogWrite => do
    let (write, s) ← s.getCLogWrite
    some (.got write, s)

/-- The queue stands for the list. -/
def StandsFor (s : CLog) (q : Unit → List ℕ) : Prop :=
  Represents (fun a ↦ (s.writes a).next) s.queue (q ())

namespace StandsFor

variable {s : CLog} {q : Unit → List ℕ} {j : ℕ}

/-- Writing to an element that is not in the queue. -/
theorem update (h : s.StandsFor q) (hnot : j ∉ q ()) (w : CLogWrite) :
    StandsFor { s with writes := Function.update s.writes j w } q := by
  refine h.congr fun a ha ↦ ?_
  have hne : a ≠ j := fun heq ↦ hnot (heq ▸ ha)
  show (Function.update s.writes j w a).next = _
  rw [Function.update_of_ne hne]

/-- **Adding.** -/
theorem addCLogWrite (h : s.StandsFor q) (hnot : j ∉ q ()) (id : Str) :
    ∃ s', s.addCLogWrite id (some j) = some (true, s') ∧
      s'.StandsFor (Function.update q () (q () ++ [j])) := by
  have h' := h.update hnot { s.writes j with ThreadID := id }
  show ∃ s' : CLog, _ ∧ Represents (fun a ↦ (s'.writes a).next) s'.queue
    (Function.update q () _ ())
  rw [CLog.addCLogWrite, Function.update_self]
  cases hhead : s.queue.head with
  | none =>
    refine ⟨_, rfl, ?_⟩
    rw [h.eq_nil_of_head hhead]
    exact Represents.singleton _ j
  | some x =>
    obtain ⟨t, htail⟩ := h.exists_tail hhead
    simp only [htail, Option.bind_eq_bind, Option.bind_some]
    refine ⟨_, rfl, ?_⟩
    have happ : Represents (fun a ↦ (Function.update
        (Function.update s.writes j { s.writes j with ThreadID := id }) t
        { Function.update s.writes j { s.writes j with ThreadID := id } t with next := some j }
          a).next) ⟨s.queue.head, some j⟩ (q () ++ [j]) :=
      h'.append htail hnot (by rw [Function.update_self]) fun a _ hne ↦ by
        rw [Function.update_of_ne hne]
    rwa [hhead] at happ

/-- **Getting.** -/
theorem getCLogWrite (h : s.StandsFor q) :
    ∃ s', s.getCLogWrite = some ((q ()).head?, s') ∧
      s'.StandsFor (Function.update q () (q ()).tail) := by
  show ∃ s' : CLog, _ ∧ Represents (fun a ↦ (s'.writes a).next) s'.queue
    (Function.update q () _ ())
  rw [CLog.getCLogWrite, Function.update_self]
  cases htail : s.queue.tail with
  | none =>
    have hnil := h.eq_nil_of_tail htail
    refine ⟨s, by rw [hnil]; rfl, ?_⟩
    rw [hnil, List.tail_nil, ← hnil]
    exact h
  | some t =>
    rcases eq_or_ne s.queue.head s.queue.tail with heq | heq
    · have hone := h.eq_singleton htail heq
      refine ⟨{ s with queue := ⟨none, none⟩ }, ?_, ?_⟩
      · simp only [heq.trans htail, if_true, hone, List.head?_cons]
      · rw [hone]
        exact Represents.empty _
    · obtain ⟨a, rest, hq, hhead, hrest⟩ := h.exists_cons htail heq
      rw [htail, hhead] at heq
      simp only [hhead, if_neg heq, Option.bind_eq_bind, Option.bind_some]
      refine ⟨_, by rw [hq]; rfl, ?_⟩
      rw [hq, List.tail_cons]
      rwa [htail] at hrest

/-- **Each call does what it is meant to do.** -/
theorem call (h : s.StandsFor q) (c : LogCall) (hallowed : c.op.Allowed q) :
    ∃ s', s.call c = some ((c.op.apply q).1, s') ∧ s'.StandsFor (c.op.apply q).2 := by
  cases c with
  | addCLogWrite id j stale =>
    obtain ⟨s', hs', hrest⟩ :=
      (h.update hallowed { s.writes j with next := stale }).addCLogWrite hallowed id
    refine ⟨s', ?_, hrest⟩
    rw [CLog.call]
    simp only [hs', Option.bind_eq_bind, Option.bind_some]
    rfl
  | getCLogWrite =>
    obtain ⟨s', hs', hrest⟩ := h.getCLogWrite
    refine ⟨s', ?_, hrest⟩
    rw [CLog.call, hs']
    rfl

end StandsFor

end CLog

/-! ### Refinement -/

/-- **The queues are queues.** From empty queues, whatever the links of the elements hold when these
are added, every sequence of calls returns what it is meant to return, if no element is added to a
queue that it is in. -/
theorem queues_refine {ι : Type} :
    (∀ (s : MgrState ι) (calls : List JobCall), (∀ k, s.queue k = ⟨none, none⟩) →
      (∀ c ∈ calls, s.Alive c) → AllAllowed (fun _ ↦ []) (calls.map JobCall.op) →
        runCalls MgrState.call s calls = some (answers (fun _ ↦ []) (calls.map JobCall.op))) ∧
    ∀ (s : CLog) (calls : List LogCall), s.queue = ⟨none, none⟩ →
      AllAllowed (fun _ ↦ []) (calls.map LogCall.op) →
        runCalls CLog.call s calls = some (answers (fun _ ↦ []) (calls.map LogCall.op)) := by
  constructor
  · intro s calls hempty halive hallowed
    have hinit : MgrState.StandsFor s s fun _ ↦ [] := by
      refine ⟨fun k ↦ ?_, fun _ ↦ rfl, fun _ a ha ↦ absurd ha List.not_mem_nil⟩
      rw [hempty k]
      exact Represents.empty _
    exact runCalls_eq JobCall.op (MgrState.StandsFor s) s.Alive
      (fun _ _ c hs hc hop ↦ hs.call c hc hop) hinit halive hallowed
  · intro s calls hempty hallowed
    have hinit : s.StandsFor fun _ ↦ [] := by
      rw [CLog.StandsFor, hempty]
      exact Represents.empty _
    exact runCalls_eq LogCall.op CLog.StandsFor (fun _ ↦ True)
      (fun _ _ c hs _ hop ↦ hs.call c hop) hinit (fun _ _ ↦ trivial) hallowed

/-- Job `7` stays twice in the same queue, and the second time its link leads to itself. -/
def sampleCalls : List JobCall :=
  [.addJob 7 (some 8), .addJob 8 none, .addIOJob 7 (some 7), .getJob, .addJob 7 (some 7), .getJob,
    .getIOJob, .getJob, .getJob]

/-- A manager with empty queues and jobs whose links lead to themselves. -/
def sampleMgr : MgrState Unit where
  jobs j := { stage := .initStage, next := fun _ ↦ some j, deleted := false }
  queue _ := ⟨none, none⟩
  loopWorking := true
  pc _ := .testLoop
  log := []

theorem queues_refine_sampleCalls :
    AllAllowed (fun _ ↦ []) (sampleCalls.map JobCall.op) ∧
    runCalls MgrState.call sampleMgr sampleCalls =
      some (answers (fun _ ↦ []) (sampleCalls.map JobCall.op)) := by
  have hallowed : AllAllowed (fun _ ↦ []) (sampleCalls.map JobCall.op) := by
    simp [sampleCalls, AllAllowed, JobCall.op, Op.Allowed, Op.apply]
  refine ⟨hallowed, queues_refine.1 sampleMgr sampleCalls (fun _ ↦ rfl) (fun c _ ↦ ?_) hallowed⟩
  cases c
  · rfl
  · rfl
  · trivial
  · trivial

end CArchitecture
