import CArchitecture.Library.FairRun
import CArchitecture.Queues
import Mathlib.Algebra.Order.BigOperators.Group.Finset
import Mathlib.Algebra.Order.Ring.Nat
import Mathlib.Data.Fintype.BigOperators
import Mathlib.Logic.Relation

/-!
# The thread that writes the log

Any number of threads note messages, and one thread writes them to a file. A message is constructed
by the thread that notes it, added to the queue of the log in one critical section, taken out of it
in another one, and written; it is never deleted, so that its address is never used again.

* `LogState.Inv` splits the messages that were added, in the order in which they were, into those
  that are in the file and those that wait.
* `file_of_reaches`: at all times the file is made of whole lines, of messages that every thread
  added in the order of its notes, and nothing is lost or written twice.
* `file_complete`: if each thread always gets another turn, all notes get into the file.
-/

namespace CArchitecture

open LinkedQueue FairRun

/-- The characters that `strlen` counts. -/
def cstr (s : Str) : Str := s.takeWhile (·.val ≠ 0)

/-- What the log asks the system for. -/
structure LogSystem (π : Type) where
  getThreadID : π → Str
  /-- `GenerateTimeStamp`, when it is called for the line with this number. -/
  GenerateTimeStamp : ℕ → Str
  /-- What the memory of a new message holds in place of a link. -/
  raw : ℕ → Option ℕ

/-- The text that `writeLogFile` appends. -/
def CLogWrite.writeLogFile (w : CLogWrite) (stamp : Str) : Str :=
  cstr (stamp ++ " \r ".toList ++ w.ThreadID ++ " \r ".toList ++ w.message) ++ ['\n']

/-- Where the writing thread is in `loop`. Nothing ever clears `loopwork`. -/
inductive LoopPc
  | getCLogWrite
  | writeLogFile (dowrite : ℕ)

/-- The log and its threads. Messages are known by the order in which they are constructed. -/
structure LogState (π : Type) where
  log : CLog
  constructed : ℕ
  /-- What each thread is going to note. -/
  notes : π → List Str
  /-- The message in `CLogNote` that was constructed and is not added yet. -/
  noting : π → Option ℕ
  loop : LoopPc
  written : ℕ
  file : Str

/-- Whose step it is. -/
inductive LogTurn (π : Type)
  | note (t : π)
  | loop

namespace LogState

variable {π : Type} [DecidableEq π]

/-- A step of `CLogNote`, for the thread `t`. -/
def CLogNote (S : LogSystem π) (t : π) (s : LogState π) : Option (LogState π) :=
  match s.noting t with
  | some j => do
    let (_, log) ← s.log.addCLogWrite (S.getThreadID t) (some j)
    some { s with log := log, noting := Function.update s.noting t none }
  | none =>
    match s.notes t with
    | [] => some s
    | note :: rest =>
      some { s with
        log := { s.log with
          writes := Function.update s.log.writes s.constructed
            ⟨cstr note, [], S.raw s.constructed⟩ }
        constructed := s.constructed + 1
        notes := Function.update s.notes t rest
        noting := Function.update s.noting t (some s.constructed) }

/-- A step of `loop`. -/
def loopStep (S : LogSystem π) (s : LogState π) : Option (LogState π) :=
  match s.loop with
  | .getCLogWrite => do
    let (dowrite, log) ← s.log.getCLogWrite
    match dowrite with
    | some j => some { s with log := log, loop := .writeLogFile j }
    | none => some { s with log := log }
  | .writeLogFile j =>
    some { s with
      loop := .getCLogWrite
      written := s.written + 1
      file := s.file ++ (s.log.writes j).writeLogFile (S.GenerateTimeStamp s.written) }

/-- One step of the whole. -/
def step (S : LogSystem π) (s : LogState π) : LogTurn π → Option (LogState π)
  | .note t => s.CLogNote S t
  | .loop => s.loopStep S

/-- After the log was constructed, which empties the file. -/
def start (writes : ℕ → CLogWrite) (notes : π → List Str) : LogState π where
  log := ⟨writes, ⟨none, none⟩⟩
  constructed := 0
  notes := notes
  noting _ := none
  loop := .getCLogWrite
  written := 0
  file := []

/-- The states that some interleaving leads to. -/
def Reaches (S : LogSystem π) (s s' : LogState π) : Prop :=
  Relation.ReflTransGen (fun s s' ↦ ∃ turn, step S s turn = some s') s s'

end LogState

/-! ### What is in the file -/

/-- The file after these messages, each with the thread that noted it. -/
def logFile {π : Type} (S : LogSystem π) (added : List (π × Str)) : Str :=
  (added.zipIdx.map fun a ↦
    CLogWrite.writeLogFile ⟨a.1.2, S.getThreadID a.1.1, none⟩ (S.GenerateTimeStamp a.2)).flatten

theorem logFile_append {π : Type} (S : LogSystem π) (added : List (π × Str)) (t : π)
    (message : Str) :
    logFile S (added ++ [(t, message)]) = logFile S added ++
      CLogWrite.writeLogFile ⟨message, S.getThreadID t, none⟩
        (S.GenerateTimeStamp added.length) := by
  simp [logFile, List.zipIdx_append]

/-- What a thread noted. -/
def notedBy {π : Type} [DecidableEq π] (t : π) (added : List (π × Str)) : List Str :=
  (added.filter (·.1 = t)).map Prod.snd

theorem notedBy_append {π : Type} [DecidableEq π] (t t' : π) (added : List (π × Str))
    (message : Str) :
    notedBy t (added ++ [(t', message)]) =
      notedBy t added ++ if t = t' then [message] else [] := by
  simp only [notedBy, List.filter_append, List.map_append]
  split_ifs with h
  · simp [h]
  · simp [Ne.symm h]

namespace LogState

variable {π : Type} [DecidableEq π]

/-- The message that is being written. -/
def inHand (s : LogState π) : List ℕ :=
  match s.loop with
  | .getCLogWrite => []
  | .writeLogFile j => [j]

/-- The state, when the messages `done` are in the file, the messages `rest` were added and wait, at
the addresses `q` if they are in the queue. -/
structure Inv (S : LogSystem π) (notes : π → List Str) (done rest : List (π × Str)) (q : List ℕ)
    (s : LogState π) : Prop where
  represents : Represents (fun j ↦ (s.log.writes j).next) s.log.queue q
  file_eq : s.file = logFile S done
  written_eq : s.written = done.length
  waiting : (s.inHand ++ q).map (fun j ↦ ((s.log.writes j).ThreadID, (s.log.writes j).message)) =
    rest.map fun a ↦ (S.getThreadID a.1, a.2)
  noted : ∀ t, notedBy t (done ++ rest) ++
    ((s.noting t).toList.map fun j ↦ (s.log.writes j).message) ++ (s.notes t).map cstr =
      (notes t).map cstr
  lt_constructed : ∀ j ∈ s.inHand ++ q, j < s.constructed
  noting_lt : ∀ t j, s.noting t = some j → j < s.constructed
  noting_notMem : ∀ t j, s.noting t = some j → j ∉ s.inHand ++ q
  noting_inj : ∀ t t' j, s.noting t = some j → s.noting t' = some j → t = t'

/-! ### One step -/

end LogState

/-- Writing to one message what keeps a field of it keeps this field of every message. -/
theorem CLogWrite.field_update {γ : Type} (field : CLogWrite → γ) {writes : ℕ → CLogWrite} {j : ℕ}
    {w : CLogWrite} (hw : field w = field (writes j)) (a : ℕ) :
    field (Function.update writes j w a) = field (writes a) := by
  rw [Function.apply_update (fun _ ↦ field), hw, Function.update_eq_self]

namespace CLog

variable {s s' : CLog} {id : Str} {j : ℕ}

/-- Adding a message tells it its thread, and changes nothing else but links. -/
theorem frame_addCLogWrite {b : Bool} (h : s.addCLogWrite id (some j) = some (b, s')) (a : ℕ) :
    (s'.writes a).message = (s.writes a).message ∧
      (s'.writes a).ThreadID = if a = j then id else (s.writes a).ThreadID := by
  have hnew : ∀ a, (Function.update s.writes j { s.writes j with ThreadID := id } a).message =
        (s.writes a).message ∧
      (Function.update s.writes j { s.writes j with ThreadID := id } a).ThreadID =
        if a = j then id else (s.writes a).ThreadID := fun a ↦ by
    rw [Function.update_apply]
    split_ifs with haj
    · rw [haj]
      exact ⟨rfl, rfl⟩
    · exact ⟨rfl, rfl⟩
  rw [CLog.addCLogWrite] at h
  simp only at h
  split at h
  · obtain rfl := (Prod.ext_iff.1 (Option.some.inj h)).2
    exact hnew a
  · obtain ⟨t, -, h⟩ := Option.bind_eq_some_iff.1 h
    obtain rfl := (Prod.ext_iff.1 (Option.some.inj h)).2
    exact ⟨(CLogWrite.field_update CLogWrite.message (by rfl) a).trans (hnew a).1,
      (CLogWrite.field_update CLogWrite.ThreadID (by rfl) a).trans (hnew a).2⟩

theorem frame_getCLogWrite {w : Option ℕ} (h : s.getCLogWrite = some (w, s')) :
    s'.writes = s.writes := by
  rw [CLog.getCLogWrite] at h
  split at h
  · obtain rfl := (Prod.ext_iff.1 (Option.some.inj h)).2
    rfl
  · split_ifs at h
    · obtain rfl := (Prod.ext_iff.1 (Option.some.inj h)).2
      rfl
    · obtain ⟨x, -, h⟩ := Option.bind_eq_some_iff.1 h
      obtain rfl := (Prod.ext_iff.1 (Option.some.inj h)).2
      rfl

end CLog

namespace LogState

variable {π : Type} [DecidableEq π]

/-- The turns that the notes still need that are not added. -/
def notesLeft [Fintype π] (notes : π → List Str) (noting : π → Option ℕ) : ℕ :=
  ∑ t, (4 * (notes t).length + 3 * (noting t).toList.length)

/-- The turns that all notes still need. -/
def turnsLeft [Fintype π] (s : LogState π) (q : List ℕ) : ℕ :=
  notesLeft s.notes s.noting + 2 * q.length + s.inHand.length

/-- There is nothing to do for the one whose turn it is. -/
def Idle (s : LogState π) (q : List ℕ) : LogTurn π → Prop
  | .note t => s.noting t = none ∧ s.notes t = []
  | .loop => s.inHand ++ q = []

/-- What one thread does leaves the terms of the others as they are. -/
theorem notesLeft_add [Fintype π] {notes notes' : π → List Str} {noting noting' : π → Option ℕ}
    {t : π} {k : ℕ}
    (ht : 4 * (notes' t).length + 3 * (noting' t).toList.length + k =
      4 * (notes t).length + 3 * (noting t).toList.length)
    (hother : ∀ t' ≠ t, notes' t' = notes t' ∧ noting' t' = noting t') :
    notesLeft notes' noting' + k = notesLeft notes noting := by
  have hrest : ∑ t' ∈ Finset.univ.erase t,
        (4 * (notes' t').length + 3 * (noting' t').toList.length) =
      ∑ t' ∈ Finset.univ.erase t, (4 * (notes t').length + 3 * (noting t').toList.length) :=
    Finset.sum_congr rfl fun t' ht' ↦ by
      obtain ⟨hnotes, hnoting⟩ := hother t' (Finset.ne_of_mem_erase ht')
      rw [hnotes, hnoting]
  rw [notesLeft, notesLeft, ← Finset.add_sum_erase _ _ (Finset.mem_univ t), hrest,
    ← Finset.add_sum_erase _ (fun t ↦ 4 * (notes t).length + _) (Finset.mem_univ t), ← ht]
  omega

namespace Inv

variable {S : LogSystem π} {notes : π → List Str} {done rest : List (π × Str)} {q : List ℕ}
  {s : LogState π} {t : π}

/-- A message is constructed. -/
theorem construct (h : s.Inv S notes done rest q) (hnone : s.noting t = none) {note : Str}
    {later : List Str} (hnotes : s.notes t = note :: later) :
    ∃ s', s.CLogNote S t = some s' ∧ s'.Inv S notes done rest q ∧
      ∀ _ : Fintype π, s'.turnsLeft q < s.turnsLeft q := by
  rw [CLogNote]
  simp only [hnone, hnotes]
  have hold : ∀ a < s.constructed, Function.update s.log.writes s.constructed
      ⟨cstr note, [], S.raw s.constructed⟩ a = s.log.writes a :=
    fun a ha ↦ Function.update_of_ne ha.ne _ _
  refine ⟨_, rfl, ⟨h.represents.congr fun a ha ↦ ?_, h.file_eq, h.written_eq, ?_, fun t' ↦ ?_,
    fun a ha ↦ ?_, fun t' a ha ↦ ?_, fun t' a ha ↦ ?_, fun t₁ t₂ a h₁ h₂ ↦ ?_⟩, fun _ ↦ ?_⟩
  · exact congrArg CLogWrite.next (hold a (h.lt_constructed a (List.mem_append_right _ ha)))
  · rw [← h.waiting]
    exact List.map_congr_left fun a ha ↦
      congrArg (fun w : CLogWrite ↦ (w.ThreadID, w.message)) (hold a (h.lt_constructed a ha))
  · rw [← h.noted t']
    show _ ++ ((Function.update s.noting t _ t').toList.map fun j ↦
      (Function.update s.log.writes _ _ j).message) ++
        (Function.update s.notes t later t').map cstr = _
    rcases eq_or_ne t' t with rfl | hne
    · simp [hnone, hnotes]
    · rw [Function.update_of_ne hne, Function.update_of_ne hne]
      congr 2
      refine List.map_congr_left fun a ha ↦ ?_
      rw [hold a (h.noting_lt t' a (by simpa using ha))]
  · exact (h.lt_constructed a ha).trans (Nat.lt_succ_self _)
  · change Function.update s.noting t _ t' = some a at ha
    rcases eq_or_ne t' t with rfl | hne
    · rw [Function.update_self] at ha
      exact Option.some.inj ha ▸ Nat.lt_succ_self _
    · rw [Function.update_of_ne hne] at ha
      exact (h.noting_lt t' a ha).trans (Nat.lt_succ_self _)
  · change Function.update s.noting t _ t' = some a at ha
    rcases eq_or_ne t' t with rfl | hne
    · rw [Function.update_self] at ha
      obtain rfl := Option.some.inj ha
      exact fun hmem ↦ lt_irrefl _ (h.lt_constructed _ hmem)
    · rw [Function.update_of_ne hne] at ha
      exact h.noting_notMem t' a ha
  · change Function.update s.noting t _ t₁ = some a at h₁
    change Function.update s.noting t _ t₂ = some a at h₂
    -- the new message is nobody else's
    have hnew : ∀ t', s.noting t' ≠ some s.constructed :=
      fun t' ht' ↦ lt_irrefl _ (h.noting_lt t' _ ht')
    rw [Function.update_apply] at h₁ h₂
    split_ifs at h₁ h₂ with e₁ e₂ e₂
    · exact e₁.trans e₂.symm
    · exact absurd (h₁ ▸ h₂) (hnew t₂)
    · exact absurd (h₂ ▸ h₁) (hnew t₁)
    · exact h.noting_inj t₁ t₂ a h₁ h₂
  · have hleft : notesLeft (Function.update s.notes t later)
        (Function.update s.noting t (some s.constructed)) + 1 = notesLeft s.notes s.noting :=
      notesLeft_add (t := t) (by simp [hnone, hnotes]; omega)
        fun t' hne ↦ ⟨Function.update_of_ne hne _ _, Function.update_of_ne hne _ _⟩
    show notesLeft (Function.update s.notes t later)
      (Function.update s.noting t (some s.constructed)) + _ + s.inHand.length < _
    rw [turnsLeft, ← hleft]
    omega

/-- A message is added. -/
theorem add (h : s.Inv S notes done rest q) {j : ℕ} (hj : s.noting t = some j) :
    ∃ s', s.CLogNote S t = some s' ∧
      s'.Inv S notes done (rest ++ [(t, (s.log.writes j).message)]) (q ++ [j]) ∧
      ∀ _ : Fintype π, s'.turnsLeft (q ++ [j]) < s.turnsLeft q := by
  have hnot : j ∉ q := fun hmem ↦ h.noting_notMem t j hj (List.mem_append_right _ hmem)
  obtain ⟨log, hlog, hrep⟩ := CLog.StandsFor.addCLogWrite (q := fun _ ↦ q)
    (show s.log.StandsFor fun _ ↦ q from h.represents) hnot (S.getThreadID t)
  have hframe := CLog.frame_addCLogWrite hlog
  rw [CLog.StandsFor, Function.update_self] at hrep
  have hnoting : ∀ t' a, Function.update s.noting t none t' = some a →
      t' ≠ t ∧ s.noting t' = some a := fun t' a ha ↦ by
    rcases eq_or_ne t' t with rfl | hne
    · rw [Function.update_self] at ha
      exact absurd ha (by simp)
    · rw [Function.update_of_ne hne] at ha
      exact ⟨hne, ha⟩
  refine ⟨{ s with log := log, noting := Function.update s.noting t none },
    by rw [CLogNote]; simp only [hj, hlog, Option.bind_eq_bind, Option.bind_some],
    ⟨hrep, h.file_eq, h.written_eq, ?_, fun t' ↦ ?_, fun a ha ↦ ?_, fun t' a ha ↦ ?_,
      fun t' a ha ↦ ?_, fun t₁ t₂ a h₁ h₂ ↦ ?_⟩, fun _ ↦ ?_⟩
  · show (s.inHand ++ (q ++ [j])).map
      (fun a ↦ ((log.writes a).ThreadID, (log.writes a).message)) = _
    refine Eq.trans ?_ List.map_append.symm
    rw [← List.append_assoc, List.map_append, ← h.waiting, List.map_singleton,
      List.map_singleton, (hframe j).1, (hframe j).2, if_pos rfl]
    congr 1
    refine List.map_congr_left fun a ha ↦ ?_
    have hne : a ≠ j := fun haj ↦ h.noting_notMem t j hj (haj ▸ ha)
    rw [(hframe a).1, (hframe a).2, if_neg hne]
  · rw [← h.noted t']
    show _ ++ (Function.update s.noting t none t').toList.map (fun a ↦ (log.writes a).message) ++
      _ = _
    rw [← List.append_assoc done, notedBy_append]
    simp only [(hframe _).1]
    rcases eq_or_ne t' t with rfl | hne
    · simp [hj]
    · simp [hne]
  · change a ∈ s.inHand ++ (q ++ [j]) at ha
    rw [← List.append_assoc, List.mem_append, List.mem_singleton] at ha
    rcases ha with ha | rfl
    · exact h.lt_constructed a ha
    · exact h.noting_lt t _ hj
  · exact h.noting_lt t' a (hnoting t' a ha).2
  · obtain ⟨hne, ha⟩ := hnoting t' a ha
    show a ∉ s.inHand ++ (q ++ [j])
    rw [← List.append_assoc, List.mem_append, List.mem_singleton, not_or]
    refine ⟨h.noting_notMem t' a ha, ?_⟩
    rintro rfl
    exact hne (h.noting_inj t' t _ ha hj)
  · exact h.noting_inj t₁ t₂ a (hnoting t₁ a h₁).2 (hnoting t₂ a h₂).2
  · have hleft : notesLeft s.notes (Function.update s.noting t none) + 3 =
        notesLeft s.notes s.noting :=
      notesLeft_add (t := t) (by simp [hj]) fun t' hne ↦ ⟨rfl, Function.update_of_ne hne _ _⟩
    show notesLeft s.notes (Function.update s.noting t none) + 2 * (q ++ [j]).length +
      s.inHand.length < _
    rw [turnsLeft, ← hleft, List.length_append, List.length_singleton]
    omega

/-- A message is taken out of the queue. -/
theorem get {j : ℕ} (h : s.Inv S notes done rest (j :: q)) (hloop : s.loop = .getCLogWrite) :
    ∃ s', s.loopStep S = some s' ∧ s'.Inv S notes done rest q ∧
      ∀ _ : Fintype π, s'.turnsLeft q < s.turnsLeft (j :: q) := by
  obtain ⟨log, hlog, hrep⟩ := CLog.StandsFor.getCLogWrite (q := fun _ ↦ j :: q)
    (show s.log.StandsFor fun _ ↦ j :: q from h.represents)
  have hframe := CLog.frame_getCLogWrite hlog
  rw [CLog.StandsFor, Function.update_self] at hrep
  have hhand : s.inHand = [] := by rw [inHand, hloop]
  refine ⟨{ s with log := log, loop := .writeLogFile j },
    by
      rw [loopStep]
      simp only [hloop, hlog, Option.bind_eq_bind, Option.bind_some, List.head?_cons],
    ⟨hrep, h.file_eq, h.written_eq, ?_, ?_, ?_, h.noting_lt, ?_, h.noting_inj⟩, fun _ ↦ ?_⟩
  · have hwaiting := h.waiting
    rw [hhand, ← hframe] at hwaiting
    exact hwaiting
  · have hnoted := h.noted
    rw [← hframe] at hnoted
    exact hnoted
  · have hlt := h.lt_constructed
    rw [hhand] at hlt
    exact hlt
  · have hnotMem := h.noting_notMem
    rw [hhand] at hnotMem
    exact hnotMem
  · show notesLeft s.notes s.noting + 2 * q.length + 1 < _
    rw [turnsLeft, List.length_cons]
    omega

/-- A message is written. -/
theorem write (h : s.Inv S notes done rest q) {j : ℕ} (hloop : s.loop = .writeLogFile j) :
    ∃ s', s.loopStep S = some s' ∧
      (∃ a rest', rest = a :: rest' ∧ s'.Inv S notes (done ++ [a]) rest' q) ∧
      ∀ _ : Fintype π, s'.turnsLeft q < s.turnsLeft q := by
  have hhand : s.inHand = [j] := by rw [inHand, hloop]
  have hwaiting := h.waiting
  rw [hhand, List.singleton_append, List.map_cons] at hwaiting
  cases rest with
  | nil => exact absurd hwaiting (by simp)
  | cons a rest' =>
    obtain ⟨hj, hq⟩ := List.cons.inj hwaiting
    have hid : (s.log.writes j).ThreadID = S.getThreadID a.1 := congrArg Prod.fst hj
    have hmessage : (s.log.writes j).message = a.2 := congrArg Prod.snd hj
    refine ⟨{ s with
        loop := .getCLogWrite
        written := s.written + 1
        file := s.file ++ (s.log.writes j).writeLogFile (S.GenerateTimeStamp s.written) },
      by rw [loopStep]; simp only [hloop], ⟨a, rest', rfl, h.represents, ?_, ?_, hq,
      fun t ↦ ?_, fun b hb ↦ ?_, h.noting_lt, fun t b hb hmem ↦ ?_, h.noting_inj⟩, fun _ ↦ ?_⟩
    · show s.file ++ (s.log.writes j).writeLogFile (S.GenerateTimeStamp s.written) = _
      rw [logFile_append, h.file_eq, h.written_eq, CLogWrite.writeLogFile, hid, hmessage]
      rfl
    · show s.written + 1 = _
      rw [h.written_eq, List.length_append, List.length_singleton]
    · rw [← h.noted t, List.append_cons done a rest']
    · exact h.lt_constructed b (List.mem_append_right _ hb)
    · exact h.noting_notMem t b hb (List.mem_append_right _ hmem)
    · show notesLeft s.notes s.noting + 2 * q.length + 0 < _
      rw [turnsLeft, hhand, List.length_singleton]
      omega

/-- **Every step has a result**, and keeps the messages accounted for. A step that does not change
anything is one of a thread that has nothing to do; any other leaves less to do. -/
theorem step (h : s.Inv S notes done rest q) (turn : LogTurn π) :
    ∃ s', LogState.step S s turn = some s' ∧ ((s' = s ∧ s.Idle q turn) ∨
      ∃ done' rest' q', done <+: done' ∧ s'.Inv S notes done' rest' q' ∧
        ∀ _ : Fintype π, s'.turnsLeft q' < s.turnsLeft q) := by
  cases turn with
  | note t =>
    cases hnoting : s.noting t with
    | some j =>
      obtain ⟨s', hs', hinv, hlt⟩ := h.add hnoting
      exact ⟨s', hs', Or.inr ⟨_, _, _, List.prefix_refl _, hinv, hlt⟩⟩
    | none =>
      cases hnotes : s.notes t with
      | cons note later =>
        obtain ⟨s', hs', hinv, hlt⟩ := h.construct hnoting hnotes
        exact ⟨s', hs', Or.inr ⟨_, _, _, List.prefix_refl _, hinv, hlt⟩⟩
      | nil =>
        refine ⟨s, ?_, Or.inl ⟨rfl, hnoting, hnotes⟩⟩
        show s.CLogNote S t = _
        rw [CLogNote]
        simp only [hnoting, hnotes]
  | loop =>
    cases hloop : s.loop with
    | writeLogFile j =>
      obtain ⟨s', hs', ⟨a, rest', -, hinv⟩, hlt⟩ := h.write hloop
      exact ⟨s', hs', Or.inr ⟨_, _, _, List.prefix_append _ _, hinv, hlt⟩⟩
    | getCLogWrite =>
      cases q with
      | cons j q =>
        obtain ⟨s', hs', hinv, hlt⟩ := h.get hloop
        exact ⟨s', hs', Or.inr ⟨_, _, _, List.prefix_refl _, hinv, hlt⟩⟩
      | nil =>
        have hnil : s.inHand ++ [] = [] := by rw [inHand, hloop]; rfl
        refine ⟨s, ?_, Or.inl ⟨rfl, hnil⟩⟩
        have htail : s.log.queue.tail = none := h.represents.tail_eq
        show s.loopStep S = _
        rw [loopStep, CLog.getCLogWrite]
        simp only [hloop, htail, Option.bind_eq_bind, Option.bind_some]
        rw [← hloop]

theorem start (S : LogSystem π) (writes : ℕ → CLogWrite) (notes : π → List Str) :
    (LogState.start writes notes).Inv S notes [] [] [] :=
  ⟨Represents.empty _, rfl, rfl, rfl, fun _ ↦ rfl, by simp [inHand, LogState.start],
    by simp [LogState.start], by simp [LogState.start], by simp [LogState.start]⟩

end Inv

end LogState

/-! ### Every run -/

/-- Two threads that note, on a system whose memory is full of old links. -/
def sampleLog : LogSystem Bool where
  getThreadID t := if t then ['1', '4'] else ['1', '5']
  GenerateTimeStamp _ := "Apr 08 12:00:00".toList
  raw _ := some 3

section Runs

variable {π : Type} [DecidableEq π] (S : LogSystem π) (writes : ℕ → CLogWrite)
  (notes : π → List Str)

/-- **The log is an interleaving of the notes.** In every state that some interleaving reaches, the
file consists of the lines of some messages, `done`; behind these, `rest` was added and waits, at
the addresses `q` or in the hands of the writing thread; and what a thread added, what it is adding
and what it is still going to note are its notes, in order. Every step has a result. -/
theorem file_of_reaches (s : LogState π) (hs : (LogState.start writes notes).Reaches S s) :
    (∃ done rest q, s.file = logFile S done ∧
      Represents (fun j ↦ (s.log.writes j).next) s.log.queue q ∧
      (s.inHand ++ q).map (fun j ↦ ((s.log.writes j).ThreadID, (s.log.writes j).message)) =
        rest.map (fun a ↦ (S.getThreadID a.1, a.2)) ∧
      ∀ t, notedBy t (done ++ rest) ++
        ((s.noting t).toList.map fun j ↦ (s.log.writes j).message) ++ (s.notes t).map cstr =
          (notes t).map cstr) ∧
    ∀ turn, ∃ s', LogState.step S s turn = some s' := by
  obtain ⟨done, rest, q, h⟩ : ∃ done rest q, s.Inv S notes done rest q := by
    induction hs with
    | refl => exact ⟨[], [], [], .start S writes notes⟩
    | tail _ hstep ih =>
      obtain ⟨turn, hturn⟩ := hstep
      obtain ⟨done, rest, q, h⟩ := ih
      obtain ⟨s', hs', heffect⟩ := h.step turn
      obtain rfl := Option.some.inj (hs'.symm.trans hturn)
      rcases heffect with ⟨rfl, -⟩ | ⟨done', rest', q', -, h', -⟩
      · exact ⟨done, rest, q, h⟩
      · exact ⟨done', rest', q', h'⟩
  exact ⟨⟨done, rest, q, h.file_eq, h.represents, h.waiting, h.noted⟩,
    fun turn ↦ (h.step turn).imp fun _ hs' ↦ hs'.1⟩

theorem file_of_reaches_sample : ∃ s : LogState Bool,
    (LogState.start (fun _ ↦ ⟨[], [], none⟩) fun _ ↦ [['a']]).Reaches sampleLog s ∧ s.written = 1 ∧
    (∃ done rest q, s.file = logFile sampleLog done ∧
      Represents (fun j ↦ (s.log.writes j).next) s.log.queue q ∧
      (s.inHand ++ q).map (fun j ↦ ((s.log.writes j).ThreadID, (s.log.writes j).message)) =
        rest.map (fun a ↦ (sampleLog.getThreadID a.1, a.2)) ∧
      ∀ t, notedBy t (done ++ rest) ++
        ((s.noting t).toList.map fun j ↦ (s.log.writes j).message) ++ (s.notes t).map cstr =
          [cstr ['a']]) ∧
    ∀ turn, ∃ s', LogState.step sampleLog s turn = some s' := by
  -- the second thread constructs its message first, and the first thread adds its own first
  have hreach := ((((Relation.ReflTransGen.refl (r := fun s s' : LogState Bool ↦
    ∃ turn, LogState.step sampleLog s turn = some s')
    (a := LogState.start (fun _ ↦ ⟨[], [], none⟩) fun _ ↦ [['a']])).tail ⟨.note false, rfl⟩).tail
      ⟨.note true, rfl⟩).tail ⟨.note true, rfl⟩).tail ⟨.loop, rfl⟩ |>.tail ⟨.loop, rfl⟩
  exact ⟨_, hreach, rfl, file_of_reaches sampleLog _ _ _ hreach⟩

section Complete

variable [Fintype π] {S writes notes} {n : ℕ} {s : LogState π} {turn : ℕ → LogTurn π}
  {run : ℕ → LogState π}

/-- The notes need `n` more turns. -/
def NotesNeed (S : LogSystem π) (notes : π → List Str) (n : ℕ) (s : LogState π) : Prop :=
  ∃ done rest q, s.Inv S notes done rest q ∧ s.turnsLeft q = n

/-- The same, and the one whose turn is `x` has something to do. -/
def NotesNeedOf (S : LogSystem π) (notes : π → List Str) (n : ℕ) (x : LogTurn π)
    (s : LogState π) : Prop :=
  ∃ done rest q, s.Inv S notes done rest q ∧ s.turnsLeft q = n ∧ ¬ s.Idle q x

/-- As long as a note is not in the file, somebody has something to do. -/
theorem NotesNeed.exists_of (h : NotesNeed S notes (n + 1) s) :
    ∃ x, NotesNeedOf S notes (n + 1) x s := by
  obtain ⟨done, rest, q, hinv, hn⟩ := h
  by_contra hall
  have hidle : ∀ x, s.Idle q x := fun x ↦ by
    by_contra hx
    exact hall ⟨x, done, rest, q, hinv, hn, hx⟩
  have hnotes : LogState.notesLeft s.notes s.noting = 0 :=
    Finset.sum_eq_zero fun t _ ↦ by
      obtain ⟨hnoting, hnotes⟩ := hidle (.note t)
      simp [hnoting, hnotes]
  obtain ⟨hhand, hq⟩ := List.append_eq_nil_iff.1 (hidle .loop)
  rw [LogState.turnsLeft, hnotes, hhand, hq] at hn
  simp at hn

/-- Who has something to do does it in his next turn. -/
theorem notesNeedOf_leadsTo (hrun : IsRun (LogState.step S) turn run) {x : LogTurn π}
    (hfair : Fair turn x) :
    LeadsTo run (NotesNeedOf S notes n x) fun s ↦ ∃ m < n, NotesNeed S notes m s := by
  have hstep : ∀ y s s', NotesNeedOf S notes n x s → LogState.step S s y = some s' →
      (∃ m < n, NotesNeed S notes m s') ∨ NotesNeedOf S notes n x s' ∧ y ≠ x := by
    rintro y s s' ⟨done, rest, q, hinv, rfl, hx⟩ hy
    obtain ⟨s₁, hs₁, heffect⟩ := hinv.step y
    obtain rfl := Option.some.inj (hs₁.symm.trans hy)
    rcases heffect with ⟨rfl, hidle⟩ | ⟨done', rest', q', -, hinv', hlt⟩
    · exact Or.inr ⟨⟨done, rest, q, hinv, rfl, hx⟩, fun hyx ↦ hx (hyx ▸ hidle)⟩
    · exact Or.inl ⟨_, hlt _, done', rest', q', hinv', rfl⟩
  refine LeadsTo.ensures hrun hfair (fun s s' k h _ hs' ↦ ?_) fun s s' h hs' ↦ ?_
  · exact (hstep _ s s' h hs').symm.imp And.left id
  · exact (hstep _ s s' h hs').resolve_right fun hx ↦ hx.2 rfl

theorem notesNeed_leadsTo_zero (hrun : IsRun (LogState.step S) turn run)
    (hfair : ∀ x, Fair turn x) (n : ℕ) :
    LeadsTo run (NotesNeed S notes n) (NotesNeed S notes 0) := by
  refine LeadsTo.of_measure (fun n k hk ↦ ?_) n
  obtain ⟨x, hx⟩ := hk.exists_of
  obtain ⟨m, hm, i, hi, hneed⟩ := notesNeedOf_leadsTo hrun (hfair x) k hx
  exact ⟨m, hm, i, Nat.lt_succ_iff.1 hi, hneed⟩

/-- When nothing is left to do, all notes are in the file. -/
theorem LogState.Inv.complete {done rest : List (π × Str)} {q : List ℕ}
    (h : s.Inv S notes done rest q) (hzero : s.turnsLeft q = 0) (t : π) :
    notedBy t done = (notes t).map cstr := by
  have hleft : LogState.notesLeft s.notes s.noting + 2 * q.length + s.inHand.length = 0 := hzero
  have hq : q = [] := List.length_eq_zero_iff.1 (by omega)
  have hhand : s.inHand = [] := List.length_eq_zero_iff.1 (by omega)
  have hterm : 4 * (s.notes t).length + 3 * (s.noting t).toList.length = 0 :=
    Finset.sum_eq_zero_iff.1 (show LogState.notesLeft s.notes s.noting = 0 by omega) t
      (Finset.mem_univ t)
  have hnotes : s.notes t = [] := List.length_eq_zero_iff.1 (by omega)
  have hnoting : (s.noting t).toList = [] := List.length_eq_zero_iff.1 (by omega)
  have hrest : rest = [] := by
    have hwaiting := h.waiting
    rw [hq, hhand] at hwaiting
    exact List.map_eq_nil_iff.1 hwaiting.symm
  have hnoted := h.noted t
  rw [hnotes, hnoting, hrest] at hnoted
  simpa using hnoted

end Complete

/-- **All notes get into the file.** If each thread always gets another turn, then from some time on
the file consists of the lines of all notes, those of each thread in order. -/
theorem file_complete [Fintype π] (turn : ℕ → LogTurn π) (hfair : ∀ x, Fair turn x) :
    ∃ run : ℕ → LogState π, run 0 = LogState.start writes notes ∧
      IsRun (LogState.step S) turn run ∧
      ∃ done, (∀ t, notedBy t done = (notes t).map cstr) ∧
        ∃ n, ∀ m ≥ n, (run m).file = logFile S done := by
  obtain ⟨run, hrun₀, hrun, -⟩ := exists_isRun
    (fun s ↦ ∃ done rest q, LogState.Inv S notes done rest q s)
    (fun s x ⟨done, rest, q, h⟩ ↦ by
      obtain ⟨s', hs', ⟨rfl, -⟩ | ⟨done', rest', q', -, h', -⟩⟩ := h.step x
      · exact ⟨_, hs', done, rest, q, h⟩
      · exact ⟨s', hs', done', rest', q', h'⟩)
    ⟨[], [], [], LogState.Inv.start S writes notes⟩ turn
  refine ⟨run, hrun₀, hrun, ?_⟩
  obtain ⟨n, -, done, rest, q, hinv, hzero⟩ := notesNeed_leadsTo_zero hrun hfair _ 0
    ⟨[], [], [], hrun₀ ▸ LogState.Inv.start S writes notes, rfl⟩
  refine ⟨done, hinv.complete hzero, n, fun m hm ↦ ?_⟩
  have hsame : run m = run n := hrun.stable (· = run n) (fun s s' k hk hs' ↦ by
    subst hk
    obtain ⟨s₁, hs₁, heffect⟩ := hinv.step (turn k)
    obtain rfl := Option.some.inj (hs₁.symm.trans hs')
    rcases heffect with ⟨heq, -⟩ | ⟨done', rest', q', -, -, hlt⟩
    · exact heq
    · exact absurd (hlt _) (by omega)) hm rfl
  rw [hsame]
  exact hinv.file_eq

/-- The schedule in which each thread has every third turn. -/
def logRoundRobin (n : ℕ) : LogTurn Bool :=
  if n % 3 = 0 then .loop else .note (decide (n % 3 = 1))

theorem file_complete_sample : (∀ x, Fair logRoundRobin x) ∧
    ∃ run : ℕ → LogState Bool,
      run 0 = LogState.start (fun _ ↦ ⟨[], [], none⟩) (fun _ ↦ [['a'], ['b']]) ∧
      IsRun (LogState.step sampleLog) logRoundRobin run ∧
      ∃ done, (∀ t, notedBy t done = [cstr ['a'], cstr ['b']]) ∧
        ∃ n, ∀ m ≥ n, (run m).file = logFile sampleLog done := by
  have hfair : ∀ x, Fair logRoundRobin x := by
    intro x n
    cases x with
    | loop => exact ⟨3 * n, by omega, by simp [logRoundRobin]⟩
    | note t =>
      cases t with
      | true => exact ⟨3 * n + 1, by omega, by simp [logRoundRobin]⟩
      | false => exact ⟨3 * n + 2, by omega, by simp [logRoundRobin]⟩
  exact ⟨hfair, file_complete sampleLog _ _ logRoundRobin hfair⟩

end Runs

end CArchitecture
