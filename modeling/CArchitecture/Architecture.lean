import CArchitecture.Library.Interleaving
import CArchitecture.MgrProgress
import CArchitecture.TestCase

/-!
# The whole program

`OnParserOpenfiles` reads a menu, makes a test case of every line that names a folder, submits them
all to the job manager, and starts its threads. Each test case is read by one thread, parsed by some
other, and written by the first one again, while the same happens to the others; all of them append
their lines to one file, and each has a folder of its own for the rest.

The manager sees to it that what is done to a job is done in order and once. Here the jobs get their
contents back: doing what the log of the manager says, in that order, to the test cases that it
says. As different test cases share nothing but the disk (`Interleaving`), each comes out as if it
were alone.

* `results_of_reaches`: at all times, whatever the threads do and whenever `exit` is typed, the disk
  has the results of whole test cases and nothing else.
* `results_complete`: if every thread always gets another turn, in the end it has those of all.
-/

namespace CArchitecture

open FairRun Text

/-! ### The menu -/

/-- The lines that `getline` finds one after another. -/
def getlines (text : Str) : List Str :=
  let pieces := text.splitOn '\n'
  if pieces.getLast? = some [] then pieces.dropLast else pieces

/-- What a line of the menu must have, to name a folder. -/
def pathText : Str := "path:".toList

/-- The names of the test cases: what comes after `path:` in the lines that have it. -/
def menuPaths (menu : Str) : List Str :=
  (getlines menu).filterMap fun line ↦
    (CString.find pathText line 0).map fun posPath ↦ line.drop (posPath + 5)

/-- What the program is started with. -/
structure Setup where
  menu : Str
  /-- The folder that a path leads to, and the files by their names. -/
  folder : Str → Folder
  disk : Str → Str
  /-- What each test case finds in the memory, the clock and the draws, when its turns come. -/
  machine : ℕ → Machine

namespace Setup

variable (S : Setup)

/-- The names of the test cases. -/
def names : List Str := menuPaths S.menu

/-- The test case `j`. -/
def testCase (j : ℕ) : CTestCaseCpp := newTestCase (S.names.getD j [])

/-- What comes out of the test case `j` if it is alone. -/
def alone (fuel j : ℕ) : Option OutputFiles :=
  runTestCase fuel (S.machine j) (S.folder (S.testCase j).strTestPath) S.disk (S.names.getD j [])

/-- Every test case of the menu has a line and files that it can be taken through. -/
def Ok : Prop := ∀ j < S.names.length,
  TestCaseOk (S.machine j) (S.folder (S.testCase j).strTestPath) S.disk (S.testCase j)

end Setup

/-- A menu with two folders that have the same files, and a line that names none. -/
def sampleSetup : Setup where
  menu := "path:..//t 2 5\nnone\npath:..//u 2 5\n".toList
  folder _ := sampleTestFolder
  disk name := sampleDisk (name.map fun c ↦ if c = 'u' then 't' else c)
  machine _ := sampleMachine

theorem sampleSetup_names :
    sampleSetup.names = ["..//t 2 5".toList, "..//u 2 5".toList] := by decide

theorem sampleSetup_ok : sampleSetup.Ok := by
  intro j hj
  have hsome : (sampleSetup.alone 60 j).isSome := by
    rw [sampleSetup_names] at hj
    obtain rfl | rfl : j = 0 ∨ j = 1 := by
      have : j < 2 := hj
      omega
    · decide +kernel
    · decide +kernel
  obtain ⟨out, hout⟩ := Option.isSome_iff_exists.1 hsome
  exact testCaseOk_of_run hout

/-! ### What is done to the test cases -/

/-- What a test case holds between its stages. -/
inductive Contents
  | fresh
  | read (files : OrdMap Str HeaderFile × List CReadCpp)
  | modelled (x : Modelled)
  | written (out : OutputFiles)

/-- What the program leaves on the disk: one file for all test cases, and the folders by their
names. -/
structure Results where
  recordsForExcel : Str
  output : Str → Option OutputFiles

/-- The first line of `recordsForExcel.txt`. -/
def excelHeader : Str :=
  "file name \t hcut \t coupling \t cohesion \t time(\\ms) \n".toList

/-- The disk before the threads are started. -/
def noResults : Results := ⟨excelHeader, fun _ ↦ none⟩

/-- The files of a test case are put on the disk. What another one with the same name has put there
is overwritten, but for its line. -/
def Results.write (d : Results) (testcasename : Str) (out : OutputFiles) : Results where
  recordsForExcel := d.recordsForExcel ++ out.record
  output := Function.update d.output testcasename (some out)

/-- The test cases and the disk. -/
structure World where
  contents : ℕ → Contents
  results : Results

/-- One stage of a test case. -/
def work (S : Setup) (fuel j : ℕ) : Contents → Work → Option Contents
  | .fresh, .reading =>
    (doReading (S.machine j) (S.folder (S.testCase j).strTestPath) S.disk (S.testCase j)).map .read
  | .read files, .parsing => (doModeling fuel (S.machine j) (S.testCase j) files).map .modelled
  | .modelled x, .writing => (writeFiles fuel (S.machine j) (S.testCase j) x).map .written
  | _, _ => none

/-- What a stage puts on the disk. -/
def Results.after (d : Results) (testcasename : Str) : Contents → Results
  | .written out => d.write testcasename out
  | _ => d

/-- One stage of one test case. -/
def World.step (S : Setup) (fuel : ℕ) (w : World) (e : ℕ × Work) : Option World := do
  let c ← work S fuel e.1 (w.contents e.1) e.2
  some
    { contents := Function.update w.contents e.1 c
      results := w.results.after (S.testCase e.1).testcasename c }

/-- All that a log says, from the start. -/
def replay (S : Setup) (fuel : ℕ) (log : List (ℕ × Work)) : Option World :=
  log.foldlM (World.step S fuel) ⟨fun _ ↦ .fresh, noResults⟩

/-! ### Each test case comes out as if it were alone -/

/-- The work on a test case, in its order. -/
def allWork : List Work := [.reading, .parsing, .writing]

section Replay

variable {S : Setup} {fuel : ℕ} {log : List (ℕ × Work)} {w w' : World}

/-- To the contents of the test cases the disk makes no difference. -/
theorem map_contents_foldlM (S : Setup) (fuel : ℕ) (log : List (ℕ × Work)) (w : World) :
    (log.foldlM (World.step S fuel) w).map World.contents =
      log.foldlM (Interleaving.step (work S fuel)) w.contents := by
  induction log generalizing w with
  | nil => rfl
  | cons e log ih =>
    rw [List.foldlM_cons, List.foldlM_cons, World.step, Interleaving.step]
    cases work S fuel e.1 (w.contents e.1) e.2 with
    | none => rfl
    | some c => exact ih _

/-- What has been written is not worked on any more. -/
theorem work_written (j : ℕ) (out : OutputFiles) (x : Work) :
    work S fuel j (.written out) x = none := by
  cases x <;> rfl

/-- Writing is what puts something on the disk. -/
theorem eq_written_of_work {j : ℕ} {c c' : Contents} {x : Work}
    (h : work S fuel j c x = some c') :
    (x = .writing ∧ ∃ out, c' = .written out) ∨
      (x ≠ .writing ∧ ∀ (d : Results) name, d.after name c' = d) := by
  cases c with
  | fresh =>
    cases x with
    | reading =>
      obtain ⟨files, -, rfl⟩ := Option.map_eq_some_iff.1 h
      exact Or.inr ⟨by simp, fun d name ↦ rfl⟩
    | parsing | writing => exact absurd h (by simp [work])
  | read files =>
    cases x with
    | parsing =>
      obtain ⟨x, -, rfl⟩ := Option.map_eq_some_iff.1 h
      exact Or.inr ⟨by simp, fun d name ↦ rfl⟩
    | reading | writing => exact absurd h (by simp [work])
  | modelled x =>
    rename_i y
    cases y with
    | writing =>
      obtain ⟨out, -, rfl⟩ := Option.map_eq_some_iff.1 h
      exact Or.inl ⟨rfl, out, rfl⟩
    | reading | parsing => exact absurd h (by simp [work])
  | written out => exact absurd h (by simp [work_written])

theorem inOrder_append (x : Work) (log log' : List (ℕ × Work)) :
    inOrder x (log ++ log') = inOrder x log ++ inOrder x log' := by
  simp [inOrder]

theorem World.of_step {j : ℕ} {x : Work} (h : w.step S fuel (j, x) = some w') :
    ∃ c, work S fuel j (w.contents j) x = some c ∧
      w'.contents = Function.update w.contents j c ∧
      w'.results = w.results.after (S.testCase j).testcasename c := by
  obtain ⟨c, hc, h⟩ := Option.bind_eq_some_iff.1 h
  obtain rfl := Option.some.inj h
  exact ⟨c, hc, rfl, rfl⟩

/-- **The disk**, told from the test cases that were written, in their order. -/
theorem results_of_replay (h : replay S fuel log = some w) :
    (∀ j ∈ inOrder .writing log, ∃ out, w.contents j = .written out) ∧
      w.results = (inOrder .writing log).foldl
        (fun d j ↦ d.after (S.testCase j).testcasename (w.contents j)) noResults := by
  induction log using List.reverseRecOn generalizing w with
  | nil =>
    obtain rfl := Option.some.inj h
    exact ⟨by simp [inOrder], rfl⟩
  | append_singleton log e ih =>
    obtain ⟨j, x⟩ := e
    rw [replay, List.foldlM_append] at h
    obtain ⟨w₁, hw₁, h⟩ := Option.bind_eq_some_iff.1 h
    rw [List.foldlM_cons] at h
    obtain ⟨w₂, hstep, h⟩ := Option.bind_eq_some_iff.1 h
    obtain rfl := Option.some.inj h
    obtain ⟨c, hc, hcontents, hlast⟩ := World.of_step hstep
    obtain ⟨hwritten, hresults⟩ := ih hw₁
    -- the test case of the last entry was not written before
    have hsame : ∀ k ∈ inOrder .writing log, w₂.contents k = w₁.contents k := by
      intro k hk
      obtain ⟨out, hout⟩ := hwritten k hk
      have hne : k ≠ j := by
        rintro rfl
        rw [hout, work_written] at hc
        exact absurd hc (by simp)
      rw [hcontents, Function.update_of_ne hne]
    have hbefore : ∀ k ∈ inOrder .writing log, ∃ out, w₂.contents k = .written out := by
      intro k hk
      rw [hsame k hk]
      exact hwritten k hk
    have hfold : (inOrder .writing log).foldl
        (fun d k ↦ d.after (S.testCase k).testcasename (w₂.contents k)) noResults =
          w₁.results := by
      rw [hresults]
      exact List.foldl_ext _ _ _ fun d k hk ↦ by rw [hsame k hk]
    have hj : w₂.contents j = c := by rw [hcontents, Function.update_self]
    rw [inOrder_append]
    rcases eq_written_of_work hc with ⟨rfl, out, rfl⟩ | ⟨hx, hafter⟩
    · rw [show inOrder .writing [(j, Work.writing)] = [j] from rfl]
      refine ⟨fun k hk ↦ ?_, ?_⟩
      · rcases List.mem_append.1 hk with hk | hk
        · exact hbefore k hk
        · exact ⟨out, List.mem_singleton.1 hk ▸ hj⟩
      · rw [List.foldl_append, hfold, List.foldl_cons, List.foldl_nil, hj, hlast]
    · rw [show inOrder .writing [(j, x)] = [] by simp [inOrder, hx], List.append_nil]
      exact ⟨hbefore, (hlast.trans (hafter _ _)).trans hfold.symm⟩

/-- **A test case that is alone**, up to some stage. -/
theorem exists_foldlM_work {j : ℕ} {out : OutputFiles} (h : S.alone fuel j = some out)
    {l : List Work} (hl : l <+: allWork) :
    ∃ c, l.foldlM (work S fuel j) .fresh = some c ∧ (.writing ∈ l → c = .written out) := by
  obtain ⟨files, hfiles, h⟩ := Option.bind_eq_some_iff.1 h
  obtain ⟨x, hx, hout⟩ := Option.bind_eq_some_iff.1 h
  have hread : work S fuel j .fresh .reading = some (.read files) :=
    Option.map_eq_some_iff.2 ⟨files, hfiles, rfl⟩
  have hparse : work S fuel j (.read files) .parsing = some (.modelled x) :=
    Option.map_eq_some_iff.2 ⟨x, hx, rfl⟩
  have hwrite : work S fuel j (.modelled x) .writing = some (.written out) :=
    Option.map_eq_some_iff.2 ⟨out, hout, rfl⟩
  have hmem := (List.mem_inits l allWork).2 hl
  simp only [allWork, List.inits, List.map_cons, List.map_nil, List.mem_cons, List.not_mem_nil,
    or_false] at hmem
  rcases hmem with rfl | rfl | rfl | rfl
  · exact ⟨_, rfl, by simp⟩
  · exact ⟨.read files, by simp [hread], by simp⟩
  · exact ⟨.modelled x, by simp [hread, hparse], by simp⟩
  · exact ⟨.written out, by simp [hread, hparse, hwrite], fun _ ↦ rfl⟩

/-- The disk after these test cases were written. -/
def resultsOf (S : Setup) (outs : ℕ → OutputFiles) (order : List ℕ) : Results :=
  order.foldl (fun d j ↦ d.write (S.testCase j).testcasename (outs j)) noResults

theorem recordsForExcel_resultsOf (outs : ℕ → OutputFiles) (order : List ℕ) :
    (resultsOf S outs order).recordsForExcel =
      excelHeader ++ order.flatMap fun j ↦ (outs j).record := by
  induction order using List.reverseRecOn with
  | nil => exact (List.append_nil _).symm
  | append_singleton order j ih =>
    rw [resultsOf, List.foldl_append, List.flatMap_append, ← List.append_assoc, ← ih,
      List.flatMap_cons, List.flatMap_nil, List.append_nil]
    rfl

/-- A folder has the files of the last test case with its name. -/
theorem output_resultsOf (outs : ℕ → OutputFiles) (order : List ℕ) (name : Str) :
    (resultsOf S outs order).output name =
      ((order.filter fun j ↦ (S.testCase j).testcasename = name).getLast?).map outs := by
  induction order using List.reverseRecOn with
  | nil => rfl
  | append_singleton order j ih =>
    rw [resultsOf, List.foldl_append, List.foldl_cons, List.foldl_nil, List.filter_append]
    show Function.update (resultsOf S outs order).output _ _ name = _
    rcases eq_or_ne (S.testCase j).testcasename name with rfl | hne
    · rw [Function.update_self]
      simp
    · rw [Function.update_of_ne hne.symm, ih]
      simp [hne]

theorem count_inOrder (x : Work) (log : List (ℕ × Work)) (j : ℕ) :
    (inOrder x log).count j = (Interleaving.events log j).count x := by
  induction log with
  | nil => rfl
  | cons e log ih =>
    obtain ⟨k, y⟩ := e
    rw [show (k, y) :: log = [(k, y)] ++ log from rfl, inOrder_append,
      Interleaving.events_append, List.count_append, List.count_append, ih]
    congr 1
    by_cases hk : k = j <;> by_cases hy : y = x <;> simp [inOrder, Interleaving.events, hk, hy]

/-- **All orders are as good as one test case after the other.** If a log does to each test case
what is to be done, in order and once, then it can be done, and on the disk is what comes out of the
test cases alone. -/
theorem exists_replay (hlog : ∀ e ∈ log, e.1 < S.names.length)
    (hwork : ∀ j, Interleaving.events log j <+: allWork) {outs : ℕ → OutputFiles}
    (houts : ∀ j < S.names.length, S.alone fuel j = some (outs j)) :
    ∃ w, replay S fuel log = some w ∧ w.results = resultsOf S outs (inOrder .writing log) := by
  have halone : ∀ j, ∃ c, (Interleaving.events log j).foldlM (work S fuel j) .fresh = some c ∧
      (.writing ∈ Interleaving.events log j → c = .written (outs j)) := by
    intro j
    by_cases hj : j < S.names.length
    · exact exists_foldlM_work (houts j hj) (hwork j)
    · have hnone : Interleaving.events log j = [] := Interleaving.events_eq_nil fun e he heq ↦
        hj (heq ▸ hlog e he)
      rw [hnone]
      exact ⟨_, rfl, by simp⟩
  choose c hc hwritten using halone
  have hcontents := map_contents_foldlM S fuel log ⟨fun _ ↦ .fresh, noResults⟩
  rw [Interleaving.foldlM_step_eq_some_iff.2 hc] at hcontents
  obtain ⟨w, hw, rfl⟩ := Option.map_eq_some_iff.1 hcontents
  refine ⟨w, hw, ?_⟩
  rw [(results_of_replay hw).2, resultsOf]
  refine List.foldl_ext _ _ _ fun d j hj ↦ ?_
  have hmem : Work.writing ∈ Interleaving.events log j := by
    rw [← List.count_pos_iff, ← count_inOrder]
    exact List.count_pos_iff.2 hj
  rw [hwritten j hmem]
  rfl

end Replay

/-! ### Under the manager -/

section Manager

variable {ι : Type} [DecidableEq ι] {submitted : List ℕ} {s s' : MgrState ι}
  {q : QueueId → List ℕ} {place : ℕ → Place ι}

/-- Only what was submitted is worked on. -/
theorem Located.mem_log (h : Located submitted s q place) (hlog : ∀ e ∈ s.log, e.1 ∈ submitted)
    {turn : MgrState.Turn ι} (hstep : s.step turn = some s') : ∀ e ∈ s'.log, e.1 ∈ submitted := by
  obtain ⟨q', place', -, hsame | ⟨t, ht⟩⟩ := h.step_pipeline hstep
  · rwa [show s'.log = s.log from congrArg Pipeline.log hsame]
  · generalize hp : s'.pipeline q' = p at ht
    have hplog : s'.log = p.log := congrArg Pipeline.log hp
    rw [hplog]
    cases ht with
    | take | put | letGo => exact hlog
    | @perform j x hhand hdue =>
      rintro e he
      rcases List.mem_append.1 he with he | he
      · exact hlog e he
      · obtain rfl := List.mem_singleton.1 he
        obtain ⟨point, hplace⟩ := h.place_of_hand hhand
        exact h.mem_submitted _ (by simp [hplace])

/-- In every state that is reached the log is one that can be replayed. -/
theorem log_of_reaches (raw : ℕ → Job) (hnodup : submitted.Nodup) {s₀ : MgrState ι}
    (hstart : MgrState.start raw submitted = some s₀) (hs : s₀.Reaches s) :
    (∃ q place, Located submitted s q place) ∧ (∀ e ∈ s.log, e.1 ∈ submitted) ∧
      ∀ j, Interleaving.events s.log j <+: allWork := by
  obtain ⟨s₁, place, hs₁, hstarted, h⟩ := exists_start (ι := ι) raw hnodup
  obtain rfl := Option.some.inj (hs₁.symm.trans hstart)
  have hinv : (∃ q place, Located submitted s q place) ∧ ∀ e ∈ s.log, e.1 ∈ submitted := by
    induction hs with
    | refl => exact ⟨⟨_, place, h⟩, by simp [hstarted.log_eq]⟩
    | tail _ hstep ih =>
      obtain ⟨turn, hturn⟩ := hstep
      obtain ⟨⟨q, place, h⟩, hlog⟩ := ih
      obtain ⟨q', place', h', -⟩ := h.step_pipeline hturn
      exact ⟨⟨q', place', h'⟩, h.mem_log hlog hturn⟩
  obtain ⟨⟨q, place, h⟩, hlog⟩ := hinv
  refine ⟨⟨q, place, h⟩, hlog, fun j ↦ ?_⟩
  by_cases hj : j ∈ submitted
  · exact (h.fits j hj).isPrefix
  · have hnone : Interleaving.events s.log j = [] := Interleaving.events_eq_nil fun e he heq ↦
      hj (heq ▸ hlog e he)
    rw [hnone]
    exact List.nil_prefix

/-- Enough fuel for all test cases. -/
theorem Setup.Ok.exists_outs {S : Setup} (hok : S.Ok) : ∃ fuel₀, ∀ fuel > fuel₀,
    ∃ outs : ℕ → OutputFiles, ∀ j < S.names.length, S.alone fuel j = some (outs j) := by
  have hfuel : ∀ j, ∃ fuel₀, j < S.names.length →
      ∀ fuel > fuel₀, ∃ out, S.alone fuel j = some out := by
    intro j
    by_cases hj : j < S.names.length
    · obtain ⟨fuel₀, hrun⟩ := TestCaseOk.exists_run (hok j hj)
      exact ⟨fuel₀, fun _ ↦ hrun⟩
    · exact ⟨0, fun hlt ↦ absurd hlt hj⟩
  choose fuel₀ hfuel₀ using hfuel
  refine ⟨(Finset.range S.names.length).sup fuel₀, fun fuel hfuel ↦ ?_⟩
  have hout : ∀ j, ∃ out, j < S.names.length → S.alone fuel j = some out := by
    intro j
    by_cases hj : j < S.names.length
    · obtain ⟨out, hout⟩ := hfuel₀ j hj fuel
        (lt_of_le_of_lt (Finset.le_sup (Finset.mem_range.2 hj)) hfuel)
      exact ⟨out, fun _ ↦ hout⟩
    · exact ⟨⟨[], [], [], [], [], []⟩, fun hlt ↦ absurd hlt hj⟩
  choose outs houts using hout
  exact ⟨outs, houts⟩

omit [DecidableEq ι] in
/-- Nothing is written twice. -/
theorem nodup_inOrder {s : MgrState ι} (hwork : ∀ j, Interleaving.events s.log j <+: allWork) :
    (inOrder .writing s.log).Nodup := by
  refine List.nodup_iff_count_le_one.2 fun j ↦ ?_
  rw [count_inOrder]
  exact ((hwork j).sublist.count_le _).trans (by decide)

/-- **At all times the disk has the results of whole test cases.** Whatever the threads do, and
whenever `exit` is typed: doing what the log of the manager says to the test cases succeeds, no
test case is written twice, `recordsForExcel.txt` has one line for each that was written, in their
order, and the folder of each name has the files of the last one with this name, as they come out
of it alone. -/
theorem results_of_reaches (S : Setup) (hok : S.Ok) (raw : ℕ → Job) :
    ∃ s₀ : MgrState ι, MgrState.start raw (List.range S.names.length) = some s₀ ∧
      ∃ fuel₀, ∀ fuel > fuel₀, ∃ outs : ℕ → OutputFiles,
        (∀ j < S.names.length, S.alone fuel j = some (outs j)) ∧
        ∀ s, s₀.Reaches s → ∃ w, replay S fuel s.log = some w ∧
          (inOrder .writing s.log).Nodup ∧
          (∀ j ∈ inOrder .writing s.log, j < S.names.length) ∧
          w.results.recordsForExcel =
            excelHeader ++ (inOrder .writing s.log).flatMap (fun j ↦ (outs j).record) ∧
          ∀ name, w.results.output name = ((inOrder .writing s.log).filter fun j ↦
            (S.testCase j).testcasename = name).getLast?.map outs := by
  have hnodup : (List.range S.names.length).Nodup := List.nodup_range
  obtain ⟨s₀, -, hs₀, -, -⟩ := exists_start (ι := ι) raw hnodup
  obtain ⟨fuel₀, houts⟩ := hok.exists_outs
  refine ⟨s₀, hs₀, fuel₀, fun fuel hfuel ↦ ?_⟩
  obtain ⟨outs, houts⟩ := houts fuel hfuel
  refine ⟨outs, houts, fun s hs ↦ ?_⟩
  obtain ⟨-, hlog, hwork⟩ := log_of_reaches raw hnodup hs₀ hs
  have hlt : ∀ e ∈ s.log, e.1 < S.names.length := fun e he ↦ List.mem_range.1 (hlog e he)
  obtain ⟨w, hw, hresults⟩ := exists_replay hlt hwork houts
  refine ⟨w, hw, nodup_inOrder hwork, fun j hj ↦ ?_, ?_, fun name ↦ ?_⟩
  · obtain ⟨e, he, rfl⟩ := List.mem_map.1 hj
    exact hlt e (List.mem_filter.1 he).1
  · rw [hresults, recordsForExcel_resultsOf]
  · rw [hresults, output_resultsOf]

theorem results_of_reaches_sampleSetup : sampleSetup.Ok ∧
    ∃ s₀ : MgrState (Fin 2),
      MgrState.start (fun _ ↦ ⟨.writeEndStage, fun _ ↦ some 7, false⟩)
          (List.range sampleSetup.names.length) = some s₀ ∧
      ∃ fuel₀, ∀ fuel > fuel₀, ∃ outs : ℕ → OutputFiles,
        (∀ j < sampleSetup.names.length, sampleSetup.alone fuel j = some (outs j)) ∧
        ∀ s, s₀.Reaches s → ∃ w, replay sampleSetup fuel s.log = some w ∧
          (inOrder .writing s.log).Nodup ∧
          (∀ j ∈ inOrder .writing s.log, j < sampleSetup.names.length) ∧
          w.results.recordsForExcel =
            excelHeader ++ (inOrder .writing s.log).flatMap (fun j ↦ (outs j).record) ∧
          ∀ name, w.results.output name = ((inOrder .writing s.log).filter fun j ↦
            (sampleSetup.testCase j).testcasename = name).getLast?.map outs :=
  ⟨sampleSetup_ok, results_of_reaches sampleSetup sampleSetup_ok _⟩

/-- Once nothing is left to do, the log stays as it is. -/
theorem log_eq_of_needsTurns {turn : ℕ → Thread ι} {run : ℕ → MgrState ι}
    (hrun : IsRun (fun s t ↦ MgrState.step s (.thread t)) turn run) {n m : ℕ}
    (hn : ∀ m ≥ n, NeedsTurns submitted 0 (run m)) (hm : n ≤ m) :
    (run m).log = (run n).log := by
  induction m, hm using Nat.le_induction with
  | base => rfl
  | succ m hm ih =>
    obtain ⟨hs, q, place, h, hzero⟩ := hn m hm
    rcases h.less_or_idles hs (hrun m) with ⟨k, hk, -⟩ | ⟨c, -, heq⟩
    · omega
    · rw [← ih, heq]
      rfl

/-- **In the end the disk has the results of all test cases.** If every thread always gets another
turn and nobody types `exit`, then from some time on `recordsForExcel.txt` has exactly one line for
each line of the menu that names a folder, and each test case that has its name to itself has its
files in its folder, as they come out of it alone. -/
theorem results_complete [Nonempty ι] (S : Setup) (hok : S.Ok) (raw : ℕ → Job)
    (turn : ℕ → Thread ι) (hfair : ∀ t, Fair turn t) :
    ∃ run : ℕ → MgrState ι, MgrState.start raw (List.range S.names.length) = some (run 0) ∧
      IsRun (fun s t ↦ MgrState.step s (.thread t)) turn run ∧
      ∃ fuel₀, ∀ fuel > fuel₀, ∃ (outs : ℕ → OutputFiles) (n : ℕ) (order : List ℕ),
        (∀ j < S.names.length, S.alone fuel j = some (outs j)) ∧
        order.Perm (List.range S.names.length) ∧
        ∀ m ≥ n, ∃ w, replay S fuel (run m).log = some w ∧
          w.results.recordsForExcel = excelHeader ++ order.flatMap (fun j ↦ (outs j).record) ∧
          ∀ j < S.names.length, (∀ k < S.names.length,
            (S.testCase k).testcasename = (S.testCase j).testcasename → k = j) →
            w.results.output (S.testCase j).testcasename = some (outs j) := by
  have hnodup : (List.range S.names.length).Nodup := List.nodup_range
  obtain ⟨run, hstart, hrun, n, hn⟩ := exists_isRun_needsTurns raw hnodup hfair
  obtain ⟨fuel₀, houts⟩ := hok.exists_outs
  refine ⟨run, hstart, hrun, fuel₀, fun fuel hfuel ↦ ?_⟩
  obtain ⟨outs, houts⟩ := houts fuel hfuel
  have hreaches : ∀ m, (run 0).Reaches (run m) := by
    intro m
    induction m with
    | zero => exact Relation.ReflTransGen.refl
    | succ m ih => exact ih.tail ⟨.thread (turn m), hrun m⟩
  obtain ⟨-, hlog, hwork⟩ := log_of_reaches raw hnodup hstart (hreaches n)
  have hlt : ∀ e ∈ (run n).log, e.1 < S.names.length := fun e he ↦ List.mem_range.1 (hlog e he)
  have hmem : ∀ j, j ∈ inOrder .writing (run n).log ↔ j ∈ List.range S.names.length := by
    intro j
    constructor
    · intro hj
      obtain ⟨e, he, rfl⟩ := List.mem_map.1 hj
      exact hlog e (List.mem_filter.1 he).1
    · intro hj
      rw [← List.count_pos_iff, count_inOrder,
        show Interleaving.events (run n).log j = allWork from ((hn n le_rfl).history_eq hj).2]
      decide
  have horder := (List.perm_ext_iff_of_nodup (nodup_inOrder hwork) hnodup).2 hmem
  refine ⟨outs, n, inOrder .writing (run n).log, houts, horder, fun m hm ↦ ?_⟩
  rw [log_eq_of_needsTurns hrun hn hm]
  obtain ⟨w, hw, hresults⟩ := exists_replay hlt hwork houts
  refine ⟨w, hw, by rw [hresults, recordsForExcel_resultsOf], fun j hj halone ↦ ?_⟩
  -- of the test cases with this name there is one
  have hfilter : (inOrder .writing (run n).log).filter
      (fun k ↦ (S.testCase k).testcasename = (S.testCase j).testcasename) = [j] := by
    rw [← List.perm_singleton]
    refine (List.perm_ext_iff_of_nodup ((nodup_inOrder hwork).filter _)
      (List.nodup_singleton j)).2 fun k ↦ ?_
    rw [List.mem_filter, hmem, List.mem_range, decide_eq_true_iff, List.mem_singleton]
    constructor
    · exact fun h ↦ halone k h.1 h.2
    · rintro rfl
      exact ⟨hj, rfl⟩
  rw [hresults, output_resultsOf, hfilter]
  rfl

theorem results_complete_sampleSetup : sampleSetup.Ok ∧ (∀ t, Fair roundRobin t) ∧
    ∃ run : ℕ → MgrState (Fin 2),
      MgrState.start (fun _ ↦ ⟨.writeEndStage, fun _ ↦ some 7, false⟩)
          (List.range sampleSetup.names.length) = some (run 0) ∧
      IsRun (fun s t ↦ MgrState.step s (.thread t)) roundRobin run ∧
      ∃ fuel₀, ∀ fuel > fuel₀, ∃ (outs : ℕ → OutputFiles) (n : ℕ) (order : List ℕ),
        (∀ j < sampleSetup.names.length, sampleSetup.alone fuel j = some (outs j)) ∧
        order.Perm (List.range sampleSetup.names.length) ∧
        ∀ m ≥ n, ∃ w, replay sampleSetup fuel (run m).log = some w ∧
          w.results.recordsForExcel = excelHeader ++ order.flatMap (fun j ↦ (outs j).record) ∧
          ∀ j < sampleSetup.names.length, (∀ k < sampleSetup.names.length,
            (sampleSetup.testCase k).testcasename = (sampleSetup.testCase j).testcasename →
              k = j) →
            w.results.output (sampleSetup.testCase j).testcasename = some (outs j) :=
  ⟨sampleSetup_ok, fair_roundRobin,
    results_complete sampleSetup sampleSetup_ok _ roundRobin fair_roundRobin⟩

end Manager

end CArchitecture
