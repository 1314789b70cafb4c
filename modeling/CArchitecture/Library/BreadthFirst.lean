import CArchitecture.Library.FirstSeen

/-!
# Searching in breadth

A search that takes the elements to visit from a queue and puts into it what comes next after each
of them, unless it was put there before. What was visited and what is queued are, one behind the
other, the elements in the order of their first occurrence (`FirstSeen.scan`). So no element is
visited twice.

The distance of an element is kept as a ghost. `Layered` says what it has to do with the queue: the
distances go up along the visited and the queued elements, and they differ by at most one in the
queue. The step keeps it (`Layered.visit`). Therefore the element that is visited next is as near as
anything that was not visited (`Layered.le_of_at`); and when the queue is empty, everything that can
be reached was visited (`Layered.mem_of_at`).
-/

namespace BreadthFirst

variable {α : Type*}

/-- An element that is reached in `d` steps. -/
inductive At (next : α → List α) (start : List α) : ℕ → α → Prop
  | start {a : α} (ha : a ∈ start) : At next start 0 a
  | step {d : ℕ} {a b : α} (ha : At next start d a) (hb : b ∈ next a) : At next start (d + 1) b

/-- The elements `visited` were visited, and those of `queue` come next. Each was reached in as many
steps as `level` says. -/
structure Layered (next : α → List α) (start visited queue : List α) (level : α → ℕ) : Prop where
  at_level : ∀ a ∈ visited ++ queue, At next start (level a) a
  sorted : (visited ++ queue).Pairwise (level · ≤ level ·)
  level_le : ∀ a ∈ queue, ∀ b ∈ visited ++ queue, level b ≤ level a + 1
  start_mem : ∀ a ∈ start, a ∈ visited ++ queue ∧ level a = 0
  next_mem : ∀ a ∈ visited, ∀ b ∈ next a, b ∈ visited ++ queue ∧ level b ≤ level a + 1

variable {next : α → List α} {start visited queue : List α} {level : α → ℕ}

/-- What is reached was visited, or something as near is queued. -/
theorem Layered.mem_or_exists (h : Layered next start visited queue level) {d : ℕ} {a : α}
    (ha : At next start d a) :
    (a ∈ visited ∧ level a ≤ d) ∨ ∃ b ∈ queue, level b ≤ d := by
  have key : (a ∈ visited ++ queue ∧ level a ≤ d) ∨ ∃ b ∈ queue, level b ≤ d := by
    induction ha with
    | start ha => exact Or.inl ⟨(h.start_mem _ ha).1, (h.start_mem _ ha).2.le⟩
    | @step d a b ha hb ih =>
      rcases ih with ⟨hmem, hle⟩ | ⟨q, hq, hle⟩
      · rcases List.mem_append.1 hmem with hvisited | hqueue
        · obtain ⟨hmem', hle'⟩ := h.next_mem a hvisited b hb
          exact Or.inl ⟨hmem', hle'.trans (Nat.succ_le_succ hle)⟩
        · exact Or.inr ⟨a, hqueue, Nat.le_succ_of_le hle⟩
      · exact Or.inr ⟨q, hq, Nat.le_succ_of_le hle⟩
  rcases key with ⟨hmem, hle⟩ | hqueue
  · rcases List.mem_append.1 hmem with hvisited | hqueue
    · exact Or.inl ⟨hvisited, hle⟩
    · exact Or.inr ⟨a, hqueue, hle⟩
  · exact Or.inr hqueue

/-- **The next element is as near as anything that was not visited.** -/
theorem Layered.le_of_at {q : α} (h : Layered next start visited (q :: queue) level) {d : ℕ} {a : α}
    (ha : At next start d a) (hnot : a ∉ visited) : level q ≤ d := by
  obtain ⟨b, hb, hle⟩ := (h.mem_or_exists ha).resolve_left fun hmem ↦ hnot hmem.1
  rcases List.mem_cons.1 hb with rfl | hb
  · exact hle
  · exact (List.rel_of_pairwise_cons (List.pairwise_append.1 h.sorted).2.1 hb).trans hle

/-- **When the queue is empty, everything that can be reached was visited.** -/
theorem Layered.mem_of_at (h : Layered next start visited [] level) {d : ℕ} {a : α}
    (ha : At next start d a) : a ∈ visited := by
  rcases h.mem_or_exists ha with hmem | ⟨b, hb, -⟩
  · exact hmem.1
  · exact absurd hb List.not_mem_nil

section Scan

variable [LinearOrder α]

/-- At the beginning, the start is queued. -/
theorem layered_start (next : α → List α) (start : List α) :
    Layered next start [] (FirstSeen.scan [] start) fun _ ↦ 0 where
  at_level _ ha := At.start ((FirstSeen.mem_scan.1 ha).resolve_left List.not_mem_nil)
  sorted := List.pairwise_of_forall fun _ _ ↦ le_rfl
  level_le _ _ _ _ := Nat.zero_le _
  start_mem _ ha := ⟨FirstSeen.mem_scan.2 (Or.inr ha), rfl⟩
  next_mem _ ha := absurd ha List.not_mem_nil

/-- **One step**: the first element of the queue is visited, and what comes next is queued. -/
theorem Layered.visit {q : α} (h : Layered next start visited (q :: queue) level)
    (hnodup : (visited ++ q :: queue).Nodup) {queue' : List α}
    (hscan : visited ++ [q] ++ queue' = FirstSeen.scan (visited ++ q :: queue) (next q)) :
    ∃ level', Layered next start (visited ++ [q]) queue' level' := by
  obtain ⟨new, hnew⟩ := FirstSeen.isPrefix_scan (visited ++ q :: queue) (next q)
  have hall : visited ++ [q] ++ queue' = visited ++ q :: queue ++ new := hscan.trans hnew.symm
  have hqueue : queue' = queue ++ new := by
    have hcancel : visited ++ [q] ++ queue' = visited ++ [q] ++ (queue ++ new) := by
      rw [hall]
      simp
    exact List.append_cancel_left hcancel
  have hmem : ∀ b, b ∈ visited ++ [q] ++ queue' ↔ b ∈ visited ++ q :: queue ∨ b ∈ next q :=
    fun b ↦ by rw [hscan, FirstSeen.mem_scan]
  have hfresh : ∀ b ∈ new, b ∉ visited ++ q :: queue := fun b hb hold ↦
    List.disjoint_of_nodup_append (hnew ▸ FirstSeen.nodup_scan hnodup (next q)) hold hb
  have hq : q ∈ q :: queue := List.mem_cons_self
  have hqmem : q ∈ visited ++ q :: queue := List.mem_append_right _ hq
  -- what is new is one step behind
  obtain ⟨level', hold', hnew'⟩ : ∃ level' : α → ℕ,
      (∀ b ∈ visited ++ q :: queue, level' b = level b) ∧
        ∀ b, b ∉ visited ++ q :: queue → level' b = level q + 1 :=
    ⟨fun b ↦ if b ∈ visited ++ q :: queue then level b else level q + 1, fun _ hb ↦ if_pos hb,
      fun _ hb ↦ if_neg hb⟩
  have hle : ∀ b, level' b ≤ level q + 1 := by
    intro b
    by_cases hb : b ∈ visited ++ q :: queue
    · rw [hold' b hb]
      exact h.level_le q hq b hb
    · rw [hnew' b hb]
  refine ⟨level', ?_, ?_, ?_, ?_, ?_⟩
  · intro a ha
    by_cases hold : a ∈ visited ++ q :: queue
    · rw [hold' a hold]
      exact h.at_level a hold
    · rw [hnew' a hold]
      exact At.step (h.at_level q hqmem) (((hmem a).1 ha).resolve_left hold)
  · rw [hall, List.pairwise_append]
    refine ⟨h.sorted.imp_of_mem fun ha hb hab ↦ by rwa [hold' _ ha, hold' _ hb], ?_, ?_⟩
    · refine List.pairwise_iff_forall_sublist.2 fun {a b} hab ↦ ?_
      have hb : b ∈ new := hab.subset (by simp)
      have ha : a ∈ new := hab.subset (by simp)
      rw [hnew' a (hfresh a ha), hnew' b (hfresh b hb)]
    · intro a _ b hb
      rw [hnew' b (hfresh b hb)]
      exact hle a
  · intro a ha b _
    refine (hle b).trans (Nat.succ_le_succ ?_)
    rcases List.mem_append.1 (hqueue ▸ ha) with hold | hnew
    · rw [hold' a (List.mem_append_right _ (List.mem_cons_of_mem _ hold))]
      exact List.rel_of_pairwise_cons (List.pairwise_append.1 h.sorted).2.1 hold
    · rw [hnew' a (hfresh a hnew)]
      exact Nat.le_succ _
  · intro a ha
    obtain ⟨hstart, hzero⟩ := h.start_mem a ha
    exact ⟨(hmem a).2 (Or.inl hstart), (hold' a hstart).trans hzero⟩
  · intro a ha b hb
    rcases List.mem_append.1 ha with hvisited | hlast
    · obtain ⟨hold, hlevel⟩ := h.next_mem a hvisited b hb
      rw [hold' b hold, hold' a (List.mem_append_left _ hvisited)]
      exact ⟨(hmem b).2 (Or.inl hold), hlevel⟩
    · obtain rfl := List.mem_singleton.1 hlast
      rw [hold' a hqmem]
      exact ⟨(hmem b).2 (Or.inr hb), hle b⟩

end Scan

end BreadthFirst
