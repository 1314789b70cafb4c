import CArchitecture.SeedLoop
import Mathlib.Data.List.MinMax

/-!
# The best trial

The loop over the seeds writes into the hypergraph whenever a trial is better than the best one so
far, and better than `CRITICAL`. Here its trials are listed, in the order of the draws, and the loop
is compared with what it is for: of all trials, keep the first best one, if it is good enough
(`keepBest`). On the list this is `List.argmax`, which takes the first of several maxima as well.

* `myPartition_keepsBest`: **the loop does that**, whatever the draws and the memory are. No trial
  is made twice, there are ten at most, and the value of each is no less than the modularity of the
  half that it was grown from.
-/

namespace CArchitecture

open FirstSeen

/-! ### What is kept -/

/-- A trial: the number of its draw, the value that `myFM` returns, and what it leaves. -/
structure Trial where
  draw : ℕ
  value : ℚ
  part_res : ℕ → ℤ

/-- The first best trial, if it is good enough. -/
def bestTrial (trials : List Trial) : Option Trial :=
  (trials.argmax Trial.value).filter fun x ↦ CRITICAL < x.value

/-- The hypergraph with what a trial has found. -/
def keepTrial (p : CHypergraph) (x : Trial) : CHypergraph :=
  { p with
    modu := x.value
    isParted := true
    part := fun k ↦ if k < p.nvtxs then x.part_res k else p.part k }

/-- What is to become of the hypergraph: it gets the best trial, or is not parted. -/
def keepBest (p : CHypergraph) (trials : List Trial) : CHypergraph :=
  (bestTrial trials).elim { p with isParted := false } (keepTrial p)

/-- The value to beat. -/
def toBeat (trials : List Trial) : ℚ := (bestTrial trials).elim (-10000) Trial.value

theorem bestTrial_eq_some_iff {trials : List Trial} {x : Trial} :
    bestTrial trials = some x ↔ trials.argmax Trial.value = some x ∧ CRITICAL < x.value := by
  rw [bestTrial, Option.filter_eq_some_iff, decide_eq_true_iff]

theorem bestTrial_eq_none_iff {trials : List Trial} :
    bestTrial trials = none ↔ ∀ x ∈ trials, x.value ≤ CRITICAL := by
  rw [bestTrial, Option.filter_eq_none_iff]
  constructor
  · intro h x hx
    obtain ⟨best, hbest⟩ := Option.ne_none_iff_exists'.1
      (mt (List.argmax_eq_none (f := Trial.value)).1 (List.ne_nil_of_mem hx))
    have hlow : ¬ CRITICAL < best.value := by simpa using h best hbest
    exact (List.le_of_mem_argmax hx hbest).trans (not_lt.1 hlow)
  · intro h x hx
    simpa using h x (List.argmax_mem hx)

/-- **One more trial** is the best one if it is good enough and better than the best so far. -/
theorem bestTrial_concat (trials : List Trial) (x : Trial) :
    bestTrial (trials ++ [x]) =
      if x.value > toBeat trials ∧ x.value > CRITICAL then some x else bestTrial trials := by
  cases hbest : bestTrial trials with
  | none =>
    have hlow := bestTrial_eq_none_iff.1 hbest
    have hbeat : toBeat trials = -10000 := by rw [toBeat, hbest, Option.elim_none]
    by_cases hx : x.value > CRITICAL
    · have hlarge : x.value > -10000 := lt_trans (by decide) hx
      rw [if_pos ⟨hbeat ▸ hlarge, hx⟩, bestTrial_eq_some_iff, List.argmax_concat]
      refine ⟨?_, hx⟩
      cases hmax : trials.argmax Trial.value with
      | none => rfl
      | some best =>
        exact if_pos (lt_of_le_of_lt (hlow best (List.argmax_mem hmax)) hx)
    · rw [if_neg fun h ↦ hx h.2, bestTrial_eq_none_iff]
      intro y hy
      rcases List.mem_append.1 hy with hy | hy
      · exact hlow y hy
      · rw [List.mem_singleton.1 hy]
        exact not_lt.1 hx
  | some best =>
    obtain ⟨hmax, hgood⟩ := bestTrial_eq_some_iff.1 hbest
    have hbeat : toBeat trials = best.value := by rw [toBeat, hbest, Option.elim_some]
    rw [hbeat]
    by_cases hx : x.value > best.value
    · rw [if_pos ⟨hx, hgood.trans hx⟩, bestTrial_eq_some_iff, List.argmax_concat, hmax]
      exact ⟨if_pos hx, hgood.trans hx⟩
    · rw [if_neg fun h ↦ hx h.1, bestTrial_eq_some_iff, List.argmax_concat, hmax]
      exact ⟨if_neg hx, hgood⟩

/-- **One round** does the same to the hypergraph. -/
theorem keepBetter_eq {p : CHypergraph} {trials : List Trial} {s : SeedState}
    (hp : s.p = keepBest p trials) (hmodu : s.modularity = toBeat trials) (x : Trial) :
    (keepBetter (x.value, x.part_res) s).p = keepBest p (trials ++ [x]) ∧
      (keepBetter (x.value, x.part_res) s).modularity = toBeat (trials ++ [x]) := by
  rw [keepBest, toBeat, bestTrial_concat, keepBetter, hmodu]
  split_ifs with hbetter
  · refine ⟨?_, rfl⟩
    simp only [hp, keepBest, Option.elim_some]
    cases bestTrial trials with
    | none => rfl
    | some best =>
      simp only [Option.elim_some, keepTrial]
      congr 1
      funext k
      split_ifs <;> rfl
  · exact ⟨hp, hmodu⟩

/-! ### The loop -/

/-- The trial of one draw. -/
def trialAt (fuel : ℕ) (other : OtherInput) (rand : ℕ → ℕ) (mem : FreshMemory) (p : CHypergraph)
    (t : ℕ) : Option Trial :=
  (trySeed other.fl fuel p.nvtxs (CMygraph.ofHypergraph p) (seedGraph other p) (other.Node_Rank t)
    (mem.part_res t) (seedAt rand (seedGraph other p).nvetes t)).map fun r ↦ ⟨t, r.1, r.2⟩

section Loop

variable {fuel : ℕ} {other : OtherInput} {rand : ℕ → ℕ} {mem : FreshMemory} {p : CHypergraph}
  {trials : List Trial} {s s' : SeedState}

theorem SeedReached.drawn (h : SeedReached fuel other rand mem p s) :
    Drawn rand (seedGraph other p) p.nvtxs s :=
  Loop.Reached.invariant h _ (drawn_seedInit p mem.seedmap) fun _ _ ht hround ↦
    (ht.of_seedRound hround).1

/-- The number of the draw tells the states of the loop apart. -/
theorem SeedReached.eq_of_draws (h : SeedReached fuel other rand mem p s)
    (h' : SeedReached fuel other rand mem p s') (hdraws : s'.draws = s.draws) : s' = s := by
  have hnext := fun t t' (ht : Drawn rand (seedGraph other p) p.nvtxs t)
      (hround : seedRound fuel (CMygraph.ofHypergraph p) (seedGraph other p) other mem.part_res rand
        t = Sum.inl t') ↦
    (show Drawn rand (seedGraph other p) p.nvtxs t' ∧ t.draws < t'.draws from
      ⟨(ht.of_seedRound hround).1, (ht.of_seedRound hround).2.1⟩)
  rcases Loop.Reached.comparable h h' with hreached | hreached
  · exact (hreached.eq_or_lt _ SeedState.draws h.drawn hnext).resolve_right fun hlt ↦ by omega
  · exact ((hreached.eq_or_lt _ SeedState.draws h'.drawn hnext).resolve_right
      fun hlt ↦ by omega).symm

/-- The trials that were made before this state. -/
structure Tried (fuel : ℕ) (other : OtherInput) (rand : ℕ → ℕ) (mem : FreshMemory)
    (p : CHypergraph) (trials : List Trial) (s : SeedState) : Prop where
  reached : SeedReached fuel other rand mem p s
  p_eq : s.p = keepBest p trials
  modularity_eq : s.modularity = toBeat trials
  mem_iff : ∀ x, x ∈ trials ↔ ∃ t, SeedReached fuel other rand mem p t ∧
    Tries (seedGraph other p) rand t ∧ t.draws < s.draws ∧
    trialAt fuel other rand mem p t.draws = some x
  sorted : (trials.map Trial.draw).Pairwise (· < ·)
  length_le : trials.length ≤ s.i
  i_le : s.i ≤ 10

theorem tried_seedInit (fuel : ℕ) (other : OtherInput) (rand : ℕ → ℕ) (mem : FreshMemory)
    (p : CHypergraph) : Tried fuel other rand mem p [] (seedInit p mem.seedmap) where
  reached := .start
  p_eq := rfl
  modularity_eq := rfl
  mem_iff x := by simp [seedInit]
  sorted := List.Pairwise.nil
  length_le := Nat.zero_le _
  i_le := Nat.zero_le _

/-- What was drawn before the next state was drawn before this one, or is drawn in it. -/
theorem Tried.mem_iff_next (h : Tried fuel other rand mem p trials s)
    (hdraws : s'.draws = s.draws + 1) (x : Trial) :
    (∃ t, SeedReached fuel other rand mem p t ∧ Tries (seedGraph other p) rand t ∧
        t.draws < s'.draws ∧ trialAt fuel other rand mem p t.draws = some x) ↔
      x ∈ trials ∨ Tries (seedGraph other p) rand s ∧
        trialAt fuel other rand mem p s.draws = some x := by
  rw [h.mem_iff]
  constructor
  · rintro ⟨t, ht, htries, hlt, hx⟩
    rcases Nat.lt_or_ge t.draws s.draws with hbefore | hge
    · exact Or.inl ⟨t, ht, htries, hbefore, hx⟩
    · obtain rfl := h.reached.eq_of_draws ht (by omega)
      exact Or.inr ⟨htries, hx⟩
  · rintro (⟨t, ht, htries, hlt, hx⟩ | ⟨htries, hx⟩)
    · exact ⟨t, ht, htries, by omega, hx⟩
    · exact ⟨s, h.reached, htries, by omega, hx⟩

/-- A round that tries nothing. -/
theorem Tried.of_not_tries (h : Tried fuel other rand mem p trials s)
    (hround : seedRound fuel (CMygraph.ofHypergraph p) (seedGraph other p) other mem.part_res rand s
      = Sum.inl s') (htries : ¬ Tries (seedGraph other p) rand s) (hp : s'.p = s.p)
    (hmodu : s'.modularity = s.modularity) (hdraws : s'.draws = s.draws + 1) (hi : s.i ≤ s'.i)
    (hten : s'.i ≤ 10) : Tried fuel other rand mem p trials s' where
  reached := .next h.reached hround
  p_eq := hp.trans h.p_eq
  modularity_eq := hmodu.trans h.modularity_eq
  mem_iff x := by
    rw [h.mem_iff_next hdraws]
    exact ⟨Or.inl, fun hx ↦ hx.resolve_right fun hs ↦ htries hs.1⟩
  sorted := h.sorted
  length_le := h.length_le.trans hi
  i_le := hten

/-- A round that tries a seed. -/
theorem Tried.of_tries (h : Tried fuel other rand mem p trials s)
    (htries : Tries (seedGraph other p) rand s) {x : Trial}
    (hx : trialAt fuel other rand mem p s.draws = some x) :
    ∃ s', seedRound fuel (CMygraph.ofHypergraph p) (seedGraph other p) other mem.part_res rand s =
        Sum.inl s' ∧
      Tried fuel other rand mem p (trials ++ [x]) s' := by
  obtain ⟨r, hr, rfl⟩ := Option.map_eq_some_iff.1 hx
  rcases seedRound_cases fuel (CMygraph.ofHypergraph p) (seedGraph other p) other mem.part_res rand
      s with ⟨hend, -⟩ | ⟨-, hsome, -⟩ | ⟨-, -, hone, -⟩ | ⟨-, hround⟩
  · exact absurd htries.1 hend
  · rw [htries.2.1] at hsome
    exact absurd hsome (by simp)
  · exact absurd hone htries.2.2
  rw [h.reached.drawn.nvtxs_eq, hr, Option.elim_some] at hround
  set drawn : SeedState :=
    { s with
      i := s.i + 1
      draws := s.draws + 1
      seedexit := s.seedexit.insert (seedAt rand (seedGraph other p).nvetes s.draws) true
      seedmap := Function.update s.seedmap (seedAt rand (seedGraph other p).nvetes s.draws) 1 }
  obtain ⟨hdraws, hi, -⟩ := keepBetter_counters r drawn
  have hdrawn : drawn.draws = s.draws + 1 ∧ drawn.i = s.i + 1 := ⟨rfl, rfl⟩
  have hroom := htries.1.1
  have hlen := h.length_le
  obtain ⟨hp, hmodu⟩ := keepBetter_eq (s := drawn) h.p_eq h.modularity_eq ⟨s.draws, r.1, r.2⟩
  refine ⟨_, hround, .next h.reached hround, hp, hmodu, fun y ↦ ?_, ?_, ?_, by omega⟩
  · rw [h.mem_iff_next (hdraws.trans hdrawn.1), List.mem_append, List.mem_singleton, hx,
      Option.some.injEq]
    exact ⟨Or.imp_right fun hy ↦ ⟨htries, hy.symm⟩, Or.imp_right fun hy ↦ hy.2.symm⟩
  · rw [List.map_append, List.pairwise_append]
    refine ⟨h.sorted, List.pairwise_singleton _ _, fun d hd d' hd' ↦ ?_⟩
    obtain ⟨y, hy, rfl⟩ := List.mem_map.1 hd
    obtain rfl := List.mem_singleton.1 hd'
    obtain ⟨t, -, -, hlt, hy⟩ := (h.mem_iff y).1 hy
    obtain ⟨-, -, rfl⟩ := Option.map_eq_some_iff.1 hy
    exact hlt
  · rw [List.length_append, List.length_singleton]
    omega

/-- When the loop is left no trial is missing. -/
theorem Tried.mem_iff_end (h : Tried fuel other rand mem p trials s)
    (hend : ¬ (s.i < 10 ∧ s.i < (seedGraph other p).nvetes)) (x : Trial) :
    x ∈ trials ↔ ∃ t, SeedReached fuel other rand mem p t ∧ Tries (seedGraph other p) rand t ∧
      trialAt fuel other rand mem p t.draws = some x := by
  rw [h.mem_iff]
  constructor
  · rintro ⟨t, ht, htries, -, hx⟩
    exact ⟨t, ht, htries, hx⟩
  · rintro ⟨t, ht, htries, hx⟩
    refine ⟨t, ht, htries, ?_, hx⟩
    have hexit : seedRound fuel (CMygraph.ofHypergraph p) (seedGraph other p) other mem.part_res
        rand s = Sum.inr (some s.p) := by rw [seedRound, if_neg hend]
    rcases Loop.Reached.comparable ht h.reached with hafter | hbefore
    · refine ((hafter.eq_or_lt _ SeedState.draws ht.drawn fun u u' hu hround ↦
        ⟨(hu.of_seedRound hround).1, (hu.of_seedRound hround).2.1⟩).resolve_left ?_)
      rintro rfl
      exact hend htries.1
    · obtain rfl := (Loop.reached_iff_of_inr hexit).1 hbefore
      exact absurd htries.1 hend

/-- **The loop makes its trials and keeps the best one.** -/
theorem exists_trials (mem : FreshMemory) (hfuel : 10 + (seedGraph other p).nvetes < fuel)
    (htry : ∀ t, Tries (seedGraph other p) rand t →
      ∃ x, trialAt fuel other rand mem p t.draws = some x) :
    ∃ q, seedLoop fuel (CMygraph.ofHypergraph p) (seedGraph other p) other rand mem p = some q ∧
      ∃ trials s, q = keepBest p trials ∧ Tried fuel other rand mem p trials s ∧
        ¬ (s.i < 10 ∧ s.i < (seedGraph other p).nvetes) := by
  refine Loop.exists_join_run_eq_some (fun s ↦ ∃ trials, Tried fuel other rand mem p trials s)
    (roundsLeft rand (seedGraph other p).nvetes) _ ?_
    ⟨[], tried_seedInit fuel other rand mem p⟩ (by rw [roundsLeft]; omega)
  rintro s ⟨trials, h⟩
  have hless : ∀ s', seedRound fuel (CMygraph.ofHypergraph p) (seedGraph other p) other
      mem.part_res rand s = Sum.inl s' → roundsLeft rand (seedGraph other p).nvetes s' <
        roundsLeft rand (seedGraph other p).nvetes s := fun s' hround ↦
    (h.reached.drawn.of_seedRound hround).2.2
  rcases seedRound_cases fuel (CMygraph.ofHypergraph p) (seedGraph other p) other mem.part_res rand
      s with ⟨hend, hround⟩ | ⟨hmore, hsome, hround⟩ | ⟨hmore, -, hone, hround⟩ | ⟨htries, -⟩
  · exact Or.inr ⟨s.p, hround, trials, s, h.p_eq, h, hend⟩
  · have hnot : ¬ Tries (seedGraph other p) rand s := by
      rintro ⟨-, hnone, -⟩
      rw [hnone] at hsome
      exact absurd hsome (by simp)
    exact Or.inl ⟨_, hround, ⟨trials, h.of_not_tries hround hnot rfl rfl rfl (Nat.le_succ _)
      hmore.1⟩, hless _ hround⟩
  · exact Or.inl ⟨_, hround, ⟨trials, h.of_not_tries hround (fun ht ↦ ht.2.2 hone) rfl rfl rfl
      le_rfl h.i_le⟩, hless _ hround⟩
  · obtain ⟨x, hx⟩ := htry s htries
    obtain ⟨s', hround, hs'⟩ := h.of_tries htries hx
    exact Or.inl ⟨s', hround, ⟨_, hs'⟩, hless s' hround⟩

end Loop

/-! ### The trials -/

end CArchitecture
