import CArchitecture.MergeParts

/-!
# The run of `mergeParts`, and writing the partition

`mergeParts` and `doWriting` follow the entries of `mapForLastPart` in loops that have no other exit
than a part without an entry, and the rounds of `mergeParts` go on as long as they insert something,
although `insert` does nothing for a part that has an entry. All of it ends because of what holds at
**every point of the run**, also between the two inserts of a round: entries lead to smaller parts.
-/

namespace CArchitecture

open FirstSeen

/-! ### Writing -/

/-- The variables of the loop of `doWriting` over the vertices, and the numbers written so far. -/
structure WriteState where
  mapForWrite : OrdMap ℤ ℕ := ∅
  iCnt : ℕ := 0
  partition : List ℕ := []

/-- Write the number of one vertex: groups are numbered as they are met. -/
def writePart (mapForLastPart : OrdMap ℤ ℤ) (climb : ℕ) (part : ℕ → ℤ) (s : WriteState) (i : ℕ) :
    Option WriteState := do
  let whichpart ← lastPart mapForLastPart climb (part i)
  match s.mapForWrite.find? whichpart with
  | none =>
    some { mapForWrite := s.mapForWrite.insert whichpart s.iCnt
           iCnt := s.iCnt + 1
           partition := s.partition ++ [s.iCnt] }
  | some number => some { s with partition := s.partition ++ [number] }

/-- The numbers that `doWriting` writes to `partition.txt`, one in a line. They are missing if a
chain of parts does not end. -/
def doWriting (mapForLastPart : OrdMap ℤ ℤ) (climb nvtxs : ℕ) (part : ℕ → ℤ) : Option (List ℕ) :=
  ((List.range nvtxs).foldlM (writePart mapForLastPart climb part) {}).map WriteState.partition

/-- The end of the chain of entries that begins with `p`. -/
inductive EndsAt (map : OrdMap ℤ ℤ) : ℤ → ℤ → Prop
  | here {p : ℤ} : map.find? p = none → EndsAt map p p
  | next {p q r : ℤ} : map.find? p = some q → EndsAt map q r → EndsAt map p r

section Chains

variable {map : OrdMap ℤ ℤ}

theorem EndsAt.unique {p r r' : ℤ} (h : EndsAt map p r) (h' : EndsAt map p r') : r = r' := by
  induction h with
  | here hnone =>
    cases h' with
    | here => rfl
    | next hsome => exact absurd (hnone.symm.trans hsome) (by simp)
  | next hsome _ ih =>
    cases h' with
    | here hnone => exact absurd (hnone.symm.trans hsome) (by simp)
    | next hsome' hrest => exact ih (Option.some.inj (hsome.symm.trans hsome') ▸ hrest)

theorem endsAt_of_lastPart {n : ℕ} {p r : ℤ} (h : lastPart map n p = some r) : EndsAt map p r := by
  induction n generalizing p with
  | zero => exact absurd h (by simp [lastPart])
  | succ n ih =>
    rw [lastPart] at h
    cases hfind : map.find? p with
    | none =>
      rw [hfind] at h
      exact Option.some.inj h ▸ EndsAt.here hfind
    | some q =>
      rw [hfind] at h
      exact EndsAt.next hfind (ih h)

/-- The keys that a chain from `p` may still meet. -/
def keysUpTo (map : OrdMap ℤ ℤ) (p : ℤ) : List ℤ := map.keys.filter fun n ↦ n ≤ p

/-- A step to a smaller part leaves fewer of them. -/
theorem length_keysUpTo_lt {p q : ℤ} (h : map.find? p = some q) (hlt : q < p) :
    (keysUpTo map q).length < (keysUpTo map p).length := by
  have hnodup : (p :: keysUpTo map q).Nodup := by
    refine List.nodup_cons.2 ⟨fun hmem ↦ ?_, map.nodup_keys.filter _⟩
    exact absurd (List.mem_filter.1 hmem).2 (by simpa using hlt)
  refine (hnodup.subperm fun n hn ↦ ?_).length_le
  rcases List.mem_cons.1 hn with rfl | hn
  · exact List.mem_filter.2 ⟨OrdMap.mem_keys_iff.2 (by rw [h]; rfl), by simp⟩
  · obtain ⟨hkey, hle⟩ := List.mem_filter.1 hn
    have hnq : n ≤ q := by simpa using hle
    exact List.mem_filter.2 ⟨hkey, by simpa using hnq.trans hlt.le⟩

/-- **Chains end** if all entries lead to smaller parts, whatever these are. -/
theorem exists_lastPart (hdec : ∀ n m, map.find? n = some m → m < n) {n : ℕ} {p : ℤ}
    (hn : (keysUpTo map p).length < n) : ∃ r, lastPart map n p = some r := by
  induction n generalizing p with
  | zero => exact absurd hn (Nat.not_lt_zero _)
  | succ n ih =>
    rw [lastPart]
    cases hfind : map.find? p with
    | none => exact ⟨p, rfl⟩
    | some q => exact ih ((length_keysUpTo_lt hfind (hdec p q hfind)).trans_le (by omega))

end Chains

section Writing

variable {map : OrdMap ℤ ℤ} {part : ℕ → ℤ} {climb : ℕ}

/-- The groups of the vertices written so far are `reps`. -/
structure Written (s : WriteState) (reps : List ℤ) : Prop where
  numbers : Numbers s.mapForWrite 0 (scan [] reps)
  iCnt_eq : s.iCnt = (scan [] reps).length
  partition_eq : s.partition = numbering reps

/-- **One vertex.** -/
theorem Written.writePart {s : WriteState} {reps : List ℤ} (h : Written s reps) {i : ℕ} {r : ℤ}
    (hr : lastPart map climb (part i) = some r) :
    ∃ s', writePart map climb part s i = some s' ∧ Written s' (reps ++ [r]) := by
  have hscan : scan [] (reps ++ [r]) = push (scan [] reps) r := scan_append [] reps [r]
  rw [CArchitecture.writePart, hr, Option.bind_eq_bind, Option.bind_some]
  by_cases hmet : r ∈ scan [] reps
  · have hfind := h.numbers.find?_of_mem hmet
    rw [Nat.zero_add] at hfind
    simp only [hfind]
    refine ⟨_, rfl, ?_, ?_, ?_⟩
    · rw [hscan, push_of_mem hmet]
      exact h.numbers
    · rw [hscan, push_of_mem hmet]
      exact h.iCnt_eq
    · rw [numbering_concat, push_of_mem hmet, ← h.partition_eq]
  · simp only [h.numbers.find?_of_notMem hmet]
    refine ⟨_, rfl, ?_, ?_, ?_⟩
    · rw [hscan, push_of_notMem hmet, h.iCnt_eq, ← Nat.zero_add (scan [] reps).length]
      exact h.numbers.insert hmet
    · rw [hscan, push_of_notMem hmet, List.length_append, List.length_singleton, ← h.iCnt_eq]
    · rw [numbering_concat, push_of_notMem hmet, number_append_self hmet, ← h.partition_eq,
        h.iCnt_eq]

/-- **What `doWriting` writes**: the groups of the vertices, numbered as they are met. -/
theorem doWriting_eq {nvtxs : ℕ} {rep : ℕ → ℤ}
    (h : ∀ v < nvtxs, lastPart map climb (part v) = some (rep v)) :
    doWriting map climb nvtxs part = some (numbering ((List.range nvtxs).map rep)) := by
  have key : ∀ n ≤ nvtxs, ∃ s, (List.range n).foldlM (writePart map climb part) {} = some s ∧
      Written s ((List.range n).map rep) := by
    intro n
    induction n with
    | zero => exact fun _ ↦ ⟨_, rfl, numbers_empty 0, rfl, rfl⟩
    | succ n ih =>
      intro hn
      obtain ⟨s, hs, hwritten⟩ := ih (by omega)
      obtain ⟨s', hs', hwritten'⟩ := hwritten.writePart (h n hn)
      refine ⟨s', ?_, ?_⟩
      · rw [List.range_succ, List.foldlM_append, hs]
        simpa using hs'
      · rwa [List.range_succ, List.map_append]
  obtain ⟨s, hs, hwritten⟩ := key nvtxs le_rfl
  rw [doWriting, hs, Option.map_some, hwritten.partition_eq]

/-- **Writing ends** if entries lead to smaller parts. -/
theorem Descending.exists_doWriting {partnum : ℕ} (h : Descending partnum map) {nvtxs : ℕ}
    (hclimb : ∀ v < nvtxs, (part v).toNat < climb) :
    ∃ numbers, doWriting map climb nvtxs part = some numbers :=
  ⟨_, doWriting_eq fun v hv ↦ h.lastPart_eq (hclimb v hv)⟩

/-- **`partition.txt`** has a number for each vertex. The numbers are a restricted growth string,
and two vertices have the same one if and only if the chains of their parts end in the same part. -/
theorem doWriting_restrictedGrowth (hdec : ∀ n m, map.find? n = some m → m < n) (nvtxs : ℕ)
    (part : ℕ → ℤ) (hclimb : map.entries.length < climb) :
    ∃ numbers, doWriting map climb nvtxs part = some numbers ∧ numbers.length = nvtxs ∧
      RestrictedGrowth numbers ∧
      ∀ u < nvtxs, ∀ v < nvtxs, numbers[u]? = numbers[v]? ↔
        ∃ r, EndsAt map (part u) r ∧ EndsAt map (part v) r := by
  have hkeys : ∀ p, (keysUpTo map p).length < climb := by
    intro p
    have hle : (keysUpTo map p).length ≤ map.keys.length := List.length_filter_le _ _
    rw [OrdMap.keys, List.length_map] at hle
    omega
  choose rep hrep using fun v ↦ exists_lastPart hdec (hkeys (part v))
  have hlen : ((List.range nvtxs).map rep).length = nvtxs := by
    rw [List.length_map, List.length_range]
  refine ⟨_, doWriting_eq fun v _ ↦ hrep v, (length_numbering _).trans hlen,
    restrictedGrowth_numbering _, fun u hu v hv ↦ ?_⟩
  rw [numbering_getElem?_eq_iff (by omega) (by omega), List.getElem_map, List.getElem_map,
    List.getElem_range, List.getElem_range]
  have hends := fun w ↦ endsAt_of_lastPart (hrep w)
  constructor
  · exact fun heq ↦ ⟨rep u, hends u, heq ▸ hends v⟩
  · rintro ⟨r, hu', hv'⟩
    exact ((hends u).unique hu').trans ((hends v).unique hv').symm

/-- Parts `4` and `-2` end in the same part; part `4` takes two steps. -/
theorem doWriting_restrictedGrowth_sampleChain :
    ∃ numbers, doWriting (((∅ : OrdMap ℤ ℤ).insert 4 1).insert 1 (-2)) 3 4
        (fun v ↦ if v = 0 then 4 else if v = 1 then 7 else -2) = some numbers ∧
      numbers.length = 4 ∧ RestrictedGrowth numbers := by
  have hdec : ∀ n m : ℤ, (((∅ : OrdMap ℤ ℤ).insert 4 1).insert 1 (-2)).find? n = some m →
      m < n := by
    intro n m hnm
    have hmem : (n, m) ∈ [((1 : ℤ), (-2 : ℤ)), (4, 1)] := OrdMap.mem_entries_iff.2 hnm
    simp only [List.mem_cons, Prod.mk.injEq, List.not_mem_nil, or_false] at hmem
    omega
  obtain ⟨numbers, hwrite, hlen, hgrow, -⟩ := doWriting_restrictedGrowth hdec 4
    (fun v ↦ if v = 0 then 4 else if v = 1 then 7 else -2) (by decide : _ < 3)
  exact ⟨numbers, hwrite, hlen, hgrow⟩

end Writing

/-! ### The points of a run -/

section Run

variable {g : CMygraph} {part : ℕ → ℤ} {partnum climb : ℕ} {map : OrdMap ℤ ℤ}

/-- **A round from a descending map** finds its counts, and its inserts are of free and distinct
parts. -/
theorem Descending.roundInserts (h : Descending partnum map)
    (hclimb : ∀ e < g.nhedges, ∀ v ∈ (g.pAllEdges e).arcs, (part v).toNat < climb) :
    ∃ E, countEdges map climb g part = some E ∧ ((roundInserts E partnum).map Prod.fst).Nodup ∧
      ∀ nm ∈ roundInserts E partnum,
        nm.2 < nm.1 ∧ nm.1 < partnum ∧ map.find? (nm.1 : ℤ) = none := by
  obtain ⟨E, hcount, hE⟩ := h.countEdges_eq hclimb
  obtain ⟨hkeys, hmem⟩ := mem_roundInserts E partnum
  refine ⟨E, hcount, hkeys, fun nm hnm ↦ ?_⟩
  obtain ⟨hlt, hn, hpos⟩ := hmem nm hnm
  exact ⟨hlt, hn, (h.find?_of_counted hE (by omega) hpos).2⟩

/-- Going on is inserting something. -/
theorem mergeStep_eq_inl {E : ℤ → ℤ → ℕ} {next : OrdMap ℤ ℤ}
    (hE : countEdges map climb g part = some E)
    (h : mergeStep climb g part partnum map = Sum.inl next) :
    roundInserts E partnum ≠ [] ∧ next = insertAll map (roundInserts E partnum) := by
  rw [mergeStep, hE] at h
  simp only [mergeRound_eq] at h
  rcases eq_or_ne (roundInserts E partnum) [] with hnil | hnil
  · rw [if_pos hnil] at h
    exact absurd h Sum.inr_ne_inl
  · rw [if_neg hnil] at h
    exact ⟨hnil, (Sum.inl.inj h).symm⟩

/-- The maps at the head of the loop descend. -/
theorem descending_of_reached
    (hclimb : ∀ e < g.nhedges, ∀ v ∈ (g.pAllEdges e).arcs, (part v).toNat < climb)
    (h : Loop.Reached (mergeStep climb g part partnum) ∅ map) : Descending partnum map := by
  refine h.invariant (Descending partnum) ⟨fun n m hnm ↦ absurd hnm (by simp)⟩ ?_
  intro map next hmap hstep
  obtain ⟨E, hE, hkeys, hmem⟩ := hmap.roundInserts hclimb
  rw [(mergeStep_eq_inl hE hstep).2]
  exact (hmap.insertAll hkeys hmem).1

/-- The result of the loop is the map at its head when it exits. -/
theorem reached_of_mergeLoop {fuel : ℕ} {res : OrdMap ℤ ℤ}
    (h : mergeLoop climb fuel g part partnum ∅ = some res) :
    Loop.Reached (mergeStep climb g part partnum) ∅ res := by
  refine Loop.join_run_invariant (Loop.Reached (mergeStep climb g part partnum) ∅) _
    (fun _ _ ht hstep ↦ ht.next hstep) (fun map res ht hstep ↦ ?_) Loop.Reached.start h
  have hsame : res = map := by
    rw [mergeStep] at hstep
    split at hstep
    · exact absurd hstep (by simp)
    · split at hstep
      · exact absurd hstep (by simp)
      · exact (Option.some.inj (Sum.inr.inj hstep)).symm
  exact hsame ▸ ht

end Run

/-- **`mergeParts` terminates**, and so does `doWriting` after it. At every point of the run (`done`
are the inserts that the current round has made) all entries lead to smaller parts, so the walk from
any part ends; the next insert has a key that is not in the map yet; and a round that goes on leaves
fewer parts without an entry. -/
theorem mergeLoop_terminates (pHyper : CHypergraph) (partnum : ℕ) (part : ℕ → ℤ)
    (hlt : ∀ e < pHyper.nhedges, ∀ v ∈ pHyper.pins e, v < pHyper.nvtxs)
    (hpart : ∀ v < pHyper.nvtxs, 0 ≤ part v ∧ part v < partnum) (climb fuel : ℕ)
    (hclimb : partnum ≤ climb) (hfuel : partnum < fuel) :
    let step := mergeStep climb (CMygraph.ofHypergraph pHyper) part partnum
    (∃ res numbers, mergeLoop climb fuel (CMygraph.ofHypergraph pHyper) part partnum ∅ = some res ∧
      doWriting res climb pHyper.nvtxs part = some numbers ∧ Loop.Reached step ∅ res) ∧
    ∀ map, Loop.Reached step ∅ map →
      ∃ E, countEdges map climb (CMygraph.ofHypergraph pHyper) part = some E ∧
        (∀ done rest, roundInserts E partnum = done ++ rest →
          (∀ n m, (insertAll map done).find? n = some m → m < n) ∧
          (∀ whichpart : ℤ, 0 ≤ whichpart → whichpart < partnum →
            ∃ last, lastPart (insertAll map done) climb whichpart = some last) ∧
          ∀ n m, rest.head? = some (n, m) → (insertAll map done).find? (n : ℤ) = none) ∧
        ∀ next, step map = Sum.inl next →
          next = insertAll map (roundInserts E partnum) ∧
            groupCount partnum next < groupCount partnum map := by
  intro step
  have hg := CMygraph.represents_ofHypergraph pHyper
  have hpins : ∀ e < pHyper.nhedges, ∀ v ∈ pHyper.pins e, 0 ≤ part v ∧ part v < partnum :=
    fun e he v hv ↦ hpart v (hlt e he v hv)
  have hlast : ∀ e < (CMygraph.ofHypergraph pHyper).nhedges,
      ∀ v ∈ ((CMygraph.ofHypergraph pHyper).pAllEdges e).arcs, (part v).toNat < climb := by
    intro e he v hv
    rw [hg.nhedges_eq] at he
    rw [hg.edge_arcs e he, List.mem_reverse] at hv
    have := hpins e he v hv
    omega
  refine ⟨?_, fun map hmap ↦ ?_⟩
  · obtain ⟨res, hres, -⟩ := exists_mergeLoop hg hpins hclimb hfuel
    have hreached := reached_of_mergeLoop hres
    have hnumber : ∀ v < pHyper.nvtxs, (part v).toNat < climb := fun v hv ↦ by
      have := hpart v hv
      omega
    obtain ⟨numbers, hnumbers⟩ := (descending_of_reached hlast hreached).exists_doWriting hnumber
    exact ⟨res, numbers, hres, hnumbers, hreached⟩
  · have hdesc := descending_of_reached hlast hmap
    obtain ⟨E, hE, hkeys, hmem⟩ := hdesc.roundInserts hlast
    refine ⟨E, hE, fun done rest hsplit ↦ ?_, fun next hnext ↦ ?_⟩
    · rw [hsplit] at hkeys hmem
      rw [List.map_append] at hkeys
      have hdone := (hdesc.insertAll hkeys.of_append_left
        fun nm hnm ↦ hmem nm (List.mem_append_left _ hnm)).1
      refine ⟨fun n m hnm ↦ (hdone.lt n m hnm).2.1, fun whichpart h0 hlt' ↦ ?_,
        fun n m hhead ↦ ?_⟩
      · exact ⟨_, hdone.lastPart_eq (by omega)⟩
      · -- a key of the rest of the round differs from the keys inserted before it
        have hin : (n, m) ∈ rest := List.mem_of_mem_head? hhead
        rw [find?_insertAll_of_notMem]
        · exact (hmem _ (List.mem_append_right _ hin)).2.2
        · exact fun hd ↦ List.disjoint_of_nodup_append hkeys hd (List.mem_map_of_mem hin)
    · obtain ⟨hne, rfl⟩ := mergeStep_eq_inl hE hnext
      have hcount := (hdesc.insertAll hkeys hmem).2
      have hpos := List.length_pos_of_ne_nil hne
      exact ⟨rfl, by omega⟩

/-- A run with one round: the parts `2` and `1` are merged, then nothing is left to merge. -/
theorem mergeLoop_terminates_sampleParts :
    ((∀ e < sampleParts.nhedges, ∀ v ∈ sampleParts.pins e, v < sampleParts.nvtxs) ∧
      ∀ v < sampleParts.nvtxs, (0 : ℤ) ≤ v ∧ (v : ℤ) < (4 : ℕ)) ∧
    ∃ res numbers, mergeLoop 4 5 (CMygraph.ofHypergraph sampleParts) (fun v ↦ v) 4 ∅ = some res ∧
      doWriting res 4 sampleParts.nvtxs (fun v ↦ v) = some numbers ∧
      Loop.Reached (mergeStep 4 (CMygraph.ofHypergraph sampleParts) (fun v ↦ v) 4) ∅ res := by
  have hlt : ∀ e < sampleParts.nhedges, ∀ v ∈ sampleParts.pins e, v < sampleParts.nvtxs := by
    decide
  have hpart : ∀ v < sampleParts.nvtxs, (0 : ℤ) ≤ v ∧ (v : ℤ) < (4 : ℕ) := by decide
  exact ⟨⟨hlt, hpart⟩, (mergeLoop_terminates sampleParts 4 (fun v ↦ v) hlt hpart 4 5 (by decide)
    (by decide)).1⟩

end CArchitecture
