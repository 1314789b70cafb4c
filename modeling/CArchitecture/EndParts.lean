import CArchitecture.BisectionTree

/-!
# Why the bisection stops

The loop of `doHmetis` ends because two sons have fewer vertices than their father. Here it is said
what it has done by then. Its queue is handed out by increasing addresses, as new nodes come behind
it, so no node is cut twice; and every node of the finished tree has one of four fates (`Fate`): it
was cut, as `myPartition` had said; `myPartition` has found no cut; it is too small to be asked
about; or it is a son of a split that has left one side empty, after which neither side is looked at
again.

* `bisect_fates`: this holds for every node, and a relation with `n` classes needs no more than
  `n - 1` calls of `myPartition`, whatever that answers.
-/

namespace CArchitecture

section Round

variable {M : Type*} {myPartition : ℕ → CHypergraph → Outcome M} {s s' : BisectState M} {a : ℕ}
  {rest : List ℕ} {p : CHypergraph}

/-! ### One round -/

/-- **What one round does** with the front of the queue. -/
inductive BisectRound (myPartition : ℕ → CHypergraph → Outcome M) (s : BisectState M) (a : ℕ)
    (rest : List ℕ) : BisectState M → Prop
  | small : (s.heap a).nvtxs < END_NUM →
      BisectRound myPartition s a rest { s with subGraph := rest, endParts := s.endParts ++ [a] }
  | kept (g : Option M) : END_NUM ≤ (s.heap a).nvtxs →
      (partitioned myPartition s.calls (s.heap a)).isParted = false →
      BisectRound myPartition s a rest
        { s with
          heap := Function.update s.heap a (partitioned myPartition s.calls (s.heap a))
          subGraph := rest
          endParts := s.endParts ++ [a]
          calls := s.calls + 1
          pMyGraph := g }
  | cut (g : Option M) : END_NUM ≤ (s.heap a).nvtxs →
      (partitioned myPartition s.calls (s.heap a)).isParted = true →
      BisectRound myPartition s a rest
        (splitNode { s with subGraph := rest, calls := s.calls + 1, pMyGraph := g } a
          (partitioned myPartition s.calls (s.heap a)))

theorem bisectRound_of_step (h : bisectStep myPartition s = Sum.inl s') :
    ∃ a rest, s.subGraph = a :: rest ∧ BisectRound myPartition s a rest s' := by
  rw [bisectStep] at h
  cases hq : s.subGraph with
  | nil => rw [hq] at h; exact absurd h (by simp)
  | cons a rest =>
    rw [hq] at h
    refine ⟨a, rest, rfl, ?_⟩
    simp only at h
    by_cases hn : (s.heap a).nvtxs > END_NUM - 1
    · have hlarge : END_NUM ≤ (s.heap a).nvtxs := by rw [END_NUM] at hn ⊢; omega
      rw [if_pos hn] at h
      by_cases hp : (partitioned myPartition s.calls (s.heap a)).isParted = true
      · rw [if_pos hp] at h
        exact Sum.inl.inj h ▸ .cut _ hlarge hp
      · rw [if_neg hp] at h
        exact Sum.inl.inj h ▸ .kept _ hlarge (Bool.eq_false_iff.2 hp)
    · have hsmall : (s.heap a).nvtxs < END_NUM := by rw [END_NUM] at hn ⊢; omega
      rw [if_neg hn] at h
      exact Sum.inl.inj h ▸ .small hsmall

/-- What a split does besides growing the tree. The sons are queued unless one of them is empty. -/
theorem splitNode_fields (p : CHypergraph) (ha : a < s.size) :
    ((splitNode s a p).calls = s.calls ∧ (splitNode s a p).endParts = s.endParts) ∧
    (((splitNode s a p).heap a).part = p.part ∧ ((splitNode s a p).heap a).modu = p.modu) ∧
    ((splitNode s a p).subGraph = s.subGraph ++ [s.size, s.size + 1] ∧
        ((splitNode s a p).heap s.size).nvtxs ≠ 0 ∧
        ((splitNode s a p).heap (s.size + 1)).nvtxs ≠ 0 ∨
      (splitNode s a p).subGraph = s.subGraph ∧
        (((splitNode s a p).heap s.size).nvtxs = 0 ∨
          ((splitNode s a p).heap (s.size + 1)).nvtxs = 0)) := by
  set subs := createSubGraph a p (CHypergraph.new (s.heap s.size))
    (CHypergraph.new (s.heap (s.size + 1))) with hsubs
  have hdef : splitNode s a p =
      if subs.2.1.nvtxs ≠ 0 ∧ subs.2.2.nvtxs ≠ 0 then
        { linkSons s a subs.1 { subs.2.1 with floor := p.floor + 1 }
            { subs.2.2 with floor := p.floor + 1 } with
          subGraph := s.subGraph ++ [s.size, s.size + 1] }
      else linkSons s a subs.1 subs.2.1 subs.2.2 := rfl
  rw [hdef]
  split_ifs with hne
  · refine ⟨⟨rfl, rfl⟩, ?_, Or.inl ⟨rfl, ?_, ?_⟩⟩
    · show ((linkSons s a _ _ _).heap a).part = _ ∧ ((linkSons s a _ _ _).heap a).modu = _
      rw [heap_linkSons_father ha]
      exact ⟨rfl, rfl⟩
    · show ((linkSons s a _ _ _).heap s.size).nvtxs ≠ 0
      rw [heap_linkSons_left]
      exact hne.1
    · show ((linkSons s a _ _ _).heap (s.size + 1)).nvtxs ≠ 0
      rw [heap_linkSons_right]
      exact hne.2
  · refine ⟨⟨rfl, rfl⟩, ?_, Or.inr ⟨rfl, ?_⟩⟩
    · rw [heap_linkSons_father ha]
      exact ⟨rfl, rfl⟩
    · rw [heap_linkSons_left, heap_linkSons_right]
      by_contra hboth
      exact hne (not_or.1 hboth)

/-! ### The fates -/

/-- **What has become of a node**, if `called` are the nodes that `myPartition` was called on. -/
inductive Fate (myPartition : ℕ → CHypergraph → Outcome M) (called : List ℕ) (s : BisectState M)
    (x : ℕ) : Prop
  /-- It was cut, along the sides that `myPartition` gave its vertices. -/
  | cut {k b c : ℕ} {p : CHypergraph} (hcall : called[k]? = some x)
      (hp : p.SameGraph (s.heap x)) (hlarge : END_NUM ≤ p.nvtxs)
      (hparted : (myPartition k p).isParted = true)
      (hpart : (s.heap x).part = (myPartition k p).part)
      (hmodu : (s.heap x).modu = (myPartition k p).modu)
      (hb : b < s.size) (hc : c < s.size) (hsons : s.heap.HasSons x b c)
  /-- `myPartition` has found no cut. -/
  | kept {k : ℕ} {p : CHypergraph} (hcall : called[k]? = some x) (hp : p.SameGraph (s.heap x))
      (hlarge : END_NUM ≤ p.nvtxs) (hparted : (myPartition k p).isParted = false)
      (hleaf : (s.heap x).IsLeaf) (hend : x ∈ s.endParts)
  /-- It is too small. -/
  | small (hsmall : (s.heap x).nvtxs < END_NUM) (hleaf : (s.heap x).IsLeaf)
      (hend : x ∈ s.endParts)
  /-- It comes from a split that has left one side empty. -/
  | dropped {f b c : ℕ} (hb : b < s.size) (hc : c < s.size) (hsons : s.heap.HasSons f b c)
      (hson : x = b ∨ x = c) (hempty : (s.heap b).nvtxs = 0 ∨ (s.heap c).nvtxs = 0)
      (hleaf : (s.heap x).IsLeaf) (hend : x ∉ s.endParts)

/-- The fate of a node is settled: a round with another node makes no difference. -/
theorem Fate.next {x : ℕ} {called called' : List ℕ} (h : Fate myPartition called s x)
    (hx : x < s.size) (hchange : Heap.ChangesLeaf s.heap s'.heap s.size a) (hxa : x ≠ a)
    (hsize : s.size ≤ s'.size) (hcalled : called <+: called')
    (hends : x ∈ s'.endParts ↔ x ∈ s.endParts) : Fate myPartition called' s' x := by
  have heq := hchange.eq_of_ne x hx hxa
  have hstill : ∀ k : ℕ, called[k]? = some x → called'[k]? = some x := by
    obtain ⟨l, rfl⟩ := hcalled
    exact fun k hk ↦ (List.getElem?_append_left (List.getElem?_eq_some_iff.1 hk).1).trans hk
  cases h with
  | cut hcall hp hlarge hparted hpart hmodu hb hc hsons =>
    exact .cut (hstill _ hcall) (heq ▸ hp) hlarge hparted (heq ▸ hpart) (heq ▸ hmodu)
      (hb.trans_le hsize) (hc.trans_le hsize) (hchange.hasSons hb hc hsons)
  | kept hcall hp hlarge hparted hleaf hend =>
    exact .kept (hstill _ hcall) (heq ▸ hp) hlarge hparted (heq ▸ hleaf) (hends.2 hend)
  | small hsmall hleaf hend =>
    exact .small (heq ▸ hsmall) (heq ▸ hleaf) (hends.2 hend)
  | dropped hb hc hsons hson hempty hleaf hend =>
    refine .dropped (hb.trans_le hsize) (hc.trans_le hsize) (hchange.hasSons hb hc hsons) hson ?_
      (heq ▸ hleaf) (mt hends.1 hend)
    rwa [(hchange.sameGraph_of_lt hb).nvtxs_eq, (hchange.sameGraph_of_lt hc).nvtxs_eq]

/-! ### The loop -/

/-- The calls that the queue can still cause, at most. -/
def BisectState.callsLeft (s : BisectState M) : ℕ :=
  (s.subGraph.map fun x ↦ (s.heap x).nvtxs - 1).sum

/-- **What the loop keeps**: the calls so far and the end parts come before the queue, in the order
of the addresses, and a node that is not in the queue is settled. -/
structure Settling (myPartition : ℕ → CHypergraph → Outcome M) (n : ℕ) (called : List ℕ)
    (s : BisectState M) : Prop where
  good : s.Good
  length_eq : called.length = s.calls
  called_sorted : (called ++ s.subGraph).Pairwise (· < ·)
  ends_sorted : (s.endParts ++ s.subGraph).Pairwise (· < ·)
  called_lt : ∀ x ∈ called, x < s.size
  ends_lt : ∀ x ∈ s.endParts, x < s.size
  fate : ∀ x < s.size, x ∉ s.subGraph → Fate myPartition called s x
  calls_le : s.callsLeft + s.calls ≤ n - 1

/-- The root is all there is. -/
theorem settling_bisectInit {g : Option M} {memory : Heap} {pHyper : CHypergraph}
    (hgood : (bisectInit g memory pHyper).Good) :
    Settling myPartition pHyper.nvtxs [] (bisectInit g memory pHyper) where
  good := hgood
  length_eq := rfl
  called_sorted := List.pairwise_singleton _ _
  ends_sorted := List.pairwise_singleton _ _
  called_lt := by simp
  ends_lt := by simp [bisectInit]
  fate x hx hnot := by
    obtain rfl : x = 0 := Nat.lt_one_iff.1 hx
    exact absurd (List.mem_singleton_self 0) hnot
  calls_le := by simp [BisectState.callsLeft, bisectInit, prepareRoot]

section Step

variable {n : ℕ} {called : List ℕ}

theorem Settling.lt_of_mem (h : Settling myPartition n called s) (hq : s.subGraph = a :: rest)
    {x : ℕ} (hx : x ∈ rest) : x < s.size :=
  (h.good.queued x (by rw [hq]; exact List.mem_cons_of_mem _ hx)).1

theorem Settling.notMem_rest (h : Settling myPartition n called s)
    (hq : s.subGraph = a :: rest) : a ∉ rest := by
  have hnodup := h.good.nodup
  rw [hq] at hnodup
  exact (List.nodup_cons.1 hnodup).1

/-- Without the front the queue has fewer calls left. -/
theorem Settling.callsLeft_eq (h : Settling myPartition n called s)
    (hq : s.subGraph = a :: rest) {heap : Heap} (hheap : ∀ x < s.size, x ≠ a → heap x = s.heap x) :
    s.callsLeft = (s.heap a).nvtxs - 1 + (rest.map fun x ↦ (heap x).nvtxs - 1).sum := by
  rw [BisectState.callsLeft, hq, List.map_cons, List.sum_cons]
  congr 2
  refine List.map_congr_left fun x hx ↦ ?_
  rw [hheap x (h.lt_of_mem hq hx) fun hxa ↦ h.notMem_rest hq (hxa ▸ hx)]

/-- A round in which the front of the queue becomes an end part. -/
theorem Settling.of_end (h : Settling myPartition n called s) (hq : s.subGraph = a :: rest)
    (hgood : s'.Good) (hsize : s'.size = s.size) (hrest : s'.subGraph = rest)
    (hends : s'.endParts = s.endParts ++ [a])
    (hchange : Heap.ChangesLeaf s.heap s'.heap s.size a) {called' : List ℕ}
    (hcalled : called <+: called') (hlength : called'.length = s'.calls)
    (hsorted : (called' ++ rest).Pairwise (· < ·)) (hlt : ∀ x ∈ called', x < s.size)
    (hcalls : s'.calls ≤ s.calls + ((s.heap a).nvtxs - 1)) (hfate : Fate myPartition called' s' a) :
    Settling myPartition n called' s' where
  good := hgood
  length_eq := hlength
  called_sorted := hrest ▸ hsorted
  ends_sorted := by
    have hbefore := h.ends_sorted
    rw [hq] at hbefore
    rwa [hends, hrest, List.append_assoc, List.singleton_append]
  called_lt x hx := hsize ▸ hlt x hx
  ends_lt x hx := by
    rw [hends, List.mem_append, List.mem_singleton] at hx
    rw [hsize]
    rcases hx with hx | rfl
    · exact h.ends_lt x hx
    · exact hchange.lt
  fate x hx hnot := by
    rw [hsize] at hx
    rw [hrest] at hnot
    rcases eq_or_ne x a with rfl | hne
    · exact hfate
    · refine (h.fate x hx ?_).next hx hchange hne hsize.ge hcalled ?_
      · rw [hq, List.mem_cons]
        exact not_or.2 ⟨hne, hnot⟩
      · rw [hends, List.mem_append, List.mem_singleton]
        exact or_iff_left hne
  calls_le := by
    have hleft := h.callsLeft_eq hq hchange.eq_of_ne
    have hle := h.calls_le
    rw [BisectState.callsLeft, hrest]
    omega

/-- With the front of the queue called, the order of the addresses stays. -/
theorem Settling.call (h : Settling myPartition n called s) (hq : s.subGraph = a :: rest) :
    (called ++ [a])[s.calls]? = some a ∧ ((called ++ [a]) ++ rest).Pairwise (· < ·) ∧
      ∀ x ∈ called ++ [a], x < s.size := by
  have hsorted := h.called_sorted
  rw [hq] at hsorted
  refine ⟨?_, by rwa [List.append_assoc, List.singleton_append], fun x hx ↦ ?_⟩
  · rw [← h.length_eq]
    exact List.getElem?_concat_length
  · rw [List.mem_append, List.mem_singleton] at hx
    rcases hx with hx | rfl
    · exact h.called_lt x hx
    · exact (h.good.queued x (by rw [hq]; exact List.mem_cons_self)).1

/-- A round in which the front of the queue is cut. -/
theorem Settling.of_cut (h : Settling myPartition n called s) (hq : s.subGraph = a :: rest)
    {t : BisectState M} (hheap : t.heap = s.heap) (hsize : t.size = s.size)
    (hrest : t.subGraph = rest) (hcalls : t.calls = s.calls + 1) (hends : t.endParts = s.endParts)
    (hp : (s.heap a).SameGraph p) (hsplit : IsSplit t (splitNode t a p) a p)
    (hgood : (splitNode t a p).Good) (hlarge : END_NUM ≤ (s.heap a).nvtxs)
    (hparted : (myPartition s.calls { s.heap a with modu := 0 }).isParted = true)
    (hpart : p.part = (myPartition s.calls { s.heap a with modu := 0 }).part)
    (hmodu : p.modu = (myPartition s.calls { s.heap a with modu := 0 }).modu) :
    Settling myPartition n (called ++ [a]) (splitNode t a p) := by
  obtain ⟨ha, hleaf⟩ := h.good.queued a (by rw [hq]; exact List.mem_cons_self)
  obtain ⟨hcall, hsorted, hlt⟩ := h.call hq
  obtain ⟨⟨hcalls', hends'⟩, ⟨hpart', hmodu'⟩, hqueue⟩ := splitNode_fields p (hsize ▸ ha)
  have hsize' := hsplit.size_eq
  have hsons := hsplit.hasSons
  have hheap' := hsplit.heap_eq
  have hl := hsplit.left
  have hr := hsplit.right
  have hsame := hp.trans hsplit.sameGraph
  generalize splitNode t a p = s' at *
  rw [hsize] at hsize' hsons hheap' hl hr hqueue
  rw [hheap] at hheap'
  rw [hrest] at hqueue
  rw [hends] at hends'
  rw [hcalls] at hcalls'
  have hchange : Heap.ChangesLeaf s.heap s'.heap s.size a := ⟨ha, hleaf, hsame, hheap'⟩
  have hnew : Fate myPartition (called ++ [a]) s' a :=
    .cut (p := { s.heap a with modu := 0 }) hcall
      ⟨hsame.nvtxs_eq, hsame.nhedges_eq, hsame.vwgts_eq, hsame.eptr_eq, hsame.eind_eq,
        hsame.hewgts_eq, hsame.fatherGraph_eq, hsame.mapForFather_eq⟩
      hlarge hparted (hpart'.trans hpart) (hmodu'.trans hmodu) (by omega) (by omega) hsons
  have hold : ∀ x < s.size, x ∉ rest → Fate myPartition (called ++ [a]) s' x := by
    intro x hx hnot
    rcases eq_or_ne x a with rfl | hne
    · exact hnew
    · refine (h.fate x hx ?_).next hx hchange hne (by omega) (List.prefix_append _ _)
        (by rw [hends'])
      rw [hq, List.mem_cons]
      exact not_or.2 ⟨hne, hnot⟩
  have hleft := h.callsLeft_eq hq hheap'
  have hle := h.calls_le
  have hbefore := h.ends_sorted
  rw [hq] at hbefore
  have hsum : (s'.heap a).nvtxs = (s'.heap s.size).nvtxs + (s'.heap (s.size + 1)).nvtxs :=
    hsons.nvtxs_eq
  rw [hsame.nvtxs_eq] at hsum
  have hends_rest : (s'.endParts ++ rest).Pairwise (· < ·) := by
    rw [hends']
    exact hbefore.sublist (List.Sublist.append_left (List.sublist_cons_self _ _) _)
  have hends_lt : ∀ x ∈ s'.endParts, x < s.size := fun x hx ↦ h.ends_lt x (hends' ▸ hx)
  rcases hqueue with ⟨hqueue, hne1, hne2⟩ | ⟨hqueue, hempty⟩
  · -- both sons are queued, behind all that is there
    have hbehind : ∀ {l : List ℕ}, (l ++ rest).Pairwise (· < ·) → (∀ x ∈ l, x < s.size) →
        (l ++ s'.subGraph).Pairwise (· < ·) := by
      intro l hl hlt
      rw [hqueue, ← List.append_assoc, List.pairwise_append]
      refine ⟨hl, by simp, fun x hx y hy ↦ ?_⟩
      have hxs : x < s.size := (List.mem_append.1 hx).elim (hlt x) (h.lt_of_mem hq)
      simp only [List.mem_cons, List.not_mem_nil, or_false] at hy
      omega
    refine ⟨hgood, ?_, hbehind hsorted hlt, hbehind hends_rest hends_lt, fun x hx ↦ ?_,
      fun x hx ↦ ?_, fun x hx hnot ↦ ?_, ?_⟩
    · rw [List.length_append, List.length_singleton, h.length_eq, hcalls']
    · have := hlt x hx
      omega
    · have := hends_lt x hx
      omega
    · rw [hqueue, List.mem_append] at hnot
      simp only [List.mem_cons, List.not_mem_nil, or_false] at hnot
      exact hold x (by omega) fun hx ↦ hnot (Or.inl hx)
    · rw [BisectState.callsLeft, hqueue, List.map_append, List.sum_append]
      simp only [List.map_cons, List.map_nil, List.sum_cons, List.sum_nil]
      omega
  · -- the sons are left alone
    refine ⟨hgood, ?_, hqueue ▸ hsorted, hqueue ▸ hends_rest, fun x hx ↦ ?_, fun x hx ↦ ?_,
      fun x hx hnot ↦ ?_, ?_⟩
    · rw [List.length_append, List.length_singleton, h.length_eq, hcalls']
    · have := hlt x hx
      omega
    · have := hends_lt x hx
      omega
    · rcases Nat.lt_or_ge x s.size with hxs | hge
      · exact hold x hxs (hqueue ▸ hnot)
      · have hson : x = s.size ∨ x = s.size + 1 := by omega
        refine .dropped (by omega) (by omega) hsons hson hempty ?_ fun hx ↦ ?_
        · rcases hson with rfl | rfl
          · exact hl
          · exact hr
        · have := hends_lt x hx
          omega
    · rw [END_NUM] at hlarge
      rw [BisectState.callsLeft, hqueue]
      omega

/-- **Every round settles the front of the queue.** -/
theorem Settling.step (hmy : LabelsSides myPartition) (h : Settling myPartition n called s)
    (hstep : bisectStep myPartition s = Sum.inl s') :
    ∃ called', Settling myPartition n called' s' := by
  have hgood := (h.good.bisectStep hmy hstep).1
  obtain ⟨a, rest, hq, hround⟩ := bisectRound_of_step hstep
  obtain ⟨ha, hleaf⟩ := h.good.queued a (by rw [hq]; exact List.mem_cons_self)
  have hsorted := h.called_sorted
  rw [hq] at hsorted
  have hsame := sameGraph_partitioned myPartition s.calls (s.heap a)
  cases hround with
  | small hsmall =>
    have hchange : Heap.ChangesLeaf s.heap s.heap s.size a :=
      ⟨ha, hleaf, CHypergraph.SameGraph.refl _, fun _ _ _ ↦ rfl⟩
    exact ⟨called, h.of_end hq hgood rfl rfl rfl hchange List.prefix_rfl h.length_eq
      (hsorted.sublist (List.Sublist.append_left (List.sublist_cons_self _ _) _)) h.called_lt
      (Nat.le_add_right _ _) (.small hsmall hleaf (by simp))⟩
  | kept g hlarge hnot =>
    obtain ⟨hcall, hsorted', hlt⟩ := h.call hq
    have hchange : Heap.ChangesLeaf s.heap (Function.update s.heap a
        (partitioned myPartition s.calls (s.heap a))) s.size a :=
      ⟨ha, hleaf, by rw [Function.update_self]; exact hsame,
        fun x _ hxa ↦ Function.update_of_ne hxa _ _⟩
    refine ⟨called ++ [a], h.of_end hq hgood rfl rfl rfl hchange (List.prefix_append _ _) ?_
      hsorted' hlt ?_ ?_⟩
    · rw [List.length_append, List.length_singleton, h.length_eq]
    · show s.calls + 1 ≤ _
      rw [END_NUM] at hlarge
      omega
    · refine .kept (p := { s.heap a with modu := 0 }) hcall ?_ hlarge hnot ?_ (by simp)
      · show CHypergraph.SameGraph _ (Function.update s.heap a _ a)
        rw [Function.update_self]
        exact ⟨rfl, rfl, rfl, rfl, rfl, rfl, rfl, rfl⟩
      · show CHypergraph.IsLeaf (Function.update s.heap a _ a)
        rw [Function.update_self]
        exact ⟨hleaf.leftSon_eq, hleaf.rightSon_eq, hleaf.mapForG1_eq, hleaf.mapForG2_eq⟩
  | cut g hlarge hparted =>
    have hw := hsame.wellFormed (h.good.tree.wellFormed a ha)
    have hsplit := isSplit_splitNode
      (s := { s with subGraph := rest, calls := s.calls + 1, pMyGraph := g }) hw (hmy _ _ hparted)
      hleaf.mapForG1_eq hleaf.mapForG2_eq ha
    exact ⟨called ++ [a], h.of_cut hq rfl rfl rfl rfl rfl hsame hsplit hgood hlarge hparted rfl rfl⟩

end Step

end Round

/-! ### The whole run -/

section Run

variable {M : Type*}

/-- **The bisection stops when every node is settled**, whatever sides `myPartition` returns. No
node is handed to it twice, the calls and the end parts follow the addresses, and with `n` classes
there are no more than `n - 1` calls. -/
theorem bisect_fates (r : CalledRelation) (hr : r.Proper) (fathermap : OrdMap Str Str)
    (strPara : Str) (raw : CHypergraph) (memory : Heap) (g : Option M)
    (myPartition : ℕ → CHypergraph → Outcome M) (hmy : LabelsSides myPartition) :
    ∃ pHyper, createHypergraph r fathermap strPara raw = some pHyper ∧
      ∃ s fuel₀, (∀ fuel > fuel₀, bisect myPartition fuel (bisectInit g memory pHyper) = some s) ∧
        s.calls ≤ pHyper.nvtxs - 1 ∧ s.endParts.Pairwise (· < ·) ∧
        ∃ called : List ℕ, called.length = s.calls ∧ called.Pairwise (· < ·) ∧
          ∀ x < s.size, Fate myPartition called s x := by
  obtain ⟨pHyper, hsome, hh⟩ := exists_createHypergraph r fathermap strPara raw
  have hinit := hh.accounted_bisectInit hr g memory
  obtain ⟨s, hrun, -, -⟩ := exists_bisect hmy hinit.good
  refine ⟨pHyper, hsome, s, _, hrun, ?_⟩
  obtain ⟨⟨called, h⟩, hempty⟩ := Loop.run_invariant
    (fun t ↦ ∃ called, Settling myPartition pHyper.nvtxs called t)
    (fun t ↦ (∃ called, Settling myPartition pHyper.nvtxs called t) ∧ t.subGraph = [])
    (fun _ _ ⟨_, ht⟩ hstep ↦ ht.step hmy hstep)
    (fun t t' ht hstep ↦ by
      obtain ⟨rfl, hempty⟩ := eq_of_bisectStep_eq_inr hstep
      exact ⟨ht, hempty⟩)
    ⟨[], settling_bisectInit hinit.good⟩ (hrun _ (Nat.lt_succ_self _))
  have hcalled := h.called_sorted
  have hends := h.ends_sorted
  have hcalls := h.calls_le
  rw [hempty, List.append_nil] at hcalled hends
  exact ⟨by omega, hends, called, h.length_eq, hcalled,
    fun x hx ↦ h.fate x hx (by rw [hempty]; exact List.not_mem_nil)⟩

theorem bisect_fates_sampleRelation :
    (sampleRelation.Proper ∧ LabelsSides cutFirst) ∧
    ∃ pHyper, createHypergraph sampleRelation ∅ [] default = some pHyper ∧
      ∃ s fuel₀, (∀ fuel > fuel₀,
          bisect cutFirst fuel (bisectInit none default pHyper) = some s) ∧
        s.calls ≤ pHyper.nvtxs - 1 ∧ s.endParts.Pairwise (· < ·) ∧
        ∃ called : List ℕ, called.length = s.calls ∧ called.Pairwise (· < ·) ∧
          ∀ x < s.size, Fate cutFirst called s x :=
  ⟨⟨proper_sampleRelation, labelsSides_cutFirst⟩, bisect_fates sampleRelation
    proper_sampleRelation ∅ [] default default none cutFirst labelsSides_cutFirst⟩

end Run

end CArchitecture
