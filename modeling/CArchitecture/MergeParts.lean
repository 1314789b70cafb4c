import CArchitecture.LeafNumbers
import CArchitecture.Library.Coarsening
import CArchitecture.Mygraph
import Mathlib.Data.Nat.Count

/-!
# Merging parts that share edges

After the leaves have been numbered, `mergeParts` merges parts as long as two of them share more
than one hyperedge. The groups are kept as `mapForLastPart`: a part that was merged points to the
part it was merged into, and the last part of that chain stands for the group.

A round counts, for every two groups, the edges with pins in both, merges the first pair with the
largest count, and then merges one more pair, **by the same counts**, although the first merge may
have changed them. This is harmless: both merges are forced, so the loop is one of the processes
that `Coarsening.Merges` describes (`MergeInv.insert`), and it stops in a valid grouping.
-/

namespace CArchitecture

open FirstSeen

/-! ### The loop -/

/-- Follow `mapForLastPart` to the part that stands for the group. -/
def lastPart (mapForLastPart : OrdMap ℤ ℤ) : ℕ → ℤ → Option ℤ
  | 0, _ => none
  | n + 1, whichpart =>
    match mapForLastPart.find? whichpart with
    | some next => lastPart mapForLastPart n next
    | none => some whichpart

/-- The variables of the loop over the pins of one edge. -/
structure EdgeParts where
  EdgesBetweenParts : ℤ → ℤ → ℕ
  PartExit : OrdMap ℤ Bool := ∅
  vectorForParts : List ℤ := []

/-- Count the edge for one pair of groups. -/
def countPair (whichpart : ℤ) (E : ℤ → ℤ → ℕ) (other : ℤ) : ℤ → ℤ → ℕ :=
  let lo := if other > whichpart then whichpart else other
  let hi := if other > whichpart then other else whichpart
  Function.update E lo (Function.update (E lo) hi (E lo hi + 1))

/-- One pin, whose group is `whichpart`: a group that the edge has not met before is paired with
those it has. -/
def meetPart (s : EdgeParts) (whichpart : ℤ) : EdgeParts :=
  match s.PartExit.find? whichpart with
  | some _ => s
  | none =>
    { EdgesBetweenParts := s.vectorForParts.foldl (countPair whichpart) s.EdgesBetweenParts
      PartExit := s.PartExit.insert whichpart true
      vectorForParts := s.vectorForParts ++ [whichpart] }

/-- One edge. -/
def countEdge (mapForLastPart : OrdMap ℤ ℤ) (climb : ℕ) (part : ℕ → ℤ) (arcs : List ℕ)
    (E : ℤ → ℤ → ℕ) : Option (ℤ → ℤ → ℕ) := do
  let parts ← arcs.mapM fun node ↦ lastPart mapForLastPart climb (part node)
  pure (parts.foldl meetPart { EdgesBetweenParts := E }).EdgesBetweenParts

/-- The table `EdgesBetweenParts` of a round. -/
def countEdges (mapForLastPart : OrdMap ℤ ℤ) (climb : ℕ) (pMyGraph : CMygraph) (part : ℕ → ℤ) :
    Option (ℤ → ℤ → ℕ) :=
  (List.range pMyGraph.nhedges).foldlM
    (fun E i ↦ countEdge mapForLastPart climb part (pMyGraph.pAllEdges i).arcs E) fun _ _ ↦ 0

/-- The pairs `i < j` of parts, in the order of the two loops. -/
def partPairs (partnum : ℕ) : List (ℕ × ℕ) :=
  (List.range partnum).flatMap fun i ↦ (List.range' (i + 1) (partnum - (i + 1))).map fun j ↦ (i, j)

/-- A pair of parts with the count that was found for it. -/
structure CutPair where
  m : ℕ := 0
  n : ℕ := 0
  cut : ℤ := -1

/-- One step of the search for the largest count among the pairs that `ok` admits. -/
def largerPair (E : ℤ → ℤ → ℕ) (ok : ℕ → ℕ → Bool) (best : CutPair) (ij : ℕ × ℕ) : CutPair :=
  if (E ij.1 ij.2 : ℤ) > best.cut ∧ ok ij.1 ij.2 then ⟨ij.1, ij.2, E ij.1 ij.2⟩ else best

/-- The first pair with the largest count among those that `ok` admits. -/
def maxPair (E : ℤ → ℤ → ℕ) (ok : ℕ → ℕ → Bool) (partnum : ℕ) : CutPair :=
  (partPairs partnum).foldl (largerPair E ok) {}

/-- The two merges of a round, or nothing if no two groups share more than one edge. -/
def mergeRound (E : ℤ → ℤ → ℕ) (partnum : ℕ) (mapForLastPart : OrdMap ℤ ℤ) :
    Option (OrdMap ℤ ℤ) :=
  let best := maxPair E (fun _ _ ↦ true) partnum
  if best.cut > 1 then
    let first := mapForLastPart.insert best.n best.m
    let second := maxPair E (fun i j ↦ i ≠ best.m && j ≠ best.n) partnum
    if second.cut > 1 then some (first.insert second.n second.m) else some first
  else none

/-- One round. The inner result is missing if a chain of parts did not end. -/
def mergeStep (climb : ℕ) (pMyGraph : CMygraph) (part : ℕ → ℤ) (partnum : ℕ)
    (mapForLastPart : OrdMap ℤ ℤ) : OrdMap ℤ ℤ ⊕ Option (OrdMap ℤ ℤ) :=
  match countEdges mapForLastPart climb pMyGraph part with
  | none => Sum.inr none
  | some E =>
    match mergeRound E partnum mapForLastPart with
    | some next => Sum.inl next
    | none => Sum.inr (some mapForLastPart)

/-- The loop of `mergeParts`. -/
def mergeLoop (climb fuel : ℕ) (pMyGraph : CMygraph) (part : ℕ → ℤ) (partnum : ℕ)
    (mapForLastPart : OrdMap ℤ ℤ) : Option (OrdMap ℤ ℤ) :=
  (Loop.run (mergeStep climb pMyGraph part partnum) fuel mapForLastPart).join

/-- `mergeParts`: number the leaves, then merge. -/
def mergeParts (climb fuel : ℕ) (heap : Heap) (pMyGraph : CMygraph)
    (mapForLastPart : OrdMap ℤ ℤ) : Option ((ℕ → ℤ) × OrdMap ℤ ℤ) := do
  let (partnum, part) ← dfsForWriteParts heap climb fuel (some 0) 0 (heap 0).part
  let mapForLastPart ← mergeLoop climb fuel pMyGraph part partnum mapForLastPart
  pure (part, mapForLastPart)

/-! ### Groups -/

/-- Parts point to smaller parts. -/
structure Descending (partnum : ℕ) (map : OrdMap ℤ ℤ) : Prop where
  lt : ∀ n m, map.find? n = some m → 0 ≤ m ∧ m < n ∧ n < partnum

/-- The part that stands for the group of `p`. -/
def repOf (map : OrdMap ℤ ℤ) (p : ℤ) : ℤ := (lastPart map (p.toNat + 1) p).getD p

section Groups

variable {partnum : ℕ} {map : OrdMap ℤ ℤ}

/-- Fuel beyond the length of a chain does not matter. -/
theorem lastPart_mono {n m : ℕ} {p q : ℤ} (hnm : n ≤ m) (h : lastPart map n p = some q) :
    lastPart map m p = some q := by
  induction n generalizing m p with
  | zero => exact absurd h (by simp [lastPart])
  | succ n ih =>
    obtain ⟨m, rfl⟩ : ∃ m', m = m' + 1 := ⟨m - 1, by omega⟩
    rw [lastPart] at h ⊢
    cases hfind : map.find? p with
    | none =>
      rw [hfind] at h
      exact h
    | some next =>
      rw [hfind] at h
      exact ih (by omega) h

/-- Chains end. -/
theorem Descending.exists_lastPart (h : Descending partnum map) {n : ℕ} {p : ℤ}
    (hn : p.toNat < n) : ∃ q, lastPart map n p = some q := by
  induction n generalizing p with
  | zero => exact absurd hn (Nat.not_lt_zero _)
  | succ n ih =>
    rw [lastPart]
    cases hfind : map.find? p with
    | none => exact ⟨p, rfl⟩
    | some q =>
      have hq := h.lt p q hfind
      exact ih (by omega)

theorem Descending.lastPart_eq (h : Descending partnum map) {n : ℕ} {p : ℤ} (hn : p.toNat < n) :
    lastPart map n p = some (repOf map p) := by
  obtain ⟨q, hq⟩ := h.exists_lastPart (Nat.lt_succ_self p.toNat)
  rw [lastPart_mono hn hq, repOf, hq, Option.getD_some]

/-- A part that points nowhere stands for its own group. -/
theorem repOf_of_none {p : ℤ} (h : map.find? p = none) : repOf map p = p := by
  rw [repOf, lastPart, h]
  rfl

theorem Descending.repOf_of_some (h : Descending partnum map) {p q : ℤ}
    (hpq : map.find? p = some q) : repOf map p = repOf map q := by
  have hlt := h.lt p q hpq
  have hq := h.lastPart_eq (n := p.toNat) (p := q) (by omega)
  rw [repOf, lastPart, hpq]
  show (lastPart map p.toNat q).getD p = _
  rw [hq, Option.getD_some]

/-- Induction along the chain of a part. -/
theorem Descending.chain_induction (h : Descending partnum map) {C : ℤ → Prop}
    (hnone : ∀ p, map.find? p = none → C p)
    (hsome : ∀ p q, map.find? p = some q → C q → C p) (p : ℤ) : C p := by
  induction hk : p.toNat using Nat.strong_induction_on generalizing p with
  | _ k ih =>
    cases hfind : map.find? p with
    | none => exact hnone p hfind
    | some q =>
      have := h.lt p q hfind
      exact hsome p q hfind (ih q.toNat (by omega) q rfl)

theorem Descending.find?_repOf (h : Descending partnum map) (p : ℤ) :
    map.find? (repOf map p) = none := by
  refine h.chain_induction (C := fun p ↦ map.find? (repOf map p) = none) ?_ ?_ p
  · intro p hp
    rw [repOf_of_none hp, hp]
  · intro p q hpq ih
    rwa [h.repOf_of_some hpq]

theorem Descending.repOf_mem (h : Descending partnum map) {p : ℤ} (h0 : 0 ≤ p) :
    0 ≤ repOf map p ∧ repOf map p ≤ p := by
  revert h0
  refine h.chain_induction (C := fun p ↦ 0 ≤ p → 0 ≤ repOf map p ∧ repOf map p ≤ p) ?_ ?_ p
  · intro p hp h0
    rw [repOf_of_none hp]
    exact ⟨h0, le_rfl⟩
  · intro p q hpq ih _
    have hlt := h.lt p q hpq
    have := ih hlt.1
    rw [h.repOf_of_some hpq]
    omega

/-- **A merge**, in terms of the parts that stand for the groups. -/
theorem Descending.repOf_insert (h : Descending partnum map) {m n : ℤ} (hm : 0 ≤ m) (hmn : m < n)
    (hn : n < partnum) (hfree : map.find? n = none) :
    Descending partnum (map.insert n m) ∧
      ∀ p, repOf (map.insert n m) p = if repOf map p = n then repOf map m else repOf map p := by
  have hins : Descending partnum (map.insert n m) := by
    refine ⟨fun a b hab ↦ ?_⟩
    rw [OrdMap.find?_insert] at hab
    split_ifs at hab with ha
    · rw [hfree, Option.none_or] at hab
      rw [ha, ← Option.some.inj hab]
      exact ⟨hm, hmn, hn⟩
    · exact h.lt a b hab
  have hself : (map.insert n m).find? n = some m := OrdMap.find?_insert_self_of_none m hfree
  have hother : ∀ p, p ≠ n → (map.insert n m).find? p = map.find? p := fun p hp ↦
    OrdMap.find?_insert_of_ne map m hp
  -- parts below `n` do not see the new link
  have hbelow : ∀ p, repOf map p ≠ n → repOf (map.insert n m) p = repOf map p := by
    refine h.chain_induction ?_ ?_
    · intro p hp hne
      rw [repOf_of_none hp] at hne ⊢
      exact repOf_of_none (by rw [hother p hne, hp])
    · intro p q hpq ih hne
      have hpn : p ≠ n := by
        rintro rfl
        exact absurd (hfree.symm.trans hpq) (by simp)
      rw [h.repOf_of_some hpq] at hne ⊢
      rw [hins.repOf_of_some (by rw [hother p hpn, hpq]), ih hne]
  have hm' : repOf (map.insert n m) m = repOf map m := hbelow m (by
    have := h.repOf_mem hm
    omega)
  refine ⟨hins, h.chain_induction ?_ ?_⟩
  · intro p hp
    rw [repOf_of_none hp]
    split_ifs with hpn
    · rw [hpn, hins.repOf_of_some hself, hm']
    · exact repOf_of_none (by rw [hother p hpn, hp])
  · intro p q hpq ih
    have hpn : p ≠ n := by
      rintro rfl
      exact absurd (hfree.symm.trans hpq) (by simp)
    rw [hins.repOf_of_some (by rw [hother p hpn, hpq]), ih, h.repOf_of_some hpq]

/-- The grouping of the parts that the map stands for. -/
def groups (partnum : ℕ) (map : OrdMap ℤ ℤ) : Setoid (Fin partnum) :=
  Setoid.ker fun i ↦ repOf map i

theorem groups_iff {i j : Fin partnum} :
    groups partnum map i j ↔ repOf map i = repOf map j := Iff.rfl

theorem groups_empty (partnum : ℕ) : groups partnum ∅ = ⊥ := by
  ext i j
  rw [groups_iff, repOf_of_none rfl, repOf_of_none rfl, Setoid.bot_def]
  simp [Fin.ext_iff]

/-- **A merge joins two groups.** -/
theorem Descending.groups_insert (h : Descending partnum map) {m n : Fin partnum} (hmn : m < n)
    (hfree : map.find? (n : ℤ) = none) :
    groups partnum (map.insert (n : ℤ) (m : ℤ)) = groups partnum map ⊔ Coarsening.join m n := by
  obtain ⟨-, hrep⟩ := h.repOf_insert (m := (m : ℤ)) (n := (n : ℤ)) (by omega) (by omega) (by omega)
    hfree
  have hn : repOf map n = n := repOf_of_none hfree
  have hm : repOf map m ≠ n := by
    have := h.repOf_mem (p := (m : ℤ)) (by omega)
    omega
  refine le_antisymm ?_ (sup_le ?_ (Coarsening.join_le_iff.2 ?_))
  · intro i j hij
    rw [groups_iff, hrep, hrep] at hij
    have hle : groups partnum map ≤ groups partnum map ⊔ Coarsening.join m n := le_sup_left
    have hjoin : (groups partnum map ⊔ Coarsening.join m n) m n :=
      Coarsening.join_le_iff.1 le_sup_right
    set r := groups partnum map ⊔ Coarsening.join m n with hr
    have hto : ∀ x : Fin partnum, repOf map x = n → r x m := fun x hx ↦
      r.trans (hle (show repOf map x = repOf map n by rw [hx, hn])) (r.symm hjoin)
    split_ifs at hij with hi hj hj
    · exact r.trans (hto i hi) (r.symm (hto j hj))
    · exact r.trans (hto i hi) (hle hij)
    · exact r.trans (hle hij) (r.symm (hto j hj))
    · exact hle hij
  · intro i j hij
    rw [groups_iff] at hij ⊢
    rw [hrep, hrep, hij]
  · rw [groups_iff, hrep, hrep, if_neg hm, if_pos hn]

end Groups

/-! ### Counts -/

section Counting

variable {partnum : ℕ} {map : OrdMap ℤ ℤ}

theorem countPair_apply (x y : ℤ) (E : ℤ → ℤ → ℕ) (a b : ℤ) :
    countPair x E y a b = E a b + if a = min x y ∧ b = max x y then 1 else 0 := by
  have hlo : (if y > x then x else y) = min x y := by split_ifs <;> omega
  have hhi : (if y > x then y else x) = max x y := by split_ifs <;> omega
  simp only [countPair, hlo, hhi]
  rcases eq_or_ne a (min x y) with rfl | ha
  · rw [Function.update_self]
    rcases eq_or_ne b (max x y) with rfl | hb
    · rw [Function.update_self, if_pos ⟨rfl, rfl⟩]
    · rw [Function.update_of_ne hb, if_neg fun h ↦ hb h.2, Nat.add_zero]
  · rw [Function.update_of_ne ha, if_neg fun h ↦ ha h.1, Nat.add_zero]

/-- A new group is counted once with each group that was met before. -/
theorem foldl_countPair (x : ℤ) (l : List ℤ) (E : ℤ → ℤ → ℕ) (hl : l.Nodup) (hx : x ∉ l)
    (a b : ℤ) : l.foldl (countPair x) E a b =
      E a b + if a < b ∧ (a = x ∧ b ∈ l ∨ b = x ∧ a ∈ l) then 1 else 0 := by
  induction l using List.reverseRecOn with
  | nil => simp
  | append_singleton l y ih =>
    have hyl : y ∉ l := by
      intro hy
      exact (List.disjoint_of_nodup_append hl) hy (by simp)
    rw [List.foldl_append, List.foldl_cons, List.foldl_nil, countPair_apply,
      ih hl.of_append_left fun h ↦ hx (List.mem_append_left _ h), Nat.add_assoc]
    have hxl : x ∉ l := fun h ↦ hx (List.mem_append_left _ h)
    have hxy : x ≠ y := fun h ↦ hx (h ▸ by simp)
    congr 1
    simp only [List.mem_append, List.mem_singleton]
    grind

/-- The pins of one edge have been met in the groups `done`. -/
structure EdgeParts.HasMet (s : EdgeParts) (E : ℤ → ℤ → ℕ) (done : List ℤ) : Prop where
  vector_eq : s.vectorForParts = scan [] done
  exit_iff : ∀ x, s.PartExit.find? x = none ↔ x ∉ done
  count_eq : ∀ a b, s.EdgesBetweenParts a b =
    E a b + if a < b ∧ a ∈ done ∧ b ∈ done then 1 else 0

theorem EdgeParts.HasMet.meetPart {s : EdgeParts} {E : ℤ → ℤ → ℕ} {done : List ℤ}
    (h : s.HasMet E done) (x : ℤ) : (meetPart s x).HasMet E (done ++ [x]) := by
  have hscan : scan [] (done ++ [x]) = push (scan [] done) x := by rw [scan_append]; rfl
  have hmem : x ∈ scan [] done ↔ x ∈ done := by simp [mem_scan]
  cases hfind : s.PartExit.find? x with
  | some y =>
    have hx : x ∈ done := by
      by_contra hno
      exact absurd ((h.exit_iff x).2 hno) (by simp [hfind])
    have hsame : ∀ y, y ∈ done ++ [x] ↔ y ∈ done := fun y ↦ by
      simp only [List.mem_append, List.mem_singleton]
      exact ⟨fun hy ↦ hy.elim id fun e ↦ e ▸ hx, Or.inl⟩
    rw [CArchitecture.meetPart, hfind]
    refine ⟨?_, fun y ↦ ?_, fun a b ↦ ?_⟩
    · rw [hscan, push_of_mem (hmem.2 hx), h.vector_eq]
    · rw [hsame, h.exit_iff]
    · simp only [hsame]
      exact h.count_eq a b
  | none =>
    have hx : x ∉ done := (h.exit_iff x).1 hfind
    rw [CArchitecture.meetPart, hfind]
    refine ⟨?_, fun y ↦ ?_, fun a b ↦ ?_⟩
    · rw [hscan, push_of_notMem fun hx' ↦ hx (hmem.1 hx')]
      show s.vectorForParts ++ [x] = _
      rw [h.vector_eq]
    · show (s.PartExit.insert x true).find? y = none ↔ _
      rw [OrdMap.find?_insert, List.mem_append, List.mem_singleton]
      split_ifs with hy
      · simp [hy]
      · rw [h.exit_iff]
        simp [hy]
    · show s.vectorForParts.foldl (countPair x) s.EdgesBetweenParts a b = _
      rw [h.vector_eq, foldl_countPair x _ _ (nodup_scan List.nodup_nil _)
        fun hx' ↦ hx (hmem.1 hx'), h.count_eq, Nat.add_assoc]
      congr 1
      simp only [mem_scan, List.not_mem_nil, false_or, List.mem_append, List.mem_singleton]
      grind

/-- **The count of one edge**: one for every two groups that it meets. -/
theorem foldl_meetPart (parts : List ℤ) (E : ℤ → ℤ → ℕ) (a b : ℤ) :
    (parts.foldl meetPart { EdgesBetweenParts := E }).EdgesBetweenParts a b =
      E a b + if a < b ∧ a ∈ parts ∧ b ∈ parts then 1 else 0 := by
  have hinit : EdgeParts.HasMet { EdgesBetweenParts := E } E [] :=
    ⟨rfl, fun x ↦ by simp, fun a b ↦ by simp⟩
  exact (Loop.foldl_invariant (fun done (s : EdgeParts) ↦ s.HasMet E done) hinit
    fun _ x _ _ _ hs ↦ hs.meetPart x).count_eq a b

/-- The groups that the pins of an edge lie in. -/
def edgeGroups (map : OrdMap ℤ ℤ) (part : ℕ → ℤ) (arcs : List ℕ) : List ℤ :=
  arcs.map fun v ↦ repOf map (part v)

theorem Descending.countEdge_eq (h : Descending partnum map) {climb : ℕ} {part : ℕ → ℤ}
    {arcs : List ℕ} (hclimb : ∀ v ∈ arcs, (part v).toNat < climb) (E : ℤ → ℤ → ℕ) :
    countEdge map climb part arcs E = some fun a b ↦
      E a b + if a < b ∧ a ∈ edgeGroups map part arcs ∧ b ∈ edgeGroups map part arcs then 1
        else 0 := by
  rw [countEdge, Loop.mapM_eq_some fun v hv ↦ h.lastPart_eq (hclimb v hv)]
  refine congrArg some ?_
  funext a b
  exact foldl_meetPart _ E a b

/-- **The table of a round** counts the edges that meet both groups. -/
theorem Descending.countEdges_eq (h : Descending partnum map) {climb : ℕ} {part : ℕ → ℤ}
    {g : CMygraph}
    (hclimb : ∀ e < g.nhedges, ∀ v ∈ (g.pAllEdges e).arcs, (part v).toNat < climb) :
    ∃ E, countEdges map climb g part = some E ∧ ∀ a b, a < b →
      E a b = ((Finset.range g.nhedges).filter fun e ↦
        a ∈ edgeGroups map part (g.pAllEdges e).arcs ∧
          b ∈ edgeGroups map part (g.pAllEdges e).arcs).card := by
  have key : ∀ n ≤ g.nhedges, ∃ E,
      (List.range n).foldlM
        (fun E i ↦ countEdge map climb part (g.pAllEdges i).arcs E) (fun _ _ ↦ 0) = some E ∧
      ∀ a b, a < b → E a b = ((Finset.range n).filter fun e ↦
        a ∈ edgeGroups map part (g.pAllEdges e).arcs ∧
          b ∈ edgeGroups map part (g.pAllEdges e).arcs).card := by
    intro n
    induction n with
    | zero => exact fun _ ↦ ⟨_, rfl, fun _ _ _ ↦ rfl⟩
    | succ n ih =>
      intro hn
      obtain ⟨E, hE, hcount⟩ := ih (by omega)
      have hedge := h.countEdge_eq (hclimb n hn) E
      refine ⟨_, by rw [List.range_succ, List.foldlM_append, hE]; simpa using hedge,
        fun a b hab ↦ ?_⟩
      rw [Finset.range_add_one, Finset.filter_insert, hcount a b hab]
      split_ifs with hin hin' hin'
      · rw [Finset.card_insert_of_notMem (by simp)]
      · exact absurd hin.2 hin'
      · exact absurd ⟨hab, hin'⟩ hin
      · rw [Nat.add_zero]
  exact key g.nhedges le_rfl

end Counting

/-! ### The pairs that a round merges -/

theorem mem_partPairs {partnum : ℕ} {ij : ℕ × ℕ} :
    ij ∈ partPairs partnum ↔ ij.1 < ij.2 ∧ ij.2 < partnum := by
  obtain ⟨i, j⟩ := ij
  simp only [partPairs, List.mem_flatMap, List.mem_range, List.mem_map, List.mem_range'_1,
    Prod.mk.injEq]
  constructor
  · rintro ⟨i', hi, j', hj, rfl, rfl⟩
    omega
  · intro h
    exact ⟨i, by omega, j, by omega, rfl, rfl⟩

/-- What a search over the pairs `done` leaves. -/
structure CutPair.IsMax (best : CutPair) (E : ℤ → ℤ → ℕ) (ok : ℕ → ℕ → Bool) (partnum : ℕ)
    (done : List (ℕ × ℕ)) : Prop where
  le : ∀ ij ∈ done, ok ij.1 ij.2 = true → (E ij.1 ij.2 : ℤ) ≤ best.cut
  found : best.cut = -1 ∨ best.m < best.n ∧ best.n < partnum ∧ ok best.m best.n = true ∧
    (E best.m best.n : ℤ) = best.cut

/-- **The search** finds a pair that no admitted pair exceeds. -/
theorem isMax_maxPair (E : ℤ → ℤ → ℕ) (ok : ℕ → ℕ → Bool) (partnum : ℕ) :
    (maxPair E ok partnum).IsMax E ok partnum (partPairs partnum) := by
  refine Loop.foldl_invariant (fun done (best : CutPair) ↦ best.IsMax E ok partnum done)
    ⟨by simp, Or.inl rfl⟩ ?_
  rintro done ij rest best hl ⟨hmax, hbest⟩
  have hmem : ij ∈ partPairs partnum := hl ▸ by simp
  rw [mem_partPairs] at hmem
  rw [largerPair]
  split_ifs with hlarger
  · refine ⟨fun kl hkl hok ↦ ?_, Or.inr ⟨hmem.1, hmem.2, hlarger.2, rfl⟩⟩
    rcases List.mem_append.1 hkl with hkl | hkl
    · exact (hmax kl hkl hok).trans hlarger.1.le
    · rw [List.mem_singleton.1 hkl]
  · refine ⟨fun kl hkl hok ↦ ?_, hbest⟩
    rcases List.mem_append.1 hkl with hkl | hkl
    · exact hmax kl hkl hok
    · obtain rfl := List.mem_singleton.1 hkl
      exact not_lt.1 fun hlt ↦ hlarger ⟨hlt, hok⟩

/-- A pair with a count above one was really found. -/
theorem CutPair.IsMax.of_one_lt {best : CutPair} {E : ℤ → ℤ → ℕ} {ok : ℕ → ℕ → Bool}
    {partnum : ℕ} {done : List (ℕ × ℕ)} (h : best.IsMax E ok partnum done) (hcut : best.cut > 1) :
    best.m < best.n ∧ best.n < partnum ∧ ok best.m best.n = true ∧ 1 < E best.m best.n := by
  rcases h.found with hneg | ⟨hmn, hn, hok, hE⟩
  · omega
  · exact ⟨hmn, hn, hok, by omega⟩

/-- What a round does: one merge, or two by the same counts and with different keys. -/
theorem mergeRound_some {E : ℤ → ℤ → ℕ} {partnum : ℕ} {map map' : OrdMap ℤ ℤ}
    (h : mergeRound E partnum map = some map') :
    ∃ m n : ℕ, m < n ∧ n < partnum ∧ 1 < E m n ∧
      (map' = map.insert n m ∨ ∃ mm nn : ℕ, mm < nn ∧ nn < partnum ∧ nn ≠ n ∧ 1 < E mm nn ∧
        map' = (map.insert n m).insert nn mm) := by
  have hfirst := isMax_maxPair E (fun _ _ ↦ true) partnum
  rw [mergeRound] at h
  set best := maxPair E (fun _ _ ↦ true) partnum
  have hsecond := isMax_maxPair E (fun i j ↦ i ≠ best.m && j ≠ best.n) partnum
  simp only at h
  split_ifs at h with hcut hsec
  · obtain ⟨hmn, hn, -, hE⟩ := hfirst.of_one_lt hcut
    obtain ⟨hmn', hn', hok, hE'⟩ := hsecond.of_one_lt hsec
    refine ⟨best.m, best.n, hmn, hn, hE, Or.inr ⟨_, _, hmn', hn', ?_, hE',
      (Option.some.inj h).symm⟩⟩
    exact of_decide_eq_true (Bool.and_eq_true_iff.1 hok).2
  · obtain ⟨hmn, hn, -, hE⟩ := hfirst.of_one_lt hcut
    exact ⟨best.m, best.n, hmn, hn, hE, Or.inl (Option.some.inj h).symm⟩

/-- When a round does nothing, no count exceeds one. -/
theorem mergeRound_none {E : ℤ → ℤ → ℕ} {partnum : ℕ} {map : OrdMap ℤ ℤ}
    (h : mergeRound E partnum map = none) {i j : ℕ} (hij : i < j) (hj : j < partnum) :
    E i j ≤ 1 := by
  have hle := (isMax_maxPair E (fun _ _ ↦ true) partnum).le (i, j) (mem_partPairs.2 ⟨hij, hj⟩) rfl
  rw [mergeRound] at h
  simp only at h
  split_ifs at h with hcut
  simp only at hle
  omega

/-! ### The loop merges what has to be merged -/

/-- The edge `e` has a pin in the part `i`. -/
def touches (p : CHypergraph) (part : ℕ → ℤ) {partnum : ℕ} (e : ℕ) (i : Fin partnum) : Prop :=
  ∃ v ∈ p.pins e, part v = i

section Merging

variable {p : CHypergraph} {part : ℕ → ℤ} {partnum : ℕ} {map : OrdMap ℤ ℤ}

/-- Meeting a group is having its representative among the groups of the pins. -/
theorem meets_iff {g : CMygraph} (hg : g.Represents p) {e : ℕ} (he : e < p.nhedges)
    (hpart : ∀ v ∈ p.pins e, 0 ≤ part v ∧ part v < partnum) (i : Fin partnum) :
    Coarsening.Meets (touches p part) (groups partnum map) e i ↔
      repOf map i ∈ edgeGroups map part (g.pAllEdges e).arcs := by
  rw [hg.edge_arcs e he]
  simp only [edgeGroups, List.mem_map, List.mem_reverse]
  constructor
  · rintro ⟨j, hij, v, hv, hvj⟩
    exact ⟨v, hv, by rw [hvj]; exact (groups_iff.1 hij).symm⟩
  · rintro ⟨v, hv, hrep⟩
    obtain ⟨h0, hlt⟩ := hpart v hv
    have hcast : ((⟨(part v).toNat, by omega⟩ : Fin partnum) : ℤ) = part v := by
      simp only
      omega
    exact ⟨⟨(part v).toNat, by omega⟩, by rw [groups_iff, hcast, hrep], v, hv, hcast.symm⟩

/-- **The table holds the shared edges** of the groups, at the parts that stand for them. -/
theorem shared_eq {g : CMygraph} (hg : g.Represents p) {E : ℤ → ℤ → ℕ}
    (hpart : ∀ e < p.nhedges, ∀ v ∈ p.pins e, 0 ≤ part v ∧ part v < partnum)
    (hE : ∀ a b, a < b → E a b = ((Finset.range g.nhedges).filter fun e ↦
      a ∈ edgeGroups map part (g.pAllEdges e).arcs ∧
        b ∈ edgeGroups map part (g.pAllEdges e).arcs).card) {i j : Fin partnum}
    (hij : repOf map i < repOf map j) :
    Coarsening.shared (touches p part) (Finset.range p.nhedges) (groups partnum map) i j =
      E (repOf map i) (repOf map j) := by
  rw [hE _ _ hij, hg.nhedges_eq]
  refine Coarsening.shared_eq_card fun e ↦ ?_
  rw [Finset.mem_filter]
  refine and_congr_right fun he ↦ ?_
  rw [meets_iff hg (Finset.mem_range.1 he) (hpart e (Finset.mem_range.1 he)),
    meets_iff hg (Finset.mem_range.1 he) (hpart e (Finset.mem_range.1 he))]

/-- A pair that is counted at all consists of parts that stand for groups. -/
theorem Descending.find?_of_counted (h : Descending partnum map) {g : CMygraph}
    {E : ℤ → ℤ → ℕ}
    (hE : ∀ a b, a < b → E a b = ((Finset.range g.nhedges).filter fun e ↦
      a ∈ edgeGroups map part (g.pAllEdges e).arcs ∧
        b ∈ edgeGroups map part (g.pAllEdges e).arcs).card) {a b : ℤ} (hab : a < b)
    (hpos : 1 < E a b) : map.find? a = none ∧ map.find? b = none := by
  rw [hE a b hab] at hpos
  obtain ⟨e, he⟩ := Finset.card_pos.1 (Nat.lt_of_succ_lt hpos)
  obtain ⟨-, ha, hb⟩ := Finset.mem_filter.1 he
  obtain ⟨v, -, rfl⟩ := List.mem_map.1 ha
  obtain ⟨w, -, rfl⟩ := List.mem_map.1 hb
  exact ⟨h.find?_repOf _, h.find?_repOf _⟩

/-- The invariant of the loop: chains descend, and the groups are forced. -/
structure MergeInv (p : CHypergraph) (part : ℕ → ℤ) (partnum : ℕ) (map : OrdMap ℤ ℤ) : Prop where
  descending : Descending partnum map
  merges : Coarsening.Merges (touches p part) (Finset.range p.nhedges) (groups partnum map)

/-- The number of groups, counted by the parts that stand for them. -/
def groupCount (partnum : ℕ) (map : OrdMap ℤ ℤ) : ℕ :=
  ((Finset.range partnum).filter fun i : ℕ ↦ map.find? (i : ℤ) = none).card

theorem groupCount_insert_lt {m n : ℕ} (hn : n < partnum) (hfree : map.find? (n : ℤ) = none) :
    groupCount partnum (map.insert (n : ℤ) (m : ℤ)) < groupCount partnum map := by
  refine Finset.card_lt_card ⟨fun i hi ↦ ?_, fun hsub ↦ ?_⟩
  · rw [Finset.mem_filter] at hi ⊢
    refine ⟨hi.1, ?_⟩
    rcases eq_or_ne (i : ℤ) (n : ℤ) with heq | hne
    · rw [heq, hfree]
    · rw [← OrdMap.find?_insert_of_ne map (m : ℤ) hne]
      exact hi.2
  · have hmem := hsub (Finset.mem_filter.2 ⟨Finset.mem_range.2 hn, hfree⟩)
    have hnone := (Finset.mem_filter.1 hmem).2
    rw [OrdMap.find?_insert_self_of_none _ hfree] at hnone
    exact absurd hnone (by simp)

/-- **One merge**, forced by a count that was taken in a grouping reached before. -/
theorem MergeInv.insert {r₀ : Setoid (Fin partnum)} (h : MergeInv p part partnum map)
    (h₀ : Coarsening.Merges (touches p part) (Finset.range p.nhedges) r₀) {m n : ℕ} (hmn : m < n)
    (hn : n < partnum) (hfree : map.find? (n : ℤ) = none)
    (hshared : 1 < Coarsening.shared (touches p part) (Finset.range p.nhedges) r₀
      ⟨m, hmn.trans hn⟩ ⟨n, hn⟩) : MergeInv p part partnum (map.insert (n : ℤ) (m : ℤ)) := by
  refine ⟨(h.descending.repOf_insert (by omega) (by omega) (by omega) hfree).1, ?_⟩
  have hgroups := h.descending.groups_insert (m := ⟨m, hmn.trans hn⟩) (n := ⟨n, hn⟩) hmn hfree
  rw [hgroups]
  exact Coarsening.Merges.merge h₀ h.merges hshared

/-- **A round** keeps the invariant and has fewer groups. -/
theorem MergeInv.mergeRound {g : CMygraph} (hg : g.Represents p) {E : ℤ → ℤ → ℕ}
    {map' : OrdMap ℤ ℤ} (h : MergeInv p part partnum map)
    (hpart : ∀ e < p.nhedges, ∀ v ∈ p.pins e, 0 ≤ part v ∧ part v < partnum)
    (hE : ∀ a b, a < b → E a b = ((Finset.range g.nhedges).filter fun e ↦
      a ∈ edgeGroups map part (g.pAllEdges e).arcs ∧
        b ∈ edgeGroups map part (g.pAllEdges e).arcs).card)
    (hround : mergeRound E partnum map = some map') :
    MergeInv p part partnum map' ∧ groupCount partnum map' < groupCount partnum map := by
  -- a counted pair is free and shares as many edges as the table says
  have hcounted : ∀ m n : ℕ, ∀ hmn : m < n, ∀ hn : n < partnum, 1 < E m n →
      map.find? (n : ℤ) = none ∧
        1 < Coarsening.shared (touches p part) (Finset.range p.nhedges) (groups partnum map)
          ⟨m, hmn.trans hn⟩ ⟨n, hn⟩ := by
    intro m n hmn hn hcount
    have hlt : (m : ℤ) < n := by omega
    obtain ⟨hm, hn'⟩ := h.descending.find?_of_counted hE hlt hcount
    refine ⟨hn', ?_⟩
    rw [shared_eq hg hpart hE]
    · rwa [repOf_of_none hm, repOf_of_none hn']
    · rwa [repOf_of_none hm, repOf_of_none hn']
  obtain ⟨m, n, hmn, hn, hcount, hcase⟩ := mergeRound_some hround
  obtain ⟨hfree, hshared⟩ := hcounted m n hmn hn hcount
  have hfirst := h.insert h.merges hmn hn hfree hshared
  have hlt := groupCount_insert_lt (m := m) hn hfree
  rcases hcase with rfl | ⟨mm, nn, hmn', hn', hne, hcount', rfl⟩
  · exact ⟨hfirst, hlt⟩
  · obtain ⟨hfree', hshared'⟩ := hcounted mm nn hmn' hn' hcount'
    have hstill : (map.insert (n : ℤ) (m : ℤ)).find? (nn : ℤ) = none := by
      rw [OrdMap.find?_insert_of_ne map (m : ℤ) (by omega), hfree']
    exact ⟨hfirst.insert h.merges hmn' hn' hstill hshared',
      (groupCount_insert_lt hn' hstill).trans hlt⟩

/-- **A round that does nothing** has found a valid grouping. -/
theorem valid_of_mergeRound_none {g : CMygraph} (hg : g.Represents p) {E : ℤ → ℤ → ℕ}
    (h : MergeInv p part partnum map)
    (hpart : ∀ e < p.nhedges, ∀ v ∈ p.pins e, 0 ≤ part v ∧ part v < partnum)
    (hE : ∀ a b, a < b → E a b = ((Finset.range g.nhedges).filter fun e ↦
      a ∈ edgeGroups map part (g.pAllEdges e).arcs ∧
        b ∈ edgeGroups map part (g.pAllEdges e).arcs).card)
    (hround : mergeRound E partnum map = none) :
    Coarsening.Valid (touches p part) (Finset.range p.nhedges) (groups partnum map) := by
  have hlt : ∀ i j : Fin partnum, repOf map i < repOf map j →
      Coarsening.shared (touches p part) (Finset.range p.nhedges) (groups partnum map) i j ≤ 1 := by
    intro i j hij
    have hi := h.descending.repOf_mem (p := (i : ℤ)) (by omega)
    have hj := h.descending.repOf_mem (p := (j : ℤ)) (by omega)
    have hle := mergeRound_none hround (i := (repOf map i).toNat) (j := (repOf map j).toNat)
      (by omega) (by omega)
    rw [shared_eq hg hpart hE hij]
    rwa [Int.toNat_of_nonneg hi.1, Int.toNat_of_nonneg hj.1] at hle
  intro i j hij
  rcases lt_trichotomy (repOf map i) (repOf map j) with h' | h' | h'
  · exact hlt i j h'
  · exact absurd h' hij
  · rw [Coarsening.shared_comm]
    exact hlt j i h'

end Merging

/-! ### The inserts of a round -/

/-- The inserts that a round makes, in their order: the part that is merged, and the part that it is
merged into. -/
def roundInserts (E : ℤ → ℤ → ℕ) (partnum : ℕ) : List (ℕ × ℕ) :=
  let best := maxPair E (fun _ _ ↦ true) partnum
  if best.cut > 1 then
    let second := maxPair E (fun i j ↦ i ≠ best.m && j ≠ best.n) partnum
    (best.n, best.m) :: if second.cut > 1 then [(second.n, second.m)] else []
  else []

/-- Make some of the inserts. -/
def insertAll (map : OrdMap ℤ ℤ) (inserts : List (ℕ × ℕ)) : OrdMap ℤ ℤ :=
  inserts.foldl (fun map nm ↦ map.insert nm.1 nm.2) map

/-- A round exits if it has nothing to insert. -/
theorem mergeRound_eq (E : ℤ → ℤ → ℕ) (partnum : ℕ) (map : OrdMap ℤ ℤ) :
    mergeRound E partnum map =
      if roundInserts E partnum = [] then none
      else some (insertAll map (roundInserts E partnum)) := by
  simp only [mergeRound, roundInserts]
  split_ifs with hcut hsec <;> simp_all [insertAll]

/-- What a round inserts: counted pairs, with different keys. -/
theorem mem_roundInserts (E : ℤ → ℤ → ℕ) (partnum : ℕ) :
    ((roundInserts E partnum).map Prod.fst).Nodup ∧
      ∀ nm ∈ roundInserts E partnum, nm.2 < nm.1 ∧ nm.1 < partnum ∧ 1 < E nm.2 nm.1 := by
  have hfirst := isMax_maxPair E (fun _ _ ↦ true) partnum
  rw [roundInserts]
  set best := maxPair E (fun _ _ ↦ true) partnum
  have hsecond := isMax_maxPair E (fun i j ↦ i ≠ best.m && j ≠ best.n) partnum
  simp only
  split_ifs with hcut hsec
  · obtain ⟨hmn, hn, -, hE⟩ := hfirst.of_one_lt hcut
    obtain ⟨hmn', hn', hok, hE'⟩ := hsecond.of_one_lt hsec
    have hne := of_decide_eq_true (Bool.and_eq_true_iff.1 hok).2
    refine ⟨by simpa using Ne.symm hne, fun nm hnm ↦ ?_⟩
    rcases List.mem_cons.1 hnm with rfl | hnm
    · exact ⟨hmn, hn, hE⟩
    · rw [List.mem_singleton.1 hnm]
      exact ⟨hmn', hn', hE'⟩
  · obtain ⟨hmn, hn, -, hE⟩ := hfirst.of_one_lt hcut
    refine ⟨List.nodup_singleton _, fun nm hnm ↦ ?_⟩
    rw [List.mem_singleton.1 hnm]
    exact ⟨hmn, hn, hE⟩
  · exact ⟨List.nodup_nil, fun nm hnm ↦ absurd hnm (List.not_mem_nil)⟩

theorem find?_insertAll_of_notMem {map : OrdMap ℤ ℤ} {inserts : List (ℕ × ℕ)} {n : ℕ}
    (h : n ∉ inserts.map Prod.fst) : (insertAll map inserts).find? (n : ℤ) = map.find? (n : ℤ) := by
  induction inserts generalizing map with
  | nil => rfl
  | cons nm inserts ih =>
    rw [List.map_cons, List.mem_cons, not_or] at h
    rw [insertAll, List.foldl_cons, ← insertAll, ih h.2]
    exact OrdMap.find?_insert_of_ne map _ (Int.ofNat_inj.not.2 h.1)

/-- **Inserts of free and distinct parts** keep chains descending, all along, and each of them
leaves one group less. -/
theorem Descending.insertAll {partnum : ℕ} {map : OrdMap ℤ ℤ} (h : Descending partnum map)
    {inserts : List (ℕ × ℕ)} (hkeys : (inserts.map Prod.fst).Nodup)
    (hmem : ∀ nm ∈ inserts, nm.2 < nm.1 ∧ nm.1 < partnum ∧ map.find? (nm.1 : ℤ) = none) :
    Descending partnum (insertAll map inserts) ∧
      groupCount partnum (CArchitecture.insertAll map inserts) + inserts.length ≤
        groupCount partnum map := by
  induction inserts generalizing map with
  | nil => exact ⟨h, le_rfl⟩
  | cons nm inserts ih =>
    obtain ⟨hlt, hn, hfree⟩ := hmem nm List.mem_cons_self
    rw [List.map_cons, List.nodup_cons] at hkeys
    have hfirst := (h.repOf_insert (m := (nm.2 : ℤ)) (n := (nm.1 : ℤ)) (by omega) (by omega)
      (by omega) hfree).1
    have hcount := groupCount_insert_lt (m := nm.2) hn hfree
    have hrest := ih hfirst hkeys.2 fun nm' hnm' ↦ by
      obtain ⟨hlt', hn', hfree'⟩ := hmem nm' (List.mem_cons_of_mem _ hnm')
      have hne : nm'.1 ≠ nm.1 := fun e ↦ hkeys.1 (e ▸ List.mem_map_of_mem hnm')
      refine ⟨hlt', hn', ?_⟩
      rw [OrdMap.find?_insert_of_ne map _ (by omega), hfree']
    refine ⟨hrest.1, ?_⟩
    have hle := hrest.2
    rw [List.length_cons]
    show groupCount partnum (CArchitecture.insertAll (map.insert (nm.1 : ℤ) (nm.2 : ℤ)) inserts) +
      (inserts.length + 1) ≤ _
    omega

/-- **The loop terminates**, with the groups that had to be merged and no others. -/
theorem exists_mergeLoop {p : CHypergraph} {part : ℕ → ℤ} {partnum : ℕ} {g : CMygraph}
    (hg : g.Represents p)
    (hpart : ∀ e < p.nhedges, ∀ v ∈ p.pins e, 0 ≤ part v ∧ part v < partnum) {climb fuel : ℕ}
    (hclimb : partnum ≤ climb) (hfuel : partnum < fuel) :
    ∃ map, mergeLoop climb fuel g part partnum ∅ = some map ∧ Descending partnum map ∧
      Coarsening.Merges (touches p part) (Finset.range p.nhedges) (groups partnum map) ∧
      Coarsening.Valid (touches p part) (Finset.range p.nhedges) (groups partnum map) := by
  have hlast : ∀ e < g.nhedges, ∀ v ∈ (g.pAllEdges e).arcs, (part v).toNat < climb := by
    intro e he v hv
    rw [hg.nhedges_eq] at he
    rw [hg.edge_arcs e he, List.mem_reverse] at hv
    have := hpart e he v hv
    omega
  have hround : ∀ map, MergeInv p part partnum map →
      (∃ map', mergeStep climb g part partnum map = Sum.inl map' ∧
        MergeInv p part partnum map' ∧ groupCount partnum map' < groupCount partnum map) ∨
      ∃ res, mergeStep climb g part partnum map = Sum.inr (some res) ∧ Descending partnum res ∧
        Coarsening.Merges (touches p part) (Finset.range p.nhedges) (groups partnum res) ∧
        Coarsening.Valid (touches p part) (Finset.range p.nhedges) (groups partnum res) := by
    intro map hinv
    obtain ⟨E, hcount, hE⟩ := hinv.descending.countEdges_eq hlast
    rw [mergeStep, hcount]
    cases hnext : mergeRound E partnum map with
    | none =>
      simp only [hnext]
      exact Or.inr
        ⟨map, rfl, hinv.descending, hinv.merges, valid_of_mergeRound_none hg hinv hpart hE hnext⟩
    | some next =>
      simp only [hnext]
      exact Or.inl ⟨next, rfl, hinv.mergeRound hg hpart hE hnext⟩
  have hinit : MergeInv p part partnum ∅ :=
    ⟨⟨fun n m h ↦ absurd h (by simp)⟩, groups_empty partnum ▸ Coarsening.Merges.start⟩
  -- there are at most as many groups as parts, and every round leaves fewer
  have hcount : groupCount partnum ∅ < fuel := by
    refine Nat.lt_of_le_of_lt ?_ hfuel
    exact (Finset.card_filter_le _ _).trans (Finset.card_range partnum).le
  exact Loop.exists_join_run_eq_some _ (groupCount partnum) _ hround hinit hcount

/-- **`mergeParts` returns** on the tree that the bisection leaves, with the leaves numbered and
their finest valid grouping. -/
theorem Heap.Good.exists_mergeParts {heap : Heap} {size : ℕ} (hg : heap.Good size) {g : CMygraph}
    (hrep : g.Represents (heap 0)) {climb fuel : ℕ} (hclimb : size ≤ climb) (hfuel : size < fuel) :
    ∃ partnum part map,
      dfsForWriteParts heap climb fuel (some 0) 0 (heap 0).part = some (partnum, part) ∧
      mergeParts climb fuel heap g ∅ = some (part, map) ∧ partnum ≤ size ∧
      NumbersLeaves heap partnum part ∧ Descending partnum map ∧
      IsLeast {r | Coarsening.Valid (touches (heap 0) part) (Finset.range (heap 0).nhedges) r}
        (groups partnum map) := by
  obtain ⟨leaves, part, hdfs, hwrites⟩ := hg.dfsForWriteParts_spec hclimb hg.pos
    (by omega : size - 0 ≤ fuel) 0 (heap 0).part
  have hnumbers := hg.numbersLeaves hclimb hwrites
  -- there are no more leaves than nodes
  have hlen : leaves.length ≤ size := by
    have hsub : leaves ⊆ List.range size := fun d hd ↦
      List.mem_range.2 (hg.reflTransGen_of_leafBelow hg.pos ((hwrites.mem_iff d).1 hd)).1
    exact (hwrites.nodup.subperm hsub).length_le.trans (List.length_range (n := size)).le
  obtain ⟨map, hmap, hdesc, hmerges, hvalid⟩ := exists_mergeLoop hrep
    (fun e he v hv ↦ hnumbers.mem_range v ((hg.wellFormed 0 hg.pos).pins_lt e he v hv))
    (by omega : leaves.length ≤ climb) (by omega : leaves.length < fuel)
  refine ⟨leaves.length, part, map, hdfs, ?_, hlen, hnumbers, hdesc, hmerges.isLeast hvalid⟩
  rw [mergeParts, hdfs, Option.bind_eq_bind, Option.bind_some]
  simp only
  rw [hmap]
  rfl

/-- **`mergeParts` finds the finest valid grouping of the leaf parts**: any two of its groups have
at most one hyperedge with pins in both, and it is finer than every other such grouping. So every
process of forced merges that ends in a valid grouping ends in this one, whichever pairs it picks
and however many it merges between two counts, and renumbering the leaves renumbers the groups. -/
theorem mergeLoop_isLeast (pHyper : CHypergraph) (partnum : ℕ) (part : ℕ → ℤ)
    (hlt : ∀ e < pHyper.nhedges, ∀ v ∈ pHyper.pins e, v < pHyper.nvtxs)
    (hpart : ∀ v < pHyper.nvtxs, 0 ≤ part v ∧ part v < partnum) (climb fuel : ℕ)
    (hclimb : partnum ≤ climb) (hfuel : partnum < fuel) :
    ∃ map, mergeLoop climb fuel (CMygraph.ofHypergraph pHyper) part partnum ∅ = some map ∧
      IsLeast {r | Coarsening.Valid (touches pHyper part) (Finset.range pHyper.nhedges) r}
        (groups partnum map) ∧
      (∀ r, Coarsening.Merges (touches pHyper part) (Finset.range pHyper.nhedges) r →
        Coarsening.Valid (touches pHyper part) (Finset.range pHyper.nhedges) r →
        r = groups partnum map) ∧
      ∀ (σ : Equiv.Perm (Fin partnum)) (part' : ℕ → ℤ),
        (∀ v < pHyper.nvtxs, ∀ i : Fin partnum, part v = i → part' v = σ i) →
        ∃ map', mergeLoop climb fuel (CMygraph.ofHypergraph pHyper) part' partnum ∅ = some map' ∧
          ∀ i j, groups partnum map' (σ i) (σ j) ↔ groups partnum map i j := by
  have hg := CMygraph.represents_ofHypergraph pHyper
  have hpins : ∀ e < pHyper.nhedges, ∀ v ∈ pHyper.pins e, 0 ≤ part v ∧ part v < partnum :=
    fun e he v hv ↦ hpart v (hlt e he v hv)
  obtain ⟨map, hmap, -, hmerges, hvalid⟩ := exists_mergeLoop hg hpins hclimb hfuel
  refine ⟨map, hmap, hmerges.isLeast hvalid, fun r hr hv ↦ hr.eq hv hmerges hvalid,
    fun σ part' hσ ↦ ?_⟩
  -- the relabelled parts are the parts, under other names
  have hname : ∀ v < pHyper.nvtxs, ∃ i : Fin partnum, part v = i ∧ part' v = σ i := fun v hv ↦ by
    obtain ⟨h0, hn⟩ := hpart v hv
    have hcast : part v = ((⟨(part v).toNat, by omega⟩ : Fin partnum) : ℤ) := by
      simp only
      omega
    exact ⟨_, hcast, hσ v hv _ hcast⟩
  have htouch : ∀ e ∈ Finset.range pHyper.nhedges, ∀ j : Fin partnum,
      touches pHyper part' e j ↔ touches pHyper part e (σ.symm j) := by
    intro e he j
    refine exists_congr fun v ↦ and_congr_right fun hv ↦ ?_
    obtain ⟨i, hi, hi'⟩ := hname v (hlt e (Finset.mem_range.1 he) v hv)
    rw [hi, hi', Nat.cast_inj, Nat.cast_inj, Fin.val_inj, Fin.val_inj, Equiv.eq_symm_apply]
  have hpins' : ∀ e < pHyper.nhedges, ∀ v ∈ pHyper.pins e, 0 ≤ part' v ∧ part' v < partnum := by
    intro e he v hv
    obtain ⟨i, -, hi⟩ := hname v (hlt e he v hv)
    have := (σ i).isLt
    omega
  obtain ⟨map', hmap', -, hmerges', hvalid'⟩ := exists_mergeLoop hg hpins' hclimb hfuel
  refine ⟨map', hmap', Coarsening.rel_iff_of_isLeast σ (hmerges.isLeast hvalid) ?_⟩
  have hset : {r | Coarsening.Valid (fun e j ↦ touches pHyper part e (σ.symm j))
      (Finset.range pHyper.nhedges) r} =
      {r | Coarsening.Valid (touches pHyper part') (Finset.range pHyper.nhedges) r} :=
    Set.ext fun r ↦ (Coarsening.valid_congr htouch).symm
  rw [hset]
  exact hmerges'.isLeast hvalid'

/-- Two edges that share two parts, so that these have to be merged. -/
def sampleParts : CHypergraph := CHypergraph.ofRows 4 [[0, 1, 2], [1, 2, 3]]

theorem mergeLoop_isLeast_sampleParts :
    ((∀ e < sampleParts.nhedges, ∀ v ∈ sampleParts.pins e, v < sampleParts.nvtxs) ∧
      ∀ v < sampleParts.nvtxs, (0 : ℤ) ≤ v ∧ (v : ℤ) < (4 : ℕ)) ∧
    ∃ map, mergeLoop 4 5 (CMygraph.ofHypergraph sampleParts) (fun v ↦ v) 4 ∅ = some map ∧
      IsLeast {r | Coarsening.Valid (touches sampleParts fun v ↦ v)
        (Finset.range sampleParts.nhedges) r} (groups 4 map) ∧
      (∀ r, Coarsening.Merges (touches sampleParts fun v ↦ v)
          (Finset.range sampleParts.nhedges) r →
        Coarsening.Valid (touches sampleParts fun v ↦ v) (Finset.range sampleParts.nhedges) r →
        r = groups 4 map) ∧
      ∀ (σ : Equiv.Perm (Fin 4)) (part' : ℕ → ℤ),
        (∀ v < sampleParts.nvtxs, ∀ i : Fin 4, (v : ℤ) = i → part' v = σ i) →
        ∃ map', mergeLoop 4 5 (CMygraph.ofHypergraph sampleParts) part' 4 ∅ = some map' ∧
          ∀ i j, groups 4 map' (σ i) (σ j) ↔ groups 4 map i j := by
  have hlt : ∀ e < sampleParts.nhedges, ∀ v ∈ sampleParts.pins e, v < sampleParts.nvtxs := by
    decide
  have hpart : ∀ v < sampleParts.nvtxs, (0 : ℤ) ≤ v ∧ (v : ℤ) < (4 : ℕ) := by decide
  exact ⟨⟨hlt, hpart⟩, mergeLoop_isLeast sampleParts 4 (fun v ↦ v) hlt hpart 4 5 (by decide)
    (by decide)⟩

end CArchitecture
