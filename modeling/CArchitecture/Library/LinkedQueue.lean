import Mathlib.Data.List.Chain
import Mathlib.Data.List.Nodup

/-!
# Queues that are linked through their elements

A first-in-first-out queue whose links are stored in the queued elements themselves; the queue owns
only a pointer to the first and one to the last of them. `Represents` says which list such a queue
stands for. Three things about it are worth a remark:

* the link of the last element is **never read**, so it may hold anything, also what it held when
  the element was queued the last time;
* appending writes to the last element, so that one must still be there;
* a queue of one element is recognised by comparing the two pointers, so **no element may be queued
  twice**.

What such a queue is meant to be is a list. `Op.apply` is an operation on lists, several queues at
once, and `runCalls_eq` carries answers over from lists to a program: it is enough that each call
answers like its operation and keeps the program and the lists related.
-/

namespace LinkedQueue

variable {α : Type*}

/-- The two pointers of a queue. -/
structure Ends (α : Type*) where
  head : Option α
  tail : Option α

/-- With the links `next`, the queue stands for the list `l`. -/
structure Represents (next : α → Option α) (q : Ends α) (l : List α) : Prop where
  head_eq : q.head = l.head?
  tail_eq : q.tail = l.getLast?
  nodup : l.Nodup
  isChain : l.IsChain fun a b ↦ next a = some b

namespace Represents

variable {next next' : α → Option α} {q : Ends α} {l : List α} {x t : α}

theorem empty (next : α → Option α) : Represents next ⟨none, none⟩ [] :=
  ⟨rfl, rfl, List.nodup_nil, List.IsChain.nil⟩

theorem singleton (next : α → Option α) (x : α) : Represents next ⟨some x, some x⟩ [x] :=
  ⟨rfl, rfl, List.nodup_singleton x, List.IsChain.singleton x⟩

/-- Only the links of the queued elements matter. -/
theorem congr (h : Represents next q l) (hnext : ∀ a ∈ l, next' a = next a) :
    Represents next' q l :=
  ⟨h.head_eq, h.tail_eq, h.nodup,
    h.isChain.imp_of_mem_imp fun a _ ha _ hab ↦ (hnext a ha).trans hab⟩

theorem eq_nil_of_head (h : Represents next q l) (hhead : q.head = none) : l = [] :=
  List.head?_eq_none_iff.1 (h.head_eq.symm.trans hhead)

theorem eq_nil_of_tail (h : Represents next q l) (htail : q.tail = none) : l = [] :=
  List.getLast?_eq_none_iff.1 (h.tail_eq.symm.trans htail)

theorem mem_of_tail (h : Represents next q l) (htail : q.tail = some t) : t ∈ l :=
  List.mem_of_getLast? (h.tail_eq.symm.trans htail)

/-- A queue with a first element has a last one. -/
theorem exists_tail (h : Represents next q l) (hhead : q.head = some x) : ∃ t, q.tail = some t := by
  cases htail : q.tail with
  | some t => exact ⟨t, rfl⟩
  | none =>
    rw [h.head_eq, h.eq_nil_of_tail htail] at hhead
    exact absurd hhead (Option.some_ne_none x).symm

/-- **Appending**: the last element is linked to the new one. -/
theorem append (h : Represents next q l) (htail : q.tail = some t) (hx : x ∉ l)
    (hlink : next' t = some x) (hother : ∀ a ∈ l, a ≠ t → next' a = next a) :
    Represents next' ⟨q.head, some x⟩ (l ++ [x]) := by
  have hlast : l.getLast? = some t := h.tail_eq.symm.trans htail
  obtain ⟨init, rfl⟩ : ∃ init, l = init ++ [t] := List.getLast?_eq_some_iff.1 hlast
  refine ⟨?_, by simp, ?_, ?_⟩
  · rw [h.head_eq]
    simp
  · exact h.nodup.append (List.nodup_singleton x) (List.disjoint_singleton.2 hx)
  · -- the links before the last element are the old ones, because it occurs only once
    have hnot : t ∉ init := by
      have := h.nodup
      rw [List.nodup_append] at this
      exact fun ht ↦ this.2.2 t ht t (List.mem_singleton_self t) rfl
    have hold : (init ++ [t]).IsChain fun a b ↦ a ≠ t → next' a = some b :=
      h.isChain.imp_of_mem_imp fun a b ha _ hab hne ↦ (hother a ha hne).trans hab
    rw [List.append_assoc]
    refine List.isChain_append.2 ⟨?_, ?_, ?_⟩
    · refine (List.isChain_append.1 hold).1.imp_of_mem_imp fun a b ha _ hab ↦ hab ?_
      rintro rfl
      exact hnot ha
    · exact List.isChain_pair.2 hlink
    · intro a ha b hb
      refine (List.isChain_append.1 hold).2.2 a ha b (by simpa using hb) ?_
      rintro rfl
      exact hnot (List.mem_of_getLast? ha)

/-- If both pointers agree, there is one element. -/
theorem eq_singleton (h : Represents next q l) (htail : q.tail = some t) (heq : q.head = q.tail) :
    l = [t] := by
  have hhead : l.head? = some t := by rw [← h.head_eq, heq, htail]
  have hlast : l.getLast? = some t := h.tail_eq.symm.trans htail
  rcases l with - | ⟨a, - | ⟨b, l⟩⟩
  · exact absurd hhead (by simp)
  · simpa using hhead
  · obtain rfl : a = t := by simpa using hhead
    rw [List.getLast?_cons_cons] at hlast
    exact absurd (List.mem_of_getLast? hlast) (List.nodup_cons.1 h.nodup).1

/-- **Taking the first element**: if there is another one, the link leads to it. -/
theorem exists_cons (h : Represents next q l) (htail : q.tail = some t) (hne : q.head ≠ q.tail) :
    ∃ a l', l = a :: l' ∧ q.head = some a ∧ Represents next ⟨next a, q.tail⟩ l' := by
  rcases l with - | ⟨a, - | ⟨b, l⟩⟩
  · exact absurd (h.tail_eq.symm.trans htail) (by simp)
  · exact absurd (h.head_eq.trans h.tail_eq.symm) hne
  · obtain ⟨hlink, hchain⟩ := List.isChain_cons_cons.1 h.isChain
    refine ⟨a, b :: l, rfl, h.head_eq, hlink, ?_, (List.nodup_cons.1 h.nodup).2, hchain⟩
    rw [h.tail_eq, List.getLast?_cons_cons]

/-- **The list is determined** by the pointers and the links. -/
theorem unique {l' : List α} (h : Represents next q l) (h' : Represents next q l') : l = l' := by
  induction l generalizing q l' with
  | nil => exact (h'.eq_nil_of_head h.head_eq).symm
  | cons a l ih =>
    obtain ⟨t, htail⟩ := h.exists_tail h.head_eq
    by_cases heq : q.head = q.tail
    · rw [h.eq_singleton htail heq, h'.eq_singleton htail heq]
    · obtain ⟨b, l₁, hl, hb, h₁⟩ := h.exists_cons htail heq
      obtain ⟨c, l₂, rfl, hc, h₂⟩ := h'.exists_cons htail heq
      obtain rfl := Option.some.inj (hb.symm.trans hc)
      obtain ⟨rfl, rfl⟩ := List.cons.inj hl
      rw [ih h₁ h₂]

end Represents

/-! ### The queues that are meant -/

/-- An operation on queues with names in `κ`. -/
inductive Op (κ α : Type*)
  | add (k : κ) (x : α)
  | get (k : κ)

/-- What an operation returns. -/
inductive Answer (α : Type*)
  | added (ok : Bool)
  | got (x : Option α)
  deriving DecidableEq

section Fifo

variable {κ : Type*} [DecidableEq κ] {S C : Type*}

/-- First in, first out. -/
def Op.apply (q : κ → List α) : Op κ α → Answer α × (κ → List α)
  | add k x => (.added true, Function.update q k (q k ++ [x]))
  | get k => (.got (q k).head?, Function.update q k (q k).tail)

/-- An element is not added to a queue that it is in. -/
def Op.Allowed (q : κ → List α) : Op κ α → Prop
  | add k x => x ∉ q k
  | get _ => True

/-- All operations of a sequence are allowed when they come. -/
def AllAllowed : (κ → List α) → List (Op κ α) → Prop
  | _, [] => True
  | q, op :: ops => op.Allowed q ∧ AllAllowed (op.apply q).2 ops

/-- What a sequence of operations returns. -/
def answers : (κ → List α) → List (Op κ α) → List (Answer α)
  | _, [] => []
  | q, op :: ops => (op.apply q).1 :: answers (op.apply q).2 ops

/-- What a sequence of calls returns. -/
def runCalls (call : S → C → Option (Answer α × S)) : S → List C → Option (List (Answer α))
  | _, [] => some []
  | s, c :: cs => (call s c).bind fun r ↦ (runCalls call r.2 cs).map (r.1 :: ·)

/-- **Refinement**: calls that answer like their operations, and keep the states related, return
what the operations return. -/
theorem runCalls_eq {call : S → C → Option (Answer α × S)} (op : C → Op κ α)
    (R : S → (κ → List α) → Prop) (P : C → Prop)
    (hcall : ∀ s q c, R s q → P c → (op c).Allowed q →
      ∃ s', call s c = some (((op c).apply q).1, s') ∧ R s' ((op c).apply q).2)
    {cs : List C} {s : S} {q : κ → List α} (hR : R s q) (hP : ∀ c ∈ cs, P c)
    (hallowed : AllAllowed q (cs.map op)) :
    runCalls call s cs = some (answers q (cs.map op)) := by
  induction cs generalizing s q with
  | nil => rfl
  | cons c cs ih =>
    obtain ⟨hc, hcs⟩ := hallowed
    obtain ⟨s', hs', hR'⟩ := hcall s q c hR (hP c List.mem_cons_self) hc
    rw [runCalls, hs', Option.bind_some, ih hR' (fun d hd ↦ hP d (List.mem_cons_of_mem _ hd)) hcs]
    rfl

end Fifo

end LinkedQueue
