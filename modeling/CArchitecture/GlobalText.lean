import CArchitecture.SourceText

/-!
# The text outside of braces

`findGlobal` collects what stands outside of all braces, in one pass over the text. At every opening
brace, also at an inner one, it takes back what was collected since the last semicolon of all that
was collected so far, to get rid of the header of a function or a class.

A text that closes no brace before it is opened falls apart into runs outside of braces and the
texts inside (`exists_text_eq`). What is collected are these runs, each cut behind **its own** last
semicolon if a brace follows (`findGlobal_spec`). The invariant is that what was collected up to the
last brace is empty or ends in a semicolon (`CutsOff`): so taking back does not reach an earlier
run, and at an inner brace there is nothing to take back.
-/

namespace CArchitecture

/-! ### Taking back -/

/-- There is nothing behind the last semicolon. -/
def CutsOff (s : Str) : Prop := cutAfterSemicolon s = s

/-- Text without a semicolon does not matter. -/
theorem cutAfterSemicolon_append_of_notMem {b : Str} (hb : ';' ∉ b) (a : Str) :
    cutAfterSemicolon (a ++ b) = cutAfterSemicolon a := by
  rw [cutAfterSemicolon, List.reverse_append, List.dropWhile_append_of_pos, cutAfterSemicolon]
  intro c hc
  simpa using ne_of_mem_of_not_mem (List.mem_reverse.1 hc) hb

theorem cutsOff_concat (a : Str) : CutsOff (a ++ [';']) := by
  rw [CutsOff, cutAfterSemicolon, List.reverse_concat, List.dropWhile_cons_of_neg (by simp),
    ← List.reverse_concat, List.reverse_reverse]

/-- **A text is cut behind its last semicolon**, and nothing is left if there is none. -/
theorem cutAfterSemicolon_cases (t : Str) : (';' ∉ t ∧ cutAfterSemicolon t = []) ∨
    ∃ a b, t = a ++ [';'] ++ b ∧ ';' ∉ b ∧ cutAfterSemicolon t = a ++ [';'] := by
  by_cases ht : ';' ∈ t
  · obtain ⟨b, a, hsplit, hb⟩ := List.eq_append_cons_of_mem (List.mem_reverse.2 ht)
    have hb' : ';' ∉ b.reverse := fun h ↦ hb (List.mem_reverse.1 h)
    have htext : t = a.reverse ++ [';'] ++ b.reverse := by
      rw [← List.reverse_reverse t, hsplit]
      simp
    refine Or.inr ⟨a.reverse, b.reverse, htext, hb', ?_⟩
    rw [htext, cutAfterSemicolon_append_of_notMem hb', cutsOff_concat]
  · exact Or.inl ⟨ht, cutAfterSemicolon_append_of_notMem ht []⟩

/-- **What was collected before is not touched.** -/
theorem CutsOff.cut_append {s : Str} (h : CutsOff s) (t : Str) :
    cutAfterSemicolon (s ++ t) = s ++ cutAfterSemicolon t := by
  rcases cutAfterSemicolon_cases t with ⟨ht, hcut⟩ | ⟨a, b, rfl, hb, hcut⟩
  · rw [cutAfterSemicolon_append_of_notMem ht, h, hcut, List.append_nil]
  · rw [hcut, ← List.append_assoc, ← List.append_assoc, cutAfterSemicolon_append_of_notMem hb,
      cutsOff_concat, List.append_assoc]

theorem cutsOff_cut (t : Str) : CutsOff (cutAfterSemicolon t) := by
  rcases cutAfterSemicolon_cases t with ⟨-, hcut⟩ | ⟨a, b, -, -, hcut⟩
  · rw [hcut]
    rfl
  · rw [hcut]
    exact cutsOff_concat a

theorem isPrefix_cutAfterSemicolon (t : Str) : cutAfterSemicolon t <+: t := by
  rcases cutAfterSemicolon_cases t with ⟨-, hcut⟩ | ⟨a, b, rfl, -, hcut⟩
  · rw [hcut]
    exact List.nil_prefix
  · rw [hcut]
    exact List.prefix_append _ _

theorem CutsOff.append_cut {s : Str} (h : CutsOff s) (t : Str) :
    CutsOff (s ++ cutAfterSemicolon t) := by
  rw [CutsOff, h.cut_append, cutsOff_cut]

/-! ### Runs outside of braces -/

/-- No prefix closes more braces than it opens. -/
def NeverCloses (s : Str) : Prop := ∀ p, p <+: s → p.count '\x7d' ≤ p.count '\x7b'

instance (s : Str) : Decidable (NeverCloses s) :=
  decidable_of_iff (∀ p ∈ s.inits, p.count '\x7d' ≤ p.count '\x7b')
    (forall_congr' fun p ↦ imp_congr_left (List.mem_inits p s))

/-- A text, as its maximal runs outside of braces. After each run of `closed` comes a pair of
braces, with a text inside; after the last run comes nothing, or a brace that is not closed. -/
structure GlobalRuns where
  closed : List (Str × Str)
  last : Str
  unclosed : Option Str

namespace GlobalRuns

/-- The whole text. -/
def text (d : GlobalRuns) : Str :=
  d.closed.flatMap (fun b ↦ b.1 ++ '\x7b' :: (b.2 ++ ['\x7d'])) ++
    (d.last ++ d.unclosed.elim [] ('\x7b' :: ·))

/-- There are no braces in the runs; the braces inside of a pair match, and the text behind the
brace that is not closed does not close it. -/
structure WellFormed (d : GlobalRuns) : Prop where
  closed : ∀ b ∈ d.closed, ('\x7b' ∉ b.1 ∧ '\x7d' ∉ b.1) ∧ Balanced b.2
  last : '\x7b' ∉ d.last ∧ '\x7d' ∉ d.last
  unclosed : ∀ t ∈ d.unclosed, NeverCloses t

/-- Every run, cut behind its last semicolon if a brace follows. -/
def kept (d : GlobalRuns) : Str :=
  d.closed.flatMap (fun b ↦ cutAfterSemicolon b.1) ++
    if d.unclosed.isSome then cutAfterSemicolon d.last else d.last

end GlobalRuns

/-! ### The pass over the text -/

/-- Collecting a run. -/
theorem findGlobalFrom_run {r : Str} (hleft : '\x7b' ∉ r) (hright : '\x7d' ∉ r) (s rest : Str) :
    findGlobalFrom 0 s (r ++ rest) = findGlobalFrom 0 (s ++ r) rest := by
  induction r generalizing s with
  | nil => rw [List.nil_append, List.append_nil]
  | cons c r ih =>
    rw [List.mem_cons, not_or] at hleft hright
    rw [List.cons_append, findGlobalFrom, if_neg (Ne.symm hleft.1), if_neg (Ne.symm hright.1),
      if_pos rfl, ih hleft.2 hright.2, List.append_assoc, List.singleton_append]

/-- Passing a text inside of braces, which are not closed. -/
theorem findGlobalFrom_inside {n : ℕ} {s t : Str} (hs : CutsOff s)
    (ht : ∀ p, p <+: t → p.count '\x7d' < n + p.count '\x7b') (rest : Str) :
    findGlobalFrom n s (t ++ rest) =
      findGlobalFrom (n + t.count '\x7b' - t.count '\x7d') s rest := by
  induction t generalizing n with
  | nil => simp
  | cons c t ih =>
    have hhead := ht [c] ⟨t, rfl⟩
    have hzero := ht [] (List.nil_prefix)
    have htail : ∀ p, p <+: t → (c :: p).count '\x7d' < n + (c :: p).count '\x7b' :=
      fun p hp ↦ ht (c :: p) ((List.prefix_cons_inj c).2 hp)
    simp only [List.count_cons, List.count_nil, beq_iff_eq] at hhead htail hzero
    simp only [List.cons_append, findGlobalFrom, List.count_cons, beq_iff_eq]
    split_ifs at hhead htail ⊢ with hleft hright hright
    · exact absurd (hleft.symm.trans hright) (by decide)
    · rw [hs, ih fun p hp ↦ by have := htail p hp; omega]
      congr 1
      omega
    · omega
    · rw [ih fun p hp ↦ by have := htail p hp; omega]
      congr 1
      omega
    · omega
    · rw [ih fun p hp ↦ by have := htail p hp; omega]
      congr 1

/-- **A run and the braces after it.** -/
theorem findGlobalFrom_closed {s : Str} (hs : CutsOff s) {b : Str × Str}
    (hrun : '\x7b' ∉ b.1 ∧ '\x7d' ∉ b.1) (hbody : Balanced b.2) (rest : Str) :
    findGlobalFrom 0 s (b.1 ++ '\x7b' :: (b.2 ++ ['\x7d']) ++ rest) =
      findGlobalFrom 0 (s ++ cutAfterSemicolon b.1) rest := by
  have hinside := findGlobalFrom_inside (n := 1) (t := b.2) (hs.append_cut b.1)
    (fun p hp ↦ by have := hbody.count_le p hp; omega) ('\x7d' :: rest)
  rw [hbody.count_eq, Nat.add_sub_cancel] at hinside
  have htext : b.1 ++ '\x7b' :: (b.2 ++ ['\x7d']) ++ rest =
      b.1 ++ '\x7b' :: (b.2 ++ '\x7d' :: rest) := by simp
  rw [htext, findGlobalFrom_run hrun.1 hrun.2, findGlobalFrom, if_pos rfl, hs.cut_append, hinside,
    findGlobalFrom, if_neg (by decide), if_pos rfl, if_neg Nat.one_ne_zero]

/-- A run and the braces after it, again and again. -/
theorem findGlobalFrom_flatMap {s : Str} (hs : CutsOff s) {l : List (Str × Str)}
    (hl : ∀ b ∈ l, ('\x7b' ∉ b.1 ∧ '\x7d' ∉ b.1) ∧ Balanced b.2) (rest : Str) :
    findGlobalFrom 0 s (l.flatMap (fun b ↦ b.1 ++ '\x7b' :: (b.2 ++ ['\x7d'])) ++ rest) =
      findGlobalFrom 0 (s ++ l.flatMap fun b ↦ cutAfterSemicolon b.1) rest ∧
    CutsOff (s ++ l.flatMap fun b ↦ cutAfterSemicolon b.1) := by
  induction l generalizing s with
  | nil => simpa using hs
  | cons b l ih =>
    obtain ⟨hb, hl⟩ := List.forall_mem_cons.1 hl
    have hstep := ih (hs.append_cut b.1) hl
    rw [List.flatMap_cons, List.append_assoc, findGlobalFrom_closed hs hb.1 hb.2,
      List.flatMap_cons, ← List.append_assoc s]
    exact hstep

/-- **What is collected** from a text that is given by its runs. -/
theorem findGlobal_text {d : GlobalRuns} (hd : d.WellFormed) : findGlobal d.text = d.kept := by
  obtain ⟨hruns, hcuts⟩ := findGlobalFrom_flatMap (s := []) rfl hd.closed
    (d.last ++ d.unclosed.elim [] ('\x7b' :: ·))
  rw [List.nil_append] at hruns hcuts
  rw [findGlobal, GlobalRuns.text, GlobalRuns.kept, hruns, findGlobalFrom_run hd.last.1 hd.last.2]
  cases hunclosed : d.unclosed with
  | none => rfl
  | some t =>
    have ht := hd.unclosed t hunclosed
    have hinside := findGlobalFrom_inside (n := 1) (t := t) (hcuts.append_cut d.last)
      (fun p hp ↦ by have := ht p hp; omega) []
    rw [List.append_nil] at hinside
    rw [Option.elim_some, findGlobalFrom, if_pos rfl, hcuts.cut_append, hinside]
    rfl

/-- The last `n` braces that are open are not closed, or else there is a first brace that closes the
last of them. -/
theorem neverCloses_or_exists_closing (n : ℕ) (t : Str) :
    (∀ p, p <+: t → p.count '\x7d' ≤ n + p.count '\x7b') ∨
      ∃ b rest, t = b ++ '\x7d' :: rest ∧
        (∀ p, p <+: b → p.count '\x7d' ≤ n + p.count '\x7b') ∧
        b.count '\x7d' = n + b.count '\x7b' := by
  induction t generalizing n with
  | nil => exact Or.inl fun p hp ↦ by rw [List.prefix_nil.1 hp]; simp
  | cons c t ih =>
    by_cases hclose : c = '\x7d' ∧ n = 0
    · obtain ⟨rfl, rfl⟩ := hclose
      exact Or.inr ⟨[], t, rfl, fun p hp ↦ by rw [List.prefix_nil.1 hp]; simp, rfl⟩
    -- the number of open braces after this character
    obtain ⟨m, hm⟩ : ∃ m, m + (if c = '\x7d' then 1 else 0) = n + if c = '\x7b' then 1 else 0 := by
      refine ⟨_, Nat.sub_add_cancel (n := n + if c = '\x7b' then 1 else 0) ?_⟩
      split_ifs with hright hleft
      · exact Nat.le_add_left 1 n
      · exact Nat.pos_of_ne_zero fun hn ↦ hclose ⟨hright, hn⟩
      · exact Nat.zero_le _
      · exact Nat.zero_le _
    have hcons : ∀ u : Str, (∀ p, p <+: u → p.count '\x7d' ≤ m + p.count '\x7b') →
        ∀ p, p <+: c :: u → p.count '\x7d' ≤ n + p.count '\x7b' := by
      intro u hu p hp
      rcases List.prefix_cons_iff.1 hp with rfl | ⟨q, rfl, hq⟩
      · simp
      · have := hu q hq
        simp only [List.count_cons, beq_iff_eq]
        omega
    rcases ih m with hnever | ⟨b, rest, rfl, hb, hcount⟩
    · exact Or.inl (hcons t hnever)
    · refine Or.inr ⟨c :: b, rest, rfl, hcons b hb, ?_⟩
      simp only [List.count_cons, beq_iff_eq]
      omega

/-- **A text falls apart into runs** if it closes no brace before it is opened. -/
theorem exists_text_eq {s : Str} (hs : NeverCloses s) :
    ∃ d : GlobalRuns, d.WellFormed ∧ d.text = s := by
  induction hlen : s.length using Nat.strong_induction_on generalizing s with
  | _ n ih =>
    -- the first run
    obtain ⟨r, rest, rfl, hr, hrest⟩ : ∃ r rest, s = r ++ rest ∧ ('\x7b' ∉ r ∧ '\x7d' ∉ r) ∧
        ∀ c ∈ rest.head?, c = '\x7b' ∨ c = '\x7d' := by
      refine ⟨s.takeWhile fun c ↦ c ≠ '\x7b' ∧ c ≠ '\x7d', s.dropWhile fun c ↦
        c ≠ '\x7b' ∧ c ≠ '\x7d', List.takeWhile_append_dropWhile.symm, ⟨?_, ?_⟩, ?_⟩
      · exact fun h ↦ by simpa using List.mem_takeWhile_imp h
      · exact fun h ↦ by simpa using List.mem_takeWhile_imp h
      · intro c hc
        have := List.head?_dropWhile_not (fun c ↦ decide (c ≠ '\x7b' ∧ c ≠ '\x7d')) s
        rw [Option.mem_def.1 hc] at this
        by_contra hno
        rw [not_or] at hno
        simp [hno] at this
    have hcount : ∀ p, p <+: rest → p.count '\x7d' ≤ p.count '\x7b' := by
      intro p hp
      have := hs (r ++ p) ((List.prefix_append_right_inj r).2 hp)
      rwa [List.count_append, List.count_append, List.count_eq_zero.2 hr.1,
        List.count_eq_zero.2 hr.2, Nat.zero_add, Nat.zero_add] at this
    cases rest with
    | nil => exact ⟨⟨[], r, none⟩, ⟨by simp, hr, by simp⟩, rfl⟩
    | cons c t =>
      obtain rfl : c = '\x7b' := by
        refine (hrest c rfl).resolve_right ?_
        rintro rfl
        exact absurd (hcount ['\x7d'] ⟨t, rfl⟩) (by decide)
      rcases neverCloses_or_exists_closing 0 t with hnever | ⟨b, rest, rfl, hb, hclosed⟩
      · refine ⟨⟨[], r, some t⟩, ⟨by simp, hr, fun t' ht' ↦ ?_⟩, rfl⟩
        obtain rfl := Option.some.inj ht'
        exact fun p hp ↦ by have := hnever p hp; omega
      · have hbody : Balanced b := ⟨fun p hp ↦ by have := hb p hp; omega, by omega⟩
        have hrest : NeverCloses rest := by
          intro p hp
          have := hcount ('\x7b' :: (b ++ '\x7d' :: p))
            ((List.prefix_cons_inj _).2 ((List.prefix_append_right_inj b).2
              ((List.prefix_cons_inj _).2 hp)))
          simp [hbody.count_eq] at this
          omega
        obtain ⟨d, hd, htext⟩ := ih rest.length (by simp at hlen; omega) hrest rfl
        refine ⟨⟨(r, b) :: d.closed, d.last, d.unclosed⟩,
          ⟨List.forall_mem_cons.2 ⟨⟨hr, hbody⟩, hd.closed⟩, hd.last, hd.unclosed⟩, ?_⟩
        rw [← htext, GlobalRuns.text, GlobalRuns.text]
        simp

theorem GlobalRuns.WellFormed.notMem_kept {d : GlobalRuns} (hd : d.WellFormed) :
    '\x7b' ∉ d.kept ∧ '\x7d' ∉ d.kept := by
  have hcut : ∀ c (r : Str), c ∉ r → c ∉ cutAfterSemicolon r :=
    fun c r hc hmem ↦ hc ((isPrefix_cutAfterSemicolon r).subset hmem)
  have key : ∀ c, (∀ b ∈ d.closed, c ∉ b.1) → c ∉ d.last → c ∉ d.kept := by
    intro c hclosed hlast hmem
    rcases List.mem_append.1 hmem with hmem | hmem
    · obtain ⟨b, hb, hc⟩ := List.mem_flatMap.1 hmem
      exact hcut c b.1 (hclosed b hb) hc
    · split_ifs at hmem
      · exact hcut c d.last hlast hmem
      · exact hlast hmem
  exact ⟨key _ (fun b hb ↦ (hd.closed b hb).1.1) hd.last.1,
    key _ (fun b hb ↦ (hd.closed b hb).1.2) hd.last.2⟩

/-- **The text outside of braces.** For a text that closes no brace before it is opened, what is
collected are its runs outside of braces, each one that is followed by a brace cut behind its last
semicolon; and there is no brace among it. -/
theorem findGlobal_spec {s : Str} (hs : NeverCloses s) :
    (∃ d : GlobalRuns, d.WellFormed ∧ d.text = s) ∧
      (∀ d : GlobalRuns, d.WellFormed → d.text = s → findGlobal s = d.kept) ∧
      '\x7b' ∉ findGlobal s ∧ '\x7d' ∉ findGlobal s := by
  obtain ⟨d, hd, rfl⟩ := exists_text_eq hs
  refine ⟨⟨d, hd, rfl⟩, fun d' hd' htext ↦ ?_, ?_⟩
  · rw [← htext, findGlobal_text hd']
  · rw [findGlobal_text hd]
    exact hd.notMem_kept

/-- Two variables, a function between them, and a class that is not closed. -/
def sampleRuns : GlobalRuns :=
  ⟨[("int a;\nvoid f() ".toList, " if (a) \x7b a = 0; \x7d ".toList)], "\nint b;\nclass C ".toList,
    some " int c;".toList⟩

theorem findGlobal_spec_sampleRuns :
    NeverCloses sampleRuns.text ∧ sampleRuns.WellFormed ∧
      findGlobal sampleRuns.text = "int a;\nint b;".toList := by
  have hnever : NeverCloses sampleRuns.text := by decide +kernel
  have hwell : sampleRuns.WellFormed := ⟨by decide, by decide, by decide⟩
  refine ⟨hnever, hwell, ?_⟩
  rw [(findGlobal_spec hnever).2.1 sampleRuns hwell rfl]
  decide

end CArchitecture
