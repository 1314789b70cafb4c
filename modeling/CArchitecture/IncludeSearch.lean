import CArchitecture.Library.BreadthFirst
import CArchitecture.Parsing

/-!
# The search through the included headers

The type of a variable that is declared neither in the method, nor in the class, nor in the file, is
looked for in the headers that the file includes. The source keeps a queue of header names, without
their directories, and a table of the names that were ever queued: that is a search in breadth over
the graph of includes, in which a header that is not known includes nothing.

* The search ends, and no name is taken from the queue twice, whatever the headers include
  (`exists_run_headerRound`, `nodup_append_popped`).
* If it ends without leaving a text, it finds a type exactly if a header that can be reached has
  one, and takes it from a nearest one (`FindsNearest`).
* It leaves a text that starts with blanks or stars and the name of the variable. So it finds the
  type **exactly if it does not come to such a header first** (`typeOf_findsNearest_iff`).
-/

namespace CArchitecture

/-- The names of the headers that a header includes. One that is not known includes nothing. -/
def includes (hmap : OrdMap Str CReadH) (n : Str) : List Str :=
  ((hmap.find? n).elim [] fun h ↦ h.headfile).map baseName

/-- The header is reached from the file in `d` steps. -/
def IncludedAt (hmap : OrdMap Str CReadH) (p : CReadCpp) : ℕ → Str → Prop :=
  BreadthFirst.At (includes hmap) (p.headfile.map baseName)

/-- The names that are taken from the queue, in this order. -/
def popped (tables : SymbolTables) (valuename : Str) : ℕ → OrdMap Str Bool × List Str → List Str
  | 0, _ => []
  | n + 1, s =>
    match s.2 with
    | [] => []
    | oneheadfile :: _ =>
      match headerRound tables valuename s with
      | Sum.inl s' => oneheadfile :: popped tables valuename n s'
      | Sum.inr _ => [oneheadfile]

section Search

variable {tables : SymbolTables} {valuename : Str} {p : CReadCpp} {visited : List Str}
  {s s' : OrdMap Str Bool × List Str}

/-- The header has the type `T` for the variable. -/
def HasType (tables : SymbolTables) (valuename n T : Str) : Prop :=
  T ≠ [] ∧ ∃ h, tables.hmap.find? n = some h ∧
    findtype h.globalStr valuename h.globalStr.length = some T

/-- The answer is not empty exactly if a header that can be reached has a type, and then it is that
of a nearest one. -/
def FindsNearest (tables : SymbolTables) (valuename : Str) (p : CReadCpp) (T : Str) : Prop :=
  (T ≠ [] ↔ ∃ d n U, IncludedAt tables.hmap p d n ∧ HasType tables valuename n U) ∧
  (T ≠ [] → ∃ d n, IncludedAt tables.hmap p d n ∧ HasType tables valuename n T ∧
    ∀ e m U, IncludedAt tables.hmap p e m → HasType tables valuename m U → d ≤ e)

/-- Queueing names: the table has an entry for what was visited and what is queued. -/
theorem marks_foldl_pushHeadfile (l : List Str) (h : FirstSeen.Marks s.1 (visited ++ s.2)) :
    FirstSeen.Marks (l.foldl pushHeadfile s).1 (visited ++ (l.foldl pushHeadfile s).2) ∧
      visited ++ (l.foldl pushHeadfile s).2 =
        FirstSeen.scan (visited ++ s.2) (l.map baseName) := by
  induction l generalizing s with
  | nil => exact ⟨h, rfl⟩
  | cons n l ih =>
    rw [List.foldl_cons, List.map_cons, FirstSeen.scan_cons, pushHeadfile]
    cases hfind : s.1.find? (baseName n) with
    | some b =>
      rw [FirstSeen.push_of_mem (h.mem_of_find? hfind)]
      exact ih h
    | none =>
      rw [FirstSeen.push_of_notMem (h.notMem_of_find? hfind), List.append_assoc]
      refine ih (s := (s.1.insert (baseName n) true, s.2 ++ [baseName n])) ?_
      rw [← List.append_assoc]
      exact h.insert hfind true

/-- At the beginning, nothing is visited. -/
theorem marks_pushHeadfile_start (l : List Str) :
    FirstSeen.Marks (l.foldl pushHeadfile (∅, [])).1 (l.foldl pushHeadfile (∅, [])).2 ∧
      (l.foldl pushHeadfile (∅, [])).2 = FirstSeen.scan [] (l.map baseName) :=
  @marks_foldl_pushHeadfile [] (∅, []) l FirstSeen.marks_empty

/-- **One round that goes on**: the first name of the queue has no type, and what its header
includes is queued. -/
theorem headerRound_inl (hround : headerRound tables valuename s = Sum.inl s') :
    ∃ oneheadfile allheadfile, s.2 = oneheadfile :: allheadfile ∧
      s' = ((tables.hmap.find? oneheadfile).elim [] fun h ↦ h.headfile).foldl pushHeadfile
        (s.1, allheadfile) ∧ ∀ T, ¬ HasType tables valuename oneheadfile T := by
  obtain ⟨donemap, - | ⟨oneheadfile, allheadfile⟩⟩ := s
  · exact absurd hround Sum.inr_ne_inl
  refine ⟨oneheadfile, allheadfile, rfl, ?_⟩
  simp only [headerRound] at hround
  cases hfind : tables.hmap.find? oneheadfile with
  | none =>
    rw [hfind] at hround
    refine ⟨(Sum.inl.inj hround).symm, ?_⟩
    rintro T ⟨-, h, hh, -⟩
    exact absurd (hfind.symm.trans hh) (by simp)
  | some h =>
    simp only [hfind] at hround
    cases htype : findtype h.globalStr valuename h.globalStr.length with
    | none =>
      rw [htype] at hround
      exact absurd hround Sum.inr_ne_inl
    | some typeofname =>
      simp only [htype] at hround
      split_ifs at hround with hne
      refine ⟨(Sum.inl.inj hround).symm, ?_⟩
      rintro T ⟨hT, h', hh', htype'⟩
      obtain rfl := Option.some.inj (hfind.symm.trans hh')
      obtain rfl := Option.some.inj (htype.symm.trans htype')
      exact hne hT

/-- **A round that ends the search** with an answer: the queue is empty, or its first name has this
type. -/
theorem headerRound_inr {T : Str} (hround : headerRound tables valuename s = Sum.inr (some T)) :
    (s.2 = [] ∧ T = []) ∨
      ∃ oneheadfile allheadfile, s.2 = oneheadfile :: allheadfile ∧
        HasType tables valuename oneheadfile T := by
  obtain ⟨donemap, - | ⟨oneheadfile, allheadfile⟩⟩ := s
  · exact Or.inl ⟨rfl, (Option.some.inj (Sum.inr.inj hround)).symm⟩
  refine Or.inr ⟨oneheadfile, allheadfile, rfl, ?_⟩
  simp only [headerRound] at hround
  cases hfind : tables.hmap.find? oneheadfile with
  | none =>
    rw [hfind] at hround
    exact absurd hround Sum.inl_ne_inr
  | some h =>
    simp only [hfind] at hround
    cases htype : findtype h.globalStr valuename h.globalStr.length with
    | none =>
      rw [htype] at hround
      exact absurd (Sum.inr.inj hround) (by simp)
    | some typeofname =>
      simp only [htype] at hround
      split_ifs at hround with hne
      obtain rfl := Option.some.inj (Sum.inr.inj hround)
      exact ⟨hne, h, hfind, htype⟩

/-- What was visited and queued, after a round. -/
theorem marks_headerRound {oneheadfile : Str} {allheadfile : List Str}
    (hmarks : FirstSeen.Marks s.1 (visited ++ s.2)) (hqueue : s.2 = oneheadfile :: allheadfile)
    (hs' : s' = ((tables.hmap.find? oneheadfile).elim [] fun h ↦ h.headfile).foldl pushHeadfile
      (s.1, allheadfile)) :
    FirstSeen.Marks s'.1 (visited ++ [oneheadfile] ++ s'.2) ∧
      visited ++ [oneheadfile] ++ s'.2 =
        FirstSeen.scan (visited ++ oneheadfile :: allheadfile)
          (includes tables.hmap oneheadfile) := by
  have hsplit : visited ++ oneheadfile :: allheadfile =
      visited ++ [oneheadfile] ++ allheadfile := by
    simp
  rw [hs', hsplit, includes]
  refine marks_foldl_pushHeadfile (s := (s.1, allheadfile)) _ ?_
  rwa [← hsplit, ← hqueue]

/-- **No name is taken from the queue twice**, nor one that was taken before. -/
theorem nodup_append_popped (n : ℕ) (hmarks : FirstSeen.Marks s.1 (visited ++ s.2)) :
    (visited ++ popped tables valuename n s).Nodup := by
  induction n generalizing s visited with
  | zero =>
    rw [popped, List.append_nil]
    exact (List.nodup_append.1 hmarks.nodup).1
  | succ n ih =>
    rw [popped]
    cases hqueue : s.2 with
    | nil =>
      have hnodup := hmarks.nodup
      rwa [hqueue] at hnodup
    | cons oneheadfile allheadfile =>
      have hsplit : ∀ l, visited ++ oneheadfile :: l = visited ++ [oneheadfile] ++ l := by simp
      cases hround : headerRound tables valuename s with
      | inl s' =>
        obtain ⟨o, all, hqueue', hs', -⟩ := headerRound_inl hround
        obtain ⟨rfl, rfl⟩ := List.cons.inj (hqueue.symm.trans hqueue')
        have hrest := ih (marks_headerRound hmarks hqueue hs').1
        rwa [← hsplit] at hrest
      | inr b =>
        have hnodup := hmarks.nodup
        rw [hqueue, hsplit] at hnodup
        exact (List.nodup_append.1 hnodup).1

/-- A round takes one name from the queue, and queues names that were not met. -/
theorem unmet_headerRound {names : List Str} (hnodup : names.Nodup)
    (hnames : ∀ e ∈ tables.hmap.entries, ∀ n ∈ e.2.headfile, baseName n ∈ names)
    (hround : headerRound tables valuename s = Sum.inl s') : unmet names s' < unmet names s := by
  obtain ⟨oneheadfile, allheadfile, hqueue, rfl, -⟩ := headerRound_inl hround
  rw [unmet_foldl hnodup]
  · simp only [unmet, hqueue, List.length_cons]
    omega
  · intro n hn
    cases hfind : tables.hmap.find? oneheadfile with
    | none =>
      rw [hfind] at hn
      exact absurd hn List.not_mem_nil
    | some h =>
      rw [hfind] at hn
      exact hnames (oneheadfile, h) (OrdMap.mem_entries_iff.2 hfind) n hn

/-- **The search ends**, and its answer is that of a nearest header. -/
theorem exists_run_headerRound {fuel : ℕ} (hfuel : (headNames tables.hmap p).length < fuel) :
    ∃ b, Loop.run (headerRound tables valuename) fuel (p.headfile.foldl pushHeadfile (∅, [])) =
      some b ∧ ∀ T ∈ b, FindsNearest tables valuename p T := by
  refine Loop.exists_run_eq_some (fun s ↦ ∃ visited level,
      BreadthFirst.Layered (includes tables.hmap) (p.headfile.map baseName) visited s.2 level ∧
      FirstSeen.Marks s.1 (visited ++ s.2) ∧ ∀ n ∈ visited, ∀ T, ¬ HasType tables valuename n T)
    (unmet (headNames tables.hmap p)) (fun b ↦ ∀ T ∈ b, FindsNearest tables valuename p T)
    ?_ ?_ ?_ ((unmet_start_le tables.hmap p).trans_lt hfuel)
  · rintro s s' ⟨visited, level, hlayered, hmarks, hnone⟩ hround
    refine ⟨?_, unmet_headerRound (nodup_headNames _ _) (baseName_mem_headNames _ _) hround⟩
    obtain ⟨oneheadfile, allheadfile, hqueue, hs', htype⟩ := headerRound_inl hround
    obtain ⟨hmarks', hscan⟩ := marks_headerRound hmarks hqueue hs'
    rw [hqueue] at hlayered hmarks
    obtain ⟨level', hlayered'⟩ := hlayered.visit hmarks.nodup hscan
    refine ⟨visited ++ [oneheadfile], level', hlayered', hmarks', fun n hn ↦ ?_⟩
    rcases List.mem_append.1 hn with hn | hn
    · exact hnone n hn
    · rwa [List.mem_singleton.1 hn]
  · rintro s b ⟨visited, level, hlayered, hmarks, hnone⟩ hround T hT
    rw [Option.mem_def.1 hT] at hround
    rcases headerRound_inr hround with ⟨hqueue, rfl⟩ | ⟨oneheadfile, allheadfile, hqueue, htype⟩
    · -- everything that can be reached was visited, and has no type
      rw [hqueue] at hlayered
      refine ⟨iff_of_false (fun h ↦ h rfl) ?_, fun h ↦ absurd rfl h⟩
      rintro ⟨d, n, U, hn, hU⟩
      exact hnone n (hlayered.mem_of_at hn) U hU
    · rw [hqueue] at hlayered
      have hat := hlayered.at_level oneheadfile (by simp)
      refine ⟨iff_of_true htype.1 ⟨_, _, _, hat, htype⟩, fun _ ↦ ⟨_, _, hat, htype, ?_⟩⟩
      exact fun e m U hm hU ↦ hlayered.le_of_at hm fun hmem ↦ hnone m hmem U hU
  · obtain ⟨hmarks, hscan⟩ := marks_pushHeadfile_start p.headfile
    refine ⟨[], fun _ ↦ 0, ?_, hmarks, fun n hn ↦ absurd hn List.not_mem_nil⟩
    rw [hscan]
    exact BreadthFirst.layered_start _ _

end Search

/-! ### The type of a variable -/

/-- No header that is met before the first one with a type starts with blanks or stars and the name
of the variable. -/
def HeadersReadable (tables : SymbolTables) (valuename : Str) (p : CReadCpp) : Prop :=
  ∀ done h rest, includedHeaders tables.hmap p = done ++ h :: rest →
    (∀ g ∈ done, findtype g.globalStr valuename g.globalStr.length = some []) →
    ¬ LeadingName h.globalStr valuename h.globalStr.length

/-- The search returns exactly if it does not come to a text that it leaves. -/
theorem isSome_firstType_headers_iff {tables : SymbolTables} {valuename : Str} {p : CReadCpp}
    (hne : valuename ≠ []) (hname : ∀ c ∈ valuename, isNameChar c) :
    (firstType valuename ((includedHeaders tables.hmap p).map fun h ↦
      (h.globalStr, h.globalStr.length))).isSome ↔ HeadersReadable tables valuename p := by
  rw [isSome_firstType_iff hne hname]
  constructor
  · intro h done g rest hsplit hdone
    refine h (done.map fun h ↦ (h.globalStr, h.globalStr.length)) _ _
      (by rw [hsplit, List.map_append, List.map_cons]) fun t ht ↦ ?_
    obtain ⟨g, hg, rfl⟩ := List.mem_map.1 ht
    exact hdone g hg
  · intro h done text rest hsplit hdone
    obtain ⟨done, l, hl, rfl, hrest⟩ := List.map_eq_append_iff.1 hsplit
    obtain ⟨g, rest, rfl, rfl, -⟩ := List.map_eq_cons_iff.1 hrest
    exact h done g rest hl fun g hg ↦ hdone _ (List.mem_map_of_mem hg)

/-- **The search through the included headers**, for a variable whose type is not found before. It
ends and takes no name from the queue twice; and it returns the type of a nearest header that has
one, and nothing if there is none, exactly if it does not come to a text that it leaves. -/
theorem typeOf_findsNearest_iff {tables : SymbolTables} {valuename methodbody classname : Str}
    {p : CReadCpp} {pos fuel : ℕ} {isMember : Bool} (hne : valuename ≠ [])
    (hname : ∀ c ∈ valuename, isNameChar c) (hfuel : (headNames tables.hmap p).length < fuel)
    (hmethod : findtype methodbody valuename pos = some [])
    (hclass : findInClass tables valuename classname p.headfile = some ([], isMember))
    (hglobal : findtype p.globalStr valuename p.globalStr.length = some []) :
    (∃ b, Loop.run (headerRound tables valuename) fuel (p.headfile.foldl pushHeadfile (∅, [])) =
      some b) ∧
    (∀ n, (popped tables valuename n (p.headfile.foldl pushHeadfile (∅, []))).Nodup) ∧
    ((∃ T, typeOf tables valuename fuel methodbody classname p pos = some (T, isMember) ∧
      FindsNearest tables valuename p T) ↔ HeadersReadable tables valuename p) := by
  obtain ⟨b, hrun, hnearest⟩ : ∃ b, Loop.run (headerRound tables valuename) fuel
      (p.headfile.foldl pushHeadfile (∅, [])) = some b ∧
      ∀ T ∈ b, FindsNearest tables valuename p T :=
    exists_run_headerRound hfuel
  refine ⟨⟨b, hrun⟩, fun n ↦ ?_, ?_⟩
  · have hmarks := (marks_pushHeadfile_start p.headfile).1
    rw [← List.nil_append (p.headfile.foldl pushHeadfile (∅, [])).2] at hmarks
    exact nodup_append_popped n hmarks
  · have hsearch : findInGlobals tables valuename fuel p = b := by
      rw [findInGlobals, hglobal, Option.bind_eq_bind, Option.bind_some, if_neg (not_not.2 rfl),
        hrun, Option.join_some]
    have htype : typeOf tables valuename fuel methodbody classname p pos =
        b.map fun T ↦ (T, isMember) := by
      rw [typeOf, hmethod, Option.bind_eq_bind, Option.bind_some, if_neg (not_not.2 rfl), hclass]
      simp only [ne_eq, hsearch]
      cases b <;> rfl
    have hsome : b.isSome ↔ HeadersReadable tables valuename p := by
      rw [← isSome_firstType_headers_iff hne hname, ← hsearch, findInGlobals_eq hfuel, firstType,
        hglobal, Option.bind_eq_bind, Option.bind_some, if_neg (not_not.2 rfl)]
    rw [htype, ← hsome]
    constructor
    · rintro ⟨T, hT, -⟩
      rw [← Option.isSome_map (f := fun T ↦ (T, isMember)), hT]
      rfl
    · intro h
      obtain ⟨T, rfl⟩ := Option.isSome_iff_exists.1 h
      exact ⟨T, rfl, hnearest T rfl⟩

/-- A header without classes. -/
def sampleHeaderFile (globalStr : String) (headfile : List String) : CReadH :=
  ⟨globalStr.toList, headfile.map String.toList, ∅⟩

/-- A file that includes three headers, by two names that are the same. -/
def sampleIncluding : CReadCpp :=
  ⟨"int w;".toList, ["lib/a.h".toList, "a.h".toList, "b.h".toList], ∅⟩

/-- Headers that include each other, and one that is missing. The variable is declared twice. -/
def sampleCycle : SymbolTables where
  hmap := ((∅ : OrdMap Str CReadH).insert "a.h".toList
      (sampleHeaderFile "int x;" ["x.h", "src/c.h", "a.h"])).insert "b.h".toList
      (sampleHeaderFile ";Graph *v;" ["a.h"]) |>.insert "c.h".toList
      (sampleHeaderFile ";Tree v;" [])
  mapForTypeDef := ∅
  head := []

/-- The first header starts with a blank and the variable. -/
def sampleLeaving : SymbolTables where
  hmap := ((∅ : OrdMap Str CReadH).insert "a.h".toList (sampleHeaderFile " v;" [])).insert
      "b.h".toList (sampleHeaderFile ";Graph *v;" [])
  mapForTypeDef := ∅
  head := []

theorem typeOf_findsNearest_iff_sampleCycle :
    (∀ n, (popped sampleCycle "v".toList n (sampleIncluding.headfile.foldl pushHeadfile
      (∅, []))).Nodup) ∧
    HeadersReadable sampleCycle "v".toList sampleIncluding ∧
    typeOf sampleCycle "v".toList 10 "\x7b v->m();".toList "C".toList sampleIncluding 3 =
      some ("Graph".toList, false) ∧
    FindsNearest sampleCycle "v".toList sampleIncluding "Graph".toList := by
  have hrun : typeOf sampleCycle "v".toList 10 "\x7b v->m();".toList "C".toList sampleIncluding 3 =
      some ("Graph".toList, false) := by
    decide +kernel
  obtain ⟨-, hpopped, hiff⟩ := @typeOf_findsNearest_iff sampleCycle "v".toList
    "\x7b v->m();".toList "C".toList sampleIncluding 3 10 false (by decide) (by decide)
    (by decide +kernel) (by decide +kernel) (by decide +kernel) (by decide +kernel)
  have hreadable : HeadersReadable sampleCycle "v".toList sampleIncluding := by
    rw [← isSome_firstType_headers_iff (by decide) (by decide)]
    decide +kernel
  obtain ⟨T, hT, hnearest⟩ := hiff.2 hreadable
  rw [hrun, Option.some_inj, Prod.mk.injEq] at hT
  exact ⟨hpopped, hreadable, hrun, by rwa [hT.1]⟩

/-- The walk back over the blank leaves the text of the first header. -/
theorem typeOf_sampleLeaving :
    findtype "\x7b v->m();".toList "v".toList 3 = some [] ∧
    findInClass sampleLeaving "v".toList "C".toList sampleIncluding.headfile = some ([], false) ∧
    findtype sampleIncluding.globalStr "v".toList sampleIncluding.globalStr.length = some [] ∧
    typeOf sampleLeaving "v".toList 10 "\x7b v->m();".toList "C".toList sampleIncluding 3 = none ∧
    (∃ d n, IncludedAt sampleLeaving.hmap sampleIncluding d n ∧
      HasType sampleLeaving "v".toList n "Graph".toList) ∧
    ¬ ∃ T, typeOf sampleLeaving "v".toList 10 "\x7b v->m();".toList "C".toList sampleIncluding 3 =
      some (T, false) ∧ FindsNearest sampleLeaving "v".toList sampleIncluding T := by
  have hrun : typeOf sampleLeaving "v".toList 10 "\x7b v->m();".toList "C".toList sampleIncluding
      3 = none := by
    decide +kernel
  refine ⟨by decide +kernel, by decide +kernel, by decide +kernel, hrun,
    ⟨0, "b.h".toList, BreadthFirst.At.start (by decide +kernel), by decide,
      sampleHeaderFile ";Graph *v;" [], by rfl, by decide +kernel⟩, ?_⟩
  rintro ⟨T, hT, -⟩
  rw [hrun] at hT
  exact absurd hT (by simp)

end CArchitecture
