import CArchitecture.RelationText
import CArchitecture.ReadingOrder

/-!
# The names that are found

What the readers store and what `findsymbol` notes is text that was cut out of files, but the cuts
are made at characters: a class is stored under letters, digits and underscores, and a list of base
classes is names with a blank behind each. So whatever the files are, the relation that `doParsing`
leaves has proper names in it, and no base class breaks a line.

The relation is also no more than a summary of the lines of `lastans`: its keys are the classes that
are called by others, and the callers of a key come in the order in which the lines meet them first
(`doParsing_ansDetermines`).
-/

namespace CArchitecture

open FirstSeen

/-! ### Headers -/

/-- All names and base classes of a header are as they should be. -/
structure HeaderFile.Named (h : HeaderFile) : Prop where
  name : ∀ e ∈ h.classdef.entries, IsName e.1 ∧ e.1 ≠ []
  father : ∀ e ∈ h.classdef.entries, '\n' ∉ e.2.fatherclass

theorem isName_takeWhile_isAlnum (s : Str) : IsName (s.takeWhile isAlnum) := fun c hc ↦ by
  rw [isNameChar_eq, List.mem_takeWhile_imp hc, Bool.true_or]

/-- One round of the search for base classes gives up, passes over a word, or takes a name and puts
a blank behind it. -/
theorem publicRound_cases (defline : Str) (start : ℕ) (ans : Str) :
    publicRound defline (some start, ans) = Sum.inr [] ∨
      ∃ next x, publicRound defline (some start, ans) = Sum.inl (next, ans ++ x) ∧
        (x = [] ∨ ∃ y, IsName y ∧ x = y ++ [' ']) := by
  simp only [publicRound]
  cases defline.drop (start + "public".length) with
  | nil => exact Or.inl rfl
  | cons c rest =>
    refine Or.inr ?_
    simp only
    split_ifs
    · cases rest.dropWhile isBlank with
      | nil => exact ⟨_, [], by rw [List.append_nil], Or.inl rfl⟩
      | cons d rest =>
        refine ⟨CString.find "public".toList defline (start + "public".length - 1),
          (d :: rest).takeWhile isNameChar ++ [' '], ?_,
          Or.inr ⟨_, fun c hc ↦ List.mem_takeWhile_imp hc, rfl⟩⟩
        simp only [List.append_assoc]
    · exact ⟨_, [], by rw [List.append_nil], Or.inl rfl⟩

/-- **Base classes do not break a line.** -/
theorem newline_notMem_getfatherclassname {pos : ℕ} {content father : Str}
    (h : getfatherclassname pos content = some father) : '\n' ∉ father := by
  rw [getfatherclassname] at h
  obtain ⟨i, -, hrun⟩ := Option.bind_eq_some_iff.1 h
  refine Loop.run_invariant (fun s : Option ℕ × Str ↦ '\n' ∉ s.2) ('\n' ∉ ·) ?_ ?_
    List.not_mem_nil hrun
  · rintro ⟨- | start, ans⟩ ⟨next, ans'⟩ hs hround
    · exact absurd hround (by simp [publicRound])
    · rcases publicRound_cases _ start ans with hend | ⟨next', x, hnext, hx⟩
      · exact absurd (hend.symm.trans hround) (by simp)
      · obtain ⟨-, rfl⟩ := Prod.ext_iff.1 (Sum.inl.inj (hnext.symm.trans hround))
        rw [List.mem_append, not_or]
        refine ⟨hs, ?_⟩
        rcases hx with rfl | ⟨y, hy, rfl⟩
        · exact List.not_mem_nil
        · rw [List.mem_append, not_or]
          exact ⟨hy.notMem (by decide), by simp⟩
  · rintro ⟨- | start, ans⟩ ans' hs hround
    · obtain rfl := Sum.inr.inj hround
      exact hs
    · rcases publicRound_cases _ start ans with hend | ⟨next', x, hnext, -⟩
      · obtain rfl := Sum.inr.inj (hend.symm.trans hround)
        exact List.not_mem_nil
      · exact absurd (hnext.symm.trans hround) (by simp)

/-- **What the reader of headers stores.** -/
theorem named_readH {content : Str} {h : HeaderFile} (hread : readH content = some h) :
    h.Named := by
  rw [readH] at hread
  obtain ⟨s, hs, hread⟩ := Option.bind_eq_some_iff.1 hread
  obtain ⟨headfile, -, hread⟩ := Option.bind_eq_some_iff.1 hread
  obtain rfl := Option.some.inj hread
  have hall : ∀ e ∈ s.classdef.entries, (IsName e.1 ∧ e.1 ≠ []) ∧ '\n' ∉ e.2.fatherclass := by
    refine Loop.foldlM_invariant (fun s : ClassState ↦ ∀ e ∈ s.classdef.entries,
      (IsName e.1 ∧ e.1 ≠ []) ∧ '\n' ∉ e.2.fatherclass) (fun s pos _ s' hI hround ↦ ?_)
      (fun e he ↦ absurd he List.not_mem_nil) hs
    rw [getclassRound] at hround
    obtain ⟨classname, hname, hround⟩ := Option.bind_eq_some_iff.1 hround
    split_ifs at hround with hne
    · obtain ⟨father, hfather, hround⟩ := Option.bind_eq_some_iff.1 hround
      obtain rfl := Option.some.inj hround
      intro e he
      rcases OrdMap.mem_insertIn he with rfl | he
      · refine ⟨⟨?_, hne⟩, newline_notMem_getfatherclassname hfather⟩
        rw [getclassname_eq] at hname
        obtain ⟨c, -, rfl⟩ := Option.map_eq_some_iff.1 hname
        split_ifs at hne ⊢
        · exact absurd rfl hne
        · exact isName_takeWhile_isAlnum _
      · exact hI e he
    · exact Option.some.inj hround ▸ hI
  exact ⟨fun e he ↦ (hall e he).1, fun e he ↦ (hall e he).2⟩

/-! ### Source files -/

/-- All classes of a source file have names, which may be empty. -/
def CppNamed (cppclass : OrdMap Str (List CMethodBody)) : Prop :=
  ∀ e ∈ cppclass.entries, IsName e.1

theorem CppNamed.addMethod {cppclass : OrdMap Str (List CMethodBody)} (h : CppNamed cppclass)
    {classname : Str} (hname : IsName classname) (m : CMethodBody) :
    CppNamed (addMethod cppclass classname m) := by
  rw [CArchitecture.addMethod]
  cases cppclass.find? classname with
  | none =>
    intro e he
    rcases OrdMap.mem_insertIn he with rfl | he
    · exact hname
    · exact h e he
  | some methods =>
    intro e he
    obtain ⟨e', he', rfl⟩ := List.mem_map.1 he
    split_ifs
    · exact h e' he'
    · exact h e' he'

/-- One call of `findclasses`. -/
theorem CppNamed.findclasses {s : ℕ} {content : Str} {classes : CppClasses}
    (h : CppNamed classes.cppclass) {res : Option ℕ × CppClasses}
    (hcall : findclasses s content classes = some res) : CppNamed res.2.cppclass := by
  rw [CArchitecture.findclasses] at hcall
  cases hfind : CString.find "::".toList content s with
  | none =>
    rw [hfind] at hcall
    exact Option.some.inj hcall ▸ h
  | some pos =>
    rw [hfind] at hcall
    obtain ⟨isclass, -, hcall⟩ := Option.bind_eq_some_iff.1 hcall
    split_ifs at hcall
    · obtain ⟨name, hname, hcall⟩ := Option.bind_eq_some_iff.1 hcall
      cases hbrace : CString.find "\x7b".toList content pos with
      | none =>
        rw [hbrace] at hcall
        exact Option.some.inj hcall ▸ h
      | some bodystart =>
        rw [hbrace] at hcall
        obtain ⟨start, -, hcall⟩ := Option.bind_eq_some_iff.1 hcall
        rw [← Option.some.inj hcall]
        refine h.addMethod ?_ _
        rw [classBefore] at hname
        obtain ⟨wordEnd, -, hname⟩ := Option.bind_eq_some_iff.1 hname
        obtain ⟨wordStart, -, hname⟩ := Option.bind_eq_some_iff.1 hname
        rw [← Option.some.inj hname]
        exact fun c hc ↦ List.mem_takeWhile_imp hc
    · exact Option.some.inj hcall ▸ h

/-- **What the reader of source files stores.** -/
theorem named_readCpp {content : Str} {p : CReadCpp} (hread : readCpp content = some p) :
    CppNamed p.cppclass := by
  rw [readCpp_eq] at hread
  obtain ⟨res, hrun, hread⟩ := Option.bind_eq_some_iff.1 hread
  obtain ⟨headfile, -, rfl⟩ := Option.map_eq_some_iff.1 hread
  refine Loop.join_run_invariant (fun s : RelationScan ↦ CppNamed s.classes.cppclass)
    (fun res : Option ℕ × CppClasses ↦ CppNamed res.2.cppclass) ?_ ?_
    (fun e he ↦ absurd he List.not_mem_nil) hrun
  · rintro ⟨- | pos, classstart, classes⟩ s' hs hround
    · exact absurd hround (by simp [getrelationRound])
    · cases hcall : findclasses pos content classes with
      | none => simp [getrelationRound, hcall] at hround
      | some res =>
        simp only [getrelationRound, hcall, Sum.inl.injEq] at hround
        exact hround ▸ hs.findclasses hcall
  · rintro ⟨- | pos, classstart, classes⟩ res hs hround
    · obtain rfl := Option.some.inj (Sum.inr.inj hround)
      exact hs
    · cases hcall : findclasses pos content classes with
      | none => simp [getrelationRound, hcall] at hround
      | some res => simp [getrelationRound, hcall] at hround

/-! ### The relation as a summary of the lines -/

/-- The callers of a class, in the order in which the lines meet them first. A class does not count
as its own caller. -/
def callersIn (lines : List (Str × Str)) (T : Str) : List Str :=
  scan [] ((lines.filter fun line ↦ line.2 = T ∧ line.1 ≠ T).map Prod.fst)

/-- The relation says of every class who calls it according to the lines. -/
def Summarises (s : RelationState) : Prop :=
  ∀ T, ((s.calledrelation.find? T).getD []).map CalledClass.name = callersIn s.lines T

theorem callersIn_concat (lines : List (Str × Str)) (line : Str × Str) (T : Str) :
    callersIn (lines ++ [line]) T =
      if line.2 = T ∧ line.1 ≠ T then push (callersIn lines T) line.1 else callersIn lines T := by
  rw [callersIn, List.filter_append, List.map_append, scan_append, ← callersIn]
  have hone : [line].filter (fun line ↦ line.2 = T ∧ line.1 ≠ T) =
      if line.2 = T ∧ line.1 ≠ T then [line] else [] := by
    rw [List.filter_singleton]
    simp only [decide_eq_true_eq, Bool.cond_eq_ite]
  rw [hone]
  split_ifs
  · rfl
  · rfl

/-- **One line**, and what it does to the relation. -/
theorem Summarises.noteCall {s s' : RelationState} (h : Summarises s) {classname typeofname : Str}
    {isMember : Bool} (hnote : noteCall classname typeofname isMember s = some s') :
    Summarises s' := by
  have hlines := lines_noteCall hnote
  rw [CArchitecture.noteCall] at hnote
  intro T
  rw [hlines, callersIn_concat, ← h T]
  by_cases hne : classname = typeofname
  · -- a class that calls itself is not noted in the relation
    simp only [ne_eq, hne, not_true_eq_false, if_false, Option.some.injEq] at hnote
    have hnot : ¬ (typeofname = T ∧ typeofname ≠ T) := fun hT ↦ hT.2 hT.1
    rw [if_neg (hne ▸ hnot), ← hnote]
  · simp only [ne_eq, hne, not_false_eq_true, if_true] at hnote
    obtain ⟨r', hr', hnote⟩ := Option.bind_eq_some_iff.1 hnote
    rw [← Option.some.inj hnote]
    show (((r'.find? T).getD []).map CalledClass.name) = _
    rw [find?_addRelation hr' T]
    by_cases hT : T = typeofname
    · rw [if_pos hT, if_pos ⟨hT.symm, fun heq ↦ hne (heq.trans hT)⟩, Option.getD_some,
        map_name_addCaller, hT]
    · rw [if_neg hT, if_neg fun h ↦ hT h.1.symm]

section Frame

variable {I : RelationState → Prop} {tables : SymbolTables} {fuel : ℕ}

/-- **What every note keeps, `findsymbol` keeps**: it does nothing else to its records. -/
theorem noteSymbol_invariant (hI : ∀ s s' classname typeofname isMember, I s →
      noteCall classname typeofname isMember s = some s' → I s')
    {symbol methodbody classname : Str} {p : CReadCpp} {pos : ℕ}
    {t t' : RelationState × CalledRelation} (h : I t.1)
    (hnote : noteSymbol fuel tables symbol methodbody classname p pos t = some t') : I t'.1 := by
  rw [noteSymbol] at hnote
  obtain ⟨valuename, -, hnote⟩ := Option.bind_eq_some_iff.1 hnote
  obtain ⟨call, -, hnote⟩ := Option.bind_eq_some_iff.1 hnote
  split_ifs at hnote
  swap
  · exact Option.some.inj hnote ▸ h
  obtain ⟨⟨typeofname, isMember⟩, -, hnote⟩ := Option.bind_eq_some_iff.1 hnote
  simp only at hnote
  split_ifs at hnote
  swap
  · exact Option.some.inj hnote ▸ h
  refine Loop.foldlM_invariant (fun u : RelationState × CalledRelation ↦ I u.1)
    (fun u header _ u' hu hround ↦ ?_) h hnote
  rw [noteHeader] at hround
  split at hround
  · exact Option.some.inj hround ▸ hu
  · obtain ⟨relations, hrelations, hround⟩ := Option.bind_eq_some_iff.1 hround
    obtain ⟨objectrelation, -, hround⟩ := Option.bind_eq_some_iff.1 hround
    obtain rfl := Option.some.inj hround
    exact hI _ _ _ _ _ hu hrelations

theorem findsymbol_invariant (hI : ∀ s s' classname typeofname isMember, I s →
      noteCall classname typeofname isMember s = some s' → I s')
    {call : SymbolCall} {s s' : RelationState} (h : I s)
    (hcall : findsymbol fuel tables s call = some s') : I s' := by
  refine Loop.join_run_invariant
    (fun t : Option ℕ × RelationState × CalledRelation ↦ I t.2.1) I ?_ ?_ h hcall
  · rintro ⟨- | pos, t⟩ u ht hround
    · simp [symbolRound] at hround
    · cases hnote : noteSymbol fuel tables call.symbol call.methodbody call.classname
        call.p pos t with
      | none => simp [symbolRound, hnote] at hround
      | some t' =>
        simp only [symbolRound, hnote, Sum.inl.injEq] at hround
        exact hround ▸ noteSymbol_invariant hI ht hnote
  · rintro ⟨- | pos, t⟩ t' ht hround
    · obtain rfl := Option.some.inj (Sum.inr.inj hround)
      exact ht
    · cases hnote : noteSymbol fuel tables call.symbol call.methodbody call.classname
        call.p pos t with
      | none => simp [symbolRound, hnote] at hround
      | some t' => simp [symbolRound, hnote] at hround

end Frame

/-! ### All files -/

section Files

variable {aryh arycpp : List FileText} {hmap : OrdMap Str CReadH} {head : List CReadCpp}

/-- The classes of the headers that were read. -/
theorem named_hmap (h : aryh.foldlM readHeader ∅ = some hmap) {e : Str × CReadH}
    (he : e ∈ hmap.entries) {T : Str} (hT : (e.2.classdef.find? T).isSome) :
    IsName T ∧ T ≠ [] := by
  have hfind := find?_hmap h e.1
  rw [OrdMap.mem_entries_iff.1 (show (e.1, e.2) ∈ hmap.entries from he)] at hfind
  obtain ⟨f, -, hf⟩ := List.exists_of_findSome?_eq_some hfind.symm
  have hentry := lookupIn_headerEntry hf
  rw [headerEntry] at hentry
  obtain ⟨p, hp, hentry⟩ := Option.bind_eq_some_iff.1 hentry
  obtain ⟨name, -, hentry⟩ := Option.bind_eq_some_iff.1 hentry
  obtain ⟨-, heq⟩ := Prod.ext_iff.1 (Option.some.inj hentry)
  rw [← heq, ← OrdMap.mem_keys_iff] at hT
  obtain ⟨c, hc, rfl⟩ := List.mem_map.1 hT
  obtain ⟨c', hc', rfl⟩ := List.mem_map.1 hc
  exact (named_readH hp).name c' hc'

/-- The classes of the source files that were read. -/
theorem named_head (h : arycpp.foldlM readSource [] = some head) {p : CReadCpp} (hp : p ∈ head) :
    CppNamed p.cppclass := by
  rw [foldlM_readSource h, List.append_nil, List.mem_reverse, List.mem_filterMap] at hp
  obtain ⟨f, -, hf⟩ := hp
  exact named_readCpp hf

/-- **The names in the lines.** -/
theorem named_lines (hread : readEachfile aryh arycpp = some (hmap, head)) {fuel : ℕ}
    {s : RelationState} (h : doParsing fuel hmap head = some s) :
    ∀ line ∈ s.lines, IsName line.1 ∧ IsName line.2 ∧ line.2 ≠ [] := by
  rw [readEachfile] at hread
  obtain ⟨hmap', hh, hread⟩ := Option.bind_eq_some_iff.1 hread
  obtain ⟨head', hc, hread⟩ := Option.bind_eq_some_iff.1 hread
  obtain ⟨rfl, rfl⟩ := Prod.ext_iff.1 (Option.some.inj hread)
  rw [(lines_doParsing h).2]
  intro line hline
  obtain ⟨call, hcall, hline⟩ := List.mem_flatMap.1 hline
  obtain ⟨pos, -, hline⟩ := List.mem_flatMap.1 hline
  obtain ⟨hp, q, ⟨e, he, hname, -⟩, -⟩ := mem_parsingCalls.1 hcall
  obtain ⟨p, hp, hpeq⟩ := List.mem_map.1 hp
  have hcaller : IsName call.classname := by
    rw [← hpeq] at he
    obtain ⟨e', he', rfl⟩ := List.mem_map.1 he
    rw [hname]
    exact named_head hc hp e' he'
  rw [linesAt] at hline
  split_ifs at hline
  · exact absurd hline List.not_mem_nil
  split at hline
  · exact absurd hline List.not_mem_nil
  split_ifs at hline
  · exact absurd hline List.not_mem_nil
  obtain ⟨header, hheader, hline⟩ := List.mem_flatMap.1 hline
  split_ifs at hline with hdef
  · obtain rfl := List.mem_singleton.1 hline
    exact ⟨hcaller, named_hmap hh hheader hdef⟩
  · exact absurd hline List.not_mem_nil

theorem summarises_doParsing {fuel : ℕ} {s : RelationState}
    (h : doParsing fuel hmap head = some s) : Summarises s := by
  rw [doParsing] at h
  obtain ⟨head', -, h⟩ := Option.bind_eq_some_iff.1 h
  exact Loop.foldlM_invariant Summarises
    (fun _ _ _ _ hs hcall ↦ findsymbol_invariant
      (fun _ _ _ _ _ hs hnote ↦ hs.noteCall hnote) hs hcall)
    (fun T ↦ rfl) h

end Files

/-- What stands between a caller and the class that it calls. -/
def calledText : Str := "  called  ".toList

/-- Read a line of `ans.txt`: the caller, and the called class. -/
def readAnsLine (line : Str) : Option (Str × Str) :=
  let rest := line.dropWhile isNameChar
  if calledText <+: rest then some (line.takeWhile isNameChar, rest.drop calledText.length)
  else none

/-- Read `ans.txt`. -/
def readAns (text : Str) : Option (List (Str × Str)) := (Text.fields '\n' text).mapM readAnsLine

theorem calledText_eq : calledText = ' ' :: " called  ".toList := by decide

theorem readAnsLine_callText {line : Str × Str} (h : IsName line.1) :
    readAnsLine (callText line) = some line := by
  have hcalled : ∀ c ∈ (calledText ++ line.2).head?, isNameChar c = false := by
    rw [calledText_eq]
    rintro c ⟨⟩
    decide
  have hspan := h.span_append hcalled
  have hshape : callText line = line.1 ++ (calledText ++ line.2) := List.append_assoc ..
  rw [hshape, readAnsLine, hspan.1, hspan.2, if_pos (List.prefix_append _ _), List.drop_left]

/-- **`ans.txt` is read back.** -/
theorem readAns_lastans {tables : SymbolTables} {s : RelationState} (hs : Agrees tables s)
    (h : ∀ line ∈ s.lines, IsName line.1 ∧ IsName line.2 ∧ line.2 ≠ []) :
    readAns s.lastans = some s.lines := by
  have hend : isNameChar '\n' = false := by decide
  have hlines : s.lastans = (s.lines.map callText).flatMap (· ++ ['\n']) := by
    rw [hs.lastans_eq, List.flatMap_map]
    rfl
  rw [readAns, hlines, Text.fields_flatMap]
  · exact mapM_eq_some_of_forall fun line hline ↦ readAnsLine_callText (h line hline).1
  · intro text htext
    obtain ⟨line, hline, rfl⟩ := List.mem_map.1 htext
    obtain ⟨hX, hT, -⟩ := h line hline
    rw [callText, List.mem_append, List.mem_append]
    rintro ((hmem | hmem) | hmem)
    · exact hX.notMem hend hmem
    · exact absurd hmem (by decide)
    · exact hT.notMem hend hmem
  · intro text htext hnil
    obtain ⟨line, hline, rfl⟩ := List.mem_map.1 htext
    exact (h line hline).2.2 (List.append_eq_nil_iff.1 hnil).2

theorem mem_callersIn {lines : List (Str × Str)} {X T : Str} :
    X ∈ callersIn lines T ↔ (X, T) ∈ lines ∧ X ≠ T := by
  rw [callersIn, mem_scan]
  constructor
  · rintro (h | h)
    · exact absurd h List.not_mem_nil
    · obtain ⟨line, hline, rfl⟩ := List.mem_map.1 h
      obtain ⟨hmem, hdec⟩ := List.mem_filter.1 hline
      obtain ⟨rfl, hne⟩ := of_decide_eq_true hdec
      exact ⟨hmem, hne⟩
  · rintro ⟨hmem, hne⟩
    exact Or.inr (List.mem_map.2 ⟨_, List.mem_filter.2 ⟨hmem, decide_eq_true ⟨rfl, hne⟩⟩, rfl⟩)

/-- The entries of the relation, told from the lines. -/
theorem Summarises.mem_callersOf_iff {s : RelationState} (h : Summarises s)
    (hr : s.calledrelation.Proper) {T : Str} {callers : List Str} :
    (T, callers) ∈ callersOf s.calledrelation ↔
      callers ≠ [] ∧ callers = callersIn s.lines T := by
  constructor
  · intro hmem
    obtain ⟨e, he, heq⟩ := List.mem_map.1 hmem
    obtain ⟨rfl, rfl⟩ := Prod.ext_iff.1 heq
    have hfind := OrdMap.mem_entries_iff.1 (show (e.1, e.2) ∈ s.calledrelation.entries from he)
    refine ⟨fun hnil ↦ (hr e he).1 (List.map_eq_nil_iff.1 hnil), ?_⟩
    rw [← h e.1, hfind]
    rfl
  · rintro ⟨hne, rfl⟩
    rw [← h T] at hne ⊢
    cases hfind : s.calledrelation.find? T with
    | none => rw [hfind] at hne; exact absurd rfl hne
    | some l => exact List.mem_map.2 ⟨(T, l), OrdMap.mem_entries_iff.2 hfind, rfl⟩

/-- **The names in the relation.** -/
theorem Summarises.named {s : RelationState} (h : Summarises s) (hr : s.calledrelation.Proper)
    (hnames : ∀ line ∈ s.lines, IsName line.1 ∧ IsName line.2 ∧ line.2 ≠ []) :
    s.calledrelation.Named := by
  intro x hx
  obtain ⟨e, he, hx⟩ := List.mem_flatMap.1 hx
  obtain ⟨hne, hcallers⟩ := (h.mem_callersOf_iff hr).1
    (List.mem_map.2 ⟨e, he, rfl⟩ : (e.1, e.2.map CalledClass.name) ∈ callersOf s.calledrelation)
  have hline : ∀ X ∈ e.2.map CalledClass.name, (X, e.1) ∈ s.lines := fun X hX ↦
    (mem_callersIn.1 (hcallers ▸ hX)).1
  rcases List.mem_cons.1 hx with rfl | hx
  · obtain ⟨X, hX⟩ := List.exists_mem_of_ne_nil _ hne
    exact (hnames _ (hline X hX)).2.1
  · exact (hnames _ (hline x hx)).1

/-- **`ans.txt` determines `relation.txt`.** Whatever the files are, if they are read and parsed,
all names in the relation are names; `ans.txt` is read back as its lines; and the entries of the
relation are the classes that some line says are called by another class, each with these callers in
the order in which the lines meet them first. -/
theorem doParsing_ansDetermines {aryh arycpp : List FileText} {hmap : OrdMap Str CReadH}
    {head : List CReadCpp} {fuel : ℕ} {s : RelationState}
    (hread : readEachfile aryh arycpp = some (hmap, head))
    (h : doParsing fuel hmap head = some s) :
    s.calledrelation.Named ∧ readAns s.lastans = some s.lines ∧
      ∀ T callers, (T, callers) ∈ callersOf s.calledrelation ↔
        callers ≠ [] ∧ callers = callersIn s.lines T := by
  have hnames := named_lines hread h
  have hsum := summarises_doParsing h
  have hagrees := (lines_doParsing h).1
  exact ⟨hsum.named hagrees.proper hnames, readAns_lastans hagrees hnames,
    fun T callers ↦ hsum.mem_callersOf_iff hagrees.proper⟩

theorem doParsing_ansDetermines_sampleH :
    ∃ hmap head s, readEachfile [sampleH "a//b.h" "B"] [sampleSourceT] = some (hmap, head) ∧
      doParsing (parsingFuel hmap head) hmap head = some s ∧
      s.calledrelation.Named ∧ readAns s.lastans = some s.lines ∧
      ∀ T callers, (T, callers) ∈ callersOf s.calledrelation ↔
        callers ≠ [] ∧ callers = callersIn s.lines T := by
  have hcount : relationCount [sampleH "a//b.h" "B"] [sampleSourceT] "B".toList "A".toList =
      some 1 := by decide +kernel
  obtain ⟨s, hs, -⟩ := Option.map_eq_some_iff.1 hcount
  obtain ⟨⟨hmap, head⟩, hread, hparse⟩ := Option.bind_eq_some_iff.1 hs
  exact ⟨hmap, head, s, hread, hparse, doParsing_ansDetermines hread hparse⟩

end CArchitecture
