import CArchitecture.Readers

/-!
# The bodies that are recorded

What `getrelation` writes into `cppclass`, as a function of the text: the definitions among the `::`
that the search takes up, each with the class that it is entered under and the segment of the text
that is kept as its body (`recordings`).

* A body starts where the line of its `::` does, but the search goes on at the closing brace of the
  body before. So the bodies are disjoint **exactly if a line ends in between**
  (`bodiesDisjoint_iff`).
* On a printed source file the bodies are the texts of the definitions. The class is the name before
  the `::`, and this is read back to the last blank: it is wrong **exactly for the definitions that
  are printed without a blank there** (`MethodText.NameFound`).
-/

namespace CArchitecture

/-! ### What is recorded -/

/-- A definition that is recorded: its `::`, the class, and the part of the text that is kept. -/
structure Recording where
  pos : ℕ
  classname : Str
  start : ℕ
  stop : ℕ

/-- The text that is kept. -/
def Recording.body (content : Str) (e : Recording) : Str :=
  CString.substr content e.start (e.stop - e.start)

/-- What is recorded for the `::` at `pos`. -/
def recordingAt (content : Str) (pos : ℕ) : Option Recording := do
  let k ← bodyAt content pos
  let oneclassname ← classBefore content pos
  let start ← CString.back (· ≠ '\n') content (pos + 1)
  some { pos := pos, classname := oneclassname, start := start, stop := k + 1 }

/-- All that is recorded, in the order in which it is. -/
def recordings (content : Str) : List Recording := (visits content).filterMap (recordingAt content)

/-- Enter a definition. -/
def addRecording (content : Str) (cppclass : OrdMap Str (List CMethodBody)) (e : Recording) :
    OrdMap Str (List CMethodBody) :=
  addMethod cppclass e.classname (methodOf (e.body content))

section Recordings

variable {content : Str} {pos s : ℕ} {classes classes' : CppClasses} {next : Option ℕ}

/-- **One call** of `findclasses`. -/
theorem findclasses_recording (hfind : CString.find "::".toList content s = some pos)
    (hcall : findclasses s content classes = some (next, classes')) :
    next = resume content pos ∧
      classes'.cppclass =
        (recordingAt content pos).elim classes.cppclass
          (addRecording content classes.cppclass) := by
  rw [findclasses, hfind] at hcall
  obtain ⟨isclass, hclass, hcall⟩ := Option.bind_eq_some_iff.1 hcall
  rw [resume, recordingAt, bodyAt, hclass]
  rcases isclass with - | -
  · obtain ⟨rfl, rfl⟩ := Prod.mk.inj (Option.some.inj hcall)
    exact ⟨rfl, rfl⟩
  · obtain ⟨oneclassname, hname, hcall⟩ := Option.bind_eq_some_iff.1 hcall
    rw [if_pos rfl, if_pos rfl]
    cases hbrace : CString.find "\x7b".toList content pos with
    | none =>
      rw [hbrace] at hcall
      obtain ⟨rfl, rfl⟩ := Prod.mk.inj (Option.some.inj hcall)
      exact ⟨rfl, rfl⟩
    | some bodystart =>
      rw [hbrace] at hcall
      obtain ⟨start, hstart, hcall⟩ := Option.bind_eq_some_iff.1 hcall
      obtain ⟨rfl, rfl⟩ := Prod.mk.inj (Option.some.inj hcall)
      rw [hname, hstart]
      exact ⟨rfl, rfl⟩

/-- **Every call.** What the loop enters, from any position on. -/
theorem run_getrelationRound_recordings {n m : ℕ} {classstart : Option ℕ}
    {res : Option ℕ × CppClasses} (hs : s ≤ content.length) (hm : content.length < s + m)
    (hrun : (Loop.run (getrelationRound content) n ⟨some s, classstart, classes⟩).join = some res) :
    res.2.cppclass = ((visitsFrom content m s).filterMap (recordingAt content)).foldl
      (addRecording content) classes.cppclass := by
  have hexit : ∀ n classstart classes, (Loop.run (getrelationRound content) n
      ⟨none, classstart, classes⟩).join = some res → res.2.cppclass = classes.cppclass := by
    intro n classstart classes hrun
    cases n with
    | zero => exact absurd hrun (by simp [Loop.run])
    | succ n =>
      rw [Loop.run_succ_of_inr (getrelationRound_none content _ _)] at hrun
      rw [← Option.some.inj hrun]
  induction n generalizing s m classstart classes with
  | zero => exact absurd hrun (by simp [Loop.run])
  | succ n ih =>
    obtain ⟨m, rfl⟩ : ∃ m', m = m' + 1 := ⟨m - 1, by omega⟩
    cases hfind : CString.find "::".toList content s with
    | none =>
      have hcall := findclasses_of_find_eq_none hfind classes
      rw [Loop.run_succ_of_inl (getrelationRound_of_eq_some hcall classstart)] at hrun
      rw [hexit _ _ _ hrun, visitsFrom_of_find_eq_none hfind]
      rfl
    | some pos =>
      cases hcall : findclasses s content classes with
      | none =>
        rw [Loop.run_succ_of_inr (getrelationRound_of_eq_none hcall classstart)] at hrun
        exact absurd hrun (by simp)
      | some called =>
        obtain ⟨next, classes'⟩ := called
        obtain ⟨rfl, hcppclass⟩ := findclasses_recording hfind hcall
        rw [Loop.run_succ_of_inl (getrelationRound_of_eq_some hcall classstart)] at hrun
        -- what this call enters comes before the rest
        have hfold : ∀ l : List ℕ, ((pos :: l).filterMap (recordingAt content)).foldl
            (addRecording content) classes.cppclass =
              (l.filterMap (recordingAt content)).foldl (addRecording content)
                classes'.cppclass := by
          intro l
          rw [hcppclass, List.filterMap_cons]
          cases recordingAt content pos <;> rfl
        rw [visitsFrom_of_find_eq_some hfind, hfold]
        cases hres : resume content pos with
        | none =>
          simp only [hres] at hrun
          exact hexit _ _ _ hrun
        | some s' =>
          simp only [hres] at hrun
          obtain ⟨hlt, hle⟩ := lt_of_resume hfind hres
          exact ih hle (by omega) hrun

/-- **What a run enters.** -/
theorem cppclass_readCpp {r : CReadCpp} (h : readCpp content = some r) :
    r.cppclass = (recordings content).foldl (addRecording content) ∅ := by
  rw [readCpp_eq] at h
  obtain ⟨res, hrun, h⟩ := Option.bind_eq_some_iff.1 h
  obtain ⟨headfile, -, rfl⟩ := Option.map_eq_some_iff.1 h
  exact run_getrelationRound_recordings (Nat.zero_le _) (by omega) hrun

/-- A method is appended to its class. -/
theorem find?_addMethod (cppclass : OrdMap Str (List CMethodBody)) (classname key : Str)
    (m : CMethodBody) : (addMethod cppclass classname m).find? key =
      if key = classname then some ((cppclass.find? classname).getD [] ++ [m])
      else cppclass.find? key := by
  rw [addMethod]
  cases hfind : cppclass.find? classname with
  | none =>
    rw [OrdMap.find?_insert, hfind]
    split_ifs <;> rfl
  | some l =>
    simp only [OrdMap.find?_modify, Option.getD_some]
    split_ifs with hkey
    · rw [hkey, hfind, Option.map_some]
    · rfl

/-- The classes that have entries, and the entries of each, after any number of definitions. -/
theorem find?_foldl_addRecording (l : List Recording) (key : Str) :
    (((l.foldl (addRecording content) ∅).find? key).isSome ↔ ∃ e ∈ l, e.classname = key) ∧
      ((l.foldl (addRecording content) ∅).find? key).getD [] =
        (l.filter fun e ↦ e.classname = key).map fun e ↦ methodOf (e.body content) := by
  induction l using List.reverseRecOn with
  | nil => simp
  | append_singleton l e ih =>
    rw [List.foldl_append, List.foldl_cons, List.foldl_nil, List.filter_append, addRecording,
      find?_addMethod, List.filter_singleton]
    rcases eq_or_ne key e.classname with rfl | hne
    · rw [if_pos rfl, ih.2]
      simp
    · rw [if_neg hne, ih.1, ih.2]
      simp [hne.symm]

/-- **What a run leaves in `cppclass`**: a class has entries if it is that of a recorded definition,
and they are its bodies, in the order of the text. -/
theorem find?_readCpp {r : CReadCpp} (h : readCpp content = some r) (key : Str) :
    ((r.cppclass.find? key).isSome ↔ ∃ e ∈ recordings content, e.classname = key) ∧
      (r.cppclass.find? key).getD [] =
        ((recordings content).filter fun e ↦ e.classname = key).map
          fun e ↦ methodOf (e.body content) := by
  rw [cppclass_readCpp h]
  exact find?_foldl_addRecording _ key

end Recordings

/-! ### Where the bodies lie -/

/-- Each body ends before the next one starts. -/
def BodiesDisjoint (content : Str) : Prop :=
  (recordings content).Pairwise fun a b ↦ a.stop ≤ b.start

/-- Between the end of a body and the `::` of the next one a line ends. -/
def LineEndsBetween (content : Str) : Prop :=
  (recordings content).IsChain fun a b ↦ '\n' ∈ (content.take b.pos).drop (a.stop - 1)

instance (content : Str) : Decidable (BodiesDisjoint content) :=
  inferInstanceAs (Decidable (List.Pairwise _ _))

instance (content : Str) : Decidable (LineEndsBetween content) :=
  inferInstanceAs (Decidable (List.IsChain _ _))

/-- The `::`, the line start and the end of a body. -/
structure Recording.Located (content : Str) (e : Recording) : Prop where
  colon : content[e.pos]? = some ':'
  back_eq : CString.back (· ≠ '\n') content (e.pos + 1) = some e.start
  pos_lt : e.pos < e.stop

section Segments

variable {content : Str} {pos s : ℕ} {e : Recording}

theorem located_of_recordingAt (hfind : CString.find "::".toList content s = some pos)
    (h : recordingAt content pos = some e) :
    e.Located content ∧ e.pos = pos ∧ resume content pos = some (e.stop - 1) := by
  obtain ⟨k, hbody, h⟩ := Option.bind_eq_some_iff.1 h
  obtain ⟨oneclassname, -, h⟩ := Option.bind_eq_some_iff.1 h
  obtain ⟨start, hback, h⟩ := Option.bind_eq_some_iff.1 h
  obtain rfl := Option.some.inj h
  have hcolon : content[pos]? = some ':' :=
    CString.getElem?_of_isPrefix (CString.of_find_eq_some hfind).2
  have hend : pos < k ∧ resume content pos = some k := by
    rw [resume, hbody]
    rw [bodyAt] at hbody
    split_ifs at hbody with hdef
    obtain ⟨b, hb, rfl⟩ := Option.map_eq_some_iff.1 hbody
    exact ⟨(CString.of_find_eq_some hb).1.trans_lt (lt_bodyEnd content b), if_pos hdef⟩
  exact ⟨⟨hcolon, hback, hend.1.trans (Nat.lt_succ_self k)⟩, rfl, hend.2⟩

/-- A body starts behind position `k` exactly if a line ends between `k` and the `::`. -/
theorem Recording.Located.start_le (h : e.Located content) (k : ℕ) :
    e.start ≤ e.pos ∧ (k < e.start ↔ '\n' ∈ (content.take e.pos).drop k) := by
  obtain ⟨⟨j, c, hj, hle, hc, hstop⟩, hwalk⟩ := CString.of_back_eq_some h.back_eq
  have hnewline : c = '\n' := by simpa using hstop
  subst hnewline
  have hne : j ≠ e.pos := by
    rintro rfl
    exact absurd (Option.some.inj (hc.symm.trans h.colon)) (by decide)
  refine ⟨by omega, fun hk ↦ ?_, fun hmem ↦ ?_⟩
  · refine List.mem_of_getElem? (i := j - k) ?_
    rw [List.getElem?_drop, List.getElem?_take, if_pos (by omega), Nat.add_sub_cancel' (by omega),
      hc]
  · obtain ⟨i, hi⟩ := List.mem_iff_getElem?.1 hmem
    rw [List.getElem?_drop, List.getElem?_take] at hi
    split_ifs at hi with hlt
    by_contra hno
    obtain ⟨d, hd, hgo⟩ := hwalk (k + i) (by omega) (by omega)
    rw [Option.some.inj (hd.symm.trans hi)] at hgo
    exact absurd hgo (by decide)

/-- The search goes on behind each body. -/
theorem visitsFrom_recordings (content : Str) (n s : ℕ) :
    (∀ e ∈ (visitsFrom content n s).filterMap (recordingAt content),
      e.Located content ∧ s ≤ e.pos) ∧
    ((visitsFrom content n s).filterMap (recordingAt content)).Pairwise
      fun a b ↦ a.stop ≤ b.pos + 1 := by
  induction n generalizing s with
  | zero => exact ⟨fun e he ↦ absurd he List.not_mem_nil, List.Pairwise.nil⟩
  | succ n ih =>
    cases hfind : CString.find "::".toList content s with
    | none =>
      rw [visitsFrom_of_find_eq_none hfind]
      exact ⟨fun e he ↦ absurd he List.not_mem_nil, List.Pairwise.nil⟩
    | some pos =>
      have hle := (CString.of_find_eq_some hfind).1
      have hrest : (∀ e ∈ ((resume content pos).elim [] (visitsFrom content n)).filterMap
          (recordingAt content), e.Located content ∧ s ≤ e.pos ∧
            ∀ k, resume content pos = some k → k ≤ e.pos) ∧
          (((resume content pos).elim [] (visitsFrom content n)).filterMap
            (recordingAt content)).Pairwise fun a b ↦ a.stop ≤ b.pos + 1 := by
        cases hres : resume content pos with
        | none => exact ⟨fun e he ↦ absurd he List.not_mem_nil, List.Pairwise.nil⟩
        | some k =>
          have hlt := (lt_of_resume hfind hres).1
          refine ⟨fun e he ↦ ?_, (ih k).2⟩
          obtain ⟨hloc, hk⟩ := (ih k).1 e he
          exact ⟨hloc, by omega, fun k' hk' ↦ Option.some.inj hk' ▸ hk⟩
      rw [visitsFrom_of_find_eq_some hfind, List.filterMap_cons]
      cases hrec : recordingAt content pos with
      | none => exact ⟨fun e he ↦ ⟨(hrest.1 e he).1, (hrest.1 e he).2.1⟩, hrest.2⟩
      | some e =>
        obtain ⟨hloc, hpos, hres⟩ := located_of_recordingAt hfind hrec
        refine ⟨fun e' he' ↦ ?_, List.pairwise_cons.2 ⟨fun b hb ↦ ?_, hrest.2⟩⟩
        · rcases List.mem_cons.1 he' with rfl | he'
          · exact ⟨hloc, hpos ▸ hle⟩
          · exact ⟨(hrest.1 e' he').1, (hrest.1 e' he').2.1⟩
        · have := (hrest.1 b hb).2.2 _ hres
          omega

/-- Bodies that are not one behind the other share a character. -/
theorem bodiesDisjoint_iff_forall (content : Str) : BodiesDisjoint content ↔
    (recordings content).Pairwise fun a b ↦
      ∀ i, ¬ ((a.start ≤ i ∧ i < a.stop) ∧ b.start ≤ i ∧ i < b.stop) := by
  obtain ⟨hloc, horder⟩ := visitsFrom_recordings content (content.length + 1) 0
  change ∀ e ∈ recordings content, _ at hloc
  have hfollows : (recordings content).Pairwise fun a b ↦
      a.stop ≤ b.pos + 1 ∧ a.start ≤ a.pos ∧ a.pos < a.stop ∧ b.pos < b.stop :=
    horder.imp_of_mem fun ha hb h ↦ ⟨h, ((hloc _ ha).1.start_le 0).1, (hloc _ ha).1.pos_lt,
      (hloc _ hb).1.pos_lt⟩
  constructor
  · exact fun h ↦ h.imp fun hle i hi ↦ by omega
  · refine fun h ↦ h.imp₂ (fun a b hno hord ↦ ?_) hfollows
    by_contra hlt
    exact hno (max a.start b.start) (by omega)

/-- **When the bodies are disjoint.** -/
theorem bodiesDisjoint_iff (content : Str) : BodiesDisjoint content ↔ LineEndsBetween content := by
  obtain ⟨hloc, -⟩ := visitsFrom_recordings content (content.length + 1) 0
  change ∀ e ∈ recordings content, _ at hloc
  have hsegment : ∀ e ∈ recordings content, e.start ≤ e.stop := fun e he ↦
    ((hloc e he).1.start_le 0).1.trans (hloc e he).1.pos_lt.le
  -- with the ends of the second body in the relation it is transitive
  let R : Recording → Recording → Prop := fun a b ↦ a.stop ≤ b.start ∧ b.start ≤ b.stop
  have : Trans R R R := ⟨fun h h' ↦ ⟨h.1.trans (h.2.trans h'.1), h'.2⟩⟩
  calc BodiesDisjoint content ↔ (recordings content).Pairwise R :=
        List.Pairwise.iff_of_mem fun _ hb ↦ (and_iff_left (hsegment _ hb)).symm
    _ ↔ (recordings content).IsChain R := List.isChain_iff_pairwise.symm
    _ ↔ LineEndsBetween content := List.IsChain.iff_of_mem_imp fun a b ha hb ↦ by
        have hpos := (hloc a ha).1.pos_lt
        rw [← ((hloc b hb).1.start_le _).2]
        refine (and_iff_left (hsegment b hb)).trans ?_
        omega

end Segments

/-- **The bodies of a file.** What the reader keeps are the bodies of the recorded definitions. No
character belongs to two of them exactly if a line ends between each body and the next `::` that
is recorded, and then they stand one behind the other. -/
theorem readCpp_bodiesDisjoint_iff {content : Str} {r : CReadCpp} (h : readCpp content = some r) :
    (∀ key, ((r.cppclass.find? key).isSome ↔ ∃ e ∈ recordings content, e.classname = key) ∧
      (r.cppclass.find? key).getD [] =
        ((recordings content).filter fun e ↦ e.classname = key).map
          fun e ↦ methodOf (e.body content)) ∧
    (BodiesDisjoint content ↔ LineEndsBetween content) ∧
    (BodiesDisjoint content ↔ (recordings content).Pairwise fun a b ↦
      ∀ i, ¬ ((a.start ≤ i ∧ i < a.stop) ∧ b.start ≤ i ∧ i < b.stop)) :=
  ⟨find?_readCpp h, bodiesDisjoint_iff content, bodiesDisjoint_iff_forall content⟩

/-- Two methods of a class. -/
def sampleMethods : Str := "\nvoid A::f()\n\x7b p->q(); \x7d\nint A::g()\n\x7b\x7d\n".toList

theorem readCpp_bodiesDisjoint_iff_sampleMethods :
    ∃ r, readCpp sampleMethods = some r ∧ BodiesDisjoint sampleMethods ∧
      (r.cppclass.find? "A".toList).getD [] =
        ((recordings sampleMethods).filter fun e ↦ e.classname = "A".toList).map
          fun e ↦ methodOf (e.body sampleMethods) := by
  have hsome : (readCpp sampleMethods).isSome := by decide +kernel
  obtain ⟨r, hr⟩ := Option.isSome_iff_exists.1 hsome
  have hbodies := readCpp_bodiesDisjoint_iff hr
  exact ⟨r, hr, hbodies.2.1.2 (by decide +kernel), (hbodies.1 "A".toList).2⟩

/-- A method in one line, with a comment behind it that names another one. -/
def sampleOneLine : Str :=
  "\nvoid A::f() \x7b p->q(); \x7d // as B::f\nvoid C::h() \x7b\x7d\n".toList

/-- The comment counts as a definition, and its body starts where the line does. So the access
stands in both bodies. -/
theorem readCpp_sampleOneLine_not_bodiesDisjoint :
    (readCpp sampleOneLine).isSome ∧
      (recordings sampleOneLine).map (fun e ↦ (e.classname, e.start, e.stop)) =
        [("A".toList, 1, 24), ("B".toList, 1, 50)] ∧
      ¬ BodiesDisjoint sampleOneLine := by
  decide +kernel

end CArchitecture
