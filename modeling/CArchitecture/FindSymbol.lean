import CArchitecture.CreateHypergraph
import CArchitecture.Library.Loop

/-!
# Finding who calls whom

`findsymbol` looks for the occurrences of `->` and `.` in a method body. For each of them it finds
out the type of the variable before it, from the body, from the headers of the class or from the
global variables; and for every header that defines a class of this name it notes a call, **twice**:
as a line of the text `lastans`, and in the list of callers of the class in `calledrelation`. The
text is written to a file for the user, the lists become the hypergraph.

* A call of `findsymbol` that leaves a text or an array, or reads a variable that was not set, does
  not return here. The loops over symbols and headers have fuel.
* The field `lines` is not in the source: it records which lines were appended to `lastans`.
* `Agrees` is what the two records have to do with each other. Only `noteCall` touches them, and it
  keeps `Agrees` (`Agrees.noteCall`); the rest is that the loops do nothing else to them.
-/

namespace CArchitecture

/-! ### What the source files were parsed into -/

/-- The definition of a class in a header. -/
structure CClassContent where
  defbody : Str

/-- A header. -/
structure CReadH where
  globalStr : Str
  headfile : List Str
  classdef : OrdMap Str CClassContent

/-- A method. -/
structure CMethodBody where
  body : Str
  funcline : Str
  paraCnt : ℤ
  /-- The parameters that are called in the body, counted from one. -/
  CallParemeter : List ℤ

/-- A source file. The methods of each class are a linked list. -/
structure CReadCpp where
  globalStr : Str
  headfile : List Str
  cppclass : OrdMap Str (List CMethodBody)

/-- The tables that `findsymbol` reads. -/
structure SymbolTables where
  hmap : OrdMap Str CReadH
  mapForTypeDef : OrdMap Str Str
  head : List CReadCpp

/-! ### Names in texts -/

/-- A letter, a digit or an underscore. -/
def isNameChar (c : Char) : Bool :=
  (65 ≤ c.toNat && c.toNat ≤ 90) || (97 ≤ c.toNat && c.toNat ≤ 122) ||
    (48 ≤ c.toNat && c.toNat ≤ 57) || c == '_'

/-- The name that ends before position `i`. A name at the very beginning of the text is not found:
the loop goes on to the position `-1`, and `at` throws. -/
def nameBefore (s : Str) : ℕ → Option Str
  | 0 => none
  | i + 1 => do
    let c ← s[i]?
    if isNameChar c then (nameBefore s i).map (· ++ [c]) else some []

/-- The name that starts at position `i`, and the character after it. -/
def nameAfter (s : Str) (i : ℕ) : Option (Str × Char) := do
  let c ← ((s.drop i).dropWhile isNameChar).head?
  some ((s.drop i).takeWhile isNameChar, c)

/-- Go back from position `i` over stars, blanks and tabs. -/
def skipBack (s : Str) : ℕ → Option ℕ
  | 0 => none
  | i + 1 => do
    let c ← s[i]?
    if c == '*' || c == ' ' || c == '\t' then skipBack s i else some (i + 1)

/-- `skipBack` is a walk over stars and blanks. -/
theorem skipBack_eq_back (s : Str) (i : ℕ) :
    skipBack s i = CString.back (fun c ↦ c == '*' || c == ' ' || c == '\t') s i := by
  induction i with
  | zero => rfl
  | succ i ih => rw [skipBack, CString.back, ih]

/-- The type that ends before position `i`. A type at the very beginning of the text counts as
none. -/
def typeBefore (s : Str) : ℕ → Str → Option Str
  | 0, _ => none
  | i + 1, typeofname => do
    let c ← s[i]?
    if isNameChar c then
      if i = 0 then some [] else typeBefore s i (c :: typeofname)
    else some typeofname

/-- One round of `findtype`: the occurrence at `pos2` is passed over if it is a part of a longer
name, and otherwise decides. -/
def findtypeRound (content valuename : Str) (endpos : ℕ) (pos2 : Option ℕ) :
    Option ℕ ⊕ Option Str :=
  match pos2 with
  | none => Sum.inr (some [])
  | some i =>
    let further := CString.find valuename content (valuename.length + i)
    if valuename.length + i > content.length - 1 then Sum.inr (some [])
    else
      match CString.at? content (valuename.length + i : ℕ) with
      | none => Sum.inr none
      | some c =>
        if isNameChar c then Sum.inl further
        else if i = 0 then Sum.inr (some [])
        else
          match CString.at? content (i - 1 : ℕ) with
          | none => Sum.inr none
          | some c =>
            if isNameChar c then Sum.inl further
            else if i ≥ endpos then Sum.inr (some [])
            else Sum.inr do
              let k ← skipBack content i
              typeBefore content k []

/-- `findtype`: the type with which a variable is declared, or nothing. Every round is further on in
the text, so there are no more rounds than characters. -/
def findtype (content valuename : Str) (endpos : ℕ) : Option Str :=
  (Loop.run (findtypeRound content valuename endpos) (content.length + 2)
    (CString.find valuename content 0)).join

/-- An occurrence that is passed over is followed by the next one. -/
theorem eq_find_of_findtypeRound {content valuename : Str} {endpos i : ℕ} {pos' : Option ℕ}
    (h : findtypeRound content valuename endpos (some i) = Sum.inl pos') :
    pos' = CString.find valuename content (valuename.length + i) := by
  simp only [findtypeRound] at h
  -- every branch of the source either goes on with the next occurrence or returns
  repeat' split at h
  all_goals first
    | exact (Sum.inl.inj h).symm
    | exact absurd h Sum.inr_ne_inl

/-- **The search ends**: it is always further on in the text. -/
theorem exists_run_findtypeRound {valuename : Str} (hne : valuename ≠ []) (content : Str)
    (endpos : ℕ) :
    ∃ b, Loop.run (findtypeRound content valuename endpos) (content.length + 2)
      (CString.find valuename content 0) = some b := by
  have hpos := List.length_pos_iff_ne_nil.2 hne
  have hinside : ∀ start, ∀ i ∈ CString.find valuename content start,
      start ≤ i ∧ i < content.length := fun start i hi ↦ by
    have hend := CString.add_length_le_of_find hi hne
    exact ⟨(CString.of_find_eq_some hi).1, by omega⟩
  -- what is left of the text behind the occurrence
  refine (Loop.exists_run_eq_some (fun pos ↦ ∀ i ∈ pos, i < content.length)
    (fun pos ↦ pos.elim 0 fun i ↦ content.length + 1 - i) (fun _ ↦ True) ?_
    (fun _ _ _ _ ↦ trivial) (fun i hi ↦ (hinside 0 i hi).2) ?_).imp fun _ h ↦ h.1
  · rintro (- | i) pos' hlt hround
    · simp [findtypeRound] at hround
    · have hi := hlt i rfl
      obtain rfl := eq_find_of_findtypeRound hround
      refine ⟨fun j hj ↦ (hinside _ j hj).2, ?_⟩
      rcases hfind : CString.find valuename content (valuename.length + i) with - | j
      · simp only [Option.elim_none, Option.elim_some]
        omega
      · have hj := hinside _ j hfind
        simp only [Option.elim_some]
        omega
  · cases CString.find valuename content 0 with
    | none => simp
    | some i =>
      simp only [Option.elim_some]
      omega

/-- The name of a header without the directories before it. -/
def baseName (headname : Str) : Str :=
  if '/' ∈ headname then (headname.reverse.takeWhile (· ≠ '/')).reverse else headname

/-! ### The type of a variable -/

section Lookup

variable (tables : SymbolTables) (valuename : Str)

/-- The definition of the class in the headers of a file: the first header that has one decides.
Also whether the variable is a member. -/
def findInClass (classname : Str) : List Str → Option (Str × Bool)
  | [] => some ([], false)
  | headname :: headfile =>
    match (tables.hmap.find? (baseName headname)).bind fun h ↦ h.classdef.find? classname with
    | none => findInClass classname headfile
    | some c => do
      let typeofname ← findtype c.defbody valuename c.defbody.length
      some (typeofname, typeofname ≠ [])

/-- Put the headers that were not met before into the queue. -/
def pushHeadfile (s : OrdMap Str Bool × List Str) (headname : Str) : OrdMap Str Bool × List Str :=
  match s.1.find? (baseName headname) with
  | some _ => s
  | none => (s.1.insert (baseName headname) true, s.2 ++ [baseName headname])

/-- One round of the search through the headers. -/
def headerRound (s : OrdMap Str Bool × List Str) : (OrdMap Str Bool × List Str) ⊕ Option Str :=
  match s.2 with
  | [] => Sum.inr (some [])
  | oneheadfile :: allheadfile =>
    match tables.hmap.find? oneheadfile with
    | none => Sum.inl (s.1, allheadfile)
    | some h =>
      match findtype h.globalStr valuename h.globalStr.length with
      | none => Sum.inr none
      | some typeofname =>
        if typeofname ≠ [] then Sum.inr (some typeofname)
        else Sum.inl (h.headfile.foldl pushHeadfile (s.1, allheadfile))

/-- The global variables of a file, and of the headers that it includes. -/
def findInGlobals (fuel : ℕ) (p : CReadCpp) : Option Str := do
  let typeofname ← findtype p.globalStr valuename p.globalStr.length
  if typeofname ≠ [] then some typeofname
  else (Loop.run (headerRound tables valuename) fuel (p.headfile.foldl pushHeadfile (∅, []))).join

/-- The type of the variable before the symbol at `pos`, before type definitions, and whether it is
a member. -/
def typeOf (fuel : ℕ) (methodbody classname : Str) (p : CReadCpp) (pos : ℕ) :
    Option (Str × Bool) := do
  let typeofname ← findtype methodbody valuename pos
  if typeofname ≠ [] then some (typeofname, false)
  else do
    let (typeofname, isMember) ← findInClass tables valuename classname p.headfile
    if typeofname ≠ [] then some (typeofname, isMember)
    else do
      let typeofname ← findInGlobals tables valuename fuel p
      some (typeofname, isMember)

end Lookup

/-! ### The records -/

/-- The list of callers with one more call: the entry of the caller is counted up, or a new one
appended. -/
def addCaller (newrelation : CalledClass) : List CalledClass → List CalledClass
  | [] => [newrelation]
  | temp :: rest =>
    if temp.name = newrelation.name then { temp with count := temp.count + 1 } :: rest
    else temp :: addCaller newrelation rest

/-- Note a call in a relation. An empty list is not a list that the loop can append to: `last` is
set only on the way. -/
def addRelation (relation : CalledRelation) (key : Str) (newrelation : CalledClass) :
    Option CalledRelation :=
  match relation.find? key with
  | some [] => none
  | some (_ :: _) => some (relation.modify key (addCaller newrelation))
  | none => some (relation.insert key [newrelation])

/-- What `findsymbol` writes. -/
structure RelationState where
  lastans : Str := []
  calledrelation : CalledRelation := ∅
  /-- The lines of `lastans`: caller and called class. -/
  lines : List (Str × Str) := []

/-- What a line of `lastans` says. -/
def callText (line : Str × Str) : Str := line.1 ++ "  called  ".toList ++ line.2

/-- A line of `lastans`. -/
def callLine (line : Str × Str) : Str := callText line ++ "\n".toList

/-- The two records of one call. -/
def noteCall (classname typeofname : Str) (isMember : Bool) (s : RelationState) :
    Option RelationState := do
  let s :=
    { s with
      lastans := s.lastans ++ callLine (classname, typeofname)
      lines := s.lines ++ [(classname, typeofname)] }
  if classname ≠ typeofname then do
    let calledrelation ← addRelation s.calledrelation typeofname
      { name := classname, count := 1, bIsmemberVar := isMember }
    some { s with calledrelation := calledrelation }
  else some s

/-! ### Arguments of method calls -/

/-- The number of arguments that there is room for. -/
def maxArguments : ℕ := 20

/-- A call of a method, as it is written after the symbol. -/
structure MethodCall where
  funcname : Str
  funcPara : ℕ → Str
  douCnt : ℕ

/-- One character between the parentheses. A comma belongs to the argument before it. -/
def addArgumentChar (s : (ℕ → Str) × ℕ) (c : Char) : Option ((ℕ → Str) × ℕ) :=
  if s.2 < maxArguments then
    some (Function.update s.1 s.2 (s.1 s.2 ++ [c]), if c = ',' then s.2 + 1 else s.2)
  else none

/-- What follows the symbol at `pos`: a method call, if the name is followed by a parenthesis. -/
def methodCall (symbol methodbody : Str) (pos : ℕ) : Option (Option MethodCall) := do
  let (funcname, c) ← nameAfter methodbody (pos + symbol.length)
  if c = '(' then do
    let posStart ← CString.find "(".toList methodbody pos
    let arguments :=
      match CString.find ")".toList methodbody pos with
      | some posEnd => (methodbody.take posEnd).drop (posStart + 1)
      | none => []
    let (funcPara, douCnt) ← arguments.foldlM addArgumentChar (fun _ ↦ [], 0)
    some (some { funcname := funcname, funcPara := funcPara, douCnt := douCnt })
  else some none

/-- The first method of the class with this name and number of arguments, in any source file. -/
def findMethod (head : List CReadCpp) (typeofname : Str) (call : MethodCall) :
    Option CMethodBody :=
  head.findSome? fun p ↦ (p.cppclass.find? typeofname).bind fun methods ↦
    methods.find? fun m ↦ m.funcline == call.funcname && m.paraCnt == call.douCnt + 1

/-- Note that the object `valuename` calls the objects that are passed for the parameters which the
method calls. -/
def noteObjects (head : List CReadCpp) (typeofname valuename : Str) (call : MethodCall)
    (objectrelation : CalledRelation) : Option CalledRelation :=
  match findMethod head typeofname call with
  | none => some objectrelation
  | some m =>
    m.CallParemeter.foldlM (fun objectrelation k ↦
      if 0 ≤ k - 1 ∧ k - 1 < (maxArguments : ℤ) then
        addRelation objectrelation (call.funcPara (k - 1).toNat) { name := valuename }
      else none) objectrelation

/-! ### The symbols of a method body -/

/-- One header of the last loop: if it defines the class, a call is noted. -/
def noteHeader (tables : SymbolTables) (classname valuename typeofname : Str) (isMember : Bool)
    (call : Option MethodCall) (s : RelationState × CalledRelation) (h : Str × CReadH) :
    Option (RelationState × CalledRelation) :=
  match h.2.classdef.find? typeofname with
  | none => some s
  | some _ => do
    let relations ← noteCall classname typeofname isMember s.1
    let objectrelation ← call.elim (some s.2) fun call ↦
      noteObjects tables.head typeofname valuename call s.2
    some (relations, objectrelation)

/-- One occurrence of the symbol. -/
def noteSymbol (fuel : ℕ) (tables : SymbolTables) (symbol methodbody classname : Str)
    (p : CReadCpp) (pos : ℕ) (s : RelationState × CalledRelation) :
    Option (RelationState × CalledRelation) := do
  let valuename ← nameBefore methodbody pos
  let call ← methodCall symbol methodbody pos
  if valuename ≠ [] then do
    let (typeofname, isMember) ← typeOf tables valuename fuel methodbody classname p pos
    if typeofname ≠ [] then
      let typeofname := (tables.mapForTypeDef.find? typeofname).getD typeofname
      tables.hmap.entries.foldlM
        (noteHeader tables classname valuename typeofname isMember call) s
    else some s
  else some s

/-- One round of `findsymbol`. -/
def symbolRound (fuel : ℕ) (tables : SymbolTables) (symbol methodbody classname : Str)
    (p : CReadCpp) (s : Option ℕ × RelationState × CalledRelation) :
    (Option ℕ × RelationState × CalledRelation) ⊕ Option RelationState :=
  match s.1 with
  | none => Sum.inr (some s.2.1)
  | some pos =>
    match noteSymbol fuel tables symbol methodbody classname p pos s.2 with
    | none => Sum.inr none
    | some t => Sum.inl (CString.find symbol methodbody (pos + symbol.length), t)

/-- A call of `findsymbol`. -/
structure SymbolCall where
  symbol : Str
  methodbody : Str
  classname : Str
  p : CReadCpp

/-- `findsymbol`. The relation of the objects is local and not used. -/
def findsymbol (fuel : ℕ) (tables : SymbolTables) (s : RelationState) (call : SymbolCall) :
    Option RelationState :=
  (Loop.run (symbolRound fuel tables call.symbol call.methodbody call.classname call.p) fuel
    (CString.find call.symbol call.methodbody 0, s, ∅)).join

/-- The calls that `doParsing` makes. -/
def parsingCalls (head : List CReadCpp) : List SymbolCall :=
  head.flatMap fun p ↦ p.cppclass.entries.flatMap fun e ↦ e.2.flatMap fun q ↦
    [⟨"->".toList, q.body, e.1, p⟩, ⟨".".toList, q.body, e.1, p⟩]

/-- Some calls, one after another. -/
def findsymbols (fuel : ℕ) (tables : SymbolTables) (calls : List SymbolCall) (s : RelationState) :
    Option RelationState :=
  calls.foldlM (findsymbol fuel tables) s

/-! ### Counting callers -/

/-- The count of a caller in a list, `0` if it is not there. -/
def countOf (name : Str) (l : List CalledClass) : ℕ :=
  ((l.find? (·.name = name)).map CalledClass.count).getD 0

/-- The count stored for a caller of a class. -/
def storedCount (r : CalledRelation) (called caller : Str) : ℕ :=
  countOf caller ((r.find? called).getD [])

theorem countOf_cons (name : Str) (c : CalledClass) (l : List CalledClass) :
    countOf name (c :: l) = if c.name = name then c.count else countOf name l := by
  rw [countOf, List.find?_cons]
  rcases eq_or_ne c.name name with h | h
  · simp [h]
  · simp [h, countOf]

section Callers

variable {new : CalledClass} {l : List CalledClass}

theorem countOf_addCaller (hcount : new.count = 1) (name : Str) :
    countOf name (addCaller new l) = countOf name l + if name = new.name then 1 else 0 := by
  induction l with
  | nil =>
    rw [addCaller, countOf_cons, hcount]
    rcases eq_or_ne new.name name with h | h
    · rw [if_pos h, if_pos h.symm]
      rfl
    · rw [if_neg h, if_neg (Ne.symm h), Nat.add_zero]
  | cons c l ih =>
    rw [addCaller]
    rcases eq_or_ne c.name new.name with hc | hc
    · rw [if_pos hc, countOf_cons, countOf_cons]
      show (if c.name = name then c.count + 1 else _) = _
      rcases eq_or_ne c.name name with h | h
      · rw [if_pos h, if_pos h, if_pos (h.symm.trans hc)]
      · rw [if_neg h, if_neg h, if_neg fun e ↦ h (hc.trans e.symm), Nat.add_zero]
    · rw [if_neg hc, countOf_cons, countOf_cons, ih]
      rcases eq_or_ne c.name name with h | h
      · rw [if_pos h, if_pos h, if_neg fun e ↦ hc (h.trans e), Nat.add_zero]
      · rw [if_neg h, if_neg h]

/-- The names in the list: a new one comes last. -/
theorem map_name_addCaller : (addCaller new l).map CalledClass.name =
    FirstSeen.push (l.map CalledClass.name) new.name := by
  induction l with
  | nil => rfl
  | cons c l ih =>
    rw [addCaller, FirstSeen.push]
    rcases eq_or_ne c.name new.name with hc | hc
    · rw [if_pos hc, if_pos (by simp [hc])]
      rfl
    · rw [if_neg hc, List.map_cons, ih, FirstSeen.push]
      by_cases hmem : new.name ∈ l.map CalledClass.name
      · rw [if_pos hmem, if_pos (by rw [List.map_cons]; exact List.mem_cons_of_mem _ hmem)]
        rfl
      · rw [if_neg hmem, if_neg]
        · rfl
        · rw [List.map_cons, List.mem_cons, not_or]
          exact ⟨fun e ↦ hc e.symm, hmem⟩

theorem addCaller_ne_nil : addCaller new l ≠ [] := by
  cases l with
  | nil => exact List.cons_ne_nil _ _
  | cons c l =>
    rw [addCaller]
    split_ifs <;> exact List.cons_ne_nil _ _

end Callers

section Relation

variable {r r' : CalledRelation} {key : Str} {new : CalledClass}

/-- **What noting a call does**: the list of the called class, empty if there is none, has one more
call, and no other list changes. -/
theorem find?_addRelation (h : addRelation r key new = some r') (T : Str) :
    r'.find? T = if T = key then some (addCaller new ((r.find? key).getD [])) else r.find? T := by
  rw [addRelation] at h
  cases hfind : r.find? key with
  | none =>
    simp only [hfind, Option.some_inj] at h
    rw [← h, OrdMap.find?_insert]
    split_ifs with hT
    · rw [hfind]
      rfl
    · rfl
  | some l =>
    rcases l with - | ⟨c, l⟩
    · simp [hfind] at h
    · simp only [hfind, Option.some_inj] at h
      rw [← h, OrdMap.find?_modify]
      split_ifs with hT
      · rw [hT, hfind]
        rfl
      · rfl

theorem storedCount_addRelation (h : addRelation r key new = some r') (hcount : new.count = 1)
    (T X : Str) : storedCount r' T X =
      storedCount r T X + if T = key ∧ X = new.name then 1 else 0 := by
  rw [storedCount, storedCount, find?_addRelation h]
  rcases eq_or_ne T key with hT | hT
  · rw [if_pos hT, Option.getD_some, countOf_addCaller hcount, hT]
    simp
  · rw [if_neg hT]
    simp [hT]

theorem CalledRelation.Proper.addRelation (hr : r.Proper) (h : addRelation r key new = some r')
    (hne : key ≠ new.name) : r'.Proper := by
  rintro ⟨T, l⟩ he
  have hl := OrdMap.mem_entries_iff.1 he
  rw [find?_addRelation h] at hl
  split_ifs at hl with hT
  · obtain rfl := Option.some.inj hl
    -- the list before the call, or the empty one
    have hold : (((r.find? key).getD []).map CalledClass.name).Nodup ∧
        key ∉ ((r.find? key).getD []).map CalledClass.name := by
      cases hfind : r.find? key with
      | none => simp
      | some l => exact (hr (key, l) (OrdMap.mem_entries_iff.2 hfind)).2
    refine ⟨addCaller_ne_nil, ?_, ?_⟩
    · rw [map_name_addCaller]
      exact FirstSeen.nodup_push hold.1
    · rw [map_name_addCaller, FirstSeen.mem_push, hT, not_or]
      exact ⟨hold.2, hne⟩
  · exact hr (T, l) (OrdMap.mem_entries_iff.2 hl)

end Relation

/-! ### The two records agree -/

/-- The text consists of the lines, the relation counts them, and all its keys are classes that some
header defines. -/
structure Agrees (tables : SymbolTables) (s : RelationState) : Prop where
  lastans_eq : s.lastans = s.lines.flatMap callLine
  count_eq : ∀ X T, X ≠ T → s.lines.count (X, T) = storedCount s.calledrelation T X
  proper : s.calledrelation.Proper
  defined : ∀ e ∈ s.calledrelation.entries,
    ∃ h ∈ tables.hmap.entries, (h.2.classdef.find? e.1).isSome

section Agrees

variable {tables : SymbolTables} {s s' : RelationState} {fuel : ℕ}

theorem agrees_empty (tables : SymbolTables) : Agrees tables {} :=
  ⟨rfl, fun _ _ _ ↦ rfl, by simp [CalledRelation.Proper], by simp⟩

/-- **Noting a call** of a class that some header defines. -/
theorem Agrees.noteCall (h : Agrees tables s) {classname typeofname : Str} {isMember : Bool}
    (hdefined : ∃ h ∈ tables.hmap.entries, (h.2.classdef.find? typeofname).isSome)
    (hnote : noteCall classname typeofname isMember s = some s') : Agrees tables s' := by
  have hlines : ∀ X T, (s.lines ++ [(classname, typeofname)]).count (X, T) =
      s.lines.count (X, T) + if T = typeofname ∧ X = classname then 1 else 0 := by
    intro X T
    rw [List.count_append, List.count_singleton]
    congr 1
    refine if_congr ?_ rfl rfl
    rw [beq_iff_eq, Prod.mk.injEq]
    exact ⟨fun h ↦ ⟨h.2.symm, h.1.symm⟩, fun h ↦ ⟨h.2.symm, h.1.symm⟩⟩
  have htext : s.lastans ++ callLine (classname, typeofname) =
      (s.lines ++ [(classname, typeofname)]).flatMap callLine := by
    rw [h.lastans_eq, List.flatMap_append, List.flatMap_singleton]
  rw [CArchitecture.noteCall] at hnote
  by_cases hself : classname ≠ typeofname
  · simp only [if_pos hself] at hnote
    obtain ⟨r, hr, hs'⟩ := Option.bind_eq_some_iff.1 hnote
    obtain rfl := Option.some.inj hs'
    -- both records grow by one for this caller and class
    refine ⟨htext, fun X T hne ↦ ?_, h.proper.addRelation hr hself.symm, ?_⟩
    · show (s.lines ++ [(classname, typeofname)]).count (X, T) = storedCount r T X
      rw [hlines, h.count_eq X T hne, storedCount_addRelation hr rfl]
    · rintro ⟨T, l⟩ he
      have hl := OrdMap.mem_entries_iff.1 he
      rw [find?_addRelation hr] at hl
      split_ifs at hl with hT
      · exact hT ▸ hdefined
      · exact h.defined (T, l) (OrdMap.mem_entries_iff.2 hl)
  · -- a class that calls itself gets a line, but no entry
    simp only [if_neg hself] at hnote
    obtain rfl := Option.some.inj hnote
    refine ⟨htext, fun X T hne ↦ ?_, h.proper, h.defined⟩
    show (s.lines ++ [(classname, typeofname)]).count (X, T) = _
    rw [hlines, h.count_eq X T hne, if_neg, Nat.add_zero]
    rintro ⟨hT, hX⟩
    exact hne (hX.trans ((not_not.1 hself).trans hT.symm))

/-- One occurrence of the symbol: whatever it refers to, calls are noted only for headers that
define the class. -/
theorem Agrees.noteSymbol {symbol methodbody classname : Str} {p : CReadCpp} {pos : ℕ}
    {t t' : RelationState × CalledRelation} (h : Agrees tables t.1)
    (hnote : noteSymbol fuel tables symbol methodbody classname p pos t = some t') :
    Agrees tables t'.1 := by
  rw [CArchitecture.noteSymbol] at hnote
  obtain ⟨valuename, -, hnote⟩ := Option.bind_eq_some_iff.1 hnote
  obtain ⟨call, -, hnote⟩ := Option.bind_eq_some_iff.1 hnote
  split_ifs at hnote with hname
  swap
  · exact Option.some.inj hnote ▸ h
  obtain ⟨⟨typeofname, isMember⟩, -, hnote⟩ := Option.bind_eq_some_iff.1 hnote
  simp only at hnote
  split_ifs at hnote with htype
  swap
  · exact Option.some.inj hnote ▸ h
  -- a class may be defined in several headers, and then the call is noted for each of them
  refine Loop.foldlM_invariant (fun u : RelationState × CalledRelation ↦ Agrees tables u.1)
    (fun u header hheader u' hu hround ↦ ?_) h hnote
  rw [noteHeader] at hround
  cases hdef : header.2.classdef.find?
      ((tables.mapForTypeDef.find? typeofname).getD typeofname) with
  | none =>
    simp only [hdef] at hround
    exact Option.some.inj hround ▸ hu
  | some c =>
    simp only [hdef] at hround
    obtain ⟨relations, hrelations, hround⟩ := Option.bind_eq_some_iff.1 hround
    obtain ⟨objectrelation, -, hround⟩ := Option.bind_eq_some_iff.1 hround
    obtain rfl := Option.some.inj hround
    exact hu.noteCall ⟨header, hheader, by rw [hdef]; rfl⟩ hrelations

/-- **A call of `findsymbol`** that returns. -/
theorem Agrees.findsymbol (h : Agrees tables s) {call : SymbolCall}
    (hcall : findsymbol fuel tables s call = some s') : Agrees tables s' := by
  refine Loop.join_run_invariant
    (fun t : Option ℕ × RelationState × CalledRelation ↦ Agrees tables t.2.1) (Agrees tables) ?_ ?_
    h hcall
  · rintro ⟨- | pos, t⟩ u ht hround
    · simp [symbolRound] at hround
    · cases hnote : CArchitecture.noteSymbol fuel tables call.symbol call.methodbody call.classname
        call.p pos t with
      | none => simp [symbolRound, hnote] at hround
      | some t' =>
        simp only [symbolRound, hnote, Sum.inl.injEq] at hround
        exact hround ▸ ht.noteSymbol hnote
  · rintro ⟨- | pos, t⟩ t' ht hround
    · obtain rfl := Option.some.inj (Sum.inr.inj hround)
      exact ht
    · cases hnote : CArchitecture.noteSymbol fuel tables call.symbol call.methodbody call.classname
        call.p pos t with
      | none => simp [symbolRound, hnote] at hround
      | some t' => simp [symbolRound, hnote] at hround

/-- **Calls of `findsymbol`**, one after another. -/
theorem Agrees.findsymbols (h : Agrees tables s) {calls : List SymbolCall}
    (hcalls : findsymbols fuel tables calls s = some s') : Agrees tables s' :=
  Loop.foldlM_invariant (Agrees tables) (fun _ _ _ _ ht hcall ↦ ht.findsymbol hcall) h hcalls

end Agrees

/-- **The text and the relation say the same**, after any calls of `findsymbol` that return: for
two different classes there are as many lines as the relation counts. The relation is proper, and
only classes from the headers are called. -/
theorem findsymbols_agree {fuel : ℕ} {tables : SymbolTables} {calls : List SymbolCall}
    {s : RelationState} (h : findsymbols fuel tables calls {} = some s) :
    s.lastans = s.lines.flatMap callLine ∧
      (∀ X T, X ≠ T → s.lines.count (X, T) = storedCount s.calledrelation T X) ∧
      s.calledrelation.Proper ∧
      ∀ e ∈ s.calledrelation.entries,
        ∃ h ∈ tables.hmap.entries, (h.2.classdef.find? e.1).isSome := by
  have hagrees := (agrees_empty tables).findsymbols h
  exact ⟨hagrees.lastans_eq, hagrees.count_eq, hagrees.proper, hagrees.defined⟩

/-- The header of a class `B`. -/
def sampleCalled : CReadH :=
  ⟨[], [], (∅ : OrdMap Str CClassContent).insert "B".toList ⟨"\x7b int x; \x7d".toList⟩⟩

/-- The header of a class `A` with a member of type `B`. -/
def sampleCaller : CReadH :=
  ⟨[], ["B.h".toList],
    (∅ : OrdMap Str CClassContent).insert "A".toList ⟨"\x7b B *b; int x; \x7d".toList⟩⟩

/-- A method of `A` that calls the member twice and a local variable once. -/
def sampleMethod : CMethodBody :=
  ⟨" A::f() \x7b b->g(x); B l; l.h(1,2); b->g(y); \x7d".toList, "f".toList, 1, []⟩

def sampleCpp : CReadCpp :=
  ⟨[], ["dir/A.h".toList],
    (∅ : OrdMap Str (List CMethodBody)).insert "A".toList [sampleMethod]⟩

def sampleTables : SymbolTables :=
  ⟨((∅ : OrdMap Str CReadH).insert "A.h".toList sampleCaller).insert "B.h".toList sampleCalled, ∅,
    [sampleCpp]⟩

theorem findsymbols_agree_sampleTables :
    ∃ s, findsymbols 20 sampleTables (parsingCalls sampleTables.head) {} = some s ∧
      storedCount s.calledrelation "B".toList "A".toList = 3 ∧
      s.lines.count ("A".toList, "B".toList) = 3 := by
  have hcount : ((findsymbols 20 sampleTables (parsingCalls sampleTables.head) {}).map fun s ↦
      storedCount s.calledrelation "B".toList "A".toList) = some 3 := by decide +kernel
  obtain ⟨s, hs, hthree⟩ := Option.map_eq_some_iff.1 hcount
  refine ⟨s, hs, hthree, ?_⟩
  rw [(findsymbols_agree hs).2.1 _ _ (by decide), hthree]

end CArchitecture
