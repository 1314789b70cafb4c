import CArchitecture.ReadCpp
import CArchitecture.ReadH

/-!
# The two readers on the same file, and on the same class

A header and a source file are read by code that was copied and then changed. This file compares the
two readers.

* **When both return** (`readers_return_iff`): which loops run off which end of a text.
* **What a class is called** (`readers_agree_iff`). The reader of headers stores a class under the
  letters and digits of its name, the reader of source files under the letters, digits and
  underscores before the *first* `::` of the line, and the type of a variable is again made of
  letters, digits and underscores. So a name with an underscore is cut off in the header only, and a
  qualified return type takes the place of the class.
-/

namespace CArchitecture

/-! ### When the readers return -/

/-- **When both readers return.** Every `::` that the search takes up has a line end behind it, and
if its line is a definition it is not the first one (unless no body follows, and there is a blank
before the class); the includes before the end of the first body are closed before it; no class is
cut off; and the includes before the first class are closed before it. -/
theorem readers_return_iff (content : Str) :
    (readCpp content).isSome ∧ (readH content).isSome ↔
      (∀ pos ∈ visits content, CanVisit content pos) ∧ headfilesRead content ∧
      (∀ pos, classText <+: content.drop pos → ClassComplete content pos) ∧
      IncludesClosed (content.take ((firstClass content).elim 0 (· + 1))) := by
  rw [isSome_readCpp_iff, isSome_readH_iff, and_assoc]

/-- A method in the first line: the search for the line start goes on before the text. -/
theorem readers_return_firstLine :
    ¬ ∀ content : Str, (readCpp content).isSome ∧ (readH content).isSome := by
  intro h
  exact absurd (h "int A::f()\n\x7b\n\x7d\n".toList).1 (by decide +kernel)

/-! ### What a class is called -/

/-- A C++ identifier. -/
structure IsIdentifier (X : Str) : Prop where
  nameChars : ∀ c ∈ X, isNameChar c
  head : ∃ c, X.head? = some c ∧ c.isDigit = false

instance (X : Str) : Decidable (IsIdentifier X) :=
  decidable_of_iff ((∀ c ∈ X, isNameChar c) ∧ X.head?.any (fun c ↦ c.isDigit = false) = true) <| by
    rw [Option.any_eq_true]
    exact ⟨fun h ↦ ⟨h.1, h.2.imp fun c hc ↦ ⟨hc.1, by simpa using hc.2⟩⟩,
      fun h ↦ ⟨h.nameChars, h.head.imp fun c hc ↦ ⟨hc.1, by simpa using hc.2⟩⟩⟩

theorem IsIdentifier.ne_nil {X : Str} (h : IsIdentifier X) : X ≠ [] := by
  rintro rfl
  obtain ⟨c, hc, -⟩ := h.head
  exact absurd hc (by simp)

theorem IsIdentifier.notMem {X : Str} (h : IsIdentifier X) {c : Char} (hc : isNameChar c = false) :
    c ∉ X := fun hmem ↦ by
  rw [h.nameChars c hmem] at hc
  exact Bool.false_ne_true hc.symm

/-- Position `l` is the start of a line, after the text `pre`. -/
def StartsLine (pre : Str) (l : ℕ) : Prop := pre.length = l ∧ (pre = [] ∨ ∃ p, pre = p ++ ['\n'])

/-- A definition `class X … {…}` starts the line at `l`. -/
def DefinesClass (header : Str) (l : ℕ) (X : Str) : Prop :=
  ∃ pre blanks c after, header = pre ++ ("class ".toList ++ blanks ++ X ++ c :: after) ∧
    StartsLine pre l ∧ (∀ b ∈ blanks, isBlank b) ∧ isNameChar c = false ∧ c ≠ ';' ∧
    '\x7b' ∈ c :: after

/-- The type that a method returns, and the blank after it. -/
structure IsReturnType (R : Str) : Prop where
  oneLine : '\n' ∉ R
  head : ∃ c, R.head? = some c ∧ isBlank c = false
  blank : ∃ R' b, R = R' ++ [b] ∧ isBlank b = true

/-- A definition `R X::m(…)` is the line at `l`, and some body follows. -/
def DefinesMethod (source : Str) (l : ℕ) (R X : Str) : Prop :=
  ∃ pre tail rest, source = pre ++ (R ++ X ++ "::".toList ++ (tail ++ rest)) ∧
    StartsLine pre l ∧ '\n' ∉ tail ∧ tail.getLast? ≠ some ';' ∧
    (rest = [] ∨ ∃ r, rest = '\n' :: r) ∧
    '\x7b' ∈ tail ++ rest

/-- A variable of type `X` is declared before position `i`. -/
def DeclaresVariable (text : Str) (i : ℕ) (X : Str) : Prop :=
  ∃ p c stars rest, text = p ++ c :: (X ++ stars ++ rest) ∧ i = (p ++ c :: (X ++ stars)).length ∧
    isNameChar c = false ∧ ∀ d ∈ stars, d = '*' ∨ d = ' ' ∨ d = '\t'

/-- The search for `::` from `s` on comes to the line at `l`. -/
def ComesTo (source : Str) (s l : ℕ) : Prop :=
  s ≤ l ∧ ∀ q, s ≤ q → q < l → ¬ "::".toList <+: source.drop q

/-- `getclass` stores the class in line `l` under a key. -/
def StoresClass (header : Str) (l : ℕ) (key : Str) : Prop :=
  ∃ pos ∈ CString.occurrences classText header, pos + 1 = l ∧ ∀ s, ∃ p,
    getclassRound header s pos = some
      { classposition := s.classposition.or (some pos)
        classdef := s.classdef.insert key p }

/-- `findclasses`, called for the position `s`, stores a method under a key. -/
def StoresMethod (source : Str) (s : ℕ) (key : Str) : Prop :=
  ∀ classes, ∃ k m, findclasses s source classes = some (some k,
    { classposition := some k
      cppclass := addMethod classes.cppclass key m })

/-- The type that `findtype` reads from the declaration of a variable at position `i`. -/
def declaredType (text : Str) (i : ℕ) : Option Str := do
  let k ← skipBack text i
  typeBefore text k []

/-- The name at the end of a text, as `findclasses` reads it. -/
def lastName (t : Str) : Str :=
  ((t.rdropWhile isBlank).rtakeWhile fun c ↦ ¬ (isBlank c ∨ c = '\n')).takeWhile isNameChar

section Variable

variable {X : Str}

/-- A type is read back to the character before it. -/
theorem typeBefore_append {p : Str} {c : Char} (hc : isNameChar c = false)
    (hX : ∀ d ∈ X, isNameChar d) (rest acc : Str) :
    typeBefore (p ++ c :: (X ++ rest)) (p.length + 1 + X.length) acc = some (X ++ acc) := by
  induction X using List.reverseRecOn generalizing rest acc with
  | nil =>
    rw [List.length_nil, Nat.add_zero, typeBefore]
    simp [hc]
  | append_singleton X x ih =>
    have hx : isNameChar x = true := hX x (by simp)
    have hget : (p ++ c :: (X ++ [x] ++ rest))[p.length + 1 + X.length]? = some x := by
      have hsplit : p ++ c :: (X ++ [x] ++ rest) = p ++ c :: X ++ x :: rest := by simp
      have hlen : p.length + 1 + X.length = (p ++ c :: X).length := by simp; omega
      rw [hsplit, hlen, List.getElem?_append_right le_rfl, Nat.sub_self]
      rfl
    have hlen : p.length + 1 + (X ++ [x]).length = p.length + 1 + X.length + 1 := by simp; omega
    rw [hlen, typeBefore, hget, Option.bind_eq_bind, Option.bind_some, if_pos hx, if_neg (by omega)]
    have hstep := ih (fun d hd ↦ hX d (by simp [hd])) (x :: rest) (x :: acc)
    rw [List.append_assoc X [x] rest, List.append_assoc X [x] acc]
    exact hstep

/-- A type at the very beginning of the text counts as none. -/
theorem typeBefore_eq_nil {s : Str} {k : ℕ} (hpos : 0 < k) (hk : k ≤ s.length)
    (hname : ∀ c ∈ s.take k, isNameChar c) (acc : Str) : typeBefore s k acc = some [] := by
  induction k generalizing acc with
  | zero => omega
  | succ k ih =>
    have hlt : k < s.length := hk
    rw [← List.take_append_getElem hlt] at hname
    rw [typeBefore, List.getElem?_eq_getElem hlt, Option.bind_eq_bind, Option.bind_some,
      if_pos (hname _ (List.mem_append_right _ (List.mem_singleton_self _)))]
    split_ifs with hzero
    · rfl
    · exact ih (by omega) hlt.le (fun c hc ↦ hname c (List.mem_append_left _ hc)) _

/-- The walk back over stars and blanks ends behind the type. -/
theorem skipBack_append (hX : IsIdentifier X) {stars : Str}
    (hstars : ∀ d ∈ stars, d = '*' ∨ d = ' ' ∨ d = '\t') (p rest : Str) :
    skipBack (p ++ (X ++ (stars ++ rest))) (p.length + X.length + stars.length) =
      some (p.length + X.length) := by
  obtain ⟨X', x, rfl⟩ := List.eq_nil_or_concat X |>.resolve_left hX.ne_nil
  rw [List.concat_eq_append] at *
  have hx : isNameChar x = true := hX.nameChars x (by simp)
  have hgo : (x == '*' || x == ' ' || x == '\t') = false := by
    by_contra hno
    rw [Bool.not_eq_false, Bool.or_eq_true, Bool.or_eq_true, beq_iff_eq, beq_iff_eq,
      beq_iff_eq] at hno
    rcases hno with (rfl | rfl) | rfl <;> exact absurd hx (by decide)
  have hnil : stars.rdropWhile (fun c ↦ c == '*' || c == ' ' || c == '\t') = [] :=
    List.rdropWhile_eq_nil_iff.2 fun d hd ↦ by
      rcases hstars d hd with rfl | rfl | rfl <;> rfl
  have hback := CString.back_append (f := fun c ↦ c == '*' || c == ' ' || c == '\t') (c := x) hgo
    (p ++ X') stars rest
  have hlen : (p ++ X').length + 1 = p.length + (X' ++ [x]).length := by
    simp
    omega
  have htext : p ++ X' ++ x :: (stars ++ rest) = p ++ (X' ++ [x] ++ (stars ++ rest)) := by simp
  rw [hnil, hlen, htext] at hback
  rw [skipBack_eq_back, hback]
  rfl

/-- **The type of a variable is the whole name.** -/
theorem declaredType_eq (hX : IsIdentifier X) {text : Str} {i : ℕ}
    (h : DeclaresVariable text i X) : declaredType text i = some X := by
  obtain ⟨p, c, stars, rest, rfl, rfl, hc, hstars⟩ := h
  have hskip := skipBack_append hX hstars (p ++ [c]) rest
  have htype := typeBefore_append hc hX.nameChars (stars ++ rest) [] (p := p)
  have htext : p ++ c :: (X ++ stars ++ rest) = p ++ [c] ++ (X ++ (stars ++ rest)) := by simp
  have htext' : p ++ [c] ++ (X ++ (stars ++ rest)) = p ++ c :: (X ++ (stars ++ rest)) := by simp
  have hlen : (p ++ c :: (X ++ stars)).length = (p ++ [c]).length + X.length + stars.length := by
    simp
    omega
  rw [List.append_nil] at htype
  rw [declaredType, hlen, htext, hskip, Option.bind_eq_bind, Option.bind_some, htext',
    List.length_append, List.length_singleton, htype]

end Variable

section Header

variable {X header key : Str} {l : ℕ}

/-- The part of a name that the reader of headers sees is all of it exactly if there is no
underscore in it. -/
theorem takeWhile_isAlnum_eq_iff (hX : IsIdentifier X) :
    X.takeWhile isAlnum = X ↔ '_' ∉ X := by
  rw [List.takeWhile_eq_self_iff]
  constructor
  · exact fun h hmem ↦ absurd (h '_' hmem) (by decide)
  · intro h c hc
    have hname := hX.nameChars c hc
    rw [isNameChar_eq, Bool.or_eq_true, beq_iff_eq] at hname
    exact hname.resolve_right fun heq ↦ h (heq ▸ hc)

/-- What comes after the word `class` in a definition. -/
theorem drop_and_afterClass_eq (hX : IsIdentifier X) {p blanks after : Str} {c : Char}
    (hheader : header = p ++ '\n' :: ("class ".toList ++ blanks ++ X ++ c :: after))
    (hblanks : ∀ b ∈ blanks, isBlank b) :
    header.drop (p.length + 6) = ' ' :: (blanks ++ (X ++ c :: after)) ∧
      afterClass header p.length = X ++ c :: after := by
  have hdrop : header.drop (p.length + 6) = ' ' :: (blanks ++ (X ++ c :: after)) := by
    rw [hheader, List.drop_length_add_append]
    simp
  refine ⟨hdrop, ?_⟩
  obtain ⟨x, hx, -⟩ := hX.head
  have hxname : isNameChar x = true := hX.nameChars x (List.mem_of_mem_head? hx)
  rw [afterClass, hdrop, List.dropWhile_cons_of_pos (by decide),
    List.dropWhile_append_of_pos hblanks]
  obtain ⟨X', rfl⟩ : ∃ X', X = x :: X' := ⟨X.tail, List.eq_cons_of_mem_head? hx⟩
  refine List.dropWhile_cons_of_neg fun hblank ↦ ?_
  rw [isBlank, Bool.or_eq_true, beq_iff_eq, beq_iff_eq] at hblank
  rcases hblank with rfl | rfl <;> exact absurd hxname (by decide)

/-- The letters and digits that an identifier starts with, and what comes after them: an underscore,
or whatever comes after the identifier. -/
theorem alnumPrefix_append (hX : IsIdentifier X) {after : Str} {c : Char}
    (hc : isNameChar c = false) (hsemi : c ≠ ';') :
    (X ++ c :: after).takeWhile isAlnum = X.takeWhile isAlnum ∧
      ∃ d, ((X ++ c :: after).dropWhile isAlnum).head? = some d ∧ d ≠ ';' := by
  have halnum : isAlnum c = false := by
    rw [isNameChar_eq, Bool.or_eq_false_iff] at hc
    exact hc.1
  constructor
  · rw [List.takeWhile_append]
    split_ifs with hlen
    · rw [List.takeWhile_cons_of_neg (by simp [halnum]), List.append_nil]
      exact ((List.takeWhile_prefix isAlnum).eq_of_length hlen).symm
    · rfl
  · rw [List.dropWhile_append]
    split_ifs with hnil
    · exact ⟨c, by rw [List.dropWhile_cons_of_neg (by simp [halnum])]; rfl, hsemi⟩
    · rw [List.isEmpty_iff] at hnil
      obtain ⟨d, rest, hd⟩ := List.exists_cons_of_ne_nil hnil
      refine ⟨d, by rw [hd]; rfl, ?_⟩
      rintro rfl
      have hmem : ';' ∈ X := (List.dropWhile_suffix isAlnum).subset (hd ▸ List.mem_cons_self)
      exact absurd (hX.nameChars _ hmem) (by decide)

/-- What the reader of headers does with a definition. -/
theorem getclassRound_eq (hX : IsIdentifier X) {p blanks after : Str} {c : Char}
    (hheader : header = p ++ '\n' :: ("class ".toList ++ blanks ++ X ++ c :: after))
    (hblanks : ∀ b ∈ blanks, isBlank b) (hc : isNameChar c = false) (hsemi : c ≠ ';')
    (hbody : '\x7b' ∈ c :: after) :
    ∃ q : HeaderClass, ∀ s,
      getclassRound header s p.length = some (if X.takeWhile isAlnum = [] then s
      else { classposition := s.classposition.or (some p.length)
             classdef := s.classdef.insert (X.takeWhile isAlnum) q }) := by
  obtain ⟨hdrop, hafter⟩ := drop_and_afterClass_eq hX hheader hblanks
  obtain ⟨htake, d, hd, hne⟩ := alnumPrefix_append hX hc hsemi
  have hname : getclassname p.length header = some (X.takeWhile isAlnum) := by
    rw [getclassname_eq, hafter, hd, Option.map_some, if_neg hne, htake]
  have hfather : (getfatherclassname p.length header).isSome := by
    rw [isSome_getfatherclassname_iff, hdrop]
    exact ⟨'\x7b', by simp [List.mem_cons.1 hbody], Or.inl rfl⟩
  obtain ⟨f, hf⟩ := Option.isSome_iff_exists.1 hfather
  refine ⟨{ defbody := getclassbody p.length header, fatherclass := f }, fun s ↦ ?_⟩
  rw [getclassRound, hname, Option.bind_eq_bind, Option.bind_some]
  rcases eq_or_ne (X.takeWhile isAlnum) [] with hempty | hempty
  · rw [if_neg (not_not.2 hempty), if_pos hempty]
  · rw [if_pos hempty, if_neg hempty, hf, Option.bind_some]

/-- An entry of a map with one entry tells its key. -/
theorem eq_of_insert_eq {V : Type*} {k k' : Str} {v v' : V}
    (h : (∅ : OrdMap Str V).insert k v = (∅ : OrdMap Str V).insert k' v') : k = k' := by
  have hentries := congrArg OrdMap.entries h
  exact (Prod.mk.inj (List.singleton_injective hentries)).1

/-- **Where the reader of headers stores a class**: under the part of its name before an underscore,
if there is one. -/
theorem storesClass_iff (hX : IsIdentifier X) (h : DefinesClass header l X) :
    StoresClass header l X ↔ l ≠ 0 ∧ '_' ∉ X := by
  obtain ⟨pre, blanks, c, after, hheader, ⟨rfl, hline⟩, hblanks, hc, hsemi, hbody⟩ := h
  rcases hline with rfl | ⟨p, rfl⟩
  · -- nothing in the first line is looked at
    refine iff_of_false ?_ fun h ↦ h.1 rfl
    rintro ⟨pos, -, hl, -⟩
    simp at hl
  have hheader' : header = p ++ '\n' :: ("class ".toList ++ blanks ++ X ++ c :: after) := by
    rw [hheader, List.append_assoc]
    rfl
  obtain ⟨q, hq⟩ := getclassRound_eq hX hheader' hblanks hc hsemi hbody
  rw [← takeWhile_isAlnum_eq_iff hX]
  constructor
  · rintro ⟨pos, hpos, hl, hround⟩
    refine ⟨by omega, ?_⟩
    rw [List.length_append, List.length_singleton, Nat.add_right_cancel_iff] at hl
    subst hl
    obtain ⟨q', hq'⟩ := hround {}
    rw [hq {}] at hq'
    split_ifs at hq' with hempty
    · have := congrArg (fun s ↦ s.classdef.entries) (Option.some.inj hq')
      exact absurd this (by simp [OrdMap.insert, OrdMap.insertIn])
    · exact eq_of_insert_eq (ClassState.mk.inj (Option.some.inj hq')).2
  · rintro ⟨-, hX'⟩
    have hne : X ≠ [] := fun h ↦ by simpa [h] using hX.head
    refine ⟨p.length, ?_, by simp, fun s ↦ ⟨q, ?_⟩⟩
    · refine (CString.mem_occurrences (by decide)).2 ⟨blanks ++ (X ++ c :: after), ?_⟩
      rw [hheader', List.drop_left]
      simp only [List.append_assoc]
      rfl
    · rw [hq s, hX', if_neg hne]

end Header

section Source

variable {X R source : Str} {l s : ℕ}

theorem lineStart_append {pre t : Str} (hpre : pre = [] ∨ ∃ p, pre = p ++ ['\n']) {n : ℕ}
    (hn : n ≤ t.length) (hline : '\n' ∉ t.take n) :
    lineStart (pre ++ t) (pre.length + n) = pre.length := by
  induction n with
  | zero =>
    rcases hpre with rfl | ⟨p, rfl⟩
    · rfl
    · have hlen : (p ++ ['\n']).length + 0 = p.length + 1 := by simp
      rw [hlen, lineStart, if_pos (by simp)]
      simp
  | succ n ih =>
    have hget : (pre ++ t)[pre.length + n]? = some t[n] := by
      rw [List.getElem?_append_right (by omega), Nat.add_sub_cancel_left,
        List.getElem?_eq_getElem (by omega)]
    rw [← Nat.add_assoc, lineStart, hget, if_neg]
    · exact ih (by omega) fun h ↦ hline (List.take_subset_take_left t (Nat.le_succ n) h)
    · intro heq
      refine hline ?_
      rw [← Option.some.inj heq, List.mem_take_iff_getElem]
      exact ⟨n, by omega, rfl⟩

/-- The class is the name before the `::`. -/
theorem classBefore_append (p t rest : Str) :
    classBefore (p ++ '\n' :: (t ++ rest)) (p.length + 1 + t.length) = some (lastName t) := by
  set u := t.rdropWhile isBlank with hu
  obtain ⟨v, hv⟩ : ∃ v, t = u ++ v := (List.rdropWhile_prefix isBlank t).imp fun _ h ↦ h.symm
  set w := u.rdropWhile fun c ↦ ¬ (isBlank c ∨ c = '\n') with hw
  have hword : w ++ u.rtakeWhile (fun c ↦ ¬ (isBlank c ∨ c = '\n')) = u :=
    List.rdropWhile_append_rtakeWhile
  have hend := CString.back_append (f := isBlank) (c := '\n') (by decide) p t rest
  have hstart :=
    CString.back_append (f := fun c ↦ ¬ (isBlank c ∨ c = '\n')) (c := '\n') (by decide) p u
    (v ++ rest)
  rw [← hu] at hend
  rw [← hw, ← List.append_assoc, ← hv] at hstart
  rw [classBefore, hend, Option.bind_eq_bind, Option.bind_some, hstart, Option.bind_some, lastName,
    ← hu, Option.some.injEq, CString.substr]
  congr 1
  have hdrop : (p ++ '\n' :: (t ++ rest)).drop (p.length + 1 + w.length) =
      u.rtakeWhile (fun c ↦ ¬ (isBlank c ∨ c = '\n')) ++ (v ++ rest) := by
    rw [Nat.add_assoc, List.drop_length_add_append, Nat.add_comm 1, List.drop_succ_cons, hv,
      List.append_assoc]
    nth_rewrite 1 [← hword]
    rw [List.append_assoc, List.drop_left]
  have hlen : p.length + 1 + u.length - (p.length + 1 + w.length) =
      (u.rtakeWhile fun c ↦ ¬ (isBlank c ∨ c = '\n')).length := by
    have := congrArg List.length hword
    rw [List.length_append] at this
    omega
  rw [hdrop, hlen, List.take_left]

/-- The name at the end of a line `R X`. -/
theorem lastName_append (hX : IsIdentifier X) (hR : IsReturnType R) : lastName (R ++ X) = X := by
  obtain ⟨R', b, rfl, hb⟩ := hR.blank
  have hblank : ∀ c ∈ X, isBlank c = false ∧ c ≠ '\n' := by
    intro c hc
    have hname := hX.nameChars c hc
    constructor
    · exact isBlank_eq_false_of_isNameChar hname
    · rintro rfl
      exact absurd hname (by decide)
  have hne : X ≠ [] := fun h ↦ by simpa [h] using hX.head
  have hdrop : (R' ++ [b] ++ X).rdropWhile isBlank = R' ++ [b] ++ X := by
    rw [List.rdropWhile_eq_self_iff]
    intro h
    rw [List.getLast_append_of_ne_nil _ hne, (hblank _ (List.getLast_mem hne)).1]
    exact Bool.false_ne_true
  have htake : (R' ++ [b] ++ X).rtakeWhile (fun c ↦ ¬ (isBlank c ∨ c = '\n')) = X := by
    rw [List.rtakeWhile, List.reverse_append, List.reverse_append, List.reverse_singleton,
      List.singleton_append, List.takeWhile_append_of_pos,
      List.takeWhile_cons_of_neg (by simp [hb]),
      List.append_nil, List.reverse_reverse]
    intro c hc
    have := hblank c (List.mem_reverse.1 hc)
    simp [this]
  rw [lastName, hdrop, htake]
  exact List.takeWhile_eq_self_iff.2 hX.nameChars

/-- What stands before the first `::` of a line `R X::`. -/
def beforeColons (R X : Str) : Str :=
  (R ++ X).take ((CString.find "::".toList R 0).getD (R ++ X).length)

/-- The first `::` of the line is in the return type, or after the class. -/
theorem find_colons (hX : IsIdentifier X) (hR : IsReturnType R) :
    CString.find "::".toList (R ++ X ++ "::".toList) 0 = some (beforeColons R X).length := by
  have hne : "::".toList ≠ [] := by decide
  cases hfind : CString.find "::".toList R 0 with
  | some q =>
    have hle := CString.add_length_le_of_find hfind hne
    have happ := CString.find_append (a := []) (c := X ++ "::".toList) hne (Nat.zero_le _)
      (fun p _ hp ↦ absurd hp (Nat.not_lt_zero p)) hfind
    rw [List.nil_append, List.length_nil, Nat.zero_add, ← List.append_assoc] at happ
    rw [happ, beforeColons, hfind, Option.getD_some, List.length_take, List.length_append,
      Nat.min_eq_left (by omega)]
  | none =>
    rw [beforeColons, hfind, Option.getD_none, List.take_length]
    refine CString.find_eq_some_of_forall hne (Nat.zero_le _) ?_ fun p _ hp hpre ↦ ?_
    · rw [List.drop_left]
    · have hcolon : (R ++ X ++ "::".toList)[p]? = some ':' := CString.getElem?_of_isPrefix hpre
      rw [List.getElem?_append_left hp] at hcolon
      rcases Nat.lt_or_ge p R.length with hpR | hpR
      · rw [List.getElem?_append_left hpR] at hcolon
        obtain ⟨R', b, rfl, hb⟩ := hR.blank
        rcases Nat.eq_or_lt_of_le (Nat.le_of_lt_succ (by simpa using hpR)) with rfl | hlt
        · -- the last character of the return type is a blank
          rw [List.getElem?_append_right le_rfl, Nat.sub_self] at hcolon
          rw [Option.some.inj hcolon] at hb
          exact absurd hb (by decide)
        · refine (CString.find_eq_none_iff hne).1 hfind p (Nat.zero_le p) ?_
          rw [List.append_assoc, List.drop_append_of_le_length hpR.le] at hpre
          refine List.prefix_of_prefix_length_le hpre (List.prefix_append _ _) ?_
          rw [List.length_drop, List.length_append, List.length_singleton]
          exact (by omega : 2 ≤ R'.length + 1 - p)
      · rw [List.getElem?_append_right hpR] at hcolon
        exact absurd (hX.nameChars _ (List.mem_of_getElem? hcolon)) (by decide)

/-- The line of a method is taken for a definition, if it has an end. -/
theorem isDefinition_line (hR : '\n' ∉ R) (hhead : ∃ c, R.head? = some c ∧ isBlank c = false)
    (hX : '\n' ∉ X) {pre tail r : Str}
    (hpre : pre = [] ∨ ∃ p, pre = p ++ ['\n']) (htail : '\n' ∉ tail)
    (hsemi : tail.getLast? ≠ some ';') {q : ℕ} (hq : q ≤ (R ++ X).length) :
    isDefinition (pre ++ (R ++ X ++ "::".toList ++ (tail ++ '\n' :: r))) (pre.length + q) =
      some true := by
  set line := R ++ X ++ "::".toList ++ tail with hline
  have hcontent : pre ++ (R ++ X ++ "::".toList ++ (tail ++ '\n' :: r)) =
      pre ++ line ++ '\n' :: r := by
    rw [hline]
    simp only [List.append_assoc]
  have hno : '\n' ∉ line := by
    rw [hline]
    simp [hR, hX, htail]
  have hlen : (R ++ X).length + 2 ≤ line.length := by
    have hcolons : "::".toList.length = 2 := rfl
    simp only [hline, List.length_append, hcolons]
    omega
  have hend : lineEnd (pre ++ line ++ '\n' :: r) (pre.length + q + 2) =
      some (pre ++ line).length := by
    refine CString.scan_append (by rw [List.length_append]; omega) (fun d hd ↦ ?_) (by decide)
    rw [Nat.add_assoc, List.drop_length_add_append] at hd
    refine beq_eq_false_iff_ne.2 ?_
    rintro rfl
    exact hno (List.mem_of_mem_drop hd)
  have hlast : (pre ++ line ++ '\n' :: r)[(pre ++ line).length - 1]? ≠ some ';' := by
    rw [List.getElem?_append_left (by rw [List.length_append]; omega), ← List.getLast?_eq_getElem?,
      hline, List.getLast?_append, List.getLast?_append]
    cases htl : tail.getLast? with
    | none => simp
    | some c => simpa [htl] using hsemi
  have hstart : lineStart (pre ++ line ++ '\n' :: r) (pre.length + q) = pre.length := by
    rw [List.append_assoc]
    refine lineStart_append hpre (by rw [List.length_append]; omega) fun h ↦ ?_
    rw [List.take_append_of_le_length (by omega)] at h
    exact hno (List.mem_of_mem_take h)
  have hfirst : (pre ++ line ++ '\n' :: r)[pre.length]? = R.head? := by
    obtain ⟨c, hc, -⟩ := hhead
    rw [List.append_assoc, List.getElem?_append_right le_rfl, Nat.sub_self,
      ← List.head?_eq_getElem?,
      hline]
    simp [hc]
  obtain ⟨c, hc, hblank⟩ := hhead
  rw [hcontent, isDefinition]
  show (lineEnd (pre ++ line ++ '\n' :: r) (pre.length + q + 2)).bind _ = _
  rw [hend, Option.bind_some, if_neg hlast, hstart, hfirst, hc]
  simp [hblank]

/-- Where the reader cannot take up the `::` it comes to, it stores nothing. -/
theorem not_storesMethod {s pos : ℕ} {key : Str}
    (hfind : CString.find "::".toList source s = some pos) (hno : ¬ CanVisit source pos) :
    ¬ StoresMethod source s key := by
  intro h
  obtain ⟨k, m, hcall⟩ := h {}
  rw [findclasses_eq_none {} hfind hno] at hcall
  exact absurd hcall (by simp)

/-- **Where the reader of source files stores a method**: under the name before the first `::` of
the line, if that is neither the first line nor without an end. -/
theorem storesMethod_iff (hX : IsIdentifier X) (hR : IsReturnType R)
    (h : DefinesMethod source l R X) (hs : ComesTo source s l) :
    StoresMethod source s X ↔
      l ≠ 0 ∧ '\n' ∈ source.drop l ∧ lastName (beforeColons R X) = X := by
  obtain ⟨pre, tail, rest, rfl, ⟨rfl, hpre⟩, htail, hsemi, hrest, hbody⟩ := h
  have hXline : '\n' ∉ X := fun h ↦ absurd (hX.nameChars _ h) (by decide)
  set q := (beforeColons R X).length with hq
  have hqle : q ≤ (R ++ X).length := by
    rw [hq, beforeColons]
    exact List.length_take_le' _ _
  have hfind := CString.find_append (by decide) hs.1 hs.2 (find_colons hX hR)
  rw [← hq] at hfind
  rcases hrest with rfl | ⟨r, rfl⟩
  · -- the walk to the line end leaves the text
    have hno : '\n' ∉ R ++ X ++ "::".toList ++ (tail ++ []) := by
      simp [hR.oneLine, hXline, htail]
    refine iff_of_false (not_storesMethod hfind fun hok ↦ hno ?_) fun h ↦ hno (by simpa using h.2.1)
    have hend := hok.1
    rw [Nat.add_assoc, List.drop_length_add_append] at hend
    exact List.mem_of_mem_drop hend
  have hdef := isDefinition_line (r := r) hR.oneLine hR.head hXline hpre htail hsemi hqle
  have hdrop : ∀ n ≤ (R ++ X).length + 2,
      (pre ++ (R ++ X ++ "::".toList ++ (tail ++ '\n' :: r))).drop (pre.length + n) =
        (R ++ X ++ "::".toList).drop n ++ (tail ++ '\n' :: r) := by
    intro n hn
    rw [List.drop_length_add_append, List.drop_append_of_le_length]
    rw [List.length_append]
    exact hn
  have hbrace : '\x7b' ∈
      (pre ++ (R ++ X ++ "::".toList ++ (tail ++ '\n' :: r))).drop (pre.length + q) := by
    rw [hdrop q (by omega)]
    exact List.mem_append_right _ hbody
  have hnewline :
      '\n' ∈ (pre ++ (R ++ X ++ "::".toList ++ (tail ++ '\n' :: r))).drop pre.length := by
    rw [List.drop_left]
    simp
  have htake : (pre ++ (R ++ X ++ "::".toList ++ (tail ++ '\n' :: r))).take (pre.length + q) =
      pre ++ beforeColons R X := by
    rw [List.take_length_add_append, List.append_assoc (R ++ X), List.take_append_of_le_length hqle,
      hq, beforeColons, List.length_take, ← List.take_eq_take_min]
  rcases hpre with rfl | ⟨p, rfl⟩
  · -- the walk to the line start leaves the text
    refine iff_of_false (not_storesMethod hfind fun hok ↦ ?_) fun h ↦ h.1 rfl
    rcases hok.2 hdef with hmem | hmem
    · rw [htake, List.nil_append, beforeColons] at hmem
      rcases List.mem_append.1 (List.mem_of_mem_take hmem) with hmem | hmem
      · exact hR.oneLine hmem
      · exact hXline hmem
    · exact hmem.1 hbrace
  · obtain ⟨b, hb⟩ := Option.ne_none_iff_exists'.1
      (fun h ↦ find_brace_eq_none_iff.1 h hbrace : CString.find "\x7b".toList _ _ ≠ none)
    have hname : classBefore (p ++ ['\n'] ++ (R ++ X ++ "::".toList ++ (tail ++ '\n' :: r)))
        ((p ++ ['\n']).length + q) = some (lastName (beforeColons R X)) := by
      obtain ⟨u, hu⟩ : beforeColons R X <+: R ++ X := List.take_prefix _ _
      have hclass :=
        classBefore_append p (beforeColons R X) (u ++ ("::".toList ++ (tail ++ '\n' :: r)))
      rw [← List.append_assoc, hu, ← List.append_assoc] at hclass
      rw [← hclass, List.append_assoc p, List.length_append, List.length_singleton]
      rfl
    obtain ⟨m, hm⟩ := findclasses_eq_of_body hfind hdef hname hb (by rw [htake]; simp)
    constructor
    · intro h
      obtain ⟨k, m', hcall⟩ := h {}
      rw [hm {}] at hcall
      have hkeys := (CppClasses.mk.inj (Prod.mk.inj (Option.some.inj hcall)).2).2
      exact ⟨by simp, hnewline, eq_of_insert_eq hkeys⟩
    · rintro ⟨-, -, hlast⟩ classes
      exact ⟨_, m, by rw [hm classes, hlast]⟩

/-- The name before the first `::` is the class, unless there is another name before a `::` in the
return type. -/
theorem lastName_beforeColons_iff (hX : IsIdentifier X) (hR : IsReturnType R) :
    lastName (beforeColons R X) = X ↔
      ∀ q, CString.find "::".toList R 0 = some q → lastName (R.take q) = X := by
  rw [beforeColons]
  cases hfind : CString.find "::".toList R 0 with
  | none =>
    rw [Option.getD_none, List.take_length]
    exact iff_of_true (lastName_append hX hR) fun q hq ↦ absurd hq (by simp)
  | some q =>
    have hle := CString.add_length_le_of_find hfind (by decide)
    rw [Option.getD_some, List.take_append_of_le_length (by omega)]
    constructor
    · rintro h q' hq'
      rw [← Option.some.inj hq']
      exact h
    · exact fun h ↦ h q rfl

end Source

/-- **When the two readers agree on a class**, and with the types of its variables: if its name has
no underscore, its definition is not in the first line of the header, the method is not in the first
line of the source file nor in a last line without an end, and the first `::` of the line, if it is
in the return type, has the same class before it. -/
theorem readers_agree_iff {X R header source : Str} {l l' s : ℕ} (hX : IsIdentifier X)
    (hR : IsReturnType R) (hclass : DefinesClass header l X) (hmethod : DefinesMethod source l' R X)
    (hs : ComesTo source s l') :
    (∃ key, StoresClass header l key ∧ StoresMethod source s key ∧
        ∀ text i, DeclaresVariable text i X → declaredType text i = some key) ↔
      '_' ∉ X ∧ l ≠ 0 ∧ l' ≠ 0 ∧ '\n' ∈ source.drop l' ∧
        ∀ q, CString.find "::".toList R 0 = some q → lastName (R.take q) = X := by
  rw [← lastName_beforeColons_iff hX hR]
  constructor
  · rintro ⟨key, hheader, hsource, htype⟩
    have hvariable : DeclaresVariable (' ' :: X) (' ' :: X).length X :=
      ⟨[], ' ', [], [], by simp, by simp, by decide, by simp⟩
    obtain rfl : X = key :=
      Option.some.inj ((declaredType_eq hX hvariable).symm.trans (htype _ _ hvariable))
    obtain ⟨hl, hunderscore⟩ := (storesClass_iff hX hclass).1 hheader
    exact ⟨hunderscore, hl, (storesMethod_iff hX hR hmethod hs).1 hsource⟩
  · rintro ⟨hunderscore, hl, hline⟩
    exact ⟨X, (storesClass_iff hX hclass).2 ⟨hl, hunderscore⟩,
      (storesMethod_iff hX hR hmethod hs).2 hline, fun text i h ↦ declaredType_eq hX h⟩

/-- A header that defines one class. -/
def sampleHeader (X : Str) : Str :=
  '\n' :: ("class ".toList ++ X ++ '\n' :: "\x7b\n\x7d;\n".toList)

/-- A source file that defines one method. -/
def sampleSource (R X : Str) : Str :=
  '\n' :: (R ++ X ++ "::".toList ++ ("f()".toList ++ "\n\x7b\n\x7d\n".toList))

theorem definesClass_sampleHeader (X : Str) : DefinesClass (sampleHeader X) 1 X := by
  refine ⟨['\n'], [], '\n', "\x7b\n\x7d;\n".toList, ?_, ⟨rfl, Or.inr ⟨[], rfl⟩⟩, by simp, by decide,
    by decide, by decide⟩
  rw [sampleHeader, List.append_nil, List.singleton_append]

theorem definesMethod_sampleSource (R X : Str) : DefinesMethod (sampleSource R X) 1 R X := by
  refine ⟨['\n'], "f()".toList, "\n\x7b\n\x7d\n".toList, ?_, ⟨rfl, Or.inr ⟨[], rfl⟩⟩, by decide,
    by decide, Or.inr ⟨"\x7b\n\x7d\n".toList, rfl⟩, by decide⟩
  rw [sampleSource, List.singleton_append]

theorem comesTo_sampleSource (R X : Str) : ComesTo (sampleSource R X) 1 1 :=
  ⟨le_rfl, fun q hq hlt ↦ absurd hlt (by omega)⟩

/-- A name that both readers see alike. -/
theorem readers_agree_iff_graph :
    ∃ key, StoresClass (sampleHeader "Graph".toList) 1 key ∧
      StoresMethod (sampleSource "int ".toList "Graph".toList) 1 key ∧
      ∀ text i, DeclaresVariable text i "Graph".toList → declaredType text i = some key := by
  have hcolons : CString.find "::".toList "int ".toList 0 = none := by decide +kernel
  have hR : IsReturnType "int ".toList :=
    ⟨by decide, ⟨'i', rfl, by decide⟩, "int".toList, ' ', rfl, rfl⟩
  exact (readers_agree_iff ⟨List.all_eq_true.1 (by decide), 'G', rfl, by decide⟩ hR
    (definesClass_sampleHeader _)
    (definesMethod_sampleSource _ _) (comesTo_sampleSource _ _)).2
    ⟨by decide, by decide, by decide, by decide,
      fun q hq ↦ absurd (hcolons.symm.trans hq) (Option.some_ne_none q).symm⟩

/-- A class with an underscore in its name is stored under `My` by one reader and under `My_Class`
by the other. -/
theorem readers_agree_underscore :
    ¬ ∀ X R header source l l' s, IsIdentifier X → IsReturnType R → DefinesClass header l X →
      DefinesMethod source l' R X → ComesTo source s l' →
      ∃ key, StoresClass header l key ∧ StoresMethod source s key ∧
        ∀ text i, DeclaresVariable text i X → declaredType text i = some key := by
  intro h
  have hX : IsIdentifier "My_Class".toList := ⟨List.all_eq_true.1 (by decide), 'M', rfl, by decide⟩
  have hR : IsReturnType "int ".toList :=
    ⟨by decide, ⟨'i', rfl, by decide⟩, "int".toList, ' ', rfl, rfl⟩
  obtain ⟨key, hclass, -, htype⟩ := h _ _ _ _ _ _ _ hX hR (definesClass_sampleHeader _)
    (definesMethod_sampleSource _ _) (comesTo_sampleSource _ _)
  have hvariable : DeclaresVariable " My_Class".toList 9 "My_Class".toList :=
    ⟨[], ' ', [], [], rfl, rfl, by decide, by simp⟩
  have hkey := (declaredType_eq hX hvariable).symm.trans (htype _ _ hvariable)
  rw [← Option.some.inj hkey] at hclass
  exact ((storesClass_iff hX (definesClass_sampleHeader _)).1 hclass).2 (by decide)

end CArchitecture
