import CArchitecture.DeclaredTypes
import CArchitecture.PrintedSource
import CArchitecture.PrintedHeader

/-!
# Programs and their calls

What the readers and `findsymbol` are for, said of programs instead of texts. A program consists of
classes with members, and of methods whose bodies declare variables and call methods of the objects
that their variables point to. Which class calls which one (`Program.calls`) follows from the types
of the variables: of what is in scope, the parameters and the variables declared so far, and else of
the members of the class.

A program is printed as headers and source files, and this is where the code starts from. It does
not know scopes, only texts; that it comes to the same is shown in the modules after this one, for
programs in which variables are named apart from everything else (`Method.WellFormed`) and none is
declared after its name was used (`Scoped`).
-/

namespace CArchitecture

/-! ### Programs -/

/-- A variable that points to an object of a class. -/
structure Variable where
  type : Str
  name : Str

/-- The statements that matter: declarations, and calls `v->f(…)`. -/
inductive Stmt
  | declare (d : Variable)
  | call (v f : Str) (args : List Str)

/-- A method, with the class that it belongs to. -/
structure Method where
  returnType : Str
  classname : Str
  methodName : Str
  params : List Variable
  body : List Stmt

/-- The definition of a class. -/
structure ClassDecl where
  name : Str
  bases : List Str
  members : List Variable

/-- A header, in its directory. -/
structure HeaderUnit where
  dir : Str
  name : Str
  classes : List ClassDecl

/-- A source file, and the headers that it includes. -/
structure SourceUnit where
  fileName : Str
  includes : List Str
  methods : List Method

/-- A program. -/
structure Program where
  headers : List HeaderUnit
  sources : List SourceUnit

/-- Under a name, so that the definitions below share it. -/
local instance instLawfulBEqStr : LawfulBEq Str := inferInstance

/-! ### Calls -/

/-- The type of a variable in a scope, where the first declaration counts. -/
def typeIn (scope : List Variable) (v : Str) : Option Str :=
  (scope.find? (·.name = v)).map Variable.type

theorem typeIn_append (a b : List Variable) (v : Str) :
    typeIn (a ++ b) v = (typeIn a v).or (typeIn b v) := by
  rw [typeIn, List.find?_append]
  cases h : a.find? (·.name = v) <;> simp [typeIn, h]

theorem typeIn_eq_none_iff {scope : List Variable} {v : Str} :
    typeIn scope v = none ↔ ∀ d ∈ scope, d.name ≠ v := by
  simp [typeIn]

/-- The classes of the objects that are called, call by call. The members are looked up behind what
is in scope. -/
def calledTypes (members : List Variable) : List Variable → List Stmt → List Str
  | _, [] => []
  | scope, .declare d :: l => calledTypes members (scope ++ [d]) l
  | scope, .call v _ _ :: l => (typeIn (scope ++ members) v).toList ++ calledTypes members scope l

namespace Program

variable (P : Program)

/-- All classes, header by header. -/
def classes : List ClassDecl := P.headers.flatMap HeaderUnit.classes

/-- The members of a class. -/
def membersOf (classname : Str) : List Variable :=
  ((P.classes.find? (·.name = classname)).map ClassDecl.members).getD []

/-- The calls in a method: its class, and the class of the object that is called, as far as the
program defines it. -/
def callsIn (m : Method) : List (Str × Str) :=
  ((calledTypes (P.membersOf m.classname) m.params m.body).filter
    (· ∈ P.classes.map ClassDecl.name)).map (m.classname, ·)

/-- **The calls of a program.** -/
def calls : List (Str × Str) := P.sources.flatMap fun s ↦ s.methods.flatMap P.callsIn

end Program

/-! ### Well-formed programs -/

namespace Stmt

/-- The variables that a statement mentions. -/
def varNames : Stmt → List Str
  | declare d => [d.name]
  | call v _ args => v :: args

/-- The other names in a statement. -/
def otherNames : Stmt → List Str
  | declare d => [d.type]
  | call _ f _ => [f]

/-- The arguments of a call. -/
def args : Stmt → List Str
  | declare _ => []
  | call _ _ args => args

end Stmt

/-- No variable is declared after its name was used, and what is used is declared, or is a
member. -/
def Scoped (members : List Variable) : List Variable → List Str → List Stmt → Prop
  | _, _, [] => True
  | scope, used, .declare d :: l =>
    d.name ∉ used ∧ Scoped members (scope ++ [d]) (d.name :: used) l
  | scope, used, .call v _ args :: l =>
    (typeIn (scope ++ members) v).isSome ∧ Scoped members scope (v :: args ++ used) l

instance (members : List Variable) : (scope : List Variable) → (used : List Str) →
    (l : List Stmt) → Decidable (Scoped members scope used l)
  | _, _, [] => inferInstanceAs (Decidable True)
  | scope, used, .declare d :: l =>
    have := instDecidableScoped members (scope ++ [d]) (d.name :: used) l
    inferInstanceAs (Decidable (_ ∧ Scoped members (scope ++ [d]) (d.name :: used) l))
  | scope, used, .call v _ args :: l =>
    have := instDecidableScoped members scope (v :: args ++ used) l
    inferInstanceAs (Decidable (_ ∧ Scoped members scope (v :: args ++ used) l))

namespace Method

/-- The variables of a method. -/
def varNames (m : Method) : List Str := m.params.map Variable.name ++ m.body.flatMap Stmt.varNames

/-- The other names in a method. -/
def otherNames (m : Method) : List Str :=
  m.returnType :: m.classname :: m.methodName ::
    (m.params.map Variable.type ++ m.body.flatMap Stmt.otherNames)

/-- Names are names, those of variables are no others, and there is room for the arguments. -/
structure WellFormed (m : Method) : Prop where
  identifiers : ∀ x ∈ m.otherNames ++ m.varNames, IsIdentifier x
  apart : ∀ v ∈ m.varNames, v ∉ m.otherNames
  params_le : m.params.length ≤ maxArguments
  args_le : ∀ s ∈ m.body, s.args.length ≤ maxArguments

instance (m : Method) : Decidable m.WellFormed :=
  decidable_of_iff ((∀ x ∈ m.otherNames ++ m.varNames, IsIdentifier x) ∧
      (∀ v ∈ m.varNames, v ∉ m.otherNames) ∧ m.params.length ≤ maxArguments ∧
      ∀ s ∈ m.body, s.args.length ≤ maxArguments)
    ⟨fun h ↦ ⟨h.1, h.2.1, h.2.2.1, h.2.2.2⟩,
      fun h ↦ ⟨h.identifiers, h.apart, h.params_le, h.args_le⟩⟩

end Method

namespace ClassDecl

/-- The other names in the definition of a class. -/
def otherNames (c : ClassDecl) : List Str :=
  "class".toList :: "public".toList :: c.name :: (c.bases ++ c.members.map Variable.type)

/-- Names are names, and those of members are no others. -/
structure WellFormed (c : ClassDecl) : Prop where
  name : IsWord c.name
  bases : ∀ B ∈ c.bases, IsWord B
  types : ∀ d ∈ c.members, IsIdentifier d.type
  names : ∀ d ∈ c.members, IsIdentifier d.name ∧ d.name ∉ c.otherNames

instance (c : ClassDecl) : Decidable c.WellFormed :=
  decidable_of_iff (IsWord c.name ∧ (∀ B ∈ c.bases, IsWord B) ∧
      (∀ d ∈ c.members, IsIdentifier d.type) ∧
      ∀ d ∈ c.members, IsIdentifier d.name ∧ d.name ∉ c.otherNames)
    ⟨fun h ↦ ⟨h.1, h.2.1, h.2.2.1, h.2.2.2⟩, fun h ↦ ⟨h.name, h.bases, h.types, h.names⟩⟩

end ClassDecl

/-- The name of a header, without its directory. -/
def IsFileName (n : Str) : Prop := ∀ c ∈ n, isNameChar c ∨ c = '.'

instance (n : Str) : Decidable (IsFileName n) := inferInstanceAs (Decidable (∀ c ∈ n, _))

/-- What is printed can be read: names are names, no two headers and no two classes have the same
one, methods are well scoped, and a file with a method of a class includes the header of the
class. -/
structure Program.WellFormed (P : Program) : Prop where
  headers : ∀ h ∈ P.headers, IsFileName h.name ∧ ∀ c ∈ h.classes, c.WellFormed
  headerNames : (P.headers.map HeaderUnit.name).Nodup
  classNames : (P.classes.map ClassDecl.name).Nodup
  includes : ∀ s ∈ P.sources, ∀ n ∈ s.includes, IsFileName n
  methods : ∀ s ∈ P.sources, ∀ m ∈ s.methods, m.WellFormed ∧
    Scoped (P.membersOf m.classname) m.params (m.params.map Variable.name) m.body
  own : ∀ s ∈ P.sources, ∀ m ∈ s.methods, ∀ h ∈ P.headers, ∀ c ∈ h.classes,
    c.name = m.classname → h.name ∈ s.includes

instance (P : Program) : Decidable P.WellFormed :=
  decidable_of_iff
    ((∀ h ∈ P.headers, IsFileName h.name ∧ ∀ c ∈ h.classes, c.WellFormed) ∧
      (P.headers.map HeaderUnit.name).Nodup ∧ (P.classes.map ClassDecl.name).Nodup ∧
      (∀ s ∈ P.sources, ∀ n ∈ s.includes, IsFileName n) ∧
      (∀ s ∈ P.sources, ∀ m ∈ s.methods, m.WellFormed ∧
        Scoped (P.membersOf m.classname) m.params (m.params.map Variable.name) m.body) ∧
      ∀ s ∈ P.sources, ∀ m ∈ s.methods, ∀ h ∈ P.headers, ∀ c ∈ h.classes,
        c.name = m.classname → h.name ∈ s.includes)
    ⟨fun h ↦ ⟨h.1, h.2.1, h.2.2.1, h.2.2.2.1, h.2.2.2.2.1, h.2.2.2.2.2⟩,
      fun h ↦ ⟨h.headers, h.headerNames, h.classNames, h.includes, h.methods, h.own⟩⟩

/-! ### Printing -/

/-- Some texts, with commas between them. -/
def commaList : List Str → Str
  | [] => []
  | x :: xs => x ++ xs.flatMap (", ".toList ++ ·)

/-- A declaration, without what ends it. -/
def Variable.text (d : Variable) : Str := d.type ++ (" *".toList ++ d.name)

/-- A statement, on a line of its own. -/
def Stmt.text : Stmt → Str
  | declare d => ' ' :: (d.text ++ ";\n".toList)
  | call v f args =>
    ' ' :: (v ++ ("->".toList ++ (f ++ ('(' :: (commaList args ++ ");\n".toList)))))

/-- The lines of a body. -/
def bodyText (l : List Stmt) : Str := l.flatMap Stmt.text

/-- The definition of a method. -/
def Method.methodText (m : Method) : MethodText where
  returnType := m.returnType
  sep := [' ']
  classname := m.classname
  methodName := m.methodName
  params := commaList (m.params.map Variable.text)
  body := '\n' :: bodyText m.body

/-- The definition of a class. Members are declared like variables. -/
def ClassDecl.item (c : ClassDecl) : HeaderItem :=
  .definition c.name c.bases [' '] ('\n' :: bodyText (c.members.map Stmt.declare))

/-- The line that includes a header. -/
def includeLine (n : Str) : Str := includeText ++ (n ++ ['"', '\n'])

namespace HeaderUnit

/-- The text of a header. -/
def text (h : HeaderUnit) : Str := printHeader (h.classes.map ClassDecl.item)

/-- The file of a header. -/
def file (h : HeaderUnit) : FileText := ⟨h.dir ++ '/' :: h.name, h.text⟩

end HeaderUnit

namespace SourceUnit

/-- The lines before the first method. -/
def preamble (s : SourceUnit) : Str := s.includes.flatMap includeLine ++ ['\n']

/-- The text of a source file. -/
def text (s : SourceUnit) : Str := printSource s.preamble (s.methods.map Method.methodText)

/-- The file of a source file. -/
def file (s : SourceUnit) : FileText := ⟨s.fileName, s.text⟩

end SourceUnit

end CArchitecture
