/-! Tables of names, known by their operations and the laws of these alone. Names are
numbered from zero in the order in which they are first interned, and a name keeps its
number. A table that is out of numbers, or of room for text, refuses a new name and is left
as it was. How a table finds its names is up to its instances. -/

namespace DragonCurve

universe u

/-- Why a new name is refused. -/
inductive Refusal where
  /-- The table is out of numbers. -/
  | tooManyNames
  /-- The table is out of room for text. -/
  | tooManyBytes
  deriving DecidableEq, Repr

def Refusal.message : Refusal → String
  | tooManyNames => "ID overflow"
  | tooManyBytes => "Interner heap overflow"

/-- The greatest number of names a table can hold. -/
def NameTable.maxNames : Nat := 65535

/-- The total size of names in UTF-8. -/
def NameTable.totalSize (names : List String) : Nat :=
  names.foldl (fun n name => n + name.utf8ByteSize) 0

@[simp] theorem NameTable.totalSize_nil : totalSize [] = 0 := rfl

theorem NameTable.totalSize_concat (names : List String) (name : String) :
    totalSize (names ++ [name]) = totalSize names + name.utf8ByteSize :=
  List.foldl_append

/-- Why a table with these names and this room for text refuses another name, if it does. -/
def NameTable.refusal? (names : List String) (maxBytes : Nat) (name : String) : Option Refusal :=
  if names.length = maxNames then some .tooManyNames
  else if maxBytes < totalSize names + name.utf8ByteSize then some .tooManyBytes
  else none

/-- A bounded table of names. -/
class NameTable (τ : Type u) where
  /-- The names in the order of their numbers. -/
  names : τ → List String
  /-- The total size of the names that may not be exceeded. -/
  maxBytes : τ → Nat
  /-- The name of a number. -/
  name? : τ → Nat → Option String
  /-- The number of a name. -/
  id? : τ → String → Option Nat
  /-- The number of a name, which is added to the table if it is new. -/
  intern : τ → String → τ × Except Refusal Nat
  /-- Numbers count from zero. -/
  name?_eq (t : τ) (id : Nat) : name? t id = (names t)[id]?
  /-- A name has the number that has this name, and no other. -/
  id?_eq_some_iff (t : τ) (name : String) (id : Nat) :
    id? t name = some id ↔ name? t id = some name
  /-- A known name keeps its number. -/
  intern_of_known {t : τ} {name : String} {id : Nat} (known : id? t name = some id) :
    intern t name = (t, .ok id)
  /-- A refused name leaves the table as it was. -/
  intern_of_refused {t : τ} {name : String} {r : Refusal} (absent : id? t name = none)
    (refused : NameTable.refusal? (names t) (maxBytes t) name = some r) :
    intern t name = (t, .error r)
  /-- Any other name goes behind all names that the table has. -/
  intern_of_room {t : τ} {name : String} (absent : id? t name = none)
    (room : NameTable.refusal? (names t) (maxBytes t) name = none) :
    ∃ u, intern t name = (u, .ok (names t).length) ∧ names u = names t ++ [name] ∧
      maxBytes u = maxBytes t

end DragonCurve
