/-! JSON values and the rules by which typed values are read from them. Whole
numbers are kept apart from numbers with a fraction or an exponent, which no
type reads. A record is written as an object and read from an object, or from
an array that gives the values of its fields in their declared order. -/

namespace DragonCurve

/-- A JSON value. -/
inductive Json where
  | null
  | bool (b : Bool)
  | int (n : Int)
  /-- A number with a fraction or an exponent, by its text. -/
  | decimal (text : String)
  | str (s : String)
  | arr (items : List Json)
  | obj (fields : List (String × Json))

namespace Json

/-- The number of values that fit `bits` bits. -/
def span (bits : Nat) : Nat := Nat.pow 2 bits

/-- A whole number that fits `bits` bits. -/
def nat? (bits : Nat) : Json → Option Nat
  | int n => if 0 ≤ n ∧ n < span bits then some n.toNat else none
  | _ => none

/-- A whole number that fits `bits` bits in two's complement. -/
def int? (bits : Nat) : Json → Option Int
  | int n => if -span (bits - 1) ≤ n ∧ n < span (bits - 1) then some n else none
  | _ => none

def bool? : Json → Option Bool
  | bool b => some b
  | _ => none

def list? {α : Type} (item : Json → Option α) : Json → Option (List α)
  | arr items => items.mapM item
  | _ => none

/-- Nothing for `null`, otherwise what `read` makes of the value. -/
def nullable? {α : Type} (read : Json → Option α) : Json → Option (Option α)
  | null => some none
  | j => (read j).map some

def ofOption {α : Type} (write : α → Json) : Option α → Json
  | none => null
  | some a => write a

/-- A record is written as the object of its named values. -/
def record (names : List String) (values : List Json) : Json := obj (names.zip values)

/-- The named values of a record. An array names its items by `names`, in
order; it may hold no more items than names and no fewer than `least`. -/
def record? (names : List String) (least : Nat) : Json → Option (List (String × Json))
  | obj fields => some fields
  | arr items =>
    if least ≤ items.length ∧ items.length ≤ names.length then some (names.zip items) else none
  | _ => none

@[simp] theorem record?_record (names : List String) (values : List Json) (ns : List String)
    (least : Nat) : (record names values).record? ns least = some (names.zip values) := rfl

@[simp] theorem bool?_bool (b : Bool) : bool? (bool b) = some b := rfl

theorem nat?_int {bits n : Nat} (h : n < span bits) : nat? bits (int n) = some n := by
  have h : (n : Int) < span bits := by exact_mod_cast h
  simp [nat?, h]

theorem int?_int {bits : Nat} {n : Int} (lower : -span (bits - 1) ≤ n) (upper : n < span (bits - 1)) :
    int? bits (int n) = some n := by
  simp [int?, lower, upper]

end Json

/-- The value of a field that has to be there. -/
def required? {α : Type} (fields : List (String × Json)) (name : String)
    (read : Json → Option α) : Option α :=
  (fields.lookup name).bind read

/-- The value of a field, or `absent` where the record does not name it. -/
def optional? {α : Type} (fields : List (String × Json)) (name : String)
    (read : Json → Option α) (absent : α) : Option α :=
  match fields.lookup name with
  | none => some absent
  | some j => read j

end DragonCurve
