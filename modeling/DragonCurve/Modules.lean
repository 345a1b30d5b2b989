import DragonCurve.Fault
import DragonCurve.Interner
import DragonCurve.Sequence

/-! Bounded lists of modules, known by their operations and the laws of these alone,
and kept as arrays. A module is a symbol given by its number in a table of names. A
sequence is turned into modules symbol by symbol: where a symbol first occurs its
name is interned and looked up, and its number is remembered for all later
occurrences. A failure keeps the names interned so far, so the name of a symbol that
finds the list full has been added to the table. Any table and any list will do. -/

namespace DragonCurve

universe u v

/-! ### Lists of modules -/

/-- The greatest number of modules a list can hold. -/
def ModuleList.capacity : Nat := 1000000

/-- A bounded list of modules. -/
class ModuleList (μ : Type v) where
  /-- The symbol numbers in the order of the modules. -/
  ids : μ → List Nat
  length : μ → Nat
  empty : μ
  /-- Appends a module where there is room. -/
  push? : μ → Nat → Option μ
  length_eq (m : μ) : length m = (ids m).length
  length_le (m : μ) : length m ≤ ModuleList.capacity
  ids_empty : ids empty = []
  /-- A full list takes no module. -/
  push?_of_full {m : μ} {id : Nat} (full : length m = ModuleList.capacity) : push? m id = none
  /-- A module goes behind all others. -/
  push?_of_room {m : μ} {id : Nat} (room : length m < ModuleList.capacity) :
    ∃ m', push? m id = some m' ∧ ids m' = ids m ++ [id]

/-- Appends modules one by one while there is room, and says whether there was
room for all of them. -/
def ModuleList.pushAll {μ : Type v} [ModuleList μ] (m : μ) : List Nat → μ × Bool
  | [] => (m, true)
  | id :: ids =>
    match push? m id with
    | some m' => pushAll m' ids
    | none => (m, false)

/-- A list of symbol numbers, kept as an array. -/
structure Modules where
  ids : Array Nat := #[]
  size_le : ids.size ≤ ModuleList.capacity := by simp

namespace Modules

def empty : Modules := {}

def length (m : Modules) : Nat := m.ids.size

/-- Appends a module where there is room. -/
def push? (m : Modules) (id : Nat) : Option Modules :=
  if room : m.ids.size < ModuleList.capacity then
    some ⟨m.ids.push id, by rw [Array.size_push]; exact room⟩
  else none

instance : ModuleList Modules where
  ids m := m.ids.toList
  length := length
  empty := empty
  push? := push?
  length_eq _ := Array.length_toList.symm
  length_le := size_le
  ids_empty := rfl
  push?_of_full full := dif_neg (Nat.not_lt.2 (Nat.le_of_eq full.symm))
  push?_of_room room := ⟨_, dif_pos room, Array.toList_push⟩

/-- Appends modules to an array while there is room. -/
def pushAll (m : Modules) (ids : List Nat) : Modules × Bool := ModuleList.pushAll m ids

end Modules

/-! ### Conversion -/

/-- Why a sequence has no modules. -/
inductive ConversionError where
  /-- The table refused the name of a symbol. -/
  | refused (r : Refusal)
  /-- The table has taken a name and does not know it. -/
  | missing (name : String)
  /-- The list of modules is full. -/
  | full
  deriving DecidableEq, Repr

namespace ConversionError

def detail : ConversionError → String
  | refused r => "\"" ++ r.message ++ "\""
  | missing name => "symbol \"" ++ name ++ "\" missing after intern"
  | full => "CapacityOverflow"

def fault (e : ConversionError) : Fault := .conversion e.detail

end ConversionError

section

variable {τ : Type u} [NameTable τ] {μ : Type v} [ModuleList μ]

/-- The number of a symbol, which is remembered or else interned and looked up. -/
def NameTable.number (s : Symbol) (t : τ) (known : Std.HashMap Symbol Nat) :
    τ × Except ConversionError (Nat × Std.HashMap Symbol Nat) :=
  match known[s]? with
  | some id => (t, .ok (id, known))
  | none =>
    let name := s.toChar.toString
    match intern t name with
    | (t, .error r) => (t, .error (.refused r))
    | (t, .ok _) =>
      match id? t name with
      | some id => (t, .ok (id, known.insert s id))
      | none => (t, .error (.missing name))

/-- Appends the modules of symbols, with the numbers remembered so far. -/
def ModuleList.ofSymbols : List Symbol → τ → Std.HashMap Symbol Nat → μ →
    τ × Except ConversionError μ
  | [], t, _, m => (t, .ok m)
  | s :: ss, t, known, m =>
    match NameTable.number s t known with
    | (t, .error e) => (t, .error e)
    | (t, .ok (id, known)) =>
      match push? m id with
      | some m => ofSymbols ss t known m
      | none => (t, .error .full)

/-- The modules of a sequence, and the table with its symbols. -/
def Sequence.toModules (s : Sequence) (t : τ) : τ × Except ConversionError μ :=
  ModuleList.ofSymbols s.symbols t ∅ ModuleList.empty

end

end DragonCurve
