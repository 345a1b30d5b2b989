/-! Points of the integer grid and the four headings. Headings are numbered
clockwise from north, and a quarter turn adds one or three modulo four. -/

namespace DragonCurve

/-- A point of the grid. -/
structure Point where
  x : Int
  y : Int
  deriving DecidableEq, Repr

namespace Point

def origin : Point := ⟨0, 0⟩

@[inline] instance : Add Point := ⟨fun p q => ⟨p.x + q.x, p.y + q.y⟩⟩

instance : Neg Point := ⟨fun p => ⟨-p.x, -p.y⟩⟩

instance : Sub Point := ⟨fun p q => ⟨p.x - q.x, p.y - q.y⟩⟩

@[simp] theorem x_add (p q : Point) : (p + q).x = p.x + q.x := rfl

@[simp] theorem y_add (p q : Point) : (p + q).y = p.y + q.y := rfl

@[simp] theorem x_neg (p : Point) : (-p).x = -p.x := rfl

@[simp] theorem y_neg (p : Point) : (-p).y = -p.y := rfl

@[simp] theorem x_sub (p q : Point) : (p - q).x = p.x - q.x := rfl

@[simp] theorem y_sub (p q : Point) : (p - q).y = p.y - q.y := rfl

/-- Both coordinates fit 32 bits in two's complement. -/
def InRange (p : Point) : Prop :=
  (-2147483648 ≤ p.x ∧ p.x ≤ 2147483647) ∧ (-2147483648 ≤ p.y ∧ p.y ≤ 2147483647)

@[inline] instance (p : Point) : Decidable p.InRange := by unfold InRange; infer_instance

end Point

/-- A compass heading. -/
inductive Heading where
  | north
  | east
  | south
  | west
  deriving DecidableEq, Repr

namespace Heading

/-- All headings, clockwise. -/
def all : List Heading := [north, east, south, west]

/-- The place of a heading in clockwise order. -/
def index : Heading → Nat
  | north => 0
  | east => 1
  | south => 2
  | west => 3

/-- The heading at `n`, counted round and round. -/
def ofIndex (n : Nat) : Heading :=
  match n % 4 with
  | 0 => north
  | 1 => east
  | 2 => south
  | _ => west

def turnLeft (h : Heading) : Heading := ofIndex (h.index + 3)

def turnRight (h : Heading) : Heading := ofIndex (h.index + 1)

/-- The unit step in the heading's direction. North is up. -/
@[inline] def vector : Heading → Point
  | north => ⟨0, 1⟩
  | east => ⟨1, 0⟩
  | south => ⟨0, -1⟩
  | west => ⟨-1, 0⟩

def name : Heading → String
  | north => "North"
  | east => "East"
  | south => "South"
  | west => "West"

def ofName? (s : String) : Option Heading := all.find? (·.name == s)

@[simp] theorem ofIndex_index (h : Heading) : ofIndex h.index = h := by cases h <;> rfl

@[simp] theorem ofName?_name (h : Heading) : ofName? h.name = some h := by cases h <;> decide

end Heading

end DragonCurve
