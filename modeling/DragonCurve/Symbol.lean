/-! The alphabet of the dragon system and its productions. Two letters grow in
each round, three steer the turtle, and every other character stands for
itself. Read backwards, with the growing letters exchanged and the two turns
exchanged, each of the two productions is the other. -/

namespace DragonCurve

/-- A symbol of a sequence. `a` and `b` grow, `forward`, `left` and `right`
steer, and `other` is any character outside the alphabet. -/
inductive Symbol where
  | a
  | b
  | forward
  | left
  | right
  | other (c : Char)
  deriving DecidableEq, Repr

namespace Symbol

def ofChar : Char → Symbol
  | 'a' => a
  | 'b' => b
  | 'F' => forward
  | 'L' => left
  | 'R' => right
  | c => other c

def toChar : Symbol → Char
  | a => 'a'
  | b => 'b'
  | forward => 'F'
  | left => 'L'
  | right => 'R'
  | other c => c

/-- A symbol is hashed by its character. -/
instance : Hashable Symbol := ⟨fun s => hash s.toChar.toNat⟩

/-- The text that replaces the symbol in a round. -/
def successor : Symbol → String
  | a => "aRbFR"
  | b => "LFaLb"
  | s => s.toChar.toString

/-- The number of characters of the successor. -/
def successorLength : Symbol → Nat
  | a | b => 5
  | _ => 1

/-- The number of bytes of the successor in UTF-8. -/
def successorSize : Symbol → Nat
  | other c => c.utf8Size
  | s => s.successorLength

@[simp] theorem toChar_ofChar (c : Char) : (ofChar c).toChar = c := by
  unfold ofChar
  split <;> rfl

@[simp] theorem length_successor (s : Symbol) : s.successor.length = s.successorLength := by
  cases s with
  | other c => simp [successor, successorLength, toChar, Char.toString]
  | _ => rfl

@[simp] theorem utf8ByteSize_successor (s : Symbol) :
    s.successor.utf8ByteSize = s.successorSize := by
  cases s with
  | other c => simp [successor, successorSize, toChar, Char.toString]
  | _ => rfl

end Symbol

end DragonCurve
