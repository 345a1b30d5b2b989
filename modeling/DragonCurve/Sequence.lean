import DragonCurve.Symbol

/-! Sequences of symbols and their rounds. A sequence is kept as text, one
character a symbol, with its length counted beside it. A round replaces every
symbol by its successor and keeps the order; both the length and the UTF-8 size
of the next text are sums over the symbols, known before any of it is written. -/

namespace DragonCurve

/-- A text with its length in characters. -/
structure Sequence where
  text : String
  length : Nat
  length_eq : length = text.length
  deriving DecidableEq, Repr

namespace Sequence

def ofString (text : String) : Sequence := ⟨text, text.length, rfl⟩

@[simp] theorem text_ofString (text : String) : (ofString text).text = text := rfl

/-- A sequence is determined by its text. -/
@[ext] theorem ext {s t : Sequence} (h : s.text = t.text) : s = t := by
  obtain ⟨text, _, rfl⟩ := s
  obtain ⟨text', _, rfl⟩ := t
  obtain rfl : text = text' := h
  rfl

/-- The text from which every expansion starts. -/
def seedText : String := "Fa"

def seed : Sequence := ofString seedText

def isEmpty (s : Sequence) : Bool := s.length == 0

def symbols (s : Sequence) : List Symbol := s.text.toList.map Symbol.ofChar

@[simp] theorem length_symbols (s : Sequence) : s.symbols.length = s.length := by
  simp [symbols, s.length_eq, String.length_toList]

/-- The number of forward moves in one pass. -/
def forwardCount (s : Sequence) : Nat := s.symbols.count .forward

/-- The text of the next round. -/
def nextText (s : Sequence) : String := String.join (s.symbols.map Symbol.successor)

/-- The length of the next round's text. -/
def nextLength (s : Sequence) : Nat := s.symbols.foldr (fun x n => x.successorLength + n) 0

/-- The size of the next round's text in UTF-8. -/
def nextSize (s : Sequence) : Nat := s.symbols.foldr (fun x n => x.successorSize + n) 0

theorem utf8ByteSize_nextText (s : Sequence) : s.nextText.utf8ByteSize = s.nextSize := by
  simp only [nextText, nextSize]
  induction s.symbols with
  | nil => rfl
  | cons x xs ih => simp [String.join_cons, ih]

theorem length_nextText (s : Sequence) : s.nextText.length = s.nextLength := by
  simp only [nextText, nextLength]
  induction s.symbols with
  | nil => rfl
  | cons x xs ih => simp [String.join_cons, ih]

/-- One round: every symbol is replaced by its successor. -/
def next (s : Sequence) : Sequence := ⟨s.nextText, s.nextLength, s.length_nextText.symm⟩

/-- The sequence after `n` rounds. -/
def rounds : Nat → Sequence → Sequence
  | 0, s => s
  | n + 1, s => rounds n s.next

@[simp] theorem rounds_zero (s : Sequence) : rounds 0 s = s := rfl

theorem rounds_succ (n : Nat) (s : Sequence) : rounds (n + 1) s = (rounds n s).next := by
  induction n generalizing s with
  | zero => rfl
  | succ n ih => exact ih s.next

end Sequence

end DragonCurve
