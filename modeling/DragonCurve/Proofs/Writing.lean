import DragonCurve.Proofs.Growth

/-! How a round is written. Two passes go over the symbols of a text: the first counts the
characters and the bytes of all that will replace them, and the second writes it. A symbol
adds to the counts what its successor adds to the text, so after any number of symbols the
counts are the length and the size of what has been written for them. Hence the room that
the first pass asks for is the room that the second takes, and through all rounds a sequence
is the one that its text alone would make. -/

namespace DragonCurve

/-- The length of a text and its size in UTF-8. -/
def measures (t : String) : ℕ × ℕ := (t.length, t.utf8ByteSize)

namespace Symbol

/-- Adds what will replace a symbol to the counts of characters and bytes. -/
def tally (counts : ℕ × ℕ) (x : Symbol) : ℕ × ℕ :=
  (counts.1 + x.successorLength, counts.2 + x.successorSize)

/-- Writes what replaces a symbol behind a text. -/
def write (t : String) (x : Symbol) : String := t ++ x.successor

theorem measures_write (t : String) (x : Symbol) : measures (write t x) = tally (measures t) x := by
  simp [measures, write, tally]

/-- The two passes keep in step, symbol by symbol. -/
theorem foldl_tally (xs : List Symbol) (t : String) :
    xs.foldl tally (measures t) = measures (xs.foldl write t) :=
  List.foldl_hom measures fun t x => (measures_write t x).symm

end Symbol

namespace Sequence

variable (s : Sequence)

theorem text_next : s.next.text = s.symbols.foldl Symbol.write "" := by
  change String.join (s.symbols.map Symbol.successor) = _
  rw [String.join_eq_foldl, List.foldl_map]
  rfl

theorem foldl_tally_symbols :
    s.symbols.foldl Symbol.tally (0, 0) = (s.next.text.length, s.next.text.utf8ByteSize) := by
  rw [text_next]
  exact Symbol.foldl_tally s.symbols ""

theorem eq_ofString_text : s = ofString s.text := Sequence.ext rfl

end Sequence

/-- Every round puts its productions in the place of its characters and in their
order. What is written are the successors, one behind the other; the first pass counts its
characters, which become the length of the sequence, and its bytes, for which room is made.
Both are those of the text that is there in the end, as each symbol counts for what its
successor adds to a text; and the sequence is the one that this text makes. -/
theorem rounds_written (start : Sequence) (n : ℕ) :
    let s := start.rounds n
    let s' := start.rounds (n + 1)
    s'.text.toList = s.text.toList.flatMap Sequence.production ∧
      s'.text = s.symbols.foldl Symbol.write "" ∧
      s.symbols.foldl Symbol.tally (0, 0) = (s'.length, s.nextSize) ∧
      s'.length = s'.text.length ∧ s.nextSize = s'.text.utf8ByteSize ∧
      s' = Sequence.ofString s'.text ∧
      ∀ (x : Symbol) (out : String),
        (Symbol.write out x).length = out.length + x.successorLength ∧
          (Symbol.write out x).utf8ByteSize = out.utf8ByteSize + x.successorSize := by
  intro s s'
  have hround : s' = s.next := Sequence.rounds_succ n _
  have hsize : s.nextSize = s'.text.utf8ByteSize := by
    rw [hround]
    exact s.utf8ByteSize_nextText.symm
  refine ⟨?_, ?_, ?_, s'.length_eq, hsize, s'.eq_ofString_text, fun x out => ?_⟩
  · rw [hround, Sequence.toList_text_next]
  · rw [hround, Sequence.text_next]
  · rw [s.foldl_tally_symbols, ← hround, s'.length_eq, hsize]
  · exact Prod.mk.inj (Symbol.measures_write out x)

end DragonCurve
