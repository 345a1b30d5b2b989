import DragonCurve.Proofs.Growth

/-! The dragon as a folded strip. The mirror of a text is the text read backwards
with the growing letters exchanged and the two turns exchanged. Each of the two
productions is the mirror of the other, so a round takes mirrors to mirrors. Hence
a further round, which replaces every letter where it stands, also unfolds the
whole text once: it appends a right turn, the mirror of all but the leading move,
and a last move with its turn. So every expansion is the beginning of all deeper
ones. -/

namespace DragonCurve

/-- The growing letters exchanged, and the two turns exchanged. -/
def exchange : Char → Char
  | 'a' => 'b'
  | 'b' => 'a'
  | 'L' => 'R'
  | 'R' => 'L'
  | c => c

/-- The characters read backwards and exchanged. -/
def mirror (cs : List Char) : List Char := cs.reverse.map exchange

/-- The mirror of a text. -/
def mirrorText (text : String) : String := String.ofList (mirror text.toList)

theorem mirror_append (cs ds : List Char) : mirror (cs ++ ds) = mirror ds ++ mirror cs := by
  simp [mirror]

theorem mirror_cons (c : Char) (cs : List Char) : mirror (c :: cs) = mirror cs ++ [exchange c] :=
  mirror_append [c] cs

namespace Sequence

/-- Exchanged characters have mirrored productions. -/
theorem production_exchange (c : Char) : production (exchange c) = mirror (production c) := by
  unfold exchange
  split
  · decide
  · decide
  · decide
  · decide
  next ha hb _ _ =>
    have hself : exchange c = c := by simp [exchange]
    have hstays : production c = [c] := by rw [production, if_neg ha, if_neg hb]
    rw [hstays, mirror_cons, hself]
    rfl

/-- A round of the mirror is the mirror of the round. -/
theorem flatMap_production_mirror (cs : List Char) :
    (mirror cs).flatMap production = mirror (cs.flatMap production) := by
  induction cs with
  | nil => rfl
  | cons c cs ih =>
    rw [mirror_cons, List.flatMap_append, ih, List.flatMap_singleton, production_exchange,
      List.flatMap_cons, mirror_append]

/-- A further round unfolds the literal text. -/
theorem literalText_unfolding (d : ℕ) : ∃ rest, literalText d = 'F' :: rest ∧
    literalText (d + 1) = literalText d ++ 'R' :: (mirror rest ++ ['F', 'R']) := by
  induction d with
  | zero => exact ⟨['a'], by decide, by decide⟩
  | succ d ih =>
    obtain ⟨rest, hd, hnext⟩ := ih
    refine ⟨rest.flatMap production, ?_, ?_⟩
    · rw [literalText, hd]
      rfl
    · -- the round acts on the parts of the unfolded text one by one
      rw [literalText, hnext, List.flatMap_append, List.flatMap_cons, List.flatMap_append,
        flatMap_production_mirror, ← hnext]
      rfl

theorem literalText_prefix {d d' : ℕ} (h : d ≤ d') : literalText d <+: literalText d' := by
  induction d', h using Nat.le_induction with
  | base => exact List.prefix_rfl
  | succ d' _ ih =>
    obtain ⟨rest, -, hnext⟩ := literalText_unfolding d'
    rw [hnext]
    exact ih.trans (List.prefix_append _ _)

end Sequence

/-- The text of an expansion that is not cut off. -/
theorem toList_text_expand_of_full {c : Settings} {d : ℕ}
    (hfull : (expand c d).value.truncated = false) :
    (expand c d).value.sequence.text.toList = Sequence.literalText d := by
  rw [expand_sequence_of_full hfull, Sequence.rounds_seed_eq_literal, Sequence.literal,
    Sequence.text_ofString, String.toList_ofList]

/-- The text of an expansion that is not cut off unfolds into that of the next depth:
a right turn follows, then the mirror of all but the leading move, then a last move
with a right turn. So it is the beginning of the text of every deeper expansion, and
from the first round on it ends with a right turn. -/
theorem expand_unfolding {c c' : Settings} {d d' : ℕ}
    (hfull : (expand c d).value.truncated = false)
    (hfull' : (expand c' d').value.truncated = false) :
    let text := (expand c d).value.sequence.text
    let text' := (expand c' d').value.sequence.text
    (d' = d + 1 → ∃ rest, text = "F" ++ rest ∧
      text' = text ++ "R" ++ mirrorText rest ++ "FR") ∧
    (d ≤ d' → ∃ tail, text' = text ++ tail) ∧
    (1 ≤ d → ∃ init, text = init ++ "R") := by
  intro text text'
  have htext : text.toList = Sequence.literalText d := toList_text_expand_of_full hfull
  have htext' : text'.toList = Sequence.literalText d' := toList_text_expand_of_full hfull'
  refine ⟨?_, ?_, ?_⟩
  · rintro rfl
    obtain ⟨rest, hd, hnext⟩ := Sequence.literalText_unfolding d
    refine ⟨String.ofList rest, String.toList_injective ?_, String.toList_injective ?_⟩
    · rw [htext, hd]
      simp
    · rw [htext', hnext, ← htext]
      simp [mirrorText]
  · intro hle
    obtain ⟨tail, htail⟩ := Sequence.literalText_prefix hle
    refine ⟨String.ofList tail, String.toList_injective ?_⟩
    rw [htext', ← htail, ← htext]
    simp
  · intro h1
    obtain ⟨e, rfl⟩ : ∃ e, d = e + 1 := ⟨d - 1, by omega⟩
    obtain ⟨rest, -, hnext⟩ := Sequence.literalText_unfolding e
    refine ⟨String.ofList (Sequence.literalText e ++ 'R' :: (mirror rest ++ ['F'])),
      String.toList_injective ?_⟩
    rw [htext, hnext]
    simp

/-- The third round, cut off only at its end, unfolds into the fourth. -/
theorem expand_unfolding_three :
    let c : Settings := { cutoffLength := 20 }
    let text := (expand c 3).value.sequence.text
    let text' := (expand .standard 4).value.sequence.text
    ((expand c 3).value.truncated = false ∧ (expand .standard 4).value.truncated = false) ∧
      (4 = 3 + 1 → ∃ rest, text = "F" ++ rest ∧
        text' = text ++ "R" ++ mirrorText rest ++ "FR") ∧
      (3 ≤ 4 → ∃ tail, text' = text ++ tail) ∧
      (1 ≤ 3 → ∃ init, text = init ++ "R") := by
  intro c text text'
  have hfull : (expand c 3).value.truncated = false := by decide
  have hfull' : (expand .standard 4).value.truncated = false := by decide
  exact ⟨⟨hfull, hfull'⟩, expand_unfolding hfull hfull'⟩

end DragonCurve
