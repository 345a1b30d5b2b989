import DragonCurve.Proofs.Unfolding

/-! Rounds backwards. Each production is the mirror of the other, so a text that is read
backwards grows like the text itself: its rounds are the mirrors of the rounds. A round can
also be taken back, as no two texts grow into the same. The first character of the next text
nearly always tells the character that it came from; only an `L` may have been an `L` or a
`b`, which is replaced by `LFaLb`. Four characters decide between the two, because nothing
grows into a text that begins with `FaL`: there the `a` would have been an `a`, and an `R`
follows it. -/

namespace DragonCurve

namespace Sequence

/-! ### Read backwards -/

/-- The sequence of the mirror of the text. -/
def mirrored (s : Sequence) : Sequence := ofString (mirrorText s.text)

theorem toList_text_mirrored (s : Sequence) : s.mirrored.text.toList = mirror s.text.toList :=
  String.toList_ofList

theorem next_mirrored (s : Sequence) : s.mirrored.next = s.next.mirrored := by
  apply Sequence.ext
  apply String.toList_injective
  rw [toList_text_next, toList_text_mirrored, flatMap_production_mirror, toList_text_mirrored,
    toList_text_next]

/-- Mirroring a text and letting it grow can be done in either order, for any number of
rounds. -/
theorem rounds_mirrored (n : ℕ) (s : Sequence) : s.mirrored.rounds n = (s.rounds n).mirrored := by
  induction n with
  | zero => rfl
  | succ n ih => rw [rounds_succ, ih, next_mirrored, rounds_succ]

/-! ### Taken back -/

/-- The first character of what replaces a character. -/
def leader (c : Char) : Char := if c = 'b' then 'L' else c

theorem flatMap_production_cons (c : Char) (cs : List Char) :
    ∃ xs, (c :: cs).flatMap production = leader c :: xs := by
  rw [List.flatMap_cons]
  unfold production leader
  split_ifs with ha hb hb
  · exact absurd (ha.symm.trans hb) (by decide)
  · subst ha
    exact ⟨_, rfl⟩
  · exact ⟨_, rfl⟩
  · exact ⟨_, rfl⟩

theorem leader_eq {c x : Char} {cs xs : List Char}
    (h : (c :: cs).flatMap production = x :: xs) : leader c = x := by
  obtain ⟨ys, hc⟩ := flatMap_production_cons c cs
  exact (List.cons.inj (hc.symm.trans h)).1

theorem flatMap_production_cons_ne_nil (c : Char) (cs : List Char) :
    (c :: cs).flatMap production ≠ [] := by
  obtain ⟨xs, hc⟩ := flatMap_production_cons c cs
  rw [hc]
  exact List.cons_ne_nil _ _

/-- A character other than `L` at the beginning of a text was there before the round. -/
theorem exists_eq_cons {x : Char} {cs xs : List Char} (h : cs.flatMap production = x :: xs)
    (hx : x ≠ 'L') : ∃ cs', cs = x :: cs' := by
  cases cs with
  | nil => exact absurd h (List.cons_ne_nil x xs).symm
  | cons c cs =>
    have hc := leader_eq h
    unfold leader at hc
    split_ifs at hc with hb
    · exact absurd hc.symm hx
    · exact ⟨cs, by rw [hc]⟩

/-- No text begins with `FaL` after a round. -/
theorem flatMap_production_ne_FaL (cs xs : List Char) :
    cs.flatMap production ≠ 'F' :: 'a' :: 'L' :: xs := by
  intro h
  obtain ⟨ds, rfl⟩ := exists_eq_cons h (by decide)
  have hds : ds.flatMap production = 'a' :: 'L' :: xs := (List.cons.inj h).2
  obtain ⟨es, rfl⟩ := exists_eq_cons hds (by decide)
  have hes : 'R' :: 'b' :: 'F' :: 'R' :: es.flatMap production = 'L' :: xs := (List.cons.inj hds).2
  exact absurd (List.cons.inj hes).1 (by decide)

/-- So a text that began with `b` and one that began with `L` differ after a round. -/
theorem flatMap_production_b_ne_L (cs ds : List Char) :
    ('b' :: cs).flatMap production ≠ ('L' :: ds).flatMap production :=
  fun h => flatMap_production_ne_FaL ds _ (List.cons.inj h).2.symm

/-- The next text tells the first character of the text. -/
theorem head_eq_of_flatMap {c d : Char} {cs ds : List Char}
    (h : (c :: cs).flatMap production = (d :: ds).flatMap production) : c = d := by
  obtain ⟨xs, hd⟩ := flatMap_production_cons d ds
  have hleader : leader c = leader d := leader_eq (h.trans hd)
  by_cases hc : c = 'b' <;> by_cases hd : d = 'b'
  · rw [hc, hd]
  · rw [leader, leader, if_pos hc, if_neg hd] at hleader
    subst hc hleader
    exact absurd h (flatMap_production_b_ne_L cs ds)
  · rw [leader, leader, if_neg hc, if_pos hd] at hleader
    subst hd hleader
    exact absurd h.symm (flatMap_production_b_ne_L ds cs)
  · rwa [leader, leader, if_neg hc, if_neg hd] at hleader

theorem flatMap_production_injective :
    Function.Injective fun cs : List Char => cs.flatMap production := by
  intro cs ds h
  induction cs generalizing ds with
  | nil =>
    cases ds with
    | nil => rfl
    | cons d ds => exact absurd h.symm (flatMap_production_cons_ne_nil d ds)
  | cons c cs ih =>
    cases ds with
    | nil => exact absurd h (flatMap_production_cons_ne_nil c cs)
    | cons d ds =>
      obtain rfl := head_eq_of_flatMap h
      rw [ih (List.append_cancel_left h)]

theorem next_injective : Function.Injective next := by
  intro s t h
  apply Sequence.ext
  apply String.toList_injective
  apply flatMap_production_injective
  simp only [← toList_text_next, h]

theorem rounds_injective (n : ℕ) : Function.Injective (rounds n) := by
  induction n with
  | zero => exact Function.injective_id
  | succ n ih => exact ih.comp next_injective

/-- Texts that are the same after some number of rounds were the same before. -/
theorem text_rounds_inj (n : ℕ) (s t : String) :
    ((ofString s).rounds n).text = ((ofString t).rounds n).text ↔ s = t := by
  constructor
  · intro h
    exact congrArg text (rounds_injective n (Sequence.ext h))
  · rintro rfl
    rfl

end Sequence

end DragonCurve
