import DragonCurve.Proofs.Rounds

/-! Growth of a text by rounds. Rounds can be read off the text alone, where a production
replaces a character and looks at nothing else: `a` stays and brings in `RbFR`, `b` stays
and brings in `LFaL`, and every other character only stays. So whatever adds up over the
characters, such as the length of a text or the number of one letter, grows by a fixed
amount for each `a` and a fixed amount for each `b`. Each of the two brings in one of the
other, so after the first round there are equally many of both, and every later round
doubles them. This gives every total after any number of rounds; the seed, with its one
growing letter, is `2 ^ (n + 2) - 2` symbols long after `n` of them. -/

namespace DragonCurve

namespace Sequence

/-! ### Literal rounds -/

/-- What stands in the next text in the place of a character. -/
def production (c : Char) : List Char :=
  if c = 'a' then "aRbFR".toList else if c = 'b' then "LFaLb".toList else [c]

/-- The characters of `Fa` after `n` rounds. -/
def literalText : ℕ → List Char
  | 0 => "Fa".toList
  | n + 1 => (literalText n).flatMap production

/-- The sequence with the literal text of `n` rounds. -/
def literal (n : ℕ) : Sequence := ofString (String.ofList (literalText n))

theorem toList_successor (c : Char) : (Symbol.ofChar c).successor.toList = production c := by
  unfold Symbol.ofChar production
  split <;> simp_all [Symbol.successor, Symbol.toChar, Char.toString]

theorem toList_text_next (s : Sequence) :
    s.next.text.toList = s.text.toList.flatMap production := by
  simp only [next, nextText, symbols, String.toList_join, List.flatMap_map]
  congr 1
  funext c
  exact toList_successor c

/-- The rounds of the seed are the literal ones. -/
theorem rounds_seed_eq_literal (n : ℕ) : seed.rounds n = literal n := by
  apply Sequence.ext
  apply String.toList_injective
  rw [literal, text_ofString, String.toList_ofList]
  induction n with
  | zero => rfl
  | succ n ih => rw [rounds_succ, toList_text_next, ih, literalText]

end Sequence

/-! ### Totals -/

/-- The sum of a weight over the characters of a text. -/
def total (weight : Char → ℕ) (cs : List Char) : ℕ := (cs.map weight).sum

theorem total_cons (weight : Char → ℕ) (c : Char) (cs : List Char) :
    total weight (c :: cs) = weight c + total weight cs := List.sum_cons

theorem total_append (weight : Char → ℕ) (cs ds : List Char) :
    total weight (cs ++ ds) = total weight cs + total weight ds := by
  simp [total]

/-! ### Totals that go by other names -/

theorem total_one (cs : List Char) : total (fun _ => 1) cs = cs.length := by
  simp [total]

theorem total_indicator (d : Char) (cs : List Char) :
    total (fun c => if c = d then 1 else 0) cs = cs.count d := by
  induction cs with
  | nil => rfl
  | cons c cs ih =>
    rw [total_cons, ih, List.count_cons]
    simp [Nat.add_comm]

theorem total_utf8Size (t : String) : total Char.utf8Size t.toList = t.utf8ByteSize := by
  induction t using String.push_induction with
  | empty => rfl
  | push t c ih =>
    rw [String.toList_push, total_append, ih, String.utf8ByteSize_push]
    rfl

namespace Sequence

/-! ### One round -/

/-- What an `a` brings in, as it is replaced by `aRbFR`. -/
def besideA : List Char := "RbFR".toList

/-- What a `b` brings in, as it is replaced by `LFaLb`. -/
def besideB : List Char := "LFaL".toList

theorem total_production (weight : Char → ℕ) (c : Char) :
    total weight (production c) = weight c + (if c = 'a' then total weight besideA else 0) +
      if c = 'b' then total weight besideB else 0 := by
  by_cases ha : c = 'a'
  · subst ha
    rfl
  by_cases hb : c = 'b'
  · -- a `b` stays behind what it brings in
    subst hb
    exact (total_append weight besideB ['b']).trans (Nat.add_comm _ _)
  · rw [production, if_neg ha, if_neg hb, if_neg ha, if_neg hb]
    rfl

theorem total_flatMap_production (weight : Char → ℕ) (cs : List Char) :
    total weight (cs.flatMap production) = total weight cs +
      cs.count 'a' * total weight besideA + cs.count 'b' * total weight besideB := by
  induction cs with
  | nil => simp [total]
  | cons c cs ih =>
    rw [List.flatMap_cons, total_append, ih, total_production, total_cons, List.count_cons,
      List.count_cons, Nat.add_mul, Nat.add_mul]
    simp only [beq_iff_eq, ite_mul, Nat.one_mul, Nat.zero_mul]
    omega

/-- After a round there are as many of each growing letter as of both before. -/
theorem count_growing_next (s : Sequence) :
    s.next.text.toList.count 'a' = s.text.toList.count 'a' + s.text.toList.count 'b' ∧
      s.next.text.toList.count 'b' = s.text.toList.count 'a' + s.text.toList.count 'b' := by
  have hcount : ∀ d, s.next.text.toList.count d = s.text.toList.count d +
      s.text.toList.count 'a' * besideA.count d + s.text.toList.count 'b' * besideB.count d := by
    intro d
    rw [toList_text_next, ← total_indicator, total_flatMap_production, total_indicator,
      total_indicator, total_indicator]
  have haa : besideA.count 'a' = 0 ∧ besideB.count 'a' = 1 := by decide
  have hbb : besideA.count 'b' = 1 ∧ besideB.count 'b' = 0 := by decide
  rw [hcount, hcount, haa.1, haa.2, hbb.1, hbb.2]
  omega

/-! ### All rounds -/

theorem exists_two_pow_eq (n : ℕ) : ∃ q, 2 ^ n = q + 1 ∧ 2 ^ (n + 1) - 1 = q + (q + 1) := by
  have hpos := Nat.two_pow_pos n
  exact ⟨2 ^ n - 1, by omega, by rw [pow_succ]; omega⟩

section

variable (s : Sequence) (n : ℕ)

theorem count_growing_rounds :
    (s.rounds (n + 1)).text.toList.count 'a' =
        2 ^ n * (s.text.toList.count 'a' + s.text.toList.count 'b') ∧
      (s.rounds (n + 1)).text.toList.count 'b' =
        2 ^ n * (s.text.toList.count 'a' + s.text.toList.count 'b') := by
  induction n with
  | zero =>
    rw [pow_zero, Nat.one_mul]
    exact s.count_growing_next
  | succ n ih =>
    have hround := (s.rounds (n + 1)).count_growing_next
    rw [ih.1, ih.2, ← rounds_succ, ← Nat.two_mul, ← Nat.mul_assoc, ← pow_succ'] at hround
    exact hround

/-- The first round brings in what the two letters of the text do, and the later ones what
equally many of both do. -/
theorem total_rounds (weight : Char → ℕ) :
    total weight (s.rounds (n + 1)).text.toList = total weight s.text.toList +
      s.text.toList.count 'a' * total weight besideA +
      s.text.toList.count 'b' * total weight besideB +
      (2 ^ n - 1) * (s.text.toList.count 'a' + s.text.toList.count 'b') *
        (total weight besideA + total weight besideB) := by
  induction n with
  | zero =>
    rw [rounds_succ, rounds_zero, toList_text_next, total_flatMap_production]
    simp
  | succ n ih =>
    obtain ⟨hA, hB⟩ := s.count_growing_rounds n
    obtain ⟨q, hq, hq'⟩ := exists_two_pow_eq n
    rw [rounds_succ, toList_text_next, total_flatMap_production, ih, hA, hB, hq', hq,
      Nat.add_sub_cancel]
    ring

/-- Where both letters bring in the same amount, the first round is like the later ones. -/
theorem total_rounds_of_eq (weight : Char → ℕ) (g : ℕ) (hA : total weight besideA = g)
    (hB : total weight besideB = g) :
    total weight (s.rounds n).text.toList = total weight s.text.toList +
      g * (2 ^ n - 1) * (s.text.toList.count 'a' + s.text.toList.count 'b') := by
  cases n with
  | zero => simp
  | succ n =>
    obtain ⟨q, hq, hq'⟩ := exists_two_pow_eq n
    rw [total_rounds, hA, hB, hq', hq, Nat.add_sub_cancel]
    ring

theorem length_rounds : (s.rounds n).length =
    s.length + 4 * (2 ^ n - 1) * (s.text.toList.count 'a' + s.text.toList.count 'b') := by
  have h := s.total_rounds_of_eq n (fun _ => 1) 4 (by decide) (by decide)
  rwa [total_one, total_one, String.length_toList, String.length_toList, ← length_eq,
    ← length_eq] at h

end

/-- The seed after `n` rounds is `2 ^ (n + 2) - 2` symbols long. -/
theorem length_rounds_seed (n : ℕ) : (seed.rounds n).length = 2 ^ (n + 2) - 2 := by
  have hletters : seed.text.toList.count 'a' = 1 ∧ seed.text.toList.count 'b' = 0 := by decide
  have hlength : seed.length = 2 := by decide
  have hpow : 2 ^ (n + 2) = 4 * 2 ^ n := by ring
  have hpos := Nat.two_pow_pos n
  rw [length_rounds, hletters.1, hletters.2, hlength]
  omega

end Sequence

end DragonCurve
