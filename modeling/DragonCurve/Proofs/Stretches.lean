import DragonCurve.Proofs.Folding

/-! Stretches of an expansion. The moves cut a word into stretches, and the net
turn of a stretch is the difference of the bearings on its two sides. For the
expanded seed these are successive turnings of the dragon, which turns right
after move `k` when the odd part of `k` is one modulo four and left when it is
three: the paper-folding rule. -/

namespace DragonCurve

/-- The turning at the end of every stretch of a list. -/
def marks (b : ℤ) (as : List Action) : List ℤ := bearings b as ++ [b + turning as]

theorem marks_forward (b : ℤ) (as : List Action) :
    marks b (.forward :: as) = b :: marks b as := by
  simp [marks, Action.turning]

theorem marks_cons {a : Action} (h : a ≠ .forward) (b : ℤ) (as : List Action) :
    marks b (a :: as) = marks (b + a.turning) as := by
  simp [marks, bearings_cons h, add_assoc]

/-- The symbols after the `k`-th move of a word and before the next, or before
the first when `k` is zero. -/
def stretch (w : List Symbol) (k : ℕ) : List Symbol := (w.splitOn .forward).getD k []

theorem stretch_forward_zero (w : List Symbol) : stretch (.forward :: w) 0 = [] := by
  simp [stretch, List.splitOn_cons_eq_if_modifyHead]

theorem stretch_forward_succ (w : List Symbol) (k : ℕ) :
    stretch (.forward :: w) (k + 1) = stretch w k := by
  simp [stretch, List.splitOn_cons_eq_if_modifyHead]

theorem stretch_cons_zero {s : Symbol} (h : s ≠ .forward) (w : List Symbol) :
    stretch (s :: w) 0 = s :: stretch w 0 := by
  simp only [stretch, List.splitOn_cons_eq_if_modifyHead, beq_iff_eq, if_neg h]
  cases hw : w.splitOn .forward with
  | nil => exact absurd hw (List.splitOnP_ne_nil _ _)
  | cons v vs => rfl

theorem stretch_cons_succ {s : Symbol} (h : s ≠ .forward) (w : List Symbol) (k : ℕ) :
    stretch (s :: w) (k + 1) = stretch w (k + 1) := by
  simp only [stretch, List.splitOn_cons_eq_if_modifyHead, beq_iff_eq, if_neg h]
  cases w.splitOn .forward <;> rfl

/-- The net turn of a stretch leads from the mark before it to its own. -/
theorem marks_eq (w : List Symbol) (b : ℤ) (k : ℕ) (hk : k ≤ w.count .forward) :
    (marks b (w.map Symbol.action)).getD k 0 =
      (b :: marks b (w.map Symbol.action)).getD k 0 + netTurn (stretch w k) := by
  induction w generalizing b k with
  | nil =>
    obtain rfl : k = 0 := by simpa using hk
    rfl
  | cons s w ih =>
    by_cases hs : s = .forward
    · subst hs
      rw [List.map_cons, Symbol.action, marks_forward]
      cases k with
      | zero =>
        rw [stretch_forward_zero]
        simp [netTurn]
      | succ k =>
        rw [stretch_forward_succ]
        exact ih b k (by simpa using hk)
    · have ha : s.action ≠ .forward := by
        cases s <;> first | exact absurd rfl hs | simp [Symbol.action]
      rw [List.count_cons_of_ne hs] at hk
      rw [List.map_cons, marks_cons ha, ih (b + s.action.turning) k hk]
      cases k with
      | zero =>
        rw [stretch_cons_zero hs, ← turning_map_action (s :: _), List.map_cons, turning_cons,
          turning_map_action]
        simp [add_assoc]
      | succ k =>
        rw [stretch_cons_succ hs]
        rfl

/-! ### The paper-folding rule -/

/-- The dragon turns right after move `k` when the odd part of `k` is one modulo
four, and left otherwise. -/
theorem dragon_turn (k : ℕ) (hk : 0 < k) :
    dragon k = dragon (k - 1) + if ordCompl[2] k % 4 = 1 then 1 else -1 := by
  induction k using Nat.strong_induction_on with
  | h k ih =>
    obtain ⟨i, rfl | rfl⟩ := Nat.even_or_odd' k
    · -- an even move lies over a coarse one, and turns as that does
      have hodd : ordCompl[2] (2 * i) = ordCompl[2] i := by
        have h := Nat.ordCompl_self_pow_mul i 1 Nat.prime_two
        rwa [pow_one] at h
      have hi := ih i (by omega) (by omega)
      rw [show 2 * i - 1 = 2 * (i - 1) + 1 by omega, dragon_two_mul, dragon_two_mul_add_one, hodd,
        hi, show i - 1 + 1 = i by omega]
      ring
    · have hodd : ordCompl[2] (2 * i + 1) = 2 * i + 1 :=
        (Nat.ordCompl_eq_self_iff_zero_or_not_dvd _ Nat.prime_two).mpr (Or.inr (by omega))
      rw [hodd, Nat.add_sub_cancel, dragon_two_mul, dragon_two_mul_add_one]
      split_ifs with h
      · rw [show (i + 1) % 2 = 1 by omega, show i % 2 = 0 by omega]
        simp
      · rw [show (i + 1) % 2 = 0 by omega, show i % 2 = 1 by omega]
        simp

/-- The marks of the expanded seed are the turnings of the dragon. -/
theorem marks_rounds_seed {n k : ℕ} (hk : k ≤ 2 ^ (n + 1)) :
    (marks 0 (Sequence.seed.rounds (n + 1)).actions).getD k 0 = dragon k := by
  have hend := dragon_add_of_lt (Nat.two_pow_pos n)
  rw [marks, Sequence.bearings_rounds_seed, Sequence.turning_rounds_seed, zero_add]
  rw [add_zero, dragon_zero, zero_add] at hend
  rw [← hend, ← List.map_singleton, ← List.map_append, ← List.range_succ,
    List.getD_eq_getElem?_getD, List.getElem?_map, List.getElem?_range (by omega)]
  rfl

namespace Sequence

theorem netTurn_stretch_rounds_seed {n k : ℕ} (h0 : 0 < k) (hk : k ≤ 2 ^ (n + 1)) :
    netTurn (stretch (seed.rounds (n + 1)).symbols k) =
      if ordCompl[2] k % 4 = 1 then 1 else -1 := by
  obtain ⟨i, rfl⟩ : ∃ i, k = i + 1 := ⟨k - 1, by omega⟩
  have hcount : i + 1 ≤ (seed.rounds (n + 1)).symbols.count .forward :=
    hk.trans (forwardCount_rounds_seed (n + 1)).ge
  have h := marks_eq (seed.rounds (n + 1)).symbols 0 (i + 1) hcount
  rw [← actions, List.getD_cons_succ, marks_rounds_seed hk, marks_rounds_seed (by omega),
    dragon_turn _ h0] at h
  exact (add_left_cancel h).symm

theorem head_symbols_rounds_seed (n : ℕ) : (seed.rounds n).symbols.head? = some .forward := by
  rw [symbols_rounds, symbols_seed, generation_cons_of_stable rfl]
  rfl

end Sequence

/-- An expansion that is not cut off is the paper-folding curve: it starts with
the first of `2 ^ d` moves, and after move `k` it turns right in all by one if
the odd part of `k` is one modulo four, and left by one if it is three. -/
theorem expand_paper_folding {c : Settings} {d : ℕ} (h1 : 1 ≤ d)
    (hfull : (expand c d).value.truncated = false) :
    let s := (expand c d).value.sequence
    s.forwardCount = 2 ^ d ∧ s.symbols.head? = some .forward ∧
      ∀ k, 1 ≤ k → k ≤ 2 ^ d →
        (ordCompl[2] k % 4 = 1 → netTurn (stretch s.symbols k) = 1) ∧
          (ordCompl[2] k % 4 = 3 → netTurn (stretch s.symbols k) = -1) := by
  obtain ⟨n, rfl⟩ : ∃ n, d = n + 1 := ⟨d - 1, by omega⟩
  intro s
  have hs : s = Sequence.seed.rounds (n + 1) := expand_sequence_of_full hfull
  rw [hs]
  refine ⟨Sequence.forwardCount_rounds_seed _, Sequence.head_symbols_rounds_seed _, ?_⟩
  intro k hk hkd
  rw [Sequence.netTurn_stretch_rounds_seed hk hkd]
  refine ⟨fun h => if_pos h, fun h => if_neg (by omega)⟩

/-- The rule holds of an expansion that is cut off only at its last round. -/
theorem expand_paper_folding_three :
    let c : Settings := { cutoffLength := 20 }
    (1 ≤ 3 ∧ (expand c 3).value.truncated = false) ∧
      let s := (expand c 3).value.sequence
      s.forwardCount = 2 ^ 3 ∧ s.symbols.head? = some .forward ∧
        ∀ k, 1 ≤ k → k ≤ 2 ^ 3 →
          (ordCompl[2] k % 4 = 1 → netTurn (stretch s.symbols k) = 1) ∧
            (ordCompl[2] k % 4 = 3 → netTurn (stretch s.symbols k) = -1) := by
  intro c
  have hfull : (expand c 3).value.truncated = false := by decide
  exact ⟨⟨by decide, hfull⟩, expand_paper_folding (by decide) hfull⟩

end DragonCurve
