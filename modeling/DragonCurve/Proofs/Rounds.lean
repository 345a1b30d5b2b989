import DragonCurve.Expansion
import Mathlib.Tactic

/-! Rounds on words. A round of a sequence replaces every symbol of its word by
the offspring of the symbol, so rounds of a joined word are the joined rounds of
its parts and the steering letters stay as they are. An expansion is as many
rounds of the seed as the depth it reached. -/

namespace DragonCurve

/-- The symbols that replace a symbol in a round. -/
def Symbol.offspring : Symbol → List Symbol
  | .a => [.a, .right, .b, .forward, .right]
  | .b => [.left, .forward, .a, .left, .b]
  | s => [s]

theorem Symbol.symbols_successor (c : Char) :
    ((ofChar c).successor.toList.map ofChar) = (ofChar c).offspring := by
  have hc := toChar_ofChar c
  cases h : ofChar c with
  | other d =>
    rw [h] at hc
    obtain rfl : d = c := hc
    simp [successor, offspring, toChar, h]
  | _ => rfl

/-- A word after `n` rounds. -/
def generation : ℕ → List Symbol → List Symbol
  | 0, w => w
  | n + 1, w => generation n (w.flatMap Symbol.offspring)

@[simp] theorem generation_zero (w : List Symbol) : generation 0 w = w := rfl

theorem generation_succ (n : ℕ) (w : List Symbol) :
    generation (n + 1) w = generation n (w.flatMap Symbol.offspring) := rfl

@[simp] theorem generation_nil (n : ℕ) : generation n [] = [] := by
  induction n with
  | zero => rfl
  | succ n ih => exact ih

theorem generation_append (n : ℕ) (v w : List Symbol) :
    generation n (v ++ w) = generation n v ++ generation n w := by
  induction n generalizing v w with
  | zero => rfl
  | succ n ih => rw [generation_succ, List.flatMap_append, ih, generation_succ, generation_succ]

theorem generation_cons (n : ℕ) (s : Symbol) (w : List Symbol) :
    generation n (s :: w) = generation n [s] ++ generation n w := generation_append n [s] w

/-- A symbol that is its own offspring stays where it is. -/
theorem generation_cons_of_stable {s : Symbol} (h : s.offspring = [s]) (n : ℕ) (w : List Symbol) :
    generation n (s :: w) = s :: generation n w := by
  induction n generalizing w with
  | zero => rfl
  | succ n ih => rw [generation_succ, List.flatMap_cons, h, List.singleton_append, ih, generation_succ]

namespace Sequence

theorem symbols_next (s : Sequence) : s.next.symbols = s.symbols.flatMap Symbol.offspring := by
  simp only [symbols, next, nextText, String.toList_join, List.flatMap_map, List.map_flatMap]
  congr 1
  funext c
  exact Symbol.symbols_successor c

theorem symbols_rounds (n : ℕ) (s : Sequence) : (rounds n s).symbols = generation n s.symbols := by
  induction n generalizing s with
  | zero => rfl
  | succ n ih => rw [rounds, ih, symbols_next, generation_succ]

theorem symbols_seed : seed.symbols = [.forward, .a] := by decide

end Sequence

namespace Expansion

/-- Growing from `s` at round `round` adds some number of rounds, at most `n`.
Of these none but the last trips the cutoff, and with fewer than `n` the last
does. -/
theorem grow_eq (c : Settings) (requested n round : ℕ) (s : Sequence) :
    ∃ m ≤ n, (grow c requested n round s).value =
        ⟨s.rounds m, requested, round + m, (List.range (m + 1)).map fun i => (s.rounds i).length⟩ ∧
      (∀ i, 0 < i → i < m → c.cutsOff (round + i) (s.rounds i).length = false) ∧
      (m < n → 0 < m ∧ c.cutsOff (round + m) (s.rounds m).length = true) := by
  induction n generalizing round s with
  | zero => exact ⟨0, le_rfl, rfl, fun i hi hm => by omega, fun h => by omega⟩
  | succ n ih =>
    simp only [grow, Logged.value_bind]
    split
    next hcut => exact ⟨1, by omega, rfl, fun i hi hm => by omega, fun _ => ⟨by omega, hcut⟩⟩
    next hcut =>
      obtain ⟨m, hm, he, hbefore, hlast⟩ := ih (round + 1) s.next
      refine ⟨m + 1, by omega, ?_, ?_, fun h => ⟨by omega, ?_⟩⟩
      · simp only [Logged.value_bind, Logged.value_pure, he, Expansion.mk.injEq, true_and]
        refine ⟨rfl, by omega, ?_⟩
        rw [List.range_succ_eq_map (n := m + 1), List.map_cons, List.map_map]
        rfl
      · intro i hi him
        obtain ⟨j, rfl⟩ : ∃ j, i = j + 1 := ⟨i - 1, by omega⟩
        rcases Nat.eq_zero_or_pos j with rfl | hj
        · exact Bool.eq_false_of_not_eq_true hcut
        · rw [← Nat.add_assoc, Nat.add_right_comm]
          exact hbefore j hj (by omega)
      · rw [← Nat.add_assoc, Nat.add_right_comm]
        exact (hlast (by omega)).2

end Expansion

variable (c : Settings) (depth : ℕ)

/-- An expansion is some number of rounds of the seed, at most `depth`. Of these
none but the last trips the cutoff, and with fewer than `depth` the last does. -/
theorem expand_eq : ∃ m ≤ depth, (expand c depth).value =
      ⟨.rounds m .seed, depth, m, (List.range (m + 1)).map fun i => (Sequence.seed.rounds i).length⟩ ∧
    (∀ i, 0 < i → i < m → c.cutsOff i (Sequence.seed.rounds i).length = false) ∧
    (m < depth → 0 < m ∧ c.cutsOff m (Sequence.seed.rounds m).length = true) := by
  have h := Expansion.grow_eq c depth depth 0 .seed
  simpa only [expand, Logged.value_bind, Nat.zero_add] using h

theorem expand_requestedDepth : (expand c depth).value.requestedDepth = depth := by
  obtain ⟨m, -, he, -⟩ := expand_eq c depth
  rw [he]

theorem expand_depthReached_le : (expand c depth).value.depthReached ≤ depth := by
  obtain ⟨m, hm, he, -⟩ := expand_eq c depth
  rw [he]
  exact hm

/-- An expansion is as many rounds of the seed as it reached. -/
theorem expand_sequence : (expand c depth).value.sequence =
    Sequence.seed.rounds (expand c depth).value.depthReached := by
  obtain ⟨m, -, he, -⟩ := expand_eq c depth
  rw [he]

/-- An expansion that is not cut off is `depth` rounds of the seed. -/
theorem expand_sequence_of_full {c : Settings} {depth : ℕ}
    (h : (expand c depth).value.truncated = false) :
    (expand c depth).value.sequence = Sequence.seed.rounds depth := by
  have hle := expand_depthReached_le c depth
  have hlt : depth ≤ (expand c depth).value.depthReached := by
    simpa [Expansion.truncated, expand_requestedDepth] using h
  rw [expand_sequence, Nat.le_antisymm hle hlt]

end DragonCurve
