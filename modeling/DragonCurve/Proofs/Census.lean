import DragonCurve.Proofs.Growth
import DragonCurve.Proofs.Letters

/-! A census of the rounds. All letters of a text can be counted after any number of rounds,
and so can its bytes, as everything that a round brings in takes a single byte. The two
growing letters bring in equally many characters and moves, so these grow alike from the
first round on; but only `a` brings in right turns and only `b` left ones, so the first
round adds turns for the letters of the text, and the later ones for equally many of both.
The characters outside the alphabet are those of the text, in their order. -/

namespace DragonCurve

namespace Sequence

/-- The characters that a round or a walk looks at. -/
def alphabet : List Char := ['a', 'b', 'F', 'L', 'R']

/-- All other characters stay, in their order. -/
theorem filter_unknown_next (s : Sequence) :
    s.next.text.toList.filter (· ∉ alphabet) = s.text.toList.filter (· ∉ alphabet) := by
  have hstays : ∀ c, (production c).filter (· ∉ alphabet) = [c].filter (· ∉ alphabet) := by
    intro c
    unfold production
    split_ifs with ha hb
    · subst ha
      decide
    · subst hb
      decide
    · rfl
  rw [toList_text_next, List.filter_flatMap]
  simp only [hstays]
  rw [← List.filter_flatMap, List.flatMap_singleton']

section

variable (s : Sequence) (n : ℕ)

theorem count_rounds (d : Char) :
    (s.rounds (n + 1)).text.toList.count d = s.text.toList.count d +
      s.text.toList.count 'a' * besideA.count d + s.text.toList.count 'b' * besideB.count d +
      (2 ^ n - 1) * (s.text.toList.count 'a' + s.text.toList.count 'b') *
        (besideA.count d + besideB.count d) := by
  simp only [← total_indicator d]
  exact s.total_rounds n _

theorem utf8ByteSize_rounds : (s.rounds n).text.utf8ByteSize =
    s.text.utf8ByteSize +
      4 * (2 ^ n - 1) * (s.text.toList.count 'a' + s.text.toList.count 'b') := by
  have h := s.total_rounds_of_eq n Char.utf8Size 4 (by decide) (by decide)
  rwa [total_utf8Size, total_utf8Size] at h

theorem forwardCount_rounds : (s.rounds n).forwardCount =
    s.forwardCount + (2 ^ n - 1) * (s.text.toList.count 'a' + s.text.toList.count 'b') := by
  have hforward : ∀ u : Sequence, u.forwardCount = u.text.toList.count 'F' :=
    fun u => u.count_symbols 'F'
  have h := s.total_rounds_of_eq n (fun c => if c = 'F' then 1 else 0) 1
    (by decide) (by decide)
  rwa [total_indicator, total_indicator, ← hforward, ← hforward, Nat.one_mul] at h

theorem filter_unknown_rounds :
    (s.rounds n).text.toList.filter (· ∉ alphabet) = s.text.toList.filter (· ∉ alphabet) := by
  induction n with
  | zero => rfl
  | succ n ih => rw [rounds_succ, filter_unknown_next, ih]

end

end Sequence

/-- A text with `N` growing letters after `n` rounds: it is `4 * (2 ^ n - 1) * N` characters
longer and as many bytes larger, a quarter of what came in are moves, and there are equally
many of both growing letters. The first round brings in two right turns for each `a` and two
left turns for each `b`, and all later ones equally many of both. The characters outside the
alphabet are the same as before. -/
theorem rounds_census (s : Sequence) {n : ℕ} (hn : 1 ≤ n) :
    let s' := s.rounds n
    let before c := s.text.toList.count c
    let after c := s'.text.toList.count c
    let N := before 'a' + before 'b'
    s'.length = s.length + 4 * (2 ^ n - 1) * N ∧
      s'.text.utf8ByteSize = s.text.utf8ByteSize + 4 * (2 ^ n - 1) * N ∧
      s'.forwardCount = s.forwardCount + (2 ^ n - 1) * N ∧
      after 'a' = 2 ^ (n - 1) * N ∧ after 'b' = 2 ^ (n - 1) * N ∧
      after 'R' = before 'R' + 2 * (before 'a' + (2 ^ (n - 1) - 1) * N) ∧
      after 'L' = before 'L' + 2 * (before 'b' + (2 ^ (n - 1) - 1) * N) ∧
      s'.text.toList.filter (· ∉ Sequence.alphabet) =
        s.text.toList.filter (· ∉ Sequence.alphabet) := by
  intro s' before after N
  obtain ⟨m, rfl⟩ : ∃ m, n = m + 1 := ⟨n - 1, by omega⟩
  obtain ⟨ha, hb⟩ := s.count_growing_rounds m
  have hcount : ∀ d, after d = before d + before 'a' * Sequence.besideA.count d +
      before 'b' * Sequence.besideB.count d +
      (2 ^ (m + 1 - 1) - 1) * N * (Sequence.besideA.count d + Sequence.besideB.count d) :=
    s.count_rounds m
  have hright : Sequence.besideA.count 'R' = 2 ∧ Sequence.besideB.count 'R' = 0 := by decide
  have hleft : Sequence.besideA.count 'L' = 0 ∧ Sequence.besideB.count 'L' = 2 := by decide
  refine ⟨s.length_rounds _, s.utf8ByteSize_rounds _, s.forwardCount_rounds _, ha, hb, ?_, ?_,
    s.filter_unknown_rounds _⟩
  · rw [hcount 'R', hright.1, hright.2]
    ring
  · rw [hcount 'L', hleft.1, hleft.2]
    ring

/-- Three rounds of a text with bytes and letters of every kind. -/
theorem rounds_census_three :
    let s := Sequence.ofString "bF𝄞aLé"
    let s' := s.rounds 3
    let before c := s.text.toList.count c
    let after c := s'.text.toList.count c
    let N := before 'a' + before 'b'
    1 ≤ 3 ∧ N = 2 ∧
      s'.length = s.length + 4 * (2 ^ 3 - 1) * N ∧
      s'.text.utf8ByteSize = s.text.utf8ByteSize + 4 * (2 ^ 3 - 1) * N ∧
      s'.forwardCount = s.forwardCount + (2 ^ 3 - 1) * N ∧
      after 'a' = 2 ^ (3 - 1) * N ∧ after 'b' = 2 ^ (3 - 1) * N ∧
      after 'R' = before 'R' + 2 * (before 'a' + (2 ^ (3 - 1) - 1) * N) ∧
      after 'L' = before 'L' + 2 * (before 'b' + (2 ^ (3 - 1) - 1) * N) ∧
      s'.text.toList.filter (· ∉ Sequence.alphabet) =
        s.text.toList.filter (· ∉ Sequence.alphabet) :=
  ⟨by decide, by decide, rounds_census (Sequence.ofString "bF𝄞aLé") (by decide)⟩

end DragonCurve
