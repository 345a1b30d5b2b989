import DragonCurve.Proofs.Growth

/-! Where an expansion ends. A round trips the cutoff when it is numbered below
the limit and longer than the cutoff length; its length is known from its number
alone. The expansion ends with the first such round, or with the last if there
is none, so its depth, its text and all its lengths are given by the settings
and the depth that was asked for. -/

namespace DragonCurve

namespace Settings

/-- The rounds up to `depth` that trip the cutoff. -/
def trips (c : Settings) (depth : ℕ) : Set ℕ :=
  {r | 1 ≤ r ∧ r ≤ depth ∧ r < c.cutoffRoundLimit ∧ c.cutoffLength < 2 ^ (r + 2) - 2}

/-- Round `e` is the first up to `depth` that trips the cutoff, or is `depth`
itself and none does. -/
def EndsAt (c : Settings) (depth e : ℕ) : Prop :=
  IsLeast (c.trips depth) e ∨ c.trips depth = ∅ ∧ e = depth

theorem EndsAt.unique {c : Settings} {depth e e' : ℕ} (h : c.EndsAt depth e)
    (h' : c.EndsAt depth e') : e = e' := by
  rcases h with h | ⟨h, rfl⟩ <;> rcases h' with h' | ⟨h', rfl⟩
  · exact h.unique h'
  · exact absurd (h' ▸ h.1) (Set.notMem_empty _)
  · exact absurd (h ▸ h'.1) (Set.notMem_empty _)
  · rfl

theorem EndsAt.le {c : Settings} {depth e : ℕ} (h : c.EndsAt depth e) : e ≤ depth := by
  rcases h with h | ⟨-, rfl⟩
  · exact h.1.2.1
  · exact le_rfl

/-- The cutoff leaves at least one round, as round zero never trips it. -/
theorem EndsAt.pos {c : Settings} {depth e : ℕ} (h : c.EndsAt depth e) (hd : 0 < depth) :
    0 < e := by
  rcases h with h | ⟨-, rfl⟩
  · exact h.1.1
  · exact hd

theorem cutsOff_rounds_seed {c : Settings} {r : ℕ} :
    c.cutsOff r (Sequence.seed.rounds r).length = true ↔
      r < c.cutoffRoundLimit ∧ c.cutoffLength < 2 ^ (r + 2) - 2 := by
  simp [cutsOff, Sequence.length_rounds_seed]

/-- Under the standard settings no round of the seed trips the cutoff: the last
one below the limit has 65534 symbols. -/
theorem trips_standard (depth : ℕ) : standard.trips depth = ∅ := by
  rw [Set.eq_empty_iff_forall_notMem]
  rintro r ⟨-, -, hlimit, hlength⟩
  have hpow : 2 ^ (r + 2) ≤ 2 ^ 16 :=
    Nat.pow_le_pow_right (by omega) (by simp only [standard] at hlimit; omega)
  simp only [standard] at hlength
  omega

end Settings

/-- An expansion ends with the first round that trips the cutoff, or else with
the last. -/
theorem expand_endsAt (c : Settings) (d : ℕ) : c.EndsAt d (expand c d).value.depthReached := by
  obtain ⟨m, hm, he, hbefore, hlast⟩ := expand_eq c d
  rw [he]
  have hfirst : ∀ r ∈ c.trips d, m ≤ r := by
    rintro r ⟨h1, -, htrip⟩
    by_contra hr
    exact Bool.false_ne_true
      ((hbefore r h1 (by omega)).symm.trans (Settings.cutsOff_rounds_seed.mpr htrip))
  by_cases hmem : m ∈ c.trips d
  · exact Or.inl ⟨hmem, hfirst⟩
  · have hmd : m = d := by
      by_contra hne
      obtain ⟨h0, hcut⟩ := hlast (by omega)
      exact hmem ⟨h0, hm, Settings.cutsOff_rounds_seed.mp hcut⟩
    subst hmd
    refine Or.inr ⟨Set.eq_empty_iff_forall_notMem.mpr fun r hr => ?_, rfl⟩
    exact hmem (Nat.le_antisymm hr.2.1 (hfirst r hr) ▸ hr)

theorem Settings.endsAt_zero (c : Settings) : c.EndsAt 0 0 := by
  have h := expand_endsAt c 0
  rwa [Nat.le_zero.mp h.le] at h

theorem Settings.endsAt_standard (depth : ℕ) : standard.EndsAt depth depth :=
  Or.inr ⟨trips_standard depth, rfl⟩

/-- The outcome of an expansion under the cutoff: where it ends, that it is as
many literal rounds of the seed, how long every round is, and that it counts as
truncated when a round before the last trips the cutoff. -/
theorem expand_outcome (c : Settings) (d : ℕ) :
    let e := (expand c d).value
    c.EndsAt d e.depthReached ∧ e.requestedDepth = d ∧
      e.sequence = Sequence.literal e.depthReached ∧
      e.roundLengths = (List.range (e.depthReached + 1)).map (fun i => 2 ^ (i + 2) - 2) ∧
      e.roundLengths.getLast? = some e.sequence.length ∧
      (e.truncated = true ↔ ∃ r < d, IsLeast (c.trips d) r) := by
  intro e
  have hend : c.EndsAt d e.depthReached := expand_endsAt c d
  have hreq : e.requestedDepth = d := expand_requestedDepth c d
  have hseq : e.sequence = Sequence.seed.rounds e.depthReached := expand_sequence c d
  have hlengths : e.roundLengths =
      (List.range (e.depthReached + 1)).map (fun i => 2 ^ (i + 2) - 2) := by
    obtain ⟨m, -, he, -⟩ := expand_eq c d
    simp only [e, he, Sequence.length_rounds_seed]
  refine ⟨hend, hreq, hseq.trans (Sequence.rounds_seed_eq_literal _), hlengths, ?_, ?_⟩
  · rw [hlengths, List.range_succ, List.map_append, hseq, Sequence.length_rounds_seed]
    exact List.getLast?_concat
  · rw [Expansion.truncated, decide_eq_true_iff, hreq]
    constructor
    · intro hlt
      rcases hend with hleast | ⟨-, hd⟩
      · exact ⟨_, hlt, hleast⟩
      · omega
    · rintro ⟨r, hr, hleast⟩
      rwa [hend.unique (Or.inl hleast)]

/-- A round of just the cutoff length does not trip it. -/
example : (expand { cutoffLength := 14 } 5).value.depthReached = 3 := by decide

end DragonCurve
