import DragonCurve.Proofs.Naming
import Mathlib.Order.Lattice.Nat

/-! Where a conversion stops. It stops at the first character that the table refuses, or
that finds the list full, whichever comes first; where both come at once the table is asked
first. A refused character leaves the table as it was, and a character that finds the list
full has been taken by then. -/

namespace DragonCurve

namespace NameTable

variable {τ : Type*} [NameTable τ]

/-- The table with the characters before number `i` of a text refuses this character. -/
def RefusesAt (t : τ) (cs : List Char) (i : ℕ) (r : Refusal) : Prop :=
  ∃ c, cs[i]? = some c ∧ refusalAfter? t (cs.take i) c = some r

/-- The characters of a text that are refused or that a list of modules has no room for. -/
def stops (t : τ) (cs : List Char) : Set ℕ :=
  {i | i < cs.length ∧ ((∃ r, RefusesAt t cs i r) ∨ i = 1000000)}

variable {t : τ} {i : ℕ}

/-- There is one reason only. -/
theorem RefusesAt.unique {cs : List Char} {r r' : Refusal} (h : RefusesAt t cs i r)
    (h' : RefusesAt t cs i r') : r = r' := by
  obtain ⟨c, hc, hr⟩ := h
  obtain ⟨c', hc', hr'⟩ := h'
  obtain rfl : c = c' := Option.some.inj (hc.symm.trans hc')
  exact Option.some.inj (hr.symm.trans hr')

theorem refusesAt_append {as bs : List Char} {r : Refusal} (hi : i < as.length) :
    RefusesAt t (as ++ bs) i r ↔ RefusesAt t as i r := by
  rw [RefusesAt, RefusesAt, List.getElem?_append_left hi, List.take_append_of_le_length hi.le]

theorem refusesAt_length {as bs : List Char} {c : Char} {r : Refusal} :
    RefusesAt t (as ++ c :: bs) as.length r ↔ refusalAfter? t as c = some r := by
  simp [RefusesAt]

theorem stops_append {as bs : List Char} (h : i ∈ stops t as) : i ∈ stops t (as ++ bs) := by
  obtain ⟨hi, hstop⟩ := h
  refine ⟨by rw [List.length_append]; omega, hstop.imp_left fun ⟨r, hr⟩ => ⟨r, ?_⟩⟩
  exact (refusesAt_append hi).mpr hr

theorem exists_isLeast_stops {cs : List Char} (h : (stops t cs).Nonempty) :
    ∃ i, IsLeast (stops t cs) i :=
  ⟨sInf (stops t cs), Nat.sInf_mem h, fun _ => Nat.sInf_le⟩

end NameTable

open NameTable ModuleList

variable {τ μ : Type*} [NameTable τ] [ModuleList μ] {t u : τ}

namespace ModuleList

/-- A conversion goes on where the conversion of the first part has ended. -/
theorem ofChars_append {as bs : List Char} {m m' : μ} (h : ofChars as t m = (u, .ok m')) :
    ofChars (as ++ bs) t m = ofChars bs u m' := by
  induction as generalizing t m with
  | nil =>
    cases h
    rfl
  | cons c as ih =>
    rw [ofChars] at h
    rw [List.cons_append, ofChars]
    split at h
    next => cases h
    next v id hintern =>
      split at h
      next => exact ih h
      next => cases h

variable {pre : List Char} {m : μ}

theorem length_ofChars (h : ofChars pre t empty = (u, .ok m)) : length m = pre.length := by
  obtain ⟨-, l, hpush, hnames⟩ := names_ofChars h
  rw [length_eq, ids_of_pushAll_empty hpush, hnames.length_eq]

/-- After a part that is converted, the next character is refused, finds the list full or
is converted. -/
theorem ofChars_next (h : ofChars pre t empty = (u, .ok m)) (c : Char) (rest : List Char) :
    (∃ r, refusalAfter? t pre c = some r ∧
      ofChars (pre ++ c :: rest) t (empty : μ) = (u, .error (.refused r))) ∨
    (refusalAfter? t pre c = none ∧ ∃ v, Took t (pre ++ [c]) v ∧
      ((pre.length = capacity ∧ ofChars (pre ++ c :: rest) t (empty : μ) = (v, .error .full)) ∨
        ∃ m' : μ, ofChars (pre ++ [c]) t empty = (v, .ok m'))) := by
  rw [ofChars_append h, ofChars_append h, ofChars, ofChars]
  obtain ⟨r, hr, he⟩ | ⟨hnone, v, id, he, hv⟩ := (took_ofChars (.refl t) h).intern_cases c
  · exact .inl ⟨r, hr, by rw [he]⟩
  · refine .inr ⟨hnone, v, hv, ?_⟩
    rw [he]
    obtain ⟨full, hpush⟩ | ⟨-, m', hpush, -⟩ := push?_cases m id
    · exact .inl ⟨(length_ofChars h).symm.trans full, by simp only [hpush]⟩
    · exact .inr ⟨m', by simp only [hpush, ofChars]⟩

/-- A text without a character to stop at is converted. -/
theorem ofChars_of_stops_eq_empty {cs : List Char} (h : stops t cs = ∅) :
    ∃ u, ∃ m : μ, ofChars cs t empty = (u, .ok m) := by
  induction cs using List.reverseRecOn with
  | nil => exact ⟨t, empty, rfl⟩
  | append_singleton cs c ih =>
    have hfree : ∀ i, i ∉ stops t (cs ++ [c]) := Set.eq_empty_iff_forall_notMem.mp h
    obtain ⟨u, m, hpre⟩ := ih
      (Set.eq_empty_iff_forall_notMem.mpr fun i hi => hfree i (stops_append hi))
    have hlast : cs.length < (cs ++ [c]).length := by simp
    obtain ⟨r, hr, -⟩ | ⟨-, v, -, ⟨hfull, -⟩ | ⟨m', he⟩⟩ := ofChars_next hpre c []
    · exact absurd ⟨hlast, .inl ⟨r, refusesAt_length.mpr hr⟩⟩ (hfree cs.length)
    · exact absurd ⟨hlast, .inr hfull⟩ (hfree cs.length)
    · exact ⟨v, m', he⟩

/-- A conversion that fails has a character to stop at. -/
theorem stops_nonempty_of_error {cs : List Char} {e : ConversionError}
    (h : (ofChars cs t (empty : μ)).2 = .error e) : (stops t cs).Nonempty := by
  rw [Set.nonempty_iff_ne_empty]
  intro hempty
  obtain ⟨u, m, hok⟩ := ofChars_of_stops_eq_empty (μ := μ) hempty
  rw [hok] at h
  cases h

/-- A text is converted up to the first character to stop at, and no further. -/
theorem ofChars_of_isLeast {cs : List Char} {i : ℕ} (h : IsLeast (stops t cs) i) :
    ∃ c, cs[i]? = some c ∧
      ((∃ r u, RefusesAt t cs i r ∧ Took t (cs.take i) u ∧
        ofChars cs t (empty : μ) = (u, .error (.refused r))) ∨
      ((∀ r, ¬ RefusesAt t cs i r) ∧ ∃ v, Took t (cs.take i ++ [c]) v ∧
        ofChars cs t (empty : μ) = (v, .error .full))) := by
  obtain ⟨⟨hi, hstop⟩, hleast⟩ := h
  have hcapacity : capacity = 1000000 := rfl
  obtain ⟨pre, c, rest, rfl, rfl⟩ : ∃ pre c rest, cs = pre ++ c :: rest ∧ pre.length = i :=
    ⟨cs.take i, cs[i], cs.drop (i + 1), by simp, by simp [hi.le]⟩
  have hfree : stops t pre = ∅ := by
    refine Set.eq_empty_iff_forall_notMem.mpr fun j hj => ?_
    have hj' := hleast (stops_append hj)
    exact absurd hj.1 (by omega)
  obtain ⟨u, m, hpre⟩ := ofChars_of_stops_eq_empty (μ := μ) hfree
  refine ⟨c, by simp, ?_⟩
  rw [List.take_left]
  obtain ⟨r, hr, he⟩ | ⟨hnone, v, hv, ⟨-, he⟩ | ⟨m', he⟩⟩ := ofChars_next hpre c rest
  · exact .inl ⟨r, u, refusesAt_length.mpr hr, took_ofChars (.refl t) hpre, he⟩
  · refine .inr ⟨fun r hr => ?_, v, hv, he⟩
    rw [refusesAt_length, hnone] at hr
    cases hr
  · -- the character was converted, so it was no character to stop at
    exfalso
    rcases hstop with ⟨r, hr⟩ | hfull
    · rw [refusesAt_length, hnone] at hr
      cases hr
    · have hlength : length m' = pre.length + 1 := by
        rw [length_ofChars he, List.length_append, List.length_singleton]
      have hle : length m' ≤ capacity := length_le m'
      omega

end ModuleList

namespace Sequence

/-- When and how a conversion fails. It fails exactly when the text has a character to stop
at. At the first of these, if the table refuses the character, this is the failure, and the
table has its earlier names and the new characters before it; if not, the list is full, and
the table has taken the character, too. A name is never missing after it was interned. -/
theorem toModules_stops (x : String) (t : τ) :
    let result : τ × Except ConversionError μ := (ofString x).toModules t
    let cs := x.toList
    ((∃ e, result.2 = .error e) ↔ (stops t cs).Nonempty) ∧
    (∀ i, IsLeast (stops t cs) i →
      (∀ r, RefusesAt t cs i r → result.2 = .error (.refused r) ∧
        names result.1 = namesWith t (cs.take i)) ∧
      ((∀ r, ¬ RefusesAt t cs i r) → result.2 = .error .full ∧ ∃ c, cs[i]? = some c ∧
        names result.1 =
          namesWith t (cs.take i) ++ if NewAfter t (cs.take i) c then [c.toString] else [])) ∧
    ∀ name, result.2 ≠ .error (.missing name) := by
  intro result cs
  have hresult : result = ofChars cs t ModuleList.empty := toModules_eq_ofChars _ t
  rw [hresult]
  refine ⟨⟨fun ⟨_, he⟩ => stops_nonempty_of_error he, fun h => ?_⟩, fun i hi => ?_,
    fun name hname => ?_⟩
  · obtain ⟨i, hi⟩ := exists_isLeast_stops h
    obtain ⟨c, -, ⟨r, u, -, -, he⟩ | ⟨-, v, -, he⟩⟩ := ofChars_of_isLeast (μ := μ) hi
    · exact ⟨_, by rw [he]⟩
    · exact ⟨_, by rw [he]⟩
  · obtain ⟨c, hc, ⟨r, u, hr, hu, he⟩ | ⟨hnone, v, hv, he⟩⟩ := ofChars_of_isLeast (μ := μ) hi
    · rw [he]
      refine ⟨fun r' hr' => ?_, fun hnone => absurd hr (hnone r)⟩
      rw [hr'.unique hr]
      exact ⟨rfl, hu.names_eq⟩
    · rw [he]
      refine ⟨fun r hr => absurd hr (hnone r), fun _ => ⟨rfl, c, hc, ?_⟩⟩
      rw [← namesWith_concat]
      exact hv.names_eq
  · obtain ⟨i, hi⟩ := exists_isLeast_stops (stops_nonempty_of_error hname)
    obtain ⟨c, -, ⟨r, u, -, -, he⟩ | ⟨-, v, -, he⟩⟩ := ofChars_of_isLeast (μ := μ) hi
    · rw [he] at hname
      cases hname
    · rw [he] at hname
      cases hname

/-- The repeated `F` needs no room. -/
example : RefusesAt (Interner.empty 1) "FFa".toList 2 .tooManyBytes := ⟨'a', rfl, by cbv⟩

end Sequence

end DragonCurve
