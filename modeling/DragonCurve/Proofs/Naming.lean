import DragonCurve.Proofs.Conversion
import Mathlib.Tactic

/-! The names that a conversion leaves. A character is new if neither the table nor the
text before it has it. Interning adds the name of a new character behind all others, or
refuses it when the table is out of numbers or out of room; a character that is not new
changes nothing. So after a text the table has its earlier names followed by the new
characters of the text, each where it first occurs. The modules spell the text in this
table, and a second conversion finds every character. -/

namespace DragonCurve

namespace NameTable

variable {τ : Type*} [NameTable τ]

/-- The character is neither in the table nor in the text before it. -/
def NewAfter (t : τ) (cs : List Char) (c : Char) : Prop := c.toString ∉ names t ∧ c ∉ cs

instance (t : τ) (cs : List Char) (c : Char) : Decidable (NewAfter t cs c) :=
  inferInstanceAs (Decidable (_ ∧ _))

/-- The characters of a text that a table does not have, each where it first occurs. -/
def newChars (t : τ) (cs : List Char) : List Char := cs.eraseDups.filter (·.toString ∉ names t)

/-- The names of a table, followed by the new characters of a text. -/
def namesWith (t : τ) (cs : List Char) : List String := names t ++ (newChars t cs).map Char.toString

/-- Why a table refuses the character after a text, if it does. -/
def refusalAfter? (t : τ) (cs : List Char) (c : Char) : Option Refusal :=
  if NewAfter t cs c then refusal? (namesWith t cs) (maxBytes t) c.toString else none

/-- The table `u` is the table `t` with the new characters of a text. -/
structure Took (t : τ) (cs : List Char) (u : τ) : Prop where
  names_eq : names u = namesWith t cs
  maxBytes_eq : maxBytes u = maxBytes t

variable {t u : τ} {cs : List Char}

theorem Took.refl (t : τ) : Took t [] t := ⟨by simp [namesWith, newChars], rfl⟩

theorem newChars_concat (t : τ) (cs : List Char) (c : Char) :
    newChars t (cs ++ [c]) = newChars t cs ++ if NewAfter t cs c then [c] else [] := by
  have hlast : ([c].removeAll cs).eraseDups = if c ∈ cs then [] else [c] := by
    by_cases h : c ∈ cs <;> simp [List.removeAll, h, List.eraseDups_cons]
  rw [newChars, List.eraseDups_append, List.filter_append, hlast, newChars]
  congr 1
  by_cases hc : c ∈ cs
  · rw [if_pos hc, List.filter_nil, if_neg fun hnew => hnew.2 hc]
  · rw [if_neg hc, List.filter_cons, List.filter_nil]
    simp only [NewAfter, hc, not_false_eq_true, and_true, decide_eq_true_eq]

theorem namesWith_concat (t : τ) (cs : List Char) (c : Char) : namesWith t (cs ++ [c]) =
    namesWith t cs ++ if NewAfter t cs c then [c.toString] else [] := by
  rw [namesWith, newChars_concat, List.map_append, ← List.append_assoc, namesWith]
  congr 1
  split_ifs <;> rfl

theorem not_mem_namesWith_iff {c : Char} : c.toString ∉ namesWith t cs ↔ NewAfter t cs c := by
  simp only [namesWith, newChars, NewAfter, List.mem_append, List.mem_map, List.mem_filter,
    List.mem_eraseDups, toString_inj, decide_eq_true_eq]
  grind

/-- The numbers of two characters are equal exactly when the characters are. -/
theorem id_eq_iff {id id' : ℕ} {c c' : Char} (h : name? u id = some c.toString)
    (h' : name? u id' = some c'.toString) : id = id' ↔ c = c' := by
  constructor
  · rintro rfl
    exact toString_inj.mp (Option.some.inj (h.symm.trans h'))
  · rintro rfl
    exact eq_of_name? h h'

/-- All that interning the next character of a text can do: the table refuses it and is as
before, or has taken it. -/
theorem Took.intern_cases (h : Took t cs u) (c : Char) :
    (∃ r, refusalAfter? t cs c = some r ∧ intern u c.toString = (u, .error r)) ∨
    (refusalAfter? t cs c = none ∧
      ∃ v id, intern u c.toString = (v, .ok id) ∧ Took t (cs ++ [c]) v) := by
  have hnew : id? u c.toString = none ↔ NewAfter t cs c := by
    rw [id?_eq_none_iff, h.names_eq, not_mem_namesWith_iff]
  have hconcat := namesWith_concat t cs c
  rw [refusalAfter?, ← h.names_eq, ← h.maxBytes_eq]
  obtain ⟨id, known, he⟩ | ⟨absent, r, hr, he⟩ | ⟨absent, hnone, v, he, hnames, hmax⟩ :=
    NameTable.intern_cases u c.toString
  · have hold : ¬ NewAfter t cs c := by
      rw [← hnew, known]
      simp
    rw [if_neg hold, List.append_nil] at hconcat
    exact .inr ⟨if_neg hold, u, id, he, h.names_eq.trans hconcat.symm, h.maxBytes_eq⟩
  · exact .inl ⟨r, by rw [if_pos (hnew.mp absent), hr], he⟩
  · have hc : NewAfter t cs c := hnew.mp absent
    rw [if_pos hc] at hconcat
    refine .inr ⟨by rw [if_pos hc, hnone], v, _, he, ?_, hmax.trans h.maxBytes_eq⟩
    rw [hnames, hconcat, h.names_eq]

end NameTable

open NameTable ModuleList

variable {τ μ : Type*} [NameTable τ] [ModuleList μ] {t u v : τ} {m m' : μ}

namespace ModuleList

/-- A conversion that goes on after the text `pre` leaves the table with the new characters
of both texts. -/
theorem took_ofChars {pre cs : List Char} (hu : Took t pre u)
    (h : ofChars cs u m = (v, .ok m')) : Took t (pre ++ cs) v := by
  induction cs generalizing pre u m with
  | nil =>
    cases h
    rwa [List.append_nil]
  | cons c cs ih =>
    rw [ofChars] at h
    obtain ⟨r, -, he⟩ | ⟨-, w, id, he, hw⟩ := hu.intern_cases c
    · rw [he] at h
      cases h
    · rw [he] at h
      dsimp only at h
      split at h
      · have hv := ih hw h
        rwa [List.append_assoc] at hv
      · cases h

/-- A conversion in a table that knows all characters appends their numbers. -/
theorem ofChars_of_known {l : List ℕ} {cs : List Char}
    (h : List.Forall₂ (fun id c => name? u id = some c.toString) l cs)
    (hpush : pushAll m l = (m', true)) : ofChars cs u m = (u, .ok m') := by
  induction h generalizing m with
  | nil =>
    cases hpush
    rfl
  | @cons id c l cs hname _ ih =>
    rw [ofChars, intern_of_known ((id?_eq_some_iff u _ _).mpr hname)]
    rw [pushAll] at hpush
    cases hm₁ : push? m id with
    | none =>
      simp only [hm₁] at hpush
      cases hpush
    | some m₁ =>
      simp only [hm₁] at hpush ⊢
      exact ih hpush

end ModuleList

namespace Sequence

/-- A conversion that succeeds loses nothing. There is a module for each character; it is
numbered by the character's name, and equal numbers are equal characters. The table has its
earlier names, with their numbers, and the new characters behind them, in the order in which
they first occur. Converting the text again in this table gives the same modules and the
same table. -/
theorem toModules_lossless {x : String} (h : (ofString x).toModules t = (u, .ok m)) :
    ModuleList.length m = x.length ∧
    (∀ (i : ℕ) (c : Char), x.toList[i]? = some c →
      ∃ id, (ids m)[i]? = some id ∧ name? u id = some c.toString) ∧
    (∀ i j : ℕ, i < x.length → j < x.length →
      ((ids m)[i]? = (ids m)[j]? ↔ x.toList[i]? = x.toList[j]?)) ∧
    names u = names t ++
      (x.toList.eraseDups.filter (·.toString ∉ names t)).map Char.toString ∧
    (∀ id name, name? t id = some name → name? u id = some name) ∧
    (ofString x).toModules u = (u, .ok m) := by
  rw [toModules_eq_ofChars, text_ofString] at h
  obtain ⟨hext, l, hpush, hnames⟩ := names_ofChars h
  obtain rfl := ids_of_pushAll_empty hpush
  obtain ⟨hlength, hget⟩ := List.forall₂_iff_get.mp hnames
  have hspell : ∀ (i : ℕ) (c : Char), x.toList[i]? = some c →
      ∃ id, (ids m)[i]? = some id ∧ name? u id = some c.toString := by
    intro i c hc
    obtain ⟨hi, rfl⟩ := List.getElem?_eq_some_iff.mp hc
    have hi' : i < (ids m).length := by omega
    exact ⟨(ids m)[i], List.getElem?_eq_getElem hi', hget i hi' hi⟩
  rw [← String.length_toList, ModuleList.length_eq]
  refine ⟨hlength, hspell, fun i j hi hj => ?_, (took_ofChars (.refl t) h).names_eq, hext, ?_⟩
  · have hci := List.getElem?_eq_getElem hi
    have hcj := List.getElem?_eq_getElem hj
    obtain ⟨id, hid, hname⟩ := hspell i _ hci
    obtain ⟨id', hid', hname'⟩ := hspell j _ hcj
    rw [hid, hid', hci, hcj, Option.some.injEq, Option.some.injEq]
    exact id_eq_iff hname hname'
  · rw [toModules_eq_ofChars, text_ofString]
    exact ofChars_of_known hnames hpush

/-- A text with a known character, two new ones and two repetitions. -/
theorem toModules_lossless_repeated :
    let t := ((Interner.empty 64).intern "F").1
    let x := "aF𝄞Fa"
    ∃ u, ∃ m : Modules, (ofString x).toModules t = (u, .ok m) ∧
      ModuleList.length m = x.length ∧
      (∀ (i : ℕ) (c : Char), x.toList[i]? = some c →
        ∃ id, (ids m)[i]? = some id ∧ name? u id = some c.toString) ∧
      (∀ i j : ℕ, i < x.length → j < x.length →
        ((ids m)[i]? = (ids m)[j]? ↔ x.toList[i]? = x.toList[j]?)) ∧
      names u = names t ++
        (x.toList.eraseDups.filter (·.toString ∉ names t)).map Char.toString ∧
      (∀ id name, name? t id = some name → name? u id = some name) ∧
      (ofString x).toModules u = (u, .ok m) := by
  intro t x
  obtain ⟨-, u, m, h⟩ :
      name? t 0 = some "F" ∧ ∃ u, ∃ m : Modules, (ofString x).toModules t = (u, .ok m) :=
    toModules_intern_empty (by decide) (by decide)
  exact ⟨u, m, h, toModules_lossless h⟩

end Sequence

end DragonCurve
