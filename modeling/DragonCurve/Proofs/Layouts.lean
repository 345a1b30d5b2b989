import DragonCurve.Records
import Mathlib.Tactic

/-! The layouts of a record. The fields of a record may stand in an object under
their names, in any order and among keys of other names, or in an array in their
declared order; where the absence of a field says what its value says, an object may
leave the field out. The value of a field may itself be laid out in more than one way.
Reading finds every field in every layout, so it gives back the value that was written
whatever the layout is, as long as the numbers of the value are in range. -/

namespace DragonCurve

/-! ### Slots -/

/-- What may stand for a field in a record. -/
structure Slot where
  name : String
  /-- The values that say what the field says. -/
  Form : Json → Prop
  /-- May an object leave the field out? -/
  Omissible : Prop := False

/-- A field with one written value. -/
def Slot.exactly (name : String) (j : Json) : Slot := { name := name, Form := (· = j) }

/-- The named values of fields in their declared order, without some that may be left
out. -/
inductive Listing : List Slot → List (String × Json) → Prop
  | nil : Listing [] []
  | given {s : Slot} {slots : List Slot} {j : Json} {named : List (String × Json)} :
    s.Form j → Listing slots named → Listing (s :: slots) ((s.name, j) :: named)
  | omitted {s : Slot} {slots : List Slot} {named : List (String × Json)} :
    s.Omissible → Listing slots named → Listing (s :: slots) named

/-- The layouts of a record with the given slots. -/
inductive Layout (slots : List Slot) : Json → Prop
  /-- The named values in any order, among keys of other names. -/
  | object {named extra fields : List (String × Json)} : Listing slots named →
    (∀ field ∈ extra, field.1 ∉ slots.map Slot.name) → fields.Perm (named ++ extra) →
    Layout slots (.obj fields)
  /-- The values of all fields in their declared order. -/
  | array {items : List Json} : List.Forall₂ Slot.Form slots items → Layout slots (.arr items)

/-- Either the named values have just one value of the slot's name and it has the form
of the field, or they have none and the field may be left out. -/
def Slot.Found (s : Slot) (fields : List (String × Json)) : Prop :=
  (∃ j, s.Form j ∧ ∀ v, (s.name, v) ∈ fields ↔ v = j) ∨
    s.Omissible ∧ ∀ v, (s.name, v) ∉ fields

namespace Slot

theorem Found.congr {s : Slot} {fields fields' : List (String × Json)} (h : s.Found fields)
    (e : ∀ v, (s.name, v) ∈ fields' ↔ (s.name, v) ∈ fields) : s.Found fields' := by
  simpa only [Found, e] using h

theorem lookup_eq_some {name : String} {fields : List (String × Json)} {j : Json}
    (h : ∀ v, (name, v) ∈ fields ↔ v = j) : fields.lookup name = some j := by
  cases hl : fields.lookup name with
  | none =>
    have hne := List.lookup_eq_none_iff.mp hl (name, j) ((h j).mpr rfl)
    simp at hne
  | some v =>
    obtain ⟨before, after, rfl, -⟩ := List.lookup_eq_some_iff.mp hl
    rw [(h v).mp (by simp)]

section Reading

variable {s : Slot} {fields : List (String × Json)} {α : Type} {read : Json → Option α} {a : α}

/-- A field that is found is read, if every form of it reads as its value. -/
theorem Found.required (h : s.Found fields) (hgiven : ¬ s.Omissible)
    (hread : ∀ j, s.Form j → read j = some a) : required? fields s.name read = some a := by
  obtain ⟨j, hj, hmem⟩ | ⟨habsent, -⟩ := h
  · rw [required?, lookup_eq_some hmem, Option.bind_some, hread j hj]
  · exact absurd habsent hgiven

theorem Found.optional {absent : α} (h : s.Found fields) (habsent : s.Omissible → absent = a)
    (hread : ∀ j, s.Form j → read j = some a) : optional? fields s.name read absent = some a := by
  obtain ⟨j, hj, hmem⟩ | ⟨homit, hnone⟩ := h
  · rw [optional?, lookup_eq_some hmem]
    exact hread j hj
  · have hl : fields.lookup s.name = none := by
      rw [List.lookup_eq_none_iff]
      rintro ⟨name, v⟩ hv
      rw [bne_iff_ne]
      rintro rfl
      exact hnone v hv
    rw [optional?, hl, habsent homit]

end Reading

end Slot

/-! ### Layouts -/

theorem Listing.name_mem {slots : List Slot} {named : List (String × Json)}
    (h : Listing slots named) : ∀ field ∈ named, field.1 ∈ slots.map Slot.name := by
  induction h with
  | nil => simp
  | given _ _ ih => simpa using fun name v hv => Or.inr (by simpa using ih (name, v) hv)
  | omitted _ _ ih => exact fun field hf => List.mem_cons_of_mem _ (ih field hf)

/-- With different names, a listing has every slot. -/
theorem Listing.found {slots : List Slot} {named : List (String × Json)}
    (h : Listing slots named) (hnames : (slots.map Slot.name).Nodup) :
    ∀ s ∈ slots, s.Found named := by
  induction h with
  | nil => simp
  | @given s slots j named hj hrest ih =>
    rw [List.map_cons, List.nodup_cons] at hnames
    obtain ⟨hnew, hnames⟩ := hnames
    -- the rest lists only later names, so the head is the one value of its name
    have hnot : ∀ v, (s.name, v) ∉ named := fun v hv => hnew (hrest.name_mem _ hv)
    rintro s' (_ | ⟨_, hs'⟩)
    · exact Or.inl ⟨j, hj, fun v => by simp [hnot]⟩
    · refine (ih hnames s' hs').congr fun v => ?_
      have hne : s'.name ≠ s.name := fun e => hnew (e ▸ List.mem_map_of_mem hs')
      simp [hne]
  | @omitted s slots named homit hrest ih =>
    rw [List.map_cons, List.nodup_cons] at hnames
    rintro s' (_ | ⟨_, hs'⟩)
    · exact Or.inr ⟨homit, fun v hv => hnames.1 (hrest.name_mem _ hv)⟩
    · exact ih hnames.2 s' hs'

theorem Listing.of_forall₂ {slots : List Slot} {values : List Json}
    (h : List.Forall₂ Slot.Form slots values) :
    Listing slots ((slots.map Slot.name).zip values) := by
  induction h with
  | nil => exact .nil
  | cons hj _ ih => exact .given hj ih

namespace Layout

variable {slots : List Slot}

/-- A record as it is written is one of its layouts. -/
theorem record {values : List Json} (h : List.Forall₂ Slot.Form slots values) :
    Layout slots (.record (slots.map Slot.name) values) :=
  @object slots _ [] _ (.of_forall₂ h) (by simp) (by simp)

/-- In every layout the fields are found by their names. -/
theorem found {j : Json} (h : Layout slots j) {names : List String}
    (hslots : slots.map Slot.name = names) (hnames : names.Nodup) {least : ℕ}
    (hleast : least ≤ names.length) : ∃ fields,
      j.record? names least = some fields ∧ ∀ s ∈ slots, s.Found fields := by
  subst hslots
  cases h with
  | @object named extra fields hlist hextra hperm =>
    refine ⟨fields, rfl, fun s hs => (hlist.found hnames s hs).congr fun v => ?_⟩
    -- neither the order nor a key of another name changes the values of a slot's name
    have hnot : (s.name, v) ∉ extra := fun hv => hextra _ hv (List.mem_map_of_mem hs)
    rw [hperm.mem_iff, List.mem_append, or_iff_left hnot]
  | @array items hitems =>
    have hlength : items.length = (slots.map Slot.name).length := by
      rw [List.length_map, hitems.length_eq]
    refine ⟨_, if_pos ?_, (Listing.of_forall₂ hitems).found hnames⟩
    exact ⟨hlength ▸ hleast, hlength.le⟩

end Layout

end DragonCurve
