import DragonCurve.Proofs.RoundTrip

/-! Settings read over the standard ones. The fields of the settings form a table, and
reading is one rule for all of them: what a JSON value says of a field has to be a whole
number in the range of the field, and where it says nothing the field is standard. So
reading succeeds for the objects and the short enough arrays that say nothing else of the
fields, and what an object says of a field depends neither on the order of its keys nor
on keys of other names. The numbers read fit their fields, so they are read back from
what is written of them. -/

namespace DragonCurve

theorem Json.nat?_eq_some_iff {bits n : ℕ} {j : Json} :
    nat? bits j = some n ↔ j = .int n ∧ n < 2 ^ bits := by
  constructor
  · intro h
    cases j with
    | int m =>
      have hspan : span bits = 2 ^ bits := rfl
      simp only [nat?, hspan, Option.ite_none_right_eq_some, Option.some.injEq] at h
      obtain ⟨⟨hnonneg, hlt⟩, rfl⟩ := h
      rw [Int.toNat_of_nonneg hnonneg]
      exact ⟨rfl, by omega⟩
    | _ => simp [nat?] at h
  · rintro ⟨rfl, hn⟩
    exact nat?_of_lt hn

/-! ### Values under names -/

section

variable {α : Type} {named : List (String × α)} {name : String}

/-- Where no name stands twice, what is looked up is what stands there. -/
theorem lookup_eq_some_iff_mem (h : (named.map Prod.fst).Nodup) {v : α} :
    named.lookup name = some v ↔ (name, v) ∈ named := by
  induction named with
  | nil => simp
  | cons p named ih =>
    obtain ⟨n, w⟩ := p
    rw [List.map_cons, List.nodup_cons] at h
    by_cases hn : name = n
    · subst hn
      have hrest : (name, v) ∉ named := fun hv => h.1 (List.mem_map.mpr ⟨_, hv, rfl⟩)
      simp [hrest, eq_comm]
    · have hne : (name == n) = false := by simpa using hn
      simp [List.lookup_cons, hne, hn, ih h.2]

/-- Items that are named in order are looked up by their places. -/
theorem lookup_zip {names : List String} (h : names.Nodup) {i : ℕ} (hi : names[i]? = some name)
    (items : List α) : (names.zip items).lookup name = items[i]? := by
  induction names generalizing items i with
  | nil => simp at hi
  | cons n names ih =>
    rw [List.nodup_cons] at h
    cases items with
    | nil => simp
    | cons v items =>
      cases i with
      | zero =>
        obtain rfl : n = name := by simpa using hi
        simp
      | succ i =>
        have hi : names[i]? = some name := by simpa using hi
        have hne : (name == n) = false := by
          rw [beq_eq_false_iff_ne]
          rintro rfl
          exact h.1 (List.mem_of_getElem? hi)
        simp [List.lookup_cons, hne, ih h.2 hi]

end

namespace Settings

/-! ### Fields -/

/-- A whole number in the range of the field. -/
def Field.Takes (f : Field) (j : Json) : Prop := ∃ n : ℕ, j = .int n ∧ n < 2 ^ f.bits

/-- What a JSON value says of the field in place `i`: an object what it holds under the
name of the field, first if the name is repeated, and an array what it holds in the place. -/
def Field.given? (f : Field) (i : ℕ) : Json → Option Json
  | .obj named => named.lookup f.name
  | .arr items => items[i]?
  | _ => none

theorem fits_standard : standard.Fits := by
  constructor <;> decide

/-- Settings are put together from values of their fields. -/
theorem exists_of_values {P : Field → ℕ → Prop} (h : ∀ f ∈ fields, ∃ n, P f n) :
    ∃ c : Settings, ∀ f ∈ fields, P f (f.value c) := by
  simp only [fields, List.forall_mem_cons] at h ⊢
  obtain ⟨⟨n₁, h₁⟩, ⟨n₂, h₂⟩, ⟨n₃, h₃⟩, ⟨n₄, h₄⟩, ⟨n₅, h₅⟩, ⟨n₆, h₆⟩, ⟨n₇, h₇⟩, ⟨n₈, h₈⟩, ⟨n₉, h₉⟩,
    -⟩ := h
  exact ⟨⟨n₁, n₂, n₃, n₄, n₅, n₆, n₇, n₈, n₉⟩, h₁, h₂, h₃, h₄, h₅, h₆, h₇, h₈, h₉,
    List.forall_mem_nil _⟩

/-! ### Reading -/

/-- What is read under the name of a field is what the value says of the field. -/
theorem lookup_eq_given {j : Json} {named : List (String × Json)}
    (hj : j.record? fieldNames 0 = some named) {i : ℕ} {f : Field} (hf : fields[i]? = some f) :
    named.lookup f.name = f.given? i j := by
  cases j with
  | obj _ =>
    obtain rfl : _ = named := Option.some.inj hj
    rfl
  | arr items =>
    simp only [Json.record?, Option.ite_none_right_eq_some, Option.some.injEq] at hj
    obtain ⟨-, rfl⟩ := hj
    have hname : fieldNames[i]? = some f.name := by
      rw [← map_name_fields, List.getElem?_map, hf, Option.map_some]
    exact lookup_zip (by decide) hname items
  | _ => cases hj

theorem optional?_eq_some_iff {named : List (String × Json)} {name : String} {bits absent n : ℕ}
    (habsent : absent < 2 ^ bits) : optional? named name (Json.nat? bits) absent = some n ↔
      (named.lookup name).getD (.int absent) = .int n ∧ n < 2 ^ bits := by
  rw [optional?]
  cases named.lookup name with
  | some v => exact Json.nat?_eq_some_iff
  | none =>
    simp only [Option.getD_none, Option.some.injEq, Json.int.injEq, Nat.cast_inj]
    constructor
    · rintro rfl
      exact ⟨rfl, habsent⟩
    · exact fun h => h.1

/-- Settings are read from a record that says what they are, the standard ones where it
says nothing, if their values fit. -/
theorem ofJson?_eq_some_iff_given {j : Json} {c : Settings} :
    ofJson? j = some c ↔ (j.record? fieldNames 0).isSome ∧ c.Fits ∧
      ∀ (i : ℕ) (f : Field), fields[i]? = some f →
        (f.given? i j).getD (.int (f.value standard)) = .int (f.value c) := by
  rw [ofJson?_eq_some_iff, fits_iff]
  have hstandard := fits_iff.mp fits_standard
  constructor
  · rintro ⟨named, hj, h⟩
    have hread := fun f hf => (optional?_eq_some_iff (hstandard f hf)).mp (h f hf)
    refine ⟨by rw [hj]; rfl, fun f hf => (hread f hf).2, fun i f hf => ?_⟩
    rw [← lookup_eq_given hj hf]
    exact (hread f (List.mem_of_getElem? hf)).1
  · rintro ⟨hsome, hfits, h⟩
    obtain ⟨named, hj⟩ := Option.isSome_iff_exists.mp hsome
    refine ⟨named, hj, fun f hf => ?_⟩
    obtain ⟨i, hi⟩ := List.mem_iff_getElem?.mp hf
    rw [optional?_eq_some_iff (hstandard f hf), lookup_eq_given hj hi]
    exact ⟨h i f hi, hfits f hf⟩

/-- A record is read if all that it says of a field is a value in its range. -/
theorem exists_ofJson?_iff {j : Json} : (∃ c, ofJson? j = some c) ↔
    (j.record? fieldNames 0).isSome ∧
      ∀ (i : ℕ) (f : Field), fields[i]? = some f → ∀ v, f.given? i j = some v → f.Takes v := by
  constructor
  · rintro ⟨c, hc⟩
    obtain ⟨hsome, hfits, h⟩ := ofJson?_eq_some_iff_given.mp hc
    refine ⟨hsome, fun i f hf v hv => ⟨f.value c, ?_, ?_⟩⟩
    · rw [← h i f hf, hv, Option.getD_some]
    · exact fits_iff.mp hfits f (List.mem_of_getElem? hf)
  · rintro ⟨hsome, h⟩
    obtain ⟨named, hj⟩ := Option.isSome_iff_exists.mp hsome
    -- each field has a value of its own, read or standard
    have hvalues : ∀ f ∈ fields, ∃ n,
        optional? named f.name (Json.nat? f.bits) (f.value standard) = some n := by
      intro f hf
      obtain ⟨i, hi⟩ := List.mem_iff_getElem?.mp hf
      have hgiven := lookup_eq_given hj hi
      cases hv : named.lookup f.name with
      | none => exact ⟨f.value standard, by rw [optional?, hv]⟩
      | some v =>
        obtain ⟨n, rfl, hn⟩ := h i f hi v (by rw [← hgiven, hv])
        exact ⟨n, by rw [optional?, hv]; exact Json.nat?_of_lt hn⟩
    obtain ⟨c, hc⟩ := exists_of_values hvalues
    exact ⟨c, ofJson?_eq_some_iff.mpr ⟨named, hj, hc⟩⟩

/-- Objects that hold the same under the names of the fields are read alike. -/
theorem ofJson?_obj_congr {named named' : List (String × Json)}
    (h : ∀ f ∈ fields, named.lookup f.name = named'.lookup f.name) :
    ofJson? (.obj named) = ofJson? (.obj named') := by
  ext c
  rw [ofJson?_eq_some_iff_given, ofJson?_eq_some_iff_given]
  refine and_congr_right fun _ => and_congr_right fun _ => forall₃_congr fun i f hf => ?_
  rw [Field.given?, Field.given?, h f (List.mem_of_getElem? hf)]

theorem ofJson?_toJson {c : Settings} (hc : c.Fits) : ofJson? c.toJson = some c :=
  ofJson?_of_layout hc c.layout_toJson

end Settings

/-- Settings are read from an object that holds numbers in range under the names of the
fields, as far as it has them, and from an array of at most nine numbers in range. What
the value says of a field is taken over, and otherwise the field is standard. The settings
are read back from what is written of them. Objects without repeated names are read alike
if they hold the same under the names of the fields, in whatever order and whatever else
they hold. -/
theorem settings_overlay :
    (∀ j, (∃ c, Settings.ofJson? j = some c) ↔
      (∃ named, j = .obj named ∧
        ∀ f ∈ Settings.fields, ∀ v, named.lookup f.name = some v → f.Takes v) ∨
      (∃ items, j = .arr items ∧ items.length ≤ 9 ∧
        ∀ (i : ℕ) f, Settings.fields[i]? = some f → ∀ v, items[i]? = some v → f.Takes v)) ∧
    (∀ j c, Settings.ofJson? j = some c →
      (∀ (i : ℕ) f, Settings.fields[i]? = some f →
        (f.given? i j).getD (.int (f.value .standard)) = .int (f.value c)) ∧
      Settings.ofJson? c.toJson = some c) ∧
    (∀ named named', (named.map Prod.fst).Nodup → (named'.map Prod.fst).Nodup →
      (∀ f ∈ Settings.fields, ∀ v, (f.name, v) ∈ named ↔ (f.name, v) ∈ named') →
      Settings.ofJson? (.obj named) = Settings.ofJson? (.obj named')) := by
  refine ⟨fun j => ?_, fun j c hc => ?_, fun named named' hn hn' h => ?_⟩
  · rw [Settings.exists_ofJson?_iff]
    cases j with
    | obj named =>
      have hgiven : (∀ (i : ℕ) (f : Settings.Field), Settings.fields[i]? = some f →
          ∀ v, named.lookup f.name = some v → f.Takes v) ↔
          ∀ f ∈ Settings.fields, ∀ v, named.lookup f.name = some v → f.Takes v := by
        simp only [List.mem_iff_getElem?, forall_exists_index]
        exact forall_comm
      simp [Json.record?, Settings.Field.given?, hgiven]
    | arr items =>
      simp [Json.record?, Settings.Field.given?, Settings.fieldNames]
    | _ => simp [Json.record?]
  · obtain ⟨-, hfits, h⟩ := Settings.ofJson?_eq_some_iff_given.mp hc
    exact ⟨h, Settings.ofJson?_toJson hfits⟩
  · apply Settings.ofJson?_obj_congr
    intro f hf
    ext v
    rw [lookup_eq_some_iff_mem hn, lookup_eq_some_iff_mem hn', h f hf]

/-- An object with a key of its own, in another order and without it. -/
theorem settings_overlay_reordered :
    let named : List (String × Json) :=
      [("note", .null), ("trace_head", .int 5), ("cutoff_round_limit", .int 4294967295)]
    let named' : List (String × Json) :=
      [("cutoff_round_limit", .int 4294967295), ("trace_head", .int 5)]
    (named.map Prod.fst).Nodup ∧ (named'.map Prod.fst).Nodup ∧
      (∀ f ∈ Settings.fields, ∀ v, (f.name, v) ∈ named ↔ (f.name, v) ∈ named') ∧
      Settings.ofJson? (.obj named) = Settings.ofJson? (.obj named') ∧
      Settings.ofJson? (.obj named') =
        some { Settings.standard with traceHead := 5, cutoffRoundLimit := 4294967295 } := by
  intro named named'
  have hnames : (named.map Prod.fst).Nodup := by decide
  have hnames' : (named'.map Prod.fst).Nodup := by decide
  have hsame : ∀ f ∈ Settings.fields, ∀ v, (f.name, v) ∈ named ↔ (f.name, v) ∈ named' := by
    simp [Settings.fields, named, named']
  exact ⟨hnames, hnames', hsame, settings_overlay.2.2 named named' hnames hnames' hsame, by decide⟩

end DragonCurve
