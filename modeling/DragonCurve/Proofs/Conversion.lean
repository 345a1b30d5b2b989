import DragonCurve.Modules
import Mathlib.Data.List.Forall2

/-! Conversion of a text into modules. Interning a name finds it, refuses it or adds it
behind all others, and a number that has a name keeps it; so a table only ever grows. The
numbers that are remembered are those of the table, and a name that the table has taken is
found in it, so the conversion is the same as interning every character anew. A text that is
converted gets one module for each of its characters, numbered by the character's name in
the table at the end. Only a table or a list that runs out of room stops a conversion. All
this follows from the laws of tables and lists. -/

namespace DragonCurve

/-- The name of a character determines it. -/
theorem toString_inj {c d : Char} : c.toString = d.toString ↔ c = d := String.singleton_inj

/-! ### Tables that grow -/

namespace NameTable

variable {τ : Type*} [NameTable τ] {t u v : τ} {name : String} {id id' : ℕ}

theorem id?_eq_none_iff : id? t name = none ↔ name ∉ names t := by
  rw [Option.eq_none_iff_forall_ne_some, List.mem_iff_getElem?, not_exists]
  refine forall_congr' fun id => not_congr ?_
  rw [id?_eq_some_iff, name?_eq]

/-- A name has one number only. -/
theorem eq_of_name? (h : name? t id = some name) (h' : name? t id' = some name) : id = id' := by
  rw [← id?_eq_some_iff] at h h'
  exact Option.some.inj (h.symm.trans h')

/-- Every number keeps its name. -/
def ExtendedBy (t u : τ) : Prop := ∀ id name, name? t id = some name → name? u id = some name

theorem ExtendedBy.refl (t : τ) : ExtendedBy t t := fun _ _ h => h

theorem ExtendedBy.trans (h : ExtendedBy t u) (h' : ExtendedBy u v) : ExtendedBy t v :=
  fun id name hn => h' id name (h id name hn)

theorem extendedBy_of_names {rest : List String} (h : names u = names t ++ rest) :
    ExtendedBy t u := by
  intro id name hname
  rw [name?_eq] at hname ⊢
  have hlt : id < (names t).length := (List.getElem?_eq_some_iff.mp hname).1
  rw [h, List.getElem?_append_left hlt, hname]

/-- All that interning can do: find the name, refuse it or add it. -/
theorem intern_cases (t : τ) (name : String) :
    (∃ id, id? t name = some id ∧ intern t name = (t, .ok id)) ∨
    (id? t name = none ∧ ∃ r, refusal? (names t) (maxBytes t) name = some r ∧
      intern t name = (t, .error r)) ∨
    (id? t name = none ∧ refusal? (names t) (maxBytes t) name = none ∧
      ∃ u, intern t name = (u, .ok (names t).length) ∧ names u = names t ++ [name] ∧
        maxBytes u = maxBytes t) := by
  cases hid : id? t name with
  | some id => exact .inl ⟨id, rfl, intern_of_known hid⟩
  | none =>
    cases hr : refusal? (names t) (maxBytes t) name with
    | some r => exact .inr (.inl ⟨rfl, r, rfl, intern_of_refused hid hr⟩)
    | none => exact .inr (.inr ⟨rfl, rfl, intern_of_room hid hr⟩)

theorem name?_intern (h : intern t name = (u, .ok id)) :
    ExtendedBy t u ∧ name? u id = some name := by
  obtain ⟨known, hk, he⟩ | ⟨-, r, -, he⟩ | ⟨-, -, w, he, hnames, -⟩ := intern_cases t name <;>
    rw [he] at h <;> cases h
  · exact ⟨.refl t, (id?_eq_some_iff t name _).mp hk⟩
  · refine ⟨extendedBy_of_names hnames, ?_⟩
    rw [name?_eq, hnames, List.getElem?_concat_length]

/-- A table that is far from its bounds refuses nothing. -/
theorem refusal?_eq_none {names : List String} {bytes : ℕ} (hn : names.length < maxNames)
    (hb : totalSize names + name.utf8ByteSize ≤ bytes) : refusal? names bytes name = none := by
  rw [refusal?, if_neg (Nat.ne_of_lt hn), if_neg (Nat.not_lt.mpr hb)]

/-- The first name of a table gets number zero. -/
theorem intern_of_names_nil (ht : names t = []) (hsize : name.utf8ByteSize ≤ maxBytes t) :
    ∃ u, intern t name = (u, .ok 0) ∧ names u = [name] ∧ maxBytes u = maxBytes t := by
  have absent : id? t name = none := by simp [id?_eq_none_iff, ht]
  have room : refusal? (names t) (maxBytes t) name = none := by
    rw [ht]
    exact refusal?_eq_none (by decide) (by simpa [totalSize] using hsize)
  have h := intern_of_room absent room
  rwa [ht] at h

/-! ### Remembered numbers -/

/-- The numbers that are remembered are those of the table. -/
def Remembers (known : Std.HashMap Symbol ℕ) (t : τ) : Prop :=
  ∀ (s : Symbol) (id : ℕ), known[s]? = some id → id? t s.toChar.toString = some id

theorem remembers_empty (t : τ) : Remembers ∅ t := by
  intro s id h
  simp at h

theorem Remembers.insert {known : Std.HashMap Symbol ℕ} {s : Symbol} (h : Remembers known t)
    (hext : ExtendedBy t u) (hid : id? u s.toChar.toString = some id) :
    Remembers (known.insert s id) u := by
  intro s' id' hs'
  rw [Std.HashMap.getElem?_insert] at hs'
  split_ifs at hs' with heq
  · obtain rfl : s = s' := eq_of_beq heq
    rwa [← Option.some.inj hs']
  · have hname := (id?_eq_some_iff t _ _).mp (h s' id' hs')
    exact (id?_eq_some_iff u _ _).mpr (hext id' _ hname)

/-- The number of a symbol is what interning its name gives, and it is remembered. -/
theorem number_cases {known : Std.HashMap Symbol ℕ} (h : Remembers known t) (s : Symbol) :
    (∃ u r, intern t s.toChar.toString = (u, .error r) ∧
      number s t known = (u, .error (.refused r))) ∨
    ∃ u id known', intern t s.toChar.toString = (u, .ok id) ∧
      number s t known = (u, .ok (id, known')) ∧ Remembers known' u := by
  cases hs : known[s]? with
  | some id =>
    refine .inr ⟨t, id, known, intern_of_known (h s id hs), ?_, h⟩
    simp only [number, hs]
  | none =>
    rcases hi : intern t s.toChar.toString with ⟨u, r | id⟩
    · exact .inl ⟨u, r, rfl, by simp only [number, hs, hi]⟩
    · obtain ⟨hext, hname⟩ := name?_intern hi
      have hid := (id?_eq_some_iff u _ _).mpr hname
      exact .inr ⟨u, id, known.insert s id, rfl, by simp only [number, hs, hi, hid],
        h.insert hext hid⟩

end NameTable

/-! ### Lists that grow -/

namespace ModuleList

variable {μ : Type*} [ModuleList μ] {m m' : μ}

/-- All that appending can do. -/
theorem push?_cases (m : μ) (id : ℕ) : (length m = capacity ∧ push? m id = none) ∨
    (length m < capacity ∧ ∃ m', push? m id = some m' ∧ ids m' = ids m ++ [id]) := by
  rcases Nat.eq_or_lt_of_le (length_le m) with full | room
  · exact .inl ⟨full, push?_of_full full⟩
  · exact .inr ⟨room, push?_of_room room⟩

theorem ids_push? {id : ℕ} (h : push? m id = some m') : ids m' = ids m ++ [id] := by
  obtain ⟨-, hnone⟩ | ⟨-, m₁, hsome, hids⟩ := push?_cases m id
  · exact absurd (h.symm.trans hnone) (by simp)
  · rwa [Option.some.inj (h.symm.trans hsome)]

theorem length_push? {id : ℕ} (h : push? m id = some m') : length m' = length m + 1 := by
  rw [length_eq, length_eq, ids_push? h, List.length_append, List.length_singleton]

theorem length_empty : length (empty : μ) = 0 := by
  rw [length_eq, ids_empty, List.length_nil]

theorem ids_pushAll {l : List ℕ} (h : pushAll m l = (m', true)) : ids m' = ids m ++ l := by
  induction l generalizing m with
  | nil =>
    cases h
    exact (List.append_nil _).symm
  | cons id l ih =>
    rw [pushAll] at h
    split at h
    next m₁ hpush => rw [ih h, ids_push? hpush, List.append_assoc, List.singleton_append]
    next => cases h

theorem ids_of_pushAll_empty {l : List ℕ} (h : pushAll empty l = (m, true)) : ids m = l := by
  rw [ids_pushAll h, ids_empty, List.nil_append]

/-- A list that fits is appended as a whole. -/
theorem pushAll_of_fits {l : List ℕ} (h : length m + l.length ≤ capacity) :
    ∃ m', pushAll m l = (m', true) := by
  induction l generalizing m with
  | nil => exact ⟨m, rfl⟩
  | cons id l ih =>
    rw [List.length_cons] at h
    obtain ⟨full, -⟩ | ⟨-, m₁, hpush, -⟩ := push?_cases m id
    · omega
    · rw [pushAll, hpush]
      exact ih (by rw [length_push? hpush]; omega)

/-! ### Characters and their numbers -/

variable {τ : Type*} [NameTable τ] {t u : τ}

open NameTable

/-- Interns characters one by one and appends their modules. -/
def ofChars : List Char → τ → μ → τ × Except ConversionError μ
  | [], t, m => (t, .ok m)
  | c :: cs, t, m =>
    match intern t c.toString with
    | (t, .error r) => (t, .error (.refused r))
    | (t, .ok id) =>
      match push? m id with
      | some m => ofChars cs t m
      | none => (t, .error .full)

theorem ofSymbols_eq_ofChars {ss : List Symbol} {known : Std.HashMap Symbol ℕ}
    (h : Remembers known t) : ofSymbols ss t known m = ofChars (ss.map Symbol.toChar) t m := by
  induction ss generalizing t known m with
  | nil => rfl
  | cons s ss ih =>
    rw [ofSymbols, List.map_cons, ofChars]
    obtain ⟨u, r, hi, hn⟩ | ⟨u, id, known', hi, hn, hu⟩ := number_cases h s
    · simp only [hi, hn]
    · simp only [hi, hn]
      cases push? m id with
      | some m => exact ih hu
      | none => rfl

/-- A conversion appends modules that are numbered by the names of the characters in the
table at its end. -/
theorem names_ofChars {cs : List Char} (h : ofChars cs t m = (u, .ok m')) :
    ExtendedBy t u ∧ ∃ l, pushAll m l = (m', true) ∧
      List.Forall₂ (fun id c => name? u id = some c.toString) l cs := by
  induction cs generalizing t m with
  | nil =>
    cases h
    exact ⟨.refl _, [], rfl, .nil⟩
  | cons c cs ih =>
    rw [ofChars] at h
    split at h
    next => cases h
    next v id hintern =>
      split at h
      next m₁ hpush =>
        obtain ⟨hext, hname⟩ := name?_intern hintern
        obtain ⟨hext', l, hl, hnames⟩ := ih h
        refine ⟨hext.trans hext', id :: l, ?_, .cons (hext' id _ hname) hnames⟩
        rw [pushAll, hpush]
        exact hl
      next => cases h

/-- A conversion with room to spare ends with modules. -/
theorem ofChars_ok {cs : List Char} (hm : length m + cs.length ≤ capacity)
    (hn : (names t).length + cs.length ≤ maxNames)
    (hb : totalSize (names t) + 4 * cs.length ≤ maxBytes t) :
    ∃ u m', ofChars cs t m = (u, .ok m') := by
  induction cs generalizing t m with
  | nil => exact ⟨t, m, rfl⟩
  | cons c cs ih =>
    rw [List.length_cons] at hm hn hb
    have hsize : c.toString.utf8ByteSize ≤ 4 := by
      simpa [Char.toString] using c.utf8Size_le_four
    have room : refusal? (names t) (maxBytes t) c.toString = none :=
      refusal?_eq_none (by omega) (by omega)
    have hpush : ∀ id, ∃ m₁, push? m id = some m₁ ∧ length m₁ = length m + 1 := by
      intro id
      obtain ⟨full, -⟩ | ⟨-, m₁, hpush, -⟩ := push?_cases m id
      · omega
      · exact ⟨m₁, hpush, length_push? hpush⟩
    obtain ⟨id, -, he⟩ | ⟨-, r, hr, -⟩ | ⟨-, -, v, he, hnames, hmax⟩ :=
      intern_cases t c.toString
    · obtain ⟨m₁, hpush, hlength⟩ := hpush id
      rw [ofChars, he]
      simp only [hpush]
      exact ih (by omega) (by omega) (by omega)
    · exact absurd (room.symm.trans hr) (by simp)
    · obtain ⟨m₁, hpush, hlength⟩ := hpush (names t).length
      rw [ofChars, he]
      simp only [hpush]
      refine ih (by omega) ?_ ?_
      · rw [hnames, List.length_append, List.length_singleton]
        omega
      · rw [hnames, totalSize_concat, hmax]
        omega

end ModuleList

namespace Sequence

open NameTable ModuleList

variable {τ μ : Type*} [NameTable τ] [ModuleList μ] {s : Sequence} {t u : τ} {m : μ}

/-- A conversion interns the characters one by one. -/
theorem toModules_eq_ofChars (s : Sequence) (t : τ) :
    (s.toModules t : τ × Except ConversionError μ) = ofChars s.text.toList t ModuleList.empty := by
  rw [toModules, ofSymbols_eq_ofChars (remembers_empty t), symbols, List.map_map]
  simp [Function.comp_def]

/-- A converted text has one module for each character, numbered by its name. -/
theorem names_toModules (h : s.toModules t = (u, .ok m)) : ExtendedBy t u ∧
    List.Forall₂ (fun id c => name? u id = some c.toString) (ids m) s.text.toList := by
  rw [toModules_eq_ofChars] at h
  obtain ⟨hext, l, hl, hnames⟩ := names_ofChars h
  rw [ids_of_pushAll_empty hl]
  exact ⟨hext, hnames⟩

/-- A text that is short enough for the list and for the table is converted. -/
theorem toModules_ok (hm : s.length ≤ capacity) (hn : (names t).length + s.length ≤ maxNames)
    (hb : totalSize (names t) + 4 * s.length ≤ maxBytes t) :
    ∃ u, ∃ m : μ, s.toModules t = (u, .ok m) := by
  have hlength : s.text.toList.length = s.length := by rw [s.length_eq, String.length_toList]
  have hempty : ModuleList.length (ModuleList.empty : μ) = 0 := length_empty
  rw [← hlength] at hm hn hb
  simp only [toModules_eq_ofChars]
  exact ofChars_ok (by omega) hn hb

/-- A table of one name converts every text that it has room for. -/
theorem toModules_intern_empty {name : String} {n : ℕ} (hs : s.length < maxNames)
    (hn : name.utf8ByteSize + 4 * s.length ≤ n) :
    let t := ((Interner.empty n).intern name).1
    name? t 0 = some name ∧ ∃ u, ∃ m : Modules, s.toModules t = (u, .ok m) := by
  obtain ⟨t, he, hnames, hmax⟩ : ∃ t, intern (Interner.empty n) name = (t, .ok 0) ∧
      names t = [name] ∧ maxBytes t = n :=
    intern_of_names_nil rfl (Nat.le_of_add_right_le hn)
  have hcapacity : maxNames ≤ capacity := by decide
  have hsize : totalSize (names t) = name.utf8ByteSize := by simp [hnames, totalSize]
  rw [show (Interner.empty n).intern name = (t, .ok 0) from he]
  dsimp only
  refine ⟨by rw [name?_eq, hnames]; rfl, toModules_ok (by omega) ?_ (by omega)⟩
  rw [hnames, List.length_singleton]
  omega

end Sequence

end DragonCurve
