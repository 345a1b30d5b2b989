import DragonCurve.NameTable
import Std.Data.HashMap

/-! A table of names that finds a number by its name in a hash map, and a name by its
number in an array. It obeys the laws of tables of names. -/

namespace DragonCurve

open NameTable (maxNames refusal? totalSize totalSize_concat)

/-- A bounded table of names. -/
structure Interner where
  /-- The number of each name. -/
  ids : Std.HashMap String Nat := ∅
  /-- The names in the order of their numbers. -/
  names : Array String := #[]
  /-- The total size of the names in UTF-8. -/
  bytes : Nat := 0
  /-- The total size that may not be exceeded. -/
  maxBytes : Nat := 10485760
  getElem?_ids : ∀ (name : String) (id : Nat),
    ids[name]? = some id ↔ names[id]? = some name := by simp
  bytes_eq : bytes = totalSize names.toList := by simp
  bytes_le : bytes ≤ maxBytes := by simp
  size_le : names.size ≤ maxNames := by simp

namespace Interner

/-- The table without names. -/
def empty (maxBytes : Nat) : Interner := { maxBytes := maxBytes }

def id? (t : Interner) (name : String) : Option Nat := t.ids[name]?

def name? (t : Interner) (id : Nat) : Option String := t.names[id]?

theorem id?_eq_some_iff (t : Interner) (name : String) (id : Nat) :
    t.id? name = some id ↔ t.name? id = some name :=
  t.getElem?_ids name id

theorem id?_eq_none_iff (t : Interner) (name : String) :
    t.id? name = none ↔ name ∉ t.names := by
  rw [Option.eq_none_iff_forall_ne_some, Array.mem_iff_getElem?, not_exists]
  exact forall_congr' fun id => not_congr (t.id?_eq_some_iff name id)

/-- The table with a new name at its end. -/
def push (t : Interner) (name : String) (fresh : t.ids[name]? = none)
    (size : t.names.size < maxNames) (fits : t.bytes + name.utf8ByteSize ≤ t.maxBytes) :
    Interner where
  ids := t.ids.insert name t.names.size
  names := t.names.push name
  bytes := t.bytes + name.utf8ByteSize
  maxBytes := t.maxBytes
  getElem?_ids other id := by
    have absent := (t.id?_eq_none_iff name).1 fresh
    have known := t.getElem?_ids other id
    grind
  bytes_eq := by rw [Array.toList_push, totalSize_concat, t.bytes_eq]
  bytes_le := fits
  size_le := by rw [Array.size_push]; exact size

/-- The number of a name, which is added to the table if it is new. -/
def intern (t : Interner) (name : String) : Interner × Except Refusal Nat :=
  match fresh : t.ids[name]? with
  | some id => (t, .ok id)
  | none =>
    if size : t.names.size < maxNames then
      if fits : t.bytes + name.utf8ByteSize ≤ t.maxBytes then
        let id := t.names.size
        (t.push name fresh size fits, .ok id)
      else (t, .error .tooManyBytes)
    else (t, .error .tooManyNames)

theorem intern_of_known {t : Interner} {name : String} {id : Nat} (known : t.id? name = some id) :
    t.intern name = (t, .ok id) := by
  rw [id?] at known
  unfold intern
  split
  next id' known' => rw [Option.some.inj (known.symm.trans known')]
  next fresh => exact absurd (known.symm.trans fresh) (by simp)

/-- A new name is refused for want of numbers or of room, or else it is added. -/
theorem intern_of_absent {t : Interner} {name : String} (absent : t.id? name = none) :
    (∃ r, refusal? t.names.toList t.maxBytes name = some r ∧ t.intern name = (t, .error r)) ∨
    (refusal? t.names.toList t.maxBytes name = none ∧ ∃ fresh size fits,
      t.intern name = (t.push name fresh size fits, .ok t.names.size)) := by
  rw [id?] at absent
  unfold intern
  split
  next id known => exact absurd (known.symm.trans absent) (by simp)
  next fresh =>
    rw [refusal?, ← t.bytes_eq, Array.length_toList]
    by_cases size : t.names.size < maxNames
    · rw [dif_pos size, if_neg (by omega)]
      by_cases fits : t.bytes + name.utf8ByteSize ≤ t.maxBytes
      · exact .inr ⟨if_neg (by omega), fresh, size, fits, dif_pos fits⟩
      · exact .inl ⟨.tooManyBytes, if_pos (by omega), dif_neg fits⟩
    · have hsize := t.size_le
      exact .inl ⟨.tooManyNames, if_pos (by omega), dif_neg size⟩

instance : NameTable Interner where
  names t := t.names.toList
  maxBytes := maxBytes
  name? := name?
  id? := id?
  intern := intern
  name?_eq _ _ := Array.getElem?_toList.symm
  id?_eq_some_iff := id?_eq_some_iff
  intern_of_known := intern_of_known
  intern_of_refused absent refused := by
    obtain ⟨r, hr, he⟩ | ⟨hnone, -⟩ := intern_of_absent absent
    · rw [he, Option.some.inj (refused.symm.trans hr)]
    · exact absurd (refused.symm.trans hnone) (by simp)
  intern_of_room absent room := by
    obtain ⟨r, hr, -⟩ | ⟨-, fresh, size, fits, he⟩ := intern_of_absent absent
    · exact absurd (room.symm.trans hr) (by simp)
    · exact ⟨_, he, Array.toList_push, rfl⟩

end Interner

end DragonCurve
