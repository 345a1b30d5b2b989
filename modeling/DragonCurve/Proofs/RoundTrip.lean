import DragonCurve.Proofs.Layouts

/-! Records read back. Every record type has its slots: most fields have one written
value, a heading has two, the waypoints of a report are records again, and a setting at
its standard value or a depth that there is none of may be left out of an object.
Values whose numbers are in the range of their fields are read back from what is
written of them, and from every other layout. -/

namespace DragonCurve

/-! ### Values -/

theorem Json.nat?_of_lt {bits n : ℕ} (h : n < 2 ^ bits) : nat? bits (int n) = some n := nat?_int h

theorem Json.nullable?_elim {bits : ℕ} {d : Option ℕ} (h : ∀ n ∈ d, n < 2 ^ bits) :
    nullable? (nat? bits) (d.elim null fun n => int n) = some d := by
  cases d with
  | none => rfl
  | some n => exact congrArg (Option.map some) (nat?_of_lt (h n rfl))

/-- A list is read item by item. -/
theorem Json.list?_arr {α : Type} {read : Json → Option α} {form : α → Json → Prop}
    {values : List α} {items : List Json} (h : List.Forall₂ form values items)
    (hread : ∀ a ∈ values, ∀ j, form a j → read j = some a) :
    list? read (arr items) = some values := by
  rw [list?]
  induction h with
  | nil => rfl
  | cons hj _ ih =>
    rw [List.forall_mem_cons] at hread
    simp [List.mapM_cons, hread.1 _ hj, ih hread.2]

theorem Point.ofJson?_toJson {p : Point} (h : p.InRange) : ofJson? p.toJson = some p := by
  obtain ⟨⟨hx, hx'⟩, hy, hy'⟩ := h
  have hspan : Json.span (32 - 1) = 2147483648 := rfl
  have hreadx : Json.int? 32 (.int p.x) = some p.x :=
    Json.int?_int (by rw [hspan]; omega) (by rw [hspan]; omega)
  have hready : Json.int? 32 (.int p.y) = some p.y :=
    Json.int?_int (by rw [hspan]; omega) (by rw [hspan]; omega)
  simp [toJson, ofJson?, hreadx, hready]

/-- A heading is given by its name or by an object with the name as its only key. -/
def Heading.Form (h : Heading) (j : Json) : Prop := j = .str h.name ∨ j = .obj [(h.name, .null)]

theorem Heading.ofJson?_of_form {h : Heading} {j : Json} (hj : h.Form j) : ofJson? j = some h := by
  obtain rfl | rfl := hj
  · exact ofName?_name h
  · exact ofName?_name h

namespace Slot

variable {name : String} {fields : List (String × Json)}

/-- A setting, which an object may leave out at its standard value. -/
def setting (name : String) (n standard : ℕ) : Slot where
  name := name
  Form := (· = .int n)
  Omissible := n = standard

/-- A depth, which is `null` if there is none; then an object may also leave it out. -/
def depth (name : String) (d : Option ℕ) : Slot where
  name := name
  Form := (· = d.elim .null fun n => .int n)
  Omissible := d = none

theorem depth_form (name : String) (d : Option ℕ) :
    (depth name d).Form (.ofOption (fun n => .int n) d) := by
  cases d <;> rfl

theorem Found.required_exactly {α : Type} {read : Json → Option α} {j : Json} {a : α}
    (h : (exactly name j).Found fields) (hread : read j = some a) :
    required? fields name read = some a :=
  h.required not_false (by rintro _ rfl; exact hread)

theorem Found.optional_setting {bits n standard : ℕ} (h : (setting name n standard).Found fields)
    (hn : n < 2 ^ bits) : optional? fields name (Json.nat? bits) standard = some n :=
  h.optional (fun e => e.symm) (by rintro _ rfl; exact Json.nat?_of_lt hn)

theorem Found.optional_depth {bits : ℕ} {d : Option ℕ} (h : (depth name d).Found fields)
    (hd : ∀ n ∈ d, n < 2 ^ bits) :
    optional? fields name (Json.nullable? (Json.nat? bits)) none = some d :=
  h.optional (fun e => e.symm) (by rintro _ rfl; exact Json.nullable?_elim hd)

end Slot

/-! ### Turtles, waypoints and plans -/

namespace Turtle

def slots (t : Turtle) : List Slot :=
  [.exactly "position" t.position.toJson, { name := "direction", Form := t.heading.Form }]

def Fits (t : Turtle) : Prop := t.position.InRange

theorem layout_toJson (t : Turtle) : Layout t.slots t.toJson :=
  Layout.record (.cons rfl (.cons (.inl rfl) .nil))

theorem ofJson?_of_layout {t : Turtle} (ht : t.Fits) {j : Json} (h : Layout t.slots j) :
    ofJson? j = some t := by
  obtain ⟨fields, hf, hfound⟩ := h.found (rfl : _ = fieldNames) (by decide) le_rfl
  simp only [slots, List.forall_mem_cons] at hfound
  obtain ⟨hposition, hheading, -⟩ := hfound
  have hp := hposition.required_exactly (Point.ofJson?_toJson ht)
  have hd := hheading.required not_false fun _ => Heading.ofJson?_of_form
  simp [ofJson?, hf, hp, hd]

end Turtle

namespace Waypoint

def slots (w : Waypoint) : List Slot :=
  [.exactly "step_index" (.int w.stepIndex), .exactly "position" w.position.toJson,
    { name := "direction", Form := w.heading.Form }]

def Fits (w : Waypoint) : Prop := w.stepIndex < 2 ^ 64 ∧ w.position.InRange

theorem layout_toJson (w : Waypoint) : Layout w.slots w.toJson :=
  Layout.record (.cons rfl (.cons rfl (.cons (.inl rfl) .nil)))

theorem ofJson?_of_layout {w : Waypoint} (hw : w.Fits) {j : Json} (h : Layout w.slots j) :
    ofJson? j = some w := by
  obtain ⟨fields, hf, hfound⟩ := h.found (rfl : _ = fieldNames) (by decide) le_rfl
  simp only [slots, List.forall_mem_cons] at hfound
  obtain ⟨hstep, hposition, hheading, -⟩ := hfound
  have hs := hstep.required_exactly (Json.nat?_of_lt hw.1)
  have hp := hposition.required_exactly (Point.ofJson?_toJson hw.2)
  have hd := hheading.required not_false fun _ => Heading.ofJson?_of_form
  simp [ofJson?, hf, hs, hp, hd]

end Waypoint

namespace Plan

def slots (p : Plan) : List Slot :=
  [.exactly "requested_depth" (.int p.requestedDepth),
    .exactly "expansion_depth" (.int p.expansionDepth), .exactly "looped" (.bool p.looped)]

def Fits (p : Plan) : Prop := p.requestedDepth < 2 ^ 32 ∧ p.expansionDepth < 2 ^ 32

theorem layout_toJson (p : Plan) : Layout p.slots p.toJson :=
  Layout.record (.cons rfl (.cons rfl (.cons rfl .nil)))

theorem ofJson?_of_layout {p : Plan} (hp : p.Fits) {j : Json} (h : Layout p.slots j) :
    ofJson? j = some p := by
  obtain ⟨fields, hf, hfound⟩ := h.found (rfl : _ = fieldNames) (by decide) le_rfl
  simp only [slots, List.forall_mem_cons] at hfound
  obtain ⟨hrequested, hexpansion, hlooped, -⟩ := hfound
  have hr := hrequested.required_exactly (Json.nat?_of_lt hp.1)
  have he := hexpansion.required_exactly (Json.nat?_of_lt hp.2)
  have hl := hlooped.required_exactly (Json.bool?_bool p.looped)
  simp [ofJson?, hf, hr, he, hl]

end Plan

/-! ### Reports -/

namespace Report

/-- The waypoints may each have a layout of its own. -/
def slots (r : Report) : List Slot :=
  [.exactly "final_position" r.finalPosition.toJson, .exactly "total_steps" (.int r.totalSteps),
    { name := "path_steps", Form := fun j => ∃ items, j = .arr items ∧
        List.Forall₂ (fun w item => Layout w.slots item) r.waypoints items },
    .exactly "sequence_length_used" (.int r.sequenceLength), .exactly "looped" (.bool r.looped),
    .depth "requested_depth" r.requestedDepth, .depth "expanded_depth" r.expandedDepth]

structure Fits (r : Report) : Prop where
  finalPosition : r.finalPosition.InRange
  totalSteps : r.totalSteps < 2 ^ 64
  waypoints : ∀ w ∈ r.waypoints, w.Fits
  sequenceLength : r.sequenceLength < 2 ^ 64
  requestedDepth : ∀ n ∈ r.requestedDepth, n < 2 ^ 32
  expandedDepth : ∀ n ∈ r.expandedDepth, n < 2 ^ 32

theorem layout_toJson (r : Report) : Layout r.slots r.toJson := by
  have hwaypoints : List.Forall₂ (fun w item => Layout w.slots item) r.waypoints
      (r.waypoints.map Waypoint.toJson) := by
    rw [List.forall₂_map_right_iff, List.forall₂_same]
    exact fun w _ => w.layout_toJson
  exact Layout.record (.cons rfl (.cons rfl (.cons ⟨_, rfl, hwaypoints⟩ (.cons rfl (.cons rfl
    (.cons (Slot.depth_form _ _) (.cons (Slot.depth_form _ _) .nil)))))))

theorem ofJson?_of_layout {r : Report} (hr : r.Fits) {j : Json} (h : Layout r.slots j) :
    ofJson? j = some r := by
  obtain ⟨fields, hf, hfound⟩ := h.found (rfl : _ = fieldNames) (by decide) le_rfl
  simp only [slots, List.forall_mem_cons] at hfound
  obtain ⟨hposition, htotal, hpath, hlength, hlooped, hrequested, hexpanded, -⟩ := hfound
  have hitems : ∀ j, (∃ items, j = .arr items ∧
      List.Forall₂ (fun w item => Layout w.slots item) r.waypoints items) →
      Json.list? Waypoint.ofJson? j = some r.waypoints := by
    rintro _ ⟨items, rfl, hitems⟩
    exact Json.list?_arr hitems fun w hw _ =>
      Waypoint.ofJson?_of_layout (hr.waypoints w hw)
  have hp := hposition.required_exactly (Point.ofJson?_toJson hr.finalPosition)
  have ht := htotal.required_exactly (Json.nat?_of_lt hr.totalSteps)
  have hw := hpath.required not_false hitems
  have hs := hlength.required_exactly (Json.nat?_of_lt hr.sequenceLength)
  have hl := hlooped.required_exactly (Json.bool?_bool r.looped)
  have hq := hrequested.optional_depth hr.requestedDepth
  have he := hexpanded.optional_depth hr.expandedDepth
  simp [ofJson?, hf, hp, ht, hw, hs, hl, hq, he]

end Report

/-! ### Settings -/

namespace Settings

/-- A field of the settings. -/
structure Field where
  name : String
  /-- The number of bits that its values fit. -/
  bits : ℕ
  /-- Its value in given settings. -/
  value : Settings → ℕ

/-- The fields in their declared order. -/
def fields : List Field :=
  [⟨"cutoff_length", 64, cutoffLength⟩, ⟨"cutoff_round_limit", 32, cutoffRoundLimit⟩,
    ⟨"loop_threshold_depth", 32, loopThresholdDepth⟩,
    ⟨"practical_depth_cap", 32, practicalDepthCap⟩, ⟨"small_budget_limit", 64, smallBudgetLimit⟩,
    ⟨"small_budget_depth", 32, smallBudgetDepth⟩, ⟨"full_depth", 32, fullDepth⟩,
    ⟨"trace_head", 64, traceHead⟩, ⟨"trace_interval", 64, traceInterval⟩]

theorem map_name_fields : fields.map Field.name = fieldNames := rfl

/-- A field is read under its name, whatever the other fields are. -/
theorem ofJson?_eq_some_iff {j : Json} {c : Settings} :
    ofJson? j = some c ↔ ∃ named, j.record? fieldNames 0 = some named ∧
      ∀ f ∈ fields,
        optional? named f.name (Json.nat? f.bits) (f.value standard) = some (f.value c) := by
  simp only [ofJson?, Option.bind_eq_bind, Option.bind_eq_some_iff, Option.pure_def,
    Option.some.injEq]
  constructor
  · rintro ⟨named, hj, n₁, h₁, n₂, h₂, n₃, h₃, n₄, h₄, n₅, h₅, n₆, h₆, n₇, h₇, n₈, h₈, n₉, h₉, rfl⟩
    exact ⟨named, hj, by simp [fields, h₁, h₂, h₃, h₄, h₅, h₆, h₇, h₈, h₉]⟩
  · rintro ⟨named, hj, h⟩
    simp only [fields, List.forall_mem_cons] at h
    obtain ⟨h₁, h₂, h₃, h₄, h₅, h₆, h₇, h₈, h₉, -⟩ := h
    exact ⟨named, hj, _, h₁, _, h₂, _, h₃, _, h₄, _, h₅, _, h₆, _, h₇, _, h₈, _, h₉, rfl⟩

def slots (c : Settings) : List Slot :=
  [.setting "cutoff_length" c.cutoffLength standard.cutoffLength,
    .setting "cutoff_round_limit" c.cutoffRoundLimit standard.cutoffRoundLimit,
    .setting "loop_threshold_depth" c.loopThresholdDepth standard.loopThresholdDepth,
    .setting "practical_depth_cap" c.practicalDepthCap standard.practicalDepthCap,
    .setting "small_budget_limit" c.smallBudgetLimit standard.smallBudgetLimit,
    .setting "small_budget_depth" c.smallBudgetDepth standard.smallBudgetDepth,
    .setting "full_depth" c.fullDepth standard.fullDepth,
    .setting "trace_head" c.traceHead standard.traceHead,
    .setting "trace_interval" c.traceInterval standard.traceInterval]

structure Fits (c : Settings) : Prop where
  cutoffLength : c.cutoffLength < 2 ^ 64
  cutoffRoundLimit : c.cutoffRoundLimit < 2 ^ 32
  loopThresholdDepth : c.loopThresholdDepth < 2 ^ 32
  practicalDepthCap : c.practicalDepthCap < 2 ^ 32
  smallBudgetLimit : c.smallBudgetLimit < 2 ^ 64
  smallBudgetDepth : c.smallBudgetDepth < 2 ^ 32
  fullDepth : c.fullDepth < 2 ^ 32
  traceHead : c.traceHead < 2 ^ 64
  traceInterval : c.traceInterval < 2 ^ 64

theorem slots_eq (c : Settings) :
    c.slots = fields.map fun f => .setting f.name (f.value c) (f.value standard) := rfl

theorem fits_iff {c : Settings} : c.Fits ↔ ∀ f ∈ fields, f.value c < 2 ^ f.bits := by
  simp only [fields, List.forall_mem_cons]
  constructor
  · rintro ⟨h₁, h₂, h₃, h₄, h₅, h₆, h₇, h₈, h₉⟩
    exact ⟨h₁, h₂, h₃, h₄, h₅, h₆, h₇, h₈, h₉, List.forall_mem_nil _⟩
  · rintro ⟨h₁, h₂, h₃, h₄, h₅, h₆, h₇, h₈, h₉, -⟩
    exact ⟨h₁, h₂, h₃, h₄, h₅, h₆, h₇, h₈, h₉⟩

theorem layout_toJson (c : Settings) : Layout c.slots c.toJson :=
  Layout.record (.cons rfl (.cons rfl (.cons rfl (.cons rfl (.cons rfl (.cons rfl (.cons rfl
    (.cons rfl (.cons rfl .nil)))))))))

theorem ofJson?_of_layout {c : Settings} (hc : c.Fits) {j : Json} (h : Layout c.slots j) :
    ofJson? j = some c := by
  obtain ⟨named, hj, hfound⟩ := h.found (rfl : _ = fieldNames) (by decide) (Nat.zero_le _)
  refine ofJson?_eq_some_iff.mpr ⟨named, hj, fun f hf => ?_⟩
  have hslot : Slot.setting f.name (f.value c) (f.value standard) ∈ c.slots := by
    rw [slots_eq]
    exact List.mem_map_of_mem hf
  exact (hfound _ hslot).optional_setting (fits_iff.mp hc f hf)

end Settings

/-! ### All records -/

/-- Values that fit are read back from what is written of them and from every other
layout of theirs. -/
def ReadsBack {α : Type} (fits : α → Prop) (slots : α → List Slot) (write : α → Json)
    (read : Json → Option α) : Prop :=
  ∀ a, fits a → read (write a) = some a ∧ ∀ j, Layout (slots a) j → read j = some a

theorem ReadsBack.of_layouts {α : Type} {fits : α → Prop} {slots : α → List Slot}
    {write : α → Json} {read : Json → Option α} (hwrite : ∀ a, Layout (slots a) (write a))
    (hread : ∀ a, fits a → ∀ j, Layout (slots a) j → read j = some a) :
    ReadsBack fits slots write read :=
  fun a ha => ⟨hread a ha _ (hwrite a), hread a ha⟩

/-- Settings, plans, turtles, waypoints and reports are read back, whatever layout they
and the records in them have. -/
theorem records_read_back :
    ReadsBack Settings.Fits Settings.slots Settings.toJson Settings.ofJson? ∧
    ReadsBack Plan.Fits Plan.slots Plan.toJson Plan.ofJson? ∧
    ReadsBack Turtle.Fits Turtle.slots Turtle.toJson Turtle.ofJson? ∧
    ReadsBack Waypoint.Fits Waypoint.slots Waypoint.toJson Waypoint.ofJson? ∧
    ReadsBack Report.Fits Report.slots Report.toJson Report.ofJson? :=
  ⟨.of_layouts Settings.layout_toJson fun _ hc _ => Settings.ofJson?_of_layout hc,
    .of_layouts Plan.layout_toJson fun _ hp _ => Plan.ofJson?_of_layout hp,
    .of_layouts Turtle.layout_toJson fun _ ht _ => Turtle.ofJson?_of_layout ht,
    .of_layouts Waypoint.layout_toJson fun _ hw _ => Waypoint.ofJson?_of_layout hw,
    .of_layouts Report.layout_toJson fun _ hr _ => Report.ofJson?_of_layout hr⟩

/-- An object in reverse order, with a key of its own and one depth left out, that holds
a waypoint as an array and one as an object. -/
theorem records_read_back_mixed :
    let r : Report :=
      { finalPosition := ⟨1, 1⟩, totalSteps := 2, sequenceLength := 6, looped := true,
        waypoints := [⟨1, ⟨0, 1⟩, .north⟩, ⟨2, ⟨1, 1⟩, .east⟩],
        requestedDepth := some 20, expandedDepth := none }
    let first : Json := .arr [.int 1, .arr [.int 0, .int 1], .obj [("North", .null)]]
    let second : Json := .obj [("position", .arr [.int 1, .int 1]), ("step_index", .int 2),
      ("direction", .str "East")]
    let named : List (String × Json) := [("final_position", .arr [.int 1, .int 1]),
      ("total_steps", .int 2), ("path_steps", .arr [first, second]),
      ("sequence_length_used", .int 6), ("looped", .bool true), ("requested_depth", .int 20)]
    let j : Json := .obj (named ++ [("comment", Json.null)]).reverse
    (r.Fits ∧ Layout r.slots j) ∧
      Report.ofJson? r.toJson = some r ∧ Report.ofJson? j = some r := by
  intro r first second named j
  have hfits : r.Fits := by
    constructor <;> simp [r, Waypoint.Fits, Point.InRange]
  have hfirst : Layout (Waypoint.slots ⟨1, ⟨0, 1⟩, .north⟩) first :=
    .array (.cons rfl (.cons rfl (.cons (.inr rfl) .nil)))
  have hsecond : Layout (Waypoint.slots ⟨2, ⟨1, 1⟩, .east⟩) second :=
    @Layout.object _ _ [] _ (.given rfl (.given rfl (.given (.inl rfl) .nil))) (by simp)
      (.swap _ _ _)
  have hnamed : Listing r.slots named :=
    .given rfl (.given rfl (.given ⟨_, rfl, .cons hfirst (.cons hsecond .nil)⟩ (.given rfl
      (.given rfl (.given rfl (.omitted rfl .nil))))))
  have hj : Layout r.slots j := .object hnamed (by simp [Report.slots, Slot.exactly, Slot.depth])
    (List.reverse_perm _)
  have hread := records_read_back.2.2.2.2 r hfits
  exact ⟨⟨hfits, hj⟩, hread.1, hread.2 j hj⟩

end DragonCurve
