import DragonCurve.Event

/-! Computations that report events. A logged value carries the events in the
order in which they were reported; running one computation after another joins
their logs. -/

namespace DragonCurve

/-- A value with the events reported on the way to it. -/
structure Logged (α : Type) where
  value : α
  events : List Event

namespace Logged

variable {α β : Type}

/-- Reports one event. -/
def report (e : Event) : Logged Unit := ⟨(), [e]⟩

/-- Reports events in order. -/
def reportAll (es : List Event) : Logged Unit := ⟨(), es⟩

instance : Monad Logged where
  pure a := ⟨a, []⟩
  bind x f := ⟨(f x.value).value, x.events ++ (f x.value).events⟩

@[simp] theorem value_pure (a : α) : (pure a : Logged α).value = a := rfl

@[simp] theorem events_pure (a : α) : (pure a : Logged α).events = [] := rfl

@[simp] theorem value_bind (x : Logged α) (f : α → Logged β) :
    (x >>= f).value = (f x.value).value := rfl

@[simp] theorem events_bind (x : Logged α) (f : α → Logged β) :
    (x >>= f).events = x.events ++ (f x.value).events := rfl

@[simp] theorem events_report (e : Event) : (report e).events = [e] := rfl

@[simp] theorem events_reportAll (es : List Event) : (reportAll es).events = es := rfl

end Logged

end DragonCurve
