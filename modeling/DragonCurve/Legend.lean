import DragonCurve.Modules
import DragonCurve.Report

/-! Legends say what each symbol number means to the turtle. A legend grows as
meanings are given; a number beyond its end, or never given a meaning, is
ignored. A list of modules is walked by the meanings of its numbers. -/

namespace DragonCurve

universe u v

/-- The actions of the numbers from zero on. -/
structure Legend where
  actions : Array Action
  deriving DecidableEq, Repr

namespace Legend

def empty : Legend := ⟨#[]⟩

/-- The legend that gives the listed actions to the numbers from zero on. -/
def ofList (actions : List Action) : Legend := ⟨actions.toArray⟩

/-- What a number means. -/
def action (l : Legend) (id : Nat) : Action := l.actions.getD id .ignore

/-- Gives a number a meaning, extending the legend as far as needed. -/
def set (l : Legend) (id : Nat) (a : Action) : Legend :=
  ⟨(l.actions ++ Array.replicate (id + 1 - l.actions.size) Action.ignore).setIfInBounds id a⟩

@[simp] theorem action_empty (id : Nat) : empty.action id = .ignore := rfl

/-- Giving one number a meaning changes no other. -/
theorem action_set (l : Legend) (id : Nat) (a : Action) (other : Nat) :
    (l.set id a).action other = if other = id then a else l.action other := by
  simp only [action, set, Array.getD_eq_getD_getElem?, Array.getElem?_setIfInBounds]
  grind

/-- The steering letters with their meanings. -/
def standardActions : List (String × Action) :=
  [("F", .forward), ("L", .turnLeft), ("R", .turnRight)]

/-- Gives the steering letters their meanings, as far as the table has them. -/
def setStandard {τ : Type u} [NameTable τ] (l : Legend) (t : τ) : Legend :=
  standardActions.foldl (fun l (name, a) => (NameTable.id? t name).elim l (l.set · a)) l

section

variable {μ : Type v} [ModuleList μ]

/-- What the modules of a list mean. -/
def actionsOf (l : Legend) (m : μ) : List Action := (ModuleList.ids m).map l.action

/-- Walks modules once from home by their meanings, for at most `budget` moves. -/
def walk (c : Settings) (l : Legend) (m : μ) (budget : Nat) :
    Logged (Except Fault Report) := do
  let outcome ← Walk.run c (l.actionsOf m) budget false
  pure (outcome.map (·.report (ModuleList.length m) false))

end

end Legend

/-- Walks the modules of an array by a legend. -/
def Modules.walk (c : Settings) (m : Modules) (l : Legend) (budget : Nat) :
    Logged (Except Fault Report) :=
  l.walk c m budget

end DragonCurve
