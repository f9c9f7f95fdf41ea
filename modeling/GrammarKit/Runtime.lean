import GrammarKit.Value.Alike

/-!
# What the runtime decides

Two things about values are not settled by the program but by what it runs on: how many digits are
converted between a number and its text, and which values are one and the same object. Membership
in a collection and the equality of collections take an object to be equal to itself before they
compare it with anything, so the latter matters for values that do not equal themselves.
-/

namespace GrammarKit

/-- What the runtime decides. -/
structure Runtime where
  /-- How many digits of a number are converted at most, if there is a limit. -/
  digits : Option Nat := none
  /-- Whether all values that are built like this one are a single object. -/
  single : Value → Bool := fun _ => true

namespace Runtime

variable (runtime : Runtime)

/-- The settings that a runtime has unless it is told otherwise. -/
def standard : Runtime where
  digits := some 4300

/-- Whether a number of so many digits is converted. -/
def converts (count : Nat) : Bool := runtime.digits.all (count ≤ ·)

/-- Whether two values are one object. -/
def same (v w : Value) : Bool := runtime.single v && v.alike w

@[simp] theorem same_iff {v w : Value} :
    runtime.same v w = true ↔ runtime.single v = true ∧ v = w := by
  rw [same, Bool.and_eq_true, Value.alike_iff]

/-- The same runtime, but numbers of any size are converted. -/
def unlimited : Runtime := { runtime with digits := none }

@[simp] theorem converts_unlimited (count : Nat) : runtime.unlimited.converts count = true := rfl

theorem converts_of_digits_eq_none (none : runtime.digits = none) (count : Nat) :
    runtime.converts count = true := by
  rw [converts, none, Option.all_none]

end Runtime

end GrammarKit
