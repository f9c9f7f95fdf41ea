/-!
# Slices of lists

A slice takes every `step`-th item between two bounds. Negative bounds count from the end, bounds
beyond an end are moved to it, and a negative step goes backwards, from the last item down to the
first where a bound is left out. With the step one, a slice drops what is before its first bound
and what is from its last bound on.
-/

namespace GrammarKit

/-- Moves a bound between `low` and `high`, after counting a negative one from the end. -/
def clampBound (length low high : Int) (bound : Int) : Int :=
  min high (max low (if bound < 0 then bound + length else bound))

/-- The positions that a slice of a list of the given length takes, in order. -/
def slicePositions (length : Nat) (start stop : Option Int) (step : Int) : List Nat :=
  let low : Int := if 0 < step then 0 else -1
  let high : Int := if 0 < step then length else length - 1
  let first := (start.map (clampBound length low high)).getD (if 0 < step then low else high)
  let last := (stop.map (clampBound length low high)).getD (if 0 < step then high else low)
  let span := if 0 < step then last - first else first - last
  let count := ((span + step.natAbs - 1) / step.natAbs).toNat
  (List.range count).map fun (k : Nat) => (first + k * step).toNat

/-- How many items lie before a bound. -/
def itemsBefore (length : Nat) (bound : Int) : Nat := (clampBound length 0 length bound).toNat

/-- The items before `stop`, without those before `start`. -/
def sliceBetween {α : Type} (xs : List α) (start stop : Option Int) : List α :=
  let kept := match stop with
    | none => xs
    | some bound => xs.take (itemsBefore xs.length bound)
  match start with
  | none => kept
  | some bound => kept.drop (itemsBefore xs.length bound)

/-- The items of a slice. -/
def sliceList {α : Type} (xs : List α) (start stop : Option Int) (step : Int) : List α :=
  if step = 1 then sliceBetween xs start stop
  else
    let array := xs.toArray
    (slicePositions array.size start stop step).filterMap (array[·]?)

@[simp] theorem itemsBefore_natCast (length k : Nat) :
    itemsBefore length (k : Int) = min length k := by
  unfold itemsBefore clampBound
  omega

/-- A slice up to a position takes the items before it. -/
theorem sliceList_take {α : Type} (xs : List α) (k : Nat) :
    sliceList xs none (some (k : Int)) 1 = xs.take k := by
  simp [sliceList, sliceBetween, List.take_eq_take_iff, Nat.min_comm]

/-- A slice from a position drops the items before it. -/
theorem sliceList_drop {α : Type} (xs : List α) (k : Nat) :
    sliceList xs (some (k : Int)) none 1 = xs.drop k := by
  simp only [sliceList, sliceBetween, if_true, itemsBefore_natCast]
  rcases Nat.le_total k xs.length with inside | beyond
  · rw [Nat.min_eq_right inside]
  · rw [Nat.min_eq_left beyond, List.drop_eq_nil_of_le beyond, List.drop_length]

end GrammarKit
