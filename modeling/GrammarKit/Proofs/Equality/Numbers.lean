import Mathlib
import GrammarKit.Number.Basic

/-! # Equality of numbers

Numbers are compared exactly, whole numbers and floats with one another as well. So equality is
symmetric, and two numbers that equal a third one equal each other, whatever their kinds are. It is
not reflexive, since there are floats that are no numbers. That two floats equal each other if they
equal the same whole number rests on their encoding: there is only one of each finite number, but
for the sign of zero.
-/

namespace GrammarKit

theorem float_beq_comm (x y : Float) : (x == y) = (y == x) := by
  rw [Bool.eq_iff_iff, Float.beq_iff_ne_nan_and_eq, Float.beq_iff_ne_nan_and_eq]
  tauto

/-- Floats that equal a third one are equal. -/
theorem float_beq_of_beq {x y z : Float} (first : (x == y) = true) (second : (x == z) = true) :
    (y == z) = true := by
  rw [Float.beq_iff_ne_nan_and_eq] at first second ⊢
  generalize (0 : Float) = plus, (-0 : Float) = minus at first second ⊢
  grind

theorem not_float_lt_of_beq {x y : Float} (same : (x == y) = true) : ¬x < y := by
  intro less
  have equal : (x.toModel.unpack.compare y.toModel.unpack == some .eq) = true := same
  have smaller : (x.toModel.unpack.compare y.toModel.unpack == some .lt) = true :=
    of_decide_eq_true less
  rw [eq_of_beq equal] at smaller
  cases smaller

namespace Dyadic

/-- How many times the smallest positive float a finite one is. -/
def multiple (d : Dyadic) : Int :=
  (if d.negative then -(d.significand : Int) else d.significand) * 2 ^ (d.exponent + 1074).toNat

/-- Whether a number is given as floats are: with a significand of 53 bits, if its exponent is not
the least one. -/
structure IsNormal (d : Dyadic) : Prop where
  least : -1074 ≤ d.exponent
  below : d.significand < 2 ^ 53
  normal : d.exponent ≠ -1074 → 2 ^ 52 ≤ d.significand

theorem isNormal_of_ofFloat? {x : Float} {d : Dyadic} (decoded : ofFloat? x = some d) :
    d.IsNormal := by
  simp only [ofFloat?, Nat.reducePow, Nat.pow_eq] at decoded
  split at decoded
  · cases decoded
  split at decoded
  · cases decoded
    refine ⟨by simp, ?_, by simp⟩
    dsimp only
    omega
  · cases decoded
    refine ⟨?_, ?_, ?_⟩ <;> dsimp only <;> omega

/-- The encoding of the float with given parts. -/
def encoding (d : Dyadic) : Nat :=
  (if d.negative then 2 ^ 63 else 0) +
    if d.significand < 2 ^ 52 then d.significand
    else (d.exponent + 1075).toNat * 2 ^ 52 + (d.significand - 2 ^ 52)

theorem toNat_toBits_of_ofFloat? {x : Float} {d : Dyadic} (decoded : ofFloat? x = some d) :
    x.toBits.toNat = d.encoding := by
  have bound := x.toBits.toNat_lt
  generalize bits : x.toBits.toNat = n at bound
  simp only [ofFloat?, bits, Nat.reducePow, Nat.pow_eq] at decoded
  split at decoded
  · cases decoded
  split at decoded
  · cases decoded
    simp only [encoding, beq_iff_eq]
    split <;> split <;> omega
  · cases decoded
    simp only [encoding, beq_iff_eq]
    split <;> split <;> omega

/-- A finite float is known by its parts. -/
theorem ofFloat?_injective {x y : Float} {d : Dyadic} (first : ofFloat? x = some d)
    (second : ofFloat? y = some d) : x = y := by
  refine Float.toBits_inj.mp (UInt64.toNat_inj.mp ?_)
  rw [toNat_toBits_of_ofFloat? first, toNat_toBits_of_ofFloat? second]

/-- A whole number equals a finite float iff it is the same multiple. -/
theorem compareInt_eq_iff {d : Dyadic} (normal : d.IsNormal) (n : Int) :
    compareInt n d = .eq ↔ n * 2 ^ 1074 = d.multiple := by
  have least := normal.least
  simp only [compareInt, multiple]
  generalize (if d.negative then -(d.significand : Int) else d.significand) = m
  split
  · next below =>
    have powers : (2 : Int) ^ 1074 = 2 ^ d.exponent.natAbs * 2 ^ (d.exponent + 1074).toNat := by
      rw [← pow_add]
      congr 1
      omega
    have positive : (2 : Int) ^ (d.exponent + 1074).toNat ≠ 0 := by positivity
    rw [powers, ← mul_assoc, mul_left_inj' positive]
    exact compare_eq_iff_eq
  · next above =>
    have powers : (2 : Int) ^ (d.exponent + 1074).toNat = 2 ^ d.exponent.natAbs * 2 ^ 1074 := by
      rw [← pow_add]
      congr 1
      omega
    have positive : (2 : Int) ^ 1074 ≠ 0 := by positivity
    rw [powers, ← mul_assoc, mul_left_inj' positive]
    exact compare_eq_iff_eq

theorem natAbs_multiple (d : Dyadic) :
    d.multiple.natAbs = d.significand * 2 ^ (d.exponent + 1074).toNat := by
  rw [multiple, Int.natAbs_mul, Int.natAbs_pow]
  split <;> simp

theorem significand_eq_zero_iff {d : Dyadic} : d.significand = 0 ↔ d.multiple = 0 := by
  rw [← Int.natAbs_eq_zero, natAbs_multiple]
  simp

/-- What has a larger exponent is larger, unless it is zero. -/
theorem exponent_le_of_natAbs_eq {d d' : Dyadic} (normal : d.IsNormal) (normal' : d'.IsNormal)
    (same : d.multiple.natAbs = d'.multiple.natAbs) : d'.exponent ≤ d.exponent := by
  by_contra larger
  rw [natAbs_multiple, natAbs_multiple] at same
  have least := normal.least
  have below := normal.below
  have full := normal'.normal (by omega)
  obtain ⟨k, apart⟩ : ∃ k, (d'.exponent + 1074).toNat = k + 1 + (d.exponent + 1074).toNat :=
    ⟨(d'.exponent - d.exponent).toNat - 1, by omega⟩
  rw [apart, pow_add, ← mul_assoc] at same
  have shifted := Nat.eq_of_mul_eq_mul_right (by positivity) same
  have grown : 2 ≤ 2 ^ (k + 1) := Nat.le_self_pow (Nat.succ_ne_zero k) 2
  have := Nat.mul_le_mul full grown
  omega

/-- Numbers other than zero that are the same multiple have the same parts. -/
theorem eq_of_multiple_eq {d d' : Dyadic} (normal : d.IsNormal) (normal' : d'.IsNormal)
    (same : d.multiple = d'.multiple) (some_ : d.multiple ≠ 0) : d = d' := by
  have size := congrArg Int.natAbs same
  have exponent : d.exponent = d'.exponent :=
    Int.le_antisymm (exponent_le_of_natAbs_eq normal' normal size.symm)
      (exponent_le_of_natAbs_eq normal normal' size)
  rw [natAbs_multiple, natAbs_multiple, exponent] at size
  have significand := Nat.eq_of_mul_eq_mul_right (by positivity) size
  have positive : (0 : Int) < 2 ^ (d'.exponent + 1074).toNat := by positivity
  have filled : 0 < d'.significand := by
    rw [← significand]
    exact Nat.pos_of_ne_zero fun zero => some_ (significand_eq_zero_iff.mp zero)
  have sign : d.negative = d'.negative := by
    rw [multiple, multiple, significand, exponent] at same
    have signed := mul_right_cancel₀ positive.ne' same
    cases first : d.negative <;> cases second : d'.negative <;> simp [first, second] at signed ⊢ <;>
      omega
  cases d
  cases d'
  simp_all

theorem ofFloat?_zero : ofFloat? 0 = some ⟨false, 0, -1074⟩ := by decide

theorem ofFloat?_neg_zero : ofFloat? (-0) = some ⟨true, 0, -1074⟩ := by decide

theorem ne_nan_of_ofFloat? {x : Float} {d : Dyadic} (decoded : ofFloat? x = some d) :
    x ≠ Float.nan := by
  rintro rfl
  cases (show ofFloat? Float.nan = none by decide).symm.trans decoded

/-- There are two floats of which the parts give zero. -/
theorem eq_zero_or_eq_neg_zero {x : Float} {d : Dyadic} (decoded : ofFloat? x = some d)
    (zero : d.multiple = 0) : x = 0 ∨ x = -0 := by
  have significand := significand_eq_zero_iff.mpr zero
  have exponent : d.exponent = -1074 := by
    by_contra other
    have := (isNormal_of_ofFloat? decoded).normal other
    omega
  obtain ⟨negative, _, _⟩ := d
  cases significand
  cases exponent
  cases negative with
  | false => exact .inl (ofFloat?_injective decoded ofFloat?_zero)
  | true => exact .inr (ofFloat?_injective decoded ofFloat?_neg_zero)

/-- Finite floats are equal iff they are the same multiple. -/
theorem beq_iff_multiple_eq {x y : Float} {d d' : Dyadic} (first : ofFloat? x = some d)
    (second : ofFloat? y = some d') : (x == y) = true ↔ d.multiple = d'.multiple := by
  rw [Float.beq_iff_ne_nan_and_eq]
  constructor
  · rintro ⟨-, -, rfl | ⟨rfl, rfl⟩ | ⟨rfl, rfl⟩⟩
    · cases first.symm.trans second
      rfl
    · cases ofFloat?_zero.symm.trans first
      cases ofFloat?_neg_zero.symm.trans second
      rfl
    · cases ofFloat?_neg_zero.symm.trans first
      cases ofFloat?_zero.symm.trans second
      rfl
  · intro same
    refine ⟨ne_nan_of_ofFloat? first, ne_nan_of_ofFloat? second, ?_⟩
    by_cases zero : d.multiple = 0
    · have here := eq_zero_or_eq_neg_zero first zero
      have there := eq_zero_or_eq_neg_zero second (same ▸ zero)
      rcases here with rfl | rfl <;> rcases there with rfl | rfl <;> simp
    · have parts := eq_of_multiple_eq (isNormal_of_ofFloat? first) (isNormal_of_ofFloat? second)
        same zero
      subst parts
      exact .inl (ofFloat?_injective first second)

end Dyadic

namespace Number

theorem equal_int_int (m n : Int) : (int m).equal (int n) = true ↔ m = n := by
  simp [equal, compare?]

theorem equal_float_float (x y : Float) : (float x).equal (float y) = (x == y) := by
  simp only [equal, compare?]
  cases same : x == y with
  | true =>
    rw [if_neg (not_float_lt_of_beq same), if_neg (not_float_lt_of_beq (float_beq_comm x y ▸ same))]
    rfl
  | false => split <;> [rfl; split <;> rfl]

/-- A whole number equals a float that is finite and the same multiple. -/
theorem equal_int_float_iff (n : Int) (y : Float) : (int n).equal (float y) = true ↔
    ∃ d, Dyadic.ofFloat? y = some d ∧ n * 2 ^ 1074 = d.multiple := by
  simp only [equal, compare?, compare?.compareIntFloat]
  cases decoded : Dyadic.ofFloat? y with
  | none =>
    refine iff_of_false ?_ (by rintro ⟨d, ⟨⟩, -⟩)
    dsimp only
    split
    · split <;> decide
    · decide
  | some d =>
    simp only [beq_iff_eq, Option.some.injEq, exists_eq_left',
      Dyadic.compareInt_eq_iff (Dyadic.isNormal_of_ofFloat? decoded)]

theorem equal_float_int (x : Float) (n : Int) :
    (float x).equal (int n) = (int n).equal (float x) := by
  simp only [equal, compare?]
  cases compare?.compareIntFloat n x with
  | none => rfl
  | some order => cases order <;> rfl

/-- Equality of numbers is symmetric. -/
theorem equal_comm (a b : Number) : a.equal b = b.equal a := by
  cases a with
  | int m =>
    cases b with
    | int n => rw [Bool.eq_iff_iff, equal_int_int, equal_int_int, eq_comm]
    | float y => rw [equal_float_int]
  | float x =>
    cases b with
    | int n => rw [equal_float_int]
    | float y => rw [equal_float_float, equal_float_float, float_beq_comm]

/-- What equals one of two floats that are equal equals the other one. -/
theorem equal_int_float_of_beq {n : Int} {x y : Float} (first : (int n).equal (float x) = true)
    (second : (x == y) = true) : (int n).equal (float y) = true := by
  obtain ⟨d, decoded, multiple⟩ := (equal_int_float_iff n x).mp first
  obtain ⟨-, -, rfl | ⟨rfl, rfl⟩ | ⟨rfl, rfl⟩⟩ := Float.beq_iff_ne_nan_and_eq.mp second
  · exact first
  · refine (equal_int_float_iff n _).mpr ⟨_, Dyadic.ofFloat?_neg_zero, ?_⟩
    cases Dyadic.ofFloat?_zero.symm.trans decoded
    exact multiple
  · refine (equal_int_float_iff n _).mpr ⟨_, Dyadic.ofFloat?_zero, ?_⟩
    cases Dyadic.ofFloat?_neg_zero.symm.trans decoded
    exact multiple

/-- Numbers that equal a third one are equal. -/
theorem equal_of_equal {a b c : Number} (first : a.equal b = true) (second : a.equal c = true) :
    b.equal c = true := by
  cases a with
  | int k =>
    cases b with
    | int m =>
      obtain rfl := (equal_int_int k m).mp first
      exact second
    | float y =>
      cases c with
      | int n =>
        obtain rfl := (equal_int_int k n).mp second
        rwa [equal_comm]
      | float z =>
        obtain ⟨d, decoded, multiple⟩ := (equal_int_float_iff k y).mp first
        obtain ⟨d', decoded', multiple'⟩ := (equal_int_float_iff k z).mp second
        rw [equal_float_float, Dyadic.beq_iff_multiple_eq decoded decoded']
        exact multiple.symm.trans multiple'
  | float x =>
    cases b with
    | int m =>
      rw [equal_comm] at first
      cases c with
      | int n =>
        rw [equal_comm] at second
        obtain ⟨d, decoded, multiple⟩ := (equal_int_float_iff m x).mp first
        obtain ⟨d', decoded', multiple'⟩ := (equal_int_float_iff n x).mp second
        cases decoded.symm.trans decoded'
        have positive : (0 : Int) < 2 ^ 1074 := by positivity
        exact (equal_int_int m n).mpr
          (mul_right_cancel₀ positive.ne' (multiple.trans multiple'.symm))
      | float z => exact equal_int_float_of_beq first (equal_float_float x z ▸ second)
    | float y =>
      rw [equal_float_float] at first
      cases c with
      | int n =>
        rw [equal_comm] at second ⊢
        exact equal_int_float_of_beq second first
      | float z =>
        rw [equal_float_float] at second ⊢
        exact float_beq_of_beq first second

end Number

end GrammarKit
