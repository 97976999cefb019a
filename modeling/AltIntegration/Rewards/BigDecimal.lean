import AltIntegration.Arith.Division

/-!
This module contains the fixed-point numbers of `poprewards_bigdecimal.hpp`. A `double` is given by what it becomes
when it is multiplied by `decimals` and cast to 64 bits.
-/

namespace AltIntegration

open Arith

structure PopRewardsBigDecimal where
  value : ArithUint256
  deriving DecidableEq

namespace PopRewardsBigDecimal

def decimals : UInt32 := 100000000

/-- The constructor from `uint64_t` -/
def ofUint64 (b : UInt64) : PopRewardsBigDecimal := ⟨(ArithUint256.ofUint64 b.toNat).scale decimals⟩

/-- The constructor from `double` -/
def ofDouble (b : UInt64) : PopRewardsBigDecimal := ⟨ArithUint256.ofUint64 b.toNat⟩

/-- `0.0` and `1.0` -/
def zero : PopRewardsBigDecimal := ofDouble 0

def one : PopRewardsBigDecimal := ofDouble 100000000

section Operators

variable (a b : PopRewardsBigDecimal)

def add : PopRewardsBigDecimal := ⟨a.value.add b.value⟩

def sub : PopRewardsBigDecimal := ⟨a.value.sub b.value⟩

/-- `none` is a division by zero. -/
def mul : Option PopRewardsBigDecimal :=
  ((a.value.mul b.value).div (ArithUint256.ofUint64 decimals.toNat)).map (fun value => ⟨value⟩)

def div : Option PopRewardsBigDecimal := ((a.value.scale decimals).div b.value).map (fun value => ⟨value⟩)

/-- `operator>` -/
def gt : Bool := 0 < a.value.compareTo b.value

def lt : Bool := a.value.compareTo b.value < 0

def ge : Bool := 0 ≤ a.value.compareTo b.value

/-- `operator==` -/
def eq : Bool := a.value.compareTo b.value = 0

end Operators

section Units

/-- How many units of the last decimal place a number is -/
def units (a : PopRewardsBigDecimal) : Nat := a.value.value

variable {a b c : PopRewardsBigDecimal}

theorem units_lt (a : PopRewardsBigDecimal) : a.units < 2 ^ 256 := a.value.value_lt

theorem eq_of_units_eq (h : a.units = b.units) : a = b := by
  cases a
  cases b
  rw [mk.injEq]
  exact ArithUint256.eq_of_value_eq h

theorem units_ofDouble (b : UInt64) : (ofDouble b).units = b.toNat := by
  rw [units, ofDouble, ArithUint256.value_ofUint64, Nat.mod_eq_of_lt b.toNat_lt]

theorem units_zero : zero.units = 0 := units_ofDouble 0

theorem units_one : one.units = 100000000 := units_ofDouble 100000000

theorem units_add : (a.add b).units = (a.units + b.units) % 2 ^ 256 := ArithUint256.value_add

theorem units_add_of_lt (h : a.units + b.units < 2 ^ 256) : (a.add b).units = a.units + b.units := by
  rw [units_add, Nat.mod_eq_of_lt h]

theorem units_sub_of_le (h : b.units ≤ a.units) : (a.sub b).units = a.units - b.units :=
  ArithUint256.value_sub_of_le h

theorem units_mul (h : a.mul b = some c) : c.units = a.units * b.units % 2 ^ 256 / 100000000 := by
  rw [mul, Option.map_eq_some_iff] at h
  obtain ⟨q, hq, hc⟩ := h
  rw [← hc, units, ArithUint256.value_div hq, ArithUint256.value_mul, ArithUint256.value_ofUint64]
  rfl

theorem units_div (h : a.div b = some c) : c.units = a.units * 100000000 % 2 ^ 256 / b.units := by
  rw [div, Option.map_eq_some_iff] at h
  obtain ⟨q, hq, hc⟩ := h
  rw [← hc, units, ArithUint256.value_div hq, ArithUint256.value_scale]
  rfl

theorem exists_mul (a b : PopRewardsBigDecimal) : ∃ c, a.mul b = some c := by
  have hne : (a.value.mul b.value).div (ArithUint256.ofUint64 decimals.toNat) ≠ none := by
    rw [Ne, ArithUint256.div_eq_none_iff, ArithUint256.value_ofUint64]
    decide
  obtain ⟨q, hq⟩ := Option.ne_none_iff_exists'.mp hne
  exact ⟨⟨q⟩, by rw [mul, hq, Option.map_some]⟩

theorem exists_div (a : PopRewardsBigDecimal) (h : b.units ≠ 0) : ∃ c, a.div b = some c := by
  have hne : (a.value.scale decimals).div b.value ≠ none := by
    rw [Ne, ArithUint256.div_eq_none_iff]
    exact h
  obtain ⟨q, hq⟩ := Option.ne_none_iff_exists'.mp hne
  exact ⟨⟨q⟩, by rw [div, hq, Option.map_some]⟩

theorem mul_ofDouble {a b c : UInt64} (h : a.toNat * b.toNat / 100000000 = c.toNat) :
    (ofDouble a).mul (ofDouble b) = some (ofDouble c) := by
  obtain ⟨d, hd⟩ := exists_mul (ofDouble a) (ofDouble b)
  have hlt : a.toNat * b.toNat < 2 ^ 64 * 2 ^ 64 := Nat.mul_lt_mul'' a.toNat_lt b.toNat_lt
  rw [hd, Option.some.injEq]
  apply eq_of_units_eq
  rw [units_mul hd, units_ofDouble, units_ofDouble, units_ofDouble, Nat.mod_eq_of_lt, h]
  omega

theorem div_ofDouble {a b c : UInt64} (hb : b.toNat ≠ 0) (h : a.toNat * 100000000 / b.toNat = c.toNat) :
    (ofDouble a).div (ofDouble b) = some (ofDouble c) := by
  have hlt := a.toNat_lt
  rw [← units_ofDouble b] at hb
  obtain ⟨d, hd⟩ := exists_div (ofDouble a) hb
  rw [hd, Option.some.injEq]
  apply eq_of_units_eq
  rw [units_div hd, units_ofDouble, units_ofDouble, units_ofDouble, Nat.mod_eq_of_lt, h]
  omega

theorem gt_iff : a.gt b = true ↔ b.units < a.units := by
  rw [gt, decide_eq_true_iff]
  exact ArithUint256.compareTo_pos_iff

theorem ge_iff : a.ge b = true ↔ b.units ≤ a.units := by
  rw [ge, decide_eq_true_iff]
  exact ArithUint256.compareTo_nonneg_iff

theorem lt_iff : a.lt b = true ↔ a.units < b.units := by
  rw [lt, decide_eq_true_iff, ← not_iff_not, Int.not_lt, Nat.not_lt]
  exact ArithUint256.compareTo_nonneg_iff

theorem eq_iff : a.eq b = true ↔ a.units = b.units := by
  have hge := ArithUint256.compareTo_nonneg_iff (a := a.value) (b := b.value)
  have hgt := ArithUint256.compareTo_pos_iff (a := a.value) (b := b.value)
  rw [eq, decide_eq_true_iff, units, units]
  omega

theorem add_right_comm (a b c : PopRewardsBigDecimal) : (a.add b).add c = (a.add c).add b := by
  apply eq_of_units_eq
  rw [units_add, units_add, units_add, units_add, Nat.mod_add_mod, Nat.mod_add_mod, Nat.add_right_comm]

end Units

end PopRewardsBigDecimal

end AltIntegration
