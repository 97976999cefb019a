import Mathlib.Algebra.GroupWithZero.Nat
import Mathlib.Algebra.Ring.Int.Defs
import Mathlib.Data.Nat.Bits

/-!
This module contains numbers as strings of bytes, most significant byte first or last, and the bits of such a
string.
-/

namespace Bytes

/-- The number that a string of bytes stands for. -/
def toNat (bytes : List UInt8) : Nat := bytes.foldl (fun n b => n * 256 + b.toNat) 0

/-- The last `size` bytes of a number. -/
def ofNat : Nat → Nat → List UInt8
  | 0, _ => []
  | size + 1, n => ofNat size (n / 256) ++ [UInt8.ofNat n]

theorem foldl_eq (bytes : List UInt8) (n : Nat) :
    bytes.foldl (fun n b => n * 256 + b.toNat) n = n * 256 ^ bytes.length + toNat bytes := by
  induction bytes generalizing n with
  | nil => simp [toNat]
  | cons b bytes ih =>
    rw [toNat, List.foldl_cons, List.foldl_cons, ih, ih (0 * 256 + b.toNat), List.length_cons, Nat.pow_succ]
    rw [Nat.add_mul, Nat.mul_assoc, Nat.mul_comm 256, Nat.zero_mul, Nat.zero_add, Nat.add_assoc]

theorem toNat_nil : toNat [] = 0 := rfl

theorem toNat_cons (b : UInt8) (bytes : List UInt8) :
    toNat (b :: bytes) = b.toNat * 256 ^ bytes.length + toNat bytes := by
  rw [toNat, List.foldl_cons, foldl_eq]
  simp

theorem toNat_append (l l' : List UInt8) : toNat (l ++ l') = toNat l * 256 ^ l'.length + toNat l' := by
  rw [toNat, List.foldl_append, foldl_eq]
  rfl

theorem toNat_lt (bytes : List UInt8) : toNat bytes < 256 ^ bytes.length := by
  induction bytes with
  | nil => simp [toNat_nil]
  | cons b bytes ih =>
    have hb : b.toNat < 256 := b.toNat_lt
    have : (b.toNat + 1) * 256 ^ bytes.length ≤ 256 * 256 ^ bytes.length := Nat.mul_le_mul_right _ (by omega)
    rw [toNat_cons, List.length_cons, Nat.pow_succ]
    have := Nat.add_mul b.toNat 1 (256 ^ bytes.length)
    omega

@[simp]
theorem length_ofNat (size n : Nat) : (ofNat size n).length = size := by
  induction size generalizing n with
  | zero => rfl
  | succ size ih => rw [ofNat, List.length_append, ih, List.length_singleton]

theorem toNat_ofNat (size n : Nat) : toNat (ofNat size n) = n % 256 ^ size := by
  induction size generalizing n with
  | zero => rw [ofNat, toNat_nil, Nat.pow_zero, Nat.mod_one]
  | succ size ih =>
    have hbyte : toNat [UInt8.ofNat n] = n % 256 := by simp [toNat]
    rw [ofNat, toNat_append, ih, hbyte, List.length_singleton, Nat.pow_one, Nat.pow_succ', Nat.mod_mul]
    omega

/-- The bits of a byte, least significant first. -/
def byteBits (b : UInt8) : List Bool := (List.range 8).map (fun i => b.toNat.testBit i)

/-- The bits of a string of bytes, the bits of the first byte first. -/
def bits (bytes : List UInt8) : List Bool := bytes.flatMap byteBits

@[simp]
theorem length_byteBits (b : UInt8) : (byteBits b).length = 8 := by simp [byteBits]

@[simp]
theorem length_bits (bytes : List UInt8) : (bits bytes).length = 8 * bytes.length := by
  induction bytes with
  | nil => rfl
  | cons b bytes ih =>
    rw [bits, List.flatMap_cons, List.length_append, length_byteBits, ← bits, ih, List.length_cons]
    omega

/-- From the last byte to the first one, the bits are those of the number. -/
theorem getElem?_bits_reverse (bytes : List UInt8) {i : Nat} (h : i < 8 * bytes.length) :
    (bits bytes.reverse)[i]? = some ((toNat bytes).testBit i) := by
  induction bytes with
  | nil => simp at h
  | cons b bytes ih =>
    have hlen : (bits bytes.reverse).length = 8 * bytes.length := by simp
    have hnum : toNat (b :: bytes) = 2 ^ (8 * bytes.length) * b.toNat + toNat bytes := by
      rw [toNat_cons, Nat.mul_comm, Nat.pow_mul]
    have hlt : toNat bytes < 2 ^ (8 * bytes.length) := by
      rw [Nat.pow_mul]
      exact toNat_lt bytes
    rw [List.reverse_cons, bits, List.flatMap_append, ← bits, hnum, Nat.testBit_two_pow_mul_add _ hlt]
    split
    . next hi =>
      rw [List.getElem?_append_left (by omega)]
      exact ih hi
    . next hi =>
      rw [List.length_cons] at h
      rw [List.getElem?_append_right (by omega), hlen]
      simp only [List.flatMap_cons, List.flatMap_nil, List.append_nil, byteBits]
      rw [List.getElem?_map, List.getElem?_range (by omega)]
      rfl

/-- The number that a string of bytes stands for, least significant byte first. -/
def toNatLE (bytes : List UInt8) : Nat := toNat bytes.reverse

theorem toNatLE_nil : toNatLE [] = 0 := rfl

theorem toNatLE_cons (b : UInt8) (bytes : List UInt8) : toNatLE (b :: bytes) = b.toNat + 256 * toNatLE bytes := by
  rw [toNatLE, List.reverse_cons, toNat_append, toNat_cons, toNat_nil]
  simp [toNatLE, Nat.add_comm, Nat.mul_comm]

theorem toNatLE_append (l l' : List UInt8) : toNatLE (l ++ l') = toNatLE l + 256 ^ l.length * toNatLE l' := by
  rw [toNatLE, List.reverse_append, toNat_append, List.length_reverse, Nat.add_comm, Nat.mul_comm]
  rfl

theorem toNatLE_lt (bytes : List UInt8) : toNatLE bytes < 256 ^ bytes.length := by
  have := toNat_lt bytes.reverse
  rw [List.length_reverse] at this
  exact this

theorem toNatLE_injective {l l' : List UInt8} (hlen : l.length = l'.length) (h : toNatLE l = toNatLE l') : l = l' := by
  induction l generalizing l' with
  | nil => exact (List.length_eq_zero_iff.mp hlen.symm).symm
  | cons b l ih =>
    cases l' with
    | nil => cases hlen
    | cons b' l' =>
      have hb : b.toNat < 256 := b.toNat_lt
      have hb' : b'.toNat < 256 := b'.toNat_lt
      rw [toNatLE_cons, toNatLE_cons] at h
      rw [UInt8.toNat_inj.mp (show b.toNat = b'.toNat by omega), ih (Nat.succ.inj hlen) (by omega)]

theorem toNatLE_replicate_zero (n : Nat) : toNatLE (List.replicate n 0) = 0 := by
  induction n with
  | zero => rfl
  | succ n ih => rw [List.replicate_succ, toNatLE_cons, ih]; rfl

theorem toNatLE_div (bytes : List UInt8) (n : Nat) : toNatLE bytes / 256 ^ n = toNatLE (bytes.drop n) := by
  induction bytes generalizing n with
  | nil => simp [toNatLE_nil]
  | cons b bytes ih =>
    cases n with
    | zero => simp
    | succ n =>
      have hb : b.toNat < 256 := b.toNat_lt
      rw [Nat.pow_succ', ← Nat.div_div_eq_div_mul, List.drop_succ_cons, ← ih, toNatLE_cons]
      congr 1
      omega

theorem toNatLE_mod (bytes : List UInt8) (n : Nat) : toNatLE bytes % 256 ^ n = toNatLE (bytes.take n) := by
  have hsplit := toNatLE_append (bytes.take n) (bytes.drop n)
  rw [List.take_append_drop] at hsplit
  cases Nat.le_total bytes.length n with
  | inl hle =>
    rw [List.take_of_length_le hle]
    apply Nat.mod_eq_of_lt
    apply Nat.lt_of_lt_of_le (toNatLE_lt bytes)
    exact Nat.pow_le_pow_right (by omega) hle
  | inr hle =>
    have hlen : (bytes.take n).length = n := List.length_take_of_le hle
    have hlt := toNatLE_lt (bytes.take n)
    rw [hlen] at hsplit hlt
    rw [hsplit, Nat.add_mul_mod_self_left]
    exact Nat.mod_eq_of_lt hlt

/-- Byte `m` of a number -/
theorem toNat_getD (bytes : List UInt8) (m : Nat) : (bytes.getD m 0).toNat = toNatLE bytes / 256 ^ m % 256 := by
  rw [toNatLE_div, List.getD_eq_getElem?_getD, ← List.head?_drop]
  cases bytes.drop m with
  | nil => rfl
  | cons b rest =>
    have hb : b.toNat < 256 := b.toNat_lt
    rw [toNatLE_cons, List.head?_cons, Option.getD_some]
    omega

theorem testBit_toNatLE (bytes : List UInt8) (m : Nat) {r : Nat} (hr : r < 8) :
    (toNatLE bytes).testBit (8 * m + r) = (bytes.getD m 0).toNat.testBit r := by
  have hpow : 256 ^ m = 2 ^ (8 * m) := by rw [Nat.pow_mul]
  rw [toNat_getD, hpow, Nat.testBit_mod_two_pow _ 8, Nat.testBit_div_two_pow, Nat.add_comm]
  simp [hr]

/-- A byte in front: `n` is written, and its carry goes to the rest. -/
theorem toNatLE_cons_carry {n y m : Nat} {rest : List UInt8} (h : toNatLE rest = (n / 256 + y) % m) :
    toNatLE (UInt8.ofNat n :: rest) = (n + 256 * y) % (256 * m) := by
  rw [toNatLE_cons, h, UInt8.toNat_ofNat', Nat.mod_mul, Nat.add_mul_mod_self_left, Nat.add_mul_div_left _ _ (by omega)]

end Bytes
