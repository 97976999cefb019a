import AltIntegration.Arith.Modular

/-!
This module shows that the shifts of `ArithUint256` multiply and divide by a power of two.
-/

namespace AltIntegration.Arith.ArithUint256

open Bytes

section Bits

theorem toNatLE_cons_or (b : UInt8) (bytes : List UInt8) : toNatLE (b :: bytes) = toNatLE bytes <<< 8 ||| b.toNat := by
  have hb : b.toNat < 2 ^ 8 := b.toNat_lt
  rw [toNatLE_cons, Nat.shiftLeft_eq, Nat.mul_comm _ (2 ^ 8), ← Nat.two_pow_add_eq_or_of_lt hb, Nat.add_comm]

/-- To write bits into a byte is to write them into the number. -/
theorem toNatLE_modify (b : UInt8) {i : Nat} {data : List UInt8} (h : i < data.length) :
    toNatLE (data.modify i (fun d => d ||| b)) = toNatLE data ||| b.toNat <<< (8 * i) := by
  induction data generalizing i with
  | nil => cases h
  | cons d ds ih =>
    cases i with
    | zero =>
      rw [List.modify_zero_cons, toNatLE_cons_or, toNatLE_cons_or, UInt8.toNat_or, Nat.or_assoc]
      rfl
    | succ i =>
      rw [List.modify_succ_cons, toNatLE_cons_or, toNatLE_cons_or, ih (Nat.lt_of_succ_lt_succ h), Nat.shiftLeft_or_distrib,
        ← Nat.shiftLeft_add, Nat.or_assoc, Nat.or_assoc, Nat.or_comm d.toNat]
      rfl

/-- The bits of a number from bit 8 on and the bits below, shifted apart -/
theorem shiftLeft_eq_or (x n : Nat) : x <<< n = (x >>> 8) <<< (n + 8) ||| (x % 256) <<< n := by
  have hx : x = (x >>> 8) <<< 8 ||| x % 256 := by
    rw [Nat.shiftRight_eq_div_pow, Nat.shiftLeft_eq, Nat.mul_comm,
      ← Nat.two_pow_add_eq_or_of_lt (Nat.mod_lt x (by decide))]
    omega
  have h := congrArg (fun y => y <<< n) hx
  simp only [Nat.shiftLeft_or_distrib] at h
  rw [h, ← Nat.shiftLeft_add, Nat.add_comm 8 n]

theorem toNat_shiftRight_ofNat {byte : UInt8} {s : Nat} (hs : s ≤ 8) :
    (UInt8.ofNat (byte.toNat >>> s)).toNat = (byte.toNat <<< (8 - s)) >>> 8 := by
  have hlt : byte.toNat >>> s < 256 := Nat.lt_of_le_of_lt (Nat.shiftRight_le _ _) byte.toNat_lt
  rw [UInt8.toNat_ofNat', Nat.mod_eq_of_lt hlt]
  conv => rhs; rw [show 8 = (8 - s) + s by omega, Nat.shiftRight_add]
  rw [show 8 - s + s - s = 8 - s by omega, Nat.shiftLeft_shiftRight]

end Bits

section Left

variable {k shift : Nat} {data : List UInt8}

theorem toNatLE_writeLeft (b : UInt8) (p : Nat) (hlen : data.length = 32) :
    toNatLE (if p < 32 then data.modify p (fun d => d ||| b) else data) =
      toNatLE data ||| b.toNat <<< (8 * p) % 2 ^ 256 := by
  split
  . next hp =>
    have hlt : b.toNat <<< (8 * p) < 2 ^ 256 := by
      rw [Nat.shiftLeft_eq, show 256 = 8 + 8 * p + (248 - 8 * p) by omega, Nat.pow_add, Nat.pow_add]
      apply Nat.lt_of_lt_of_le _ (Nat.le_mul_of_pos_right _ (Nat.two_pow_pos _))
      exact Nat.mul_lt_mul_of_pos_right b.toNat_lt (Nat.two_pow_pos _)
    rw [toNatLE_modify b (hlen.symm ▸ hp), Nat.mod_eq_of_lt hlt]
  . next hp =>
    have hzero : b.toNat <<< (8 * p) % 2 ^ 256 = 0 := by
      rw [Nat.shiftLeft_eq, show 8 * p = 256 + (8 * p - 256) by omega, Nat.pow_add, Nat.mul_left_comm, Nat.mul_mod_right]
    rw [hzero, Nat.or_zero]

theorem toNatLE_shiftLeftByte (hshift : shift < 8) (i : Nat) (byte : UInt8) (hlen : data.length = 32) :
    toNatLE (shiftLeftByte k shift i byte data) =
      toNatLE data ||| (byte.toNat <<< (8 * i)) <<< (8 * k + shift) % 2 ^ 256 := by
  have hbits : (byte.toNat <<< (8 * i)) <<< (8 * k + shift) =
      ((byte.toNat <<< shift) >>> 8) <<< (8 * (i + k + 1)) ||| ((byte.toNat <<< shift) % 256) <<< (8 * (i + k)) := by
    rw [← Nat.shiftLeft_add, show 8 * i + (8 * k + shift) = shift + 8 * (i + k) by omega, Nat.shiftLeft_add,
      shiftLeft_eq_or]
    rfl
  have hhigh : (UInt8.ofNat (byte.toNat >>> (8 - shift))).toNat = (byte.toNat <<< shift) >>> 8 := by
    rw [toNat_shiftRight_ofNat (by omega), show 8 - (8 - shift) = shift by omega]
  have hfirst : toNatLE (if i + k + 1 < 32 ∧ shift ≠ 0 then
      data.modify (i + k + 1) (fun d => d ||| UInt8.ofNat (byte.toNat >>> (8 - shift))) else data) =
      toNatLE data ||| ((byte.toNat <<< shift) >>> 8) <<< (8 * (i + k + 1)) % 2 ^ 256 := by
    rw [← hhigh, ← toNatLE_writeLeft _ _ hlen]
    cases shift with
    | zero =>
      -- nothing is written then, and the bits that would be are zero
      have hzero : UInt8.ofNat (byte.toNat >>> (8 - 0)) = 0 := by
        rw [Nat.shiftRight_eq_div_pow, Nat.div_eq_of_lt byte.toNat_lt]
        rfl
      rw [toNatLE_writeLeft _ _ hlen, hzero]
      simp
    | succ => simp
  unfold shiftLeftByte
  simp only
  rw [toNatLE_writeLeft, hfirst, hbits, Nat.or_mod_two_pow, Nat.or_assoc, UInt8.toNat_ofNat']
  split
  . rw [List.length_modify, hlen]
  . exact hlen

theorem toNatLE_shiftLeftLoop (hshift : shift < 8) (i : Nat) (bytes : List UInt8) (hlen : data.length = 32) :
    toNatLE (shiftLoop (shiftLeftByte k shift) i bytes data) =
      toNatLE data ||| (toNatLE bytes <<< (8 * i)) <<< (8 * k + shift) % 2 ^ 256 := by
  induction bytes generalizing i data with
  | nil => simp [shiftLoop, toNatLE_nil]
  | cons byte bytes ih =>
    have hlen' := (length_shiftLeftByte k shift i byte data).trans hlen
    rw [shiftLoop, ih _ hlen', toNatLE_shiftLeftByte hshift i byte hlen, toNatLE_cons_or, Nat.shiftLeft_or_distrib,
      Nat.shiftLeft_or_distrib, Nat.or_mod_two_pow, Nat.or_assoc, ← Nat.shiftLeft_add _ 8, Nat.or_comm (_ % _),
      show 8 * (i + 1) = 8 + 8 * i by omega]

theorem value_shiftLeft (a : ArithUint256) (shift : Nat) : (a.shiftLeft shift).value = a.value * 2 ^ shift % 2 ^ 256 := by
  have h := toNatLE_shiftLeftLoop (k := shift / 8) (Nat.mod_lt shift (by decide : 0 < 8)) 0 a.data zero.length_data
  have hzero : toNatLE zero.data = 0 := value_zero
  rw [hzero, Nat.zero_or, Nat.mul_zero, Nat.shiftLeft_zero, Nat.div_add_mod, Nat.shiftLeft_eq] at h
  exact h

end Left

section Right

variable {k shift i : Nat} {data : List UInt8}

theorem toNatLE_writeRight (b : UInt8) (hi : i < data.length) :
    toNatLE (if k ≤ i then data.modify (i - k) (fun d => d ||| b) else data) =
      toNatLE data ||| (b.toNat <<< (8 * i)) >>> (8 * k) := by
  split
  . next hki =>
    rw [toNatLE_modify b (by omega), show 8 * i = 8 * (i - k) + 8 * k by omega, Nat.shiftLeft_add, Nat.shiftLeft_shiftRight]
  . next hki =>
    have hzero : (b.toNat <<< (8 * i)) >>> (8 * k) = 0 := by
      rw [show 8 * k = 8 * i + (8 * k - 8 * i) by omega, Nat.shiftRight_add, Nat.shiftLeft_shiftRight,
        Nat.shiftRight_eq_div_pow]
      apply Nat.div_eq_of_lt
      apply Nat.lt_of_lt_of_le b.toNat_lt
      apply Nat.pow_le_pow_right (by decide)
      omega
    rw [hzero, Nat.or_zero]

theorem toNatLE_shiftRightByte (hshift : shift < 8) (byte : UInt8) (hi : i < data.length) :
    toNatLE (shiftRightByte k shift i byte data) =
      toNatLE data ||| (byte.toNat <<< (8 * i)) >>> (8 * k + shift) := by
  have hbits : (byte.toNat <<< (8 * i)) >>> (8 * k + shift) =
      (((byte.toNat <<< (8 - shift)) >>> 8) <<< (8 * i)) >>> (8 * k) |||
        (((byte.toNat <<< (8 - shift)) % 256) <<< (8 * i)) >>> (8 * (k + 1)) := by
    have h := congrArg (fun y => y >>> (8 * (k + 1))) (shiftLeft_eq_or (byte.toNat <<< (8 - shift)) (8 * i))
    simp only [Nat.shiftRight_or_distrib] at h
    rw [Nat.shiftLeft_add, show 8 * (k + 1) = 8 + 8 * k by omega, Nat.shiftRight_add (_ <<< 8), Nat.shiftLeft_shiftRight] at h
    rw [show 8 * (k + 1) = 8 + 8 * k by omega, ← h, ← Nat.shiftLeft_add, Nat.add_comm (8 - shift), Nat.shiftLeft_add,
      show 8 + 8 * k = (8 - shift) + (8 * k + shift) by omega, Nat.shiftRight_add (_ <<< _ <<< _), Nat.shiftLeft_shiftRight]
  have hfirst : toNatLE (if k + 1 ≤ i ∧ shift ≠ 0 then
      data.modify (i - k - 1) (fun d => d ||| UInt8.ofNat (byte.toNat <<< (8 - shift))) else data) =
      toNatLE data ||| (((byte.toNat <<< (8 - shift)) % 256) <<< (8 * i)) >>> (8 * (k + 1)) := by
    rw [← UInt8.toNat_ofNat', ← toNatLE_writeRight _ hi]
    cases shift with
    | zero =>
      have hzero : UInt8.ofNat (byte.toNat <<< (8 - 0)) = 0 := by
        apply UInt8.toNat_inj.mp
        rw [UInt8.toNat_ofNat', Nat.shiftLeft_eq, Nat.mul_mod_left]
        rfl
      rw [toNatLE_writeRight _ hi, hzero]
      simp
    | succ => simp [Nat.sub_sub]
  unfold shiftRightByte
  simp only
  rw [toNatLE_writeRight, hfirst, hbits, Nat.or_assoc, Nat.or_comm (_ >>> (8 * (k + 1))), toNat_shiftRight_ofNat (by omega)]
  split
  . rw [List.length_modify]
    exact hi
  . exact hi

theorem toNatLE_shiftRightLoop (hshift : shift < 8) (bytes : List UInt8) (hi : i + bytes.length ≤ data.length) :
    toNatLE (shiftLoop (shiftRightByte k shift) i bytes data) =
      toNatLE data ||| (toNatLE bytes <<< (8 * i)) >>> (8 * k + shift) := by
  induction bytes generalizing i data with
  | nil => simp [shiftLoop, toNatLE_nil]
  | cons byte bytes ih =>
    rw [List.length_cons] at hi
    rw [shiftLoop, ih (by rw [length_shiftRightByte]; omega), toNatLE_shiftRightByte hshift byte (by omega), toNatLE_cons_or,
      Nat.shiftLeft_or_distrib, Nat.shiftRight_or_distrib, Nat.or_assoc, ← Nat.shiftLeft_add, Nat.or_comm (_ >>> _),
      show 8 * (i + 1) = 8 + 8 * i by omega]

theorem value_shiftRight (a : ArithUint256) (shift : Nat) : (a.shiftRight shift).value = a.value / 2 ^ shift := by
  have hlen : 0 + a.data.length ≤ zero.data.length := by rw [a.length_data, zero.length_data, Nat.zero_add]
  have h := toNatLE_shiftRightLoop (k := shift / 8) (Nat.mod_lt shift (by decide : 0 < 8)) a.data hlen
  have hzero : toNatLE zero.data = 0 := value_zero
  rw [hzero, Nat.zero_or, Nat.mul_zero, Nat.shiftLeft_zero, Nat.div_add_mod, Nat.shiftRight_eq_div_pow] at h
  exact h

end Right

end AltIntegration.Arith.ArithUint256
