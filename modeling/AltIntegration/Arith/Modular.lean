import AltIntegration.Arith.ArithUint256
import Mathlib.Tactic.Ring

/-!
This module shows that the operators of `ArithUint256` are the operations on natural numbers modulo `2 ^ 256`.
-/

namespace AltIntegration.Arith.ArithUint256

open Bytes

variable {a b : ArithUint256}

theorem pow_256_32 : 256 ^ 32 = 2 ^ 256 := by decide

theorem value_mk_mod {data : List UInt8} (h : data.length = 32) : toNatLE data % 2 ^ 256 = toNatLE data := by
  apply Nat.mod_eq_of_lt
  exact value_lt ⟨data, h⟩

theorem value_zero : zero.value = 0 := toNatLE_replicate_zero 32

theorem toNatLE_range_map (b n : Nat) :
    toNatLE ((List.range n).map (fun i => UInt8.ofNat (b >>> (8 * i)))) = b % 256 ^ n := by
  induction n with
  | zero => rw [Nat.pow_zero, Nat.mod_one]; rfl
  | succ n ih =>
    rw [List.range_succ, List.map_append, toNatLE_append, ih, List.length_map, List.length_range, Nat.pow_succ, Nat.mod_mul]
    simp [toNatLE_cons, toNatLE_nil, Nat.shiftRight_eq_div_pow, Nat.pow_mul]

theorem value_ofUint64 (n : Nat) : (ofUint64 n).value = n % 2 ^ 64 := by
  unfold value ofUint64
  rw [toNatLE_append, toNatLE_range_map, toNatLE_replicate_zero, Nat.mul_zero, Nat.add_zero]
  rfl

theorem value_ofUint64_of_lt {n : Nat} (h : n < 2 ^ 64) : (ofUint64 n).value = n := by
  rw [value_ofUint64, Nat.mod_eq_of_lt h]

theorem eq_of_value_eq (h : a.value = b.value) : a = b := by
  obtain ⟨ds, hds⟩ := a
  obtain ⟨es, hes⟩ := b
  have heq : ds = es := toNatLE_injective (hds.trans hes.symm) h
  cases heq
  rfl

section Add

theorem toNatLE_addLoop (carry : Nat) {ds es : List UInt8} (hlen : ds.length = es.length) (hcarry : carry < 2 ^ 32) :
    toNatLE (addLoop carry ds es) = (carry + toNatLE ds + toNatLE es) % 256 ^ ds.length := by
  induction ds generalizing carry es with
  | nil => simp [addLoop, toNatLE_nil, Nat.mod_one]
  | cons d ds ih =>
    cases es with
    | nil => cases hlen
    | cons e es =>
      have hd : d.toNat < 256 := d.toNat_lt
      have he : e.toNat < 256 := e.toNat_lt
      have hn : (carry + d.toNat + e.toNat) % 2 ^ 64 = carry + d.toNat + e.toNat := Nat.mod_eq_of_lt (by omega)
      have hrest := ih ((carry + d.toNat + e.toNat) / 256) (Nat.succ.inj hlen) (by omega)
      rw [Nat.add_assoc ((carry + d.toNat + e.toNat) / 256)] at hrest
      rw [addLoop, hn, toNatLE_cons_carry hrest, toNatLE_cons, toNatLE_cons, List.length_cons, Nat.pow_succ']
      congr 1
      omega

theorem value_add : (a.add b).value = (a.value + b.value) % 2 ^ 256 := by
  have h := toNatLE_addLoop 0 (a.length_data.trans b.length_data.symm) (by decide)
  rw [a.length_data, Nat.zero_add, pow_256_32] at h
  exact h

theorem toNatLE_complement (ds : List UInt8) :
    toNatLE (ds.map (fun d => ~~~d)) + toNatLE ds + 1 = 256 ^ ds.length := by
  induction ds with
  | nil => rfl
  | cons d ds ih =>
    have hd : d.toNat < 256 := d.toNat_lt
    have hnot : (~~~d).toNat = 255 - d.toNat := by
      rw [UInt8.toNat_not]
      rfl
    rw [List.map_cons, toNatLE_cons, toNatLE_cons, List.length_cons, Nat.pow_succ', ← ih, hnot]
    omega

theorem value_complement : a.complement.value = 2 ^ 256 - 1 - a.value := by
  have h := toNatLE_complement a.data
  rw [a.length_data, pow_256_32] at h
  unfold value complement
  simp only
  omega

theorem toNatLE_incrementLoop (ds : List UInt8) : toNatLE (incrementLoop ds) = (toNatLE ds + 1) % 256 ^ ds.length := by
  induction ds with
  | nil => simp [incrementLoop, toNatLE_nil]
  | cons d ds ih =>
    have hd : d.toNat < 256 := d.toNat_lt
    have hsucc : (d + 1).toNat = (d.toNat + 1) % 256 := UInt8.toNat_add d 1
    rw [incrementLoop, toNatLE_cons, List.length_cons, Nat.pow_succ']
    split
    . next hz =>
      have h255 : d.toNat = 255 := by
        rw [hz] at hsucc
        have hzero : (0 : UInt8).toNat = 0 := rfl
        omega
      have hcarry := toNatLE_cons_carry (n := 256) (y := toNatLE ds) (m := 256 ^ ds.length) (by rw [ih, Nat.add_comm])
      rw [show (0 : UInt8) = UInt8.ofNat 256 from rfl, hcarry, h255]
      congr 1
      omega
    . next hnz =>
      have hlt : d.toNat + 1 < 256 := by
        apply Nat.lt_of_le_of_ne hd
        intro heq
        apply hnz
        apply UInt8.toNat_inj.mp
        rw [hsucc, show d.toNat + 1 = 256 from heq]
        rfl
      have hbound := toNatLE_lt ds
      rw [toNatLE_cons, hsucc, Nat.mod_eq_of_lt hlt, Nat.mod_eq_of_lt]
      . omega
      . have := Nat.mul_le_mul_left 256 (Nat.succ_le_of_lt hbound)
        omega

theorem value_increment : a.increment.value = (a.value + 1) % 2 ^ 256 := by
  have h := toNatLE_incrementLoop a.data
  rw [a.length_data, pow_256_32] at h
  exact h

theorem value_neg : a.neg.value = (2 ^ 256 - a.value) % 2 ^ 256 := by
  have hlt := a.value_lt
  rw [neg, value_increment, value_complement]
  congr 1
  omega

theorem value_sub : (a.sub b).value = (a.value + (2 ^ 256 - b.value)) % 2 ^ 256 := by
  rw [sub, value_add, value_neg, Nat.add_mod_mod]

theorem value_sub_of_le (h : b.value ≤ a.value) : (a.sub b).value = a.value - b.value := by
  have hlt := a.value_lt
  rw [value_sub, show a.value + (2 ^ 256 - b.value) = a.value - b.value + 2 ^ 256 by omega, Nat.add_mod_right]
  apply Nat.mod_eq_of_lt
  omega

end Add

section Mul

theorem toNatLE_scaleLoop {factor : Nat} (carry : Nat) (ds : List UInt8) (hfactor : factor < 2 ^ 32) (hcarry : carry < 2 ^ 32) :
    toNatLE (scaleLoop factor carry ds) = (carry + factor * toNatLE ds) % 256 ^ ds.length := by
  induction ds generalizing carry with
  | nil => simp [scaleLoop, toNatLE_nil, Nat.mod_one]
  | cons d ds ih =>
    have hd : d.toNat < 256 := d.toNat_lt
    have hprod : factor * d.toNat ≤ 2 ^ 32 * 255 - 255 := by
      have := Nat.mul_le_mul (Nat.le_sub_one_of_lt hfactor) (Nat.le_sub_one_of_lt hd)
      omega
    have hn : (carry + factor * d.toNat) % 2 ^ 64 = carry + factor * d.toNat := Nat.mod_eq_of_lt (by omega)
    have hrest := ih ((carry + factor * d.toNat) / 256) (by omega)
    rw [scaleLoop, hn, toNatLE_cons_carry hrest, toNatLE_cons, List.length_cons, Nat.pow_succ', Nat.mul_add, Nat.add_assoc,
      Nat.mul_left_comm]

theorem value_scale (f : UInt32) : (a.scale f).value = a.value * f.toNat % 2 ^ 256 := by
  have h := toNatLE_scaleLoop 0 a.data f.toNat_lt (by decide)
  rw [a.length_data, Nat.zero_add, pow_256_32, Nat.mul_comm] at h
  exact h

theorem toNatLE_mulAddLoop (byte : UInt8) (carry : Nat) {ds es : List UInt8} (hlen : ds.length ≤ es.length)
    (hcarry : carry < 2 ^ 32) :
    toNatLE (mulAddLoop byte carry ds es) = (carry + toNatLE ds + byte.toNat * toNatLE es) % 256 ^ ds.length := by
  induction ds generalizing carry es with
  | nil => simp [mulAddLoop, toNatLE_nil, Nat.mod_one]
  | cons d ds ih =>
    cases es with
    | nil => cases hlen
    | cons e es =>
      have hd : d.toNat < 256 := d.toNat_lt
      have hprod : byte.toNat * e.toNat ≤ 255 * 255 :=
        Nat.mul_le_mul (Nat.le_sub_one_of_lt byte.toNat_lt) (Nat.le_sub_one_of_lt e.toNat_lt)
      have hn : (carry + d.toNat + byte.toNat * e.toNat) % 2 ^ 64 = carry + d.toNat + byte.toNat * e.toNat :=
        Nat.mod_eq_of_lt (by omega)
      have hrest := ih ((carry + d.toNat + byte.toNat * e.toNat) / 256) (Nat.le_of_succ_le_succ hlen) (by omega)
      rw [Nat.add_assoc ((carry + d.toNat + byte.toNat * e.toNat) / 256)] at hrest
      rw [mulAddLoop, hn, toNatLE_cons_carry hrest, toNatLE_cons, toNatLE_cons, List.length_cons, Nat.pow_succ',
        Nat.mul_add byte.toNat, Nat.mul_left_comm byte.toNat 256]
      congr 1
      omega

theorem toNatLE_mulLoop {b : List UInt8} (j : Nat) (ds : List UInt8) {a : List UInt8} (h : a.length ≤ b.length)
    (hj : j + ds.length ≤ a.length) :
    toNatLE (mulLoop b j ds a) = (toNatLE a + 256 ^ j * toNatLE ds * toNatLE b) % 256 ^ a.length := by
  induction ds generalizing j a with
  | nil =>
    rw [mulLoop, toNatLE_nil, Nat.mul_zero, Nat.zero_mul, Nat.add_zero, Nat.mod_eq_of_lt (toNatLE_lt a)]
  | cons d ds ih =>
    rw [List.length_cons] at hj
    have htake : (a.take j).length = j := List.length_take_of_le (by omega)
    have hdrop : (a.drop j).length = a.length - j := List.length_drop
    have hloop : (mulAddLoop d 0 (a.drop j) b).length = a.length - j := by
      rw [length_mulAddLoop d 0 (by omega), hdrop]
    have hlen : (a.take j ++ mulAddLoop d 0 (a.drop j) b).length = a.length := by
      rw [List.length_append, htake, hloop]
      omega
    have hstep : toNatLE (a.take j ++ mulAddLoop d 0 (a.drop j) b) =
        (toNatLE a + 256 ^ j * d.toNat * toNatLE b) % 256 ^ a.length := by
      rw [toNatLE_append, htake, toNatLE_mulAddLoop d 0 (by omega) (by decide), hdrop, Nat.zero_add]
      rw [show 256 ^ a.length = 256 ^ j * 256 ^ (a.length - j) by rw [← Nat.pow_add]; congr 1; omega]
      rw [Nat.mod_mul, Nat.mul_assoc, Nat.add_mul_mod_self_left, Nat.add_mul_div_left _ _ (Nat.pow_pos (by omega)),
        toNatLE_mod, toNatLE_div]
    rw [mulLoop, ih (j + 1) (hlen.symm ▸ h) (by omega), hlen, hstep, Nat.mod_add_mod, toNatLE_cons, Nat.pow_succ]
    congr 1
    ring

theorem value_mul : (a.mul b).value = a.value * b.value % 2 ^ 256 := by
  have h := toNatLE_mulLoop 0 a.data (a := zero.data) (b := b.data) (by rw [zero.length_data, b.length_data])
    (by rw [zero.length_data, a.length_data])
  rw [zero.length_data, pow_256_32, Nat.pow_zero, Nat.one_mul] at h
  have hzero : toNatLE zero.data = 0 := value_zero
  rw [hzero, Nat.zero_add] at h
  exact h

end Mul

end AltIntegration.Arith.ArithUint256
