import AltIntegration.Arith.Shifts

/-!
This module shows that the comparison, the number of bits and the division of `ArithUint256` are those of natural
numbers, so that the class is arithmetic modulo `2 ^ 256`.
-/

namespace AltIntegration.Arith.ArithUint256

open Bytes

variable {a b : ArithUint256}

theorem toNat_reverse (bytes : List UInt8) : toNat bytes.reverse = toNatLE bytes := by
  induction bytes with
  | nil => rfl
  | cons b bytes ih =>
    rw [List.reverse_cons, toNat_append, ih, toNatLE_cons, toNat_cons, toNat_nil, List.length_singleton]
    simp only [List.length_nil, Nat.pow_zero, Nat.mul_one, Nat.add_zero, Nat.pow_one]
    omega

theorem toNat_reverse_data (a : ArithUint256) : toNat a.data.reverse = a.value := toNat_reverse a.data

section Compare

theorem compareLoop_eq {ds es : List UInt8} (hlen : ds.length = es.length) :
    compareLoop ds es = if toNat ds < toNat es then -1 else if toNat es < toNat ds then 1 else 0 := by
  induction ds generalizing es with
  | nil =>
    cases es with
    | nil => rfl
    | cons => cases hlen
  | cons d ds ih =>
    cases es with
    | nil => cases hlen
    | cons e es =>
      have hrest := Nat.succ.inj hlen
      have hds := toNat_lt ds
      have hes := toNat_lt es
      rw [hrest] at hds
      rw [compareLoop, toNat_cons, toNat_cons, hrest, ih hrest]
      split
      . next hlt =>
        have hmul := Nat.mul_le_mul_right (256 ^ es.length) (Nat.succ_le_of_lt (UInt8.lt_iff_toNat_lt.mp hlt))
        rw [Nat.succ_mul] at hmul
        rw [if_pos (by omega)]
      . split
        . next hlt =>
          have hmul := Nat.mul_le_mul_right (256 ^ es.length) (Nat.succ_le_of_lt (UInt8.lt_iff_toNat_lt.mp hlt))
          rw [Nat.succ_mul] at hmul
          rw [if_neg (by omega), if_pos (by omega)]
        . next hge hle =>
          have heq : d.toNat = e.toNat := by
            rw [UInt8.lt_iff_toNat_lt] at hge hle
            omega
          rw [heq]
          simp only [Nat.add_lt_add_iff_left]

theorem compareTo_eq :
    a.compareTo b = if a.value < b.value then -1 else if b.value < a.value then 1 else 0 := by
  have hlen : a.data.reverse.length = b.data.reverse.length := by
    rw [List.length_reverse, List.length_reverse, a.length_data, b.length_data]
  rw [compareTo, compareLoop_eq hlen, toNat_reverse_data, toNat_reverse_data]

theorem compareTo_nonneg_iff : 0 ≤ a.compareTo b ↔ b.value ≤ a.value := by
  rw [compareTo_eq]
  split
  . omega
  . split
    . omega
    . omega

theorem compareTo_pos_iff : 0 < a.compareTo b ↔ b.value < a.value := by
  rw [compareTo_eq]
  split
  . omega
  . split
    . omega
    . omega

end Compare

section Bits

/-- The size of a number whose highest digit is not zero -/
theorem size_mul_add {d r k : Nat} (hd : d ≠ 0) (hr : r < 2 ^ k) : Nat.size (d * 2 ^ k + r) = k + Nat.size d := by
  have hpos : 0 < Nat.size d := Nat.size_pos.mpr (Nat.pos_of_ne_zero hd)
  apply Nat.le_antisymm
  . have hmul := Nat.mul_le_mul_right (2 ^ k) (Nat.succ_le_of_lt (Nat.lt_size_self d))
    rw [Nat.succ_mul] at hmul
    rw [Nat.size_le, Nat.pow_add, Nat.mul_comm (2 ^ k)]
    omega
  . have hlow : 2 ^ (Nat.size d - 1) ≤ d := Nat.lt_size.mp (by omega)
    have hmul := Nat.mul_le_mul_right (2 ^ k) hlow
    rw [← Nat.pow_add] at hmul
    have hlt : Nat.size d - 1 + k < Nat.size (d * 2 ^ k + r) := Nat.lt_size.mpr (by omega)
    omega

theorem byteBits_ofNat : ∀ n < 256, n ≠ 0 → byteBits (UInt8.ofNat n) = Nat.size n := by
  decide +kernel

theorem byteBits_eq {d : UInt8} (hd : d ≠ 0) : byteBits d = Nat.size d.toNat := by
  have hnat : d.toNat ≠ 0 := by
    intro h
    exact hd (UInt8.toNat_inj.mp h)
  have h := byteBits_ofNat d.toNat d.toNat_lt hnat
  rwa [UInt8.ofNat_toNat] at h

theorem bitsLoop_eq (ds : List UInt8) : bitsLoop ds = Nat.size (toNat ds) := by
  induction ds with
  | nil => rfl
  | cons d ds ih =>
    rw [bitsLoop, toNat_cons]
    split
    . next hd =>
      have hpow : 256 ^ ds.length = 2 ^ (8 * ds.length) := by rw [Nat.pow_mul]
      have hlow := toNat_lt ds
      have hnat : d.toNat ≠ 0 := by
        intro h
        exact hd (UInt8.toNat_inj.mp h)
      rw [hpow] at hlow
      rw [byteBits_eq hd, hpow, size_mul_add hnat hlow]
    . next hd =>
      have hzero : d = 0 := Classical.not_not.mp hd
      rw [ih, hzero, UInt8.toNat_zero, Nat.zero_mul, Nat.zero_add]

theorem bits_eq : a.bits = Nat.size a.value := by
  rw [bits, bitsLoop_eq, toNat_reverse_data]

theorem bits_le : a.bits ≤ 256 := by
  rw [bits_eq, Nat.size_le]
  exact a.value_lt

theorem getLow64_eq : a.getLow64 = a.value % 2 ^ 64 := by
  have hfirst : toNatLE (a.data.take 4) < 2 ^ 32 := by
    have h := toNatLE_lt (a.data.take 4)
    rwa [List.length_take, a.length_data] at h
  have hsplit : a.data.take 8 = a.data.take 4 ++ (a.data.drop 4).take 4 := by rw [← List.take_add]
  rw [show 2 ^ 64 = 256 ^ 8 from rfl, value, toNatLE_mod, hsplit, toNatLE_append, List.length_take, a.length_data, getLow64,
    Nat.or_comm, Nat.shiftLeft_eq, Nat.mul_comm, ← Nat.two_pow_add_eq_or_of_lt hfirst, Nat.add_comm]
  rfl

end Bits

section Div

theorem value_setBit {q : ArithUint256} {shift : Nat} (hshift : shift < 256) (hdvd : 2 ^ (shift + 1) ∣ q.value) :
    (q.setBit shift).value = q.value + 2 ^ shift := by
  have hlen : shift / 8 < q.data.length := by
    rw [q.length_data]
    omega
  have hbit : (UInt8.ofNat (1 <<< (shift % 8))).toNat <<< (8 * (shift / 8)) = 2 ^ shift := by
    have hlt : 2 ^ (shift % 8) < 2 ^ 8 := Nat.pow_lt_pow_right (by decide) (Nat.mod_lt _ (by decide))
    rw [UInt8.toNat_ofNat', Nat.one_shiftLeft, Nat.mod_eq_of_lt hlt, Nat.shiftLeft_eq, ← Nat.pow_add, Nat.mod_add_div]
  have hor : (q.setBit shift).value = q.value ||| 2 ^ shift := by
    have h := toNatLE_modify (UInt8.ofNat (1 <<< (shift % 8))) hlen
    rwa [hbit] at h
  obtain ⟨m, hm⟩ := hdvd
  have hlt : 2 ^ shift < 2 ^ (shift + 1) := Nat.pow_lt_pow_right (by decide) (Nat.lt_succ_self shift)
  rw [hor, hm, ← Nat.two_pow_add_eq_or_of_lt hlt]

/-- What is left of the quotient is added to it, bit by bit. -/
theorem value_divLoop {B : Nat} (hB : 0 < B) (n : Nat) {num div q : ArithUint256} (hn : n ≤ 256)
    (hdiv : div.value = B * 2 ^ n / 2) (hnum : num.value < B * 2 ^ n) (hq : 2 ^ n ∣ q.value) :
    (divLoop n num div q).value = q.value + num.value / B := by
  induction n generalizing num div q with
  | zero =>
    rw [Nat.pow_zero, Nat.mul_one] at hnum
    rw [divLoop, Nat.div_eq_of_lt hnum, Nat.add_zero]
  | succ shift ih =>
    have hdiv' : div.value = B * 2 ^ shift := by
      rw [hdiv, Nat.pow_succ, ← Nat.mul_assoc, Nat.mul_div_cancel _ (by decide)]
    have hnext : (div.shiftRight 1).value = B * 2 ^ shift / 2 := by rw [value_shiftRight, hdiv', Nat.pow_one]
    have hdvd : 2 ^ shift ∣ q.value := Nat.dvd_trans (Nat.pow_dvd_pow 2 (Nat.le_succ shift)) hq
    rw [Nat.pow_succ, ← Nat.mul_assoc] at hnum
    rw [divLoop]
    split
    . next hge =>
      have hle : div.value ≤ num.value := compareTo_nonneg_iff.mp hge
      have hbit := value_setBit (by omega) hq
      have hrem := value_sub_of_le hle
      rw [hdiv'] at hle hrem
      rw [ih (by omega) hnext (by omega) (by rw [hbit]; exact Nat.dvd_add hdvd (Nat.dvd_refl _)), hbit, hrem,
        Nat.sub_mul_div]
      have : 2 ^ shift ≤ num.value / B := by
        rw [Nat.le_div_iff_mul_le hB, Nat.mul_comm]
        exact hle
      omega
    . next hlt =>
      have hless : num.value < div.value := Nat.lt_of_not_le (fun h => hlt (compareTo_nonneg_iff.mpr h))
      exact ih (by omega) hnext (hdiv' ▸ hless) hdvd

theorem div_eq_none_iff : a.div b = none ↔ b.value = 0 := by
  unfold div
  split
  . next hb =>
    rw [bits_eq, Nat.size_eq_zero] at hb
    simp only [hb]
  . next hb =>
    rw [bits_eq, Nat.size_eq_zero] at hb
    split
    . simp only [hb, reduceCtorEq]
    . simp only [hb, reduceCtorEq]

theorem value_div {q : ArithUint256} (h : a.div b = some q) : q.value = a.value / b.value := by
  unfold div at h
  split at h
  . cases h
  . next hb =>
    rw [bits_eq, Nat.size_eq_zero] at hb
    have hpos : 0 < b.value := Nat.pos_of_ne_zero hb
    rw [bits_eq, bits_eq] at h
    split at h
    . next hlt =>
      cases h
      have hless : a.value < b.value := by
        apply Nat.lt_of_not_le
        intro hle
        have := Nat.size_le_size hle
        omega
      rw [value_zero, Nat.div_eq_of_lt hless]
    . next hge =>
      cases h
      have hb_lt := Nat.lt_size_self b.value
      have ha_le : Nat.size a.value ≤ 256 := Nat.size_le.mpr a.value_lt
      have hlow : 2 ^ (Nat.size b.value - 1) ≤ b.value := Nat.lt_size.mp (Nat.sub_lt (Nat.size_pos.mpr hpos) (by decide))
      have hspos := Nat.size_pos.mpr hpos
      have hshift : (b.shiftLeft (Nat.size a.value - Nat.size b.value)).value =
          b.value * 2 ^ (Nat.size a.value - Nat.size b.value + 1) / 2 := by
        rw [value_shiftLeft, Nat.pow_succ 2 (_ - _), ← Nat.mul_assoc, Nat.mul_div_cancel _ (by decide)]
        apply Nat.mod_eq_of_lt
        apply Nat.lt_of_lt_of_le (Nat.mul_lt_mul_of_pos_right hb_lt (Nat.two_pow_pos _))
        rw [← Nat.pow_add]
        apply Nat.pow_le_pow_right (by decide)
        omega
      have hnum : a.value < b.value * 2 ^ (Nat.size a.value - Nat.size b.value + 1) := by
        apply Nat.lt_of_lt_of_le (Nat.lt_size_self a.value)
        apply Nat.le_trans _ (Nat.mul_le_mul_right _ hlow)
        rw [← Nat.pow_add]
        apply Nat.pow_le_pow_right (by decide)
        omega
      rw [value_divLoop hpos _ (by omega) hshift hnum (by rw [value_zero]; exact Nat.dvd_zero _), value_zero, Nat.zero_add]

theorem div_eq : (a.div b).map value = if b.value = 0 then none else some (a.value / b.value) := by
  split
  . next hb => rw [div_eq_none_iff.mpr hb, Option.map_none]
  . next hb =>
    cases h : a.div b with
    | none => exact absurd (div_eq_none_iff.mp h) hb
    | some q => rw [Option.map_some, value_div h]

end Div

section Main

theorem value_sub_int : ((a.sub b).value : Int) = ((a.value : Int) - b.value) % 2 ^ 256 := by
  have ha := a.value_lt
  have hb := b.value_lt
  rw [value_sub]
  omega

theorem value_neg_int : (a.neg.value : Int) = -(a.value : Int) % 2 ^ 256 := by
  have ha := a.value_lt
  rw [value_neg]
  omega

theorem operators_mod_two_pow (a b : ArithUint256) (factor : UInt32) (shift : Nat) :
    (a.compareTo b = if a.value < b.value then -1 else if b.value < a.value then 1 else 0) ∧
    (a.add b).value = (a.value + b.value) % 2 ^ 256 ∧
    ((a.sub b).value : Int) = ((a.value : Int) - b.value) % 2 ^ 256 ∧
    (a.neg.value : Int) = -(a.value : Int) % 2 ^ 256 ∧
    a.complement.value = 2 ^ 256 - 1 - a.value ∧
    (a.mul b).value = a.value * b.value % 2 ^ 256 ∧
    (a.scale factor).value = a.value * factor.toNat % 2 ^ 256 ∧
    (a.shiftLeft shift).value = a.value * 2 ^ shift % 2 ^ 256 ∧
    (a.shiftRight shift).value = a.value / 2 ^ shift ∧
    ((a.div b).map value = if b.value = 0 then none else some (a.value / b.value)) ∧
    a.bits = Nat.size a.value ∧
    a.getLow64 = a.value % 2 ^ 64 :=
  ⟨compareTo_eq, value_add, value_sub_int, value_neg_int, value_complement, value_mul, value_scale factor,
    value_shiftLeft a shift, value_shiftRight a shift, div_eq, bits_eq, getLow64_eq⟩

end Main

end AltIntegration.Arith.ArithUint256
