import AltIntegration.Arith.Division
import AltIntegration.Data.CompactForm
import Mathlib.Data.Nat.Bitwise

/-!
This module contains the compact form of the `bits` field of a header, `fromBits` and `toBits` of
`arith_uint256.cpp`, and the work of a BTC header, and shows that they compute the numbers they stand for.
-/

namespace AltIntegration.Arith

/-- What `fromBits` returns and what it writes to `negative` and `overflow` -/
structure CompactTarget where
  target : ArithUint256
  negative : Bool
  overflow : Bool

namespace ArithUint256

def fromBits (bits : UInt32) : CompactTarget :=
  let nSize := (bits >>> 24).toNat
  let nWord := bits &&& 0x007fffff
  let nWord := if nSize ≤ 3 then nWord >>> UInt32.ofNat (8 * (3 - nSize)) else nWord
  let target := ofUint64 nWord.toNat
  { target := if nSize ≤ 3 then target else target.shiftLeft (8 * (nSize - 3))
    negative := nWord ≠ 0 && bits &&& 0x00800000 ≠ 0
    overflow := nWord ≠ 0 && (nSize > 34 || nWord > 0xff && nSize > 33 || nWord > 0xffff && nSize > 32) }

/-- The end of `toBits`; `none` is a failed assertion. -/
def packBits (nCompact : UInt32) (nSize : Nat) (negative : Bool) : Option UInt32 :=
  if nCompact &&& ~~~0x007fffff ≠ 0 ∨ 256 ≤ nSize then
    none
  else
    let nCompact := nCompact ||| UInt32.ofNat nSize <<< 24
    some (nCompact ||| if negative && nCompact &&& 0x007fffff ≠ 0 then 0x00800000 else 0)

def toBits (a : ArithUint256) (negative : Bool) : Option UInt32 :=
  let nSize := (a.bits + 7) / 8
  let nCompact : UInt32 :=
    if nSize ≤ 3 then
      UInt32.ofNat a.getLow64 <<< UInt32.ofNat (8 * (3 - nSize))
    else
      UInt32.ofNat (a.shiftRight (8 * (nSize - 3))).getLow64
  -- the 0x00800000 bit denotes the sign
  if nCompact &&& 0x00800000 ≠ 0 then
    packBits (nCompact >>> 8) (nSize + 1) negative
  else
    packBits nCompact nSize negative

/-- `getBlockProof` of a BTC header with this difficulty; `none` is a division by zero. -/
def getBlockProof (difficulty : UInt32) : Option ArithUint256 :=
  let bnTarget := fromBits difficulty
  if bnTarget.negative ∨ bnTarget.overflow ∨ bnTarget.target.compareTo (ofUint64 0) = 0 then
    some (ofUint64 0)
  else
    (bnTarget.target.complement.div (bnTarget.target.add (ofUint64 1))).map (fun q => q.add (ofUint64 1))

end ArithUint256

end AltIntegration.Arith

namespace AltIntegration

open Arith.ArithUint256 (value_ofUint64 value_ofUint64_of_lt)

section Masks

variable (w : UInt32)

theorem toNat_size : (w >>> 24).toNat = w.toNat / 2 ^ 24 := by
  rw [UInt32.toNat_shiftRight, Nat.shiftRight_eq_div_pow]
  rfl

theorem toNat_word : (w &&& 0x007fffff).toNat = w.toNat % 2 ^ 23 := by
  rw [UInt32.toNat_and]
  exact Nat.and_two_pow_sub_one_eq_mod w.toNat 23

theorem sign_ne_zero_iff : w &&& 0x00800000 ≠ 0 ↔ w.toNat / 2 ^ 23 % 2 = 1 := by
  have hbit : (w &&& 0x00800000).toNat = (w.toNat.testBit 23).toNat * 2 ^ 23 := by
    rw [UInt32.toNat_and]
    exact Nat.and_two_pow w.toNat 23
  rw [Ne, ← UInt32.toNat_inj, hbit, Nat.testBit_eq_decide_div_mod_eq, UInt32.toNat_zero]
  by_cases h : w.toNat / 2 ^ 23 % 2 = 1 <;> simp

variable {w}

theorem and_not_word (h : w.toNat < 2 ^ 23) : w &&& ~~~0x007fffff = 0 := by
  have hword : w = w &&& 0x007fffff := by
    apply UInt32.toNat_inj.mp
    rw [toNat_word, Nat.mod_eq_of_lt h]
  rw [hword, UInt32.and_assoc, show (0x007fffff &&& ~~~0x007fffff : UInt32) = 0 by decide, UInt32.and_zero]

theorem toNat_or_size {s : Nat} (h : w.toNat < 2 ^ 24) (hs : s < 256) :
    (w ||| UInt32.ofNat s <<< 24).toNat = w.toNat + s * 2 ^ 24 := by
  have hsize : (UInt32.ofNat s <<< 24).toNat = s * 2 ^ 24 := by
    rw [UInt32.toNat_shiftLeft, UInt32.toNat_ofNat', Nat.shiftLeft_eq]
    have hmod : (24 : UInt32).toNat % 32 = 24 := rfl
    rw [hmod]
    omega
  rw [UInt32.toNat_or, hsize, Nat.or_comm, Nat.mul_comm, ← Nat.two_pow_add_eq_or_of_lt h, Nat.add_comm]

end Masks

section FromBits

open Bytes

variable (bits : UInt32)

theorem ne_zero_iff (w : UInt32) : w ≠ 0 ↔ w.toNat ≠ 0 := by
  rw [Ne, ← UInt32.toNat_inj, UInt32.toNat_zero]

theorem fromBits_negative {w : UInt32} (hw : w.toNat = 0 ↔ ArithUint256.magnitude bits.toNat = 0) :
    (decide (w ≠ 0) && decide (bits &&& 0x00800000 ≠ 0)) =
      decide (ArithUint256.magnitude bits.toNat ≠ 0 ∧ bits.toNat / 2 ^ 23 % 2 = 1) := by
  rw [← Bool.decide_and, decide_eq_decide, ne_zero_iff, sign_ne_zero_iff, Ne, hw]

theorem overflow_eq (w : UInt32) (s : Nat) :
    (decide (w ≠ 0) && (decide (s > 34) || decide (w > 0xff) && decide (s > 33) || decide (w > 0xffff) && decide (s > 32))) =
      decide (w.toNat ≠ 0 ∧ (34 < s ∨ 0xff < w.toNat ∧ 33 < s ∨ 0xffff < w.toNat ∧ 32 < s)) := by
  have h255 : w > 0xff ↔ 0xff < w.toNat := UInt32.lt_iff_toNat_lt
  have h65535 : w > 0xffff ↔ 0xffff < w.toNat := UInt32.lt_iff_toNat_lt
  rw [← Bool.decide_and, ← Bool.decide_and, ← Bool.decide_or, ← Bool.decide_or, ← Bool.decide_and, decide_eq_decide,
    ne_zero_iff, h255, h65535, or_assoc]

/-- `fromBits` when the mantissa is shifted to the right -/
theorem fromBits_small (hs : bits.toNat / 2 ^ 24 ≤ 3) :
    (Arith.ArithUint256.fromBits bits).target.value = ArithUint256.magnitude bits.toNat ∧
    (Arith.ArithUint256.fromBits bits).negative =
      decide (ArithUint256.magnitude bits.toNat ≠ 0 ∧ bits.toNat / 2 ^ 23 % 2 = 1) ∧
    (Arith.ArithUint256.fromBits bits).overflow = false := by
  have hsize := toNat_size bits
  have hlt : bits.toNat % 2 ^ 23 < 2 ^ 23 := Nat.mod_lt _ (by decide)
  have hword : ((bits &&& 0x007fffff) >>> UInt32.ofNat (8 * (3 - bits.toNat / 2 ^ 24))).toNat =
      ArithUint256.magnitude bits.toNat := by
    have hshift : (UInt32.ofNat (8 * (3 - bits.toNat / 2 ^ 24))).toNat % 32 = 8 * (3 - bits.toNat / 2 ^ 24) := by
      rw [UInt32.toNat_ofNat']
      omega
    rw [UInt32.toNat_shiftRight, hshift, Nat.shiftRight_eq_div_pow, toNat_word, Nat.pow_mul, ArithUint256.magnitude, if_pos hs]
  unfold Arith.ArithUint256.fromBits
  simp only [hsize, if_pos hs]
  refine ⟨?_, ?_, ?_⟩
  . rw [hword, value_ofUint64_of_lt]
    rw [ArithUint256.magnitude, if_pos hs]
    apply Nat.lt_of_le_of_lt (Nat.div_le_self _ _)
    omega
  . exact fromBits_negative bits (by rw [hword])
  . rw [overflow_eq, decide_eq_false_iff_not]
    omega

/-- The number of bytes decides which words overflow. -/
theorem overflow_iff {m s : Nat} (hm : m < 2 ^ 23) (hs : 3 < s) :
    (m ≠ 0 ∧ (34 < s ∨ 0xff < m ∧ 33 < s ∨ 0xffff < m ∧ 32 < s)) ↔ ArithUint256.size ≤ m * 256 ^ (s - 3) := by
  have hsize : ArithUint256.size = 256 ^ 32 := rfl
  rw [hsize]
  cases Nat.lt_or_ge 34 s with
  | inl hlarge =>
    have hpow : 256 ^ 32 ≤ 256 ^ (s - 3) := Nat.pow_le_pow_right (by decide) (by omega)
    constructor
    . intro h
      apply Nat.le_trans hpow
      exact Nat.le_mul_of_pos_left _ (Nat.pos_of_ne_zero h.1)
    . intro h
      apply And.intro _ (Or.inl hlarge)
      intro hzero
      rw [hzero, Nat.zero_mul] at h
      exact absurd h (by decide)
  | inr hsmall =>
    have hpow : 256 ^ 32 = 256 ^ (35 - s) * 256 ^ (s - 3) := by
      rw [← Nat.pow_add]
      congr 1
      omega
    rw [hpow, Nat.mul_le_mul_right_iff (Nat.pow_pos (by decide))]
    cases Nat.lt_or_ge 32 s with
    | inl h32 =>
      have hcases : s = 33 ∨ s = 34 := by omega
      cases hcases with
      | inl h33 =>
        rw [h33]
        omega
      | inr h34 =>
        rw [h34]
        omega
    | inr h32 =>
      have hthree : 256 ^ 3 ≤ 256 ^ (35 - s) := Nat.pow_le_pow_right (by decide) (by omega)
      omega

/-- `fromBits` when the mantissa is shifted to the left -/
theorem fromBits_large (hs : ¬bits.toNat / 2 ^ 24 ≤ 3) :
    (Arith.ArithUint256.fromBits bits).target.value = ArithUint256.magnitude bits.toNat % ArithUint256.size ∧
    (Arith.ArithUint256.fromBits bits).negative =
      decide (ArithUint256.magnitude bits.toNat ≠ 0 ∧ bits.toNat / 2 ^ 23 % 2 = 1) ∧
    (Arith.ArithUint256.fromBits bits).overflow = decide (ArithUint256.size ≤ ArithUint256.magnitude bits.toNat) := by
  have hsize := toNat_size bits
  have hlt : bits.toNat % 2 ^ 23 < 2 ^ 23 := Nat.mod_lt _ (by decide)
  have hmagnitude : ArithUint256.magnitude bits.toNat =
      (bits &&& 0x007fffff).toNat * 256 ^ (bits.toNat / 2 ^ 24 - 3) := by
    rw [ArithUint256.magnitude, if_neg hs, toNat_word]
  unfold Arith.ArithUint256.fromBits
  simp only [hsize, if_neg hs]
  refine ⟨?_, ?_, ?_⟩
  . rw [Arith.ArithUint256.value_shiftLeft, value_ofUint64_of_lt (by rw [toNat_word]; omega), hmagnitude, Nat.pow_mul]
    rfl
  . apply fromBits_negative bits
    rw [hmagnitude, Nat.mul_eq_zero]
    have hpow : 256 ^ (bits.toNat / 2 ^ 24 - 3) ≠ 0 := Nat.ne_of_gt (Nat.pow_pos (by decide))
    simp only [hpow, or_false]
  . rw [overflow_eq, decide_eq_decide, hmagnitude]
    apply overflow_iff
    . rw [toNat_word]
      exact hlt
    . omega

theorem magnitude_lt_of_le (hs : bits.toNat / 2 ^ 24 ≤ 3) : ArithUint256.magnitude bits.toNat < 2 ^ 23 := by
  rw [ArithUint256.magnitude, if_pos hs]
  apply Nat.lt_of_le_of_lt (Nat.div_le_self _ _)
  exact Nat.mod_lt _ (by decide)

theorem negative_eq : (Arith.ArithUint256.fromBits bits).negative =
    decide (ArithUint256.magnitude bits.toNat ≠ 0 ∧ bits.toNat / 2 ^ 23 % 2 = 1) := by
  by_cases hs : bits.toNat / 2 ^ 24 ≤ 3
  . exact (fromBits_small bits hs).2.1
  . exact (fromBits_large bits hs).2.1

theorem overflow_eq_magnitude :
    (Arith.ArithUint256.fromBits bits).overflow = decide (ArithUint256.size ≤ ArithUint256.magnitude bits.toNat) := by
  by_cases hs : bits.toNat / 2 ^ 24 ≤ 3
  . have hlt := magnitude_lt_of_le bits hs
    have hsize : 2 ^ 23 ≤ ArithUint256.size := by decide
    rw [(fromBits_small bits hs).2.2, eq_comm, decide_eq_false_iff_not]
    omega
  . exact (fromBits_large bits hs).2.2

theorem value_fromBits : (Arith.ArithUint256.fromBits bits).target.value = ArithUint256.fromBits bits.toNat := by
  rw [ArithUint256.fromBits_eq]
  by_cases hs : bits.toNat / 2 ^ 24 ≤ 3
  . have hlt := magnitude_lt_of_le bits hs
    have hsize : 2 ^ 23 ≤ ArithUint256.size := by decide
    rw [(fromBits_small bits hs).1, Nat.mod_eq_of_lt (by omega)]
  . exact (fromBits_large bits hs).1

end FromBits

section ToBits

variable (a : Arith.ArithUint256)

/-- The first three bytes of the number, in a word -/
theorem toNat_compact :
    (if (a.bits + 7) / 8 ≤ 3 then UInt32.ofNat a.getLow64 <<< UInt32.ofNat (8 * (3 - (a.bits + 7) / 8))
      else UInt32.ofNat (a.shiftRight (8 * ((a.bits + 7) / 8 - 3))).getLow64).toNat =
      ArithUint256.leadingBytes a.value := by
  have hlt := ArithUint256.leadingBytes_lt a.value
  have hbytes : (a.bits + 7) / 8 = ArithUint256.byteLength a.value := by
    rw [Arith.ArithUint256.bits_eq, ArithUint256.byteLength]
  rw [hbytes]
  unfold ArithUint256.leadingBytes at hlt ⊢
  split
  . next hs =>
    rw [if_pos hs] at hlt
    have hshift : (UInt32.ofNat (8 * (3 - ArithUint256.byteLength a.value))).toNat % 32 =
        8 * (3 - ArithUint256.byteLength a.value) := by
      rw [UInt32.toNat_ofNat']
      omega
    have hvalue : a.value < 2 ^ 24 :=
      Nat.lt_of_le_of_lt (Nat.le_mul_of_pos_right _ (Nat.pow_pos (by decide))) hlt
    have hlow : (UInt32.ofNat a.getLow64).toNat = a.value := by
      rw [UInt32.toNat_ofNat', Arith.ArithUint256.getLow64_eq]
      omega
    rw [UInt32.toNat_shiftLeft, hshift, hlow, Nat.shiftLeft_eq, Nat.pow_mul]
    apply Nat.mod_eq_of_lt
    exact Nat.lt_trans hlt (by decide)
  . next hs =>
    rw [if_neg hs] at hlt
    rw [UInt32.toNat_ofNat', Arith.ArithUint256.getLow64_eq, Arith.ArithUint256.value_shiftRight, Nat.pow_mul]
    rw [show 2 ^ 8 = 256 from rfl, Nat.mod_eq_of_lt (Nat.lt_trans hlt (by decide)),
      Nat.mod_eq_of_lt (Nat.lt_trans hlt (by decide))]

theorem packBits_eq {w : UInt32} {s : Nat} (hw : w.toNat < 2 ^ 23) (hs : s < 256) :
    (Arith.ArithUint256.packBits w s false).map UInt32.toNat = some (w.toNat + s * 2 ^ 24) := by
  have hfits : ¬(w &&& ~~~0x007fffff ≠ 0 ∨ 256 ≤ s) := by
    intro h
    cases h with
    | inl hmask => exact hmask (and_not_word hw)
    | inr hsize => omega
  rw [Arith.ArithUint256.packBits, if_neg hfits, Option.map_some, Bool.false_and, if_neg Bool.false_ne_true, UInt32.or_zero,
    toNat_or_size (by omega) hs]

/-- The assertions of `toBits` hold, and it computes the compact form. -/
theorem toBits_eq : (a.toBits false).map UInt32.toNat = some (ArithUint256.toBits a.value) := by
  have hlt := ArithUint256.leadingBytes_lt a.value
  have hword := toNat_compact a
  have hbits := a.bits_le
  have hlength : ArithUint256.byteLength a.value = (a.bits + 7) / 8 := by
    rw [Arith.ArithUint256.bits_eq, ArithUint256.byteLength]
  unfold Arith.ArithUint256.toBits
  simp only
  rw [ArithUint256.toBits_eq, hlength]
  generalize (if (a.bits + 7) / 8 ≤ 3 then UInt32.ofNat a.getLow64 <<< UInt32.ofNat (8 * (3 - (a.bits + 7) / 8))
    else UInt32.ofNat (a.shiftRight (8 * ((a.bits + 7) / 8 - 3))).getLow64) = w at hword ⊢
  have hsign := sign_ne_zero_iff w
  rw [hword] at hsign
  cases Nat.lt_or_ge (ArithUint256.leadingBytes a.value) (2 ^ 23) with
  | inl hsmall =>
    rw [if_neg (by rw [hsign]; omega), if_pos hsmall, packBits_eq (by omega) (by omega), hword]
  | inr hlarge =>
    have hshift : (w >>> 8).toNat = ArithUint256.leadingBytes a.value / 256 := by
      rw [UInt32.toNat_shiftRight, hword, Nat.shiftRight_eq_div_pow]
      rfl
    rw [if_pos (by rw [hsign]; omega), if_neg (by omega), packBits_eq (by omega) (by omega), hshift]

end ToBits

section BlockProof

/-- A target and one more fit into 256 bits. -/
theorem target_add_one_lt {bits : UInt32} (h : (Arith.ArithUint256.fromBits bits).overflow = false) :
    (Arith.ArithUint256.fromBits bits).target.value + 1 < 2 ^ 256 := by
  rw [overflow_eq_magnitude, decide_eq_false_iff_not, Nat.not_le] at h
  rw [value_fromBits, ArithUint256.fromBits_eq, Nat.mod_eq_of_lt h]
  obtain ⟨m, e, hm, heq⟩ := ArithUint256.magnitude_eq_mul bits.toNat
  have hsize : ArithUint256.size = 2 ^ 256 := rfl
  rw [heq, hsize] at h
  rw [heq]
  cases e with
  | zero => omega
  | succ e =>
    have hmul : m * 256 ^ (e + 1) = m * 256 ^ e * 256 := by rw [Nat.pow_succ 256 e, Nat.mul_assoc]
    omega

theorem compareTo_zero_iff {a : Arith.ArithUint256} : a.compareTo (Arith.ArithUint256.ofUint64 0) = 0 ↔ a.value = 0 := by
  rw [Arith.ArithUint256.compareTo_eq, value_ofUint64]
  split
  . omega
  . split
    . omega
    . omega

/-- `~t / (t + 1) + 1` is the quotient that needs 257 bits. -/
theorem complement_div_add_one {t : Nat} (ht : t < 2 ^ 256) : (2 ^ 256 - 1 - t) / (t + 1) + 1 = 2 ^ 256 / (t + 1) := by
  have hsub : 2 ^ 256 - 1 - t = 2 ^ 256 - (t + 1) * 1 := by omega
  have hle : 1 ≤ 2 ^ 256 / (t + 1) := Nat.div_pos ht (Nat.succ_pos t)
  rw [hsub, Nat.sub_mul_div, Nat.sub_add_cancel hle]

theorem getBlockProof_eq (bits : UInt32) :
    (Arith.ArithUint256.getBlockProof bits).map Arith.ArithUint256.value =
      some (if (Arith.ArithUint256.fromBits bits).negative ∨ (Arith.ArithUint256.fromBits bits).overflow ∨
          (Arith.ArithUint256.fromBits bits).target.value = 0 then 0
        else 2 ^ 256 / ((Arith.ArithUint256.fromBits bits).target.value + 1)) := by
  unfold Arith.ArithUint256.getBlockProof
  simp only [compareTo_zero_iff]
  split
  . rw [Option.map_some, value_ofUint64, Nat.zero_mod]
  . next hvalid =>
    have hoverflow : (Arith.ArithUint256.fromBits bits).overflow = false := by
      rw [← Bool.not_eq_true]
      intro h
      exact hvalid (Or.inr (Or.inl h))
    have hzero : (Arith.ArithUint256.fromBits bits).target.value ≠ 0 := fun h => hvalid (Or.inr (Or.inr h))
    have hlt := target_add_one_lt hoverflow
    generalize (Arith.ArithUint256.fromBits bits).target = t at hzero hlt ⊢
    have hsucc : (t.add (Arith.ArithUint256.ofUint64 1)).value = t.value + 1 := by
      rw [Arith.ArithUint256.value_add, value_ofUint64, show 1 % 2 ^ 64 = 1 from rfl, Nat.mod_eq_of_lt hlt]
    have hdiv := Arith.ArithUint256.div_eq (a := t.complement) (b := t.add (Arith.ArithUint256.ofUint64 1))
    rw [hsucc, if_neg (Nat.succ_ne_zero _), Arith.ArithUint256.value_complement] at hdiv
    obtain ⟨q, hq, hvalue⟩ := Option.map_eq_some_iff.mp hdiv
    rw [hq, Option.map_some, Option.map_some, Arith.ArithUint256.value_add, value_ofUint64, hvalue]
    have hproof := complement_div_add_one t.value_lt
    have hfits : 2 ^ 256 / (t.value + 1) < 2 ^ 256 := Nat.div_lt_self (by decide) (by omega)
    rw [show 1 % 2 ^ 64 = 1 from rfl, hproof, Nat.mod_eq_of_lt hfits]

end BlockProof

section Main

/-- The numbers that have a compact form for the code -/
def CompactValue (v : Nat) : Prop :=
  ∃ bits : UInt32, (Arith.ArithUint256.fromBits bits).negative = false ∧
    (Arith.ArithUint256.fromBits bits).overflow = false ∧ (Arith.ArithUint256.fromBits bits).target.value = v

theorem value_fromBits_of_not_overflow {bits : UInt32} (h : (Arith.ArithUint256.fromBits bits).overflow = false) :
    (Arith.ArithUint256.fromBits bits).target.value = ArithUint256.magnitude bits.toNat := by
  rw [overflow_eq_magnitude, decide_eq_false_iff_not, Nat.not_le] at h
  rw [value_fromBits, ArithUint256.fromBits_eq, Nat.mod_eq_of_lt h]

theorem sound_iff {bits : UInt32} (hsign : bits.toNat / 2 ^ 23 % 2 = 0) :
    ArithUint256.Sound bits.toNat ↔ (Arith.ArithUint256.fromBits bits).negative = false ∧
      (Arith.ArithUint256.fromBits bits).overflow = false := by
  rw [negative_eq, overflow_eq_magnitude, decide_eq_false_iff_not, decide_eq_false_iff_not, Nat.not_le, ArithUint256.Sound]
  omega

theorem compactValue_iff (v : Nat) : CompactValue v ↔ ArithUint256.Representable v := by
  constructor
  . intro h
    obtain ⟨bits, hnegative, hoverflow, hvalue⟩ := h
    have hmagnitude := value_fromBits_of_not_overflow hoverflow
    by_cases hsign : bits.toNat / 2 ^ 23 % 2 = 0
    . apply Exists.intro bits.toNat
      exact ⟨bits.toNat_lt, (sound_iff hsign).mpr ⟨hnegative, hoverflow⟩, hvalue ▸ hmagnitude⟩
    . -- the sign of zero
      rw [negative_eq, decide_eq_false_iff_not] at hnegative
      have hzero : v = 0 := by omega
      rw [hzero]
      exact ⟨0, by decide, ⟨rfl, by decide⟩, rfl⟩
  . intro h
    obtain ⟨bits, hlt, hsound, hvalue⟩ := h
    have hbits : (UInt32.ofNat bits).toNat = bits := by rw [UInt32.toNat_ofNat', Nat.mod_eq_of_lt hlt]
    have hflags := (@sound_iff (UInt32.ofNat bits) (by rw [hbits]; exact hsound.1)).mp (by rw [hbits]; exact hsound)
    apply Exists.intro (UInt32.ofNat bits)
    apply And.intro hflags.1
    apply And.intro hflags.2
    rw [value_fromBits_of_not_overflow hflags.2, hbits, hvalue]

theorem isGreatest_fromBits_toBits (x : Arith.ArithUint256) :
    ∃ bits, x.toBits false = some bits ∧
      IsGreatest {v | CompactValue v ∧ v ≤ x.value} (Arith.ArithUint256.fromBits bits).target.value := by
  obtain ⟨bits, hbits, hnat⟩ := Option.map_eq_some_iff.mp (toBits_eq x)
  apply Exists.intro bits
  apply And.intro hbits
  rw [value_fromBits, hnat]
  simp only [compactValue_iff]
  exact ArithUint256.isGreatest_toBits x.value_lt

theorem toBits_fromBits {bits : UInt32} (h : ArithUint256.Canonical bits.toNat) :
    (Arith.ArithUint256.fromBits bits).target.toBits false = some bits := by
  obtain ⟨bits', hbits, hnat⟩ := Option.map_eq_some_iff.mp (toBits_eq (Arith.ArithUint256.fromBits bits).target)
  rw [value_fromBits, ArithUint256.toBits_fromBits h] at hnat
  rw [hbits, UInt32.toNat_inj.mp hnat]

/-- The canonical forms are the ones that `toBits` returns. -/
theorem canonical_iff (bits : UInt32) :
    ArithUint256.Canonical bits.toNat ↔ ∃ x : Arith.ArithUint256, x.toBits false = some bits := by
  constructor
  . intro h
    exact ⟨_, toBits_fromBits h⟩
  . intro h
    obtain ⟨x, hx⟩ := h
    have hnat := toBits_eq x
    rw [hx, Option.map_some, Option.some_inj] at hnat
    rw [hnat]
    exact ArithUint256.canonical_toBits x.value_lt

theorem compact_bits_exact :
    (∀ bits : UInt32,
      ((Arith.ArithUint256.fromBits bits).overflow = true ↔ 2 ^ 256 ≤ ArithUint256.magnitude bits.toNat) ∧
      ((Arith.ArithUint256.fromBits bits).negative = true ↔
        ArithUint256.magnitude bits.toNat ≠ 0 ∧ bits.toNat / 2 ^ 23 % 2 = 1) ∧
      ((Arith.ArithUint256.fromBits bits).overflow = false →
        (Arith.ArithUint256.fromBits bits).target.value = ArithUint256.magnitude bits.toNat)) ∧
    (∀ x : Arith.ArithUint256, ∃ bits, x.toBits false = some bits ∧
      IsGreatest {v | CompactValue v ∧ v ≤ x.value} (Arith.ArithUint256.fromBits bits).target.value) ∧
    (∀ bits : UInt32, ArithUint256.Canonical bits.toNat →
      (Arith.ArithUint256.fromBits bits).target.toBits false = some bits) ∧
    ∀ bits : UInt32, (Arith.ArithUint256.fromBits bits).negative = false →
      (Arith.ArithUint256.fromBits bits).overflow = false → (Arith.ArithUint256.fromBits bits).target.value ≠ 0 →
      (Arith.ArithUint256.getBlockProof bits).map Arith.ArithUint256.value =
        some (2 ^ 256 / ((Arith.ArithUint256.fromBits bits).target.value + 1)) := by
  refine ⟨?_, isGreatest_fromBits_toBits, fun _ => toBits_fromBits, ?_⟩
  . intro bits
    refine ⟨?_, ?_, value_fromBits_of_not_overflow⟩
    . rw [overflow_eq_magnitude, decide_eq_true_iff]
      rfl
    . rw [negative_eq, decide_eq_true_iff]
  . intro bits hnegative hoverflow hzero
    rw [getBlockProof_eq, hnegative, hoverflow, if_neg]
    simp [hzero]

end Main

end AltIntegration
