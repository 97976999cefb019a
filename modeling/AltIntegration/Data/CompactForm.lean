import AltIntegration.Data.ArithUint256
import Mathlib.Algebra.GroupWithZero.Nat
import Mathlib.Order.Bounds.Defs

/-!
This module shows that the compact form rounds down: the compact form of a number stands for the greatest number
below it that has one.
-/

namespace ArithUint256

section Truncation

/-- The number with its last `e` bytes cleared -/
def truncate (e x : Nat) : Nat := x / 256 ^ e * 256 ^ e

theorem truncate_le (e x : Nat) : truncate e x ≤ x := Nat.div_mul_le_self x (256 ^ e)

theorem truncate_zero (x : Nat) : truncate 0 x = x := by
  rw [truncate, Nat.pow_zero, Nat.div_one, Nat.mul_one]

/-- A number of 23 bits and some zero bytes is not lost by a truncation that keeps 16 bits. -/
theorem le_truncate {m e' e x : Nat} (hm : m < 2 ^ 23) (hle : m * 256 ^ e' ≤ x) (he : e = 0 ∨ 2 ^ 15 ≤ x / 256 ^ e) :
    m * 256 ^ e' ≤ truncate e x := by
  cases Nat.lt_or_ge e' e with
  | inr hge =>
    have hdvd : 256 ^ e ∣ m * 256 ^ e' := Nat.dvd_mul_left_of_dvd (Nat.pow_dvd_pow 256 hge) m
    rw [← Nat.div_mul_cancel hdvd]
    apply Nat.mul_le_mul_right
    exact Nat.div_le_div_right hle
  | inl hlt =>
    have hkept : 2 ^ 15 ≤ x / 256 ^ e := by omega
    apply Nat.le_trans _ (Nat.mul_le_mul_right (256 ^ e) hkept)
    have hpow : 256 ^ (e' + 1) ≤ 256 ^ e := Nat.pow_le_pow_right (by decide) hlt
    have hmul := Nat.mul_le_mul_right (256 ^ e') (Nat.le_of_lt hm)
    rw [Nat.pow_succ] at hpow
    omega

end Truncation

section Magnitude

/-- The number that the mantissa and the exponent of a compact form stand for. -/
def magnitude (bits : Nat) : Nat :=
  if bits / 2 ^ 24 ≤ 3 then
    bits % 2 ^ 23 / 256 ^ (3 - bits / 2 ^ 24)
  else
    bits % 2 ^ 23 * 256 ^ (bits / 2 ^ 24 - 3)

theorem pow_eight_mul (n : Nat) : Nat.pow 2 (8 * n) = 256 ^ n := Nat.pow_mul 2 8 n

theorem fromBits_eq (bits : Nat) : fromBits bits = magnitude bits % size := by
  have hdef : fromBits bits = if bits / 2 ^ 24 ≤ 3 then bits % 2 ^ 23 / 256 ^ (3 - bits / 2 ^ 24)
      else bits % 2 ^ 23 * 256 ^ (bits / 2 ^ 24 - 3) % size := by
    unfold fromBits
    simp only [pow_eight_mul]
    rfl
  rw [hdef, magnitude]
  split
  . next hsize =>
    have hlt : bits % 2 ^ 23 / 256 ^ (3 - bits / 2 ^ 24) < size := by
      apply Nat.lt_of_le_of_lt (Nat.div_le_self _ _)
      exact Nat.lt_trans (Nat.mod_lt bits (by decide)) (by decide)
    exact (Nat.mod_eq_of_lt hlt).symm
  . rfl

/-- The sign bit is clear and nothing is lost. -/
def Sound (bits : Nat) : Prop := bits / 2 ^ 23 % 2 = 0 ∧ magnitude bits < size

/-- The number has a compact form. -/
def Representable (v : Nat) : Prop := ∃ bits < 2 ^ 32, Sound bits ∧ v = magnitude bits

theorem magnitude_eq_mul (bits : Nat) : ∃ m e, m < 2 ^ 23 ∧ magnitude bits = m * 256 ^ e := by
  have hlt : bits % 2 ^ 23 < 2 ^ 23 := Nat.mod_lt bits (by decide)
  unfold magnitude
  split
  . apply Exists.intro (bits % 2 ^ 23 / 256 ^ (3 - bits / 2 ^ 24))
    apply Exists.intro 0
    rw [Nat.pow_zero, Nat.mul_one]
    exact ⟨Nat.lt_of_le_of_lt (Nat.div_le_self _ _) hlt, rfl⟩
  . exact ⟨_, _, hlt, rfl⟩

theorem magnitude_mk {m s : Nat} (hm : m < 2 ^ 23) :
    magnitude (m + s * 2 ^ 24) = if s ≤ 3 then m / 256 ^ (3 - s) else m * 256 ^ (s - 3) := by
  have hsize : (m + s * 2 ^ 24) / 2 ^ 24 = s := by omega
  have hword : (m + s * 2 ^ 24) % 2 ^ 23 = m := by omega
  rw [magnitude, hsize, hword]

end Magnitude

section ToBits

/-- The number of bytes -/
def byteLength (x : Nat) : Nat := (x.size + 7) / 8

theorem lt_pow_byteLength (x : Nat) : x < 256 ^ byteLength x := by
  apply Nat.lt_of_lt_of_le (Nat.lt_size_self x)
  rw [← pow_eight_mul]
  apply Nat.pow_le_pow_right (by decide)
  unfold byteLength
  omega

theorem pow_byteLength_le {x : Nat} (hx : x ≠ 0) : 256 ^ (byteLength x - 1) ≤ x := by
  have hpos : 0 < x.size := Nat.size_pos.mpr (Nat.pos_of_ne_zero hx)
  rw [← pow_eight_mul]
  apply Nat.lt_size.mp
  unfold byteLength
  omega

theorem byteLength_pos {x : Nat} (hx : x ≠ 0) : 0 < byteLength x := by
  have hpos : 0 < x.size := Nat.size_pos.mpr (Nat.pos_of_ne_zero hx)
  unfold byteLength
  omega

/-- The first three bytes -/
def leadingBytes (x : Nat) : Nat :=
  if byteLength x ≤ 3 then x * 256 ^ (3 - byteLength x) else x / 256 ^ (byteLength x - 3)

theorem leadingBytes_lt (x : Nat) : leadingBytes x < 2 ^ 24 := by
  have hlt := lt_pow_byteLength x
  unfold leadingBytes
  split
  . next hk =>
    apply Nat.lt_of_lt_of_le (Nat.mul_lt_mul_of_pos_right hlt (Nat.pow_pos (by decide)))
    rw [← Nat.pow_add, Nat.add_sub_cancel' hk]
    decide
  . next hk =>
    rw [Nat.div_lt_iff_lt_mul (Nat.pow_pos (by decide)), show 2 ^ 24 = 256 ^ 3 from rfl, ← Nat.pow_add,
      show 3 + (byteLength x - 3) = byteLength x by omega]
    exact hlt

theorem le_leadingBytes {x : Nat} (hx : x ≠ 0) : 2 ^ 16 ≤ leadingBytes x := by
  have hle := pow_byteLength_le hx
  have hpos := byteLength_pos hx
  unfold leadingBytes
  split
  . next hk =>
    apply Nat.le_trans _ (Nat.mul_le_mul_right _ hle)
    rw [← Nat.pow_add, show byteLength x - 1 + (3 - byteLength x) = 2 by omega]
    decide
  . next hk =>
    rw [Nat.le_div_iff_mul_le (Nat.pow_pos (by decide)), show 2 ^ 16 = 256 ^ 2 from rfl, ← Nat.pow_add,
      show 2 + (byteLength x - 3) = byteLength x - 1 by omega]
    exact hle

theorem toBits_eq (x : Nat) :
    toBits x = if leadingBytes x < 2 ^ 23 then leadingBytes x + byteLength x * 2 ^ 24
      else leadingBytes x / 256 + (byteLength x + 1) * 2 ^ 24 := by
  have hlt := leadingBytes_lt x
  have hdef : toBits x = if leadingBytes x / 2 ^ 23 % 2 = 1 then leadingBytes x / 256 + (byteLength x + 1) * 2 ^ 24
      else leadingBytes x + byteLength x * 2 ^ 24 := by
    unfold toBits leadingBytes byteLength
    simp only [pow_eight_mul]
    rfl
  rw [hdef]
  cases Nat.lt_or_ge (leadingBytes x) (2 ^ 23) with
  | inl hsign => rw [if_neg (by omega), if_pos hsign]
  | inr hsign => rw [if_pos (by omega), if_neg (by omega)]

/-- The mantissa and the exponent of `toBits` -/
theorem toBits_cases {x : Nat} (hx : x ≠ 0) :
    ∃ m s, toBits x = m + s * 2 ^ 24 ∧ 2 ^ 15 ≤ m ∧ m < 2 ^ 23 ∧ 0 < s ∧ s ≤ byteLength x + 1 ∧
      (s < 3 → m = x * 256 ^ (3 - s)) ∧ (3 ≤ s → m = x / 256 ^ (s - 3)) := by
  have hlt := leadingBytes_lt x
  have hle := le_leadingBytes hx
  have hpos := byteLength_pos hx
  rw [toBits_eq]
  split
  . next hsign =>
    refine ⟨_, _, rfl, by omega, hsign, hpos, Nat.le_succ _, ?_, ?_⟩
    . intro hs
      rw [leadingBytes, if_pos (by omega)]
    . intro hs
      unfold leadingBytes
      split
      . rw [show byteLength x = 3 by omega, Nat.pow_zero, Nat.div_one, Nat.mul_one]
      . rfl
  . next hsign =>
    refine ⟨_, _, rfl, by omega, by omega, Nat.succ_pos _, Nat.le_refl _, ?_, ?_⟩
    . intro hs
      rw [leadingBytes, if_pos (by omega), show 3 - byteLength x = 3 - (byteLength x + 1) + 1 by omega, Nat.pow_succ,
        ← Nat.mul_assoc, Nat.mul_div_cancel _ (by decide)]
    . intro hs
      unfold leadingBytes
      split
      . next hk =>
        cases Nat.lt_or_ge (byteLength x) 3 with
        | inl hlt => rw [show byteLength x = 2 by omega, Nat.pow_one, Nat.mul_div_cancel _ (by decide), Nat.pow_zero, Nat.div_one]
        | inr hge => rw [show byteLength x = 3 by omega, Nat.pow_zero, Nat.mul_one, Nat.pow_one]
      . next hk =>
        rw [Nat.div_div_eq_div_mul, ← Nat.pow_succ]
        congr 2
        omega

theorem toBits_zero : toBits 0 = 0 := by decide

theorem magnitude_zero : magnitude 0 = 0 := rfl

/-- `toBits` keeps the leading bytes. -/
theorem magnitude_toBits (x : Nat) :
    ∃ e, magnitude (toBits x) = truncate e x ∧ (e = 0 ∨ 2 ^ 15 ≤ x / 256 ^ e) := by
  by_cases hx : x = 0
  . rw [hx, toBits_zero]
    exact ⟨0, rfl, Or.inl rfl⟩
  . obtain ⟨m, s, heq, hlow, hhigh, hs, hk, hsmall, hlarge⟩ := toBits_cases hx
    apply Exists.intro (s - 3)
    rw [heq, magnitude_mk hhigh]
    cases Nat.lt_or_ge s 3 with
    | inl hlt =>
      rw [if_pos (by omega), hsmall hlt, Nat.mul_div_cancel _ (Nat.pow_pos (by decide)), show s - 3 = 0 by omega,
        truncate_zero]
      exact ⟨rfl, Or.inl rfl⟩
    | inr hge =>
      rw [← hlarge hge]
      apply And.intro _ (Or.inr hlow)
      rw [truncate, ← hlarge hge]
      split
      . next hle => rw [show s = 3 by omega, Nat.pow_zero, Nat.div_one, Nat.mul_one]
      . rfl

theorem toBits_lt {x : Nat} (hx : x < size) : toBits x < 2 ^ 32 := by
  by_cases hzero : x = 0
  . rw [hzero, toBits_zero]
    decide
  . obtain ⟨m, s, heq, -, hhigh, -, hk, -⟩ := toBits_cases hzero
    have hbytes : x.size ≤ 256 := Nat.size_le.mpr hx
    unfold byteLength at hk
    omega

theorem sound_toBits {x : Nat} (hx : x < size) : Sound (toBits x) := by
  apply And.intro
  . by_cases hzero : x = 0
    . rw [hzero, toBits_zero]
      rfl
    . obtain ⟨m, s, heq, -, hhigh, -⟩ := toBits_cases hzero
      omega
  . obtain ⟨e, heq, -⟩ := magnitude_toBits x
    rw [heq]
    exact Nat.lt_of_le_of_lt (truncate_le e x) hx

theorem fromBits_toBits {x : Nat} (hx : x < size) : fromBits (toBits x) = magnitude (toBits x) := by
  rw [fromBits_eq, Nat.mod_eq_of_lt (sound_toBits hx).2]

/-- `toBits` rounds down to a number that has a compact form. -/
theorem isGreatest_toBits {x : Nat} (hx : x < size) :
    IsGreatest {v | Representable v ∧ v ≤ x} (fromBits (toBits x)) := by
  obtain ⟨e, heq, he⟩ := magnitude_toBits x
  rw [fromBits_toBits hx]
  apply And.intro
  . apply And.intro
    . exact ⟨toBits x, toBits_lt hx, sound_toBits hx, rfl⟩
    . rw [heq]
      exact truncate_le e x
  . intro v hv
    obtain ⟨bits, -, -, hbits⟩ := hv.1
    obtain ⟨m, e', hm, hmul⟩ := magnitude_eq_mul bits
    have hle := hv.2
    rw [hbits, hmul] at hle
    rw [hbits, hmul, heq]
    exact le_truncate hm hle he

end ToBits

section Canonical

/-- The mantissa starts in its first two bytes, and no bit of it is lost. -/
def Canonical (bits : Nat) : Prop :=
  bits < 2 ^ 32 ∧ Sound bits ∧
    (bits = 0 ∨ 2 ^ 15 ≤ bits % 2 ^ 23 ∧ 256 ^ (3 - bits / 2 ^ 24) ∣ bits % 2 ^ 23)

theorem canonical_toBits {x : Nat} (hx : x < size) : Canonical (toBits x) := by
  refine ⟨toBits_lt hx, sound_toBits hx, ?_⟩
  by_cases hzero : x = 0
  . rw [hzero, toBits_zero]
    exact Or.inl rfl
  . obtain ⟨m, s, heq, hlow, hhigh, -, -, hsmall, -⟩ := toBits_cases hzero
    have hsize : toBits x / 2 ^ 24 = s := by omega
    have hword : toBits x % 2 ^ 23 = m := by omega
    rw [hsize, hword]
    apply Or.inr
    apply And.intro hlow
    cases Nat.lt_or_ge s 3 with
    | inl hlt =>
      rw [hsmall hlt]
      exact Nat.dvd_mul_left _ _
    | inr hge =>
      rw [show 3 - s = 0 by omega, Nat.pow_zero]
      exact Nat.one_dvd m

/-- In a canonical form nothing is rounded. -/
theorem magnitude_mul {bits : Nat} (hdvd : 256 ^ (3 - bits / 2 ^ 24) ∣ bits % 2 ^ 23) :
    magnitude bits * 256 ^ 3 = bits % 2 ^ 23 * 256 ^ (bits / 2 ^ 24) := by
  unfold magnitude
  generalize bits / 2 ^ 24 = s, bits % 2 ^ 23 = m at hdvd ⊢
  split
  . next hs =>
    have hpow : 256 ^ 3 = 256 ^ (3 - s) * 256 ^ s := by
      rw [← Nat.pow_add]
      congr 1
      omega
    rw [hpow, ← Nat.mul_assoc, Nat.div_mul_cancel hdvd]
  . next hs =>
    rw [Nat.mul_assoc, ← Nat.pow_add]
    congr 2
    omega

theorem exponent_le_of_eq {m s m' s' : Nat} (hm : m < 2 ^ 23) (hm' : 2 ^ 15 ≤ m') (h : m * 256 ^ s = m' * 256 ^ s') :
    s' ≤ s := by
  apply Nat.le_of_not_lt
  intro hlt
  have hpow : 256 ^ (s + 1) ≤ 256 ^ s' := Nat.pow_le_pow_right (by decide) hlt
  have hmul := Nat.mul_le_mul hm' hpow
  have hless := Nat.mul_lt_mul_of_pos_right hm (Nat.pow_pos (n := s) (by decide : 0 < 256))
  rw [Nat.pow_succ] at hmul
  omega

theorem Canonical.eq_zero_of_magnitude {bits : Nat} (h : Canonical bits) (hzero : magnitude bits = 0) : bits = 0 := by
  cases h.2.2 with
  | inl h0 => exact h0
  | inr hbits =>
    have hmul := magnitude_mul hbits.2
    rw [hzero, Nat.zero_mul] at hmul
    have hpos : 0 < bits % 2 ^ 23 * 256 ^ (bits / 2 ^ 24) := Nat.mul_pos (by omega) (Nat.pow_pos (by decide))
    omega

/-- A number has one canonical form. -/
theorem Canonical.eq_of_magnitude {bits bits' : Nat} (h : Canonical bits) (h' : Canonical bits')
    (heq : magnitude bits = magnitude bits') : bits = bits' := by
  cases h.2.2 with
  | inl h0 =>
    rw [h0, magnitude_zero] at heq
    rw [h0, h'.eq_zero_of_magnitude heq.symm]
  | inr hbits =>
    cases h'.2.2 with
    | inl h0 =>
      rw [h0, magnitude_zero] at heq
      rw [h0, h.eq_zero_of_magnitude heq]
    | inr hbits' =>
      have hsign := h.2.1.1
      have hsign' := h'.2.1.1
      have hmul : bits % 2 ^ 23 * 256 ^ (bits / 2 ^ 24) = bits' % 2 ^ 23 * 256 ^ (bits' / 2 ^ 24) := by
        rw [← magnitude_mul hbits.2, ← magnitude_mul hbits'.2, heq]
      have hsize : bits / 2 ^ 24 = bits' / 2 ^ 24 := by
        apply Nat.le_antisymm
        . exact exponent_le_of_eq (Nat.mod_lt _ (by decide)) hbits.1 hmul.symm
        . exact exponent_le_of_eq (Nat.mod_lt _ (by decide)) hbits'.1 hmul
      rw [hsize] at hmul
      have hword := Nat.eq_of_mul_eq_mul_right (Nat.pow_pos (by decide)) hmul
      omega

theorem toBits_fromBits {bits : Nat} (h : Canonical bits) : toBits (fromBits bits) = bits := by
  have hsound := h.2.1
  have hfrom : fromBits bits = magnitude bits := by rw [fromBits_eq, Nat.mod_eq_of_lt hsound.2]
  have hgreatest := isGreatest_toBits hsound.2
  rw [hfrom]
  apply (canonical_toBits hsound.2).eq_of_magnitude h
  rw [fromBits_toBits hsound.2] at hgreatest
  apply Nat.le_antisymm hgreatest.1.2
  exact hgreatest.2 ⟨⟨bits, h.1, hsound, rfl⟩, Nat.le_refl _⟩

/-- Two numbers have one compact form when no number that has one lies between them. -/
theorem toBits_eq_iff {x y : Nat} (hle : x ≤ y) (hy : y < size) :
    toBits x = toBits y ↔ ¬∃ v, Representable v ∧ x < v ∧ v ≤ y := by
  have hx : x < size := Nat.lt_of_le_of_lt hle hy
  have hgx := isGreatest_toBits hx
  have hgy := isGreatest_toBits hy
  constructor
  . intro heq hv
    obtain ⟨v, hrep, hlow, hhigh⟩ := hv
    have hbound := hgy.2 ⟨hrep, hhigh⟩
    rw [← heq] at hbound
    have := hgx.1.2
    omega
  . intro hnone
    have hle' : fromBits (toBits y) ≤ x := by
      apply Nat.le_of_not_lt
      intro hlt
      exact hnone ⟨_, hgy.1.1, hlt, hgy.1.2⟩
    apply (canonical_toBits hx).eq_of_magnitude (canonical_toBits hy)
    rw [← fromBits_toBits hx, ← fromBits_toBits hy]
    apply Nat.le_antisymm
    . exact hgy.2 ⟨hgx.1.1, Nat.le_trans hgx.1.2 hle⟩
    . exact hgx.2 ⟨hgy.1.1, hle'⟩

end Canonical

end ArithUint256
