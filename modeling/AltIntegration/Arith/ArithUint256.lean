import AltIntegration.Data.Bytes
import Mathlib.Data.Nat.Size

/-!
This module contains `ArithUint256` of `arith_uint256.hpp`, the numbers of 32 bytes.
-/

namespace AltIntegration.Arith

/-- 32 bytes, the least significant one first -/
structure ArithUint256 where
  data : List UInt8
  length_data : data.length = 32
  deriving DecidableEq

namespace ArithUint256

open Bytes

/-- The number that the bytes stand for -/
def value (a : ArithUint256) : Nat := toNatLE a.data

theorem value_lt (a : ArithUint256) : a.value < 2 ^ 256 := by
  have h := toNatLE_lt a.data
  rw [a.length_data] at h
  exact h

def zero : ArithUint256 := ⟨List.replicate 32 0, List.length_replicate⟩

/-- The constructor from `uint64_t` -/
def ofUint64 (b : Nat) : ArithUint256 where
  data := (List.range 8).map (fun i => UInt8.ofNat (b >>> (8 * i))) ++ List.replicate 24 0
  length_data := by simp

def compareLoop : List UInt8 → List UInt8 → Int
  | d :: ds, e :: es => if d < e then -1 else if e < d then 1 else compareLoop ds es
  | _, _ => 0

/-- `compareTo`, from the last byte to the first one -/
def compareTo (a b : ArithUint256) : Int := compareLoop a.data.reverse b.data.reverse

section Add

def addLoop (carry : Nat) : List UInt8 → List UInt8 → List UInt8
  | d :: ds, e :: es =>
    let n := (carry + d.toNat + e.toNat) % 2 ^ 64
    UInt8.ofNat n :: addLoop (n / 256) ds es
  | _, _ => []

theorem length_addLoop (carry : Nat) {ds es : List UInt8} (h : ds.length = es.length) :
    (addLoop carry ds es).length = ds.length := by
  induction ds generalizing carry es with
  | nil => rfl
  | cons d ds ih =>
    cases es with
    | nil => cases h
    | cons e es =>
      rw [addLoop, List.length_cons, ih _ (Nat.succ.inj h), List.length_cons]

/-- `operator+=` -/
def add (a b : ArithUint256) : ArithUint256 where
  data := addLoop 0 a.data b.data
  length_data := by rw [length_addLoop 0 (a.length_data.trans b.length_data.symm), a.length_data]

/-- `operator~` -/
def complement (a : ArithUint256) : ArithUint256 where
  data := a.data.map (fun d => ~~~d)
  length_data := by rw [List.length_map, a.length_data]

def incrementLoop : List UInt8 → List UInt8
  | [] => []
  | d :: ds => if d + 1 = 0 then 0 :: incrementLoop ds else (d + 1) :: ds

theorem length_incrementLoop (ds : List UInt8) : (incrementLoop ds).length = ds.length := by
  induction ds with
  | nil => rfl
  | cons d ds ih =>
    rw [incrementLoop]
    split
    . rw [List.length_cons, ih, List.length_cons]
    . rfl

/-- `operator++` -/
def increment (a : ArithUint256) : ArithUint256 where
  data := incrementLoop a.data
  length_data := by rw [length_incrementLoop, a.length_data]

/-- The unary `operator-` -/
def neg (a : ArithUint256) : ArithUint256 := a.complement.increment

/-- `operator-=` -/
def sub (a b : ArithUint256) : ArithUint256 := a.add b.neg

end Add

section Mul

def scaleLoop (factor carry : Nat) : List UInt8 → List UInt8
  | [] => []
  | d :: ds =>
    let n := (carry + factor * d.toNat) % 2 ^ 64
    UInt8.ofNat n :: scaleLoop factor (n / 256) ds

theorem length_scaleLoop (factor carry : Nat) (ds : List UInt8) : (scaleLoop factor carry ds).length = ds.length := by
  induction ds generalizing carry with
  | nil => rfl
  | cons d ds ih => rw [scaleLoop, List.length_cons, ih, List.length_cons]

/-- `operator*=` of a `uint32_t` -/
def scale (a : ArithUint256) (b : UInt32) : ArithUint256 where
  data := scaleLoop b.toNat 0 a.data
  length_data := by rw [length_scaleLoop, a.length_data]

/-- The inner loop of `operator*=`: a byte times `es` is added to `ds`. -/
def mulAddLoop (byte : UInt8) (carry : Nat) : List UInt8 → List UInt8 → List UInt8
  | d :: ds, e :: es =>
    let n := (carry + d.toNat + byte.toNat * e.toNat) % 2 ^ 64
    UInt8.ofNat n :: mulAddLoop byte (n / 256) ds es
  | _, _ => []

theorem length_mulAddLoop (byte : UInt8) (carry : Nat) {ds es : List UInt8} (h : ds.length ≤ es.length) :
    (mulAddLoop byte carry ds es).length = ds.length := by
  induction ds generalizing carry es with
  | nil => rfl
  | cons d ds ih =>
    cases es with
    | nil => cases h
    | cons e es =>
      rw [mulAddLoop, List.length_cons, ih _ (Nat.le_of_succ_le_succ h), List.length_cons]

/-- The outer loop, from byte `j` on: the bytes `ds` are still to come, the product so far is `a`. -/
def mulLoop (b : List UInt8) (j : Nat) : List UInt8 → List UInt8 → List UInt8
  | [], a => a
  | d :: ds, a => mulLoop b (j + 1) ds (a.take j ++ mulAddLoop d 0 (a.drop j) b)

theorem length_mulLoop {b : List UInt8} (j : Nat) (ds : List UInt8) {a : List UInt8} (h : a.length ≤ b.length) :
    (mulLoop b j ds a).length = a.length := by
  induction ds generalizing j a with
  | nil => rfl
  | cons d ds ih =>
    have hlen : (a.take j ++ mulAddLoop d 0 (a.drop j) b).length = a.length := by
      have hdrop : (a.drop j).length ≤ b.length := by
        rw [List.length_drop]
        omega
      rw [List.length_append, length_mulAddLoop d 0 hdrop, ← List.length_append, List.take_append_drop]
    rw [mulLoop, ih _ (hlen.symm ▸ h), hlen]

/-- `operator*=` -/
def mul (a b : ArithUint256) : ArithUint256 where
  data := mulLoop b.data 0 a.data zero.data
  length_data := by rw [length_mulLoop 0 a.data (by rw [zero.length_data, b.length_data]), zero.length_data]

end Mul

section Shift

/-- The byte `byte` is written, shifted to the left by `k` bytes and `shift` bits. -/
def shiftLeftByte (k shift i : Nat) (byte : UInt8) (data : List UInt8) : List UInt8 :=
  let data :=
    if i + k + 1 < 32 ∧ shift ≠ 0 then
      data.modify (i + k + 1) (fun d => d ||| UInt8.ofNat (byte.toNat >>> (8 - shift)))
    else
      data
  if i + k < 32 then data.modify (i + k) (fun d => d ||| UInt8.ofNat (byte.toNat <<< shift)) else data

/-- The same to the right. -/
def shiftRightByte (k shift i : Nat) (byte : UInt8) (data : List UInt8) : List UInt8 :=
  let data :=
    if k + 1 ≤ i ∧ shift ≠ 0 then
      data.modify (i - k - 1) (fun d => d ||| UInt8.ofNat (byte.toNat <<< (8 - shift)))
    else
      data
  if k ≤ i then data.modify (i - k) (fun d => d ||| UInt8.ofNat (byte.toNat >>> shift)) else data

/-- The loop of a shift, from byte `i` on -/
def shiftLoop (writeByte : Nat → UInt8 → List UInt8 → List UInt8) (i : Nat) : List UInt8 → List UInt8 → List UInt8
  | [], data => data
  | byte :: bytes, data => shiftLoop writeByte (i + 1) bytes (writeByte i byte data)

theorem length_shiftLoop {writeByte : Nat → UInt8 → List UInt8 → List UInt8}
    (h : ∀ i byte data, (writeByte i byte data).length = data.length) (i : Nat) (bytes data : List UInt8) :
    (shiftLoop writeByte i bytes data).length = data.length := by
  induction bytes generalizing i data with
  | nil => rfl
  | cons byte bytes ih => rw [shiftLoop, ih, h]

theorem length_shiftLeftByte (k shift i : Nat) (byte : UInt8) (data : List UInt8) :
    (shiftLeftByte k shift i byte data).length = data.length := by
  unfold shiftLeftByte
  split
  . split
    . rw [List.length_modify, List.length_modify]
    . rw [List.length_modify]
  . split
    . rw [List.length_modify]
    . rfl

theorem length_shiftRightByte (k shift i : Nat) (byte : UInt8) (data : List UInt8) :
    (shiftRightByte k shift i byte data).length = data.length := by
  unfold shiftRightByte
  split
  . split
    . rw [List.length_modify, List.length_modify]
    . rw [List.length_modify]
  . split
    . rw [List.length_modify]
    . rfl

/-- `operator<<=` -/
def shiftLeft (a : ArithUint256) (shift : Nat) : ArithUint256 where
  data := shiftLoop (shiftLeftByte (shift / 8) (shift % 8)) 0 a.data zero.data
  length_data := by rw [length_shiftLoop (length_shiftLeftByte _ _), zero.length_data]

/-- `operator>>=` -/
def shiftRight (a : ArithUint256) (shift : Nat) : ArithUint256 where
  data := shiftLoop (shiftRightByte (shift / 8) (shift % 8)) 0 a.data zero.data
  length_data := by rw [length_shiftLoop (length_shiftRightByte _ _), zero.length_data]

end Shift

section Div

/-- The highest bit of a byte, and one more; the lowest bit is not looked at. -/
def byteBits (d : UInt8) : Nat :=
  ((List.range' 1 7).reverse.find? (fun nbits => d.toNat.testBit nbits)).elim 1 (fun nbits => nbits + 1)

def bitsLoop : List UInt8 → Nat
  | [] => 0
  | d :: ds => if d ≠ 0 then 8 * ds.length + byteBits d else bitsLoop ds

/-- `bits`, from the last byte to the first one -/
def bits (a : ArithUint256) : Nat := bitsLoop a.data.reverse

def setBit (a : ArithUint256) (shift : Nat) : ArithUint256 where
  data := a.data.modify (shift / 8) (fun d => d ||| UInt8.ofNat (1 <<< (shift % 8)))
  length_data := by rw [List.length_modify, a.length_data]

/-- The rounds of `operator/=` for the shifts below `n`. -/
def divLoop : Nat → ArithUint256 → ArithUint256 → ArithUint256 → ArithUint256
  | 0, _, _, quotient => quotient
  | shift + 1, num, div, quotient =>
    if 0 ≤ num.compareTo div then
      divLoop shift (num.sub div) (div.shiftRight 1) (quotient.setBit shift)
    else
      divLoop shift num (div.shiftRight 1) quotient

/-- `operator/=`; `none` is the error "Division by zero". -/
def div (a b : ArithUint256) : Option ArithUint256 :=
  if b.bits = 0 then
    none
  else if a.bits < b.bits then
    some zero
  else
    some (divLoop (a.bits - b.bits + 1) a (b.shiftLeft (a.bits - b.bits)) zero)

end Div

/-- `getLow64`, on a little-endian host: two numbers of 4 bytes are read. -/
def getLow64 (a : ArithUint256) : Nat := toNatLE (a.data.take 4) ||| toNatLE ((a.data.drop 4).take 4) <<< 32

end ArithUint256

end AltIntegration.Arith
