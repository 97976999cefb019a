import AltIntegration.Serde.Codec

/-!
This module contains the reading and writing programs of `serde.hpp` and `serde.cpp` that all entities share, and
what each of them reads back.
-/

namespace AltIntegration.Serde

open ReadStream

/-- The value of an `int32_t` as a `size_t`. -/
def toSize (n : Int32) : Nat := n.toInt64.toUInt64.toNat

def checkRange (num min max : Nat) : Decoder Unit :=
  if num < min then throw (.invalid ["range-below"])
  else if max < num then throw (.invalid ["range-above"])
  else pure ()

/-- How many bytes `trimmedArray` keeps, if it keeps no more than `x` -/
def trimmedSize (input : Int64) : Nat → Nat
  | x + 2 => if input.toInt >>> ((x + 1) * 8) ≠ 0 then x + 2 else trimmedSize input (x + 1)
  | x => x

def trimmedArray (input : Int64) : List UInt8 := Bytes.ofNat (trimmedSize input 8) input.toUInt64.toNat

def readSingleByteLenValue (minLen maxLen : Nat) : Decoder (List UInt8) := do
  let length ← orInvalid ["readsingle-bad-length"] (readBE 1)
  orInvalid ["readsingle-bad-range"] (checkRange length minLen maxLen)
  readSlice length

/-- `readSingleBEValue` for a number of `size` bytes -/
def readSingleBEValue (size : Nat) : Decoder Nat := do
  let data ← orInvalid ["readsinglebe-bad-data"] (readSingleByteLenValue 0 size)
  nested (readBE data.length) data

def readVarLenValue (minLen maxLen : Nat) : Decoder (List UInt8) := do
  let length ← orInvalid ["readvarlen-bad-length"] (readSingleBEValue 4)
  orInvalid ["readvarlen-bad-range"] (checkRange (toSize (Int32.ofNat length)) minLen maxLen)
  readSlice (toSize (Int32.ofNat length))

/-- The items from index `i` on; `failed i` are the reasons when item `i` cannot be read. -/
def readItems {α : Type} (failed : Nat → List String) (readFunc : Decoder α) : Nat → Nat → Decoder (List α)
  | _, 0 => pure []
  | i, n + 1 => do
    let item ← orInvalid (failed i) readFunc
    let items ← readItems failed readFunc (i + 1) n
    pure (item :: items)

/-- `readArrayOf`, and what its caller adds to the reasons after so many calls of `readFunc` -/
def readArrayOf {α : Type} (caller : Nat → List String) (min max : Nat) (readFunc : Decoder α) :
    Decoder (List α) := do
  let count ← orInvalid (caller 0 ++ ["readarray-bad-count"]) (readSingleBEValue 4)
  orInvalid (caller 0 ++ ["readarray-bad-range"]) (checkRange (toSize (Int32.ofNat count)) min max)
  readItems (fun i => caller (i + 1) ++ ["readarray-bad-item", toString i]) readFunc 0 (toSize (Int32.ofNat count))

def write (bytes : List UInt8) : Encoding := some bytes

def writeBE (size n : Nat) : Encoding := write (Bytes.ofNat size n)

def writeLE (size n : Nat) : Encoding := write (Bytes.ofNat size n).reverse

def writeSingleByteLenValue (value : List UInt8) : Encoding :=
  if value.length ≤ 255 then concat [writeBE 1 value.length, write value] else none

def writeSingleBEValue (value : Int64) : Encoding :=
  concat [writeBE 1 (trimmedArray value).length, write (trimmedArray value)]

/-- `writeSingleFixedBEValue` for a number of `size` bytes -/
def writeSingleFixedBEValue (size n : Nat) : Encoding := writeSingleByteLenValue (Bytes.ofNat size n)

def writeVarLenValue (value : List UInt8) : Encoding :=
  concat [writeSingleBEValue (Int64.ofNat value.length), write value]

def singleByteLenValueSize (valueSize : Nat) : Nat := 1 + valueSize

def singleBEValueSize (value : Int64) : Nat := 1 + trimmedSize value 8

/-- `singleFixedBEValueSize` for a number of `size` bytes -/
def singleFixedBEValueSize (size : Nat) : Nat := singleByteLenValueSize size

def varLenValueSize (valueSize : Nat) : Nat := singleBEValueSize (Int64.ofNat valueSize) + valueSize

def writeContainer {α : Type} (t : List α) (f : α → Encoding) : Encoding :=
  concat (writeSingleBEValue (Int64.ofNat t.length) :: t.map f)

def estimateContainerSize {α : Type} (t : List α) (f : α → Nat) : Nat :=
  singleBEValueSize (Int64.ofNat t.length) + (t.map f).sum

/-- `return state.Invalid(reason)` unless the condition holds -/
def require (condition : Prop) [Decidable condition] (reason : String) : Decoder Unit :=
  if condition then pure () else throw (.invalid [reason])

section

variable {α : Type} {m : Decoder α} {a : α} {value : List UInt8} {n size minLen maxLen : Nat}

theorem slice_standing (before bytes after : List UInt8) :
    slice (before ++ (bytes ++ after)) before.length bytes.length = bytes := by
  rw [slice, List.drop_left, List.take_left]

theorem take_standing (before bytes after : List UInt8) :
    take bytes.length (standing before (bytes ++ after)) = .ok bytes (standing (before ++ bytes) after) := by
  have hle : before.length + bytes.length ≤ (before ++ (bytes ++ after)).length := by
    simp only [List.length_append]
    omega
  rw [take, standing, if_pos hle, slice_standing, setPosition, standing, List.append_assoc, List.length_append]

theorem hasMore_standing (before bytes after : List UInt8) :
    (standing before (bytes ++ after)).hasMore bytes.length = true := by
  rw [hasMore_iff]
  . simp only [standing, List.length_append]
    omega
  . simp only [standing, List.length_append]
    omega

theorem decodes_readSlice (value : List UInt8) : Decodes (write value) (readSlice value.length) value := by
  refine ⟨value, rfl, ?_⟩
  intro before after
  rw [readSlice, hasMore_standing, if_pos rfl, take_standing]

theorem decodes_readBE_bytes (value : List UInt8) :
    Decodes (write value) (readBE value.length) (Bytes.toNat value) := by
  refine ⟨value, rfl, ?_⟩
  intro before after
  rw [readBE, hasMore_standing, if_pos rfl]
  simp only [Functor.map, EStateM.map, take_standing]

theorem decodes_readLE_bytes (value : List UInt8) :
    Decodes (write value) (readLE value.length) (Bytes.toNat value.reverse) := by
  refine ⟨value, rfl, ?_⟩
  intro before after
  rw [readLE, hasMore_standing, if_pos rfl]
  simp only [Functor.map, EStateM.map, take_standing]

theorem decodes_readBE (h : n < 256 ^ size) : Decodes (writeBE size n) (readBE size) n := by
  have := decodes_readBE_bytes (Bytes.ofNat size n)
  rwa [Bytes.length_ofNat, Bytes.toNat_ofNat, Nat.mod_eq_of_lt h] at this

theorem decodes_readLE (h : n < 256 ^ size) : Decodes (writeLE size n) (readLE size) n := by
  have := decodes_readLE_bytes (Bytes.ofNat size n).reverse
  rwa [List.length_reverse, Bytes.length_ofNat, List.reverse_reverse, Bytes.toNat_ofNat, Nat.mod_eq_of_lt h] at this

theorem decodes_checkRange (hmin : minLen ≤ n) (hmax : n ≤ maxLen) :
    Decodes (concat []) (checkRange n minLen maxLen) () := by
  rw [checkRange, if_neg (by omega), if_neg (by omega)]
  exact .pure ()

theorem decodes_singleByteLen (hmin : minLen ≤ value.length) (hmax : value.length ≤ maxLen)
    (h : value.length ≤ 255) : Decodes (writeSingleByteLenValue value) (readSingleByteLenValue minLen maxLen) value := by
  rw [writeSingleByteLenValue, if_pos h, readSingleByteLenValue]
  apply Decodes.bind
  . exact (decodes_readBE (by omega)).orInvalid
  . apply Decodes.skip
    . exact (decodes_checkRange hmin hmax).orInvalid
    . exact (decodes_readSlice value).last

theorem rejects_singleByteLen (h : ¬(minLen ≤ value.length ∧ value.length ≤ maxLen ∧ value.length ≤ 255)) :
    Rejects (writeSingleByteLenValue value) (readSingleByteLenValue minLen maxLen) := by
  rw [writeSingleByteLenValue]
  split
  . next hsize =>
    rw [readSingleByteLenValue]
    apply Rejects.bind_right (decodes_readBE (by omega : value.length < 256 ^ 1)).orInvalid
    apply Rejects.of_fails
    intro s b s' hs
    cases bind_ok hs with
    | intro u hu =>
      cases hu with
      | intro t ht =>
        have hrange := orInvalid_ok.mp ht.1
        rw [checkRange] at hrange
        split at hrange
        . cases hrange
        . split at hrange
          . cases hrange
          . omega
  . exact .of_none

theorem lt_of_readBE {s s' : ReadStream} (h : readBE size s = .ok n s') : n < 256 ^ size := by
  rw [readBE] at h
  split at h
  . simp only [Functor.map, EStateM.map, take] at h
    split at h
    . next hle =>
      split at hle
      . next hle' =>
        cases hle
        cases h
        have := Bytes.toNat_lt (slice s.buffer s.position size)
        rwa [length_slice hle'] at this
      . cases hle
    . cases h
  . cases h

/-- A number above the middle of the range is negative. -/
theorem toInt_eq (input : Int64) :
    input.toInt = if 2 * input.toUInt64.toNat < 2 ^ 64 then (input.toUInt64.toNat : Int)
      else input.toUInt64.toNat - 2 ^ 64 := by
  rw [← Int64.toInt_toBitVec, BitVec.toInt_eq_toNat_cond]
  rfl

theorem toUInt64_lt (input : Int64) : input.toUInt64.toNat < 256 ^ 8 := input.toUInt64.toNat_lt

/-- An arithmetic shift of a number that is not negative leaves 0 exactly if the number has no more bytes. -/
theorem shiftRight_ne_zero_iff {input : Int64} (hpos : 2 * input.toUInt64.toNat < 2 ^ 64) (x : Nat) :
    input.toInt >>> (x * 8) ≠ 0 ↔ 256 ^ x ≤ input.toUInt64.toNat := by
  rw [toInt_eq, if_pos hpos, ← Int.natCast_shiftRight, Int.natCast_ne_zero, Nat.shiftRight_eq_div_pow,
    Nat.mul_comm, Nat.pow_mul, Nat.div_ne_zero_iff]
  have : 0 < (2 ^ 8) ^ x := Nat.pow_pos (by omega)
  constructor
  . intro h
    exact h.2
  . intro h
    exact ⟨by omega, h⟩

theorem trimmedSize_bounds (input : Int64) (x : Nat) :
    trimmedSize input (x + 1) ≤ x + 1 ∧ 1 ≤ trimmedSize input (x + 1) := by
  induction x with
  | zero => simp [trimmedSize]
  | succ x ih =>
    rw [trimmedSize]
    split
    . omega
    . omega

/-- Trimming drops zeros only. -/
theorem lt_trimmedSize (input : Int64) : input.toUInt64.toNat < 256 ^ trimmedSize input 8 := by
  by_cases hpos : 2 * input.toUInt64.toNat < 2 ^ 64
  . have hall : ∀ x, input.toUInt64.toNat < 256 ^ (x + 1) →
        input.toUInt64.toNat < 256 ^ trimmedSize input (x + 1) := by
      intro x hx
      induction x with
      | zero => exact hx
      | succ x ih =>
        rw [trimmedSize]
        split
        . exact hx
        . next hzero =>
          rw [shiftRight_ne_zero_iff hpos] at hzero
          exact ih (by omega)
    exact hall 7 (toUInt64_lt input)
  . have hshift : input.toInt >>> (7 * 8 : Nat) ≠ 0 := by
      have := toUInt64_lt input
      rw [toInt_eq, if_neg hpos, Int.shiftRight_eq_div_pow]
      omega
    have hsize : trimmedSize input 8 = 8 := if_pos hshift
    rw [hsize]
    exact toUInt64_lt input

/-- Trimming keeps no byte that is not needed. -/
theorem trimmedSize_le {input : Int64} (hpos : 2 * input.toUInt64.toNat < 2 ^ 64) (hsize : 1 ≤ size)
    (h : input.toUInt64.toNat < 256 ^ size) (x : Nat) : trimmedSize input (x + 1) ≤ size := by
  induction x with
  | zero => exact hsize
  | succ x ih =>
    rw [trimmedSize]
    split
    . next hne =>
      rw [shiftRight_ne_zero_iff hpos] at hne
      apply Nat.succ_le_of_lt
      exact (Nat.pow_lt_pow_iff_right (by omega)).mp (Nat.lt_of_le_of_lt hne h)
    . exact ih

theorem length_trimmedArray (input : Int64) : (trimmedArray input).length = trimmedSize input 8 := by
  rw [trimmedArray, Bytes.length_ofNat]

theorem length_trimmedArray_le (input : Int64) : (trimmedArray input).length ≤ 8 := by
  rw [length_trimmedArray]
  exact (trimmedSize_bounds input 7).1

theorem toNat_trimmedArray (input : Int64) : Bytes.toNat (trimmedArray input) = input.toUInt64.toNat := by
  rw [trimmedArray, Bytes.toNat_ofNat, Nat.mod_eq_of_lt (lt_trimmedSize input)]

/-- A byte count, and bytes that are no more than the number has. -/
theorem decodes_singleBE_bytes (value : List UInt8) (hsize : value.length ≤ size) (h : value.length ≤ 255) :
    Decodes (concat [writeBE 1 value.length, write value]) (readSingleBEValue size) (Bytes.toNat value) := by
  have hdata := decodes_singleByteLen (Nat.zero_le _) hsize h
  rw [writeSingleByteLenValue, if_pos h] at hdata
  rw [← concat_single (concat _), readSingleBEValue]
  apply Decodes.bind
  . exact hdata.orInvalid
  . exact (decodes_readBE_bytes value).nested rfl

/-- A signed number of eight bytes is read back. -/
theorem decodes_singleBE (input : Int64) :
    Decodes (writeSingleBEValue input) (readSingleBEValue 8) input.toUInt64.toNat := by
  have hsize := length_trimmedArray_le input
  rw [writeSingleBEValue, ← toNat_trimmedArray]
  apply decodes_singleBE_bytes
  . exact hsize
  . omega

theorem toUInt64_ofNat (h : n < 2 ^ 63) : (Int64.ofNat n).toUInt64.toNat = n := by
  rw [Int64.toUInt64_ofNat', UInt64.toNat_ofNat', Nat.mod_eq_of_lt (by omega)]

/-- A number of which `size` bytes are enough is read back with no more. -/
theorem decodes_singleBE_ofNat (hsize : 1 ≤ size) (h : n < 256 ^ size) (hpos : n < 2 ^ 63) :
    Decodes (writeSingleBEValue (Int64.ofNat n)) (readSingleBEValue size) n := by
  have heq := toUInt64_ofNat hpos
  have hle : trimmedSize (Int64.ofNat n) 8 ≤ size := trimmedSize_le (by omega) hsize (by rwa [heq]) 7
  have hlen := length_trimmedArray (Int64.ofNat n)
  have hlen' := length_trimmedArray_le (Int64.ofNat n)
  have := decodes_singleBE_bytes (trimmedArray (Int64.ofNat n)) (Nat.le_trans (Nat.le_of_eq hlen) hle) (by omega)
  rwa [toNat_trimmedArray, heq] at this

theorem decodes_singleFixedBE (hsize : size ≤ 255) (h : n < 256 ^ size) :
    Decodes (writeSingleFixedBEValue size n) (readSingleBEValue size) n := by
  have := decodes_singleBE_bytes (Bytes.ofNat size n) (Nat.le_of_eq (Bytes.length_ofNat size n))
    (by rwa [Bytes.length_ofNat])
  rw [Bytes.toNat_ofNat, Nat.mod_eq_of_lt h] at this
  rwa [writeSingleFixedBEValue, writeSingleByteLenValue, if_pos (by rwa [Bytes.length_ofNat])]

theorem toSize_ofNat (h : n < 2 ^ 31) : toSize (Int32.ofNat n) = n := by
  have hmax : (n : Int) ≤ Int32.maxValue.toInt := by
    rw [Int32.toInt_maxValue]
    omega
  rw [toSize, Int32.toInt64_ofNat' hmax, toUInt64_ofNat (by omega)]

/-- The length in front of a slice is read back, whatever the slice. -/
theorem decodes_length (h : n < 2 ^ 31) :
    Decodes (writeSingleBEValue (Int64.ofNat n)) (readSingleBEValue 4) n :=
  decodes_singleBE_ofNat (by omega) (by omega) (by omega)

theorem decodes_varLen (hmin : minLen ≤ value.length) (hmax : value.length ≤ maxLen) (h : value.length < 2 ^ 31) :
    Decodes (writeVarLenValue value) (readVarLenValue minLen maxLen) value := by
  rw [writeVarLenValue, readVarLenValue]
  apply Decodes.bind
  . exact (decodes_length h).orInvalid
  . rw [toSize_ofNat h]
    apply Decodes.skip
    . exact (decodes_checkRange hmin hmax).orInvalid
    . exact (decodes_readSlice value).last

/-- A slice longer than the reader admits is rejected. -/
theorem rejects_varLen (hmax : maxLen < value.length) (h : value.length < 2 ^ 31) :
    Rejects (writeVarLenValue value) (readVarLenValue minLen maxLen) := by
  rw [writeVarLenValue, readVarLenValue]
  apply Rejects.bind_right (decodes_length h).orInvalid
  apply Rejects.of_fails
  intro s b s' hs
  cases bind_ok hs with
  | intro u hu =>
    cases hu with
    | intro t ht =>
      have hrange := orInvalid_ok.mp ht.1
      rw [toSize_ofNat h, checkRange] at hrange
      split at hrange
      . cases hrange
      . cases hrange

theorem decodesIff_readItems {P : α → Prop} {f : α → Encoding} {failed : Nat → List String} {l : List α}
    (h : ∀ a ∈ l, DecodesIff (P a) (f a) m a) (i : Nat) :
    DecodesIff (∀ a ∈ l, P a) (concat (l.map f)) (readItems failed m i l.length) l := by
  induction l generalizing i with
  | nil => exact .of_decodes (.pure _) (by simp)
  | cons a l ih =>
    rw [List.forall_mem_cons] at h
    rw [List.map_cons, List.length_cons, readItems]
    apply DecodesIff.congr _ List.forall_mem_cons.symm
    apply DecodesIff.bind (h.1.orInvalid)
    . intro _
      apply (ih h.2 (i + 1)).map
      intro x hx
      exact (List.cons_eq_cons.mp hx).2
    . intro x hx
      apply Avoids.bind
      intro items
      apply Avoids.pure
      intro heq
      exact hx (List.cons_eq_cons.mp heq).1

theorem decodes_readItems {f : α → Encoding} {failed : Nat → List String} {l : List α}
    (h : ∀ a ∈ l, Decodes (f a) m a) (i : Nat) :
    Decodes (concat (l.map f)) (readItems failed m i l.length) l := by
  have hiff : DecodesIff (∀ a ∈ l, True) (concat (l.map f)) (readItems failed m i l.length) l :=
    decodesIff_readItems (fun a ha => .of_decodes (h a ha) trivial) i
  exact hiff.1 (by simp)

theorem length_of_readItems {failed : Nat → List String} {i : Nat} {l : List α} {s s' : ReadStream}
    (h : readItems failed m i n s = .ok l s') : l.length = n := by
  induction n generalizing i l s with
  | zero =>
    cases h
    rfl
  | succ n ih =>
    rw [readItems] at h
    cases bind_ok h with
    | intro item hitem =>
      cases hitem with
      | intro t ht =>
        cases bind_ok ht.2 with
        | intro items hitems =>
          cases hitems with
          | intro t' ht' =>
            cases ht'.2
            rw [List.length_cons, ih ht'.1]

theorem length_le_of_readArrayOf {caller : Nat → List String} {l : List α} {s s' : ReadStream}
    (h : readArrayOf caller minLen maxLen m s = .ok l s') : l.length ≤ maxLen := by
  rw [readArrayOf] at h
  cases bind_ok h with
  | intro count hcount =>
    cases hcount with
    | intro t ht =>
      cases bind_ok ht.2 with
      | intro u hu =>
        cases hu with
        | intro t' ht' =>
          have hrange := orInvalid_ok.mp ht'.1
          have hlength := length_of_readItems ht'.2
          rw [checkRange] at hrange
          split at hrange
          . cases hrange
          . split at hrange
            . cases hrange
            . omega

/-- An array whose length is written in any way. -/
theorem decodesIff_array {P : α → Prop} {e : Encoding} {f : α → Encoding} {caller : Nat → List String} {l : List α}
    (hcount : Decodes e (readSingleBEValue 4) l.length) (hmax : l.length ≤ maxLen) (hlen : l.length < 2 ^ 31)
    (h : ∀ a ∈ l, DecodesIff (P a) (f a) m a) :
    DecodesIff (∀ a ∈ l, P a) (concat (e :: l.map f)) (readArrayOf caller 0 maxLen m) l := by
  rw [readArrayOf]
  apply DecodesIff.bind_right hcount.orInvalid
  rw [toSize_ofNat hlen]
  apply DecodesIff.skip (decodes_checkRange (Nat.zero_le _) hmax).orInvalid
  exact decodesIff_readItems h 0

theorem decodes_array {e : Encoding} {f : α → Encoding} {caller : Nat → List String} {l : List α}
    (hcount : Decodes e (readSingleBEValue 4) l.length) (hmax : l.length ≤ maxLen) (hlen : l.length < 2 ^ 31)
    (h : ∀ a ∈ l, Decodes (f a) m a) : Decodes (concat (e :: l.map f)) (readArrayOf caller 0 maxLen m) l := by
  have hiff : DecodesIff (∀ a ∈ l, True) (concat (e :: l.map f)) (readArrayOf caller 0 maxLen m) l :=
    decodesIff_array hcount hmax hlen (fun a ha => .of_decodes (h a ha) trivial)
  exact hiff.1 (by simp)

theorem decodesIff_container {P : α → Prop} {f : α → Encoding} {caller : Nat → List String} {l : List α}
    (hmax : l.length ≤ maxLen) (hlen : l.length < 2 ^ 31) (h : ∀ a ∈ l, DecodesIff (P a) (f a) m a) :
    DecodesIff (∀ a ∈ l, P a) (writeContainer l f) (readArrayOf caller 0 maxLen m) l :=
  decodesIff_array (decodes_length hlen) hmax hlen h

theorem decodes_container {f : α → Encoding} {caller : Nat → List String} {l : List α}
    (hmax : l.length ≤ maxLen) (hlen : l.length < 2 ^ 31) (h : ∀ a ∈ l, Decodes (f a) m a) :
    Decodes (writeContainer l f) (readArrayOf caller 0 maxLen m) l :=
  decodes_array (decodes_length hlen) hmax hlen h

/-- A list of any length: what the reader returns is no longer than it admits. -/
theorem decodesIff_cappedContainer {f : α → Encoding} {caller : Nat → List String} {l : List α} (hmax : maxLen < 2 ^ 31)
    (h : ∀ a ∈ l, Decodes (f a) m a) :
    DecodesIff (l.length ≤ maxLen) (writeContainer l f) (readArrayOf caller 0 maxLen m) l := by
  constructor
  . intro hlen
    exact decodes_container hlen (by omega) h
  . intro hlen
    apply Misdecodes.of_avoids
    intro s s' hs
    exact hlen (length_le_of_readArrayOf hs)

theorem decodes_require {condition : Prop} [Decidable condition] {reason : String} (h : condition) :
    Decodes (concat []) (require condition reason) () := by
  rw [require, if_pos h]
  exact .pure ()

theorem hasSize_write (value : List UInt8) : HasSize (write value) value.length := ⟨value, rfl, rfl⟩

theorem hasSize_writeBE : HasSize (writeBE size n) size := ⟨_, rfl, Bytes.length_ofNat _ _⟩

theorem hasSize_singleByteLen (h : value.length ≤ 255) :
    HasSize (writeSingleByteLenValue value) (singleByteLenValueSize value.length) := by
  rw [writeSingleByteLenValue, if_pos h]
  exact hasSize_writeBE.cons ((hasSize_write value).cons .nil)

theorem hasSize_singleBE (input : Int64) : HasSize (writeSingleBEValue input) (singleBEValueSize input) := by
  rw [singleBEValueSize, ← length_trimmedArray]
  exact hasSize_writeBE.cons ((hasSize_write (trimmedArray input)).cons .nil)

theorem hasSize_singleFixedBE (h : size ≤ 255) :
    HasSize (writeSingleFixedBEValue size n) (singleFixedBEValueSize size) := by
  have hbytes := Bytes.length_ofNat size n
  have : HasSize (writeSingleFixedBEValue size n) (singleByteLenValueSize (Bytes.ofNat size n).length) :=
    hasSize_singleByteLen (by omega)
  rwa [hbytes] at this

theorem hasSize_varLen (value : List UInt8) : HasSize (writeVarLenValue value) (varLenValueSize value.length) :=
  (hasSize_singleBE _).cons ((hasSize_write value).cons .nil)

theorem hasSize_container {f : α → Encoding} {size : α → Nat} {l : List α} (h : ∀ a ∈ l, HasSize (f a) (size a)) :
    HasSize (writeContainer l f) (estimateContainerSize l size) :=
  (hasSize_singleBE _).cons (.items h)

theorem sum_map_le {f : α → Nat} {l : List α} (h : ∀ a ∈ l, f a ≤ n) : (l.map f).sum ≤ l.length * n := by
  induction l with
  | nil => simp
  | cons a l ih =>
    rw [List.forall_mem_cons] at h
    have := ih h.2
    rw [List.map_cons, List.sum_cons, List.length_cons, Nat.succ_mul]
    omega

theorem singleBEValueSize_le (input : Int64) : singleBEValueSize input ≤ 9 := by
  have : trimmedSize input 8 ≤ 8 := (trimmedSize_bounds input 7).1
  rw [singleBEValueSize]
  omega

end

end AltIntegration.Serde
