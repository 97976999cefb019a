import AltIntegration.Validation.ContainsSplit

/-!
This module shows what `containsSplit` finds: it stops at some of the magic bytes, and the first of these
markers whose table describes the data, or is cut short, or points behind the end of the transaction decides.
-/

namespace AltIntegration

open ReadStream

section

variable {bits : List Bool} {number : Nat}

theorem getIntFromBits_go (hbits : ∀ i < bits.length, bits[i]? = some (number.testBit i)) (fromIndex : Nat)
    (s : ReadStream) (n j value : Nat) (hj : fromIndex ≤ j) (hlen : j + n ≤ bits.length) :
    getIntFromBits.go bits fromIndex n j value s =
      .ok (value + 2 ^ (j - fromIndex) * (number / 2 ^ j % 2 ^ n)) s := by
  induction n generalizing j value with
  | zero =>
    simp only [getIntFromBits.go, Nat.pow_zero, Nat.mod_one, Nat.mul_zero, Nat.add_zero]
    rfl
  | succ n ih =>
    have hsplit : number / 2 ^ j % 2 ^ (n + 1) =
        number / 2 ^ j % 2 + 2 * (number / 2 ^ (j + 1) % 2 ^ n) := by
      rw [Nat.pow_succ', Nat.mod_mul, Nat.div_div_eq_div_mul, ← Nat.pow_succ]
    have hpow : 2 ^ (j + 1 - fromIndex) = 2 ^ (j - fromIndex) * 2 := by
      rw [Nat.succ_sub hj, Nat.pow_succ]
    have hbit : (if number.testBit j then value + 1 <<< (j - fromIndex) else value) =
        value + 2 ^ (j - fromIndex) * (number / 2 ^ j % 2) := by
      rw [Nat.testBit_eq_decide_div_mod_eq, Nat.one_shiftLeft]
      split
      . next h => simp [of_decide_eq_true h]
      . next h =>
        have : number / 2 ^ j % 2 = 0 := by
          simp only [decide_eq_true_eq] at h
          omega
        simp [this]
    simp only [getIntFromBits.go]
    rw [hbits j (by omega)]
    simp only
    rw [ih (j + 1) _ (by omega) (by omega), hbit, hsplit, hpow, Nat.mul_add, Nat.add_assoc, Nat.mul_assoc]

theorem getIntFromBits_eq (hbits : ∀ i < bits.length, bits[i]? = some (number.testBit i)) {fromIndex toIndex : Nat}
    (hto : toIndex ≤ bits.length) (hfrom : fromIndex ≤ bits.length) (s : ReadStream) :
    getIntFromBits bits fromIndex toIndex s = .ok (number / 2 ^ fromIndex % 2 ^ (toIndex - fromIndex)) s := by
  rw [getIntFromBits, getIntFromBits_go hbits fromIndex s _ _ _ (Nat.le_refl _) (by omega)]
  simp

end

namespace ContainsSplit

open SplitFormat

theorem chunkDescriptorLength_le (bits : List Bool) : chunkDescriptorLength bits ≤ bits.length := by
  induction bits with
  | nil => exact Nat.le_refl 0
  | cons bit bits ih =>
    simp only [chunkDescriptorLength, List.length_cons]
    split
    . omega
    . split
      . omega
      . omega

/-- No bit is set from there on. -/
theorem getElem?_chunkDescriptorLength (bits : List Bool) {i : Nat} (h : chunkDescriptorLength bits ≤ i) :
    bits[i]? ≠ some true := by
  induction bits generalizing i with
  | nil => simp
  | cons bit bits ih =>
    simp only [chunkDescriptorLength] at h
    split at h
    . next hany =>
      obtain ⟨i, rfl⟩ : ∃ j, i = j + 1 := ⟨i - 1, by omega⟩
      rw [List.getElem?_cons_succ]
      exact ih (by omega)
    . next hany =>
      cases i with
      | zero =>
        cases bit with
        | true => simp at h
        | false => simp
      | succ i =>
        rw [List.getElem?_cons_succ]
        intro hi
        apply hany
        rw [List.any_eq_true]
        exact ⟨true, List.mem_of_getElem? hi, rfl⟩

theorem lt_two_pow_chunkDescriptorLength {bits : List Bool} {number : Nat}
    (hbits : ∀ i < bits.length, bits[i]? = some (number.testBit i)) (hnumber : number < 2 ^ bits.length) :
    number < 2 ^ chunkDescriptorLength bits := by
  apply Nat.lt_pow_two_of_testBit
  intro i hi
  by_cases hlen : i < bits.length
  . have := getElem?_chunkDescriptorLength bits hi
    rw [hbits i hlen] at this
    simpa using this
  . apply Nat.testBit_lt_two_pow
    exact Nat.lt_of_lt_of_le hnumber (Nat.pow_le_pow_right (by omega) (by omega))

/-- Stopping at the last bit that is set changes nothing. -/
theorem getIntFromBits_limit {bits : List Bool} {number : Nat}
    (hbits : ∀ i < bits.length, bits[i]? = some (number.testBit i)) (hnumber : number < 2 ^ bits.length)
    {fromIndex width : Nat} (hto : fromIndex + width ≤ bits.length) (s : ReadStream) :
    getIntFromBits bits fromIndex (min (chunkDescriptorLength bits) (fromIndex + width)) s =
      .ok (number / 2 ^ fromIndex % 2 ^ width) s := by
  have hle := chunkDescriptorLength_le bits
  rw [getIntFromBits_eq hbits (by omega) (by omega)]
  by_cases h : fromIndex + width ≤ chunkDescriptorLength bits
  . rw [Nat.min_eq_right h, Nat.add_sub_cancel_left]
  . have hlt := lt_two_pow_chunkDescriptorLength hbits hnumber
    have hsmall : number / 2 ^ fromIndex < 2 ^ (chunkDescriptorLength bits - fromIndex) := by
      rw [Nat.div_lt_iff_lt_mul (Nat.two_pow_pos _), ← Nat.pow_add]
      apply Nat.lt_of_lt_of_le hlt
      exact Nat.pow_le_pow_right (by omega) (by omega)
    have hwide : number / 2 ^ fromIndex < 2 ^ width := by
      apply Nat.lt_of_lt_of_le hsmall
      exact Nat.pow_le_pow_right (by omega) (by omega)
    rw [Nat.min_eq_left (by omega), Nat.mod_eq_of_lt hsmall, Nat.mod_eq_of_lt hwide]

theorem ofByte_toNat : ∀ n < 256,
    (Descriptor.ofByte n.toUInt8).chunks.toNat = chunks n.toUInt8 ∧
    (Descriptor.ofByte n.toUInt8).offsetLength.toNat = offsetLength n.toUInt8 ∧
    (Descriptor.ofByte n.toUInt8).sectionLength.toNat = sectionLength n.toUInt8 ∧
    (Descriptor.ofByte n.toUInt8).chunkDescriptorBytesLength.toNat = tableBytes n.toUInt8 ∧
    (chunks n.toUInt8 ≠ 0 →
      (Descriptor.ofByte n.toUInt8).waste.toNat = 8 * tableBytes n.toUInt8 - tableBits n.toUInt8) := by
  decide +kernel

/-- The unsigned arithmetic on the descriptor never wraps, unless there are no chunks. -/
structure Agrees (d : Descriptor) (b : UInt8) : Prop where
  chunks : d.chunks.toNat = SplitFormat.chunks b
  offsetLength : d.offsetLength.toNat = SplitFormat.offsetLength b
  sectionLength : d.sectionLength.toNat = SplitFormat.sectionLength b
  bytes : d.chunkDescriptorBytesLength.toNat = tableBytes b
  waste : SplitFormat.chunks b ≠ 0 → d.waste.toNat = 8 * tableBytes b - tableBits b

theorem agrees_ofByte (b : UInt8) : Agrees (Descriptor.ofByte b) b := by
  have ⟨h1, h2, h3, h4, h5⟩ := ofByte_toNat b.toNat b.toNat_lt
  simp only [Nat.toUInt8_eq, UInt8.ofNat_toNat] at h1 h2 h3 h4 h5
  exact ⟨h1, h2, h3, h4, h5⟩

section

variable (b : UInt8)

theorem chunks_le : chunks b ≤ 15 := by
  have := b.toNat_lt
  simp only [chunks]
  omega

theorem offsetLength_le : offsetLength b ≤ 16 := by
  simp only [offsetLength]
  omega

theorem sectionLength_le : sectionLength b ≤ 7 := by
  simp only [sectionLength]
  omega

theorem tableBits_lt (h : chunks b ≠ 0) : tableBits b < 8 * tableBytes b := by
  simp only [tableBytes, h, ↓reduceIte]
  omega

theorem tableBytes_le : tableBytes b ≤ 43 := by
  have h1 : chunks b * offsetLength b ≤ 15 * 16 := Nat.mul_le_mul (chunks_le b) (offsetLength_le b)
  have h2 : (chunks b - 1) * sectionLength b ≤ 14 * 7 :=
    Nat.mul_le_mul (by have := chunks_le b; omega) (sectionLength_le b)
  simp only [tableBytes, tableBits]
  split
  . omega
  . omega

end

/-- A chunk's bits lie inside the table, with its length in front of its offset unless it is the last chunk. -/
theorem chunkOffset_add_le (t : Table) {i : Nat} (h : i < chunks t.descriptor) :
    t.chunkOffset i + offsetLength t.descriptor ≤ 8 * tableBytes t.descriptor ∧
      (i ≠ 0 → sectionLength t.descriptor ≤ t.chunkOffset i) := by
  have hbits := tableBits_lt t.descriptor (by omega)
  obtain ⟨n, hn⟩ : ∃ n, chunks t.descriptor = n + 1 := ⟨chunks t.descriptor - 1, by omega⟩
  have hmul : i * (offsetLength t.descriptor + sectionLength t.descriptor) ≤
      n * (offsetLength t.descriptor + sectionLength t.descriptor) := Nat.mul_le_mul_right _ (by omega)
  constructor
  . simp only [Table.chunkOffset]
    have : tableBits t.descriptor =
        n * (offsetLength t.descriptor + sectionLength t.descriptor) + offsetLength t.descriptor := by
      rw [tableBits, hn, Nat.add_sub_cancel, Nat.add_mul, Nat.one_mul, Nat.mul_add]
      omega
    omega
  . intro hi
    have hle : sectionLength t.descriptor ≤ i * (offsetLength t.descriptor + sectionLength t.descriptor) := by
      have := Nat.mul_le_mul_right (offsetLength t.descriptor + sectionLength t.descriptor) (Nat.pos_of_ne_zero hi)
      omega
    simp only [Table.chunkOffset]
    omega

theorem toNat_chunkOffset {d : Descriptor} {t : Table} (hd : Agrees d t.descriptor) {i : Nat}
    (h : i < chunks t.descriptor) : (d.chunkOffset i).toNat = t.chunkOffset i := by
  have hlt := (chunkOffset_add_le t h).1
  have hbytes := tableBytes_le t.descriptor
  have hi : i.toUInt32.toNat = i := by
    have := chunks_le t.descriptor
    simp only [Nat.toUInt32_eq, UInt32.toNat_ofNat']
    omega
  have hwaste := hd.waste (by omega)
  simp only [Table.chunkOffset] at hlt ⊢
  rw [Descriptor.chunkOffset, UInt32.toNat_add, UInt32.toNat_mul, UInt32.toNat_add, hi, hd.offsetLength,
    hd.sectionLength, hwaste]
  have ho := offsetLength_le t.descriptor
  have hs := sectionLength_le t.descriptor
  rw [Nat.mod_eq_of_lt (a := offsetLength t.descriptor + sectionLength t.descriptor) (by omega),
    Nat.mod_eq_of_lt (a := i * _) (by omega), Nat.mod_eq_of_lt (by omega)]

theorem toNat_min (a b : UInt32) : (min a b).toNat = min a.toNat b.toNat := by
  rw [Nat.min_def, instMinUInt32, minOfLe]
  simp only
  split
  . next h => rw [if_pos (UInt32.le_iff_toNat_le.mp h)]
  . next h => rw [if_neg (fun hle => h (UInt32.le_iff_toNat_le.mpr hle))]

/-- The bits in which the code keeps a table. -/
structure Holds (bits : List Bool) (t : Table) : Prop where
  length : bits.length = 8 * tableBytes t.descriptor
  testBit : ∀ i < bits.length, bits[i]? = some (t.number.testBit i)
  lt : t.number < 2 ^ bits.length

section

variable {d : Descriptor} {t : Table} {bits : List Bool} (hd : Agrees d t.descriptor) (ht : Holds bits t)

include hd ht

theorem sectionOffset_eq {i : Nat} (hi : i < chunks t.descriptor) (s : ReadStream) :
    getIntFromBits bits (d.chunkOffset i).toNat
      (min (chunkDescriptorLength bits).toUInt32 (d.chunkOffset i + d.offsetLength)).toNat s =
        .ok (t.offset i) s := by
  have hle := (chunkOffset_add_le t hi).1
  have hbytes := tableBytes_le t.descriptor
  have hlen := chunkDescriptorLength_le bits
  have h1 : (chunkDescriptorLength bits).toUInt32.toNat = chunkDescriptorLength bits := by
    rw [ht.length] at hlen
    simp only [Nat.toUInt32_eq, UInt32.toNat_ofNat']
    omega
  have h2 : (d.chunkOffset i + d.offsetLength).toNat = t.chunkOffset i + offsetLength t.descriptor := by
    rw [UInt32.toNat_add, toNat_chunkOffset hd hi, hd.offsetLength, Nat.mod_eq_of_lt (by omega)]
  rw [toNat_min, h1, h2, toNat_chunkOffset hd hi]
  apply getIntFromBits_limit ht.testBit ht.lt
  rw [ht.length]
  exact hle

theorem sectionLength_eq {i : Nat} (hi : i < chunks t.descriptor) (hne : i ≠ 0) (s : ReadStream) :
    getIntFromBits bits (d.chunkOffset i - d.sectionLength).toNat (d.chunkOffset i).toNat s = .ok (t.length i) s := by
  have ⟨hle, hs⟩ := chunkOffset_add_le t hi
  have hsub : (d.chunkOffset i - d.sectionLength).toNat = t.chunkOffset i - sectionLength t.descriptor := by
    rw [UInt32.toNat_sub_of_le]
    . rw [toNat_chunkOffset hd hi, hd.sectionLength]
    . rw [UInt32.le_iff_toNat_le, toNat_chunkOffset hd hi, hd.sectionLength]
      exact hs hne
  rw [hsub, toNat_chunkOffset hd hi, getIntFromBits_eq ht.testBit]
  . have : t.chunkOffset i - (t.chunkOffset i - sectionLength t.descriptor) = sectionLength t.descriptor := by
      have := hs hne
      omega
    rw [this, Table.length]
  . rw [ht.length]
    omega
  . rw [ht.length]
    omega

omit hd ht

theorem sectionSize_lt (t : Table) (popDataSize total i : Nat) : t.sectionSize popDataSize total i < 2 ^ 32 := by
  simp only [Table.sectionSize]
  split
  . exact UInt32.toNat_lt _
  . apply Nat.lt_of_lt_of_le (Nat.mod_lt _ (Nat.two_pow_pos _))
    apply Nat.pow_le_pow_right (by omega)
    have := sectionLength_le t.descriptor
    omega

theorem offset_lt (t : Table) (i : Nat) : t.offset i < 2 ^ 16 := by
  apply Nat.lt_of_lt_of_le (Nat.mod_lt _ (Nat.two_pow_pos _))
  apply Nat.pow_le_pow_right (by omega)
  exact offsetLength_le t.descriptor

include hd ht in
/-- One turn of the loop over the chunks. -/
theorem extract_succ {i : Nat} (hi : i < chunks t.descriptor) (btcTx : List UInt8)
    (popDataSize position total : Nat) (extracted : List UInt8) :
    extract popDataSize d bits (i + 1) total.toUInt32 extracted ⟨btcTx, position⟩ =
      (orInvalid ["bad-section-length", toString i] (readSlice (t.sectionSize popDataSize total i)) >>= fun bytes =>
        extract popDataSize d bits i (total + t.sectionSize popDataSize total i).toUInt32 (extracted ++ bytes))
          ⟨btcTx, position + t.offset i⟩ := by
  by_cases hne : i = 0
  . subst hne
    simp only [extract, bind, EStateM.bind, sectionOffset_eq hd ht hi, Table.sectionSize, ↓reduceIte, pure, EStateM.pure,
      run_modify, ReadStream.setPosition]
  . have hto : (t.length i).toUInt32.toNat = t.length i := by
      have := sectionSize_lt t popDataSize total i
      simp only [Table.sectionSize, hne, ↓reduceIte] at this
      simp only [Nat.toUInt32_eq, UInt32.toNat_ofNat']
      omega
    simp only [extract, bind, EStateM.bind, sectionOffset_eq hd ht hi, Table.sectionSize, hne, ↓reduceIte,
      sectionLength_eq hd ht hi hne, pure, EStateM.pure, run_modify, hto, ReadStream.setPosition, Nat.toUInt32_eq, UInt32.ofNat_add]

omit hd ht

theorem orInvalid_readSlice {btcTx : List UInt8} {position : Nat} (h : position ≤ btcTx.length) (reasons : List String)
    (size : Nat) : orInvalid reasons (readSlice size) ⟨btcTx, position⟩ =
      if position + size ≤ btcTx.length then
        .ok (slice btcTx position size) ⟨btcTx, position + size⟩
      else
        .error (.invalid (reasons ++ ["readslice-underflow"])) ⟨btcTx, position⟩ := by
  rw [orInvalid, readSlice_eq_of_le h]
  by_cases hle : position + size ≤ btcTx.length
  . simp [hle, setPosition]
  . simp [hle]

/-- How a program that extracts sections ends, when the sections are `sections`. -/
def Extracts (btcTx extracted : List UInt8) (r : EStateM.Result Failure ReadStream (List UInt8)) :
    Except Table.Fault (List UInt8) → Prop
  | .ok bytes => ∃ position, r = .ok (extracted ++ bytes) ⟨btcTx, position⟩
  | .error .cut => ∃ path s, r = .error (.invalid path) s
  | .error .beyondEnd => ∃ s, r = .error .outOfBounds s

include hd ht in
theorem extract_eq (btcTx : List UInt8) (popDataSize : Nat) {n : Nat} (hn : n ≤ chunks t.descriptor)
    {position : Nat} (hposition : position ≤ btcTx.length) (total : Nat) (extracted : List UInt8) :
    Extracts btcTx extracted (extract popDataSize d bits n total.toUInt32 extracted ⟨btcTx, position⟩)
      (t.sections btcTx popDataSize n position total) := by
  induction n generalizing position total extracted with
  | zero => exact ⟨position, by simp [extract, pure, EStateM.pure]⟩
  | succ i ih =>
    rw [extract_succ hd ht (by omega)]
    simp only [Table.sections, bind, EStateM.bind]
    have hsize := sectionSize_lt t popDataSize total i
    have hoffset := offset_lt t i
    by_cases hlt : btcTx.length < position + t.offset i
    . have hpast := readSlice_past_end ⟨btcTx, position + t.offset i⟩ (t.sectionSize popDataSize total i)
        hlt (by simp only; omega)
      rw [if_pos hlt, orInvalid, hpast]
      exact ⟨_, rfl⟩
    . rw [if_neg hlt, orInvalid_readSlice (by omega)]
      by_cases hle : position + t.offset i + t.sectionSize popDataSize total i ≤ btcTx.length
      . simp only [hle, ↓reduceIte]
        have hrest := ih (by omega) hle (total + t.sectionSize popDataSize total i)
          (extracted ++ slice btcTx (position + t.offset i) (t.sectionSize popDataSize total i))
        revert hrest
        cases t.sections btcTx popDataSize i (position + t.offset i + t.sectionSize popDataSize total i)
            (total + t.sectionSize popDataSize total i) with
        | ok bytes =>
          rintro ⟨p, hp⟩
          exact ⟨p, by rw [hp, List.append_assoc]⟩
        | error fault =>
          cases fault with
          | cut => exact fun h => h
          | beyondEnd => exact fun h => h
      . simp only [hle, ↓reduceIte]
        exact ⟨_, _, rfl⟩

end

/-- How `matchesHere` ends behind the magic bytes at `p`. -/
def Decides (btcTx : List UInt8) (p : Nat) (r : EStateM.Result Failure ReadStream Bool) : Outcome → Prop
  | .gives => r = .ok true ⟨btcTx, p + 3⟩
  | .differs => r = .ok false ⟨btcTx, p + 3⟩
  | .cut => ∃ path s, r = .error (.invalid path) s
  | .beyondEnd => ∃ s, r = .error .outOfBounds s

theorem readBE_one {btcTx : List UInt8} {p : Nat} {b : UInt8} {l : List UInt8} (h : btcTx.drop p = b :: l)
    (reasons : List String) :
    orInvalid reasons (readBE 1) ⟨btcTx, p⟩ = .ok b.toNat ⟨btcTx, p + 1⟩ := by
  have hlen : p + 1 ≤ btcTx.length := by
    have := congrArg List.length h
    rw [List.length_drop, List.length_cons] at this
    omega
  rw [orInvalid, readBE_eq_of_le (by simp only; omega)]
  simp only [hlen, ↓reduceIte, slice, h, setPosition]
  simp [Bytes.toNat]

theorem holds_bits (descriptor : UInt8) {out : List UInt8} (h : out.length = tableBytes descriptor) :
    Holds (Bytes.bits out.reverse) ⟨descriptor, Bytes.toNat out⟩ where
  length := by rw [Bytes.length_bits, List.length_reverse, h]
  testBit i hi := by
    rw [Bytes.length_bits, List.length_reverse] at hi
    exact Bytes.getElem?_bits_reverse out hi
  lt := by
    rw [Bytes.length_bits, List.length_reverse, Nat.pow_mul]
    exact Bytes.toNat_lt out

theorem matchesHere_decides (popData : List UInt8) {btcTx : List UInt8} {p : Nat} {b : UInt8} {l : List UInt8}
    (h : btcTx.drop (p + 3) = b :: l) :
    Decides btcTx p (matchesHere popData ⟨btcTx, p + 3⟩) (outcomeAt popData btcTx p) := by
  have hget : btcTx[p + 3]? = some b := by
    have := congrArg List.head? h
    rwa [List.head?_drop, List.head?_cons] at this
  have hlen : p + 4 ≤ btcTx.length := by
    have := congrArg List.length h
    rw [List.length_drop, List.length_cons] at this
    omega
  have hd := agrees_ofByte b
  have hb : b.toNat.toUInt8 = b := by simp
  simp only [matchesHere, outcomeAt, tableAt, hget, Option.bind_some, bind, EStateM.bind, run_get, readBE_one h, hb, hd.bytes, orInvalid_readSlice hlen]
  by_cases hle : p + 4 + tableBytes b ≤ btcTx.length
  . have ht := holds_bits b (length_slice hle)
    have hextract := extract_eq hd ht btcTx popData.length (Nat.le_refl _) (Nat.zero_le _) 0 []
    simp only [hle, ↓reduceIte, run_modify, setPosition]
    rw [hd.chunks]
    revert hextract
    simp only
    cases Table.sections ⟨b, Bytes.toNat (slice btcTx (p + 4) (tableBytes b))⟩ btcTx popData.length (chunks b) 0 0 with
    | ok bytes =>
      rintro ⟨position, hr⟩
      rw [show (0 : UInt32) = (0 : Nat).toUInt32 from rfl, hr]
      simp only [List.nil_append, pure, EStateM.pure]
      by_cases heq : popData = bytes
      . simp [heq, Decides]
      . simp [heq, Decides]
    | error fault =>
      cases fault with
      | cut =>
        rintro ⟨path, s, hr⟩
        exact ⟨path, s, by rw [show (0 : UInt32) = (0 : Nat).toUInt32 from rfl, hr]⟩
      | beyondEnd =>
        rintro ⟨s, hr⟩
        exact ⟨s, by rw [show (0 : UInt32) = (0 : Nat).toUInt32 from rfl, hr]⟩
  . simp only [hle, ↓reduceIte]
    exact ⟨_, _, rfl⟩

/-- The first outcome at the markers `ps` that ends the scan. -/
def verdict (popData btcTx : List UInt8) (ps : List Nat) : Option Outcome :=
  (ps.map (outcomeAt popData btcTx)).find? (fun o => o ≠ .differs)

/-- How the scan ends. -/
def Ends (r : EStateM.Result Failure ReadStream Bool) : Option Outcome → Prop
  | some .gives => ∃ s, r = .ok true s
  | some .cut => ∃ path s, r = .error (.invalid path) s
  | some .beyondEnd => ∃ s, r = .error .outOfBounds s
  | some .differs => False
  | none => ∃ s, r = .ok false s

theorem compareMagic_eq {btcTx : List UInt8} {p : Nat} {b : UInt8} {l : List UInt8} (h : btcTx.drop p = b :: l)
    (i : Nat) (magic : UInt8) :
    compareMagic i magic ⟨btcTx, p⟩ = .ok (decide (b = magic)) ⟨btcTx, p + 1⟩ := by
  simp only [compareMagic, bind, EStateM.bind, readBE_one h, pure, EStateM.pure]
  congr 1
  by_cases hb : b = magic
  . simp [hb]
  . have : b.toNat ≠ magic.toNat := fun heq => hb (UInt8.toNat_inj.mp heq)
    simp [hb, this]

theorem drop_succ {btcTx : List UInt8} {p : Nat} {b : UInt8} {l : List UInt8} (h : btcTx.drop p = b :: l) :
    btcTx.drop (p + 1) = l := by
  rw [← List.drop_drop, h]
  rfl

theorem remaining_eq {btcTx : List UInt8} {p : Nat} {l : List UInt8} (h : btcTx.drop p = l) (hp : p ≤ btcTx.length) :
    ReadStream.remaining ⟨btcTx, p⟩ = l.length := by
  rw [remaining_of_le hp, ← h, List.length_drop]

/-- One turn of the loop. -/
theorem loop_succ (popData : List UInt8) {btcTx : List UInt8} {p : Nat} {a b c : UInt8} {l : List UInt8}
    (h : btcTx.drop p = a :: b :: c :: l) (hp : p ≤ btcTx.length) (hl : ¬l.length < 3) (fuel : Nat) :
    loop popData (fuel + 1) ⟨btcTx, p⟩ =
      if a ≠ 0x92 then loop popData fuel ⟨btcTx, p + 1⟩
      else if b ≠ 0x7a then loop popData fuel ⟨btcTx, p + 2⟩
      else if c ≠ 0x59 then loop popData fuel ⟨btcTx, p + 3⟩
      else (matchesHere popData >>= fun found => if found then pure true else loop popData fuel) ⟨btcTx, p + 3⟩ := by
  have h1 := drop_succ h
  have h2 := drop_succ h1
  have hmore : ¬ReadStream.remaining ⟨btcTx, p⟩ ≤ 5 := by
    rw [remaining_eq h hp]
    simp only [List.length_cons]
    omega
  simp only [loop, bind, EStateM.bind, run_get, hmore, ↓reduceIte,
    compareMagic_eq h]
  by_cases ha : a = 0x92
  . simp only [ha, decide_true, Bool.not_true, Bool.false_eq_true, ↓reduceIte, ne_eq, not_true_eq_false,
      EStateM.bind, compareMagic_eq h1]
    by_cases hb : b = 0x7a
    . simp only [hb, decide_true, Bool.not_true, Bool.false_eq_true, ↓reduceIte, not_true_eq_false,
        EStateM.bind, compareMagic_eq h2]
      by_cases hc : c = 0x59
      . simp [hc, EStateM.bind]
      . simp [hc]
    . simp [hb]
  . simp [ha]

theorem loop_ends (popData btcTx : List UInt8) (p : Nat) (l : List UInt8) (h : btcTx.drop p = l)
    (hp : p ≤ btcTx.length) (fuel : Nat) (hfuel : l.length < fuel) :
    Ends (loop popData fuel ⟨btcTx, p⟩) (verdict popData btcTx (reachedFrom p l)) := by
  obtain ⟨fuel, rfl⟩ : ∃ n, fuel = n + 1 := ⟨fuel - 1, by omega⟩
  have hlen : p + l.length = btcTx.length := by
    rw [← h, List.length_drop]
    omega
  induction p, l using reachedFrom.induct generalizing fuel with
  | case1 p a b c l hl =>
    simp only [reachedFrom, hl, ↓reduceIte]
    have : ReadStream.remaining ⟨btcTx, p⟩ ≤ 5 := by
      rw [remaining_eq h hp]
      simp only [List.length_cons]
      omega
    simp only [loop, bind, EStateM.bind, run_get, this, ↓reduceIte]
    exact ⟨_, rfl⟩
  | case2 p a b c l hl ha ih =>
    simp only [List.length_cons] at hlen hfuel
    rw [reachedFrom, if_neg hl, if_pos ha, loop_succ popData h hp hl, if_pos ha]
    obtain ⟨fuel, rfl⟩ : ∃ n, fuel = n + 1 := ⟨fuel - 1, by omega⟩
    exact ih (drop_succ h) (by omega) fuel (by simp only [List.length_cons]; omega) (by simp only [List.length_cons]; omega)
  | case3 p a b c l hl ha hb ih =>
    simp only [List.length_cons] at hlen hfuel
    rw [reachedFrom, if_neg hl, if_neg ha, if_pos hb, loop_succ popData h hp hl, if_neg ha, if_pos hb]
    obtain ⟨fuel, rfl⟩ : ∃ n, fuel = n + 1 := ⟨fuel - 1, by omega⟩
    exact ih (drop_succ (drop_succ h)) (by omega) fuel (by simp only [List.length_cons]; omega)
      (by simp only [List.length_cons]; omega)
  | case4 p a b c l hl ha hb hc ih =>
    simp only [List.length_cons] at hlen hfuel
    rw [reachedFrom, if_neg hl, if_neg ha, if_neg hb, if_pos hc, loop_succ popData h hp hl, if_neg ha, if_neg hb,
      if_pos hc]
    obtain ⟨fuel, rfl⟩ : ∃ n, fuel = n + 1 := ⟨fuel - 1, by omega⟩
    exact ih (drop_succ (drop_succ (drop_succ h))) (by omega) fuel (by omega) (by omega)
  | case5 p a b c l hl ha hb hc ih =>
    simp only [List.length_cons] at hlen hfuel
    have h3 := drop_succ (drop_succ (drop_succ h))
    rw [reachedFrom, if_neg hl, if_neg ha, if_neg hb, if_neg hc, loop_succ popData h hp hl, if_neg ha, if_neg hb,
      if_neg hc, verdict, List.map_cons, List.find?_cons]
    obtain ⟨x, l', rfl⟩ : ∃ x l', l = x :: l' := by
      cases l with
      | nil => simp at hl
      | cons x l' => exact ⟨x, l', rfl⟩
    have hdecides := matchesHere_decides popData h3
    obtain ⟨fuel, rfl⟩ : ∃ n, fuel = n + 1 := ⟨fuel - 1, by omega⟩
    simp only [bind, EStateM.bind]
    cases ho : outcomeAt popData btcTx p with
    | gives =>
      rw [ho] at hdecides
      rw [show matchesHere popData ⟨btcTx, p + 3⟩ = _ from hdecides]
      exact ⟨_, rfl⟩
    | differs =>
      rw [ho] at hdecides
      rw [show matchesHere popData ⟨btcTx, p + 3⟩ = _ from hdecides]
      exact ih h3 (by omega) fuel (by simp only [List.length_cons] at *; omega)
        (by simp only [List.length_cons] at *; omega)
    | cut =>
      rw [ho] at hdecides
      obtain ⟨path, s, hr⟩ := hdecides
      rw [hr]
      exact ⟨_, _, rfl⟩
    | beyondEnd =>
      rw [ho] at hdecides
      obtain ⟨s, hr⟩ := hdecides
      rw [hr]
      exact ⟨_, rfl⟩
  | case6 l p hl =>
    have hshort : l.length < 3 := by
      cases l with
      | nil => simp
      | cons a l =>
        cases l with
        | nil => simp
        | cons b l =>
          cases l with
          | nil => simp
          | cons c l => exact (hl a b c l rfl).elim
    have : ReadStream.remaining ⟨btcTx, p⟩ ≤ 5 := by
      rw [remaining_eq h hp]
      omega
    rw [reachedFrom]
    . simp only [loop, bind, EStateM.bind, run_get, this, ↓reduceIte]
      exact ⟨_, rfl⟩
    . exact hl

theorem verdict_eq_some_iff {popData btcTx : List UInt8} {ps : List Nat} {o : Outcome} (ho : o ≠ .differs) :
    verdict popData btcTx ps = some o ↔
      ∃ before p after, ps = before ++ p :: after ∧ (∀ q ∈ before, outcomeAt popData btcTx q = .differs) ∧
        outcomeAt popData btcTx p = o := by
  rw [verdict, List.find?_map, Option.map_eq_some_iff]
  constructor
  . rintro ⟨p, hfind, hp⟩
    obtain ⟨_, before, after, happend, hbefore⟩ := List.find?_eq_some_iff_append.mp hfind
    refine ⟨before, p, after, happend, ?_, hp⟩
    intro q hq
    have := hbefore q hq
    simpa using this
  . rintro ⟨before, p, after, happend, hbefore, hp⟩
    refine ⟨p, ?_, hp⟩
    rw [List.find?_eq_some_iff_append]
    refine ⟨by simp [hp, ho], before, after, happend, ?_⟩
    intro q hq
    simp [hbefore q hq]

theorem slice_of_mem_reachedFrom {btcTx : List UInt8} {p q : Nat} {l : List UInt8} (h : btcTx.drop p = l)
    (hq : q ∈ reachedFrom p l) : slice btcTx q 3 = magic := by
  induction p, l using reachedFrom.induct with
  | case1 p a b c l hl => simp [reachedFrom, hl] at hq
  | case2 p a b c l hl ha ih =>
    rw [reachedFrom, if_neg hl, if_pos ha] at hq
    exact ih (drop_succ h) hq
  | case3 p a b c l hl ha hb ih =>
    rw [reachedFrom, if_neg hl, if_neg ha, if_pos hb] at hq
    exact ih (drop_succ (drop_succ h)) hq
  | case4 p a b c l hl ha hb hc ih =>
    rw [reachedFrom, if_neg hl, if_neg ha, if_neg hb, if_pos hc] at hq
    exact ih (drop_succ (drop_succ (drop_succ h))) hq
  | case5 p a b c l hl ha hb hc ih =>
    rw [reachedFrom, if_neg hl, if_neg ha, if_neg hb, if_neg hc] at hq
    cases List.mem_cons.mp hq with
    | inl heq =>
      simp only [ne_eq, Decidable.not_not] at ha hb hc
      rw [heq, slice, h, ha, hb, hc]
      rfl
    | inr hmem => exact ih (drop_succ (drop_succ (drop_succ h))) hmem
  | case6 l p hl =>
    rw [reachedFrom] at hq
    . cases hq
    . exact hl

end ContainsSplit

namespace SplitFormat

/-- Sections that give the data are the ones it is described by. -/
theorem gives_of_sections {t : Table} {btcTx : List UInt8} {popDataSize n position total : Nat} {popData : List UInt8}
    (h : t.sections btcTx popDataSize n position total = .ok popData) : t.Gives btcTx n position popData := by
  induction n generalizing position total popData with
  | zero =>
    cases h
    rfl
  | succ i ih =>
    simp only [Table.sections] at h
    split at h
    . cases h
    . split at h
      . next hle =>
        have hlen := length_slice hle
        cases hrest : t.sections btcTx popDataSize i (position + t.offset i + t.sectionSize popDataSize total i)
            (total + t.sectionSize popDataSize total i) with
        | error fault =>
          rw [hrest] at h
          cases h
        | ok rest =>
          rw [hrest] at h
          have heq : slice btcTx (position + t.offset i) (t.sectionSize popDataSize total i) ++ rest = popData :=
            Except.ok.inj h
          have hgives := ih hrest
          cases i with
          | zero =>
            rw [show rest = [] from hgives, List.append_nil] at heq
            rw [heq] at hlen
            rw [Table.Gives, hlen]
            exact ⟨hle, heq⟩
          | succ i =>
            simp only [Table.sectionSize, Nat.add_eq_zero_iff, Nat.succ_ne_self, and_false, ↓reduceIte] at *
            rw [Table.Gives, ← heq]
            refine ⟨hle, ?_, (List.take_left' hlen).symm, ?_⟩
            . rw [List.length_append, hlen]
              omega
            . rw [List.drop_left' hlen]
              exact hgives
      . cases h

theorem describesAt_of_gives {popData btcTx : List UInt8} {p : Nat} (hp : p ∈ reached btcTx)
    (h : outcomeAt popData btcTx p = .gives) : DescribesAt popData btcTx p := by
  refine ⟨ContainsSplit.slice_of_mem_reachedFrom rfl hp, ?_⟩
  rw [outcomeAt] at h
  split at h
  . cases h
  . next t ht =>
    refine ⟨t, ht, ?_⟩
    split at h
    . next bytes hbytes =>
      split at h
      . next heq =>
        rw [← heq] at hbytes
        exact gives_of_sections hbytes
      . cases h
    . cases h
    . cases h

/-- The scan gets to the magic bytes at `p`: every marker before them lies inside `btcTx`, with its sections, and
gives something else. -/
def Visits (popData btcTx : List UInt8) (p : Nat) : Prop :=
  ∃ before after, reached btcTx = before ++ p :: after ∧ ∀ q ∈ before, outcomeAt popData btcTx q = .differs

/-- No section of a visited marker starts behind the end of the transaction. -/
def StartsInside (popData btcTx : List UInt8) : Prop :=
  ∀ p, Visits popData btcTx p → outcomeAt popData btcTx p ≠ .beyondEnd

/-- If some marker describes the data, one that gives it is visited. -/
def NotHidden (popData btcTx : List UInt8) : Prop :=
  Describes popData btcTx → ∃ p, Visits popData btcTx p ∧ outcomeAt popData btcTx p = .gives

end SplitFormat

open SplitFormat

theorem verdict_reached_iff {popData btcTx : List UInt8} {o : Outcome} (ho : o ≠ .differs) :
    ContainsSplit.verdict popData btcTx (reached btcTx) = some o ↔
      ∃ p, Visits popData btcTx p ∧ outcomeAt popData btcTx p = o := by
  rw [ContainsSplit.verdict_eq_some_iff ho]
  constructor
  . rintro ⟨before, p, after, happend, hbefore, hp⟩
    exact ⟨p, ⟨before, after, happend, hbefore⟩, hp⟩
  . rintro ⟨p, ⟨before, after, happend, hbefore⟩, hp⟩
    exact ⟨before, p, after, happend, hbefore, hp⟩

theorem containsSplit_ends (popData btcTx : List UInt8) :
    (containsSplit popData btcTx = .ok true ↔ ContainsSplit.verdict popData btcTx (reached btcTx) = some .gives) ∧
      (containsSplit popData btcTx = .error .outOfBounds ↔
        ContainsSplit.verdict popData btcTx (reached btcTx) = some .beyondEnd) := by
  have hends := ContainsSplit.loop_ends popData btcTx 0 btcTx rfl (Nat.zero_le _) (btcTx.length + 1) (by omega)
  rw [← reached] at hends
  rw [containsSplit, decode, ofBytes]
  cases hv : ContainsSplit.verdict popData btcTx (reached btcTx) with
  | none =>
    rw [hv] at hends
    obtain ⟨s, hs⟩ := hends
    simp [hs]
  | some o =>
    rw [hv] at hends
    cases o with
    | gives =>
      obtain ⟨s, hs⟩ := hends
      simp [hs]
    | differs => exact hends.elim
    | cut =>
      obtain ⟨path, s, hs⟩ := hends
      simp [hs]
    | beyondEnd =>
      obtain ⟨s, hs⟩ := hends
      simp [hs]

theorem containsSplit_eq_true_iff {popData btcTx : List UInt8} :
    containsSplit popData btcTx = .ok true ↔ ∃ p, Visits popData btcTx p ∧ outcomeAt popData btcTx p = .gives :=
  (containsSplit_ends popData btcTx).1.trans (verdict_reached_iff (by decide))

theorem containsSplit_eq_outOfBounds_iff {popData btcTx : List UInt8} :
    containsSplit popData btcTx = .error .outOfBounds ↔
      ∃ p, Visits popData btcTx p ∧ outcomeAt popData btcTx p = .beyondEnd :=
  (containsSplit_ends popData btcTx).2.trans (verdict_reached_iff (by decide))

theorem startsInside_iff {popData btcTx : List UInt8} :
    StartsInside popData btcTx ↔ containsSplit popData btcTx ≠ .error .outOfBounds := by
  rw [ne_eq, containsSplit_eq_outOfBounds_iff]
  simp [StartsInside]

/-- Every read stays inside the transaction just when no section starts behind its end. -/
theorem containsSplit_in_bounds_iff (popData btcTx : List UInt8) :
    containsSplit popData btcTx ≠ .error .outOfBounds ↔ StartsInside popData btcTx :=
  startsInside_iff.symm

/-- One chunk, whose section starts fifteen bytes from the start of six. -/
theorem containsSplit_offset_beyond_end :
    containsSplit [0] [0x92, 0x7a, 0x59, 0x10, 0xf0, 0x00] = .error .outOfBounds := by
  decide

/-- `containsSplit` has a result, which is whether the transaction describes the data. -/
def RecognisesExactly (popData btcTx : List UInt8) : Prop :=
  containsSplit popData btcTx ≠ .error .outOfBounds ∧
    (containsSplit popData btcTx = .ok true ↔ Describes popData btcTx)

end AltIntegration
