import AltIntegration.Data.Radix
import AltIntegration.Serde.ReadStream

/-!
This module contains the text encodings of `base58.cpp` and `base59.cpp`. A string is the list of its characters;
a digit is its position in the alphabet.
-/

namespace AltIntegration

open Radix

/-- `IsSpace` of `strutil.hpp` -/
def isSpace (c : Char) : Bool :=
  c == ' ' || c == '\x0c' || c == '\n' || c == '\r' || c == '\t' || c == '\x0b'

/-- `pszBase58`; `mapBase58` is the position of a character in it -/
def base58Alphabet : List Char := "123456789ABCDEFGHJKLMNPQRSTUVWXYZabcdefghijkmnopqrstuvwxyz".toList

/-- `g_Base59Alphabet`; `g_Indexes` is the position of a character in it -/
def base59Alphabet : List Char := "123456789ABCDEFGHJKLMNPQRSTUVWXYZabcdefghijkmnopqrstuvwxyz0".toList

def symbol (alphabet : List Char) (digit : Nat) : Char := alphabet.getD digit '\x00'

/-- Appends the digits of a string in base `base` to those of a number in base `target`. -/
def accumulate (base target cells : Nat) : List Nat → List Nat → Option (List Nat)
  | [], digits => some digits
  | d :: rest, digits =>
    match mulAdd target base cells digits d with
    | none => none
    | some digits' => accumulate base target cells rest digits'

/-- The loop of `DecodeBase58`. It stops at the first space. -/
def scanBase58 (size maxLength zeroes : Nat) : List Char → List Nat → Except Failure (List Char × List Nat)
  | [], digits => .ok ([], digits)
  | c :: psz, digits =>
    if isSpace c then
      .ok (c :: psz, digits)
    else
      match base58Alphabet.idxOf? c with
      | none => .error (.invalid ["decode-base-58"])
      | some carry =>
        match mulAdd 256 58 size digits carry with
        | none => .error .assertion
        | some digits' =>
          if maxLength < digits'.length + zeroes then
            .error (.invalid ["decode-base-58"])
          else
            scanBase58 size maxLength zeroes psz digits'

/-- `DecodeBase58` -/
def decodeBase58 (str : List Char) : Except Failure (List UInt8) :=
  if '\x00' ∈ str then
    .error (.invalid ["decode-base-58"])
  else
    let psz := str.dropWhile isSpace
    let maxLength := str.length + 1
    let zeroes := (psz.takeWhile (· == '1')).length
    let rest := psz.dropWhile (· == '1')
    if maxLength < zeroes then
      .error (.invalid ["decode-base-58"])
    else
      match scanBase58 (rest.length * 733 / 1000 + 1) maxLength zeroes rest [] with
      | .error e => .error e
      | .ok (rest', digits) =>
        if rest'.dropWhile isSpace = [] then
          .ok (List.replicate zeroes 0 ++ digits.reverse.map UInt8.ofNat)
        else
          .error (.invalid ["decode-base-58"])

/-- `EncodeBase58` -/
def encodeBase58 (bytes : List UInt8) : Except Failure (List Char) :=
  let digits := bytes.map UInt8.toNat
  let zeroes := leadingZeros digits
  let rest := digits.dropWhile isZero
  match accumulate 256 58 (rest.length * 138 / 100 + 1) rest [] with
  | none => .error .assertion
  | some b58 => .ok (List.replicate zeroes '1' ++ (b58.reverse.dropWhile isZero).map (symbol base58Alphabet))

/-- `EncodeBase59` -/
def encodeBase59 (buf : List UInt8) : Except Failure (List Char) :=
  let input := buf.map UInt8.toNat
  match convert 256 59 (2 * input.length) (input.dropWhile isZero) [] with
  | none => .error .outOfBounds
  | some temp => .ok (List.replicate (leadingZeros input) '1' ++ (temp.dropWhile isZero).map (symbol base59Alphabet))

/-- The digits of a string. The index of a character outside ASCII lies outside `g_Indexes`. -/
def base59Digits : List Char → Except Failure (List Nat)
  | [] => .ok []
  | c :: input =>
    if 128 ≤ c.toNat then
      .error .outOfBounds
    else
      match base59Alphabet.idxOf? c with
      | none => .error (.invalid ["decode-base-59"])
      | some digit59 => (base59Digits input).map (fun digits => digit59 :: digits)

/-- `DecodeBase59` -/
def decodeBase59 (input : List Char) : Except Failure (List UInt8) :=
  match base59Digits input with
  | .error e => .error e
  | .ok input59 =>
    match convert 59 256 input.length (input59.dropWhile isZero) [] with
    | none => .error .outOfBounds
    | some temp => .ok (List.replicate (leadingZeros input59) 0 ++ (temp.dropWhile isZero).map UInt8.ofNat)

section

variable {alphabet : List Char} {base cells : Nat}

theorem accumulate_digits (target : Nat) (hbase : 0 < base) (htarget : 1 < target) {l : List Nat} (h : ∀ d ∈ l, d < base)
    (done : List Nat) (hcells : (value base done + 1) * base ^ l.length ≤ target ^ cells) :
    accumulate base target cells l (Nat.digits target (value base done)) =
      some (Nat.digits target (value base (done ++ l))) := by
  induction l generalizing done with
  | nil => rw [accumulate, List.append_nil]
  | cons d l ih =>
    rw [List.forall_mem_cons] at h
    have hnext := value_concat_le h.1 hcells
    rw [accumulate, mulAdd_digits htarget hbase cells _ _ hnext.2, ← value_concat]
    simp only []
    rw [ih h.2 _ hnext.1, List.append_assoc, List.singleton_append]

theorem symbol_of_idxOf? {c : Char} {d : Nat} (h : alphabet.idxOf? c = some d) :
    symbol alphabet d = c ∧ d < alphabet.length := by
  rw [List.idxOf?_eq_some_iff] at h
  cases h with
  | intro hlt h => exact ⟨by simp [symbol, hlt, h.1], hlt⟩

theorem map_toNat_ofNat {digits : List Nat} (h : ∀ d ∈ digits, d < 256) :
    (digits.map UInt8.ofNat).map UInt8.toNat = digits := by
  rw [List.map_map]
  nth_rewrite 2 [← List.map_id digits]
  apply List.map_congr_left
  intro d hd
  simp [Nat.mod_eq_of_lt (h d hd)]

theorem map_toNat_lt (bytes : List UInt8) : ∀ d ∈ bytes.map UInt8.toNat, d < 256 := by
  intro d hd
  rw [List.mem_map] at hd
  cases hd with
  | intro b h =>
    rw [← h.2]
    exact b.toNat_lt

end

section

variable {digits : List Nat}

theorem base58Alphabet_idxOf? : ∀ d < 58, base58Alphabet.idxOf? (symbol base58Alphabet d) = some d := by decide

theorem base58_not_space : ∀ d < 58, isSpace (symbol base58Alphabet d) = false := by decide

theorem base58_ne_zero : ∀ d < 58, symbol base58Alphabet d ≠ '\x00' := by decide

theorem base58_one : ∀ d < 58, (symbol base58Alphabet d == '1') = isZero d := by decide

theorem base59Alphabet_idxOf? : ∀ d < 59, base59Alphabet.idxOf? (symbol base59Alphabet d) = some d := by decide

theorem base59_ascii : ∀ d < 59, (symbol base59Alphabet d).toNat < 128 := by decide

theorem pow_58_le (n : Nat) : 58 ^ n ≤ 256 ^ (n * 733 / 1000 + 1) := by
  have hroot : (58 ^ n) ^ 71 ≤ (256 ^ (n * 733 / 1000 + 1)) ^ 71 := by
    calc
      (58 ^ n) ^ 71 = (58 ^ 71) ^ n := Nat.pow_right_comm ..
      _ ≤ (256 ^ 52) ^ n := Nat.pow_le_pow_left (by decide) n
      _ = 256 ^ (52 * n) := by rw [Nat.pow_mul]
      _ ≤ 256 ^ ((n * 733 / 1000 + 1) * 71) := Nat.pow_le_pow_right (by omega) (by omega)
      _ = (256 ^ (n * 733 / 1000 + 1)) ^ 71 := by rw [Nat.pow_mul]
  exact (Nat.pow_le_pow_iff_left (by omega)).mp hroot

theorem pow_256_le (n : Nat) : 256 ^ n ≤ 58 ^ (n * 138 / 100 + 1) := by
  have hroot : (256 ^ n) ^ 100 ≤ (58 ^ (n * 138 / 100 + 1)) ^ 100 := by
    calc
      (256 ^ n) ^ 100 = (256 ^ 100) ^ n := Nat.pow_right_comm ..
      _ ≤ (58 ^ 138) ^ n := Nat.pow_le_pow_left (by decide) n
      _ = 58 ^ (138 * n) := by rw [Nat.pow_mul]
      _ ≤ 58 ^ ((n * 138 / 100 + 1) * 100) := Nat.pow_le_pow_right (by omega) (by omega)
      _ = (58 ^ (n * 138 / 100 + 1)) ^ 100 := by rw [Nat.pow_mul]
  exact (Nat.pow_le_pow_iff_left (by omega)).mp hroot

/-- No assertion fails and no check on the length does. -/
theorem scanBase58_map (size maxLength zeroes : Nat) {l : List Nat} (h : ∀ d ∈ l, d < 58) (done : List Nat)
    (hdone : ∀ d ∈ done, d < 58) (hsize : (value 58 done + 1) * 58 ^ l.length ≤ 256 ^ size)
    (hmax : zeroes + done.length + l.length ≤ maxLength) :
    scanBase58 size maxLength zeroes (l.map (symbol base58Alphabet)) (Nat.digits 256 (value 58 done)) =
      .ok ([], Nat.digits 256 (value 58 (done ++ l))) := by
  induction l generalizing done with
  | nil => rw [List.map_nil, scanBase58, List.append_nil]
  | cons d l ih =>
    rw [List.forall_mem_cons] at h
    rw [List.length_cons] at hmax
    have hconcat : ∀ x ∈ done ++ [d], x < 58 := by
      intro x hx
      rw [List.mem_append, List.mem_singleton] at hx
      cases hx with
      | inl hx => exact hdone x hx
      | inr hx => rw [hx]; exact h.1
    have hnext := value_concat_le h.1 hsize
    have hlen : (Nat.digits 256 (value 58 (done ++ [d]))).length ≤ done.length + 1 := by
      rw [Nat.digits_length_le_iff (by omega)]
      apply Nat.lt_of_lt_of_le (value_lt (by omega) hconcat)
      rw [List.length_append, List.length_singleton]
      exact Nat.pow_le_pow_left (by omega) _
    rw [List.map_cons, scanBase58, base58_not_space d h.1, base58Alphabet_idxOf? d h.1]
    simp only [Bool.false_eq_true, ↓reduceIte]
    rw [mulAdd_digits (by omega) (by omega) size _ _ hnext.2, ← value_concat]
    simp only []
    rw [if_neg (by omega), ih h.2 _ hconcat hnext.1, List.append_assoc, List.singleton_append]
    rw [List.length_append, List.length_singleton]
    omega

theorem scanBase58_ok {size maxLength zeroes : Nat} {psz rest : List Char} {ds ds' : List Nat}
    (h : scanBase58 size maxLength zeroes psz ds = .ok (rest, ds')) :
    ∃ l : List Nat, (∀ d ∈ l, d < 58) ∧ psz = l.map (symbol base58Alphabet) ++ rest := by
  induction psz generalizing ds with
  | nil =>
    cases h
    exact ⟨[], by simp, rfl⟩
  | cons c psz ih =>
    rw [scanBase58] at h
    split at h
    . cases h
      exact ⟨[], by simp, rfl⟩
    . split at h
      . cases h
      . next d hd =>
        split at h
        . cases h
        . split at h
          . cases h
          . cases ih h with
            | intro l hl =>
              have := symbol_of_idxOf? hd
              refine ⟨d :: l, List.forall_mem_cons.mpr ⟨this.2, hl.1⟩, ?_⟩
              rw [List.map_cons, this.1, hl.2, List.cons_append]

theorem base58_dropWhile (digits : List Nat) (h : ∀ d ∈ digits, d < 58) :
    (digits.map (symbol base58Alphabet)).dropWhile (· == '1') =
      (digits.dropWhile isZero).map (symbol base58Alphabet) := by
  induction digits with
  | nil => rfl
  | cons d digits ih =>
    rw [List.forall_mem_cons] at h
    rw [List.map_cons, List.dropWhile_cons, List.dropWhile_cons, base58_one d h.1, ih h.2]
    split
    . rfl
    . rw [List.map_cons]

theorem base58_takeWhile (digits : List Nat) (h : ∀ d ∈ digits, d < 58) :
    ((digits.map (symbol base58Alphabet)).takeWhile (· == '1')).length = leadingZeros digits := by
  induction digits with
  | nil => rfl
  | cons d digits ih =>
    rw [List.forall_mem_cons] at h
    rw [List.map_cons, leadingZeros, List.takeWhile_cons, List.takeWhile_cons, base58_one d h.1]
    split
    . rw [List.length_cons, List.length_cons, ih h.2, leadingZeros]
    . rfl

/-- The bytes of a string over the alphabet. -/
theorem decodeBase58_map (h : ∀ d ∈ digits, d < 58) :
    decodeBase58 (digits.map (symbol base58Alphabet)) = .ok ((recode 58 256 digits).map UInt8.ofNat) := by
  have hrest : ∀ d ∈ digits.dropWhile isZero, d < 58 := fun d hd => h d ((List.dropWhile_sublist _).subset hd)
  have hzero : '\x00' ∉ digits.map (symbol base58Alphabet) := by
    rw [List.mem_map]
    intro hmem
    cases hmem with
    | intro d hd => exact base58_ne_zero d (h d hd.1) hd.2
  have hspace : (digits.map (symbol base58Alphabet)).dropWhile isSpace = digits.map (symbol base58Alphabet) := by
    cases digits with
    | nil => rfl
    | cons d digits =>
      rw [List.forall_mem_cons] at h
      rw [List.map_cons, List.dropWhile_cons, base58_not_space d h.1]
      rfl
  have hlen := length_eq_add digits
  have hscan := scanBase58_map ((digits.dropWhile isZero).length * 733 / 1000 + 1) (digits.length + 1)
    (leadingZeros digits) hrest [] (by simp)
    (by simpa [value_nil] using pow_58_le _) (by rw [List.length_nil]; omega)
  rw [value_nil, Nat.digits_zero, List.nil_append, value_dropWhile] at hscan
  rw [decodeBase58, if_neg hzero, hspace]
  simp only [base58_takeWhile digits h, base58_dropWhile digits h, List.length_map]
  rw [if_neg (by omega), hscan]
  simp [recode]

/-- A string that decodes has all its symbols in the alphabet, but for spaces at both ends. -/
theorem decodeBase58_ok {str : List Char} {bytes : List UInt8} (h : decodeBase58 str = .ok bytes)
    (hhead : ∀ c ∈ str.head?, isSpace c = false) (hlast : ∀ c ∈ str.getLast?, isSpace c = false) :
    ∃ digits : List Nat, (∀ d ∈ digits, d < 58) ∧ str = digits.map (symbol base58Alphabet) := by
  have hspace : str.dropWhile isSpace = str := by
    cases str with
    | nil => rfl
    | cons c str =>
      rw [List.dropWhile_cons, hhead c (by simp)]
      rfl
  rw [decodeBase58] at h
  split at h
  . cases h
  . simp only [hspace] at h
    split at h
    . cases h
    . split at h
      . cases h
      . next rest ds hscan =>
        split at h
        . next hend =>
          cases scanBase58_ok hscan with
          | intro l hl =>
            have hrest : rest = [] := by
              by_contra hne
              have hall : ∀ c ∈ rest, isSpace c = true := by simpa using List.dropWhile_eq_nil_iff.mp hend
              have hmem := List.getLast_mem hne
              have hlast' : str.getLast? = some (rest.getLast hne) := by
                rw [← List.takeWhile_append_dropWhile (p := (· == '1')) (l := str), hl.2, ← List.append_assoc,
                  List.getLast?_append_of_ne_nil _ hne, List.getLast?_eq_some_getLast hne]
              have := hlast _ hlast'
              rw [hall _ hmem] at this
              cases this
            rw [hrest, List.append_nil] at hl
            have hone : ∀ c ∈ str.takeWhile (· == '1'), c = '1' := by
              intro c hc
              simpa using List.mem_takeWhile_imp hc
            refine ⟨List.replicate (str.takeWhile (· == '1')).length 0 ++ l, ?_, ?_⟩
            . intro d hd
              rw [List.mem_append] at hd
              cases hd with
              | inl hd =>
                rw [List.eq_of_mem_replicate hd]
                omega
              | inr hd => exact hl.1 d hd
            . rw [List.map_append, List.map_replicate, ← hl.2]
              have : List.replicate (str.takeWhile (· == '1')).length (symbol base58Alphabet 0) =
                  str.takeWhile (· == '1') := (List.eq_replicate_of_mem hone).symm
              rw [this, List.takeWhile_append_dropWhile]
        . cases h

theorem encodeBase58_eq (bytes : List UInt8) :
    encodeBase58 bytes = .ok ((recode 256 58 (bytes.map UInt8.toNat)).map (symbol base58Alphabet)) := by
  have hrest : ∀ d ∈ (bytes.map UInt8.toNat).dropWhile isZero, d < 256 :=
    fun d hd => map_toNat_lt bytes d ((List.dropWhile_sublist _).subset hd)
  have hacc := accumulate_digits 58 (by omega) (by omega) hrest []
    (by simpa [value_nil] using pow_256_le ((bytes.map UInt8.toNat).dropWhile isZero).length)
  rw [value_nil, Nat.digits_zero, List.nil_append, value_dropWhile] at hacc
  rw [encodeBase58]
  simp only [hacc, dropWhile_reverse_digits (by omega : 1 < 58)]
  rw [recode, List.map_append, List.map_replicate]
  rfl

theorem encodeBase58_decode (h : ∀ d ∈ digits, d < 58) :
    encodeBase58 ((recode 58 256 digits).map UInt8.ofNat) = .ok (digits.map (symbol base58Alphabet)) := by
  rw [encodeBase58_eq, map_toNat_ofNat (recode_lt (by omega)), recode_recode (by omega) (by omega) h]

theorem base59Digits_map (h : ∀ d ∈ digits, d < 59) :
    base59Digits (digits.map (symbol base59Alphabet)) = .ok digits := by
  induction digits with
  | nil => rfl
  | cons d digits ih =>
    rw [List.forall_mem_cons] at h
    have hascii := base59_ascii d h.1
    rw [List.map_cons, base59Digits, if_neg (by omega), base59Alphabet_idxOf? d h.1]
    simp only [ih h.2]
    rfl

theorem base59Digits_ok {input : List Char} (h : base59Digits input = .ok digits) :
    (∀ d ∈ digits, d < 59) ∧ input = digits.map (symbol base59Alphabet) := by
  induction input generalizing digits with
  | nil =>
    cases h
    exact ⟨by simp, rfl⟩
  | cons c input ih =>
    rw [base59Digits] at h
    split at h
    . cases h
    . split at h
      . cases h
      . next d hd =>
        have hc := symbol_of_idxOf? hd
        cases hrest : base59Digits input with
        | error e =>
          rw [hrest] at h
          cases h
        | ok rest =>
          rw [hrest] at h
          cases h
          have := ih hrest
          rw [List.forall_mem_cons, List.map_cons, hc.1, ← this.2]
          exact ⟨⟨hc.2, this.1⟩, rfl⟩

theorem decodeBase59_map (h : ∀ d ∈ digits, d < 59) :
    decodeBase59 (digits.map (symbol base59Alphabet)) = .ok ((recode 59 256 digits).map UInt8.ofNat) := by
  have hrest : ∀ d ∈ digits.dropWhile isZero, d < 59 := fun d hd => h d ((List.dropWhile_sublist _).subset hd)
  have hlen := length_eq_add digits
  have hsome : (convert 59 256 digits.length (digits.dropWhile isZero) []).isSome = true :=
    convert_isSome_of_le (by omega) hrest (by omega)
  rw [decodeBase59, base59Digits_map h]
  simp only [List.length_map]
  cases hconv : convert 59 256 digits.length (digits.dropWhile isZero) [] with
  | none =>
    rw [hconv] at hsome
    cases hsome
  | some temp =>
    simp only []
    rw [convert_dropWhile (by omega) hconv, value_dropWhile, recode, List.map_append, List.map_replicate]
    rfl

theorem decodeBase59_ok {input : List Char} {bytes : List UInt8} (h : decodeBase59 input = .ok bytes) :
    ∃ digits : List Nat, (∀ d ∈ digits, d < 59) ∧ input = digits.map (symbol base59Alphabet) := by
  rw [decodeBase59] at h
  split at h
  . cases h
  . next digits hdigits => exact ⟨digits, base59Digits_ok hdigits⟩

theorem encodeBase59_eq (bytes : List UInt8) :
    encodeBase59 bytes = .ok ((recode 256 59 (bytes.map UInt8.toNat)).map (symbol base59Alphabet)) := by
  have hrest : ∀ d ∈ (bytes.map UInt8.toNat).dropWhile isZero, d < 256 :=
    fun d hd => map_toNat_lt bytes d ((List.dropWhile_sublist _).subset hd)
  have hlen := length_eq_add (bytes.map UInt8.toNat)
  have hsome : (convert 256 59 (2 * (bytes.map UInt8.toNat).length)
      ((bytes.map UInt8.toNat).dropWhile isZero) []).isSome = true :=
    convert_isSome_of_le_sq (by omega) hrest (.inl (by omega))
  rw [encodeBase59]
  cases hconv : convert 256 59 (2 * (bytes.map UInt8.toNat).length) ((bytes.map UInt8.toNat).dropWhile isZero) [] with
  | none =>
    rw [hconv] at hsome
    cases hsome
  | some temp =>
    simp only []
    rw [convert_dropWhile (by omega) hconv, value_dropWhile, recode, List.map_append, List.map_replicate]
    rfl

theorem encodeBase59_decode (h : ∀ d ∈ digits, d < 59) :
    encodeBase59 ((recode 59 256 digits).map UInt8.ofNat) = .ok (digits.map (symbol base59Alphabet)) := by
  rw [encodeBase59_eq, map_toNat_ofNat (recode_lt (by omega)), recode_recode (by omega) (by omega) h]

end

end AltIntegration
