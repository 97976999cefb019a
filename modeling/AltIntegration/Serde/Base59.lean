import AltIntegration.Serde.Base58

/-!
This module contains `base59.cpp` on the bytes of a string, with its table and its work buffer, and shows that both
encodings are bijective. A byte from 128 on lies outside the table.
-/

namespace AltIntegration.Base59

open Radix

/-- `g_Base59Alphabet` -/
def alphabet : List UInt8 := base59Alphabet.map (fun c => UInt8.ofNat c.toNat)

/-- `g_Indexes` -/
def indexes : List Int :=
  [-1, -1, -1, -1, -1, -1, -1, -1, -1, -1, -1, -1, -1, -1, -1, -1, -1, -1, -1, -1, -1, -1, -1, -1, -1, -1, -1,
  -1, -1, -1, -1, -1, -1, -1, -1, -1, -1, -1, -1, -1, -1, -1, -1, -1, -1, -1, -1, -1, 58, 0, 1, 2, 3, 4, 5,
  6, 7, 8, -1, -1, -1, -1, -1, -1, -1, 9, 10, 11, 12, 13, 14, 15, 16, -1, 17, 18, 19, 20, 21, -1, 22, 23, 24,
  25, 26, 27, 28, 29, 30, 31, 32, -1, -1, -1, -1, -1, -1, 33, 34, 35, 36, 37, 38, 39, 40, 41, 42, 43, -1, 44,
  45, 46, 47, 48, 49, 50, 51, 52, 53, 54, 55, 56, 57, -1, -1, -1, -1, -1]

/-- The index that a `char` stands for: it is signed, and becomes a `size_t`. -/
def charIndex (c : UInt8) : Nat := if c < 128 then c.toNat else c.toNat + 2 ^ 64 - 256

/-- The digits of the input, from the table -/
def readDigits : List UInt8 → Except Failure (List Nat)
  | [] => .ok []
  | c :: input =>
    match indexes[charIndex c]? with
    | none => .error .outOfBounds
    | some digit59 =>
      if digit59 < 0 then
        .error (.invalid ["decode-base-59"])
      else
        (readDigits input).map (fun digits => digit59.toNat :: digits)

/-- `temp[--j] = x`, `count` times; `out` are the cells from `j` on. -/
def fill (x : UInt8) : Nat → Nat → List UInt8 → Except Failure (List UInt8)
  | 0, _, out => .ok out
  | _ + 1, 0, _ => .error .outOfBounds
  | count + 1, j + 1, out => fill x count j (x :: out)

/-- `EncodeBase59` -/
def encode (buf : List UInt8) : Except Failure (List UInt8) :=
  let input := buf.map UInt8.toNat
  let zeroCount := leadingZeros input
  let size := 2 * input.length
  match convert 256 59 size (input.dropWhile isZero) [] with
  | none => .error .outOfBounds
  | some temp =>
    let temp := temp.dropWhile isZero
    fill (alphabet.getD 0 0) zeroCount (size - temp.length) (temp.map (fun d => alphabet.getD d 0))

/-- `DecodeBase59` -/
def decode (input : List UInt8) : Except Failure (List UInt8) :=
  match readDigits input with
  | .error e => .error e
  | .ok input59 =>
    let zeroCount := leadingZeros input59
    match convert 59 256 input.length (input59.dropWhile isZero) [] with
    | none => .error .outOfBounds
    | some temp =>
      let temp := temp.dropWhile isZero
      -- `temp.begin() + j - zeroCount`, where the cells before `j` are zero
      if input.length - temp.length < zeroCount then
        .error .outOfBounds
      else
        .ok (List.replicate zeroCount 0 ++ temp.map UInt8.ofNat)

def toChars (bytes : List UInt8) : List Char := bytes.map (fun b => Char.ofNat b.toNat)

section Digits

theorem toNat_charOfNat : ∀ n < 256, (Char.ofNat n).toNat = n := by
  intro n hn
  have hvalid : n.isValidChar := .inl (by omega)
  rw [Char.ofNat, dif_pos hvalid]
  rfl

theorem indexes_eq : ∀ n < 128, indexes[n]? =
    some ((base59Alphabet.idxOf? (Char.ofNat n)).elim (-1) (fun d => (d : Int))) := by
  decide +kernel

theorem readDigits_eq (input : List UInt8) : readDigits input = base59Digits (toChars input) := by
  induction input with
  | nil => rfl
  | cons c input ih =>
    have hchar := toNat_charOfNat c.toNat c.toNat_lt
    rw [readDigits, toChars, List.map_cons, base59Digits, hchar, charIndex]
    by_cases hc : c < 128
    . have hlt : c.toNat < 128 := UInt8.lt_iff_toNat_lt.mp hc
      rw [if_pos hc, if_neg (by omega), indexes_eq _ hlt, ih]
      cases base59Alphabet.idxOf? (Char.ofNat c.toNat) with
      | none => rfl
      | some d =>
        have hnat : ¬(d : Int) < 0 := Int.not_lt.mpr (Int.natCast_nonneg d)
        exact if_neg hnat
    . have hge : 128 ≤ c.toNat := Nat.le_of_not_lt (fun hlt => hc (UInt8.lt_iff_toNat_lt.mpr hlt))
      have hnone : indexes[c.toNat + 2 ^ 64 - 256]? = none := by
        apply List.getElem?_eq_none
        have hlen : indexes.length = 128 := rfl
        omega
      rw [if_neg hc, if_pos hge, hnone]

end Digits

section Buffer

theorem fill_eq (x : UInt8) (count j : Nat) (out : List UInt8) :
    fill x count j out = if count ≤ j then .ok (List.replicate count x ++ out) else .error .outOfBounds := by
  induction count generalizing j out with
  | zero => simp [fill]
  | succ count ih =>
    cases j with
    | zero => simp [fill]
    | succ j =>
      rw [fill, ih]
      simp only [Nat.add_le_add_iff_right]
      split
      . rw [List.replicate_succ', List.append_assoc, List.singleton_append]
      . rfl

theorem toChars_symbol : ∀ d < 59, Char.ofNat (alphabet.getD d 0).toNat = symbol base59Alphabet d := by
  decide

/-- The digits that `convert` leaves take the cells that the leading zeros do not need. -/
theorem length_convert_le {base target cells : Nat} {input out : List Nat} (hbase : 1 < base) (htarget : 1 < target) {k : Nat}
    (hk : base ≤ target ^ k) (hinput : ∀ d ∈ input, d < base)
    (h : convert base target cells (input.dropWhile isZero) [] = some out) :
    k * leadingZeros input + (out.dropWhile isZero).length ≤ k * input.length := by
  have hlen := length_eq_add input
  have hdrop : ∀ d ∈ input.dropWhile isZero, d < base := fun d hd => hinput d ((List.dropWhile_sublist _).subset hd)
  have hvalue := value_lt hbase hdrop
  rw [convert_dropWhile htarget h, List.length_reverse, hlen, Nat.mul_add]
  apply Nat.add_le_add_left
  rw [Nat.digits_length_le_iff htarget, Nat.pow_mul]
  exact Nat.lt_of_lt_of_le hvalue (Nat.pow_le_pow_left hk _)

theorem map_toChars {digits : List Nat} (h : ∀ d ∈ digits, d < 59) :
    toChars (digits.map (fun d => alphabet.getD d 0)) = digits.map (symbol base59Alphabet) := by
  rw [toChars, List.map_map]
  apply List.map_congr_left
  intro d hd
  exact toChars_symbol d (h d hd)

/-- `EncodeBase59` stays in its buffer. -/
theorem encode_toChars (v : List UInt8) : (encode v).map toChars = encodeBase59 v := by
  unfold encode encodeBase59
  simp only
  cases hconv : convert 256 59 (2 * (v.map UInt8.toNat).length) ((v.map UInt8.toNat).dropWhile isZero) [] with
  | none => rfl
  | some temp =>
    have hfits := length_convert_le (by omega) (by omega) (k := 2) (by omega) (map_toNat_lt v) hconv
    have hlt : ∀ d ∈ temp.dropWhile isZero, d < 59 := by
      intro d hd
      exact convert_lt (by omega) (by simp) hconv d ((List.dropWhile_sublist _).subset hd)
    simp only
    rw [fill_eq, if_pos (by omega), Except.map, toChars, List.map_append, List.map_replicate, ← toChars, map_toChars hlt]
    rfl

/-- `DecodeBase59` stays in its buffer. -/
theorem decode_eq (s : List UInt8) : decode s = decodeBase59 (toChars s) := by
  unfold decode decodeBase59
  rw [readDigits_eq]
  cases hdigits : base59Digits (toChars s) with
  | error e => rfl
  | ok input59 =>
    have hinput := base59Digits_ok hdigits
    have hlen : (toChars s).length = input59.length := by rw [hinput.2, List.length_map]
    have hlen' : s.length = input59.length := by rw [← hlen, toChars, List.length_map]
    simp only [hlen, hlen']
    cases hconv : convert 59 256 input59.length (input59.dropWhile isZero) [] with
    | none => rfl
    | some temp =>
      have hfits := length_convert_le (by omega) (by omega) (k := 1) (by omega) hinput.1 hconv
      simp only
      rw [if_neg (by omega)]

end Buffer

section Codec

theorem decodeBase59_encodeBase59 (v : List UInt8) : ∃ s, encodeBase59 v = .ok s ∧ decodeBase59 s = .ok v := by
  have hdigits := map_toNat_lt v
  refine ⟨_, encodeBase59_eq v, ?_⟩
  rw [decodeBase59_map (recode_lt (by omega)), recode_recode (by omega) (by omega) hdigits, List.map_map]
  simp [Function.comp_def]

theorem decodeBase58_encodeBase58 (v : List UInt8) : ∃ s, encodeBase58 v = .ok s ∧ decodeBase58 s = .ok v := by
  have hdigits := map_toNat_lt v
  refine ⟨_, encodeBase58_eq v, ?_⟩
  rw [decodeBase58_map (recode_lt (by omega)), recode_recode (by omega) (by omega) hdigits, List.map_map]
  simp [Function.comp_def]

theorem decode_encode (v : List UInt8) : ∃ s, encode v = .ok s ∧ decode s = .ok v := by
  obtain ⟨chars, hchars, hdecode⟩ := decodeBase59_encodeBase59 v
  have hmap := encode_toChars v
  rw [hchars] at hmap
  cases hencode : encode v with
  | error e =>
    rw [hencode] at hmap
    cases hmap
  | ok s =>
    rw [hencode] at hmap
    cases hmap
    rw [← decode_eq] at hdecode
    exact ⟨s, rfl, hdecode⟩

theorem toChars_injective {s s' : List UInt8} (h : toChars s = toChars s') : s = s' := by
  apply List.map_injective_iff.mpr _ h
  intro b b' hb
  have hnat : (Char.ofNat b.toNat).toNat = (Char.ofNat b'.toNat).toNat := congrArg Char.toNat hb
  rw [toNat_charOfNat _ b.toNat_lt, toNat_charOfNat _ b'.toNat_lt] at hnat
  exact UInt8.toNat_inj.mp hnat

/-- A string over an alphabet is the string of its digits. -/
theorem eq_map_digits {α : Type} {symbols s : List α} (x : α) (h : ∀ c ∈ s, c ∈ symbols) :
    ∃ digits : List Nat, (∀ d ∈ digits, d < symbols.length) ∧ s = digits.map (fun d => symbols.getD d x) := by
  induction s with
  | nil => exact ⟨[], by simp, rfl⟩
  | cons c s ih =>
    rw [List.forall_mem_cons] at h
    obtain ⟨d, hd, heq⟩ := List.getElem_of_mem h.1
    obtain ⟨digits, hdigits, hs⟩ := ih h.2
    refine ⟨d :: digits, List.forall_mem_cons.mpr ⟨hd, hdigits⟩, ?_⟩
    rw [List.map_cons, List.getD_eq_getElem?_getD, List.getElem?_eq_getElem hd, heq, Option.getD_some, ← hs]

theorem encode_decode {s : List UInt8} (h : ∀ c ∈ s, c ∈ alphabet) : ∃ v, decode s = .ok v ∧ encode v = .ok s := by
  obtain ⟨digits, hdigits, hs⟩ := eq_map_digits 0 h
  have hchars : toChars s = digits.map (symbol base59Alphabet) := by rw [hs, map_toChars hdigits]
  refine ⟨(recode 59 256 digits).map UInt8.ofNat, ?_, ?_⟩
  . rw [decode_eq, hchars, decodeBase59_map hdigits]
  . have hencode := encode_toChars ((recode 59 256 digits).map UInt8.ofNat)
    rw [encodeBase59_decode hdigits, ← hchars] at hencode
    cases hv : encode ((recode 59 256 digits).map UInt8.ofNat) with
    | error e =>
      rw [hv] at hencode
      cases hencode
    | ok s' =>
      rw [hv] at hencode
      rw [toChars_injective (Except.ok.inj hencode)]

theorem encodeBase58_decodeBase58 {s : List Char} (h : ∀ c ∈ s, c ∈ base58Alphabet) :
    ∃ v, decodeBase58 s = .ok v ∧ encodeBase58 v = .ok s := by
  obtain ⟨digits, hdigits, hs⟩ := eq_map_digits '\x00' h
  rw [hs]
  exact ⟨_, decodeBase58_map hdigits, encodeBase58_decode hdigits⟩

end Codec

section Foreign

theorem indexes_alphabet : ∀ n < 128, indexes.getD n 0 < 0 ↔ UInt8.ofNat n ∉ alphabet := by
  decide +kernel

theorem alphabet_ascii : ∀ c ∈ alphabet, c < 128 := by
  decide +kernel

/-- The first byte that is not in the alphabet decides the error. -/
theorem readDigits_foreign {s : List UInt8} {c : UInt8} (h : s.find? (fun c => decide (c ∉ alphabet)) = some c) :
    readDigits s = .error (if c < 128 then .invalid ["decode-base-59"] else .outOfBounds) := by
  induction s with
  | nil => cases h
  | cons b s ih =>
    rw [List.find?_cons] at h
    rw [readDigits, charIndex]
    by_cases hb : b < 128
    . have hlt : b.toNat < 128 := UInt8.lt_iff_toNat_lt.mp hb
      have hindex := indexes_alphabet b.toNat hlt
      have hget : indexes[b.toNat]? = some (indexes.getD b.toNat 0) := by
        rw [List.getD_eq_getElem?_getD, List.getElem?_eq_getElem hlt, Option.getD_some]
      rw [UInt8.ofNat_toNat] at hindex
      rw [if_pos hb, hget]
      simp only [hindex]
      by_cases hmem : b ∈ alphabet
      . have hrest : s.find? (fun c => decide (c ∉ alphabet)) = some c := by simpa [hmem] using h
        rw [if_neg (Classical.not_not.mpr hmem), ih hrest]
        rfl
      . have heq : b = c := by simpa [hmem] using h
        rw [if_pos hmem, ← heq, if_pos hb]
    . have hmem : b ∉ alphabet := fun hmem => hb (alphabet_ascii b hmem)
      have heq : b = c := by simpa [hmem] using h
      have hge : 128 ≤ b.toNat := Nat.le_of_not_lt (fun hlt => hb (UInt8.lt_iff_toNat_lt.mpr hlt))
      have hnone : indexes[b.toNat + 2 ^ 64 - 256]? = none := by
        apply List.getElem?_eq_none
        have hlen : indexes.length = 128 := rfl
        omega
      rw [if_neg hb, hnone, ← heq, if_neg hb]

/-- A foreign byte is an error of the input, if the first one is ASCII. -/
theorem decode_foreign_iff (s : List UInt8) :
    ((∃ c ∈ s, c ∉ alphabet) → decode s = .error (.invalid ["decode-base-59"])) ↔
      ∀ c, s.find? (fun c => decide (c ∉ alphabet)) = some c → c < 128 := by
  constructor
  . intro h c hc
    have hmem : ∃ c ∈ s, c ∉ alphabet := ⟨c, List.mem_of_find?_eq_some hc, by simpa using List.find?_some hc⟩
    have herror := h hmem
    rw [decode, readDigits_foreign hc] at herror
    simp only at herror
    by_cases hlt : c < 128
    . exact hlt
    . rw [if_neg hlt] at herror
      cases herror
  . intro h hmem
    cases hfind : s.find? (fun c => decide (c ∉ alphabet)) with
    | none =>
      rw [List.find?_eq_none] at hfind
      obtain ⟨c, hc, hforeign⟩ := hmem
      exact absurd (decide_eq_true hforeign) (hfind c hc)
    | some c => rw [decode, readDigits_foreign hfind, if_pos (h c hfind)]

end Foreign

section Assertion

/-- The buffer of `DecodeBase58` is large enough for every string. -/
theorem scanBase58_ne_assertion (size maxLength zeroes : Nat) (psz : List Char) (done : List Nat)
    (hsize : (value 58 done + 1) * 58 ^ psz.length ≤ 256 ^ size) :
    scanBase58 size maxLength zeroes psz (Nat.digits 256 (value 58 done)) ≠ .error .assertion := by
  induction psz generalizing done with
  | nil => simp [scanBase58]
  | cons c psz ih =>
    rw [scanBase58]
    split
    . simp
    . split
      . simp
      . next d hd =>
        have hlt : d < 58 := (symbol_of_idxOf? hd).2
        have hnext := value_concat_le hlt hsize
        rw [mulAdd_digits (by omega) (by omega) size _ _ hnext.2, ← value_concat]
        simp only
        split
        . simp
        . exact ih _ hnext.1

theorem decodeBase58_ne_assertion (str : List Char) : decodeBase58 str ≠ .error .assertion := by
  have hscan := scanBase58_ne_assertion
    (((str.dropWhile isSpace).dropWhile (· == '1')).length * 733 / 1000 + 1) (str.length + 1)
    ((str.dropWhile isSpace).takeWhile (· == '1')).length ((str.dropWhile isSpace).dropWhile (· == '1')) []
    (by simpa [value_nil] using pow_58_le _)
  rw [value_nil, Nat.digits_zero] at hscan
  unfold decodeBase58
  split
  . simp
  . simp only
    split
    . simp
    . split
      . next e he =>
        rw [he] at hscan
        intro herror
        apply hscan
        rw [Except.error.inj herror]
      . split
        . simp
        . simp

end Assertion

section Main

theorem base_codecs_iff (s : List UInt8) :
    (∀ v, ∃ t, encode v = .ok t ∧ decode t = .ok v) ∧
    (∀ v, ∃ t, encodeBase58 v = .ok t ∧ decodeBase58 t = .ok v) ∧
    (∀ t, (∀ c ∈ t, c ∈ alphabet) → ∃ v, decode t = .ok v ∧ encode v = .ok t) ∧
    (∀ t, (∀ c ∈ t, c ∈ base58Alphabet) → ∃ v, decodeBase58 t = .ok v ∧ encodeBase58 v = .ok t) ∧
    (∀ t, decodeBase58 t ≠ .error .assertion) ∧
    (((∃ c ∈ s, c ∉ alphabet) → decode s = .error (.invalid ["decode-base-59"])) ↔
      ∀ c, s.find? (fun c => decide (c ∉ alphabet)) = some c → c < 128) :=
  ⟨decode_encode, decodeBase58_encodeBase58, fun _ => encode_decode, fun _ => encodeBase58_decodeBase58,
    decodeBase58_ne_assertion, decode_foreign_iff s⟩

theorem decode_high_byte : (128 : UInt8) ∉ alphabet ∧ decode [128] = .error .outOfBounds := by
  decide

end Main

end AltIntegration.Base59
