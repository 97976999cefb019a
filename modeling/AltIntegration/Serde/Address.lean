import AltIntegration.Crypto.Sha256
import AltIntegration.Serde.Base58
import AltIntegration.Serde.Serde

/-!
This module contains `Address` of `entities/address.hpp` and `address.cpp`.
-/

namespace AltIntegration.Serde

open ReadStream Radix

inductive AddressType where
  | standard
  | multisig
  deriving DecidableEq, Repr

def AddressType.toByte : AddressType → Nat
  | .standard => 1
  | .multisig => 3

namespace Address

def size : Nat := 30

def getDataPortionFromAddress (address : List Char) : List Char := address.take 25

def isMultisig (address : List Char) : Bool := address[29]? == some '0'

def getChecksumPortionFromAddress (address : List Char) (multisig : Bool) : List Char :=
  if multisig then (address.drop 25).take 4 else address.drop 25

def isBase58String (input : List Char) : Except Failure Unit := (decodeBase58 input).map (fun _ => ())

def isBase59String (input : List Char) : Except Failure Unit := (decodeBase59 input).map (fun _ => ())

def calculateChecksum (data : List Char) (multisig : Bool) : Except Failure (List Char) :=
  (encodeBase58 (sha256 (data.map (fun c => UInt8.ofNat c.toNat)))).map
    (fun checksum => checksum.take (if multisig then 4 else 5))

/-- The number in a slot of a multisig address. -/
def decodeNumber (input : List Char) : Except Failure Nat :=
  match decodeBase58 input with
  | .error e => .error e
  | .ok [] => .error .outOfBounds
  | .ok (b :: _) => .ok (b.toNat + 1)

/-- `return state.Invalid(reason)` when a check fails -/
def orReason {α : Type} (reason : String) : Except Failure α → Except Failure α
  | .error (.invalid path) => .error (.invalid (reason :: path))
  | result => result

/-- The check on `m` and `n` of a multisig address, `m` of whose `n` signatures are needed. -/
def checkSlots (m n : Nat) : Except Failure Unit :=
  if n < 2 then .error (.invalid ["addr-multisig-bad-n-too-small"])
  else if n < m then .error (.invalid ["addr-multisig-bad-mn"])
  else if 58 < n ∨ 58 < m then .error (.invalid ["addr-multisig-bad-mn-too-many"])
  else .ok ()

def checkMultisig (input : List Char) : Except Failure Unit := do
  orReason "addr-bad-multisig-content" (isBase59String input)
  let m ← orReason "addr-multisig-bad-m" (decodeNumber (input.drop 1 |>.take 1))
  let n ← orReason "addr-multisig-bad-n" (decodeNumber (input.drop 2 |>.take 1))
  checkSlots m n
  orReason "addr-multisig-bad-remainder" (isBase58String (input.take (size - 1)))

def checkContent (input : List Char) : Except Failure Unit :=
  if isMultisig input then checkMultisig input else orReason "addr-bad" (isBase58String input)

/-- `fromString`: the type of the address, if the text is one. -/
def fromString (input : List Char) : Except Failure AddressType :=
  if input.length ≠ size then .error (.invalid ["addr-bad-length"])
  else if input.head? ≠ some 'V' then .error (.invalid ["addr-bad-starting-char"])
  else do
    checkContent input
    let expectedChecksum ← calculateChecksum (getDataPortionFromAddress input) (isMultisig input)
    if expectedChecksum = getChecksumPortionFromAddress input (isMultisig input) then
      pure (if isMultisig input then .multisig else .standard)
    else
      throw (.invalid ["addr-bad-checksum"])

end Address

/-- `m_Type` and `m_Address`. Every address comes out of `fromString`. -/
structure Address where
  type : AddressType
  text : List Char
  valid : Address.fromString text = .ok type
  deriving DecidableEq

namespace Address

/-- `defaultAddress` -/
def default : Address where
  type := .standard
  text := "V111111111111111111111111G3LuZ".toList
  valid := by decide +kernel

instance : Inhabited Address := ⟨default⟩

/-- The text in the alphabet of its type. -/
def decodeText (type : AddressType) (text : List Char) : Except Failure (List UInt8) :=
  match type with
  | .standard => decodeBase58 text
  | .multisig => decodeBase59 text

def encodeText (type : AddressType) (bytes : List UInt8) : Except Failure (List Char) :=
  match type with
  | .standard => encodeBase58 bytes
  | .multisig => encodeBase59 bytes

def toVbkEncoding (a : Address) : Encoding :=
  match decodeText a.type a.text with
  | .error _ => none
  | .ok decoded => concat [writeBE 1 a.type.toByte, writeSingleByteLenValue decoded]

def estimateSize (a : Address) : Nat :=
  match decodeText a.type a.text with
  | .error _ => 1
  | .ok decoded => 1 + singleByteLenValueSize decoded.length

/-- `getPopBytes` takes the first 15 bytes behind the starting character, which have to be there. -/
def getPopBytes (a : Address) : Encoding :=
  match decodeText a.type (a.text.drop 1) with
  | .error _ => none
  | .ok bytes => if 15 ≤ bytes.length then write (bytes.take 15) else none

/-- A text as an address, with the reason that a caller adds. -/
def parse (reason : String) (text : List Char) : Decoder Address := fun s =>
  match h : fromString text with
  | .ok type => .ok ⟨type, text, h⟩ s
  | .error (.invalid path) => .error (.invalid (reason :: path)) s
  | .error e => .error e s

/-- A result that does not depend on the stream. -/
def lift {α : Type} : Except Failure α → Decoder α
  | .ok a => pure a
  | .error e => throw e

/-- `DeserializeFromVbkEncoding` -/
def deserializeFromVbkEncoding : Decoder Address := do
  let addressType ← orInvalid ["address-type"] (readBE 1)
  let addressBytes ← orInvalid ["address-bytes-len"] (readSingleByteLenValue 0 size)
  if addressType = AddressType.standard.toByte then
    parse "bad-addr" (← lift (encodeText .standard addressBytes))
  else if addressType = AddressType.multisig.toByte then
    parse "bad-addr" (← lift (encodeText .multisig addressBytes))
  else
    throw (.invalid ["invalid-address-type"])

section

variable {α β : Type} {text : List Char} {type : AddressType}

theorem bind_eq_ok {x : Except Failure α} {f : α → Except Failure β} {b : β} (h : (x >>= f) = .ok b) :
    ∃ a, x = .ok a ∧ f a = .ok b := by
  cases x with
  | error e => cases h
  | ok a => exact ⟨a, rfl, h⟩

theorem orReason_ok {reason : String} {x : Except Failure α} {a : α} (h : orReason reason x = .ok a) : x = .ok a := by
  cases x with
  | ok a => exact h
  | error e => cases e <;> cases h

theorem map_eq_ok {x : Except Failure α} {f : α → β} {b : β} (h : x.map f = .ok b) : ∃ a, x = .ok a ∧ f a = b := by
  cases x with
  | error e => cases h
  | ok a => exact ⟨a, rfl, Except.ok.inj h⟩

theorem checkMultisig_ok (h : checkMultisig text = .ok ()) : ∃ bytes, decodeBase59 text = .ok bytes := by
  rw [checkMultisig] at h
  cases bind_eq_ok h with
  | intro u hu =>
    cases map_eq_ok (orReason_ok hu.1) with
    | intro bytes hbytes => exact ⟨bytes, hbytes.1⟩

/-- What the round trip needs of a text that is an address. -/
theorem fromString_ok (h : fromString text = .ok type) :
    text.length = size ∧ text.head? = some 'V' ∧ checkContent text = .ok () ∧
      calculateChecksum (getDataPortionFromAddress text) (isMultisig text) =
        .ok (getChecksumPortionFromAddress text (isMultisig text)) ∧
      type = if isMultisig text then .multisig else .standard := by
  rw [fromString] at h
  split at h
  . cases h
  . next hlen =>
    split at h
    . cases h
    . next hhead =>
      cases bind_eq_ok h with
      | intro u hu =>
        cases bind_eq_ok hu.2 with
        | intro checksum hchecksum =>
          have hlast := hchecksum.2
          split at hlast
          . next heq =>
            cases hlast
            refine ⟨by simpa using hlen, by simpa using hhead, hu.1, ?_, rfl⟩
            rw [hchecksum.1, heq]
          . cases hlast

/-- The last characters of a checksum are symbols, so that none of them is a space. -/
theorem checksum_not_space {data checksum : List Char} {multisig : Bool}
    (h : calculateChecksum data multisig = .ok checksum) : ∀ c ∈ checksum, isSpace c = false := by
  rw [calculateChecksum, encodeBase58_eq] at h
  cases h
  intro c hc
  cases List.mem_map.mp (List.mem_of_mem_take hc) with
  | intro d hd =>
    rw [← hd.2]
    exact base58_not_space d (recode_lt (by omega) d hd.1)

theorem alphabet_standard (h : fromString text = .ok .standard) :
    ∃ digits : List Nat, (∀ d ∈ digits, d < 58) ∧ text = digits.map (symbol base58Alphabet) := by
  have hok := fromString_ok h
  have hsig : isMultisig text = false := by
    cases hm : isMultisig text with
    | false => rfl
    | true => simp [hm] at hok
  rw [hsig, checkContent, hsig] at hok
  cases map_eq_ok (orReason_ok hok.2.2.1) with
  | intro bytes hbytes =>
    apply decodeBase58_ok hbytes.1
    . intro c hc
      rw [hok.2.1] at hc
      cases hc
      rfl
    . intro c hc
      apply checksum_not_space hok.2.2.2.1
      have hne : text.drop 25 ≠ [] := by
        rw [ne_eq, List.drop_eq_nil_iff, hok.1, size]
        omega
      rw [← List.take_append_drop 25 text, List.getLast?_append_of_ne_nil _ hne] at hc
      exact List.mem_of_getLast? hc

theorem alphabet_multisig (h : fromString text = .ok .multisig) :
    ∃ digits : List Nat, (∀ d ∈ digits, d < 59) ∧ text = digits.map (symbol base59Alphabet) := by
  have hok := fromString_ok h
  have hsig : isMultisig text = true := by
    cases hm : isMultisig text with
    | false => simp [hm] at hok
    | true => rfl
  rw [hsig, checkContent, hsig] at hok
  cases checkMultisig_ok hok.2.2.1 with
  | intro bytes hbytes => exact decodeBase59_ok hbytes

/-- The text is read back from its bytes, of which there are not too many, and behind the starting character not too few. -/
theorem decodeText_ok (h : fromString text = .ok type) :
    (∃ bytes, decodeText type text = .ok bytes ∧ encodeText type bytes = .ok text ∧ bytes.length ≤ size) ∧
      ∃ bytes, decodeText type (text.drop 1) = .ok bytes ∧ 15 ≤ bytes.length := by
  have hlen := (fromString_ok h).1
  cases type with
  | standard =>
    cases alphabet_standard h with
    | intro digits hd =>
      have hdrop : ∀ d ∈ digits.drop 1, d < 58 := fun d hmem => hd.1 d (List.mem_of_mem_drop hmem)
      have hle : (recode 58 256 digits).length ≤ digits.length := length_recode_le (by omega) (by omega) hd.1
      have hge : (digits.drop 1).length ≤ 2 * (recode 58 256 (digits.drop 1)).length :=
        le_length_recode (by omega) (by omega)
      rw [hd.2, List.length_map] at hlen
      rw [List.length_drop, hlen, size] at hge
      rw [hlen] at hle
      rw [hd.2, ← List.map_drop]
      constructor
      . refine ⟨_, decodeBase58_map hd.1, encodeBase58_decode hd.1, ?_⟩
        rw [List.length_map]
        exact hle
      . refine ⟨_, decodeBase58_map hdrop, ?_⟩
        rw [List.length_map]
        omega
  | multisig =>
    cases alphabet_multisig h with
    | intro digits hd =>
      have hdrop : ∀ d ∈ digits.drop 1, d < 59 := fun d hmem => hd.1 d (List.mem_of_mem_drop hmem)
      have hle : (recode 59 256 digits).length ≤ digits.length := length_recode_le (by omega) (by omega) hd.1
      have hge : (digits.drop 1).length ≤ 2 * (recode 59 256 (digits.drop 1)).length :=
        le_length_recode (by omega) (by omega)
      rw [hd.2, List.length_map] at hlen
      rw [List.length_drop, hlen, size] at hge
      rw [hlen] at hle
      rw [hd.2, ← List.map_drop]
      constructor
      . refine ⟨_, decodeBase59_map hd.1, encodeBase59_decode hd.1, ?_⟩
        rw [List.length_map]
        exact hle
      . refine ⟨_, decodeBase59_map hdrop, ?_⟩
        rw [List.length_map]
        omega

theorem decodes_parse (reason : String) (a : Address) : Decodes (concat []) (parse reason a.text) a := by
  have hparse : parse reason a.text = pure a := by
    funext s
    rw [parse]
    split
    . next type h =>
      have htype : type = a.type := Except.ok.inj (h.symm.trans a.valid)
      cases a
      cases htype
      rfl
    . next h => cases h.symm.trans a.valid
    . next h => cases h.symm.trans a.valid
  rw [hparse]
  exact .pure a

/-- An address is read back. -/
theorem decodes (a : Address) : Decodes a.toVbkEncoding deserializeFromVbkEncoding a := by
  cases (decodeText_ok a.valid).1 with
  | intro decoded h =>
    rw [toVbkEncoding, h.1, deserializeFromVbkEncoding]
    have htype : a.type.toByte < 256 ^ 1 := by cases a.type <;> decide
    have hsize : size ≤ 255 := by decide
    apply Decodes.bind (decodes_readBE htype).orInvalid
    rw [concat_single]
    rw [← concat_single (writeSingleByteLenValue decoded)]
    apply Decodes.bind (decodes_singleByteLen (Nat.zero_le _) h.2.2 (by omega)).orInvalid
    have htext : lift (encodeText a.type decoded) = pure a.text := by rw [h.2.1, lift]
    cases ht : a.type with
    | standard =>
      rw [ht] at htext
      rw [if_pos rfl, htext, pure_bind]
      exact decodes_parse _ a
    | multisig =>
      rw [ht] at htext
      rw [if_neg (by decide), if_pos rfl, htext, pure_bind]
      exact decodes_parse _ a

/--
Every text that is an address is read back from its encoding, with its type. Behind its starting character there are
at least the bytes that `getPopBytes` writes.
-/
theorem serialization_faithful (h : fromString text = .ok type) :
    (∃ bytes, toVbkEncoding ⟨type, text, h⟩ = some bytes ∧ ∀ before after,
      deserializeFromVbkEncoding (standing before (bytes ++ after)) =
        .ok ⟨type, text, h⟩ (standing (before ++ bytes) after)) ∧
      ∃ decoded, decodeText type (text.drop 1) = .ok decoded ∧ 15 ≤ decoded.length ∧
        getPopBytes ⟨type, text, h⟩ = write (decoded.take 15) := by
  constructor
  . exact decodes ⟨type, text, h⟩
  . cases (decodeText_ok h).2 with
    | intro decoded hdecoded =>
      refine ⟨decoded, hdecoded.1, hdecoded.2, ?_⟩
      rw [getPopBytes, hdecoded.1]
      simp only
      rw [if_pos hdecoded.2]

/-- An address of two signatures out of three. -/
theorem serialization_faithful_multisig :
    ∃ h : fromString "V23Cuyc34u5rdk9psJ86aFcwhB1md0".toList = .ok .multisig,
      (∃ bytes, toVbkEncoding ⟨.multisig, _, h⟩ = some bytes ∧ ∀ before after,
        deserializeFromVbkEncoding (standing before (bytes ++ after)) =
          .ok ⟨.multisig, _, h⟩ (standing (before ++ bytes) after)) ∧
        ∃ decoded, decodeText .multisig ("V23Cuyc34u5rdk9psJ86aFcwhB1md0".toList.drop 1) = .ok decoded ∧
          15 ≤ decoded.length ∧ getPopBytes ⟨.multisig, _, h⟩ = write (decoded.take 15) :=
  ⟨by decide +kernel, serialization_faithful (by decide +kernel)⟩

theorem hasSize (a : Address) : HasSize a.toVbkEncoding a.estimateSize ∧ a.estimateSize ≤ 32 := by
  cases (decodeText_ok a.valid).1 with
  | intro decoded h =>
    have hsize : size = 30 := rfl
    rw [toVbkEncoding, estimateSize, h.1]
    constructor
    . exact hasSize_writeBE.cons ((hasSize_singleByteLen (by omega)).cons .nil)
    . simp only [singleByteLenValueSize]
      omega

end

end Address

end AltIntegration.Serde
