import AltIntegration.Data.Bytes

/-!
This module contains the hash function of `third_party/sha256.cpp` and `hashutil.cpp`. The context of a hash in
progress is not kept: the message is padded first and then processed block by block.
-/

namespace AltIntegration

namespace Sha256

/-- The words of the context, and `A` to `H` of a round. -/
structure State where
  a : UInt32
  b : UInt32
  c : UInt32
  d : UInt32
  e : UInt32
  f : UInt32
  g : UInt32
  h : UInt32

/-- `sha256_init` -/
def init : State where
  a := 0x6A09E667
  b := 0xBB67AE85
  c := 0x3C6EF372
  d := 0xA54FF53A
  e := 0x510E527F
  f := 0x9B05688C
  g := 0x1F83D9AB
  h := 0x5BE0CD19

def roundConstants : List UInt32 := [
  0x428A2F98, 0x71374491, 0xB5C0FBCF, 0xE9B5DBA5, 0x3956C25B, 0x59F111F1, 0x923F82A4, 0xAB1C5ED5,
  0xD807AA98, 0x12835B01, 0x243185BE, 0x550C7DC3, 0x72BE5D74, 0x80DEB1FE, 0x9BDC06A7, 0xC19BF174,
  0xE49B69C1, 0xEFBE4786, 0x0FC19DC6, 0x240CA1CC, 0x2DE92C6F, 0x4A7484AA, 0x5CB0A9DC, 0x76F988DA,
  0x983E5152, 0xA831C66D, 0xB00327C8, 0xBF597FC7, 0xC6E00BF3, 0xD5A79147, 0x06CA6351, 0x14292967,
  0x27B70A85, 0x2E1B2138, 0x4D2C6DFC, 0x53380D13, 0x650A7354, 0x766A0ABB, 0x81C2C92E, 0x92722C85,
  0xA2BFE8A1, 0xA81A664B, 0xC24B8B70, 0xC76C51A3, 0xD192E819, 0xD6990624, 0xF40E3585, 0x106AA070,
  0x19A4C116, 0x1E376C08, 0x2748774C, 0x34B0BCB5, 0x391C0CB3, 0x4ED8AA4A, 0x5B9CCA4F, 0x682E6FF3,
  0x748F82EE, 0x78A5636F, 0x84C87814, 0x8CC70208, 0x90BEFFFA, 0xA4506CEB, 0xBEF9A3F7, 0xC67178F2]

def rotr (x n : UInt32) : UInt32 := (x >>> n) ||| (x <<< (32 - n))

def s0 (x : UInt32) : UInt32 := rotr x 7 ^^^ rotr x 18 ^^^ (x >>> 3)

def s1 (x : UInt32) : UInt32 := rotr x 17 ^^^ rotr x 19 ^^^ (x >>> 10)

def s2 (x : UInt32) : UInt32 := rotr x 2 ^^^ rotr x 13 ^^^ rotr x 22

def s3 (x : UInt32) : UInt32 := rotr x 6 ^^^ rotr x 11 ^^^ rotr x 25

def f0 (x y z : UInt32) : UInt32 := (x &&& y) ||| (z &&& (x ||| y))

def f1 (x y z : UInt32) : UInt32 := z ^^^ (x &&& (y ^^^ z))

/-- `P`, and the turn of the variables before the next one -/
def round (s : State) (k x : UInt32) : State :=
  let temp1 := s.h + s3 s.e + f1 s.e s.f s.g + k + x
  let temp2 := s2 s.a + f0 s.a s.b s.c
  { a := temp1 + temp2, b := s.a, c := s.b, d := s.c, e := s.d + temp1, f := s.e, g := s.f, h := s.g }

/-- `R` for the next `n` words, the latest word first -/
def expand : Nat → List UInt32 → List UInt32
  | 0, w => w
  | n + 1, w => expand n ((s1 (w.getD 1 0) + w.getD 6 0 + s0 (w.getD 14 0) + w.getD 15 0) :: w)

/-- `GET_ULONG_BE` for the next `n` words -/
def words : Nat → List UInt8 → List UInt32
  | 0, _ => []
  | n + 1, bytes => UInt32.ofNat (Bytes.toNat (bytes.take 4)) :: words n (bytes.drop 4)

def rounds : State → List UInt32 → List UInt32 → State
  | s, k :: ks, x :: xs => rounds (round s k x) ks xs
  | s, _, _ => s

/-- `sha2_process` -/
def process (s : State) (block : List UInt8) : State :=
  let r := rounds s roundConstants (expand 48 (words 16 block).reverse).reverse
  { a := s.a + r.a, b := s.b + r.b, c := s.c + r.c, d := s.d + r.d,
    e := s.e + r.e, f := s.f + r.f, g := s.g + r.g, h := s.h + r.h }

/-- The next `n` blocks of the message. -/
def processBlocks : Nat → State → List UInt8 → State
  | 0, s, _ => s
  | n + 1, s, bytes => processBlocks n (process s (bytes.take 64)) (bytes.drop 64)

/-- What `sha256_finish` appends to a message of `size` bytes -/
def padding (size : Nat) : List UInt8 :=
  let last := size % 64
  let padn := if last < 56 then 56 - last else 120 - last
  0x80 :: List.replicate (padn - 1) 0 ++ Bytes.ofNat 8 (8 * size)

def words4 (x : UInt32) : List UInt8 := Bytes.ofNat 4 x.toNat

def State.bytes (s : State) : List UInt8 :=
  words4 s.a ++ words4 s.b ++ words4 s.c ++ words4 s.d ++ words4 s.e ++ words4 s.f ++ words4 s.g ++ words4 s.h

end Sha256

/-- `sha256` -/
def sha256 (data : List UInt8) : List UInt8 :=
  let message := data ++ Sha256.padding data.length
  (Sha256.processBlocks (message.length / 64) Sha256.init message).bytes

def sha256twice (data : List UInt8) : List UInt8 := sha256 (sha256 data)

@[simp]
theorem length_sha256 (data : List UInt8) : (sha256 data).length = 32 := by
  simp [sha256, Sha256.State.bytes, Sha256.words4]

@[simp]
theorem length_sha256twice (data : List UInt8) : (sha256twice data).length = 32 := length_sha256 _

-- the hash of `abc`
example : Bytes.toNat (sha256 [0x61, 0x62, 0x63]) =
    0xba7816bf8f01cfea414140de5dae2223b00361a396177a9cb410ff61f20015ad := by
  decide +kernel

end AltIntegration
