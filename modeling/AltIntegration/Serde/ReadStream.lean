import AltIntegration.Data.Bytes

/-!
This module contains `ReadStream` of `read_stream.hpp` and `read_stream.cpp`, and the programs that read from
one.
-/

namespace AltIntegration

/--
What ends a program early. A `ValidationState` that becomes invalid keeps its reasons, outermost first; a failed
`VBK_ASSERT`, like an exception, ends the process. The other two are not reported by the code: an access outside a
buffer has no defined effect, and a loop that runs out of fuel goes on.
-/
inductive Failure where
  | invalid (path : List String)
  | assertion
  | outOfBounds
  | outOfFuel
  deriving DecidableEq, Repr

instance decidableEqExcept {ε α : Type} [DecidableEq ε] [DecidableEq α] : DecidableEq (Except ε α)
  | .ok a, .ok b => decidable_of_iff (a = b) ⟨congrArg _, Except.ok.inj⟩
  | .error e, .error e' => decidable_of_iff (e = e') ⟨congrArg _, Except.error.inj⟩
  | .ok _, .error _ => isFalse nofun
  | .error _, .ok _ => isFalse nofun

/-- `m_Buffer` with `m_Size`, and `m_Pos` -/
structure ReadStream where
  buffer : List UInt8
  position : Nat
  deriving DecidableEq, Repr

/-- A program that reads from a stream. -/
abbrev Decoder (α : Type) := EStateM Failure ReadStream α

namespace ReadStream

def ofBytes (bytes : List UInt8) : ReadStream := ⟨bytes, 0⟩

/-- A difference of two `size_t` -/
def subSize (a b : Nat) : Nat := if b ≤ a then a - b else 2 ^ 64 + a - b

def remaining (s : ReadStream) : Nat := subSize s.buffer.length s.position

def hasMore (s : ReadStream) (size : Nat) : Bool := decide (size ≤ s.remaining)

def setPosition (s : ReadStream) (position : Nat) : ReadStream := { s with position := position }

/-- The bytes at `[position, position + size)`. -/
def slice (bytes : List UInt8) (position size : Nat) : List UInt8 := (bytes.drop position).take size

/-- The memory at `[m_Pos, m_Pos + size)`, which has to be a part of the buffer. -/
def take (size : Nat) : Decoder (List UInt8) := fun s =>
  if s.position + size ≤ s.buffer.length then
    .ok (slice s.buffer s.position size) (s.setPosition (s.position + size))
  else
    .error .outOfBounds s

/-- `readSlice` -/
def readSlice (size : Nat) : Decoder (List UInt8) := fun s =>
  if s.hasMore size then take size s else .error (.invalid ["readslice-underflow"]) s

/-- `readBE` of `size` bytes, as a number -/
def readBE (size : Nat) : Decoder Nat := fun s =>
  if s.hasMore size then (Bytes.toNat <$> take size) s else .error (.invalid ["readbe-underflow"]) s

/-- `readLE` of `size` bytes, as a number -/
def readLE (size : Nat) : Decoder Nat := fun s =>
  if s.hasMore size then ((fun bytes => Bytes.toNat bytes.reverse) <$> take size) s
  else .error (.invalid ["readle-underflow"]) s

/-- `return state.Invalid(reason)` when `m` fails -/
def orInvalid {α : Type} (reasons : List String) (m : Decoder α) : Decoder α := fun s =>
  match m s with
  | .ok a s' => .ok a s'
  | .error (.invalid path) s' => .error (.invalid (reasons ++ path)) s'
  | .error .assertion s' => .error .assertion s'
  | .error .outOfBounds s' => .error .outOfBounds s'
  | .error .outOfFuel s' => .error .outOfFuel s'

/-- The result of a program on a new stream. -/
def decode {α : Type} (m : Decoder α) (bytes : List UInt8) : Except Failure α :=
  match m (ofBytes bytes) with
  | .ok a _ => .ok a
  | .error e _ => .error e

section

variable {s : ReadStream} {size : Nat}

theorem run_get (s : ReadStream) : (get : Decoder ReadStream) s = .ok s s := rfl

theorem run_modify (f : ReadStream → ReadStream) (s : ReadStream) : (modify f : Decoder PUnit) s = .ok ⟨⟩ (f s) := rfl

theorem remaining_of_le (h : s.position ≤ s.buffer.length) : s.remaining = s.buffer.length - s.position := by
  simp [remaining, subSize, h]

theorem hasMore_iff (h : s.position ≤ s.buffer.length) :
    s.hasMore size = true ↔ s.position + size ≤ s.buffer.length := by
  simp only [hasMore, remaining_of_le h, decide_eq_true_eq]
  omega

theorem readSlice_eq_of_le (h : s.position ≤ s.buffer.length) :
    readSlice size s =
      if s.position + size ≤ s.buffer.length then
        .ok (slice s.buffer s.position size) (s.setPosition (s.position + size))
      else
        .error (.invalid ["readslice-underflow"]) s := by
  simp only [readSlice, hasMore_iff h, take]
  split
  . rfl
  . rfl

/-- Past the end `remaining()` wraps around and the slice lies outside the buffer. -/
theorem readSlice_past_end (s : ReadStream) (size : Nat) (h : s.buffer.length < s.position) (hsize : size + s.position ≤ 2 ^ 64 + s.buffer.length) :
    readSlice size s = .error .outOfBounds s := by
  have hmore : s.hasMore size = true := by
    rw [hasMore, decide_eq_true_eq, remaining, subSize, if_neg (by omega)]
    omega
  have : ¬s.position + size ≤ s.buffer.length := by omega
  simp only [readSlice, hmore, ↓reduceIte, take, this]

theorem readBE_eq_of_le (h : s.position ≤ s.buffer.length) :
    readBE size s =
      if s.position + size ≤ s.buffer.length then
        .ok (Bytes.toNat (slice s.buffer s.position size)) (s.setPosition (s.position + size))
      else
        .error (.invalid ["readbe-underflow"]) s := by
  simp only [readBE, hasMore_iff h]
  split
  . next hle => simp [Functor.map, EStateM.map, take, hle]
  . rfl

theorem length_slice {bytes : List UInt8} {position size : Nat} (h : position + size ≤ bytes.length) :
    (slice bytes position size).length = size := by
  rw [slice, List.length_take, List.length_drop]
  omega

end

end ReadStream

end AltIntegration
