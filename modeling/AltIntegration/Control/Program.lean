import Mathlib.Init

/-!
This module contains the combinators in which the stateful code is written: programs over a state
`σ` that may stop with an error `ε`. A stopped program keeps the state it stopped in.
-/

namespace Program

variable {ε σ τ ρ α β : Type}

/-- A part `τ` of a state `σ`. -/
structure Lens (σ τ : Type) where
  get : σ → τ
  set : τ → σ → σ
  get_set : ∀ t s, get (set t s) = t
  set_get : ∀ s, set (get s) s = s
  set_set : ∀ t t' s, set t (set t' s) = set t s

namespace Lens

def id : Lens σ σ where
  get s := s
  set t _ := t
  get_set _ _ := rfl
  set_get _ := rfl
  set_set _ _ _ := rfl

def comp (l : Lens σ τ) (k : Lens τ ρ) : Lens σ ρ where
  get s := k.get (l.get s)
  set r s := l.set (k.set r (l.get s)) s
  get_set r s := by rw [l.get_set, k.get_set]
  set_get s := by rw [k.set_get, l.set_get]
  set_set r r' s := by rw [l.get_set, l.set_set, k.set_set]

end Lens

/-- Run a program on a part of the state. -/
def zoom (l : Lens σ τ) (m : EStateM ε τ α) : EStateM ε σ α := fun s =>
  match m (l.get s) with
  | .ok a t => .ok a (l.set t s)
  | .error e t => .error e (l.set t s)

/-- The state in which a program ends or stops. -/
def finalState (m : EStateM ε σ α) (s : σ) : σ :=
  match m s with
  | .ok _ s' => s'
  | .error _ s' => s'

/-- Stop with `e` unless `p` holds. -/
def check (p : Bool) (e : ε) : EStateM ε σ Unit :=
  if p then pure () else throw e

/-- Run `m` if `p` holds. -/
def when (p : Bool) (m : EStateM ε σ Unit) : EStateM ε σ Unit :=
  if p then m else pure ()

/-- The value of an option, or stop with `e`. -/
def getOrStop (o : Option α) (e : ε) : EStateM ε σ α :=
  match o with
  | some a => pure a
  | none => throw e

/-- The values of `f` on a list, if all of them exist. -/
def collect (f : α → Option β) : List α → Option (List β)
  | [] => some []
  | a :: as =>
    match f a, collect f as with
    | some b, some bs => some (b :: bs)
    | _, _ => none

/-- Run `f` on the elements of a list, in order. -/
def forEach (f : α → EStateM ε σ Unit) : List α → EStateM ε σ Unit
  | [] => pure ()
  | a :: as => do
    f a
    forEach f as

/--
Run `exec` on the elements of a list, in order. When one of them fails, the ones before it are
undone in the reverse order.
-/
def execAll (exec : α → EStateM ε σ Bool) (undo : α → EStateM ε σ Unit) :
    List α → EStateM ε σ Bool
  | [] => pure true
  | a :: as => do
    if ← exec a then
      if ← execAll exec undo as then
        pure true
      else do
        undo a
        pure false
    else
      pure false

/-- Undo the elements of a list, in the reverse order. -/
def undoAll (undo : α → EStateM ε σ Unit) : List α → EStateM ε σ Unit
  | [] => pure ()
  | a :: as => do
    undoAll undo as
    undo a

end Program
