import AltIntegration.Control.Wlp

/-!
This module contains the total weakest preconditions of programs over a state: the program does not stop.
-/

namespace Program

variable {ε σ τ α β : Type}

/-- Started in `s`, the program `m` ends, and it ends in `Q`. -/
def twp (m : EStateM ε σ α) (Q : α → σ → Prop) (s : σ) : Prop := wp m Q (fun _ _ => False) s

variable {Q : α → σ → Prop} {s : σ}

theorem twp_iff {m : EStateM ε σ α} : twp m Q s ↔ ∃ a s', m s = .ok a s' ∧ Q a s' := by
  unfold twp wp
  cases m s with
  | ok a s' =>
    constructor
    . exact fun h => ⟨a, s', rfl, h⟩
    . rintro ⟨_, _, heq, h⟩
      cases heq
      exact h
  | error e s' =>
    constructor
    . exact False.elim
    . rintro ⟨_, _, heq, _⟩
      cases heq

theorem twp_mono {m : EStateM ε σ α} {Q' : α → σ → Prop} (h : twp m Q' s) (hQ : ∀ a s', Q' a s' → Q a s') :
    twp m Q s :=
  wp_mono h hQ (fun _ _ h => h)

/-- What holds if a program ends holds of a program that does. -/
theorem twp_and {m : EStateM ε σ α} {Q' : α → σ → Prop} (h : twp m Q s) (h' : wlp m Q' s) :
    twp m (fun a s => Q a s ∧ Q' a s) s :=
  wp_mono (wp_and h h') (fun _ _ h => h) (fun _ _ h => h.1)

@[simp]
theorem twp_pure {a : α} : twp (pure a : EStateM ε σ α) Q s ↔ Q a s := Iff.rfl

@[simp]
theorem twp_get {Q : σ → σ → Prop} : twp (get : EStateM ε σ σ) Q s ↔ Q s s := Iff.rfl

@[simp]
theorem twp_modify {f : σ → σ} {Q : PUnit → σ → Prop} : twp (modify f : EStateM ε σ PUnit) Q s ↔ Q ⟨⟩ (f s) := Iff.rfl

@[simp]
theorem twp_bind {m : EStateM ε σ β} {f : β → EStateM ε σ α} :
    twp (m >>= f) Q s ↔ twp m (fun b s' => twp (f b) Q s') s := wp_bind

@[simp]
theorem twp_ite {p : Prop} [Decidable p] {m m' : EStateM ε σ α} :
    twp (if p then m else m') Q s ↔ (p → twp m Q s) ∧ (¬p → twp m' Q s) := wp_ite

@[simp]
theorem twp_check {p : Bool} {e : ε} {Q : Unit → σ → Prop} : twp (check p e) Q s ↔ p = true ∧ Q () s := by
  cases p with
  | true => simp [twp]
  | false => simp [twp]

@[simp]
theorem twp_when {p : Bool} {m : EStateM ε σ Unit} {Q : Unit → σ → Prop} :
    twp (when p m) Q s ↔ (p = true → twp m Q s) ∧ (p = false → Q () s) := wp_when

@[simp]
theorem twp_getOrStop {o : Option α} {e : ε} : twp (getOrStop o e) Q s ↔ ∃ a, o = some a ∧ Q a s := by
  cases o with
  | none => simp [twp]
  | some a => simp [twp]

@[simp]
theorem twp_zoom {l : Lens σ τ} {m : EStateM ε τ α} :
    twp (zoom l m) Q s ↔ twp m (fun a t => Q a (l.set t s)) (l.get s) := wp_zoom

/-- `I` says what holds when a list is still to be done. -/
theorem twp_forEach {I : List β → σ → Prop} {f : β → EStateM ε σ Unit} {l : List β}
    (hf : ∀ b l s, I (b :: l) s → twp (f b) (fun _ => I l) s) (hs : I l s) : twp (forEach f l) (fun _ => I []) s := by
  induction l generalizing s with
  | nil => exact hs
  | cons b l ih =>
    simp only [forEach, twp_bind]
    exact twp_mono (hf b l s hs) (fun _ _ h => ih h)

end Program
