import AltIntegration.Control.Wp

/-!
This module contains the weakest liberal preconditions of programs over a state, where a program that
stops may stop anyhow, and the rules for programs that execute and undo the elements of a list.
-/

namespace Program

variable {ε σ τ α β : Type}

/-- Started in `s`, the program `m` ends in `Q` if it ends. -/
def wlp (m : EStateM ε σ α) (Q : α → σ → Prop) (s : σ) : Prop := wp m Q (fun _ _ => True) s

variable {Q : α → σ → Prop} {s : σ}

theorem wlp_iff {m : EStateM ε σ α} : wlp m Q s ↔ ∀ a s', m s = .ok a s' → Q a s' := by
  unfold wlp wp
  cases m s with
  | ok a s' =>
    constructor
    . intro h a' s'' heq
      cases heq
      exact h
    . exact fun h => h a s' rfl
  | error e s' =>
    constructor
    . intro _ _ _ heq
      cases heq
    . exact fun _ => trivial

theorem wlp_ok {m : EStateM ε σ α} {a : α} {s' : σ} (h : wlp m Q s) (hm : m s = .ok a s') : Q a s' :=
  wlp_iff.mp h a s' hm

theorem wlp_of_wp {m : EStateM ε σ α} {E : ε → σ → Prop} (h : wp m Q E s) : wlp m Q s :=
  wp_mono h (fun _ _ h => h) (fun _ _ _ => trivial)

theorem wlp_mono {m : EStateM ε σ α} {Q' : α → σ → Prop} (h : wlp m Q' s)
    (hQ : ∀ a s', Q' a s' → Q a s') : wlp m Q s :=
  wp_mono h hQ (fun _ _ h => h)

theorem wlp_and {m : EStateM ε σ α} {Q' : α → σ → Prop} (h : wlp m Q s) (h' : wlp m Q' s) :
    wlp m (fun a s => Q a s ∧ Q' a s) s :=
  wlp_iff.mpr (fun _ _ hm => ⟨wlp_ok h hm, wlp_ok h' hm⟩)

@[simp]
theorem wlp_pure {a : α} : wlp (pure a : EStateM ε σ α) Q s ↔ Q a s := Iff.rfl

@[simp]
theorem wlp_throw {e : ε} : wlp (throw e : EStateM ε σ α) Q s := trivial

@[simp]
theorem wlp_get {Q : σ → σ → Prop} : wlp (get : EStateM ε σ σ) Q s ↔ Q s s := Iff.rfl

@[simp]
theorem wlp_modify {f : σ → σ} {Q : PUnit → σ → Prop} :
    wlp (modify f : EStateM ε σ PUnit) Q s ↔ Q ⟨⟩ (f s) := Iff.rfl

@[simp]
theorem wlp_bind {m : EStateM ε σ β} {f : β → EStateM ε σ α} :
    wlp (m >>= f) Q s ↔ wlp m (fun b s' => wlp (f b) Q s') s := wp_bind

@[simp]
theorem wlp_ite {p : Prop} [Decidable p] {m m' : EStateM ε σ α} :
    wlp (if p then m else m') Q s ↔ (p → wlp m Q s) ∧ (¬p → wlp m' Q s) := wp_ite

@[simp]
theorem wlp_check {p : Bool} {e : ε} {Q : Unit → σ → Prop} :
    wlp (check p e) Q s ↔ (p = true → Q () s) := by
  simp [wlp]

@[simp]
theorem wlp_when {p : Bool} {m : EStateM ε σ Unit} {Q : Unit → σ → Prop} :
    wlp (when p m) Q s ↔ (p = true → wlp m Q s) ∧ (p = false → Q () s) := wp_when

@[simp]
theorem wlp_getOrStop {o : Option α} {e : ε} :
    wlp (getOrStop o e) Q s ↔ ∀ a, o = some a → Q a s := by
  simp [wlp]

@[simp]
theorem wlp_zoom {l : Lens σ τ} {m : EStateM ε τ α} :
    wlp (zoom l m) Q s ↔ wlp m (fun a t => Q a (l.set t s)) (l.get s) := wp_zoom

theorem wlp_forEach {I : σ → Prop} {f : β → EStateM ε σ Unit} {l : List β}
    (hf : ∀ b ∈ l, ∀ s, I s → wlp (f b) (fun _ => I) s) (hs : I s) : wlp (forEach f l) (fun _ => I) s :=
  wp_forEach hf hs

theorem wlp_finalState (m : EStateM ε σ α) (s : σ) : wlp m (fun _ s' => s' = finalState m s) s := by
  unfold wlp wp finalState
  cases m s with
  | ok _ s' => rfl
  | error _ s' => trivial

/-- A loop folds what its rounds do to the state. -/
theorem wlp_forEach_foldl {f : β → EStateM ε σ Unit} {g : σ → β → σ} (hf : ∀ b s, wlp (f b) (fun _ s' => s' = g s b) s)
    (l : List β) (s : σ) : wlp (forEach f l) (fun _ s' => s' = l.foldl g s) s := by
  induction l generalizing s with
  | nil => rfl
  | cons b l ih =>
    simp only [forEach, wlp_bind]
    apply wlp_mono (hf b s)
    intro _ s' hs'
    rw [hs']
    exact ih (g s b)

/--
`P` says of which elements the execution is in effect, the last one first. Executing a list puts all its
elements in effect, or none.
-/
theorem wlp_execAll {P : List β → σ → Prop} {exec : β → EStateM ε σ Bool} {undo : β → EStateM ε σ Unit}
    {l : List β} {S : List β}
    (hexec : ∀ b ∈ l, ∀ S s, P S s →
      wlp (exec b) (fun ok s' => if ok then P (b :: S) s' else P S s') s)
    (hundo : ∀ b ∈ l, ∀ S s, P (b :: S) s → wlp (undo b) (fun _ s' => P S s') s) (hs : P S s) :
    wlp (execAll exec undo l) (fun ok s' => if ok then P (l.reverse ++ S) s' else P S s') s := by
  induction l generalizing s S with
  | nil =>
    simp only [execAll, wlp_pure, ↓reduceIte]
    exact hs
  | cons b l ih =>
    simp only [execAll, wlp_bind]
    refine wlp_mono (hexec b (by simp) S s hs) ?_
    intro ok s' hs'
    cases ok with
    | false => exact hs'
    | true =>
      refine wlp_bind.mpr (wlp_mono (ih ?_ ?_ hs') ?_)
      . exact fun b' hb' => hexec b' (by simp [hb'])
      . exact fun b' hb' => hundo b' (by simp [hb'])
      . intro ok' s'' hs''
        cases ok' with
        | true =>
          simp only [↓reduceIte, wlp_pure, List.reverse_cons, List.append_assoc, List.singleton_append] at hs'' ⊢
          exact hs''
        | false =>
          refine wlp_bind.mpr (wlp_mono (hundo b (by simp) S s'' hs'') ?_)
          exact fun _ _ h => h

/-- Undoing a list takes all its elements out of effect. -/
theorem wlp_undoAll {P : List β → σ → Prop} {undo : β → EStateM ε σ Unit} {l : List β} {S : List β}
    (hundo : ∀ b l₁ l₂, l = l₁ ++ b :: l₂ → ∀ s, P ((l₁ ++ [b]).reverse ++ S) s →
      wlp (undo b) (fun _ s' => P (l₁.reverse ++ S) s') s)
    (hs : P (l.reverse ++ S) s) : wlp (undoAll undo l) (fun _ s' => P S s') s := by
  induction l generalizing s S with
  | nil => exact hs
  | cons b l ih =>
    simp only [undoAll, wlp_bind]
    refine wlp_mono (ih (S := b :: S) (fun b' l₁ l₂ heq s' hs' => ?_) ?_) ?_
    . have h := hundo b' (b :: l₁) l₂ (by rw [heq]; rfl) s' (by simpa using hs')
      exact wlp_mono h (fun _ _ h => by simpa using h)
    . simpa using hs
    . intro _ s' hs'
      exact wlp_mono (hundo b [] l rfl s' (by simpa using hs')) (fun _ _ h => by simpa using h)

end Program
