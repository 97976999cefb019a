import AltIntegration.Control.Program

/-!
This module contains the weakest preconditions of programs over a state. A postcondition says what
holds of the result and the final state, and what holds of the error and the state a program stopped
in.
-/

namespace Program

variable {ε σ τ α β : Type}

/-- Started in `s`, the program `m` ends in `Q` or stops in `E`. -/
def wp (m : EStateM ε σ α) (Q : α → σ → Prop) (E : ε → σ → Prop) (s : σ) : Prop :=
  match m s with
  | .ok a s' => Q a s'
  | .error e s' => E e s'

variable {Q : α → σ → Prop} {E : ε → σ → Prop} {s : σ}

theorem wp_mono {m : EStateM ε σ α} {Q' : α → σ → Prop} {E' : ε → σ → Prop} (h : wp m Q' E' s)
    (hQ : ∀ a s', Q' a s' → Q a s') (hE : ∀ e s', E' e s' → E e s') : wp m Q E s := by
  unfold wp at *
  split
  . next heq =>
    rw [heq] at h
    exact hQ _ _ h
  . next heq =>
    rw [heq] at h
    exact hE _ _ h

theorem wp_and {m : EStateM ε σ α} {Q' : α → σ → Prop} {E' : ε → σ → Prop} (h : wp m Q E s)
    (h' : wp m Q' E' s) : wp m (fun a s => Q a s ∧ Q' a s) (fun e s => E e s ∧ E' e s) s := by
  unfold wp at *
  split
  . next heq =>
    rw [heq] at h h'
    exact ⟨h, h'⟩
  . next heq =>
    rw [heq] at h h'
    exact ⟨h, h'⟩

/-- What a run that ended well says, read off its weakest precondition. -/
theorem wp_ok {m : EStateM ε σ α} {a : α} {s' : σ} (h : wp m Q E s) (hm : m s = .ok a s') :
    Q a s' := by
  unfold wp at h
  rw [hm] at h
  exact h

/-- What a run that stopped says. -/
theorem wp_error {m : EStateM ε σ α} {e : ε} {s' : σ} (h : wp m Q E s) (hm : m s = .error e s') :
    E e s' := by
  unfold wp at h
  rw [hm] at h
  exact h

theorem wp_finalState {m : EStateM ε σ α} {P : σ → Prop} (h : wp m (fun _ => P) (fun _ => P) s) :
    P (finalState m s) := by
  unfold wp at h
  unfold finalState
  split
  . next heq =>
    rw [heq] at h
    exact h
  . next heq =>
    rw [heq] at h
    exact h

@[simp]
theorem wp_pure {a : α} : wp (pure a : EStateM ε σ α) Q E s ↔ Q a s := Iff.rfl

@[simp]
theorem wp_throw {e : ε} : wp (throw e : EStateM ε σ α) Q E s ↔ E e s := Iff.rfl

@[simp]
theorem wp_get {Q : σ → σ → Prop} : wp (get : EStateM ε σ σ) Q E s ↔ Q s s := Iff.rfl

@[simp]
theorem wp_modify {f : σ → σ} {Q : PUnit → σ → Prop} :
    wp (modify f : EStateM ε σ PUnit) Q E s ↔ Q ⟨⟩ (f s) := Iff.rfl

@[simp]
theorem wp_bind {m : EStateM ε σ β} {f : β → EStateM ε σ α} :
    wp (m >>= f) Q E s ↔ wp m (fun b s' => wp (f b) Q E s') E s := by
  simp only [wp, bind, EStateM.bind]
  cases m s with
  | ok b s' => rfl
  | error e s' => rfl

@[simp]
theorem wp_ite {p : Prop} [Decidable p] {m m' : EStateM ε σ α} :
    wp (if p then m else m') Q E s ↔ (p → wp m Q E s) ∧ (¬p → wp m' Q E s) := by
  split
  . next h => simp [h]
  . next h => simp [h]

@[simp]
theorem wp_check {p : Bool} {e : ε} {Q : Unit → σ → Prop} :
    wp (check p e) Q E s ↔ (p = true → Q () s) ∧ (p = false → E e s) := by
  cases p with
  | true => simp [check]
  | false => simp [check]

@[simp]
theorem wp_when {p : Bool} {m : EStateM ε σ Unit} {Q : Unit → σ → Prop} :
    wp (when p m) Q E s ↔ (p = true → wp m Q E s) ∧ (p = false → Q () s) := by
  cases p with
  | true => simp [when]
  | false => simp [when]

@[simp]
theorem wp_getOrStop {o : Option α} {e : ε} :
    wp (getOrStop o e) Q E s ↔ (∀ a, o = some a → Q a s) ∧ (o = none → E e s) := by
  cases o with
  | none => simp [getOrStop]
  | some a => simp [getOrStop]

@[simp]
theorem wp_zoom {l : Lens σ τ} {m : EStateM ε τ α} :
    wp (zoom l m) Q E s ↔ wp m (fun a t => Q a (l.set t s)) (fun e t => E e (l.set t s)) (l.get s) := by
  simp only [wp, zoom]
  cases m (l.get s) with
  | ok a t => rfl
  | error e t => rfl

section Run

variable {m : EStateM ε σ β} {k : β → EStateM ε σ α}

theorem run_get {k : σ → EStateM ε σ α} : (get >>= k) s = k s s := rfl

theorem run_modify {f : σ → σ} {k : PUnit → EStateM ε σ α} : (modify f >>= k) s = k ⟨⟩ (f s) := rfl

theorem run_ok {b : β} {s' : σ} (h : m s = .ok b s') : (m >>= k) s = k b s' := by
  simp only [bind, EStateM.bind, h]

theorem run_error {e : ε} {s' : σ} (h : m s = .error e s') : (m >>= k) s = .error e s' := by
  simp only [bind, EStateM.bind, h]

/-- Both programs of a run that ended well ended well. -/
theorem of_bind_ok {a : α} {s' : σ} (h : (m >>= k) s = .ok a s') : ∃ b s1, m s = .ok b s1 ∧ k b s1 = .ok a s' := by
  cases hm : m s with
  | ok b s1 =>
    rw [run_ok hm] at h
    exact ⟨b, s1, rfl, h⟩
  | error e s1 =>
    rw [run_error hm] at h
    cases h

theorem run_check {p : Bool} {e : ε} {k : Unit → EStateM ε σ α} (h : p = true) : (check p e >>= k) s = k () s := by
  rw [h]
  rfl

theorem run_getOrStop {o : Option β} {b : β} {e : ε} (h : o = some b) : (getOrStop o e >>= k) s = k b s := by
  rw [h]
  rfl

end Run

/-- A loop keeps what each of its rounds keeps. -/
theorem wp_forEach {I : σ → Prop} {f : β → EStateM ε σ Unit} {l : List β}
    (hf : ∀ b ∈ l, ∀ s, I s → wp (f b) (fun _ => I) E s) (hs : I s) :
    wp (forEach f l) (fun _ => I) E s := by
  induction l generalizing s with
  | nil =>
    simp only [forEach, wp_pure]
    exact hs
  | cons b l ih =>
    simp only [forEach, wp_bind]
    refine wp_mono (hf b (by simp) s hs) ?_ (fun _ _ h => h)
    intro _ s' hs'
    exact ih (fun b' hb' => hf b' (by simp [hb'])) hs'

/-- What every element, and undoing it, keeps is kept by executing all of them. -/
theorem wp_execAll {I : σ → Prop} {exec : β → EStateM ε σ Bool} {undo : β → EStateM ε σ Unit}
    {l : List β} (hexec : ∀ b ∈ l, ∀ s, I s → wp (exec b) (fun _ => I) E s)
    (hundo : ∀ b ∈ l, ∀ s, I s → wp (undo b) (fun _ => I) E s) (hs : I s) :
    wp (execAll exec undo l) (fun _ => I) E s := by
  induction l generalizing s with
  | nil =>
    simp only [execAll, wp_pure]
    exact hs
  | cons b l ih =>
    simp only [execAll, wp_bind]
    refine wp_mono (hexec b (by simp) s hs) ?_ (fun _ _ h => h)
    intro ok s' hs'
    cases ok with
    | false => exact hs'
    | true =>
      refine wp_bind.mpr (wp_mono (ih ?_ ?_ hs') ?_ (fun _ _ h => h))
      . exact fun b' hb' => hexec b' (by simp [hb'])
      . exact fun b' hb' => hundo b' (by simp [hb'])
      . intro ok' s'' hs''
        cases ok' with
        | true => exact hs''
        | false => exact wp_bind.mpr (hundo b (by simp) s'' hs'')

/-- What undoing every element keeps is kept by undoing all of them. -/
theorem wp_undoAll {I : σ → Prop} {undo : β → EStateM ε σ Unit} {l : List β}
    (hundo : ∀ b ∈ l, ∀ s, I s → wp (undo b) (fun _ => I) E s) (hs : I s) :
    wp (undoAll undo l) (fun _ => I) E s := by
  induction l generalizing s with
  | nil =>
    simp only [undoAll, wp_pure]
    exact hs
  | cons b l ih =>
    simp only [undoAll, wp_bind]
    refine wp_mono (ih (fun b' hb' => hundo b' (by simp [hb'])) hs) ?_ (fun _ _ h => h)
    intro _ s' hs'
    exact hundo b (by simp) s' hs'

/-- Whatever `i` is, the program keeps `I i` when it ends, and stops in `E`. -/
def Keeps {ι : Type} (I : ι → σ → Prop) (E : ε → σ → Prop) (m : EStateM ε σ α) : Prop :=
  ∀ i s, I i s → wp m (fun _ => I i) E s

namespace Keeps

variable {ι : Type} {I : ι → σ → Prop}

theorem pure (a : α) : Keeps I E (pure a) := fun _ _ hs => hs

theorem fix {m : EStateM ε σ α} (hm : Keeps I E m) (i : ι) : Keeps (fun _ : Unit => I i) E m :=
  fun _ s hs => hm i s hs

theorem throw {e : ε} (he : ∀ i s, I i s → E e s) : Keeps I E (throw e : EStateM ε σ α) := he

theorem get : Keeps I E (get : EStateM ε σ σ) := fun _ _ hs => hs

theorem modify {f : σ → σ} (hf : ∀ i s, I i s → I i (f s)) : Keeps I E (modify f : EStateM ε σ PUnit) := hf

theorem bind {m : EStateM ε σ β} {f : β → EStateM ε σ α} (hm : Keeps I E m) (hf : ∀ b, Keeps I E (f b)) :
    Keeps I E (m >>= f) := by
  intro i s hs
  rw [wp_bind]
  exact wp_mono (hm i s hs) (fun b s' hs' => hf b i s' hs') (fun _ _ h => h)

theorem ite {p : Prop} [Decidable p] {m m' : EStateM ε σ α} (hm : Keeps I E m) (hm' : Keeps I E m') :
    Keeps I E (if p then m else m') := by
  split
  . exact hm
  . exact hm'

theorem check {p : Bool} {e : ε} (he : ∀ i s, I i s → E e s) : Keeps I E (check p e) :=
  ite (pure _) (throw he)

theorem when {p : Bool} {m : EStateM ε σ Unit} (hm : Keeps I E m) : Keeps I E (when p m) := ite hm (pure _)

theorem getOrStop {o : Option α} {e : ε} (he : ∀ i s, I i s → E e s) : Keeps I E (getOrStop o e) := by
  cases o with
  | none => exact throw he
  | some a => exact pure a

theorem forEach {f : β → EStateM ε σ Unit} (hf : ∀ b, Keeps I E (f b)) (l : List β) :
    Keeps I E (forEach f l) :=
  fun i _ hs => wp_forEach (fun b _ s hs => hf b i s hs) hs

theorem execAll {exec : β → EStateM ε σ Bool} {undo : β → EStateM ε σ Unit}
    (hexec : ∀ b, Keeps I E (exec b)) (hundo : ∀ b, Keeps I E (undo b)) (l : List β) :
    Keeps I E (execAll exec undo l) :=
  fun i _ hs => wp_execAll (fun b _ s hs => hexec b i s hs) (fun b _ s hs => hundo b i s hs) hs

theorem undoAll {undo : β → EStateM ε σ Unit} (hundo : ∀ b, Keeps I E (undo b)) (l : List β) :
    Keeps I E (undoAll undo l) :=
  fun i _ hs => wp_undoAll (fun b _ s hs => hundo b i s hs) hs

end Keeps

section Commutes

/-- Change the state in which a run ended or stopped. -/
def mapState (f : σ → σ) : EStateM.Result ε σ α → EStateM.Result ε σ α
  | .ok a s => .ok a (f s)
  | .error e s => .error e (f s)

/-- The program does not notice whether `f` is applied before or after it. -/
def Commutes (f : σ → σ) (m : EStateM ε σ α) : Prop := ∀ s, m (f s) = mapState f (m s)

namespace Commutes

variable {f : σ → σ}

theorem pure (a : α) : Commutes f (pure a : EStateM ε σ α) := fun _ => rfl

theorem throw (e : ε) : Commutes f (throw e : EStateM ε σ α) := fun _ => rfl

theorem bind {m : EStateM ε σ β} {k : β → EStateM ε σ α} (hm : Commutes f m) (hk : ∀ b, Commutes f (k b)) :
    Commutes f (m >>= k) := by
  intro s
  have hs := hm s
  simp only [Bind.bind, EStateM.bind]
  rw [hs]
  cases m s with
  | ok b s' => exact hk b s'
  | error e s' => rfl

theorem get {k : σ → EStateM ε σ α} (hread : ∀ s, k (f s) = k s) (hk : ∀ s, Commutes f (k s)) :
    Commutes f (get >>= k) := by
  intro s
  show k (f s) (f s) = mapState f (k s s)
  rw [hread, hk s]

theorem modify {g : σ → σ} (hg : ∀ s, g (f s) = f (g s)) : Commutes f (modify g : EStateM ε σ PUnit) := by
  intro s
  show EStateM.Result.ok PUnit.unit (g (f s)) = .ok PUnit.unit (f (g s))
  rw [hg]

theorem check (p : Bool) (e : ε) : Commutes f (check p e) := by
  cases p with
  | true => exact pure ()
  | false => exact throw e

theorem when {p : Bool} {m : EStateM ε σ Unit} (hm : Commutes f m) : Commutes f (when p m) := by
  cases p with
  | true => exact hm
  | false => exact pure ()

theorem getOrStop (o : Option α) (e : ε) : Commutes f (getOrStop o e) := by
  cases o with
  | some a => exact pure a
  | none => exact throw e

theorem forEach {g : β → EStateM ε σ Unit} (hg : ∀ b, Commutes f (g b)) (l : List β) :
    Commutes f (forEach g l) := by
  induction l with
  | nil => exact pure ()
  | cons b l ih => exact bind (hg b) (fun _ => ih)

theorem finalState {m : EStateM ε σ α} (hm : Commutes f m) (s : σ) :
    finalState m (f s) = f (finalState m s) := by
  unfold Program.finalState
  rw [hm s]
  cases m s with
  | ok a s' => rfl
  | error e s' => rfl

end Commutes

end Commutes

end Program
