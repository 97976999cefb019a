import Mathlib.Algebra.Group.Basic
import AltIntegration.Control.Wlp

/-!
This module contains programs that post amounts to an account, and programs that reverse such postings. An amount is
whatever can be added and cancelled.
-/

namespace Program

variable {ε σ α β ν : Type}

section Total

variable [AddCommMonoid ν] {f g : β → ν} {l l' : List β}

/-- The sum of `f` over a list -/
def total (f : β → ν) : List β → ν
  | [] => 0
  | b :: l => f b + total f l

theorem total_append (f : β → ν) (l l' : List β) : total f (l ++ l') = total f l + total f l' := by
  induction l with
  | nil => exact (zero_add _).symm
  | cons b l ih => exact (congrArg (f b + ·) ih).trans (add_assoc _ _ _).symm

theorem total_perm (h : l.Perm l') : total f l = total f l' := by
  induction h with
  | nil => rfl
  | cons b _ ih => exact congrArg (f b + ·) ih
  | swap b b' l => exact add_left_comm (f b') (f b) (total f l)
  | trans _ _ ih ih' => exact ih.trans ih'

theorem total_congr (h : ∀ b ∈ l, f b = g b) : total f l = total g l := by
  induction l with
  | nil => rfl
  | cons b l ih =>
    show f b + total f l = g b + total g l
    rw [h b List.mem_cons_self, ih (fun b' hb' => h b' (List.mem_cons_of_mem b hb'))]

theorem total_zero (h : ∀ b ∈ l, f b = 0) : total f l = 0 := by
  induction l with
  | nil => rfl
  | cons b l ih =>
    show f b + total f l = 0
    rw [h b List.mem_cons_self, ih (fun b' hb' => h b' (List.mem_cons_of_mem b hb')), add_zero]

theorem total_map {γ : Type} (k : γ → β) (l : List γ) : total f (l.map k) = total (fun c => f (k c)) l := by
  induction l with
  | nil => rfl
  | cons c l ih => exact congrArg (f (k c) + ·) ih

theorem total_erase [DecidableEq β] {b : β} (hb : b ∈ l) : total f l = f b + total f (l.erase b) :=
  total_perm (List.perm_cons_erase hb)

/-- What changes at one element changes the sum. -/
theorem total_replace {b : β} {n m : ν} (hl : l.Nodup) (hb : b ∈ l) (hf : f b + n = g b + m)
    (hother : ∀ c ∈ l, c ≠ b → f c = g c) : total f l + n = total g l + m := by
  induction l with
  | nil => cases hb
  | cons c l ih =>
    obtain ⟨hc, hl⟩ := List.nodup_cons.mp hl
    show f c + total f l + n = g c + total g l + m
    by_cases heq : c = b
    . subst heq
      have hrest : total f l = total g l :=
        total_congr (fun d hd => hother d (List.mem_cons_of_mem c hd) (fun heq => hc (heq ▸ hd)))
      rw [hrest, add_right_comm, hf, add_right_comm]
    . have hrest := ih hl ((List.mem_cons.mp hb).resolve_left (Ne.symm heq)) (fun d hd => hother d (List.mem_cons_of_mem c hd))
      rw [hother c List.mem_cons_self heq, add_assoc, hrest, add_assoc]

end Total

variable [AddCancelCommMonoid ν] (account : σ → ν) (I : σ → Prop)

/-- Where `I` holds, the program posts the amount when it succeeds, and nothing when it fails. -/
def Posts (n : ν) (m : EStateM ε σ Bool) : Prop :=
  ∀ s, I s → wlp m (fun ok s' => I s' ∧ account s' = account s + if ok then n else 0) s

/-- Where `I` holds, the program takes the amount off the account. -/
def Reverses (n : ν) (m : EStateM ε σ Unit) : Prop := ∀ s, I s → wlp m (fun _ s' => I s' ∧ account s' + n = account s) s

/-- Where `I` holds, the program leaves the account alone. -/
def Spares (m : EStateM ε σ α) : Prop := ∀ s, I s → wlp m (fun _ s' => I s' ∧ account s' = account s) s

variable {account I} {charge : β → ν} {exec : β → EStateM ε σ Bool} {undo : β → EStateM ε σ Unit}

theorem Spares.posts {m : EStateM ε σ Bool} (hm : Spares account I m) : Posts account I 0 m := by
  refine fun s hs => wlp_mono (hm s hs) (fun ok s' h => ⟨h.1, h.2.trans ?_⟩)
  rw [ite_self, add_zero]

theorem Spares.reverses {m : EStateM ε σ Unit} (hm : Spares account I m) : Reverses account I 0 m :=
  fun s hs => wlp_mono (hm s hs) (fun _ _ h => ⟨h.1, (add_zero _).trans h.2⟩)

/-- Of a list the amounts of all its elements are posted, or none. -/
theorem Posts.execAll (hexec : ∀ b, Posts account I (charge b) (exec b)) (hundo : ∀ b, Reverses account I (charge b) (undo b))
    (l : List β) : Posts account I (total charge l) (execAll exec undo l) := by
  intro s hs
  refine wlp_mono (wlp_execAll (P := fun S s' => I s' ∧ account s' = account s + total charge S) (S := []) (fun b _ S s1 h1 => ?_)
    (fun b _ S s1 h1 => ?_) ⟨hs, (add_zero _).symm⟩) (fun ok s' h => ?_)
  . refine wlp_mono (hexec b s1 h1.1) (fun ok s2 h2 => ?_)
    cases ok with
    | true =>
      refine ⟨h2.1, h2.2.trans ?_⟩
      rw [h1.2, if_pos rfl, add_assoc, add_comm (total charge S)]
      rfl
    | false => exact ⟨h2.1, h2.2.trans ((add_zero _).trans h1.2)⟩
  . refine wlp_mono (hundo b s1 h1.1) (fun _ s2 h2 => ⟨h2.1, ?_⟩)
    have hsum : account s2 + charge b = account s + total charge S + charge b := by
      rw [h2.2, h1.2, add_assoc, add_comm (total charge S)]
      rfl
    exact add_right_cancel hsum
  . cases ok with
    | true =>
      rw [if_pos rfl, List.append_nil, total_perm (List.reverse_perm l)] at h
      exact h
    | false =>
      refine ⟨h.1, h.2.trans ?_⟩
      rfl

theorem Reverses.undoAll (hundo : ∀ b, Reverses account I (charge b) (undo b)) (l : List β) :
    Reverses account I (total charge l) (undoAll undo l) := by
  induction l with
  | nil => exact fun s hs => ⟨hs, add_zero _⟩
  | cons b l ih =>
    intro s hs
    rw [Program.undoAll, wlp_bind]
    refine wlp_mono (ih s hs) (fun _ s1 h1 => wlp_mono (hundo b s1 h1.1) (fun _ s2 h2 => ⟨h2.1, ?_⟩))
    show account s2 + (charge b + total charge l) = account s
    rw [← add_assoc, h2.2, h1.2]

end Program
