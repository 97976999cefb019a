import AltIntegration.Serde.ReadStream

/-!
This module contains what it means that a reading program undoes a writing program, and the rules by which this
follows from the parts of the two.
-/

namespace AltIntegration

/-- What a writing program appends to its stream; `none` when one of its assertions fails. -/
abbrev Encoding := Option (List UInt8)

def andThen : Encoding → Encoding → Encoding
  | some bytes, some rest => some (bytes ++ rest)
  | _, _ => none

/-- One writing program after the other. -/
def concat : List Encoding → Encoding
  | [] => some []
  | e :: es => andThen e (concat es)

namespace ReadStream

/-- A stream that was read up to the end of `before`. -/
def standing (before after : List UInt8) : ReadStream := ⟨before ++ after, before.length⟩

/-- `m` on a stream of its own; what it leaves unread is dropped. -/
def nested {α : Type} (m : Decoder α) (bytes : List UInt8) : Decoder α := fun s =>
  match m (ofBytes bytes) with
  | .ok a _ => .ok a s
  | .error e _ => .error e s

end ReadStream

open ReadStream

variable {α β : Type} {e : Encoding} {es : List Encoding} {m : Decoder α} {k : α → Decoder β} {a : α} {b : β}

/-- `m` reads `a` from `e`, whatever stands before and after it, and leaves what stands after it. -/
def Decodes (e : Encoding) (m : Decoder α) (a : α) : Prop :=
  ∃ bytes, e = some bytes ∧
    ∀ before after, m (standing before (bytes ++ after)) = .ok a (standing (before ++ bytes) after)

/-- Whatever stands before and after `e`, `m` reads something else, if anything. -/
def Misdecodes (e : Encoding) (m : Decoder α) (a : α) : Prop :=
  ∀ bytes, e = some bytes → ∀ before after s, m (standing before (bytes ++ after)) ≠ .ok a s

/-- Whatever stands before and after `e`, `m` fails. -/
def Rejects (e : Encoding) (m : Decoder α) : Prop :=
  ∀ bytes, e = some bytes → ∀ before after a s, m (standing before (bytes ++ after)) ≠ .ok a s

/-- `m` never returns `a`. -/
def Avoids (m : Decoder α) (a : α) : Prop := ∀ s s', m s ≠ .ok a s'

/-- `m` reads `a` from `e` when `P` holds, and does not otherwise. -/
def DecodesIff (P : Prop) (e : Encoding) (m : Decoder α) (a : α) : Prop :=
  (P → Decodes e m a) ∧ (¬P → Misdecodes e m a)

/-- `e` writes that many bytes. -/
def HasSize (e : Encoding) (n : Nat) : Prop := ∃ bytes, e = some bytes ∧ bytes.length = n

/-- A new stream with nothing else in it is read to its end. -/
def RoundTrips (e : Encoding) (m : Decoder α) (a : α) : Prop :=
  ∃ bytes, e = some bytes ∧ m (ofBytes bytes) = .ok a ⟨bytes, bytes.length⟩

theorem concat_single (e : Encoding) : concat [e] = e := by
  cases e with
  | none => rfl
  | some bytes => rw [concat, concat, andThen, List.append_nil]

theorem concat_cons_some {bytes : List UInt8} (h : concat (e :: es) = some bytes) :
    ∃ first rest, e = some first ∧ concat es = some rest ∧ bytes = first ++ rest := by
  rw [concat] at h
  cases e with
  | none => cases h
  | some first =>
    cases hrest : concat es with
    | none =>
      rw [hrest] at h
      cases h
    | some rest =>
      rw [hrest] at h
      cases h
      exact ⟨first, rest, rfl, rfl, rfl⟩

theorem bind_ok {s s' : ReadStream} (h : (m >>= k) s = .ok b s') : ∃ a t, m s = .ok a t ∧ k a t = .ok b s' := by
  simp only [bind, EStateM.bind] at h
  split at h
  . next a t hm => exact ⟨a, t, hm, h⟩
  . cases h

theorem orInvalid_ok {reasons : List String} {s s' : ReadStream} :
    orInvalid reasons m s = .ok a s' ↔ m s = .ok a s' := by
  rw [orInvalid]
  split <;> simp_all

theorem concat_eq_none {es : List Encoding} (h : none ∈ es) : concat es = none := by
  induction es with
  | nil => cases h
  | cons e es ih =>
    rw [concat]
    cases List.mem_cons.mp h with
    | inl heq => rw [← heq, andThen]; nofun
    | inr hmem => rw [ih hmem, andThen]; nofun

namespace Decodes

theorem pure (a : α) : Decodes (concat []) (Pure.pure a) a := by
  refine ⟨[], rfl, ?_⟩
  intro before after
  rw [List.append_nil]
  rfl

theorem bind (h : Decodes e m a) (hk : Decodes (concat es) (k a) b) : Decodes (concat (e :: es)) (m >>= k) b := by
  cases h with
  | intro first h =>
    cases hk with
    | intro rest hk =>
      refine ⟨first ++ rest, by rw [concat, h.1, hk.1, andThen], ?_⟩
      intro before after
      simp only [Bind.bind, EStateM.bind]
      rw [List.append_assoc, h.2, ← List.append_assoc]
      exact hk.2 (before ++ first) after

/-- A step that reads nothing. -/
theorem skip (h : Decodes (concat []) m a) (hk : Decodes e (k a) b) : Decodes e (m >>= k) b := by
  cases h with
  | intro first h =>
    cases hk with
    | intro rest hk =>
      have hfirst : first = [] := (Option.some.inj h.1).symm
      refine ⟨rest, hk.1, ?_⟩
      intro before after
      have hm := h.2 before (rest ++ after)
      rw [hfirst, List.nil_append, List.append_nil] at hm
      simp only [Bind.bind, EStateM.bind]
      rw [hm]
      exact hk.2 before after

theorem orInvalid {reasons : List String} (h : Decodes e m a) : Decodes e (orInvalid reasons m) a := by
  cases h with
  | intro bytes h =>
    refine ⟨bytes, h.1, ?_⟩
    intro before after
    exact orInvalid_ok.mpr (h.2 before after)

theorem nested {bytes : List UInt8} (h : Decodes e m a) (he : e = some bytes) :
    Decodes (concat []) (nested m bytes) a := by
  cases h with
  | intro bytes' h =>
    rw [h.1] at he
    cases he
    refine ⟨[], rfl, ?_⟩
    intro before after
    have hm := h.2 [] []
    rw [List.append_nil] at hm
    rw [ReadStream.nested, ofBytes]
    rw [standing, List.nil_append, List.length_nil] at hm
    rw [hm]
    simp

theorem roundTrips (h : Decodes e m a) : RoundTrips e m a := by
  cases h with
  | intro bytes h =>
    refine ⟨bytes, h.1, ?_⟩
    have hm := h.2 [] []
    rw [List.append_nil, standing, List.nil_append, List.length_nil] at hm
    rw [ofBytes, hm, standing, List.append_nil]

/-- The last program of a sequence. -/
theorem last (h : Decodes e m a) : Decodes (concat [e]) m a := by
  rwa [concat_single]

theorem map (g : α → β) (h : Decodes e m a) : Decodes e (m >>= fun x => Pure.pure (g x)) (g a) := by
  rw [← concat_single e]
  exact h.bind (pure _)

end Decodes

namespace Avoids

theorem pure {b : α} (h : b ≠ a) : Avoids (Pure.pure b) a := by
  intro s s' hs
  cases hs
  exact h rfl

theorem bind (h : ∀ x, Avoids (k x) b) : Avoids (m >>= k) b := by
  intro s s' hs
  cases bind_ok hs with
  | intro x hx =>
    cases hx with
    | intro t ht => exact h x t s' ht.2

theorem orInvalid {reasons : List String} (h : Avoids m a) : Avoids (orInvalid reasons m) a := by
  intro s s' hs
  exact h s s' (orInvalid_ok.mp hs)

theorem nested {bytes : List UInt8} (h : Avoids m a) : Avoids (nested m bytes) a := by
  intro s s' hs
  rw [ReadStream.nested] at hs
  split at hs
  . next x t hx =>
    cases hs
    exact h _ _ hx
  . cases hs

end Avoids

namespace Misdecodes

theorem of_none : Misdecodes none m a := nofun

theorem of_avoids (h : Avoids m a) : Misdecodes e m a := fun _ _ _ _ _ => h _ _

theorem bind_left (h : Misdecodes e m a) (hk : ∀ x, x ≠ a → Avoids (k x) b) :
    Misdecodes (concat (e :: es)) (m >>= k) b := by
  intro bytes hbytes before after s hs
  cases concat_cons_some hbytes with
  | intro first hfirst =>
    cases hfirst with
    | intro rest hrest =>
      cases bind_ok hs with
      | intro x hx =>
        cases hx with
        | intro t ht =>
          by_cases heq : x = a
          . rw [hrest.2.2, List.append_assoc, heq] at ht
            exact h first hrest.1 _ _ _ ht.1
          . exact hk x heq _ _ ht.2

theorem bind_right (h : Decodes e m a) (hk : Misdecodes (concat es) (k a) b) :
    Misdecodes (concat (e :: es)) (m >>= k) b := by
  intro bytes hbytes before after s hs
  cases concat_cons_some hbytes with
  | intro first hfirst =>
    cases hfirst with
    | intro rest hrest =>
      cases h with
      | intro first' h =>
        rw [hrest.1] at h
        cases h.1
        have hm := h.2 before (rest ++ after)
        simp only [Bind.bind, EStateM.bind] at hs
        rw [hrest.2.2, List.append_assoc, hm] at hs
        exact hk rest hrest.2.1 _ _ _ hs

theorem skip (h : Decodes (concat []) m a) (hk : Misdecodes e (k a) b) : Misdecodes e (m >>= k) b := by
  intro bytes hbytes before after s hs
  cases h with
  | intro first h =>
    have hfirst : first = [] := (Option.some.inj h.1).symm
    have hm := h.2 before (bytes ++ after)
    rw [hfirst, List.nil_append, List.append_nil] at hm
    simp only [Bind.bind, EStateM.bind] at hs
    rw [hm] at hs
    exact hk bytes hbytes before after s hs

theorem nested {bytes : List UInt8} (h : Misdecodes e m a) (he : e = some bytes) :
    Misdecodes (concat []) (nested m bytes) a := by
  intro bytes' hbytes' before after s hs
  rw [ReadStream.nested] at hs
  split at hs
  . next x t hx =>
    cases hs
    apply h bytes he [] [] t
    rw [List.append_nil, standing, List.nil_append, List.length_nil]
    exact hx
  . cases hs

theorem orInvalid {reasons : List String} (h : Misdecodes e m a) : Misdecodes e (orInvalid reasons m) a := by
  intro bytes hbytes before after s hs
  exact h bytes hbytes before after s (orInvalid_ok.mp hs)

theorem not_roundTrips (h : Misdecodes e m a) : ¬RoundTrips e m a := by
  intro htrip
  cases htrip with
  | intro bytes htrip =>
    apply h bytes htrip.1 [] [] ⟨bytes, bytes.length⟩
    rw [List.append_nil, standing, List.nil_append, List.length_nil]
    exact htrip.2

end Misdecodes

namespace Rejects

theorem of_none : Rejects none m := nofun

theorem misdecodes (h : Rejects e m) : Misdecodes e m a := fun bytes hbytes before after s => h bytes hbytes before after a s

theorem of_fails (h : ∀ s a s', m s ≠ .ok a s') : Rejects e m := fun _ _ _ _ _ _ => h _ _ _

theorem bind_left (h : Rejects e m) : Rejects (concat (e :: es)) (m >>= k) := by
  intro bytes hbytes before after b s hs
  cases concat_cons_some hbytes with
  | intro first hfirst =>
    cases hfirst with
    | intro rest hrest =>
      cases bind_ok hs with
      | intro x hx =>
        cases hx with
        | intro t ht =>
          rw [hrest.2.2, List.append_assoc] at ht
          exact h first hrest.1 _ _ _ _ ht.1

theorem bind_right (h : Decodes e m a) (hk : Rejects (concat es) (k a)) : Rejects (concat (e :: es)) (m >>= k) :=
  fun bytes hbytes before after b =>
    Misdecodes.bind_right (b := b) h (fun bytes hbytes before after => hk bytes hbytes before after b) bytes hbytes
      before after

theorem orInvalid {reasons : List String} (h : Rejects e m) : Rejects e (orInvalid reasons m) := by
  intro bytes hbytes before after b s hs
  exact h bytes hbytes before after b s (orInvalid_ok.mp hs)

end Rejects

namespace DecodesIff

variable {P Q : Prop}

theorem of_decodes (h : Decodes e m a) (hP : P) : DecodesIff P e m a := ⟨fun _ => h, fun hn => absurd hP hn⟩

theorem congr (h : DecodesIff P e m a) (hPQ : P ↔ Q) : DecodesIff Q e m a := by
  rw [← hPQ]
  exact h

theorem bind (h : DecodesIff P e m a) (hk : P → DecodesIff Q (concat es) (k a) b)
    (havoid : ∀ x, x ≠ a → Avoids (k x) b) : DecodesIff (P ∧ Q) (concat (e :: es)) (m >>= k) b := by
  constructor
  . intro hPQ
    exact (h.1 hPQ.1).bind ((hk hPQ.1).1 hPQ.2)
  . intro hn
    by_cases hP : P
    . have hQ : ¬Q := fun hQ => hn ⟨hP, hQ⟩
      exact .bind_right (h.1 hP) ((hk hP).2 hQ)
    . exact .bind_left (h.2 hP) havoid

theorem map (h : DecodesIff P e m a) {g : α → β} (hg : ∀ x, g x = g a → x = a) :
    DecodesIff P e (m >>= fun x => Pure.pure (g x)) (g a) := by
  constructor
  . intro hP
    exact (h.1 hP).map g
  . intro hP
    rw [← concat_single e]
    apply Misdecodes.bind_left (h.2 hP)
    intro x hx
    exact .pure (fun heq => hx (hg x heq))

/-- A part whose reading fails unless `P`. -/
theorem bind_checked (h : P → Decodes e m a) (hn : ¬P → Rejects e m) (hk : P → DecodesIff Q (concat es) (k a) b) :
    DecodesIff (P ∧ Q) (concat (e :: es)) (m >>= k) b := by
  constructor
  . intro hPQ
    exact (h hPQ.1).bind ((hk hPQ.1).1 hPQ.2)
  . intro hPQ
    by_cases hP : P
    . have hQ : ¬Q := fun hQ => hPQ ⟨hP, hQ⟩
      exact .bind_right (h hP) ((hk hP).2 hQ)
    . exact (hn hP).bind_left.misdecodes

/-- A part that is read back in any case. -/
theorem bind_right (h : Decodes e m a) (hk : DecodesIff Q (concat es) (k a) b) :
    DecodesIff Q (concat (e :: es)) (m >>= k) b :=
  ⟨fun hQ => h.bind (hk.1 hQ), fun hQ => .bind_right h (hk.2 hQ)⟩

/-- A step that reads nothing. -/
theorem skip (h : Decodes (concat []) m a) (hk : DecodesIff Q e (k a) b) : DecodesIff Q e (m >>= k) b :=
  ⟨fun hQ => h.skip (hk.1 hQ), fun hQ => .skip h (hk.2 hQ)⟩

theorem nested {bytes : List UInt8} (h : DecodesIff P e m a) (he : e = some bytes) :
    DecodesIff P (concat []) (nested m bytes) a :=
  ⟨fun hP => (h.1 hP).nested he, fun hP => (h.2 hP).nested he⟩

theorem orInvalid {reasons : List String} (h : DecodesIff P e m a) : DecodesIff P e (orInvalid reasons m) a :=
  ⟨fun hP => (h.1 hP).orInvalid, fun hP => (h.2 hP).orInvalid⟩

theorem roundTrips_iff (h : DecodesIff P e m a) : RoundTrips e m a ↔ P := by
  constructor
  . intro htrip
    by_cases hP : P
    . exact hP
    . exact absurd htrip (h.2 hP).not_roundTrips
  . intro hP
    exact (h.1 hP).roundTrips

end DecodesIff

namespace HasSize

variable {n n' : Nat}

theorem nil : HasSize (concat []) 0 := ⟨[], rfl, rfl⟩

theorem cons (h : HasSize e n) (hs : HasSize (concat es) n') : HasSize (concat (e :: es)) (n + n') := by
  cases h with
  | intro first h =>
    cases hs with
    | intro rest hs => exact ⟨first ++ rest, by rw [concat, h.1, hs.1, andThen], by rw [List.length_append, h.2, hs.2]⟩

theorem congr (h : HasSize e n) (heq : n = n') : HasSize e n' := heq ▸ h

theorem items {f : α → Encoding} {size : α → Nat} {l : List α} (h : ∀ a ∈ l, HasSize (f a) (size a)) :
    HasSize (concat (l.map f)) (l.map size).sum := by
  induction l with
  | nil => exact .nil
  | cons a l ih =>
    rw [List.forall_mem_cons] at h
    rw [List.map_cons, List.map_cons, List.sum_cons]
    exact h.1.cons (ih h.2)

end HasSize

end AltIntegration
