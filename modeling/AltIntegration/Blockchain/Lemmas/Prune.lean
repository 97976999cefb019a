import AltIntegration.Blockchain.Finalization
import AltIntegration.Blockchain.Lemmas.Chain
import AltIntegration.Blockchain.Lemmas.Traversal

/-!
This module contains what is left of a tree when blocks are disconnected and deallocated.
-/

namespace AltIntegration

open BlockIndex

variable {A : Type}

namespace Tree

variable {t u : Tree A} {x y p h newRoot final : Hash} {b : BlockIndex A}

section Disconnect

theorem find?_disconnectFromPrev : (t.disconnectFromPrev h).find? x =
    if h = x then (t.find? x).map (fun b => { b with pprev := none }) else t.find? x :=
  find?_update _ _ _ _

theorem find?_disconnectFromPrev_cases {b' : BlockIndex A} (hb : (t.disconnectFromPrev h).find? x = some b') :
    ∃ b, t.find? x = some b ∧ b'.header = b.header ∧ b'.height = b.height ∧
      b'.pprev = if h = x then none else b.pprev := by
  rw [find?_disconnectFromPrev] at hb
  split at hb
  . next heq =>
    obtain ⟨b, hb'', rfl⟩ := Option.map_eq_some_iff.mp hb
    exact ⟨b, hb'', rfl, rfl, by rw [if_pos heq]⟩
  . next hne => exact ⟨b', hb, rfl, rfl, by rw [if_neg hne]⟩

theorem find?_disconnectFromPrev_isSome : ((t.disconnectFromPrev h).find? x).isSome = (t.find? x).isSome := by
  rw [find?_disconnectFromPrev]
  split
  . simp
  . rfl

theorem heightOf_disconnectFromPrev (t : Tree A) (h x : Hash) :
    (t.disconnectFromPrev h).heightOf x = t.heightOf x := by
  unfold heightOf
  rw [find?_disconnectFromPrev]
  split
  . cases t.find? x with
    | none => rfl
    | some b => rfl
  . rfl

theorem WF.disconnect (ht : t.WF) (h : Hash) : (t.disconnectFromPrev h).WF := by
  refine ⟨?_, fun {x b'} hb' => ?_, fun {x b' p} hb' hp => ?_, fun {x b' p} hb' hp => ?_⟩
  . unfold disconnectFromPrev Tree.update
    rw [Store.keys_modify]
    exact ht.nodup
  . obtain ⟨b, hb, hh, _, _⟩ := find?_disconnectFromPrev_cases hb'
    rw [hh]
    exact ht.hash hb
  . obtain ⟨b, hb, hh, _, hpp⟩ := find?_disconnectFromPrev_cases hb'
    rw [hp] at hpp
    split at hpp
    . cases hpp
    . rw [hh]
      exact ht.prev hb hpp.symm
  . obtain ⟨b, hb, _, hheight, hpp⟩ := find?_disconnectFromPrev_cases hb'
    rw [hp] at hpp
    split at hpp
    . cases hpp
    . obtain ⟨bp, hbp, hhp⟩ := ht.parent hb hpp.symm
      obtain ⟨bp', hbp'⟩ := Option.isSome_iff_exists.mp
        ((find?_disconnectFromPrev_isSome (t := t) (h := h) (x := p)).trans (by rw [hbp]; rfl))
      refine ⟨bp', hbp', ?_⟩
      obtain ⟨bp'', hbp'', _, hh, _⟩ := find?_disconnectFromPrev_cases hbp'
      rw [hbp] at hbp''
      cases hbp''
      rw [hheight, hhp, hh]

theorem isChild_disconnectFromPrev (hx : t.IsChild x p) (hne : h ≠ x) : (t.disconnectFromPrev h).IsChild x p := by
  obtain ⟨b, hb, hp⟩ := hx
  refine ⟨b, ?_, hp⟩
  rw [find?_disconnectFromPrev, if_neg hne]
  exact hb

/-- Below a disconnected block its old ancestors are gone. -/
theorem WF.chainTo_disconnect (ht : t.WF) (hb : t.find? x = some b) :
    (h ∉ t.chainTo x → (t.disconnectFromPrev h).chainTo x = t.chainTo x) ∧
      (h ∈ t.chainTo x → (t.disconnectFromPrev h).chainTo x ++ (t.chainTo h).tail = t.chainTo x) := by
  refine ht.chain_induction (P := fun x =>
    (h ∉ t.chainTo x → (t.disconnectFromPrev h).chainTo x = t.chainTo x) ∧
      (h ∈ t.chainTo x → (t.disconnectFromPrev h).chainTo x ++ (t.chainTo h).tail = t.chainTo x)) ?_ ?_ hb
  . intro x b hb hp
    have hchain : (t.disconnectFromPrev h).chainTo x = [x] := by
      by_cases hx : h = x
      . have hb' : (t.disconnectFromPrev h).find? x = some { b with pprev := none } := by
          rw [find?_disconnectFromPrev, if_pos hx, hb]
          rfl
        exact chainTo_of_root hb' rfl
      . have hb' : (t.disconnectFromPrev h).find? x = some b := by
          rw [find?_disconnectFromPrev, if_neg hx, hb]
        exact chainTo_of_root hb' hp
    rw [hchain, chainTo_of_root hb hp]
    refine ⟨fun _ => rfl, fun hmem => ?_⟩
    rw [List.mem_singleton.mp hmem, chainTo_of_root hb hp]
    rfl
  . intro x p hx ih
    rw [ht.chainTo_of_child hx]
    by_cases heq : h = x
    . subst heq
      obtain ⟨b, hb, hp⟩ := hx
      have hb' : (t.disconnectFromPrev h).find? h = some { b with pprev := none } := by
        rw [find?_disconnectFromPrev, if_pos rfl, hb]
        rfl
      rw [chainTo_of_root hb' rfl, ht.chainTo_of_child ⟨b, hb, hp⟩]
      exact ⟨fun hn => absurd List.mem_cons_self hn, fun _ => rfl⟩
    . rw [(ht.disconnect h).chainTo_of_child (isChild_disconnectFromPrev hx heq)]
      refine ⟨fun hn => ?_, fun hmem => ?_⟩
      . rw [ih.1 (fun hmem => hn (List.mem_cons_of_mem _ hmem))]
      . rw [List.cons_append, ih.2 ((List.mem_cons.mp hmem).resolve_left heq)]

end Disconnect

section Deallocate

/-- What `onBeforeLeafRemoved` reads and writes of a tree. -/
def OnlyPayloadsIndex (obr : BlockIndex A → Tree A → Tree A) : Prop :=
  ∀ b, ∃ f g : List (PayloadId × Hash) → List (PayloadId × Hash),
    ∀ t, obr b t = { t with payloadsIndex := f t.payloadsIndex, misindexed := g t.misindexed }

variable {obr : BlockIndex A → Tree A → Tree A} {l : List Hash}

/-- What deallocation leaves alone. -/
def outline (t : Tree A) : Tree A := { t with blocks := Store.empty, payloadsIndex := [], misindexed := [] }

/-- The blocks of `t` that satisfy `keep`, and nothing else of `t` has changed but the payload index. -/
structure Restricts (keep : Hash → Prop) (t t' : Tree A) : Prop where
  kept : ∀ ⦃x⦄, keep x → t'.find? x = t.find? x
  dropped : ∀ ⦃x⦄, ¬keep x → t'.find? x = none
  nodup : t'.blocks.keys.Nodup
  rest : t'.outline = t.outline

namespace Restricts

variable {keep keep' : Hash → Prop} {t t' t'' : Tree A}

theorem of_find? (hr : Restricts keep t t') (hb : t'.find? x = some b) : keep x ∧ t.find? x = some b := by
  by_cases hk : keep x
  . rw [hr.kept hk] at hb
    exact ⟨hk, hb⟩
  . rw [hr.dropped hk] at hb
    cases hb

theorem trans (hr : Restricts keep t t') (hr' : Restricts keep' t' t'') :
    Restricts (fun x => keep x ∧ keep' x) t t'' := by
  refine ⟨fun x hx => (hr'.kept hx.2).trans (hr.kept hx.1), fun x hx => ?_, hr'.nodup, hr'.rest.trans hr.rest⟩
  by_cases hk' : keep' x
  . rw [hr'.kept hk', hr.dropped (fun hk => hx ⟨hk, hk'⟩)]
  . exact hr'.dropped hk'

theorem congr (hr : Restricts keep t t') (hk : ∀ x, t.find? x ≠ none → (keep x ↔ keep' x)) :
    Restricts keep' t t' := by
  refine ⟨fun x hx => ?_, fun x hx => ?_, hr.nodup, hr.rest⟩
  . by_cases hn : t.find? x = none
    . rw [hn]
      cases hb : t'.find? x with
      | none => rfl
      | some b =>
        rw [(hr.of_find? hb).2] at hn
        cases hn
    . exact hr.kept ((hk x hn).mpr hx)
  . by_cases hn : t.find? x = none
    . cases hb : t'.find? x with
      | none => rfl
      | some b =>
        rw [(hr.of_find? hb).2] at hn
        cases hn
    . exact hr.dropped (fun h => hx ((hk x hn).mp h))

/-- The blocks that are kept keep their parents. -/
abbrev Closed (keep : Hash → Prop) (t : Tree A) : Prop := ∀ ⦃x p⦄, t.IsChild x p → keep x → keep p

theorem wf (hr : Restricts keep t t') (hc : Closed keep t) (ht : t.WF) : t'.WF := by
  refine ⟨hr.nodup, fun {x b} hb => ht.hash (hr.of_find? hb).2, fun {x b p} hb hp => ?_,
    fun {x b p} hb hp => ?_⟩
  . exact ht.prev (hr.of_find? hb).2 hp
  . obtain ⟨hk, hb⟩ := hr.of_find? hb
    obtain ⟨bp, hbp, hh⟩ := ht.parent hb hp
    exact ⟨bp, (hr.kept (hc ⟨b, hb, hp⟩ hk)).trans hbp, hh⟩

theorem isChild (hr : Restricts keep t t') (hx : t.IsChild x p) (hk : keep x) : t'.IsChild x p := by
  obtain ⟨b, hb, hp⟩ := hx
  exact ⟨b, (hr.kept hk).trans hb, hp⟩

theorem chainTo (hr : Restricts keep t t') (hc : Closed keep t) (ht : t.WF) (hk : keep x) :
    t'.chainTo x = t.chainTo x := by
  cases hx : t.find? x with
  | none => rw [chainTo_of_none hx, chainTo_of_none ((hr.kept hk).trans hx)]
  | some b =>
    revert hk
    refine ht.chain_induction (P := fun x => keep x → t'.chainTo x = t.chainTo x) ?_ ?_ hx
    . intro x b hb hp hk
      rw [chainTo_of_root hb hp, chainTo_of_root ((hr.kept hk).trans hb) hp]
    . intro x p hx ih hk
      rw [ht.chainTo_of_child hx, (hr.wf hc ht).chainTo_of_child (hr.isChild hx hk), ih (hc hx hk)]

theorem heightOf (hr : Restricts keep t t') (hk : keep x) : t'.heightOf x = t.heightOf x := by
  unfold Tree.heightOf
  rw [hr.kept hk]

end Restricts

theorem deallocateBlock_restricts (hobr : OnlyPayloadsIndex obr) (hn : t.blocks.keys.Nodup) (h : Hash) :
    Restricts (· ≠ h) t (deallocateBlock obr t h) := by
  unfold deallocateBlock
  split
  . next hnone =>
    refine ⟨fun _ _ => rfl, fun x hx => ?_, hn, rfl⟩
    rw [Decidable.not_not] at hx
    rw [hx]
    exact hnone
  . next b hb =>
    have herase : ∀ index log, Restricts (· ≠ h) t
        { t with blocks := t.blocks.erase h, payloadsIndex := index, misindexed := log } := by
      intro index log
      refine ⟨fun x hx => ?_, fun x hx => ?_, ?_, rfl⟩
      . show (t.blocks.erase h).find? x = t.blocks.find? x
        rw [Store.find?_erase, if_neg (fun heq => hx heq.symm)]
      . show (t.blocks.erase h).find? x = none
        rw [Store.find?_erase, if_pos (Decidable.not_not.mp hx).symm]
      . show (t.blocks.erase h).keys.Nodup
        rw [Store.keys_erase]
        exact hn.filter _
    split
    . exact herase t.payloadsIndex t.misindexed
    . obtain ⟨f, g, hf⟩ := hobr b
      rw [hf]
      exact herase _ _

theorem foldl_deallocateBlock_restricts (hobr : OnlyPayloadsIndex obr) (hn : t.blocks.keys.Nodup) (l : List Hash) :
    Restricts (· ∉ l) t (l.foldl (deallocateBlock obr) t) := by
  induction l generalizing t with
  | nil => exact ⟨fun _ _ => rfl, fun x hx => absurd List.not_mem_nil hx, hn, rfl⟩
  | cons h l ih =>
    rw [List.foldl_cons]
    have hr := deallocateBlock_restricts hobr hn h
    refine (hr.trans (ih hr.nodup)).congr (fun x _ => ?_)
    rw [List.mem_cons, not_or]

theorem WF.mem_postorder (ht : t.WF) (n : Nat) : x ∈ t.postorder n h ↔ ∃ l, t.Walk x l h ∧ l.length < n := by
  induction n generalizing h with
  | zero => simp [postorder]
  | succ n ih =>
    unfold postorder
    simp only [List.mem_append, List.mem_flatMap, List.mem_reverse, ht.mem_pnext, List.mem_singleton, ih]
    constructor
    . rintro (⟨c, hc, l, hw, hl⟩ | rfl)
      . exact ⟨l ++ [c], walk_append_singleton.mpr ⟨hw, hc⟩, by simpa using hl⟩
      . exact ⟨[], rfl, Nat.zero_lt_succ n⟩
    . rintro ⟨l, hw, hl⟩
      rcases List.eq_nil_or_concat l with rfl | ⟨l, c, rfl⟩
      . exact .inr hw
      . rw [List.concat_eq_append] at hw hl
        obtain ⟨hw, hc⟩ := walk_append_singleton.mp hw
        exact .inl ⟨c, hc, l, hw, by simpa using hl⟩

theorem Walk.length_add (ht : t.WF) (hw : t.Walk x l h) : l.length + t.heightOf h = t.heightOf x := by
  induction l generalizing x with
  | nil =>
    have hx : x = h := hw
    rw [hx, List.length_nil, Nat.zero_add]
  | cons y l ih =>
    obtain ⟨_, p, hp, hw⟩ := hw
    have hh := ht.heightOf_child hp
    have := ih hw
    rw [List.length_cons]
    omega

/-- `deallocateTree` visits the block `h` and all its descendants. -/
theorem WF.mem_postorder_maxHeight (ht : t.WF) (hh : t.find? h = some b) :
    x ∈ t.postorder (t.maxHeight + 1) h ↔ h ∈ t.chainTo x := by
  rw [ht.mem_postorder]
  constructor
  . rintro ⟨l, hw, _⟩
    exact hw.mem_chainTo ht (ht.mem_chainTo_self hh)
  . intro hmem
    obtain ⟨l, hw⟩ := ht.exists_walk hmem
    refine ⟨l, hw, ?_⟩
    have hlen := hw.length_add ht
    have hle : t.heightOf x ≤ t.maxHeight := by
      unfold heightOf
      cases hx : t.find? x with
      | none => exact Nat.zero_le _
      | some bx => exact height_le_maxHeight hx
    omega

theorem WF.deallocateTree_restricts (ht : t.WF) (hobr : OnlyPayloadsIndex obr)
    (hlast : (t.chainTo x).getLast? = some h) : Restricts (fun y => h ∉ t.chainTo y) t (deallocateTree obr x t) := by
  obtain ⟨b, hb⟩ := ht.find?_of_mem_chainTo (List.mem_of_getLast? hlast)
  unfold deallocateTree
  rw [hlast]
  refine (foldl_deallocateBlock_restricts hobr ht.nodup _).congr (fun y _ => ?_)
  rw [ht.mem_postorder_maxHeight hb]

/-- In a disconnected block ends every chain that went through it. -/
theorem WF.mem_chainTo_disconnect_self (ht : t.WF) (hb : t.find? y = some b) :
    h ∈ (t.disconnectFromPrev h).chainTo y ↔ h ∈ t.chainTo y := by
  have hchain := ht.chainTo_disconnect (h := h) hb
  by_cases hmem : h ∈ t.chainTo y
  . refine iff_of_true ?_ hmem
    obtain ⟨bh, hbh⟩ := ht.find?_of_mem_chainTo hmem
    obtain ⟨tail, heq⟩ := chainTo_eq_cons hbh
    have hn := ht.chainTo_nodup h
    have hmem' := hmem
    rw [← hchain.2 hmem, List.mem_append] at hmem'
    rw [heq] at hn hmem'
    exact hmem'.resolve_right (List.nodup_cons.mp hn).1
  . rw [hchain.1 hmem]

theorem Restricts.of_disconnect {keep : Hash → Prop} {t' : Tree A} (hr : Restricts keep (t.disconnectFromPrev h) t')
    (hh : ¬keep h ∨ t.find? h = none) : Restricts keep t t' := by
  refine ⟨fun x hx => ?_, hr.dropped, hr.nodup, hr.rest⟩
  rw [hr.kept hx, find?_disconnectFromPrev]
  split
  . next heq =>
    subst heq
    rw [hh.resolve_left (fun hn => hn hx)]
    rfl
  . rfl

theorem WF.deallocateParallel_restricts (ht : t.WF) (hobr : OnlyPayloadsIndex obr) (par : Hash) :
    Restricts (fun y => par ∉ t.chainTo y) t (deallocateParallel obr t par) := by
  unfold deallocateParallel
  cases hb : t.find? par with
  | none =>
    have hb' : (t.disconnectFromPrev par).find? par = none := by
      rw [find?_disconnectFromPrev, if_pos rfl, hb]
      rfl
    unfold deallocateTree
    rw [chainTo_of_none hb']
    refine Restricts.of_disconnect (h := par) ⟨fun _ _ => rfl, fun x hx => ?_, (ht.disconnect par).nodup, rfl⟩ (.inr hb)
    obtain ⟨b, hb''⟩ := ht.find?_of_mem_chainTo (Decidable.not_not.mp hx)
    rw [hb] at hb''
    cases hb''
  | some b =>
    have hb' : (t.disconnectFromPrev par).find? par = some { b with pprev := none } := by
      rw [find?_disconnectFromPrev, if_pos rfl, hb]
      rfl
    have hlast : ((t.disconnectFromPrev par).chainTo par).getLast? = some par := by
      rw [chainTo_of_root hb' rfl]
      rfl
    refine Restricts.of_disconnect (h := par)
      (((ht.disconnect par).deallocateTree_restricts hobr hlast).congr (fun y hy => ?_))
      (.inl (fun hn => hn (ht.mem_chainTo_self hb)))
    obtain ⟨by', hby⟩ := Option.ne_none_iff_exists'.mp hy
    obtain ⟨b0, hb0, _⟩ := find?_disconnectFromPrev_cases hby
    rw [ht.mem_chainTo_disconnect_self hb0]

theorem WF.closed_not_mem (ht : t.WF) (par : Hash) : Restricts.Closed (fun y => par ∉ t.chainTo y) t := by
  intro x p hx hn hmem
  rw [ht.chainTo_of_child hx] at hn
  exact hn (List.mem_cons_of_mem _ hmem)

theorem WF.foldl_deallocateParallel_restricts (ht : t.WF) (hobr : OnlyPayloadsIndex obr) (pars : List Hash) :
    Restricts (fun y => ∀ par ∈ pars, par ∉ t.chainTo y) t (pars.foldl (deallocateParallel obr) t) := by
  induction pars generalizing t with
  | nil => exact ⟨fun _ _ => rfl, fun x hx => absurd (fun _ h => absurd h List.not_mem_nil) hx, ht.nodup, rfl⟩
  | cons par pars ih =>
    rw [List.foldl_cons]
    have hr := ht.deallocateParallel_restricts hobr par
    have hc := ht.closed_not_mem par
    refine ⟨fun y hy => ?_, fun y hy => ?_, (ih (hr.wf hc ht)).nodup, ?_⟩
    . have hpar := hy par List.mem_cons_self
      rw [(ih (hr.wf hc ht)).kept, hr.kept hpar]
      rw [hr.chainTo hc ht hpar]
      exact fun par' hpar' => hy par' (List.mem_cons_of_mem _ hpar')
    . by_cases hpar : par ∉ t.chainTo y
      . refine (ih (hr.wf hc ht)).dropped ?_
        rw [hr.chainTo hc ht hpar]
        intro hall
        apply hy
        intro par' hpar'
        rcases List.mem_cons.mp hpar' with rfl | hpar'
        . exact hpar
        . exact hall par' hpar'
      . have hnone := hr.dropped hpar
        by_cases hall : ∀ par' ∈ pars, par' ∉ (deallocateParallel obr t par).chainTo y
        . rw [(ih (hr.wf hc ht)).kept hall, hnone]
        . exact (ih (hr.wf hc ht)).dropped hall
    . exact (hr.trans (ih (hr.wf hc ht))).rest

end Deallocate

section Reroot

variable {obr : BlockIndex A → Tree A → Tree A}

/-- The block is above the new root, and not above a block parallel to the final one. -/
structure Survives (t : Tree A) (newRoot final : Hash) (y : Hash) : Prop where
  above : newRoot ∈ t.chainTo y
  parallel : final ≠ newRoot → ∀ p par, t.IsChild final p → t.IsChild par p → par ≠ final → par ∉ t.chainTo y

variable (ht : t.WF)

include ht

theorem WF.closed_survives : Restricts.Closed (t.Survives newRoot final) (t.disconnectFromPrev newRoot) := by
  intro x p hx hs
  obtain ⟨b', hb', hp'⟩ := hx
  obtain ⟨b, hb, _, _, hp⟩ := find?_disconnectFromPrev_cases hb'
  rw [hp'] at hp
  split at hp
  . cases hp
  . next hne =>
    have hx : t.IsChild x p := ⟨b, hb, hp.symm⟩
    have hchain := ht.chainTo_of_child hx
    refine ⟨?_, fun hn q par hq hpar hne' hmem => hs.parallel hn q par hq hpar hne' ?_⟩
    . have habove := hs.above
      rw [hchain] at habove
      exact (List.mem_cons.mp habove).resolve_left hne
    . rw [hchain]
      exact List.mem_cons_of_mem _ hmem

/-- Behind the new root nothing is left. -/
theorem WF.deallocateRoot_restricts (hr : t.Rooted) (hobr : OnlyPayloadsIndex obr) (hnew : t.IsChild newRoot p) :
    Restricts (fun y => newRoot ∈ t.chainTo y) (t.disconnectFromPrev newRoot)
      ((t.disconnectFromPrev newRoot).deallocateTree obr p) := by
  obtain ⟨bn, hbn, hpn⟩ := id hnew
  obtain ⟨bp, hbp, _⟩ := ht.parent hbn hpn
  have hnotin : newRoot ∉ t.chainTo p := by
    intro hmem
    have hle := ht.heightOf_le hmem
    have hh := ht.heightOf_child hnew
    omega
  have hlast : ((t.disconnectFromPrev newRoot).chainTo p).getLast? = some t.root := by
    rw [(ht.chainTo_disconnect hbp).1 hnotin]
    exact ht.getLast?_chainTo hr hbp
  refine ((ht.disconnect newRoot).deallocateTree_restricts hobr hlast).congr (fun y hy => ?_)
  obtain ⟨by', hby'⟩ := Option.ne_none_iff_exists'.mp hy
  obtain ⟨b, hb, _⟩ := find?_disconnectFromPrev_cases hby'
  have hroot := ht.root_mem_chainTo hr hb
  by_cases hmem : newRoot ∈ t.chainTo y
  . refine iff_of_true ?_ hmem
    have hchain := (ht.chainTo_disconnect hb).2 hmem
    have hn := ht.chainTo_nodup y
    rw [← hchain, List.nodup_append] at hn
    intro hin
    refine hn.2.2 _ hin _ ?_ rfl
    rw [ht.chainTo_of_child hnew]
    exact ht.root_mem_chainTo hr hbp
  . rw [(ht.chainTo_disconnect hb).1 hmem]
    exact iff_of_false (fun hn => hn hroot) hmem

/-- What `reroot` leaves of the tree. -/
theorem WF.reroot_restricts (hr : t.Rooted) (hobr : OnlyPayloadsIndex obr) (hnew : t.IsChild newRoot p)
    (hfinal : newRoot ∈ t.chainTo final) (hbf : t.find? final = some b) :
    Restricts (t.Survives newRoot final) (t.disconnectFromPrev newRoot) (reroot obr newRoot final t) := by
  obtain ⟨bn, hbn, hpn⟩ := id hnew
  have hroot := ht.deallocateRoot_restricts hr hobr hnew
  have hclosed : Restricts.Closed (fun y => newRoot ∈ t.chainTo y) (t.disconnectFromPrev newRoot) := by
    intro x q hx hmem
    have hs : t.Survives newRoot newRoot q := ht.closed_survives hx ⟨hmem, fun hne => absurd rfl hne⟩
    exact hs.above
  have hwf := hroot.wf hclosed (ht.disconnect newRoot)
  unfold reroot
  simp only [hbn, hpn, Option.bind_some]
  have hfind : ((t.disconnectFromPrev newRoot).deallocateTree obr p).find? final =
      (t.disconnectFromPrev newRoot).find? final := hroot.kept hfinal
  by_cases heq : newRoot = final
  . rw [hfind, find?_disconnectFromPrev, if_pos heq, hbf]
    exact hroot.congr (fun y _ => ⟨fun hmem => ⟨hmem, fun hne => absurd heq.symm hne⟩, fun hs => hs.above⟩)
  . rw [hfind, find?_disconnectFromPrev, if_neg heq, hbf, Option.bind_some]
    obtain ⟨q, hq⟩ : ∃ q, b.pprev = some q := by
      cases hq : b.pprev with
      | none =>
        rw [chainTo_of_root hbf hq, List.mem_singleton] at hfinal
        exact absurd hfinal heq
      | some q => exact ⟨q, rfl⟩
    have hchild : t.IsChild final q := ⟨b, hbf, hq⟩
    have hheight : t.heightOf newRoot < t.heightOf final := by
      have hle := ht.heightOf_le hfinal
      have hne : t.heightOf newRoot ≠ t.heightOf final := by
        intro he
        exact heq (ht.eq_of_heightOf_le hfinal (Nat.le_of_eq he.symm))
      omega
    simp only [hq]
    refine (hroot.trans (hwf.foldl_deallocateParallel_restricts hobr _)).congr (fun y hy => ?_)
    obtain ⟨by', hby'⟩ := Option.ne_none_iff_exists'.mp hy
    obtain ⟨b0, hb0, _⟩ := find?_disconnectFromPrev_cases hby'
    constructor
    . rintro ⟨hmem, hpars⟩
      refine ⟨hmem, fun _ q' par hq' hpar hne hin => ?_⟩
      obtain ⟨bf, hbf', hqf⟩ := hq'
      rw [hbf] at hbf'
      cases hbf'
      rw [hq] at hqf
      cases hqf
      have hparh : t.heightOf par = t.heightOf final := by
        rw [ht.heightOf_child hpar, ht.heightOf_child hchild]
      have habove : newRoot ∈ t.chainTo par := ht.mem_chainTo_of_le hmem hin (by omega)
      have hnepar : newRoot ≠ par := by
        intro he
        rw [he] at hheight
        omega
      refine hpars par (List.mem_filter.mpr ⟨hwf.mem_pnext.mpr ?_, by simpa using hne⟩) ?_
      . exact hroot.isChild (isChild_disconnectFromPrev hpar hnepar) habove
      . rw [hroot.chainTo hclosed (ht.disconnect newRoot) hmem]
        rw [← (ht.chainTo_disconnect hb0).2 hmem, List.mem_append] at hin
        refine hin.resolve_right (fun htail => ?_)
        have hle := ht.heightOf_le (List.mem_of_mem_tail htail)
        omega
    . intro hs
      refine ⟨hs.above, fun par hpar hin => ?_⟩
      obtain ⟨hpar, hne⟩ := List.mem_filter.mp hpar
      obtain ⟨bpar, hbpar, hppar⟩ := hwf.mem_pnext.mp hpar
      obtain ⟨_, hbpar⟩ := hroot.of_find? hbpar
      obtain ⟨b1, hb1, _, _, hp1⟩ := find?_disconnectFromPrev_cases hbpar
      rw [hppar] at hp1
      split at hp1
      . cases hp1
      . refine hs.parallel (fun he => heq he.symm) q par hchild ⟨b1, hb1, hp1.symm⟩ (by simpa using hne) ?_
        rw [hroot.chainTo hclosed (ht.disconnect newRoot) hs.above] at hin
        rw [← (ht.chainTo_disconnect hb0).2 hs.above]
        exact List.mem_append_left _ hin

omit ht in
theorem Restricts.outline_eq {keep : Hash → Prop} {t' : Tree A} (hr : Restricts keep (t.disconnectFromPrev h) t') :
    t'.outline = t.outline := hr.rest

/-- The block survives, or there is nothing behind the new root. -/
def Kept (t : Tree A) (newRoot final y : Hash) : Prop := newRoot = t.root ∨ t.Survives newRoot final y

theorem WF.closed_kept : Restricts.Closed (t.Kept newRoot final) (t.disconnectFromPrev newRoot) := by
  intro x p hx hk
  exact hk.imp_right (ht.closed_survives hx)

theorem WF.reroot_kept (hr : t.Rooted) (hobr : OnlyPayloadsIndex obr) (hfinal : newRoot ∈ t.chainTo final)
    (hroot : ∀ b, t.find? t.root = some b → b.pprev = none) :
    Restricts (t.Kept newRoot final) (t.disconnectFromPrev newRoot) (reroot obr newRoot final t) := by
  obtain ⟨bf, hbf⟩ : ∃ b, t.find? final = some b := by
    cases hb : t.find? final with
    | none =>
      rw [chainTo_of_none hb] at hfinal
      cases hfinal
    | some b => exact ⟨b, rfl⟩
  obtain ⟨bn, hbn⟩ := ht.find?_of_mem_chainTo hfinal
  cases hp : bn.pprev with
  | none =>
    have heq := hr hbn hp
    have hsame : reroot obr newRoot final t = t := by
      unfold reroot
      simp only [hbn, hp, Option.bind_some]
    rw [hsame]
    refine ⟨fun x _ => ?_, fun x hx => absurd (.inl heq) hx, ht.nodup, rfl⟩
    rw [find?_disconnectFromPrev]
    split
    . next hx =>
      subst hx
      rw [hbn, Option.map_some, ← hp]
    . rfl
  | some p =>
    refine (ht.reroot_restricts hr hobr ⟨bn, hbn, hp⟩ hfinal hbf).congr (fun y _ => ?_)
    constructor
    . exact .inr
    . rintro (heq | hs)
      . rw [heq] at hbn
        rw [hroot bn hbn] at hp
        cases hp
      . exact hs

end Reroot

end Tree

end AltIntegration
