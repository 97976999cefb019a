import AltIntegration.Control.Wlp
import AltIntegration.Mempool.Holdings

/-!
This module contains what each call of the mempool does, as elementary changes of its maps and changes of the
trees. A call that stops does so in an assertion of a tree, unless it cleans up ATVs of a relation that is too
old.
-/

namespace AltIntegration

open Program

namespace Mempool

/-- The call stops in an assertion of a tree. -/
def StopsInTree (e : Stop) (_ : State) : Prop := ∃ a, e = .tree a

/-- Only the temporary blocks differ. -/
def SameBooks (s s' : State) : Prop := s.pool.SameHeld s'.pool ∧ s'.trees = s.trees

theorem SameBooks.refl (s : State) : SameBooks s s := ⟨.refl _, rfl⟩

theorem SameBooks.trans {s s' s'' : State} (h : SameBooks s s') (h' : SameBooks s' s'') : SameBooks s s'' :=
  ⟨h.1.trans h'.1, h'.2.trans h.2⟩

/-- The trees stay, and the maps go through elementary changes. -/
def Evolves (p : Params) (s s' : State) : Prop :=
  Relation.ReflTransGen (Change p s.trees) s.pool s'.pool ∧ s'.trees = s.trees

namespace Evolves

variable {p : Params} {s s' s'' : State}

theorem refl (s : State) : Evolves p s s := ⟨.refl, rfl⟩

theorem trans (h : Evolves p s s') (h' : Evolves p s' s'') : Evolves p s s'' :=
  ⟨h.1.trans (h.2 ▸ h'.1), h'.2.trans h.2⟩

theorem of_change (h : Change p s.trees s.pool s'.pool) (htrees : s'.trees = s.trees) : Evolves p s s' :=
  ⟨.single h, htrees⟩

theorem of_same (h : SameBooks s s') : Evolves p s s' := of_change (.temp h.1) h.2

theorem step (h : Evolves p s s') (hc : Change p s.trees s'.pool s''.pool) (htrees : s''.trees = s'.trees) :
    Evolves p s s'' :=
  ⟨h.1.tail hc, htrees.trans h.2⟩

/-- What every elementary change keeps, a call keeps. -/
theorem keeps {J : MemPool → Prop} (h : Evolves p s s') (hJ : ∀ m m', J m → Change p s.trees m m' → J m')
    (hs : J s.pool) : J s'.pool := by
  obtain ⟨h, _⟩ := h
  generalize s'.pool = m' at h ⊢
  induction h with
  | refl => exact hs
  | tail _ hstep ih => exact hJ _ _ ih hstep

theorem inv (h : Evolves p s s') (hs : s.pool.Inv p) : s'.pool.Inv p := h.keeps (fun _ _ hm hstep => hm.step hstep) hs

end Evolves

section Accept

variable {s : State} {E : Stop → State → Prop}

theorem wp_modifyPool {f : MemPool → MemPool} {Q : Unit → State → Prop} :
    wp (modifyPool f) Q E s ↔ Q () { s with pool := f s.pool } := Iff.rfl

theorem wp_acceptVbkHeader (b : PowBlock) : wp (acceptVbkHeader b) (fun _ => SameBooks s) E s := by
  rw [acceptVbkHeader, wp_bind, wp_get]
  split
  . exact .refl s
  . exact ⟨⟨_, _, rfl⟩, rfl⟩

theorem wp_acceptBtcHeader (b : PowBlock) : wp (acceptBtcHeader b) (fun _ => SameBooks s) E s := by
  rw [acceptBtcHeader, wp_bind, wp_get]
  split
  . exact .refl s
  . exact ⟨⟨_, _, rfl⟩, rfl⟩

theorem wp_acceptBtcContext (i : Nat) (bs : List PowBlock) : wp (acceptBtcContext i bs) (fun _ => SameBooks s) E s := by
  induction bs generalizing i s with
  | nil => exact .refl s
  | cons b bs ih =>
    rw [acceptBtcContext, wp_bind]
    refine wp_mono (wp_acceptBtcHeader b) ?_ (fun _ _ h => h)
    intro r s1 hs1
    cases r with
    | error path => exact hs1
    | ok _ => exact wp_mono (ih (i + 1)) (fun _ _ hs2 => hs1.trans hs2) (fun _ _ h => h)

theorem wp_acceptVTBHeaders (v : VTB) : wp (acceptVTBHeaders v) (fun _ => SameBooks s) E s := by
  rw [acceptVTBHeaders, wp_bind]
  refine wp_mono (wp_acceptVbkHeader v.containingBlock) ?_ (fun _ _ h => h)
  intro r s1 hs1
  cases r with
  | error path => exact hs1
  | ok _ =>
    rw [wp_bind]
    refine wp_mono (wp_acceptBtcContext 0 v.blockOfProofContext) ?_ (fun _ _ h => h)
    intro r s2 hs2
    cases r with
    | error path => exact hs1.trans hs2
    | ok _ =>
      rw [wp_bind]
      exact wp_mono (wp_acceptBtcHeader v.blockOfProof) (fun _ _ hs3 => (hs1.trans hs2).trans hs3) (fun _ _ h => h)

variable (p : Params)

theorem wp_acceptATV (a : ATV) : wp (acceptATV p a) (fun _ => SameBooks s) E s := by
  rw [acceptATV, wp_bind, wp_get]
  split
  . exact .refl s
  . rw [wp_bind]
    exact wp_acceptVbkHeader a.blockOfProof

theorem isExpired_of_checkVTBContextually {p : Params} {trees : AltState} {v : VTB}
    (h : checkVTBContextually p trees v = .ok ()) : v.isExpired p = false := by
  rw [checkVTBContextually] at h
  split at h
  . cases h
  . split at h
    . cases h
    . next hnot => exact Bool.eq_false_iff.mpr hnot

theorem wp_acceptVTB (v : VTB) :
    wp (acceptVTB p v) (fun r s' => SameBooks s s' ∧ (r = .ok () → v.isExpired p = false)) E s := by
  rw [acceptVTB, wp_bind, wp_get]
  split
  . exact ⟨.refl s, nofun⟩
  . next hok =>
    have hv := isExpired_of_checkVTBContextually hok
    exact wp_mono (wp_acceptVTBHeaders v) (fun _ _ hs => ⟨hs, fun _ => hv⟩) (fun _ _ h => h)

end Accept

section Submit

variable {p : Params} {s : State}

theorem wp_updateATVsInFlight (op : ValueSortedMap.Op Nat SharedATV) (hs : s.pool.Inv p)
    (hop : op.Labelled (fun a => a.atv.getId)) :
    wp (updateATVsInFlight (fun inflight => inflight.exec atvLt op)) (fun _ => Evolves p s) StopsInTree s := by
  rw [updateATVsInFlight, wp_bind, wp_get, wp_bind, wp_getOrStop]
  constructor
  . intro inflight hexec
    exact .of_change (.atvsInFlight hop hexec) rfl
  . intro hnone
    exact absurd hnone (hs.atvsInFlight.exec_ne_none op)

theorem wp_updateVTBsInFlight (op : ValueSortedMap.Op Nat VTB) (hs : s.pool.Inv p) (hop : op.Labelled VTB.getId) :
    wp (updateVTBsInFlight (fun inflight => inflight.exec vtbLt op)) (fun _ => Evolves p s) StopsInTree s := by
  rw [updateVTBsInFlight, wp_bind, wp_get, wp_bind, wp_getOrStop]
  constructor
  . intro inflight hexec
    exact .of_change (.vtbsInFlight hop hexec) rfl
  . intro hnone
    exact absurd hnone (hs.vtbsInFlight.exec_ne_none op)

theorem wp_updateVbkBlocksInFlight (op : ValueSortedMap.Op Hash PowBlock) (hs : s.pool.Inv p)
    (hop : op.Labelled PowBlock.getHash) :
    wp (updateVbkBlocksInFlight (fun inflight => inflight.exec vbkLt op)) (fun _ => Evolves p s) StopsInTree s := by
  rw [updateVbkBlocksInFlight, wp_bind, wp_get, wp_bind, wp_getOrStop]
  constructor
  . intro inflight hexec
    exact .of_change (.vbkblocksInFlight hop hexec) rfl
  . intro hnone
    exact absurd hnone (hs.vbkblocksInFlight.exec_ne_none op)

theorem labelled_insert {κ β : Type} (id : β → κ) (value : β) : (ValueSortedMap.Op.insert (id value) value).Labelled id := by
  intro value' hvalue
  cases hvalue
  rfl

theorem labelled_erase {κ β : Type} (id : β → κ) (key : κ) : (ValueSortedMap.Op.erase key).Labelled id := nofun

theorem labelled_eraseAt {κ β : Type} (id : β → κ) (key : κ) : (ValueSortedMap.Op.eraseAt key).Labelled id := nofun

theorem wp_submitATV {a : SharedATV} (old : Bool) (hs : s.pool.Inv p) (ha : IsSound s.pool a) :
    wp (submitATV p a old) (fun _ => Evolves p s) StopsInTree s := by
  rw [submitATV, wp_bind, wp_get, wp_ite]
  refine ⟨fun _ => .refl s, fun _ => ?_⟩
  split
  . exact .refl s
  . rw [wp_bind]
    refine wp_mono (wp_acceptATV p a.atv) ?_ (fun _ _ h => h)
    intro r s1 hs1
    have hsame : Evolves p s s1 := .of_same hs1
    cases r with
    | error path =>
      rw [wp_bind]
      exact wp_mono (wp_updateATVsInFlight (.insert _ a) (hsame.inv hs) (labelled_insert (fun a => a.atv.getId) a))
        (fun _ _ hs2 => hsame.trans hs2) (fun _ _ h => h)
    | ok _ =>
      let m2 := s1.pool.getOrPutVbkRelation a.atv.blockOfProof
      have hsound : IsSound m2 a := by
        intro id b hb
        rw [MemPool.atvsAt_getOrPutVbkRelation, hs1.1.atvsAt] at hb
        exact ha id b hb
      have hmem : a.atv.blockOfProof.getHash ∈ m2.relations.keys := (Store.mem_keys_emplace _ _ _ _).mpr (Or.inl rfl)
      let m3 := { m2.insertATV s.trees.alt a with storedAtvs := m2.storedAtvs.assign a.atv.getId a }
      have hput : Evolves p s { s1 with pool := m2 } := hsame.step (.getOrPutVbkRelation _ _) rfl
      have hinsert : Evolves p s { s1 with pool := m3 } := hput.step (.insertATV hmem hsound) rfl
      rw [wp_bind, wp_modifyPool, wp_bind, wp_modifyPool, wp_bind]
      exact wp_mono (wp_updateATVsInFlight (.erase a.atv.getId) (hinsert.inv hs) (labelled_erase _ _))
        (fun _ _ hs3 => hinsert.trans hs3) (fun _ _ h => h)

theorem wp_submitVTB (v : VTB) (hs : s.pool.Inv p) : wp (submitVTB p v) (fun _ => Evolves p s) StopsInTree s := by
  rw [submitVTB]
  split
  . exact .refl s
  . rw [wp_bind]
    refine wp_mono (wp_acceptVTB p v) ?_ (fun _ _ h => h)
    intro r s1 ⟨hs1, hexpired⟩
    have hsame : Evolves p s s1 := .of_same hs1
    cases r with
    | error path =>
      rw [wp_bind]
      exact wp_mono (wp_updateVTBsInFlight (.insert _ v) (hsame.inv hs) (labelled_insert VTB.getId v))
        (fun _ _ hs2 => hsame.trans hs2) (fun _ _ h => h)
    | ok _ =>
      let m2 := s1.pool.getOrPutVbkRelation v.containingBlock
      have hmem : v.containingBlock.getHash ∈ m2.relations.keys := (Store.mem_keys_emplace _ _ _ _).mpr (Or.inl rfl)
      let m3 := { m2.pushVTB v with storedVtbs := m2.storedVtbs.assign v.getId v }
      have hput : Evolves p s { s1 with pool := m2 } := hsame.step (.getOrPutVbkRelation _ _) rfl
      have hpush : Evolves p s { s1 with pool := m3 } := hput.step (.pushVTB hmem (hexpired rfl)) rfl
      rw [wp_bind, wp_modifyPool, wp_bind, wp_modifyPool, wp_bind]
      exact wp_mono (wp_updateVTBsInFlight (.erase v.getId) (hpush.inv hs) (labelled_erase _ _))
        (fun _ _ hs3 => hpush.trans hs3) (fun _ _ h => h)

theorem wp_submitVbkBlock (b : PowBlock) (old : Bool) (hs : s.pool.Inv p) :
    wp (submitVbkBlock p b old) (fun _ => Evolves p s) StopsInTree s := by
  rw [submitVbkBlock, wp_bind, wp_get, wp_ite]
  refine ⟨fun _ => .refl s, fun _ => ?_⟩
  split
  . exact .refl s
  . rw [wp_bind]
    refine wp_mono (wp_acceptVbkHeader b) ?_ (fun _ _ h => h)
    intro r s1 hs1
    have hsame : Evolves p s s1 := .of_same hs1
    cases r with
    | error path =>
      rw [wp_bind]
      exact wp_mono (wp_updateVbkBlocksInFlight (.insert _ b) (hsame.inv hs) (labelled_insert PowBlock.getHash b))
        (fun _ _ hs2 => hsame.trans hs2) (fun _ _ h => h)
    | ok _ =>
      have hfinish : ∀ s2 : State, Evolves p s s2 →
          wp (updateVbkBlocksInFlight (fun inflight => inflight.erase vbkLt b.getHash) >>= fun _ => pure SubmitResult.valid)
            (fun _ => Evolves p s) StopsInTree s2 := by
        intro s2 hs2
        rw [wp_bind]
        exact wp_mono (wp_updateVbkBlocksInFlight (.erase b.getHash) (hs2.inv hs) (labelled_erase _ _))
          (fun _ _ hs3 => hs2.trans hs3) (fun _ _ h => h)
      rw [wp_bind, wp_when]
      exact ⟨fun _ => hfinish _ (hsame.step (.getOrPutVbkRelation _ _) rfl), fun _ => hfinish s1 hsame⟩

theorem isSound_new (alloc : Allocator) (m : MemPool) (a : ATV) : IsSound m ⟨alloc.new m.addresses, a⟩ := by
  intro id b hb haddr
  obtain ⟨rel, hrel, hb⟩ := MemPool.mem_atvsAt_iff.mp hb
  have hmem : b.addr ∈ m.addresses := by
    simp only [MemPool.addresses, List.mem_append, List.mem_flatMap, List.mem_map]
    exact Or.inl (Or.inl (Or.inl ⟨(id, rel), Store.mem_of_find? hrel, b, hb, rfl⟩))
  rw [haddr] at hmem
  exact absurd hmem (alloc.new_not_mem _)

/-- A loop whose rounds evolve the state evolves it. -/
theorem wp_forEach_evolves {α : Type} {f : α → P Unit} (l : List α) {s0 : State} (hs0 : s0.pool.Inv p)
    (hs : Evolves p s0 s) (hf : ∀ a s', s'.pool.Inv p → wp (f a) (fun _ => Evolves p s') StopsInTree s') :
    wp (forEach f l) (fun _ => Evolves p s0) StopsInTree s :=
  wp_forEach (fun a _ s' hs' => wp_mono (hf a s' (hs'.inv hs0)) (fun _ _ h => hs'.trans h) (fun _ _ h => h)) hs

theorem wp_tryConnectPayloads (alloc : Allocator) (hs : s.pool.Inv p) :
    wp (tryConnectPayloads p alloc) (fun _ => Evolves p s) StopsInTree s := by
  rw [tryConnectPayloads, wp_bind, wp_get, wp_bind]
  refine wp_mono (wp_forEach_evolves _ hs (.refl s) ?_) ?_ (fun _ _ h => h)
  . intro b s1 hs1
    rw [wp_bind]
    exact wp_submitVbkBlock b false hs1
  intro _ s1 hs1
  rw [wp_bind, wp_get, wp_bind]
  refine wp_mono (wp_forEach_evolves _ hs hs1 ?_) ?_ (fun _ _ h => h)
  . intro v s2 hs2
    rw [wp_bind]
    exact wp_submitVTB v hs2
  intro _ s2 hs2
  rw [wp_bind, wp_get]
  apply wp_forEach_evolves _ hs hs2
  intro a s3 hs3
  rw [wp_bind, wp_get, wp_bind]
  exact wp_submitATV false hs3 (isSound_new alloc s3.pool a.atv)

end Submit

section CleanUp

variable (p : Params)

/-- The relation of a VBK block is too old, and holds ATVs. -/
def HoldsOldATVs (trees : AltState) (m : MemPool) (id : Hash) : Prop :=
  ∃ rel, m.relations.find? id = some rel ∧ isTooOld p trees rel.header = true ∧ rel.atvs ≠ []

/-- No relation that is too old still holds ATVs. -/
def NoOldATVs (trees : AltState) (m : MemPool) : Prop := ∀ id, ¬HoldsOldATVs p trees m id

variable {p} {m m' : MemPool} {trees : AltState}

theorem ATV.isStale_eq {a b : ATV} (h : a.getId = b.getId) : a.isStale p trees = b.isStale p trees := by
  rw [isStale, isStale, checkATVContextually, checkATVContextually, h, (getId_eq_iff.mp h).1]

theorem VTB.isStale_eq {v w : VTB} (hv : v.isExpired p = false) (hw : w.isExpired p = false) (h : v.getId = w.getId) :
    v.isStale p trees = w.isStale p trees := by
  rw [isStale, isStale, checkVTBContextually, checkVTBContextually, hv, hw, isDuplicate, isDuplicate, h,
    containingBlock_of_getId h]

theorem HoldsOldATVs.congr {id : Hash} (hm : m'.relations.find? id = m.relations.find? id) :
    HoldsOldATVs p trees m' id ↔ HoldsOldATVs p trees m id := by
  rw [HoldsOldATVs, HoldsOldATVs, hm]

/-- Relations change, and none of them gets ATVs that had none. -/
theorem NoOldATVs.modify (h : NoOldATVs p trees m) {id : Hash} {f : VbkPayloadsRelations → VbkPayloadsRelations}
    (hm : m'.relations = m.relations.modify id f) (hheader : ∀ rel, (f rel).header = rel.header)
    (hatvs : ∀ rel, rel.atvs = [] → (f rel).atvs = []) : NoOldATVs p trees m' := by
  rintro id' ⟨rel', hfind, hold, hne⟩
  rw [hm, Store.find?_modify] at hfind
  split at hfind
  . next heq =>
    obtain ⟨rel, hrel, heq⟩ := Option.map_eq_some_iff.mp hfind
    rw [← heq, hheader] at hold
    rw [← heq] at hne
    exact h id' ⟨rel, hrel, hold, fun hempty => hne (hatvs rel hempty)⟩
  . exact h id' ⟨rel', hfind, hold, hne⟩

theorem NoOldATVs.eraseRelation (h : NoOldATVs p trees m) {id : Hash} (hm : m'.relations = m.relations.erase id) :
    NoOldATVs p trees m' := by
  rintro id' ⟨rel', hfind, hold, hne⟩
  rw [hm, Store.find?_erase] at hfind
  split at hfind
  . cases hfind
  . exact h id' ⟨rel', hfind, hold, hne⟩

theorem NoOldATVs.eraseATVs (h : NoOldATVs p trees m) (id : Hash) (stale : ATV → Bool) :
    NoOldATVs p trees (m.eraseATVs id stale) :=
  h.modify (f := fun rel => { rel with atvs := rel.atvs.filter (fun a => !stale a.atv) }) rfl (fun _ => rfl)
    (fun rel hrel => by rw [hrel, List.filter_nil])

theorem NoOldATVs.eraseVTBs (h : NoOldATVs p trees m) (id : Hash) (stale : VTB → Bool) :
    NoOldATVs p trees (m.eraseVTBs id stale) :=
  h.modify (f := fun rel => { rel with vtbs := rel.vtbs.filter (fun v => !stale v) }) rfl (fun _ => rfl)
    (fun _ hrel => hrel)

theorem NoOldATVs.eraseIfEmpty (h : NoOldATVs p trees m) (id : Hash) : NoOldATVs p trees (m.eraseIfEmpty id) := by
  rw [MemPool.eraseIfEmpty]
  split
  . exact h
  . split
    . exact h.eraseRelation rfl
    . exact h

theorem Change.eraseIfEmpty (m : MemPool) (id : Hash) : Change p trees m (m.eraseIfEmpty id) := by
  rw [MemPool.eraseIfEmpty]
  split
  . exact .temp (.refl m)
  . next rel hrel =>
    split
    . next hempty => exact .eraseRelation hrel hempty
    . exact .temp (.refl m)

variable {s s0 : State}

theorem find?_eraseIfEmpty (m : MemPool) {id id' : Hash} (hne : id ≠ id') :
    (m.eraseIfEmpty id).relations.find? id' = m.relations.find? id' := by
  rw [MemPool.eraseIfEmpty]
  split
  . rfl
  . split
    . rw [Store.find?_erase, if_neg hne]
    . rfl

/-- What a round of the loop over the relations in `cleanUp` keeps, apart from the relation that it is about -/
structure CleansUp (p : Params) (s0 : State) (id : Hash) (s s' : State) : Prop where
  evolves : Evolves p s0 s'
  noOldATVs : NoOldATVs p s0.trees s.pool → NoOldATVs p s0.trees s'.pool
  others : ∀ id', id ≠ id' → s'.pool.relations.find? id' = s.pool.relations.find? id'

/-- A round for a relation that holds no old ATVs does not stop. -/
theorem wp_cleanUpRelation {E : Stop → State → Prop} {id : Hash} (hs : Evolves p s0 s)
    (hold : ¬HoldsOldATVs p s0.trees s.pool id) : wp (cleanUpRelation p id) (fun _ => CleansUp p s0 id s) E s := by
  rw [cleanUpRelation, wp_bind, wp_get, hs.2]
  split
  . exact ⟨hs, fun h => h, fun _ _ => rfl⟩
  . next rel hrel =>
    have hnone : isTooOld p s0.trees rel.header = true → rel.atvs = [] := by
      intro htooOld
      by_contra hne
      exact hold ⟨rel, hrel, htooOld, hne⟩
    have hloop : ∀ Q : Unit → State → Prop, Q () s →
        wp (when (isTooOld p s0.trees rel.header) (eraseOldATVs id rel.atvs)) Q E s := by
      intro Q hQ
      rw [wp_when]
      refine ⟨fun htooOld => ?_, fun _ => hQ⟩
      rw [hnone htooOld]
      exact hQ
    rw [wp_bind]
    apply hloop
    rw [wp_ite]
    constructor
    . intro hempty
      rw [Bool.and_eq_true] at hempty
      have hrelEmpty : rel.isEmpty = true := by
        rw [VbkPayloadsRelations.isEmpty, hnone hempty.1, hempty.2]
        rfl
      exact {
        evolves := hs.step (.eraseRelation hrel hrelEmpty) rfl
        noOldATVs := fun h => h.eraseRelation rfl
        others := fun id' hne => by rw [Store.find?_erase, if_neg hne] }
    . intro _
      let m1 := s.pool.eraseVTBs id (VTB.isStale p s0.trees)
      let m2 := m1.eraseATVs id (ATV.isStale p s0.trees)
      have hvtbs : Evolves p s0 { s with pool := m1 } :=
        hs.step (.eraseVTBs _ id (fun _ _ hv hw hid => VTB.isStale_eq hv hw hid)) rfl
      have hatvs : CleansUp p s0 id s { s with pool := m2 } := {
        evolves := hvtbs.step (.eraseATVs _ id (fun _ _ hid => ATV.isStale_eq hid)) rfl
        noOldATVs := fun h => (h.eraseVTBs _ _).eraseATVs _ _
        others := fun id' hne => (Store.find?_modify_of_ne _ _ hne).trans (Store.find?_modify_of_ne _ _ hne) }
      rw [wp_bind, wp_modifyPool, wp_bind, wp_modifyPool, wp_when]
      constructor
      . intro _
        exact {
          evolves := hatvs.evolves.step (.eraseIfEmpty _ id) rfl
          noOldATVs := fun h => (hatvs.noOldATVs h).eraseIfEmpty id
          others := fun id' hne => (find?_eraseIfEmpty m2 hne).trans (hatvs.others id' hne) }
      . exact fun _ => hatvs

theorem wp_when_evolves {b : Bool} {call : P Unit} (h : wp call (fun _ => Evolves p s) StopsInTree s) :
    wp (when b call) (fun _ => Evolves p s) StopsInTree s := by
  rw [wp_when]
  exact ⟨fun _ => h, fun _ => .refl s⟩

theorem wp_cleanUp (hs : s.pool.Inv p) (hold : NoOldATVs p s.trees s.pool) :
    wp (cleanUp p) (fun _ => Evolves p s) StopsInTree s := by
  rw [cleanUp, wp_bind, wp_get, wp_bind]
  refine wp_mono (wp_forEach (I := fun s' => Evolves p s s' ∧ NoOldATVs p s.trees s'.pool) ?_ ⟨.refl s, hold⟩) ?_
    (fun _ _ h => h)
  . intro id _ s' hs'
    exact wp_mono (wp_cleanUpRelation hs'.1 (hs'.2 id)) (fun _ _ h => ⟨h.evolves, h.noOldATVs hs'.2⟩) (fun _ _ h => h)
  intro _ s1 ⟨hs1, _⟩
  rw [wp_bind, wp_get, wp_bind]
  refine wp_mono (wp_forEach_evolves _ hs hs1 ?_) ?_ (fun _ _ h => h)
  . exact fun e s' hs' => wp_when_evolves (wp_updateVTBsInFlight (.eraseAt e.1) hs' (labelled_eraseAt _ _))
  intro _ s2 hs2
  rw [wp_bind]
  refine wp_mono (wp_forEach_evolves _ hs hs2 ?_) ?_ (fun _ _ h => h)
  . exact fun e s' hs' => wp_when_evolves (wp_updateATVsInFlight (.eraseAt e.1) hs' (labelled_eraseAt _ _))
  intro _ s3 hs3
  rw [wp_bind]
  refine wp_mono (wp_forEach_evolves _ hs hs3 ?_) ?_ (fun _ _ h => h)
  . exact fun e s' hs' => wp_when_evolves (wp_updateVbkBlocksInFlight (.eraseAt e.1) hs' (labelled_eraseAt _ _))
  intro _ s4 hs4
  rw [wp_bind, wp_modifyPool, wp_bind, wp_get, wp_check]
  constructor
  . intro _
    exact hs4.step (.temp ⟨_, _, rfl⟩) rfl
  . intro hne
    exact absurd (hs4.inv hs).length_eq (of_decide_eq_false hne)

theorem wp_removeListed (pop : PopData) : wp (removeListed pop) (fun _ => Evolves p s) StopsInTree s := by
  rw [removeListed, wp_bind, wp_get]
  refine wp_forEach ?_ (.refl s)
  intro id _ s1 hs1
  rw [removeFromRelation, wp_bind, wp_get]
  split
  . exact hs1
  . let atvListed := fun a : ATV => decide (a.getId ∈ pop.atvs.map AltIntegration.ATV.getId)
    let vtbListed := fun v : VTB => decide (v.getId ∈ pop.vtbs.map AltIntegration.VTB.getId)
    let m1 := s1.pool.eraseATVs id atvListed
    let m2 := m1.eraseVTBs id vtbListed
    have hatv : ∀ a b : ATV, a.getId = b.getId → atvListed a = atvListed b := fun a b hid => by simp only [atvListed, hid]
    have hvtb : ∀ v w : VTB, v.getId = w.getId → vtbListed v = vtbListed w := fun v w hid => by simp only [vtbListed, hid]
    have hatvs : Evolves p s { s1 with pool := m1 } := hs1.step (.eraseATVs _ id hatv) rfl
    have hvtbs : Evolves p s { s1 with pool := m2 } := hatvs.step (.eraseVTBs _ id (fun v w _ _ => hvtb v w)) rfl
    rw [wp_bind, wp_modifyPool, wp_bind, wp_modifyPool, wp_when]
    exact ⟨fun _ => hvtbs.step (.eraseIfEmpty _ id) rfl, fun _ => hvtbs⟩

/-- A program of the trees leaves the mempool alone. -/
theorem wp_onTrees {α : Type} (call : M AltState α) : wp (onTrees call) (fun _ s' => s'.pool = s.pool) StopsInTree s := by
  unfold wp onTrees
  cases call s.trees with
  | ok a t => rfl
  | error e t => exact ⟨e, rfl⟩

theorem wp_filterCandidates : wp (filterCandidates p) (fun _ s' => s'.pool = s.pool) StopsInTree s := by
  rw [filterCandidates, wp_bind, wp_get]
  exact wp_onTrees _

end CleanUp

section Runs

variable (p : Params)

/-- The part of a call before it cleans up, if it does -/
def Op.beforeCleanUp : Op → Option (P Unit)
  | removeAll _ pop => some (removeListed pop)
  | cleanUp => some (pure ())
  | generatePopData alloc => some (do
    let _ ← selectPayloads p alloc)
  | _ => none

/-- When the call cleans up, no relation that is too old still holds ATVs. -/
def MeetsNoOldATVs (s : State) (op : Op) : Prop :=
  ∀ call ∈ op.beforeCleanUp p, wlp call (fun _ s' => NoOldATVs p s'.trees s'.pool) s

/-- What happens to the trees in a call satisfies `R`: somebody else changes them, or the payloads for a block are tried. -/
def Op.ChangesTrees (R : State → AltState → Prop) (s : State) : Op → Prop
  | changeTrees trees => R s trees
  | generatePopData alloc =>
    wlp (tryConnectPayloads p alloc) (fun _ s1 => wlp (filterCandidates p) (fun _ s2 => R s1 s2.trees) s1) s
  | _ => True

variable {p} {s : State} {R : State → AltState → Prop} {J : State → Prop}

/-- The elementary changes of the maps keep `J`, and so do changes of the trees that satisfy `R`. -/
structure Keeps (p : Params) (R : State → AltState → Prop) (J : State → Prop) : Prop where
  change : ∀ {trees m m'}, J ⟨m, trees⟩ → Change p trees m m' → J ⟨m', trees⟩
  trees : ∀ {s trees}, J s → R s trees → J ⟨s.pool, trees⟩

theorem Evolves.keeps_state {s' : State} (h : Evolves p s s') (hJ : Keeps p R J) (hs : J s) : J s' := by
  obtain ⟨m', trees'⟩ := s'
  obtain rfl : trees' = s.trees := h.2
  exact h.keeps (J := fun m => J ⟨m, s.trees⟩) (fun _ _ hm hstep => hJ.change hm hstep) hs

/-- What every elementary change keeps, every call keeps. -/
theorem wp_exec (hJ : Keeps p R J) {op : Op} (hs : s.pool.Inv p) (hJs : J s) (hop : op.IsSound s)
    (hold : MeetsNoOldATVs p s op) (hR : op.ChangesTrees p R s) :
    wp (op.exec p) (fun _ s' => s'.pool.Inv p ∧ J s') StopsInTree s := by
  have hpost : ∀ {s s' : State}, s.pool.Inv p → J s → Evolves p s s' → s'.pool.Inv p ∧ J s' :=
    fun hs hJs h => ⟨h.inv hs, h.keeps_state hJ hJs⟩
  cases op with
  | submitATV a old =>
    have ha : IsSound s.pool a := by
      intro id b hb haddr
      obtain ⟨rel, hrel, hb⟩ := MemPool.mem_atvsAt_iff.mp hb
      exact hop id rel hrel b hb haddr
    rw [Op.exec, wp_bind]
    exact wp_mono (wp_submitATV old hs ha) (fun _ _ h => hpost hs hJs h) (fun _ _ h => h)
  | submitVTB v =>
    rw [Op.exec, wp_bind]
    exact wp_mono (wp_submitVTB v hs) (fun _ _ h => hpost hs hJs h) (fun _ _ h => h)
  | submitVbkBlock b old =>
    rw [Op.exec, wp_bind]
    exact wp_mono (wp_submitVbkBlock b old hs) (fun _ _ h => hpost hs hJs h) (fun _ _ h => h)
  | removeAll alloc pop =>
    rw [Op.exec, removeAll, wp_bind]
    refine wp_mono (wp_and (wp_removeListed (p := p) pop) (hold _ rfl)) ?_ (fun _ _ h => h.1)
    intro _ s1 ⟨hs1, hold1⟩
    rw [wp_bind]
    refine wp_mono (wp_cleanUp (hs1.inv hs) hold1) ?_ (fun _ _ h => h)
    intro _ s2 hs2
    have hs2 := hs1.trans hs2
    exact wp_mono (wp_tryConnectPayloads alloc (hs2.inv hs)) (fun _ _ h => hpost hs hJs (hs2.trans h)) (fun _ _ h => h)
  | cleanUp => exact wp_mono (wp_cleanUp hs (hold _ rfl)) (fun _ _ h => hpost hs hJs h) (fun _ _ h => h)
  | generatePopData alloc =>
    have hold := wlp_bind.mp (wlp_bind.mp (hold _ rfl))
    rw [Op.exec, generatePopData, selectPayloads, wp_bind, wp_bind, wp_bind]
    refine wp_mono (wp_and (wp_tryConnectPayloads alloc hs) (wlp_and hold hR)) ?_ (fun _ _ h => h.1)
    intro _ s1 ⟨hs1, hold1, hR1⟩
    have h1 := hpost hs hJs hs1
    refine wp_mono (wp_and (wp_filterCandidates (s := s1)) (wlp_and hold1 hR1)) ?_ (fun _ _ h => h.1)
    intro _ s2 ⟨hs2, hold2, hR2⟩
    have hinv2 : s2.pool.Inv p := by
      rw [hs2]
      exact h1.1
    have hJ2 : J s2 := by
      have := hJ.trees h1.2 hR2
      rw [← hs2] at this
      exact this
    rw [wp_bind]
    exact wp_mono (wp_cleanUp hinv2 hold2) (fun _ _ h => hpost hinv2 hJ2 h) (fun _ _ h => h)
  | clear => exact hpost hs hJs (.of_change (.clear s.pool) rfl)
  | changeTrees trees => exact ⟨hs, hJ.trees hJs hR⟩

/-- What every call keeps holds in every state of a run. -/
theorem Reachable.inv {C : State → Op → Prop} (hC : ∀ s op, C s op → MeetsNoOldATVs p s op ∧ op.ChangesTrees p R s)
    (hJ : Keeps p R J) (hstart : ∀ trees, J ⟨MemPool.empty, trees⟩) (h : Reachable p C s) : s.pool.Inv p ∧ J s := by
  induction h with
  | start trees => exact ⟨MemPool.Inv.empty, hstart trees⟩
  | step _ hop hCs hexec ih =>
    obtain ⟨hold, hR⟩ := hC _ _ hCs
    have hinv := wp_ok (wp_exec hJ ih.1 ih.2 hop hold hR) hexec
    exact hinv

/-- Whatever the trees do -/
theorem changesTrees_true (op : Op) (s : State) : op.ChangesTrees p (fun _ _ => True) s := by
  cases op with
  | generatePopData alloc => exact wlp_iff.mpr (fun _ _ _ => wlp_iff.mpr (fun _ _ _ => trivial))
  | _ => trivial

theorem keeps_true : Keeps p (fun _ _ => True) (fun _ => True) := ⟨fun _ _ => trivial, fun _ _ => trivial⟩

/-- What the elementary changes of the maps keep holds in every run whose clean-ups meet no old ATVs. -/
theorem Reachable.inv_of_noOldATVs (hJ : Keeps p (fun _ _ => True) J) (hstart : ∀ trees, J ⟨MemPool.empty, trees⟩)
    (h : Reachable p (MeetsNoOldATVs p) s) : s.pool.Inv p ∧ J s :=
  h.inv (fun s op hold => ⟨hold, changesTrees_true op s⟩) hJ hstart

end Runs

end Mempool

end AltIntegration
