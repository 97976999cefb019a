import Mathlib.Logic.Relation
import AltIntegration.Data.Catalogue
import AltIntegration.Mempool.MemPool

/-!
This module contains what the calls of the mempool do to the maps of connected payloads, one elementary change
at a time, and what every such change keeps: the ids in the maps are those of the payloads that the relations
hold.
-/

namespace AltIntegration

namespace Mempool

/-- The VBK block that the id of an ATV commits to -/
def atvHome (id : Nat) : Hash := (Nat.unpair id).2

/-- The VBK block that the id of a VTB commits to -/
def vtbHome (id : Nat) : Hash := (Nat.unpair (Nat.unpair id).2).2

theorem atvHome_getId (a : ATV) : atvHome a.getId = a.blockOfProof.getHash := by
  rw [atvHome, ATV.getId, AltIntegration.ATV.getId, Nat.unpair_pair]
  rfl

theorem vtbHome_getId (v : VTB) : vtbHome v.getId = v.containingBlock.getHash := by
  rw [vtbHome, VTB.getId, AltIntegration.VTB.getId, Nat.unpair_pair, Nat.unpair_pair]
  rfl

namespace MemPool

theorem mem_atvsAt_iff {m : MemPool} {id : Hash} {a : SharedATV} :
    a ∈ m.atvsAt id ↔ ∃ rel, m.relations.find? id = some rel ∧ a ∈ rel.atvs := by
  rw [atvsAt]
  cases m.relations.find? id with
  | none => simp
  | some rel => simp

theorem mem_vtbsAt_iff {m : MemPool} {id : Hash} {v : VTB} :
    v ∈ m.vtbsAt id ↔ ∃ rel, m.relations.find? id = some rel ∧ v ∈ rel.vtbs := by
  rw [vtbsAt]
  cases m.relations.find? id with
  | none => simp
  | some rel => simp

theorem map_find?_modify {α : Type} (relations : Store Hash VbkPayloadsRelations) {id : Hash}
    {f : VbkPayloadsRelations → VbkPayloadsRelations} {part : VbkPayloadsRelations → α}
    (hf : ∀ rel, part (f rel) = part rel) (id' : Hash) :
    ((relations.modify id f).find? id').map part = (relations.find? id').map part := by
  rw [Store.find?_modify]
  split
  . rw [Option.map_map]
    exact Option.map_congr (fun rel _ => hf rel)
  . rfl

theorem elim_find?_modify {α : Type} (relations : Store Hash VbkPayloadsRelations) (id : Hash)
    (f : VbkPayloadsRelations → VbkPayloadsRelations) (items : VbkPayloadsRelations → List α) (id' : Hash) :
    ((relations.modify id f).find? id').elim [] items =
      if id = id' then (relations.find? id).elim [] (fun rel => items (f rel)) else (relations.find? id').elim [] items := by
  rw [Store.find?_modify]
  split
  . next heq =>
    rw [← heq]
    cases relations.find? id with
    | none => rfl
    | some rel => rfl
  . rfl

theorem elim_find?_emplace {α : Type} (relations : Store Hash VbkPayloadsRelations) {b : PowBlock}
    {items : VbkPayloadsRelations → List α} (hitems : items { header := b } = []) (id' : Hash) :
    ((relations.emplace b.getHash { header := b }).find? id').elim [] items = (relations.find? id').elim [] items := by
  rw [Store.find?_emplace]
  split
  . next heq =>
    rw [← heq]
    cases relations.find? b.getHash with
    | none => exact hitems
    | some rel => rfl
  . rfl

theorem atvsAt_getOrPutVbkRelation (m : MemPool) (b : PowBlock) (id : Hash) :
    (m.getOrPutVbkRelation b).atvsAt id = m.atvsAt id := elim_find?_emplace m.relations rfl id

theorem vtbsAt_getOrPutVbkRelation (m : MemPool) (b : PowBlock) (id : Hash) :
    (m.getOrPutVbkRelation b).vtbsAt id = m.vtbsAt id := elim_find?_emplace m.relations rfl id

section

variable (m : MemPool) (id : Hash)

theorem vtbsAt_insertATV (t : Tree AltAddon) (a : SharedATV) : (m.insertATV t a).vtbsAt id = m.vtbsAt id := by
  rw [vtbsAt, insertATV, elim_find?_modify]
  split
  . next heq => rw [heq, vtbsAt]
  . rfl

theorem atvsAt_pushVTB (v : VTB) : (m.pushVTB v).atvsAt id = m.atvsAt id := by
  rw [atvsAt, pushVTB, elim_find?_modify]
  split
  . next heq => rw [heq, atvsAt]
  . rfl

theorem vtbsAt_eraseATVs (k : Hash) (stale : ATV → Bool) : (m.eraseATVs k stale).vtbsAt id = m.vtbsAt id := by
  rw [vtbsAt, eraseATVs, elim_find?_modify]
  split
  . next heq => rw [heq, vtbsAt]
  . rfl

theorem atvsAt_eraseVTBs (k : Hash) (stale : VTB → Bool) : (m.eraseVTBs k stale).atvsAt id = m.atvsAt id := by
  rw [atvsAt, eraseVTBs, elim_find?_modify]
  split
  . next heq => rw [heq, atvsAt]
  . rfl

theorem atvsAt_eraseATVs (k : Hash) (stale : ATV → Bool) :
    (m.eraseATVs k stale).atvsAt id = if k = id then (m.atvsAt k).filter (fun a => !stale a.atv) else m.atvsAt id := by
  rw [atvsAt, eraseATVs, elim_find?_modify, atvsAt]
  cases m.relations.find? k with
  | none => rfl
  | some rel => rfl

theorem vtbsAt_eraseVTBs (k : Hash) (stale : VTB → Bool) :
    (m.eraseVTBs k stale).vtbsAt id = if k = id then (m.vtbsAt k).filter (fun v => !stale v) else m.vtbsAt id := by
  rw [vtbsAt, eraseVTBs, elim_find?_modify, vtbsAt]
  cases m.relations.find? k with
  | none => rfl
  | some rel => rfl

variable {m}

theorem atvsAt_insertATV {t : Tree AltAddon} {a : SharedATV} (hmem : a.atv.blockOfProof.getHash ∈ m.relations.keys) :
    (m.insertATV t a).atvsAt id =
      if a.atv.blockOfProof.getHash = id then OrderedSet.insert (ComesBefore t) a (m.atvsAt id) else m.atvsAt id := by
  have ⟨rel, hrel⟩ := Option.isSome_iff_exists.mp ((Store.mem_keys_iff _ _).mp hmem)
  rw [atvsAt, insertATV, elim_find?_modify]
  split
  . next heq =>
    rw [← heq, atvsAt, hrel]
    rfl
  . rfl

theorem vtbsAt_pushVTB {v : VTB} (hmem : v.containingBlock.getHash ∈ m.relations.keys) :
    (m.pushVTB v).vtbsAt id = if v.containingBlock.getHash = id then m.vtbsAt id ++ [v] else m.vtbsAt id := by
  have ⟨rel, hrel⟩ := Option.isSome_iff_exists.mp ((Store.mem_keys_iff _ _).mp hmem)
  rw [vtbsAt, pushVTB, elim_find?_modify]
  split
  . next heq =>
    rw [← heq, vtbsAt, hrel]
    rfl
  . rfl

end

theorem vtbsAt_eraseRelation {m : MemPool} {id : Hash} {rel : VbkPayloadsRelations}
    (hrel : m.relations.find? id = some rel) (hempty : rel.isEmpty = true) (id' : Hash) :
    MemPool.vtbsAt { m with vbkblocks := m.vbkblocks.erase rel.header.getHash, relations := m.relations.erase id } id' =
      m.vtbsAt id' := by
  rw [VbkPayloadsRelations.isEmpty, Bool.and_eq_true, List.isEmpty_iff, List.isEmpty_iff] at hempty
  rw [vtbsAt, Store.find?_erase, vtbsAt]
  split
  . next heq => rw [← heq, hrel, Option.elim_some, hempty.2, Option.elim_none]
  . rfl

theorem atvsAt_eraseRelation {m : MemPool} {id : Hash} {rel : VbkPayloadsRelations}
    (hrel : m.relations.find? id = some rel) (hempty : rel.isEmpty = true) (id' : Hash) :
    MemPool.atvsAt { m with vbkblocks := m.vbkblocks.erase rel.header.getHash, relations := m.relations.erase id } id' =
      m.atvsAt id' := by
  rw [VbkPayloadsRelations.isEmpty, Bool.and_eq_true, List.isEmpty_iff] at hempty
  rw [atvsAt, Store.find?_erase, atvsAt]
  split
  . next heq => rw [← heq, hrel, Option.elim_some, hempty.1, Option.elim_none]
  . rfl

/-- Only the temporary blocks differ. -/
def SameHeld (m m' : MemPool) : Prop := ∃ tempVbk tempBtc, m' = { m with tempVbk := tempVbk, tempBtc := tempBtc }

theorem SameHeld.refl (m : MemPool) : m.SameHeld m := ⟨m.tempVbk, m.tempBtc, rfl⟩

theorem SameHeld.trans {m m' m'' : MemPool} (h : m.SameHeld m') (h' : m'.SameHeld m'') : m.SameHeld m'' := by
  obtain ⟨_, _, rfl⟩ := h
  obtain ⟨tempVbk, tempBtc, rfl⟩ := h'
  exact ⟨tempVbk, tempBtc, rfl⟩

theorem SameHeld.atvsAt {m m' : MemPool} (h : m.SameHeld m') (id : Hash) : m'.atvsAt id = m.atvsAt id := by
  obtain ⟨_, _, rfl⟩ := h
  rfl

end MemPool

/-- `a` is at an address where nothing else is. -/
def IsSound (m : MemPool) (a : SharedATV) : Prop := ∀ id, ∀ b ∈ m.atvsAt id, b.addr = a.addr → b = a

/-- What a call does to the maps, one thing at a time -/
inductive Change (p : Params) (trees : AltState) : MemPool → MemPool → Prop where
  | temp {m m' : MemPool} (h : m.SameHeld m') : Change p trees m m'
  | atvsInFlight {m : MemPool} {op : ValueSortedMap.Op Nat SharedATV} {inflight : ValueSortedMap Nat SharedATV}
    (hop : op.Labelled (fun a => a.atv.getId)) (h : m.atvsInFlight.exec atvLt op = some inflight) :
    Change p trees m { m with atvsInFlight := inflight }
  | vtbsInFlight {m : MemPool} {op : ValueSortedMap.Op Nat VTB} {inflight : ValueSortedMap Nat VTB}
    (hop : op.Labelled VTB.getId) (h : m.vtbsInFlight.exec vtbLt op = some inflight) :
    Change p trees m { m with vtbsInFlight := inflight }
  | vbkblocksInFlight {m : MemPool} {op : ValueSortedMap.Op Hash PowBlock} {inflight : ValueSortedMap Hash PowBlock}
    (hop : op.Labelled PowBlock.getHash) (h : m.vbkblocksInFlight.exec vbkLt op = some inflight) :
    Change p trees m { m with vbkblocksInFlight := inflight }
  | getOrPutVbkRelation (m : MemPool) (b : PowBlock) : Change p trees m (m.getOrPutVbkRelation b)
  | insertATV {m : MemPool} {a : SharedATV} (hmem : a.atv.blockOfProof.getHash ∈ m.relations.keys) (ha : IsSound m a) :
    Change p trees m { m.insertATV trees.alt a with storedAtvs := m.storedAtvs.assign a.atv.getId a }
  | pushVTB {m : MemPool} {v : VTB} (hmem : v.containingBlock.getHash ∈ m.relations.keys) (hv : v.isExpired p = false) :
    Change p trees m { m.pushVTB v with storedVtbs := m.storedVtbs.assign v.getId v }
  /-- ATVs of one id go together. -/
  | eraseATVs (m : MemPool) (id : Hash) {stale : ATV → Bool}
    (hstale : ∀ a b : ATV, a.getId = b.getId → stale a = stale b) : Change p trees m (m.eraseATVs id stale)
  /-- VTBs of one id go together, of those that have not expired. -/
  | eraseVTBs (m : MemPool) (id : Hash) {stale : VTB → Bool}
    (hstale : ∀ v w : VTB, v.isExpired p = false → w.isExpired p = false → v.getId = w.getId → stale v = stale w) :
    Change p trees m (m.eraseVTBs id stale)
  | eraseRelation {m : MemPool} {id : Hash} {rel : VbkPayloadsRelations} (hrel : m.relations.find? id = some rel)
    (hempty : rel.isEmpty = true) :
    Change p trees m { m with vbkblocks := m.vbkblocks.erase rel.header.getHash, relations := m.relations.erase id }
  | clear (m : MemPool) : Change p trees m MemPool.empty

/-- What a change does to the ATVs of a VBK block: one is put into the set, or some are left out. -/
theorem Change.atvsAt {p : Params} {trees : AltState} {m m' : MemPool} (h : Change p trees m m') (id : Hash) :
    (∃ a, IsSound m a ∧ m'.atvsAt id = OrderedSet.insert (ComesBefore trees.alt) a (m.atvsAt id)) ∨
      ∃ kept : SharedATV → Bool, m'.atvsAt id = (m.atvsAt id).filter kept := by
  have hsame : m'.atvsAt id = m.atvsAt id → ∃ kept : SharedATV → Bool, m'.atvsAt id = (m.atvsAt id).filter kept := by
    intro heq
    exact ⟨fun _ => true, by rw [heq, List.filter_true]⟩
  cases h with
  | temp h => exact Or.inr (hsame (h.atvsAt id))
  | atvsInFlight _ _ | vtbsInFlight _ _ | vbkblocksInFlight _ _ => exact Or.inr (hsame rfl)
  | getOrPutVbkRelation b => exact Or.inr (hsame (MemPool.atvsAt_getOrPutVbkRelation m b id))
  | insertATV hmem ha =>
    have heq := MemPool.atvsAt_insertATV (t := trees.alt) id hmem
    split at heq
    . exact Or.inl ⟨_, ha, heq⟩
    . exact Or.inr (hsame heq)
  | pushVTB _ _ => exact Or.inr (hsame (MemPool.atvsAt_pushVTB m id _))
  | eraseATVs id' _ =>
    rw [MemPool.atvsAt_eraseATVs]
    split
    . next heq =>
      rw [heq]
      exact Or.inr ⟨_, rfl⟩
    . exact Or.inr ⟨fun _ => true, by rw [List.filter_true]⟩
  | eraseVTBs id' _ => exact Or.inr (hsame (MemPool.atvsAt_eraseVTBs m id id' _))
  | eraseRelation hrel hempty => exact Or.inr (hsame (MemPool.atvsAt_eraseRelation hrel hempty id))
  | clear => exact Or.inr ⟨fun _ => false, by rw [List.filter_false]; rfl⟩

namespace MemPool

/-- The sorted values of a map in flight are at the heights of its values, which are under their own ids. -/
def InFlightSound {κ β : Type} [DecidableEq κ] (height : β → Nat) (id : β → κ) (inflight : ValueSortedMap κ β) : Prop :=
  inflight.Levelled height ∧ inflight.Labelled id

theorem InFlightSound.empty {κ β : Type} [DecidableEq κ] {height : β → Nat} {id : β → κ} :
    InFlightSound height id (ValueSortedMap.empty : ValueSortedMap κ β) :=
  ⟨ValueSortedMap.levelled_empty, .empty⟩

/-- No operation of a map in flight fails. -/
theorem InFlightSound.exec_ne_none {κ β : Type} [DecidableEq κ] {height : β → Nat} {id : β → κ} {inflight : ValueSortedMap κ β}
    (h : InFlightSound height id inflight) (op : ValueSortedMap.Op κ β) :
    inflight.exec (ValueSortedMap.LowerFirst height) op ≠ none := by
  obtain ⟨inflight', hexec, _, _⟩ := h.1.exec op
  rw [hexec]
  exact Option.some_ne_none _

theorem InFlightSound.exec {κ β : Type} [DecidableEq κ] {height : β → Nat} {id : β → κ} {inflight inflight' : ValueSortedMap κ β}
    (h : InFlightSound height id inflight) {op : ValueSortedMap.Op κ β} (hop : op.Labelled id)
    (hexec : inflight.exec (ValueSortedMap.LowerFirst height) op = some inflight') : InFlightSound height id inflight' := by
  obtain ⟨_, hexec', hlevelled, hfind⟩ := h.1.exec op
  rw [hexec] at hexec'
  cases hexec'
  exact ⟨hlevelled, h.2.exec hop hfind⟩

variable (p : Params)

/-- What every operation of the mempool keeps -/
structure Inv (m : MemPool) : Prop where
  nodup_relations : m.relations.keys.Nodup
  nodup_vbkblocks : m.vbkblocks.keys.Nodup
  vbkblocks : ∀ id, id ∈ m.vbkblocks.keys ↔ id ∈ m.relations.keys
  header : ∀ {id rel}, m.relations.find? id = some rel → rel.header.getHash = id
  getHash_eq : ∀ {id b}, m.vbkblocks.find? id = some b → b.getHash = id
  atvs : Catalogued m.atvsAt (fun a => a.atv.getId) atvHome m.storedAtvs
  vtbs : Catalogued m.vtbsAt VTB.getId vtbHome m.storedVtbs
  not_expired : ∀ {id v}, v ∈ m.vtbsAt id → v.isExpired p = false
  atvsInFlight : InFlightSound (fun a => a.atv.blockOfProof.height) (fun a => a.atv.getId) m.atvsInFlight
  vtbsInFlight : InFlightSound (fun v => v.containingBlock.height) VTB.getId m.vtbsInFlight
  vbkblocksInFlight : InFlightSound PowBlock.height PowBlock.getHash m.vbkblocksInFlight

namespace Inv

variable {p} {m : MemPool}

theorem empty : MemPool.empty.Inv p where
  nodup_relations := List.nodup_nil
  nodup_vbkblocks := List.nodup_nil
  vbkblocks _ := Iff.rfl
  header := nofun
  getHash_eq := nofun
  atvs := Catalogued.empty (fun _ => rfl)
  vtbs := Catalogued.empty (fun _ => rfl)
  not_expired := nofun
  atvsInFlight := .empty
  vtbsInFlight := .empty
  vbkblocksInFlight := .empty

theorem temp {m' : MemPool} (h : m.Inv p) (hm : m.SameHeld m') : m'.Inv p := by
  obtain ⟨_, _, rfl⟩ := hm
  exact { h with }

theorem getOrPutVbkRelation (h : m.Inv p) (b : PowBlock) : (m.getOrPutVbkRelation b).Inv p where
  nodup_relations := Store.nodup_keys_emplace h.nodup_relations _ _
  nodup_vbkblocks := Store.nodup_keys_emplace h.nodup_vbkblocks _ _
  vbkblocks id := by
    simp only [MemPool.getOrPutVbkRelation, Store.mem_keys_emplace, h.vbkblocks]
  header hfind := Store.of_find?_emplace (P := fun id rel => rel.header.getHash = id) (fun _ _ => h.header) rfl hfind
  getHash_eq hfind := Store.of_find?_emplace (P := fun id b => b.getHash = id) (fun _ _ => h.getHash_eq) rfl hfind
  atvs := h.atvs.congr (atvsAt_getOrPutVbkRelation m b)
  vtbs := h.vtbs.congr (vtbsAt_getOrPutVbkRelation m b)
  not_expired hv := by
    rw [vtbsAt_getOrPutVbkRelation] at hv
    exact h.not_expired hv
  atvsInFlight := h.atvsInFlight
  vtbsInFlight := h.vtbsInFlight
  vbkblocksInFlight := h.vbkblocksInFlight

/-- A change of the payloads that the relations hold -/
theorem change (h : m.Inv p) {relations : Store Hash VbkPayloadsRelations} {storedAtvs : Store Nat SharedATV}
    {storedVtbs : Store Nat VTB} (hkeys : relations.keys = m.relations.keys)
    (hheader : ∀ id, (relations.find? id).map (·.header) = (m.relations.find? id).map (·.header))
    (hatvs : Catalogued (fun id => (relations.find? id).elim [] (·.atvs)) (fun a => a.atv.getId) atvHome storedAtvs)
    (hvtbs : Catalogued (fun id => (relations.find? id).elim [] (·.vtbs)) VTB.getId vtbHome storedVtbs)
    (hexpired : ∀ {id v}, v ∈ (relations.find? id).elim [] (·.vtbs) → v.isExpired p = false) :
    MemPool.Inv p { m with relations := relations, storedAtvs := storedAtvs, storedVtbs := storedVtbs } where
  nodup_relations := by
    show relations.keys.Nodup
    rw [hkeys]
    exact h.nodup_relations
  nodup_vbkblocks := h.nodup_vbkblocks
  vbkblocks id := by
    show id ∈ m.vbkblocks.keys ↔ id ∈ relations.keys
    rw [hkeys]
    exact h.vbkblocks id
  header {id rel} hfind := by
    have heq := hheader id
    rw [hfind, Option.map_some, eq_comm, Option.map_eq_some_iff] at heq
    obtain ⟨rel', hfind', heq⟩ := heq
    rw [← heq]
    exact h.header hfind'
  getHash_eq := h.getHash_eq
  atvs := hatvs
  vtbs := hvtbs
  not_expired := hexpired
  atvsInFlight := h.atvsInFlight
  vtbsInFlight := h.vtbsInFlight
  vbkblocksInFlight := h.vbkblocksInFlight

theorem insertATV (h : m.Inv p) {t : Tree AltAddon} {a : SharedATV} (hmem : a.atv.blockOfProof.getHash ∈ m.relations.keys)
    (hsep : OrderedSet.Separated (ComesBefore t) a (m.atvsAt a.atv.blockOfProof.getHash)) :
    ({ m.insertATV t a with storedAtvs := m.storedAtvs.assign a.atv.getId a } : MemPool).Inv p := by
  refine h.change (Store.keys_modify _ _ _) (map_find?_modify m.relations (fun _ => rfl)) ?_ ?_ ?_
  . apply h.atvs.insert a
    intro id b
    show b ∈ (m.insertATV t a).atvsAt id ↔ _
    rw [atvsAt_insertATV id hmem, atvHome_getId]
    split
    . next heq =>
      subst heq
      rw [OrderedSet.mem_insert hsep]
      simp
    . next hne => simp [Ne.symm hne]
  . exact h.vtbs.congr (fun id => vtbsAt_insertATV m id t a)
  . intro id v hv
    have hv : v ∈ (m.insertATV t a).vtbsAt id := hv
    rw [vtbsAt_insertATV] at hv
    exact h.not_expired hv

theorem pushVTB (h : m.Inv p) {v : VTB} (hmem : v.containingBlock.getHash ∈ m.relations.keys)
    (hv : v.isExpired p = false) :
    ({ m.pushVTB v with storedVtbs := m.storedVtbs.assign v.getId v } : MemPool).Inv p := by
  have hheld : ∀ id w, w ∈ (m.pushVTB v).vtbsAt id ↔ (id = vtbHome v.getId ∧ w = v) ∨ w ∈ m.vtbsAt id := by
    intro id w
    rw [vtbsAt_pushVTB id hmem, vtbHome_getId]
    split
    . next heq =>
      subst heq
      simp [or_comm]
    . next hne => simp [Ne.symm hne]
  refine h.change (Store.keys_modify _ _ _) (map_find?_modify m.relations (fun _ => rfl)) ?_ ?_ ?_
  . exact h.atvs.congr (fun id => atvsAt_pushVTB m id v)
  . exact h.vtbs.insert v hheld
  . intro id w hw
    cases (hheld id w).mp hw with
    | inl heq => rwa [heq.2]
    | inr hw => exact h.not_expired hw

theorem eraseATVs (h : m.Inv p) (id : Hash) {stale : ATV → Bool}
    (hstale : ∀ a b : ATV, a.getId = b.getId → stale a = stale b) : (m.eraseATVs id stale).Inv p := by
  refine h.change (Store.keys_modify _ _ _) (map_find?_modify m.relations (fun _ => rfl)) ?_ ?_ ?_
  . exact h.atvs.erase (fun a _ b _ hid => hstale a.atv b.atv hid) (fun id' => atvsAt_eraseATVs m id' id stale)
  . exact h.vtbs.congr (fun id' => vtbsAt_eraseATVs m id' id stale)
  . intro id' v hv
    have hv : v ∈ (m.eraseATVs id stale).vtbsAt id' := hv
    rw [vtbsAt_eraseATVs] at hv
    exact h.not_expired hv

/-- Of the VTBs that are held, only those that have not expired need to go with the others of their id. -/
theorem eraseVTBs (h : m.Inv p) (id : Hash) {stale : VTB → Bool}
    (hstale : ∀ v w : VTB, v.isExpired p = false → w.isExpired p = false → v.getId = w.getId → stale v = stale w) :
    (m.eraseVTBs id stale).Inv p := by
  refine h.change (Store.keys_modify _ _ _) (map_find?_modify m.relations (fun _ => rfl)) ?_ ?_ ?_
  . exact h.atvs.congr (fun id' => atvsAt_eraseVTBs m id' id stale)
  . exact h.vtbs.erase (fun v hv w hw hid => hstale v w (h.not_expired hv) (h.not_expired hw) hid)
      (fun id' => vtbsAt_eraseVTBs m id' id stale)
  . intro id' v hv
    have hv : v ∈ (m.eraseVTBs id stale).vtbsAt id' := hv
    rw [vtbsAt_eraseVTBs] at hv
    split at hv
    . exact h.not_expired (List.mem_of_mem_filter hv)
    . exact h.not_expired hv

theorem eraseRelation (h : m.Inv p) {id : Hash} {rel : VbkPayloadsRelations} (hrel : m.relations.find? id = some rel)
    (hempty : rel.isEmpty = true) :
    MemPool.Inv p { m with vbkblocks := m.vbkblocks.erase rel.header.getHash, relations := m.relations.erase id } where
  nodup_relations := Store.nodup_keys_erase h.nodup_relations id
  nodup_vbkblocks := Store.nodup_keys_erase h.nodup_vbkblocks _
  vbkblocks id' := by simp only [Store.mem_keys_erase, h.vbkblocks, h.header hrel]
  header {id' rel'} hfind := by
    rw [Store.find?_erase] at hfind
    split at hfind
    . cases hfind
    . exact h.header hfind
  getHash_eq {id' b} hfind := by
    rw [Store.find?_erase] at hfind
    split at hfind
    . cases hfind
    . exact h.getHash_eq hfind
  atvs := h.atvs.congr (atvsAt_eraseRelation hrel hempty)
  vtbs := h.vtbs.congr (vtbsAt_eraseRelation hrel hempty)
  not_expired hv := by
    rw [vtbsAt_eraseRelation hrel hempty] at hv
    exact h.not_expired hv
  atvsInFlight := h.atvsInFlight
  vtbsInFlight := h.vtbsInFlight
  vbkblocksInFlight := h.vbkblocksInFlight

/-- The assertion at the end of `cleanUp` -/
theorem length_eq (h : m.Inv p) : m.relations.entries.length = m.vbkblocks.entries.length := by
  have hperm := (List.perm_ext_iff_of_nodup h.nodup_relations h.nodup_vbkblocks).mpr (fun id => (h.vbkblocks id).symm)
  have hlen := hperm.length_eq
  rwa [Store.keys, Store.keys, List.length_map, List.length_map] at hlen

/-- What every elementary change keeps -/
theorem step {m' : MemPool} {trees : AltState} (hm : m.Inv p) (h : Change p trees m m') : m'.Inv p := by
  cases h with
  | temp h => exact hm.temp h
  | atvsInFlight hop h => exact { hm with atvsInFlight := hm.atvsInFlight.exec hop h }
  | vtbsInFlight hop h => exact { hm with vtbsInFlight := hm.vtbsInFlight.exec hop h }
  | vbkblocksInFlight hop h => exact { hm with vbkblocksInFlight := hm.vbkblocksInFlight.exec hop h }
  | getOrPutVbkRelation b => exact hm.getOrPutVbkRelation b
  | insertATV hmem ha =>
    apply hm.insertATV hmem
    intro b hb hab hba
    exact ha _ b hb (addr_eq_of_not_comesBefore hba hab)
  | pushVTB hmem hv => exact hm.pushVTB hmem hv
  | eraseATVs id hstale => exact hm.eraseATVs id hstale
  | eraseVTBs id hstale => exact hm.eraseVTBs id hstale
  | eraseRelation hrel hempty => exact hm.eraseRelation hrel hempty
  | clear => exact empty

end Inv

end MemPool

end Mempool

end AltIntegration
