import AltIntegration.Mempool.Calls

/-!
This module shows that the maps of the mempool agree on what it holds, as long as no clean-up meets ATVs of a
relation that is too old: the loop over these reads what it has erased.
-/

namespace AltIntegration

open Program

namespace Mempool

namespace MemPool

/-- The maps of connected payloads agree, and `get` finds what would be considered for a block, and what is in flight. -/
structure Consistent (m : MemPool) : Prop where
  relations : ∀ id, id ∈ m.relations.keys ↔ id ∈ m.vbkblocks.keys
  atvs : ∀ id, id ∈ m.storedAtvs.keys ↔ ∃ e ∈ m.relations.entries, ∃ a ∈ e.2.atvs, a.atv.getId = id
  vtbs : ∀ id, id ∈ m.storedVtbs.keys ↔ ∃ e ∈ m.relations.entries, ∃ v ∈ e.2.vtbs, v.getId = id
  getATV : ∀ id, (m.getATV id).isSome = true ↔
    (∃ a ∈ m.candidates.atvs, a.getId = id) ∨ (m.atvsInFlight.find id).isSome = true
  getVTB : ∀ id, (m.getVTB id).isSome = true ↔
    (∃ v ∈ m.candidates.vtbs, v.getId = id) ∨ (m.vtbsInFlight.find id).isSome = true
  getVbkBlock : ∀ id, (m.getVbkBlock id).isSome = true ↔
    (∃ b ∈ m.candidates.context, b.getHash = id) ∨ (m.vbkblocksInFlight.find id).isSome = true
  getId_getATV : ∀ id, ∀ a ∈ m.getATV id, a.getId = id
  getId_getVTB : ∀ id, ∀ v ∈ m.getVTB id, v.getId = id
  getHash_getVbkBlock : ∀ id, ∀ b ∈ m.getVbkBlock id, b.getHash = id

theorem blocks_perm (m : MemPool) : m.blocks.Perm (m.relations.entries.map (·.2)) := by
  have h := OrderedMultiset.foldl_insert_perm (fun r s : VbkPayloadsRelations => r.header.height < s.header.height)
    (m.relations.entries.map (·.2)) []
  rwa [List.foldl_map, List.append_nil] at h

theorem mem_blocks_iff {m : MemPool} (hm : m.relations.keys.Nodup) {rel : VbkPayloadsRelations} :
    rel ∈ m.blocks ↔ ∃ id, m.relations.find? id = some rel := by
  rw [m.blocks_perm.mem_iff, List.mem_map]
  constructor
  . rintro ⟨⟨id, rel'⟩, he, rfl⟩
    exact ⟨id, Store.find?_of_mem hm he⟩
  . rintro ⟨id, hfind⟩
    exact ⟨(id, rel), Store.mem_of_find? hfind, rfl⟩

theorem mem_candidates_atvs_iff {m : MemPool} (hm : m.relations.keys.Nodup) {a : ATV} :
    a ∈ m.candidates.atvs ↔ ∃ id, ∃ b ∈ m.atvsAt id, b.atv = a := by
  simp only [candidates, List.mem_flatMap, List.mem_map, mem_blocks_iff hm, mem_atvsAt_iff]
  constructor
  . rintro ⟨rel, ⟨id, hfind⟩, b, hb, heq⟩
    exact ⟨id, b, ⟨rel, hfind, hb⟩, heq⟩
  . rintro ⟨id, b, ⟨rel, hfind, hb⟩, heq⟩
    exact ⟨rel, ⟨id, hfind⟩, b, hb, heq⟩

theorem mem_candidates_vtbs_iff {m : MemPool} (hm : m.relations.keys.Nodup) {v : VTB} :
    v ∈ m.candidates.vtbs ↔ ∃ id, v ∈ m.vtbsAt id := by
  simp only [candidates, List.mem_flatMap, mem_blocks_iff hm, mem_vtbsAt_iff]
  constructor
  . rintro ⟨rel, ⟨id, hfind⟩, hv⟩
    exact ⟨id, rel, hfind, hv⟩
  . rintro ⟨id, rel, hfind, hv⟩
    exact ⟨rel, ⟨id, hfind⟩, hv⟩

variable {p : Params} {m : MemPool}

/-- What the store, or else the map in flight, has under an id has this id. -/
theorem id_eq_of_or {κ β : Type} [DecidableEq κ] {height : β → Nat} {id : β → κ} {stored : Option β}
    {inflight : ValueSortedMap κ β} (hinflight : InFlightSound height id inflight) {key : κ} {value : β}
    (hstored : ∀ v, stored = some v → id v = key) (h : stored.or (inflight.find key) = some value) : id value = key := by
  cases stored with
  | some v => exact hstored value h
  | none => exact hinflight.2 key value h

theorem Inv.consistent (h : m.Inv p) : m.Consistent where
  relations id := (h.vbkblocks id).symm
  atvs id := by
    rw [Store.mem_keys_iff, h.atvs.exists_iff]
    simp only [mem_atvsAt_iff]
    constructor
    . rintro ⟨k, a, ⟨rel, hfind, ha⟩, hid⟩
      exact ⟨(k, rel), Store.mem_of_find? hfind, a, ha, hid⟩
    . rintro ⟨⟨k, rel⟩, he, a, ha, hid⟩
      exact ⟨k, a, ⟨rel, Store.find?_of_mem h.nodup_relations he, ha⟩, hid⟩
  vtbs id := by
    rw [Store.mem_keys_iff, h.vtbs.exists_iff]
    simp only [mem_vtbsAt_iff]
    constructor
    . rintro ⟨k, v, ⟨rel, hfind, hv⟩, hid⟩
      exact ⟨(k, rel), Store.mem_of_find? hfind, v, hv, hid⟩
    . rintro ⟨⟨k, rel⟩, he, v, hv, hid⟩
      exact ⟨k, v, ⟨rel, Store.find?_of_mem h.nodup_relations he, hv⟩, hid⟩
  getATV id := by
    rw [MemPool.getATV, Option.isSome_map, Option.isSome_or, Bool.or_eq_true, h.atvs.exists_iff]
    simp only [mem_candidates_atvs_iff h.nodup_relations]
    apply or_congr_left
    constructor
    . rintro ⟨k, b, hb, hid⟩
      exact ⟨b.atv, ⟨k, b, hb, rfl⟩, hid⟩
    . rintro ⟨a, ⟨k, b, hb, rfl⟩, hid⟩
      exact ⟨k, b, hb, hid⟩
  getVTB id := by
    rw [MemPool.getVTB, Option.isSome_or, Bool.or_eq_true, h.vtbs.exists_iff]
    simp only [mem_candidates_vtbs_iff h.nodup_relations]
    apply or_congr_left
    constructor
    . rintro ⟨k, v, hv, hid⟩
      exact ⟨v, ⟨k, hv⟩, hid⟩
    . rintro ⟨v, ⟨k, hv⟩, hid⟩
      exact ⟨k, v, hv, hid⟩
  getVbkBlock id := by
    rw [MemPool.getVbkBlock, Option.isSome_or, Bool.or_eq_true, ← Store.mem_keys_iff, h.vbkblocks, Store.mem_keys_iff,
      Option.isSome_iff_exists]
    simp only [candidates, List.mem_map, mem_blocks_iff h.nodup_relations]
    apply or_congr_left
    constructor
    . rintro ⟨rel, hfind⟩
      exact ⟨rel.header, ⟨rel, ⟨id, hfind⟩, rfl⟩, h.header hfind⟩
    . rintro ⟨_, ⟨rel, ⟨id', hfind⟩, rfl⟩, hid⟩
      rw [h.header hfind] at hid
      rw [← hid]
      exact ⟨rel, hfind⟩
  getId_getATV id a ha := by
    obtain ⟨b, hb, heq⟩ := Option.map_eq_some_iff.mp ha
    rw [← heq]
    exact id_eq_of_or h.atvsInFlight (fun _ => h.atvs.id_eq) hb
  getId_getVTB id v hv := id_eq_of_or h.vtbsInFlight (fun _ => h.vtbs.id_eq) hv
  getHash_getVbkBlock id b hb := id_eq_of_or h.vbkblocksInFlight (fun _ => h.getHash_eq) hb

end MemPool

section Runs

variable {p : Params} {s : State}

theorem Reachable.pool_inv (h : Reachable p (MeetsNoOldATVs p) s) : s.pool.Inv p :=
  (h.inv_of_noOldATVs keeps_true (fun _ => trivial)).1

/--
The maps of the mempool agree in every run whose clean-ups meet no ATVs of a relation that is too old, and a call
that such a run goes on with stops in an assertion of a tree if it stops: not by reading what has been erased, and
not in an assertion of the mempool or of a map in flight.
-/
theorem bookkeeping_consistent (h : Reachable p (MeetsNoOldATVs p) s) :
    s.pool.Consistent ∧
      ∀ op : Op, op.IsSound s → MeetsNoOldATVs p s op → ∀ e s', op.exec p s = .error e s' → ∃ a, e = .tree a := by
  constructor
  . exact h.pool_inv.consistent
  . intro op hop hold e s' hexec
    exact wp_error (wp_exec keeps_true h.pool_inv trivial hop hold (changesTrees_true op s)) hexec

namespace Small

theorem reachable_connected : Reachable params (MeetsNoOldATVs params) connected :=
  .step (.start _) (isSound_start _ _) nofun submitATV_connected

theorem bookkeeping_consistent_connected :
    connected.pool.Consistent ∧ ∀ op : Op, op.IsSound connected → MeetsNoOldATVs params connected op →
      ∀ e s', op.exec params connected = .error e s' → ∃ a, e = .tree a :=
  bookkeeping_consistent reachable_connected

end Small

end Runs

end Mempool

end AltIntegration
