import AltIntegration.Blockchain.MemPoolBlockTree
import AltIntegration.Blockchain.Runs
import AltIntegration.Control.Wp

/-!
This module contains what `BlockPayloadMutator::add` leaves behind when a payload fails: the trees get rid of
it, the mutator does not.
-/

namespace AltIntegration

open Program

namespace BlockPayloadMutator

variable (cfg : Config) (h : Hash) (m : MutatorState) (p : Payload) (s : AltState)

/-- When `add` returns false, neither the trees nor the mutator have changed. -/
def AddAtomic : Prop := ∀ m' s', add cfg h m p s = .ok (false, m') s' → s' = s ∧ m' = m

/-- The commands of a payload -/
def runCommands : M AltState Bool := do
  let cmds ← getCommand h p.getId
  (AltBlockTree.stateMachine cfg).executeGroup cmds

/-- The state with the id of the payload in the block. -/
def inserted : AltState := { s with alt := insertId h p.getId s.alt }

/-- The block is applied, no block below has the payload, and a command of the payload fails. -/
def CommandsFail : Prop :=
  ∃ index prev, s.alt.find? h = some index ∧ index.pprev = some prev ∧
    AltBlockTree.isStatefulDuplicate s.alt prev p.getId = false ∧ index.hasFlags .active = true ∧
      ∃ s', runCommands cfg h p (inserted h p s) = .ok false s'

variable {cfg h m p s}

theorem run_derefBlock {index : BlockIndex AltAddon} (hindex : s.alt.find? h = some index) :
    zoom AltState.altTree (derefBlock h) s = .ok index s := by
  have hderef : derefBlock h s.alt = .ok index s.alt := by
    simp only [derefBlock]
    rw [run_get, hindex]
    rfl
  simp only [zoom, AltState.altTree, hderef]

theorem run_derefBlock_of_none (hindex : s.alt.find? h = none) :
    zoom AltState.altTree (derefBlock h) s = .error .unknownBlock s := by
  have hderef : derefBlock h s.alt = .error .unknownBlock s.alt := by
    simp only [derefBlock]
    rw [run_get, hindex]
    rfl
  simp only [zoom, AltState.altTree, hderef]

theorem run_runCommands {ok : Bool} {s' : AltState} (hrun : runCommands cfg h p s = .ok ok s') :
    ∃ cmds s1, getCommand h p.getId s = .ok cmds s1 ∧
      (AltBlockTree.stateMachine cfg).executeGroup cmds s1 = .ok ok s' := by
  simp only [runCommands] at hrun
  exact of_bind_ok hrun

/-- `add` up to the commands, for a payload that is new to an applied block -/
theorem add_eq {index : BlockIndex AltAddon} {prev : Hash} (hnew : m.ids.contains p.getId = false)
    (hindex : s.alt.find? h = some index) (hprev : index.pprev = some prev)
    (hduplicate : AltBlockTree.isStatefulDuplicate s.alt prev p.getId = false)
    (hactive : index.hasFlags .active = true) :
    add cfg h m p s = (do
      let cmds ← getCommand h p.getId
      if ← (AltBlockTree.stateMachine cfg).executeGroup cmds then
        pure (true, { m with ids := p.getId :: m.ids })
      else do
        zoom AltState.altTree (modify (removeId h p.getId))
        pure (false, { m with ids := p.getId :: m.ids })) (inserted h p s) := by
  simp only [add]
  rw [run_check (congrArg not hnew), run_ok (run_derefBlock hindex), run_getOrStop hprev, run_get, hduplicate,
    if_neg Bool.false_ne_true, hactive, Bool.not_true, if_neg Bool.false_ne_true]
  rfl

theorem add_of_commandsFail (hnew : m.ids.contains p.getId = false) (hfail : CommandsFail cfg h p s) :
    ∃ s', add cfg h m p s = .ok (false, { m with ids := p.getId :: m.ids }) s' := by
  obtain ⟨index, prev, hindex, hprev, hduplicate, hactive, s', hrun⟩ := hfail
  obtain ⟨cmds, s1, hcmds, hexec⟩ := run_runCommands hrun
  rw [add_eq hnew hindex hprev hduplicate hactive, run_ok hcmds, run_ok hexec]
  exact ⟨_, rfl⟩

/-- What `add` has found when it returns false. -/
theorem of_add_eq_false {m' : MutatorState} {s' : AltState} (hadd : add cfg h m p s = .ok (false, m') s') :
    m.ids.contains p.getId = false ∧ (s' = s ∧ m' = m ∨ CommandsFail cfg h p s) := by
  cases hnew : m.ids.contains p.getId with
  | true =>
    simp only [add, hnew] at hadd
    cases hadd
  | false =>
    apply And.intro rfl
    have hadd' := hadd
    simp only [add] at hadd'
    rw [run_check (congrArg not hnew)] at hadd'
    cases hindex : s.alt.find? h with
    | none =>
      rw [run_error (run_derefBlock_of_none hindex)] at hadd'
      cases hadd'
    | some index =>
      rw [run_ok (run_derefBlock hindex)] at hadd'
      cases hprev : index.pprev with
      | none =>
        rw [hprev] at hadd'
        cases hadd'
      | some prev =>
        rw [run_getOrStop hprev, run_get] at hadd'
        cases hduplicate : AltBlockTree.isStatefulDuplicate s.alt prev p.getId with
        | true =>
          rw [hduplicate, if_pos rfl] at hadd'
          cases hadd'
          exact .inl ⟨rfl, rfl⟩
        | false =>
          cases hactive : index.hasFlags .active with
          | false =>
            rw [hduplicate, if_neg Bool.false_ne_true, hactive] at hadd'
            cases hadd'
          | true =>
            apply Or.inr
            refine ⟨index, prev, hindex, hprev, hduplicate, hactive, ?_⟩
            rw [add_eq hnew hindex hprev hduplicate hactive] at hadd
            cases hcmds : getCommand h p.getId (inserted h p s) with
            | error e s1 =>
              rw [run_error hcmds] at hadd
              cases hadd
            | ok cmds s1 =>
              rw [run_ok hcmds] at hadd
              cases hexec : (AltBlockTree.stateMachine cfg).executeGroup cmds s1 with
              | error e s2 =>
                rw [run_error hexec] at hadd
                cases hadd
              | ok ok s2 =>
                rw [run_ok hexec] at hadd
                cases ok with
                | true => cases hadd
                | false =>
                  apply Exists.intro s2
                  simp only [runCommands]
                  rw [run_ok hcmds, hexec]

/--
`add` is atomic unless a command of the payload fails in an applied block; the mutator then takes the payload
for one that the block has.
-/
theorem addAtomic_iff : AddAtomic cfg h m p s ↔ (m.ids.contains p.getId = true ∨ ¬CommandsFail cfg h p s) := by
  constructor
  . intro hatomic
    cases hnew : m.ids.contains p.getId with
    | true => exact .inl rfl
    | false =>
      apply Or.inr
      intro hfail
      obtain ⟨s', hadd⟩ := add_of_commandsFail hnew hfail
      have hids : p.getId :: m.ids = m.ids := congrArg MutatorState.ids (hatomic _ _ hadd).2
      exact List.cons_ne_self _ _ hids
  . intro hor m' s' hadd
    obtain ⟨hnew, hsame⟩ := of_add_eq_false hadd
    cases hor with
    | inl hdup =>
      rw [hnew] at hdup
      cases hdup
    | inr hfail => exact hsame.resolve_right hfail

end BlockPayloadMutator

namespace Small

open BlockPayloadMutator

def context : PowBlock := powBlock vbkRoot.getHash 1 0

/-- It cannot be added before its context. -/
def onContext : PowBlock := powBlock context.getHash 2 0

/-- An applied block without payloads on top of the root, and two VBK blocks to add to it. -/
def template : AltState :=
  after [.acceptBlockHeader (altBlock 2 1 1), .acceptBlock 2 { context := [], vtbs := [], atvs := [] }, .setState 2,
    .writePayloads { context := [context, onContext], vtbs := [], atvs := [] }]

/-- Add the payloads to block 2 one after the other, and tell which of them were added. -/
def addAll : List Payload → MutatorState → M AltState (List Bool)
  | [], _ => pure []
  | p :: ps, m => do
    let r ← add config 2 m p
    let rs ← addAll ps r.2
    pure (r.1 :: rs)

def assemble (ps : List Payload) : M AltState (List Bool) := do
  let m ← create 2
  addAll ps m

/-- A mutator that was just made, on the applied block. -/
def fresh : MutatorState := { ids := [], counter := {} }

/-- A block that comes before its context fails; the mutator keeps its id, and stops when it comes again. -/
theorem add_not_atomic :
    (¬∀ s h m p, Reachable config s → returned (create h s) = some m → m.ids.contains p.getId = false → AddAtomic config h m p s) ∧
      stoppedIn (assemble [.vbk onContext, .vbk context, .vbk onContext] template) = some .payloadsDuplicate := by
  refine ⟨?_, by decide +kernel⟩
  intro hall
  have hatomic := hall template 2 fresh (.vbk onContext) (reachable_after _) (by decide +kernel) (by decide +kernel)
  have hreturned : returned (add config 2 fresh (.vbk onContext) template) =
      some (false, { fresh with ids := [.vbk onContext.getHash] }) := by decide +kernel
  obtain ⟨s', hadd⟩ := ok_of_returned hreturned
  have hids : [PayloadId.vbk onContext.getHash] = [] := congrArg MutatorState.ids (hatomic _ _ hadd).2
  cases hids

end Small

end AltIntegration
