import Xelis.State.ChainState
import Xelis.State.Host
import Xelis.Transaction.Verify

namespace Xelis.State

open Lib (FiniteMap IndexMap Exec)

/-- Which code of a contract is run. -/
inductive InvokeContract where
  | entry (chunk : Nat)
  | hook (id : Nat)
  deriving DecidableEq

/-- What the virtual machine did with a call. -/
inductive VmOutcome where
  /-- The machine could not be set up. -/
  | failed
  | hookNotFound
  /-- The chain calls made, the gas counted and the code returned, `none` for an error of the machine. -/
  | ran (calls : List HostCall) (gasUsage : Nat) (exitCode : Option Nat)

/-- What the execution of a block takes from outside: digests, proofs and the virtual machine. -/
structure Env (P : Type) extends Proofs P where
  blake3 : IVec → Hash
  run : Module → InvokeContract → List ValueCell → Nat → Storage P → ContractChainState → VmOutcome

structure ContractManager where
  outputs : FiniteMap Hash (List ContractOutput) := ∅
  caches : FiniteMap Hash ContractCache := ∅
  assets : FiniteMap Hash (Option AssetChanges) := ∅
  tracker : ContractEventTracker := {}

structure ApplicableChainState (P : Type) where
  inner : ChainState P
  blockHash : Hash
  block : Block
  contractManager : ContractManager
  burnedSupply : Nat

namespace ApplicableChainState

variable {P : Type} [RistrettoPoint P]

def new (storage : Storage P) (mainnet : Bool) (stableTopoheight topoheight : TopoHeight) (blockVersion : BlockVersion)
    (burnedSupply : Nat) (blockHash : Hash) (block : Block) : ApplicableChainState P :=
  { inner := ChainState.new storage mainnet stableTopoheight topoheight blockVersion
    blockHash, block, contractManager := {}, burnedSupply }

def onInner {α : Type} (x : Exec BlockchainError (ChainState P) α) :
    Exec (VerificationError BlockchainError) (ApplicableChainState P) α := fun s =>
  match x s.inner with
  | .ok a inner => .ok a { s with inner }
  | .error e inner => .error (.state e) { s with inner }

def modifyInner (f : ChainState P → ChainState P) : Exec (VerificationError BlockchainError) (ApplicableChainState P) PUnit :=
  modify (fun s => { s with inner := f s.inner })

def addBurnedCoins (amount : Nat) (s : ApplicableChainState P) : ApplicableChainState P :=
  { s with burnedSupply := s.burnedSupply + amount }

def addGasFee (amount : Nat) (s : ApplicableChainState P) : ApplicableChainState P :=
  { s with inner := { s.inner with gasFee := s.inner.gasFee + amount } }

def setContractOutputs (txHash : Hash) (outputs : List ContractOutput) (s : ApplicableChainState P) :
    ApplicableChainState P :=
  let outputs := s.contractManager.outputs[txHash]?.getD [] ++ outputs
  { s with contractManager := { s.contractManager with outputs := s.contractManager.outputs.insert txHash outputs } }

/-- A public deposit on the cached balances of the contract. An occupied entry gets the amount, but the
version state that is marked as updated there is a copy. -/
def addDeposit (storage : Storage P) (contract : Hash) (topoheight : TopoHeight) (cache : ContractCache) (asset : Hash)
    (amount : Nat) : Except BlockchainError ContractCache :=
  match cache.balances[asset]? with
  | some (some (state, balance)) =>
    .ok { cache with balances := cache.balances.insert asset (some (state, balance + amount)) }
  | some none => .ok { cache with balances := cache.balances.insert asset (some (.new, amount)) }
  | none =>
    match storage.getContractBalanceAtMaximumTopoheight contract asset topoheight with
    | .error e => .error e
    | .ok found =>
      let (state, balance) := match found with
        | some (topo, version) => (VersionedState.fetchedAt topo, version.data)
        | none => (.new, 0)
      .ok { cache with balances := cache.balances.insert asset (some (state.markUpdated, balance + amount)) }

def addDeposits (storage : Storage P) (contract : Hash) (topoheight : TopoHeight) (cache : ContractCache)
    (deposits : IndexMap Hash ContractDeposit) : Except BlockchainError ContractCache :=
  deposits.entries.foldlM (fun cache e =>
    match e.2 with
    | .pub amount => addDeposit storage contract topoheight cache e.1 amount
    | .priv _ _ _ _ => .ok cache) cache

/-- The module to run with the state it starts from. -/
def getContractEnvironmentFor (contract : Hash) (deposits : IndexMap Hash ContractDeposit) (txHash : Hash)
    (s : ApplicableChainState P) : Except BlockchainError (Module × ContractChainState) := do
  match s.inner.contracts[contract]?.bind Prod.snd with
  | none => throw (.contractNotFound contract)
  | some module =>
    let cache := s.contractManager.caches[contract]?.getD {}
    let cache ← addDeposits s.inner.storage contract s.inner.topoheight cache deposits
    return (module, {
      mainnet := s.inner.mainnet
      contract
      topoheight := s.inner.topoheight
      blockHash := s.blockHash
      block := s.block
      txHash
      deposits
      cache
      outputs := []
      tracker := s.contractManager.tracker
      globalCaches := s.contractManager.caches
      assets := s.contractManager.assets })

/-- The state a call starts from, without the module. -/
def startOf (contract : Hash) (deposits : IndexMap Hash ContractDeposit) (txHash : Hash) (s : ApplicableChainState P) :
    Except BlockchainError ContractChainState :=
  (addDeposits s.inner.storage contract s.inner.topoheight (s.contractManager.caches[contract]?.getD {}) deposits).map
    (fun cache => {
      mainnet := s.inner.mainnet
      contract
      topoheight := s.inner.topoheight
      blockHash := s.blockHash
      block := s.block
      txHash
      deposits
      cache
      outputs := []
      tracker := s.contractManager.tracker
      globalCaches := s.contractManager.caches
      assets := s.contractManager.assets })

variable {contract txHash : Hash} {deposits : IndexMap Hash ContractDeposit} {s : ApplicableChainState P}
  {start : ContractChainState}

section

omit [RistrettoPoint P]

theorem startOf_ok (h : s.startOf contract deposits txHash = .ok start) :
    addDeposits s.inner.storage contract s.inner.topoheight (s.contractManager.caches[contract]?.getD {}) deposits =
        .ok start.cache ∧
      start.contract = contract ∧ start.topoheight = s.inner.topoheight ∧ start.tracker = s.contractManager.tracker ∧
      start.assets = s.contractManager.assets := by
  unfold startOf at h
  cases hadd : addDeposits s.inner.storage contract s.inner.topoheight (s.contractManager.caches[contract]?.getD {})
      deposits with
  | error e => simp [hadd, Except.map] at h
  | ok cache =>
    simp only [hadd, Except.map, Except.ok.injEq] at h
    subst h
    exact ⟨rfl, rfl, rfl, rfl, rfl⟩

theorem getContractEnvironmentFor_eq (contract : Hash) (deposits : IndexMap Hash ContractDeposit) (txHash : Hash)
    (s : ApplicableChainState P) :
    s.getContractEnvironmentFor contract deposits txHash =
      match s.inner.contracts[contract]?.bind Prod.snd with
      | none => .error (.contractNotFound contract)
      | some module => (s.startOf contract deposits txHash).map (module, ·) := by
  unfold getContractEnvironmentFor startOf
  cases s.inner.contracts[contract]?.bind Prod.snd with
  | none => rfl
  | some module =>
    dsimp only
    cases addDeposits s.inner.storage contract s.inner.topoheight (s.contractManager.caches[contract]?.getD {})
        deposits with
    | error e => rfl
    | ok cache => rfl

theorem getContractEnvironmentFor_ok {module : Module}
    (h : s.getContractEnvironmentFor contract deposits txHash = .ok (module, start)) :
    s.inner.contracts[contract]?.bind Prod.snd = some module ∧ s.startOf contract deposits txHash = .ok start := by
  rw [getContractEnvironmentFor_eq] at h
  cases hmodule : s.inner.contracts[contract]?.bind Prod.snd with
  | none => simp [hmodule] at h
  | some module' =>
    cases hstart : s.startOf contract deposits txHash with
    | error e => simp [hmodule, hstart, Except.map] at h
    | ok start' =>
      simp only [hmodule, hstart, Except.map, Except.ok.injEq, Prod.mk.injEq] at h
      obtain ⟨rfl, rfl⟩ := h
      exact ⟨rfl, rfl⟩

end

def mergeContractChanges (contract : Hash) (cache : ContractCache) (tracker : ContractEventTracker)
    (assets : FiniteMap Hash (Option AssetChanges)) (s : ApplicableChainState P) : ApplicableChainState P :=
  { s with contractManager :=
    { s.contractManager with caches := s.contractManager.caches.insert contract cache, tracker, assets } }

def removeContractModule (hash : Hash) : Exec (VerificationError BlockchainError) (ApplicableChainState P) PUnit := do
  let s ← get
  match s.inner.contracts[hash]? with
  | none => throw (.state (.contractNotFound hash))
  | some (state, _) =>
    modifyInner (fun inner => { inner with contracts := inner.contracts.insert hash (state.markUpdated, none) })

end ApplicableChainState

end Xelis.State
