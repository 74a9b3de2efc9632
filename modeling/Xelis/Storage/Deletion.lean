import Xelis.Lib.Exec
import Xelis.Storage.Storage

namespace Xelis.Storage

open Lib (Exec toBeBytes)

variable {P : Type}

def deleteFamilyAtTopoheight {V : Type} [HasPrevious V] (trees : Storage P → VersionedTrees V)
    (put : VersionedTrees V → Storage P → Storage P) (topoheight : TopoHeight) :
    Exec BlockchainError (Storage P) PUnit := fun s =>
  match (trees s).deleteVersionedTreeAtTopoheight topoheight with
  | .ok tr => .ok ⟨⟩ (put tr s)
  | .error e => .error e s

def deleteVersionedBalancesAtTopoheight : TopoHeight → Exec BlockchainError (Storage P) PUnit :=
  deleteFamilyAtTopoheight balances (fun balances s => { s with balances })

def deleteVersionedNoncesAtTopoheight : TopoHeight → Exec BlockchainError (Storage P) PUnit :=
  deleteFamilyAtTopoheight nonces (fun nonces s => { s with nonces })

def deleteVersionedMultisigsAtTopoheight : TopoHeight → Exec BlockchainError (Storage P) PUnit :=
  deleteFamilyAtTopoheight multisig (fun multisig s => { s with multisig })

def deleteVersionedContractsAtTopoheight : TopoHeight → Exec BlockchainError (Storage P) PUnit :=
  deleteFamilyAtTopoheight contracts (fun contracts s => { s with contracts })

def deleteVersionedContractDataAtTopoheight : TopoHeight → Exec BlockchainError (Storage P) PUnit :=
  deleteFamilyAtTopoheight contractsData (fun contractsData s => { s with contractsData })

def deleteVersionedAssetsSupplyAtTopoheight : TopoHeight → Exec BlockchainError (Storage P) PUnit :=
  deleteFamilyAtTopoheight assetsSupply (fun assetsSupply s => { s with assetsSupply })

def deleteVersionedAssetsAtTopoheight : TopoHeight → Exec BlockchainError (Storage P) PUnit :=
  deleteFamilyAtTopoheight assets (fun assets s => { s with assets })

/-- One registration of the scan, with the entry of its account. -/
def deleteRegistration (s : Storage P) (key : Key) : Storage P :=
  { s with
    registrationsPrefixed := s.registrationsPrefixed.erase key
    registrations := s.registrations.erase ((key.drop 8).take 32) }

def deleteVersionedRegistrationsAtTopoheight (topoheight : TopoHeight) : Exec BlockchainError (Storage P) PUnit :=
  modify (fun s =>
    (s.registrationsPrefixed.keys.filter ((toBeBytes topoheight).isPrefixOf ·)).foldl deleteRegistration s)

/-- The balances of contracts are not in the list. The assets of the first block are kept. -/
def deleteVersionedDataAtTopoheight (topoheight : TopoHeight) : Exec BlockchainError (Storage P) PUnit := do
  deleteVersionedBalancesAtTopoheight topoheight
  deleteVersionedNoncesAtTopoheight topoheight
  deleteVersionedMultisigsAtTopoheight topoheight
  deleteVersionedRegistrationsAtTopoheight topoheight
  deleteVersionedContractsAtTopoheight topoheight
  deleteVersionedContractDataAtTopoheight topoheight
  deleteVersionedAssetsSupplyAtTopoheight topoheight
  if 0 < topoheight then
    deleteVersionedAssetsAtTopoheight topoheight

def clearVersionedDataCaches (s : Storage P) : Storage P := { s with assetsCache := ∅ }

def deleteContractOutputsForTx (s : Storage P) (txHash : Hash) : Storage P :=
  { s with contractsOutputs := s.contractsOutputs.erase txHash }

/-- Nothing but the versioned data differs. -/
def OnlyVersioned (s s' : Storage P) : Prop :=
  ∃ nonces balances multisig registrations registrationsPrefixed contracts contractsData assetsSupply assets,
    s' = { s with
      nonces, balances, multisig, registrations, registrationsPrefixed, contracts, contractsData, assetsSupply, assets }

theorem OnlyVersioned.refl (s : Storage P) : OnlyVersioned s s := ⟨_, _, _, _, _, _, _, _, _, rfl⟩

theorem OnlyVersioned.trans {s₁ s₂ s₃ : Storage P} (h : OnlyVersioned s₁ s₂) (h' : OnlyVersioned s₂ s₃) :
    OnlyVersioned s₁ s₃ := by
  obtain ⟨_, _, _, _, _, _, _, _, _, rfl⟩ := h
  obtain ⟨_, _, _, _, _, _, _, _, _, rfl⟩ := h'
  exact ⟨_, _, _, _, _, _, _, _, _, rfl⟩

variable {topoheight : TopoHeight} {R : Storage P → Storage P → Prop}

theorem deleteFamily_moves {V : Type} [HasPrevious V] {trees : Storage P → VersionedTrees V}
    {put : VersionedTrees V → Storage P → Storage P} (hrefl : ∀ s, R s s) (hput : ∀ tr s, R s (put tr s)) :
    Exec.Moves R (deleteFamilyAtTopoheight trees put topoheight) := by
  intro s
  unfold deleteFamilyAtTopoheight
  cases (trees s).deleteVersionedTreeAtTopoheight topoheight with
  | ok tr => exact hput tr s
  | error e => exact hrefl s

theorem deleteRegistrations_moves (hrefl : ∀ s, R s s) (htrans : ∀ a b c, R a b → R b c → R a c)
    (hdelete : ∀ s key, R s (deleteRegistration s key)) (keys : List Key) (s : Storage P) :
    R s (keys.foldl deleteRegistration s) := by
  induction keys generalizing s with
  | nil => exact hrefl s
  | cons key keys ih => exact htrans _ _ _ (hdelete s key) (ih _)

theorem deleteVersionedData_onlyVersioned (topoheight : TopoHeight) :
    Exec.Moves OnlyVersioned (deleteVersionedDataAtTopoheight (P := P) topoheight) := by
  have htrans : ∀ a b c : Storage P, OnlyVersioned a b → OnlyVersioned b c → OnlyVersioned a c :=
    fun _ _ _ => OnlyVersioned.trans
  unfold deleteVersionedDataAtTopoheight
  refine .bind htrans (deleteFamily_moves .refl fun _ _ => ⟨_, _, _, _, _, _, _, _, _, rfl⟩) fun _ => ?_
  refine .bind htrans (deleteFamily_moves .refl fun _ _ => ⟨_, _, _, _, _, _, _, _, _, rfl⟩) fun _ => ?_
  refine .bind htrans (deleteFamily_moves .refl fun _ _ => ⟨_, _, _, _, _, _, _, _, _, rfl⟩) fun _ => ?_
  refine .bind htrans (fun s => deleteRegistrations_moves .refl htrans (fun _ _ => ⟨_, _, _, _, _, _, _, _, _, rfl⟩) _ s) fun _ => ?_
  refine .bind htrans (deleteFamily_moves .refl fun _ _ => ⟨_, _, _, _, _, _, _, _, _, rfl⟩) fun _ => ?_
  refine .bind htrans (deleteFamily_moves .refl fun _ _ => ⟨_, _, _, _, _, _, _, _, _, rfl⟩) fun _ => ?_
  refine .bind htrans (deleteFamily_moves .refl fun _ _ => ⟨_, _, _, _, _, _, _, _, _, rfl⟩) fun _ => ?_
  split
  · exact deleteFamily_moves .refl fun _ _ => ⟨_, _, _, _, _, _, _, _, _, rfl⟩
  · exact .refl

end Xelis.Storage
