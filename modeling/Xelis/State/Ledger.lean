import Mathlib.Algebra.Group.Hom.Defs
import Mathlib.Data.FinEnum
import Mathlib.Tactic.Abel
import Xelis.Lib.Book
import Xelis.State.Applicable

/-! The ledger behind the state of a block: what every account and every contract has once the block is written. -/

namespace Xelis.State

open Lib (FiniteMap Exec Book)

variable {P : Type} [RistrettoPoint P]
variable {a b c s s' : ChainState P} {key : PublicKey} {asset : Hash}

namespace ChainState

/-- The balance an account starts the block with. -/
def storedBalance (storage : Storage P) (topoheight : TopoHeight) (key : PublicKey) (asset : Hash) : Ciphertext P :=
  match storage.getNewVersionedBalance key asset topoheight with
  | .ok (version, _) => version.finalBalance
  | .error _ => Ciphertext.zero

def received (s : ChainState P) (key : PublicKey) (asset : Hash) : Ciphertext P :=
  match s.receiverBalances[key]?.bind (·[asset]?) with
  | some version => version.finalBalance
  | none => storedBalance s.storage s.topoheight key asset

def spent (s : ChainState P) (key : PublicKey) (asset : Hash) : Ciphertext P :=
  match s.accounts[key]?.bind (·.assets[asset]?) with
  | some echange => echange.outputSum
  | none => Ciphertext.zero

/-- Nothing was received or spent between the two states. -/
structure SameFunds (s s' : ChainState P) : Prop where
  received : ∀ key asset, s'.received key asset = s.received key asset
  spent : ∀ key asset, s'.spent key asset = s.spent key asset
  storage : s'.storage = s.storage
  topoheight : s'.topoheight = s.topoheight
  mainnet : s'.mainnet = s.mainnet
  gasFee : s'.gasFee = s.gasFee

namespace SameFunds

theorem refl (s : ChainState P) : SameFunds s s := ⟨fun _ _ => rfl, fun _ _ => rfl, rfl, rfl, rfl, rfl⟩

theorem trans (hab : SameFunds a b) (hbc : SameFunds b c) : SameFunds a c where
  received key asset := (hbc.received key asset).trans (hab.received key asset)
  spent key asset := (hbc.spent key asset).trans (hab.spent key asset)
  storage := hbc.storage.trans hab.storage
  topoheight := hbc.topoheight.trans hab.topoheight
  mainnet := hbc.mainnet.trans hab.mainnet
  gasFee := hbc.gasFee.trans hab.gasFee

end SameFunds

section Receiver

omit [RistrettoPoint P] in
theorem receiverBalances_setReceiverVersion (key : PublicKey) (asset : Hash) (version : VersionedBalance P)
    (s : ChainState P) (k : PublicKey) (a : Hash) :
    (setReceiverVersion key asset version s).receiverBalances[k]?.bind (·[a]?) =
      if k = key ∧ a = asset then some version else s.receiverBalances[k]?.bind (·[a]?) := by
  unfold setReceiverVersion
  by_cases hk : k = key
  · subst hk
    rw [FiniteMap.getElem?_insert_self']
    by_cases ha : a = asset
    · subst ha
      simp
    · simp only [Option.bind_some, ha, and_false, if_false]
      rw [FiniteMap.getElem?_insert_of_ne _ _ (Ne.symm ha)]
      cases s.receiverBalances[k]? with
      | none => simp
      | some assets => rfl
  · simp only [hk, false_and, if_false]
    rw [FiniteMap.getElem?_insert_of_ne _ _ (Ne.symm hk)]

omit [RistrettoPoint P] in
theorem receiverBalances_insert_getD (s : ChainState P) (key k : PublicKey) (a : Hash) :
    (s.receiverBalances.insert key (s.receiverBalances[key]?.getD ∅))[k]?.bind (·[a]?) =
      s.receiverBalances[k]?.bind (·[a]?) := by
  by_cases hk : k = key
  · subst hk
    rw [FiniteMap.getElem?_insert_self']
    cases s.receiverBalances[k]? with
    | none => simp
    | some assets => rfl
  · rw [FiniteMap.getElem?_insert_of_ne _ _ (Ne.symm hk)]

theorem received_setReceiverVersion (key : PublicKey) (asset : Hash) (version : VersionedBalance P)
    (s : ChainState P) (k : PublicKey) (a : Hash) :
    (setReceiverVersion key asset version s).received k a =
      if k = key ∧ a = asset then version.finalBalance else s.received k a := by
  unfold received
  rw [receiverBalances_setReceiverVersion]
  split
  · rename_i h
    split at h
    · cases h
      rw [if_pos ‹_›]
    · rw [if_neg ‹_›, h]
  · rename_i h
    split at h
    · cases h
    · rw [if_neg ‹_›, h]
      rfl

theorem sameFunds_withReceiver (s : ChainState P) (key : PublicKey) : SameFunds s (s.withReceiver key) where
  received k a := by
    show (match (s.receiverBalances.insert key (s.receiverBalances[key]?.getD ∅))[k]?.bind (·[a]?) with
      | some version => version.finalBalance
      | none => storedBalance s.storage s.topoheight k a) = s.received k a
    rw [receiverBalances_insert_getD]
    rfl
  spent _ _ := rfl
  storage := rfl
  topoheight := rfl
  mainnet := rfl
  gasFee := rfl

variable {version : VersionedBalance P}

theorem sameFunds_setReceiverVersion
    (h : version.finalBalance = s.received key asset) : SameFunds s (setReceiverVersion key asset version s) where
  received k a := by
    rw [received_setReceiverVersion]
    split
    · obtain ⟨rfl, rfl⟩ := ‹_ ∧ _›
      exact h
    · rfl
  spent _ _ := rfl
  storage := rfl
  topoheight := rfl
  mainnet := rfl
  gasFee := rfl

variable {ct : Ciphertext P}

theorem internalGetReceiverBalance_ok (h : internalGetReceiverBalance key asset s = .ok ct s') :
    ct = s.received key asset ∧ SameFunds s s' ∧ ∃ version, s'.receiverBalances[key]?.bind (·[asset]?) = some version := by
  have hsame := sameFunds_withReceiver s key
  rw [internalGetReceiverBalance_eq] at h
  cases hentry : s.receiverBalances[key]?.bind (·[asset]?) with
  | some version =>
    simp only [hentry, EStateM.Result.ok.injEq] at h
    obtain ⟨rfl, rfl⟩ := h
    refine ⟨by simp only [received, hentry], hsame, version, ?_⟩
    exact (receiverBalances_insert_getD s key key asset).trans hentry
  | none =>
    cases hload : s.storage.getNewVersionedBalance key asset s.topoheight with
    | error e => simp [hentry, hload] at h
    | ok found =>
      simp only [hentry, hload, EStateM.Result.ok.injEq] at h
      obtain ⟨rfl, rfl⟩ := h
      have hval : found.1.finalBalance = s.received key asset := by
        simp only [received, hentry, storedBalance, hload]
      refine ⟨hval, hsame.trans (sameFunds_setReceiverVersion ?_), found.1, ?_⟩
      · rw [hsame.received, hval]
      · rw [receiverBalances_setReceiverVersion, if_pos ⟨rfl, rfl⟩]

theorem internalGetReceiverBalance_error {e : BlockchainError}
    (h : internalGetReceiverBalance key asset s = .error e s') : s' = s.withReceiver key := by
  rw [internalGetReceiverBalance_eq] at h
  cases hentry : s.receiverBalances[key]?.bind (·[asset]?) with
  | some version => simp [hentry] at h
  | none =>
    cases hload : s.storage.getNewVersionedBalance key asset s.topoheight with
    | ok found => simp [hentry, hload] at h
    | error e => simp_all

theorem received_putReceiverBalance (h : s.receiverBalances[key]?.bind (·[asset]?) = some version)
    (k : PublicKey) (a : Hash) :
    (putReceiverBalance key asset ct s).received k a = if k = key ∧ a = asset then ct else s.received k a := by
  simp only [putReceiverBalance, h]
  rw [received_setReceiverVersion]

end Receiver

section Sender

def spentIn (account : Account P) (asset : Hash) : Ciphertext P :=
  match account.assets[asset]? with
  | some echange => echange.outputSum
  | none => Ciphertext.zero

theorem spent_setAccount (key : PublicKey) (account : Account P) (s : ChainState P) (k : PublicKey) (a : Hash) :
    (setAccount key account s).spent k a = if k = key then spentIn account a else s.spent k a := by
  unfold spent setAccount
  by_cases hk : k = key
  · subst hk
    rw [FiniteMap.getElem?_insert_self', if_pos rfl]
    rfl
  · rw [FiniteMap.getElem?_insert_of_ne _ _ (Ne.symm hk), if_neg hk]

variable {account : Account P}

theorem sameFunds_setAccount
    (h : ∀ asset, spentIn account asset = s.spent key asset) : SameFunds s (setAccount key account s) where
  received _ _ := rfl
  spent k a := by
    rw [spent_setAccount]
    split
    · subst ‹k = key›
      exact h a
    · rfl
  storage := rfl
  topoheight := rfl
  mainnet := rfl
  gasFee := rfl

variable {storage : Storage P}

omit [RistrettoPoint P] in
theorem createSenderAccount_ok {topoheight : TopoHeight} (h : createSenderAccount storage key topoheight = .ok account) :
    ∃ found multisig, storage.getNonceAtMaximumTopoheight key topoheight = .ok (some found) ∧
      storage.getMultisigAtMaximumTopoheightFor key topoheight = .ok multisig ∧
      account = { nonce := { found.2 with previousTopoheight := some found.1 }, assets := ∅,
                  multisig := multisig.bind fun m => m.2.data.map fun payload => (.fetchedAt m.1, some payload) } := by
  unfold createSenderAccount at h
  cases hnonce : storage.getNonceAtMaximumTopoheight key topoheight with
  | error e => simp [hnonce, bind, Except.bind] at h
  | ok found =>
    cases found with
    | none => simp [hnonce, bind, Except.bind] at h
    | some found =>
      cases hmultisig : storage.getMultisigAtMaximumTopoheightFor key topoheight with
      | error e => simp [hnonce, hmultisig, bind, Except.bind] at h
      | ok multisig =>
        simp only [hnonce, hmultisig, bind, Except.bind, pure, Except.pure, Except.ok.injEq] at h
        exact ⟨found, multisig, rfl, rfl, h.symm⟩

omit [RistrettoPoint P] in
theorem assets_createSenderAccount {topoheight : TopoHeight}
    (h : createSenderAccount storage key topoheight = .ok account) : account.assets = ∅ := by
  obtain ⟨found, multisig, -, -, rfl⟩ := createSenderAccount_ok h
  rfl

theorem spentIn_findAccount
    (h : s.findAccount key = .ok account) (asset : Hash) : spentIn account asset = s.spent key asset := by
  unfold findAccount at h
  cases hacc : s.accounts[key]? with
  | some account' =>
    simp only [hacc, Except.ok.injEq] at h
    subst h
    simp only [spentIn, spent, hacc, Option.bind_some]
  | none =>
    simp only [hacc] at h
    simp [spentIn, spent, hacc, assets_createSenderAccount h]

variable {reference : Reference}

theorem outputSum_createSenderEchange {current : TopoHeight}
    {e : Echange P} (h : createSenderEchange storage key asset current reference = .ok e) :
    e.outputSum = Ciphertext.zero := by
  unfold createSenderEchange at h
  cases hfound : searchVersionedBalanceForReference storage key asset current reference true with
  | error e => simp [hfound, bind, Except.bind] at h
  | ok found =>
    simp only [hfound, bind, Except.bind, pure, Except.pure, Except.ok.injEq] at h
    rw [← h]
    rfl

theorem findSender_ok {e : Echange P} (h : s.findSender key asset reference = .ok (account, e)) :
    s.findAccount key = .ok account ∧ e.outputSum = spentIn account asset := by
  unfold findSender at h
  unfold findAccount
  cases hacc : s.accounts[key]? with
  | some account' =>
    simp only [hacc] at h ⊢
    cases hasset : account'.assets[asset]? with
    | some e' =>
      simp only [hasset, Except.ok.injEq, Prod.mk.injEq] at h
      obtain ⟨rfl, rfl⟩ := h
      exact ⟨rfl, by simp only [spentIn, hasset]⟩
    | none =>
      simp only [hasset] at h
      cases hnew : createSenderEchange s.storage key asset s.topoheight reference with
      | error e => simp [hnew, Except.map] at h
      | ok e' =>
        simp only [hnew, Except.map, Except.ok.injEq, Prod.mk.injEq] at h
        obtain ⟨rfl, rfl⟩ := h
        exact ⟨rfl, by simp only [spentIn, hasset, outputSum_createSenderEchange hnew]⟩
  | none =>
    simp only [hacc] at h ⊢
    cases hload : createSenderAccount s.storage key s.topoheight with
    | error e => simp [hload, bind, Except.bind] at h
    | ok account' =>
      cases hnew : createSenderEchange s.storage key asset s.topoheight reference with
      | error e => simp [hload, hnew, bind, Except.bind] at h
      | ok e' =>
        simp only [hload, hnew, bind, Except.bind, pure, Except.pure, Except.ok.injEq, Prod.mk.injEq] at h
        obtain ⟨rfl, rfl⟩ := h
        refine ⟨rfl, ?_⟩
        rw [outputSum_createSenderEchange hnew, spentIn, assets_createSenderAccount hload]
        simp

omit [RistrettoPoint P] in
theorem outputSum_getBalance (e : Echange P) : e.getBalance.2.outputSum = e.outputSum := by
  unfold Echange.getBalance
  split
  dsimp only
  split
  · rfl
  · rfl

theorem spentIn_setEchange (account : Account P) (asset : Hash) (e : Echange P) (a : Hash) :
    spentIn (setEchange account asset e) a = if a = asset then e.outputSum else spentIn account a := by
  unfold spentIn setEchange
  by_cases ha : a = asset
  · subst ha
    rw [FiniteMap.getElem?_insert_self', if_pos rfl]
  · rw [FiniteMap.getElem?_insert_of_ne _ _ (Ne.symm ha), if_neg ha]

theorem internalGetSenderVerificationBalance_sameFunds (key : PublicKey) (asset : Hash) (reference : Reference) :
    Exec.Moves SameFunds (internalGetSenderVerificationBalance (P := P) key asset reference) := by
  intro s
  rw [internalGetSenderVerificationBalance_eq]
  cases hfind : s.findSender key asset reference with
  | error e => exact SameFunds.refl s
  | ok found =>
    obtain ⟨account, e⟩ := found
    obtain ⟨hacc, hsum⟩ := findSender_ok hfind
    refine sameFunds_setAccount fun a => ?_
    rw [spentIn_setEchange, outputSum_getBalance, hsum]
    split
    · subst ‹a = asset›
      exact spentIn_findAccount hacc a
    · exact spentIn_findAccount hacc a

theorem internalUpdateAccountNonce_sameFunds (key : PublicKey) (nonce : Nonce) :
    Exec.Moves SameFunds (internalUpdateAccountNonce (P := P) key nonce) := by
  intro s
  rw [internalUpdateAccountNonce_eq]
  cases hfind : s.findAccount key with
  | error e => exact SameFunds.refl s
  | ok account =>
    refine sameFunds_setAccount fun a => ?_
    exact spentIn_findAccount hfind a

theorem setMultisigState_sameFunds (key : PublicKey) (payload : MultiSigPayload) :
    Exec.Moves SameFunds (setMultisigState (P := P) key payload) := by
  intro s
  rw [setMultisigState_eq]
  cases hfind : s.findAccount key with
  | error e => exact SameFunds.refl s
  | ok account =>
    refine sameFunds_setAccount fun a => ?_
    exact spentIn_findAccount hfind a

theorem loadVersionedContract_sameFunds (hash : Hash) :
    Exec.Moves SameFunds (loadVersionedContract (P := P) hash) := by
  intro s
  rw [loadVersionedContract_eq]
  cases s.findContract hash with
  | error e => exact SameFunds.refl s
  | ok contract => exact ⟨fun _ _ => rfl, fun _ _ => rfl, rfl, rfl, rfl, rfl⟩

theorem setContractModule_sameFunds (hash : Hash) (module : Module) :
    Exec.Moves SameFunds (setContractModule (P := P) hash module) := by
  intro s
  rw [setContractModule_eq]
  split
  · exact ⟨fun _ _ => rfl, fun _ _ => rfl, rfl, rfl, rfl, rfl⟩
  · exact ⟨fun _ _ => rfl, fun _ _ => rfl, rfl, rfl, rfl, rfl⟩
  · exact SameFunds.refl s

end Sender

end ChainState

def storedContractBalance (storage : Storage P) (topoheight : TopoHeight) (contract asset : Hash) : Nat :=
  match storage.getContractBalanceAtMaximumTopoheight contract asset topoheight with
  | .ok (some (_, version)) => version.data
  | .ok none => 0
  | .error _ => 0

def heldIn (storage : Storage P) (topoheight : TopoHeight) (contract : Hash) (cache : ContractCache) (asset : Hash) : Nat :=
  match cache.balances[asset]? with
  | some (some (_, balance)) => balance
  | some none => 0
  | none => storedContractBalance storage topoheight contract asset

/-- What the contracts sent to an account, paid when the block is written. -/
def owedIn (tracker : ContractEventTracker) (key : PublicKey) (asset : Hash) : Nat :=
  (tracker.transfers[key]?.bind (·[asset]?)).getD 0

/-- What the running contract has, with all that was sent out in the block. -/
def ContractChainState.worth (state : ContractChainState) (storage : Storage P) (asset : Hash) : Nat :=
  heldIn storage state.topoheight state.contract state.cache asset + Book.total (owedIn state.tracker) asset

/-- The plaintext of a ciphertext, given what every key takes off the commitment. -/
def opening (secret : PublicKey → P →+ P) (key : PublicKey) (ct : Ciphertext P) : P :=
  ct.commitment - secret key ct.handle

section Opening

variable (secret : PublicKey → P →+ P) (key : PublicKey)

@[simp] theorem opening_zero : opening secret key Ciphertext.zero = 0 := by
  simp [opening, Ciphertext.zero]

@[simp] theorem opening_add (a b : Ciphertext P) :
    opening secret key (a.add b) = opening secret key a + opening secret key b := by
  simp only [opening, Ciphertext.add, map_add]
  abel

@[simp] theorem opening_addScalar (a : Ciphertext P) (amount : Nat) :
    opening secret key (a.addScalar amount) = opening secret key a + amount • RistrettoPoint.basepoint := by
  simp only [opening, Ciphertext.addScalar]
  abel

end Opening

namespace ApplicableChainState

def accounts (secret : PublicKey → P →+ P) (s : ApplicableChainState P) : Book PublicKey Hash P := fun key asset =>
  opening secret key (s.inner.received key asset) - opening secret key (s.inner.spent key asset)

def held (s : ApplicableChainState P) : Book Hash Hash Nat := fun contract asset =>
  heldIn s.inner.storage s.inner.topoheight contract (s.contractManager.caches[contract]?.getD {}) asset

/-- The gas collected for the miner and the coins burned. Both are in the native asset. -/
def collected (s : ApplicableChainState P) (asset : Hash) : Nat :=
  if asset = XELIS_ASSET then s.inner.gasFee + s.burnedSupply else 0

/-- All there is of an asset while a block is executed. -/
def total (secret : PublicKey → P →+ P) (s : ApplicableChainState P) (asset : Hash) : P :=
  (s.accounts secret).total asset +
    (s.held.total asset + Book.total (owedIn s.contractManager.tracker) asset + s.collected asset) •
      RistrettoPoint.basepoint

/-- Nothing moved between the two states. -/
structure Unmoved (s s' : ApplicableChainState P) : Prop where
  inner : ChainState.SameFunds s.inner s'.inner
  contractManager : s'.contractManager = s.contractManager
  burnedSupply : s'.burnedSupply = s.burnedSupply
  blockHash : s'.blockHash = s.blockHash
  block : s'.block = s.block

namespace Unmoved

theorem refl (s : ApplicableChainState P) : Unmoved s s := ⟨.refl _, rfl, rfl, rfl, rfl⟩

theorem trans {a b c : ApplicableChainState P} (hab : Unmoved a b) (hbc : Unmoved b c) : Unmoved a c where
  inner := hab.inner.trans hbc.inner
  contractManager := hbc.contractManager.trans hab.contractManager
  burnedSupply := hbc.burnedSupply.trans hab.burnedSupply
  blockHash := hbc.blockHash.trans hab.blockHash
  block := hbc.block.trans hab.block

theorem total_eq {s s' : ApplicableChainState P} (h : Unmoved s s') (secret : PublicKey → P →+ P) :
    s'.total secret = s.total secret := by
  have haccounts : s'.accounts secret = s.accounts secret := by
    funext key asset
    rw [accounts, accounts, h.inner.received, h.inner.spent]
  have hheld : s'.held = s.held := by
    funext contract asset
    rw [held, held, h.inner.storage, h.inner.topoheight, h.contractManager]
  funext asset
  simp only [total, haccounts, hheld, h.contractManager, collected, h.inner.gasFee, h.burnedSupply]

end Unmoved

theorem onInner_unmoved {α : Type} {x : Exec BlockchainError (ChainState P) α}
    (h : Exec.Moves ChainState.SameFunds x) : Exec.Moves Unmoved (onInner x) := by
  intro s
  have hx := h s.inner
  unfold onInner
  cases hr : x s.inner with
  | ok a inner =>
    rw [hr] at hx
    exact ⟨hx, rfl, rfl, rfl, rfl⟩
  | error e inner =>
    rw [hr] at hx
    exact ⟨hx, rfl, rfl, rfl, rfl⟩

end ApplicableChainState

end Xelis.State
