import Xelis.Mempool.Mempool
import Xelis.State.Credits
import Xelis.State.ReservedBalance

namespace Xelis.Mempool

open Lib (FiniteMap Exec)
open State

variable {P : Type}

theorem getBalance_setBalance (e : Echange P) (ct : Ciphertext P) : (e.setBalance ct).getBalance.1 = ct := by
  obtain ⟨allow, newVersion, version, outputSum, used⟩ := e
  unfold Echange.getBalance Echange.setBalance Echange.useOutput VersionedBalance.setSelected VersionedBalance.selectBalance
  cases version.outputBalance with
  | none => simp
  | some balance => cases used <;> cases allow <;> simp

theorem getBalance_new [RistrettoPoint P] (allow newVersion : Bool) (version : VersionedBalance P) :
    (Echange.new allow newVersion version).getBalance.1 = version.takeBalanceWith allow := by
  unfold Echange.getBalance Echange.new Echange.useOutput VersionedBalance.selectBalance VersionedBalance.takeBalanceWith
  cases version.outputBalance with
  | none => rfl
  | some balance => cases allow <;> rfl

variable [RistrettoPoint P]

def assetsOf (tx : Transaction) : List Hash := tx.sourceCommitments.map SourceCommitment.asset

def poolBalance (pool : Mempool P) (view : ChainView P) (account : MempoolState.Account P) (key : PublicKey) (asset : Hash)
    (reference : Reference) : Except BlockchainError (Ciphertext P) :=
  match account.assets[asset]? with
  | some ct => .ok ct
  | none => MempoolState.findBalance pool view.storage view.topoheight key asset reference

def chainBalance (view : ChainView P) (account : Account P) (key : PublicKey) (asset : Hash) (reference : Reference) :
    Except BlockchainError (Ciphertext P) :=
  match account.assets[asset]? with
  | some e => .ok e.getBalance.1
  | none => (ChainState.createSenderEchange view.storage key asset view.topoheight reference).map (fun e => e.getBalance.1)

/-- The account of the sender is the same for both, as far as the transaction looks at it. -/
structure Mirrored (pool : Mempool P) (view : ChainView P) (tx : Transaction) (keeps : Prop) (used : Hash → Prop)
    (nonce : Nonce) (spent : List Hash) (mine : MempoolState.Account P) (theirs : Account P) : Prop where
  poolNonce : mine.nonce = nonce
  chainNonce : theirs.nonce.nonce = nonce
  multisig : mine.multisig = theirs.multisig.bind Prod.snd
  kept : keeps → mine.multisig.isSome
  stored : ∃ stored, MempoolState.storedMultisig view.storage tx.source view.topoheight = .ok stored
  balances : ∀ asset ∈ assetsOf tx, ∀ ct, poolBalance pool view mine tx.source asset tx.reference = .ok ct ↔
    chainBalance view theirs tx.source asset tx.reference = .ok ct
  poolSpent : ∀ asset : Hash, mine.assets[asset]?.isSome ↔ asset ∈ spent
  chainSpent : ∀ asset : Hash, theirs.assets[asset]?.isSome ↔ used asset ∨ asset ∈ spent

/-- The contract as a state that has loaded none yet finds it. -/
def storedContract (view : ChainView P) (hash : Hash) : Except BlockchainError (VersionedState × Option Module) :=
  (view.storage.getContractAtMaximumTopoheightFor hash view.topoheight).map (fun found =>
    match found with
    | some (topo, version) => (.fetchedAt topo, version.data)
    | none => (.new, none))

/-- The chain state is over this chain, and knows only of the contracts deployed on top of it. -/
structure OverChain (view : ChainView P) (deployed : Hash → Prop) (c : ChainState P) : Prop where
  storage : c.storage = view.storage
  topoheight : c.topoheight = view.topoheight
  blockVersion : c.blockVersion = view.blockVersion
  receivers : Loadable (Known view.storage view.topoheight) c.receiverBalances
  contracts : ∀ hash, ¬deployed hash → c.findContract hash = storedContract view hash

/-- The mempool state is over this chain and this pool, and has loaded contracts from the storage only. -/
structure OverPool (pool : Mempool P) (view : ChainView P) (m : MempoolState P) : Prop where
  mempool : m.mempool = pool
  storage : m.storage = view.storage
  topoheight : m.topoheight = view.topoheight
  blockVersion : m.blockVersion = view.blockVersion
  receivers : Loadable (Known view.storage view.topoheight) m.receiverBalances
  contracts : ∀ (hash : Hash) (module : Module), m.contracts[hash]? = some module →
    ∃ state, storedContract view hash = .ok (state, some module)

variable {m' m : MempoolState P} {c' c : ChainState P} {hash contract other : Hash}

section Preserved

variable {pool : Mempool P} {view : ChainView P} {deployed : Hash → Prop} {m : MempoolState P} {c : ChainState P}

theorem OverPool.setAccount (h : OverPool pool view m) (key : PublicKey) (account : MempoolState.Account P) :
    OverPool pool view (MempoolState.setAccount key account m) :=
  ⟨h.mempool, h.storage, h.topoheight, h.blockVersion, h.receivers, h.contracts⟩

theorem OverChain.setAccount (h : OverChain view deployed c) (key : PublicKey) (account : Account P) :
    OverChain view deployed (ChainState.setAccount key account c) :=
  ⟨h.storage, h.topoheight, h.blockVersion, h.receivers, h.contracts⟩

theorem OverPool.only (h : OverPool pool view m) (honly : m.OnlyReceivers m') : OverPool pool view m' := by
  obtain ⟨balances, hload, rfl⟩ := honly
  rw [h.storage, h.topoheight] at hload
  exact ⟨h.mempool, h.storage, h.topoheight, h.blockVersion, hload, h.contracts⟩

theorem OverChain.only (h : OverChain view deployed c) (honly : c.OnlyReceivers c') : OverChain view deployed c' := by
  obtain ⟨balances, hload, rfl⟩ := honly
  rw [h.storage, h.topoheight] at hload
  exact ⟨h.storage, h.topoheight, h.blockVersion, hload, h.contracts⟩

theorem OverChain.load (h : OverChain view deployed c) {contract : VersionedState × Option Module}
    (hfind : c.findContract hash = .ok contract) : OverChain view deployed (ChainState.setContract hash contract c) where
  storage := h.storage
  topoheight := h.topoheight
  blockVersion := h.blockVersion
  receivers := h.receivers
  contracts hash' hnot := by rw [ChainState.findContract_keep hfind, h.contracts hash' hnot]

theorem OverChain.deploy (h : OverChain view deployed c) (hash : Hash) (contract : VersionedState × Option Module)
    {deployed' : Hash → Prop} (hmore : ∀ hash', ¬deployed' hash' → ¬deployed hash' ∧ hash ≠ hash') :
    OverChain view deployed' (ChainState.setContract hash contract c) where
  storage := h.storage
  topoheight := h.topoheight
  blockVersion := h.blockVersion
  receivers := h.receivers
  contracts hash' hnot := by
    obtain ⟨hnot, hne⟩ := hmore hash' hnot
    rw [ChainState.findContract_setContract_of_ne hne, h.contracts hash' hnot]

end Preserved

section Relations

variable (pool : Mempool P) (view : ChainView P) (tx : Transaction) (txHash : Hash) (keeps : Prop) (used deployed : Hash → Prop)

def BothLoaded (nonce : Nonce) (spent : List Hash) (m : MempoolState P) (c : ChainState P) : Prop :=
  OverPool pool view m ∧ OverChain view deployed c ∧ ∃ mine theirs, m.accounts[tx.source]? = some mine ∧
    c.accounts[tx.source]? = some theirs ∧ Mirrored pool view tx keeps used nonce spent mine theirs

/-- Both states would load the same account, or fail to. -/
def BothReady (m : MempoolState P) (c : ChainState P) : Prop :=
  OverPool pool view m ∧ OverChain view deployed c ∧ m.accounts[tx.source]? = none ∧
    ((∃ nonce mine theirs, MempoolState.createSenderAccount pool view.storage tx.source view.topoheight = .ok mine ∧
        c.findAccount tx.source = .ok theirs ∧ Mirrored pool view tx keeps used nonce [] mine theirs) ∨
      ∃ e e', MempoolState.createSenderAccount pool view.storage tx.source view.topoheight = .error e ∧
        c.findAccount tx.source = .error e')

def Resets : Prop := ∃ payload, tx.data = .multiSig payload ∧ payload.isDelete = true

/-- What is left once the transaction went through. -/
def BothDone (m : MempoolState P) (c : ChainState P) : Prop :=
  OverChain view (fun hash => deployed hash ∨ tx.Deploys ∧ hash = txHash) c ∧ ∃ mine theirs,
    m.accounts[tx.source]? = some mine ∧ c.accounts[tx.source]? = some theirs ∧
      Mirrored pool view tx (keeps ∧ ¬Resets tx) used (tx.nonce + 1) (assetsOf tx) mine theirs

end Relations

section Operations

variable {pool : Mempool P} {view : ChainView P} {tx : Transaction} {txHash : Hash} {keeps : Prop}
  {used deployed : Hash → Prop}

theorem preVerifyTx_agree (txSize : Transaction → Nat) :
    Exec.Agree (BothReady pool view tx keeps used deployed)
      ((MempoolState.verificationState txSize).preVerifyTx tx : Exec BlockchainError (MempoolState P) PUnit)
      ((ChainState.verificationState txSize).preVerifyTx tx : Exec BlockchainError (ChainState P) PUnit)
      (BothReady pool view tx keeps used deployed) := by
  intro m c hmc
  obtain ⟨hm, hc, hrest⟩ := hmc
  show Exec.Alike _ (Exec.ofExcept (preVerifyTx txSize m.storage tx m.topoheight m.blockVersion) m)
    (Exec.ofExcept (preVerifyTx txSize c.storage tx c.topoheight c.blockVersion) c)
  rw [hm.storage, hm.topoheight, hm.blockVersion, hc.storage, hc.topoheight, hc.blockVersion]
  exact Exec.Agree.ofExcept (fun _ => Iff.rfl) m c ⟨hm, hc, hrest⟩

theorem getAccountNonce_agree :
    Exec.Agree (BothReady pool view tx keeps used deployed)
      (MempoolState.internalGetAccountNonce tx.source : Exec BlockchainError (MempoolState P) Nonce)
      (ChainState.internalGetAccountNonce tx.source : Exec BlockchainError (ChainState P) Nonce)
      (fun m c => ∃ nonce, BothLoaded pool view tx keeps used deployed nonce [] m c) := by
  rintro m c ⟨hm, hc, hnone, hfind⟩
  have hmine : m.findAccount tx.source =
      MempoolState.createSenderAccount pool view.storage tx.source view.topoheight := by
    rw [MempoolState.findAccount, hnone, hm.mempool, hm.storage, hm.topoheight]
  rw [MempoolState.internalGetAccountNonce_eq, hmine, ChainState.internalGetAccountNonce, Exec.bind_apply,
    ChainState.getInternalAccount_eq]
  rcases hfind with ⟨nonce, mine, theirs, hcreate, hfound, hmirror⟩ | ⟨e, e', hcreate, hfound⟩
  · rw [hcreate, hfound]
    dsimp only
    rw [Exec.pure_apply, hmirror.poolNonce, hmirror.chainNonce]
    refine .ok nonce ⟨nonce, hm.setAccount _ _, hc.setAccount _ _, mine, theirs, ?_, ?_, hmirror⟩
    · exact FiniteMap.getElem?_insert_self' _ _ _
    · exact FiniteMap.getElem?_insert_self' _ _ _
  · rw [hcreate, hfound]
    exact .error _ _ _ _

variable {nonce nonce' : Nonce} {spent spent' : List Hash}

theorem BothLoaded.setAccounts
    (h : BothLoaded pool view tx keeps used deployed nonce spent m c) {mine : MempoolState.Account P} {theirs : Account P}
    (hmirror : Mirrored pool view tx keeps used nonce' spent' mine theirs) :
    BothLoaded pool view tx keeps used deployed nonce' spent' (MempoolState.setAccount tx.source mine m)
      (ChainState.setAccount tx.source theirs c) := by
  obtain ⟨hm, hc, -⟩ := h
  refine ⟨hm.setAccount _ _, hc.setAccount _ _, mine, theirs, ?_, ?_, hmirror⟩
  · exact FiniteMap.getElem?_insert_self' _ _ _
  · exact FiniteMap.getElem?_insert_self' _ _ _

theorem updateAccountNonce_agree (newNonce : Nonce) :
    Exec.Agree (fun m c => ∃ nonce, BothLoaded pool view tx keeps used deployed nonce [] m c)
      (MempoolState.internalUpdateAccountNonce tx.source newNonce : Exec BlockchainError (MempoolState P) PUnit)
      (ChainState.internalUpdateAccountNonce tx.source newNonce : Exec BlockchainError (ChainState P) PUnit)
      (BothLoaded pool view tx keeps used deployed newNonce []) := by
  rintro m c ⟨nonce, hloaded⟩
  obtain ⟨hm, hc, mine, theirs, hmine, htheirs, hmirror⟩ := id hloaded
  rw [ChainState.internalUpdateAccountNonce_eq, ChainState.findAccount_of_some htheirs]
  simp only [MempoolState.internalUpdateAccountNonce, Exec.bind_apply, Exec.get_apply, hmine]
  refine .ok PUnit.unit (hloaded.setAccounts ?_)
  exact ⟨rfl, rfl, hmirror.multisig, hmirror.kept, hmirror.stored, hmirror.balances, hmirror.poolSpent, hmirror.chainSpent⟩

theorem getMultisigState_agree :
    Exec.Agree (BothLoaded pool view tx keeps used deployed nonce spent)
      (MempoolState.getMultisigState tx.source : Exec BlockchainError (MempoolState P) (Option MultiSigPayload))
      (ChainState.getMultisigState tx.source : Exec BlockchainError (ChainState P) (Option MultiSigPayload))
      (BothLoaded pool view tx keeps used deployed nonce spent) := by
  intro m c hloaded
  obtain ⟨hm, hc, mine, theirs, hmine, htheirs, hmirror⟩ := id hloaded
  rw [ChainState.getMultisigState, Exec.bind_apply, ChainState.getInternalAccount_eq, ChainState.findAccount_of_some htheirs]
  simp only [MempoolState.getMultisigState, Exec.bind_apply, Exec.get_apply, hmine]
  rw [Exec.pure_apply, Exec.pure_apply, hmirror.multisig]
  refine .ok _ ?_
  have hsame : ChainState.setAccount tx.source theirs c = c := by
    rw [ChainState.setAccount, FiniteMap.insert_eq_self htheirs]
  rw [hsame]
  exact hloaded

theorem setMultisigState_agree {payload : MultiSigPayload} (hdata : tx.data = .multiSig payload) :
    Exec.Agree (BothLoaded pool view tx keeps used deployed (tx.nonce + 1) (assetsOf tx))
      (MempoolState.setMultisigState tx.source payload : Exec BlockchainError (MempoolState P) PUnit)
      (ChainState.setMultisigState tx.source payload : Exec BlockchainError (ChainState P) PUnit)
      (BothDone pool view tx txHash keeps used deployed) := by
  intro m c hloaded
  obtain ⟨hm, hc, mine, theirs, hmine, htheirs, hmirror⟩ := id hloaded
  rw [ChainState.setMultisigState_eq, ChainState.findAccount_of_some htheirs]
  simp only [MempoolState.setMultisigState, Exec.bind_apply, Exec.get_apply, hmine]
  refine .ok PUnit.unit ⟨?_, _, _, FiniteMap.getElem?_insert_self' _ _ _, FiniteMap.getElem?_insert_self' _ _ _, ?_⟩
  · have hkeep := hc.setAccount tx.source (ChainState.withMultisig theirs payload)
    exact ⟨hkeep.storage, hkeep.topoheight, hkeep.blockVersion, hkeep.receivers,
      fun hash hnot => hkeep.contracts hash (fun hdeployed => hnot (.inl hdeployed))⟩
  · refine ⟨hmirror.poolNonce, hmirror.chainNonce, rfl, ?_, hmirror.stored, hmirror.balances, hmirror.poolSpent, hmirror.chainSpent⟩
    rintro ⟨-, hkept⟩
    dsimp only
    rw [if_neg fun hdelete => hkept ⟨payload, hdata, hdelete⟩]
    rfl

/-- The module that a call needs is the one of the storage. -/
def Callable (view : ChainView P) (contract : Hash) (module : Module) : Prop :=
  ∃ state, storedContract view contract = .ok (state, some module)

omit [RistrettoPoint P] in
theorem callable_iff (contract : Hash) (module : Module) :
    Callable view contract module ↔ ∃ found,
      view.storage.getContractAtMaximumTopoheightFor contract view.topoheight = .ok found ∧
        found.bind (fun v => v.2.data) = some module := by
  unfold Callable storedContract
  cases view.storage.getContractAtMaximumTopoheightFor contract view.topoheight with
  | error e =>
    constructor
    · rintro ⟨state, h⟩
      cases h
    · rintro ⟨found, h, -⟩
      cases h
  | ok found =>
    cases found with
    | none =>
      constructor
      · rintro ⟨state, h⟩
        cases h
      · rintro ⟨found, h, hmodule⟩
        cases h
        cases hmodule
    | some v =>
      constructor
      · rintro ⟨state, h⟩
        injection h with h
        exact ⟨some v, rfl, (Prod.mk.inj h).2⟩
      · rintro ⟨found, h, hmodule⟩
        cases h
        exact ⟨.fetchedAt v.1, congrArg Except.ok (Prod.ext rfl hmodule)⟩

def Calls {S : Type} (view : ChainView P) (contract : Hash) (run : EStateM.Result (VerificationError BlockchainError) S Module)
    (only : S → Prop) : Prop :=
  (∃ module s', Callable view contract module ∧ run = .ok module s' ∧ only s') ∨
    (∀ module, ¬Callable view contract module) ∧ ∃ e s', run = .error e s'

theorem pool_calls (txSize : Transaction → Nat) (hm : OverPool pool view m) (contract : Hash) :
    Calls view contract
      (@Transaction.callee P (MempoolState P) BlockchainError (MempoolState.verificationState txSize) contract m)
      (fun m' => OverPool pool view m' ∧ m'.accounts = m.accounts) := by
  let _ := MempoolState.verificationState (P := P) txSize
  cases hheld : m.contracts[contract]? with
  | some module =>
    have hcontains : m.contracts.contains contract = true := by
      rw [Std.ExtTreeMap.contains_eq_isSome_getElem?, hheld]
      rfl
    refine .inl ⟨module, m, hm.contracts contract module hheld, Transaction.callee_ok (t := m) ?_ ?_, hm, rfl⟩
    · show MempoolState.loadContractModule contract m = _
      rw [MempoolState.loadContractModule, Exec.bind_apply, Exec.get_apply]
      dsimp only
      rw [hcontains]
      rfl
    · show MempoolState.getContractModule contract m = _
      rw [MempoolState.getContractModule, Exec.bind_apply, Exec.get_apply]
      dsimp only
      rw [hheld]
      rfl
  | none =>
    have hcontains : m.contracts.contains contract = false := by
      rw [Std.ExtTreeMap.contains_eq_isSome_getElem?, hheld]
      rfl
    obtain ⟨r, hr⟩ : ∃ r, MempoolState.loadContractModule contract m = r := ⟨_, rfl⟩
    have hload := hr
    rw [MempoolState.loadContractModule, Exec.bind_apply, Exec.get_apply] at hload
    dsimp only at hload
    have hlookup : m.storage.getContractAtMaximumTopoheightFor contract m.topoheight =
        view.storage.getContractAtMaximumTopoheightFor contract view.topoheight := by rw [hm.storage, hm.topoheight]
    rw [hcontains, hlookup] at hload
    rw [if_neg Bool.false_ne_true, Exec.bind_apply, Exec.ofExcept_apply] at hload
    cases hfound : view.storage.getContractAtMaximumTopoheightFor contract view.topoheight with
    | error e =>
      rw [hfound] at hload
      refine .inr ⟨fun module hcallable => ?_, _, _, Transaction.callee_error (hr.trans hload.symm)⟩
      obtain ⟨found, hok, -⟩ := (callable_iff contract module).mp hcallable
      rw [hfound] at hok
      cases hok
    | ok found =>
      rw [hfound] at hload
      dsimp only at hload
      cases hmodule : found.bind (fun v => v.2.data) with
      | none =>
        rw [hmodule] at hload
        refine .inr ⟨fun module hcallable => ?_, _, _, Transaction.callee_error (hr.trans hload.symm)⟩
        obtain ⟨found', hok, hmodule'⟩ := (callable_iff contract module).mp hcallable
        rw [hfound] at hok
        cases hok
        rw [hmodule] at hmodule'
        cases hmodule'
      | some module =>
        rw [hmodule] at hload
        have hcallable := (callable_iff contract module).mpr ⟨found, hfound, hmodule⟩
        refine .inl ⟨module, { m with contracts := m.contracts.insert contract module }, hcallable,
          Transaction.callee_ok (hr.trans hload.symm) ?_, ?_, rfl⟩
        · show MempoolState.getContractModule contract _ = _
          rw [MempoolState.getContractModule, Exec.bind_apply, Exec.get_apply]
          dsimp only
          rw [FiniteMap.getElem?_insert_self']
          rfl
        · refine ⟨hm.mempool, hm.storage, hm.topoheight, hm.blockVersion, hm.receivers, fun hash other hother => ?_⟩
          by_cases hhash : contract = hash
          · subst hhash
            rw [FiniteMap.getElem?_insert_self'] at hother
            cases hother
            exact hcallable
          · rw [FiniteMap.getElem?_insert_of_ne _ _ hhash] at hother
            exact hm.contracts hash other hother

theorem chain_calls (txSize : Transaction → Nat) (hc : OverChain view deployed c) (hnot : ¬deployed contract) :
    Calls view contract
      (@Transaction.callee P (ChainState P) BlockchainError (ChainState.verificationState txSize) contract c)
      (fun c' => OverChain view deployed c' ∧ c'.accounts = c.accounts) := by
  let _ := ChainState.verificationState (P := P) txSize
  have hload := ChainState.loadVersionedContract_eq contract c
  rw [hc.contracts contract hnot] at hload
  cases hstored : storedContract view contract with
  | error e =>
    rw [hstored] at hload
    refine .inr ⟨fun module ⟨state, hcallable⟩ => ?_, _, _, Transaction.callee_error hload⟩
    rw [hstored] at hcallable
    cases hcallable
  | ok contracted =>
    rw [hstored] at hload
    dsimp only at hload
    obtain ⟨state, module⟩ := contracted
    cases module with
    | none =>
      refine .inr ⟨fun module ⟨state', hcallable⟩ => ?_, _, _, Transaction.callee_absent hload⟩
      rw [hstored] at hcallable
      cases hcallable
    | some module =>
      refine .inl ⟨module, ChainState.setContract contract (state, some module) c, ⟨state, hstored⟩,
        Transaction.callee_ok hload ?_, ?_, rfl⟩
      · show ChainState.internalGetContractModule contract _ = _
        rw [ChainState.internalGetContractModule, Exec.bind_apply, Exec.get_apply]
        dsimp only [ChainState.setContract]
        rw [FiniteMap.getElem?_insert_self']
        rfl
      · exact hc.load ((hc.contracts contract hnot).trans hstored)

theorem callee_agree (txSize : Transaction → Nat) (hnot : ¬deployed contract) :
    Exec.Agree (BothLoaded pool view tx keeps used deployed nonce spent)
      (@Transaction.callee P (MempoolState P) BlockchainError (MempoolState.verificationState txSize) contract)
      (@Transaction.callee P (ChainState P) BlockchainError (ChainState.verificationState txSize) contract)
      (BothLoaded pool view tx keeps used deployed nonce spent) := by
  rintro m c ⟨hm, hc, mine, theirs, hmine, htheirs, hmirror⟩
  rcases pool_calls txSize hm contract with ⟨module, m', ⟨state, hcallable⟩, hcall, hm', haccounts⟩ | ⟨hnone, e, m', hcall⟩
  · rcases chain_calls txSize hc hnot with ⟨module', c', ⟨state', hcallable'⟩, hcall', hc', haccounts'⟩ | ⟨hnone, -⟩
    · rw [hcallable] at hcallable'
      cases hcallable'
      rw [hcall, hcall']
      refine .ok module ⟨hm', hc', mine, theirs, ?_, ?_, hmirror⟩
      · rw [haccounts]
        exact hmine
      · rw [haccounts']
        exact htheirs
    · exact absurd ⟨state, hcallable⟩ (hnone module)
  · rcases chain_calls txSize hc hnot with ⟨module', c', hcallable', -⟩ | ⟨-, e', c', hcall'⟩
    · exact absurd hcallable' (hnone module')
    · rw [hcall, hcall']
      exact .error _ _ _ _

theorem setContractModule_agree {payload : DeployContractPayload} (hdata : tx.data = .deployContract payload)
    (hnot : ¬deployed txHash) (hfresh : storedContract view txHash = .ok (.new, none)) :
    Exec.Agree (BothLoaded pool view tx keeps used deployed (tx.nonce + 1) (assetsOf tx))
      (MempoolState.setContractModule txHash payload.module : Exec BlockchainError (MempoolState P) PUnit)
      (ChainState.setContractModule txHash payload.module : Exec BlockchainError (ChainState P) PUnit)
      (BothDone pool view tx txHash keeps used deployed) := by
  rintro m c ⟨hm, hc, mine, theirs, hmine, htheirs, hmirror⟩
  have hempty : m.contracts.contains txHash = false := by
    rw [Std.ExtTreeMap.contains_eq_isSome_getElem?]
    cases hheld : m.contracts[txHash]? with
    | none => rfl
    | some module =>
      obtain ⟨state, hstored⟩ := hm.contracts txHash module hheld
      rw [hfresh] at hstored
      cases hstored
  rw [ChainState.setContractModule_eq, hc.contracts txHash hnot, hfresh]
  simp only [MempoolState.setContractModule, Exec.bind_apply, Exec.get_apply, Exec.set_apply, hempty]
  refine .ok PUnit.unit ⟨?_, mine, theirs, hmine, htheirs, ?_⟩
  · refine hc.deploy txHash _ fun hash hnot' => ⟨fun hdeployed => hnot' (.inl hdeployed), ?_⟩
    rintro rfl
    exact hnot' (.inr ⟨⟨payload, hdata⟩, rfl⟩)
  · exact ⟨hmirror.poolNonce, hmirror.chainNonce, hmirror.multisig, fun h => hmirror.kept h.1, hmirror.stored, hmirror.balances,
      hmirror.poolSpent, hmirror.chainSpent⟩

theorem credit_mirrored (txSize : Transaction → Nat) (key : PublicKey) (asset : Hash) (ct : Ciphertext P) :
    Exec.Agree (BothLoaded pool view tx keeps used deployed nonce spent)
      (@Transaction.credit P (MempoolState P) BlockchainError _ (MempoolState.verificationState txSize) key asset ct)
      (@Transaction.credit P (ChainState P) BlockchainError _ (ChainState.verificationState txSize) key asset ct)
      (BothLoaded pool view tx keeps used deployed nonce spent) := by
  refine credit_agree (MempoolState.verificationState txSize) (ChainState.verificationState txSize) view.storage
    view.topoheight MempoolState.OnlyReceivers ChainState.OnlyReceivers ?_ ?_ ?_ ct
  · rintro m c ⟨hm, -⟩
    have hcredits := m.credits (by rw [hm.storage, hm.topoheight]; exact hm.receivers) key asset
    rwa [hm.storage, hm.topoheight] at hcredits
  · rintro m c ⟨-, hc, -⟩
    have hcredits := c.credits (by rw [hc.storage, hc.topoheight]; exact hc.receivers) key asset
    rwa [hc.storage, hc.topoheight] at hcredits
  · rintro m c m' c' ⟨hm, hc, mine, theirs, hmine, htheirs, hmirror⟩ hm' hc'
    refine ⟨hm.only hm', hc.only hc', mine, theirs, ?_, ?_, hmirror⟩
    · obtain ⟨balances, -, rfl⟩ := hm'
      exact hmine
    · obtain ⟨balances, -, rfl⟩ := hc'
      exact htheirs

section Spending

variable {nonce : Nonce} {spent spent' : List Hash} {mine : MempoolState.Account P} {theirs : Account P} {asset : Hash}

theorem poolBalance_setBalance_of_ne (hne : asset ≠ other) (ct : Ciphertext P) (key : PublicKey)
    (reference : Reference) :
    poolBalance pool view (MempoolState.setBalance mine asset ct) key other reference =
      poolBalance pool view mine key other reference := by
  unfold poolBalance MempoolState.setBalance
  dsimp only
  rw [FiniteMap.getElem?_insert_of_ne _ _ hne]

theorem chainBalance_setEchange_of_ne (hne : asset ≠ other) (e : Echange P) (key : PublicKey) (reference : Reference) :
    chainBalance view (ChainState.setEchange theirs asset e) key other reference =
      chainBalance view theirs key other reference := by
  unfold chainBalance ChainState.setEchange
  dsimp only
  rw [FiniteMap.getElem?_insert_of_ne _ _ hne]

variable {ct : Ciphertext P}

theorem poolBalance_of_some (h : mine.assets[asset]? = some ct) (key : PublicKey)
    (reference : Reference) : poolBalance pool view mine key asset reference = .ok ct := by
  rw [poolBalance, h]

theorem chainBalance_of_some {e : Echange P} (h : theirs.assets[asset]? = some e) (key : PublicKey)
    (reference : Reference) : chainBalance view theirs key asset reference = .ok e.getBalance.1 := by
  rw [chainBalance, h]

/-- The same balance is put in both accounts. -/
theorem Mirrored.spend (h : Mirrored pool view tx keeps used nonce spent mine theirs) {e : Echange P}
    (he : e.getBalance.1 = ct) (hspent : ∀ other, other ∈ spent' ↔ other ∈ spent ∨ other = asset) :
    Mirrored pool view tx keeps used nonce spent' (MempoolState.setBalance mine asset ct)
      (ChainState.setEchange theirs asset e) where
  poolNonce := h.poolNonce
  chainNonce := h.chainNonce
  multisig := h.multisig
  kept := h.kept
  stored := h.stored
  balances other hother ct' := by
    by_cases hne : asset = other
    · subst hne
      rw [poolBalance_of_some (FiniteMap.getElem?_insert_self' _ _ _),
        chainBalance_of_some (FiniteMap.getElem?_insert_self' _ _ _), he]
    · rw [poolBalance_setBalance_of_ne hne, chainBalance_setEchange_of_ne hne]
      exact h.balances other hother ct'
  poolSpent other := by
    rw [hspent, ← h.poolSpent]
    by_cases hne : asset = other
    · subst hne
      refine iff_of_true ?_ (.inr rfl)
      rw [MempoolState.setBalance, FiniteMap.getElem?_insert_self']
      rfl
    · rw [MempoolState.setBalance, FiniteMap.getElem?_insert_of_ne _ _ hne]
      exact ⟨.inl, fun hor => hor.resolve_right (Ne.symm hne)⟩
  chainSpent other := by
    rw [hspent]
    by_cases hne : asset = other
    · subst hne
      refine iff_of_true ?_ (.inr (.inr rfl))
      rw [ChainState.setEchange, FiniteMap.getElem?_insert_self']
      rfl
    · rw [ChainState.setEchange, FiniteMap.getElem?_insert_of_ne _ _ hne, h.chainSpent]
      exact or_congr_right ⟨.inl, fun hor => hor.resolve_right (Ne.symm hne)⟩

theorem pool_getSenderBalance (hm : OverPool pool view m) (hmine : m.accounts[tx.source]? = some mine) (asset : Hash) :
    MempoolState.internalGetSenderBalance tx.source asset tx.reference m =
      match poolBalance pool view mine tx.source asset tx.reference with
      | .ok ct => .ok ct (MempoolState.setAccount tx.source (MempoolState.setBalance mine asset ct) m)
      | .error e => .error e m := by
  simp only [MempoolState.internalGetSenderBalance, Exec.bind_apply, Exec.get_apply, hmine]
  cases hasset : mine.assets[asset]? with
  | some ct =>
    rw [poolBalance_of_some hasset]
    have hsame : MempoolState.setAccount tx.source (MempoolState.setBalance mine asset ct) m = m := by
      rw [MempoolState.setBalance, FiniteMap.insert_eq_self hasset]
      show MempoolState.setAccount tx.source mine m = m
      rw [MempoolState.setAccount, FiniteMap.insert_eq_self hmine]
    dsimp only
    rw [hsame]
    rfl
  | none =>
    have hpool : poolBalance pool view mine tx.source asset tx.reference =
        MempoolState.findBalance m.mempool m.storage m.topoheight tx.source asset tx.reference := by
      rw [poolBalance, hasset, hm.mempool, hm.storage, hm.topoheight]
    rw [hpool]
    simp only [Exec.bind_apply, Exec.ofExcept_apply]
    cases MempoolState.findBalance m.mempool m.storage m.topoheight tx.source asset tx.reference with
    | ok ct => rfl
    | error e => rfl

theorem chain_getSenderBalance (tx : Transaction) (hc : OverChain view deployed c)
    (htheirs : c.accounts[tx.source]? = some theirs) (asset : Hash) :
    (∃ e ct, chainBalance view theirs tx.source asset tx.reference = .ok ct ∧ e.getBalance.1 = ct ∧
        ChainState.internalGetSenderVerificationBalance tx.source asset tx.reference c =
          .ok ct (ChainState.setAccount tx.source (ChainState.setEchange theirs asset e) c)) ∨
      ∃ error, chainBalance view theirs tx.source asset tx.reference = .error error ∧
        ChainState.internalGetSenderVerificationBalance tx.source asset tx.reference c = .error error c := by
  rw [ChainState.internalGetSenderVerificationBalance_eq, ChainState.findSender, htheirs, chainBalance]
  dsimp only
  cases hasset : theirs.assets[asset]? with
  | some e => exact .inl ⟨e.getBalance.2, e.getBalance.1, rfl, congrArg Prod.fst e.getBalance_getBalance, rfl⟩
  | none =>
    dsimp only
    rw [hc.storage, hc.topoheight]
    cases ChainState.createSenderEchange view.storage tx.source asset view.topoheight tx.reference with
    | ok e => exact .inl ⟨e.getBalance.2, e.getBalance.1, rfl, congrArg Prod.fst e.getBalance_getBalance, rfl⟩
    | error error => exact .inr ⟨error, rfl, rfl⟩

theorem getSenderBalance_agree (spent : List Hash) (hasset : asset ∈ assetsOf tx) :
    Exec.Agree (BothLoaded pool view tx keeps used deployed nonce spent)
      (MempoolState.internalGetSenderBalance tx.source asset tx.reference : Exec BlockchainError (MempoolState P) _)
      (ChainState.internalGetSenderVerificationBalance tx.source asset tx.reference : Exec BlockchainError (ChainState P) _)
      (fun m c => asset ∈ assetsOf tx ∧ BothLoaded pool view tx keeps used deployed nonce (spent ++ [asset]) m c) := by
  intro m c hloaded
  obtain ⟨hm, hc, mine, theirs, hmine, htheirs, hmirror⟩ := id hloaded
  rw [pool_getSenderBalance hm hmine]
  rcases chain_getSenderBalance tx hc htheirs asset with ⟨e, ct, hbalance, he, hget⟩ | ⟨error, hbalance, hget⟩
  · rw [hget, (hmirror.balances asset hasset ct).mpr hbalance]
    refine .ok ct ⟨hasset, hloaded.setAccounts (hmirror.spend he fun other => ?_)⟩
    rw [List.mem_append, List.mem_singleton]
  · rw [hget]
    cases hpool : poolBalance pool view mine tx.source asset tx.reference with
    | ok ct =>
      rw [(hmirror.balances asset hasset ct).mp hpool] at hbalance
      cases hbalance
    | error error' => exact .error _ _ _ _

theorem putSenderBalance_mirrored (ct : Ciphertext P)
    (h : asset ∈ assetsOf tx ∧ BothLoaded pool view tx keeps used deployed nonce (spent ++ [asset]) m c) :
    asset ∈ assetsOf tx ∧ BothLoaded pool view tx keeps used deployed nonce (spent ++ [asset])
      (MempoolState.putSenderBalance tx.source asset ct m) (ChainState.putSenderBalance tx.source asset ct c) := by
  obtain ⟨hasset, hloaded⟩ := h
  obtain ⟨hm, hc, mine, theirs, hmine, htheirs, hmirror⟩ := id hloaded
  have hmem : asset ∈ spent ++ [asset] := List.mem_append_right _ List.mem_cons_self
  obtain ⟨held, hheld⟩ := Option.isSome_iff_exists.mp ((hmirror.poolSpent asset).mpr hmem)
  obtain ⟨e, he⟩ := Option.isSome_iff_exists.mp ((hmirror.chainSpent asset).mpr (.inr hmem))
  refine ⟨hasset, ?_⟩
  rw [MempoolState.putSenderBalance, hmine, ChainState.putSenderBalance, htheirs]
  dsimp only
  rw [hheld, he]
  refine hloaded.setAccounts (hmirror.spend (getBalance_setBalance e ct) fun other => ?_)
  refine ⟨.inl, fun hor => hor.elim id ?_⟩
  rintro rfl
  exact hmem

theorem addSenderOutput_agree (output : Ciphertext P) :
    Exec.Agree
      (fun m c => asset ∈ assetsOf tx ∧ BothLoaded pool view tx keeps used deployed nonce (spent ++ [asset]) m c)
      (pure ⟨⟩ : Exec BlockchainError (MempoolState P) PUnit)
      (ChainState.internalUpdateSenderEchange tx.source asset output : Exec BlockchainError (ChainState P) PUnit)
      (BothLoaded pool view tx keeps used deployed nonce (spent ++ [asset])) := by
  rintro m c ⟨hasset, hloaded⟩
  obtain ⟨hm, hc, mine, theirs, hmine, htheirs, hmirror⟩ := id hloaded
  have hmem : asset ∈ spent ++ [asset] := List.mem_append_right _ List.mem_cons_self
  obtain ⟨ct, hheld⟩ := Option.isSome_iff_exists.mp ((hmirror.poolSpent asset).mpr hmem)
  obtain ⟨e, he⟩ := Option.isSome_iff_exists.mp ((hmirror.chainSpent asset).mpr (.inr hmem))
  have hbalance : e.getBalance.1 = ct := by
    have hchain := (hmirror.balances asset hasset ct).mp (poolBalance_of_some hheld tx.source tx.reference)
    rw [chainBalance_of_some he] at hchain
    exact Except.ok.inj hchain
  have hmirror' : Mirrored pool view tx keeps used nonce (spent ++ [asset]) (MempoolState.setBalance mine asset ct)
      (ChainState.setEchange theirs asset (e.addOutputToSum output)) := by
    refine hmirror.spend hbalance fun other => ⟨.inl, fun hor => hor.elim id ?_⟩
    rintro rfl
    exact hmem
  -- on the side of the mempool the account is put back as it was
  have hsame : MempoolState.setAccount tx.source (MempoolState.setBalance mine asset ct) m = m := by
    rw [MempoolState.setBalance, FiniteMap.insert_eq_self hheld]
    show MempoolState.setAccount tx.source mine m = m
    rw [MempoolState.setAccount, FiniteMap.insert_eq_self hmine]
  have hdone := hloaded.setAccounts hmirror'
  rw [hsame] at hdone
  simp only [ChainState.internalUpdateSenderEchange, Exec.bind_apply, Exec.get_apply, htheirs, he]
  exact .ok PUnit.unit hdone

end Spending

/-- Nothing is left to do when the payload changes neither the multisig nor the contracts. -/
theorem BothLoaded.done {m : MempoolState P} {c : ChainState P}
    (h : BothLoaded pool view tx keeps used deployed (tx.nonce + 1) (assetsOf tx) m c) :
    BothDone pool view tx txHash keeps used deployed m c := by
  obtain ⟨hm, hc, mine, theirs, hmine, htheirs, hmirror⟩ := h
  refine ⟨⟨hc.storage, hc.topoheight, hc.blockVersion, hc.receivers, fun hash hnot => ?_⟩, mine, theirs, hmine, htheirs,
    hmirror.poolNonce, hmirror.chainNonce, hmirror.multisig, fun hkeeps => hmirror.kept hkeeps.1, hmirror.stored, hmirror.balances,
    hmirror.poolSpent, hmirror.chainSpent⟩
  exact hc.contracts hash fun hdeployed => hnot (.inl hdeployed)

/-- From states that would load the same account, mempool and chain give the transaction the same verdict. -/
theorem agreement (txSize : Transaction → Nat)
    (hcall : ∀ payload, tx.data = .invokeContract payload → ¬deployed payload.contract)
    (hdeploy : ∀ payload, tx.data = .deployContract payload →
      ¬deployed txHash ∧ storedContract view txHash = .ok (.new, none)) :
    @Transaction.Agreement P (MempoolState P) (ChainState P) BlockchainError BlockchainError _
      (MempoolState.verificationState txSize) (ChainState.verificationState txSize)
      (BothReady pool view tx keeps used deployed)
      (fun m c => ∃ nonce, BothLoaded pool view tx keeps used deployed nonce [] m c)
      (BothLoaded pool view tx keeps used deployed (tx.nonce + 1))
      (fun spent asset m c => asset ∈ assetsOf tx ∧
        BothLoaded pool view tx keeps used deployed (tx.nonce + 1) (spent ++ [asset]) m c)
      (BothDone pool view tx txHash keeps used deployed) tx txHash :=
  let _ := MempoolState.verificationState (P := P) txSize
  let _ := ChainState.verificationState (P := P) txSize
  { preVerifyTx := preVerifyTx_agree txSize
    getAccountNonce := getAccountNonce_agree
    updateAccountNonce := updateAccountNonce_agree (tx.nonce + 1)
    getMultisigState := getMultisigState_agree
    callee := fun payload hdata => callee_agree txSize (hcall payload hdata)
    getSenderBalance := fun spent _ hmem => getSenderBalance_agree spent (List.mem_map_of_mem hmem)
    putSenderBalance := fun _ _ ct _ _ h => putSenderBalance_mirrored ct h
    addSenderOutput := fun _ _ ct => addSenderOutput_agree ct
    credit := fun _ _ transfer _ ct => credit_mirrored txSize transfer.destination transfer.asset ct
    setMultisigState := fun _ hdata => setMultisigState_agree hdata
    setContractModule := fun payload hdata =>
      setContractModule_agree hdata (hdeploy payload hdata).1 (hdeploy payload hdata).2
    done := fun _ _ _ _ h => h.done }

end Operations

end Xelis.Mempool
