import Xelis.Transaction.Footprint

namespace Xelis.Transaction

open Lib (FiniteMap IndexMap Exec)
open State State.ApplicableChainState

variable {P : Type}

def callsPart (s : ApplicableChainState P) :=
  (s.inner.storage, s.inner.topoheight, s.inner.mainnet, s.contractManager.caches, s.contractManager.tracker,
    s.contractManager.assets, s.blockHash, s.block)

/-- The contracts of the block, and what their calls read of it, are the same. -/
structure SameCalls (s s' : ApplicableChainState P) : Prop where
  part : callsPart s' = callsPart s
  contracts : ∀ hash, s'.inner.findContract hash = s.inner.findContract hash

/-- The contracts were not even looked up. -/
def KeepsCalls (s s' : ApplicableChainState P) : Prop :=
  callsPart s' = callsPart s ∧ s'.inner.contracts = s.inner.contracts

variable {s s' a b : ApplicableChainState P}

namespace SameCalls

variable {a b c : ApplicableChainState P}

theorem refl (s : ApplicableChainState P) : SameCalls s s := ⟨rfl, fun _ => rfl⟩

theorem trans (hab : SameCalls a b) (hbc : SameCalls b c) : SameCalls a c where
  part := hbc.part.trans hab.part
  contracts hash := (hbc.contracts hash).trans (hab.contracts hash)

theorem storage (h : SameCalls a b) : b.inner.storage = a.inner.storage := (Prod.ext_iff.mp h.part).1

theorem topoheight (h : SameCalls a b) : b.inner.topoheight = a.inner.topoheight := (Prod.ext_iff.mp (Prod.ext_iff.mp h.part).2).1

theorem assets (h : SameCalls a b) : b.contractManager.assets = a.contractManager.assets := by
  have hpart := h.part
  simp only [callsPart, Prod.mk.injEq] at hpart
  exact hpart.2.2.2.2.2.1

theorem startOf [RistrettoPoint P] (h : SameCalls a b) (contract : Hash) (deposits : IndexMap Hash ContractDeposit)
    (txHash : Hash) : b.startOf contract deposits txHash = a.startOf contract deposits txHash := by
  have hpart := h.part
  simp only [callsPart, Prod.mk.injEq] at hpart
  obtain ⟨hstorage, htopo, hmainnet, hcaches, htracker, hassets, hhash, hblock⟩ := hpart
  unfold State.ApplicableChainState.startOf
  rw [hstorage, htopo, hmainnet, hcaches, htracker, hassets, hhash, hblock]

theorem setContract (h : SameCalls a b) (hash : Hash) (contract : VersionedState × Option Module) :
    SameCalls { a with inner := ChainState.setContract hash contract a.inner }
      { b with inner := ChainState.setContract hash contract b.inner } := by
  refine ⟨h.part, fun other => ?_⟩
  by_cases hsame : hash = other
  · subst hsame
    exact (ChainState.findContract_setContract_self _ _).trans (ChainState.findContract_setContract_self _ _).symm
  · exact (ChainState.findContract_setContract_of_ne hsame _).trans
      ((h.contracts other).trans (ChainState.findContract_setContract_of_ne hsame _).symm)

theorem keep {hash : Hash} {contract : VersionedState × Option Module}
    (hfind : s.inner.findContract hash = .ok contract) :
    SameCalls s { s with inner := ChainState.setContract hash contract s.inner } :=
  ⟨rfl, ChainState.findContract_keep hfind⟩

end SameCalls

namespace KeepsCalls

theorem refl (s : ApplicableChainState P) : KeepsCalls s s := ⟨rfl, rfl⟩

theorem trans (a b c : ApplicableChainState P) (hab : KeepsCalls a b) (hbc : KeepsCalls b c) : KeepsCalls a c :=
  ⟨hbc.1.trans hab.1, hbc.2.trans hab.2⟩

theorem sameCalls (h : KeepsCalls s s') : SameCalls s s' := by
  refine ⟨h.1, fun hash => ?_⟩
  have hpart := h.1
  simp only [callsPart, Prod.mk.injEq] at hpart
  unfold ChainState.findContract
  rw [h.2, hpart.1, hpart.2.1]

end KeepsCalls

variable [RistrettoPoint P] {env : Env P} {tx : Transaction} {txHash : Hash}

theorem KeepsCalls.creditRule : CreditRule (P := P) KeepsCalls where
  refl := KeepsCalls.refl
  trans := KeepsCalls.trans
  receiver _ _ := ⟨rfl, rfl⟩
  load _ _ _ _ _ _ := ⟨rfl, rfl⟩
  credit s key asset ct := by
    unfold ChainState.putReceiverBalance
    cases s.inner.receiverBalances[key]?.bind (·[asset]?) with
    | none => exact ⟨rfl, rfl⟩
    | some version => exact ⟨rfl, rfl⟩
  collect _ _ _ := ⟨rfl, rfl⟩

omit [RistrettoPoint P] in
theorem updateNonce_keepsCalls (tx : Transaction) (nonce : Nonce) :
    Exec.Moves KeepsCalls (onInner (P := P) (ChainState.internalUpdateAccountNonce tx.source nonce)) := by
  intro s
  unfold onInner
  rw [ChainState.internalUpdateAccountNonce_eq]
  cases s.inner.findAccount tx.source with
  | error e => exact ⟨rfl, rfl⟩
  | ok account => exact ⟨rfl, rfl⟩

omit [RistrettoPoint P] in
theorem setMultisigState_keepsCalls (payload : MultiSigPayload) :
    Exec.Moves KeepsCalls (onInner (P := P) (ChainState.setMultisigState tx.source payload)) := by
  intro s
  unfold onInner
  rw [ChainState.setMultisigState_eq]
  cases s.inner.findAccount tx.source with
  | error e => exact ⟨rfl, rfl⟩
  | ok account => exact ⟨rfl, rfl⟩

theorem applyCommitments_keepsCalls (tx : Transaction) (changes : List (Ciphertext P × Ciphertext P × Hash)) :
    Exec.Moves KeepsCalls (changes.forM (applyCommitment tx)) := by
  refine Exec.Moves.forM KeepsCalls.refl KeepsCalls.trans changes fun change _ s => ?_
  rw [applyCommitment_eq]
  cases s.inner.findSender tx.source change.2.2 tx.reference with
  | error e => exact .refl s
  | ok found => exact ⟨rfl, rfl⟩

variable {module : Module} {invoke : InvokeContract} {parameters : List ValueCell}

/-- The module that a transaction runs, what it runs of it, the parameters and the gas. -/
inductive Requests (tx : Transaction) (s : ApplicableChainState P) : Module → InvokeContract → List ValueCell → Nat → Prop
  | entry (payload : InvokeContractPayload) (versioned : VersionedState) (module : Module)
      (hdata : tx.data = .invokeContract payload)
      (hfind : s.inner.findContract payload.contract = .ok (versioned, some module)) :
      Requests tx s module (.entry payload.chunkId) payload.parameters payload.maxGas
  | hook (payload : DeployContractPayload) (invoke : InvokeConstructorPayload) (hdata : tx.data = .deployContract payload)
      (hinvoke : payload.invoke = some invoke) : Requests tx s payload.module (.hook 0) [] invoke.maxGas

/-- The calls that a machine which came to its end made for a module of the block, and where they lead. -/
structure Performs (env : Env P) (txHash contract : Hash) (deposits : IndexMap Hash ContractDeposit) (module : Module)
    (invoke : InvokeContract) (parameters : List ValueCell) (maxGas : Nat) (s : ApplicableChainState P)
    (start : ContractChainState) (calls : List HostCall) (final : ContractChainState) : Prop where
  begins : s.startOf contract deposits txHash = .ok start
  runs : ∃ gasUsage, env.run module invoke parameters maxGas s.inner.storage start = .ran calls gasUsage (some 0)
  ends : start.execAll env.blake3 s.inner.storage calls = some final

theorem Performs.congr {contract : Hash} {deposits : IndexMap Hash ContractDeposit} {maxGas : Nat}
    {start final : ContractChainState} {calls : List HostCall} (hsame : SameCalls a b)
    (h : Performs env txHash contract deposits module invoke parameters maxGas b start calls final) :
    Performs env txHash contract deposits module invoke parameters maxGas a start calls final where
  begins := (hsame.startOf contract deposits txHash).symm.trans h.begins
  runs := by
    rw [← hsame.storage]
    exact h.runs
  ends := by
    rw [← hsame.storage]
    exact h.ends

def Merged (env : Env P) (txHash contract : Hash) (deposits : IndexMap Hash ContractDeposit) (parameters : List ValueCell)
    (maxGas : Nat) (invoke : InvokeContract) (s s' : ApplicableChainState P) : Prop :=
  ∃ module start calls final, s.inner.contracts[contract]?.bind Prod.snd = some module ∧
    Performs env txHash contract deposits module invoke parameters maxGas s start calls final ∧
    KeepsCalls (mergeContractChanges contract final.cache final.tracker final.assets s) s'

/-- A call that fails changes nothing for the next ones, and one that succeeds is merged. -/
theorem invokeContract_merged (env : Env P) (tx : Transaction) (txHash : Hash) (decompressed : FiniteMap Hash (DecompressedDepositCt P)) (contract : Hash)
    (deposits : IndexMap Hash ContractDeposit) (parameters : List ValueCell) (maxGas : Nat) (invoke : InvokeContract)
    (s : ApplicableChainState P) :
    match invokeContract env tx txHash decompressed contract deposits parameters maxGas invoke s with
    | .ok false s' => KeepsCalls s s'
    | .ok true s' => Merged env txHash contract deposits parameters maxGas invoke s s'
    | .error _ s' => KeepsCalls s s' ∨ Merged env txHash contract deposits parameters maxGas invoke s s' := by
  rw [invokeContract_eq]
  cases henv : s.getContractEnvironmentFor contract deposits txHash with
  | error e => exact .inl (.refl s)
  | ok found =>
    obtain ⟨module, start⟩ := found
    obtain ⟨hmodule, hstart⟩ := getContractEnvironmentFor_ok henv
    dsimp only
    cases hrun : runContract env s module invoke parameters maxGas start with
    | none => exact .inl (.refl s)
    | some r =>
      obtain ⟨usedGas, exitCode, final⟩ := r
      dsimp only
      have hgas : ∀ s₁ : ApplicableChainState P, KeepsCalls s₁ (Exec.stateOf (handleGas tx usedGas maxGas s₁)) :=
        handleGas_moves KeepsCalls.creditRule usedGas maxGas
      by_cases hexit : exitCode = some 0
      · subst hexit
        have hsettle : settleRun tx decompressed contract deposits (some 0 == some 0) final s =
            .ok final.outputs (mergeContractChanges contract final.cache final.tracker final.assets s) := rfl
        rw [hsettle]
        have hmerged : ∀ s', KeepsCalls (mergeContractChanges contract final.cache final.tracker final.assets s) s' →
            Merged env txHash contract deposits parameters maxGas invoke s s' := by
          intro s' hkeeps
          obtain ⟨calls, gasUsage, hout, hexec⟩ := runContract_exit hrun
          exact ⟨module, start, calls, _, hmodule, ⟨hstart, ⟨gasUsage, hout⟩, hexec⟩, hkeeps⟩
        have hpaid := hgas (mergeContractChanges contract final.cache final.tracker final.assets s)
        dsimp only
        cases hgased : handleGas tx usedGas maxGas (mergeContractChanges contract final.cache final.tracker final.assets s) with
        | error e s₂ =>
          rw [hgased] at hpaid
          exact .inr (hmerged s₂ hpaid)
        | ok refund s₂ =>
          rw [hgased] at hpaid
          exact hmerged _ hpaid
      · have hsettle : KeepsCalls s
            (Exec.stateOf (settleRun tx decompressed contract deposits (exitCode == some 0) final s)) := by
          unfold settleRun
          rw [if_neg (by simpa using hexit)]
          split
          · have hrefund : Exec.Moves KeepsCalls (do
                refundDeposits tx deposits decompressed
                return [ContractOutput.refundDeposits] : Apply P (List ContractOutput)) :=
              (refundDeposits_moves KeepsCalls.creditRule _ _).bind KeepsCalls.trans fun _ s => .refl s
            exact hrefund s
          · exact .refl s
        cases hsettled : settleRun tx decompressed contract deposits (exitCode == some 0) final s with
        | error e s₁ =>
          rw [hsettled] at hsettle
          exact .inl hsettle
        | ok outputs s₁ =>
          rw [hsettled] at hsettle
          have hpaid := hgas s₁
          dsimp only
          cases hgased : handleGas tx usedGas maxGas s₁ with
          | error e s₂ =>
            rw [hgased] at hpaid
            exact .inl (KeepsCalls.trans _ _ _ hsettle hpaid)
          | ok refund s₂ =>
            rw [hgased] at hpaid
            rw [show (exitCode == some 0) = false by simpa using hexit]
            exact KeepsCalls.trans _ _ _ hsettle hpaid

/-- The block with a contract deployed in it. -/
def withContract (hash : Hash) (module : Module) (s : ApplicableChainState P) : ApplicableChainState P :=
  { s with inner := ChainState.setContract hash (.new, some module) s.inner }

/-- What a transaction does to the contracts of its block: it deploys one, or merges one call, or both. -/
inductive Effect (env : Env P) (tx : Transaction) (txHash : Hash) (s s' : ApplicableChainState P) : Prop
  | same (hsame : SameCalls s s')
  | called (module : Module) (invoke : InvokeContract) (parameters : List ValueCell) (maxGas : Nat)
      (start : ContractChainState) (calls : List HostCall) (final : ContractChainState)
      (hrequest : Requests tx s module invoke parameters maxGas)
      (hexists : ∃ versioned module, s.inner.findContract (tx.target txHash) = .ok (versioned, some module))
      (hperforms : Performs env txHash (tx.target txHash) tx.deposits module invoke parameters maxGas s start calls final)
      (hsame : SameCalls (mergeContractChanges (tx.target txHash) final.cache final.tracker final.assets s) s')
  | deployed (deployed : Module) (hnew : s.inner.findContract txHash = .ok (.new, none))
      (hsame : SameCalls (withContract txHash deployed s) s')
  | constructed (deployed : Module) (module : Module) (invoke : InvokeContract) (parameters : List ValueCell) (maxGas : Nat)
      (start : ContractChainState) (calls : List HostCall) (final : ContractChainState)
      (hnew : s.inner.findContract txHash = .ok (.new, none)) (htarget : tx.target txHash = txHash)
      (hrequest : Requests tx s module invoke parameters maxGas)
      (hperforms : Performs env txHash txHash tx.deposits module invoke parameters maxGas (withContract txHash deployed s)
        start calls final)
      (hsame : SameCalls (mergeContractChanges txHash final.cache final.tracker final.assets (withContract txHash deployed s))
        s')

omit [RistrettoPoint P] in
theorem Requests.congr (hsame : SameCalls a b) {maxGas : Nat} (h : Requests tx b module invoke parameters maxGas) :
    Requests tx a module invoke parameters maxGas := by
  cases h with
  | entry payload versioned module hdata hfind => exact .entry payload versioned module hdata ((hsame.contracts _).symm.trans hfind)
  | hook payload invoke hdata hinvoke => exact .hook payload invoke hdata hinvoke

omit [RistrettoPoint P] in
theorem SameCalls.merge (h : SameCalls a b) (contract : Hash) (final : ContractChainState) :
    SameCalls (mergeContractChanges contract final.cache final.tracker final.assets a)
      (mergeContractChanges contract final.cache final.tracker final.assets b) := by
  refine ⟨?_, h.contracts⟩
  have hpart := h.part
  simp only [callsPart, Prod.mk.injEq] at hpart
  obtain ⟨hstorage, htopo, hmainnet, hcaches, -, -, hhash, hblock⟩ := hpart
  simp only [callsPart, mergeContractChanges, hstorage, htopo, hmainnet, hcaches, hhash, hblock]

/-- What comes before a transaction and changes no contract belongs to its effect. -/
theorem Effect.after {a b c : ApplicableChainState P} (hab : SameCalls a b) (h : Effect env tx txHash b c) :
    Effect env tx txHash a c := by
  cases h with
  | same hsame => exact .same (hab.trans hsame)
  | called module invoke parameters maxGas start calls final hrequest hexists hperforms hsame =>
    obtain ⟨versioned, found, hfound⟩ := hexists
    exact .called module invoke parameters maxGas start calls final (hrequest.congr hab)
      ⟨versioned, found, (hab.contracts _).symm.trans hfound⟩ (hperforms.congr hab) ((hab.merge _ final).trans hsame)
  | deployed deployed hnew hsame =>
    exact .deployed deployed ((hab.contracts _).symm.trans hnew) ((hab.setContract txHash (.new, some deployed)).trans hsame)
  | constructed deployed module invoke parameters maxGas start calls final hnew htarget hrequest hperforms hsame =>
    have hdeployed := hab.setContract txHash (.new, some deployed)
    exact .constructed deployed module invoke parameters maxGas start calls final ((hab.contracts _).symm.trans hnew) htarget
      (hrequest.congr hab) (hperforms.congr hdeployed) ((hdeployed.merge txHash final).trans hsame)

theorem applyInvokeContract_effect {payload : InvokeContractPayload} (hdata : tx.data = .invokeContract payload)
    (decompressed : FiniteMap Hash (DecompressedDepositCt P)) :
    Exec.Moves (Effect env tx txHash) (applyInvokeContract env tx txHash decompressed payload) := by
  have htarget : tx.target txHash = payload.contract := by simp only [target, hdata]
  have hdeposits : tx.deposits = payload.deposits := by simp only [deposits, hdata]
  intro s
  unfold applyInvokeContract
  rw [Exec.bind_apply]
  unfold onInner
  rw [ChainState.loadVersionedContract_eq]
  cases hfind : s.inner.findContract payload.contract with
  | error e => exact .same (.refl s)
  | ok contract =>
    have hloaded := SameCalls.keep hfind
    dsimp only
    cases havailable : contract.2.isSome with
    | false =>
      have hrefund : Exec.Moves KeepsCalls (do
          let _ ← handleGas tx 0 payload.maxGas
          refundDeposits tx payload.deposits decompressed : Apply P PUnit) :=
        (handleGas_moves KeepsCalls.creditRule 0 payload.maxGas).bind KeepsCalls.trans fun _ => refundDeposits_moves KeepsCalls.creditRule _ _
      exact .same (hloaded.trans (hrefund _).sameCalls)
    | true =>
      rw [if_pos rfl, Exec.bind_apply]
      have hmerged : ∀ s', Merged env txHash payload.contract payload.deposits payload.parameters payload.maxGas
          (.entry payload.chunkId) { s with inner := ChainState.setContract payload.contract contract s.inner } s' →
            Effect env tx txHash s s' := by
        rintro s' ⟨module, start, calls, final, hmodule, hperforms, hkeeps⟩
        obtain ⟨⟨versioned, found⟩, hcontract, rfl⟩ := Option.bind_eq_some_iff.mp hmodule
        have hentry : (ChainState.setContract payload.contract contract s.inner).contracts[payload.contract]? = some contract :=
          FiniteMap.getElem?_insert_self' _ _ _
        have hsame : contract = (versioned, some module) := Option.some.inj (hentry.symm.trans hcontract)
        rw [hsame] at hfind
        have hbefore := hperforms.congr hloaded
        rw [← htarget, ← hdeposits] at hbefore
        refine .called module _ _ _ start calls final (.entry payload versioned module hdata hfind)
          ⟨versioned, module, htarget ▸ hfind⟩ hbefore ?_
        rw [htarget]
        exact (hloaded.merge payload.contract final).trans hkeeps.sameCalls
      have hcall := invokeContract_merged env tx txHash decompressed payload.contract
        payload.deposits payload.parameters payload.maxGas (.entry payload.chunkId)
        { s with inner := ChainState.setContract payload.contract contract s.inner }
      cases hresult : invokeContract env tx txHash decompressed payload.contract payload.deposits payload.parameters
          payload.maxGas (.entry payload.chunkId)
          { s with inner := ChainState.setContract payload.contract contract s.inner } with
      | ok success s₁ =>
        rw [hresult] at hcall
        cases success with
        | false => exact .same (hloaded.trans hcall.sameCalls)
        | true => exact hmerged s₁ hcall
      | error e s₁ =>
        rw [hresult] at hcall
        rcases hcall with hkeeps | hcall
        · exact .same (hloaded.trans hkeeps.sameCalls)
        · exact hmerged s₁ hcall

omit [RistrettoPoint P] in
/-- A deployment that is taken back leaves the contracts as they were. -/
theorem sameCalls_removed
    (hnew : s.inner.findContract txHash = .ok (.new, none)) (h : KeepsCalls (withContract txHash module s) s') :
    SameCalls s (Exec.stateOf (removeContractModule txHash s')) := by
  have hentry : s'.inner.contracts[txHash]? = some (.new, some module) := by
    rw [h.2]
    exact FiniteMap.getElem?_insert_self' _ _ _
  unfold removeContractModule
  rw [Exec.bind_apply, Exec.get_apply]
  dsimp only
  rw [hentry]
  show SameCalls s { s' with inner := ChainState.setContract txHash (.new, none) s'.inner }
  refine ⟨h.1, fun other => ?_⟩
  by_cases hsame : txHash = other
  · subst hsame
    rw [hnew]
    exact ChainState.findContract_setContract_self _ _
  · exact (ChainState.findContract_setContract_of_ne hsame _).trans
      ((h.sameCalls.contracts other).trans (ChainState.findContract_setContract_of_ne hsame _))

/-- A deployment under a hash that is that of no contract yet. -/
def Fresh (tx : Transaction) (txHash : Hash) (s : ApplicableChainState P) : Prop :=
  ∀ payload versioned module, tx.data = .deployContract payload →
    s.inner.findContract txHash ≠ .ok (versioned, some module)

theorem applyDeployContract_effect {payload : DeployContractPayload} (hdata : tx.data = .deployContract payload)
    (decompressed : FiniteMap Hash (DecompressedDepositCt P)) (hfresh : Fresh tx txHash s) :
    Effect env tx txHash s (Exec.stateOf (applyDeployContract env tx txHash decompressed payload s)) := by
  have htarget : tx.target txHash = txHash := by simp only [target, hdata]
  obtain ⟨deployed, invoke⟩ := payload
  unfold applyDeployContract
  rw [Exec.bind_apply]
  unfold onInner
  rw [ChainState.setContractModule_eq]
  cases hfind : s.inner.findContract txHash with
  | error e => exact .same (.refl s)
  | ok contract =>
    obtain ⟨versioned, found⟩ := contract
    cases versioned with
    | fetchedAt topo => exact .same (SameCalls.keep hfind)
    | updated topo => exact .same (SameCalls.keep hfind)
    | new =>
      cases found with
      | some found => exact absurd hfind (hfresh _ _ _ hdata)
      | none =>
        cases invoke with
        | none => exact .deployed deployed hfind (.refl _)
        | some invoke =>
          have hdeposits : tx.deposits = invoke.deposits := by simp only [deposits, hdata]
          have hconstructed : ∀ s', Merged env txHash txHash invoke.deposits [] invoke.maxGas (.hook 0)
              (withContract txHash deployed s) s' → Effect env tx txHash s s' := by
            rintro s' ⟨module, start, calls, final, hmodule, hperforms, hkeeps⟩
            have hentry : (withContract txHash deployed s).inner.contracts[txHash]? = some (.new, some deployed) :=
              FiniteMap.getElem?_insert_self' _ _ _
            rw [hentry, Option.bind_some, Option.some.injEq] at hmodule
            subst hmodule
            rw [← hdeposits] at hperforms
            exact .constructed deployed deployed _ _ _ start calls final hfind htarget (.hook _ invoke hdata rfl) hperforms
              hkeeps.sameCalls
          have hcall := invokeContract_merged env tx txHash decompressed txHash
            invoke.deposits [] invoke.maxGas (.hook 0) (withContract txHash deployed s)
          dsimp only
          rw [Exec.bind_apply]
          have hfold : ({ s with inner := ChainState.setContract txHash (.new, some deployed) s.inner } :
            ApplicableChainState P) = withContract txHash deployed s := rfl
          rw [hfold]
          cases hresult : invokeContract env tx txHash decompressed txHash invoke.deposits [] invoke.maxGas (.hook 0)
              (withContract txHash deployed s) with
          | ok success s₁ =>
            rw [hresult] at hcall
            cases success with
            | false => exact .same (sameCalls_removed hfind hcall)
            | true => exact hconstructed s₁ hcall
          | error e s₁ =>
            rw [hresult] at hcall
            rcases hcall with hkeeps | hcall
            · exact .deployed deployed hfind hkeeps.sameCalls
            · exact hconstructed s₁ hcall

theorem applyPayload_effect (decompressed : FiniteMap Hash (DecompressedDepositCt P))
    (hfresh : Fresh tx txHash s) : Effect env tx txHash s (Exec.stateOf (applyPayload env tx txHash decompressed s)) := by
  unfold applyPayload
  cases hdata : tx.data with
  | transfers payloads =>
    have hmoves : Exec.Moves KeepsCalls (payloads.forM (applyTransfer (P := P))) :=
      Exec.Moves.forM KeepsCalls.refl KeepsCalls.trans _ fun t _ => applyTransfer_moves KeepsCalls.creditRule t
    exact .same (hmoves s).sameCalls
  | burn payload =>
    dsimp only
    split
    · exact .same ⟨rfl, fun _ => rfl⟩
    · exact .same (.refl s)
  | multiSig payload => exact .same (setMultisigState_keepsCalls payload s).sameCalls
  | invokeContract payload => exact applyInvokeContract_effect hdata decompressed s
  | deployContract payload => exact applyDeployContract_effect hdata decompressed hfresh

omit [RistrettoPoint P] in
theorem Fresh.congr (hsame : SameCalls a b) (h : Fresh tx txHash a) : Fresh tx txHash b := by
  intro payload versioned module hdata hfind
  exact h payload versioned module hdata ((hsame.contracts txHash).symm.trans hfind)

theorem applyWithPartialVerify_effect (env : Env P) (hfresh : Fresh tx txHash s) :
    Effect env tx txHash s (Exec.stateOf (applyWithPartialVerify env tx txHash s)) := by
  have hverify : KeepsCalls s (Exec.stateOf (partialVerify env tx s)) :=
    partialVerify_moves KeepsCalls.refl KeepsCalls.trans
      (senderBalance_moves KeepsCalls.refl fun _ _ _ _ _ => ⟨rfl, rfl⟩) env s
  unfold applyWithPartialVerify
  rw [Exec.bind_apply]
  cases hverified : partialVerify env tx s with
  | error e s₁ =>
    rw [hverified] at hverify
    exact .same hverify.sameCalls
  | ok found s₁ =>
    rw [hverified] at hverify
    have hcharge := applyCommitments_keepsCalls tx found.2 s₁
    dsimp only
    rw [Exec.bind_apply]
    cases hcharged : found.2.forM (applyCommitment tx) s₁ with
    | error e s₂ =>
      rw [hcharged] at hcharge
      exact .same (KeepsCalls.trans _ _ _ hverify hcharge).sameCalls
    | ok _ s₂ =>
      rw [hcharged] at hcharge
      have hnonce := updateNonce_keepsCalls tx (tx.nonce + 1) s₂
      have hbefore := KeepsCalls.trans _ _ _ hverify hcharge
      dsimp only
      unfold apply
      rw [Exec.bind_apply]
      cases hupdated : onInner (ChainState.internalUpdateAccountNonce tx.source (tx.nonce + 1)) s₂ with
      | error e s₃ =>
        rw [hupdated] at hnonce
        exact .same (KeepsCalls.trans _ _ _ hbefore hnonce).sameCalls
      | ok _ s₃ =>
        rw [hupdated] at hnonce
        have hsame := (KeepsCalls.trans _ _ _ hbefore hnonce).sameCalls
        exact .after hsame (applyPayload_effect found.1 (hfresh.congr hsame))

end Xelis.Transaction
