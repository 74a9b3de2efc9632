import Xelis.Mempool.Mirror
import Xelis.Mempool.Runs
import Xelis.Transaction.Batches

/-! Transactions of one sender added to the mempool one by one, and verified by the chain in one batch. -/

namespace Xelis.Mempool

open Lib (FiniteMap Exec)
open State

variable {P : Type} [RistrettoPoint P]

/-- Transactions added one after the other, until one is refused. -/
def addAll (proofs : Proofs P) (view : ChainView P) (now : Nat) (pool : Mempool P) (txs : List (Transaction × Hash)) :
    Except (VerificationError BlockchainError) (Mempool P) :=
  txs.foldlM (fun pool e => pool.addTx proofs view e.2 e.1 (proofs.txSize e.1) now) pool

/-- The transactions never look at what the mempool has lost of the state they leave: the balance of an asset that the
one before did not spend, a stored multisig that was deleted, a contract that was deployed; and the sender has all it
spends from in the storage. -/
structure Comparable (view : ChainView P) (key : PublicKey) (txs : List (Transaction × Hash)) : Prop where
  registered : view.storage.getNonceAtMaximumTopoheight key view.topoheight ≠ .ok none
  funded : ∀ e ∈ txs, ∀ asset ∈ assetsOf e.1, ∀ version,
    view.storage.getNewVersionedBalance key asset view.topoheight ≠ .ok (version, true)
  steady : ∀ before first between last after, txs = before ++ first :: (between ++ last :: after) →
    ∀ asset ∈ assetsOf first.1, asset ∈ assetsOf last.1 → ∀ e ∈ between, asset ∈ assetsOf e.1
  unreset : ∀ before first second after, txs = before ++ first :: second :: after → Resets first.1 →
    ∀ payload, MempoolState.storedMultisig view.storage key view.topoheight ≠ .ok (some payload)
  fresh : ∀ e ∈ txs, e.1.Deploys → view.storage.getContractAtMaximumTopoheightFor e.2 view.topoheight = .ok none
  uncalled : ∀ before first after, txs = before ++ first :: after → first.1.Deploys → ∀ e ∈ after,
    (∀ payload, e.1.data = .invokeContract payload → payload.contract ≠ first.2) ∧ (e.1.Deploys → e.2 ≠ first.2)

def deployedIn (txs : List (Transaction × Hash)) (hash : Hash) : Prop := ∃ e ∈ txs, e.1.Deploys ∧ e.2 = hash

def usedIn (txs : List (Transaction × Hash)) (asset : Hash) : Prop := ∃ e ∈ txs, asset ∈ assetsOf e.1

/-- The storage has a multisig for the account. -/
def Guarded (view : ChainView P) (key : PublicKey) : Prop :=
  ∃ payload, MempoolState.storedMultisig view.storage key view.topoheight = .ok (some payload)

/-- What the cache of the sender and the account of the chain have in common after some transactions. -/
structure Carried (view : ChainView P) (key : PublicKey) (txs : List (Transaction × Hash)) (last : Transaction)
    (cache : AccountCache P) (theirs : Account P) : Prop where
  nonce : theirs.nonce.nonce = cache.max + 1
  multisig : cache.multisig = theirs.multisig.bind Prod.snd
  stored : ∃ stored, MempoolState.storedMultisig view.storage key view.topoheight = .ok stored
  kept : Guarded view key → ¬Resets last → cache.multisig.isSome
  balances : ∀ (asset : Hash) (ct : Ciphertext P), cache.balances[asset]? = some ct →
    ∃ e, theirs.assets[asset]? = some e ∧ e.getBalance.1 = ct
  touched : ∀ asset : Hash, cache.balances[asset]?.isSome ↔ asset ∈ assetsOf last
  used : ∀ asset : Hash, theirs.assets[asset]?.isSome ↔ usedIn txs asset

def Linked (view : ChainView P) (key : PublicKey) (done : List (Transaction × Hash)) (pool : Mempool P) (c : ChainState P) :
    Prop :=
  OverChain view (deployedIn done) c ∧
    ((done = [] ∧ pool.caches[key]? = none ∧ c.accounts[key]? = none) ∨
      ∃ before last cache theirs, done = before ++ [last] ∧ pool.caches[key]? = some cache ∧
        c.accounts[key]? = some theirs ∧ Carried view key done last.1 cache theirs)

variable {last keyed e : Transaction × Hash} {cache : AccountCache P} {theirs : Account P}

section Ready

variable {view : ChainView P} {key : PublicKey} {txs : List (Transaction × Hash)}
variable {asset : Hash} {reference : Reference}

theorem search_noNew
    (hfunded : ∀ version, view.storage.getNewVersionedBalance key asset view.topoheight ≠ .ok (version, true)) :
    searchVersionedBalanceForReference view.storage key asset view.topoheight reference false =
      searchVersionedBalanceForReference view.storage key asset view.topoheight reference true := by
  have htail (useOutput : Bool) : (do
        let found ← view.storage.getNewVersionedBalance key asset view.topoheight
        if (found.2 && false) = true then do
          throw .noPreviousBalanceFound
          pure (useOutput, true, found.1)
        else pure (useOutput, true, found.1) : Except BlockchainError (Bool × Bool × VersionedBalance P)) = (do
        let found ← view.storage.getNewVersionedBalance key asset view.topoheight
        if (found.2 && true) = true then do
          throw .noPreviousBalanceFound
          pure (useOutput, true, found.1)
        else pure (useOutput, true, found.1)) := by
    cases hfound : view.storage.getNewVersionedBalance key asset view.topoheight with
    | error e => rfl
    | ok found =>
      obtain ⟨version, new⟩ := found
      cases new with
      | true => exact absurd hfound (hfunded version)
      | false => rfl
  unfold searchVersionedBalanceForReference
  dsimp only
  simp only [htail]

theorem storageBalance_iff
    (hfunded : ∀ version, view.storage.getNewVersionedBalance key asset view.topoheight ≠ .ok (version, true))
    (ct : Ciphertext P) :
    MempoolState.getVersionedBalanceForReference view.storage key asset view.topoheight reference = .ok ct ↔
      (ChainState.createSenderEchange view.storage key asset view.topoheight reference).map (fun e => e.getBalance.1) =
        .ok ct := by
  unfold MempoolState.getVersionedBalanceForReference ChainState.createSenderEchange
  rw [search_noNew hfunded]
  cases searchVersionedBalanceForReference view.storage key asset view.topoheight reference true with
  | error e => exact Iff.rfl
  | ok found =>
    show Except.ok _ = _ ↔ Except.ok (Echange.getBalance _).1 = _
    rw [getBalance_new]

theorem overPool_new (pool : Mempool P) (view : ChainView P) :
    OverPool pool view (MempoolState.new pool view.storage view.stableTopoheight view.topoheight view.blockVersion) where
  mempool := rfl
  storage := rfl
  topoheight := rfl
  blockVersion := rfl
  receivers := loadable_empty _
  contracts hash module h := by
    rw [MempoolState.new, Std.ExtTreeMap.getElem?_empty] at h
    cases h

variable {pool : Mempool P} {c : ChainState P} {done rest : List (Transaction × Hash)} {e : Transaction × Hash}

theorem ready_first (hcomparable : Comparable view key txs) (hmem : e ∈ txs) (hsource : e.1.source = key)
    (hchain : OverChain view (deployedIn []) c) (hpool : pool.caches[key]? = none) (hnone : c.accounts[key]? = none) :
    BothReady pool view e.1 (Guarded view key) (usedIn []) (deployedIn [])
      (MempoolState.new pool view.storage view.stableTopoheight view.topoheight view.blockVersion) c := by
  subst hsource
  refine ⟨overPool_new pool view, hchain, Std.ExtTreeMap.getElem?_empty, ?_⟩
  have hcache : pool.getCacheFor e.1.source = none := hpool
  unfold MempoolState.createSenderAccount ChainState.findAccount ChainState.createSenderAccount
  rw [hcache, hnone, hchain.storage, hchain.topoheight]
  dsimp only
  cases hnonce : view.storage.getNonceAtMaximumTopoheight e.1.source view.topoheight with
  | error error => exact .inr ⟨_, _, rfl, rfl⟩
  | ok found =>
    cases found with
    | none => exact absurd hnonce hcomparable.registered
    | some found =>
      obtain ⟨topo, version⟩ := found
      cases hmultisig : view.storage.getMultisigAtMaximumTopoheightFor e.1.source view.topoheight with
      | error error =>
        refine .inr ⟨error, error, ?_, rfl⟩
        show (MempoolState.storedMultisig view.storage e.1.source view.topoheight >>= _) = _
        rw [MempoolState.storedMultisig, hmultisig]
        rfl
      | ok multisig =>
        have hstored : MempoolState.storedMultisig view.storage e.1.source view.topoheight =
            .ok (multisig.bind (fun m => m.2.data)) := by
          rw [MempoolState.storedMultisig, hmultisig]
          rfl
        refine .inl ⟨version.nonce, _, _, by rw [hstored]; rfl, rfl, ?_⟩
        refine ⟨rfl, rfl, ?_, ?_, ⟨_, hstored⟩, fun asset hasset ct => ?_, fun asset => ?_, fun asset => ?_⟩
        · cases multisig with
          | none => rfl
          | some m => cases hdata : m.2.data <;> simp [hdata]
        · rintro ⟨payload, hpayload⟩
          rw [hstored] at hpayload
          dsimp only
          rw [Except.ok.inj hpayload]
          rfl
        · rw [poolBalance, chainBalance]
          dsimp only
          rw [Std.ExtTreeMap.getElem?_empty, Std.ExtTreeMap.getElem?_empty]
          dsimp only
          rw [MempoolState.findBalance, hcache]
          exact storageBalance_iff (hcomparable.funded e hmem asset hasset) ct
        · dsimp only
          rw [Std.ExtTreeMap.getElem?_empty]
          simp
        · dsimp only
          rw [Std.ExtTreeMap.getElem?_empty]
          simp [usedIn]

variable {before : List (Transaction × Hash)}

/-- An asset that the last transaction does not spend was not spent before it either, if the next one spends it. -/
theorem Comparable.unused (h : Comparable view key txs)
    (htxs : txs = (before ++ [last]) ++ e :: rest) (hasset : asset ∈ assetsOf e.1)
    (hlast : asset ∉ assetsOf last.1) : ¬usedIn (before ++ [last]) asset := by
  rintro ⟨u, hu, huse⟩
  rcases List.mem_append.mp hu with hu | hu
  · obtain ⟨front, back, rfl⟩ := List.append_of_mem hu
    have hsplit : txs = front ++ u :: ((back ++ [last]) ++ e :: rest) := by
      rw [htxs]
      simp
    exact hlast (h.steady front u (back ++ [last]) e rest hsplit asset huse hasset last (by simp))
  · rw [List.mem_singleton] at hu
    subst hu
    exact hlast huse

/-- A later transaction: the mempool starts from its cache, the chain from its account. -/
theorem ready_next (hcomparable : Comparable view key txs)
    (htxs : txs = (before ++ [last]) ++ e :: rest) (hsource : e.1.source = key)
    (hchain : OverChain view (deployedIn (before ++ [last])) c) (hpool : pool.caches[key]? = some cache)
    (hsome : c.accounts[key]? = some theirs) (hcarried : Carried view key (before ++ [last]) last.1 cache theirs) :
    BothReady pool view e.1 (Guarded view key) (usedIn (before ++ [last])) (deployedIn (before ++ [last]))
      (MempoolState.new pool view.storage view.stableTopoheight view.topoheight view.blockVersion) c := by
  subst hsource
  have hcache : pool.getCacheFor e.1.source = some cache := hpool
  have hmem : e ∈ txs := by simp [htxs]
  have hkept : Guarded view e.1.source → cache.multisig.isSome := by
    intro hguarded
    refine hcarried.kept hguarded fun hreset => ?_
    obtain ⟨payload, hpayload⟩ := hguarded
    exact hcomparable.unreset before last e rest (by simp [htxs]) hreset payload hpayload
  -- an empty cache is not told apart from a deleted multisig, but then the storage has none either
  have hexpected : MempoolState.expectedMultisig cache view.storage e.1.source view.topoheight = .ok cache.multisig := by
    unfold MempoolState.expectedMultisig
    cases hmultisig : cache.multisig with
    | some payload => rfl
    | none =>
      obtain ⟨stored, hstored⟩ := hcarried.stored
      dsimp only
      cases stored with
      | none => exact hstored
      | some payload =>
        have := hkept ⟨payload, hstored⟩
        rw [hmultisig] at this
        cases this
  refine ⟨overPool_new pool view, hchain, Std.ExtTreeMap.getElem?_empty, .inl ?_⟩
  refine ⟨cache.max + 1, { nonce := cache.getNextNonce, assets := ∅, multisig := cache.multisig }, theirs, ?_,
    ChainState.findAccount_of_some hsome, ?_⟩
  · rw [MempoolState.createSenderAccount, hcache]
    dsimp only
    rw [hexpected]
    rfl
  · refine ⟨rfl, hcarried.nonce, hcarried.multisig, hkept, hcarried.stored, fun asset hasset ct => ?_, fun asset => ?_,
      fun asset => ?_⟩
    · rw [poolBalance, Std.ExtTreeMap.getElem?_empty]
      dsimp only
      rw [MempoolState.findBalance, hcache, Option.bind_some]
      cases hbalance : cache.balances[asset]? with
      | some held =>
        obtain ⟨echange, hechange, hheld⟩ := hcarried.balances asset held hbalance
        rw [chainBalance_of_some hechange, hheld]
      | none =>
        have hlast : asset ∉ assetsOf last.1 := by
          rw [← hcarried.touched, hbalance]
          exact Bool.false_ne_true
        have hunused : theirs.assets[asset]? = none := by
          cases hechange : theirs.assets[asset]? with
          | none => rfl
          | some echange =>
            have hused := (hcarried.used asset).mp (by rw [hechange]; rfl)
            exact absurd hused (hcomparable.unused htxs hasset hlast)
        rw [chainBalance, hunused]
        exact storageBalance_iff (hcomparable.funded e hmem asset hasset) ct
    · rw [Std.ExtTreeMap.getElem?_empty]
      simp
    · rw [hcarried.used]
      simp

theorem Linked.ready (h : Linked view key done pool c) (hcomparable : Comparable view key txs)
    (htxs : txs = done ++ e :: rest) (hsource : e.1.source = key) :
    BothReady pool view e.1 (Guarded view key) (usedIn done) (deployedIn done)
      (MempoolState.new pool view.storage view.stableTopoheight view.topoheight view.blockVersion) c := by
  obtain ⟨hchain, ⟨rfl, hpool, hnone⟩ | ⟨before, last, cache, theirs, rfl, hpool, hsome, hcarried⟩⟩ := h
  · exact ready_first hcomparable (by simp [htxs]) hsource hchain hpool hnone
  · exact ready_next hcomparable htxs hsource hchain hpool hsome hcarried

end Ready

section Step

variable {view : ChainView P} {key : PublicKey} {txs done rest : List (Transaction × Hash)} {e : Transaction × Hash}
  {pool : Mempool P} {c c' : ChainState P} {m : MempoolState P}

omit [RistrettoPoint P] in
theorem insertVerified_cache (hash : Hash) (sorted : SortedTx)
    (hnext : ∀ cache, pool.caches[sorted.tx.source]? = some cache → sorted.tx.nonce = cache.max + 1)
    (balances : FiniteMap Hash (Ciphertext P)) (multisig : Option MultiSigPayload) :
    ∃ cache, (pool.insertVerified hash sorted balances multisig).caches[sorted.tx.source]? = some cache ∧
      cache.max = sorted.tx.nonce ∧ cache.balances = balances ∧ cache.multisig = multisig := by
  unfold insertVerified
  cases hcache : pool.caches[sorted.tx.source]? with
  | none => exact ⟨_, FiniteMap.getElem?_insert_self' _ _ _, rfl, rfl, rfl⟩
  | some cache =>
    have hplace : pool.placeInCache cache sorted.tx.nonce hash = (cache.update sorted.tx.nonce hash, pool.txs) := by
      have habove : decide (sorted.tx.nonce ≤ cache.max) = false := by
        rw [hnext cache hcache]
        exact decide_eq_false (Nat.not_succ_le_self cache.max)
      rw [placeInCache, habove, Bool.and_false]
      rfl
    have hmax : (cache.update sorted.tx.nonce hash).max = sorted.tx.nonce := by
      have hlt : cache.max < sorted.tx.nonce := by
        rw [hnext cache hcache]
        exact Nat.lt_succ_self cache.max
      have hsame : (if sorted.tx.nonce < cache.min then { cache with min := sorted.tx.nonce } else cache).max = cache.max := by
        split <;> rfl
      unfold AccountCache.update AccountCache.updateNonceRange
      dsimp only
      rw [hsame, if_pos hlt]
    dsimp only
    rw [hplace]
    exact ⟨_, FiniteMap.getElem?_insert_self' _ _ _, hmax, rfl, rfl⟩

variable {mine : MempoolState.Account P}

theorem linked_next (hsource : e.1.source = key) {pool' : Mempool P}
    (hchain : OverChain view (fun hash => deployedIn done hash ∨ e.1.Deploys ∧ hash = e.2) c')
    (hmirror : Mirrored pool view e.1 (Guarded view key ∧ ¬Resets e.1) (usedIn done) (e.1.nonce + 1) (assetsOf e.1) mine
      theirs) (htheirs : c'.accounts[key]? = some theirs) (hcache : pool'.caches[key]? = some cache)
    (hmax : cache.max = e.1.nonce) (hbalances : cache.balances = mine.assets) (hmultisig : cache.multisig = mine.multisig) :
    Linked view key (done ++ [e]) pool' c' := by
  subst hsource
  refine ⟨⟨hchain.storage, hchain.topoheight, hchain.blockVersion, hchain.receivers, fun hash hnot => ?_⟩,
    .inr ⟨done, e, cache, theirs, rfl, hcache, htheirs, ?_⟩⟩
  · refine hchain.contracts hash fun hdeployed => hnot ?_
    rcases hdeployed with ⟨u, hu, hdeploys, heq⟩ | ⟨hdeploys, rfl⟩
    · exact ⟨u, List.mem_append_left _ hu, hdeploys, heq⟩
    · exact ⟨e, List.mem_append_right _ List.mem_cons_self, hdeploys, rfl⟩
  · refine ⟨?_, ?_, hmirror.stored, ?_, ?_, ?_, ?_⟩
    · rw [hmirror.chainNonce, hmax]
    · rw [hmultisig, hmirror.multisig]
    · intro hguarded hkeeps
      rw [hmultisig]
      exact hmirror.kept ⟨hguarded, hkeeps⟩
    · intro asset ct hct
      rw [hbalances] at hct
      have hasset : asset ∈ assetsOf e.1 := (hmirror.poolSpent asset).mp (by rw [hct]; rfl)
      obtain ⟨echange, hechange⟩ := Option.isSome_iff_exists.mp ((hmirror.chainSpent asset).mpr (.inr hasset))
      have hbalance := (hmirror.balances asset hasset ct).mp (poolBalance_of_some hct _ _)
      rw [chainBalance_of_some hechange] at hbalance
      exact ⟨echange, hechange, Except.ok.inj hbalance⟩
    · intro asset
      rw [hbalances]
      exact hmirror.poolSpent asset
    · intro asset
      rw [hmirror.chainSpent]
      constructor
      · rintro (⟨u, hu, huse⟩ | huse)
        · exact ⟨u, List.mem_append_left _ hu, huse⟩
        · exact ⟨e, List.mem_append_right _ List.mem_cons_self, huse⟩
      · rintro ⟨u, hu, huse⟩
        rcases List.mem_append.mp hu with hu | hu
        · exact .inl ⟨u, hu, huse⟩
        · rw [List.mem_singleton] at hu
          subst hu
          exact .inr huse

def preVerify (proofs : Proofs P) (pool : Mempool P) (view : ChainView P) (e : Transaction × Hash) :
    EStateM.Result (VerificationError BlockchainError) (MempoolState P) (Transcript P × List (P × CompressedPoint)) :=
  letI := MempoolState.verificationState (P := P) proofs.txSize
  e.1.preVerify proofs e.2 (MempoolState.new pool view.storage view.stableTopoheight view.topoheight view.blockVersion)

theorem addTx_ok_iff (proofs : Proofs P) (pool pool' : Mempool P) (view : ChainView P) (e : Transaction × Hash)
    (size now : Nat) :
    pool.addTx proofs view e.2 e.1 size now = .ok pool' ↔ ∃ prepared state mine,
      pool.preVerify proofs view e = .ok prepared state ∧ Transaction.proofsHold proofs e.1 prepared = true ∧
        state.accounts[e.1.source]? = some mine ∧
        pool' = pool.insertVerified e.2 { tx := e.1, firstSeen := now, size } mine.assets mine.multisig := by
  let _ := MempoolState.verificationState (P := P) proofs.txSize
  unfold addTx
  dsimp only
  constructor
  · intro h
    split at h
    · cases h
    · rename_i state hverify
      obtain ⟨prepared, hprepared, hproofs⟩ := (Transaction.verify_ok_iff _ _ _ _ _).mp hverify
      split at h
      · cases h
      · rename_i balances multisig hcache
        obtain ⟨mine, hmine, heq⟩ := Option.map_eq_some_iff.mp hcache
        cases heq
        cases h
        exact ⟨prepared, state, mine, hprepared, hproofs, hmine, rfl⟩
  · rintro ⟨prepared, state, mine, hprepared, hproofs, hmine, rfl⟩
    rw [(Transaction.verify_ok_iff proofs e.1 e.2 _ _).mpr ⟨prepared, hprepared, hproofs⟩]
    dsimp only
    rw [MempoolState.getSenderCache, hmine]
    rfl

/-- The next transaction gets the same verdict from both. -/
theorem Linked.alike (h : Linked view key done pool c) (hcomparable : Comparable view key txs)
    (htxs : txs = done ++ e :: rest) (hsource : e.1.source = key) (proofs : Proofs P) :
    Exec.Alike (BothDone pool view e.1 e.2 (Guarded view key) (usedIn done) (deployedIn done))
      (pool.preVerify proofs view e) (c.preVerify proofs e) := by
  have hmem : e ∈ txs := by simp [htxs]
  have hcall (payload : InvokeContractPayload) (hdata : e.1.data = .invokeContract payload) :
      ¬deployedIn done payload.contract := by
    rintro ⟨u, hu, hdeploys, heq⟩
    obtain ⟨front, back, rfl⟩ := List.append_of_mem hu
    have hsplit : txs = front ++ u :: (back ++ e :: rest) := by simp [htxs]
    exact (hcomparable.uncalled front u _ hsplit hdeploys e (by simp)).1 payload hdata heq.symm
  have hdeploy (payload : DeployContractPayload) (hdata : e.1.data = .deployContract payload) :
      ¬deployedIn done e.2 ∧ storedContract view e.2 = .ok (.new, none) := by
    constructor
    · rintro ⟨u, hu, hdeploys, heq⟩
      obtain ⟨front, back, rfl⟩ := List.append_of_mem hu
      have hsplit : txs = front ++ u :: (back ++ e :: rest) := by simp [htxs]
      exact (hcomparable.uncalled front u _ hsplit hdeploys e (by simp)).2 ⟨payload, hdata⟩ heq.symm
    · rw [storedContract, hcomparable.fresh e hmem ⟨payload, hdata⟩]
      rfl
  let _ := MempoolState.verificationState (P := P) proofs.txSize
  let _ := ChainState.verificationState (P := P) proofs.txSize
  exact (agreement proofs.txSize hcall hdeploy).preVerify proofs _ _ (h.ready hcomparable htxs hsource)

theorem BothDone.linked (h : BothDone pool view keyed.1 keyed.2 (Guarded view key) (usedIn done)
    (deployedIn done) m c) (hsource : keyed.1.source = key) (hmine : m.accounts[keyed.1.source]? = some mine)
    (hnext : ∀ cache, pool.caches[keyed.1.source]? = some cache → keyed.1.nonce = cache.max + 1) {size now : Nat} :
    Linked view key (done ++ [keyed])
      (pool.insertVerified keyed.2 { tx := keyed.1, firstSeen := now, size } mine.assets mine.multisig) c := by
  obtain ⟨hchain, mine', theirs, hmine', htheirs, hmirror⟩ := h
  rw [hmine] at hmine'
  cases hmine'
  obtain ⟨cache, hcache, hmax, hbalances, hmultisig⟩ :=
    insertVerified_cache keyed.2 { tx := keyed.1, firstSeen := now, size } hnext mine.assets mine.multisig
  subst hsource
  exact linked_next rfl hchain hmirror htheirs hcache hmax hbalances hmultisig

/-- Whatever is left of the list is accepted by both or by none. -/
theorem Linked.inTurn_iff (h : Linked view key done pool c) (hcomparable : Comparable view key txs)
    (htxs : txs = done ++ rest) (hsource : ∀ e ∈ txs, e.1.source = key) (proofs : Proofs P) (now : Nat) :
    (∃ pool', addAll proofs view now pool rest = .ok pool') ↔ ChainState.InTurn proofs rest c := by
  induction rest generalizing done pool c with
  | nil => exact iff_of_true ⟨pool, rfl⟩ trivial
  | cons e rest ih =>
    have hkey : e.1.source = key := hsource e (by simp [htxs])
    have halike := h.alike hcomparable htxs hkey proofs
    have hadd : (∃ pool', addAll proofs view now pool (e :: rest) = .ok pool') ↔ ∃ pool₁,
        pool.addTx proofs view e.2 e.1 (proofs.txSize e.1) now = .ok pool₁ ∧
          ∃ pool', addAll proofs view now pool₁ rest = .ok pool' := by
      unfold addAll
      rw [List.foldlM_cons]
      cases pool.addTx proofs view e.2 e.1 (proofs.txSize e.1) now with
      | ok pool₁ => exact ⟨fun hrest => ⟨pool₁, rfl, hrest⟩, fun ⟨_, heq, hrest⟩ => by cases heq; exact hrest⟩
      | error error =>
        constructor
        · rintro ⟨pool', hrest⟩
          cases hrest
        · rintro ⟨pool₁, heq, -⟩
          cases heq
    rw [hadd]
    constructor
    · rintro ⟨pool₁, hfirst, hrest⟩
      obtain ⟨prepared, m, mine, hm, hproofs, hmine, rfl⟩ := (addTx_ok_iff proofs pool pool₁ view e _ now).mp hfirst
      have hnext := (addTx_ok hfirst).1
      rw [hm] at halike
      generalize hc : c.preVerify proofs e = verdict at halike
      cases halike with
      | ok _ hdone =>
        refine ⟨prepared, _, hc, hproofs, (ih (hdone.linked hkey hmine hnext) (by simp [htxs])).mp hrest⟩
    · rintro ⟨prepared, c', hc, hproofs, hrest⟩
      rw [hc] at halike
      generalize hm : pool.preVerify proofs view e = verdict at halike
      cases halike with
      | ok _ hdone =>
        obtain ⟨-, mine, theirs, hmine, -⟩ := id hdone
        have hfirst := (addTx_ok_iff proofs pool _ view e (proofs.txSize e.1) now).mpr
          ⟨prepared, _, mine, hm, hproofs, hmine, rfl⟩
        have hnext := (addTx_ok hfirst).1
        exact ⟨_, hfirst, (ih (hdone.linked hkey hmine hnext) (by simp [htxs])).mpr hrest⟩

end Step

theorem overChain_new (view : ChainView P) (mainnet : Bool) :
    OverChain view (deployedIn [])
      (ChainState.new view.storage mainnet view.stableTopoheight view.topoheight view.blockVersion) where
  storage := rfl
  topoheight := rfl
  blockVersion := rfl
  receivers := loadable_empty _
  contracts hash _ := by
    rw [ChainState.findContract, storedContract]
    have hempty : (ChainState.new view.storage mainnet view.stableTopoheight view.topoheight view.blockVersion).contracts = ∅ := rfl
    rw [hempty, Std.ExtTreeMap.getElem?_empty]
    rfl

/-- Transactions of one sender are accepted one by one by the mempool exactly when the chain accepts them in one batch, if they
never look at what the mempool has lost, up to the first one that the chain refuses. -/
theorem addAll_iff_verifyBatch (proofs : Proofs P) (view : ChainView P) (pool : Mempool P) (key : PublicKey)
    (txs rest : List (Transaction × Hash)) (mainnet : Bool) (now : Nat) (hpool : pool.caches[key]? = none)
    (hsource : ∀ e ∈ txs, e.1.source = key) (hcomparable : Comparable view key txs)
    (hrest : rest = [] ∨
      ¬∃ c, (ChainState.new view.storage mainnet view.stableTopoheight view.topoheight view.blockVersion).verifyBatch proofs
        txs = .ok ⟨⟩ c) :
    (∃ pool', addAll proofs view now pool (txs ++ rest) = .ok pool') ↔
      ∃ c, (ChainState.new view.storage mainnet view.stableTopoheight view.topoheight view.blockVersion).verifyBatch proofs
        (txs ++ rest) = .ok ⟨⟩ c := by
  rw [ChainState.verifyBatch_ok_iff] at hrest ⊢
  have hempty : (∅ : FiniteMap PublicKey (Account P))[key]? = none := Std.ExtTreeMap.getElem?_empty
  have htxs := Linked.inTurn_iff ⟨overChain_new view mainnet, .inl ⟨rfl, hpool, hempty⟩⟩ hcomparable rfl hsource proofs now
  rcases hrest with rfl | hrefused
  · rwa [List.append_nil]
  · refine iff_of_false (fun ⟨pool', hall⟩ => hrefused (htxs.mp ?_)) fun hturn => hrefused hturn.of_append
    unfold addAll at hall ⊢
    rw [List.foldlM_append] at hall
    cases hfirst : txs.foldlM (fun pool e => pool.addTx proofs view e.2 e.1 (proofs.txSize e.1) now) pool with
    | ok pool₁ => exact ⟨pool₁, rfl⟩
    | error error =>
      rw [hfirst] at hall
      cases hall

section Samples

open Transaction

def twoBurns : List (Transaction × Hash) := [(burnAt 0, 100#256), (burnAt 1, 101#256)]

theorem burnAt_assets (nonce : Nat) : assetsOf (burnAt nonce) = [XELIS_ASSET] := rfl

theorem twoBurns_mem (he : e ∈ twoBurns) : ∃ nonce, e.1 = burnAt nonce := by
  simp only [twoBurns, List.mem_cons, List.not_mem_nil, or_false] at he
  rcases he with rfl | rfl
  · exact ⟨0, rfl⟩
  · exact ⟨1, rfl⟩

theorem twoBurns_comparable : Comparable sampleChain 7#256 twoBurns := by
  have hnonce : (sampleChain.storage.getNonceAtMaximumTopoheight 7#256 sampleChain.topoheight).toOption.join.isSome = true := by
    decide +kernel
  have hbalance : (sampleChain.storage.getNewVersionedBalance 7#256 XELIS_ASSET sampleChain.topoheight).toOption.map Prod.snd =
      some false := by
    decide +kernel
  have hburn : ∀ e ∈ twoBurns, e.1.data = .burn ⟨XELIS_ASSET, COIN_VALUE⟩ := by
    intro e he
    obtain ⟨nonce, heq⟩ := twoBurns_mem he
    rw [heq]
    rfl
  have hasset : ∀ e ∈ twoBurns, assetsOf e.1 = [XELIS_ASSET] := by
    intro e he
    obtain ⟨nonce, heq⟩ := twoBurns_mem he
    rw [heq, burnAt_assets]
  refine ⟨fun h => ?_, fun e he asset hmem version h => ?_, ?_, ?_, ?_, ?_⟩
  · rw [h] at hnonce
    cases hnonce
  · rw [hasset e he, List.mem_singleton] at hmem
    subst hmem
    rw [h] at hbalance
    cases hbalance
  · intro before first between last after heq asset hfirst _ e he
    rw [hasset first (by simp [heq])] at hfirst
    rw [hasset e (by simp [heq, he])]
    exact hfirst
  · rintro before first second after heq ⟨payload, hdata, -⟩
    rw [hburn first (by simp [heq])] at hdata
    cases hdata
  · rintro e he ⟨payload, hdata⟩
    rw [hburn e he] at hdata
    cases hdata
  · rintro before first after heq ⟨payload, hdata⟩
    rw [hburn first (by simp [heq])] at hdata
    cases hdata

theorem twoBurns_accepted :
    (addAll clearEnv.toProofs sampleChain 0 (Mempool.new false) twoBurns).toBool = true := by
  decide +kernel

/-- Both burns enter the mempool, so the chain takes them as well. -/
theorem twoBurns_verified :
    ∃ c, (ChainState.new sampleChain.storage false 0 1 .v3).verifyBatch clearEnv.toProofs twoBurns = .ok ⟨⟩ c := by
  refine (addAll_iff_verifyBatch clearEnv.toProofs sampleChain (Mempool.new false) 7#256 twoBurns [] false 0 ?_ ?_
    twoBurns_comparable (.inl rfl)).mp ?_
  · exact Std.ExtTreeMap.getElem?_empty
  · intro e he
    obtain ⟨nonce, heq⟩ := twoBurns_mem he
    rw [heq]
    rfl
  · cases haccepted : addAll clearEnv.toProofs sampleChain 0 (Mempool.new false) twoBurns with
    | ok pool => exact ⟨pool, haccepted⟩
    | error e =>
      have := twoBurns_accepted
      rw [haccepted] at this
      cases this

/-- The account needs the signature of another one. -/
def guardedChain : ChainView ℤ :=
  { sampleChain with storage := sampleStorage.setLastMultisigTo 7#256 0 ⟨none, some ⟨1, [8#256]⟩⟩ }

/-- The multisig is deleted, with the signature it asks for; the burn after it has none. -/
def resetThenBurn : List (Transaction × Hash) :=
  [({ sampleTx (.multiSig ⟨0, []⟩) (10 * COIN_VALUE - 15000) with fee := 15000, multisig := some [⟨0, []⟩] }, 100#256),
    ({ sampleTx (.burn ⟨XELIS_ASSET, COIN_VALUE⟩) (10 * COIN_VALUE - 25000 - COIN_VALUE) with nonce := 1 }, 101#256)]

theorem resetThenBurn_verified :
    isOk ((ChainState.new guardedChain.storage false 0 1 .v3).verifyBatch clearEnv.toProofs resetThenBurn) = true := by
  decide +kernel

theorem resetThenBurn_refused :
    (addAll clearEnv.toProofs guardedChain 0 (Mempool.new false) resetThenBurn).toBool = false := by
  decide +kernel

/-- The chain takes the burn that follows the deletion, the mempool still asks for the signature. -/
theorem mempool_keeps_deleted_multisig :
    ¬((∃ pool, addAll clearEnv.toProofs guardedChain 0 (Mempool.new false) resetThenBurn = .ok pool) ↔
      ∃ c, (ChainState.new guardedChain.storage false 0 1 .v3).verifyBatch clearEnv.toProofs resetThenBurn =
        .ok ⟨⟩ c) := by
  intro hiff
  obtain ⟨⟨⟩, c, hverified⟩ := exists_of_isOk resetThenBurn_verified
  obtain ⟨pool, hpool⟩ := hiff.mpr ⟨c, hverified⟩
  have hrefused := resetThenBurn_refused
  rw [hpool] at hrefused
  cases hrefused

end Samples

end Xelis.Mempool
