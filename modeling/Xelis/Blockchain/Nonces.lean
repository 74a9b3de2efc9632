import Xelis.Blockchain.Ordering
import Xelis.State.Nonces
import Xelis.Transaction.Coverage

namespace Xelis.Blockchain

open Lib (FiniteMap Exec)
open Storage (VersionedTrees keyBytes)
open State State.ApplicableChainState

variable {P : Type}

def storedNonce (storage : Storage P) (key : PublicKey) (topoheight : TopoHeight) : Option Nonce :=
  match storage.getNonceAtMaximumTopoheight key topoheight with
  | .ok (some (_, version)) => some version.nonce
  | .ok none => some 0
  | .error _ => none

/-- The nonce under the pointer of an account. -/
def lastNonce (nonces : VersionedTrees VersionedNonce) (key : PublicKey) : Option Nonce :=
  match nonces.pointers[keyBytes key]? with
  | none => some 0
  | some pointer => (nonces.version (keyBytes key) pointer).map (·.nonce)

section Stored

variable {storage : Storage P} {key : PublicKey} {topoheight : TopoHeight}

/-- A pointer that is low enough, and the last version, decides what is read. -/
theorem getNonce_of_pointer
    (hpointer : ∀ pointer, storage.nonces.pointers[keyBytes key]? = some pointer →
      pointer ≤ topoheight ∧ ((storage.nonces.version (keyBytes key) topoheight).isSome = true → pointer = topoheight)) :
    storage.getNonceAtMaximumTopoheight key topoheight =
      match storage.nonces.pointers[keyBytes key]? with
      | none => .ok none
      | some pointer =>
        (storage.nonces.loadVersion (.nonceAtTopoHeight pointer) (keyBytes key) pointer).map (fun v => some (pointer, v)) := by
  rw [Storage.getNonceAtMaximumTopoheight_eq]
  cases hp : storage.nonces.pointers[keyBytes key]? with
  | none => rfl
  | some pointer =>
    obtain ⟨hle, hexact⟩ := hpointer pointer hp
    have hstart : (if (storage.nonces.version (keyBytes key) topoheight).isSome then topoheight else pointer) = pointer := by
      split
      · exact (hexact ‹_›).symm
      · rfl
    dsimp only
    rw [hstart, VersionedTrees.lookup_at hle]

theorem storedNonce_of_pointer
    (hpointer : ∀ pointer, storage.nonces.pointers[keyBytes key]? = some pointer →
      pointer ≤ topoheight ∧ ((storage.nonces.version (keyBytes key) topoheight).isSome = true → pointer = topoheight)) :
    storedNonce storage key topoheight = lastNonce storage.nonces key := by
  unfold storedNonce lastNonce
  rw [getNonce_of_pointer hpointer]
  cases storage.nonces.pointers[keyBytes key]? with
  | none => rfl
  | some pointer =>
    dsimp only [VersionedTrees.loadVersion]
    cases storage.nonces.version (keyBytes key) pointer with
    | none => rfl
    | some v => rfl

theorem pointer_of_below (h : storage.nonces.Below topoheight) (key : PublicKey) (pointer : TopoHeight)
    (hp : storage.nonces.pointers[keyBytes key]? = some pointer) :
    pointer ≤ topoheight ∧ ((storage.nonces.version (keyBytes key) topoheight).isSome = true → pointer = topoheight) := by
  refine ⟨Nat.le_of_lt (h.pointers _ _ hp), fun hexact => ?_⟩
  rw [h.versions _ _ (Nat.le_refl _)] at hexact
  cases hexact

theorem getNonce_of_below (h : storage.nonces.Below topoheight) {found : Option (TopoHeight × VersionedNonce)}
    (hget : storage.getNonceAtMaximumTopoheight key topoheight = .ok found) :
    lastNonce storage.nonces key = some (found.elim 0 (·.2.nonce)) := by
  have hstored := storedNonce_of_pointer (pointer_of_below h key)
  rw [← hstored, storedNonce, hget]
  cases found with
  | none => rfl
  | some found => rfl

end Stored

variable {checker' nonceChecker checker : NonceChecker} {entry : AccountEntry} {nextNonce nonce n : Nonce}

section Checker

variable {checker : NonceChecker} {storage : Storage P} {key : PublicKey} {nonce : Nonce} {topoheight : TopoHeight}

theorem useNonce_ok {valid : Bool} (h : checker.useNonce storage key nonce topoheight = .ok (valid, checker')) :
    ∃ entry entry', checker.entryFor storage key topoheight = .ok entry ∧
      checker'.cache = checker.cache.insert key entry' ∧
      (if valid then entry.expectedNonce = nonce ∧ entry'.expectedNonce = nonce + 1 else entry' = entry) := by
  unfold NonceChecker.useNonce at h
  cases hentry : checker.entryFor storage key topoheight with
  | error e => simp [hentry, bind, Except.bind] at h
  | ok entry =>
    simp only [hentry, bind, Except.bind, pure, Except.pure, Except.ok.injEq, Prod.mk.injEq] at h
    obtain ⟨hvalid, rfl⟩ := h
    refine ⟨entry, (entry.insertNonceAtTopoheight nonce topoheight).2, rfl, rfl, ?_⟩
    unfold AccountEntry.insertNonceAtTopoheight at hvalid ⊢
    by_cases hrefused : (entry.containsNonce nonce || nonce != entry.expectedNonce) = true
    · rw [if_pos hrefused] at hvalid ⊢
      subst hvalid
      rfl
    · rw [if_neg hrefused] at hvalid ⊢
      subst hvalid
      simp only [Bool.or_eq_true, not_or, bne_iff_ne, ne_eq, Decidable.not_not] at hrefused
      exact ⟨hrefused.2.symm, rfl⟩

theorem getNewNonce_insert {cache : FiniteMap PublicKey AccountEntry} (hcache : checker.cache = cache.insert key entry)
    (h : checker.getNewNonce key = .ok nextNonce) : nextNonce = entry.expectedNonce := by
  have hcached : checker.cache[key]? = some entry := by
    rw [hcache]
    exact FiniteMap.getElem?_insert_self' _ _ _
  simpa only [NonceChecker.getNewNonce, hcached, Except.ok.injEq] using h.symm

end Checker

theorem nonces_link (run : BlockRun P) (txHash hash : Hash) :
    (run.link txHash hash).storage.nonces = run.storage.nonces := by
  obtain ⟨_, hlink⟩ := run.link_eq txHash hash
  rw [hlink]
  rfl

theorem txsExecuted_link (run : BlockRun P) (txHash hash : Hash) :
    (run.link txHash hash).storage.txsExecuted = run.storage.txsExecuted := by
  obtain ⟨_, hlink⟩ := run.link_eq txHash hash
  rw [hlink]
  rfl

variable {t : TopoHeight} {run run' : BlockRun P} {key : PublicKey} {hash txHash : Hash}

section Transactions

variable [RistrettoPoint P] {env : Env P} {hash : Hash}

/-- The nonce of an account while a block is executed: the one of the sender, or the stored one. -/
def currentNonce (run : BlockRun P) (key : PublicKey) : Option Nonce :=
  match run.chainState.inner.accounts[key]? with
  | some account => some account.nonce.nonce
  | none => lastNonce run.storage.nonces key

/-- What holds between the checker, the senders and the storage while the block at `t` is executed. -/
structure NoncesHold (t : TopoHeight) (run : BlockRun P) : Prop where
  topoheight : run.chainState.inner.topoheight = t
  below : run.storage.nonces.Below t
  checked : ∀ (key : PublicKey) entry, run.nonceChecker.cache[key]? = some entry → currentNonce run key = some entry.expectedNonce
  senders : ∀ (key : PublicKey) account, run.chainState.inner.accounts[key]? = some account → ∃ entry : AccountEntry,
    run.nonceChecker.cache[key]? = some entry

omit [RistrettoPoint P] in
theorem entryFor_ok {checker : NonceChecker} {storage : Storage P} {entry : AccountEntry} (hbelow : storage.nonces.Below t)
    (hentry : checker.entryFor storage key t = .ok entry) : checker.cache[key]? = some entry ∨
      checker.cache[key]? = none ∧ lastNonce storage.nonces key = some entry.expectedNonce := by
  unfold NonceChecker.entryFor at hentry
  cases hcached : checker.cache[key]? with
  | some cached =>
    simp only [hcached, Except.ok.injEq] at hentry
    exact .inl (congrArg some hentry)
  | none =>
    refine .inr ⟨rfl, ?_⟩
    simp only [hcached] at hentry
    cases hget : storage.getNonceAtMaximumTopoheight key t with
    | error e => simp [hget] at hentry
    | ok found =>
      have hlast := getNonce_of_below hbelow hget
      cases found with
      | none => simp [hget] at hentry
      | some found =>
        simp only [hget, Except.ok.injEq] at hentry
        subst hentry
        exact hlast

omit [RistrettoPoint P] in
theorem NoncesHold.entryFor (h : NoncesHold t run) (hentry : run.nonceChecker.entryFor run.storage key t = .ok entry) :
    currentNonce run key = some entry.expectedNonce := by
  rcases entryFor_ok h.below hentry with hcached | ⟨hcached, hlast⟩
  · exact h.checked key entry hcached
  · have hsender : run.chainState.inner.accounts[key]? = none := by
      cases hsender : run.chainState.inner.accounts[key]? with
      | none => rfl
      | some account =>
        obtain ⟨entry', hentry'⟩ := h.senders key account hsender
        rw [hcached] at hentry'
        cases hentry'
    rw [currentNonce, hsender]
    exact hlast

def WastesNonce (env : Env P) (hash : Hash) (e : Transaction × Hash) (run : BlockRun P) : Prop :=
  ∃ nonceChecker error chainState, (run.link e.2 hash).storage.isTxExecutedInABlock e.2 = false ∧
    (run.link e.2 hash).nonceChecker.useNonce (run.link e.2 hash).storage e.1.source e.1.nonce
      (run.link e.2 hash).chainState.inner.topoheight = .ok (true, nonceChecker) ∧
    e.1.applyWithPartialVerify env e.2 (run.link e.2 hash).chainState = .error error chainState

def marks (hash txHash : Hash) (run run' : BlockRun P) : Bool :=
  !run.storage.isTxExecutedInABlock txHash && run'.storage.isTxExecutedInBlock txHash hash

section

omit [RistrettoPoint P]

theorem marks_executed (hexecuted : run.storage.isTxExecutedInABlock txHash = false)
    (chainState : ApplicableChainState P) (nonceChecker : NonceChecker) (orphaned : List Hash) (totalFees : Nat) :
    marks hash txHash run
      ⟨{ chainState with inner := { chainState.inner with
        storage := chainState.inner.storage.setTxExecutedInBlock txHash hash } }, nonceChecker, orphaned, totalFees⟩ = true := by
  have hmarked : (chainState.inner.storage.txsExecuted.insert txHash hash)[txHash]? = some hash :=
    FiniteMap.getElem?_insert_self' _ _ _
  show (!run.storage.isTxExecutedInABlock txHash &&
    ((chainState.inner.storage.txsExecuted.insert txHash hash)[txHash]? == some hash)) = true
  rw [hexecuted, hmarked]
  simp

theorem marks_of_same (hsame : run'.storage.txsExecuted = run.storage.txsExecuted) : marks hash txHash run run' = false := by
  unfold marks Storage.isTxExecutedInABlock Storage.isTxExecutedInBlock
  rw [hsame, Std.ExtTreeMap.contains_eq_isSome_getElem?]
  cases run.storage.txsExecuted[txHash]? with
  | none => rfl
  | some block => rfl

theorem marks_link (hash txHash : Hash) (run run' : BlockRun P) :
    marks hash txHash (run.link txHash hash) run' = marks hash txHash run run' := by
  unfold marks Storage.isTxExecutedInABlock
  rw [txsExecuted_link]

end

structure NonceMove (tx : Transaction) (executed : Bool) (run run' : BlockRun P) : Prop where
  used : executed = true → currentNonce run tx.source = some tx.nonce
  next : ∀ key, currentNonce run' key =
    if executed = true ∧ key = tx.source then some (tx.nonce + 1) else currentNonce run key

omit [RistrettoPoint P] in
theorem currentNonce_link (run : BlockRun P) (txHash hash : Hash) : currentNonce (run.link txHash hash) = currentNonce run := by
  funext key
  unfold currentNonce
  rw [nonces_link]
  rfl

omit [RistrettoPoint P] in
theorem NoncesHold.link (h : NoncesHold t run) (txHash hash : Hash) :
    NoncesHold t (run.link txHash hash) where
  topoheight := h.topoheight
  below := by
    rw [nonces_link]
    exact h.below
  checked key entry hentry := by
    rw [currentNonce_link]
    exact h.checked key entry hentry
  senders := h.senders

variable {tx : Transaction}

omit [RistrettoPoint P] in
theorem NoncesHold.refuse (h : NoncesHold t run)
    (hnonce : run.nonceChecker.useNonce run.storage tx.source tx.nonce run.chainState.inner.topoheight =
      .ok (false, nonceChecker)) : NoncesHold t { run with nonceChecker } := by
  rw [h.topoheight] at hnonce
  obtain ⟨entry, entry', hentry, hcache, hsame⟩ := useNonce_ok hnonce
  have hexpected : currentNonce run tx.source = some entry'.expectedNonce := by
    rw [show entry' = entry from hsame]
    exact h.entryFor hentry
  refine ⟨h.topoheight, h.below, fun key found hfound => ?_, fun key account haccount => ?_⟩
  · rw [hcache] at hfound
    by_cases hkey : tx.source = key
    · subst hkey
      rw [FiniteMap.getElem?_insert_self', Option.some.injEq] at hfound
      rw [← hfound]
      exact hexpected
    · rw [FiniteMap.getElem?_insert_of_ne _ _ hkey] at hfound
      exact h.checked key found hfound
  · rw [hcache]
    by_cases hkey : tx.source = key
    · subst hkey
      exact ⟨entry', FiniteMap.getElem?_insert_self' _ _ _⟩
    · rw [FiniteMap.getElem?_insert_of_ne _ _ hkey]
      exact h.senders key account haccount

theorem NoncesHold.execute (h : NoncesHold t run) {chainState : ApplicableChainState P} {inner : ChainState P}
    (hnonce : run.nonceChecker.useNonce run.storage tx.source tx.nonce run.chainState.inner.topoheight =
      .ok (true, nonceChecker)) (happly : tx.applyWithPartialVerify env txHash run.chainState = .ok ⟨⟩ chainState)
    (hnext : nonceChecker.getNewNonce tx.source = .ok nextNonce)
    (hupdate : ChainState.internalUpdateAccountNonce tx.source nextNonce chainState.inner = .ok ⟨⟩ inner)
    (hnonces : run'.storage.nonces = inner.storage.nonces) (haccounts : run'.chainState.inner.accounts = inner.accounts)
    (htopo : run'.chainState.inner.topoheight = inner.topoheight) (hchecker : run'.nonceChecker = nonceChecker) :
    NoncesHold t run' ∧ NonceMove tx true run run' := by
  rw [h.topoheight] at hnonce
  obtain ⟨entry, entry', hentry, hcache, hexpected, hexpected'⟩ := useNonce_ok hnonce
  have hframed := (Transaction.applyWithPartialVerify_footprint env tx txHash run.chainState).framed
  rw [happly] at hframed
  have hstorage : chainState.inner.storage = run.chainState.inner.storage := hframed.storage
  obtain ⟨account, hfind, hupdate⟩ := ChainState.internalUpdateAccountNonce_ok hupdate
  have hsource : run'.chainState.inner.accounts[tx.source]? =
      some { account with nonce := { account.nonce with nonce := nextNonce } } := by
    rw [haccounts, hupdate]
    exact FiniteMap.getElem?_insert_self' _ _ _
  have hothers : ∀ key, key ≠ tx.source → run'.chainState.inner.accounts[key]? = run.chainState.inner.accounts[key]? := by
    intro key hkey
    rw [haccounts, hupdate]
    exact (FiniteMap.getElem?_insert_of_ne _ _ (Ne.symm hkey)).trans (hframed.accounts key hkey)
  have hkept : run'.storage.nonces = run.storage.nonces := by
    rw [hnonces, hupdate]
    exact congrArg (·.nonces) hstorage
  have hnew : nextNonce = tx.nonce + 1 := by
    rw [getNewNonce_insert hcache hnext, hexpected']
  have hmove : NonceMove tx true run run' := by
    refine ⟨fun _ => (h.entryFor hentry).trans (by rw [hexpected]), fun key => ?_⟩
    by_cases hkey : key = tx.source
    · subst hkey
      rw [if_pos ⟨rfl, rfl⟩, currentNonce, hsource]
      exact congrArg some hnew
    · rw [if_neg fun hc => hkey hc.2, currentNonce, hothers key hkey, hkept]
      rfl
  refine ⟨⟨?_, ?_, fun key found hfound => ?_, fun key account' haccount => ?_⟩, hmove⟩
  · rw [htopo, hupdate]
    exact hframed.topoheight.trans h.topoheight
  · rw [hkept]
    exact h.below
  · rw [hmove.next key]
    rw [hchecker, hcache] at hfound
    by_cases hkey : key = tx.source
    · subst hkey
      rw [FiniteMap.getElem?_insert_self', Option.some.injEq] at hfound
      rw [if_pos ⟨rfl, rfl⟩, ← hfound, hexpected']
    · rw [FiniteMap.getElem?_insert_of_ne _ _ (Ne.symm hkey)] at hfound
      rw [if_neg fun hc => hkey hc.2]
      exact h.checked key found hfound
  · rw [hchecker, hcache]
    by_cases hkey : key = tx.source
    · subst hkey
      exact ⟨entry', FiniteMap.getElem?_insert_self' _ _ _⟩
    · rw [FiniteMap.getElem?_insert_of_ne _ _ (Ne.symm hkey)]
      exact h.senders key account' (by rw [← hothers key hkey, haccount])

omit [RistrettoPoint P] in
theorem nonceMove_of_same (h : currentNonce run' = currentNonce run) : NonceMove tx false run run' := by
  refine ⟨fun hexecuted => absurd hexecuted Bool.false_ne_true, fun key => ?_⟩
  rw [if_neg fun hc => Bool.false_ne_true hc.1, h]

theorem TransactionStep.nonces (h : NoncesHold t run)
    (hwaste : ∀ nonceChecker e chainState, run.storage.isTxExecutedInABlock txHash = false →
      run.nonceChecker.useNonce run.storage tx.source tx.nonce run.chainState.inner.topoheight = .ok (true, nonceChecker) →
      tx.applyWithPartialVerify env txHash run.chainState ≠ .error e chainState)
    (hstep : TransactionStep env hash tx txHash run run') :
    NoncesHold t run' ∧ NonceMove tx (marks hash txHash run run') run run' := by
  cases hstep with
  | skipped hexecuted =>
    rw [marks_of_same rfl]
    exact ⟨h, nonceMove_of_same rfl⟩
  | refused nonceChecker hexecuted hnonce =>
    have hmarks : marks hash txHash run ({ run with nonceChecker }.orphan txHash) = false := marks_of_same rfl
    rw [hmarks]
    have hrefused := h.refuse hnonce
    exact ⟨⟨hrefused.topoheight, hrefused.below, hrefused.checked, hrefused.senders⟩, nonceMove_of_same rfl⟩
  | failed nonceChecker e chainState hexecuted hnonce happly =>
    exact absurd happly (hwaste nonceChecker e chainState hexecuted hnonce)
  | executed nonceChecker chainState nextNonce inner hexecuted hnonce happly hnext hupdate =>
    have hmove : ∀ run' : BlockRun P, marks hash txHash run run' = true → run'.storage.nonces = inner.storage.nonces →
        run'.chainState.inner.accounts = inner.accounts → run'.chainState.inner.topoheight = inner.topoheight →
        run'.nonceChecker = nonceChecker → NoncesHold t run' ∧ NonceMove tx (marks hash txHash run run') run run' := by
      intro run' hmarks hnonces haccounts htopo hchecker
      rw [hmarks]
      exact h.execute hnonce happly hnext hupdate hnonces haccounts htopo hchecker
    exact hmove _ (marks_executed hexecuted { chainState with inner } _ _ _) rfl rfl rfl rfl

theorem executeTransaction_nonces (h : NoncesHold t run) (hwaste : ¬WastesNonce env hash (tx, txHash) run)
    (hrun : executeTransaction env hash tx txHash run = .ok ⟨⟩ run') :
    NoncesHold t run' ∧ NonceMove tx (marks hash txHash run run') run run' := by
  have hcurrent := currentNonce_link run txHash hash
  have hmarks := (marks_link hash txHash run run').symm
  obtain ⟨hhold, hmove⟩ := (executeTransaction_step hrun).nonces (h.link txHash hash)
    fun nonceChecker e chainState hexecuted hnonce happly =>
      hwaste ⟨nonceChecker, e, chainState, hexecuted, hnonce, happly⟩
  rw [hmarks]
  refine ⟨hhold, ?_, ?_⟩
  · rw [← hcurrent]
    exact hmove.used
  · rw [← hcurrent]
    exact hmove.next

def executedBy (env : Env P) (hash : Hash) : List (Transaction × Hash) → BlockRun P → List Transaction
  | [], _ => []
  | e :: es, run =>
    match executeTransaction env hash e.1 e.2 run with
    | .error _ _ => []
    | .ok _ run' => if marks hash e.2 run run' then e.1 :: executedBy env hash es run' else executedBy env hash es run'

def ofAccount (key : PublicKey) (txs : List Transaction) : List Transaction := txs.filter (fun tx => tx.source = key)

theorem executeTransactions_nonces {txs : List (Transaction × Hash)} (h : NoncesHold t run)
    (halong : Exec.Along (fun e run => ¬WastesNonce env hash e run) (fun e => executeTransaction env hash e.1 e.2) txs run)
    (hrun : executeTransactions env hash txs run = .ok ⟨⟩ run') :
    NoncesHold t run' ∧ ∀ key n, currentNonce run key = some n →
      (ofAccount key (executedBy env hash txs run)).map (·.nonce) =
        List.range' n (ofAccount key (executedBy env hash txs run)).length ∧
      currentNonce run' key = some (n + (ofAccount key (executedBy env hash txs run)).length) := by
  induction txs generalizing run with
  | nil =>
    cases hrun
    exact ⟨h, fun key n hn => ⟨rfl, hn⟩⟩
  | cons e txs ih =>
    obtain ⟨⟨⟩, run₁, he, hrest⟩ := Exec.bind_ok_iff.mp hrun
    obtain ⟨h₁, hmove⟩ := executeTransaction_nonces h halong.1 he
    obtain ⟨h', hnonces⟩ := ih h₁ (halong.2 run₁ he) hrest
    refine ⟨h', fun key n hn => ?_⟩
    have hlist : executedBy env hash (e :: txs) run =
        if marks hash e.2 run run₁ then e.1 :: executedBy env hash txs run₁ else executedBy env hash txs run₁ := by
      simp only [executedBy, he]
    cases hmarks : marks hash e.2 run run₁ with
    | false =>
      rw [hmarks] at hmove
      have hn₁ : currentNonce run₁ key = some n := by
        rw [hmove.next key, if_neg fun hc => Bool.false_ne_true hc.1, hn]
      rw [hlist, hmarks]
      exact hnonces key n hn₁
    | true =>
      rw [hmarks] at hmove
      rw [hlist, hmarks, if_pos rfl]
      by_cases hkey : e.1.source = key
      · -- the transaction is one of the account: its nonce is the current one
        subst hkey
        have hused : some n = some e.1.nonce := hn.symm.trans (hmove.used rfl)
        rw [Option.some.injEq] at hused
        subst hused
        have hn₁ : currentNonce run₁ e.1.source = some (e.1.nonce + 1) := by
          rw [hmove.next e.1.source, if_pos ⟨rfl, rfl⟩]
        obtain ⟨hmap, hlast⟩ := hnonces e.1.source (e.1.nonce + 1) hn₁
        have hfilter : ofAccount e.1.source (e.1 :: executedBy env hash txs run₁) =
            e.1 :: ofAccount e.1.source (executedBy env hash txs run₁) := by
          simp [ofAccount]
        rw [hfilter, List.map_cons, List.length_cons, List.range'_succ, hmap]
        refine ⟨rfl, hlast.trans (congrArg some ?_)⟩
        exact Nat.add_right_comm _ _ _
      · have hn₁ : currentNonce run₁ key = some n := by
          rw [hmove.next key, if_neg fun hc => hkey hc.2.symm, hn]
        have hfilter : ofAccount key (e.1 :: executedBy env hash txs run₁) =
            ofAccount key (executedBy env hash txs run₁) := by
          simp [ofAccount, hkey]
        rw [hfilter]
        exact hnonces key n hn₁

end Transactions

variable {storage : Storage P}

section Acceptance

/-- The nonce would be taken from the account now. -/
def accepts (run : BlockRun P) (key : PublicKey) (nonce : Nonce) : Bool :=
  match run.nonceChecker.useNonce run.storage key nonce run.chainState.inner.topoheight with
  | .ok (true, _) => true
  | _ => false

theorem accepts_eq (run : BlockRun P) (key : PublicKey) (nonce : Nonce) :
    accepts run key nonce =
      match run.nonceChecker.entryFor run.storage key run.chainState.inner.topoheight with
      | .ok entry => (entry.insertNonceAtTopoheight nonce run.chainState.inner.topoheight).1
      | .error _ => false := by
  unfold accepts NonceChecker.useNonce
  cases run.nonceChecker.entryFor run.storage key run.chainState.inner.topoheight with
  | error e => rfl
  | ok entry =>
    dsimp only [bind, Except.bind, pure, Except.pure]
    cases (entry.insertNonceAtTopoheight nonce run.chainState.inner.topoheight).1 with
    | false => rfl
    | true => rfl

theorem accepts_congr (run run' : BlockRun P) (htopo : run'.chainState.inner.topoheight = run.chainState.inner.topoheight)
    (hentry : ∀ key, run'.nonceChecker.entryFor run'.storage key run.chainState.inner.topoheight =
      run.nonceChecker.entryFor run.storage key run.chainState.inner.topoheight) (key : PublicKey) (nonce : Nonce) :
    accepts run' key nonce = accepts run key nonce := by
  rw [accepts_eq, accepts_eq, htopo, hentry]

theorem accepts_link (run : BlockRun P) (txHash hash : Hash) (key : PublicKey) (nonce : Nonce) :
    accepts (run.link txHash hash) key nonce = accepts run key nonce := by
  have hentry : ∀ key, run.nonceChecker.entryFor (run.link txHash hash).storage key run.chainState.inner.topoheight =
      run.nonceChecker.entryFor run.storage key run.chainState.inner.topoheight := by
    intro key
    unfold NonceChecker.entryFor
    rw [Storage.getNonceAtMaximumTopoheight_eq, Storage.getNonceAtMaximumTopoheight_eq, nonces_link]
  exact accepts_congr run (run.link txHash hash) rfl hentry key nonce

theorem entryFor_refused (h : checker.useNonce storage key nonce t = .ok (false, nonceChecker)) (key' : PublicKey) :
    nonceChecker.entryFor storage key' t = checker.entryFor storage key' t := by
  obtain ⟨entry, entry', hentry, hcache, hsame⟩ := useNonce_ok h
  have hsame : entry' = entry := hsame
  subst hsame
  by_cases hkey : key = key'
  · subst hkey
    rw [hentry, NonceChecker.entryFor, hcache, FiniteMap.getElem?_insert_self']
  · unfold NonceChecker.entryFor
    rw [hcache, FiniteMap.getElem?_insert_of_ne _ _ hkey]

variable [RistrettoPoint P] {env : Env P} {hash : Hash}

/-- A transaction that is not executed leaves every account with the nonce it had. -/
def KeepsNonces (env : Env P) (hash : Hash) (e : Transaction × Hash) (run : BlockRun P) : Prop :=
  ∀ run', executeTransaction env hash e.1 e.2 run = .ok ⟨⟩ run' → marks hash e.2 run run' = false →
    ∀ key nonce, accepts run' key nonce = accepts run key nonce

theorem keepsNonces {e : Transaction × Hash} (hwaste : ¬WastesNonce env hash e run) : KeepsNonces env hash e run := by
  intro run' hrun hmarks key nonce
  rw [← accepts_link run e.2 hash]
  rw [← marks_link] at hmarks
  cases executeTransaction_step hrun with
  | skipped hexecuted => rfl
  | refused nonceChecker hexecuted hnonce =>
    have hentry := entryFor_refused hnonce
    exact accepts_congr (run.link e.2 hash) ({ run.link e.2 hash with nonceChecker }.orphan e.2) rfl hentry key nonce
  | failed nonceChecker error chainState hexecuted hnonce happly =>
    exact absurd ⟨nonceChecker, error, chainState, hexecuted, hnonce, happly⟩ hwaste
  | executed nonceChecker chainState nextNonce inner hexecuted hnonce happly hnext hupdate =>
    rw [marks_executed hexecuted { chainState with inner }] at hmarks
    cases hmarks

end Acceptance

variable {blockReward pastBurnedSupply : Nat}

section Blocks

variable [RistrettoPoint P] {env : Env P} {devPublicKey : PublicKey} {hash : Hash} {t : TopoHeight}

omit [RistrettoPoint P] in
theorem NonceSettled.stored {before : VersionedTrees VersionedNonce} {account : Option (Account P)}
    (hbefore : before.Below t)
    (h : NonceSettled t account (before.history (keyBytes key)) (storage.nonces.history (keyBytes key)))
    (hn : account.elim (lastNonce before key) (fun account => some account.nonce.nonce) = some n) :
    storedNonce storage key t = some n ∧ lastNonce storage.nonces key = some n := by
  have hwritten : ∀ version, storage.nonces.history (keyBytes key) = (before.history (keyBytes key)).push t version →
      version.nonce = n → storedNonce storage key t = some n ∧ lastNonce storage.nonces key = some n := by
    rintro version hpush rfl
    have hpointer : storage.nonces.pointers[keyBytes key]? = some t := congrArg (·.last) hpush
    have hversion : storage.nonces.version (keyBytes key) t = some version :=
      (congrArg (fun history => history.version t) hpush).trans (Lib.History.version_push_self _ _ _)
    have hlast : lastNonce storage.nonces key = some version.nonce := by
      simp only [lastNonce, hpointer, hversion, Option.map_some]
    refine ⟨(storedNonce_of_pointer fun pointer hp => ?_).trans hlast, hlast⟩
    rw [hpointer, Option.some.injEq] at hp
    subst hp
    exact ⟨Nat.le_refl _, fun _ => rfl⟩
  cases account with
  | some account => exact hwritten account.nonce h (Option.some.inj hn)
  | none =>
    rcases h with hkept | ⟨hnone, hfirst⟩
    · have hpointers : storage.nonces.pointers[keyBytes key]? = before.pointers[keyBytes key]? := congrArg (·.last) hkept
      have hversions : ∀ u, storage.nonces.version (keyBytes key) u = before.version (keyBytes key) u :=
        congrFun (congrArg (·.version) hkept)
      have hlast : lastNonce storage.nonces key = some n := by
        rw [← hn]
        simp only [lastNonce, hpointers, hversions, Option.elim_none]
      refine ⟨(storedNonce_of_pointer fun pointer hp => ?_).trans hlast, hlast⟩
      rw [hpointers] at hp
      refine ⟨Nat.le_of_lt (hbefore.pointers _ _ hp), fun hexact => ?_⟩
      rw [hversions, hbefore.versions _ _ (Nat.le_refl _)] at hexact
      cases hexact
    · refine hwritten ⟨none, 0⟩ hfirst ?_
      have hnone : before.pointers[keyBytes key]? = none := hnone
      simp only [Option.elim_none, lastNonce, hnone, Option.some.injEq] at hn
      exact hn

structure CheckerHolds (t : TopoHeight) (storage : Storage P) (nonceChecker : NonceChecker) : Prop where
  below : storage.nonces.Below t
  checked : ∀ (key : PublicKey) (entry : AccountEntry), nonceChecker.cache[key]? = some entry →
    lastNonce storage.nonces key = some entry.expectedNonce

/-- The accounting of one account in one block: `n` is its nonce before the block at `t`, and `storage` is what the
block leaves. -/
structure BlockNonces (env : Env P) (hash : Hash) (txs : List (Transaction × Hash)) (key : PublicKey) (n : Nonce)
    (t : TopoHeight) (run : BlockRun P) (storage : Storage P) : Prop where
  consecutive : (ofAccount key (executedBy env hash txs run)).map (·.nonce) =
    List.range' n (ofAccount key (executedBy env hash txs run)).length
  stored : storedNonce storage key t = some (n + (ofAccount key (executedBy env hash txs run)).length)
  kept : Exec.Along (KeepsNonces env hash) (fun e => executeTransaction env hash e.1 e.2) txs run

theorem executeBlock_nonces {block : Block}
    (htopo : run.chainState.inner.topoheight = t) (hsenders : run.chainState.inner.accounts = ∅)
    (hchecker : CheckerHolds t run.storage run.nonceChecker)
    (halong : Exec.Along (fun e run => ¬WastesNonce env hash e run) (fun e => executeTransaction env hash e.1 e.2)
      (block.transactions.zip block.header.txsHashes) run)
    (hrun : executeBlock env devPublicKey hash block blockReward run = .ok ⟨⟩ run') :
    CheckerHolds (t + 1) run'.storage run'.nonceChecker ∧ ∀ key n, lastNonce run.storage.nonces key = some n →
      BlockNonces env hash (block.transactions.zip block.header.txsHashes) key n t run run'.storage ∧
      lastNonce run'.storage.nonces key = some
        (n + (ofAccount key (executedBy env hash (block.transactions.zip block.header.txsHashes) run)).length) := by
  have hcurrent : ∀ key, currentNonce run key = lastNonce run.storage.nonces key := by
    intro key
    simp only [currentNonce, hsenders, Std.ExtTreeMap.getElem?_empty]
  have hstart : NoncesHold t run := by
    refine ⟨htopo, hchecker.below, fun key entry hentry => ?_, fun key account haccount => ?_⟩
    · rw [hcurrent]
      exact hchecker.checked key entry hentry
    · simp [hsenders] at haccount
  obtain ⟨run₁, s₁, s₂, htxs, hreward, hwrite, rfl⟩ := executeBlock_ok hrun
  obtain ⟨hhold, hnonces⟩ := executeTransactions_nonces hstart halong htxs
  -- the rewards write nothing that belongs to the nonces
  have hrewarded := Steps.of_ok (rewardBlock_steps _ _ _ _ _) hreward
  have hsame := hrewarded.sameBlock
  have hbefore : s₁.inner.storage.nonces = run₁.storage.nonces := Steps.nonces (by simp) hrewarded
  have htopo₁ : s₁.inner.topoheight = t := hsame.topoheight.trans hhold.topoheight
  have hsettled : ∀ key, NonceSettled t run₁.chainState.inner.accounts[key]? (run₁.storage.nonces.history (keyBytes key))
      (s₂.inner.storage.nonces.history (keyBytes key)) := by
    intro key
    have h := applyChanges_nonces hwrite key
    rw [htopo₁, hbefore, hsame.accounts] at h
    exact h
  have hresult : ∀ key n, currentNonce run₁ key = some n →
      storedNonce s₂.inner.storage key t = some n ∧ lastNonce s₂.inner.storage.nonces key = some n := by
    intro key n hn
    refine NonceSettled.stored hhold.below (hsettled key) ?_
    rw [← hn, currentNonce]
    cases run₁.chainState.inner.accounts[key]? with
    | some account => rfl
    | none => rfl
  refine ⟨⟨?_, fun key entry hentry => (hresult key _ (hhold.checked key entry hentry)).2⟩, fun key n hn => ?_⟩
  · have hbelow : s₁.inner.storage.nonces.Below (s₁.inner.topoheight + 1) := by
      rw [hbefore, htopo₁]
      exact hhold.below.mono (Nat.le_succ t)
    have hafter := Steps.nonces_below (Steps.of_ok (applyChanges_steps env) hwrite) hbelow
    rw [htopo₁] at hafter
    exact hafter
  · rw [← hcurrent] at hn
    obtain ⟨hconsecutive, hlast⟩ := hnonces key n hn
    obtain ⟨hstored, hlast'⟩ := hresult key _ hlast
    exact ⟨⟨hconsecutive, hstored, halong.mono fun _ _ => keepsNonces⟩, hlast'⟩

end Blocks

section Runs

variable [RistrettoPoint P] (node : Node P) (version : BlockVersion) (baseTopoHeight : TopoHeight)

/-- No transaction of the order fails once its nonce was taken. -/
def NeverWastes : TopoHeight → List Hash → Ordering P → Prop
  | _, [], _ => True
  | t, hash :: hashes, o =>
    (∀ block pastBurnedSupply blockReward o₁, prepareBlock hash t o = .ok (block, pastBurnedSupply, blockReward) o₁ →
      Exec.Along (fun e run => ¬WastesNonce node.env hash e run) (fun e => executeTransaction node.env hash e.1 e.2)
        (block.transactions.zip block.header.txsHashes)
        (o₁.blockRun node version baseTopoHeight hash block t pastBurnedSupply)) ∧
    ∀ o', orderBlock node version baseTopoHeight hash t o = .ok ⟨⟩ o' → NeverWastes (t + 1) hashes o'

def NoncesAccounted (key : PublicKey) : TopoHeight → List Hash → Ordering P → Nonce → Prop
  | _, [], _, _ => True
  | t, hash :: hashes, o, n =>
    ∀ block pastBurnedSupply blockReward o₁ o', prepareBlock hash t o = .ok (block, pastBurnedSupply, blockReward) o₁ →
      orderBlock node version baseTopoHeight hash t o = .ok ⟨⟩ o' →
      BlockNonces node.env hash (block.transactions.zip block.header.txsHashes) key n t
        (o₁.blockRun node version baseTopoHeight hash block t pastBurnedSupply) o'.storage ∧
      NoncesAccounted key (t + 1) hashes o' (n + (ofAccount key (executedBy node.env hash
        (block.transactions.zip block.header.txsHashes)
        (o₁.blockRun node version baseTopoHeight hash block t pastBurnedSupply))).length)

omit [RistrettoPoint P] in
theorem prepareBlock_nonces (hash : Hash) (t : TopoHeight) :
    Exec.Moves (fun o o' : Ordering P => o'.storage.nonces = o.storage.nonces ∧ o'.nonceChecker = o.nonceChecker)
      (prepareBlock hash t) :=
  prepareBlock_keeps (f := fun storage => storage.nonces) (fun _ _ _ => rfl) (fun _ _ _ => rfl) (fun _ _ _ => rfl) hash t

variable {node version baseTopoHeight}

theorem orderBlock_nonces {o o' o₁ : Ordering P} {block : Block} (hchecker : CheckerHolds t o.storage o.nonceChecker)
    (hprepare : prepareBlock hash t o = .ok (block, pastBurnedSupply, blockReward) o₁)
    (halong : Exec.Along (fun e run => ¬WastesNonce node.env hash e run) (fun e => executeTransaction node.env hash e.1 e.2)
      (block.transactions.zip block.header.txsHashes)
      (o₁.blockRun node version baseTopoHeight hash block t pastBurnedSupply))
    (horder : orderBlock node version baseTopoHeight hash t o = .ok ⟨⟩ o') :
    CheckerHolds (t + 1) o'.storage o'.nonceChecker ∧ ∀ key n, lastNonce o.storage.nonces key = some n →
      BlockNonces node.env hash (block.transactions.zip block.header.txsHashes) key n t
        (o₁.blockRun node version baseTopoHeight hash block t pastBurnedSupply) o'.storage ∧
      lastNonce o'.storage.nonces key = some (n + (ofAccount key (executedBy node.env hash
        (block.transactions.zip block.header.txsHashes)
        (o₁.blockRun node version baseTopoHeight hash block t pastBurnedSupply))).length) := by
  obtain ⟨hnonces, hsame⟩ : o₁.storage.nonces = o.storage.nonces ∧ o₁.nonceChecker = o.nonceChecker := by
    have h := prepareBlock_nonces hash t o
    rw [hprepare] at h
    exact h
  have hchecker₁ : CheckerHolds t o₁.storage o₁.nonceChecker := by
    refine ⟨?_, ?_⟩
    · rw [hnonces]
      exact hchecker.below
    · rw [hnonces, hsame]
      exact hchecker.checked
  obtain ⟨block', burned', reward', o₁', run, hprepare', hexecute, hstorage, hfinal⟩ := orderBlock_ok horder
  rw [hprepare] at hprepare'
  cases hprepare'
  rw [hstorage, hfinal, ← hnonces]
  exact executeBlock_nonces rfl rfl hchecker₁ halong hexecute

theorem CheckerHolds.accounted {hashes : List Hash} {o : Ordering P}
    (hchecker : CheckerHolds t o.storage o.nonceChecker) (hwaste : NeverWastes node version baseTopoHeight t hashes o)
    (hn : lastNonce o.storage.nonces key = some n) : NoncesAccounted node version baseTopoHeight key t hashes o n := by
  induction hashes generalizing t o n with
  | nil => exact trivial
  | cons hash hashes ih =>
    intro block pastBurnedSupply blockReward o₁ o' hprepare horder
    obtain ⟨hchecker', hblock⟩ := orderBlock_nonces hchecker hprepare
      (hwaste.1 block pastBurnedSupply blockReward o₁ hprepare) horder
    obtain ⟨hnonces, hlast⟩ := hblock key n hn
    exact ⟨hnonces, ih hchecker' (hwaste.2 o' horder) hlast⟩

/-- Along an order whose transactions never fail once their nonce was taken, every block stores the nonce of an account
before it plus the number of its executed transactions, which follow each other. -/
theorem orderFrom_accounts_nonces (node : Node P) (version : BlockVersion) (baseTopoHeight topoheight : TopoHeight)
    (hashes : List Hash) (o : Ordering P) (hclean : o.storage.nonces.Below topoheight) (hchecker : o.nonceChecker = {})
    (hwaste : NeverWastes node version baseTopoHeight topoheight hashes o) (key : PublicKey) (n : Nonce)
    (hn : storedNonce o.storage key topoheight = some n) :
    NoncesAccounted node version baseTopoHeight key topoheight hashes o n := by
  have hholds : CheckerHolds topoheight o.storage o.nonceChecker := by
    refine ⟨hclean, fun key entry hentry => ?_⟩
    rw [hchecker, Std.ExtTreeMap.getElem?_empty] at hentry
    cases hentry
  refine hholds.accounted hwaste ?_
  rw [← storedNonce_of_pointer (pointer_of_below hclean key)]
  exact hn

section Samples

open Transaction (clearEnv sampleStorage sampleTx isOk)

def clearNode : Node ℤ := { env := clearEnv, mainnet := false, devPublicKey := 9#256 }

/-- A chain with one more block to order, which holds the given transactions. -/
def sampleOrdering (txs : List Transaction) : Ordering ℤ :=
  let hashes := (List.range txs.length).map (fun i => BitVec.ofNat 256 (20 + i))
  let storage : Storage ℤ := { sampleStorage with supply := ∅, burnedSupply := ∅ }
  let storage := storage.setSupplyAtTopoHeight 0 0
  { storage := { storage.saveBlock ⟨.v3, [], 0, 1, 0, [], 8#256, hashes⟩ txs 1 0 1#256 with
      burnedSupply := storage.burnedSupply.insert 0 0 } }

/-- Its commitment does not hold the balance that is left, so that it fails in the execution. -/
def failingBurn : Transaction := sampleTx (.burn ⟨XELIS_ASSET, 1⟩) 5

def burnWithNonce (nonce : Nonce) : Transaction :=
  { (sampleTx (.burn ⟨XELIS_ASSET, 1⟩) (10 * COIN_VALUE - 10001)) with nonce }

def firstBlockNonces (key : PublicKey) (o : Ordering ℤ) : Option (List Nonce × Option Nonce) :=
  match prepareBlock 1#256 1 o, orderBlock clearNode .v3 0 1#256 1 o with
  | .ok (block, pastBurnedSupply, _) o₁, .ok _ o' =>
    some ((ofAccount key (executedBy clearEnv 1#256 (block.transactions.zip block.header.txsHashes)
      (o₁.blockRun clearNode .v3 0 1#256 block 1 pastBurnedSupply))).map (·.nonce), storedNonce o'.storage key 1)
  | _, _ => none

theorem firstBlockNonces_failing :
    firstBlockNonces 7#256 (sampleOrdering [failingBurn, burnWithNonce 0, burnWithNonce 1]) = some ([1], some 2) := by
  decide +kernel

theorem sampleOrdering_below (txs : List Transaction) : (sampleOrdering txs).storage.nonces.Below 1 :=
  (VersionedTrees.Below.empty 1).setLast (keyBytes 7#256) Nat.one_pos (⟨none, 0⟩ : VersionedNonce)

/-- A transaction fails, the one with the same nonce is refused, and the one with the next nonce is executed. -/
theorem failing_transaction_wastes_nonce :
    ∃ o : Ordering ℤ, o.storage.nonces.Below 1 ∧ o.nonceChecker = {} ∧ storedNonce o.storage 7#256 1 = some 0 ∧
      ¬NoncesAccounted clearNode .v3 0 7#256 1 [1#256] o 0 := by
  refine ⟨sampleOrdering [failingBurn, burnWithNonce 0, burnWithNonce 1], sampleOrdering_below _, rfl, by decide +kernel,
    fun haccounted => ?_⟩
  have hnonces := firstBlockNonces_failing
  unfold firstBlockNonces at hnonces
  cases hprepare : prepareBlock 1#256 1 (sampleOrdering [failingBurn, burnWithNonce 0, burnWithNonce 1]) with
  | error e o₁ => simp [hprepare] at hnonces
  | ok prepared o₁ =>
    obtain ⟨block, pastBurnedSupply, blockReward⟩ := prepared
    cases horder : orderBlock clearNode .v3 0 1#256 1 (sampleOrdering [failingBurn, burnWithNonce 0, burnWithNonce 1]) with
    | error e o' => simp [hprepare, horder] at hnonces
    | ok _ o' =>
      obtain ⟨hblock, -⟩ := haccounted block pastBurnedSupply blockReward o₁ o' hprepare horder
      have hconsecutive := hblock.consecutive
      simp only [hprepare, horder, Option.some.injEq, Prod.mk.injEq] at hnonces
      have hlength : (ofAccount 7#256 (executedBy clearEnv 1#256 (block.transactions.zip block.header.txsHashes)
          (o₁.blockRun clearNode .v3 0 1#256 block 1 pastBurnedSupply))).length = 1 := by
        rw [← List.length_map, hnonces.1]
        rfl
      change List.map _ (ofAccount 7#256 (executedBy clearEnv _ _ _)) =
        List.range' 0 (ofAccount 7#256 (executedBy clearEnv _ _ _)).length at hconsecutive
      rw [hnonces.1, hlength] at hconsecutive
      cases hconsecutive

def firstBlockApplies (o : Ordering ℤ) : Bool :=
  match prepareBlock 1#256 1 o with
  | .error _ _ => false
  | .ok (block, pastBurnedSupply, _) o₁ =>
    match block.transactions.zip block.header.txsHashes with
    | [e] => isOk (e.1.applyWithPartialVerify clearEnv e.2
        ((o₁.blockRun clearNode .v3 0 1#256 block 1 pastBurnedSupply).link e.2 1#256).chainState)
    | _ => false

theorem burnWithNonce_accounted :
    firstBlockNonces 7#256 (sampleOrdering [burnWithNonce 0]) = some ([0], some 1) ∧
      NoncesAccounted clearNode .v3 0 7#256 1 [1#256] (sampleOrdering [burnWithNonce 0]) 0 := by
  have happlies : firstBlockApplies (sampleOrdering [burnWithNonce 0]) = true := by decide +kernel
  refine ⟨by decide +kernel, orderFrom_accounts_nonces clearNode .v3 0 1 [1#256] (sampleOrdering [burnWithNonce 0])
    (sampleOrdering_below _) rfl ⟨?_, fun _ _ => trivial⟩ 7#256 0 (by decide +kernel)⟩
  intro block pastBurnedSupply blockReward o₁ hprepare
  simp only [firstBlockApplies, hprepare] at happlies
  split at happlies
  case h_1 e htxs =>
    rw [htxs]
    refine ⟨?_, fun _ _ => trivial⟩
    rintro ⟨nonceChecker, error, chainState, -, -, happly⟩
    rw [show clearNode.env = clearEnv from rfl] at happly
    rw [happly] at happlies
    cases happlies
  case h_2 => cases happlies

end Samples

end Runs

end Xelis.Blockchain
