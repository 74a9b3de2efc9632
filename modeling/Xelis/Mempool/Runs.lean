import Xelis.Mempool.Representation
import Xelis.Transaction.Coverage

namespace Xelis.Mempool

open Lib (Exec)

variable {P : Type}

/-- A call to the mempool, with the chain at the time of the call. -/
inductive Call (P : Type) where
  | addTx (chain : ChainView P) (tx : Transaction) (hash : Hash) (now : Nat)
  | removeTx (hash : Hash)
  | cleanUp (chain : ChainView P)
  | drain

/-- Each cache holds the transactions of its sender by nonce, without a gap: the index computed from a nonce is
that of its transaction, no nonce is used twice, and every transaction is in one cache. -/
structure Consistent (m : Mempool P) : Prop where
  holds : ∀ (key : PublicKey) (cache : AccountCache P), m.caches[key]? = some cache → ∀ hash : Hash,
    hash ∈ cache.txs.elems ↔ ∃ sorted : SortedTx, m.txs[hash]? = some sorted ∧ sorted.tx.source = key
  contiguous : ∀ (key : PublicKey) (cache : AccountCache P), m.caches[key]? = some cache → cache.min ≤ cache.max ∧
    cache.txs.elems.map (nonceOf m.txs) = (List.range' cache.min (cache.max + 1 - cache.min)).map some
  lookup : ∀ (key : PublicKey) (cache : AccountCache P), m.caches[key]? = some cache →
    ∀ n : Nat, cache.min ≤ n → n ≤ cache.max → ∃ (hash : Hash) (sorted : SortedTx),
      cache.hasTxWithSameNonce n = some hash ∧ m.txs[hash]? = some sorted ∧ sorted.tx.source = key ∧
        sorted.tx.nonce = n
  distinct : ∀ (hash hash' : Hash) (sorted sorted' : SortedTx), m.txs[hash]? = some sorted →
    m.txs[hash']? = some sorted' → sorted.tx.source = sorted'.tx.source → sorted.tx.nonce = sorted'.tx.nonce → hash = hash'
  listed : ∀ (hash : Hash) (sorted : SortedTx), m.txs[hash]? = some sorted →
    ∃! key : PublicKey, ∃ cache : AccountCache P, m.caches[key]? = some cache ∧ hash ∈ cache.txs.elems

theorem consistent_iff (m : Mempool P) : m.Consistent ↔ m.WellFormed := by
  constructor
  · intro h
    refine ⟨fun key cache hcache => ⟨h.holds key cache hcache, (h.contiguous key cache hcache).2,
      (h.contiguous key cache hcache).1⟩, fun hash sorted hsorted => ?_⟩
    obtain ⟨key, ⟨cache, hcache, hmem⟩, -⟩ := h.listed hash sorted hsorted
    obtain ⟨sorted', hsorted', rfl⟩ := (h.holds key cache hcache hash).mp hmem
    rw [hsorted] at hsorted'
    cases hsorted'
    rw [hcache]
    rfl
  · intro h
    refine ⟨fun key cache hcache => (h.lists key cache hcache).mem_iff,
      fun key cache hcache => ⟨(h.lists key cache hcache).min_le_max, (h.lists key cache hcache).nonces⟩,
      fun key cache hcache n => (h.lists key cache hcache).hasTxWithSameNonce, ?_, ?_⟩
    · intro hash hash' sorted sorted' hsorted hsorted' hsource hnonce
      obtain ⟨cache, hcache⟩ := Option.isSome_iff_exists.mp (h.cached hash sorted hsorted)
      have hlists := h.lists _ cache hcache
      refine hlists.nonce_inj (hlists.mem hsorted rfl) (hlists.mem hsorted' hsource.symm) ?_
      rw [nonceOf_eq hsorted, nonceOf_eq hsorted', hnonce]
    · intro hash sorted hsorted
      obtain ⟨cache, hcache⟩ := Option.isSome_iff_exists.mp (h.cached hash sorted hsorted)
      refine ⟨sorted.tx.source, ⟨cache, hcache, (h.lists _ cache hcache).mem hsorted rfl⟩, ?_⟩
      rintro key ⟨cache', hcache', hmem⟩
      obtain ⟨sorted', hsorted', rfl⟩ := ((h.lists key cache' hcache').mem_iff hash).mp hmem
      rw [hsorted] at hsorted'
      cases hsorted'
      rfl

variable [RistrettoPoint P]

/-- The mempool after a call. A transaction that is refused leaves it alone. -/
def call (proofs : Proofs P) (m : Mempool P) : Call P → Mempool P
  | .addTx chain tx hash now =>
    match m.addTxToMempoolWithStorageAndHash proofs chain tx hash now with
    | .ok m' => m'
    | .error _ => m
  | .removeTx hash => Exec.stateOf (removeTx hash m)
  | .cleanUp chain => (m.cleanUp proofs chain).1
  | .drain => m.drain.1

def run (proofs : Proofs P) (mainnet : Bool) (calls : List (Call P)) : Mempool P := calls.foldl (call proofs) (new mainnet)

/-- What a call may do to the middle of a range: only a removal reaches it. -/
def KeepsRanges (m : Mempool P) : Call P → Prop
  | .removeTx hash => m.AtAnEnd hash
  | _ => True

theorem call_wellFormed_iff (proofs : Proofs P) {m : Mempool P} (h : m.WellFormed) (c : Call P) :
    (m.call proofs c).WellFormed ↔ m.KeepsRanges c := by
  cases c with
  | addTx chain tx hash now =>
    refine iff_of_true ?_ trivial
    unfold call
    dsimp only
    split
    · rename_i m' hadd
      exact addTxToMempool_wellFormed h hadd
    · exact h
  | removeTx hash => exact removeTx_wellFormed_iff h hash
  | cleanUp chain => exact iff_of_true (cleanUp_wellFormed h) trivial
  | drain => exact iff_of_true (wellFormed_new m.mainnet) trivial

/-- The caches are right in every mempool reached exactly when every transaction removed by its hash has the
lowest or the highest nonce of its sender. -/
theorem run_consistent_iff (proofs : Proofs P) (mainnet : Bool) (calls : List (Call P)) :
    (∀ before after, calls = before ++ after → (run proofs mainnet before).Consistent) ↔
      ∀ before hash after, calls = before ++ .removeTx hash :: after → (run proofs mainnet before).AtAnEnd hash := by
  have hstep (before : List (Call P)) (c : Call P) :
      run proofs mainnet (before ++ [c]) = (run proofs mainnet before).call proofs c := List.foldl_concat ..
  constructor
  · intro hall before hash after heq
    have hbefore := (consistent_iff _).mp (hall before _ heq)
    have hafter := (consistent_iff _).mp (hall (before ++ [.removeTx hash]) after (by simpa using heq))
    rw [hstep] at hafter
    exact (call_wellFormed_iff proofs hbefore (.removeTx hash)).mp hafter
  · intro hends before
    induction before using List.reverseRecOn with
    | nil =>
      intro after heq
      exact (consistent_iff _).mpr (wellFormed_new mainnet)
    | append_singleton before c ih =>
      intro after heq
      have hprior : calls = before ++ c :: after := by simpa using heq
      have hbefore := (consistent_iff _).mp (ih (c :: after) hprior)
      rw [consistent_iff, hstep, call_wellFormed_iff proofs hbefore]
      cases c with
      | removeTx hash => exact hends before hash after hprior
      | addTx chain tx hash now => exact trivial
      | cleanUp chain => exact trivial
      | drain => exact trivial

section Samples

open Transaction

def burnAt (nonce : Nat) : Transaction :=
  { sampleTx (.burn ⟨XELIS_ASSET, COIN_VALUE⟩) (10 * COIN_VALUE - (nonce + 1) * (10000 + COIN_VALUE)) with nonce }

def sampleChain : ChainView ℤ := { storage := sampleStorage, stableTopoheight := 0, topoheight := 1, blockVersion := .v3 }

/-- Three transactions are added, the second one is removed. -/
def middleRemoval : List (Call ℤ) :=
  [.addTx sampleChain (burnAt 0) 100#256 0, .addTx sampleChain (burnAt 1) 101#256 0,
    .addTx sampleChain (burnAt 2) 102#256 0, .removeTx 101#256]

/-- The third transaction is found under the nonce of the second, and not under its own. -/
theorem middleRemoval_lookup :
    (run clearEnv.toProofs false middleRemoval).caches[7#256]?.map
      (fun cache => (cache.min, cache.max, cache.hasTxWithSameNonce 1, cache.hasTxWithSameNonce 2)) =
        some (0, 2, some 102#256, none) := by
  decide +kernel

theorem removal_leaves_gap : ¬(run clearEnv.toProofs false middleRemoval).Consistent := by
  intro h
  obtain ⟨cache, hcache, hlookup⟩ := Option.map_eq_some_iff.mp middleRemoval_lookup
  simp only [Prod.mk.injEq] at hlookup
  obtain ⟨hmin, hmax, -, hnone⟩ := hlookup
  obtain ⟨hash, sorted, hfound, -⟩ := h.lookup 7#256 cache hcache 2 (by rw [hmin]; decide) (by rw [hmax])
  rw [hnone] at hfound
  cases hfound

end Samples

end Xelis.Mempool
