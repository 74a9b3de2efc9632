import Xelis.Lib.MapLoops
import Xelis.Wallet.Fees
import Xelis.Wallet.Storage
import Xelis.Wire.Parsed

/-! The transactions a wallet has built and that are not confirmed yet: the cache of the last one, the balances they leave, and the
state rebuilt from a finished transaction. -/

namespace Xelis.Wallet

open Lib (FiniteMap Exec)
open Wire (CurveScalar RangeProof Signature GROUP_ORDER)

/-- The storage with the balances: those confirmed by the chain, and for each asset those left by the transactions that spend it,
the latest one last. -/
structure WalletStorage (P : Type) extends EncryptedStorage where
  balances : FiniteMap Hash (Balance P)
  unconfirmedBalances : FiniteMap Hash (List (Balance P))
  nonce : Nonce
  lastCoinbaseRewardTopoheight : Option TopoHeight

variable {P S R : Type}

/-- The compressed form, taken again after a change. -/
def CiphertextCache.compress (point : P → CompressedPoint) : CiphertextCache P → Wire.CompressedCiphertext
  | compressed ciphertext => ciphertext
  | decompressed ct => ⟨point ct.commitment, point ct.handle⟩
  | both ciphertext ct dirty => if dirty then ⟨point ct.commitment, point ct.handle⟩ else ciphertext

/-- A change through the computable form. -/
def CiphertextCache.compute [RistrettoPoint P] (f : Ciphertext P → Ciphertext P) : CiphertextCache P → Option (CiphertextCache P)
  | compressed ciphertext => (takeCiphertext (compressed ciphertext)).map fun ct => decompressed (f ct)
  | decompressed ct => some (decompressed (f ct))
  | both ciphertext ct _ => some (both ciphertext (f ct) true)

namespace WalletStorage

variable (storage : WalletStorage P)

def getBalanceFor (asset : Hash) : Except WalletError (Balance P) :=
  match storage.balances[asset]? with
  | some balance => .ok balance
  | none => .error (.missingData asset)

/-- The latest balance that is not confirmed, or else the confirmed one. -/
def getUnconfirmedBalanceFor (asset : Hash) : Except WalletError (Balance P × Bool) :=
  match storage.unconfirmedBalances[asset]?.bind List.getLast? with
  | some balance => .ok (balance, true)
  | none => (storage.getBalanceFor asset).map fun balance => (balance, false)

def setUnconfirmedBalanceFor (asset : Hash) (balance : Balance P) : WalletStorage P :=
  { storage with
    unconfirmedBalances := storage.unconfirmedBalances.insert asset (storage.unconfirmedBalances[asset]?.getD [] ++ [balance]) }

/-- The outdated balances go until the confirmed one is met. The last one comes back while a transaction waits. -/
def dropOutdated (point : P → CompressedPoint) (waits : Bool) (ciphertext : Wire.CompressedCiphertext) :
    List (Balance P) → List (Balance P)
  | [] => []
  | b :: rest =>
    if b.ciphertext.compress point = ciphertext then rest
    else if rest.isEmpty && waits then [b]
    else dropOutdated point waits ciphertext rest

/-- Without any balance left to confirm, no transaction waits. -/
def setBalanceFor (point : P → CompressedPoint) (asset : Hash) (balance : Balance P) : WalletStorage P :=
  let cleaned := match storage.unconfirmedBalances[asset]? with
    | none => storage
    | some queue =>
      let left := dropOutdated point storage.txCache.isSome (balance.ciphertext.compress point) queue
      if left.isEmpty then
        let others := storage.unconfirmedBalances.erase asset
        { storage with unconfirmedBalances := others, txCache := if others.isEmpty then none else storage.txCache }
      else { storage with unconfirmedBalances := storage.unconfirmedBalances.insert asset left }
  { cleaned with balances := storage.balances.insert asset balance }

def getUnconfirmedNonce : Nonce := storage.txCache.elim storage.nonce TxCache.nonce

def getTxCache : Option TxCache := storage.txCache

def setTxCache (txCache : TxCache) : WalletStorage P := { storage with txCache := some txCache }

end WalletStorage

namespace TransactionBuilderState

def new (mainnet : Bool) (reference : Reference) (nonce : Nonce) : TransactionBuilderState P where
  registeredKeys _ := false
  mainnet
  balances := ∅
  reference
  nonce
  txHashBuilt := none
  stableTopoheight := none

def addBalance (state : TransactionBuilderState P) (asset : Hash) (balance : Balance P) : TransactionBuilderState P :=
  { state with balances := state.balances.insert asset balance }

def setTxHashBuilt (state : TransactionBuilderState P) (hash : Hash) : TransactionBuilderState P := { state with txHashBuilt := some hash }

variable [RistrettoPoint P]

/-- What the transaction spends is taken from the ciphertext; the plain amount stays. -/
def addSpent (storage : WalletStorage P) (state : TransactionBuilderState P) (output : Hash × Ciphertext P) :
    Except WalletError (TransactionBuilderState P) :=
  match storage.getUnconfirmedBalanceFor output.1 with
  | .error e => .error e
  | .ok (balance, _) =>
    match balance.ciphertext.compute (fun ct => ct.sub output.2) with
    | none => .error .decompression
    | some ciphertext => .ok (state.addBalance output.1 { balance with ciphertext })

/-- The state for a finished transaction, with the nonce of the transaction itself. -/
def fromTx [CurveScalar S] [RangeProof R] (hash : IVec → Hash) (storage : WalletStorage P) (transaction : Wire.Transaction S R)
    (mainnet : Bool) : Except WalletError (TransactionBuilderState P) :=
  match transaction.parsed.getExpectedSenderOutputs (P := P) with
  | none => .error .decompression
  | some ciphertexts =>
    (ciphertexts.foldlM (addSpent storage) (new mainnet transaction.reference transaction.nonce)).map
      fun state => state.setTxHashBuilt (hash transaction.toBytes)

/-- The balances join those that wait, and the next transaction is built from the cache. -/
def applyChanges (state : TransactionBuilderState P) (storage : WalletStorage P) : WalletStorage P :=
  let storage := state.balances.toList.foldl (fun storage e => storage.setUnconfirmedBalanceFor e.1 e.2) storage
  let storage := storage.setTxCache { reference := state.reference, nonce := state.nonce, lastTxHashCreated := state.txHashBuilt }
  if state.stableTopoheight.any (fun stable => storage.lastCoinbaseRewardTopoheight.any (fun h => h < stable)) then
    { storage with lastCoinbaseRewardTopoheight := none }
  else storage

/-- What rebuilding leaves: the nonce of the transaction, and under every asset the amount that was known before it. -/
structure Rebuilt (storage : WalletStorage P) (nonce : Nonce) (state : TransactionBuilderState P) : Prop where
  nonce : state.nonce = nonce
  amount : ∀ asset balance, state.balances[asset]? = some balance →
    ∃ known, storage.getUnconfirmedBalanceFor asset = .ok known ∧ balance.amount = known.1.amount

variable {storage : WalletStorage P} {nonce : Nonce} {state rebuilt : TransactionBuilderState P}

theorem Rebuilt.addSpent {output : Hash × Ciphertext P} (h : Rebuilt storage nonce state)
    (hstep : state.addSpent storage output = .ok rebuilt) : Rebuilt storage nonce rebuilt := by
  unfold TransactionBuilderState.addSpent at hstep
  split at hstep
  · cases hstep
  · rename_i balance pending hknown
    split at hstep
    · cases hstep
    · cases hstep
      refine ⟨h.nonce, fun asset found hfound => ?_⟩
      by_cases hasset : output.1 = asset
      · subst hasset
        unfold addBalance at hfound
        rw [FiniteMap.getElem?_insert_self', Option.some.injEq] at hfound
        exact ⟨_, hknown, by rw [← hfound]⟩
      · unfold addBalance at hfound
        rw [FiniteMap.getElem?_insert_of_ne _ _ hasset] at hfound
        exact h.amount asset found hfound

theorem Rebuilt.foldlM {outputs : List (Hash × Ciphertext P)} (h : Rebuilt storage nonce state)
    (hfold : outputs.foldlM (TransactionBuilderState.addSpent storage) state = .ok rebuilt) : Rebuilt storage nonce rebuilt := by
  induction outputs generalizing state with
  | nil =>
    cases hfold
    exact h
  | cons output outputs ih =>
    obtain ⟨next, hstep, hrest⟩ := Lib.FiniteMap.foldlM_cons_ok.mp hfold
    exact ih (h.addSpent hstep) hrest

variable [CurveScalar S] [RangeProof R]

theorem rebuilt_fromTx {hash : IVec → Hash} {tx : Wire.Transaction S R} {mainnet : Bool} (h : fromTx hash storage tx mainnet = .ok rebuilt) :
    Rebuilt storage tx.nonce rebuilt := by
  unfold fromTx at h
  split at h
  · cases h
  · rename_i outputs houtputs
    cases hfold : outputs.foldlM (addSpent storage) (new mainnet tx.reference tx.nonce) with
    | error e =>
      rw [hfold] at h
      cases h
    | ok state =>
      rw [hfold] at h
      cases h
      have hempty : Rebuilt storage tx.nonce (new mainnet tx.reference tx.nonce) := by
        refine ⟨rfl, fun asset balance hbalance => ?_⟩
        have hnone : (∅ : FiniteMap Hash (Balance P))[asset]? = none := Std.ExtTreeMap.getElem?_empty
        exact absurd (hnone.symm.trans hbalance) (by simp)
      have hrebuilt := hempty.foldlM hfold
      exact ⟨hrebuilt.nonce, hrebuilt.amount⟩

omit [RistrettoPoint P] [CurveScalar S] [RangeProof R] in
theorem getUnconfirmedNonce_applyChanges (state : TransactionBuilderState P) (storage : WalletStorage P) :
    (state.applyChanges storage).getUnconfirmedNonce = state.nonce := by
  unfold applyChanges
  dsimp only
  split <;> rfl

/-- The two states leave the same pending transaction: the next nonce, the amounts and ciphertexts of the assets used, and the
answers of the storage after either one is applied. -/
structure Agrees (assets : List Hash) (storage : WalletStorage P) (rebuilt built : TransactionBuilderState P) : Prop where
  nonce : rebuilt.nonce = built.nonce
  balances : ∀ asset ∈ assets, rebuilt.balances[asset]?.map (fun balance => (balance.amount, balance.ciphertext.takeCiphertext)) =
    built.balances[asset]?.map (fun balance => (balance.amount, balance.ciphertext.takeCiphertext))
  unconfirmedNonce : (rebuilt.applyChanges storage).getUnconfirmedNonce = (built.applyChanges storage).getUnconfirmedNonce
  txCache : (rebuilt.applyChanges storage).getTxCache = (built.applyChanges storage).getTxCache
  unconfirmedBalance : ∀ asset ∈ assets,
    ((rebuilt.applyChanges storage).getUnconfirmedBalanceFor asset).map (fun known => (known.1.amount, known.1.ciphertext.takeCiphertext)) =
      ((built.applyChanges storage).getUnconfirmedBalanceFor asset).map (fun known => (known.1.amount, known.1.ciphertext.takeCiphertext))

end TransactionBuilderState

section Queues

variable {point : P → CompressedPoint} {waits : Bool} {ciphertext : Wire.CompressedCiphertext} {queue : List (Balance P)}
  {storage : WalletStorage P} {asset other : Hash} {balance : Balance P}

namespace WalletStorage

theorem getLast?_dropOutdated (h : dropOutdated point waits ciphertext queue ≠ []) :
    (dropOutdated point waits ciphertext queue).getLast? = queue.getLast? := by
  induction queue with
  | nil => rfl
  | cons b rest ih =>
    unfold dropOutdated at h ⊢
    have hlast (hrest : rest ≠ []) : rest.getLast? = (b :: rest).getLast? := by
      rw [List.getLast?_cons_of_ne_nil hrest]
    split
    · rw [if_pos ‹_›] at h
      exact hlast h
    · rw [if_neg ‹_›] at h
      split
      · rename_i hempty
        rw [Bool.and_eq_true, List.isEmpty_iff] at hempty
        rw [hempty.1]
      · rw [if_neg ‹_›] at h
        have hrest : rest ≠ [] := by
          rintro rfl
          exact h rfl
        exact (ih h).trans (hlast hrest)

theorem dropOutdated_eq_nil (hlast : queue.getLast? = some balance) (h : dropOutdated point true ciphertext queue = []) :
    balance.ciphertext.compress point = ciphertext := by
  induction queue with
  | nil => cases hlast
  | cons b rest ih =>
    unfold dropOutdated at h
    split at h
    · rename_i hsame
      subst h
      cases hlast
      exact hsame
    · split at h
      · cases h
      · rename_i hmore
        have hrest : rest ≠ [] := by
          rintro rfl
          exact hmore rfl
        rw [List.getLast?_cons_of_ne_nil hrest] at hlast
        exact ih hlast h

theorem applyChanges_balances (state : TransactionBuilderState P) : (state.applyChanges storage).balances = storage.balances := by
  have hfold (es : List (Hash × Balance P)) (storage : WalletStorage P) :
      (es.foldl (fun storage e => storage.setUnconfirmedBalanceFor e.1 e.2) storage).balances = storage.balances := by
    induction es generalizing storage with
    | nil => rfl
    | cons e es ih => exact ih _
  unfold TransactionBuilderState.applyChanges
  dsimp only
  split <;> exact hfold _ _

theorem getElem?_applyChanges (state : TransactionBuilderState P) (storage : WalletStorage P) (asset : Hash) :
    (state.applyChanges storage).unconfirmedBalances[asset]? = match state.balances[asset]? with
      | some balance => some (storage.unconfirmedBalances[asset]?.getD [] ++ [balance])
      | none => storage.unconfirmedBalances[asset]? := by
  have hfold (es : List (Hash × Balance P)) (storage : WalletStorage P) :
      (es.foldl (fun storage e => storage.setUnconfirmedBalanceFor e.1 e.2) storage).unconfirmedBalances =
        es.foldl (fun acc e => acc.write e.1 (some (acc[e.1]?.getD [] ++ [e.2]))) storage.unconfirmedBalances := by
    induction es generalizing storage with
    | nil => rfl
    | cons e es ih => exact ih _
  have hmerge := FiniteMap.getElem?_merge (fun balance queue => some (queue.getD [] ++ [balance])) storage.unconfirmedBalances
    state.balances asset
  rw [FiniteMap.merge, ← hfold] at hmerge
  unfold TransactionBuilderState.applyChanges
  dsimp only
  cases hbalance : state.balances[asset]? <;> rw [hbalance] at hmerge <;> split <;> exact hmerge

theorem getElem?_setBalanceFor_self (point : P → CompressedPoint) (storage : WalletStorage P) (asset : Hash) (balance : Balance P) :
    (storage.setBalanceFor point asset balance).unconfirmedBalances[asset]? = (storage.unconfirmedBalances[asset]?.map
      (dropOutdated point storage.txCache.isSome (balance.ciphertext.compress point))).filter fun left => !left.isEmpty := by
  unfold setBalanceFor
  cases hqueue : storage.unconfirmedBalances[asset]? with
  | none => exact hqueue
  | some queue =>
    dsimp only
    rw [Option.map_some, Option.filter_some]
    split
    · rename_i hleft
      exact (FiniteMap.getElem?_erase_self' ..).trans (if_neg (by simp [hleft])).symm
    · rename_i hleft
      exact (FiniteMap.getElem?_insert_self' ..).trans (if_pos (by simpa using hleft)).symm

theorem getElem?_setBalanceFor_of_ne (point : P → CompressedPoint) (storage : WalletStorage P) (balance : Balance P) (h : asset ≠ other) :
    (storage.setBalanceFor point asset balance).unconfirmedBalances[other]? = storage.unconfirmedBalances[other]? ∧
      (storage.setBalanceFor point asset balance).balances[other]? = storage.balances[other]? := by
  refine ⟨?_, FiniteMap.getElem?_insert_of_ne _ _ h⟩
  unfold setBalanceFor
  cases storage.unconfirmedBalances[asset]? with
  | none => rfl
  | some queue =>
    dsimp only
    split
    · exact FiniteMap.getElem?_erase_of_ne _ h
    · exact FiniteMap.getElem?_insert_of_ne _ _ h

end WalletStorage

/-- What happens to the pending state of a wallet. -/
inductive PendingOp (P : Type) where
  | applyChanges (state : TransactionBuilderState P)
  | setBalanceFor (asset : Hash) (balance : Balance P)
  | saveTransaction (nonce : XNonce) (hash : Hash) (entry : TransactionEntry)

namespace PendingOp

/-- A failed write of the history leaves what was written before. -/
def apply (cipher : Cipher) (point : P → CompressedPoint) (storage : WalletStorage P) : PendingOp P → WalletStorage P
  | applyChanges state => state.applyChanges storage
  | setBalanceFor asset balance => storage.setBalanceFor point asset balance
  | saveTransaction nonce hash entry =>
    { storage with toEncryptedStorage := Exec.stateOf (EncryptedStorage.saveTransaction cipher nonce hash entry storage.toEncryptedStorage) }

def recorded : PendingOp P → Hash → Option (Balance P)
  | applyChanges state, asset => state.balances[asset]?
  | _, _ => none

end PendingOp

/-- The storage, and for each asset the balance recorded by the latest transaction that spent it, of those built since none waited. -/
structure PendingRun (P : Type) where
  storage : WalletStorage P
  latest : Hash → Option (Balance P)

namespace PendingRun

def start (storage : WalletStorage P) : PendingRun P := ⟨storage, fun _ => none⟩

def step (cipher : Cipher) (point : P → CompressedPoint) (run : PendingRun P) (op : PendingOp P) : PendingRun P where
  storage := op.apply cipher point run.storage
  latest asset := if (op.apply cipher point run.storage).txCache.isSome then (op.recorded asset).or (run.latest asset) else none

/-- While a transaction waits, each asset spent has the balance left by the latest one, or a confirmed balance of the same
ciphertext. -/
def Answers (point : P → CompressedPoint) (run : PendingRun P) : Prop :=
  ∀ asset balance, run.latest asset = some balance → ∃ known pending, run.storage.getUnconfirmedBalanceFor asset = .ok (known, pending) ∧
    if pending then known = balance else known.ciphertext.compress point = balance.ciphertext.compress point

/-- Once the balance of the latest transaction is confirmed, no other one is confirmed before all of them are. -/
def Allowed (point : P → CompressedPoint) (run : PendingRun P) : PendingOp P → Prop
  | .setBalanceFor asset balance => ∀ last, run.latest asset = some last → run.storage.unconfirmedBalances[asset]? = none →
      balance.ciphertext.compress point = last.ciphertext.compress point
  | _ => True

/-- A queue ends with the balance of the latest transaction, or is gone. -/
structure Waiting (run : PendingRun P) : Prop where
  pending : ∀ asset balance, run.latest asset = some balance → run.storage.txCache.isSome
  last : ∀ asset balance, run.latest asset = some balance → ∀ queue, run.storage.unconfirmedBalances[asset]? = some queue →
    queue.getLast? = some balance

variable {cipher : Cipher} {run : PendingRun P}

theorem latest_step {op : PendingOp P} (h : (run.step cipher point op).latest asset = some balance) :
    (op.apply cipher point run.storage).txCache.isSome ∧ (op.recorded asset).or (run.latest asset) = some balance :=
  Option.ite_none_right_eq_some.mp h

theorem Waiting.step (h : run.Waiting) (op : PendingOp P) : (run.step cipher point op).Waiting := by
  refine ⟨fun asset balance hlatest => (latest_step hlatest).1, fun asset balance hlatest queue hqueue => ?_⟩
  obtain ⟨hsome, hlatest⟩ := latest_step hlatest
  cases op with
  | applyChanges state =>
    have hafter := WalletStorage.getElem?_applyChanges state run.storage asset
    rw [show (state.applyChanges run.storage).unconfirmedBalances[asset]? = some queue from hqueue] at hafter
    cases hbalance : state.balances[asset]? with
    | some recorded =>
      simp only [PendingOp.recorded, hbalance, Option.some_or, Option.some.injEq] at hlatest hafter
      rw [hafter, hlatest, List.getLast?_concat]
    | none =>
      simp only [PendingOp.recorded, hbalance, Option.none_or] at hlatest hafter
      exact h.last asset balance hlatest queue hafter.symm
  | setBalanceFor spent confirmed =>
    have hbefore : run.latest asset = some balance := hlatest
    by_cases hspent : spent = asset
    · subst hspent
      have hqueues := (WalletStorage.getElem?_setBalanceFor_self point run.storage spent confirmed).symm.trans hqueue
      rw [Option.filter_eq_some_iff, Option.map_eq_some_iff] at hqueues
      obtain ⟨⟨before, hold, rfl⟩, hleft⟩ := hqueues
      rw [WalletStorage.getLast?_dropOutdated (by simpa using hleft)]
      exact h.last spent balance hbefore before hold
    · refine h.last asset balance hbefore queue ?_
      rw [← (WalletStorage.getElem?_setBalanceFor_of_ne point run.storage confirmed hspent).1]
      exact hqueue
  | saveTransaction nonce hash entry => exact h.last asset balance hlatest queue hqueue

theorem waiting_foldl (h : run.Waiting) (ops : List (PendingOp P)) : (ops.foldl (step cipher point) run).Waiting := by
  induction ops generalizing run with
  | nil => exact h
  | cons op ops ih => exact ih (h.step op)

/-- Only an asset whose queue is gone needs a look at the confirmed balance. -/
theorem answers_iff (h : run.Waiting) : run.Answers point ↔
    ∀ asset balance, run.latest asset = some balance → run.storage.unconfirmedBalances[asset]? = none →
      ∃ known, run.storage.balances[asset]? = some known ∧ known.ciphertext.compress point = balance.ciphertext.compress point := by
  refine forall₃_congr fun asset balance hlatest => ?_
  unfold WalletStorage.getUnconfirmedBalanceFor WalletStorage.getBalanceFor
  cases hqueue : run.storage.unconfirmedBalances[asset]? with
  | some queue => simp [h.last asset balance hlatest queue hqueue]
  | none => cases run.storage.balances[asset]? <;> simp [Except.map]

theorem answers_step_iff (h : run.Waiting) (hanswers : run.Answers point) (op : PendingOp P) :
    (run.step cipher point op).Answers point ↔ run.Allowed point op := by
  rw [answers_iff (h.step op)]
  rw [answers_iff h] at hanswers
  cases op with
  | applyChanges state =>
    refine iff_of_true (fun asset balance hlatest hgone => ?_) trivial
    obtain ⟨-, hlatest⟩ := latest_step hlatest
    have hafter := WalletStorage.getElem?_applyChanges state run.storage asset
    rw [show (state.applyChanges run.storage).unconfirmedBalances[asset]? = none from hgone] at hafter
    show ∃ known, (state.applyChanges run.storage).balances[asset]? = some known ∧ _
    rw [WalletStorage.applyChanges_balances]
    cases hbalance : state.balances[asset]? with
    | some recorded => simp [hbalance] at hafter
    | none =>
      simp only [PendingOp.recorded, hbalance, Option.none_or] at hlatest hafter
      exact hanswers asset balance hlatest hafter.symm
  | saveTransaction nonce hash entry =>
    exact iff_of_true (fun asset balance hlatest hgone => hanswers asset balance (latest_step hlatest).2 hgone) trivial
  | setBalanceFor spent confirmed =>
    constructor
    · intro hafter last hlatest hgone
      have hsame : run.storage.setBalanceFor point spent confirmed =
          { run.storage with balances := run.storage.balances.insert spent confirmed } := by
        unfold WalletStorage.setBalanceFor
        rw [hgone]
      have hstill : (run.step cipher point (.setBalanceFor spent confirmed)).latest spent = some last := by
        show (if (run.storage.setBalanceFor point spent confirmed).txCache.isSome then (none : Option (Balance P)).or (run.latest spent) else none) = some last
        rw [hsame, if_pos (h.pending spent last hlatest), Option.none_or, hlatest]
      obtain ⟨known, hknown, hcompress⟩ := hafter spent last hstill (by
        show (run.storage.setBalanceFor point spent confirmed).unconfirmedBalances[spent]? = none
        rw [hsame]
        exact hgone)
      rw [show (run.step cipher point (.setBalanceFor spent confirmed)).storage.balances[spent]? = some confirmed from
        FiniteMap.getElem?_insert_self' .., Option.some.injEq] at hknown
      rw [hknown, hcompress]
    · intro hallowed asset balance hlatest hgone
      obtain ⟨-, hlatest⟩ := latest_step hlatest
      have hbefore : run.latest asset = some balance := hlatest
      by_cases hspent : spent = asset
      · subst hspent
        refine ⟨confirmed, FiniteMap.getElem?_insert_self' .., ?_⟩
        cases hold : run.storage.unconfirmedBalances[spent]? with
        | none => exact hallowed balance hbefore hold
        | some queue =>
          have hleft := (WalletStorage.getElem?_setBalanceFor_self point run.storage spent confirmed).symm.trans hgone
          rw [hold, h.pending spent balance hbefore, Option.map_some, Option.filter_eq_none_iff] at hleft
          exact (WalletStorage.dropOutdated_eq_nil (h.last spent balance hbefore queue hold) (by simpa using hleft)).symm
      · obtain ⟨hqueues, hbalances⟩ := WalletStorage.getElem?_setBalanceFor_of_ne point run.storage confirmed hspent
        obtain ⟨known, hknown, hcompress⟩ := hanswers asset balance hbefore (hqueues ▸ hgone)
        exact ⟨known, hbalances ▸ hknown, hcompress⟩

theorem answers_run_iff (storage : WalletStorage P) (ops : List (PendingOp P)) :
    (∀ before after, ops = before ++ after → (before.foldl (step cipher point) (start storage)).Answers point) ↔
      ∀ before op after, ops = before ++ op :: after → (before.foldl (step cipher point) (start storage)).Allowed point op := by
  have hstart : (start storage).Waiting := by
    constructor <;> exact fun asset balance hlatest => absurd hlatest (Option.some_ne_none balance).symm
  have hwaiting (before : List (PendingOp P)) : (before.foldl (step cipher point) (start storage)).Waiting := waiting_foldl hstart before
  constructor
  · intro hall before op after heq
    have hafter := hall (before ++ [op]) after (by simpa using heq)
    rw [List.foldl_concat] at hafter
    exact (answers_step_iff (hwaiting before) (hall before _ heq) op).mp hafter
  · intro hallowed before
    induction before using List.reverseRecOn with
    | nil =>
      intro after heq asset balance hlatest
      cases hlatest
    | append_singleton before op ih =>
      intro after heq
      have hprior : ops = before ++ op :: after := by simpa using heq
      rw [List.foldl_concat, answers_step_iff (hwaiting before) (ih (op :: after) hprior)]
      exact hallowed before op after hprior

end PendingRun

end Queues

section Disagreement

open TransactionBuilderState

variable [RistrettoPoint P] [CurveScalar S] [RangeProof R] {prover : Prover P S R} {builder : TransactionBuilder S R}
  {state state' : TransactionBuilderState P} {unsigned : UnsignedTransaction S R}

theorem nonce_built (h : builder.buildUnsigned prover state = .ok unsigned state') : state'.nonce = (unsigned.nonce + 1) % U64_RANGE := by
  obtain ⟨transfers, balances, hbuilt⟩ := TransactionBuilder.buildUnsigned_ok h
  have hlen := (forall₂_of_mapM hbuilt.amounts).length_eq
  have hassets : ((prover.iterate builder.data.usedAssets).zip balances).map Prod.fst = prover.iterate builder.data.usedAssets :=
    List.map_fst_zip (by omega)
  obtain ⟨-, hspent⟩ := TransactionBuilder.commitSources_ok (by
    rw [hassets]
    exact TransactionBuilder.nodup_iterate prover _) hbuilt.sources
  rw [hspent.frame, hbuilt.nonce]

omit [RistrettoPoint P] in
theorem nonce_foldl_signMultisig (hash : IVec → Hash) (unsigned : UnsignedTransaction S R) (signers : List (Nat × (IVec → Signature S))) :
    (signers.foldl (UnsignedTransaction.signMultisig hash) unsigned).nonce = unsigned.nonce := by
  induction signers generalizing unsigned with
  | nil => rfl
  | cons signer signers ih => exact ih (unsigned.signMultisig hash signer)

/-- No state rebuilt from a finished transaction agrees with the one that building it left: the nonce of the transaction would be
used again. -/
theorem not_agrees_fromTx (hash : IVec → Hash) (signers : List (Nat × (IVec → Signature S))) (mainnet : Bool)
    (storage : WalletStorage P) (h : builder.buildUnsigned prover state = .ok unsigned state') :
    let tx := (signers.foldl (UnsignedTransaction.signMultisig hash) unsigned).finalize prover.sign
    ¬ ∃ rebuilt, fromTx hash storage tx mainnet = .ok rebuilt ∧
      Agrees builder.data.usedAssets storage rebuilt (state'.setTxHashBuilt (hash tx.toBytes)) := by
  rintro tx ⟨rebuilt, hrebuilt, hagrees⟩
  have hnonce : tx.nonce = unsigned.nonce := nonce_foldl_signMultisig hash unsigned signers
  have hsame := hagrees.unconfirmedNonce
  rw [getUnconfirmedNonce_applyChanges, getUnconfirmedNonce_applyChanges, (rebuilt_fromTx hrebuilt).nonce, hnonce] at hsame
  have hbuilt : (state'.setTxHashBuilt (hash tx.toBytes)).nonce = state'.nonce := rfl
  rw [hbuilt, nonce_built h] at hsame
  have hrange : U64_RANGE = 2 ^ 64 := rfl
  have hne : ∀ n : Nat, n ≠ (n + 1) % U64_RANGE := by
    intro n
    rw [hrange]
    omega
  exact hne _ hsame

variable (prover builder state) in
/-- A state rebuilt from a finished transaction never agrees with the one that building it left. Whatever is applied, confirmed
and saved in whatever order, the answers of the storage are right while a transaction waits exactly where every step is allowed. -/
theorem pending_agreement (hash : IVec → Hash) (signers : List (Nat × (IVec → Signature S))) (mainnet : Bool) (storage : WalletStorage P)
    (cipher : Cipher) (point : P → CompressedPoint) (ops : List (PendingOp P)) :
    (∀ unsigned state', builder.buildUnsigned prover state = .ok unsigned state' →
      let tx := (signers.foldl (UnsignedTransaction.signMultisig hash) unsigned).finalize prover.sign
      ¬ ∃ rebuilt, fromTx hash storage tx mainnet = .ok rebuilt ∧
        Agrees builder.data.usedAssets storage rebuilt (state'.setTxHashBuilt (hash tx.toBytes))) ∧
      ((∀ before after, ops = before ++ after → (before.foldl (PendingRun.step cipher point) (.start storage)).Answers point) ↔
        ∀ before op after, ops = before ++ op :: after →
          (before.foldl (PendingRun.step cipher point) (.start storage)).Allowed point op) :=
  ⟨fun _ _ h => not_agrees_fromTx hash signers mainnet storage h, PendingRun.answers_run_iff storage ops⟩

end Disagreement

section Samples

open TransactionBuilderState

/-- A wallet that knows its confirmed balance only. -/
def richStorage : WalletStorage ℤ where
  transactions := ∅
  transactionsIndexes := ∅
  txCache := none
  balances := richState.balances
  unconfirmedBalances := ∅
  nonce := 0
  lastCoinbaseRewardTopoheight := none

def plainBurn : TransactionBuilder (Fin GROUP_ORDER) IVec := { signedBurn with requiredThresholds := none }

/-- The unconfirmed nonce and the unconfirmed amount, after applying the rebuilt state and after applying the one left by building. -/
noncomputable def pendingOf (builder : TransactionBuilder (Fin GROUP_ORDER) IVec) : Option ((Nonce × Option Nat) × Nonce × Option Nat) :=
  match builder.buildUnsigned plainProver richState with
  | .error _ _ => none
  | .ok unsigned built =>
    let amountOf (storage : WalletStorage ℤ) := (storage.getUnconfirmedBalanceFor XELIS_ASSET).toOption.map fun known => known.1.amount
    match fromTx (fun _ => 0) richStorage (unsigned.finalize plainProver.sign) true with
    | .error _ => none
    | .ok rebuilt =>
      let afterRebuilt := rebuilt.applyChanges richStorage
      let afterBuilt := (built.setTxHashBuilt 0).applyChanges richStorage
      some ((afterRebuilt.getUnconfirmedNonce, amountOf afterRebuilt), afterBuilt.getUnconfirmedNonce, amountOf afterBuilt)

/-- The rebuilt state gives the nonce of the burn to the next transaction, and the amount from before it. -/
theorem fromTx_burn : pendingOf plainBurn = some ((0, some (10 ^ 15)), 1, some (10 ^ 15 - 1 - 20000)) := by decide +kernel

def tokenAsset : Hash := 7

def spentBalance : Balance ℤ := { amount := 5, ciphertext := .decompressed ⟨5, 0⟩ }

/-- As it is read from the chain. -/
def confirmedBalance : Balance ℤ := { amount := 5, ciphertext := .compressed ⟨5, 0⟩ }

/-- A transaction spends two assets. Then the balance of one of them is confirmed, and once more. -/
def confirmations : List (PendingOp ℤ) :=
  [.applyChanges (((TransactionBuilderState.new true { hash := 0, topoheight := 0 } 1).addBalance XELIS_ASSET spentBalance).addBalance
    tokenAsset spentBalance), .setBalanceFor XELIS_ASSET confirmedBalance, .setBalanceFor XELIS_ASSET confirmedBalance]

def runOf (ops : List (PendingOp ℤ)) : PendingRun ℤ :=
  ops.foldl (PendingRun.step taggedCipher (BitVec.ofInt 256)) (.start richStorage)

/-- What is asked of the third step. -/
theorem confirmed_gone : (runOf (confirmations.take 2)).storage.unconfirmedBalances[XELIS_ASSET]?.isNone ∧
    ((runOf (confirmations.take 2)).latest XELIS_ASSET).map (fun last => last.ciphertext.compress (BitVec.ofInt 256)) =
      some ⟨5, 0⟩ := by decide +kernel

theorem pending_agreement_burn : (∃ unsigned state', plainBurn.buildUnsigned plainProver richState = .ok unsigned state' ∧
    ¬ ∃ rebuilt, fromTx (fun _ => 0) richStorage (unsigned.finalize plainProver.sign) true = .ok rebuilt ∧
      Agrees plainBurn.data.usedAssets richStorage rebuilt (state'.setTxHashBuilt 0)) ∧
    ∀ before after, confirmations = before ++ after → (runOf before).Answers (BitVec.ofInt 256) := by
  have hboth := pending_agreement plainProver plainBurn richState (fun _ => 0) [] true richStorage
    taggedCipher (BitVec.ofInt 256) confirmations
  constructor
  · cases hbuild : plainBurn.buildUnsigned plainProver richState with
    | error e state' =>
      have hsome : (measuresOf plainBurn).isSome := by decide +kernel
      unfold measuresOf at hsome
      rw [hbuild] at hsome
      cases hsome
    | ok unsigned state' => exact ⟨unsigned, state', rfl, hboth.1 unsigned state' hbuild⟩
  · refine hboth.2.mpr fun before op after heq => ?_
    rcases before with _ | ⟨o₁, _ | ⟨o₂, _ | ⟨o₃, rest⟩⟩⟩
    · obtain ⟨rfl, -⟩ := List.cons.inj heq
      exact trivial
    · obtain ⟨rfl, hrest⟩ := List.cons.inj heq
      obtain ⟨rfl, -⟩ := List.cons.inj hrest
      intro last hlatest hgone
      have hthere : (runOf (confirmations.take 1)).storage.unconfirmedBalances[XELIS_ASSET]?.isSome := by decide +kernel
      exact absurd hthere (Option.not_isSome_iff_eq_none.mpr hgone)
    · obtain ⟨rfl, hrest⟩ := List.cons.inj heq
      obtain ⟨rfl, hthird⟩ := List.cons.inj hrest
      obtain ⟨rfl, -⟩ := List.cons.inj hthird
      intro last hlatest hgone
      have hlast : (runOf (confirmations.take 2)).latest XELIS_ASSET = some last := hlatest
      have hcompressed := confirmed_gone.2
      rw [hlast] at hcompressed
      exact (Option.some.inj hcompressed).symm
    · have hlen := congrArg List.length heq
      simp [confirmations] at hlen

end Samples

end Xelis.Wallet
