import Xelis.Lib.Exec
import Xelis.Wallet.Entry

namespace Xelis.Wallet

open Lib (FiniteMap Exec)
open Lib.Codec (KeyOrder)
open Wire (DataValue DataElement)

inductive WalletError where
  | invalidEncryptedValue
  | cryptoError
  /-- Data was expected under this key. -/
  | missingData (key : Hash)
  | reader (error : ReaderError)
  | arithmeticOverflow
  | decompression
  deriving DecidableEq

def NONCE_SIZE : Nat := 24

/-- The cipher of the library: it takes every text up to its limit, what it returns is not empty, and is decrypted under the
same nonce. -/
structure Aead where
  encrypt : IVec → IVec → Option IVec
  decrypt : IVec → IVec → Option IVec
  limit : Nat
  encrypts : ∀ nonce text, nonce.length = NONCE_SIZE → text.length ≤ limit → (encrypt nonce text).isSome
  decrypt_encrypt : ∀ nonce text data, encrypt nonce text = some data → decrypt nonce data = some text
  encrypt_ne_nil : ∀ nonce text data, encrypt nonce text = some data → data ≠ []

structure Cipher where
  cipher : Aead
  salt : Option IVec
  hash : IVec → Hash

/-- A nonce drawn for one encryption. -/
abbrev XNonce := { bytes : IVec // bytes.length = NONCE_SIZE }

namespace Cipher

variable (cipher : Cipher)

def salted (value : IVec) : IVec := cipher.salt.getD [] ++ value

def encryptValueWithNonce (value : IVec) (nonce : XNonce) : Except WalletError IVec :=
  match cipher.cipher.encrypt nonce.1 (cipher.salted value) with
  | some data => .ok (nonce.1 ++ data)
  | none => .error .cryptoError

def unsalted (decrypted : IVec) : Except WalletError IVec :=
  match cipher.salt with
  | some salt => if decrypted.length < salt.length then .error .invalidEncryptedValue else .ok (decrypted.drop salt.length)
  | none => .ok decrypted

/-- The nonce stands in front of the encrypted data. -/
def decryptValue (encrypted : IVec) : Except WalletError IVec :=
  if encrypted.length ≤ 24 then .error .invalidEncryptedValue
  else
    match cipher.cipher.decrypt (encrypted.take 24) (encrypted.drop 24) with
    | some decrypted => cipher.unsalted decrypted
    | none => .error .cryptoError

def hashKey (key : Hash) : Hash := cipher.hash (cipher.salted (writeHash key))

theorem unsalted_salted (value : IVec) : cipher.unsalted (cipher.salted value) = .ok value := by
  unfold unsalted salted
  cases cipher.salt with
  | none => rfl
  | some salt => simp

theorem encryptValueWithNonce_ok {value : IVec} (nonce : XNonce) (h : (cipher.salted value).length ≤ cipher.cipher.limit) :
    ∃ data, cipher.encryptValueWithNonce value nonce = .ok data ∧ cipher.decryptValue data = .ok value := by
  obtain ⟨data, hdata⟩ := Option.isSome_iff_exists.mp (cipher.cipher.encrypts nonce.1 _ nonce.2 h)
  refine ⟨nonce.1 ++ data, by rw [encryptValueWithNonce, hdata], ?_⟩
  have hlen : nonce.1.length = 24 := nonce.2
  have hpos := List.length_pos_of_ne_nil (cipher.cipher.encrypt_ne_nil _ _ _ hdata)
  unfold decryptValue
  rw [if_neg (by rw [List.length_append]; omega), List.take_left' hlen, List.drop_left' hlen,
    cipher.cipher.decrypt_encrypt _ _ _ hdata]
  exact cipher.unsalted_salted value

end Cipher

/-- What is known of the last transactions that were built and not confirmed yet. -/
structure TxCache where
  nonce : Nonce
  reference : Reference
  lastTxHashCreated : Option Hash

/-- The trees of the history. The ids are kept as eight bytes, most significant first, so the order of the keys is the one of the
numbers. -/
structure EncryptedStorage where
  transactions : FiniteMap Hash IVec
  transactionsIndexes : FiniteMap Nat Hash
  txCache : Option TxCache

/-- What `get_filtered_transactions` is asked for. -/
structure Filter where
  address : Option PublicKey
  asset : Option Hash
  minTopoheight : Option TopoHeight
  maxTopoheight : Option TopoHeight
  acceptIncoming : Bool
  acceptOutgoing : Bool
  acceptCoinbase : Bool
  acceptBurn : Bool
  query : Option (DataElement → Bool)
  limit : Option Nat
  skip : Option Nat

namespace Filter

/-- Everything is listed. -/
def all : Filter where
  address := none
  asset := none
  minTopoheight := none
  maxTopoheight := none
  acceptIncoming := true
  acceptOutgoing := true
  acceptCoinbase := true
  acceptBurn := true
  query := none
  limit := none
  skip := none

variable (filter : Filter)

def ofAsset (asset : Hash) : Bool := filter.asset.all (· == asset)

def ofAddress (key : PublicKey) : Bool := filter.address.all (· == key)

/-- The part of an entry that is asked for, with the extra data of its transfers when it is made of transfers. -/
def select : EntryData → Option (EntryData × Option (List (Option PlaintextExtraData)))
  | .coinbase reward =>
    if filter.acceptCoinbase && filter.ofAsset XELIS_ASSET then some (.coinbase reward, none) else none
  | .burn asset amount fee nonce =>
    if filter.acceptBurn && filter.ofAsset asset then some (.burn asset amount fee nonce, none) else none
  | .incoming sender transfers =>
    if filter.acceptIncoming && filter.ofAddress sender then
      let kept := transfers.filter (fun transfer => filter.ofAsset transfer.asset)
      some (.incoming sender kept, some (kept.map TransferIn.extraData))
    else none
  | .outgoing transfers fee nonce =>
    if filter.acceptOutgoing then
      let kept := transfers.filter (fun transfer => filter.ofAddress transfer.destination && filter.ofAsset transfer.asset)
      some (.outgoing kept fee nonce, some (kept.map TransferOut.extraData))
    else none
  | .multiSig participants threshold fee nonce =>
    if filter.acceptOutgoing && filter.address.all (fun key => decide (key ∈ participants)) then
      some (.multiSig participants threshold fee nonce, none)
    else none
  | .invokeContract contract deposits chunkId fee maxGas nonce =>
    if filter.acceptOutgoing && filter.asset.all (fun asset => deposits.any (fun e => e.1 == asset)) then
      some (.invokeContract contract (deposits.filter (fun e => filter.ofAsset e.1)) chunkId fee maxGas nonce, none)
    else none
  | .deployContract fee nonce => if filter.acceptOutgoing then some (.deployContract fee nonce, none) else none

/-- The transfers whose extra data is asked for; an entry without transfers has none to offer. -/
def queried (transfers : Option (List (Option PlaintextExtraData))) : Option (Option (List (Option PlaintextExtraData))) :=
  match filter.query with
  | none => some transfers
  | some query => transfers.map fun ts => some (ts.filter (fun extra => (extra.bind PlaintextExtraData.data).any query))

/-- Entries made of transfers are kept while one transfer is left. -/
def listed (entry : TransactionEntry) : Option (List (Option PlaintextExtraData)) → List TransactionEntry
  | some (_ :: _) => [entry]
  | some [] => []
  | none => [entry]

end Filter

namespace EncryptedStorage

variable (cipher : Cipher) (order : KeyOrder DataValue) (s : EncryptedStorage)

def empty : EncryptedStorage where
  transactions := ∅
  transactionsIndexes := ∅
  txCache := none

def fromBytes (bytes : IVec) : Except WalletError TransactionEntry :=
  match TransactionEntry.read order bytes with
  | .ok (entry, _) => .ok entry
  | .error e => .error (.reader e)

def internalLoad (key : Hash) : Except WalletError (Option TransactionEntry) :=
  match s.transactions[key]? with
  | some data => do
    let bytes ← cipher.decryptValue data
    return some (← fromBytes order bytes)
  | none => .ok none

def loadFromDiskWithKey (key : Hash) : Except WalletError TransactionEntry := do
  match ← s.internalLoad cipher order key with
  | some entry => return entry
  | none => throw (.missingData key)

def hasTransaction (hash : Hash) : Bool := s.transactions.contains (cipher.hashKey hash)

def getLastTransactionId : Option Nat := s.transactionsIndexes.toList.getLast?.map Prod.fst

def increment (n : Nat) : Except WalletError Nat := if n + 1 < U64_RANGE then .ok (n + 1) else .error .arithmeticOverflow

def getNextTransactionId : Except WalletError Nat :=
  match s.getLastTransactionId with
  | some id => increment id
  | none => .ok 0

/-- The bisection goes on to the left of an entry at the topoheight. -/
def searchLoop (topoheight : TopoHeight) (left right : Nat) (result : Option Nat) : Except WalletError (Option Nat) :=
  if left < right then
    let mid := left + (right - left) / 2
    match s.transactionsIndexes[mid]? with
    | none => .ok none
    | some key =>
      match s.loadFromDiskWithKey cipher order key with
      | .error e => .error e
      | .ok entry =>
        match compare entry.topoheight topoheight with
        | .eq => searchLoop topoheight left mid (some mid)
        | .lt => searchLoop topoheight (mid + 1) right result
        | .gt => searchLoop topoheight left mid result
  else .ok result
termination_by right - left

def searchTransactionIdForTopoheight (topoheight : TopoHeight) (left right : Option Nat) : Except WalletError (Option Nat) :=
  match right.or s.getLastTransactionId with
  | some right => s.searchLoop cipher order topoheight (left.getD 0) right none
  | none => .ok none

/-- The entries of the index whose id is in the half open range, in the order of the ids. -/
def range (min max : Option Nat) : List (Nat × Hash) :=
  s.transactionsIndexes.toList.filter (fun e => min.all (· ≤ e.1) && max.all (e.1 < ·))

def deleteIndexed (e : Nat × Hash) : EncryptedStorage :=
  { s with transactions := s.transactions.erase e.2, transactionsIndexes := s.transactionsIndexes.erase e.1 }

def deleteTransactionsAboveTopoheight (topoheight : TopoHeight) : Exec WalletError EncryptedStorage Unit := do
  let s ← get
  let above ← Exec.ofExcept (increment topoheight)
  let min ← Exec.ofExcept (s.searchTransactionIdForTopoheight cipher order above none none)
  set ((s.range min none).foldl deleteIndexed s)

def deleteTransactionsAtOrAboveTopoheight (topoheight : TopoHeight) : Exec WalletError EncryptedStorage Unit := do
  let s ← get
  let min ← Exec.ofExcept (s.searchTransactionIdForTopoheight cipher order topoheight none none)
  set ((s.range min none).reverse.foldl deleteIndexed s)

/-- Where the listing starts, and the first id it leaves out. -/
def bounds (filter : Filter) : Except WalletError (Option Nat × Option Nat) :=
  match filter.minTopoheight, filter.maxTopoheight with
  | some min, some max => do
    let min ← s.searchTransactionIdForTopoheight cipher order min none none
    let next ← increment max
    return (min, ← s.searchTransactionIdForTopoheight cipher order next min none)
  | some min, none => return (← s.searchTransactionIdForTopoheight cipher order min none none, none)
  | none, some max => do
    let next ← increment max
    return (none, ← s.searchTransactionIdForTopoheight cipher order next none none)
  | none, none => .ok (none, none)

/-- An entry that is passed over does not count for the limit, one whose transfers are all left out does. -/
def collect (filter : Filter) : List Hash → List TransactionEntry → Except WalletError (List TransactionEntry)
  | [], transactions => .ok transactions
  | key :: rest, transactions => do
    let entry ← s.loadFromDiskWithKey cipher order key
    match (filter.select entry.entry).bind fun p => (filter.queried p.2).map (Prod.mk p.1) with
    | none => collect filter rest transactions
    | some (data, transfers) =>
      let transactions := transactions ++ Filter.listed { entry with entry := data } transfers
      if filter.limit.any (· ≤ transactions.length) then return transactions else collect filter rest transactions

def getFilteredTransactions (filter : Filter) : Except WalletError (List TransactionEntry) := do
  let (min, max) ← s.bounds cipher order filter
  s.collect cipher order filter (((s.range min max).reverse.drop (filter.skip.getD 0)).map Prod.snd) []

def getTransactions : Except WalletError (List TransactionEntry) := s.getFilteredTransactions cipher order .all

/-- The index keeps the id of the transaction. -/
def deleteTransaction (hash : Hash) : Exec WalletError EncryptedStorage Unit :=
  modify fun s => { s with transactions := s.transactions.erase (cipher.hashKey hash) }

def deleteTransactions : Exec WalletError EncryptedStorage Unit :=
  modify fun s => { s with transactions := ∅, transactionsIndexes := ∅ }

/-- The pending transaction is forgotten once it is saved. -/
def confirmed (hash : Hash) : EncryptedStorage :=
  if s.txCache.any (fun c => c.lastTxHashCreated == some hash) then { s with txCache := none } else s

def saveTransaction (nonce : XNonce) (hash : Hash) (transaction : TransactionEntry) : Exec WalletError EncryptedStorage Unit := do
  modify fun s => s.confirmed hash
  let s ← get
  let id ← Exec.ofExcept s.getNextTransactionId
  let key := cipher.hashKey hash
  modify fun s => { s with transactionsIndexes := s.transactionsIndexes.insert id key }
  let data ← Exec.ofExcept (cipher.encryptValueWithNonce transaction.write nonce)
  modify fun s => { s with transactions := s.transactions.insert key data }

/-- The two ends move inward and exchange what they point to. -/
def reverseLoop (low high : Nat) (indexes : FiniteMap Nat Hash) : FiniteMap Nat Hash :=
  if low < high then
    match indexes[low]?, indexes[high]? with
    | some lowHash, some highHash => reverseLoop (low + 1) (high - 1) ((indexes.insert low highHash).insert high lowHash)
    | _, _ => indexes
  else indexes
termination_by high - low

def reverseTransactionsIndexes (id : Option Nat) : Exec WalletError EncryptedStorage Unit := do
  let s ← get
  match s.getLastTransactionId with
  | none => return
  | some last =>
    let low ← Exec.ofExcept ((id.map increment).getD (.ok 0))
    set { s with transactionsIndexes := reverseLoop low last s.transactionsIndexes }

end EncryptedStorage

def taggedCipher : Cipher where
  cipher :=
    { encrypt := fun _ text => some (text ++ [0])
      decrypt := fun _ data => some data.dropLast
      limit := 2 ^ 38
      encrypts := fun _ _ _ _ => rfl
      decrypt_encrypt := by
        rintro nonce text data ⟨⟩
        simp
      encrypt_ne_nil := by
        rintro nonce text data ⟨⟩
        simp }
  salt := none
  hash := fun bytes => BitVec.ofNat 256 (Lib.ofBeBytes bytes)

end Xelis.Wallet
