import Xelis.Wire.Account

namespace Xelis.Wallet

open Lib (Codec)
open Lib.Codec (readEntries writeEntry KeyOrder)
open Lib.Reader (Reads readMany)
open Wire

inductive PlaintextFlag where
  | priv
  | pub
  | proprietary
  | failed
  deriving DecidableEq

namespace PlaintextFlag

def write : PlaintextFlag → IVec
  | priv => writeU8 0
  | pub => writeU8 1
  | proprietary => writeU8 2
  | failed => writeU8 3

def read : Reader PlaintextFlag := do
  match ← readU8 with
  | 0 => return priv
  | 1 => return pub
  | 2 => return proprietary
  | 3 => return failed
  | _ => throw .invalidValue

theorem read_reads (flag : PlaintextFlag) : Reads read flag.write flag := by
  cases flag <;> exact fun rest => rfl

end PlaintextFlag

structure PlaintextExtraData where
  sharedKey : Option Hash
  data : Option DataElement
  flag : PlaintextFlag

structure TransferOut where
  destination : PublicKey
  asset : Hash
  amount : Nat
  extraData : Option PlaintextExtraData

structure TransferIn where
  asset : Hash
  amount : Nat
  extraData : Option PlaintextExtraData

inductive EntryData where
  | coinbase (reward : Nat)
  | burn (asset : Hash) (amount fee nonce : Nat)
  | incoming (sender : PublicKey) (transfers : List TransferIn)
  | outgoing (transfers : List TransferOut) (fee nonce : Nat)
  | multiSig (participants : List PublicKey) (threshold fee nonce : Nat)
  | invokeContract (contract : Hash) (deposits : List (Hash × Nat)) (chunkId fee maxGas nonce : Nat)
  | deployContract (fee nonce : Nat)

structure TransactionEntry where
  hash : Hash
  topoheight : TopoHeight
  timestamp : TimestampMillis
  entry : EntryData

variable (order : KeyOrder DataValue)

namespace PlaintextExtraData

def write (extra : PlaintextExtraData) : IVec :=
  writeOption writeHash extra.sharedKey ++ (writeOption DataElement.write extra.data ++ extra.flag.write)

def read : Reader PlaintextExtraData := do
  let sharedKey ← readOption readHash
  let data ← readOption (DataElement.read order false)
  let flag ← PlaintextFlag.read
  return { sharedKey, data, flag }

def Valid (extra : PlaintextExtraData) : Prop := ∀ element ∈ extra.data, element.Valid order

variable {order}

theorem read_reads {extra : PlaintextExtraData} (h : extra.Valid order) : Reads (read order) extra.write extra := by
  refine (readOption_reads fun key _ => readHash_reads key).bind ?_
  refine (readOption_reads fun element helement => (DataElement.codec order).reads false element (h element helement)).bind ?_
  exact extra.flag.read_reads.map fun flag => { extra with flag }

end PlaintextExtraData

namespace TransferOut

def write (transfer : TransferOut) : IVec :=
  writeHash transfer.destination ++ (writeHash transfer.asset ++ (writeU64 transfer.amount ++
    writeOption PlaintextExtraData.write transfer.extraData))

def read : Reader TransferOut := do
  let destination ← readHash
  let asset ← readHash
  let amount ← readU64
  let extraData ← readOption (PlaintextExtraData.read order)
  return { destination, asset, amount, extraData }

structure Valid (transfer : TransferOut) : Prop where
  amount : transfer.amount < U64_RANGE
  extraData : ∀ extra ∈ transfer.extraData, extra.Valid order

variable {order}

theorem read_reads {transfer : TransferOut} (h : transfer.Valid order) : Reads (read order) transfer.write transfer := by
  refine (readHash_reads transfer.destination).bind ?_
  refine (readHash_reads transfer.asset).bind ?_
  refine (readU64_reads h.amount).bind ?_
  exact (readOption_reads fun extra hextra => PlaintextExtraData.read_reads (h.extraData extra hextra)).map fun extraData => { transfer with extraData }

end TransferOut

namespace TransferIn

def write (transfer : TransferIn) : IVec :=
  writeHash transfer.asset ++ (writeU64 transfer.amount ++ writeOption PlaintextExtraData.write transfer.extraData)

def read : Reader TransferIn := do
  let asset ← readHash
  let amount ← readU64
  let extraData ← readOption (PlaintextExtraData.read order)
  return { asset, amount, extraData }

structure Valid (transfer : TransferIn) : Prop where
  amount : transfer.amount < U64_RANGE
  extraData : ∀ extra ∈ transfer.extraData, extra.Valid order

variable {order}

theorem read_reads {transfer : TransferIn} (h : transfer.Valid order) : Reads (read order) transfer.write transfer := by
  refine (readHash_reads transfer.asset).bind ?_
  refine (readU64_reads h.amount).bind ?_
  exact (readOption_reads fun extra hextra => PlaintextExtraData.read_reads (h.extraData extra hextra)).map fun extraData => { transfer with extraData }

end TransferIn

namespace EntryData

/-- A key that is there already is left where it stands. -/
def readParticipants : Nat → List PublicKey → Reader (List PublicKey)
  | 0, participants => pure participants
  | n + 1, participants => do
    let key ← readHash
    readParticipants n (if key ∈ participants then participants else participants ++ [key])

def readDeposits (size : Nat) : Reader (List (Hash × Nat)) :=
  readEntries false .invalidValue (fun a b => decide (a = b)) readHash readU64 size []

/-- The counts are cut to a byte. -/
def write : EntryData → IVec
  | coinbase reward => writeU8 0 ++ writeU64 reward
  | burn asset amount fee nonce => writeU8 1 ++ (writeHash asset ++ (writeU64 amount ++ (writeU64 fee ++ writeU64 nonce)))
  | incoming sender transfers =>
    writeU8 2 ++ (writeHash sender ++ (writeU8 transfers.length ++ transfers.flatMap TransferIn.write))
  | outgoing transfers fee nonce =>
    writeU8 3 ++ (writeU8 transfers.length ++ (transfers.flatMap TransferOut.write ++ (writeU64 fee ++ writeU64 nonce)))
  | multiSig participants threshold fee nonce =>
    writeU8 4 ++ (writeU8 participants.length ++ (participants.flatMap writeHash ++ (writeU8 threshold ++
      (writeU64 fee ++ writeU64 nonce))))
  | invokeContract contract deposits chunkId fee maxGas nonce =>
    writeU8 5 ++ (writeHash contract ++ (writeU16 chunkId ++ (writeU8 deposits.length ++
      (deposits.flatMap (writeEntry writeHash writeU64) ++ (writeU64 fee ++ (writeU64 maxGas ++ writeU64 nonce))))))
  | deployContract fee nonce => writeU8 6 ++ (writeU64 fee ++ writeU64 nonce)

def readBurn : Reader EntryData := do
  let asset ← readHash
  let amount ← readU64
  let fee ← readU64
  let nonce ← readU64
  return burn asset amount fee nonce

def readIncoming : Reader EntryData := do
  let sender ← readHash
  let size ← readU8
  let transfers ← readMany (TransferIn.read order) size
  return incoming sender transfers

def readOutgoing : Reader EntryData := do
  let size ← readU8
  let transfers ← readMany (TransferOut.read order) size
  let fee ← readU64
  let nonce ← readU64
  return outgoing transfers fee nonce

def readMultiSig : Reader EntryData := do
  let size ← readU8
  let participants ← readParticipants size []
  let threshold ← readU8
  let fee ← readU64
  let nonce ← readU64
  return multiSig participants threshold fee nonce

def readInvokeContract : Reader EntryData := do
  let contract ← readHash
  let chunkId ← readU16
  let size ← readU8
  let deposits ← readDeposits size
  let fee ← readU64
  let maxGas ← readU64
  let nonce ← readU64
  return invokeContract contract deposits chunkId fee maxGas nonce

def readDeployContract : Reader EntryData := do
  let fee ← readU64
  let nonce ← readU64
  return deployContract fee nonce

def read : Reader EntryData := do
  match ← readU8 with
  | 0 => return coinbase (← readU64)
  | 1 => readBurn
  | 2 => readIncoming order
  | 3 => readOutgoing order
  | 4 => readMultiSig
  | 5 => readInvokeContract
  | 6 => readDeployContract
  | _ => throw .invalidValue

/-- What the types of the source admit, with as many parts as a transaction can have: at most 255. -/
def Valid : EntryData → Prop
  | coinbase reward => reward < U64_RANGE
  | burn _ amount fee nonce => amount < U64_RANGE ∧ fee < U64_RANGE ∧ nonce < U64_RANGE
  | incoming _ transfers => transfers.length < 2 ^ 8 ∧ ∀ transfer ∈ transfers, transfer.Valid order
  | outgoing transfers fee nonce =>
    transfers.length < 2 ^ 8 ∧ (∀ transfer ∈ transfers, transfer.Valid order) ∧ fee < U64_RANGE ∧ nonce < U64_RANGE
  | multiSig participants threshold fee nonce =>
    participants.length < 2 ^ 8 ∧ participants.Nodup ∧ threshold < 2 ^ 8 ∧ fee < U64_RANGE ∧ nonce < U64_RANGE
  | invokeContract _ deposits chunkId fee maxGas nonce =>
    deposits.length < 2 ^ 8 ∧ (deposits.map Prod.fst).Nodup ∧ (∀ e ∈ deposits, e.2 < U64_RANGE) ∧ chunkId < 2 ^ 16 ∧
      fee < U64_RANGE ∧ maxGas < U64_RANGE ∧ nonce < U64_RANGE
  | deployContract fee nonce => fee < U64_RANGE ∧ nonce < U64_RANGE

variable {order}

theorem readParticipants_reads (participants before : List PublicKey) (h : (before ++ participants).Nodup) :
    Reads (readParticipants participants.length before) (participants.flatMap writeHash) (before ++ participants) := by
  induction participants generalizing before with
  | nil =>
    rw [List.append_nil]
    exact Reads.pure before
  | cons key keys ih =>
    have hnew : key ∉ before := fun hmem => List.disjoint_of_nodup_append h hmem List.mem_cons_self
    rw [List.append_cons] at h ⊢
    rw [List.flatMap_cons]
    refine (readHash_reads key).bind ?_
    rw [if_neg hnew]
    exact ih (before ++ [key]) h

theorem readDeposits_reads {deposits : List (Hash × Nat)} (hnodup : (deposits.map Prod.fst).Nodup)
    (h : ∀ e ∈ deposits, e.2 < U64_RANGE) :
    Reads (readDeposits deposits.length) (deposits.flatMap (writeEntry writeHash writeU64)) deposits :=
  Lib.Codec.readEntries_reads hash_codec u64_codec false (fun e he => ⟨trivial, h e he⟩) []
    (Lib.Codec.freshKeys_iff_nodup.mpr hnodup)

theorem read_reads {data : EntryData} (h : data.Valid order) : Reads (read order) data.write data := by
  cases data with
  | coinbase reward => exact (readU8_reads (n := 0) (by decide)).bind ((readU64_reads h).map coinbase)
  | burn asset amount fee nonce =>
    obtain ⟨hamount, hfee, hnonce⟩ := h
    refine (readU8_reads (n := 1) (by decide)).bind ((readHash_reads asset).bind ((readU64_reads hamount).bind ?_))
    exact (readU64_reads hfee).bind ((readU64_reads hnonce).map (burn asset amount fee))
  | incoming sender transfers =>
    obtain ⟨hlen, hvalid⟩ := h
    refine (readU8_reads (n := 2) (by decide)).bind ((readHash_reads sender).bind ((readU8_reads hlen).bind ?_))
    exact (Lib.Reader.readMany_reads fun transfer ht => TransferIn.read_reads (hvalid transfer ht)).map (incoming sender)
  | outgoing transfers fee nonce =>
    obtain ⟨hlen, hvalid, hfee, hnonce⟩ := h
    refine (readU8_reads (n := 3) (by decide)).bind ((readU8_reads hlen).bind ?_)
    refine (Lib.Reader.readMany_reads fun transfer ht => TransferOut.read_reads (hvalid transfer ht)).bind ?_
    exact (readU64_reads hfee).bind ((readU64_reads hnonce).map (outgoing transfers fee))
  | multiSig participants threshold fee nonce =>
    obtain ⟨hlen, hnodup, hthreshold, hfee, hnonce⟩ := h
    refine (readU8_reads (n := 4) (by decide)).bind ((readU8_reads hlen).bind ?_)
    refine (readParticipants_reads participants [] hnodup).bind ((readU8_reads hthreshold).bind ?_)
    exact (readU64_reads hfee).bind ((readU64_reads hnonce).map (multiSig participants threshold fee))
  | invokeContract contract deposits chunkId fee maxGas nonce =>
    obtain ⟨hlen, hnodup, hamounts, hchunk, hfee, hgas, hnonce⟩ := h
    refine (readU8_reads (n := 5) (by decide)).bind ((readHash_reads contract).bind ((readU16_reads hchunk).bind ?_))
    refine (readU8_reads hlen).bind ((readDeposits_reads hnodup hamounts).bind ((readU64_reads hfee).bind ?_))
    exact (readU64_reads hgas).bind ((readU64_reads hnonce).map (invokeContract contract deposits chunkId fee maxGas))
  | deployContract fee nonce =>
    refine (readU8_reads (n := 6) (by decide)).bind ((readU64_reads h.1).bind ?_)
    exact (readU64_reads h.2).map (deployContract fee)

end EntryData

namespace TransactionEntry

def write (entry : TransactionEntry) : IVec :=
  writeHash entry.hash ++ (writeU64 entry.topoheight ++ (writeU64 entry.timestamp ++ entry.entry.write))

def read : Reader TransactionEntry := do
  let hash ← readHash
  let topoheight ← readU64
  let timestamp ← readU64
  let entry ← EntryData.read order
  return { hash, topoheight, timestamp, entry }

structure Valid (entry : TransactionEntry) : Prop where
  topoheight : entry.topoheight < U64_RANGE
  timestamp : entry.timestamp < U64_RANGE
  entry : entry.entry.Valid order

variable {order}

theorem read_reads {entry : TransactionEntry} (h : entry.Valid order) : Reads (read order) entry.write entry := by
  refine (readHash_reads entry.hash).bind ((readU64_reads h.topoheight).bind ((readU64_reads h.timestamp).bind ?_))
  exact (EntryData.read_reads h.entry).map fun data => { entry with entry := data }

end TransactionEntry

end Xelis.Wallet
