import Mathlib.Data.List.Dedup
import Xelis.Common.Types
import Xelis.Lib.Uint

/-! Error values. Only the variants that a modelled function can produce are kept. -/

namespace Xelis

inductive ReaderError where
  | invalidSize
  | invalidValue
  | invalidHex
  | errorTryInto
  | any
  deriving DecidableEq, Repr

/-- What was being read when a key was missing. -/
inductive DiskContext where
  | dataLen
  | deleteData
  | tips
  | prunedTopoHeight
  | topTopoHeight
  | assetsCount
  | txsCount
  | blocksCount
  | accountsCount
  | blocksExecutionOrderCount
  | contractsCount
  | lastNonce
  | lastTopoheightForNonce
  | nonceAtTopoHeight (topoheight : TopoHeight)
  | balanceAtTopoHeight (topoheight : TopoHeight)
  | accountRegistrationTopoHeight
  | multisig
  | contractTopoHeight
  | contractData
  | contractDataTopoHeight
  | contractBalance
  | assetAtTopoHeight (topoheight : TopoHeight)
  | assetSupplyTopoHeight
  | assetSupplyAtTopoHeight (topoheight : TopoHeight)
  | getTopoHeightForHash
  | getBlockHashAtTopoHeight (topoheight : TopoHeight)
  | getTransaction
  | blockRewardAtTopoHeight (topoheight : TopoHeight)
  | supplyAtTopoHeight (topoheight : TopoHeight)
  | burnedSupplyAtTopoHeight (topoheight : TopoHeight)
  | getBlockHeaderByHash
  | difficultyForBlockHash
  | cumulativeDifficultyForBlockHash
  | estimatedCovarianceForBlockHash
  | blocksAtHeight (height : Nat)
  | searchBlockPositionInOrder
  | versionedBalance
  | versionedNonce
  | versionedMultisig
  | versionedContract
  | versionedContractData
  | assetSupply
  | asset
  deriving DecidableEq, Repr

inductive BlockchainError where
  | commitPointAlreadyStarted
  | commitPointNotStarted
  | notEnoughBlocks
  | errorOnReader (e : ReaderError)
  | notFoundOnDisk (context : DiskContext)
  | corruptedData
  | noBalanceChanges (key : PublicKey) (topoheight : TopoHeight) (asset : Hash)
  | assetNotFound (asset : Hash)
  | accountNotFound (key : PublicKey)
  | noPreviousBalanceFound
  | noTxSender (key : PublicKey)
  | contractNotFound (contract : Hash)
  | contractAlreadyExists
  | invalidTxVersion
  | invalidTxFee (expected got : Nat)
  | invalidReferenceTopoheight (reference current : TopoHeight)
  | noNonce (key : PublicKey)
  | txNotFound (tx : Hash)
  | txTooBig (size limit : Nat)
  | txAlreadyInMempool (tx : Hash)
  | txAlreadyInBlockchain (tx : Hash)
  | txNonceAlreadyUsed (nonce : Nonce) (tx : Hash)
  | invalidTxNonceMempoolCache (nonce min max : Nonce)
  | invalidTxInBlock (tx : Hash)
  | deadTxFromStableHeight (block tx : Hash) (stableHeight : Nat) (executor : Hash)
  | deadTxFromTips (block tx : Hash)
  | expectedTips
  | invalidBlockVersion
  | alreadyInChain
  | timestampIsInFuture (now timestamp : TimestampMillis)
  | timestampIsLessThanParent (timestamp : TimestampMillis)
  | invalidTipsCount (block : Hash) (count : Nat)
  | invalidTipsNotFound (block tip : Hash)
  | invalidTipsDifficulty (block tip : Hash)
  | blockHeightZeroNotAllowed
  | invalidBlockHeight (expected got : Nat)
  | invalidBlockHeightStableHeight
  | invalidBlockSize (limit size : Nat)
  | invalidReachability
  | invalidBlockTxs (expected got : Nat)
  | blockDeviation
  | invalidDifficulty
  | difficultyCannotBeZero
  /-- Checked arithmetic that does not fit: the source panics. -/
  | panicked (fault : Lib.Uint.Fault)
  /-- A chain of versions that never ends: the source does not return. -/
  | endlessChain
  deriving DecidableEq, Repr

/-- Byte encodings used by the storage layer. -/
class Serializer (T : Type) where
  toBytes : T → IVec
  fromBytes : IVec → Except ReaderError T

/-- Eight big-endian bytes; a longer input is read from its start. -/
instance u64Serializer : Serializer UInt64 where
  toBytes n := (List.range 8).map (fun i => UInt8.ofNat (n.toNat / 256 ^ (7 - i)))
  fromBytes bytes :=
    if bytes.length < 8 then .error .invalidSize
    else .ok (UInt64.ofNat ((bytes.take 8).foldl (fun acc b => acc * 256 + b.toNat) 0))

def hashToBytes (h : Hash) : IVec := (List.range 32).map (fun i => UInt8.ofNat (h.toNat / 256 ^ (31 - i)))

def hashOfBytes (bytes : IVec) : Hash := BitVec.ofNat 256 (bytes.foldl (fun acc b => acc * 256 + b.toNat) 0)

/-- Hashes written one after the other, without a length: repeated ones are refused when read. -/
instance tipsSerializer : Serializer Tips where
  toBytes tips := tips.flatMap hashToBytes
  fromBytes bytes :=
    if bytes.length % 32 ≠ 0 then .error .invalidSize
    else
      let count := bytes.length / 32
      let tips := ((List.range count).map (fun i => hashOfBytes ((bytes.drop (32 * i)).take 32))).dedup
      if tips.length ≠ count then .error .invalidSize else .ok tips

end Xelis
