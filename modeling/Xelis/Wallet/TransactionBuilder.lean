import Mathlib.Data.Nat.Log
import Xelis.Transaction.Verify
import Xelis.Wire.Transaction

namespace Xelis.Wallet

open Wire (Address DataElement CurveScalar RangeProof)

def RISTRETTO_COMPRESSED_SIZE : Nat := 32

def SCALAR_SIZE : Nat := 32

def BULLET_PROOF_SIZE : Nat := 64

def BYTES_PER_KB : Nat := 1024

def FEE_PER_KB : Nat := 10000

def FEE_PER_ACCOUNT_CREATION : Nat := 100000

def FEE_PER_TRANSFER : Nat := 5000

/-- Every kilobyte that is begun, every output, every new account and every signature of a multisig has its price. -/
def calculateTxFee (txSize outputCount newAddresses multisig : Nat) : Nat :=
  let sizeInKb := txSize / BYTES_PER_KB + if txSize % BYTES_PER_KB ≠ 0 then 1 else 0
  sizeInKb * FEE_PER_KB + outputCount * FEE_PER_TRANSFER + newAddresses * FEE_PER_ACCOUNT_CREATION + multisig * FEE_PER_TRANSFER

theorem calculateTxFee_mono {txSize txSize' outputCount outputCount' newAddresses newAddresses' multisig multisig' : Nat}
    (hsize : txSize ≤ txSize') (houtputs : outputCount ≤ outputCount') (hnew : newAddresses ≤ newAddresses')
    (hmultisig : multisig ≤ multisig') :
    calculateTxFee txSize outputCount newAddresses multisig ≤ calculateTxFee txSize' outputCount' newAddresses' multisig' := by
  unfold calculateTxFee BYTES_PER_KB FEE_PER_KB FEE_PER_TRANSFER FEE_PER_ACCOUNT_CREATION
  have hkb : txSize / 1024 + (if txSize % 1024 ≠ 0 then 1 else 0) ≤ txSize' / 1024 + (if txSize' % 1024 ≠ 0 then 1 else 0) := by
    split <;> split <;> omega
  dsimp only
  omega

structure TransferBuilder where
  asset : Hash
  amount : Nat
  destination : Address
  extraData : Option DataElement
  encryptExtraData : Bool

structure MultiSigBuilder where
  participants : List Address
  threshold : Nat

structure ContractDepositBuilder where
  amount : Nat
  priv : Bool

structure InvokeContractBuilder (S R : Type) where
  contract : Hash
  maxGas : Nat
  chunkId : Nat
  parameters : List (Wire.ValueCell S R)
  deposits : List (Hash × ContractDepositBuilder)

structure DeployContractInvokeBuilder where
  maxGas : Nat
  deposits : List (Hash × ContractDepositBuilder)

/-- The module is given in hexadecimal. -/
structure DeployContractBuilder where
  module : String
  invoke : Option DeployContractInvokeBuilder

inductive TransactionTypeBuilder (S R : Type) where
  | transfers (outputs : List TransferBuilder)
  | burn (payload : BurnPayload)
  | multiSig (payload : MultiSigBuilder)
  | invokeContract (payload : InvokeContractBuilder S R)
  | deployContract (payload : DeployContractBuilder)

/-- The product with a multiplier is taken in floating point. -/
inductive FeeBuilder where
  | multiplier (scale : Nat → Nat)
  | value (fee : Nat)
  | boost (fee : Nat)

def FeeBuilder.default : FeeBuilder := .boost 0

structure TransactionBuilder (S R : Type) where
  version : TxVersion
  source : PublicKey
  requiredThresholds : Option Nat
  data : TransactionTypeBuilder S R
  feeBuilder : FeeBuilder

def getExtraData (address : Address) : Option DataElement :=
  match address.addrType with
  | .data element => some element
  | .normal => none

variable {S R : Type}

/-- The set of the assets a transaction commits to. The deposits of a constructor are not among them. -/
def TransactionTypeBuilder.usedAssets : TransactionTypeBuilder S R → List Hash
  | transfers outputs => (XELIS_ASSET :: outputs.map TransferBuilder.asset).dedup
  | burn payload => [XELIS_ASSET, payload.asset].dedup
  | invokeContract payload => (XELIS_ASSET :: payload.deposits.map Prod.fst).dedup
  | _ => [XELIS_ASSET]

section Sizes

def ExtraData.estimateSize (data : DataElement) : Nat := 2 + (2 + data.write.length) + RISTRETTO_COMPRESSED_SIZE * 2

def ExtraDataType.estimateSize (data : DataElement) (priv : Bool) : Nat :=
  if priv then ExtraData.estimateSize data + 1 else 1 + 2 + 2 + data.size

def TransferBuilder.estimateExtraData (version : TxVersion) (transfer : TransferBuilder) : Nat :=
  match transfer.extraData.or (getExtraData transfer.destination) with
  | some data =>
    if version = .v2 then ExtraDataType.estimateSize data transfer.encryptExtraData else ExtraData.estimateSize data
  | none => 0

def TransferBuilder.estimateSize (version : TxVersion) (transfer : TransferBuilder) : Nat :=
  32 + 32 + RISTRETTO_COMPRESSED_SIZE * 3 + (RISTRETTO_COMPRESSED_SIZE * 2 + SCALAR_SIZE * 2) + 1 +
    (if version ≠ .v0 then RISTRETTO_COMPRESSED_SIZE else 0) + transfer.estimateExtraData version

def ContractDepositBuilder.estimateSize (deposit : ContractDepositBuilder) : Nat :=
  if deposit.priv then RISTRETTO_COMPRESSED_SIZE * 3 + (RISTRETTO_COMPRESSED_SIZE * 3 + SCALAR_SIZE * 2) else 8

/-- The number of commitments and the size, with one byte for the number of deposits. -/
def estimateDepositsSize (deposits : List (Hash × ContractDepositBuilder)) : Nat × Nat :=
  ((deposits.filter (fun e => e.2.priv)).length, 1 + (deposits.map (fun e => 32 + 1 + e.2.estimateSize)).sum)

def MultiSigBuilder.estimateSize (payload : MultiSigBuilder) : Nat := 1 + 1 + payload.participants.length * RISTRETTO_COMPRESSED_SIZE

variable [CurveScalar S] [RangeProof R]

/-- Four bytes are counted on top of every parameter. -/
def InvokeContractBuilder.estimateSize (payload : InvokeContractBuilder S R) : Nat :=
  32 + 8 + 2 + 1 + (payload.parameters.map (fun parameter => 4 + parameter.size)).sum + (estimateDepositsSize payload.deposits).2

def DeployContractBuilder.estimateSize (payload : DeployContractBuilder) : Nat :=
  (stringBytes payload.module).length / 2 + 1 +
    payload.invoke.elim 0 (fun invoke => (estimateDepositsSize invoke.deposits).2 + 8)

def TransactionTypeBuilder.estimateSize (version : TxVersion) : TransactionTypeBuilder S R → Nat
  | transfers outputs => 1 + (outputs.map (TransferBuilder.estimateSize version)).sum
  | burn payload => Wire.BurnPayload.size payload
  | multiSig payload => payload.estimateSize
  | invokeContract payload => payload.estimateSize
  | deployContract payload => payload.estimateSize

def TransactionTypeBuilder.commitmentsCount : TransactionTypeBuilder S R → Nat
  | transfers outputs => outputs.length
  | invokeContract payload => (estimateDepositsSize payload.deposits).1
  | deployContract payload => payload.invoke.elim 0 (fun invoke => (estimateDepositsSize invoke.deposits).1)
  | _ => 0

/-- A proof for so many commitments, with the length before it: the number is rounded up to a power of two. -/
def rangeProofSize (commitments : Nat) : Nat :=
  RISTRETTO_COMPRESSED_SIZE * 4 + SCALAR_SIZE * 3 + 2 + SCALAR_SIZE * 2 +
    2 * RISTRETTO_COMPRESSED_SIZE * Nat.clog 2 (BULLET_PROOF_SIZE * commitments)

namespace TransactionBuilder

variable (builder : TransactionBuilder S R)

def estimateSize : Nat :=
  let assetsUsed := builder.data.usedAssets.length
  1 + 32 + 1 + 8 + 8 + (32 + 8) + 1 +
    assetsUsed * (RISTRETTO_COMPRESSED_SIZE + 32 + (RISTRETTO_COMPRESSED_SIZE * 3 + SCALAR_SIZE * 3)) + SIGNATURE_SIZE +
    (if builder.version ≠ .v0 then 1 else 0) +
    builder.requiredThresholds.elim 0 (fun threshold => 1 + threshold * (SIGNATURE_SIZE + 1)) +
    builder.data.estimateSize builder.version + rangeProofSize (builder.data.commitmentsCount + assetsUsed)

/-- A new account is counted for each transfer to it. -/
def expectedFee (accountExists : PublicKey → Bool) : Nat :=
  match builder.data with
  | .transfers outputs =>
    calculateTxFee builder.estimateSize outputs.length
      (outputs.filter (fun transfer => !accountExists transfer.destination.key)).length (builder.requiredThresholds.getD 0)
  | _ => calculateTxFee builder.estimateSize 0 0 (builder.requiredThresholds.getD 0)

/-- The sum with a boost wraps around. -/
def estimateFees (accountExists : PublicKey → Bool) : Nat :=
  match builder.feeBuilder with
  | .value fee => fee
  | .multiplier scale => scale (builder.expectedFee accountExists)
  | .boost fee => (builder.expectedFee accountExists + fee) % U64_RANGE

end TransactionBuilder

end Sizes

section Node

variable [CurveScalar S] [RangeProof R]

/-- What a node asks for: a new account is counted one time. -/
def estimateRequiredTxFees (accountExists : PublicKey → Bool) (tx : Wire.Transaction S R) : Nat :=
  let multisigCount := tx.multisig.elim 0 List.length
  match tx.data with
  | .transfers payloads =>
    calculateTxFee tx.size payloads.length
      ((payloads.map Wire.TransferPayload.destination).filter (fun key => !accountExists key)).dedup.length multisigCount
  | _ => calculateTxFee tx.size 0 0 multisigCount

end Node

end Xelis.Wallet
