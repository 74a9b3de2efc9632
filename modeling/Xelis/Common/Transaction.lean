import Xelis.Common.Versioned
import Xelis.Lib.IndexMap

namespace Xelis

open Lib (IndexMap)

inductive TxVersion where
  | v0
  | v1
  | v2
  deriving DecidableEq, Repr

inductive BlockVersion where
  | v0
  | v1
  | v2
  | v3
  deriving DecidableEq, Repr

def BlockVersion.isTxVersionAllowed : BlockVersion → TxVersion → Bool
  | .v0, .v0 => true
  | .v1, .v0 => true
  | .v2, .v1 => true
  | .v3, .v2 => true
  | _, _ => false

/-- At which block a transaction was built. -/
structure Reference where
  hash : Hash
  topoheight : TopoHeight
  deriving DecidableEq, Repr

/-- Bytecode of a contract, as its bytes. -/
abbrev Module := IVec

/-- A value of the virtual machine, as its bytes. -/
abbrev ValueCell := IVec

structure TransferPayload where
  asset : Hash
  destination : PublicKey
  extraData : Option IVec
  commitment : CompressedPoint
  senderHandle : CompressedPoint
  receiverHandle : CompressedPoint
  ctValidityProof : IVec
  deriving DecidableEq

structure BurnPayload where
  asset : Hash
  amount : Nat
  deriving DecidableEq

structure MultiSigPayload where
  threshold : Nat
  participants : List PublicKey
  deriving DecidableEq

def MultiSigPayload.isDelete (p : MultiSigPayload) : Bool := p.threshold == 0 && p.participants.isEmpty

/-- What a caller gives to a contract: a plain amount, or a commitment with both handles. -/
inductive ContractDeposit where
  | pub (amount : Nat)
  | priv (commitment senderHandle receiverHandle : CompressedPoint) (ctValidityProof : IVec)
  deriving DecidableEq

structure InvokeContractPayload where
  contract : Hash
  deposits : IndexMap Hash ContractDeposit
  chunkId : Nat
  maxGas : Nat
  parameters : List ValueCell

structure InvokeConstructorPayload where
  maxGas : Nat
  deposits : IndexMap Hash ContractDeposit

structure DeployContractPayload where
  module : Module
  invoke : Option InvokeConstructorPayload

inductive TransactionType where
  | transfers (payloads : List TransferPayload)
  | burn (payload : BurnPayload)
  | multiSig (payload : MultiSigPayload)
  | invokeContract (payload : InvokeContractPayload)
  | deployContract (payload : DeployContractPayload)

/-- One per asset spent: the commitment to the balance left, with its equality proof. -/
structure SourceCommitment where
  commitment : CompressedPoint
  proof : IVec
  asset : Hash
  deriving DecidableEq

structure SignatureId where
  id : Nat
  signature : IVec
  deriving DecidableEq

structure Transaction where
  version : TxVersion
  source : PublicKey
  data : TransactionType
  fee : Nat
  nonce : Nonce
  sourceCommitments : List SourceCommitment
  rangeProof : IVec
  reference : Reference
  multisig : Option (List SignatureId)
  signature : IVec

end Xelis
