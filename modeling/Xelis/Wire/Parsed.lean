import Xelis.Wire.Transaction

/-! Transactions of the byte format as the ledger takes them: proofs, modules and values are their bytes. -/

namespace Xelis.Wire

variable {S R : Type} [CurveScalar S] [RangeProof R]

def ContractDeposit.parsed : ContractDeposit S → Xelis.ContractDeposit
  | pub amount => .pub amount
  | priv commitment senderHandle receiverHandle ctValidityProof => .priv commitment senderHandle receiverHandle ctValidityProof.write

def parsedDeposits (deposits : List (Hash × ContractDeposit S)) : Lib.IndexMap Hash Xelis.ContractDeposit :=
  .ofList (deposits.map fun e => (e.1, e.2.parsed))

def TransferPayload.parsed (payload : TransferPayload S) : Xelis.TransferPayload where
  asset := payload.asset
  destination := payload.destination
  extraData := payload.extraData
  commitment := payload.commitment
  senderHandle := payload.senderHandle
  receiverHandle := payload.receiverHandle
  ctValidityProof := payload.ctValidityProof.write

def TransactionType.parsed : TransactionType S R → Xelis.TransactionType
  | transfers payloads => .transfers (payloads.map TransferPayload.parsed)
  | burn payload => .burn payload
  | multiSig payload => .multiSig payload
  | invokeContract payload => .invokeContract {
      contract := payload.contract
      deposits := parsedDeposits payload.deposits
      chunkId := payload.chunkId
      maxGas := payload.maxGas
      parameters := payload.parameters.map ValueCell.write }
  | deployContract payload => .deployContract {
      module := payload.module.write
      invoke := payload.invoke.map fun invoke => { maxGas := invoke.maxGas, deposits := parsedDeposits invoke.deposits } }

def SourceCommitment.parsed (commitment : SourceCommitment S) : Xelis.SourceCommitment where
  commitment := commitment.commitment
  proof := commitment.proof.write
  asset := commitment.asset

def SignatureId.parsed (signature : SignatureId S) : Xelis.SignatureId where
  id := signature.id
  signature := signature.signature.write

def Transaction.parsed (tx : Transaction S R) : Xelis.Transaction where
  version := tx.version
  source := tx.source
  data := tx.data.parsed
  fee := tx.fee
  nonce := tx.nonce
  sourceCommitments := tx.sourceCommitments.map SourceCommitment.parsed
  rangeProof := RangeProof.toBytes tx.rangeProof
  reference := tx.reference
  multisig := tx.multisig.map (List.map SignatureId.parsed)
  signature := tx.signature.write

end Xelis.Wire
