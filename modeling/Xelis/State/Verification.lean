import Xelis.State.ChainState
import Xelis.Transaction.Verify

namespace Xelis

def BYTES_PER_KB : Nat := 1024
def MAX_TRANSACTION_SIZE : Nat := BYTES_PER_KB * BYTES_PER_KB
def FEE_PER_KB : Nat := 10000
def FEE_PER_TRANSFER : Nat := 5000
def FEE_PER_ACCOUNT_CREATION : Nat := 100000

def calculateTxFee (txSize outputCount newAddresses multisig : Nat) : Nat :=
  -- a kilobyte that is started is paid in full
  let sizeInKb := txSize / BYTES_PER_KB + if txSize % BYTES_PER_KB ≠ 0 then 1 else 0
  sizeInKb * FEE_PER_KB + outputCount * FEE_PER_TRANSFER + newAddresses * FEE_PER_ACCOUNT_CREATION +
    multisig * FEE_PER_TRANSFER

namespace State

open Lib (Exec)

variable {P : Type}

/-- Destinations that are not registered yet are paid for once each. -/
def estimateRequiredTxFees (txSize : Transaction → Nat) (provider : Storage P) (currentTopoheight : TopoHeight)
    (tx : Transaction) : Except BlockchainError Nat := do
  let (outputCount, processedKeys) ← match tx.data with
    | .transfers transfers => do
      let keys ← transfers.foldlM (fun (keys : List PublicKey) transfer => do
        let registered ← provider.isAccountRegisteredForTopoheight transfer.destination currentTopoheight
        return if registered || keys.contains transfer.destination then keys else keys ++ [transfer.destination]) []
      pure (transfers.length, keys)
    | _ => pure (0, [])
  return calculateTxFee (txSize tx) outputCount processedKeys.length (tx.multisig.elim 0 List.length)

def preVerifyTx (txSize : Transaction → Nat) (provider : Storage P) (tx : Transaction) (topoheight : TopoHeight)
    (blockVersion : BlockVersion) : Except BlockchainError PUnit := do
  if !blockVersion.isTxVersionAllowed tx.version then
    throw .invalidTxVersion
  let requiredFees ← estimateRequiredTxFees txSize provider topoheight tx
  if tx.fee < requiredFees then
    throw (.invalidTxFee requiredFees tx.fee)
  if topoheight < tx.reference.topoheight then
    throw (.invalidReferenceTopoheight tx.reference.topoheight topoheight)

@[reducible] def ChainState.verificationState [RistrettoPoint P] (txSize : Transaction → Nat) :
    BlockchainVerificationState (ChainState P) P BlockchainError where
  preVerifyTx tx := do
    let s ← get
    Exec.ofExcept (preVerifyTx txSize s.storage tx s.topoheight s.blockVersion)
  getReceiverBalance := ChainState.internalGetReceiverBalance
  putReceiverBalance := ChainState.putReceiverBalance
  getSenderBalance := ChainState.internalGetSenderVerificationBalance
  putSenderBalance := ChainState.putSenderBalance
  addSenderOutput := ChainState.internalUpdateSenderEchange
  getAccountNonce := ChainState.internalGetAccountNonce
  updateAccountNonce := ChainState.internalUpdateAccountNonce
  setMultisigState := ChainState.setMultisigState
  getMultisigState := ChainState.getMultisigState
  setContractModule := ChainState.setContractModule
  loadContractModule := ChainState.loadVersionedContract
  getContractModule := ChainState.internalGetContractModule

def ChainState.preVerify [RistrettoPoint P] (proofs : Proofs P) (c : ChainState P) (e : Transaction × Hash) :
    EStateM.Result (VerificationError BlockchainError) (ChainState P) (Transcript P × List (P × CompressedPoint)) :=
  letI := ChainState.verificationState (P := P) proofs.txSize
  e.1.preVerify proofs e.2 c

def ChainState.verifyBatch [RistrettoPoint P] (proofs : Proofs P) (c : ChainState P) (txs : List (Transaction × Hash)) :
    EStateM.Result (VerificationError BlockchainError) (ChainState P) PUnit :=
  letI := ChainState.verificationState (P := P) proofs.txSize
  Transaction.verifyBatch proofs txs c

end State

end Xelis
