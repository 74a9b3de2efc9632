import Xelis.Common.Transaction

namespace Xelis

open Lib (FiniteMap IndexMap)

def COIN_VALUE : Nat := 10 ^ 8

/-- One full coin is taken for each contract deployed. -/
def BURN_PER_CONTRACT : Nat := COIN_VALUE

def MAX_GAS_USAGE_PER_TX : Nat := COIN_VALUE * 10

def TX_GAS_BURN_PERCENT : Nat := 30

inductive Role where
  | sender
  | receiver
  deriving DecidableEq

/-- The three points of a transfer. -/
structure DecompressedTransferCt (P : Type) where
  commitment : P
  senderHandle : P
  receiverHandle : P

/-- The three points of a private deposit. -/
structure DecompressedDepositCt (P : Type) where
  commitment : P
  senderHandle : P
  receiverHandle : P

section Decompress

variable {P : Type} [RistrettoPoint P]

def DecompressedTransferCt.decompress (transfer : TransferPayload) : Option (DecompressedTransferCt P) := do
  let commitment ← RistrettoPoint.decompress transfer.commitment
  let senderHandle ← RistrettoPoint.decompress transfer.senderHandle
  let receiverHandle ← RistrettoPoint.decompress transfer.receiverHandle
  return { commitment, senderHandle, receiverHandle }

def DecompressedTransferCt.getCiphertext (d : DecompressedTransferCt P) : Role → Ciphertext P
  | .receiver => ⟨d.commitment, d.receiverHandle⟩
  | .sender => ⟨d.commitment, d.senderHandle⟩

def DecompressedDepositCt.decompress (commitment senderHandle receiverHandle : CompressedPoint) :
    Option (DecompressedDepositCt P) := do
  let commitment ← RistrettoPoint.decompress commitment
  let senderHandle ← RistrettoPoint.decompress senderHandle
  let receiverHandle ← RistrettoPoint.decompress receiverHandle
  return { commitment, senderHandle, receiverHandle }

/-- The private deposits of a call, decompressed; `none` when a point is ill-formed. -/
def decompressDeposits (deposits : IndexMap Hash ContractDeposit) : Option (FiniteMap Hash (DecompressedDepositCt P)) :=
  deposits.entries.foldlM (fun acc e =>
    match e.2 with
    | .pub _ => some acc
    | .priv commitment senderHandle receiverHandle _ =>
      (DecompressedDepositCt.decompress commitment senderHandle receiverHandle).map (acc.insert e.1)) ∅

end Decompress

namespace Transaction

/-- The multisig and contract payloads need their transaction version. -/
def hasValidVersionFormat (tx : Transaction) : Bool :=
  match tx.version with
  | .v0 =>
    if tx.multisig.isSome then false
    else match tx.data with
      | .transfers _ => true
      | .burn _ => true
      | _ => false
  | .v1 =>
    match tx.data with
    | .transfers _ => true
    | .burn _ => true
    | .multiSig _ => true
    | _ => false
  | .v2 => true

section Output

variable {P : Type} [RistrettoPoint P]

/-- The deposit of `asset` in a call, on the sender's side. -/
def addDepositOutput (deposits : IndexMap Hash ContractDeposit)
    (decompressedDeposits : FiniteMap Hash (DecompressedDepositCt P)) (asset : Hash) (output : Ciphertext P) :
    Option (Ciphertext P) :=
  match deposits.get asset with
  | none => some output
  | some (.pub amount) => some (output.addScalar amount)
  | some (.priv _ _ _ _) =>
    match decompressedDeposits[asset]? with
    | some d => some (output.add ⟨d.commitment, d.senderHandle⟩)
    | none => none

/-- Everything the sender spends in `asset`; `none` when a private deposit was not decompressed. -/
def getSenderOutputCt (tx : Transaction) (asset : Hash) (decompressedTransfers : List (DecompressedTransferCt P))
    (decompressedDeposits : FiniteMap Hash (DecompressedDepositCt P)) : Option (Ciphertext P) := do
  let output := Ciphertext.zero
  let output := if asset = XELIS_ASSET then output.addScalar tx.fee else output
  match tx.data with
  | .transfers transfers =>
    return (transfers.zip decompressedTransfers).foldl (fun output e =>
      if asset = e.1.asset then output.add (e.2.getCiphertext .sender) else output) output
  | .burn payload => return if asset = payload.asset then output.addScalar payload.amount else output
  | .multiSig _ => return output
  | .invokeContract payload =>
    let output := if asset = XELIS_ASSET then output.addScalar payload.maxGas else output
    addDepositOutput payload.deposits decompressedDeposits asset output
  | .deployContract payload =>
    let output ← match payload.invoke with
      | some invoke =>
        let output := if asset = XELIS_ASSET then output.addScalar invoke.maxGas else output
        addDepositOutput invoke.deposits decompressedDeposits asset output
      | none => some output
    return if asset = XELIS_ASSET then output.addScalar BURN_PER_CONTRACT else output

/-- What the sender spends, for each of its commitments. The deposits of a constructor are not decompressed. -/
def getExpectedSenderOutputs (tx : Transaction) : Option (List (Hash × Ciphertext P)) := do
  let transfers ← match tx.data with
    | .transfers payloads => payloads.mapM (m := Option) DecompressedTransferCt.decompress
    | _ => some []
  let deposits ← match tx.data with
    | .invokeContract payload => decompressDeposits payload.deposits
    | _ => some ∅
  tx.sourceCommitments.mapM fun c => (tx.getSenderOutputCt c.asset transfers deposits).map fun output => (c.asset, output)

end Output

def hasCommitmentForAsset (tx : Transaction) (asset : Hash) : Bool :=
  tx.sourceCommitments.any (fun c => c.asset == asset)

def verifyCommitmentAssets (tx : Transaction) : Bool :=
  if !tx.hasCommitmentForAsset XELIS_ASSET then false
  else if tx.sourceCommitments.zipIdx.any (fun c => tx.sourceCommitments.zipIdx.any (fun c2 =>
      c.2 != c2.2 && c.1.asset == c2.1.asset)) then false
  else match tx.data with
    | .transfers transfers => transfers.all (fun transfer => tx.hasCommitmentForAsset transfer.asset)
    | .burn payload => tx.hasCommitmentForAsset payload.asset
    | .multiSig _ => true
    | .invokeContract payload => payload.deposits.keys.all tx.hasCommitmentForAsset
    | .deployContract _ => true

end Transaction

end Xelis
