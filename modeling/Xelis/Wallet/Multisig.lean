import Xelis.Transaction.Coverage
import Xelis.Wallet.Build
import Xelis.Wire.Parsed

namespace Xelis.Wallet

open Lib (Exec)
open Wire (CurveScalar RangeProof Signature)
open BlockchainVerificationState

variable {P S R : Type}

/-- The signatures of the accounts, and the hash that the participants sign. -/
structure SignatureScheme (S P : Type) where
  hash : IVec → Hash
  verify : Signature S → IVec → P → Bool

/-- A byte for the option, one for the count, the final signature, and the signatures with their ids. -/
def multisigSize (count : Nat) : Nat := 1 + 1 + SIGNATURE_SIZE + count * (SIGNATURE_SIZE + 1)

section Program

variable [CurveScalar S] [RangeProof R]

def UnsignedTransaction.getHashForMultisig (hash : IVec → Hash) (unsigned : UnsignedTransaction S R) : Hash :=
  hash unsigned.writeNoSignature

/-- The node cuts the signatures from the end of all the bytes. -/
def multisigHash (scheme : SignatureScheme S P) (tx : Wire.Transaction S R) (count : Nat) : Hash :=
  scheme.hash (tx.toBytes.take (tx.toBytes.length - multisigSize count))

/-- What the verification asks of the signatures and the size of a transaction is answered from its bytes. -/
structure ChecksBytes (scheme : SignatureScheme S P) (proofs : Proofs P) (tx : Wire.Transaction S R) : Prop where
  size : proofs.txSize tx.parsed = tx.toBytes.length
  signature : ∀ source, proofs.verifySignature tx.parsed source =
    scheme.verify tx.signature (tx.toBytes.take (tx.toBytes.length - SIGNATURE_SIZE)) source
  multisig : ∀ signatures ∈ tx.multisig, ∀ sig ∈ signatures, ∀ key, proofs.verifyMultisigSignature tx.parsed sig.parsed key =
    scheme.verify sig.signature (writeHash (multisigHash scheme tx signatures.length)) key

def unsignedOf (tx : Wire.Transaction S R) : UnsignedTransaction S R where
  version := tx.version
  source := tx.source
  data := tx.data
  fee := tx.fee
  nonce := tx.nonce
  sourceCommitments := tx.sourceCommitments
  rangeProof := tx.rangeProof
  reference := tx.reference
  multisig := tx.multisig

end Program

section Through

variable [RistrettoPoint P] {T ε : Type} [BlockchainVerificationState T P ε] (proofs : Proofs P) (tx : Transaction)

open Transaction

def beforeSignatures : Exec (VerificationError ε) T
    ((List (DecompressedTransferCt P) × Lib.FiniteMap Hash (DecompressedDepositCt P)) × List P × P) := do
  require tx.hasValidVersionFormat .invalidFormat
  onState (preVerifyTx tx)
  let accountNonce ← onState (getAccountNonce tx.source)
  require (accountNonce == tx.nonce) (.invalidNonce accountNonce tx.nonce)
  onState (updateAccountNonce tx.source (tx.nonce + 1))
  require tx.verifyCommitmentAssets .commitments
  let format ← verifyFormat proofs tx
  let newCommitments ← orProof (tx.sourceCommitments.mapM (fun c => RistrettoPoint.decompress (P := P) c.commitment))
    .decompression
  let source ← orProof (RistrettoPoint.decompress tx.source) .decompression
  return (format, newCommitments, source)

/-- The steps of `pre_verify` up to the multisig. -/
def throughSignatures : Exec (VerificationError ε) T
    ((List (DecompressedTransferCt P) × Lib.FiniteMap Hash (DecompressedDepositCt P)) × List P × P) := do
  let checked ← beforeSignatures proofs tx
  verifySignatures proofs tx checked.2.2
  return checked

theorem preVerify_eq_throughSignatures (txHash : Hash) : (preVerify proofs tx txHash : Exec (VerificationError ε) T _) = do
    let ((transfers, deposits), newCommitments, source) ← throughSignatures proofs tx
    let transcript ← (tx.sourceCommitments.zip newCommitments).foldlM (verifyCommitment proofs tx source transfers deposits) []
    let valueCommitments ← verifyPayload proofs tx txHash source transfers deposits transcript
    let commitments := (tx.sourceCommitments.zip newCommitments).map (fun c => (c.2, c.1.commitment)) ++ valueCommitments
    let duds := List.replicate (commitments.length.nextPowerOfTwo - commitments.length) (0, 0#256)
    return (transcript, commitments ++ duds) := by
  unfold preVerify throughSignatures beforeSignatures
  simp only [bind_assoc, pure_bind]

end Through

variable {tx tx' : Wire.Transaction S R} {signatures : List (Wire.SignatureId S)}

section Bytes

variable [CurveScalar S] [RangeProof R]

theorem toBytes_eq (tx : Wire.Transaction S R) :
    tx.toBytes = (unsignedOf tx).writeNoSignature ++ (Wire.Transaction.writeMultisig tx.version tx.multisig ++ tx.signature.write) := by
  simp only [Wire.Transaction.toBytes, Wire.Transaction.writeBody, UnsignedTransaction.writeNoSignature, unsignedOf,
    List.flatten_cons, List.flatten_nil, List.append_nil, List.append_assoc]

theorem length_multisig (signatures : List (Wire.SignatureId S)) :
    (Wire.MultiSig.write signatures).length = 1 + signatures.length * (SIGNATURE_SIZE + 1) := by
  rw [← Wire.MultiSig.size_eq, Wire.MultiSig.size, List.map_const', List.sum_replicate]
  rfl

theorem length_signatures {version : TxVersion} (hversion : version ≠ .v0) (signatures : List (Wire.SignatureId S))
    (signature : Signature S) :
    (Wire.Transaction.writeMultisig version (some signatures) ++ signature.write).length = multisigSize signatures.length := by
  have hone : (writeOption Wire.MultiSig.write (some signatures)).length = 1 + (Wire.MultiSig.write signatures).length := by
    simp [writeOption]
  rw [Wire.Transaction.writeMultisig, if_pos hversion, List.length_append, hone, length_multisig, Wire.Signature.length_write,
    multisigSize]
  have hsize : SIGNATURE_SIZE = 64 := rfl
  omega

/-- What the node cuts from the end of the bytes is what the participants signed. -/
theorem multisigHash_eq (scheme : SignatureScheme S P) (hversion : tx.version ≠ .v0)
    (hmultisig : tx.multisig = some signatures) :
    multisigHash scheme tx signatures.length = (unsignedOf tx).getHashForMultisig scheme.hash := by
  rw [multisigHash, UnsignedTransaction.getHashForMultisig, toBytes_eq, hmultisig, List.length_append,
    length_signatures hversion, Nat.add_sub_cancel, List.take_left]

theorem signedBytes_eq (tx : Wire.Transaction S R) :
    tx.toBytes.take (tx.toBytes.length - SIGNATURE_SIZE) = (unsignedOf tx).toBytes := by
  have hlength : tx.signature.write.length = SIGNATURE_SIZE := Wire.Signature.length_write tx.signature
  rw [toBytes_eq, ← List.append_assoc, List.length_append, hlength, Nat.add_sub_cancel, List.take_left]
  rfl

theorem multisigSize_lt (hversion : tx.version ≠ .v0)
    (hmultisig : tx.multisig = some signatures) : multisigSize signatures.length < tx.toBytes.length := by
  have hpos : 0 < (unsignedOf tx).writeNoSignature.length := by
    rw [UnsignedTransaction.writeNoSignature, List.flatten_cons, List.length_append]
    have hsource : (writeHash (unsignedOf tx).source).length = 32 := length_writeHash _
    rw [List.flatten_cons, List.length_append, hsource]
    omega
  rw [toBytes_eq, hmultisig, List.length_append, length_signatures hversion]
  omega

end Bytes

section Verification

variable [RistrettoPoint P] [CurveScalar S] [RangeProof R]

/-- The threshold is met by signatures of the participants over everything but the signatures. -/
def Authorised (scheme : SignatureScheme S P) (config : MultiSigPayload) (tx : Wire.Transaction S R) : Prop :=
  ∃ signatures, tx.multisig = some signatures ∧ signatures.length = config.threshold ∧
    ∀ sig ∈ signatures, ∃ key point, config.participants[sig.id]? = some key ∧ RistrettoPoint.decompress key = some point ∧
      scheme.verify sig.signature (writeHash ((unsignedOf tx).getHashForMultisig scheme.hash)) point = true

variable {T ε : Type} {scheme : SignatureScheme S P} {proofs : Proofs P} {tx : Wire.Transaction S R} {source : P} {s s' : T}

open Transaction

/-- A loop of checks that leave the state alone succeeds when all of them do. -/
theorem forM_checks {ε α σ : Type} {xs : List α} {f : α → Exec ε σ PUnit} {C : α → Prop} {s s' : σ}
    (hf : ∀ x ∈ xs, ∀ t t', f x t = .ok ⟨⟩ t' ↔ C x ∧ t = t') : xs.forM f s = .ok ⟨⟩ s' ↔ (∀ x ∈ xs, C x) ∧ s = s' := by
  induction xs with
  | nil =>
    refine ⟨fun h => ⟨nofun, ?_⟩, fun h => ?_⟩
    · cases h
      rfl
    · rw [h.2]
      rfl
  | cons x xs ih =>
    have hrest := ih fun y hy => hf y (List.mem_cons_of_mem _ hy)
    have hcons : (x :: xs).forM f s = .ok ⟨⟩ s' ↔ ∃ a t, f x s = .ok a t ∧ xs.forM f t = .ok ⟨⟩ s' := Exec.bind_ok_iff
    rw [hcons, List.forall_mem_cons]
    constructor
    · rintro ⟨⟨⟩, t, hx, hxs⟩
      obtain ⟨hC, rfl⟩ := (hf x List.mem_cons_self s t).mp hx
      exact ⟨⟨hC, (hrest.mp hxs).1⟩, (hrest.mp hxs).2⟩
    · rintro ⟨⟨hC, hall⟩, rfl⟩
      exact ⟨⟨⟩, s, (hf x List.mem_cons_self s s).mpr ⟨hC, rfl⟩, hrest.mpr ⟨hall, rfl⟩⟩

def checkSignature (proofs : Proofs P) (tx : Transaction) (config : MultiSigPayload) (sig : SignatureId) :
    Exec (VerificationError ε) T PUnit :=
  match config.participants[sig.id]? with
  | none => throw .multiSigParticipants
  | some key => do
    let point ← orProof (RistrettoPoint.decompress key) .decompression
    require (proofs.verifyMultisigSignature tx sig point) .invalidSignature

variable {config : MultiSigPayload}

theorem checkSignature_ok {tx : Transaction} {sig : SignatureId} :
    (checkSignature proofs tx config sig : Exec (VerificationError ε) T PUnit) s = .ok ⟨⟩ s' ↔
      (∃ key point, config.participants[sig.id]? = some key ∧ RistrettoPoint.decompress key = some point ∧
        proofs.verifyMultisigSignature tx sig point = true) ∧ s = s' := by
  unfold checkSignature
  cases hkey : config.participants[sig.id]? with
  | none =>
    refine iff_of_false (fun h => nomatch h) ?_
    rintro ⟨⟨key, point, hsome, -⟩, -⟩
    cases hsome
  | some key =>
    dsimp only
    rw [Exec.bind_ok_iff]
    cases hpoint : (RistrettoPoint.decompress key : Option P) with
    | none =>
      refine iff_of_false (fun ⟨_, _, h, _⟩ => nomatch h) ?_
      rintro ⟨⟨key', point, hsome, hdecompress, -⟩, -⟩
      obtain rfl : key = key' := Option.some.inj hsome
      rw [hpoint] at hdecompress
      cases hdecompress
    | some point =>
      constructor
      · rintro ⟨point', t, hok, hverify⟩
        cases hok
        obtain ⟨htrue, rfl⟩ := require_ok_iff.mp hverify
        exact ⟨⟨key, point, rfl, hpoint, htrue⟩, rfl⟩
      · rintro ⟨⟨key', point', hsome, hdecompress, htrue⟩, rfl⟩
        obtain rfl : key = key' := Option.some.inj hsome
        obtain rfl : point' = point := Option.some.inj (hdecompress.symm.trans hpoint)
        exact ⟨point', s, rfl, require_ok_iff.mpr ⟨htrue, rfl⟩⟩

def Configuration (scheme : SignatureScheme S P) (tx : Wire.Transaction S R) : Option MultiSigPayload → Prop
  | none => tx.multisig = none
  | some config => Authorised scheme config tx

theorem checkSignatures_ok (hchecks : ChecksBytes scheme proofs tx)
    (hversion : tx.version ≠ .v0) (hmultisig : tx.multisig = some signatures) :
    ((signatures.map Wire.SignatureId.parsed).forM (checkSignature proofs tx.parsed config) : Exec (VerificationError ε) T PUnit) s =
        .ok ⟨⟩ s' ↔
      (∀ sig ∈ signatures, ∃ key point, config.participants[sig.id]? = some key ∧ RistrettoPoint.decompress key = some point ∧
        scheme.verify sig.signature (writeHash ((unsignedOf tx).getHashForMultisig scheme.hash)) point = true) ∧ s = s' := by
  have hstep : ∀ sig ∈ signatures.map Wire.SignatureId.parsed, ∀ t t' : T,
      (checkSignature proofs tx.parsed config sig : Exec (VerificationError ε) T PUnit) t = .ok ⟨⟩ t' ↔ _ :=
    fun _ _ _ _ => checkSignature_ok
  refine (forM_checks hstep).trans (and_congr_left fun _ => ?_)
  simp only [List.forall_mem_map]
  refine forall₂_congr fun sig hsig => exists_congr fun key => exists_congr fun point => ?_
  rw [hchecks.multisig signatures hmultisig sig hsig, multisigHash_eq scheme hversion hmultisig]
  rfl

def checkMultisig (proofs : Proofs P) (tx : Transaction) : Option MultiSigPayload → Option (List SignatureId) →
    Exec (VerificationError ε) T PUnit
  | some _, none => throw .multiSigNotFound
  | some config, some multisig => do
    require (config.threshold == multisig.length && decide (multisig.length ≤ MAX_MULTISIG_PARTICIPANTS)) .multiSigParticipants
    require (multisigSize multisig.length < proofs.txSize tx) .invalidFormat
    multisig.forM (checkSignature proofs tx config)
  | none, some _ => throw .multiSigNotConfigured
  | none, none => pure ⟨⟩

theorem checkMultisig_ok {config : Option MultiSigPayload} (hchecks : ChecksBytes scheme proofs tx)
    (hversion : tx.version = .v0 → tx.multisig = none) :
    (checkMultisig proofs tx.parsed config tx.parsed.multisig : Exec (VerificationError ε) T PUnit) s = .ok ⟨⟩ s' ↔
      ((∀ c ∈ config, c.threshold ≤ MAX_MULTISIG_PARTICIPANTS) ∧ Configuration scheme tx config) ∧ s = s' := by
  cases hmultisig : tx.multisig with
  | none =>
    rw [show tx.parsed.multisig = none from congrArg (Option.map _) hmultisig]
    cases config with
    | none =>
      refine ⟨fun h => ⟨⟨nofun, hmultisig⟩, ?_⟩, fun h => ?_⟩
      · cases h
        rfl
      · rw [h.2]
        rfl
    | some config =>
      refine iff_of_false (fun h => nomatch h) ?_
      rintro ⟨⟨-, signatures, hsome, -⟩, -⟩
      rw [hmultisig] at hsome
      cases hsome
  | some signatures =>
    rw [show tx.parsed.multisig = some (signatures.map Wire.SignatureId.parsed) from congrArg (Option.map _) hmultisig]
    cases config with
    | none =>
      refine iff_of_false (fun h => nomatch h) ?_
      rintro ⟨⟨-, hnone⟩, -⟩
      rw [Configuration, hmultisig] at hnone
      cases hnone
    | some config =>
      have hv : tx.version ≠ .v0 := fun h => nomatch hmultisig.symm.trans (hversion h)
      have hsize : multisigSize (signatures.map Wire.SignatureId.parsed).length < proofs.txSize tx.parsed := by
        rw [hchecks.size, List.length_map]
        exact multisigSize_lt hv hmultisig
      dsimp only [checkMultisig]
      rw [Exec.bind_ok_iff, decide_eq_true hsize]
      constructor
      · rintro ⟨⟨⟩, t, hrequire, hrest⟩
        obtain ⟨hcount, rfl⟩ := require_ok_iff.mp hrequire
        rw [List.length_map, Bool.and_eq_true, beq_iff_eq, decide_eq_true_eq] at hcount
        obtain ⟨⟨⟩, t, hrequire, hrest⟩ := Exec.bind_ok_iff.mp hrest
        obtain ⟨-, rfl⟩ := require_ok_iff.mp hrequire
        obtain ⟨hall, rfl⟩ := (checkSignatures_ok hchecks hv hmultisig).mp hrest
        refine ⟨⟨fun c hc => ?_, signatures, hmultisig, hcount.1.symm, hall⟩, rfl⟩
        obtain rfl : config = c := Option.some.inj hc
        exact hcount.1 ▸ hcount.2
      · rintro ⟨⟨hlimit, signatures', hsome, hlength, hall⟩, rfl⟩
        obtain rfl : signatures = signatures' := Option.some.inj (hmultisig.symm.trans hsome)
        have hcount : (config.threshold == (signatures.map Wire.SignatureId.parsed).length &&
            decide ((signatures.map Wire.SignatureId.parsed).length ≤ MAX_MULTISIG_PARTICIPANTS)) = true := by
          rw [List.length_map, Bool.and_eq_true, beq_iff_eq, decide_eq_true_eq, hlength]
          exact ⟨rfl, hlimit config rfl⟩
        exact ⟨⟨⟩, s, require_ok_iff.mpr ⟨hcount, rfl⟩, Exec.bind_ok_iff.mpr
          ⟨⟨⟩, s, require_ok_iff.mpr ⟨rfl, rfl⟩, (checkSignatures_ok hchecks hv hmultisig).mpr ⟨hall, rfl⟩⟩⟩

variable [BlockchainVerificationState T P ε]

theorem verifySignatures_eq (tx : Transaction) :
    (verifySignatures proofs tx source : Exec (VerificationError ε) T PUnit) = (do
      require (proofs.verifySignature tx source) .invalidSignature
      let config ← onState (getMultisigState tx.source)
      checkMultisig proofs tx config tx.multisig) := rfl

/-- The signatures are accepted exactly when the source has signed, and what its configuration asks for is there. -/
theorem verifySignatures_ok (hchecks : ChecksBytes scheme proofs tx) (hversion : tx.version = .v0 → tx.multisig = none) :
    (verifySignatures proofs tx.parsed source : Exec (VerificationError ε) T PUnit) s = .ok ⟨⟩ s' ↔
      scheme.verify tx.signature (unsignedOf tx).toBytes source = true ∧
        ∃ config, getMultisigState tx.source s = .ok config s' ∧
          (∀ c ∈ config, c.threshold ≤ MAX_MULTISIG_PARTICIPANTS) ∧ Configuration scheme tx config := by
  rw [verifySignatures_eq, Exec.bind_ok_iff]
  constructor
  · rintro ⟨⟨⟩, t, hrequire, hrest⟩
    obtain ⟨hverify, rfl⟩ := require_ok_iff.mp hrequire
    obtain ⟨config, t, hconfig, hrest⟩ := Exec.bind_ok_iff.mp hrest
    obtain ⟨hholds, rfl⟩ := (checkMultisig_ok hchecks hversion).mp hrest
    rw [hchecks.signature, signedBytes_eq] at hverify
    exact ⟨hverify, config, onState_ok_iff.mp hconfig, hholds⟩
  · rintro ⟨hverify, config, hconfig, hholds⟩
    rw [← signedBytes_eq, ← hchecks.signature] at hverify
    exact ⟨⟨⟩, s, require_ok_iff.mpr ⟨hverify, rfl⟩, Exec.bind_ok_iff.mpr
      ⟨config, s', onState_ok_iff.mpr hconfig, (checkMultisig_ok hchecks hversion).mpr ⟨hholds, rfl⟩⟩⟩

theorem multisig_of_v0 (h : tx.parsed.hasValidVersionFormat = true) (hversion : tx.version = .v0) : tx.multisig = none := by
  cases hmultisig : tx.multisig with
  | none => rfl
  | some signatures =>
    simp [Transaction.hasValidVersionFormat, Wire.Transaction.parsed, hversion, hmultisig] at h

theorem beforeSignatures_format {tx : Transaction} {checked}
    (h : (beforeSignatures proofs tx : Exec (VerificationError ε) T _) s = .ok checked s') : tx.hasValidVersionFormat = true := by
  obtain ⟨⟨⟩, t, hrequire, -⟩ := Exec.bind_ok_iff.mp h
  exact (require_ok_iff.mp hrequire).1

theorem throughSignatures_ok (hchecks : ChecksBytes scheme proofs tx) {t : T} {checked r}
    (hbefore : (beforeSignatures proofs tx.parsed : Exec (VerificationError ε) T _) s = .ok checked t)
    (h : (throughSignatures proofs tx.parsed : Exec (VerificationError ε) T _) s = .ok r s') :
    ∃ config, getMultisigState tx.source t = .ok config s' ∧ Configuration scheme tx config := by
  obtain ⟨checked', t', hbefore', hrest⟩ := Exec.bind_ok_iff.mp h
  rw [hbefore] at hbefore'
  cases hbefore'
  obtain ⟨⟨⟩, t', hsignatures, hrest⟩ := Exec.bind_ok_iff.mp hrest
  cases hrest
  obtain ⟨-, config, hconfig, -, hholds⟩ :=
    (verifySignatures_ok hchecks (multisig_of_v0 (beforeSignatures_format hbefore))).mp hsignatures
  exact ⟨config, hconfig, hholds⟩

end Verification

variable {signers : List (Nat × (IVec → Signature S))}

section Signing

variable [CurveScalar S] [RangeProof R] {hash : IVec → Hash} {unsigned : UnsignedTransaction S R}

/-- What a participant adds. -/
def signatureOf (hash : IVec → Hash) (unsigned : UnsignedTransaction S R) (signer : Nat × (IVec → Signature S)) : Wire.SignatureId S where
  id := signer.1
  signature := signer.2 (writeHash (unsigned.getHashForMultisig hash))

theorem signMultisig_fresh {signer : Nat × (IVec → Signature S)}
    (hnew : signer.1 ∉ signatures.map Wire.SignatureId.id) (hhas : unsigned.multisig.getD [] = signatures) :
    UnsignedTransaction.signMultisig hash unsigned signer =
      { unsigned with multisig := some (signatures ++ [signatureOf hash unsigned signer]) } := by
  subst hhas
  rw [UnsignedTransaction.signMultisig, UnsignedTransaction.addSignature, if_neg hnew]
  rfl

theorem signers_foldl (hnodup : (signatures.map Wire.SignatureId.id ++ signers.map Prod.fst).Nodup) :
    signers.foldl (UnsignedTransaction.signMultisig hash) { unsigned with multisig := some signatures } =
      { unsigned with multisig := some (signatures ++ signers.map (signatureOf hash unsigned)) } := by
  induction signers generalizing signatures with
  | nil => rw [List.foldl_nil, List.map_nil, List.append_nil]
  | cons signer signers ih =>
    have hnew : signer.1 ∉ signatures.map Wire.SignatureId.id := fun hmem =>
      (List.disjoint_of_nodup_append hnodup) hmem List.mem_cons_self
    have hrest : ((signatures ++ [signatureOf hash unsigned signer]).map Wire.SignatureId.id ++ signers.map Prod.fst).Nodup := by
      rw [List.map_append, List.append_assoc]
      exact hnodup
    rw [List.foldl_cons, List.map_cons, List.append_cons, ← ih hrest]
    exact congrArg (signers.foldl (UnsignedTransaction.signMultisig hash)) (signMultisig_fresh hnew rfl)

theorem signed_eq (hnone : unsigned.multisig = none) (hsome : signers ≠ []) (hnodup : (signers.map Prod.fst).Nodup) :
    signers.foldl (UnsignedTransaction.signMultisig hash) unsigned =
      { unsigned with multisig := some (signers.map (signatureOf hash unsigned)) } := by
  cases signers with
  | nil => exact absurd rfl hsome
  | cons signer signers =>
    have hnew : signer.1 ∉ ([] : List (Wire.SignatureId S)).map Wire.SignatureId.id := nofun
    have hhas : unsigned.multisig.getD [] = [] := by rw [hnone, Option.getD_none]
    rw [List.foldl_cons, signMultisig_fresh hnew hhas]
    exact signers_foldl hnodup

theorem signMultisig_nodup (hnodup : ((unsigned.multisig.getD []).map Wire.SignatureId.id).Nodup)
    (signer : Nat × (IVec → Signature S)) :
    (((UnsignedTransaction.signMultisig hash unsigned signer).multisig.getD []).map Wire.SignatureId.id).Nodup := by
  rw [UnsignedTransaction.signMultisig, Option.getD_some, UnsignedTransaction.addSignature]
  split
  · exact hnodup
  · rename_i hnew
    rw [List.map_append, List.nodup_append']
    refine ⟨hnodup, List.nodup_singleton _, fun id hid hmem => hnew ?_⟩
    rw [List.map_cons, List.map_nil, List.mem_singleton] at hmem
    exact hmem ▸ hid

theorem signers_nodup (signers : List (Nat × (IVec → Signature S))) :
    ∀ {unsigned : UnsignedTransaction S R}, ((unsigned.multisig.getD []).map Wire.SignatureId.id).Nodup →
      (((signers.foldl (UnsignedTransaction.signMultisig hash) unsigned).multisig.getD []).map Wire.SignatureId.id).Nodup := by
  induction signers with
  | nil => exact fun h => h
  | cons signer signers ih => exact fun h => ih (signMultisig_nodup h signer)

end Signing

section Binding

variable [CurveScalar S] [RangeProof R]

/-- The signatures do not count: they come after what is signed. -/
def UnsignedTransaction.withoutMultisig (unsigned : UnsignedTransaction S R) : UnsignedTransaction S R :=
  { unsigned with multisig := none }

theorem version_of_bytes {v v' : TxVersion} {rest rest' : IVec} (h : Wire.TxVersion.write v ++ rest = Wire.TxVersion.write v' ++ rest') :
    v = v' := by
  have hread := (Wire.TxVersion.codec.reads false v trivial) rest
  rw [h, (Wire.TxVersion.codec.reads false v' trivial) rest'] at hread
  cases hread
  rfl

def stripped (signature : Signature S) (tx : Wire.Transaction S R) : Wire.Transaction S R := { tx with multisig := none, signature }

variable {order : Lib.Codec.KeyOrder Wire.DataValue} {same : Wire.ValueCell S R → Wire.ValueCell S R → Bool} {tx tx' : Wire.Transaction S R}

omit [CurveScalar S] in
theorem stripped_valid (h : tx.Valid order same) (signature : Signature S) : (stripped signature tx).Valid order same where
  data := h.data
  fee := h.fee
  nonce := h.nonce
  commitments_ne_nil := h.commitments_ne_nil
  commitments_length := h.commitments_length
  rangeProof := h.rangeProof
  reference := h.reference
  multisig := by
    split
    · rfl
    · nofun

theorem writeNoSignature_injective (hvalid : tx.Valid order same) (hvalid' : tx'.Valid order same)
    (hbytes : (unsignedOf tx).writeNoSignature = (unsignedOf tx').writeNoSignature) :
    (unsignedOf tx).withoutMultisig = (unsignedOf tx').withoutMultisig := by
  have hversion : tx.version = tx'.version := by
    simp only [UnsignedTransaction.writeNoSignature, List.flatten_cons] at hbytes
    exact version_of_bytes hbytes
  have hwhole : (stripped tx.signature tx).toBytes = (stripped tx.signature tx').toBytes := by
    have hfirst : (unsignedOf (stripped tx.signature tx)).writeNoSignature = (unsignedOf (stripped tx.signature tx')).writeNoSignature :=
      hbytes
    rw [toBytes_eq, toBytes_eq, hfirst]
    simp only [stripped, hversion]
  have hread := (Wire.Transaction.codec order same).reads false _ (stripped_valid hvalid tx.signature) []
  rw [hwhole, (Wire.Transaction.codec order same).reads false _ (stripped_valid hvalid' tx.signature) []] at hread
  have hequal : stripped tx.signature tx' = stripped tx.signature tx := congrArg Prod.fst (Except.ok.inj hread)
  exact (congrArg unsignedOf hequal).symm

/-- What the source signs determines every field of the transaction but its own signature. -/
theorem signedBytes_eq_iff (hvalid : tx.Valid order same) (hvalid' : tx'.Valid order same) :
    tx.toBytes.take (tx.toBytes.length - SIGNATURE_SIZE) = tx'.toBytes.take (tx'.toBytes.length - SIGNATURE_SIZE) ↔
      unsignedOf tx = unsignedOf tx' := by
  rw [signedBytes_eq, signedBytes_eq]
  refine ⟨fun hbytes => ?_, congrArg _⟩
  have hwhole : ∀ tx : Wire.Transaction S R, tx.toBytes = (unsignedOf tx).toBytes ++ tx.signature.write := by
    intro tx
    rw [toBytes_eq, ← List.append_assoc]
    rfl
  have hequal : tx.toBytes = ({ tx' with signature := tx.signature } : Wire.Transaction S R).toBytes := by
    rw [hwhole, hbytes, hwhole]
    rfl
  have hread := (Wire.Transaction.codec order same).reads false tx hvalid []
  rw [hequal, (Wire.Transaction.codec order same).reads false { tx' with signature := tx.signature }
    { hvalid' with } []] at hread
  exact (congrArg unsignedOf (congrArg Prod.fst (Except.ok.inj hread))).symm

/-- Transactions that a node is given, and those that a wallet makes. -/
inductive Made (order : Lib.Codec.KeyOrder Wire.DataValue) (same : Wire.ValueCell S R → Wire.ValueCell S R → Bool) (hash : IVec → Hash) :
    Wire.Transaction S R → Prop
  | decoded {strict bytes tx rest} : Wire.Transaction.read order same strict bytes = .ok (tx, rest) → Made order same hash tx
  | finalized {unsigned : UnsignedTransaction S R} (signers : List (Nat × (IVec → Signature S))) (sign : IVec → Signature S) :
    unsigned.multisig = none → Made order same hash ((signers.foldl (UnsignedTransaction.signMultisig hash) unsigned).finalize sign)

/-- No participant counts two times. -/
theorem Made.nodup {hash : IVec → Hash} (h : Made order same hash tx) :
    ∀ signatures ∈ tx.multisig, (signatures.map Wire.SignatureId.id).Nodup := by
  intro signatures hsome
  cases h with
  | decoded hread =>
    have hvalid := ((Wire.Transaction.codec order same).sound hread).1.multisig
    split at hvalid
    · rw [hvalid] at hsome
      cases hsome
    · exact (hvalid signatures hsome).2.1
  | @finalized unsigned signers sign hnone =>
    have hnodup : ((unsigned.multisig.getD []).map Wire.SignatureId.id).Nodup := by
      rw [hnone]
      exact List.nodup_nil
    have hall : (((signers.foldl (UnsignedTransaction.signMultisig hash) unsigned).multisig.getD []).map Wire.SignatureId.id).Nodup :=
      signers_nodup signers hnodup
    have hmultisig : (signers.foldl (UnsignedTransaction.signMultisig hash) unsigned).multisig = some signatures := hsome
    rw [hmultisig] at hall
    exact hall

end Binding

section Authorisation

variable [RistrettoPoint P] [CurveScalar S] [RangeProof R] {T ε : Type} [BlockchainVerificationState T P ε]
  (order : Lib.Codec.KeyOrder Wire.DataValue) (same : Wire.ValueCell S R → Wire.ValueCell S R → Bool) (scheme : SignatureScheme S P)

def SignsAs (scheme : SignatureScheme S P) (config : MultiSigPayload) (signer : Nat × (IVec → Signature S)) : Prop :=
  ∃ key point, config.participants[signer.1]? = some key ∧ RistrettoPoint.decompress key = some point ∧
    ∀ message, scheme.verify (signer.2 message) message point = true

/-- Signatures that the participants have made for one transaction: nobody has others. -/
def OnlyFor (scheme : SignatureScheme S P) (config : MultiSigPayload) (tx : Wire.Transaction S R) (signatures : List (Wire.SignatureId S)) :
    Prop :=
  ∀ sig ∈ signatures, ∀ key point, config.participants[sig.id]? = some key → RistrettoPoint.decompress key = some point →
    ∀ message, scheme.verify sig.signature message point = true →
      message = writeHash ((unsignedOf tx).getHashForMultisig scheme.hash)

/-- What the multisig of an account is worth: `T` is the state that transactions are verified against. -/
structure MultisigAuthorises (T : Type) {ε : Type} [BlockchainVerificationState T P ε] : Prop where
  /-- The signatures stand in the way of every transaction. -/
  reached : ∀ (proofs : Proofs P) (tx : Transaction) (txHash : Hash) (s s' : T) prepared,
    Transaction.preVerify proofs tx txHash s = .ok prepared s' → ∃ checked t, throughSignatures proofs tx s = .ok checked t
  /-- Only the threshold of distinct participants passes. -/
  only : ∀ (proofs : Proofs P) (tx : Wire.Transaction S R), Made order same scheme.hash tx → ChecksBytes scheme proofs tx →
    ∀ (s t t' s' : T) checked r (config : MultiSigPayload),
      beforeSignatures proofs tx.parsed s = .ok checked t → getMultisigState tx.source t = .ok (some config) t' →
      throughSignatures proofs tx.parsed s = .ok r s' →
        Authorised scheme config tx ∧ ∀ signatures ∈ tx.multisig, (signatures.map Wire.SignatureId.id).Nodup
  /-- The node hashes what the participants have hashed. -/
  sameHash : ∀ (unsigned : UnsignedTransaction S R) (sign : IVec → Signature S) (signatures : List (Wire.SignatureId S)),
    unsigned.version ≠ .v0 → unsigned.multisig = some signatures →
      multisigHash scheme (unsigned.finalize sign) signatures.length = unsigned.getHashForMultisig scheme.hash
  /-- The signatures of the threshold of participants pass. -/
  accepts : ∀ (proofs : Proofs P) (unsigned : UnsignedTransaction S R) (config : MultiSigPayload)
    (signers : List (Nat × (IVec → Signature S))) (sign : IVec → Signature S) (source : P) (t t' : T),
    unsigned.version ≠ .v0 → unsigned.multisig = none → 0 < config.threshold → config.threshold ≤ MAX_MULTISIG_PARTICIPANTS →
    (signers.map Prod.fst).Nodup → signers.length = config.threshold → (∀ signer ∈ signers, SignsAs scheme config signer) →
    (∀ message, scheme.verify (sign message) message source = true) → getMultisigState unsigned.source t = .ok (some config) t' →
    ChecksBytes scheme proofs ((signers.foldl (UnsignedTransaction.signMultisig scheme.hash) unsigned).finalize sign) →
      Transaction.verifySignatures proofs
        ((signers.foldl (UnsignedTransaction.signMultisig scheme.hash) unsigned).finalize sign).parsed source t = .ok ⟨⟩ t'
  /-- Signatures made for a transaction do not pass in another one. -/
  binds : ∀ (proofs : Proofs P) (tx tx' : Wire.Transaction S R), tx.Valid order same → tx'.Valid order same →
    ChecksBytes scheme proofs tx' → (unsignedOf tx).withoutMultisig ≠ (unsignedOf tx').withoutMultisig →
    (scheme.hash (unsignedOf tx).writeNoSignature = scheme.hash (unsignedOf tx').writeNoSignature →
      (unsignedOf tx).writeNoSignature = (unsignedOf tx').writeNoSignature) →
    ∀ (s t t' s' : T) checked r (config : MultiSigPayload), 0 < config.threshold →
      (∀ signatures ∈ tx'.multisig, OnlyFor scheme config tx signatures) →
      beforeSignatures proofs tx'.parsed s = .ok checked t → getMultisigState tx'.source t = .ok (some config) t' →
        throughSignatures proofs tx'.parsed s ≠ .ok r s'

variable {order same scheme} {proofs : Proofs P} {s t t' s' : T} {config : MultiSigPayload}

theorem throughSignatures_authorised (hchecks : ChecksBytes scheme proofs tx) {checked r}
    (hbefore : (beforeSignatures proofs tx.parsed : Exec (VerificationError ε) T _) s = .ok checked t)
    (hconfig : getMultisigState tx.source t = .ok (some config) t')
    (h : (throughSignatures proofs tx.parsed : Exec (VerificationError ε) T _) s = .ok r s') : Authorised scheme config tx := by
  obtain ⟨config', hread, hholds⟩ := throughSignatures_ok hchecks hbefore h
  rw [hconfig] at hread
  cases hread
  exact hholds

theorem verifySignatures_signed {unsigned : UnsignedTransaction S R}
    {sign : IVec → Signature S} {source : P} (hversion : unsigned.version ≠ .v0) (hnone : unsigned.multisig = none)
    (hpos : 0 < config.threshold) (hlimit : config.threshold ≤ MAX_MULTISIG_PARTICIPANTS) (hnodup : (signers.map Prod.fst).Nodup)
    (hcount : signers.length = config.threshold) (hsigners : ∀ signer ∈ signers, SignsAs scheme config signer)
    (hsource : ∀ message, scheme.verify (sign message) message source = true)
    (hconfig : getMultisigState unsigned.source t = .ok (some config) t') (hchecks : ChecksBytes scheme proofs
      ((signers.foldl (UnsignedTransaction.signMultisig scheme.hash) unsigned).finalize sign)) :
    (Transaction.verifySignatures proofs
      ((signers.foldl (UnsignedTransaction.signMultisig scheme.hash) unsigned).finalize sign).parsed source :
      Exec (VerificationError ε) T PUnit) t = .ok ⟨⟩ t' := by
  have hsome : signers ≠ [] := List.ne_nil_of_length_pos (hcount ▸ hpos)
  rw [signed_eq hnone hsome hnodup] at hchecks ⊢
  refine (verifySignatures_ok hchecks fun h => absurd h hversion).mpr ⟨hsource _, some config, hconfig, ?_, ?_⟩
  · rintro c hc
    obtain rfl : config = c := Option.some.inj hc
    exact hlimit
  · refine ⟨_, rfl, by rw [List.length_map, hcount], fun sig hsig => ?_⟩
    obtain ⟨signer, hsigner, rfl⟩ := List.mem_map.mp hsig
    obtain ⟨key, point, hkey, hpoint, hverify⟩ := hsigners signer hsigner
    exact ⟨key, point, hkey, hpoint, hverify _⟩

theorem authorised_sameSigned (hvalid : tx.Valid order same) (hvalid' : tx'.Valid order same)
    (hcollision : scheme.hash (unsignedOf tx).writeNoSignature = scheme.hash (unsignedOf tx').writeNoSignature →
      (unsignedOf tx).writeNoSignature = (unsignedOf tx').writeNoSignature)
    (hpos : 0 < config.threshold) (honly : ∀ signatures ∈ tx'.multisig, OnlyFor scheme config tx signatures)
    (h : Authorised scheme config tx') : (unsignedOf tx).withoutMultisig = (unsignedOf tx').withoutMultisig := by
  obtain ⟨signatures, hmultisig, hlength, hall⟩ := h
  obtain ⟨sig, hsig⟩ := List.exists_mem_of_length_pos (hlength ▸ hpos)
  obtain ⟨key, point, hkey, hpoint, hverify⟩ := hall sig hsig
  have hmessage := honly signatures hmultisig sig hsig key point hkey hpoint _ hverify
  exact writeNoSignature_injective hvalid hvalid' (hcollision (writeHash_injective hmessage.symm))

/-- An account with a multisig is spent from with the signatures of the threshold of its participants, and they sign
one transaction. -/
theorem multisig_authorises : MultisigAuthorises order same scheme T where
  reached proofs tx txHash _ _ _ h := by
    rw [preVerify_eq_throughSignatures] at h
    obtain ⟨checked, t, hthrough, -⟩ := Exec.bind_ok_iff.mp h
    exact ⟨checked, t, hthrough⟩
  only _ _ hmade hchecks _ _ _ _ _ _ _ hbefore hconfig h :=
    ⟨throughSignatures_authorised hchecks hbefore hconfig h, hmade.nodup⟩
  sameHash _ _ _ hversion hsome := multisigHash_eq scheme hversion hsome
  accepts _ _ _ _ _ _ _ _ hversion hnone hpos hlimit hnodup hcount hsigners hsource hconfig hchecks :=
    verifySignatures_signed hversion hnone hpos hlimit hnodup hcount hsigners hsource hconfig hchecks
  binds _ _ _ hvalid hvalid' hchecks hother hcollision _ _ _ _ _ _ _ hpos honly hbefore hconfig h :=
    hother (authorised_sameSigned hvalid hvalid' hcollision hpos honly (throughSignatures_authorised hchecks hbefore hconfig h))

end Authorisation

section Samples

open Wire (GROUP_ORDER)
open State (ChainState Account)
open Transaction (preVerify verifySignatures sampleState clearEnv)

/-- The checks of a node that holds the bytes of a transaction. -/
def bytesProofs [CurveScalar S] [RangeProof R] (scheme : SignatureScheme S P) (proofs : Proofs P) (tx : Wire.Transaction S R) : Proofs P :=
  { proofs with
    txSize := fun _ => tx.toBytes.length
    verifySignature := fun _ source => scheme.verify tx.signature (tx.toBytes.take (tx.toBytes.length - SIGNATURE_SIZE)) source
    verifyMultisigSignature := fun _ sig key =>
      match Signature.read sig.signature with
      | .ok (signature, _) => scheme.verify signature (writeHash (multisigHash scheme tx (tx.multisig.getD []).length)) key
      | .error _ => false }

theorem bytesProofs_checks [CurveScalar S] [RangeProof R] (scheme : SignatureScheme S P) (proofs : Proofs P) (tx : Wire.Transaction S R) :
    ChecksBytes scheme (bytesProofs scheme proofs tx) tx where
  size := rfl
  signature _ := rfl
  multisig signatures hsome sig hsig key := by
    have hread := (Signature.codec (S := S)).reads false sig.signature trivial []
    rw [List.append_nil] at hread
    have hlist : tx.multisig.getD [] = signatures := by rw [hsome, Option.getD_some]
    simp only [bytesProofs, Wire.SignatureId.parsed, hread, hlist]

/-- What a signature says of a message. -/
def digest (message : IVec) : Fin GROUP_ORDER :=
  if h : message.length = 32 ∧ Lib.ofBeBytes message + 1 < GROUP_ORDER then ⟨Lib.ofBeBytes message + 1, h.2⟩ else ⟨0, Wire.groupOrder_pos⟩

def digestScheme : SignatureScheme (Fin GROUP_ORDER) ℤ where
  hash bytes := BitVec.ofNat 256 (bytes.map fun b => b.toNat + 1).sum
  verify signature message _ := signature.s = digest message

def digestSign (message : IVec) : Signature (Fin GROUP_ORDER) := ⟨digest message, ⟨0, Wire.groupOrder_pos⟩⟩

def burnUnsigned (version : TxVersion) (fee : Nat) : UnsignedTransaction (Fin GROUP_ORDER) IVec :=
  { unsignedOf (Wire.sampleTransaction (.burn ⟨0, 1⟩)) with version, fee, source := 7#256 }

def burnSigners : List (Nat × (IVec → Signature (Fin GROUP_ORDER))) := [(0, digestSign)]

/-- The only participant signs, then the source. -/
def burnSigned (version : TxVersion) (fee : Nat) : Wire.Transaction (Fin GROUP_ORDER) IVec :=
  (burnSigners.foldl (UnsignedTransaction.signMultisig digestScheme.hash) (burnUnsigned version fee)).finalize digestSign

def oneParticipant : MultiSigPayload := ⟨1, [9#256]⟩

/-- The source of the burn has a multisig. -/
def multisigState : ChainState ℤ :=
  { sampleState.inner with
    accounts := (∅ : Lib.FiniteMap PublicKey (Account ℤ)).insert 7#256 ⟨⟨none, 0⟩, ∅, some (.fetchedAt 0, some oneParticipant)⟩ }

theorem multisigState_configured : getMultisigState (7#256) multisigState = .ok (some oneParticipant) multisigState := by
  rfl

theorem burnSigners_sign : ∀ signer ∈ burnSigners, SignsAs digestScheme oneParticipant signer := by
  rintro signer hsigner
  obtain rfl := List.mem_singleton.mp hsigner
  exact ⟨9#256, 9, rfl, rfl, fun message => decide_eq_true rfl⟩

theorem burnSigned_valid (fee : Nat) (hfee : fee < U64_RANGE) :
    (burnSigned .v2 fee).Valid Wire.anyOrder (fun _ _ => false) := by
  have hsample : (Wire.sampleTransaction (.burn ⟨0, 1⟩)).Valid Wire.anyOrder (fun _ _ => false) :=
    Wire.sampleTransaction_valid (show 1 < U64_RANGE by decide)
  refine { hsample with fee := hfee, multisig := ?_ }
  rintro signatures hsome
  cases hsome
  exact ⟨show 1 < 2 ^ 8 by decide, List.nodup_singleton _, fun sig hsig => List.mem_singleton.mp hsig ▸ show 0 < 2 ^ 8 by decide⟩

theorem burnSigned_bytes_eq_iff :
    (burnSigned .v2 0).toBytes.take ((burnSigned .v2 0).toBytes.length - SIGNATURE_SIZE) =
        (burnSigned .v2 1).toBytes.take ((burnSigned .v2 1).toBytes.length - SIGNATURE_SIZE) ↔
      unsignedOf (burnSigned .v2 0) = unsignedOf (burnSigned .v2 1) :=
  signedBytes_eq_iff (burnSigned_valid 0 (by decide)) (burnSigned_valid 1 (by decide))

def burnChanged : Wire.Transaction (Fin GROUP_ORDER) IVec := { burnSigned .v2 0 with fee := 1 }

theorem digestSign_only {m m' : IVec} {key : ℤ} (h : digestScheme.verify (digestSign m) m' key = true) (hlen : m.length = 32)
    (hsmall : Lib.ofBeBytes m + 1 < GROUP_ORDER) : m' = m := by
  have h : digest m = digest m' := of_decide_eq_true h
  unfold digest at h
  rw [dif_pos ⟨hlen, hsmall⟩] at h
  split at h
  · rename_i hm
    have hequal : Lib.ofBeBytes m = Lib.ofBeBytes m' := Nat.succ_injective (congrArg Fin.val h)
    rw [← Lib.beBytes_ofBeBytes m', hm.1, ← hequal, ← hlen, Lib.beBytes_ofBeBytes]
  · exact absurd (congrArg Fin.val h) (Nat.succ_ne_zero _)

theorem burn_hashes :
    Lib.ofBeBytes (writeHash ((unsignedOf (burnSigned .v2 0)).getHashForMultisig digestScheme.hash)) + 1 < GROUP_ORDER ∧
      digestScheme.hash (unsignedOf (burnSigned .v2 0)).writeNoSignature ≠ digestScheme.hash (unsignedOf burnChanged).writeNoSignature := by
  decide +kernel

theorem burnSigned_multisig (version : TxVersion) (fee : Nat) : (burnSigned version fee).multisig =
    some [⟨0, digestSign (writeHash ((unsignedOf (burnSigned version fee)).getHashForMultisig digestScheme.hash))⟩] := rfl

theorem burnSigners_only : ∀ signatures ∈ burnChanged.multisig, OnlyFor digestScheme oneParticipant (burnSigned .v2 0) signatures := by
  intro signatures hsome sig hsig key point _ _ message hverify
  obtain rfl := Option.some.inj ((burnSigned_multisig .v2 0).symm.trans hsome)
  obtain rfl := List.mem_singleton.mp hsig
  exact digestSign_only hverify (length_writeHash _) burn_hashes.1

/-- The burn passes with the signature of the participant, and no longer once its fee is changed. -/
theorem multisig_authorises_burn :
    ((verifySignatures (bytesProofs digestScheme clearEnv.toProofs (burnSigned .v2 0)) (burnSigned .v2 0).parsed 7 :
        Exec (VerificationError BlockchainError) (ChainState ℤ) PUnit) multisigState = .ok ⟨⟩ multisigState) ∧
      ∀ (s t t' s' : ChainState ℤ) checked r,
        beforeSignatures (bytesProofs digestScheme clearEnv.toProofs burnChanged) burnChanged.parsed s = .ok checked t →
        getMultisigState burnChanged.source t = .ok (some oneParticipant) t' →
          throughSignatures (bytesProofs digestScheme clearEnv.toProofs burnChanged) burnChanged.parsed s ≠ .ok r s' := by
  have hauthorises : MultisigAuthorises Wire.anyOrder (fun _ _ : Wire.ValueCell (Fin GROUP_ORDER) IVec => false) digestScheme
      (ChainState ℤ) := multisig_authorises
  constructor
  · exact hauthorises.accepts _ (burnUnsigned .v2 0) oneParticipant burnSigners digestSign 7 multisigState multisigState nofun rfl
      (by decide) (by decide) (by decide) rfl burnSigners_sign (fun _ => decide_eq_true rfl) multisigState_configured
      (bytesProofs_checks _ _ _)
  · intro s t t' s' checked r
    have hvalid : burnChanged.Valid Wire.anyOrder (fun _ _ => false) :=
      { burnSigned_valid 0 (by decide) with fee := show 1 < U64_RANGE by decide }
    exact hauthorises.binds _ (burnSigned .v2 0) burnChanged (burnSigned_valid 0 (by decide)) hvalid (bytesProofs_checks _ _ _)
      (fun h => nomatch congrArg UnsignedTransaction.fee h) (fun h => absurd h burn_hashes.2) s t t' s' checked r oneParticipant
      (by decide) burnSigners_only

/-- A transaction of the first version is refused although the participant has signed it, and the node would hash
other bytes than those it signed. -/
theorem multisig_first_version :
    (burnUnsigned .v0 0).multisig = none ∧ (burnSigners.map Prod.fst).Nodup ∧ burnSigners.length = oneParticipant.threshold ∧
      (∀ signer ∈ burnSigners, SignsAs digestScheme oneParticipant signer) ∧
      (∀ message, digestScheme.verify (digestSign message) message 7 = true) ∧
      getMultisigState (burnUnsigned .v0 0).source multisigState = .ok (some oneParticipant) multisigState ∧
      ChecksBytes digestScheme (bytesProofs digestScheme clearEnv.toProofs (burnSigned .v0 0)) (burnSigned .v0 0) ∧
      (∀ txHash r s', preVerify (bytesProofs digestScheme clearEnv.toProofs (burnSigned .v0 0)) (burnSigned .v0 0).parsed txHash
        multisigState ≠ .ok r s') ∧
      multisigHash digestScheme (burnSigned .v0 0) 1 ≠ (burnUnsigned .v0 0).getHashForMultisig digestScheme.hash := by
  refine ⟨rfl, by decide, rfl, burnSigners_sign, fun _ => decide_eq_true rfl, multisigState_configured, bytesProofs_checks _ _ _,
    fun txHash r s' h => ?_, by decide +kernel⟩
  obtain ⟨⟨⟩, t, hrequire, -⟩ := Exec.bind_ok_iff.mp h
  exact absurd (Transaction.require_ok_iff.mp hrequire).1 (by decide)

end Samples

end Xelis.Wallet
