import Mathlib.Algebra.Order.BigOperators.Group.List
import Mathlib.Data.List.Forall2
import Xelis.Transaction.Coverage
import Xelis.Wallet.Build

/-! The fee a wallet computes is enough for the node, unless a contract is deployed with a constructor. -/

namespace Xelis.Wallet

open Wire (DataElement CurveScalar RangeProof Signature sizeOption GROUP_ORDER)

variable {P S R : Type} [RistrettoPoint P] [CurveScalar S] [RangeProof R]

section Lists

variable {ε α β γ : Type}

theorem forall₂_of_mapM {f : α → Except ε β} {xs : List α} {ys : List β} (h : xs.mapM f = .ok ys) :
    List.Forall₂ (fun x y => f x = .ok y) xs ys := by
  induction xs generalizing ys with
  | nil =>
    cases h
    exact .nil
  | cons x xs ih =>
    rw [List.mapM_cons] at h
    cases hx : f x with
    | error e =>
      rw [hx] at h
      cases h
    | ok y =>
      cases hxs : xs.mapM f with
      | error e =>
        rw [hx, hxs] at h
        cases h
      | ok zs =>
        rw [hx, hxs] at h
        cases h
        exact .cons hx (ih hxs)

theorem map_eq_of_forall₂ {r : α → β → Prop} {f : α → γ} {g : β → γ} {xs : List α} {ys : List β} (h : List.Forall₂ r xs ys)
    (hr : ∀ x ∈ xs, ∀ y, r x y → g y = f x) : ys.map g = xs.map f := by
  induction h with
  | nil => rfl
  | cons hxy _ ih =>
    rw [List.map_cons, List.map_cons, hr _ List.mem_cons_self _ hxy, ih fun x hx => hr x (List.mem_cons_of_mem _ hx)]

theorem map_zipIdx_fst (f : α → β) (xs : List α) : xs.zipIdx.map (fun e => f e.1) = xs.map f := by
  show xs.zipIdx.map (f ∘ Prod.fst) = _
  rw [← List.map_map, List.zipIdx_map_fst]

end Lists

variable {outputs : List TransferBuilder} {transfers : List (TransferWithCommitment P)}

section Outputs

variable {source : PublicKey}

theorem estimateSize_prepare {mainnet : Bool} {transfer prepared : TransferBuilder}
    (h : transfer.prepare source mainnet = .ok prepared) (version : TxVersion) :
    prepared.estimateSize version = transfer.estimateSize version ∧ prepared.destination.key = transfer.destination.key ∧
      getExtraData prepared.destination = none := by
  unfold TransferBuilder.prepare at h
  split at h
  · cases h
  · split at h
    · cases h
    · split at h
      · cases h
      · rename_i hboth
        split at h
        · cases h
        · cases h
          have hextra : ((getExtraData transfer.destination).or transfer.extraData).or none =
              transfer.extraData.or (getExtraData transfer.destination) := by
            cases hdata : transfer.extraData with
            | none => simp
            | some data =>
              cases haddress : getExtraData transfer.destination with
              | none => rfl
              | some other => exact absurd ⟨by rw [hdata]; rfl, by rw [haddress]; rfl⟩ hboth
          refine ⟨?_, rfl, rfl⟩
          unfold TransferBuilder.estimateSize TransferBuilder.estimateExtraData
          have hnormal : getExtraData { transfer.destination with addrType := .normal } = none := rfl
          dsimp only
          rw [hnormal, hextra]

omit [RistrettoPoint P] in
theorem length_extraDataBytes (prover : Prover P S R) (version : TxVersion) (index : Nat) (encrypt : Bool) (data : DataElement) :
    2 + (extraDataBytes prover version index encrypt data.write).length =
      if version = .v2 then ExtraDataType.estimateSize data encrypt else ExtraData.estimateSize data := by
  have hvec (bytes : IVec) : (writeVec writeByte bytes).length = 2 + bytes.length := by
    rw [writeVec, List.length_append, length_writeU16, flatMap_writeByte]
  unfold extraDataBytes ExtraDataType.estimateSize ExtraData.estimateSize RISTRETTO_COMPRESSED_SIZE
  split
  · split
    · simp only [List.length_append, length_writeU8, length_writeHash, hvec, prover.length_encryptInPlace]
      omega
    · simp only [List.length_append, length_writeU8, hvec, DataElement.size_eq]
      omega
  · simp only [List.length_append, length_writeHash, hvec, prover.length_encryptInPlace]
    omega

variable {prover : Prover P S R}

omit [RistrettoPoint P] in
theorem size_buildTransfer {version : TxVersion} {transfer : TransferWithCommitment P × Nat}
    {payload : Wire.TransferPayload S} (h : buildTransfer prover version transfer = .ok payload)
    (hnormal : getExtraData transfer.1.inner.destination = none) :
    payload.size = transfer.1.inner.estimateSize version ∧ payload.destination = transfer.1.inner.destination.key := by
  unfold buildTransfer at h
  dsimp only at h
  split at h
  · cases h
  · cases h
    refine ⟨?_, rfl⟩
    unfold Wire.TransferPayload.size TransferBuilder.estimateSize Wire.sizeProof validityProof
    have hextra : sizeOption (fun data : IVec => 2 + (data.map (fun _ => 1)).sum)
        (transfer.1.inner.extraData.map fun data =>
          extraDataBytes prover version transfer.2 transfer.1.inner.encryptExtraData data.write) =
        1 + transfer.1.inner.estimateExtraData version := by
      unfold TransferBuilder.estimateExtraData
      rw [hnormal, Option.or_none]
      cases transfer.1.inner.extraData with
      | none => rfl
      | some data =>
        have hsum (bytes : IVec) : (bytes.map (fun _ => 1)).sum = bytes.length := by simp
        show 1 + (2 + ((extraDataBytes prover version transfer.2 transfer.1.inner.encryptExtraData data.write).map (fun _ => 1)).sum) = _
        rw [hsum, length_extraDataBytes]
    rw [hextra]
    unfold RISTRETTO_COMPRESSED_SIZE SCALAR_SIZE
    by_cases hversion : version = .v0
    · simp only [hversion, if_pos, ne_eq, not_true_eq_false, if_false, Option.elim_none]
      omega
    · simp only [hversion, ne_eq, not_false_eq_true, if_true, if_false, Option.elim_some]
      omega

/-- The transfers keep their number, their sizes and their destinations, and no data is left in the addresses. -/
theorem prepareOutputs_ok {mainnet : Bool}
    (h : prepareOutputs prover source mainnet outputs = .ok transfers) (version : TxVersion) :
    transfers.map (fun t => t.inner.estimateSize version) = outputs.map (TransferBuilder.estimateSize version) ∧
      transfers.map (fun t => t.inner.destination.key) = outputs.map (fun t => t.destination.key) ∧
      ∀ t ∈ transfers, getExtraData t.inner.destination = none := by
  unfold prepareOutputs at h
  split at h
  · cases h
  · split at h
    · cases h
    · cases hprepared : outputs.mapM (TransferBuilder.prepare source mainnet) with
      | error e =>
        rw [hprepared] at h
        cases h
      | ok prepared =>
        rw [hprepared] at h
        dsimp only [bind, Except.bind] at h
        split at h
        · cases h
        · have hprepare := forall₂_of_mapM hprepared
          have hinner : transfers.map TransferWithCommitment.inner = prepared := by
            have hmap := map_eq_of_forall₂ (f := Prod.fst) (g := TransferWithCommitment.inner) (forall₂_of_mapM h) ?_
            · rw [hmap]
              exact List.zipIdx_map_fst 0 prepared
            · intro transfer _ t ht
              unfold withCommitment at ht
              split at ht
              · cases ht
              · cases ht
                rfl
          have hsizes : transfers.map (fun t => t.inner.estimateSize version) = prepared.map (TransferBuilder.estimateSize version) := by
            rw [← hinner, List.map_map]
            rfl
          have hkeys : transfers.map (fun t => t.inner.destination.key) = prepared.map (fun t => t.destination.key) := by
            rw [← hinner, List.map_map]
            rfl
          refine ⟨hsizes.trans ?_, hkeys.trans ?_, fun t ht => ?_⟩
          · exact map_eq_of_forall₂ hprepare fun transfer _ t ht => (estimateSize_prepare ht version).1
          · exact map_eq_of_forall₂ hprepare fun transfer _ t ht => (estimateSize_prepare ht version).2.1
          · have hmem : t.inner ∈ prepared := by
              rw [← hinner]
              exact List.mem_map_of_mem ht
            obtain ⟨i, hi, hget⟩ := List.getElem_of_mem hmem
            have hlen := hprepare.length_eq
            have hturn := hprepare.get (by omega) hi
            rw [← hget]
            exact (estimateSize_prepare hturn version).2.2

end Outputs

variable {maxGas n : Nat}

section Data

variable {deposits : List (Hash × ContractDepositBuilder)}

theorem no_private (h : checkDeposits deposits = .ok ()) : ∀ e ∈ deposits, e.2.priv = false := by
  induction deposits with
  | nil => exact fun e he => absurd he List.not_mem_nil
  | cons d ds ih =>
    unfold checkDeposits at h
    split at h
    · cases h
    · rename_i hpublic
      split at h
      · cases h
      · intro e he
        rcases List.mem_cons.mp he with rfl | he
        · exact Bool.not_eq_true _ ▸ hpublic
        · exact ih h e he

omit [CurveScalar S] in
theorem sizeDeposits_publicDeposits (h : ∀ e ∈ deposits, e.2.priv = false) :
    1 + Wire.sizeDeposits (TransactionBuilder.publicDeposits (S := S) deposits) = (estimateDepositsSize deposits).2 ∧
      (estimateDepositsSize deposits).1 = 0 := by
  have hfilter : deposits.filter (fun e => !e.2.priv) = deposits := by
    refine List.filter_eq_self.mpr fun e he => ?_
    rw [h e he]
    rfl
  constructor
  · unfold estimateDepositsSize Wire.sizeDeposits TransactionBuilder.publicDeposits
    rw [hfilter, List.map_map]
    congr 2
    refine List.map_congr_left fun e he => ?_
    show 32 + (1 + 8) = 32 + 1 + e.2.estimateSize
    rw [ContractDepositBuilder.estimateSize, h e he]
    rfl
  · unfold estimateDepositsSize
    have hnone : deposits.filter (fun e => e.2.priv) = [] := by
      refine List.filter_eq_nil_iff.mpr fun e he => ?_
      rw [h e he]
      exact Bool.false_ne_true
    rw [hnone]
    rfl

variable {prover : Prover P S R} {builder : TransactionBuilder S R}

omit [RistrettoPoint P] in
theorem length_module {text : IVec} {module : Wire.Module S R} (h : (hexDecode text).bind prover.moduleFromBytes = some module) :
    module.write.length ≤ text.length / 2 := by
  obtain ⟨bytes, hbytes, hmodule⟩ := Option.bind_eq_some_iff.mp h
  obtain ⟨context, rest, hread⟩ := prover.moduleFromBytes_read bytes module hmodule
  have hsound := ((Wire.Module.codec context).sound hread).2
  rw [length_hexDecode hbytes]
  omega

def constructorModule : TransactionTypeBuilder S R → Option IVec
  | .deployContract payload => if payload.invoke.isSome then some (stringBytes payload.module) else none
  | _ => none

/-- What is built and what was measured: the call of a constructor was measured one byte short. -/
structure Measured (prover : Prover P S R) (builder : TransactionBuilder S R) (transfers : List (TransferWithCommitment P))
    (data : Wire.TransactionType S R) : Prop where
  count : transfers.length = builder.data.commitmentsCount
  other : constructorModule builder.data = none → data.size ≤ 1 + builder.data.estimateSize builder.version
  constructor : ∀ text ∈ constructorModule builder.data, ∃ module : Wire.Module S R,
    (hexDecode text).bind prover.moduleFromBytes = some module ∧
      data.size + text.length / 2 = 1 + builder.data.estimateSize builder.version + 1 + module.write.length
  outputs : ∀ payloads, data = .transfers payloads → ∃ outputs, builder.data = .transfers outputs ∧
    payloads.map Wire.TransferPayload.destination = outputs.map (fun t => t.destination.key)

variable {transfers : List (TransferWithCommitment P)} {data : Wire.TransactionType S R} {mainnet : Bool}

theorem measured_transfers (hdata : builder.data = .transfers outputs)
    (hprepare : builder.prepare prover mainnet = .ok transfers) (hbuild : builder.buildData prover transfers = .ok data) :
    Measured prover builder transfers data := by
  unfold TransactionBuilder.prepare at hprepare
  unfold TransactionBuilder.buildData at hbuild
  rw [hdata] at hprepare hbuild
  obtain ⟨hsizes, hkeys, hnormal⟩ := prepareOutputs_ok hprepare builder.version
  cases hpayloads : transfers.zipIdx.mapM (buildTransfer prover builder.version) with
  | error e =>
    simp only [hpayloads, bind, Except.bind] at hbuild
    cases hbuild
  | ok payloads =>
    simp only [hpayloads, bind, Except.bind] at hbuild
    split at hbuild
    · cases hbuild
    · cases hbuild
      have hturns := forall₂_of_mapM hpayloads
      have hnormal' : ∀ e ∈ transfers.zipIdx, getExtraData e.1.inner.destination = none := by
        intro e he
        exact hnormal e.1 (List.fst_mem_of_mem_zipIdx he)
      have hpayloadSizes : payloads.map Wire.TransferPayload.size = outputs.map (TransferBuilder.estimateSize builder.version) := by
        rw [map_eq_of_forall₂ hturns fun e he payload h => (size_buildTransfer h (hnormal' e he)).1,
          map_zipIdx_fst (fun t : TransferWithCommitment P => t.inner.estimateSize builder.version), hsizes]
      have hpayloadKeys : payloads.map Wire.TransferPayload.destination = outputs.map (fun t => t.destination.key) := by
        rw [map_eq_of_forall₂ hturns fun e he payload h => (size_buildTransfer h (hnormal' e he)).2,
          map_zipIdx_fst (fun t : TransferWithCommitment P => t.inner.destination.key), hkeys]
      constructor
      · rw [hdata]
        show transfers.length = outputs.length
        rw [← List.length_map (fun t : TransferWithCommitment P => t.inner.destination.key), hkeys, List.length_map]
      · intro _
        rw [hdata]
        show 1 + (1 + _) ≤ 1 + (1 + _)
        rw [hpayloadSizes]
      · intro text htext
        rw [hdata] at htext
        cases htext
      · rintro _ ⟨⟩
        exact ⟨outputs, hdata, hpayloadKeys⟩

theorem checkGas_ok (h : TransactionBuilder.checkGas maxGas deposits = .ok ()) : ∀ e ∈ deposits, e.2.priv = false := by
  unfold TransactionBuilder.checkGas at h
  split at h
  · cases h
  · exact no_private h

omit [RistrettoPoint P] in
theorem prepare_gas
    (h : (do TransactionBuilder.checkGas maxGas deposits; return [] : Except GenerationError (List (TransferWithCommitment P))) =
      .ok transfers) : transfers = [] ∧ ∀ e ∈ deposits, e.2.priv = false := by
  cases hgas : TransactionBuilder.checkGas maxGas deposits with
  | error e =>
    rw [hgas] at h
    cases h
  | ok u =>
    rw [hgas] at h
    cases h
    exact ⟨rfl, checkGas_ok hgas⟩

theorem measured_multiSig {payload : MultiSigBuilder} (hdata : builder.data = .multiSig payload)
    (hprepare : builder.prepare prover mainnet = .ok transfers) (hbuild : builder.buildData prover transfers = .ok data) :
    Measured prover builder transfers data := by
  unfold TransactionBuilder.prepare at hprepare
  unfold TransactionBuilder.buildData at hbuild
  rw [hdata] at hprepare hbuild
  cases hprepare
  cases hpayload : builder.buildMultiSig payload with
  | error e =>
    simp only [hpayload, bind, Except.bind] at hbuild
    cases hbuild
  | ok built =>
    simp only [hpayload, bind, Except.bind] at hbuild
    cases hbuild
    have hle : built.participants.length ≤ payload.participants.length := by
      unfold TransactionBuilder.buildMultiSig at hpayload
      split at hpayload
      · cases hpayload
      · split at hpayload
        · cases hpayload
        · split at hpayload
          · cases hpayload
          · cases hpayload
            have hextend := Lib.IndexSet.length_extend_le .empty (payload.participants.map Wire.Address.key)
            rwa [List.length_map, Nat.add_comm] at hextend
    constructor
    · rw [hdata]
      rfl
    · intro _
      rw [hdata]
      show 1 + (1 + 1 + (built.participants.map (fun _ => 32)).sum) ≤ 1 + (1 + 1 + payload.participants.length * 32)
      simp only [List.map_const', List.sum_replicate_nat]
      omega
    · intro text htext
      rw [hdata] at htext
      cases htext
    · rintro payloads ⟨⟩

theorem measured_invoke {payload : InvokeContractBuilder S R} (hdata : builder.data = .invokeContract payload)
    (hprepare : builder.prepare prover mainnet = .ok transfers) (hbuild : builder.buildData prover transfers = .ok data) :
    Measured prover builder transfers data := by
  unfold TransactionBuilder.prepare at hprepare
  unfold TransactionBuilder.buildData at hbuild
  rw [hdata] at hprepare hbuild
  obtain ⟨rfl, hpublic⟩ := prepare_gas hprepare
  obtain ⟨hsize, hcount⟩ := sizeDeposits_publicDeposits (S := S) hpublic
  cases hbuild
  constructor
  · rw [hdata]
    exact hcount.symm
  · intro _
    rw [hdata]
    have hparameters : (payload.parameters.map Wire.ValueCell.size).sum ≤
        (payload.parameters.map (fun parameter => 4 + parameter.size)).sum :=
      List.sum_le_sum fun parameter _ => Nat.le_add_left _ _
    show 1 + (32 + 2 + 8 + 1 + Wire.sizeDeposits (TransactionBuilder.publicDeposits payload.deposits) + 1 +
      (payload.parameters.map Wire.ValueCell.size).sum) ≤ 1 + (32 + 8 + 2 + 1 +
        (payload.parameters.map (fun parameter => 4 + parameter.size)).sum + (estimateDepositsSize payload.deposits).2)
    omega
  · intro text htext
    rw [hdata] at htext
    cases htext
  · rintro payloads ⟨⟩

variable {payload : DeployContractBuilder}

theorem prepare_deploy (hdata : builder.data = .deployContract payload)
    (hprepare : builder.prepare prover mainnet = .ok transfers) :
    transfers = [] ∧ ∀ invoke ∈ payload.invoke, ∀ e ∈ invoke.deposits, e.2.priv = false := by
  unfold TransactionBuilder.prepare at hprepare
  rw [hdata] at hprepare
  dsimp only at hprepare
  split at hprepare
  · rename_i invoke hinvoke
    obtain ⟨hnil, hpublic⟩ := prepare_gas hprepare
    refine ⟨hnil, fun other hother => ?_⟩
    rw [hinvoke] at hother
    cases hother
    exact hpublic
  · rename_i hnone
    cases hprepare
    refine ⟨rfl, fun invoke hinvoke => ?_⟩
    rw [hnone] at hinvoke
    cases hinvoke

/-- The number of the deposits of a constructor takes two bytes, of which one was measured. -/
theorem measured_deploy (hdata : builder.data = .deployContract payload)
    (hprepare : builder.prepare prover mainnet = .ok transfers) (hbuild : builder.buildData prover transfers = .ok data) :
    Measured prover builder transfers data := by
  obtain ⟨rfl, hpublic⟩ := prepare_deploy hdata hprepare
  unfold TransactionBuilder.buildData at hbuild
  rw [hdata] at hbuild
  cases hpayload : TransactionBuilder.buildDeploy prover payload with
  | error e =>
    simp only [hpayload, bind, Except.bind] at hbuild
    cases hbuild
  | ok built =>
    simp only [hpayload, bind, Except.bind] at hbuild
    cases hbuild
    unfold TransactionBuilder.buildDeploy at hpayload
    split at hpayload
    · cases hpayload
    · rename_i module hmodule
      split at hpayload
      · cases hpayload
      · cases hpayload
        have hlen := length_module hmodule
        have hcommitments : builder.data.commitmentsCount = 0 := by
          rw [hdata]
          show payload.invoke.elim 0 _ = 0
          cases hinvoke : payload.invoke with
          | none => rfl
          | some invoke => exact (sizeDeposits_publicDeposits (S := S) (hpublic invoke hinvoke)).2
        refine ⟨hcommitments.symm, fun hother => ?_, fun text htext => ⟨module, ?_⟩, fun _ h => nomatch h⟩
        · rw [hdata] at hother ⊢
          have hnone : payload.invoke = none := by
            cases hinvoke : payload.invoke with
            | none => rfl
            | some invoke =>
              simp [constructorModule, hinvoke] at hother
          show 1 + (module.write.length + sizeOption _ (payload.invoke.map _)) ≤
            1 + ((stringBytes payload.module).length / 2 + 1 + payload.invoke.elim 0 _)
          rw [hnone]
          show 1 + (module.write.length + 1) ≤ 1 + ((stringBytes payload.module).length / 2 + 1 + 0)
          omega
        · rw [hdata] at htext ⊢
          cases hinvoke : payload.invoke with
          | none => simp [constructorModule, hinvoke] at htext
          | some invoke =>
            simp only [constructorModule, hinvoke, Option.isSome_some, if_true, Option.mem_some_iff] at htext
            subst htext
            refine ⟨hmodule, ?_⟩
            obtain ⟨hsize, -⟩ := sizeDeposits_publicDeposits (S := S) (hpublic invoke hinvoke)
            have hestimate : payload.estimateSize =
                (stringBytes payload.module).length / 2 + 1 + ((estimateDepositsSize invoke.deposits).2 + 8) := by
              rw [DeployContractBuilder.estimateSize, hinvoke]
              rfl
            show 1 + (module.write.length + (1 + (8 + (2 + Wire.sizeDeposits (TransactionBuilder.publicDeposits invoke.deposits))))) +
              (stringBytes payload.module).length / 2 = 1 + payload.estimateSize + 1 + module.write.length
            omega

theorem measured (hprepare : builder.prepare prover mainnet = .ok transfers) (hbuild : builder.buildData prover transfers = .ok data) :
    Measured prover builder transfers data := by
  cases hdata : builder.data with
  | transfers outputs => exact measured_transfers hdata hprepare hbuild
  | burn payload =>
    unfold TransactionBuilder.prepare at hprepare
    unfold TransactionBuilder.buildData at hbuild
    rw [hdata] at hprepare hbuild
    cases hprepare
    dsimp only at hbuild
    split at hbuild
    · cases hbuild
    · cases hbuild
      constructor
      · rw [hdata]
        rfl
      · intro _
        rw [hdata]
        exact Nat.le_refl _
      · intro text htext
        rw [hdata] at htext
        cases htext
      · rintro payloads ⟨⟩
  | multiSig payload => exact measured_multiSig hdata hprepare hbuild
  | invokeContract payload => exact measured_invoke hdata hprepare hbuild
  | deployContract payload => exact measured_deploy hdata hprepare hbuild

end Data

namespace UnsignedTransaction

theorem foldl_signMultisig (hash : IVec → Hash) (unsigned : UnsignedTransaction S R) (signers : List (Nat × (IVec → Signature S)))
    (hnodup : ((unsigned.multisig.getD []).map Wire.SignatureId.id ++ signers.map Prod.fst).Nodup) :
    ∃ multisig, signers.foldl (signMultisig hash) unsigned = { unsigned with multisig } ∧
      (multisig.getD []).length = (unsigned.multisig.getD []).length + signers.length ∧
      (multisig = none ↔ unsigned.multisig = none ∧ signers = []) := by
  induction signers generalizing unsigned with
  | nil => exact ⟨unsigned.multisig, rfl, rfl, by simp⟩
  | cons signer signers ih =>
    have hnew : signer.1 ∉ (unsigned.multisig.getD []).map Wire.SignatureId.id := by
      intro hmem
      exact List.disjoint_of_nodup_append hnodup hmem List.mem_cons_self
    have hsigned : ((unsigned.signMultisig hash signer).multisig.getD []).map Wire.SignatureId.id =
        (unsigned.multisig.getD []).map Wire.SignatureId.id ++ [signer.1] := by
      show (addSignature _ _).map _ = _
      unfold addSignature
      rw [if_neg hnew, List.map_append]
      rfl
    have hlen : ((unsigned.signMultisig hash signer).multisig.getD []).length = (unsigned.multisig.getD []).length + 1 := by
      have hlength := congrArg List.length hsigned
      simpa using hlength
    obtain ⟨multisig, hfold, hlength, hnone⟩ := ih (unsigned.signMultisig hash signer) (by
      rw [hsigned, List.append_assoc]
      exact hnodup)
    refine ⟨multisig, hfold, ?_, ?_⟩
    · rw [hlength, hlen, List.length_cons]
      omega
    · rw [hnone]
      simp [signMultisig]

end UnsignedTransaction

section Sufficient

variable {prover : Prover P S R} {builder : TransactionBuilder S R} {state state' : TransactionBuilderState P}
  {unsigned : UnsignedTransaction S R}

/-- A byte to spare for a constructor: the text of the module is longer than the module, or signatures were measured that the
transaction does not carry. -/
def HasSpareByte (prover : Prover P S R) (builder : TransactionBuilder S R) (text : IVec) : Prop :=
  (∃ module : Wire.Module S R, (hexDecode text).bind prover.moduleFromBytes = some module ∧ module.write.length < text.length / 2) ∨
    ∃ threshold ∈ builder.requiredThresholds, builder.version = .v0 ∨ threshold = 0

theorem clog_bullet_proof (h : 1 ≤ n) : Nat.clog 2 (BULLET_PROOF_SIZE * n) = 6 + Nat.clog 2 n := by
  have hstep (m : Nat) (hm : 1 ≤ m) : Nat.clog 2 (2 * m) = Nat.clog 2 m + 1 := by
    rw [Nat.clog_of_two_le (by decide) (by omega)]
    congr 2
    omega
  have hsix : BULLET_PROOF_SIZE * n = 2 * (2 * (2 * (2 * (2 * (2 * n))))) := by
    unfold BULLET_PROOF_SIZE
    omega
  rw [hsix, hstep _ (by omega), hstep _ (by omega), hstep _ (by omega), hstep _ (by omega), hstep _ (by omega), hstep _ h]
  omega

variable {values balances : List Nat}

omit [RistrettoPoint P] in
theorem length_prove {proof : R} (hne : 1 ≤ values.length)
    (h : TransactionBuilder.prove prover values = .ok proof) : (RangeProof.toBytes proof).length + 2 = rangeProofSize values.length := by
  unfold TransactionBuilder.prove at h
  split at h
  · rename_i found hfound
    cases h
    have hpow : values.length ≤ 2 ^ Nat.clog 2 values.length := Nat.le_pow_clog (by decide) _
    have hlen : (TransactionBuilder.padded values).length = 2 ^ Nat.clog 2 values.length := by
      rw [TransactionBuilder.padded, List.length_append, List.length_replicate]
      omega
    rw [prover.length_proveMultiple _ _ _ hlen hfound]
    unfold rangeProofSize RISTRETTO_COMPRESSED_SIZE SCALAR_SIZE
    rw [clog_bullet_proof hne]
    omega
  · cases h

omit [CurveScalar S] [RangeProof R] in
theorem one_le_usedAssets (data : TransactionTypeBuilder S R) : 1 ≤ data.usedAssets.length := by
  have hmem : XELIS_ASSET ∈ data.usedAssets := by
    cases data with
    | transfers outputs => exact List.mem_dedup.mpr List.mem_cons_self
    | burn payload => exact List.mem_dedup.mpr List.mem_cons_self
    | multiSig payload => exact List.mem_singleton_self _
    | invokeContract payload => exact List.mem_dedup.mpr List.mem_cons_self
    | deployContract payload => exact List.mem_singleton_self _
  exact List.length_pos_of_mem hmem

/-- The payload and the signatures are the only parts whose measure may differ. -/
theorem size_finalize (hbuilt : TransactionBuilder.Built prover builder state state' unsigned transfers balances)
    (multisig : Option (List (Wire.SignatureId S))) (sign : IVec → Signature S) :
    (({ unsigned with multisig } : UnsignedTransaction S R).finalize sign).size + (1 + builder.data.estimateSize builder.version) +
        ((if builder.version ≠ .v0 then 1 else 0) + builder.requiredThresholds.elim 0 (fun threshold => 1 + threshold * (SIGNATURE_SIZE + 1))) =
      builder.estimateSize + unsigned.data.size + if builder.version ≠ .v0 then sizeOption Wire.MultiSig.size multisig else 0 := by
  have hlen := (forall₂_of_mapM hbuilt.amounts).length_eq
  have hassets : ((prover.iterate builder.data.usedAssets).zip balances).map Prod.fst = prover.iterate builder.data.usedAssets :=
    List.map_fst_zip (by omega)
  obtain ⟨hcommitted, -⟩ := TransactionBuilder.commitSources_ok (by
    rw [hassets]
    exact TransactionBuilder.nodup_iterate prover _) hbuilt.sources
  rw [(prover.iterate_perm _).length_eq] at hlen
  have hcount : unsigned.sourceCommitments.length = builder.data.usedAssets.length := by
    rw [← List.length_map Wire.SourceCommitment.asset, hcommitted, hassets, (prover.iterate_perm _).length_eq]
  have hsources : (unsigned.sourceCommitments.map Wire.SourceCommitment.size).sum = builder.data.usedAssets.length * 256 := by
    show (unsigned.sourceCommitments.map (fun _ => 256)).sum = _
    rw [List.map_const', List.sum_replicate_nat, hcount]
  have hvalues : (balances ++ transfers.map (fun transfer => transfer.inner.amount)).length =
      builder.data.commitmentsCount + builder.data.usedAssets.length := by
    rw [List.length_append, List.length_map, (measured hbuilt.prepare hbuilt.data).count, ← hlen]
    omega
  have hproof := length_prove (by
    have hne := one_le_usedAssets builder.data
    omega) hbuilt.rangeProof
  rw [hvalues] at hproof
  unfold Wire.Transaction.size TransactionBuilder.estimateSize UnsignedTransaction.finalize RISTRETTO_COMPRESSED_SIZE SCALAR_SIZE
  dsimp only
  rw [hsources, hbuilt.version, hproof]
  have hsignature : SIGNATURE_SIZE = 64 := rfl
  omega

omit [CurveScalar S] [RangeProof R] in
/-- The signatures of the required participants take what was measured for them. A byte is left when none are required or when the
version does not write them. -/
theorem exists_slack (multisig : Option (List (Wire.SignatureId S))) (hcount : (multisig.getD []).length = builder.requiredThresholds.getD 0)
    (hnone : multisig = none ↔ builder.requiredThresholds.getD 0 = 0) :
    ∃ slack, (if builder.version ≠ .v0 then 1 else 0) +
        builder.requiredThresholds.elim 0 (fun threshold => 1 + threshold * (SIGNATURE_SIZE + 1)) =
      (if builder.version ≠ .v0 then sizeOption Wire.MultiSig.size multisig else 0) + slack ∧
      (0 < slack ↔ ∃ threshold ∈ builder.requiredThresholds, builder.version = .v0 ∨ threshold = 0) := by
  have hsignature : SIGNATURE_SIZE = 64 := rfl
  have hsize (signatures : List (Wire.SignatureId S)) : Wire.MultiSig.size signatures = 1 + signatures.length * 65 := by
    rw [Wire.MultiSig.size, List.map_const', List.sum_replicate_nat]
  by_cases hversion : builder.version = .v0
  · refine ⟨builder.requiredThresholds.elim 0 (fun threshold => 1 + threshold * (SIGNATURE_SIZE + 1)), by simp [hversion], ?_⟩
    cases builder.requiredThresholds with
    | none => simp
    | some threshold => simp [hversion]
  · cases hthreshold : builder.requiredThresholds with
    | none =>
      have hnil : multisig = none := hnone.mpr (by rw [hthreshold]; rfl)
      exact ⟨0, by simp [hversion, hnil, sizeOption], by simp⟩
    | some threshold =>
      rw [hthreshold] at hcount hnone
      by_cases hzero : threshold = 0
      · have hnil : multisig = none := hnone.mpr hzero
        exact ⟨1, by simp [hversion, hnil, hzero, sizeOption], by simp [hzero]⟩
      · cases multisig with
        | none => exact absurd (hnone.mp rfl) hzero
        | some signatures =>
          refine ⟨0, ?_, by simp [hversion, hzero]⟩
          have hlength : signatures.length = threshold := hcount
          simp [hversion, sizeOption, hsize, hlength, hsignature]

variable {multisig : Option (List (Wire.SignatureId S))}

/-- A constructor leaves the size within its measure when a byte is spare, and any other payload always does. -/
theorem size_le_iff (hbuilt : TransactionBuilder.Built prover builder state state' unsigned transfers balances)
    (hcount : (multisig.getD []).length = builder.requiredThresholds.getD 0)
    (hnone : multisig = none ↔ builder.requiredThresholds.getD 0 = 0) (sign : IVec → Signature S) :
    (({ unsigned with multisig } : UnsignedTransaction S R).finalize sign).size ≤ builder.estimateSize ↔
      ∀ text ∈ constructorModule builder.data, HasSpareByte prover builder text := by
  have hmeasured := measured hbuilt.prepare hbuilt.data
  have hsize := size_finalize hbuilt multisig sign
  obtain ⟨slack, hslack, hspare⟩ := exists_slack multisig hcount hnone
  rw [hslack] at hsize
  cases hconstructor : constructorModule builder.data with
  | none =>
    have hother := hmeasured.other hconstructor
    refine ⟨fun _ _ htext => (nomatch htext), fun _ => ?_⟩
    omega
  | some text =>
    obtain ⟨module, hmodule, hdata⟩ := hmeasured.constructor text hconstructor
    have hle := length_module hmodule
    have hshort : (∃ m : Wire.Module S R, (hexDecode text).bind prover.moduleFromBytes = some m ∧ m.write.length < text.length / 2) ↔
        module.write.length < text.length / 2 := by
      refine ⟨?_, fun h => ⟨module, hmodule, h⟩⟩
      rintro ⟨m, hm, hlt⟩
      rw [hmodule, Option.some.injEq] at hm
      rwa [hm]
    have hbyte : HasSpareByte prover builder text ↔ module.write.length < text.length / 2 ∨ 0 < slack := by
      rw [HasSpareByte, hshort, hspare]
    constructor
    · rintro hfits _ ⟨⟩
      rw [hbyte]
      omega
    · intro h
      have hor := hbyte.mp (h text rfl)
      omega

theorem required_le_expectedFee
    (hbuilt : TransactionBuilder.Built prover builder state state' unsigned transfers balances)
    (hcount : (multisig.getD []).length = builder.requiredThresholds.getD 0) (sign : IVec → Signature S)
    (hsize : (({ unsigned with multisig } : UnsignedTransaction S R).finalize sign).size ≤ builder.estimateSize)
    (accountExists : PublicKey → Bool) :
    estimateRequiredTxFees accountExists (({ unsigned with multisig } : UnsignedTransaction S R).finalize sign) ≤
      builder.expectedFee accountExists := by
  have hsignatures : multisig.elim 0 List.length ≤ builder.requiredThresholds.getD 0 := by
    rw [← hcount]
    cases multisig <;> exact Nat.le_refl _
  unfold estimateRequiredTxFees
  dsimp only
  split
  · rename_i payloads hpayloads
    obtain ⟨outputs, hdata, hkeys⟩ := (measured hbuilt.prepare hbuilt.data).outputs payloads hpayloads
    have hlength : payloads.length = outputs.length := by
      have hlen := congrArg List.length hkeys
      rwa [List.length_map, List.length_map] at hlen
    have hnew : ((payloads.map Wire.TransferPayload.destination).filter (fun key => !accountExists key)).dedup.length ≤
        (outputs.filter (fun transfer => !accountExists transfer.destination.key)).length := by
      rw [hkeys, List.filter_map]
      refine (List.dedup_sublist _).length_le.trans ?_
      rw [List.length_map]
      exact Nat.le_refl _
    unfold TransactionBuilder.expectedFee
    rw [hdata]
    exact calculateTxFee_mono hsize hlength.le hnew hsignatures
  · unfold TransactionBuilder.expectedFee
    split
    · exact calculateTxFee_mono hsize (Nat.zero_le _) (Nat.zero_le _) hsignatures
    · exact calculateTxFee_mono hsize (Nat.le_refl _) (Nat.le_refl _) hsignatures

/-- With the default fee or a boost, the final transaction stays within the estimated size and pays what the node asks for, just when
the byte that a constructor is measured short is spare. -/
theorem default_fees_sufficient (hash : IVec → Hash) (sign : IVec → Signature S) (signers : List (Nat × (IVec → Signature S))) {boost : Nat}
    (hbuild : builder.buildUnsigned prover state = .ok unsigned state') (hfee : builder.feeBuilder = .boost boost)
    (hfits : builder.expectedFee state.registeredKeys + boost < U64_RANGE) (hids : (signers.map Prod.fst).Nodup)
    (hsigners : signers.length = builder.requiredThresholds.getD 0) :
    let tx := (signers.foldl (UnsignedTransaction.signMultisig hash) unsigned).finalize sign
    (tx.size ≤ builder.estimateSize ∧ estimateRequiredTxFees state.registeredKeys tx ≤ tx.fee) ↔
      ∀ text ∈ constructorModule builder.data, HasSpareByte prover builder text := by
  obtain ⟨transfers, balances, hbuilt⟩ := TransactionBuilder.buildUnsigned_ok hbuild
  obtain ⟨multisig, hsigned, hlength, hnone⟩ := UnsignedTransaction.foldl_signMultisig hash unsigned signers (by
    rw [hbuilt.multisig]
    exact hids)
  rw [hbuilt.multisig] at hlength hnone
  have hcount : (multisig.getD []).length = builder.requiredThresholds.getD 0 := by
    rw [hlength, ← hsigners]
    exact Nat.zero_add _
  have hempty : multisig = none ↔ builder.requiredThresholds.getD 0 = 0 := by
    rw [hnone, ← hsigners, List.length_eq_zero_iff]
    exact and_iff_right rfl
  have hpaid : unsigned.fee = builder.expectedFee state.registeredKeys + boost := by
    rw [hbuilt.fee, TransactionBuilder.estimateFees, hfee]
    exact Nat.mod_eq_of_lt hfits
  intro tx
  have htx : tx = ({ unsigned with multisig } : UnsignedTransaction S R).finalize sign := by
    show (signers.foldl _ unsigned).finalize sign = _
    rw [hsigned]
  rw [htx, ← size_le_iff hbuilt hcount hempty sign]
  refine and_iff_left_of_imp fun hsize => ?_
  calc estimateRequiredTxFees state.registeredKeys (({ unsigned with multisig } : UnsignedTransaction S R).finalize sign)
    _ ≤ builder.expectedFee state.registeredKeys := required_le_expectedFee hbuilt hcount sign hsize _
    _ ≤ unsigned.fee := by
      rw [hpaid]
      exact Nat.le_add_right _ _

end Sufficient

def zeroSignature : Signature (Fin GROUP_ORDER) := { s := ⟨0, Wire.groupOrder_pos⟩, e := ⟨0, Wire.groupOrder_pos⟩ }

noncomputable def moduleContext : Wire.Context (Fin GROUP_ORDER) IVec :=
  { version := .v2, order := Wire.anyOrder, same := fun _ _ => false }

/-- A prover without randomness over the integers, where a proof is its own length in zeros. -/
noncomputable def plainProver : Prover ℤ (Fin GROUP_ORDER) IVec where
  publicKey := 0
  compress _ := 0
  amountOpening _ := ⟨0, Wire.groupOrder_pos⟩
  newWithOpening amount _ := amount
  decryptHandle _ _ := 0
  sourceCommitment _ _ := 0
  commitmentEqProof _ _ _ := Wire.sampleCommitment.proof
  validityPoints _ := (0, 0, 0)
  validityScalars _ := (⟨0, Wire.groupOrder_pos⟩, ⟨0, Wire.groupOrder_pos⟩)
  extraHandles _ := (0, 0)
  encryptInPlace _ data := data
  proveMultiple values := some (List.replicate (32 * 9 + 2 * 32 * (6 + values.length.log2)) 0)
  moduleFromBytes bytes := ((Wire.Module.read moduleContext false bytes).toOption).map Prod.fst
  sign _ := zeroSignature
  iterate assets := assets
  iterate_perm := .refl
  length_encryptInPlace _ _ := rfl
  length_proveMultiple values proof m hlen h := by
    cases h
    rw [hlen, Nat.log2_two_pow]
    exact List.length_replicate
  moduleFromBytes_read bytes module h := by
    cases hread : Wire.Module.read moduleContext false bytes with
    | error e =>
      rw [hread] at h
      cases h
    | ok found =>
      rw [hread] at h
      cases h
      exact ⟨moduleContext, found.2, hread⟩

def richState : TransactionBuilderState ℤ where
  registeredKeys _ := true
  mainnet := true
  balances := (∅ : Lib.FiniteMap Hash (Balance ℤ)).insert XELIS_ASSET { amount := 10 ^ 15, ciphertext := .decompressed ⟨10 ^ 15, 0⟩ }
  reference := { hash := 0, topoheight := 0 }
  nonce := 0
  txHashBuilt := none
  stableTopoheight := none

/-- A contract whose constructor takes 22 deposits. -/
def deployBuilder : TransactionBuilder (Fin GROUP_ORDER) IVec where
  version := .v2
  source := 1
  requiredThresholds := none
  data := .deployContract {
    -- one chunk of 36 bytes, and the hook of the constructor
    module := "0000000100000024000000000000000000000000000000000000000000000000000000000000000000000000000001000000"
    invoke := some { maxGas := 0, deposits := (List.range 22).map fun i => (i, { amount := 1, priv := false }) } }
  feeBuilder := .default

/-- The estimated size, the size, the fee and the fee the node asks for. -/
noncomputable def measuresOf (builder : TransactionBuilder (Fin GROUP_ORDER) IVec) : Option (Nat × Nat × Nat × Nat) :=
  match builder.buildUnsigned plainProver richState with
  | .ok unsigned _ =>
    let tx := unsigned.finalize plainProver.sign
    some (builder.estimateSize, tx.size, tx.fee, estimateRequiredTxFees richState.registeredKeys tx)
  | .error _ _ => none

/-- The byte that is missing begins a third kilobyte, and the node asks for more than the default fee. -/
theorem default_fees_constructor : measuresOf deployBuilder = some (2048, 2049, 20000, 30000) := by decide +kernel

def signedBurn : TransactionBuilder (Fin GROUP_ORDER) IVec where
  version := .v2
  source := 1
  requiredThresholds := some 2
  data := .burn { asset := XELIS_ASSET, amount := 1 }
  feeBuilder := .default

theorem default_fees_burn : ∃ unsigned state', signedBurn.buildUnsigned plainProver richState = .ok unsigned state' ∧
    let tx := ([(0, fun _ => zeroSignature), (1, fun _ => zeroSignature)].foldl (UnsignedTransaction.signMultisig fun _ => 0) unsigned).finalize
      plainProver.sign
    tx.size ≤ signedBurn.estimateSize ∧ estimateRequiredTxFees richState.registeredKeys tx ≤ tx.fee := by
  cases hbuild : signedBurn.buildUnsigned plainProver richState with
  | error e state' =>
    have hsome : (measuresOf signedBurn).isSome := by decide +kernel
    unfold measuresOf at hsome
    rw [hbuild] at hsome
    cases hsome
  | ok unsigned state' =>
    refine ⟨unsigned, state', rfl, ?_⟩
    refine (default_fees_sufficient (fun _ => 0) plainProver.sign [(0, fun _ => zeroSignature), (1, fun _ => zeroSignature)] hbuild rfl
      (by decide +kernel) (by decide) rfl).mpr ?_
    rintro text ⟨⟩

end Xelis.Wallet
