import Xelis.Lib.RoundRobin
import Xelis.State.Separation
import Xelis.Storage.Rewind
import Xelis.Transaction.Batches
import Xelis.Transaction.Coverage

namespace Xelis.Blockchain

open Lib (FiniteMap roundRobin groupOf)
open State (ChainState Kept Beside Along Loadable Known)

variable {P : Type} [RistrettoPoint P]

/-- What is known of a new block and of the chain when its transactions are verified. -/
structure BlockContext (P : Type) where
  storage : Storage P
  mainnet : Bool
  stableHeight : Nat
  stableTopoheight : TopoHeight
  currentTopoheight : TopoHeight
  version : BlockVersion
  blockHash : Hash
  /-- The hash of a transaction, computed from its bytes. -/
  txHash : Transaction → Hash
  /-- The transactions of the blocks between the tips and the stable height. -/
  parentsTxs : Except BlockchainError (List Hash)

/-- The state that every batch starts from. -/
def BlockContext.chainState (context : BlockContext P) : ChainState P :=
  ChainState.new context.storage context.mainnet context.stableTopoheight context.currentTopoheight context.version

def isV2Enabled (version : BlockVersion) : Bool := version = .v2 || version = .v3

/-- Whether a transaction has to be verified: one that another branch has executed is skipped. -/
def checkTransaction (proofs : Proofs P) (context : BlockContext P) (e : Transaction × Hash) :
    Except BlockchainError Bool := do
  if MAX_TRANSACTION_SIZE < proofs.txSize e.1 then
    throw (.txTooBig (proofs.txSize e.1) MAX_TRANSACTION_SIZE)
  if context.txHash e.1 ≠ e.2 then
    throw (.invalidTxInBlock (context.txHash e.1))
  let isExecuted ← match context.storage.getBlockExecutorForTx e.2 with
    | none => pure false
    | some executor => do
      let height ← context.storage.getHeightForBlockHash executor
      if height ≤ context.stableHeight then
        throw (.deadTxFromStableHeight context.blockHash e.2 context.stableHeight executor)
      pure true
  if isV2Enabled context.version || isExecuted then
    let parents ← context.parentsTxs
    if parents.contains e.2 then
      throw (.deadTxFromTips context.blockHash e.2)
    return !isExecuted
  return true

/-- The transactions to verify, all together in their order and grouped by source. -/
structure Collected where
  batch : List (Transaction × Hash)
  grouped : FiniteMap PublicKey (List (Transaction × Hash))

def Collected.empty : Collected := { batch := [], grouped := ∅ }

def Collected.push (collected : Collected) (e : Transaction × Hash) : Collected where
  batch := collected.batch ++ [e]
  grouped := collected.grouped.insert e.1.source (collected.grouped[e.1.source]?.getD [] ++ [e])

def collectTransactions (proofs : Proofs P) (context : BlockContext P) (txs : List (Transaction × Hash)) :
    Except BlockchainError Collected :=
  txs.foldlM (fun collected e => do
    if ← checkTransaction proofs context e then return collected.push e
    else return collected) Collected.empty

/-- How the node is set up: the number of threads, and in which order a hash map gives its keys. -/
structure Threading where
  txsVerificationThreadsCount : Nat
  isMultiThreadsSupported : Bool
  order : List PublicKey → List PublicKey
  perm : ∀ keys, (order keys).Perm keys

/-- The groups dealt out over as many batches as there are threads, or groups. -/
def batchesOf (threading : Threading) (collected : Collected) : List (List (Transaction × Hash)) :=
  let batchesCount := min collected.grouped.size threading.txsVerificationThreadsCount
  let queue := (threading.order collected.grouped.keys).map (fun key => collected.grouped[key]?.getD [])
  roundRobin batchesCount queue

def verifyBatch (proofs : Proofs P) (context : BlockContext P) (batch : List (Transaction × Hash)) :
    Except (VerificationError BlockchainError) PUnit :=
  match context.chainState.verifyBatch proofs batch with
  | .ok _ _ => .ok ⟨⟩
  | .error e _ => .error e

/-- The verification of the transactions of a block. Of several batches that fail, the first one gives the error. -/
def verifyTransactions (proofs : Proofs P) (context : BlockContext P) (threading : Threading)
    (txs : List (Transaction × Hash)) : Except (VerificationError BlockchainError) PUnit := do
  let collected ← (collectTransactions proofs context txs).mapError .state
  if collected.batch.isEmpty then
    return ⟨⟩
  if threading.txsVerificationThreadsCount > 1 && threading.isMultiThreadsSupported then
    (batchesOf threading collected).forM (verifyBatch proofs context)
  else
    verifyBatch proofs context collected.batch

variable {txs txs' batch : List (Transaction × Hash)} {e : Transaction × Hash}

section Separate

def NoForeignCalls (txs : List (Transaction × Hash)) : Prop :=
  ∀ deploy ∈ txs, deploy.1.Deploys → ∀ call ∈ txs, ∀ payload, call.1.data = .invokeContract payload →
    payload.contract = deploy.2 → call.1.source = deploy.1.source

def deployedByOthers (txs : List (Transaction × Hash)) (key : PublicKey) (hash : Hash) : Prop :=
  ∃ e ∈ txs, e.1.source ≠ key ∧ e.1.Deploys ∧ e.2 = hash

theorem NoForeignCalls.subset (h : NoForeignCalls txs) (hsubset : ∀ e ∈ txs', e ∈ txs) : NoForeignCalls txs' :=
  fun deploy hdeploy hdeploys call hcall => h deploy (hsubset deploy hdeploy) hdeploys call (hsubset call hcall)

variable {txs : List (Transaction × Hash)} {c c' d : ChainState P}

/-- A transaction of another sender does not show to the side of `key`. -/
theorem beside_of_kept {key : PublicKey} (hmem : e ∈ txs) (hne : e.1.source ≠ key)
    (h : Beside key (deployedByOthers txs key) c d) (hkept : Kept e.1 e.2 c c')
    (hload : Loadable (Known c'.storage c'.topoheight) c'.receiverBalances) :
    Beside key (deployedByOthers txs key) c' d where
  storage := hkept.storage.trans h.storage
  topoheight := hkept.topoheight.trans h.topoheight
  blockVersion := hkept.blockVersion.trans h.blockVersion
  account := (hkept.others key (Ne.symm hne)).trans h.account
  receivers := hload
  receivers' := h.receivers'
  contracts hash := by
    rcases hkept.contracts hash with hsame | ⟨hdeploys, rfl, ⟨module, hstart⟩, module', hnow⟩
    · rw [hsame]
      exact h.contracts hash
    · refine .inr ⟨⟨e, hmem, hne, hdeploys, rfl⟩, ⟨_, hnow⟩, ?_⟩
      rcases h.contracts e.2 with hsame | ⟨-, -, hnew⟩
      · exact ⟨module, hsame.symm.trans hstart⟩
      · exact hnew

theorem inTurn_iff_groups (proofs : Proofs P) (hcalls : NoForeignCalls txs) (rest : List (Transaction × Hash))
    (hrest : ∀ e ∈ rest, e ∈ txs) (c : ChainState P) (alone : PublicKey → ChainState P)
    (h : ∀ key, Beside key (deployedByOthers txs key) c (alone key)) :
    ChainState.InTurn proofs rest c ↔
      ∀ key, ChainState.InTurn proofs (groupOf (fun e => e.1.source) rest key) (alone key) := by
  induction rest generalizing c alone with
  | nil => exact iff_of_true trivial fun _ => trivial
  | cons e rest ih =>
    have hmem : e ∈ txs := hrest e List.mem_cons_self
    have hown (payload : InvokeContractPayload) (hdata : e.1.data = .invokeContract payload) :
        ¬deployedByOthers txs e.1.source payload.contract := by
      rintro ⟨deploy, hdeploy, hne, hdeploys, heq⟩
      exact hne (hcalls deploy hdeploy hdeploys e hmem payload hdata heq.symm).symm
    have halike := (h e.1.source).preVerify hown proofs
    have hself : groupOf (fun e => e.1.source) (e :: rest) e.1.source =
        e :: groupOf (fun e => e.1.source) rest e.1.source := by
      unfold groupOf
      rw [List.filter_cons_of_pos (by simp)]
    have hother (key : PublicKey) (hne : e.1.source ≠ key) :
        groupOf (fun e => e.1.source) (e :: rest) key = groupOf (fun e => e.1.source) rest key := by
      unfold groupOf
      rw [List.filter_cons_of_neg (by simpa using hne)]
    -- what is left after the transaction, with the sender's own state moved on
    have hstep (c' d' : ChainState P) (hboth : Along e.1 e.2 (deployedByOthers txs e.1.source) c c' d') :
        ChainState.InTurn proofs rest c' ↔ ∀ key, ChainState.InTurn proofs (groupOf (fun e => e.1.source) rest key)
          (if e.1.source = key then d' else alone key) := by
      refine ih (fun e he => hrest e (List.mem_cons_of_mem _ he)) c' _ fun key => ?_
      by_cases hkey : e.1.source = key
      · rw [if_pos hkey, ← hkey]
        exact hboth.1
      · rw [if_neg hkey]
        exact beside_of_kept hmem hkey (h key) hboth.2 hboth.1.receivers
    constructor
    · rintro ⟨prepared, c', hc, hproofs, hturn⟩ key
      rw [hc] at halike
      generalize hd : (alone e.1.source).preVerify proofs e = verdict at halike
      cases halike with
      | ok _ hboth =>
        have hgroup := (hstep c' _ hboth).mp hturn key
        by_cases hkey : e.1.source = key
        · rw [if_pos hkey] at hgroup
          subst hkey
          rw [hself]
          exact ⟨prepared, _, hd, hproofs, hgroup⟩
        · rw [if_neg hkey] at hgroup
          rw [hother key hkey]
          exact hgroup
    · intro hgroups
      have hsource := hgroups e.1.source
      rw [hself] at hsource
      obtain ⟨prepared, d', hd, hproofs, hturn⟩ := hsource
      rw [hd] at halike
      generalize hc : c.preVerify proofs e = verdict at halike
      cases halike with
      | ok _ hboth =>
        refine ⟨prepared, _, hc, hproofs, (hstep _ d' hboth).mpr fun key => ?_⟩
        by_cases hkey : e.1.source = key
        · rw [if_pos hkey, ← hkey]
          exact hturn
        · rw [if_neg hkey, ← hother key hkey]
          exact hgroups key

/-- What a sender does without calls to contracts of the others is accepted on its own, if it is among them. -/
theorem inTurn_own (proofs : Proofs P) {key : PublicKey} {mine rest : List (Transaction × Hash)} {alone : ChainState P}
    (hown : ∀ e ∈ mine, ∀ payload, e.1.data = .invokeContract payload → ¬deployedByOthers txs key payload.contract)
    (hmine : mine <+: groupOf (fun e => e.1.source) rest key) (hrest : ∀ e ∈ rest, e ∈ txs)
    (hload : Loadable (Known c.storage c.topoheight) c.receiverBalances) (h : Beside key (deployedByOthers txs key) c alone)
    (hturn : ChainState.InTurn proofs rest c) : ChainState.InTurn proofs mine alone := by
  induction rest generalizing c alone mine with
  | nil =>
    rw [List.prefix_nil.mp hmine]
    trivial
  | cons e rest ih =>
    obtain ⟨prepared, c', hc, hproofs, hturn⟩ := hturn
    obtain ⟨hkept, hload'⟩ := ChainState.preVerify_kept hload hc
    have hlater := fun e he => hrest e (List.mem_cons_of_mem _ he)
    unfold groupOf at hmine ih
    by_cases hkey : e.1.source = key
    · subst hkey
      rw [List.filter_cons_of_pos (by simp)] at hmine
      rcases List.prefix_cons_iff.mp hmine with rfl | ⟨mine, rfl, htail⟩
      · trivial
      · have halike := h.preVerify (hown e List.mem_cons_self) proofs
        rw [hc] at halike
        generalize hd : alone.preVerify proofs e = verdict at halike
        cases halike with
        | ok _ hboth =>
          exact ⟨prepared, _, hd, hproofs, ih (fun e he => hown e (List.mem_cons_of_mem _ he)) htail hlater hload' hboth.1 hturn⟩
    · rw [List.filter_cons_of_neg (by simpa using hkey)] at hmine
      exact ih hown hmine hlater hload' (beside_of_kept (hrest e List.mem_cons_self) hkey h hkept hload') hturn

end Separate

section Contracts

variable {proofs : Proofs P} {txs : List (Transaction × Hash)} {c : ChainState P}

theorem inTurn_deployed (hturn : ChainState.InTurn proofs txs c)
    (hload : Loadable (Known c.storage c.topoheight) c.receiverBalances) (hmem : e ∈ txs)
    (hdeploys : e.1.Deploys) : ∃ module, c.findContract e.2 = .ok (.new, module) := by
  induction txs generalizing c with
  | nil => cases hmem
  | cons first rest ih =>
    obtain ⟨prepared, c', hc, -, hrest⟩ := hturn
    obtain ⟨hkept, hload'⟩ := ChainState.preVerify_kept hload hc
    rcases List.mem_cons.mp hmem with rfl | hmem
    · exact ChainState.preVerify_deployed hload hc hdeploys
    · obtain ⟨module, hnew⟩ := ih hrest hload' hmem
      rcases hkept.contracts e.2 with hsame | ⟨-, -, hstart, -⟩
      · exact ⟨module, hsame ▸ hnew⟩
      · exact hstart

/-- A contract that one of the transactions calls and none of them deploys was there before. -/
theorem inTurn_invoked (hturn : ChainState.InTurn proofs txs c)
    (hload : Loadable (Known c.storage c.topoheight) c.receiverBalances) (hmem : e ∈ txs)
    {payload : InvokeContractPayload} (hdata : e.1.data = .invokeContract payload)
    (hnone : ∀ deploy ∈ txs, deploy.1.Deploys → deploy.2 ≠ payload.contract) :
    ∃ state module, c.findContract payload.contract = .ok (state, some module) := by
  induction txs generalizing c with
  | nil => cases hmem
  | cons first rest ih =>
    obtain ⟨prepared, c', hc, -, hrest⟩ := hturn
    obtain ⟨hkept, hload'⟩ := ChainState.preVerify_kept hload hc
    rcases List.mem_cons.mp hmem with rfl | hmem
    · exact ChainState.preVerify_invoked hload hc hdata
    · have hsame := (hkept.contracts payload.contract).resolve_right fun h =>
        hnone first List.mem_cons_self h.1 h.2.1.symm
      rw [← hsame]
      exact ih hrest hload' hmem fun deploy hdeploy => hnone deploy (List.mem_cons_of_mem _ hdeploy)

omit [RistrettoPoint P] in
/-- A state that has loaded nothing yet knows modules of the storage only. -/
theorem findContract_new {context : BlockContext P} {hash : Hash} {module : Option Module}
    (h : context.chainState.findContract hash = .ok (.new, module)) : module = none := by
  unfold ChainState.findContract BlockContext.chainState ChainState.new at h
  simp only [Std.ExtTreeMap.getElem?_empty] at h
  cases hstored : context.storage.getContractAtMaximumTopoheightFor hash context.currentTopoheight with
  | error e =>
    rw [hstored] at h
    cases h
  | ok found =>
    rw [hstored] at h
    cases found with
    | none =>
      cases h
      rfl
    | some found => cases h

end Contracts

variable {collected : Collected}

section Collected

/-- The groups are the transactions of each source, in their order. -/
def Collected.Grouped (collected : Collected) : Prop :=
  ∀ key : PublicKey, collected.grouped[key]? =
    if groupOf (fun e => e.1.source) collected.batch key = [] then none
    else some (groupOf (fun e => e.1.source) collected.batch key)

theorem grouped_empty : Collected.empty.Grouped := fun _ => Std.ExtTreeMap.getElem?_empty

theorem Collected.Grouped.getD (h : collected.Grouped) (key : PublicKey) :
    collected.grouped[key]?.getD [] = groupOf (fun e => e.1.source) collected.batch key := by
  rw [h key]
  split
  · rename_i hempty
    exact hempty.symm
  · rfl

theorem Collected.Grouped.push (h : collected.Grouped) (e : Transaction × Hash) : (collected.push e).Grouped := by
  intro key
  unfold Collected.push
  dsimp only
  rw [Lib.groupOf_append, h.getD]
  by_cases hkey : e.1.source = key
  · subst hkey
    have hone : groupOf (fun e : Transaction × Hash => e.1.source) [e] e.1.source = [e] := by simp [groupOf]
    rw [FiniteMap.getElem?_insert_self', hone, if_neg (by simp)]
  · have hnone : groupOf (fun e : Transaction × Hash => e.1.source) [e] key = [] := by simp [groupOf, hkey]
    rw [FiniteMap.getElem?_insert_of_ne _ _ hkey, hnone, List.append_nil]
    exact h key

def toVerify (proofs : Proofs P) (context : BlockContext P) (txs : List (Transaction × Hash)) : List (Transaction × Hash) :=
  txs.filter (fun e =>
    match checkTransaction proofs context e with
    | .ok verified => verified
    | .error _ => false)

variable {proofs : Proofs P} {context : BlockContext P} {txs : List (Transaction × Hash)} {collected : Collected}

section

omit [RistrettoPoint P]

theorem checkTransaction_hash {verified : Bool}
    (h : checkTransaction proofs context e = .ok verified) : context.txHash e.1 = e.2 := by
  by_contra hne
  unfold checkTransaction at h
  by_cases hsize : MAX_TRANSACTION_SIZE < proofs.txSize e.1
  · rw [if_pos hsize] at h
    cases h
  · rw [if_neg hsize] at h
    dsimp only at h
    rw [if_pos hne] at h
    cases h

theorem mem_toVerify_hash (h : e ∈ toVerify proofs context txs) : context.txHash e.1 = e.2 := by
  have hcheck := (List.mem_filter.mp h).2
  cases hverified : checkTransaction proofs context e with
  | ok verified => exact checkTransaction_hash hverified
  | error error =>
    rw [hverified] at hcheck
    cases hcheck

theorem collectTransactions_ok (h : collectTransactions proofs context txs = .ok collected) :
    collected.batch = toVerify proofs context txs ∧ collected.Grouped := by
  have hloop (start : Collected) (hstart : start.Grouped)
      (h : txs.foldlM (fun collected e => do
        if ← checkTransaction proofs context e then return collected.push e
        else return collected) start = .ok collected) :
      collected.batch = start.batch ++ toVerify proofs context txs ∧ collected.Grouped := by
    clear * - h hstart
    induction txs generalizing start with
    | nil =>
      cases h
      exact ⟨(List.append_nil _).symm, hstart⟩
    | cons e rest ih =>
      rw [List.foldlM_cons] at h
      unfold toVerify
      rw [List.filter_cons]
      cases hcheck : checkTransaction proofs context e with
      | error error =>
        rw [hcheck] at h
        cases h
      | ok verified =>
        rw [hcheck] at h
        cases verified with
        | true =>
          obtain ⟨hbatch, hgrouped⟩ := ih (start.push e) (hstart.push e) h
          refine ⟨?_, hgrouped⟩
          rw [hbatch]
          exact List.append_assoc ..
        | false => exact ih start hstart h
  have hcollected := hloop Collected.empty grouped_empty h
  exact ⟨by simpa [Collected.empty] using hcollected.1, hcollected.2⟩

end

end Collected

section Batches

variable {proofs : Proofs P} {context : BlockContext P} {txs : List (Transaction × Hash)} {collected : Collected}
  {threading : Threading}

theorem loadable_chainState (context : BlockContext P) :
    Loadable (Known context.chainState.storage context.chainState.topoheight) context.chainState.receiverBalances :=
  State.loadable_empty _

theorem verifyBatch_ok_iff (proofs : Proofs P) (context : BlockContext P) (batch : List (Transaction × Hash)) :
    verifyBatch proofs context batch = .ok ⟨⟩ ↔ ChainState.InTurn proofs batch context.chainState := by
  rw [← ChainState.verifyBatch_ok_iff]
  unfold verifyBatch
  cases context.chainState.verifyBatch proofs batch with
  | ok a c => exact iff_of_true rfl ⟨c, rfl⟩
  | error e c =>
    constructor
    · intro h
      cases h
    · rintro ⟨c', h⟩
      cases h

theorem forM_ok_iff {α ε : Type} (f : α → Except ε PUnit) (l : List α) :
    l.forM f = .ok ⟨⟩ ↔ ∀ a ∈ l, f a = .ok ⟨⟩ := by
  induction l with
  | nil => exact iff_of_true rfl fun _ h => nomatch h
  | cons a l ih =>
    rw [List.forall_mem_cons, ← ih]
    show (f a >>= fun _ => l.forM f) = _ ↔ _
    cases f a with
    | ok u => exact ⟨fun h => ⟨rfl, h⟩, fun h => h.2⟩
    | error e =>
      constructor
      · intro h
        cases h
      · rintro ⟨h, -⟩
        cases h

theorem Collected.Grouped.mem_keys (h : collected.Grouped) (key : PublicKey) :
    key ∈ collected.grouped.keys ↔ groupOf (fun e => e.1.source) collected.batch key ≠ [] := by
  rw [Std.ExtTreeMap.mem_keys, Std.ExtTreeMap.mem_iff_isSome_getElem?, h key]
  split <;> simp_all

theorem batchesOf_eq (h : collected.Grouped) (threading : Threading) :
    batchesOf threading collected =
      roundRobin (min collected.grouped.size threading.txsVerificationThreadsCount)
        ((threading.order collected.grouped.keys).map (groupOf (fun e => e.1.source) collected.batch)) := by
  unfold batchesOf
  dsimp only
  congr 1
  exact List.map_congr_left fun key _ => h.getD key

theorem batchesOf_dealt (h : collected.Grouped) (hbatch : collected.batch ≠ [])
    (hthreads : 1 < threading.txsVerificationThreadsCount) :
    Lib.Dealt (fun e => e.1.source) collected.batch (threading.order collected.grouped.keys)
      (batchesOf threading collected) := by
  have hperm := threading.perm collected.grouped.keys
  have hkeys : 0 < collected.grouped.keys.length := by
    obtain ⟨e, rest, hcons⟩ := List.exists_cons_of_ne_nil hbatch
    refine List.length_pos_of_mem (a := e.1.source) ((h.mem_keys e.1.source).mpr ?_)
    rw [hcons]
    simp [groupOf]
  rw [Std.ExtTreeMap.length_keys] at hkeys
  rw [batchesOf_eq h]
  exact Lib.dealt_roundRobin (by omega) (hperm.nodup_iff.mpr Std.ExtTreeMap.nodup_keys)

theorem beside_chainState (context : BlockContext P) (key : PublicKey) (foreign : Hash → Prop) :
    Beside key foreign context.chainState context.chainState := Beside.refl key foreign (loadable_chainState context)

theorem batches_iff (hgrouped : collected.Grouped) (hbatch : collected.batch ≠ [])
    (hthreads : 1 < threading.txsVerificationThreadsCount) (hcalls : NoForeignCalls collected.batch) :
    (∀ batch ∈ batchesOf threading collected, ChainState.InTurn proofs batch context.chainState) ↔
      ChainState.InTurn proofs collected.batch context.chainState := by
  have hdealt := batchesOf_dealt hgrouped hbatch hthreads
  have hbatches : ∀ batch ∈ batchesOf threading collected, (ChainState.InTurn proofs batch context.chainState ↔
      ∀ key, ChainState.InTurn proofs (groupOf (fun e => e.1.source) batch key) context.chainState) := by
    intro batch hmem
    exact inTurn_iff_groups proofs (hcalls.subset (hdealt.subset batch hmem)) batch (fun _ => id) _ _
      fun key => beside_chainState context key _
  rw [inTurn_iff_groups proofs hcalls collected.batch (fun _ => id) _ (fun _ => context.chainState)
    fun key => beside_chainState context key _]
  constructor
  · intro hall key
    by_cases hempty : groupOf (fun e => e.1.source) collected.batch key = []
    · rw [hempty]
      trivial
    · have hkey : key ∈ threading.order collected.grouped.keys :=
        (threading.perm _).mem_iff.mpr ((hgrouped.mem_keys key).mpr hempty)
      obtain ⟨batch, hmem, hsame⟩ := hdealt.placed key hkey
      rw [← hsame]
      exact (hbatches batch hmem).mp (hall batch hmem) key
  · intro hall batch hmem
    refine (hbatches batch hmem).mpr fun key => ?_
    rcases hdealt.whole batch hmem key with hempty | ⟨-, hsame⟩
    · rw [hempty]
      trivial
    · rw [hsame]
      exact hall key

theorem groupOf_mem_batchesOf (hgrouped : collected.Grouped)
    (hthreads : collected.grouped.size ≤ threading.txsVerificationThreadsCount) {key : PublicKey}
    (hkey : groupOf (fun e => e.1.source) collected.batch key ≠ []) :
    groupOf (fun e => e.1.source) collected.batch key ∈ batchesOf threading collected := by
  have hperm := threading.perm collected.grouped.keys
  have hcount : min collected.grouped.size threading.txsVerificationThreadsCount =
      ((threading.order collected.grouped.keys).map (groupOf (fun e => e.1.source) collected.batch)).length := by
    rw [List.length_map, hperm.length_eq, Std.ExtTreeMap.length_keys, Nat.min_eq_left hthreads]
  rw [batchesOf_eq hgrouped, hcount, Lib.roundRobin_length]
  exact List.mem_map_of_mem (hperm.mem_iff.mpr ((hgrouped.mem_keys key).mpr hkey))

/-- A call to a contract of another sender is refused when the caller is verified on its own. -/
theorem noForeignCalls_of_groups (hturn : ChainState.InTurn proofs batch context.chainState)
    (hgroups : ∀ key, ChainState.InTurn proofs (groupOf (fun e => e.1.source) batch key) context.chainState)
    (hsources : ∀ e ∈ batch, ∀ e' ∈ batch, e.2 = e'.2 → e.1.source = e'.1.source) : NoForeignCalls batch := by
  intro deploy hdeploy hdeploys call hcall payload hdata heq
  by_contra hne
  have hload := loadable_chainState context
  obtain ⟨module, hnew⟩ := inTurn_deployed hturn hload hdeploy hdeploys
  have hmem : call ∈ groupOf (fun e => e.1.source) batch call.1.source := by
    rw [groupOf, List.mem_filter]
    exact ⟨hcall, by simp⟩
  have hnone : ∀ other ∈ groupOf (fun e => e.1.source) batch call.1.source, other.1.Deploys →
      other.2 ≠ payload.contract := by
    intro other hother _ hhash
    obtain ⟨hother, hsource⟩ := List.mem_filter.mp hother
    rw [decide_eq_true_eq] at hsource
    exact hne (hsource.symm.trans (hsources other hother deploy hdeploy (hhash.trans heq)))
  obtain ⟨state, code, hfound⟩ := inTurn_invoked (hgroups call.1.source) hload hmem hdata hnone
  rw [heq, hnew, findContract_new hnew] at hfound
  cases hfound

end Batches

/-- One thread: all the transactions are in one batch. -/
def oneThread : Threading where
  txsVerificationThreadsCount := 1
  isMultiThreadsSupported := true
  order := id
  perm _ := .refl _

section Decision

variable {proofs : Proofs P} {context : BlockContext P} {txs : List (Transaction × Hash)}

theorem verifyTransactions_of_collected (h : collectTransactions proofs context txs = .ok collected)
    (threading : Threading) :
    verifyTransactions proofs context threading txs =
      if collected.batch.isEmpty then .ok ⟨⟩
      else if threading.txsVerificationThreadsCount > 1 && threading.isMultiThreadsSupported then
        (batchesOf threading collected).forM (verifyBatch proofs context)
      else verifyBatch proofs context collected.batch := by
  unfold verifyTransactions
  rw [h]
  rfl

theorem verifyTransactions_oneThread_iff :
    verifyTransactions proofs context oneThread txs = .ok ⟨⟩ ↔ ∃ collected,
      collectTransactions proofs context txs = .ok collected ∧
        ChainState.InTurn proofs collected.batch context.chainState := by
  cases hcollected : collectTransactions proofs context txs with
  | error e =>
    unfold verifyTransactions
    rw [hcollected]
    constructor
    · intro h
      cases h
    · rintro ⟨collected, h, -⟩
      cases h
  | ok collected =>
    simp only [Except.ok.injEq, exists_eq_left']
    rw [← verifyBatch_ok_iff, verifyTransactions_of_collected hcollected]
    split
    · rename_i hempty
      rw [List.isEmpty_iff.mp hempty]
      exact iff_of_true rfl rfl
    · exact Iff.rfl

theorem verifyTransactions_iff (threading : Threading) (collected : Collected)
    (hcollected : collectTransactions proofs context txs = .ok collected)
    (hthreads : 1 < threading.txsVerificationThreadsCount) (hsupported : threading.isMultiThreadsSupported = true)
    (hbatch : collected.batch ≠ []) :
    verifyTransactions proofs context threading txs = .ok ⟨⟩ ↔
      ∀ batch ∈ batchesOf threading collected, ChainState.InTurn proofs batch context.chainState := by
  rw [verifyTransactions_of_collected hcollected, if_neg (by simpa using hbatch), hsupported, decide_eq_true hthreads,
    Bool.and_self, if_pos rfl, forM_ok_iff]
  exact forall₂_congr fun batch _ => verifyBatch_ok_iff proofs context batch

theorem verifyTransactions_threads (hcalls : NoForeignCalls (toVerify proofs context txs)) (threading : Threading) :
    verifyTransactions proofs context threading txs = .ok ⟨⟩ ↔ verifyTransactions proofs context oneThread txs = .ok ⟨⟩ := by
  by_cases hmulti : 1 < threading.txsVerificationThreadsCount ∧ threading.isMultiThreadsSupported = true
  · cases hcollected : collectTransactions proofs context txs with
    | error e =>
      unfold verifyTransactions
      rw [hcollected]
      rfl
    | ok collected =>
      obtain ⟨hsame, hgrouped⟩ := collectTransactions_ok hcollected
      by_cases hbatch : collected.batch = []
      · rw [verifyTransactions_of_collected hcollected, verifyTransactions_of_collected hcollected, hbatch]
        exact Iff.rfl
      · rw [verifyTransactions_iff threading collected hcollected hmulti.1 hmulti.2 hbatch,
          batches_iff hgrouped hbatch hmulti.1 (hsame ▸ hcalls), verifyTransactions_oneThread_iff]
        simp only [hcollected, Except.ok.injEq, exists_eq_left']
  · -- a single thread is asked for, or all there is
    have hsingle : (decide (threading.txsVerificationThreadsCount > 1) && threading.isMultiThreadsSupported) = false := by
      rw [Bool.and_eq_false_iff, decide_eq_false_iff_not, ← Bool.not_eq_true]
      exact not_and_or.mp hmulti
    unfold verifyTransactions
    rw [hsingle]
    exact Iff.rfl

/-- What a sender gets refused on its own, without a call to a contract of the others, no number of threads accepts. -/
theorem verifyTransactions_refused {key : PublicKey} {mine : List (Transaction × Hash)}
    (hmine : mine <+: groupOf (fun e => e.1.source) (toVerify proofs context txs) key)
    (hown : ∀ e ∈ mine, ∀ payload, e.1.data = .invokeContract payload →
      ¬deployedByOthers (toVerify proofs context txs) key payload.contract)
    (hrefused : ¬ChainState.InTurn proofs mine context.chainState) (threading : Threading) :
    verifyTransactions proofs context threading txs ≠ .ok ⟨⟩ := by
  intro haccepted
  cases hcollected : collectTransactions proofs context txs with
  | error e =>
    unfold verifyTransactions at haccepted
    rw [hcollected] at haccepted
    cases haccepted
  | ok collected =>
    obtain ⟨hsame, hgrouped⟩ := collectTransactions_ok hcollected
    rw [← hsame] at hmine hown
    have hgroup : groupOf (fun e => e.1.source) collected.batch key ≠ [] := by
      intro hempty
      rw [hempty, List.prefix_nil] at hmine
      exact hrefused (hmine ▸ trivial)
    have hbatch : collected.batch ≠ [] := fun hempty => hgroup (by rw [hempty]; rfl)
    -- the batch that the sender is verified in
    obtain ⟨batch, hsubset, hwhole, hturn⟩ : ∃ batch : List (Transaction × Hash), (∀ e ∈ batch, e ∈ collected.batch) ∧
        groupOf (fun e => e.1.source) batch key = groupOf (fun e => e.1.source) collected.batch key ∧
          ChainState.InTurn proofs batch context.chainState := by
      by_cases hmulti : 1 < threading.txsVerificationThreadsCount ∧ threading.isMultiThreadsSupported = true
      · have hdealt := batchesOf_dealt hgrouped hbatch hmulti.1
        obtain ⟨batch, hmem, hplaced⟩ := hdealt.placed key ((threading.perm _).mem_iff.mpr ((hgrouped.mem_keys key).mpr hgroup))
        exact ⟨batch, hdealt.subset batch hmem, hplaced,
          (verifyTransactions_iff threading collected hcollected hmulti.1 hmulti.2 hbatch).mp haccepted batch hmem⟩
      · refine ⟨collected.batch, fun _ => id, rfl, ?_⟩
        rw [verifyTransactions_of_collected hcollected, if_neg (by simpa using hbatch), if_neg (by simpa using hmulti),
          verifyBatch_ok_iff] at haccepted
        exact haccepted
    exact hrefused (inTurn_own proofs hown (hwhole ▸ hmine) hsubset (loadable_chainState context)
      (beside_chainState context key _) hturn)

/-- A block that one thread accepts is accepted with any number of threads exactly when none of its transactions calls a
contract that another sender deploys in it; without such calls the number of threads decides nothing either way, and a block in
which a sender is refused before it makes one is refused by all. -/
theorem verifyTransactions_threads_iff (proofs : Proofs P) (context : BlockContext P) (txs : List (Transaction × Hash))
    (hhashes : ∀ e ∈ txs, ∀ e' ∈ txs, context.txHash e.1 = context.txHash e'.1 → e.1.source = e'.1.source) :
    (NoForeignCalls (toVerify proofs context txs) → ∀ threading,
      (verifyTransactions proofs context threading txs = .ok ⟨⟩ ↔
        verifyTransactions proofs context oneThread txs = .ok ⟨⟩)) ∧
    (verifyTransactions proofs context oneThread txs = .ok ⟨⟩ →
      (∀ threading, verifyTransactions proofs context threading txs = .ok ⟨⟩) →
        NoForeignCalls (toVerify proofs context txs)) ∧
    (∀ key mine, mine <+: groupOf (fun e => e.1.source) (toVerify proofs context txs) key →
      (∀ e ∈ mine, ∀ payload, e.1.data = .invokeContract payload →
        ¬deployedByOthers (toVerify proofs context txs) key payload.contract) →
      ¬ChainState.InTurn proofs mine context.chainState → ∀ threading, verifyTransactions proofs context threading txs ≠ .ok ⟨⟩) := by
  refine ⟨fun hcalls threading => verifyTransactions_threads hcalls threading, fun hone hall => ?_,
    fun key mine hmine hown hrefused threading => verifyTransactions_refused hmine hown hrefused threading⟩
  obtain ⟨collected, hcollected, hturn⟩ := verifyTransactions_oneThread_iff.mp hone
  obtain ⟨hsame, hgrouped⟩ := collectTransactions_ok hcollected
  rw [← hsame]
  by_cases hbatch : collected.batch = []
  · rw [hbatch]
    intro deploy hdeploy
    cases hdeploy
  refine noForeignCalls_of_groups hturn (fun key => ?_) fun e he e' he' heq => ?_
  · by_cases hempty : groupOf (fun e => e.1.source) collected.batch key = []
    · rw [hempty]
      trivial
    · let threading : Threading := { oneThread with txsVerificationThreadsCount := collected.grouped.size + 2 }
      have hbatches := (verifyTransactions_iff threading collected hcollected (by show 1 < _ + 2; omega) rfl hbatch).mp
        (hall threading)
      exact hbatches _ (groupOf_mem_batchesOf hgrouped (by show _ ≤ _ + 2; omega) hempty)
  · rw [hsame] at he he'
    refine hhashes e (List.mem_of_mem_filter he) e' (List.mem_of_mem_filter he') ?_
    rw [mem_toVerify_hash he, mem_toVerify_hash he', heq]

end Decision

section Samples

open Transaction

/-- A second account with ten coins. -/
def twoAccounts : Storage ℤ :=
  let s := sampleStorage.setLastNonceTo 9#256 0 ⟨none, 0⟩
  s.setLastBalanceTo 9#256 XELIS_ASSET 0 ⟨none, none, ⟨10 * COIN_VALUE, 0⟩, .input⟩

/-- A block on top of them, with one transaction of each account. -/
def sampleContext : BlockContext ℤ where
  storage := twoAccounts
  mainnet := false
  stableHeight := 0
  stableTopoheight := 0
  currentTopoheight := 1
  version := .v3
  blockHash := 1#256
  txHash tx := if tx.source = 7#256 then 100#256 else 101#256
  parentsTxs := .ok []

def deployThenCall : List (Transaction × Hash) :=
  [(sampleTx (.deployContract ⟨[], some ⟨0, .empty⟩⟩) (10 * COIN_VALUE - 10000 - BURN_PER_CONTRACT), 100#256),
    ({ sampleTx (.invokeContract ⟨100#256, .empty, 0, 0, []⟩) (10 * COIN_VALUE - 10000) with source := 9#256 }, 101#256)]

def burnEach : List (Transaction × Hash) :=
  [(sampleBurn, 100#256), ({ sampleBurn with source := 9#256 }, 101#256)]

def twoThreads : Threading := { oneThread with txsVerificationThreadsCount := 2 }

theorem burnEach_accepted : (verifyTransactions clearEnv.toProofs sampleContext oneThread burnEach).toBool = true := by
  decide +kernel

/-- Accepted by one thread, the block is accepted by two. -/
theorem burnEach_threads : verifyTransactions clearEnv.toProofs sampleContext twoThreads burnEach = .ok ⟨⟩ := by
  have hsources : ∀ e ∈ burnEach, ∀ e' ∈ burnEach, sampleContext.txHash e.1 = sampleContext.txHash e'.1 →
      e.1.source = e'.1.source := by
    decide
  have hdata : ∀ e ∈ toVerify clearEnv.toProofs sampleContext burnEach, e.1.data = .burn ⟨XELIS_ASSET, COIN_VALUE⟩ := by
    intro e he
    have hmem := List.mem_of_mem_filter he
    simp only [burnEach, List.mem_cons, List.not_mem_nil, or_false] at hmem
    rcases hmem with rfl | rfl <;> rfl
  refine ((verifyTransactions_threads_iff clearEnv.toProofs sampleContext burnEach hsources).1 ?_ twoThreads).mpr ?_
  · rintro deploy hdeploy ⟨payload, hdeploys⟩
    rw [hdata deploy hdeploy] at hdeploys
    cases hdeploys
  · have haccepted := burnEach_accepted
    generalize verifyTransactions clearEnv.toProofs sampleContext oneThread burnEach = outcome at haccepted
    cases outcome with
    | ok u => rfl
    | error e => cases haccepted

theorem deployThenCall_one : (verifyTransactions clearEnv.toProofs sampleContext oneThread deployThenCall).toBool = true := by
  decide +kernel

theorem deployThenCall_two : (verifyTransactions clearEnv.toProofs sampleContext twoThreads deployThenCall).toBool = false := by
  decide +kernel

/-- The same block is accepted by one thread and refused by two. -/
theorem threads_split_decision :
    ¬∀ threading, (verifyTransactions clearEnv.toProofs sampleContext threading deployThenCall = .ok ⟨⟩ ↔
      verifyTransactions clearEnv.toProofs sampleContext oneThread deployThenCall = .ok ⟨⟩) := by
  intro hall
  have hone := deployThenCall_one
  have htwo := deployThenCall_two
  have hiff := hall twoThreads
  generalize verifyTransactions clearEnv.toProofs sampleContext oneThread deployThenCall = one at hone hiff
  generalize verifyTransactions clearEnv.toProofs sampleContext twoThreads deployThenCall = two at htwo hiff
  cases one with
  | error e => cases hone
  | ok u =>
    rw [hiff.mpr rfl] at htwo
    cases htwo

end Samples

end Xelis.Blockchain
