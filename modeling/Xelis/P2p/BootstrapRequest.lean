import Xelis.Blockchain.Insertion
import Xelis.P2p.Packets
import Xelis.Storage.ContractSearch
import Xelis.Storage.MultisigChain
import Xelis.Storage.RegisteredKeys
import Xelis.Storage.SpendableBalances

/-! How a node answers the requests of a fast sync, and when the arithmetic of the answer stays in its range. -/

namespace Xelis.P2p

open Lib (Exec)
open Lib.Reader (bind_ok_iff)
open Xelis.Blockchain (Blockchain findCommonBase)
open Xelis.Storage (PRUNE_SAFETY_LIMIT)

def MAX_ITEMS_PER_PAGE : Nat := 1024

inductive StepKind where
  | chainInfo
  | assets
  | keys
  | balances
  | nonces
  | multiSigs
  | contracts
  | blocksMetadata
  deriving DecidableEq, Repr

inductive BootstrapError where
  | invalidRequestedTopoheight
  | invalidPacket
  | invalidBlockIdList
  | invalidBootstrapStep (expected got : StepKind)
  | unknown
  | blockchain (e : BlockchainError)
  deriving DecidableEq

/-- How a program of the fast sync stops without a result. -/
inductive Stop where
  | failed (e : BootstrapError)
  /-- The turns given to a loop are not enough. -/
  | spent
  /-- An unchecked `u64` operation leaves its range: a panic or a wrapped value, by build profile. -/
  | arithmeticOverflow
  deriving DecidableEq

section Arithmetic

variable {α β : Type}

def addU64 (a b : Nat) : Except Stop Nat := if a + b < U64_RANGE then .ok (a + b) else .error .arithmeticOverflow

def subU64 (a b : Nat) : Except Stop Nat := if b ≤ a then .ok (a - b) else .error .arithmeticOverflow

def mulU64 (a b : Nat) : Except Stop Nat := if a * b < U64_RANGE then .ok (a * b) else .error .arithmeticOverflow

def fromStorage (x : Except BlockchainError α) : Except Stop α := x.mapError fun e => .failed (.blockchain e)

def fromSearch (x : Except P2pError α) : Except Stop α :=
  x.mapError fun
    | .invalidBlockIdList => .failed .invalidBlockIdList
    | .blockchain e => .failed (.blockchain e)
    | .arithmeticOverflow => .arithmeticOverflow

/-- The program returns or fails, and no operation leaves its range. -/
def InRange (x : Except Stop α) : Prop := x ≠ .error .arithmeticOverflow

variable {f : α → Except Stop β}

theorem inRange_bind_iff {x : Except Stop α} : InRange (x >>= f) ↔ InRange x ∧ ∀ a, x = .ok a → InRange (f a) := by
  unfold InRange
  rw [Ne, Exec.except_bind_error_iff, not_or]
  refine and_congr_right fun _ => ?_
  rw [not_exists]
  exact forall_congr' fun a => not_and

@[simp] theorem inRange_ok (a : α) : InRange (.ok a) := nofun

@[simp] theorem inRange_pure (a : α) : InRange (pure a) := nofun

@[simp] theorem inRange_failed (e : BootstrapError) : InRange (.error (.failed e) : Except Stop α) := nofun

@[simp] theorem inRange_fromStorage (x : Except BlockchainError α) : InRange (fromStorage x) := by
  cases x <;> exact nofun

theorem inRange_fromSearch (x : Except P2pError α) : InRange (fromSearch x) ↔ x ≠ .error .arithmeticOverflow := by
  match x with
  | .ok a => exact iff_of_true nofun nofun
  | .error .invalidBlockIdList => exact iff_of_true nofun nofun
  | .error (.blockchain e) => exact iff_of_true nofun nofun
  | .error .arithmeticOverflow => exact iff_of_false (fun h => h rfl) (fun h => h rfl)

theorem inRange_mapM {xs : List α} (h : ∀ x ∈ xs, InRange (f x)) : InRange (xs.mapM f) := by
  induction xs with
  | nil => exact nofun
  | cons x xs ih =>
    rw [List.mapM_cons, inRange_bind_iff]
    refine ⟨h x List.mem_cons_self, fun y _ => inRange_bind_iff.mpr ⟨ih fun z hz => h z (List.mem_cons_of_mem x hz), ?_⟩⟩
    exact fun _ _ => inRange_pure _

@[simp] theorem inRange_addU64 (a b : Nat) : InRange (addU64 a b) ↔ a + b < U64_RANGE := by
  unfold addU64
  split
  · exact iff_of_true nofun ‹_›
  · exact iff_of_false (fun h => h rfl) ‹_›

@[simp] theorem inRange_subU64 (a b : Nat) : InRange (subU64 a b) ↔ b ≤ a := by
  unfold subU64
  split
  · exact iff_of_true nofun ‹_›
  · exact iff_of_false (fun h => h rfl) ‹_›

@[simp] theorem inRange_mulU64 (a b : Nat) : InRange (mulU64 a b) ↔ a * b < U64_RANGE := by
  unfold mulU64
  split
  · exact iff_of_true nofun ‹_›
  · exact iff_of_false (fun h => h rfl) ‹_›

end Arithmetic

section Messages

variable {P S R : Type}

/-- What a node answers, with the values as they are stored. -/
inductive StepReply (P : Type) where
  | chainInfo (commonPoint : Option CommonPoint) (topoheight stableHeight : Nat) (hash : Hash)
  | assets (assets : List (Hash × AssetData)) (page : Option Nat)
  | keys (keys : List PublicKey) (page : Option Nat)
  | balances (summaries : List (Option Wire.AccountSummary))
  | spendableBalances (balances : List (Storage.Balance P)) (nextMax : Option TopoHeight)
  | nonces (nonces : List (Wire.State Nat))
  | multiSigs (multisigs : List (Wire.State MultiSigPayload))
  | contracts (contracts : List Hash) (page : Option Nat)
  | contractMetadata (metadata : Wire.State Module)
  | blocksMetadata (blocks : List BlockMetadata)

def StepRequest.kind : StepRequest → StepKind
  | .chainInfo _ => .chainInfo
  | .assets _ _ _ => .assets
  | .keys _ _ _ => .keys
  | .balances _ _ _ _ => .balances
  | .spendableBalances _ _ _ _ => .balances
  | .nonces _ _ _ => .nonces
  | .multiSigs _ _ _ => .multiSigs
  | .contracts _ _ _ => .contracts
  | .contractMetadata _ _ _ => .contracts
  | .blocksMetadata _ => .blocksMetadata

def StepRequest.getRequestedTopoheight : StepRequest → Option TopoHeight
  | .chainInfo _ => none
  | .assets _ topo _ => some topo
  | .keys _ topo _ => some topo
  | .balances _ _ _ topo => some topo
  | .spendableBalances _ _ _ topo => some topo
  | .nonces _ topo _ => some topo
  | .multiSigs _ topo _ => some topo
  | .contracts _ topo _ => some topo
  | .contractMetadata _ topo _ => some topo
  | .blocksMetadata topo => some topo

def StepResponse.kind : StepResponse S R → StepKind
  | .chainInfo _ _ _ _ => .chainInfo
  | .assets _ _ => .assets
  | .keys _ _ => .keys
  | .balances _ => .balances
  | .spendableBalances _ _ => .balances
  | .nonces _ => .nonces
  | .multiSigs _ => .multiSigs
  | .contracts _ _ => .contracts
  | .contractMetadata _ => .contracts
  | .blocksMetadata _ => .blocksMetadata

end Messages

section Handler

variable {P : Type} (turns : Nat) (c : Blockchain P)

def prunedTopoheight : TopoHeight := c.storage.prunedTopoheight.getD 0

/-- A topoheight that is asked for stands above what is pruned, and is stable. -/
def checkRequestedTopoheight (request : StepRequest) : Except Stop PUnit :=
  match request.getRequestedTopoheight with
  | none => .ok ⟨⟩
  | some topoheight =>
    if topoheight ≤ prunedTopoheight c ∨ c.topoheight < topoheight then .error (.failed .invalidRequestedTopoheight)
    else if c.stableTopoheight < topoheight then .error (.failed .invalidRequestedTopoheight)
    else .ok ⟨⟩

def checkRange (min max : TopoHeight) : Except Stop PUnit := if max < min then .error (.failed .invalidPacket) else .ok ⟨⟩

/-- One page of a listing, and the number of the next one after a full page. -/
def servePage {α : Type} (maximum : Nat) (list : Nat → Nat → Except BlockchainError (List α)) (page : Option Nat) :
    Except Stop (List α × Option Nat) := do
  let page := page.getD 0
  let skip ← mulU64 page maximum
  let items ← fromStorage (list maximum skip)
  if items.length = maximum then return (items, some (← addU64 page 1))
  return (items, none)

/-- The accounts of a range. -/
def handleKeys (maximum : Nat) (s : Storage P) (min max : TopoHeight) (page : Option Nat) :
    Except Stop (List PublicKey × Option Nat) := do
  checkRange min max
  let list (maximum skip : Nat) := (s.getRegisteredKeys maximum skip min max).map (·.1.elems)
  servePage maximum list page

def stableBlock : Except Stop (Hash × Nat) :=
  match findCommonBase turns c.storage c.storage.tips c.caches with
  | .ok base _ => .ok base
  | .error (.failed e) _ => .error (.failed (.blockchain e))
  | .error .spent _ => .error .spent

/-- The nonce of an account, when it changed in the range. -/
def nonceFor (min max : TopoHeight) (key : PublicKey) : Except BlockchainError (Wire.State Nat) := do
  match ← c.storage.getNonceAtMaximumTopoheight key max with
  | none => return .none
  | some (topo, version) => return if topo < min then .clean else .some version.nonce

def contractMetadataFor (min max : TopoHeight) (contract : Hash) : Except BlockchainError (Wire.State Module) := do
  match ← c.storage.getContractAtMaximumTopoheightFor contract max with
  | none => return .none
  | some (topo, version) =>
    if topo < min then return .clean
    match version.data with
    | some module => return .some module
    | none => return .deleted

def blockMetadataAt (topoheight : TopoHeight) : Except BlockchainError BlockMetadata := do
  let hash ← c.storage.getHashAtTopoHeight topoheight
  let supply ← c.storage.getSupplyAtTopoHeight topoheight
  let burnedSupply ← c.storage.getBurnedSupplyAtTopoHeight topoheight
  let reward ← c.storage.getBlockRewardAtTopoHeight topoheight
  let difficulty ← c.storage.getDifficultyForBlockHash hash
  let cumulativeDifficulty ← c.storage.getCumulativeDifficultyForBlockHash hash
  let p ← c.storage.getEstimatedCovarianceForBlockHash hash
  let header ← c.storage.getBlockHeaderByHash hash
  let executedTransactions := header.txsHashes.filter fun tx => c.storage.isTxExecutedInBlock tx hash
  return { hash, supply, burnedSupply, reward, difficulty, cumulativeDifficulty, p, executedTransactions }

/-- Two entries are the same element of a set when their hashes are. -/
def BlockMetadata.insert (blocks : List BlockMetadata) (block : BlockMetadata) : List BlockMetadata :=
  if block.hash ∈ blocks.map BlockMetadata.hash then blocks else blocks ++ [block]

/-- The lowest block that is sent. The distance is taken before it is known that the chain is long enough for it. -/
def lowestBlock (topoheight : TopoHeight) : Except Stop TopoHeight := do
  let lowest ← subU64 topoheight PRUNE_SAFETY_LIMIT
  if lowest ≤ prunedTopoheight c then addU64 (prunedTopoheight c) 1 else return lowest

def handleBootstrapChainRequest (request : StepRequest) : Except Stop (StepReply P) := do
  checkRequestedTopoheight c request
  match request with
  | .chainInfo blocks =>
    let commonPoint ← fromSearch (findCommonPoint c.storage blocks)
    let (hash, height) ← stableBlock turns c
    let stableTopo ← fromStorage (c.storage.getTopoHeightForHash hash)
    return .chainInfo commonPoint stableTopo height hash
  | .assets min max page =>
    checkRange min max
    let list (maximum skip : Nat) := (c.storage.getPartialAssets maximum skip min max).map (·.entries)
    let (assets, page) ← servePage MAX_ITEMS_PER_PAGE list page
    return .assets assets page
  | .balances keys asset min max =>
    checkRange min max
    let summaries ← fromStorage (keys.mapM fun key => c.storage.getAccountSummaryFor key asset min max)
    return .balances summaries
  | .spendableBalances key asset min max =>
    checkRange min max
    if c.stableTopoheight < max then throw (.failed .invalidRequestedTopoheight)
    let (balances, nextMax) ← fromStorage (c.storage.getSpendableBalancesFor key asset min max)
    return .spendableBalances balances nextMax
  | .nonces min max keys =>
    checkRange min max
    let nonces ← fromStorage (keys.mapM (nonceFor c min max))
    return .nonces nonces
  | .keys min max page =>
    let (keys, page) ← handleKeys MAX_ITEMS_PER_PAGE c.storage min max page
    return .keys keys page
  | .multiSigs min max keys =>
    let multisigs ← fromStorage (c.storage.getUpdatedMultisigs keys min max)
    return .multiSigs multisigs
  | .contracts min max page =>
    checkRange min max
    let list (maximum skip : Nat) := (c.storage.getContracts maximum skip min max).map (·.elems)
    let (contracts, page) ← servePage MAX_ITEMS_PER_PAGE list page
    return .contracts contracts page
  | .contractMetadata min max contract =>
    checkRange min max
    let metadata ← fromStorage (contractMetadataFor c min max contract)
    return .contractMetadata metadata
  | .blocksMetadata topoheight =>
    let lower ← lowestBlock c topoheight
    let blocks ← fromStorage ((List.range' lower (topoheight + 1 - lower)).mapM (blockMetadataAt c))
    return .blocksMetadata (blocks.foldl BlockMetadata.insert [])

end Handler

section Range

variable {P : Type} {turns : Nat} {c : Blockchain P}

/-- A topoheight that may be asked for. -/
def Servable (c : Blockchain P) (topoheight : TopoHeight) : Prop :=
  prunedTopoheight c < topoheight ∧ topoheight ≤ c.topoheight ∧ topoheight ≤ c.stableTopoheight

def PageFits (c : Blockchain P) (min max : TopoHeight) (page : Option Nat) : Prop :=
  Servable c max → min ≤ max → page.getD 0 * MAX_ITEMS_PER_PAGE < U64_RANGE

/-- The requests that a node can answer in range. -/
def StepRequest.Fits (c : Blockchain P) : StepRequest → Prop
  | .chainInfo blocks => ∀ first, blocks.head? = some first → first.topoheight + 1 < U64_RANGE
  | .assets min max page => PageFits c min max page
  | .keys min max page => PageFits c min max page
  | .contracts min max page => PageFits c min max page
  | .blocksMetadata topoheight => Servable c topoheight → PRUNE_SAFETY_LIMIT ≤ topoheight
  | _ => True

theorem inRange_checkRequestedTopoheight (c : Blockchain P) (request : StepRequest) :
    InRange (checkRequestedTopoheight c request) := by
  unfold checkRequestedTopoheight
  split
  · exact nofun
  · split
    · exact nofun
    · split <;> exact nofun

variable {request : StepRequest}

theorem checkRequestedTopoheight_ok_iff :
    checkRequestedTopoheight c request = .ok ⟨⟩ ↔ ∀ t ∈ request.getRequestedTopoheight, Servable c t := by
  unfold checkRequestedTopoheight Servable
  cases request.getRequestedTopoheight with
  | none => simp
  | some t =>
    simp only [Option.mem_some_iff, forall_eq']
    split
    · rename_i hout
      refine iff_of_false nofun fun hservable => ?_
      rcases hout with hpruned | hhigh
      · exact Nat.not_lt.mpr hpruned hservable.1
      · exact Nat.not_le.mpr hhigh hservable.2.1
    · rename_i hout
      rw [not_or, Nat.not_le, Nat.not_lt] at hout
      split
      · rename_i hunstable
        exact iff_of_false nofun fun hservable => Nat.not_le.mpr hunstable hservable.2.2
      · rename_i hstable
        exact iff_of_true rfl ⟨hout.1, hout.2, Nat.not_lt.mp hstable⟩

theorem inRange_checkRange (min max : TopoHeight) : InRange (checkRange min max) := by
  unfold checkRange
  split <;> exact nofun

variable {min max topoheight : TopoHeight}

theorem checkRange_ok_iff : checkRange min max = .ok ⟨⟩ ↔ min ≤ max := by
  unfold checkRange
  split
  · exact iff_of_false nofun (Nat.not_le.mpr ‹_›)
  · exact iff_of_true rfl (Nat.not_lt.mp ‹_›)

theorem inRange_stableBlock (turns : Nat) (c : Blockchain P) : InRange (stableBlock turns c) := by
  unfold stableBlock
  split <;> exact nofun

variable {α β : Type}

theorem inRange_servePage (list : Nat → Nat → Except BlockchainError (List α)) (page : Option Nat) :
    InRange (servePage MAX_ITEMS_PER_PAGE list page) ↔ page.getD 0 * MAX_ITEMS_PER_PAGE < U64_RANGE := by
  unfold servePage
  rw [inRange_bind_iff, inRange_mulU64, and_iff_left_iff_imp]
  intro hfits skip _
  rw [inRange_bind_iff]
  refine ⟨inRange_fromStorage _, fun items _ => ?_⟩
  split
  · have hnext : page.getD 0 + 1 < U64_RANGE := by
      unfold U64_RANGE MAX_ITEMS_PER_PAGE at *
      omega
    rw [inRange_bind_iff, inRange_addU64]
    exact ⟨hnext, fun _ _ => inRange_pure _⟩
  · exact inRange_pure _

theorem inRange_lowestBlock (hpruned : prunedTopoheight c < topoheight) (hfits : topoheight < U64_RANGE) :
    InRange (lowestBlock c topoheight) ↔ PRUNE_SAFETY_LIMIT ≤ topoheight := by
  unfold lowestBlock
  rw [inRange_bind_iff, inRange_subU64, and_iff_left_iff_imp]
  intro _ lowest _
  split
  · exact (inRange_addU64 _ _).mpr (Nat.lt_of_le_of_lt hpruned hfits)
  · exact inRange_pure _

theorem StepRequest.read_blocksMetadata {bytes rest : IVec}
    (h : StepRequest.read bytes = .ok (.blocksMetadata topoheight, rest)) : topoheight < U64_RANGE := by
  obtain ⟨tag, mid, -, h⟩ := bind_ok_iff.mp h
  split at h
  case h_10 =>
    obtain ⟨n, mid', hn, h⟩ := bind_ok_iff.mp h
    cases h
    exact (readU64_ok hn).2
  all_goals
    -- the other tags end in another constructor
    simp only [bind_ok_iff, Lib.Reader.pure_apply, Lib.Reader.throw_apply, Except.ok.injEq, Prod.mk.injEq, reduceCtorEq,
      false_and, and_false, exists_false] at h

theorem inRange_check_iff {check : Except Stop PUnit} {x : Except Stop α} (hcheck : InRange check) :
    InRange (check >>= fun _ => x) ↔ (check = .ok ⟨⟩ → InRange x) := by
  rw [inRange_bind_iff, and_iff_right hcheck]
  exact ⟨fun h => h ⟨⟩, fun h _ => h⟩

theorem inRange_read (x : Except BlockchainError α) (f : α → β) : InRange (fromStorage x >>= fun a => pure (f a)) :=
  inRange_bind_iff.mpr ⟨inRange_fromStorage x, fun _ _ => inRange_pure _⟩

theorem inRange_listing (min max : TopoHeight) (list : Nat → Nat → Except BlockchainError (List α)) (page : Option Nat)
    (reply : List α × Option Nat → β) :
    InRange (checkRange min max >>= fun _ => servePage MAX_ITEMS_PER_PAGE list page >>= fun served => pure (reply served)) ↔
      (min ≤ max → page.getD 0 * MAX_ITEMS_PER_PAGE < U64_RANGE) := by
  rw [inRange_check_iff (inRange_checkRange min max), checkRange_ok_iff]
  refine imp_congr_right fun _ => ?_
  rw [inRange_bind_iff, inRange_servePage, and_iff_left fun _ _ => inRange_pure _]

theorem inRange_handleBootstrapChainRequest (hread : ∀ t, request = .blocksMetadata t → t < U64_RANGE) :
    InRange (handleBootstrapChainRequest turns c request) ↔ request.Fits c := by
  unfold handleBootstrapChainRequest
  rw [inRange_check_iff (inRange_checkRequestedTopoheight c request), checkRequestedTopoheight_ok_iff]
  have hpage (min max : TopoHeight) (page : Option Nat) : PageFits c min max page ↔
      ((∀ t ∈ some max, Servable c t) → min ≤ max → page.getD 0 * MAX_ITEMS_PER_PAGE < U64_RANGE) := by
    simp only [PageFits, Option.mem_some_iff, forall_eq']
  have hrange {α : Type} (min max : TopoHeight) {x : Except Stop α} (hx : InRange x) :
      InRange (checkRange min max >>= fun _ => x) := (inRange_check_iff (inRange_checkRange min max)).mpr fun _ => hx
  cases request with
  | chainInfo blocks =>
    have hrest (commonPoint : Option CommonPoint) : InRange (stableBlock turns c >>= fun base =>
        fromStorage (c.storage.getTopoHeightForHash base.1) >>= fun stableTopo =>
          pure (StepReply.chainInfo (P := P) commonPoint stableTopo base.2 base.1)) :=
      inRange_bind_iff.mpr ⟨inRange_stableBlock turns c, fun base _ => inRange_read _ _⟩
    refine (forall_prop_of_true nofun).trans (inRange_bind_iff.trans ((and_iff_left fun point _ => hrest point).trans ?_))
    rw [inRange_fromSearch, Ne, findCommonPoint_overflow_iff, not_exists]
    exact forall_congr' fun first => by rw [not_and, Nat.not_le]
  | assets min max page =>
    rw [StepRequest.Fits, hpage]
    exact imp_congr_right fun _ => inRange_listing _ _ _ _ fun served => StepReply.assets served.1 served.2
  | keys min max page =>
    rw [StepRequest.Fits, hpage]
    unfold handleKeys
    simp only [bind_assoc]
    exact imp_congr_right fun _ => inRange_listing _ _ _ _ fun served => StepReply.keys served.1 served.2
  | contracts min max page =>
    rw [StepRequest.Fits, hpage]
    exact imp_congr_right fun _ => inRange_listing _ _ _ _ fun served => StepReply.contracts served.1 served.2
  | balances keys asset min max =>
    exact iff_of_true (fun _ => hrange min max (inRange_read _ _)) trivial
  | spendableBalances key asset min max =>
    refine iff_of_true (fun _ => hrange min max ?_) trivial
    by_cases hunstable : c.stableTopoheight < max
    · rw [if_pos hunstable]
      exact nofun
    · rw [if_neg hunstable]
      exact inRange_read _ _
  | nonces min max keys =>
    exact iff_of_true (fun _ => hrange min max (inRange_read _ _)) trivial
  | multiSigs min max keys => exact iff_of_true (fun _ => inRange_read _ _) trivial
  | contractMetadata min max contract =>
    exact iff_of_true (fun _ => hrange min max (inRange_read _ _)) trivial
  | blocksMetadata topoheight =>
    have hread' : topoheight < U64_RANGE := hread topoheight rfl
    have hblocks (lower : TopoHeight) := inRange_read ((List.range' lower (topoheight + 1 - lower)).mapM (blockMetadataAt c))
      fun blocks => StepReply.blocksMetadata (P := P) (blocks.foldl BlockMetadata.insert [])
    show ((∀ t ∈ some topoheight, Servable c t) → _) ↔ (Servable c topoheight → _)
    simp only [Option.mem_some_iff, forall_eq']
    refine imp_congr_right fun hservable => ?_
    exact inRange_bind_iff.trans ((and_iff_left fun lower _ => hblocks lower).trans (inRange_lowestBlock hservable.1 hread'))

end Range

end Xelis.P2p
