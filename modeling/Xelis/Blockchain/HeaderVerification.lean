import Xelis.Blockchain.BestTip
import Xelis.Blockchain.Difficulty
import Xelis.Blockchain.Reachability
import Xelis.Common.Miner
import Xelis.Common.Network
import Xelis.Lib.Greatest

namespace Xelis.Blockchain

open Lib (Exec Halt IndexSet)
open Lib.Uint (Fault)
open P2p (Network)

variable {P τ : Type}

structure HardFork where
  height : Nat
  version : BlockVersion

def HARD_FORKS : List HardFork := [⟨0, .v0⟩, ⟨434100, .v1⟩, ⟨1376000, .v2⟩]

def TESTNET_HARD_FORKS : List HardFork := [⟨0, .v0⟩, ⟨5, .v1⟩, ⟨10, .v2⟩, ⟨15, .v3⟩]

def getHardForks : Network → List HardFork
  | .mainnet => HARD_FORKS
  | _ => TESTNET_HARD_FORKS

/-- The search ends at the first one that is not reached. -/
def getHardForkAtHeight (network : Network) (height : Nat) : Option HardFork :=
  ((getHardForks network).takeWhile fun conf => conf.height ≤ height).getLast?

def hasHardForkAtHeight (network : Network) (height : Nat) : Bool × BlockVersion :=
  match getHardForkAtHeight network height with
  | some hardFork => (hardFork.height = height, hardFork.version)
  | none => (false, .v0)

def getVersionAtHeight (network : Network) (height : Nat) : BlockVersion := (hasHardForkAtHeight network height).2

def getPowAlgorithmForVersion : BlockVersion → Algorithm
  | .v0 => .v1
  | _ => .v2

def MAINNET_MINIMUM_DIFFICULTY : VarUint := BLOCK_TIME_MILLIS * 20

def OTHER_MINIMUM_DIFFICULTY : VarUint := BLOCK_TIME_MILLIS * 2

def GENESIS_BLOCK_DIFFICULTY : VarUint := 1

def getMinimumDifficulty : Network → VarUint
  | .mainnet => MAINNET_MINIMUM_DIFFICULTY
  | _ => OTHER_MINIMUM_DIFFICULTY

def getDifficultyAtHardFork : Network → BlockVersion → VarUint
  | .mainnet, .v0 => MAINNET_MINIMUM_DIFFICULTY
  | .mainnet, .v1 => MAINNET_MINIMUM_DIFFICULTY
  | .mainnet, _ => MAINNET_MINIMUM_DIFFICULTY * 100000
  | _, _ => OTHER_MINIMUM_DIFFICULTY

/-- What a node checks headers with. -/
structure HeaderRules where
  network : Network
  simulator : Bool
  skipPowVerification : Bool
  xelis : XelisHash BlockchainError
  blake3 : IVec → Hash

/-- An operation on 256 bits that does not fit ends the program. -/
def checked {α : Type} : Except Fault α → Except BlockchainError α
  | .ok a => .ok a
  | .error fault => .error (.panicked fault)

def selectHeight (s : Storage P) (height : Nat) (hash : Hash) : Except BlockchainError Nat := do
  let pastHeight ← s.getHeightForBlockHash hash
  return if height ≤ pastHeight then pastHeight else height

def calculateHeightAtTips (s : Storage P) (tips : List Hash) : Except BlockchainError Nat := do
  let height ← tips.foldlM (selectHeight s) 0
  return if tips.length ≠ 0 then height + 1 else height

/-- The newest timestamp so far, and the tip it was met at first. -/
def selectNewest (s : Storage P) (newest : TimestampMillis × Option Hash) (hash : Hash) :
    Except BlockchainError (TimestampMillis × Option Hash) := do
  let tipTimestamp ← s.getTimestampForBlockHash hash
  return if newest.1 < tipTimestamp then (tipTimestamp, some hash) else newest

def findNewestTipByTimestamp (s : Storage P) (tips : List Hash) : Except BlockchainError (Hash × TimestampMillis) :=
  match tips with
  | [] => .error .expectedTips
  | [tip] => (s.getTimestampForBlockHash tip).map (tip, ·)
  | tips => do
    let (timestamp, newestTip) ← tips.foldlM (selectNewest s) (0, none)
    match newestTip with
    | some tip => return (tip, timestamp)
    | none => throw .expectedTips

/-- Where the difficulty at some tips comes from: it is fixed, or calculated from the time between two blocks. -/
inductive DifficultyRequest where
  | fixed (difficulty p : VarUint)
  | calculate (parentTimestamp timestamp : TimestampMillis) (previousDifficulty p minimumDifficulty : VarUint)
      (version : BlockVersion)
  deriving DecidableEq

def DifficultyRequest.answer : DifficultyRequest → Except Fault (VarUint × VarUint)
  | fixed difficulty p => .ok (difficulty, p)
  | calculate parentTimestamp timestamp previousDifficulty p minimumDifficulty version =>
    calculateDifficulty (.ofNat parentTimestamp) (.ofNat timestamp) previousDifficulty p minimumDifficulty version

/-- The difficulty comes from the tip with the most work behind it. The solve time begins at the newest of its parents and ends at
the newest of the tips. -/
def requestAtTips (rules : HeaderRules) (s : Storage P) (tips : List Hash) : Except BlockchainError DifficultyRequest := do
  let height ← calculateHeightAtTips s tips
  let (hasHardFork, version) := hasHardForkAtHeight rules.network height
  if tips.length = 0 then return .fixed GENESIS_BLOCK_DIFFICULTY (getCovarianceP version)
  else if height ≤ 1 || rules.simulator || hasHardFork then
    return .fixed (getDifficultyAtHardFork rules.network version) (getCovarianceP version)
  else do
    let bestTip ← findBestTipByCumulativeDifficulty s tips
    let biggestDifficulty ← s.getDifficultyForBlockHash bestTip
    let (_, newestTipTimestamp) ← findNewestTipByTimestamp s tips
    let parentTips ← s.getPastBlocksForBlockHash bestTip
    let (_, parentNewestTipTimestamp) ← findNewestTipByTimestamp s parentTips
    let p ← s.getEstimatedCovarianceForBlockHash bestTip
    return .calculate parentNewestTipTimestamp newestTipTimestamp biggestDifficulty p (getMinimumDifficulty rules.network) version

def getDifficultyAtTips (rules : HeaderRules) (s : Storage P) (tips : List Hash) : Except BlockchainError (VarUint × VarUint) := do
  let request ← requestAtTips rules s tips
  checked request.answer

def checkDifficulty (hash : Hash) (difficulty : VarUint) : Except BlockchainError Bool :=
  if difficulty = 0 then .error .difficultyCannotBeZero else .ok (decide (hash.toNat ≤ (2 ^ 256 - 1) / difficulty))

def verifyProofOfWork (rules : HeaderRules) (s : Storage P) (hash : Hash) (tips : List Hash) :
    Except BlockchainError (VarUint × VarUint) := do
  let (difficulty, p) ← getDifficultyAtTips rules s tips
  if ← checkDifficulty hash difficulty then return (difficulty, p) else throw .invalidDifficulty

/-- The lowest height so far, the blocks to enter and the ones that were entered. -/
abbrev LowestHeightSearch := Nat × List Hash × Finset Hash

def passTip (s : Storage P) (search : Nat × List Hash) (tipHash : Hash) : Except BlockchainError (Nat × List Hash) :=
  if s.isBlockTopologicalOrdered tipHash then do
    let height ← s.getHeightForBlockHash tipHash
    return (min search.1 height, search.2)
  else .ok (search.1, tipHash :: search.2)

def findLowestHeightTurn (s : Storage P) : LowestHeightSearch → Exec (Halt BlockchainError) τ (LowestHeightSearch ⊕ Nat)
  | (lowestHeight, [], _) => return .inr lowestHeight
  | (lowestHeight, currentHash :: stack, processed) =>
    if currentHash ∈ processed then return .inl (lowestHeight, stack, processed)
    else do
      let tips ← Exec.attempt (s.getPastBlocksForBlockHash currentHash)
      let (lowestHeight, stack) ← Exec.attempt (tips.foldlM (passTip s) (lowestHeight, stack))
      return .inl (lowestHeight, stack, insert currentHash processed)

def findLowestHeightFromMainchain (turns : Nat) (s : Storage P) (hash : Hash) : Exec (Halt BlockchainError) τ Nat :=
  Lib.Loop.run (findLowestHeightTurn s) turns (U64_RANGE - 1, [hash], ∅)

def calculateDistanceFromMainchain (turns : Nat) (s : Storage P) (hash : Hash) : Exec (Halt BlockchainError) τ Nat :=
  if s.isBlockTopologicalOrdered hash then Exec.attempt (s.getHeightForBlockHash hash)
  else findLowestHeightFromMainchain turns s hash

def verifyDistanceFromMainchain (turns : Nat) (s : Storage P) (hash : Hash) (height : Nat) :
    Exec (Halt BlockchainError) τ Bool := do
  let distance ← calculateDistanceFromMainchain turns s hash
  return !(decide (distance ≤ height) && decide (STABLE_LIMIT ≤ height - distance))

/-- A tip may be at most 9% below the difficulty of the best one. -/
def validateTips (s : Storage P) (bestTip tip : Hash) : Except BlockchainError Bool := do
  let bestDifficulty ← s.getDifficultyForBlockHash bestTip
  let blockDifficulty ← s.getDifficultyForBlockHash tip
  let scaled ← checked (VarUint.mul bestDifficulty 91)
  return decide (scaled / 100 < blockDifficulty)

def TIMESTAMP_IN_FUTURE_LIMIT : Nat := 2 * 1000

def MAX_BLOCK_SIZE : Nat := 1024 * 1024 + 256 * 1024

/-- What the node has at hand when a block arrives: the time, and where its chain stands. -/
structure ChainView where
  currentTimestamp : TimestampMillis
  currentHeight : Nat
  stableHeight : Nat

def refuseIf {ε : Type} {m : Type → Type} [Monad m] [MonadExcept ε m] (cond : Prop) [Decidable cond] (e : ε) : m PUnit :=
  if cond then throw e else pure ⟨⟩

/-- How many tips a block may have, and at which height. -/
def verifyTipsCount (view : ChainView) (blockHash : Hash) (header : BlockHeader) : Exec (Halt BlockchainError) τ PUnit := do
  let tipsCount := header.tips.length
  refuseIf (TIPS_LIMIT < tipsCount) (.failed (.invalidTipsCount blockHash tipsCount))
  refuseIf (tipsCount = 0 ∧ view.currentHeight ≠ 0) (.failed .expectedTips)
  refuseIf (0 < tipsCount ∧ header.height = 0) (.failed .blockHeightZeroNotAllowed)
  refuseIf (tipsCount = 0 ∧ header.height ≠ 0) (.failed (.invalidTipsCount blockHash tipsCount))

/-- A block is not older than its tips, and not too far from the ordered chain. -/
def verifyTip (turns : Nat) (s : Storage P) (header : BlockHeader) (blockHeightByTips : Nat) (tip : Hash) :
    Exec (Halt BlockchainError) τ PUnit := do
  let previousTimestamp ← Exec.attempt (s.getTimestampForBlockHash tip)
  refuseIf (header.timestamp < previousTimestamp) (.failed (.timestampIsLessThanParent header.timestamp))
  let near ← verifyDistanceFromMainchain turns s tip (blockHeightByTips - 1)
  refuseIf (near = false) (.failed .blockDeviation)

def verifyTipsDifficulty (s : Storage P) (blockHash : Hash) (tips : List Hash) : Exec (Halt BlockchainError) τ PUnit := do
  if 1 < tips.length then
    let bestTip ← Exec.attempt (findBestTipByCumulativeDifficulty s tips)
    tips.forM fun tip => do
      if bestTip ≠ tip then
        let valid ← Exec.attempt (validateTips s bestTip tip)
        refuseIf (valid = false) (.failed (.invalidTipsDifficulty blockHash tip))

def powHashOf (rules : HeaderRules) (header : BlockHeader) : Except BlockchainError Hash :=
  if rules.skipPowVerification then .ok Hash.zero
  else header.getPowHash rules.xelis rules.blake3 (getPowAlgorithmForVersion (getVersionAtHeight rules.network header.height))

/-- What `add_new_block_for_storage` checks before it comes to the transactions. -/
def verifyNewHeader (rules : HeaderRules) (view : ChainView) (turns : Nat) (s : Storage P) (header : BlockHeader)
    (blockHash : Hash) (blockSize : Nat) : Exec (Halt BlockchainError) τ (VarUint × VarUint) := do
  refuseIf (header.version ≠ getVersionAtHeight rules.network header.height) (.failed .invalidBlockVersion)
  refuseIf (s.hasBlockWithHash blockHash = true) (.failed .alreadyInChain)
  refuseIf (view.currentTimestamp + TIMESTAMP_IN_FUTURE_LIMIT < header.timestamp)
    (.failed (.timestampIsInFuture view.currentTimestamp header.timestamp))
  verifyTipsCount view blockHash header
  refuseIf (MAX_BLOCK_SIZE < blockSize) (.failed (.invalidBlockSize MAX_BLOCK_SIZE blockSize))
  header.tips.forM fun tip => refuseIf (s.hasBlockWithHash tip = false) (.failed (.invalidTipsNotFound blockHash tip))
  let blockHeightByTips ← Exec.attempt (calculateHeightAtTips s header.tips)
  refuseIf (blockHeightByTips ≠ header.height) (.failed (.invalidBlockHeight blockHeightByTips header.height))
  refuseIf (0 < header.tips.length ∧ blockHeightByTips < view.stableHeight) (.failed .invalidBlockHeightStableHeight)
  let reachable ← verifyNonReachability turns s (IndexSet.empty.extend header.tips)
  refuseIf (reachable = false) (.failed .invalidReachability)
  header.tips.forM (verifyTip turns s header blockHeightByTips)
  verifyTipsDifficulty s blockHash header.tips
  let powHash ← Exec.attempt (powHashOf rules header)
  Exec.attempt (verifyProofOfWork rules s powHash header.tips)

section Newest

variable {s : Storage P} {tips : List Hash} {tip : Hash} {time : TimestampMillis}

def TipsStored (s : Storage P) (tips : List Hash) : Prop := ∀ tip ∈ tips, ∃ header, s.blocks[tip]? = some header

def timestampOf (s : Storage P) (tip : Hash) : TimestampMillis := (s.blocks[tip]?.map BlockHeader.timestamp).getD 0

variable {header : BlockHeader}

theorem getTimestamp_eq (h : s.blocks[tip]? = some header) : s.getTimestampForBlockHash tip = .ok header.timestamp := by
  rw [Storage.getTimestampForBlockHash, Storage.getBlockHeaderByHash, h]
  rfl

theorem getTimestamp_ok (h : s.getTimestampForBlockHash tip = .ok time) :
    ∃ header, s.blocks[tip]? = some header ∧ header.timestamp = time := by
  rw [Storage.getTimestampForBlockHash, Storage.getBlockHeaderByHash] at h
  cases hblock : s.blocks[tip]? with
  | none =>
    rw [hblock] at h
    cases h
  | some header =>
    rw [hblock] at h
    exact ⟨header, rfl, Except.ok.inj h⟩

theorem timestampOf_eq (h : s.blocks[tip]? = some header) : timestampOf s tip = header.timestamp := by
  rw [timestampOf, h]
  rfl

theorem TipsStored.getTimestamp (h : TipsStored s tips) (htip : tip ∈ tips) :
    s.getTimestampForBlockHash tip = .ok (timestampOf s tip) := by
  obtain ⟨header, hblock⟩ := h tip htip
  rw [getTimestamp_eq hblock, timestampOf_eq hblock]

theorem foldlM_selectNewest (h : TipsStored s tips) (newest : TimestampMillis × Option Hash) :
    tips.foldlM (selectNewest s) newest = .ok (tips.foldl (Lib.Greatest.keep (timestampOf s)) newest) := by
  induction tips generalizing newest with
  | nil => rfl
  | cons tip tips ih =>
    rw [List.foldlM_cons, selectNewest, h.getTimestamp List.mem_cons_self]
    exact ih (fun other hother => h other (List.mem_cons_of_mem _ hother)) _

theorem tipsStored_of_foldlM {newest newest' : TimestampMillis × Option Hash} (h : tips.foldlM (selectNewest s) newest = .ok newest') :
    TipsStored s tips := by
  induction tips generalizing newest with
  | nil => exact nofun
  | cons tip tips ih =>
    rw [List.foldlM_cons, selectNewest] at h
    cases htime : s.getTimestampForBlockHash tip with
    | error e =>
      rw [htime] at h
      cases h
    | ok time =>
      rw [htime] at h
      obtain ⟨header, hblock, -⟩ := getTimestamp_ok htime
      intro other hother
      rcases List.mem_cons.mp hother with rfl | hother
      · exact ⟨header, hblock⟩
      · exact ih h other hother

theorem findNewestTip_single (h : TipsStored s [tip]) : findNewestTipByTimestamp s [tip] = .ok (tip, timestampOf s tip) := by
  rw [findNewestTipByTimestamp, h.getTimestamp List.mem_cons_self]
  rfl

theorem findNewestTip_several (first second : Hash) (rest : List Hash) :
    findNewestTipByTimestamp s (first :: second :: rest) = (do
      let newest ← (first :: second :: rest).foldlM (selectNewest s) (0, none)
      match newest.2 with
      | some tip => return (tip, newest.1)
      | none => throw .expectedTips) := rfl

theorem findNewestTip_ok (h : findNewestTipByTimestamp s tips = .ok (tip, time)) :
    TipsStored s tips ∧ tip ∈ tips ∧ timestampOf s tip = time ∧ ∀ other ∈ tips, timestampOf s other ≤ time := by
  match tips, h with
  | [single], h =>
    rw [findNewestTipByTimestamp] at h
    cases htime : s.getTimestampForBlockHash single with
    | error e =>
      rw [htime] at h
      cases h
    | ok found =>
      rw [htime] at h
      obtain ⟨rfl, rfl⟩ := Prod.mk.inj (Except.ok.inj h)
      obtain ⟨header, hblock, rfl⟩ := getTimestamp_ok htime
      have htimestamp := timestampOf_eq hblock
      refine ⟨fun other hother => ⟨header, List.mem_singleton.mp hother ▸ hblock⟩, List.mem_singleton_self _, htimestamp, ?_⟩
      intro other hother
      rw [List.mem_singleton.mp hother, htimestamp]
  | first :: second :: rest, h =>
    rw [findNewestTip_several] at h
    cases hfold : (first :: second :: rest).foldlM (selectNewest s) (0, none) with
    | error e =>
      rw [hfold] at h
      cases h
    | ok newest =>
      have hstored := tipsStored_of_foldlM hfold
      have hof : Lib.Greatest.Of (timestampOf s) (first :: second :: rest) _ := Lib.Greatest.foldl_keep (first :: second :: rest)
      rw [foldlM_selectNewest hstored] at hfold
      rw [Except.ok.inj hfold] at hof
      rw [foldlM_selectNewest hstored, hfold] at h
      obtain ⟨time', found⟩ := newest
      cases found with
      | none => cases h
      | some found =>
        obtain ⟨rfl, rfl⟩ := Prod.mk.inj (Except.ok.inj h)
        exact ⟨hstored, (hof.selected found rfl).1, (hof.selected found rfl).2, hof.le⟩

theorem findNewestTip_returns (hstored : TipsStored s tips) (hne : tips ≠ []) :
    (∃ newest, findNewestTipByTimestamp s tips = .ok newest) ↔ tips.length = 1 ∨ ∃ tip ∈ tips, timestampOf s tip ≠ 0 := by
  match tips, hstored, hne with
  | [single], hstored, _ => exact iff_of_true ⟨_, findNewestTip_single hstored⟩ (.inl rfl)
  | first :: second :: rest, hstored, _ =>
    have hnone : ((first :: second :: rest).foldl (Lib.Greatest.keep (timestampOf s)) (0, none)).2 = none ↔
        ∀ tip ∈ first :: second :: rest, timestampOf s tip = 0 := Lib.Greatest.foldl_keep_eq_none
    rw [findNewestTip_several, foldlM_selectNewest hstored]
    cases hfold : (first :: second :: rest).foldl (Lib.Greatest.keep (timestampOf s)) (0, none) with
    | mk time found =>
      rw [hfold] at hnone
      cases found with
      | none =>
        refine iff_of_false (fun h => nomatch h.choose_spec) ?_
        rintro (hone | ⟨tip, htip, hpos⟩)
        · cases hone
        · exact hpos (hnone.mp rfl tip htip)
      | some found =>
        refine iff_of_true ⟨_, rfl⟩ (.inr ?_)
        by_contra hzero
        refine Option.some_ne_none found (hnone.mpr fun tip htip => ?_)
        by_contra hpos
        exact hzero ⟨tip, htip, hpos⟩

end Newest

variable {tip hash : Hash}

section Requests

variable {rules : HeaderRules} {s : Storage P} {tips : List Hash}

theorem foldlM_selectHighest_mem {best best' : Nat × Option Hash} (h : tips.foldlM (selectHighest s) best = .ok best')
    (htip : best'.2 = some tip) : tip ∈ tips ∨ best.2 = some tip := by
  induction tips generalizing best with
  | nil =>
    cases h
    exact .inr htip
  | cons first tips ih =>
    rw [List.foldlM_cons, selectHighest] at h
    cases hread : s.getCumulativeDifficultyForBlockHash first with
    | error e =>
      rw [hread] at h
      cases h
    | ok difficulty =>
      rw [hread] at h
      rcases ih h with hmem | hbest
      · exact .inl (List.mem_cons_of_mem _ hmem)
      · by_cases hlt : best.1 < difficulty
        · rw [if_pos hlt] at hbest
          exact .inl (Option.some.inj hbest ▸ List.mem_cons_self)
        · rw [if_neg hlt] at hbest
          exact .inr hbest

theorem findBestTip_mem {best : Hash} (h : findBestTipByCumulativeDifficulty s tips = .ok best) : best ∈ tips := by
  match tips, h with
  | [single], h => exact List.mem_singleton.mpr (Except.ok.inj h).symm
  | first :: second :: rest, h =>
    have hseveral : findBestTipByCumulativeDifficulty s (first :: second :: rest) = (do
        match (← (first :: second :: rest).foldlM (selectHighest s) (0, none)).2 with
        | some tip => return tip
        | none => throw .expectedTips) := rfl
    rw [hseveral] at h
    cases hfold : (first :: second :: rest).foldlM (selectHighest s) (0, none) with
    | error e =>
      rw [hfold] at h
      cases h
    | ok highest =>
      rw [hfold] at h
      obtain ⟨difficulty, found⟩ := highest
      cases found with
      | none => cases h
      | some tip =>
        obtain rfl : tip = best := Except.ok.inj h
        exact (foldlM_selectHighest_mem hfold rfl).resolve_right nofun

theorem getPastBlocks_ok {parents : List Hash} (h : s.getPastBlocksForBlockHash hash = .ok parents) :
    ∃ header, s.blocks[hash]? = some header ∧ header.tips = parents := by
  rw [Storage.getPastBlocksForBlockHash, Storage.getBlockHeaderByHash] at h
  cases hblock : s.blocks[hash]? with
  | none =>
    rw [hblock] at h
    cases h
  | some header =>
    rw [hblock] at h
    exact ⟨header, rfl, Except.ok.inj h⟩

theorem requestAtTips_calculate {parentTimestamp timestamp : TimestampMillis} {d p minimum : VarUint} {version : BlockVersion}
    (h : requestAtTips rules s tips = .ok (.calculate parentTimestamp timestamp d p minimum version)) :
    ∃ best header newest parentNewest, best ∈ tips ∧ s.blocks[best]? = some header ∧
      findNewestTipByTimestamp s tips = .ok (newest, timestamp) ∧
      findNewestTipByTimestamp s header.tips = .ok (parentNewest, parentTimestamp) := by
  obtain ⟨height, -, h⟩ := Exec.except_bind_ok h
  cases hfork : hasHardForkAtHeight rules.network height with
  | mk hasHardFork forkVersion =>
  rw [hfork] at h
  dsimp only at h
  split at h
  · cases h
  split at h
  · cases h
  obtain ⟨best, hbest, h⟩ := Exec.except_bind_ok h
  obtain ⟨difficulty, -, h⟩ := Exec.except_bind_ok h
  obtain ⟨⟨newest, newestTimestamp⟩, hnewest, h⟩ := Exec.except_bind_ok h
  obtain ⟨parents, hparents, h⟩ := Exec.except_bind_ok h
  obtain ⟨⟨parentNewest, parentNewestTimestamp⟩, hparentNewest, h⟩ := Exec.except_bind_ok h
  obtain ⟨covariance, -, h⟩ := Exec.except_bind_ok h
  obtain ⟨rfl, rfl, -⟩ := DifficultyRequest.calculate.inj (Except.ok.inj h)
  obtain ⟨header, hblock, rfl⟩ := getPastBlocks_ok hparents
  exact ⟨best, header, newest, parentNewest, findBestTip_mem hbest, hblock, hnewest, hparentNewest⟩

end Requests

section Accepted

variable {rules : HeaderRules} {view : ChainView} {turns : Nat} {s : Storage P} {header : BlockHeader} {blockHash : Hash}
  {blockSize : Nat} {t t' : τ}

theorem refuseIf_ok {ε : Type} {cond : Prop} [Decidable cond] {e : ε} (h : (refuseIf cond e : Exec ε τ PUnit) t = .ok ⟨⟩ t') :
    ¬cond := by
  intro hcond
  rw [refuseIf, if_pos hcond] at h
  cases h

/-- The tips of a block are stored, and none of them is newer than the block. -/
def NotOlder (s : Storage P) (header : BlockHeader) : Prop :=
  ∀ tip ∈ header.tips, ∃ parent, s.blocks[tip]? = some parent ∧ parent.timestamp ≤ header.timestamp

theorem verifyTip_ok {height : Nat} (h : verifyTip turns s header height tip t = .ok ⟨⟩ t') :
    ∃ parent, s.blocks[tip]? = some parent ∧ parent.timestamp ≤ header.timestamp := by
  obtain ⟨time, t₁, htime, h⟩ := Exec.bind_ok_iff.mp h
  obtain ⟨⟨⟩, t₂, hnewer, -⟩ := Exec.bind_ok_iff.mp h
  cases hread : s.getTimestampForBlockHash tip with
  | error e =>
    rw [hread] at htime
    cases htime
  | ok previous =>
    rw [hread] at htime
    cases htime
    obtain ⟨parent, hblock, rfl⟩ := getTimestamp_ok hread
    exact ⟨parent, hblock, Nat.le_of_not_lt (refuseIf_ok hnewer)⟩

theorem verifyNewHeader_ok {result : VarUint × VarUint}
    (h : verifyNewHeader rules view turns s header blockHash blockSize t = .ok result t') : NotOlder s header := by
  obtain ⟨⟨⟩, t₁, -, h⟩ := Exec.bind_ok_iff.mp h
  obtain ⟨⟨⟩, t₂, -, h⟩ := Exec.bind_ok_iff.mp h
  obtain ⟨⟨⟩, t₃, -, h⟩ := Exec.bind_ok_iff.mp h
  obtain ⟨⟨⟩, t₄, -, h⟩ := Exec.bind_ok_iff.mp h
  obtain ⟨⟨⟩, t₅, -, h⟩ := Exec.bind_ok_iff.mp h
  obtain ⟨⟨⟩, t₆, -, h⟩ := Exec.bind_ok_iff.mp h
  obtain ⟨height, t₇, -, h⟩ := Exec.bind_ok_iff.mp h
  obtain ⟨⟨⟩, t₈, -, h⟩ := Exec.bind_ok_iff.mp h
  obtain ⟨⟨⟩, t₉, -, h⟩ := Exec.bind_ok_iff.mp h
  obtain ⟨reachable, t₁₀, -, h⟩ := Exec.bind_ok_iff.mp h
  obtain ⟨⟨⟩, t₁₁, -, h⟩ := Exec.bind_ok_iff.mp h
  obtain ⟨⟨⟩, t₁₂, htips, -⟩ := Exec.bind_ok_iff.mp h
  intro tip htip
  obtain ⟨t₁₃, t₁₄, htip⟩ := Exec.forM_ok_mem htips htip
  exact verifyTip_ok htip

end Accepted

section Forward

variable {rules : HeaderRules} {s : Storage P} {tips : List Hash}

/-- No stored block is older than one of its stored tips. -/
def TipsFirst (s : Storage P) : Prop :=
  ∀ (hash : Hash) (header : BlockHeader), s.blocks[hash]? = some header → ∀ tip ∈ header.tips, timestampOf s tip ≤ header.timestamp

def OneAtZero (s : Storage P) : Prop :=
  ∀ (hash hash' : Hash) (header header' : BlockHeader), s.blocks[hash]? = some header → s.blocks[hash']? = some header' →
    header.timestamp = 0 → header'.timestamp = 0 → hash = hash'

/-- The solve time never goes backwards. -/
def SolvesForward (rules : HeaderRules) (s : Storage P) : Prop :=
  ∀ tips parentTimestamp timestamp d p minimum version,
    requestAtTips rules s tips = .ok (.calculate parentTimestamp timestamp d p minimum version) → parentTimestamp ≤ timestamp

/-- The newest one of several stored tips is always found. -/
def FindsNewest (s : Storage P) : Prop :=
  ∀ tips : List Hash, tips ≠ [] → tips.Nodup → TipsStored s tips → ∃ newest, findNewestTipByTimestamp s tips = .ok newest

theorem TipsFirst.solvesForward (h : TipsFirst s) (rules : HeaderRules) : SolvesForward rules s := by
  intro tips parentTimestamp timestamp d p minimum version hrequest
  obtain ⟨best, header, newest, parentNewest, hbest, hblock, hnewest, hparent⟩ := requestAtTips_calculate hrequest
  obtain ⟨-, hmem, rfl, -⟩ := findNewestTip_ok hparent
  obtain ⟨-, -, -, hle⟩ := findNewestTip_ok hnewest
  calc timestampOf s parentNewest ≤ header.timestamp := h best header hblock parentNewest hmem
    _ = timestampOf s best := (timestampOf_eq hblock).symm
    _ ≤ timestamp := hle best hbest

/-- The search fails among several tips without a timestamp, and nowhere else. -/
theorem findsNewest_iff : FindsNewest s ↔ OneAtZero s := by
  constructor
  · intro h hash hash' header header' hblock hblock' hzero hzero'
    by_contra hne
    have hstored : TipsStored s [hash, hash'] := by
      intro tip htip
      rcases List.mem_cons.mp htip with rfl | htip
      · exact ⟨header, hblock⟩
      · exact ⟨header', List.mem_singleton.mp htip ▸ hblock'⟩
    have hfound := h [hash, hash'] (List.cons_ne_nil _ _) (by simpa using hne) hstored
    rcases (findNewestTip_returns hstored (List.cons_ne_nil _ _)).mp hfound with hone | ⟨tip, htip, hpos⟩
    · cases hone
    · rcases List.mem_cons.mp htip with rfl | htip
      · exact hpos ((timestampOf_eq hblock).trans hzero)
      · rw [List.mem_singleton.mp htip] at hpos
        exact hpos ((timestampOf_eq hblock').trans hzero')
  · intro halone tips hne hnodup hstored
    refine (findNewestTip_returns hstored hne).mpr ?_
    match tips, hnodup, hstored, hne with
    | [_], _, _, _ => exact .inl rfl
    | first :: second :: rest, hnodup, hstored, _ =>
      refine .inr ?_
      by_contra hzero
      have hall (tip : Hash) (htip : tip ∈ first :: second :: rest) : timestampOf s tip = 0 := by
        by_contra hpos
        exact hzero ⟨tip, htip, hpos⟩
      have hsecond : second ∈ first :: second :: rest := List.mem_cons_of_mem _ List.mem_cons_self
      obtain ⟨header, hblock⟩ := hstored first List.mem_cons_self
      obtain ⟨header', hblock'⟩ := hstored second hsecond
      have heq := halone first second header header' hblock hblock' ((timestampOf_eq hblock).symm.trans (hall first List.mem_cons_self))
        ((timestampOf_eq hblock').symm.trans (hall second hsecond))
      exact (List.nodup_cons.mp hnodup).1 (heq ▸ List.mem_cons_self)

end Forward

end Xelis.Blockchain
