import Xelis.Blockchain.FullOrder
import Xelis.Blockchain.Reachability

/-! What is computed from the tips of the graph: the stable block below them, the work behind them and their distance from the
ordered chain. -/

namespace Xelis.Blockchain

open Lib (FiniteMap Exec Halt IndexSet)

variable {P τ : Type}

def isPruned (s : Storage P) (hash : Hash) : Except BlockchainError Bool :=
  match s.prunedTopoheight with
  | some prunedTopo => (s.getTopoHeightForHash hash).map (fun topoheight => decide (prunedTopo = topoheight))
  | none => .ok false

/-- The blocks from a height down to the stable point. The genesis is not among them. -/
def preBlocks (s : Storage P) (stablePoint : Nat) : Nat → Except BlockchainError (List Hash)
  | 0 => .ok []
  | i + 1 =>
    if stablePoint ≤ i + 1 then do
      let blocks ← s.getBlocksAtHeight (i + 1)
      return blocks ++ (← preBlocks s stablePoint i)
    else .ok []

/-- One of the blocks is ordered and has no less work behind it. -/
def hasHeavier (s : Storage P) (difficulty : Nat) (blocks : List Hash) : Except BlockchainError Bool :=
  blocks.anyM fun hash =>
    if s.isBlockTopologicalOrdered hash then (s.getCumulativeDifficultyForBlockHash hash).map (fun other => decide (difficulty ≤ other))
    else .ok false

/-- A block is stable when it is deep enough below `height`, alone among the ordered blocks of its own height, and heavier than the
ordered blocks right below it. -/
def isSyncBlockAtHeight (s : Storage P) (hash : Hash) (height : Nat) : Except BlockchainError Bool := do
  let blockHeight ← s.getHeightForBlockHash hash
  if blockHeight = 0 then return true
  else if height < blockHeight + STABLE_LIMIT || !s.isBlockTopologicalOrdered hash then return false
  else if ← isPruned s hash then return true
  else
    let tipsAtHeight ← s.getBlocksAtHeight blockHeight
    if tipsAtHeight.any (fun other => other ≠ hash && s.isBlockTopologicalOrdered other) then return false
    else
      let stablePoint := if STABLE_LIMIT ≤ blockHeight then blockHeight - STABLE_LIMIT else STABLE_LIMIT - blockHeight
      let blocks ← preBlocks s stablePoint (blockHeight - 1)
      let difficulty ← s.getCumulativeDifficultyForBlockHash hash
      return !(← hasHeavier s difficulty blocks)

def tipBaseOf (key : Hash × Nat) : Exec (Halt BlockchainError) DagCaches (Option (Hash × Nat)) :=
  modifyGet (fun c => (c.tipBase.peek key, { c with tipBase := c.tipBase.touch key }))

def putTipBase (key base : Hash × Nat) : Exec (Halt BlockchainError) DagCaches PUnit :=
  modify (fun c => { c with tipBase := c.tipBase.put key base })

def prunedBase (s : Storage P) (prunedTopoheight : TopoHeight) (hash : Hash) : Except BlockchainError (Option Nat) :=
  if 0 < prunedTopoheight && s.isBlockTopologicalOrdered hash then do
    let topoheight ← s.getTopoHeightForHash hash
    if topoheight ≤ prunedTopoheight then return some (← s.getHeightForBlockHash hash) else return none
  else .ok none

structure TipBaseSearch where
  stack : List Hash
  bases : IndexSet (Hash × Nat) := .empty
  processed : Finset Hash := ∅

namespace TipBaseSearch

def found (search : TipBaseSearch) (base : Hash × Nat) : TipBaseSearch := { search with bases := search.bases.insert base }

def push (search : TipBaseSearch) (tip : Hash) : TipBaseSearch :=
  if tip ∈ search.processed then search else { search with stack := tip :: search.stack }

end TipBaseSearch

/-- The first stable tip ends the scan: the tips after it are not looked at. -/
def scanTips (s : Storage P) (hash : Hash) (height : Nat) (prunedTopoheight : TopoHeight) :
    List Hash → TipBaseSearch → Exec (Halt BlockchainError) DagCaches TipBaseSearch
  | [], search => return search
  | tip :: tips, search => do
    match ← Exec.attempt (prunedBase s prunedTopoheight tip) with
    | some blockHeight => return search.found (tip, blockHeight)
    | none =>
      if ← Exec.attempt (isSyncBlockAtHeight s tip height) then do
        let blockHeight ← Exec.attempt (s.getHeightForBlockHash tip)
        putTipBase (hash, height) (tip, blockHeight)
        return search.found (tip, blockHeight)
      else scanTips s hash height prunedTopoheight tips (search.push tip)

def findTipBaseTurn (s : Storage P) (hash : Hash) (height : Nat) (prunedTopoheight : TopoHeight) (search : TipBaseSearch) :
    Exec (Halt BlockchainError) DagCaches (TipBaseSearch ⊕ IndexSet (Hash × Nat)) :=
  match search.stack with
  | [] => return .inr search.bases
  | currentHash :: stack => do
    let search := { search with stack, processed := insert currentHash search.processed }
    match ← Exec.attempt (prunedBase s prunedTopoheight currentHash) with
    | some blockHeight => return .inl (search.found (currentHash, blockHeight))
    | none =>
      match ← tipBaseOf (currentHash, height) with
      | some base => return .inl (search.found base)
      | none => do
        let tips ← Exec.attempt (s.getPastBlocksForBlockHash currentHash)
        if tips.isEmpty then do
          -- only the genesis has no tips; the entry is provisional, and its height is the one that was asked for
          putTipBase (hash, height) (currentHash, height)
          return .inl (search.found (currentHash, 0))
        else return .inl (← scanTips s hash height prunedTopoheight tips search)

/-- The last one after sorting by descending height. -/
def lowestBase (bases : List (Hash × Nat)) : Option (Hash × Nat) := (bases.insertionSort (fun a b => b.2 ≤ a.2)).getLast?

def findTipBase (turns : Nat) (s : Storage P) (hash : Hash) (height : Nat) (prunedTopoheight : TopoHeight) :
    Exec (Halt BlockchainError) DagCaches (Hash × Nat) := do
  let bases ← Lib.Loop.run (findTipBaseTurn s hash height prunedTopoheight) turns { stack := [hash] }
  match lowestBase bases.elems with
  | none => throw (.failed .expectedTips)
  | some base =>
    putTipBase (hash, height) base
    return base

def getCombinedHashForTips (tips : List Hash) : Hash := tips.foldl (fun bytes tip => bytes ^^^ tip) Hash.zero

def commonBaseOf (key : Hash) : Exec (Halt BlockchainError) DagCaches (Option (Hash × Nat)) :=
  modifyGet (fun c => (c.commonBase.peek key, { c with commonBase := c.commonBase.touch key }))

def putCommonBase (key : Hash) (base : Hash × Nat) : Exec (Halt BlockchainError) DagCaches PUnit :=
  modify (fun c => { c with commonBase := c.commonBase.put key base })

def bestHeight (s : Storage P) (tips : List Hash) : Except BlockchainError Nat := do
  return (← tips.mapM s.getHeightForBlockHash).foldl max 0

/-- The tip bases are searched at the greatest height of the tips, and the lowest one is the base of all. -/
def findCommonBase (turns : Nat) (s : Storage P) (tips : List Hash) : Exec (Halt BlockchainError) DagCaches (Hash × Nat) := do
  let combinedTips := getCombinedHashForTips tips
  match ← commonBaseOf combinedTips with
  | some base => return base
  | none => do
    let height ← Exec.attempt (bestHeight s tips)
    let bases ← tips.mapM (fun hash => findTipBase turns s hash height (s.prunedTopoheight.getD 0))
    match lowestBase bases with
    | none => throw (.failed .expectedTips)
    | some base => do
      putCommonBase combinedTips base
      return base

def tipWorkScoreOf (key : Hash × Hash × Nat) : Exec (Halt BlockchainError) DagCaches (Option (Finset Hash × Nat)) :=
  modifyGet (fun c => (c.tipWorkScore.peek key, { c with tipWorkScore := c.tipWorkScore.touch key }))

def putTipWorkScore (key : Hash × Hash × Nat) (score : Finset Hash × Nat) : Exec (Halt BlockchainError) DagCaches PUnit :=
  modify (fun c => { c with tipWorkScore := c.tipWorkScore.put key score })

/-- The parents that count: above the base, and without a score so far. -/
def pushAboveBase (s : Storage P) (baseTopoheight : TopoHeight) (map : FiniteMap Hash Nat) (tips stack : List Hash) :
    Except BlockchainError (List Hash) :=
  tips.foldlM (fun stack tip => do
    if map.contains tip then return stack
    else return if ← isAboveBase s baseTopoheight tip then tip :: stack else stack) stack

def findTipWorkScoreTurn (s : Storage P) (baseTopoheight : TopoHeight) (search : FiniteMap Hash Nat × List Hash) :
    Exec (Halt BlockchainError) τ (FiniteMap Hash Nat × List Hash ⊕ FiniteMap Hash Nat) :=
  match search with
  | (map, []) => return .inr map
  | (map, currentHash :: stack) => do
    let tips ← Exec.attempt (s.getPastBlocksForBlockHash currentHash)
    let stack ← Exec.attempt (pushAboveBase s baseTopoheight map tips stack)
    if map.contains currentHash then return .inl (map, stack)
    else return .inl (map.insert currentHash (← Exec.attempt (s.getDifficultyForBlockHash currentHash)), stack)

def findTipWorkScoreInternal (turns : Nat) (s : Storage P) (baseTopoheight : TopoHeight) (map : FiniteMap Hash Nat) (hash : Hash) :
    Exec (Halt BlockchainError) τ (FiniteMap Hash Nat) :=
  Lib.Loop.run (findTipWorkScoreTurn s baseTopoheight) turns (map, [hash])

/-- A parent of the tip that counts and was not met behind another one. -/
def scoreBehind (turns : Nat) (s : Storage P) (baseTopoheight : TopoHeight) (map : FiniteMap Hash Nat) (tip : Hash) :
    Exec (Halt BlockchainError) τ (FiniteMap Hash Nat) := do
  if map.contains tip then return map
  else if ← Exec.attempt (isAboveBase s baseTopoheight tip) then findTipWorkScoreInternal turns s baseTopoheight map tip
  else return map

def findTipWorkScore (turns : Nat) (s : Storage P) (hash base : Hash) (baseHeight : Nat) :
    Exec (Halt BlockchainError) DagCaches (Finset Hash × Nat) := do
  match ← tipWorkScoreOf (hash, base, baseHeight) with
  | some score => return score
  | none => do
    let tips ← Exec.attempt (s.getPastBlocksForBlockHash hash)
    let baseTopoheight ← Exec.attempt (s.getTopoHeightForHash base)
    let map ← tips.foldlM (scoreBehind turns s baseTopoheight) ∅
    let map ← if base ≠ hash then pure (map.insert base (← Exec.attempt (s.getCumulativeDifficultyForBlockHash base))) else pure map
    let map := map.insert hash (← Exec.attempt (s.getDifficultyForBlockHash hash))
    let score := (map.keys.toFinset, (map.toList.map Prod.snd).sum)
    putTipWorkScore (hash, base, baseHeight) score
    return score

def findBestTip (turns : Nat) (s : Storage P) (tips : List Hash) (base : Hash) (baseHeight : Nat) :
    Exec (Halt BlockchainError) DagCaches Hash := do
  let scores ← tips.mapM fun hash => do return (hash, (← findTipWorkScore turns s hash base baseHeight).2)
  match sortDescendingByCumulativeDifficulty scores with
  | [] => throw (.failed .expectedTips)
  | (bestTip, _) :: _ => return bestTip

end Xelis.Blockchain
