import Xelis.Blockchain.Execution
import Xelis.Storage.Deletion

namespace Xelis.Blockchain

open Lib (FiniteMap Exec)
open State (Env)

variable {P : Type} [RistrettoPoint P]

def STABLE_LIMIT : Nat := 8
def MAXIMUM_SUPPLY : Nat := 18400000 * COIN_VALUE
def EMISSION_SPEED_FACTOR : Nat := 20
def MILLIS_PER_SECOND : Nat := 1000
def BLOCK_TIME_MILLIS : Nat := 15 * MILLIS_PER_SECOND
def SIDE_BLOCK_REWARD_PERCENT : Nat := 30
def SIDE_BLOCK_REWARD_MAX_BLOCKS : Nat := 3
def SIDE_BLOCK_REWARD_MIN_PERCENT : Nat := 5

structure Node (P : Type) where
  env : Env P
  mainnet : Bool
  devPublicKey : PublicKey

def getBlockReward (supply : Nat) : Nat :=
  if MAXIMUM_SUPPLY ≤ supply then 0
  else (MAXIMUM_SUPPLY - supply) / 2 ^ EMISSION_SPEED_FACTOR * BLOCK_TIME_MILLIS / MILLIS_PER_SECOND / 180

def sideBlockRewardPercentage (sideBlocks : Nat) : Nat :=
  if 0 < sideBlocks then
    if sideBlocks < SIDE_BLOCK_REWARD_MAX_BLOCKS then SIDE_BLOCK_REWARD_PERCENT / (sideBlocks * 2)
    else SIDE_BLOCK_REWARD_MIN_PERCENT
  else SIDE_BLOCK_REWARD_PERCENT

def internalGetBlockReward (pastSupply : Nat) (isSideBlock : Bool) (sideBlocksCount : Nat) : Nat :=
  if isSideBlock then getBlockReward pastSupply * sideBlockRewardPercentage sideBlocksCount / 100
  else getBlockReward pastSupply

/-- Looking down the order, for at most `counter` blocks, for one that is not lower than `height`. -/
def searchHigher (storage : Storage P) (height : Nat) : Nat → TopoHeight → Except BlockchainError Bool
  | 0, _ => .ok false
  | _ + 1, 0 => .ok false
  | counter + 1, i + 1 => do
    let hash ← storage.getHashAtTopoHeight (i + 1)
    let previousHeight ← storage.getHeightForBlockHash hash
    if height ≤ previousHeight then return true
    else searchHigher storage height counter i

def isSideBlockInternal (storage : Storage P) (hash : Hash) (currentTopoheight : TopoHeight) :
    Except BlockchainError Bool := do
  if !storage.isBlockTopologicalOrdered hash then
    return false
  let topoheight ← storage.getTopoHeightForHash hash
  if topoheight = 0 || currentTopoheight < topoheight then
    return false
  let height ← storage.getHeightForBlockHash hash
  searchHigher storage height STABLE_LIMIT (topoheight - 1)

def countSideBlocks (storage : Storage P) (hash : Hash) (height : Nat) (topoheight : TopoHeight) :
    Except BlockchainError Nat := do
  (← storage.getBlocksAtHeight height).foldlM (fun count block => do
    if block ≠ hash then
      return if ← isSideBlockInternal storage block topoheight then count + 1 else count
    else return count) 0

/-- What the loop over the new order carries from block to block. -/
structure Ordering (P : Type) where
  storage : Storage P
  nonceChecker : NonceChecker := {}
  sideBlocks : FiniteMap Nat Nat := ∅
  orphanedTransactions : List Hash := []

namespace Ordering

def onStorage (f : Storage P → Storage P) : Exec BlockchainError (Ordering P) PUnit :=
  modify (fun o => { o with storage := f o.storage })

def load {α : Type} (f : Storage P → Except BlockchainError α) : Exec BlockchainError (Ordering P) α := do
  Exec.ofExcept (f (← get).storage)

end Ordering

open Blockchain.Ordering (onStorage load)

def pastSupplies (highestTopo : TopoHeight) (storage : Storage P) : Except BlockchainError (Nat × Nat) := do
  if highestTopo = 0 then return (0, 0)
  else
    let pastSupply ← storage.getSupplyAtTopoHeight (highestTopo - 1)
    let pastBurnedSupply ← storage.getBurnedSupplyAtTopoHeight (highestTopo - 1)
    return (pastSupply, pastBurnedSupply)

def sideBlocksAt (hash : Hash) (height : Nat) (highestTopo : TopoHeight) : Exec BlockchainError (Ordering P) Nat := do
  match (← get).sideBlocks[height]? with
  | some count => return count
  | none => load (countSideBlocks · hash height highestTopo)

def rewardOf (hash : Hash) (height : Nat) (highestTopo : TopoHeight) (pastSupply : Nat) :
    Exec BlockchainError (Ordering P) Nat := do
  let isSideBlock ← load (isSideBlockInternal · hash highestTopo)
  let count ← sideBlocksAt hash height highestTopo
  modify (fun o => { o with sideBlocks := o.sideBlocks.insert height (if isSideBlock then count + 1 else count) })
  return internalGetBlockReward pastSupply isSideBlock count

def Ordering.blockRun (o : Ordering P) (node : Node P) (version : BlockVersion) (baseTopoHeight : TopoHeight) (hash : Hash)
    (block : Block) (highestTopo : TopoHeight) (pastBurnedSupply : Nat) : BlockRun P :=
  BlockRun.new o.storage node.mainnet baseTopoHeight highestTopo version pastBurnedSupply hash block o.nonceChecker
    o.orphanedTransactions

/-- The execution of a block, inside the loop. -/
def runBlock (node : Node P) (version : BlockVersion) (baseTopoHeight : TopoHeight) (hash : Hash) (block : Block)
    (highestTopo : TopoHeight) (pastBurnedSupply blockReward : Nat) : Exec BlockchainError (Ordering P) PUnit := fun o =>
  match executeBlock node.env node.devPublicKey hash block blockReward
      (o.blockRun node version baseTopoHeight hash block highestTopo pastBurnedSupply) with
  | .ok _ run => .ok ⟨⟩ { o with
      storage := run.storage, nonceChecker := run.nonceChecker, orphanedTransactions := run.orphanedTransactions }
  | .error e run => .error e { o with
      storage := run.storage, nonceChecker := run.nonceChecker, orphanedTransactions := run.orphanedTransactions }

/-- The place of a block in the order, with its reward and the supply: the block, the burned supply before it and its
reward come back. -/
def prepareBlock (hash : Hash) (highestTopo : TopoHeight) : Exec BlockchainError (Ordering P) (Block × Nat × Nat) := do
  onStorage (·.setTopoHeightForBlock hash highestTopo)
  let (pastSupply, pastBurnedSupply) ← load (pastSupplies highestTopo)
  let block ← load (·.getBlockByHash hash)
  let blockReward ← rewardOf hash block.header.height highestTopo pastSupply
  onStorage (·.setBlockRewardAtTopoHeight highestTopo blockReward)
  onStorage (·.setSupplyAtTopoHeight highestTopo (pastSupply + blockReward))
  return (block, pastBurnedSupply, blockReward)

def orderBlock (node : Node P) (version : BlockVersion) (baseTopoHeight : TopoHeight) (hash : Hash)
    (highestTopo : TopoHeight) : Exec BlockchainError (Ordering P) PUnit := do
  let (block, pastBurnedSupply, blockReward) ← prepareBlock hash highestTopo
  runBlock node version baseTopoHeight hash block highestTopo pastBurnedSupply blockReward

def orderFrom (node : Node P) (version : BlockVersion) (baseTopoHeight : TopoHeight) :
    TopoHeight → List Hash → Exec BlockchainError (Ordering P) PUnit
  | _, [] => pure ⟨⟩
  | topoheight, hash :: hashes => do
    orderBlock node version baseTopoHeight hash topoheight
    orderFrom node version baseTopoHeight (topoheight + 1) hashes

section

omit [RistrettoPoint P]

theorem load_still {β : Type} (g : Storage P → Except BlockchainError β) (o : Ordering P) : Exec.stateOf (load g o) = o := by
  unfold load
  rw [Exec.bind_apply, Exec.get_apply]
  dsimp only
  rw [Exec.ofExcept_apply]
  cases g o.storage with
  | error e => rfl
  | ok b => rfl

/-- The count of the side blocks is no part of the storage. -/
theorem rewardOf_keeps (hash : Hash) (height : Nat) (highestTopo : TopoHeight) (pastSupply : Nat) :
    Exec.Moves (fun o o' : Ordering P => o'.storage = o.storage ∧ o'.nonceChecker = o.nonceChecker)
      (rewardOf hash height highestTopo pastSupply) := by
  have htrans : ∀ a b c : Ordering P, b.storage = a.storage ∧ b.nonceChecker = a.nonceChecker →
      c.storage = b.storage ∧ c.nonceChecker = b.nonceChecker → c.storage = a.storage ∧ c.nonceChecker = a.nonceChecker :=
    fun a b c hab hbc => ⟨hbc.1.trans hab.1, hbc.2.trans hab.2⟩
  refine Exec.Moves.bind htrans (fun o => by rw [load_still]; exact ⟨rfl, rfl⟩) fun isSideBlock => ?_
  refine Exec.Moves.bind htrans ?_ fun count o => ⟨rfl, rfl⟩
  refine Exec.Moves.bind htrans (fun o => ⟨rfl, rfl⟩) fun o => ?_
  cases o.sideBlocks[height]? with
  | some count => exact fun o => ⟨rfl, rfl⟩
  | none => exact fun o => by rw [load_still]; exact ⟨rfl, rfl⟩

theorem prepareBlock_keeps {α : Type} {f : Storage P → α}
    (htopo : ∀ s hash topoheight, f (Storage.setTopoHeightForBlock s hash topoheight) = f s)
    (hreward : ∀ s topoheight reward, f (Storage.setBlockRewardAtTopoHeight s topoheight reward) = f s)
    (hsupply : ∀ s topoheight supply, f (Storage.setSupplyAtTopoHeight s topoheight supply) = f s)
    (hash : Hash) (highestTopo : TopoHeight) :
    Exec.Moves (fun o o' : Ordering P => f o'.storage = f o.storage ∧ o'.nonceChecker = o.nonceChecker)
      (prepareBlock hash highestTopo) := by
  have htrans : ∀ a b c : Ordering P, f b.storage = f a.storage ∧ b.nonceChecker = a.nonceChecker →
      f c.storage = f b.storage ∧ c.nonceChecker = b.nonceChecker →
      f c.storage = f a.storage ∧ c.nonceChecker = a.nonceChecker :=
    fun a b c hab hbc => ⟨hbc.1.trans hab.1, hbc.2.trans hab.2⟩
  refine Exec.Moves.bind htrans (fun o => ⟨htopo _ _ _, rfl⟩) fun _ => ?_
  refine Exec.Moves.bind htrans (fun o => by rw [load_still]; exact ⟨rfl, rfl⟩) fun supplies => ?_
  refine Exec.Moves.bind htrans (fun o => by rw [load_still]; exact ⟨rfl, rfl⟩) fun block => ?_
  refine Exec.Moves.bind htrans (fun o => ?_) fun reward => ?_
  · have hkeeps := rewardOf_keeps hash block.header.height highestTopo supplies.1 o
    exact ⟨congrArg f hkeeps.1, hkeeps.2⟩
  · refine Exec.Moves.bind htrans (fun o => ⟨hreward _ _ _, rfl⟩) fun _ => ?_
    exact Exec.Moves.bind htrans (fun o => ⟨hsupply _ _ _, rfl⟩) fun _ o => ⟨rfl, rfl⟩

end

theorem orderBlock_ok {node : Node P} {version : BlockVersion} {baseTopoHeight : TopoHeight} {hash : Hash}
    {highestTopo : TopoHeight} {o o' : Ordering P} (h : orderBlock node version baseTopoHeight hash highestTopo o = .ok ⟨⟩ o') :
    ∃ block pastBurnedSupply blockReward o₁ run,
      prepareBlock hash highestTopo o = .ok (block, pastBurnedSupply, blockReward) o₁ ∧
      executeBlock node.env node.devPublicKey hash block blockReward
        (o₁.blockRun node version baseTopoHeight hash block highestTopo pastBurnedSupply) = .ok ⟨⟩ run ∧
      o'.storage = run.storage ∧ o'.nonceChecker = run.nonceChecker := by
  obtain ⟨⟨block, pastBurnedSupply, blockReward⟩, o₁, hprepare, hrun⟩ := Exec.bind_ok_iff.mp h
  refine ⟨block, pastBurnedSupply, blockReward, o₁, ?_⟩
  simp only [runBlock] at hrun
  cases hexec : executeBlock node.env node.devPublicKey hash block blockReward
      (o₁.blockRun node version baseTopoHeight hash block highestTopo pastBurnedSupply) with
  | error e run => simp [hexec] at hrun
  | ok _ run =>
    simp only [hexec, EStateM.Result.ok.injEq, true_and] at hrun
    subst hrun
    exact ⟨run, hprepare, rfl, rfl, rfl⟩

end Xelis.Blockchain
