import Xelis.Blockchain.Dag
import Xelis.Lib.Loop

/-! The blocks that can be reached from a tip, and the check that no tip of a block is behind another one. -/

namespace Xelis.Blockchain

open Lib (Exec Halt IndexSet)
open Lib.DepthFirst (Within Trace visit)

variable {P τ : Type}

/-- What the search keeps: the blocks it met, and the ones to enter with their level. -/
abbrev ReachabilitySearch := Finset Hash × List (Hash × Nat)

def buildReachabilityTurn (s : Storage P) : ReachabilitySearch → Exec (Halt BlockchainError) τ (ReachabilitySearch ⊕ Finset Hash)
  | (set, []) => return .inr set
  | (set, (currentHash, currentLevel) :: stack) =>
    if 2 * STABLE_LIMIT ≤ currentLevel then return .inl (insert currentHash set, stack)
    else do
      let tips ← Exec.attempt (s.getPastBlocksForBlockHash currentHash)
      let set := insert currentHash set
      return .inl (set, tips.foldl (fun stack pastHash =>
        if pastHash ∈ set then stack else (pastHash, currentLevel + 1) :: stack) stack)

def buildReachability (turns : Nat) (s : Storage P) (hash : Hash) : Exec (Halt BlockchainError) τ (Finset Hash) :=
  Lib.Loop.run (buildReachabilityTurn s) turns (∅, [(hash, 0)])

/-- No tip may be among the past blocks of another tip. -/
def verifyNonReachability (turns : Nat) (s : Storage P) (tips : IndexSet Hash) : Exec (Halt BlockchainError) τ Bool := do
  let reach ← tips.elems.mapM (buildReachability turns s)
  let tipsCount := tips.elems.length
  return (List.range tipsCount).all (fun i => (List.range tipsCount).all (fun j =>
    match reach[j]?, tips.getIndex i with
    | some set, some tip => i == j || tip ∉ set
    | _, _ => true))

section Search

variable {s : Storage P}

end Search

end Xelis.Blockchain
