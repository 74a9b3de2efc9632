import Xelis.Common.Transaction

namespace Xelis

open Lib (FiniteMap)

structure AssetOwner where
  contract : Hash
  id : Nat
  deriving DecidableEq, Repr

structure AssetData where
  decimals : Nat
  name : String
  ticker : String
  maxSupply : Option Nat
  owner : Option AssetOwner
  deriving DecidableEq, Repr

/-- The log of what a contract call did. -/
inductive ContractOutput where
  | refundGas (amount : Nat)
  | transfer (amount : Nat) (asset : Hash) (destination : PublicKey)
  | mint (asset : Hash) (amount : Nat)
  | burn (asset : Hash) (amount : Nat)
  | newAsset (asset : Hash)
  | exitCode (code : Option Nat)
  | refundDeposits
  deriving DecidableEq, Repr

/-- An asset as the executions of the block see it. -/
structure AssetChanges where
  data : VersionedState × AssetData
  supply : Option (VersionedState × Nat)
  deriving DecidableEq

/-- Everything a contract read or changed so far in the block. A balance is `none` when the contract has none. -/
structure ContractCache where
  storage : FiniteMap ValueCell (VersionedState × Option ValueCell) := ∅
  balances : FiniteMap Hash (Option (VersionedState × Nat)) := ∅
  memory : FiniteMap ValueCell ValueCell := ∅
  events : FiniteMap Nat (List ValueCell) := ∅
  deriving DecidableEq

/-- What all the contracts of the block sent out, paid once the block is applied. -/
structure ContractEventTracker where
  transfers : FiniteMap PublicKey (FiniteMap Hash Nat) := ∅
  deriving DecidableEq

end Xelis
