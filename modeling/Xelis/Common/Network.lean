import Xelis.Common.Serializer

namespace Xelis.P2p

open Lib.Reader (Reads)

inductive Network where
  | mainnet
  | testnet
  | dev
  deriving DecidableEq

namespace Network

def write : Network → IVec
  | mainnet => writeU8 0
  | testnet => writeU8 1
  | dev => writeU8 2

def read : Reader Network := do
  match ← readU8 with
  | 0 => return mainnet
  | 1 => return testnet
  | 2 => return dev
  | _ => throw .invalidValue

theorem length_write (network : Network) : network.write.length = 1 := by
  cases network <;> rfl

theorem read_reads (network : Network) : Reads read network.write network := by
  cases network <;> exact fun rest => rfl

end Network

end Xelis.P2p
