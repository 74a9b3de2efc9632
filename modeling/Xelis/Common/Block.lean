import Xelis.Common.Transaction

namespace Xelis

structure BlockHeader where
  version : BlockVersion
  tips : List Hash
  timestamp : TimestampMillis
  height : Nat
  nonce : Nat
  extraNonce : IVec
  miner : PublicKey
  txsHashes : List Hash
  deriving DecidableEq

structure Block where
  header : BlockHeader
  transactions : List Transaction

end Xelis
