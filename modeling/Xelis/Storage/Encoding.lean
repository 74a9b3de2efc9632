import Xelis.Common.Error
import Mathlib.Tactic.Ring

namespace Xelis.Storage

/-- The lowest base 256 digits of a number as bytes, the highest one first. -/
private def bytesOf (w n : Nat) : IVec := (List.range w).map (fun i => UInt8.ofNat (n / 256 ^ (w - 1 - i)))

private def numberOf (bytes : IVec) : Nat := bytes.foldl (fun acc b => acc * 256 + b.toNat) 0

private theorem bytesOf_succ (w n : Nat) : bytesOf (w + 1) n = bytesOf w (n / 256) ++ [UInt8.ofNat n] := by
  unfold bytesOf
  rw [List.range_succ, List.map_append]
  congr 1
  · refine List.map_congr_left fun i hi => ?_
    have hlt : i < w := List.mem_range.mp hi
    have hpow : w + 1 - 1 - i = (w - 1 - i) + 1 := by omega
    rw [hpow, pow_succ', Nat.div_div_eq_div_mul]
  · simp

private theorem numberOf_bytesOf (w n : Nat) : numberOf (bytesOf w n) = n % 256 ^ w := by
  induction w generalizing n with
  | zero => simp [bytesOf, numberOf, Nat.mod_one]
  | succ w ih =>
    have hlast : numberOf (bytesOf w (n / 256) ++ [UInt8.ofNat n]) = numberOf (bytesOf w (n / 256)) * 256 + n % 256 := by
      unfold numberOf
      rw [List.foldl_append]
      rfl
    rw [bytesOf_succ, hlast, ih, pow_succ', Nat.mod_mul]
    ring

private theorem length_bytesOf (w n : Nat) : (bytesOf w n).length = w := by
  simp [bytesOf]

theorem u64_length (n : UInt64) : (Serializer.toBytes n).length = 8 := length_bytesOf 8 n.toNat

theorem u64_fromBytes_toBytes (n : UInt64) : (Serializer.fromBytes (Serializer.toBytes n) : Except ReaderError UInt64) = .ok n := by
  have hlength := u64_length n
  have hnumber : numberOf (bytesOf 8 n.toNat) = n.toNat := by
    rw [numberOf_bytesOf]
    exact Nat.mod_eq_of_lt (UInt64.toNat_lt n)
  show (if (Serializer.toBytes n).length < 8 then _ else _) = _
  rw [if_neg (by omega), List.take_of_length_le (by omega)]
  show Except.ok (UInt64.ofNat (numberOf (bytesOf 8 n.toNat))) = _
  rw [hnumber, UInt64.ofNat_toNat]

theorem length_hashToBytes (h : Hash) : (hashToBytes h).length = 32 := length_bytesOf 32 h.toNat

theorem hashOfBytes_hashToBytes (h : Hash) : hashOfBytes (hashToBytes h) = h := by
  have hnumber : numberOf (bytesOf 32 h.toNat) = h.toNat := by
    rw [numberOf_bytesOf]
    exact Nat.mod_eq_of_lt h.isLt
  show BitVec.ofNat 256 (numberOf (bytesOf 32 h.toNat)) = h
  rw [hnumber, BitVec.ofNat_toNat, BitVec.setWidth_eq]

theorem length_tips (tips : Tips) : (Serializer.toBytes tips).length = 32 * tips.length := by
  show (tips.flatMap hashToBytes).length = _
  induction tips with
  | nil => rfl
  | cons tip tips ih =>
    rw [List.flatMap_cons, List.length_append, length_hashToBytes, ih, List.length_cons]
    omega

private theorem chunks_tips (tips : Tips) :
    (List.range tips.length).map (fun i => hashOfBytes (((tips.flatMap hashToBytes).drop (32 * i)).take 32)) = tips := by
  induction tips with
  | nil => rfl
  | cons tip tips ih =>
    rw [List.length_cons, List.range_succ_eq_map, List.map_cons, List.map_map, List.flatMap_cons]
    refine congrArg₂ List.cons ?_ ?_
    · rw [Nat.mul_zero, List.drop_zero, List.take_left' (length_hashToBytes tip), hashOfBytes_hashToBytes]
    · refine Eq.trans (List.map_congr_left fun i _ => ?_) ih
      have hdrop : 32 * (i + 1) = (hashToBytes tip).length + 32 * i := by
        rw [length_hashToBytes]
        omega
      show hashOfBytes ((List.drop (32 * (i + 1)) _).take 32) = _
      rw [hdrop, List.drop_length_add_append]

theorem tips_fromBytes_toBytes {tips : Tips} (h : tips.Nodup) :
    (Serializer.fromBytes (Serializer.toBytes tips) : Except ReaderError Tips) = .ok tips := by
  have hlength := length_tips tips
  have hcount : (Serializer.toBytes tips).length / 32 = tips.length := by omega
  have hchunks : ((List.range tips.length).map
      (fun i => hashOfBytes (((Serializer.toBytes tips).drop (32 * i)).take 32))).dedup = tips :=
    (congrArg List.dedup (chunks_tips tips)).trans h.dedup
  show (if (Serializer.toBytes tips).length % 32 ≠ 0 then _ else _) = _
  rw [if_neg (by omega)]
  dsimp only
  rw [hcount, hchunks, if_neg fun hne => hne rfl]

end Xelis.Storage
