import Xelis.Lib.History
import Xelis.Storage.Storage

namespace Xelis.Storage

open Lib (FiniteMap History)

theorem keyBytes_injective : Function.Injective keyBytes :=
  fun _ _ h => Lib.bitVecBytes_injective (w := 32) h

@[simp] theorem length_keyBytes (h : BitVec 256) : (keyBytes h).length = 32 := Lib.length_digitsBE 32 h.toNat

def keyHash (key : Key) : BitVec 256 := BitVec.ofNat 256 (Lib.ofDigitsBE (key.take 32))

def hashFromKey (key : Key) : Except BlockchainError Hash :=
  if key.length < 32 then .error (.errorOnReader .invalidSize) else .ok (keyHash key)

@[simp] theorem keyHash_keyBytes (h : BitVec 256) : keyHash (keyBytes h) = h := by
  have htake : (keyBytes h).take 32 = keyBytes h := List.take_of_length_le (by rw [length_keyBytes])
  rw [keyHash, htake]
  exact Lib.ofNat_ofDigitsBE (w := 32) h

@[simp] theorem hashFromKey_keyBytes (h : BitVec 256) : hashFromKey (keyBytes h) = .ok h := by
  rw [hashFromKey, if_neg (by rw [length_keyBytes]; omega), keyHash_keyBytes]

theorem keyBytes_append_inj {a b a' b' : BitVec 256} (h : keyBytes a ++ keyBytes b = keyBytes a' ++ keyBytes b') :
    a = a' ∧ b = b' := by
  obtain ⟨hleft, hright⟩ := List.append_inj h (by simp)
  exact ⟨keyBytes_injective hleft, keyBytes_injective hright⟩

variable {key key' : Key} {t t' maximum topo u : TopoHeight}

theorem getVersionedKey_inj (h : getVersionedKey key t = getVersionedKey key' t') : key = key' ∧ t = t' := by
  obtain ⟨hleft, hright⟩ := List.append_inj h (by simp)
  exact ⟨hright, Lib.toBeBytes_injective hleft⟩

theorem searchPrevious_mono {load : TopoHeight → Except BlockchainError (Option TopoHeight)}
    {fuel fuel' : Nat} (hle : fuel ≤ fuel') {topo r : Option TopoHeight}
    (h : searchPrevious load maximum fuel topo = .ok r) : searchPrevious load maximum fuel' topo = .ok r := by
  induction fuel generalizing fuel' topo with
  | zero => cases h
  | succ fuel ih =>
    obtain ⟨fuel', rfl⟩ : ∃ k, fuel' = k + 1 := ⟨fuel' - 1, by omega⟩
    cases topo with
    | none => exact h
    | some topo =>
      unfold searchPrevious at h ⊢
      by_cases hmax : topo ≤ maximum
      · rw [if_pos hmax] at h ⊢
        exact h
      · rw [if_neg hmax] at h ⊢
        cases hload : load topo with
        | error e => simp [hload] at h
        | ok previous =>
          simp only [hload] at h ⊢
          exact ih (by omega) h

namespace VersionedTrees

variable {V : Type} (tr : VersionedTrees V)

section Writes

variable (key : Key) (t : TopoHeight) (v : V)

theorem version_setLast_self : (tr.setLast key t v).version key t = some v :=
  FiniteMap.getElem?_insert_self' tr.versions (getVersionedKey key t) v

theorem version_setLast_of_ne (h : ¬(key = key' ∧ t = t')) :
    (tr.setLast key t v).version key' t' = tr.version key' t' :=
  FiniteMap.getElem?_insert_of_ne _ _ fun he => h (getVersionedKey_inj he)

theorem pointers_setLast_self : (tr.setLast key t v).pointers[key]? = some t :=
  FiniteMap.getElem?_insert_self' tr.pointers key t

theorem pointers_setLast_of_ne (h : key ≠ key') : (tr.setLast key t v).pointers[key']? = tr.pointers[key']? :=
  FiniteMap.getElem?_insert_of_ne _ _ h

def history : History V := ⟨tr.pointers[key]?, tr.version key⟩

theorem history_setLast_self : (tr.setLast key t v).history key = (tr.history key).push t v := by
  refine History.ext (pointers_setLast_self tr key t v) (funext fun u => ?_)
  by_cases hu : u = t
  · subst hu
    rw [History.version_push_self]
    exact version_setLast_self tr key u v
  · rw [History.version_push_of_ne _ _ _ hu]
    exact version_setLast_of_ne tr key t v fun hc => hu hc.2.symm

theorem history_setLast_of_ne (h : key ≠ key') : (tr.setLast key t v).history key' = tr.history key' :=
  History.ext (pointers_setLast_of_ne tr key t v h) (funext fun _ => version_setLast_of_ne tr key t v fun hc => h hc.1)

theorem fuel_setLast_le (topo : TopoHeight) : tr.fuel topo ≤ (tr.setLast key t v).fuel topo := by
  have hsize : tr.versions.size ≤ (tr.versions.insert (getVersionedKey key t) v).size :=
    Std.ExtTreeMap.size_le_size_insert
  exact Nat.add_le_add_right (Nat.add_le_add_left hsize topo) 2

end Writes

variable [HasPrevious V]

/-- The version that a search below `maximum` reaches from `start`. -/
def lookup (linkContext versionContext : TopoHeight → DiskContext) (key : Key) (maximum : TopoHeight)
    (start : Option TopoHeight) : Except BlockchainError (Option (TopoHeight × V)) :=
  match searchPrevious (fun t => tr.loadPrevious (linkContext t) key t) maximum (tr.fuel (start.getD 0)) start with
  | .error e => .error e
  | .ok none => .ok none
  | .ok (some topo) => (tr.loadVersion (versionContext topo) key topo).map (fun v => some (topo, v))

variable {tr} {linkContext versionContext : TopoHeight → DiskContext} {key : Key} {maximum : TopoHeight}
  {start : Option TopoHeight}

/-- A search that starts low enough ends at once. -/
theorem lookup_at (hle : topo ≤ maximum) :
    tr.lookup linkContext versionContext key maximum (some topo) =
      (tr.loadVersion (versionContext topo) key topo).map (fun v => some (topo, v)) := by
  have hfuel : tr.fuel ((some topo).getD 0) = (topo + tr.versions.size + 1) + 1 := rfl
  simp only [lookup, hfuel, searchPrevious, if_pos hle]

theorem lookup_of_le (hle : topo ≤ maximum) {v : V} (hv : tr.version key topo = some v) :
    tr.lookup linkContext versionContext key maximum (some topo) = .ok (some (topo, v)) := by
  simp only [lookup_at hle, loadVersion, hv, Except.map]

variable {r : Option (TopoHeight × V)}

theorem lookup_congr {tr' : VersionedTrees V} (hversions : ∀ t, tr'.version key t = tr.version key t)
    (hfuel : ∀ t, tr.fuel t ≤ tr'.fuel t) (h : tr.lookup linkContext versionContext key maximum start = .ok r) :
    tr'.lookup linkContext versionContext key maximum start = .ok r := by
  unfold lookup at h ⊢
  have hload : (fun t => tr'.loadPrevious (linkContext t) key t) = fun t => tr.loadPrevious (linkContext t) key t := by
    funext t
    simp only [loadPrevious, hversions]
  rw [hload]
  cases hsearch : searchPrevious (fun t => tr.loadPrevious (linkContext t) key t) maximum
      (tr.fuel (start.getD 0)) start with
  | error e => simp [hsearch] at h
  | ok found =>
    rw [searchPrevious_mono (hfuel _) hsearch]
    cases found with
    | none => simpa [hsearch] using h
    | some topo => simpa only [hsearch, loadVersion, hversions] using h

theorem lookup_setLast_of_ne (hne : key' ≠ key) (t : TopoHeight) (v : V)
    (h : tr.lookup linkContext versionContext key maximum start = .ok r) :
    (tr.setLast key' t v).lookup linkContext versionContext key maximum start = .ok r :=
  lookup_congr (fun _ => version_setLast_of_ne tr key' t v fun hk => hne hk.1) (fun _ => fuel_setLast_le tr key' t v _) h

/-- Nothing is stored at a topoheight or above it. -/
structure Below (tr : VersionedTrees V) (t : TopoHeight) : Prop where
  pointers : ∀ (key : Key) pointer, tr.pointers[key]? = some pointer → pointer < t
  versions : ∀ (key : Key) u, t ≤ u → tr.version key u = none

section

omit [HasPrevious V]

theorem Below.mono (h : tr.Below t) (hle : t ≤ t') : tr.Below t' where
  pointers key pointer hp := Nat.lt_of_lt_of_le (h.pointers key pointer hp) hle
  versions key u hu := h.versions key u (Nat.le_trans hle hu)

theorem Below.empty (t : TopoHeight) : (⟨∅, ∅⟩ : VersionedTrees V).Below t where
  pointers key pointer hp := by
    rw [Std.ExtTreeMap.getElem?_empty] at hp
    cases hp
  versions key u _ := Std.ExtTreeMap.getElem?_empty

theorem Below.setLast (h : tr.Below t) (key : Key) (hu : u < t) (v : V) :
    (tr.setLast key u v).Below t where
  pointers key' pointer hp := by
    by_cases hkey : key = key'
    · subst hkey
      rw [pointers_setLast_self, Option.some.injEq] at hp
      rw [← hp]
      exact hu
    · rw [pointers_setLast_of_ne _ _ _ _ hkey] at hp
      exact h.pointers key' pointer hp
  versions key' w hw := by
    have hne : u ≠ w := Nat.ne_of_lt (Nat.lt_of_lt_of_le hu hw)
    rw [version_setLast_of_ne _ _ _ _ fun hc => hne hc.2]
    exact h.versions key' w hw

end

end VersionedTrees

section Stored

variable {P : Type} (s : Storage P)

theorem getContractBalanceAtMaximumTopoheight_eq (contract asset : Hash) (topoheight : TopoHeight) :
    s.getContractBalanceAtMaximumTopoheight contract asset topoheight =
      s.contractsBalances.lookup (fun _ => .contractBalance) (fun _ => .contractBalance)
        (getContractBalanceKey contract asset) topoheight
        s.contractsBalances.pointers[getContractBalanceKey contract asset]? := by
  unfold getContractBalanceAtMaximumTopoheight VersionedTrees.lookup
  dsimp only [bind, Except.bind]
  cases searchPrevious
      (s.contractsBalances.loadPrevious .contractBalance (getContractBalanceKey contract asset)) topoheight
      (s.contractsBalances.fuel ((s.contractsBalances.pointers[getContractBalanceKey contract asset]?).getD 0))
      s.contractsBalances.pointers[getContractBalanceKey contract asset]? with
  | error e => rfl
  | ok found =>
    cases found with
    | none => rfl
    | some topo =>
      dsimp only
      cases s.contractsBalances.loadVersion .contractBalance (getContractBalanceKey contract asset) topo with
      | error e => rfl
      | ok v => rfl

theorem getNonceAtMaximumTopoheight_eq (key : PublicKey) (topoheight : TopoHeight) :
    s.getNonceAtMaximumTopoheight key topoheight =
      match s.nonces.pointers[keyBytes key]? with
      | none => .ok none
      | some pointer => s.nonces.lookup (fun _ => .lastNonce) .nonceAtTopoHeight (keyBytes key) topoheight
          (some (if (s.nonces.version (keyBytes key) topoheight).isSome then topoheight else pointer)) := by
  unfold getNonceAtMaximumTopoheight hasNonce getLastTopoheightForNonce
  cases hpointer : s.nonces.pointers[keyBytes key]? with
  | none =>
    have hmissing : s.nonces.pointers.contains (keyBytes key) = false := by
      rw [Std.ExtTreeMap.contains_eq_isSome_getElem?, hpointer]
      rfl
    simp only [hmissing]
    rfl
  | some pointer =>
    have hpresent : s.nonces.pointers.contains (keyBytes key) = true := by
      rw [Std.ExtTreeMap.contains_eq_isSome_getElem?, hpointer]
      rfl
    simp only [hpresent]
    have hload : ∀ found, (do return some (found, ← s.getNonceAtExactTopoheight key found)) =
        (s.nonces.loadVersion (.nonceAtTopoHeight found) (keyBytes key) found).map (fun v => some (found, v)) := by
      intro found
      dsimp only [getNonceAtExactTopoheight]
      cases s.nonces.loadVersion (.nonceAtTopoHeight found) (keyBytes key) found with
      | error e => rfl
      | ok v => rfl
    have hfinish : ∀ (topo : TopoHeight) (rest : Option TopoHeight → Except BlockchainError (Option (TopoHeight × VersionedNonce))),
        (∀ found, rest (some found) = (s.nonces.loadVersion (.nonceAtTopoHeight found) (keyBytes key) found).map (fun v => some (found, v))) →
        rest none = .ok none →
        (searchPrevious (s.nonces.loadPrevious .lastNonce (keyBytes key)) topoheight (s.nonces.fuel topo) (some topo) >>= rest) =
          s.nonces.lookup (fun _ => .lastNonce) .nonceAtTopoHeight (keyBytes key) topoheight (some topo) := by
      intro topo rest hsome hnone
      unfold VersionedTrees.lookup
      dsimp only [bind, Except.bind, Option.getD_some]
      cases searchPrevious (s.nonces.loadPrevious .lastNonce (keyBytes key)) topoheight (s.nonces.fuel topo) (some topo) with
      | error e => rfl
      | ok found =>
        cases found with
        | none => exact hnone
        | some found => exact hsome found
    cases hexact : (s.nonces.version (keyBytes key) topoheight).isSome with
    | true => exact hfinish topoheight _ hload rfl
    | false => exact hfinish pointer _ hload rfl

end Stored

end Xelis.Storage
