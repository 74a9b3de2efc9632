import Xelis.Lib.Sequence
import Xelis.Wallet.Storage
import Xelis.Wire.Transaction

/-! The history of a wallet: the index numbers the stored transactions, unless one of them is deleted alone. -/

namespace Xelis.Wallet

open Lib (FiniteMap Exec Numbers numbered slice inRange)
open Lib.Codec (KeyOrder)
open Wire (DataValue)

/-- An entry that a listing without restrictions shows: one made of transfers has at least one. -/
def EntryData.Shown : EntryData → Prop
  | .incoming _ transfers => transfers ≠ []
  | .outgoing transfers _ _ => transfers ≠ []
  | _ => True

instance : DecidablePred EntryData.Shown
  | .incoming _ transfers => inferInstanceAs (Decidable (transfers ≠ []))
  | .outgoing transfers _ _ => inferInstanceAs (Decidable (transfers ≠ []))
  | .coinbase _ | .burn .. | .multiSig .. | .invokeContract .. | .deployContract .. => .isTrue trivial

/-- Only the topoheights are restricted, and how much is listed. -/
def Filter.between (min max : Option TopoHeight) (limit skip : Option Nat) : Filter :=
  { Filter.all with minTopoheight := min, maxTopoheight := max, limit, skip }

variable {entry transaction : TransactionEntry}

theorem Filter.select_between (min max : Option TopoHeight) (limit skip : Option Nat) (entry : TransactionEntry) :
    ∃ transfers, ((Filter.between min max limit skip).select entry.entry).bind (fun p =>
        ((Filter.between min max limit skip).queried p.2).map (Prod.mk p.1)) = some (entry.entry, transfers) ∧
      Filter.listed entry transfers = if entry.entry.Shown then [entry] else [] := by
  obtain ⟨hash, topoheight, timestamp, data⟩ := entry
  cases data with
  | incoming sender transfers =>
    refine ⟨some (transfers.map TransferIn.extraData), ?_, ?_⟩
    · simp [Filter.select, Filter.queried, Filter.between, Filter.all, Filter.ofAsset, Filter.ofAddress]
    · cases transfers with
      | nil => exact (if_neg (fun h : ([] : List TransferIn) ≠ [] => h rfl)).symm
      | cons transfer rest => exact (if_pos (List.cons_ne_nil transfer rest)).symm
  | outgoing transfers fee nonce =>
    refine ⟨some (transfers.map TransferOut.extraData), ?_, ?_⟩
    · simp [Filter.select, Filter.queried, Filter.between, Filter.all, Filter.ofAsset, Filter.ofAddress]
    · cases transfers with
      | nil => exact (if_neg (fun h : ([] : List TransferOut) ≠ [] => h rfl)).symm
      | cons transfer rest => exact (if_pos (List.cons_ne_nil transfer rest)).symm
  | coinbase | burn | multiSig | invokeContract | deployContract =>
    refine ⟨none, ?_, (if_pos trivial).symm⟩
    simp [Filter.select, Filter.queried, Filter.between, Filter.all, Filter.ofAsset]

variable {key hash : Hash} {id lo n : Nat} {es : List (Nat × Hash)}

namespace EncryptedStorage

variable (cipher : Cipher) (order : KeyOrder DataValue)

/-- The index numbers this history, oldest first, and under each key its entry is read back. -/
structure Orders (s : EncryptedStorage) (history : List (Hash × TransactionEntry)) : Prop where
  indexes : Numbers s.transactionsIndexes (history.map Prod.fst)
  nodup : (history.map Prod.fst).Nodup
  stored : ∀ key ∈ s.transactions, key ∈ history.map Prod.fst
  opened : ∀ e ∈ history, s.loadFromDiskWithKey cipher order e.1 = .ok e.2

/-- The storage holds this history, oldest first: under each key the entry that is read back. -/
structure Keeps (s : EncryptedStorage) (history : List (Hash × TransactionEntry)) : Prop where
  indexes : Numbers s.transactionsIndexes (history.map Prod.fst)
  nodup : (history.map Prod.fst).Nodup
  stored : ∀ key ∈ s.transactions, key ∈ history.map Prod.fst
  opened : ∀ e ∈ history, s.loadFromDiskWithKey cipher order e.1 = .ok e.2
  shown : ∀ e ∈ history, e.2.entry.Shown

variable {cipher order} {s s' : EncryptedStorage} {history : List (Hash × TransactionEntry)}

theorem load_congr (h : s.transactions[key]? = s'.transactions[key]?) :
    s.loadFromDiskWithKey cipher order key = s'.loadFromDiskWithKey cipher order key := by
  unfold loadFromDiskWithKey internalLoad
  rw [h]

theorem mem_of_load (h : s.loadFromDiskWithKey cipher order key = .ok entry) : key ∈ s.transactions := by
  by_contra hmem
  unfold loadFromDiskWithKey internalLoad at h
  rw [Std.ExtTreeMap.getElem?_eq_none hmem] at h
  cases h

theorem load_saved {data : IVec} (hvalid : entry.Valid order)
    (hdata : cipher.decryptValue data = .ok entry.write) (h : s.transactions[key]? = some data) :
    s.loadFromDiskWithKey cipher order key = .ok entry := by
  have hread : TransactionEntry.read order entry.write = .ok (entry, []) := by
    have hread := TransactionEntry.read_reads hvalid []
    rwa [List.append_nil] at hread
  have hbytes : fromBytes order entry.write = .ok entry := by rw [fromBytes, hread]
  simp only [loadFromDiskWithKey, internalLoad, h, hdata, hbytes, bind, Except.bind, pure, Except.pure]

theorem Keeps.orders (h : s.Keeps cipher order history) : s.Orders cipher order history :=
  ⟨h.indexes, h.nodup, h.stored, h.opened⟩

namespace Orders

theorem getLastTransactionId (h : s.Orders cipher order history) :
    s.getLastTransactionId = if history = [] then none else some (history.length - 1) := by
  rw [EncryptedStorage.getLastTransactionId, h.indexes.getLast?]
  simp

theorem mem_transactions (h : s.Orders cipher order history) : key ∈ s.transactions ↔ key ∈ history.map Prod.fst := by
  refine ⟨h.stored key, fun hmem => ?_⟩
  obtain ⟨e, he, rfl⟩ := List.mem_map.mp hmem
  exact mem_of_load (h.opened e he)

theorem load_index (h : s.Orders cipher order history) (hid : s.transactionsIndexes[id]? = some key) :
    ∃ entry, s.loadFromDiskWithKey cipher order key = .ok entry := by
  rw [h.indexes id] at hid
  obtain ⟨e, he, rfl⟩ := List.mem_map.mp (List.mem_of_getElem? hid)
  exact ⟨e.2, h.opened e he⟩

theorem searchLoop (h : s.Orders cipher order history) (topoheight : TopoHeight) (left right : Nat) (result : Option Nat) :
    ∃ found, s.searchLoop cipher order topoheight left right result = .ok found := by
  fun_induction EncryptedStorage.searchLoop with
  | case1 left right result hlt mid hnone => exact ⟨none, rfl⟩
  | case2 left right result hlt mid key hkey e hload =>
    obtain ⟨entry, hentry⟩ := h.load_index hkey
    rw [hentry] at hload
    cases hload
  | case3 left right result hlt mid key hkey entry hload hord ih => exact ih
  | case4 left right result hlt mid key hkey entry hload hord ih => exact ih
  | case5 left right result hlt mid key hkey entry hload hord ih => exact ih
  | case6 left right result hlt => exact ⟨result, rfl⟩

theorem search (h : s.Orders cipher order history) (topoheight : TopoHeight) (left right : Option Nat) :
    ∃ found, s.searchTransactionIdForTopoheight cipher order topoheight left right = .ok found := by
  unfold searchTransactionIdForTopoheight
  split
  · exact h.searchLoop topoheight _ _ none
  · exact ⟨none, rfl⟩

theorem map_snd_range (h : s.Orders cipher order history) (min max : Option Nat) :
    (s.range min max).map Prod.snd = slice min max (history.map Prod.fst) := by
  rw [← Lib.filter_numbered min max, ← h.indexes.toList]
  rfl

theorem delete (h : s.Orders cipher order history)
    (hes : ∀ i key, (i, key) ∈ es ↔ (history.map Prod.fst)[i]? = some key ∧ lo ≤ i) :
    (es.foldl deleteIndexed s).Orders cipher order (history.take lo) := by
  have hsplit (es : List (Nat × Hash)) (s : EncryptedStorage) : es.foldl deleteIndexed s =
      { s with transactions := es.foldl (fun m e => m.erase e.2) s.transactions,
               transactionsIndexes := es.foldl (fun m e => m.erase e.1) s.transactionsIndexes } := by
    induction es generalizing s with
    | nil => rfl
    | cons e es ih => rw [List.foldl_cons, ih, deleteIndexed, List.foldl_cons, List.foldl_cons]
  have htransactions (key : Hash) : (es.foldl deleteIndexed s).transactions[key]? =
      if key ∈ es.map Prod.snd then none else s.transactions[key]? := by
    rw [hsplit]
    exact FiniteMap.getElem?_foldl_erase Prod.snd es s.transactions key
  constructor
  · rw [hsplit, List.map_take]
    refine h.indexes.erase fun i => ?_
    constructor
    · rintro ⟨key, hkey⟩
      obtain ⟨hi, hlo⟩ := (hes i key).mp hkey
      exact ⟨hlo, (List.getElem?_eq_some_iff.mp hi).1⟩
    · rintro ⟨hlo, hi⟩
      exact ⟨_, (hes i _).mpr ⟨List.getElem?_eq_getElem hi, hlo⟩⟩
  · rw [List.map_take]
    exact (List.take_sublist _ _).nodup h.nodup
  · intro key hkey
    rw [Std.ExtTreeMap.mem_iff_isSome_getElem?, htransactions] at hkey
    split at hkey
    · cases hkey
    · rename_i hleft
      have hmem := h.stored key (Std.ExtTreeMap.mem_iff_isSome_getElem?.mpr hkey)
      obtain ⟨i, hi⟩ := List.mem_iff_getElem?.mp hmem
      rw [List.map_take]
      refine List.mem_iff_getElem?.mpr ⟨i, ?_⟩
      rw [List.getElem?_take, if_pos, hi]
      by_contra hlo
      exact hleft (List.mem_map.mpr ⟨(i, key), (hes i key).mpr ⟨hi, by omega⟩, rfl⟩)
  · intro e he
    have hkept : e.1 ∉ es.map Prod.snd := by
      intro hmem
      obtain ⟨⟨i, key⟩, hi, hkey⟩ := List.mem_map.mp hmem
      obtain ⟨hget, hlo⟩ := (hes i key).mp hi
      replace hkey : key = e.1 := hkey
      rw [hkey] at hget
      obtain ⟨j, hj⟩ := List.mem_iff_getElem?.mp he
      rw [List.getElem?_take] at hj
      split at hj
      · rename_i hlt
        have hget' : (history.map Prod.fst)[j]? = some e.1 := by rw [List.getElem?_map, hj, Option.map_some]
        have hij := (List.getElem?_inj (List.getElem?_eq_some_iff.mp hget').1 h.nodup).mp (hget'.trans hget.symm)
        omega
      · cases hj
    exact (load_congr (by rw [htransactions, if_neg hkept])).trans (h.opened e (List.mem_of_mem_take he))

theorem mem_range (h : s.Orders cipher order history) (min : Option Nat) (i : Nat) (key : Hash) :
    (i, key) ∈ s.range min none ↔ (history.map Prod.fst)[i]? = some key ∧ min.getD 0 ≤ i := by
  show (i, key) ∈ s.transactionsIndexes.toList.filter (fun e => inRange min none e.1) ↔ _
  rw [h.indexes.toList, List.mem_filter, Lib.mem_numbered, Lib.inRange_iff]
  simp

end Orders

namespace Keeps

theorem getNextTransactionId (h : s.Keeps cipher order history) (hnext : ∀ id ∈ s.getLastTransactionId, id + 1 < U64_RANGE) :
    s.getNextTransactionId = .ok history.length := by
  have hlast := h.orders.getLastTransactionId
  unfold EncryptedStorage.getNextTransactionId
  by_cases hnil : history = []
  · rw [hlast, if_pos hnil, hnil]
    rfl
  · have hpos := List.length_pos_of_ne_nil hnil
    rw [if_neg hnil] at hlast
    have hlt := hnext _ hlast
    rw [hlast]
    show increment (history.length - 1) = _
    rw [increment, if_pos hlt, Nat.sub_add_cancel hpos]

theorem congr (h : s.Keeps cipher order history) (ht : s'.transactions = s.transactions)
    (hi : s'.transactionsIndexes = s.transactionsIndexes) : s'.Keeps cipher order history where
  indexes := by
    rw [hi]
    exact h.indexes
  nodup := h.nodup
  stored := by
    rw [ht]
    exact h.stored
  opened := by
    intro e he
    exact (load_congr (by rw [ht])).trans (h.opened e he)
  shown := h.shown

theorem insert (h : s.Keeps cipher order history) {data : IVec} (hnew : key ∉ s.transactions)
    (hvalid : entry.Valid order) (hshown : entry.entry.Shown) (hdata : cipher.decryptValue data = .ok entry.write)
    (ht : s'.transactions = s.transactions.insert key data)
    (hi : s'.transactionsIndexes = s.transactionsIndexes.insert history.length key) :
    s'.Keeps cipher order (history ++ [(key, entry)]) := by
  have hkeys : (history ++ [(key, entry)]).map Prod.fst = history.map Prod.fst ++ [key] := by simp
  have hfresh : key ∉ history.map Prod.fst := fun hmem => hnew (h.orders.mem_transactions.mpr hmem)
  constructor
  · rw [hkeys, hi, ← List.length_map Prod.fst]
    exact h.indexes.insert key
  · rw [hkeys]
    exact h.nodup.append (List.nodup_singleton key) (by simpa using hfresh)
  · intro k hk
    rw [ht, Std.ExtTreeMap.mem_insert] at hk
    rw [hkeys]
    rcases hk with hk | hk
    · rw [← Std.LawfulEqCmp.eq_of_compare hk]
      exact List.mem_append_right _ (List.mem_singleton_self _)
    · exact List.mem_append_left _ (h.stored k hk)
  · intro e he
    rcases List.mem_append.mp he with hold | he
    · have hne : key ≠ e.1 := by
        rintro rfl
        exact hfresh (List.mem_map_of_mem hold)
      exact (load_congr (by rw [ht, FiniteMap.getElem?_insert_of_ne _ _ hne])).trans (h.opened e hold)
    · cases List.mem_singleton.mp he
      exact load_saved hvalid hdata (by rw [ht, FiniteMap.getElem?_insert_self'])
  · intro e he
    rcases List.mem_append.mp he with he | he
    · exact h.shown e he
    · cases List.mem_singleton.mp he
      exact hshown

theorem delete (h : s.Keeps cipher order history)
    (hes : ∀ i key, (i, key) ∈ es ↔ (history.map Prod.fst)[i]? = some key ∧ lo ≤ i) :
    (es.foldl deleteIndexed s).Keeps cipher order (history.take lo) := by
  have hcut := h.orders.delete hes
  exact ⟨hcut.indexes, hcut.nodup, hcut.stored, hcut.opened, fun e he => h.shown e (List.mem_of_mem_take he)⟩

end Keeps

section Reversal

theorem getElem?_reverseLoop (low high : Nat) (indexes : FiniteMap Nat Hash)
    (hfull : ∀ i, low ≤ i → i ≤ high → (indexes[i]?).isSome) (i : Nat) :
    (reverseLoop low high indexes)[i]? = if low ≤ i ∧ i ≤ high then indexes[low + high - i]? else indexes[i]? := by
  fun_induction reverseLoop with
  | case1 low high indexes hlt lowHash highHash hhigh hlow ih =>
    have hends (j : Nat) : ((indexes.insert low highHash).insert high lowHash)[j]? =
        if j = high then some lowHash else if j = low then some highHash else indexes[j]? := by
      by_cases hj : j = high
      · subst hj
        rw [if_pos rfl, FiniteMap.getElem?_insert_self']
      · rw [if_neg hj, FiniteMap.getElem?_insert_of_ne _ _ (Ne.symm hj)]
        by_cases hj' : j = low
        · subst hj'
          rw [if_pos rfl, FiniteMap.getElem?_insert_self']
        · rw [if_neg hj', FiniteMap.getElem?_insert_of_ne _ _ (Ne.symm hj')]
    have hinner : ∀ j, low + 1 ≤ j → j ≤ high - 1 →
        (((indexes.insert low highHash).insert high lowHash)[j]?).isSome := by
      intro j hj hj'
      rw [hends, if_neg (by omega), if_neg (by omega)]
      exact hfull j (by omega) (by omega)
    rw [ih hinner, hends, hends]
    by_cases hin : low ≤ i ∧ i ≤ high
    · rw [if_pos hin]
      by_cases hi : i = high
      · subst hi
        rw [if_neg (by omega), if_pos rfl, Nat.add_sub_cancel, hlow]
      · by_cases hi' : i = low
        · subst hi'
          rw [if_neg (by omega), if_neg hi, if_pos rfl, Nat.add_sub_cancel_left, hhigh]
        · have hmirror : low + 1 + (high - 1) - i = low + high - i := by omega
          rw [if_pos (by omega), hmirror, if_neg (by omega), if_neg (by omega)]
    · rw [if_neg hin, if_neg (by omega), if_neg (by omega), if_neg (by omega)]
  | case2 low high indexes hlt hmissing =>
    obtain ⟨lowHash, hlow⟩ := Option.isSome_iff_exists.mp (hfull low (Nat.le_refl _) (Nat.le_of_lt hlt))
    obtain ⟨highHash, hhigh⟩ := Option.isSome_iff_exists.mp (hfull high (Nat.le_of_lt hlt) (Nat.le_refl _))
    exact absurd hhigh (hmissing lowHash highHash hlow)
  | case3 low high indexes hge =>
    split
    · rename_i hin
      have hi : low + high - i = i := by omega
      rw [hi]
    · rfl

/-- A list with what stands from `low` on turned around. -/
def reversedFrom {α : Type} (low : Nat) (l : List α) : List α := l.take low ++ (l.drop low).reverse

variable {α β : Type}

theorem getElem?_reversedFrom (low : Nat) (l : List α) (i : Nat) :
    (reversedFrom low l)[i]? = if low ≤ i ∧ i < l.length then l[low + (l.length - 1) - i]? else l[i]? := by
  unfold reversedFrom
  by_cases hlow : i < (l.take low).length
  · rw [List.getElem?_append_left hlow]
    rw [List.length_take] at hlow
    rw [if_neg (by omega), List.getElem?_take, if_pos (by omega)]
  · rw [List.getElem?_append_right (Nat.le_of_not_lt hlow)]
    rw [List.length_take] at hlow ⊢
    by_cases hi : i < l.length
    · have hmin : min low l.length = low := by omega
      rw [if_pos (by omega), hmin, List.getElem?_reverse (by rw [List.length_drop]; omega), List.getElem?_drop, List.length_drop]
      congr 1
      omega
    · rw [if_neg (by omega), List.getElem?_eq_none (by rw [List.length_reverse, List.length_drop]; omega),
        List.getElem?_eq_none (by omega)]

theorem reversedFrom_perm (low : Nat) (l : List α) : (reversedFrom low l).Perm l := by
  have hperm := ((l.drop low).reverse_perm).append_left (l.take low)
  rwa [List.take_append_drop] at hperm

theorem reversedFrom_reversedFrom (low : Nat) (l : List α) : reversedFrom low (reversedFrom low l) = l := by
  apply List.ext_getElem?
  intro i
  have hlen : (reversedFrom low l).length = l.length := (reversedFrom_perm low l).length_eq
  rw [getElem?_reversedFrom, getElem?_reversedFrom, getElem?_reversedFrom, hlen]
  by_cases hi : low ≤ i ∧ i < l.length
  · have hback : low + (l.length - 1) - (low + (l.length - 1) - i) = i := by omega
    rw [if_pos hi, if_pos (by omega), hback]
  · rw [if_neg hi, if_neg hi]

theorem map_reversedFrom (f : α → β) (low : Nat) (l : List α) :
    (reversedFrom low l).map f = reversedFrom low (l.map f) := by
  simp [reversedFrom]

end Reversal

theorem Keeps.reverse (h : s.Keeps cipher order history) (hne : history ≠ []) (low : Nat) :
    ({ s with transactionsIndexes := reverseLoop low (history.length - 1) s.transactionsIndexes } : EncryptedStorage).Keeps
      cipher order (reversedFrom low history) := by
  have hpos := List.length_pos_of_ne_nil hne
  have hperm := reversedFrom_perm low history
  have hkeys := hperm.map Prod.fst
  constructor
  · intro i
    show (reverseLoop low (history.length - 1) s.transactionsIndexes)[i]? = _
    have hfull : ∀ i, low ≤ i → i ≤ history.length - 1 → (s.transactionsIndexes[i]?).isSome := by
      intro i _ hi
      rw [h.indexes i, List.getElem?_eq_getElem (by rw [List.length_map]; omega)]
      rfl
    rw [getElem?_reverseLoop low _ _ hfull, map_reversedFrom, getElem?_reversedFrom, h.indexes, h.indexes, List.length_map]
    by_cases hi : low ≤ i ∧ i < history.length
    · rw [if_pos hi, if_pos (by omega)]
    · rw [if_neg hi, if_neg (by omega)]
  · exact hkeys.nodup_iff.mpr h.nodup
  · exact fun key hkey => hkeys.mem_iff.mpr (h.stored key hkey)
  · exact fun e he => h.opened e (hperm.mem_iff.mp he)
  · exact fun e he => h.shown e (hperm.mem_iff.mp he)

section Listing

variable {entries : List TransactionEntry} {keys : List Hash}

theorem collect_ok (filter : Filter) (hload : List.Forall₂ (fun key entry => s.loadFromDiskWithKey cipher order key = .ok entry) keys entries)
    (listed : List TransactionEntry) :
    ∃ more, s.collect cipher order filter keys listed = .ok (listed ++ more) ∧
      (more.map TransactionEntry.hash).Sublist (entries.map TransactionEntry.hash) := by
  induction hload generalizing listed with
  | nil => exact ⟨[], by rw [collect, List.append_nil], List.Sublist.refl _⟩
  | @cons key entry keys entries hkey _ ih =>
    unfold collect
    simp only [hkey, bind, Except.bind]
    split
    · obtain ⟨more, hmore, hsub⟩ := ih listed
      exact ⟨more, hmore, hsub.cons _⟩
    · rename_i data transfers _
      have hone : ((Filter.listed { entry with entry := data } transfers).map TransactionEntry.hash).Sublist [entry.hash] := by
        rcases transfers with _ | ⟨_ | ⟨extra, rest⟩⟩
        · exact List.Sublist.refl _
        · exact List.nil_sublist _
        · exact List.Sublist.refl _
      by_cases hlimit :
          filter.limit.any (· ≤ (listed ++ Filter.listed { entry with entry := data } transfers).length) = true
      · rw [if_pos hlimit]
        exact ⟨_, rfl, hone.trans ((List.nil_sublist _).cons_cons _)⟩
      · obtain ⟨more, hmore, hsub⟩ := ih (listed ++ Filter.listed { entry with entry := data } transfers)
        rw [if_neg hlimit, hmore, List.append_assoc]
        refine ⟨_, rfl, ?_⟩
        rw [List.map_append]
        exact hone.append hsub

/-- The ones to show are listed, until there are as many as the limit asks for. -/
theorem collect_between (min max : Option TopoHeight) (limit skip : Option Nat)
    (hload : List.Forall₂ (fun key entry => s.loadFromDiskWithKey cipher order key = .ok entry) keys entries)
    (listed : List TransactionEntry) (hroom : ∀ n ∈ limit, listed.length < n) :
    s.collect cipher order (Filter.between min max limit skip) keys listed =
      .ok (listed ++ limit.elim (entries.filter (·.entry.Shown))
        (fun n => (entries.filter (·.entry.Shown)).take (n - listed.length))) := by
  induction hload generalizing listed with
  | nil =>
    rw [collect]
    cases limit <;> simp
  | @cons key entry keys entries hkey _ ih =>
    obtain ⟨transfers, hselect, hone⟩ := Filter.select_between min max limit skip entry
    unfold collect
    simp only [hkey, bind, Except.bind, hselect]
    rw [hone]
    by_cases hshown : entry.entry.Shown
    · rw [if_pos hshown, List.filter_cons_of_pos (by simpa using hshown)]
      cases limit with
      | none =>
        rw [if_neg (by simp [Filter.between]), ih _ (by simp), List.append_assoc]
        rfl
      | some n =>
        obtain ⟨k, hk⟩ : ∃ k, n - listed.length = k + 1 := ⟨n - listed.length - 1, by have := hroom n rfl; omega⟩
        rw [Option.elim_some, hk, List.take_succ_cons]
        by_cases hfull : n ≤ (listed ++ [entry]).length
        · have hlast : k = 0 := by
            rw [List.length_append, List.length_singleton] at hfull
            omega
          rw [if_pos (by simpa [Filter.between] using hfull), hlast, List.take_zero]
          rfl
        · have hnext : n - (listed ++ [entry]).length = k := by
            rw [List.length_append, List.length_singleton]
            omega
          rw [if_neg (by simpa [Filter.between] using hfull), ih _ (fun m hm => Option.some.inj hm ▸ Nat.lt_of_not_le hfull),
            List.append_assoc, Option.elim_some, hnext]
          rfl
    · have hmore : ¬(Filter.between min max limit skip).limit.any (· ≤ (listed ++ []).length) = true := by
        cases limit with
        | none => simp [Filter.between]
        | some n => simpa [Filter.between] using hroom n rfl
      rw [if_neg hshown, List.filter_cons_of_neg (by simpa using hshown), if_neg hmore, List.append_nil, ih listed hroom]

/-- With a limit of zero only the first entry is looked at, and still listed. -/
theorem collect_between_zero (min max : Option TopoHeight) (skip : Option Nat)
    (hload : List.Forall₂ (fun key entry => s.loadFromDiskWithKey cipher order key = .ok entry) keys entries) :
    s.collect cipher order (Filter.between min max (some 0) skip) keys [] =
      .ok ((entries.take 1).filter (·.entry.Shown)) := by
  cases hload with
  | nil => rfl
  | @cons key entry keys entries hkey _ =>
    obtain ⟨transfers, hselect, hone⟩ := Filter.select_between min max (some 0) skip entry
    unfold collect
    simp only [hkey, bind, Except.bind, hselect]
    rw [hone, if_pos (by simp [Filter.between])]
    by_cases hshown : entry.entry.Shown <;> simp [hshown]
    all_goals rfl

namespace Orders

theorem loads (h : s.Orders cipher order history) {part : List (Hash × TransactionEntry)} (hpart : part ⊆ history) :
    List.Forall₂ (fun key entry => s.loadFromDiskWithKey cipher order key = .ok entry) (part.map Prod.fst) (part.map Prod.snd) := by
  rw [List.forall₂_map_left_iff, List.forall₂_map_right_iff, List.forall₂_same]
  exact fun e he => h.opened e (hpart he)

theorem listing_keys (h : s.Orders cipher order history) (min max : Option Nat) (skip : Nat) :
    ((s.range min max).reverse.drop skip).map Prod.snd = ((slice min max history).reverse.drop skip).map Prod.fst := by
  have hslice : (slice min max history).map Prod.fst = slice min max (history.map Prod.fst) := by
    cases max <;> simp [slice]
  rw [List.map_drop, List.map_reverse, h.map_snd_range, ← hslice, List.map_drop, List.map_reverse]

theorem slice_sublist (min max : Option Nat) (skip : Nat) : ((slice min max history).reverse.drop skip).Sublist history.reverse := by
  have hslice : (slice min max history).Sublist history := by
    cases max with
    | none => exact List.drop_sublist _ _
    | some n => exact (List.drop_sublist _ _).trans (List.take_sublist _ _)
  exact (List.drop_sublist _ _).trans hslice.reverse

/-- A listing without restrictions leaves out what has nothing to show. -/
theorem getTransactions (h : s.Orders cipher order history) :
    s.getTransactions cipher order = .ok ((history.map Prod.snd).reverse.filter (·.entry.Shown)) := by
  have hkeys := h.listing_keys none none 0
  have hwhole : (slice none none history).reverse.drop 0 = history.reverse := by simp [slice]
  rw [hwhole] at hkeys
  have hloads := h.loads (fun e he => List.mem_reverse.mp he : history.reverse ⊆ history)
  show s.collect cipher order (.between none none none none) (((s.range none none).reverse.drop 0).map Prod.snd) [] = _
  rw [hkeys, collect_between none none none none hloads [] (by simp), List.nil_append, List.map_reverse]
  rfl

end Orders

namespace Keeps

theorem bounds (h : s.Keeps cipher order history) {filter : Filter} (hmax : ∀ n ∈ filter.maxTopoheight, n + 1 < U64_RANGE) :
    ∃ min max, s.bounds cipher order filter = .ok (min, max) := by
  unfold EncryptedStorage.bounds
  cases hmin : filter.minTopoheight with
  | none =>
    cases hmaximum : filter.maxTopoheight with
    | none => exact ⟨none, none, rfl⟩
    | some n =>
      obtain ⟨found, hfound⟩ := h.orders.search (n + 1) none none
      have hnext : increment n = .ok (n + 1) := if_pos (hmax n hmaximum)
      simp only [hnext, hfound, bind, Except.bind]
      exact ⟨none, found, rfl⟩
  | some m =>
    obtain ⟨first, hfirst⟩ := h.orders.search m none none
    cases hmaximum : filter.maxTopoheight with
    | none =>
      simp only [hfirst, bind, Except.bind]
      exact ⟨first, none, rfl⟩
    | some n =>
      obtain ⟨found, hfound⟩ := h.orders.search (n + 1) first none
      have hnext : increment n = .ok (n + 1) := if_pos (hmax n hmaximum)
      simp only [hfirst, hnext, hfound, bind, Except.bind]
      exact ⟨first, found, rfl⟩

/-- A listing never fails, and shows every entry of the history at most once. -/
theorem getFilteredTransactions (h : s.Keeps cipher order history) {filter : Filter}
    (hmax : ∀ n ∈ filter.maxTopoheight, n + 1 < U64_RANGE) :
    ∃ entries, s.getFilteredTransactions cipher order filter = .ok entries ∧
      (entries.map TransactionEntry.hash).Sublist ((history.map Prod.snd).reverse.map TransactionEntry.hash) := by
  obtain ⟨min, max, hbounds⟩ := h.bounds hmax
  have hsub : ((slice min max history).reverse.drop (filter.skip.getD 0)).Sublist history.reverse := Orders.slice_sublist _ _ _
  have hloads := h.orders.loads fun e he => List.mem_reverse.mp (hsub.subset he)
  obtain ⟨entries, hentries, hhashes⟩ := collect_ok filter hloads []
  unfold EncryptedStorage.getFilteredTransactions
  simp only [hbounds, bind, Except.bind]
  rw [h.orders.listing_keys, hentries, List.nil_append]
  refine ⟨entries, rfl, hhashes.trans ?_⟩
  rw [← List.map_reverse]
  exact (hsub.map Prod.snd).map TransactionEntry.hash

theorem getTransactions (h : s.Keeps cipher order history) :
    s.getTransactions cipher order = .ok (history.map Prod.snd).reverse := by
  refine h.orders.getTransactions.trans (congrArg Except.ok (List.filter_eq_self.mpr (fun entry hentry => ?_)))
  obtain ⟨e, he, rfl⟩ := List.mem_map.mp (List.mem_reverse.mp hentry)
  exact decide_eq_true (h.shown e he)

end Keeps

end Listing

section Operations

/-- One call that changes the history. -/
inductive Operation where
  | saveTransaction (nonce : XNonce) (hash : Hash) (transaction : TransactionEntry)
  | deleteTransaction (hash : Hash)
  | deleteTransactionsAboveTopoheight (topoheight : TopoHeight)
  | deleteTransactionsAtOrAboveTopoheight (topoheight : TopoHeight)
  | deleteTransactions
  | reverseTransactionsIndexes (id : Option Nat)

variable (cipher order)

def Operation.run : Operation → Exec WalletError EncryptedStorage Unit
  | saveTransaction nonce hash transaction => EncryptedStorage.saveTransaction cipher nonce hash transaction
  | deleteTransaction hash => EncryptedStorage.deleteTransaction cipher hash
  | deleteTransactionsAboveTopoheight topoheight => EncryptedStorage.deleteTransactionsAboveTopoheight cipher order topoheight
  | deleteTransactionsAtOrAboveTopoheight topoheight =>
    EncryptedStorage.deleteTransactionsAtOrAboveTopoheight cipher order topoheight
  | deleteTransactions => EncryptedStorage.deleteTransactions
  | reverseTransactionsIndexes id => EncryptedStorage.reverseTransactionsIndexes id

/-- A transaction is saved when it is not stored, in a form that is read back; none that is stored is deleted alone; and the
counters stay below their limit. -/
def Operation.Sound (s : EncryptedStorage) : Operation → Prop
  | saveTransaction _ hash transaction =>
    s.hasTransaction cipher hash = false ∧ transaction.Valid order ∧ transaction.entry.Shown ∧
      (cipher.salted transaction.write).length ≤ cipher.cipher.limit ∧ ∀ id ∈ s.getLastTransactionId, id + 1 < U64_RANGE
  | deleteTransaction hash => s.hasTransaction cipher hash = false
  | deleteTransactionsAboveTopoheight topoheight => topoheight + 1 < U64_RANGE
  | deleteTransactionsAtOrAboveTopoheight _ => True
  | deleteTransactions => True
  | reverseTransactionsIndexes id => ∀ n ∈ id, n + 1 < U64_RANGE

/-- A run of operations, each one sound in the state it starts from; one that fails leaves what it wrote. -/
inductive SoundRun : EncryptedStorage → List Operation → EncryptedStorage → Prop
  | nil (s : EncryptedStorage) : SoundRun s [] s
  | cons {s s₁ s₂ : EncryptedStorage} {operation : Operation} {operations : List Operation}
      (hsound : operation.Sound cipher order s) (hstep : Exec.stateOf (operation.run cipher order s) = s₁)
      (hrest : SoundRun s₁ operations s₂) : SoundRun s (operation :: operations) s₂

variable {cipher order}

theorem increment_ok (h : n + 1 < U64_RANGE) : increment n = .ok (n + 1) := if_pos h

theorem not_mem_of_hasTransaction (h : s.hasTransaction cipher hash = false) :
    cipher.hashKey hash ∉ s.transactions := by
  intro hmem
  rw [hasTransaction, Std.ExtTreeMap.mem_iff_contains.mp hmem] at h
  cases h

namespace Keeps

theorem empty : EncryptedStorage.empty.Keeps cipher order [] where
  indexes := Numbers.empty
  nodup := List.nodup_nil
  stored := fun _ hkey => absurd hkey Std.ExtTreeMap.not_mem_empty
  opened := fun _ he => absurd he List.not_mem_nil
  shown := fun _ he => absurd he List.not_mem_nil

theorem saveTransaction (h : s.Keeps cipher order history) {nonce : XNonce}
    (hsound : (Operation.saveTransaction nonce hash transaction).Sound cipher order s) :
    ∃ s', EncryptedStorage.saveTransaction cipher nonce hash transaction s = .ok ⟨⟩ s' ∧
      s'.Keeps cipher order (history ++ [(cipher.hashKey hash, transaction)]) := by
  obtain ⟨hnew, hvalid, hshown, hfits, hnext⟩ := hsound
  obtain ⟨data, hencrypt, hdecrypt⟩ := cipher.encryptValueWithNonce_ok nonce hfits
  have htrees : (s.confirmed hash).transactions = s.transactions ∧
      (s.confirmed hash).transactionsIndexes = s.transactionsIndexes := by
    unfold confirmed
    split <;> exact ⟨rfl, rfl⟩
  have hid : (s.confirmed hash).getNextTransactionId = .ok history.length := by
    refine (h.congr htrees.1 htrees.2).getNextTransactionId ?_
    rw [EncryptedStorage.getLastTransactionId, htrees.2]
    exact hnext
  have hrun : EncryptedStorage.saveTransaction cipher nonce hash transaction s = .ok ⟨⟩
      { s.confirmed hash with
        transactions := (s.confirmed hash).transactions.insert (cipher.hashKey hash) data,
        transactionsIndexes := (s.confirmed hash).transactionsIndexes.insert history.length (cipher.hashKey hash) } := by
    unfold EncryptedStorage.saveTransaction
    simp only [Exec.bind_apply, Exec.modify_apply, Exec.get_apply, Exec.ofExcept_apply, hid, hencrypt]
  refine ⟨_, hrun, h.insert (not_mem_of_hasTransaction hnew) hvalid hshown hdecrypt ?_ ?_⟩
  · exact congrArg (fun t => t.insert (cipher.hashKey hash) data) htrees.1
  · exact congrArg (fun t => t.insert history.length (cipher.hashKey hash)) htrees.2

theorem deleteTransaction (h : s.Keeps cipher order history) (hnew : s.hasTransaction cipher hash = false) :
    ∃ s', EncryptedStorage.deleteTransaction cipher hash s = .ok ⟨⟩ s' ∧ s'.Keeps cipher order history := by
  refine ⟨_, rfl, h.congr ?_ rfl⟩
  refine Std.ExtTreeMap.ext_getElem? fun key => ?_
  by_cases hkey : cipher.hashKey hash = key
  · subst hkey
    rw [FiniteMap.getElem?_erase_self', Std.ExtTreeMap.getElem?_eq_none (not_mem_of_hasTransaction hnew)]
  · exact FiniteMap.getElem?_erase_of_ne _ hkey

theorem deleteTransactionsAboveTopoheight (h : s.Keeps cipher order history) {topoheight : TopoHeight}
    (hnext : topoheight + 1 < U64_RANGE) :
    ∃ s' lo, EncryptedStorage.deleteTransactionsAboveTopoheight cipher order topoheight s = .ok ⟨⟩ s' ∧
      s'.Keeps cipher order (history.take lo) := by
  obtain ⟨min, hmin⟩ := h.orders.search (topoheight + 1) none none
  refine ⟨_, min.getD 0, ?_, h.delete (h.orders.mem_range min)⟩
  unfold EncryptedStorage.deleteTransactionsAboveTopoheight
  simp only [Exec.bind_apply, Exec.get_apply, Exec.ofExcept_apply, increment_ok hnext, hmin]
  rfl

theorem deleteTransactionsAtOrAboveTopoheight (h : s.Keeps cipher order history) (topoheight : TopoHeight) :
    ∃ s' lo, EncryptedStorage.deleteTransactionsAtOrAboveTopoheight cipher order topoheight s = .ok ⟨⟩ s' ∧
      s'.Keeps cipher order (history.take lo) := by
  obtain ⟨min, hmin⟩ := h.orders.search topoheight none none
  refine ⟨_, min.getD 0, ?_, h.delete fun i key => List.mem_reverse.trans (h.orders.mem_range min i key)⟩
  unfold EncryptedStorage.deleteTransactionsAtOrAboveTopoheight
  simp only [Exec.bind_apply, Exec.get_apply, Exec.ofExcept_apply, hmin]
  rfl

theorem reverseTransactionsIndexes (h : s.Keeps cipher order history) {id : Option Nat} (hnext : ∀ n ∈ id, n + 1 < U64_RANGE) :
    ∃ s', EncryptedStorage.reverseTransactionsIndexes id s = .ok ⟨⟩ s' ∧
      s'.Keeps cipher order (reversedFrom (id.elim 0 (· + 1)) history) ∧ s'.transactions = s.transactions ∧
      s'.txCache = s.txCache := by
  have hlast := h.orders.getLastTransactionId
  have hlow : (id.map increment).getD (.ok 0) = .ok (id.elim 0 (· + 1)) := by
    cases id with
    | none => rfl
    | some n => exact increment_ok (hnext n rfl)
  unfold EncryptedStorage.reverseTransactionsIndexes
  simp only [Exec.bind_apply, Exec.get_apply]
  by_cases hnil : history = []
  · rw [if_pos hnil] at hlast
    rw [hlast]
    subst hnil
    exact ⟨s, rfl, by simpa [reversedFrom] using h, rfl, rfl⟩
  · rw [if_neg hnil] at hlast
    rw [hlast]
    simp only [Exec.bind_apply, Exec.ofExcept_apply, hlow]
    exact ⟨_, rfl, h.reverse hnil _, rfl, rfl⟩

theorem step (h : s.Keeps cipher order history) {operation : Operation} (hsound : operation.Sound cipher order s) :
    ∃ s' history', operation.run cipher order s = .ok ⟨⟩ s' ∧ s'.Keeps cipher order history' := by
  cases operation with
  | saveTransaction nonce hash transaction =>
    obtain ⟨s', hrun, hkeeps⟩ := h.saveTransaction hsound
    exact ⟨s', _, hrun, hkeeps⟩
  | deleteTransaction hash =>
    obtain ⟨s', hrun, hkeeps⟩ := h.deleteTransaction hsound
    exact ⟨s', _, hrun, hkeeps⟩
  | deleteTransactionsAboveTopoheight topoheight =>
    obtain ⟨s', lo, hrun, hkeeps⟩ := h.deleteTransactionsAboveTopoheight hsound
    exact ⟨s', _, hrun, hkeeps⟩
  | deleteTransactionsAtOrAboveTopoheight topoheight =>
    obtain ⟨s', lo, hrun, hkeeps⟩ := h.deleteTransactionsAtOrAboveTopoheight topoheight
    exact ⟨s', _, hrun, hkeeps⟩
  | deleteTransactions => exact ⟨_, [], rfl, Keeps.empty.congr rfl rfl⟩
  | reverseTransactionsIndexes id =>
    obtain ⟨s', hrun, hkeeps, -⟩ := h.reverseTransactionsIndexes hsound
    exact ⟨s', _, hrun, hkeeps⟩

theorem run (h : s.Keeps cipher order history) {operations : List Operation} (hrun : SoundRun cipher order s operations s') :
    ∃ history', s'.Keeps cipher order history' := by
  induction hrun generalizing history with
  | nil s => exact ⟨history, h⟩
  | cons hsound hstep _ ih =>
    obtain ⟨s₁, history₁, hok, hkeeps⟩ := h.step hsound
    rw [hok] at hstep
    subst hstep
    exact ih hkeeps

end Keeps

end Operations

section Runs

variable (cipher order)

/-- The index numbers the stored transactions from zero on, each one once. -/
structure Indexed (s : EncryptedStorage) : Prop where
  contiguous : ∀ id : Nat, id ∈ s.transactionsIndexes ↔ id < s.transactionsIndexes.size
  designates : ∀ (id : Nat) (key : Hash), s.transactionsIndexes[id]? = some key → key ∈ s.transactions
  designated : ∀ key ∈ s.transactions, ∃! id : Nat, s.transactionsIndexes[id]? = some key

/-- Every listing succeeds; without restrictions it shows the entry of each stored transaction once, and with them a part of it. -/
structure Listed (s : EncryptedStorage) : Prop where
  succeeds : ∀ filter : Filter, (∀ n ∈ filter.maxTopoheight, n + 1 < U64_RANGE) →
    ∃ entries whole, s.getFilteredTransactions cipher order filter = .ok entries ∧ s.getTransactions cipher order = .ok whole ∧
      (entries.map TransactionEntry.hash).Sublist (whole.map TransactionEntry.hash)
  once : ∃ keys entries, keys.Nodup ∧ (∀ key, key ∈ keys ↔ key ∈ s.transactions) ∧ s.getTransactions cipher order = .ok entries ∧
    List.Forall₂ (fun key entry => s.loadFromDiskWithKey cipher order key = .ok entry) keys entries

/-- The ids after the given one are turned around, and turned back by a second call. -/
def ReversesAfter (s : EncryptedStorage) (id : Nat) : Prop :=
  ∃ s', EncryptedStorage.reverseTransactionsIndexes (some id) s = .ok ⟨⟩ s' ∧ s'.transactions = s.transactions ∧
    (∀ i, s'.transactionsIndexes[i]? =
      if id < i ∧ i < s.transactionsIndexes.size then s.transactionsIndexes[id + s.transactionsIndexes.size - i]?
      else s.transactionsIndexes[i]?) ∧
    EncryptedStorage.reverseTransactionsIndexes (some id) s' = .ok ⟨⟩ s

variable {cipher order}

namespace Keeps

theorem size_indexes (h : s.Keeps cipher order history) : s.transactionsIndexes.size = history.length := by
  rw [← Std.ExtTreeMap.length_toList, h.indexes.toList, ← List.length_map Prod.snd, Lib.map_snd_numbered, List.length_map]

theorem indexed (h : s.Keeps cipher order history) : s.Indexed where
  contiguous := by
    intro id
    rw [h.indexes.mem_iff, List.length_map, h.size_indexes]
  designates := by
    intro id key hid
    obtain ⟨entry, hload⟩ := h.orders.load_index hid
    exact mem_of_load hload
  designated := by
    intro key hkey
    obtain ⟨id, hid⟩ := List.mem_iff_getElem?.mp (h.stored key hkey)
    refine ⟨id, (h.indexes id).trans hid, fun other hother => ?_⟩
    replace hother := (h.indexes other).symm.trans hother
    exact ((List.getElem?_inj (List.getElem?_eq_some_iff.mp hid).1 h.nodup).mp (hid.trans hother.symm)).symm

theorem listed (h : s.Keeps cipher order history) : s.Listed cipher order where
  succeeds := by
    intro filter hmax
    obtain ⟨entries, hentries, hsub⟩ := h.getFilteredTransactions hmax
    exact ⟨entries, _, hentries, h.getTransactions, hsub⟩
  once := by
    refine ⟨history.reverse.map Prod.fst, _, ?_, fun key => ?_, h.getTransactions, ?_⟩
    · rw [List.map_reverse]
      exact List.nodup_reverse.mpr h.nodup
    · rw [List.map_reverse, List.mem_reverse, h.orders.mem_transactions]
    · rw [← List.map_reverse]
      exact h.orders.loads fun e he => List.mem_reverse.mp he

theorem reversesAfter (h : s.Keeps cipher order history) (hid : id + 1 < U64_RANGE) : s.ReversesAfter id := by
  have hnext : ∀ n ∈ some id, n + 1 < U64_RANGE := by
    rintro n ⟨⟩
    exact hid
  obtain ⟨s', hrun, hkeeps, htransactions, hcache⟩ := h.reverseTransactionsIndexes hnext
  obtain ⟨s'', hrun', hkeeps', htransactions', hcache'⟩ := hkeeps.reverseTransactionsIndexes hnext
  have hback : s'' = s := by
    have hindexes : s''.transactionsIndexes = s.transactionsIndexes := by
      refine Std.ExtTreeMap.ext_getElem? fun i => ?_
      rw [hkeeps'.indexes i, h.indexes i, reversedFrom_reversedFrom]
    obtain ⟨transactions, indexes, cache⟩ := s
    obtain ⟨transactions'', indexes'', cache''⟩ := s''
    rw [htransactions] at htransactions'
    rw [hcache] at hcache'
    cases htransactions'
    cases hindexes
    cases hcache'
    rfl
  refine ⟨s', hrun, htransactions, fun i => ?_, hback ▸ hrun'⟩
  have hbound : id + 1 ≤ i ∧ i < history.length ↔ id < i ∧ i < history.length := Iff.rfl
  rw [hkeeps.indexes i, map_reversedFrom, getElem?_reversedFrom, h.indexes, h.indexes, h.size_indexes, List.length_map]
  simp only [Option.elim_some, hbound]
  by_cases hi : id < i ∧ i < history.length
  · have hmirror : id + 1 + (history.length - 1) - i = id + history.length - i := by omega
    rw [if_pos hi, if_pos hi, hmirror]
  · rw [if_neg hi, if_neg hi]

end Keeps

/-- While no stored transaction is deleted alone, every run from an empty storage leaves an index that numbers the stored
transactions, a history that can be listed, and one that can be turned around. -/
theorem history_indexed {operations : List Operation} (hrun : SoundRun cipher order .empty operations s) :
    s.Indexed ∧ s.Listed cipher order ∧ ∀ id, id + 1 < U64_RANGE → s.ReversesAfter id := by
  obtain ⟨history, hkeeps⟩ := Keeps.empty.run hrun
  exact ⟨hkeeps.indexed, hkeeps.listed, fun id hid => hkeeps.reversesAfter hid⟩

def zeroNonce : XNonce := ⟨List.replicate NONCE_SIZE 0, rfl⟩

def rewardEntry (hash : Hash) : TransactionEntry := { hash, topoheight := 5, timestamp := 0, entry := .coinbase 7 }

theorem rewardEntry_valid (order : KeyOrder DataValue) (hash : Hash) : (rewardEntry hash).Valid order where
  topoheight := by
    show 5 < U64_RANGE
    decide
  timestamp := by
    show 0 < U64_RANGE
    decide
  entry := by
    show 7 < U64_RANGE
    decide

def after (cipher : Cipher) (order : KeyOrder DataValue) (operations : List Operation) : EncryptedStorage :=
  operations.foldl (fun s operation => Exec.stateOf (operation.run cipher order s)) .empty

/-- Two rewards are saved, and turned around. -/
def rewards : List Operation :=
  [.saveTransaction zeroNonce 1 (rewardEntry 1), .saveTransaction zeroNonce 2 (rewardEntry 2), .reverseTransactionsIndexes none]

theorem rewards_sound : SoundRun taggedCipher Wire.anyOrder .empty rewards (after taggedCipher Wire.anyOrder rewards) := by
  have hsave (s : EncryptedStorage) (hash : Hash) (hnew : s.hasTransaction taggedCipher hash = false)
      (hnext : ∀ id ∈ s.getLastTransactionId, id + 1 < U64_RANGE) :
      (Operation.saveTransaction zeroNonce hash (rewardEntry hash)).Sound taggedCipher Wire.anyOrder s := by
    have hfits : (taggedCipher.salted (rewardEntry hash).write).length ≤ taggedCipher.cipher.limit := by
      simp [Cipher.salted, taggedCipher, rewardEntry, TransactionEntry.write, EntryData.write]
    exact ⟨hnew, rewardEntry_valid Wire.anyOrder hash, trivial, hfits, hnext⟩
  have hnew : EncryptedStorage.empty.hasTransaction taggedCipher 1 = false := by decide +kernel
  have hnew' : (after taggedCipher Wire.anyOrder (rewards.take 1)).hasTransaction taggedCipher 2 = false := by decide +kernel
  have hlast : (after taggedCipher Wire.anyOrder (rewards.take 1)).getLastTransactionId = some 0 := by decide +kernel
  refine .cons (hsave .empty 1 hnew (fun id hid => nomatch hid)) rfl ?_
  refine .cons (hsave (after taggedCipher Wire.anyOrder (rewards.take 1)) 2 hnew' ?_) rfl ?_
  · rw [hlast]
    rintro id ⟨⟩
    decide
  · exact .cons (fun n hn => nomatch hn) rfl (.nil _)

theorem history_indexed_rewards :
    (after taggedCipher Wire.anyOrder rewards).Indexed ∧ (after taggedCipher Wire.anyOrder rewards).Listed taggedCipher Wire.anyOrder ∧
      ∀ id, id + 1 < U64_RANGE → (after taggedCipher Wire.anyOrder rewards).ReversesAfter id :=
  history_indexed rewards_sound

/-- One reward is saved and deleted alone. -/
def dangling (order : KeyOrder DataValue) : EncryptedStorage :=
  after taggedCipher order [.saveTransaction zeroNonce 1 (rewardEntry 1), .deleteTransaction 1]

/-- The index still points to the deleted transaction, and nothing can be listed. -/
theorem delete_transaction_dangles :
    EncryptedStorage.empty.hasTransaction taggedCipher 1 = false ∧ ¬ (dangling Wire.anyOrder).Indexed ∧
      (dangling Wire.anyOrder).getTransactions taggedCipher Wire.anyOrder = .error (.missingData 1) := by
  have hindex : (dangling Wire.anyOrder).transactionsIndexes[0]? = some 1 := by decide +kernel
  have hmissing : 1 ∉ (dangling Wire.anyOrder).transactions := by decide +kernel
  refine ⟨by decide +kernel, fun hindexed => hmissing (hindexed.designates 0 1 hindex), ?_⟩
  rfl

end Runs

end EncryptedStorage

end Xelis.Wallet
