import Xelis.Lib.Bisect
import Xelis.Wallet.History

namespace Xelis.Wallet.EncryptedStorage

open Lib (Exec firstIn firstIn_eq_none firstIn_eq_some firstIn_isSome firstIn_skip firstIn_cut firstIn_of_holds)
open Lib.Codec (KeyOrder)
open Wire (DataValue)

variable {cipher : Cipher} {order : KeyOrder DataValue} {s s' : EncryptedStorage} {history : List (Hash × TransactionEntry)}

def Sorted (history : List (Hash × TransactionEntry)) : Prop :=
  history.Pairwise (fun a b => a.2.topoheight ≤ b.2.topoheight)

def isAt (history : List (Hash × TransactionEntry)) (topoheight : TopoHeight) (id : Nat) : Bool :=
  history[id]?.any (·.2.topoheight == topoheight)

variable {topoheight : TopoHeight}

section Bisection

variable {e e' : Hash × TransactionEntry} {i j : Nat}

theorem Sorted.le (hsorted : Sorted history) (hi : history[i]? = some e) (hj : history[j]? = some e') (hle : i ≤ j) :
    e.2.topoheight ≤ e'.2.topoheight := by
  obtain ⟨hilen, rfl⟩ := List.getElem?_eq_some_iff.mp hi
  obtain ⟨hjlen, rfl⟩ := List.getElem?_eq_some_iff.mp hj
  rcases Nat.lt_or_eq_of_le hle with hlt | rfl
  · exact List.pairwise_iff_getElem.mp hsorted i j hilen hjlen hlt
  · exact Nat.le_refl _

theorem isAt_eq (hi : history[i]? = some e) : isAt history topoheight i = (e.2.topoheight == topoheight) := by
  rw [isAt, hi, Option.any_some]

theorem isAt_of_none (hi : history[i]? = none) : isAt history topoheight i = false := by
  rw [isAt, hi, Option.any_none]

/-- Up to an entry below the topoheight none is at it. -/
theorem Sorted.not_isAt_of_lt (hsorted : Sorted history) (hj : history[j]? = some e)
    (hlt : e.2.topoheight < topoheight) (hle : i ≤ j) : isAt history topoheight i = false := by
  cases hi : history[i]? with
  | none => exact isAt_of_none hi
  | some e' =>
    have hbelow := hsorted.le hi hj hle
    rw [isAt_eq hi]
    exact beq_false_of_ne (Nat.ne_of_lt (Nat.lt_of_le_of_lt hbelow hlt))

/-- From an entry above the topoheight on none is at it. -/
theorem Sorted.not_isAt_of_gt (hsorted : Sorted history) (hi : history[i]? = some e)
    (hlt : topoheight < e.2.topoheight) (hle : i ≤ j) : isAt history topoheight j = false := by
  cases hj : history[j]? with
  | none => exact isAt_of_none hj
  | some e' =>
    have habove := hsorted.le hi hj hle
    rw [isAt_eq hj]
    exact beq_false_of_ne (Nat.ne_of_gt (Nat.lt_of_lt_of_le hlt habove))

theorem Orders.entry_at (h : s.Orders cipher order history) {id : Nat} {key : Hash} {entry : TransactionEntry}
    (hkey : s.transactionsIndexes[id]? = some key) (hload : s.loadFromDiskWithKey cipher order key = .ok entry) :
    history[id]? = some (key, entry) := by
  rw [h.indexes id, List.getElem?_map] at hkey
  obtain ⟨e, he, rfl⟩ := Option.map_eq_some_iff.mp hkey
  have hopened := h.opened e (List.mem_of_getElem? he)
  rw [hload, Except.ok.injEq] at hopened
  rw [he, hopened]

theorem Orders.searchLoop_exact (h : s.Orders cipher order history) (hsorted : Sorted history) (topoheight : TopoHeight)
    (left right : Nat) (result : Option Nat) (hright : right ≤ history.length) :
    s.searchLoop cipher order topoheight left right result =
      .ok ((firstIn (isAt history topoheight) left right).or result) := by
  fun_induction EncryptedStorage.searchLoop with
  | case1 left right result hlt mid hnone =>
    have hmid : mid < history.length := by
      have hbelow : mid < right := by
        show left + (right - left) / 2 < right
        omega
      exact Nat.lt_of_lt_of_le hbelow hright
    rw [h.indexes mid, List.getElem?_eq_none_iff, List.length_map] at hnone
    exact absurd hmid (Nat.not_lt.mpr hnone)
  | case2 left right result hlt mid key hkey e hload =>
    obtain ⟨entry, hentry⟩ := h.load_index hkey
    rw [hentry] at hload
    cases hload
  | case3 left right result hlt mid key hkey entry hload hord ih =>
    -- a match; an earlier one is searched for
    have hmid : left ≤ mid ∧ mid < right := by
      show left ≤ left + (right - left) / 2 ∧ left + (right - left) / 2 < right
      omega
    have hat : isAt history topoheight mid = true := by
      rw [isAt_eq (h.entry_at hkey hload), beq_iff_eq]
      exact Nat.compare_eq_eq.mp hord
    have hafter : firstIn (isAt history topoheight) left right =
        (firstIn (isAt history topoheight) left mid).or (some mid) := firstIn_of_holds hmid.1 hmid.2 hat
    rw [ih (by omega), hafter, Option.or_assoc, Option.some_or]
  | case4 left right result hlt mid key hkey entry hload hord ih =>
    have hmid : left ≤ mid := by
      show left ≤ left + (right - left) / 2
      omega
    have hskip : firstIn (isAt history topoheight) left right = firstIn (isAt history topoheight) (mid + 1) right := by
      refine firstIn_skip (by omega) fun i _ hi => ?_
      exact hsorted.not_isAt_of_lt (h.entry_at hkey hload) (Nat.compare_eq_lt.mp hord) (Nat.le_of_lt_succ hi)
    rw [ih hright, hskip]
  | case5 left right result hlt mid key hkey entry hload hord ih =>
    have hmid : mid < right := by
      show left + (right - left) / 2 < right
      omega
    have hcut : firstIn (isAt history topoheight) left right = firstIn (isAt history topoheight) left mid := by
      refine firstIn_cut (Nat.le_of_lt hmid) fun i hi _ => ?_
      exact hsorted.not_isAt_of_gt (h.entry_at hkey hload) (Nat.compare_eq_gt.mp hord) hi
    rw [ih (by omega), hcut]
  | case6 left right result hge =>
    rw [firstIn_eq_none.mpr fun i hlo hhi => absurd (Nat.lt_of_le_of_lt hlo hhi) hge, Option.none_or]

/-- The last entry is never looked at. -/
theorem Orders.search_exact (h : s.Orders cipher order history) (hsorted : Sorted history) (topoheight : TopoHeight)
    (left : Option Nat) : s.searchTransactionIdForTopoheight cipher order topoheight left none =
      .ok (firstIn (isAt history topoheight) (left.getD 0) (history.length - 1)) := by
  unfold searchTransactionIdForTopoheight
  rw [Option.none_or, h.getLastTransactionId]
  by_cases hnil : history = []
  · rw [if_pos hnil, hnil]
    exact congrArg Except.ok (firstIn_eq_none.mpr fun i _ hi => absurd hi (Nat.not_lt_zero i)).symm
  · rw [if_neg hnil]
    dsimp only
    rw [h.searchLoop_exact hsorted topoheight _ _ none (Nat.sub_le _ _), Option.or_none]

end Bisection

section Checked

variable (cipher order)

/-- The same bisection where an addition that leaves the 64 bits is an error. -/
def searchLoopChecked (s : EncryptedStorage) (topoheight : TopoHeight) (left right : Nat) (result : Option Nat) :
    Except WalletError (Option Nat) :=
  if left < right then
    let mid := left + (right - left) / 2
    if mid + 1 < U64_RANGE then
      match s.transactionsIndexes[mid]? with
      | none => .ok none
      | some key =>
        match s.loadFromDiskWithKey cipher order key with
        | .error e => .error e
        | .ok entry =>
          match compare entry.topoheight topoheight with
          | .eq => searchLoopChecked s topoheight left mid (some mid)
          | .lt => searchLoopChecked s topoheight (mid + 1) right result
          | .gt => searchLoopChecked s topoheight left mid result
    else .error .arithmeticOverflow
  else .ok result
termination_by right - left

variable {cipher order}

/-- Between two ids every addition stays below the right one. -/
theorem searchLoopChecked_eq (topoheight : TopoHeight) (left right : Nat) (result : Option Nat) (hright : right < U64_RANGE) :
    searchLoopChecked cipher order s topoheight left right result = s.searchLoop cipher order topoheight left right result := by
  have hfits : ∀ {left right : Nat}, left < right → right < U64_RANGE → left + (right - left) / 2 + 1 < U64_RANGE := by
    intro left right hlt hright
    have hbelow : left + (right - left) / 2 + 1 ≤ right := by omega
    exact Nat.lt_of_le_of_lt hbelow hright
  fun_induction EncryptedStorage.searchLoop with
  | case1 left right result hlt mid hnone =>
    unfold searchLoopChecked
    simp only [if_pos hlt, if_pos (hfits hlt hright)]
    rw [hnone]
  | case2 left right result hlt mid key hkey e hload =>
    unfold searchLoopChecked
    simp only [if_pos hlt, if_pos (hfits hlt hright)]
    rw [show s.transactionsIndexes[left + (right - left) / 2]? = some key from hkey]
    simp only [hload]
  | case3 left right result hlt mid key hkey entry hload hord ih =>
    have hmid : mid < U64_RANGE := Nat.lt_of_succ_lt (hfits hlt hright)
    rw [← ih hmid]
    conv_lhs => unfold searchLoopChecked
    simp only [if_pos hlt, if_pos (hfits hlt hright)]
    rw [show s.transactionsIndexes[left + (right - left) / 2]? = some key from hkey]
    simp only [hload, hord]
    rfl
  | case4 left right result hlt mid key hkey entry hload hord ih =>
    rw [← ih hright]
    conv_lhs => unfold searchLoopChecked
    simp only [if_pos hlt, if_pos (hfits hlt hright)]
    rw [show s.transactionsIndexes[left + (right - left) / 2]? = some key from hkey]
    simp only [hload, hord]
    rfl
  | case5 left right result hlt mid key hkey entry hload hord ih =>
    have hmid : mid < U64_RANGE := Nat.lt_of_succ_lt (hfits hlt hright)
    rw [← ih hmid]
    conv_lhs => unfold searchLoopChecked
    simp only [if_pos hlt, if_pos (hfits hlt hright)]
    rw [show s.transactionsIndexes[left + (right - left) / 2]? = some key from hkey]
    simp only [hload, hord]
    rfl
  | case6 left right result hge =>
    unfold searchLoopChecked
    rw [if_neg hge]

end Checked

/-- Exactly the doomed entries are gone from both trees, the others are read as before, and nothing is new. -/
structure Deletes (cipher : Cipher) (order : KeyOrder DataValue) (doomed : TransactionEntry → Prop)
    (s s' : EncryptedStorage) : Prop where
  gone : ∀ (id : Nat) (key : Hash) entry, s.transactionsIndexes[id]? = some key →
    s.loadFromDiskWithKey cipher order key = .ok entry → doomed entry → id ∉ s'.transactionsIndexes ∧ key ∉ s'.transactions
  kept : ∀ (id : Nat) (key : Hash) entry, s.transactionsIndexes[id]? = some key →
    s.loadFromDiskWithKey cipher order key = .ok entry → ¬doomed entry →
      s'.transactionsIndexes[id]? = some key ∧ s'.loadFromDiskWithKey cipher order key = .ok entry
  indexes : ∀ id : Nat, id ∉ s.transactionsIndexes → id ∉ s'.transactionsIndexes
  transactions : ∀ key ∉ s.transactions, key ∉ s'.transactions

/-- The entries before a position are those below the topoheight. -/
def Splits (history : List (Hash × TransactionEntry)) (topoheight : TopoHeight) (lo : Nat) : Prop :=
  ∀ i e, history[i]? = some e → (i < lo ↔ e.2.topoheight < topoheight)

/-- Some entry besides the last one is at the topoheight, or none is below it. -/
def Cuts (history : List (Hash × TransactionEntry)) (topoheight : TopoHeight) : Prop :=
  (∃ e ∈ history.dropLast, e.2.topoheight = topoheight) ∨ ∀ e ∈ history, topoheight ≤ e.2.topoheight

/-- A cut history has lost what is at or above the topoheight exactly when it was cut there. -/
theorem Orders.deletes_iff (h : s.Orders cipher order history) {lo : Nat} (h' : s'.Orders cipher order (history.take lo))
    (topoheight : TopoHeight) :
    Deletes cipher order (topoheight ≤ ·.topoheight) s s' ↔ Splits history topoheight lo := by
  have hindex : ∀ i, s'.transactionsIndexes[i]? = if i < lo then (history[i]?).map Prod.fst else none := by
    intro i
    rw [h'.indexes i, List.getElem?_map, List.getElem?_take]
    split
    · rfl
    · rfl
  constructor
  · intro hdeletes i e hi
    have hkey : s.transactionsIndexes[i]? = some e.1 := by rw [h.indexes i, List.getElem?_map, hi, Option.map_some]
    have hload := h.opened e (List.mem_of_getElem? hi)
    have hat := hindex i
    rw [hi, Option.map_some] at hat
    by_cases hdoomed : topoheight ≤ e.2.topoheight
    · have hgone := (hdeletes.gone i e.1 e.2 hkey hload hdoomed).1
      rw [Std.ExtTreeMap.getElem?_eq_none hgone] at hat
      refine ⟨fun hlt => ?_, fun hlt => absurd hdoomed (Nat.not_le.mpr hlt)⟩
      rw [if_pos hlt] at hat
      cases hat
    · have hkept := (hdeletes.kept i e.1 e.2 hkey hload hdoomed).1
      rw [hkept] at hat
      refine ⟨fun _ => Nat.lt_of_not_le hdoomed, fun _ => ?_⟩
      by_contra hge
      rw [if_neg hge] at hat
      cases hat
  · intro hsplits
    refine ⟨fun id key entry hkey hload hdoomed => ?_, fun id key entry hkey hload hkept => ?_, fun id hid => ?_, fun key hkey => ?_⟩
    · have hid := h.entry_at hkey hload
      have hge : ¬id < lo := fun hlt => Nat.not_le.mpr ((hsplits id _ hid).mp hlt) hdoomed
      refine ⟨?_, fun hmem => ?_⟩
      · rw [Std.ExtTreeMap.mem_iff_isSome_getElem?, hindex, if_neg hge]
        exact Bool.false_ne_true
      · -- a key that is left has another id, before the cut
        obtain ⟨j, hj⟩ := List.mem_iff_getElem?.mp (h'.stored key hmem)
        rw [List.map_take, List.getElem?_take] at hj
        split at hj
        · rename_i hlt
          have hsame : (history.map Prod.fst)[id]? = some key := (h.indexes id).symm.trans hkey
          have hij := (List.getElem?_inj (List.getElem?_eq_some_iff.mp hj).1 h.nodup).mp (hj.trans hsame.symm)
          exact hge (hij ▸ hlt)
        · cases hj
    · have hid := h.entry_at hkey hload
      have hlt : id < lo := (hsplits id _ hid).mpr (Nat.lt_of_not_le hkept)
      refine ⟨?_, h'.opened (key, entry) (List.mem_iff_getElem?.mpr ⟨id, ?_⟩)⟩
      · rw [hindex, if_pos hlt, hid, Option.map_some]
      · rw [List.getElem?_take, if_pos hlt, hid]
    · rw [Std.ExtTreeMap.mem_iff_isSome_getElem?, h.indexes id, List.getElem?_map] at hid
      rw [Std.ExtTreeMap.mem_iff_isSome_getElem?, hindex]
      split
      · exact hid
      · exact Bool.false_ne_true
    · intro hmem
      refine hkey (h.mem_transactions.mpr ?_)
      have hleft := h'.stored key hmem
      rw [List.map_take] at hleft
      exact List.mem_of_mem_take hleft

theorem found_iff (history : List (Hash × TransactionEntry)) (topoheight : TopoHeight) : (firstIn (isAt history topoheight) 0 (history.length - 1)).isSome ↔
    ∃ e ∈ history.dropLast, e.2.topoheight = topoheight := by
  rw [firstIn_isSome]
  constructor
  · rintro ⟨i, hat, -, hi⟩
    obtain ⟨found, hget⟩ : ∃ e, history[i]? = some e := ⟨_, List.getElem?_eq_getElem (by omega)⟩
    rw [isAt_eq hget, beq_iff_eq] at hat
    exact ⟨_, List.mem_iff_getElem?.mpr ⟨i, by rw [List.getElem?_dropLast, if_pos hi, hget]⟩, hat⟩
  · rintro ⟨e, he, hat⟩
    obtain ⟨i, hi⟩ := List.mem_iff_getElem?.mp he
    rw [List.getElem?_dropLast] at hi
    split at hi
    · exact ⟨i, by rw [isAt_eq hi, hat, beq_self_eq_true], Nat.zero_le i, ‹_›⟩
    · cases hi

theorem splits_of_found (hsorted : Sorted history) {k : Nat}
    (hfirst : firstIn (isAt history topoheight) 0 (history.length - 1) = some k) : Splits history topoheight k := by
  obtain ⟨hat, -, hk, hbefore⟩ := firstIn_eq_some.mp hfirst
  obtain ⟨found, hget⟩ : ∃ e, history[k]? = some e := ⟨_, List.getElem?_eq_getElem (by omega)⟩
  rw [isAt_eq hget, beq_iff_eq] at hat
  refine fun i e hi => ⟨fun hlt => ?_, fun hlt => ?_⟩
  · have hle := hsorted.le hi hget (Nat.le_of_lt hlt)
    have hno := hbefore i (Nat.zero_le i) hlt
    rw [isAt_eq hi, beq_eq_false_iff_ne] at hno
    rw [hat] at hle
    exact Nat.lt_of_le_of_ne hle hno
  · refine Nat.lt_of_not_le fun hge => ?_
    have hle := hsorted.le hget hi hge
    rw [hat] at hle
    exact Nat.not_lt.mpr hle hlt

/-- The bisection finds where to cut exactly when the entries are cut there at all, or when nothing is older. -/
theorem splits_iff (hsorted : Sorted history) (topoheight : TopoHeight) :
    Splits history topoheight ((firstIn (isAt history topoheight) 0 (history.length - 1)).getD 0) ↔ Cuts history topoheight := by
  have hfound := found_iff history topoheight
  cases hfirst : firstIn (isAt history topoheight) 0 (history.length - 1) with
  | none =>
    -- nothing is cut off before the first entry
    rw [hfirst] at hfound
    rw [Cuts, or_iff_right fun hsome => Bool.false_ne_true (hfound.mpr hsome)]
    constructor
    · intro hsplits e he
      obtain ⟨i, hi⟩ := List.mem_iff_getElem?.mp he
      exact Nat.le_of_not_lt fun hlt => Nat.not_lt_zero i ((hsplits i e hi).mpr hlt)
    · intro hall i e hi
      have habove := hall e (List.mem_of_getElem? hi)
      exact ⟨fun hlt => absurd hlt (Nat.not_lt_zero i), fun hlt => absurd habove (Nat.not_le.mpr hlt)⟩
  | some k =>
    rw [hfirst] at hfound
    exact iff_of_true (splits_of_found hsorted hfirst) (.inl (hfound.mp rfl))

theorem Orders.deleteAbove_eq (h : s.Orders cipher order history) (hsorted : Sorted history)
    (hnext : topoheight + 1 < U64_RANGE) : deleteTransactionsAboveTopoheight cipher order topoheight s = .ok ⟨⟩
      ((s.range (firstIn (isAt history (topoheight + 1)) 0 (history.length - 1)) none).foldl deleteIndexed s) := by
  unfold deleteTransactionsAboveTopoheight
  simp only [Exec.bind_apply, Exec.get_apply, Exec.ofExcept_apply, increment_ok hnext, h.search_exact hsorted]
  rfl

theorem Orders.deleteAtOrAbove_eq (h : s.Orders cipher order history) (hsorted : Sorted history) (topoheight : TopoHeight) :
    deleteTransactionsAtOrAboveTopoheight cipher order topoheight s = .ok ⟨⟩
      ((s.range (firstIn (isAt history topoheight) 0 (history.length - 1)) none).reverse.foldl deleteIndexed s) := by
  unfold deleteTransactionsAtOrAboveTopoheight
  simp only [Exec.bind_apply, Exec.get_apply, Exec.ofExcept_apply, h.search_exact hsorted]
  rfl

/-- The two deletions are exact under the same condition on the topoheight that is searched for, which must still be one; the
bisection ends, and nothing in it overflows. -/
theorem deletions_exact_iff (s : EncryptedStorage) (history : List (Hash × TransactionEntry))
    (h : s.Orders cipher order history) (hsorted : Sorted history) (topoheight : TopoHeight) :
    ((∃ s', deleteTransactionsAboveTopoheight cipher order topoheight s = .ok ⟨⟩ s' ∧
        Deletes cipher order (topoheight < ·.topoheight) s s') ↔
      topoheight + 1 < U64_RANGE ∧ Cuts history (topoheight + 1)) ∧
    ((∃ s', deleteTransactionsAtOrAboveTopoheight cipher order topoheight s = .ok ⟨⟩ s' ∧
        Deletes cipher order (topoheight ≤ ·.topoheight) s s') ↔ Cuts history topoheight) ∧
    ∀ (searched : TopoHeight) (left right : Nat) (result : Option Nat), right < U64_RANGE →
      ∃ found, s.searchLoop cipher order searched left right result = .ok found ∧
        searchLoopChecked cipher order s searched left right result = .ok found := by
  refine ⟨?_, ?_, fun searched left right result hright => ?_⟩
  · by_cases hnext : topoheight + 1 < U64_RANGE
    · have hdeletes := (h.deletes_iff (h.delete (h.mem_range _)) (topoheight + 1)).trans (splits_iff hsorted (topoheight + 1))
      rw [h.deleteAbove_eq hsorted hnext, and_iff_right hnext, ← hdeletes]
      constructor
      · rintro ⟨s', hs', hdeleted⟩
        cases hs'
        exact hdeleted
      · exact fun hdeleted => ⟨_, rfl, hdeleted⟩
    · refine iff_of_false ?_ fun hc => hnext hc.1
      rintro ⟨s', hrun, -⟩
      unfold deleteTransactionsAboveTopoheight at hrun
      have hoverflow : increment topoheight = .error .arithmeticOverflow := if_neg hnext
      simp only [Exec.bind_apply, Exec.get_apply, Exec.ofExcept_apply, hoverflow] at hrun
      cases hrun
  · have hcut := h.delete fun i key => List.mem_reverse.trans (h.mem_range
      (firstIn (isAt history topoheight) 0 (history.length - 1)) i key)
    rw [h.deleteAtOrAbove_eq hsorted, ← (h.deletes_iff hcut topoheight).trans (splits_iff hsorted topoheight)]
    constructor
    · rintro ⟨s', hs', hdeleted⟩
      cases hs'
      exact hdeleted
    · exact fun hdeleted => ⟨_, rfl, hdeleted⟩
  · obtain ⟨found, hfound⟩ := h.searchLoop searched left right result
    exact ⟨found, hfound, (searchLoopChecked_eq searched left right result hright).trans hfound⟩

/-- Two rewards, both at the topoheight five. -/
def rewardHistory : List (Hash × TransactionEntry) :=
  [(taggedCipher.hashKey 1, rewardEntry 1), (taggedCipher.hashKey 2, rewardEntry 2)]

theorem exists_rewardHistory : ∃ s : EncryptedStorage, s.Keeps taggedCipher Wire.anyOrder rewardHistory := by
  cases rewards_sound with
  | cons hsound hstep hrest =>
    obtain ⟨s₁, hrun, hkeeps⟩ := Keeps.empty.saveTransaction hsound
    replace hstep : Exec.stateOf (saveTransaction taggedCipher zeroNonce 1 (rewardEntry 1) .empty) = _ := hstep
    rw [hrun] at hstep
    cases hrest with
    | cons hsound₂ _ _ =>
      rw [← show s₁ = _ from hstep] at hsound₂
      obtain ⟨s₂, -, hkeeps₂⟩ := hkeeps.saveTransaction hsound₂
      exact ⟨s₂, hkeeps₂⟩

theorem rewardHistory_sorted : Sorted rewardHistory := List.pairwise_pair.mpr (Nat.le_refl 5)

/-- Nothing is above the topoheight seven, and everything is deleted. -/
theorem delete_above_loses_history : ∃ (s s' : EncryptedStorage), s.Orders taggedCipher Wire.anyOrder rewardHistory ∧
    Sorted rewardHistory ∧ deleteTransactionsAboveTopoheight taggedCipher Wire.anyOrder 7 s = .ok ⟨⟩ s' ∧
    (∀ id : Nat, id ∉ s'.transactionsIndexes) ∧ ¬Deletes taggedCipher Wire.anyOrder (7 < ·.topoheight) s s' := by
  obtain ⟨s, hkeeps⟩ := exists_rewardHistory
  have h := hkeeps.orders
  have hnone : firstIn (isAt rewardHistory 8) 0 (rewardHistory.length - 1) = none := by decide
  have hrun := h.deleteAbove_eq rewardHistory_sorted (show 7 + 1 < U64_RANGE by decide)
  have hempty := (h.delete (h.mem_range (firstIn (isAt rewardHistory 8) 0 (rewardHistory.length - 1)))).indexes
  rw [hnone] at hrun hempty
  refine ⟨s, _, h, rewardHistory_sorted, hrun, fun id hid => ?_, fun hdeletes => ?_⟩
  · exact absurd (hempty.mem_iff.mp hid) (Nat.not_lt_zero id)
  · have hkept := (hdeletes.kept 0 (taggedCipher.hashKey 1) (rewardEntry 1) (h.indexes 0)
      (h.opened _ List.mem_cons_self) (by decide)).1
    rw [hempty 0] at hkept
    cases hkept

/-- Both rewards are above the topoheight four, where the bisection finds the first one. -/
theorem deletions_exact_rewards : ∃ (s s' s'' : EncryptedStorage), s.Orders taggedCipher Wire.anyOrder rewardHistory ∧
    (deleteTransactionsAboveTopoheight taggedCipher Wire.anyOrder 4 s = .ok ⟨⟩ s' ∧
      Deletes taggedCipher Wire.anyOrder (4 < ·.topoheight) s s') ∧
    deleteTransactionsAtOrAboveTopoheight taggedCipher Wire.anyOrder 5 s = .ok ⟨⟩ s'' ∧
      Deletes taggedCipher Wire.anyOrder (5 ≤ ·.topoheight) s s'' := by
  obtain ⟨s, hkeeps⟩ := exists_rewardHistory
  have h := hkeeps.orders
  have hcuts : Cuts rewardHistory 5 := .inl ⟨_, List.mem_cons_self, rfl⟩
  obtain ⟨s', hs'⟩ := (deletions_exact_iff s rewardHistory h rewardHistory_sorted 4).1.mpr ⟨by decide, hcuts⟩
  obtain ⟨s'', hs''⟩ := (deletions_exact_iff s rewardHistory h rewardHistory_sorted 5).2.1.mpr hcuts
  exact ⟨s, s', s'', h, hs', hs''⟩

end Xelis.Wallet.EncryptedStorage
