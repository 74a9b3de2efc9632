import Xelis.Wallet.Search

namespace Xelis.Wallet.EncryptedStorage

open Lib (slice inRange inRange_iff slice_eq_filter_iff firstIn firstIn_eq_none firstIn_eq_some firstIn_skip)
open Lib.Codec (KeyOrder)
open Wire (DataValue)

variable {cipher : Cipher} {order : KeyOrder DataValue} {s : EncryptedStorage} {history : List (Hash × TransactionEntry)}
variable {min max : Option TopoHeight}

/-- The plain test for an entry. -/
def within (min max : Option TopoHeight) (entry : TransactionEntry) : Bool :=
  min.all (· ≤ entry.topoheight) && max.all (entry.topoheight ≤ ·)

/-- Some entry besides the last one is at the topoheight: the last one is never looked at. -/
def found (history : List (Hash × TransactionEntry)) (topoheight : TopoHeight) : Bool :=
  history.dropLast.any (·.2.topoheight == topoheight)

/-- A lower bound that is not above a topoheight, or that is not found. -/
def opens (history : List (Hash × TransactionEntry)) (min : Option TopoHeight) (topoheight : TopoHeight) : Bool :=
  min.all (fun m => !found history m || m ≤ topoheight)

/-- What the bounds leave: the lower one counts when it is found, the upper one when the topoheight behind it is. -/
def leaves (history : List (Hash × TransactionEntry)) (min max : Option TopoHeight) (entry : TransactionEntry) : Bool :=
  opens history min entry.topoheight &&
    max.all (fun m => !(found history (m + 1) && opens history min (m + 1)) || entry.topoheight ≤ m)

/-- What the bounds leave of a history, newest first. -/
def left (history : List (Hash × TransactionEntry)) (min max : Option TopoHeight) : List TransactionEntry :=
  ((history.map Prod.snd).filter (leaves history min max)).reverse

/-- The topoheight behind the upper bound is one, and no entry to show is left outside of the bounds. -/
def Bounded (history : List (Hash × TransactionEntry)) (min max : Option TopoHeight) : Prop :=
  (∀ m ∈ max, m + 1 < U64_RANGE) ∧
    ∀ e ∈ history, e.2.entry.Shown → leaves history min max e.2 = true → within min max e.2 = true

/-- Nothing is skipped that is not shown, unless nothing to show comes behind it. -/
def Skipped (entries : List TransactionEntry) (skip : Nat) : Prop :=
  (∀ entry ∈ entries.take skip, entry.entry.Shown) ∨ ∀ entry ∈ entries.drop skip, ¬entry.entry.Shown

def lowest (history : List (Hash × TransactionEntry)) (min : Option TopoHeight) : Option Nat :=
  min.bind fun m => firstIn (isAt history m) 0 (history.length - 1)

def behind (history : List (Hash × TransactionEntry)) (min max : Option TopoHeight) : Option Nat :=
  max.bind fun m => firstIn (isAt history (m + 1)) ((lowest history min).getD 0) (history.length - 1)

/-- The bounds are found as long as the topoheight behind the last one is one. -/
theorem Orders.bounds_exact (h : s.Orders cipher order history) (hsorted : Sorted history)
    (hnext : ∀ m ∈ max, m + 1 < U64_RANGE) (limit skip : Option Nat) :
    s.bounds cipher order (Filter.between min max limit skip) = .ok (lowest history min, behind history min max) := by
  unfold EncryptedStorage.bounds Filter.between
  cases min with
  | none =>
    cases max with
    | none => rfl
    | some m =>
      simp only [increment_ok (hnext m rfl), h.search_exact hsorted, bind, Except.bind]
      rfl
  | some lo =>
    cases max with
    | none =>
      simp only [h.search_exact hsorted, bind, Except.bind]
      rfl
    | some m =>
      simp only [increment_ok (hnext m rfl), h.search_exact hsorted, bind, Except.bind]
      rfl

theorem Orders.bounds_overflow (h : s.Orders cipher order history) (hsorted : Sorted history)
    {max : TopoHeight} (hover : ¬max + 1 < U64_RANGE) (limit skip : Option Nat) :
    s.bounds cipher order (Filter.between min (some max) limit skip) = .error .arithmeticOverflow := by
  have hincrement : increment max = .error .arithmeticOverflow := if_neg hover
  unfold EncryptedStorage.bounds Filter.between
  cases min with
  | none =>
    simp only [hincrement, bind, Except.bind]
  | some lo =>
    simp only [hincrement, h.search_exact hsorted, bind, Except.bind]

theorem found_eq (history : List (Hash × TransactionEntry)) (topoheight : TopoHeight) :
    found history topoheight = (firstIn (isAt history topoheight) 0 (history.length - 1)).isSome := by
  rw [Bool.eq_iff_iff, found_iff, found, List.any_eq_true]
  simp only [beq_iff_eq]

theorem lowest_le_iff (hsorted : Sorted history) (min : Option TopoHeight) {i : Nat} {e : Hash × TransactionEntry}
    (hi : history[i]? = some e) : (lowest history min).getD 0 ≤ i ↔ opens history min e.2.topoheight = true := by
  cases min with
  | none => exact iff_of_true (Nat.zero_le i) rfl
  | some lo =>
    rw [opens, Option.all_some, found_eq, lowest, Option.bind_some]
    cases hfirst : firstIn (isAt history lo) 0 (history.length - 1) with
    | none => exact iff_of_true (Nat.zero_le i) rfl
    | some k =>
      have hsplit : i < k ↔ e.2.topoheight < lo := splits_of_found hsorted hfirst i e hi
      simp only [Option.getD_some, Option.isSome_some, Bool.not_true, Bool.false_or, decide_eq_true_eq]
      rw [← Nat.not_lt, hsplit, Nat.not_lt]

/-- From the lower bound on the upper one is found where it is in the whole history, unless the lower one is above it. -/
theorem behind_eq (hsorted : Sorted history) (min : Option TopoHeight) (m : TopoHeight) :
    behind history min (some m) =
      if opens history min (m + 1) then firstIn (isAt history (m + 1)) 0 (history.length - 1) else none := by
  show firstIn (isAt history (m + 1)) ((lowest history min).getD 0) (history.length - 1) = _
  cases min with
  | none => rfl
  | some lo =>
    rw [opens, Option.all_some, found_eq, lowest, Option.bind_some]
    cases hfirst : firstIn (isAt history lo) 0 (history.length - 1) with
    | none => rfl
    | some k =>
      obtain ⟨hat, -, hk, -⟩ := firstIn_eq_some.mp hfirst
      obtain ⟨e, hget⟩ : ∃ e, history[k]? = some e := ⟨_, List.getElem?_eq_getElem (by omega)⟩
      rw [isAt_eq hget, beq_iff_eq] at hat
      simp only [Option.getD_some, Option.isSome_some, Bool.not_true, Bool.false_or, decide_eq_true_eq]
      by_cases hle : lo ≤ m + 1
      · rw [if_pos hle]
        exact (firstIn_skip (Nat.zero_le k) fun i _ hi => by
          cases hget : history[i]? with
          | none => exact isAt_of_none hget
          | some e =>
            rw [isAt_eq hget]
            exact beq_false_of_ne (Nat.ne_of_lt (Nat.lt_of_lt_of_le ((splits_of_found hsorted hfirst i e hget).mp hi) hle))).symm
      · rw [if_neg hle, firstIn_eq_none]
        exact fun i hki _ => hsorted.not_isAt_of_gt hget (hat ▸ Nat.lt_of_not_le hle) hki

/-- The positions that are listed are those of the entries that the bounds leave. -/
theorem inRange_eq (hsorted : Sorted history) {i : Nat} {e : Hash × TransactionEntry} (hi : history[i]? = some e) :
    inRange (lowest history min) (behind history min max) i = leaves history min max e.2 := by
  rw [Bool.eq_iff_iff, inRange_iff, lowest_le_iff hsorted min hi, leaves, Bool.and_eq_true]
  refine and_congr_right fun _ => ?_
  cases max with
  | none => exact iff_of_true (fun n hn => by cases hn) rfl
  | some m =>
    rw [behind_eq hsorted, Option.all_some, found_eq]
    by_cases hopens : opens history min (m + 1) = true
    · rw [if_pos hopens, hopens, Bool.and_true]
      cases hfirst : firstIn (isAt history (m + 1)) 0 (history.length - 1) with
      | none => exact iff_of_true (fun n hn => by cases hn) rfl
      | some k =>
        have hsplit : i < k ↔ e.2.topoheight < m + 1 := splits_of_found hsorted hfirst i e hi
        simp only [Option.mem_some_iff, forall_eq', Option.isSome_some, Bool.not_true, Bool.false_or, decide_eq_true_eq]
        rw [hsplit, Nat.lt_succ_iff]
    · rw [if_neg hopens, Bool.eq_false_of_not_eq_true hopens, Bool.and_false]
      exact iff_of_true (fun n hn => by cases hn) rfl

theorem slice_eq_left (hsorted : Sorted history) (min max : Option TopoHeight) :
    (slice (lowest history min) (behind history min max) history).reverse.map Prod.snd = left history min max := by
  have hslice : (slice (lowest history min) (behind history min max) history).map Prod.snd =
      slice (lowest history min) (behind history min max) (history.map Prod.snd) := by
    cases behind history min max <;> simp [slice]
  rw [List.map_reverse, hslice, (slice_eq_filter_iff _ _ (leaves history min max) _).mpr ?_]
  · rfl
  · intro i entry hi
    rw [List.getElem?_map] at hi
    obtain ⟨e, he, rfl⟩ := Option.map_eq_some_iff.mp hi
    exact inRange_eq hsorted he

section Listings

/-- A part of a list: so many are skipped, and at most as many as the limit taken. -/
def part {α : Type} (limit skip : Option Nat) (l : List α) : List α :=
  limit.elim (l.drop (skip.getD 0)) ((l.drop (skip.getD 0)).take ·)

/-- What a limit lets through of the entries behind those skipped. With a limit of zero the first one is still looked at. -/
def limited : Option Nat → List TransactionEntry → List TransactionEntry
  | none, entries => entries.filter (·.entry.Shown)
  | some 0, entries => (entries.take 1).filter (·.entry.Shown)
  | some (n + 1), entries => (entries.filter (·.entry.Shown)).take (n + 1)

theorem Orders.listing_eq (h : s.Orders cipher order history) (hsorted : Sorted history)
    (hnext : ∀ m ∈ max, m + 1 < U64_RANGE) (limit skip : Option Nat) :
    s.getFilteredTransactions cipher order (Filter.between min max limit skip) =
      .ok (limited limit ((left history min max).drop (skip.getD 0))) := by
  have hsub : (slice (lowest history min) (behind history min max) history).reverse.drop (skip.getD 0) ⊆ history := fun e he =>
    List.mem_reverse.mp ((slice_sublist _ _ _).subset he)
  have hloads := h.loads hsub
  rw [List.map_drop (f := Prod.snd), slice_eq_left hsorted] at hloads
  unfold EncryptedStorage.getFilteredTransactions
  simp only [h.bounds_exact hsorted hnext, bind, Except.bind]
  rw [h.listing_keys]
  show s.collect cipher order (Filter.between min max limit skip)
    (((slice (lowest history min) (behind history min max) history).reverse.drop (skip.getD 0)).map Prod.fst) [] = _
  cases limit with
  | none => exact collect_between min max none skip hloads [] (by simp)
  | some n =>
    cases n with
    | zero => exact collect_between_zero min max skip hloads
    | succ n => exact collect_between min max (some (n + 1)) skip hloads [] (by simp)

variable {entries : List TransactionEntry}

theorem filter_drop_iff (skip : Nat) :
    (entries.drop skip).filter (·.entry.Shown) = (entries.filter (·.entry.Shown)).drop skip ↔ Skipped entries skip := by
  have hsplit : entries.filter (·.entry.Shown) =
      (entries.take skip).filter (·.entry.Shown) ++ (entries.drop skip).filter (·.entry.Shown) := by
    rw [← List.filter_append, List.take_append_drop]
  have hshown : ((entries.take skip).filter (·.entry.Shown)).length ≤ skip :=
    (List.length_filter_le _ _).trans (List.length_take_le _ _)
  constructor
  · intro heq
    have hlength := congrArg List.length heq
    rw [List.length_drop, hsplit, List.length_append] at hlength
    by_cases hempty : (entries.drop skip).filter (·.entry.Shown) = []
    · exact .inr (fun entry hentry => by simpa using List.filter_eq_nil_iff.mp hempty entry hentry)
    · have hpos := List.length_pos_iff.mpr hempty
      have htake : (entries.take skip).length ≤ skip := List.length_take_le _ _
      have hall : ((entries.take skip).filter (·.entry.Shown)).length = (entries.take skip).length := by
        have hle := List.length_filter_le (fun entry : TransactionEntry => decide entry.entry.Shown) (entries.take skip)
        omega
      exact .inl (fun entry hentry => by simpa using List.length_filter_eq_length_iff.mp hall entry hentry)
  · rintro (hall | hnone)
    · have htake : (entries.take skip).filter (·.entry.Shown) = entries.take skip :=
        List.filter_eq_self.mpr (fun entry hentry => decide_eq_true (hall entry hentry))
      rw [hsplit, htake]
      rcases Nat.le_total skip entries.length with hle | hle
      · rw [List.drop_left' (List.length_take_of_le hle)]
      · rw [List.drop_eq_nil_of_le hle, List.filter_nil, List.append_nil, List.drop_take_self]
    · have hdrop : (entries.drop skip).filter (·.entry.Shown) = [] :=
        List.filter_eq_nil_iff.mpr (fun entry hentry => by simpa using hnone entry hentry)
      rw [hsplit, hdrop, List.append_nil, List.drop_eq_nil_of_le hshown]

theorem filter_eq_filter_iff {p q : TransactionEntry → Bool} :
    entries.filter p = entries.filter q ↔ ∀ entry ∈ entries, p entry = q entry := by
  refine ⟨fun heq entry hentry => ?_, List.filter_congr⟩
  have hmem := congrArg (entry ∈ ·) heq
  rw [List.mem_filter, List.mem_filter, and_iff_right hentry, and_iff_right hentry, eq_iff_iff] at hmem
  exact Bool.eq_iff_iff.mpr hmem

theorem leaves_of_within {entry : TransactionEntry} (h : within min max entry = true) : leaves history min max entry = true := by
  rw [within, Bool.and_eq_true] at h
  rw [leaves, Bool.and_eq_true]
  refine ⟨?_, ?_⟩
  · cases min with
    | none => rfl
    | some lo => exact Bool.or_eq_true_iff.mpr (.inr h.1)
  · cases max with
    | none => rfl
    | some m => exact Bool.or_eq_true_iff.mpr (.inr h.2)

theorem limited_zero_iff : limited (some 0) entries = [] ↔ ∀ entry ∈ entries.head?, ¬entry.entry.Shown := by
  rw [limited]
  cases entries with
  | nil => simp
  | cons entry entries => simp

/-- A listing between two topoheights is the plain filter, and with a skip and a limit the part of it, exactly when the
bisections find the bounds, nothing is skipped that is not shown, and a limit of zero finds nothing to show first. -/
theorem listing_filters_iff (s : EncryptedStorage) (history : List (Hash × TransactionEntry)) (h : s.Orders cipher order history)
    (hsorted : Sorted history) (min max : Option TopoHeight) (limit skip : Option Nat) :
    ∃ whole, s.getTransactions cipher order = .ok whole ∧
      (s.getFilteredTransactions cipher order (Filter.between min max none none) = .ok (whole.filter (within min max)) ∧
        s.getFilteredTransactions cipher order (Filter.between min max none skip) =
          .ok (part none skip (whole.filter (within min max))) ∧
        s.getFilteredTransactions cipher order (Filter.between min max limit skip) =
          .ok (part limit skip (whole.filter (within min max))) ↔
      Bounded history min max ∧ Skipped (left history min max) (skip.getD 0) ∧
        (limit = some 0 → ∀ entry ∈ ((left history min max).drop (skip.getD 0)).head?, ¬entry.entry.Shown)) := by
  refine ⟨_, h.getTransactions, ?_⟩
  by_cases hnext : ∀ m ∈ max, m + 1 < U64_RANGE
  · have hwhole : (left history min max).filter (·.entry.Shown) =
        ((history.map Prod.snd).reverse.filter (·.entry.Shown)).filter (within min max) ↔ Bounded history min max := by
      rw [Bounded, and_iff_right hnext, left, List.filter_reverse, List.filter_reverse, List.filter_reverse, List.reverse_inj,
        List.filter_filter, List.filter_filter, filter_eq_filter_iff]
      constructor
      · intro hsame e he hshown hleaves
        have hboth := hsame e.2 (List.mem_map_of_mem he)
        rw [decide_eq_true hshown, hleaves, Bool.and_true, Bool.and_true] at hboth
        exact hboth.symm
      · intro hwithin entry hentry
        obtain ⟨e, he, rfl⟩ := List.mem_map.mp hentry
        by_cases hshown : e.2.entry.Shown
        · rw [decide_eq_true hshown, Bool.true_and, Bool.and_true, Bool.eq_iff_iff]
          exact ⟨hwithin e he hshown, leaves_of_within⟩
        · rw [decide_eq_false hshown, Bool.false_and, Bool.and_false]
    rw [h.listing_eq hsorted hnext, h.listing_eq hsorted hnext, h.listing_eq hsorted hnext, Except.ok.injEq, Except.ok.injEq,
      Except.ok.injEq, ← hwhole, ← filter_drop_iff]
    refine and_congr_right fun hall => ?_
    rw [← hall]
    refine and_congr_right fun hskip => ?_
    cases limit with
    | none => exact iff_of_true hskip nofun
    | some n =>
      cases n with
      | zero =>
        rw [part, Option.elim_some, List.take_zero, forall_prop_of_true rfl]
        exact limited_zero_iff
      | succ n => exact iff_of_true (congrArg (List.take (n + 1)) hskip) nofun
  · obtain ⟨m, hm, hover⟩ : ∃ m, max = some m ∧ ¬m + 1 < U64_RANGE := by simpa using hnext
    subst hm
    refine iff_of_false (fun hwhole => ?_) (fun hbounded => hover (hbounded.1.1 m rfl))
    have hfails := hwhole.1
    unfold EncryptedStorage.getFilteredTransactions at hfails
    simp only [h.bounds_overflow hsorted hover, bind, Except.bind] at hfails
    cases hfails

end Listings

/-- Both rewards are older than the topoheight six, and both are listed from there on. -/
theorem listing_shows_older : ∃ s : EncryptedStorage, s.Keeps taggedCipher Wire.anyOrder rewardHistory ∧ Sorted rewardHistory ∧
    ∃ whole, s.getTransactions taggedCipher Wire.anyOrder = .ok whole ∧
      s.getFilteredTransactions taggedCipher Wire.anyOrder (Filter.between (some 6) none none none) = .ok whole ∧
      whole.length = 2 ∧ whole.filter (within (some 6) none) = [] := by
  obtain ⟨s, h⟩ := exists_rewardHistory
  have hnext : ∀ m ∈ (none : Option TopoHeight), m + 1 < U64_RANGE := nofun
  exact ⟨s, h, rewardHistory_sorted, _, h.getTransactions, h.orders.listing_eq rewardHistory_sorted hnext none none, rfl, rfl⟩

/-- Both rewards are listed at their topoheight, and the older one on the second page of one entry. -/
theorem listing_filters_rewards : ∃ s : EncryptedStorage, s.Keeps taggedCipher Wire.anyOrder rewardHistory ∧
    s.getFilteredTransactions taggedCipher Wire.anyOrder (Filter.between (some 5) (some 5) none none) =
      .ok [rewardEntry 2, rewardEntry 1] ∧
    s.getFilteredTransactions taggedCipher Wire.anyOrder (Filter.between (some 5) (some 5) (some 1) (some 1)) =
      .ok [rewardEntry 1] := by
  obtain ⟨s, h⟩ := exists_rewardHistory
  obtain ⟨whole, hwhole, hiff⟩ :=
    listing_filters_iff s rewardHistory h.orders rewardHistory_sorted (some 5) (some 5) (some 1) (some 1)
  rw [h.getTransactions, Except.ok.injEq] at hwhole
  have hbounded : Bounded rewardHistory (some 5) (some 5) := by
    refine ⟨by decide, fun e he _ _ => ?_⟩
    rcases List.mem_cons.mp he with rfl | he
    · rfl
    · rw [List.mem_singleton.mp he]
      rfl
  have hskipped : ∀ entry ∈ (left rewardHistory (some 5) (some 5)).take 1, entry.entry.Shown := by
    intro entry hentry
    obtain rfl : entry = rewardEntry 2 := List.mem_singleton.mp hentry
    trivial
  obtain ⟨hall, -, hpart⟩ := hiff.mpr ⟨hbounded, .inl hskipped, nofun⟩
  rw [← hwhole] at hall hpart
  exact ⟨s, h, hall, hpart⟩

end Xelis.Wallet.EncryptedStorage
