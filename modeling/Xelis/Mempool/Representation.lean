import Mathlib.Data.List.Induction
import Xelis.Mempool.Mempool

namespace Xelis

open Lib (FiniteMap IndexSet Exec)
open State (MempoolState)

variable {lo hi a m k b n nonce : Nat}

theorem widenBounds_some (lo hi n : Nat) : widenBounds (some lo, some hi) n = (some (min n lo), some (max hi n)) := by
  have hlo : (if n < lo then some n else some lo) = some (min n lo) := by
    split <;> (congr 1; omega)
  have hhi : (if hi < n then some n else some hi) = some (max hi n) := by
    split <;> (congr 1; omega)
  exact Prod.ext hlo hhi

theorem foldl_widenBounds (l : List Nat) (hl : l ≠ []) :
    ∃ lo hi : Nat, l.foldl widenBounds (none, none) = (some lo, some hi) ∧ lo ∈ l ∧ hi ∈ l ∧ ∀ n ∈ l, lo ≤ n ∧ n ≤ hi := by
  -- the bounds are widened by the last element
  induction l using List.reverseRecOn with
  | nil => exact absurd rfl hl
  | append_singleton l n ih =>
    rw [List.foldl_concat]
    by_cases hempty : l = []
    · subst hempty
      exact ⟨n, n, rfl, by simp⟩
    · obtain ⟨lo, hi, hbounds, hlo, hhi, hall⟩ := ih hempty
      refine ⟨min n lo, max hi n, ?_, ?_, ?_, ?_⟩
      · rw [hbounds, widenBounds_some]
      · rcases Nat.le_total n lo with h | h
        · simp [Nat.min_eq_left h]
        · simp [Nat.min_eq_right h, hlo]
      · rcases Nat.le_total hi n with h | h
        · simp [Nat.max_eq_right h]
        · simp [Nat.max_eq_left h, hhi]
      · intro m hm
        rcases List.mem_append.mp hm with hm | hm
        · have := hall m hm
          omega
        · have := List.mem_singleton.mp hm
          omega

theorem foldl_widenBounds_eq {l : List Nat} (hlo : lo ∈ l) (hhi : hi ∈ l)
    (hall : ∀ n ∈ l, lo ≤ n ∧ n ≤ hi) : l.foldl widenBounds (none, none) = (some lo, some hi) := by
  obtain ⟨lo', hi', hbounds, hlo', hhi', hall'⟩ := foldl_widenBounds l (List.ne_nil_of_mem hlo)
  have heq : lo' = lo := Nat.le_antisymm (hall' lo hlo).1 (hall lo' hlo').1
  have heq' : hi' = hi := Nat.le_antisymm (hall hi' hhi').2 (hall' hi hhi).2
  rw [hbounds, heq, heq']

theorem filter_range'_le (ham : a ≤ m) (hm : m ≤ a + k) :
    (List.range' a k).filter (fun n => m ≤ n) = List.range' m (a + k - m) := by
  have hsplit : List.range' a k = List.range' a (m - a) ++ List.range' m (a + k - m) := by
    have h := List.range'_append_1 (s := a) (m := m - a) (n := a + k - m)
    rw [show a + (m - a) = m by omega, show m - a + (a + k - m) = k by omega] at h
    exact h.symm
  rw [hsplit, List.filter_append]
  have hbelow : (List.range' a (m - a)).filter (fun n => m ≤ n) = [] := by
    rw [List.filter_eq_nil_iff]
    intro n hn
    have := List.mem_range'_1.mp hn
    simp only [decide_eq_true_eq]
    omega
  have habove : (List.range' m (a + k - m)).filter (fun n => m ≤ n) = List.range' m (a + k - m) := by
    rw [List.filter_eq_self]
    intro n hn
    have := List.mem_range'_1.mp hn
    simp only [decide_eq_true_eq]
    omega
  rw [hbelow, habove, List.nil_append]

theorem filter_range'_ne_first (a k : Nat) :
    (List.range' a (k + 1)).filter (fun n => n != a) = List.range' (a + 1) k := by
  rw [List.range'_succ, List.filter_cons_of_neg (by simp), List.filter_eq_self]
  intro n hn
  have := List.mem_range'_1.mp hn
  simp only [bne_iff_ne]
  omega

theorem filter_range'_ne_last (a k : Nat) :
    (List.range' a (k + 1)).filter (fun n => n != a + k) = List.range' a k := by
  rw [List.range'_concat, List.filter_append, List.filter_singleton]
  have hsame : (List.range' a k).filter (fun n => n != a + k) = List.range' a k := by
    rw [List.filter_eq_self]
    intro n hn
    have := List.mem_range'_1.mp hn
    simp only [bne_iff_ne]
    omega
  simp [hsame]

theorem range'_without_end (hab : a ≤ b) (hn : n = a ∨ n = b)
    (hne : (List.range' a (b + 1 - a)).filter (fun m => m != n) ≠ []) :
    ∃ lo hi, lo ≤ hi ∧ (List.range' a (b + 1 - a)).filter (fun m => m != n) = List.range' lo (hi + 1 - lo) := by
  obtain ⟨k, rfl⟩ := Nat.exists_eq_add_of_le hab
  rw [show a + k + 1 - a = k + 1 by omega] at hne ⊢
  rcases hn with rfl | rfl
  · rw [filter_range'_ne_first] at hne ⊢
    have hk : k ≠ 0 := by
      rintro rfl
      exact hne rfl
    refine ⟨n + 1, n + k, by omega, ?_⟩
    rw [show n + k + 1 - (n + 1) = k by omega]
  · rw [filter_range'_ne_last] at hne ⊢
    have hk : k ≠ 0 := by
      rintro rfl
      exact hne rfl
    refine ⟨a, a + k - 1, by omega, ?_⟩
    rw [show a + k - 1 + 1 - a = k by omega]

theorem foldl_widenBounds_range' (h : lo ≤ hi) :
    (List.range' lo (hi + 1 - lo)).foldl widenBounds (none, none) = (some lo, some hi) := by
  refine foldl_widenBounds_eq ?_ ?_ fun n hn => ?_
  · exact List.mem_range'_1.mpr (by omega)
  · exact List.mem_range'_1.mpr (by omega)
  · have := List.mem_range'_1.mp hn
    omega

variable {hash hash' txHash : Hash} {hashes : List Hash}

namespace Mempool

variable {P : Type}

/-- The nonce of a pooled transaction. -/
def nonceOf (txs : FiniteMap Hash SortedTx) (hash : Hash) : Option Nonce := txs[hash]?.map (fun sorted => sorted.tx.nonce)

/-- A cache lists the transactions of its owner by nonce, without a gap between its bounds. -/
structure Lists (txs : FiniteMap Hash SortedTx) (key : PublicKey) (cache : AccountCache P) : Prop where
  mem_iff : ∀ hash, hash ∈ cache.txs.elems ↔ ∃ sorted, txs[hash]? = some sorted ∧ sorted.tx.source = key
  nonces : cache.txs.elems.map (nonceOf txs) = (List.range' cache.min (cache.max + 1 - cache.min)).map some
  min_le_max : cache.min ≤ cache.max

/-- Every cache lists the transactions of its owner, and every transaction has a cache. -/
structure Represented (txs : FiniteMap Hash SortedTx) (caches : PublicKey → Option (AccountCache P)) : Prop where
  lists : ∀ key cache, caches key = some cache → Lists txs key cache
  cached : ∀ (hash : Hash) (sorted : SortedTx), txs[hash]? = some sorted → (caches sorted.tx.source).isSome

section Lists

variable {txs txs' : FiniteMap Hash SortedTx} {key : PublicKey} {cache : AccountCache P}
variable {sorted : SortedTx}

theorem nonceOf_eq (h : txs[hash]? = some sorted) : nonceOf txs hash = some sorted.tx.nonce := by
  rw [nonceOf, h, Option.map_some]

theorem Lists.mem (h : Lists txs key cache) (hsorted : txs[hash]? = some sorted)
    (hsource : sorted.tx.source = key) : hash ∈ cache.txs.elems := (h.mem_iff hash).mpr ⟨sorted, hsorted, hsource⟩

theorem Lists.nonce_inj (h : Lists txs key cache) (hhash : hash ∈ cache.txs.elems)
    (hhash' : hash' ∈ cache.txs.elems) (heq : nonceOf txs hash = nonceOf txs hash') : hash = hash' := by
  have hnodup : (cache.txs.elems.map (nonceOf txs)).Nodup := by
    rw [h.nonces]
    exact List.Nodup.map (Option.some_injective Nonce) List.nodup_range'
  exact List.inj_on_of_nodup_map hnodup hhash hhash' heq

theorem Lists.hasTxWithSameNonce (h : Lists txs key cache) (hmin : cache.min ≤ n) (hmax : n ≤ cache.max) :
    ∃ hash sorted, cache.hasTxWithSameNonce n = some hash ∧ txs[hash]? = some sorted ∧ sorted.tx.source = key ∧
      sorted.tx.nonce = n := by
  have hlow : @LE.le Nat _ cache.min n := hmin
  have hhigh : @LE.le Nat _ n cache.max := hmax
  have hindex : (cache.txs.elems.map (nonceOf txs))[n - cache.min]? = some (some n) := by
    rw [h.nonces, List.getElem?_map, List.getElem?_range' (by omega)]
    rw [show @HAdd.hAdd Nat Nat Nat _ cache.min (1 * (n - cache.min)) = n by omega]
    rfl
  rw [List.getElem?_map] at hindex
  obtain ⟨hash, hget, hnonce⟩ := Option.map_eq_some_iff.mp hindex
  obtain ⟨sorted, hsorted, hsource⟩ := (h.mem_iff hash).mp (List.mem_of_getElem? hget)
  refine ⟨hash, sorted, ?_, hsorted, hsource, ?_⟩
  · have hne : cache.txs.isEmpty = false := by
      rw [IndexSet.isEmpty, List.isEmpty_eq_false_iff]
      exact List.ne_nil_of_mem (List.mem_of_getElem? hget)
    have hmod : (n - cache.min) % (cache.max + 1 - cache.min) = n - cache.min := Nat.mod_eq_of_lt (by omega)
    rw [AccountCache.hasTxWithSameNonce, hne, hmod, if_neg]
    · exact hget
    · simp only [Bool.or_false, Bool.or_eq_true, decide_eq_true_eq]
      exact not_or.mpr ⟨Nat.not_lt.mpr hmin, Nat.not_lt.mpr hmax⟩
  · rw [nonceOf_eq hsorted] at hnonce
    exact Option.some.inj hnonce

section Restrict

variable {p : Nat → Bool} {hashes : List Hash}

theorem Lists.filter_nonces (h : Lists txs key cache)
    (helems : hashes = cache.txs.elems.filter (fun hash => (nonceOf txs hash).any p)) :
    hashes.map (nonceOf txs) = ((List.range' cache.min (cache.max + 1 - cache.min)).filter p).map some := by
  have hfilter : hashes.map (nonceOf txs) = (cache.txs.elems.map (nonceOf txs)).filter (fun n => n.any p) := by
    rw [helems, List.filter_map]
    rfl
  rw [hfilter, h.nonces, List.filter_map]
  rfl

theorem Lists.restrict_nonces (h : Lists txs key cache)
    (helems : hashes = cache.txs.elems.filter (fun hash => (nonceOf txs hash).any p))
    (htxs : ∀ (hash : Hash) (sorted : SortedTx), sorted.tx.source = key →
      (txs'[hash]? = some sorted ↔ txs[hash]? = some sorted ∧ p sorted.tx.nonce)) :
    hashes.map (nonceOf txs') = ((List.range' cache.min (cache.max + 1 - cache.min)).filter p).map some := by
  rw [← h.filter_nonces helems]
  refine List.map_congr_left fun hash hhash => ?_
  rw [helems] at hhash
  obtain ⟨hmem, hp⟩ := List.mem_filter.mp hhash
  obtain ⟨sorted, hsorted, hsource⟩ := (h.mem_iff hash).mp hmem
  rw [nonceOf_eq hsorted] at hp ⊢
  exact nonceOf_eq ((htxs hash sorted hsource).mpr ⟨hsorted, hp⟩)

/-- The transactions that stay are listed when their nonces are without a gap. -/
theorem Lists.restrict (h : Lists txs key cache) {cache' : AccountCache P}
    (helems : cache'.txs.elems = cache.txs.elems.filter (fun hash => (nonceOf txs hash).any p))
    (htxs : ∀ (hash : Hash) (sorted : SortedTx), sorted.tx.source = key →
      (txs'[hash]? = some sorted ↔ txs[hash]? = some sorted ∧ p sorted.tx.nonce))
    (hrange : (List.range' cache.min (cache.max + 1 - cache.min)).filter p =
      List.range' cache'.min (cache'.max + 1 - cache'.min))
    (hle : cache'.min ≤ cache'.max) : Lists txs' key cache' where
  mem_iff hash := by
    rw [helems, List.mem_filter, h.mem_iff]
    constructor
    · rintro ⟨⟨sorted, hsorted, hsource⟩, hp⟩
      rw [nonceOf_eq hsorted] at hp
      exact ⟨sorted, (htxs hash sorted hsource).mpr ⟨hsorted, hp⟩, hsource⟩
    · rintro ⟨sorted, hsorted', hsource⟩
      obtain ⟨hsorted, hp⟩ := (htxs hash sorted hsource).mp hsorted'
      refine ⟨⟨sorted, hsorted, hsource⟩, ?_⟩
      rw [nonceOf_eq hsorted]
      exact hp
  nonces := by
    rw [h.restrict_nonces helems htxs, hrange]
  min_le_max := hle

end Restrict

end Lists

section Replace

variable {txs txs' : FiniteMap Hash SortedTx} {caches : PublicKey → Option (AccountCache P)} {key : PublicKey}

/-- The transactions of other senders than `key` are the same. -/
def SameElsewhere (key : PublicKey) (txs txs' : FiniteMap Hash SortedTx) : Prop :=
  ∀ (hash : Hash) (sorted : SortedTx), sorted.tx.source ≠ key → (txs'[hash]? = some sorted ↔ txs[hash]? = some sorted)

theorem Lists.same {other : PublicKey} {cache : AccountCache P} (h : Lists txs other cache)
    (hsame : SameElsewhere key txs txs') (hne : other ≠ key) : Lists txs' other cache where
  mem_iff hash := by
    rw [h.mem_iff]
    refine exists_congr fun sorted => ?_
    constructor
    · rintro ⟨hsorted, rfl⟩
      exact ⟨(hsame hash sorted hne).mpr hsorted, rfl⟩
    · rintro ⟨hsorted, rfl⟩
      exact ⟨(hsame hash sorted hne).mp hsorted, rfl⟩
  nonces := by
    rw [← h.nonces]
    refine List.map_congr_left fun hash hhash => ?_
    obtain ⟨sorted, hsorted, rfl⟩ := (h.mem_iff hash).mp hhash
    rw [nonceOf, nonceOf, hsorted, (hsame hash sorted hne).mpr hsorted]
  min_le_max := h.min_le_max

theorem Represented.replace (h : Represented txs caches) (hsame : SameElsewhere key txs txs')
    (entry : Option (AccountCache P)) (hentry : ∀ cache, entry = some cache → Lists txs' key cache)
    (hnone : entry = none → ∀ (hash : Hash) (sorted : SortedTx), txs'[hash]? = some sorted → sorted.tx.source ≠ key) :
    Represented txs' (Function.update caches key entry) where
  lists other cache hcache := by
    by_cases hne : other = key
    · subst hne
      rw [Function.update_self] at hcache
      exact hentry cache hcache
    · rw [Function.update_of_ne hne] at hcache
      exact (h.lists other cache hcache).same hsame hne
  cached hash sorted hsorted := by
    by_cases hne : sorted.tx.source = key
    · rw [hne, Function.update_self]
      cases hcases : entry with
      | none => exact absurd hne (hnone hcases hash sorted hsorted)
      | some cache => rfl
    · rw [Function.update_of_ne hne]
      exact h.cached hash sorted ((hsame hash sorted hne).mp hsorted)

end Replace

def WellFormed (m : Mempool P) : Prop := Represented m.txs (fun key => m.caches[key]?)

theorem caches_insert (caches : FiniteMap PublicKey (AccountCache P)) (key : PublicKey) (cache : AccountCache P) :
    (fun k => (caches.insert key cache)[k]?) = Function.update (fun k => caches[k]?) key (some cache) := by
  funext k
  by_cases hk : k = key
  · subst hk
    rw [Function.update_self, FiniteMap.getElem?_insert_self']
  · rw [Function.update_of_ne hk, FiniteMap.getElem?_insert_of_ne _ _ (Ne.symm hk)]

theorem caches_erase (caches : FiniteMap PublicKey (AccountCache P)) (key : PublicKey) :
    (fun k => (caches.erase key)[k]?) = Function.update (fun k => caches[k]?) key none := by
  funext k
  by_cases hk : k = key
  · subst hk
    rw [Function.update_self, FiniteMap.getElem?_erase_self']
  · rw [Function.update_of_ne hk, FiniteMap.getElem?_erase_of_ne _ (Ne.symm hk)]

theorem wellFormed_new (mainnet : Bool) : WellFormed (new mainnet : Mempool P) where
  lists key cache h := by
    rw [new, Std.ExtTreeMap.getElem?_empty] at h
    exact nomatch h
  cached hash sorted h := by
    rw [new, Std.ExtTreeMap.getElem?_empty] at h
    exact nomatch h

section Adding

variable {txs : FiniteMap Hash SortedTx} {hash : Hash} {sorted : SortedTx} {cache : AccountCache P}

theorem sameElsewhere_insert (hnew : txs[hash]? = none) :
    SameElsewhere sorted.tx.source txs (txs.insert hash sorted) := by
  intro hash' sorted' hne
  by_cases hhash : hash = hash'
  · subst hhash
    rw [FiniteMap.getElem?_insert_self', hnew]
    constructor
    · intro h
      cases h
      exact absurd rfl hne
    · exact nofun
  · rw [FiniteMap.getElem?_insert_of_ne _ _ hhash]

variable {cache' : AccountCache P}

/-- A transaction with the next nonce goes to the end of the cache of its sender. -/
theorem Lists.append (h : Lists txs sorted.tx.source cache) (hnew : txs[hash]? = none)
    (hnext : sorted.tx.nonce = cache.max + 1)
    (helems : cache'.txs.elems = cache.txs.elems ++ [hash]) (hmin : cache'.min = cache.min)
    (hmax : cache'.max = cache.max + 1) : Lists (txs.insert hash sorted) sorted.tx.source cache' where
  mem_iff hash' := by
    rw [helems, List.mem_append, List.mem_singleton, h.mem_iff]
    by_cases hhash : hash = hash'
    · subst hhash
      rw [FiniteMap.getElem?_insert_self']
      exact ⟨fun _ => ⟨sorted, rfl, rfl⟩, fun _ => .inr rfl⟩
    · rw [FiniteMap.getElem?_insert_of_ne _ _ hhash]
      exact ⟨fun h' => h'.resolve_right (Ne.symm hhash), .inl⟩
  nonces := by
    have hold : cache.txs.elems.map (nonceOf (txs.insert hash sorted)) = cache.txs.elems.map (nonceOf txs) := by
      refine List.map_congr_left fun hash' hhash' => ?_
      have hne : hash ≠ hash' := by
        rintro rfl
        obtain ⟨sorted', hsorted', -⟩ := (h.mem_iff hash).mp hhash'
        rw [hnew] at hsorted'
        exact nomatch hsorted'
      rw [nonceOf, nonceOf, FiniteMap.getElem?_insert_of_ne _ _ hne]
    have hlast : nonceOf (txs.insert hash sorted) hash = some (cache.max + 1) := by
      rw [nonceOf_eq (FiniteMap.getElem?_insert_self' txs hash sorted), hnext]
    have hle : @LE.le Nat _ cache.min cache.max := h.min_le_max
    have hcount : @HSub.hSub Nat Nat Nat _ (cache.max + 1 + 1) cache.min = cache.max + 1 - cache.min + 1 := by omega
    have hend : @HAdd.hAdd Nat Nat Nat _ cache.min (1 * (cache.max + 1 - cache.min)) = cache.max + 1 := by omega
    rw [helems, hmin, hmax, List.map_append, hold, h.nonces, hcount, List.range'_concat, List.map_append, hend,
      List.map_singleton, List.map_singleton, hlast]
  min_le_max := by
    rw [hmin, hmax]
    exact Nat.le_succ_of_le h.min_le_max

/-- The first transaction of a sender gets a cache of its own. -/
theorem Lists.single (hnone : ∀ (hash : Hash) (other : SortedTx), txs[hash]? = some other →
    other.tx.source ≠ sorted.tx.source) (helems : cache'.txs.elems = [hash])
    (hmin : cache'.min = sorted.tx.nonce) (hmax : cache'.max = sorted.tx.nonce) :
    Lists (txs.insert hash sorted) sorted.tx.source cache' where
  mem_iff hash' := by
    rw [helems, List.mem_singleton]
    constructor
    · rintro rfl
      exact ⟨sorted, FiniteMap.getElem?_insert_self' txs _ sorted, rfl⟩
    · rintro ⟨other, hother, hsource⟩
      by_contra hne
      rw [FiniteMap.getElem?_insert_of_ne _ _ (Ne.symm hne)] at hother
      exact hnone hash' other hother hsource
  nonces := by
    have hcount : @HSub.hSub Nat Nat Nat _ (sorted.tx.nonce + 1) sorted.tx.nonce = 1 := by omega
    rw [helems, hmin, hmax, List.map_singleton, nonceOf_eq (FiniteMap.getElem?_insert_self' txs hash sorted), hcount]
    rfl
  min_le_max := by
    rw [hmin, hmax]

theorem insertVerified_wellFormed {m : Mempool P} (h : m.WellFormed) (hnew : m.txs[hash]? = none)
    (hnext : ∀ cache, m.caches[sorted.tx.source]? = some cache → sorted.tx.nonce = cache.max + 1)
    (balances : FiniteMap Hash (Ciphertext P)) (multisig : Option MultiSigPayload) :
    (m.insertVerified hash sorted balances multisig).WellFormed := by
  unfold insertVerified
  cases hcache : m.caches[sorted.tx.source]? with
  | none =>
    show Represented _ _
    dsimp only
    rw [caches_insert]
    refine h.replace (sameElsewhere_insert hnew) _ ?_ nofun
    intro cache' hcache'
    cases hcache'
    refine Lists.single (fun hash' other hother hsource => ?_) rfl rfl rfl
    have hsome := h.cached hash' other hother
    rw [hsource, hcache] at hsome
    exact nomatch hsome
  | some cache =>
    have hlists : Lists m.txs sorted.tx.source cache := h.lists _ cache hcache
    have hnonce : sorted.tx.nonce = cache.max + 1 := hnext cache hcache
    have hfresh : hash ∉ cache.txs.elems := by
      intro hmem
      obtain ⟨other, hother, -⟩ := (hlists.mem_iff hash).mp hmem
      rw [hnew] at hother
      exact nomatch hother
    -- the next nonce is above the range: nothing is replaced
    have hout : (decide (cache.min ≤ sorted.tx.nonce) && decide (sorted.tx.nonce ≤ cache.max)) = false := by
      have habove : decide (sorted.tx.nonce ≤ cache.max) = false := by
        rw [hnonce]
        exact decide_eq_false (Nat.not_succ_le_self cache.max)
      rw [habove, Bool.and_false]
    have hplace : m.placeInCache cache sorted.tx.nonce hash = (cache.update sorted.tx.nonce hash, m.txs) := by
      rw [placeInCache, hout]
      rfl
    have hbelow : ¬sorted.tx.nonce < cache.min := by
      rw [hnonce]
      exact Nat.not_lt.mpr (Nat.le_succ_of_le hlists.min_le_max)
    have hrange : cache.updateNonceRange sorted.tx.nonce = { cache with max := sorted.tx.nonce } := by
      rw [AccountCache.updateNonceRange, if_neg hbelow, if_pos]
      rw [hnonce]
      exact Nat.lt_succ_self cache.max
    dsimp only
    rw [hplace, AccountCache.update, hrange]
    show Represented _ _
    dsimp only
    rw [caches_insert]
    refine h.replace (sameElsewhere_insert hnew) _ ?_ nofun
    intro cache' hcache'
    cases hcache'
    exact hlists.append hnew hnonce (IndexSet.elems_insert_of_not_mem hfresh) rfl hnonce

end Adding

section Verified

variable [RistrettoPoint P]

theorem preVerify_expectedNonce {S ε : Type} [BlockchainVerificationState S P ε] {proofs : Proofs P} {tx : Transaction}
    {s s' : S} {r : Transcript P × List (P × CompressedPoint)} (h : tx.preVerify proofs txHash s = .ok r s') :
    ∃ s₁ s₂, BlockchainVerificationState.preVerifyTx tx s = .ok ⟨⟩ s₁ ∧
      BlockchainVerificationState.getAccountNonce tx.source s₁ = .ok tx.nonce s₂ := by
  unfold Transaction.preVerify at h
  obtain ⟨_, s₁, hversion, h⟩ := Exec.bind_ok_iff.mp h
  obtain ⟨_, s₂, hpre, h⟩ := Exec.bind_ok_iff.mp h
  obtain ⟨nonce, s₃, hnonce, h⟩ := Exec.bind_ok_iff.mp h
  obtain ⟨_, s₄, hexpected, -⟩ := Exec.bind_ok_iff.mp h
  obtain ⟨-, rfl⟩ := Transaction.require_ok_iff.mp hversion
  obtain ⟨hequal, -⟩ := Transaction.require_ok_iff.mp hexpected
  rw [beq_iff_eq] at hequal
  subst hequal
  exact ⟨s₂, s₃, Transaction.onState_ok_iff.mp hpre, Transaction.onState_ok_iff.mp hnonce⟩

variable {proofs : Proofs P} {m m' : Mempool P} {chain : ChainView P} {hash : Hash} {tx : Transaction} {size now : Nat}

/-- Behind the pending transactions of its sender, a transaction is accepted with the next nonce only. -/
theorem addTx_ok (h : m.addTx proofs chain hash tx size now = .ok m') :
    (∀ cache, m.caches[tx.source]? = some cache → tx.nonce = cache.max + 1) ∧
      ∃ balances multisig, m' = m.insertVerified hash { tx, firstSeen := now, size } balances multisig := by
  let _ := MempoolState.verificationState (P := P) proofs.txSize
  unfold addTx at h
  dsimp only at h
  split at h
  · cases h
  · rename_i state hverify
    refine ⟨fun cache hcache => ?_, ?_⟩
    · obtain ⟨prepared, s₁, hprepared, -⟩ := Exec.bind_ok_iff.mp hverify
      obtain ⟨s₂, s₃, hpre, hnonce⟩ := preVerify_expectedNonce hprepared
      -- checking the version, the fees and the reference leaves the state alone
      have hsame := MempoolState.preVerifyTx_ok hpre
      have hfound : MempoolState.internalGetAccountNonce tx.source s₂ = .ok tx.nonce s₃ := hnonce
      rw [hsame, MempoolState.internalGetAccountNonce_eq] at hfound
      split at hfound
      · rename_i account haccount
        injection hfound with hequal
        rw [← hequal]
        exact MempoolState.createSenderAccount_nonce hcache haccount
      · cases hfound
    · split at h
      · cases h
      · cases h
        exact ⟨_, _, rfl⟩

/-- The checks come before the verification; of their outcome only the last one matters. -/
theorem addTxToMempool_ok (h : m.addTxToMempoolWithStorageAndHash proofs chain tx hash now = .ok m') :
    m.txs[hash]? = none ∧ m.addTx proofs chain hash tx (proofs.txSize tx) now = .ok m' := by
  unfold addTxToMempoolWithStorageAndHash at h
  dsimp only [bind, Except.bind, throw, throwThe, MonadExceptOf.throw, pure, Except.pure] at h
  split at h
  · cases h
  split at h
  · cases h
  rename_i hnew
  have hnone : m.txs[hash]? = none := by
    rw [containsTx, Std.ExtTreeMap.contains_eq_isSome_getElem?] at hnew
    simpa using hnew
  refine ⟨hnone, ?_⟩
  split at h
  · cases h
  split at h
  · split at h
    · cases h
    · split at h
      · cases h
      · exact h
  · exact h

theorem addTxToMempool_wellFormed (h : m.WellFormed)
    (hadd : m.addTxToMempoolWithStorageAndHash proofs chain tx hash now = .ok m') : m'.WellFormed := by
  obtain ⟨hnew, hadd⟩ := addTxToMempool_ok hadd
  obtain ⟨hnext, balances, multisig, rfl⟩ := addTx_ok hadd
  exact insertVerified_wellFormed h hnew hnext balances multisig

end Verified

section Removing

variable {txs : FiniteMap Hash SortedTx} {key : PublicKey} {cache : AccountCache P} {hash : Hash} {sorted : SortedTx}

theorem boundsOf_eq (removed : Hash) {l : List Nonce} (h : hashes.map (nonceOf txs) = l.map some) :
    boundsOf removed txs hashes = .ok (l.foldl widenBounds (none, none)) := by
  unfold boundsOf
  generalize ((none, none) : Option Nonce × Option Nonce) = bounds
  induction hashes generalizing l bounds with
  | nil =>
    rw [List.map_nil] at h
    rw [List.map_eq_nil_iff.mp h.symm]
    rfl
  | cons txHash hashes ih =>
    cases l with
    | nil => cases h
    | cons n l =>
      rw [List.map_cons, List.map_cons, List.cons.injEq] at h
      obtain ⟨sorted, hsorted, hnonce⟩ := Option.map_eq_some_iff.mp h.1
      rw [List.foldlM_cons, hsorted, List.foldl_cons, ← hnonce]
      exact ih h.2 _

theorem sameElsewhere_erase (hsorted : txs[hash]? = some sorted) :
    SameElsewhere sorted.tx.source txs (txs.erase hash) := by
  intro hash' sorted' hne
  by_cases hhash : hash = hash'
  · subst hhash
    rw [FiniteMap.getElem?_erase_self', hsorted]
    constructor
    · exact nofun
    · intro h
      cases h
      exact absurd rfl hne
  · rw [FiniteMap.getElem?_erase_of_ne _ hhash]

/-- The pooled transactions of a sender without one of them are those with another nonce. -/
theorem Lists.erase_iff (h : Lists txs sorted.tx.source cache) (hsorted : txs[hash]? = some sorted) (hash' : Hash)
    (sorted' : SortedTx) (hsource : sorted'.tx.source = sorted.tx.source) :
    (txs.erase hash)[hash']? = some sorted' ↔
      txs[hash']? = some sorted' ∧ (sorted'.tx.nonce != sorted.tx.nonce) = true := by
  by_cases hhash : hash = hash'
  · subst hhash
    rw [FiniteMap.getElem?_erase_self', hsorted]
    constructor
    · exact nofun
    · rintro ⟨hsame, hne⟩
      cases hsame
      rw [bne_self_eq_false] at hne
      cases hne
  · rw [FiniteMap.getElem?_erase_of_ne _ hhash]
    refine ⟨fun hsorted' => ⟨hsorted', ?_⟩, And.left⟩
    rw [bne_iff_ne]
    intro heq
    refine hhash (h.nonce_inj (h.mem hsorted rfl) (h.mem hsorted' hsource) ?_)
    rw [nonceOf_eq hsorted, nonceOf_eq hsorted', heq]

theorem Lists.erase_elems (h : Lists txs sorted.tx.source cache) (hsorted : txs[hash]? = some sorted) :
    cache.txs.elems.erase hash =
      cache.txs.elems.filter (fun hash => (nonceOf txs hash).any (fun n => n != sorted.tx.nonce)) := by
  rw [cache.txs.nodup.erase_eq_filter]
  refine List.filter_congr fun hash' hhash' => ?_
  obtain ⟨sorted', hsorted', hsource'⟩ := (h.mem_iff hash').mp hhash'
  rw [nonceOf_eq hsorted']
  show (hash' != hash) = (sorted'.tx.nonce != sorted.tx.nonce)
  rw [Bool.eq_iff_iff, bne_iff_ne, bne_iff_ne]
  refine not_congr ⟨fun heq => ?_, fun heq => ?_⟩
  · subst heq
    rw [hsorted] at hsorted'
    cases hsorted'
    rfl
  · refine h.nonce_inj hhash' (h.mem hsorted rfl) ?_
    rw [nonceOf_eq hsorted, nonceOf_eq hsorted', heq]

/-- The cache of the sender once the transaction is taken out; it is dropped when nothing is left. -/
def cacheWithout (cache : AccountCache P) (hash : Hash) (nonce : Nat) : Option (AccountCache P) :=
  if (cache.txs.shiftRemove hash).isEmpty then none
  else some ({ cache with txs := cache.txs.shiftRemove hash }.setBounds
    (((List.range' cache.min (cache.max + 1 - cache.min)).filter (fun n => n != nonce)).foldl widenBounds (none, none)))

variable {m : Mempool P}

theorem removeTx_absent (hnone : m.txs[hash]? = none) : Exec.stateOf (removeTx hash m) = m := by
  simp only [removeTx, Exec.bind_apply, Exec.get_apply, hnone]
  rfl

theorem removeTx_present (hsorted : m.txs[hash]? = some sorted) (hcache : m.caches[sorted.tx.source]? = some cache)
    (hlists : Lists m.txs sorted.tx.source cache) :
    (Exec.stateOf (removeTx hash m)).txs = m.txs.erase hash ∧
      (fun key => (Exec.stateOf (removeTx hash m)).caches[key]?) =
        Function.update (fun key => m.caches[key]?) sorted.tx.source (cacheWithout cache hash sorted.tx.nonce) := by
  have hmem : hash ∈ cache.txs.elems := hlists.mem hsorted rfl
  have hbounds : boundsOf hash (m.txs.erase hash) (cache.txs.shiftRemove hash).elems =
      .ok (((List.range' cache.min (cache.max + 1 - cache.min)).filter (fun n => n != sorted.tx.nonce)).foldl
        widenBounds (none, none)) := by
    refine boundsOf_eq hash ?_
    exact hlists.restrict_nonces (hlists.erase_elems hsorted) (hlists.erase_iff hsorted)
  cases hempty : (cache.txs.shiftRemove hash).isEmpty with
  | true =>
    have hstate : Exec.stateOf (removeTx hash m) = { m with
        txs := m.txs.erase hash
        caches := (m.caches.insert sorted.tx.source { cache with txs := cache.txs.shiftRemove hash }).erase
          sorted.tx.source } := by
      simp only [removeTx, Exec.bind_apply, Exec.get_apply, Exec.set_apply, hsorted, hcache, if_pos hmem, hempty]
      rfl
    rw [hstate]
    refine ⟨rfl, ?_⟩
    rw [cacheWithout, if_pos hempty, caches_erase, caches_insert, Function.update_idem]
  | false =>
    have hstate : Exec.stateOf (removeTx hash m) = { m with
        txs := m.txs.erase hash
        caches := (m.caches.insert sorted.tx.source { cache with txs := cache.txs.shiftRemove hash }).insert
          sorted.tx.source ({ cache with txs := cache.txs.shiftRemove hash }.setBounds
            (((List.range' cache.min (cache.max + 1 - cache.min)).filter (fun n => n != sorted.tx.nonce)).foldl
              widenBounds (none, none))) } := by
      simp only [removeTx, Exec.bind_apply, Exec.get_apply, Exec.set_apply, hsorted, hcache, if_pos hmem, hempty,
        hbounds]
      rfl
    rw [hstate]
    refine ⟨rfl, ?_⟩
    rw [cacheWithout, hempty, caches_insert, caches_insert, Function.update_idem]
    rfl

/-- The transaction has the lowest or the highest nonce of its sender, or is not in the pool. -/
def AtAnEnd (m : Mempool P) (hash : Hash) : Prop :=
  ∀ sorted cache, m.txs[hash]? = some sorted → m.caches[sorted.tx.source]? = some cache →
    sorted.tx.nonce = cache.min ∨ sorted.tx.nonce = cache.max

theorem Lists.without_end (h : Lists txs sorted.tx.source cache) (hsorted : txs[hash]? = some sorted)
    (hend : sorted.tx.nonce = cache.min ∨ sorted.tx.nonce = cache.max) {cache' : AccountCache P}
    (hcache' : cacheWithout cache hash sorted.tx.nonce = some cache') :
    Lists (txs.erase hash) sorted.tx.source cache' := by
  unfold cacheWithout at hcache'
  split at hcache'
  · cases hcache'
  · rename_i hempty
    have hnonempty : (List.range' cache.min (cache.max + 1 - cache.min)).filter (fun n => n != sorted.tx.nonce) ≠ [] := by
      intro hnil
      have hnonces := h.restrict_nonces (h.erase_elems hsorted) (h.erase_iff hsorted)
      rw [hnil, List.map_nil, List.map_eq_nil_iff] at hnonces
      exact hempty (List.isEmpty_iff.mpr hnonces)
    obtain ⟨lo, hi, hle, hrange⟩ := range'_without_end h.min_le_max hend hnonempty
    rw [hrange, foldl_widenBounds_range' hle] at hcache'
    cases hcache'
    exact h.restrict (h.erase_elems hsorted) (h.erase_iff hsorted) hrange hle

/-- Within the range, the bounds stay and a nonce is missing. -/
theorem Lists.without_middle (h : Lists txs sorted.tx.source cache) (hsorted : txs[hash]? = some sorted)
    (hmin : sorted.tx.nonce ≠ cache.min) (hmax : sorted.tx.nonce ≠ cache.max) :
    ∃ cache', cacheWithout cache hash sorted.tx.nonce = some cache' ∧ ∀ txs', ¬Lists txs' sorted.tx.source cache' := by
  have hle : @LE.le Nat _ cache.min cache.max := h.min_le_max
  have hnonces := h.restrict_nonces (h.erase_elems hsorted) (h.erase_iff hsorted)
  have hfirst : cache.min ∈ (List.range' cache.min (cache.max + 1 - cache.min)).filter (fun n => n != sorted.tx.nonce) :=
    List.mem_filter.mpr ⟨List.mem_range'_1.mpr (by omega), bne_iff_ne.mpr (Ne.symm hmin)⟩
  have hlast : cache.max ∈ (List.range' cache.min (cache.max + 1 - cache.min)).filter (fun n => n != sorted.tx.nonce) :=
    List.mem_filter.mpr ⟨List.mem_range'_1.mpr (by omega), bne_iff_ne.mpr (Ne.symm hmax)⟩
  have hbounds : ((List.range' cache.min (cache.max + 1 - cache.min)).filter (fun n => n != sorted.tx.nonce)).foldl
      widenBounds (none, none) = (some cache.min, some cache.max) := by
    refine foldl_widenBounds_eq hfirst hlast fun n hn => ?_
    have := List.mem_range'_1.mp (List.mem_of_mem_filter hn)
    omega
  have hkept : (cache.txs.shiftRemove hash).isEmpty = false := by
    cases hempty : (cache.txs.shiftRemove hash).isEmpty with
    | false => rfl
    | true =>
      have hnil : cache.txs.elems.erase hash = [] := List.isEmpty_iff.mp hempty
      rw [hnil, List.map_nil] at hnonces
      rw [List.map_eq_nil_iff.mp hnonces.symm] at hfirst
      exact (List.not_mem_nil hfirst).elim
  refine ⟨{ cache with txs := cache.txs.shiftRemove hash }, ?_, fun txs' hlists => ?_⟩
  · rw [cacheWithout, hkept, hbounds]
    rfl
  · -- one transaction less than there are nonces in the range
    have hlength : (cache.txs.elems.erase hash).length = cache.max + 1 - cache.min := by
      have := congrArg List.length hlists.nonces
      rwa [List.length_map, List.length_map, List.length_range'] at this
    have hbefore : cache.txs.elems.length = cache.max + 1 - cache.min := by
      have := congrArg List.length h.nonces
      rwa [List.length_map, List.length_map, List.length_range'] at this
    rw [List.length_erase_of_mem (h.mem hsorted rfl), hbefore] at hlength
    have : @HSub.hSub Nat Nat Nat _ (cache.max + 1) cache.min ≠ 0 := by omega
    omega

theorem removeTx_wellFormed_iff (h : m.WellFormed) (hash : Hash) :
    (Exec.stateOf (removeTx hash m)).WellFormed ↔ m.AtAnEnd hash := by
  cases hsorted : m.txs[hash]? with
  | none =>
    rw [removeTx_absent hsorted]
    refine ⟨fun _ sorted cache hsorted' => ?_, fun _ => h⟩
    rw [hsorted] at hsorted'
    cases hsorted'
  | some sorted =>
    obtain ⟨cache, hcache⟩ := Option.isSome_iff_exists.mp (h.cached hash sorted hsorted)
    have hlists : Lists m.txs sorted.tx.source cache := h.lists _ cache hcache
    obtain ⟨htxs, hcaches⟩ := removeTx_present hsorted hcache hlists
    rw [WellFormed, htxs, hcaches]
    constructor
    · intro hafter sorted' cache' hsorted' hcache'
      rw [hsorted] at hsorted'
      cases hsorted'
      rw [show m.caches[sorted.tx.source]? = some cache from hcache] at hcache'
      cases hcache'
      by_contra hmiddle
      obtain ⟨hmin, hmax⟩ := not_or.mp hmiddle
      obtain ⟨left, hleft, hnot⟩ := hlists.without_middle hsorted hmin hmax
      refine hnot _ (hafter.lists sorted.tx.source left ?_)
      rw [Function.update_self, hleft]
    · intro hend
      refine h.replace (sameElsewhere_erase hsorted) _ (fun left hleft => ?_) (fun hnone hash' other hother hsource => ?_)
      · exact hlists.without_end hsorted (hend sorted cache hsorted hcache) hleft
      · obtain ⟨hpooled, hne⟩ := (hlists.erase_iff hsorted hash' other hsource).mp hother
        have hmem : hash' ∈ (cache.txs.shiftRemove hash).elems := by
          refine (List.mem_erase_of_ne ?_).mpr (hlists.mem hpooled hsource)
          rintro rfl
          rw [hsorted] at hpooled
          cases hpooled
          rw [bne_self_eq_false] at hne
          cases hne
        rw [cacheWithout] at hnone
        split at hnone
        · rename_i hempty
          rw [List.isEmpty_iff.mp hempty] at hmem
          exact (List.not_mem_nil hmem).elim
        · cases hnone

end Removing

section CleaningUp

variable {txs : FiniteMap Hash SortedTx} {key : PublicKey} {cache : AccountCache P} {m : Mempool P}

theorem deleteTxs_cons (hash : Hash) (hashes : List Hash) (run : Mempool P × List (Hash × SortedTx)) :
    ∃ deleted, deleteTxs (hash :: hashes) run = deleteTxs hashes ({ run.1 with txs := run.1.txs.erase hash }, deleted) := by
  unfold deleteTxs
  rw [List.foldl_cons]
  cases hsorted : run.1.txs[hash]? with
  | some sorted => exact ⟨_, rfl⟩
  | none =>
    have hsame : run.1.txs.erase hash = run.1.txs := by
      refine Std.ExtTreeMap.ext_getElem? fun hash' => ?_
      by_cases hhash : hash = hash'
      · subst hhash
        rw [FiniteMap.getElem?_erase_self', hsorted]
      · rw [FiniteMap.getElem?_erase_of_ne _ hhash]
    refine ⟨run.2, ?_⟩
    rw [hsame]

theorem deleteTxs_eq (hashes : List Hash) (run : Mempool P × List (Hash × SortedTx)) :
    (deleteTxs hashes run).1.caches = run.1.caches ∧
      ∀ hash : Hash, (deleteTxs hashes run).1.txs[hash]? = if hash ∈ hashes then none else run.1.txs[hash]? := by
  induction hashes generalizing run with
  | nil => exact ⟨rfl, fun hash => by rw [if_neg List.not_mem_nil]; rfl⟩
  | cons h hashes ih =>
    obtain ⟨deleted, heq⟩ := deleteTxs_cons h hashes run
    rw [heq]
    obtain ⟨hcaches, htxs⟩ := ih ({ run.1 with txs := run.1.txs.erase h }, deleted)
    refine ⟨hcaches, fun hash => ?_⟩
    rw [htxs hash]
    by_cases hmem : hash ∈ hashes
    · rw [if_pos hmem, if_pos (List.mem_cons_of_mem _ hmem)]
    · rw [if_neg hmem]
      by_cases hhash : h = hash
      · subst hhash
        rw [if_pos List.mem_cons_self, FiniteMap.getElem?_erase_self']
      · rw [if_neg (by simpa [hmem] using Ne.symm hhash), FiniteMap.getElem?_erase_of_ne _ hhash]

theorem isStillValid_eq (nonce : Nat) (hash : Hash) :
    isStillValid txs nonce hash = (nonceOf txs hash).any (fun n => decide (nonce ≤ n)) := by
  unfold isStillValid nonceOf
  cases txs[hash]? <;> rfl

theorem foldl_pooled {l : List Nonce} (h : hashes.map (nonceOf txs) = l.map some) :
    (hashes.filterMap (fun hash => txs[hash]?)).foldl (fun bounds sorted => widenBounds bounds sorted.tx.nonce) (none, none) =
      l.foldl widenBounds (none, none) := by
  have hmap : (hashes.filterMap (fun hash => txs[hash]?)).map (fun sorted => sorted.tx.nonce) = l := by
    have hnonces : hashes.filterMap (nonceOf txs) = l := by
      have := congrArg (List.filterMap id) h
      rwa [List.filterMap_map, List.filterMap_map, Function.id_comp, Function.id_comp, List.filterMap_some] at this
    rw [List.map_filterMap]
    exact hnonces
  rw [← hmap, List.foldl_map]

/-- The transactions of one sender that are named are gone; the others are the same. -/
theorem sameElsewhere_delete {txs' : FiniteMap Hash SortedTx} (h : Lists txs key cache)
    (hsub : ∀ hash ∈ hashes, hash ∈ cache.txs.elems)
    (htxs : ∀ hash : Hash, txs'[hash]? = if hash ∈ hashes then none else txs[hash]?) : SameElsewhere key txs txs' := by
  intro hash sorted hne
  rw [htxs hash]
  split
  · rename_i hmem
    obtain ⟨sorted', hsorted', hsource'⟩ := (h.mem_iff hash).mp (hsub hash hmem)
    refine ⟨nofun, fun hsorted => ?_⟩
    rw [hsorted] at hsorted'
    cases hsorted'
    exact absurd hsource' hne
  · exact Iff.rfl

theorem Lists.deleted_iff (h : Lists txs key cache) (hash : Hash) (sorted : SortedTx)
    (hsource : sorted.tx.source = key) :
    (if hash ∈ cache.txs.elems.filter (fun hash => !isStillValid txs nonce hash) then none else txs[hash]?) = some sorted ↔
      txs[hash]? = some sorted ∧ decide (nonce ≤ sorted.tx.nonce) = true := by
  have hvalid (hsorted : txs[hash]? = some sorted) : isStillValid txs nonce hash = decide (nonce ≤ sorted.tx.nonce) := by
    rw [isStillValid_eq, nonceOf_eq hsorted]
    rfl
  split
  · rename_i hmem
    refine ⟨nofun, fun ⟨hsorted, hnonce⟩ => ?_⟩
    have hinvalid := (List.mem_filter.mp hmem).2
    rw [hvalid hsorted, hnonce] at hinvalid
    cases hinvalid
  · rename_i hmem
    refine ⟨fun hsorted => ⟨hsorted, ?_⟩, And.left⟩
    rw [← hvalid hsorted]
    by_contra hinvalid
    refine hmem (List.mem_filter.mpr ⟨h.mem hsorted hsource, ?_⟩)
    rw [Bool.eq_false_iff.mpr hinvalid]
    rfl

theorem retainValid_spec (h : Lists txs key cache) (hmin : cache.min ≤ nonce)
    (hkept : (retainValid txs cache nonce).txs.isEmpty = false) :
    nonce ≤ cache.max ∧ (retainValid txs cache nonce).min = nonce ∧ (retainValid txs cache nonce).max = cache.max ∧
      (retainValid txs cache nonce).txs.elems =
        cache.txs.elems.filter (fun hash => (nonceOf txs hash).any (fun n => decide (nonce ≤ n))) := by
  have hvalid : cache.txs.elems.filter (isStillValid txs nonce) =
      cache.txs.elems.filter (fun hash => (nonceOf txs hash).any (fun n => decide (nonce ≤ n))) :=
    List.filter_congr fun hash _ => isStillValid_eq nonce hash
  have hnonces := h.filter_nonces hvalid
  have helems : (retainValid txs cache nonce).txs.elems = cache.txs.elems.filter (isStillValid txs nonce) := by
    rw [retainValid, AccountCache.setBounds_txs]
    rfl
  have hlow : @LE.le Nat _ cache.min nonce := hmin
  have hle : @LE.le Nat _ cache.min cache.max := h.min_le_max
  have hhigh : @LE.le Nat _ nonce cache.max := by
    by_contra hnot
    -- nothing is left when the chain is past the range
    have hnone : (List.range' cache.min (cache.max + 1 - cache.min)).filter (fun n => decide (nonce ≤ n)) = [] := by
      rw [List.filter_eq_nil_iff]
      intro n hn
      have := List.mem_range'_1.mp hn
      simp only [decide_eq_true_eq]
      omega
    rw [hnone, List.map_nil, List.map_eq_nil_iff] at hnonces
    rw [IndexSet.isEmpty, helems, hnonces] at hkept
    cases hkept
  have hbounds := foldl_pooled hnonces
  rw [filter_range'_le hlow (by omega), show @HAdd.hAdd Nat Nat Nat _ cache.min (cache.max + 1 - cache.min) =
    cache.max + 1 by omega, foldl_widenBounds_range' hhigh] at hbounds
  have hleft : retainValid txs cache nonce =
      { cache with txs := cache.txs.retain (isStillValid txs nonce), min := nonce, max := cache.max } := by
    unfold retainValid
    dsimp only [IndexSet.retain]
    rw [hbounds]
    rfl
  refine ⟨hhigh, ?_, ?_, helems.trans hvalid⟩ <;> rw [hleft]

variable [RistrettoPoint P] {proofs : Proofs P} {chain : ChainView P}

/-- Verifying the rest again changes the balances and the multisig only. -/
theorem revalidate_eq_some {left : AccountCache P} (hleft : revalidate proofs m chain key cache nonce = some left) :
    (retainValid m.txs cache nonce).txs.isEmpty = false ∧ left.min = (retainValid m.txs cache nonce).min ∧
      left.max = (retainValid m.txs cache nonce).max ∧ left.txs = (retainValid m.txs cache nonce).txs := by
  unfold revalidate at hleft
  dsimp only [bind, pure] at hleft
  split at hleft
  · cases hleft
  · rename_i hkept
    refine ⟨Bool.eq_false_iff.mpr hkept, ?_⟩
    obtain ⟨txs, -, hleft⟩ := Option.bind_eq_some_iff.mp hleft
    split at hleft
    · cases hleft
      exact ⟨rfl, rfl, rfl⟩
    · split at hleft
      · cases hleft
      · split at hleft
        · cases hleft
          exact ⟨rfl, rfl, rfl⟩
        · cases hleft
          exact ⟨rfl, rfl, rfl⟩

variable {caches : PublicKey → Option (AccountCache P)} {run : Mempool P × List (Hash × SortedTx)}

/-- One sender is cleaned up: its transactions and its cache change together, the others are left alone. -/
theorem cleanUpAccount_represented (proofs : Proofs P) (chain : ChainView P)
    (h : Represented run.1.txs caches) (hcache : caches key = some cache) (hnone : run.1.caches[key]? = none) :
    ∃ entry, Represented (cleanUpAccount proofs chain run (key, cache)).1.txs (Function.update caches key entry) ∧
      (fun k => (cleanUpAccount proofs chain run (key, cache)).1.caches[k]?) =
        Function.update (fun k => run.1.caches[k]?) key entry := by
  have hlists : Lists run.1.txs key cache := h.lists key cache hcache
  -- all the transactions of the sender go
  have hdrop : Represented (deleteTxs cache.txs.elems run).1.txs (Function.update caches key none) ∧
      (fun k => (deleteTxs cache.txs.elems run).1.caches[k]?) = Function.update (fun k => run.1.caches[k]?) key none := by
    obtain ⟨hcaches, htxs⟩ := deleteTxs_eq cache.txs.elems run
    refine ⟨h.replace (sameElsewhere_delete hlists (fun _ => id) htxs) none nofun fun _ hash sorted hsorted hsource => ?_, ?_⟩
    · rw [htxs hash] at hsorted
      split at hsorted
      · cases hsorted
      · rename_i hmem
        exact hmem (hlists.mem hsorted hsource)
    · rw [hcaches, ← hnone, Function.update_eq_self]
  unfold cleanUpAccount
  dsimp only
  split
  · exact ⟨none, hdrop⟩
  · rename_i version _
    split
    · exact ⟨none, hdrop⟩
    · rename_i hmin
      split
      · exact ⟨none, hdrop⟩
      · rename_i left hleft
        obtain ⟨hkept, hlo, hhi, helems⟩ := revalidate_eq_some hleft
        obtain ⟨hhigh, hlo', hhi', helems'⟩ := retainValid_spec hlists (Nat.le_of_not_lt hmin) hkept
        obtain ⟨hcaches, htxs⟩ :=
          deleteTxs_eq (cache.txs.elems.filter (fun hash => !isStillValid run.1.txs version.nonce hash)) run
        refine ⟨some left, h.replace (sameElsewhere_delete hlists (fun _ => List.mem_of_mem_filter) htxs) (some left)
          (fun left' hleft' => ?_) nofun, ?_⟩
        · cases hleft'
          refine hlists.restrict (p := fun n => decide (version.nonce ≤ n)) ?_ ?_ ?_ ?_
          · rw [helems]
            exact helems'
          · intro hash sorted hsource
            rw [htxs hash]
            exact hlists.deleted_iff hash sorted hsource
          · have hlow : @LE.le Nat _ cache.min version.nonce := Nat.le_of_not_lt hmin
            have hle : @LE.le Nat _ version.nonce cache.max := hhigh
            rw [hlo, hhi, hlo', hhi', filter_range'_le hlow (by omega)]
            rw [show @HAdd.hAdd Nat Nat Nat _ cache.min (cache.max + 1 - cache.min) = cache.max + 1 by omega]
          · rw [hlo, hhi, hlo', hhi']
            exact hhigh
        · dsimp only
          rw [caches_insert, hcaches]

theorem foldl_cleanUpAccount (l : List (PublicKey × AccountCache P)) (hkeys : l.Pairwise (fun a b => a.1 ≠ b.1))
    (h : Represented run.1.txs caches) (hleft : ∀ e ∈ l, caches e.1 = some e.2 ∧ run.1.caches[e.1]? = none)
    (hdone : ∀ key, (∀ e ∈ l, key ≠ e.1) → caches key = run.1.caches[key]?) :
    (l.foldl (cleanUpAccount proofs chain) run).1.WellFormed := by
  induction l generalizing caches run with
  | nil =>
    have hcaches : caches = fun key => run.1.caches[key]? := funext fun key => hdone key (fun e he => nomatch he)
    rw [hcaches] at h
    exact h
  | cons e l ih =>
    obtain ⟨he, hl⟩ := List.pairwise_cons.mp hkeys
    obtain ⟨hcache, hnone⟩ := hleft e List.mem_cons_self
    obtain ⟨entry, hrepresented, hcaches⟩ := cleanUpAccount_represented proofs chain h hcache hnone
    rw [List.foldl_cons]
    refine ih hl hrepresented (fun e' he' => ?_) (fun key hkey => ?_)
    · rw [Function.update_of_ne (Ne.symm (he e' he')), congrFun hcaches e'.1, Function.update_of_ne (Ne.symm (he e' he'))]
      exact hleft e' (List.mem_cons_of_mem _ he')
    · rw [congrFun hcaches key]
      by_cases hsame : key = e.1
      · rw [hsame, Function.update_self, Function.update_self]
      · rw [Function.update_of_ne hsame, Function.update_of_ne hsame]
        exact hdone key (List.forall_mem_cons.mpr ⟨hsame, hkey⟩)

theorem cleanUp_wellFormed (h : m.WellFormed) : (m.cleanUp proofs chain).1.WellFormed := by
  refine foldl_cleanUpAccount m.caches.toList (FiniteMap.toList_keys_distinct m.caches) h (fun e he => ⟨?_, ?_⟩)
    (fun key hkey => ?_)
  · exact Std.ExtTreeMap.mem_toList_iff_getElem?_eq_some.mp he
  · exact Std.ExtTreeMap.getElem?_empty
  · dsimp only
    rw [Std.ExtTreeMap.getElem?_empty]
    cases hcache : m.caches[key]? with
    | none => rfl
    | some cache => exact absurd rfl (hkey (key, cache) (Std.ExtTreeMap.mem_toList_iff_getElem?_eq_some.mpr hcache))

end CleaningUp

end Mempool

end Xelis
