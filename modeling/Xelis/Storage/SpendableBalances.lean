import Xelis.Storage.AccountSearch
import Xelis.Wire.Account

namespace Xelis.Storage

open Lib (History)

/-- A version of a balance as it is sent: with its topoheight, without its link. -/
structure Balance (P : Type) where
  topoheight : TopoHeight
  outputBalance : Option (Ciphertext P)
  finalBalance : Ciphertext P
  balanceType : BalanceType

variable {P : Type}

def asBalance (topoheight : TopoHeight) (v : VersionedBalance P) : Balance P :=
  ⟨topoheight, v.outputBalance, v.finalBalance, v.balanceType⟩

section Definitions

variable (s : Storage P) (key : PublicKey) (asset : Hash) (minTopoheight : TopoHeight)

/-- Walking back to the last version that spent something. -/
def searchOutputTopoheight : Nat → Option TopoHeight → Except BlockchainError (Option TopoHeight)
  | 0, _ => .error .endlessChain
  | _ + 1, none => .ok none
  | fuel + 1, some topo => do
    let version ← s.getBalanceAtExactTopoheight key asset topo
    if version.containsOutput then return some topo
    searchOutputTopoheight fuel version.previousTopoheight

/-- Where the last version and its last spending are; a spending in the version itself is not named. -/
def getAccountSummaryFor (maxTopoheight : TopoHeight) : Except BlockchainError (Option Wire.AccountSummary) := do
  match ← s.getBalanceAtMaximumTopoheight key asset maxTopoheight with
  | none => return none
  | some (topo, version) =>
    if topo < minTopoheight then return none
    if version.containsOutput then return some { outputTopoheight := none, stableTopoheight := topo }
    let outputTopoheight ← s.searchOutputTopoheight key asset (s.balances.fuel topo) version.previousTopoheight
    return some { outputTopoheight, stableTopoheight := topo }

/-- The loop of one page, whose condition takes the next topoheight before it tests the bounds. -/
def collectSpendable (limit : Nat) : Nat → Option TopoHeight → List (Balance P) →
    Except BlockchainError (List (Balance P) × Option TopoHeight)
  | 0, _, _ => .error .endlessChain
  | turns + 1, fetchTopoheight, balances =>
    match fetchTopoheight.filter (fun t => minTopoheight ≤ t ∧ balances.length < limit) with
    | none => .ok (balances, none)
    | some topo => do
      let version ← s.getBalanceAtExactTopoheight key asset topo
      let balances := balances ++ [asBalance topo version]
      if version.containsOutput then return (balances, none)
      collectSpendable limit turns version.previousTopoheight balances

/-- A page of balances from a topoheight down, and where the next one starts. -/
def getSpendableBalancesFor (maxTopoheight : TopoHeight) : Except BlockchainError (List (Balance P) × Option TopoHeight) :=
  s.collectSpendable key asset minTopoheight DEFAULT_MAX_ITEMS (DEFAULT_MAX_ITEMS + 1) (some maxTopoheight) []

/-- Asking for page after page until there is no next one. -/
def readSpendableBalances : Nat → Option TopoHeight → List (Balance P) → Except BlockchainError (List (Balance P))
  | 0, _, _ => .error .endlessChain
  | _ + 1, none, balances => .ok balances
  | turns + 1, some max, balances => do
    let (page, maxNext) ← s.getSpendableBalancesFor key asset minTopoheight max
    readSpendableBalances turns maxNext (balances ++ page)

end Definitions

section Spendable

variable {h : History (VersionedBalance P)} {lo hi u : TopoHeight} {v : VersionedBalance P}
  {all : List (TopoHeight × VersionedBalance P)}

/-- The versions of a range that no spending lies above, the newest one first. -/
structure Spendable (h : History (VersionedBalance P)) (lo hi : TopoHeight)
    (all : List (TopoHeight × VersionedBalance P)) : Prop where
  descending : all.Pairwise (fun a b => b.1 < a.1)
  mem_iff : ∀ u v, (u, v) ∈ all ↔ h.version u = some v ∧ lo ≤ u ∧ u ≤ hi ∧ NoOutput h (u + 1) hi

theorem Spendable.unique {all' : List (TopoHeight × VersionedBalance P)} (ha : Spendable h lo hi all)
    (ha' : Spendable h lo hi all') : all = all' := by
  have hnodup {l : List (TopoHeight × VersionedBalance P)} (hl : l.Pairwise (fun a b => b.1 < a.1)) : l.Nodup := by
    refine hl.imp ?_
    rintro a b hab rfl
    exact Nat.lt_irrefl _ hab
  have hmem (e : TopoHeight × VersionedBalance P) : e ∈ all ↔ e ∈ all' := (ha.mem_iff e.1 e.2).trans (ha'.mem_iff e.1 e.2).symm
  have hperm := (List.perm_ext_iff_of_nodup (hnodup ha.descending) (hnodup ha'.descending)).mpr hmem
  refine hperm.eq_of_pairwise (fun a b _ _ hab hba => ?_) ha.descending ha'.descending
  exact absurd hba (Nat.lt_asymm hab)

/-- Nothing is listed where the range starts above the topoheight. -/
theorem Spendable.nil (hlt : hi < lo) : Spendable h lo hi [] where
  descending := .nil
  mem_iff u v := by
    refine iff_of_false List.not_mem_nil ?_
    rintro ⟨-, hlo, hhi, -⟩
    exact absurd (Nat.le_trans hlo hhi) (Nat.not_le.mpr hlt)

theorem Spendable.single (hv : h.version hi = some v) (hle : lo ≤ hi) (hstop : v.containsOutput = true ∨ ∀ u, lo ≤ u → u < hi → h.version u = none) :
    Spendable h lo hi [(hi, v)] where
  descending := List.pairwise_singleton _ _
  mem_iff u v' := by
    rw [List.mem_singleton, Prod.mk.injEq]
    constructor
    · rintro ⟨rfl, rfl⟩
      exact ⟨hv, hle, Nat.le_refl u, fun w vw hw hwu _ => absurd hwu (Nat.not_le.mpr hw)⟩
    · rintro ⟨hu, hlo, hhi, hnone⟩
      rcases Nat.lt_or_eq_of_le hhi with hlt | rfl
      · rcases hstop with hout | hempty
        · exact absurd hout (Bool.eq_false_iff.mp (hnone hi v hlt (Nat.le_refl hi) hv))
        · rw [hempty u hlo hlt] at hu
          cases hu
      · exact ⟨rfl, Option.some.inj (hu.symm.trans hv)⟩

theorem Spendable.cons (hl : h.Linked VersionedBalance.previousTopoheight) {p : TopoHeight} (hv : h.version hi = some v)
    (hp : v.previousTopoheight = some p) (hle : lo ≤ hi) (hout : v.containsOutput = false) (hrest : Spendable h lo p all) :
    Spendable h lo hi ((hi, v) :: all) where
  descending := by
    refine List.pairwise_cons.mpr ⟨?_, hrest.descending⟩
    rintro ⟨u, vu⟩ hu
    exact Nat.lt_of_le_of_lt ((hrest.mem_iff u vu).mp hu).2.2.1 (hl.link_lt hv hp)
  mem_iff u v' := by
    have hpx := hl.link_lt hv hp
    rw [List.mem_cons, Prod.mk.injEq, hrest.mem_iff u v']
    constructor
    · rintro (⟨rfl, rfl⟩ | ⟨hu, hlo, hup, hnone⟩)
      · exact ⟨hv, hle, Nat.le_refl u, fun w vw hw hwu _ => absurd hwu (Nat.not_le.mpr hw)⟩
      · refine ⟨hu, hlo, Nat.le_trans hup (Nat.le_of_lt hpx), fun w vw hw hwhi hvw => ?_⟩
        rcases Nat.lt_or_eq_of_le hwhi with hlt | rfl
        · exact hnone w vw hw (hl.le_link hv hp (by rw [hvw]; rfl) hlt) hvw
        · rw [hv, Option.some.injEq] at hvw
          rw [← hvw]
          exact hout
    · rintro ⟨hu, hlo, hhi, hnone⟩
      rcases Nat.lt_or_eq_of_le hhi with hlt | rfl
      · exact .inr ⟨hu, hlo, hl.le_link hv hp (by rw [hu]; rfl) hlt, fun w vw hw hwp hvw =>
          hnone w vw hw (Nat.le_trans hwp (Nat.le_of_lt hpx)) hvw⟩
      · exact .inl ⟨rfl, Option.some.inj (hu.symm.trans hv)⟩

/-- The list goes on below its top exactly where nothing was spent there and there is something left. -/
theorem exists_spendable (hl : h.Linked VersionedBalance.previousTopoheight) (lo : TopoHeight) (hhi : (h.version hi).isSome) :
    ∃ all, Spendable h lo hi all := by
  induction hi using Nat.strongRecOn with
  | _ hi ih =>
    by_cases hlow : hi < lo
    · exact ⟨[], .nil hlow⟩
    · obtain ⟨v, hv⟩ := Option.isSome_iff_exists.mp hhi
      have hle := Nat.le_of_not_lt hlow
      cases hout : v.containsOutput with
      | true => exact ⟨_, .single hv hle (.inl hout)⟩
      | false =>
        cases hp : v.previousTopoheight with
        | none => exact ⟨_, .single hv hle (.inr fun u _ hu => hl.link_none hi v hv hp u hu)⟩
        | some p =>
          obtain ⟨all, hall⟩ := ih p (hl.link_lt hv hp) (hl.link_stored hv hp)
          exact ⟨_, .cons hl hv hp hle hout hall⟩

end Spendable

section Pages

variable {s : Storage P} {key : PublicKey} {asset : Hash} {lo hi : TopoHeight}
variable {limit turns : Nat} {balances : List (Balance P)}

/-- One turn of the loop takes a version off the top. -/
theorem collectSpendable_step (hknown : s.hasAsset asset = true)
    (hl : (s.balanceHistory key asset).Linked VersionedBalance.previousTopoheight) {v : VersionedBalance P}
    (hv : (s.balanceHistory key asset).version hi = some v) (hlo : lo ≤ hi) (hroom : balances.length < limit) :
    s.collectSpendable key asset lo limit (turns + 1) (some hi) balances =
      if v.containsOutput then .ok (balances ++ [asBalance hi v], none)
      else s.collectSpendable key asset lo limit turns v.previousTopoheight (balances ++ [asBalance hi v]) := by
  obtain ⟨l, hlast, -⟩ := hl.exists_last (u := hi) (by rw [hv]; rfl)
  have hread := getBalanceAtExactTopoheight_of_version hknown hlast hv
  have hfetch : (some hi).filter (fun t => decide (lo ≤ t ∧ balances.length < limit)) = some hi :=
    Option.filter_eq_some_iff.mpr ⟨rfl, decide_eq_true ⟨hlo, hroom⟩⟩
  rw [collectSpendable, hfetch]
  dsimp only [bind, Except.bind]
  rw [hread]
  rfl

/-- The loop ends where the range does, where the page is full and where the chain ends. -/
theorem collectSpendable_stop {fetchTopoheight : Option TopoHeight}
    (hstop : ∀ t, fetchTopoheight = some t → t < lo ∨ limit ≤ balances.length) :
    s.collectSpendable key asset lo limit (turns + 1) fetchTopoheight balances = .ok (balances, none) := by
  have hfetch : fetchTopoheight.filter (fun t => decide (lo ≤ t ∧ balances.length < limit)) = none := by
    refine Option.filter_eq_none_iff.mpr fun t ht => ?_
    rcases hstop t ht with hlt | hfull
    · simp [Nat.not_le.mpr hlt]
    · simp [Nat.not_lt.mpr hfull]
  rw [collectSpendable, hfetch]

/-- One page is the start of the list of the spendable versions, and it never names a next one. -/
theorem collectSpendable_eq (hknown : s.hasAsset asset = true)
    (hl : (s.balanceHistory key asset).Linked VersionedBalance.previousTopoheight)
    (hhi : ((s.balanceHistory key asset).version hi).isSome)
    (hroom : balances.length ≤ limit) (hturns : limit < balances.length + turns) :
    ∃ all, Spendable (s.balanceHistory key asset) lo hi all ∧
      s.collectSpendable key asset lo limit turns (some hi) balances =
        .ok (balances ++ (all.take (limit - balances.length)).map (fun e => asBalance e.1 e.2), none) := by
  induction hi using Nat.strongRecOn generalizing turns balances with
  | _ hi ih =>
    obtain ⟨turns, rfl⟩ : ∃ k, turns = k + 1 := ⟨turns - 1, by omega⟩
    by_cases hlow : hi < lo
    · refine ⟨[], .nil hlow, ?_⟩
      rw [collectSpendable_stop fun t ht => .inl (Option.some.inj ht ▸ hlow), List.take_nil, List.map_nil, List.append_nil]
    · have hle := Nat.le_of_not_lt hlow
      rcases Nat.lt_or_eq_of_le hroom with hlt | hfull
      · obtain ⟨v, hv⟩ := Option.isSome_iff_exists.mp hhi
        obtain ⟨left, hleft⟩ : ∃ k, limit - balances.length = k + 1 := ⟨limit - balances.length - 1, by omega⟩
        have hlength : (balances ++ [asBalance hi v]).length = balances.length + 1 := List.length_append
        have hone : (List.take (left + 1) [(hi, v)]).map (fun e => asBalance e.1 e.2) = [asBalance hi v] := by
          rw [List.take_succ_cons, List.take_nil]
          rfl
        rw [collectSpendable_step hknown hl hv hle hlt, hleft]
        cases hout : v.containsOutput with
        | true =>
          refine ⟨_, .single hv hle (.inl hout), ?_⟩
          rw [if_pos rfl, hone]
        | false =>
          rw [if_neg Bool.false_ne_true]
          obtain ⟨turns, rfl⟩ : ∃ k, turns = k + 1 := ⟨turns - 1, by omega⟩
          cases hp : v.previousTopoheight with
          | none =>
            refine ⟨_, .single hv hle (.inr fun u _ hu => hl.link_none hi v hv hp u hu), ?_⟩
            have hend (t : TopoHeight) (ht : (none : Option TopoHeight) = some t) :
                t < lo ∨ limit ≤ (balances ++ [asBalance hi v]).length := nomatch ht
            rw [collectSpendable_stop hend, hone]
          | some p =>
            have hmore : (balances ++ [asBalance hi v]).length ≤ limit := by omega
            have hturns' : limit < (balances ++ [asBalance hi v]).length + (turns + 1) := by omega
            obtain ⟨all, hall, hpage⟩ := ih p (hl.link_lt hv hp) (hl.link_stored hv hp) hmore hturns'
            have hrest : limit - (balances ++ [asBalance hi v]).length = left := by omega
            refine ⟨_, .cons hl hv hp hle hout hall, ?_⟩
            rw [hpage, hrest, List.append_assoc]
            rfl
      · obtain ⟨all, hall⟩ := exists_spendable hl lo hhi
        refine ⟨all, hall, ?_⟩
        rw [collectSpendable_stop fun t _ => .inr (Nat.le_of_eq hfull.symm), hfull, Nat.sub_self, List.take_zero, List.map_nil,
          List.append_nil]

theorem readSpendableBalances_eq (hknown : s.hasAsset asset = true)
    (hl : (s.balanceHistory key asset).Linked VersionedBalance.previousTopoheight)
    (hhi : ((s.balanceHistory key asset).version hi).isSome) (turns : Nat) :
    ∃ all, Spendable (s.balanceHistory key asset) lo hi all ∧
      s.readSpendableBalances key asset lo (turns + 2) (some hi) [] =
        .ok ((all.take DEFAULT_MAX_ITEMS).map fun e => asBalance e.1 e.2) := by
  have hroom : ([] : List (Balance P)).length ≤ DEFAULT_MAX_ITEMS := Nat.zero_le DEFAULT_MAX_ITEMS
  have hturns : DEFAULT_MAX_ITEMS < ([] : List (Balance P)).length + (DEFAULT_MAX_ITEMS + 1) := by
    rw [List.length_nil]
    omega
  obtain ⟨all, hall, hpage⟩ := collectSpendable_eq hknown hl hhi hroom hturns
  refine ⟨all, hall, ?_⟩
  have hfirst : s.getSpendableBalancesFor key asset lo hi =
      .ok ((all.take DEFAULT_MAX_ITEMS).map (fun e => asBalance e.1 e.2), none) := hpage
  rw [readSpendableBalances]
  dsimp only [bind, Except.bind]
  rw [hfirst]
  rfl

/-- The calls, one after the other, hand out every spendable version once, the newest one first. -/
def PagesComplete (s : Storage P) (key : PublicKey) (asset : Hash) (lo hi : TopoHeight) : Prop :=
  ∃ all, Spendable (s.balanceHistory key asset) lo hi all ∧
    ∃ turns, s.readSpendableBalances key asset lo turns (some hi) [] = .ok (all.map fun e => asBalance e.1 e.2)

def FitsOnePage (s : Storage P) (key : PublicKey) (asset : Hash) (lo hi : TopoHeight) : Prop :=
  ∃ all, Spendable (s.balanceHistory key asset) lo hi all ∧ all.length ≤ DEFAULT_MAX_ITEMS

theorem fitsOnePage_of_complete (hknown : s.hasAsset asset = true)
    (hl : (s.balanceHistory key asset).Linked VersionedBalance.previousTopoheight)
    (hhi : ((s.balanceHistory key asset).version hi).isSome) (h : s.PagesComplete key asset lo hi) :
    s.FitsOnePage key asset lo hi := by
  obtain ⟨all, hall, turns, hread⟩ := h
  have hturns : ∃ k, turns = k + 2 := by
    match turns, hread with
    | turns + 2, _ => exact ⟨turns, rfl⟩
    | 1, hread =>
      rw [readSpendableBalances] at hread
      dsimp only [bind, Except.bind] at hread
      cases hpage : s.getSpendableBalancesFor key asset lo hi with
      | error e =>
        rw [hpage] at hread
        cases hread
      | ok page =>
        rw [hpage] at hread
        cases hread
  obtain ⟨turns, rfl⟩ := hturns
  obtain ⟨all', hall', hread'⟩ := readSpendableBalances_eq hknown hl hhi turns
  rw [hread', hall'.unique hall] at hread
  have hlength := congrArg List.length (Except.ok.inj hread)
  rw [List.length_map, List.length_map, List.length_take] at hlength
  exact ⟨all, hall, hlength ▸ Nat.min_le_left _ _⟩

/-- The condition of the loop takes the pointer to the next page with it, so only one page is ever read. -/
theorem pagesComplete_iff (hknown : s.hasAsset asset = true)
    (hl : (s.balanceHistory key asset).Linked VersionedBalance.previousTopoheight)
    (hhi : ((s.balanceHistory key asset).version hi).isSome) (lo : TopoHeight) :
    s.PagesComplete key asset lo hi ↔ s.FitsOnePage key asset lo hi := by
  constructor
  · exact fitsOnePage_of_complete hknown hl hhi
  · rintro ⟨all, hall, hfits⟩
    obtain ⟨all', hall', hread⟩ := readSpendableBalances_eq hknown hl hhi 0
    rw [hall'.unique hall, List.take_of_length_le hfits] at hread
    exact ⟨all, hall, 2, hread⟩

end Pages

private def before : Nat → Option TopoHeight
  | 0 => none
  | n + 1 => some n

def received (n : Nat) : VersionedBalance Int := ⟨before n, none, ⟨0, 0⟩, .input⟩

/-- An account that received something at each of the first topoheights. -/
def receivedEach : Nat → Storage Int
  | 0 => ({} : Storage Int).addAsset 1 0 ⟨none, ⟨8, "Xelis", "XEL", none, none⟩⟩
  | n + 1 => (receivedEach n).setLastBalanceTo 4 1 n (received n)

private theorem receivedEach_known (n : Nat) : (receivedEach n).hasAsset 1 = true := by
  induction n with
  | zero => decide +kernel
  | succ n ih => exact ih

private theorem receivedEach_last (n : Nat) : ((receivedEach n).balanceHistory 4 1).last = before n := by
  cases n with
  | zero => rfl
  | succ n => exact VersionedTrees.pointers_setLast_self _ _ _ _

private theorem receivedEach_linked (n : Nat) :
    ((receivedEach n).balanceHistory 4 1).Linked VersionedBalance.previousTopoheight := by
  induction n with
  | zero =>
    have hempty : (receivedEach 0).balanceHistory 4 1 = ⟨none, fun _ => none⟩ := VersionedTrees.history_empty _
    rw [hempty]
    exact History.Linked.empty
  | succ n ih =>
    have hpush : (receivedEach (n + 1)).balanceHistory 4 1 = ((receivedEach n).balanceHistory 4 1).push n (received n) :=
      VersionedTrees.history_setLast_self _ _ _ _
    rw [hpush]
    refine ih.push (receivedEach_last n).symm fun l hl => ?_
    rw [receivedEach_last] at hl
    cases n with
    | zero => cases hl
    | succ n => exact Option.some.inj hl ▸ Nat.lt_succ_self n

private theorem receivedEach_version (n u : Nat) :
    ((receivedEach n).balanceHistory 4 1).version u = if u < n then some (received u) else none := by
  induction n with
  | zero => exact Std.ExtTreeMap.getElem?_empty
  | succ n ih =>
    have hpush : (receivedEach (n + 1)).balanceHistory 4 1 = ((receivedEach n).balanceHistory 4 1).push n (received n) :=
      VersionedTrees.history_setLast_self _ _ _ _
    rw [hpush]
    by_cases hu : u = n
    · rw [hu, History.version_push_self, if_pos (Nat.lt_succ_self n)]
    · rw [History.version_push_of_ne _ _ _ hu, ih]
      by_cases hlt : u < n
      · rw [if_pos hlt, if_pos (Nat.lt_succ_of_lt hlt)]
      · rw [if_neg hlt, if_neg (by omega)]

private theorem receivedEach_spendable (n : Nat) :
    Spendable ((receivedEach (n + 1)).balanceHistory 4 1) 0 n ((List.range (n + 1)).reverse.map fun u => (u, received u)) where
  descending := List.pairwise_map.mpr (List.pairwise_reverse.mpr List.pairwise_lt_range)
  mem_iff u v := by
    have hnone : NoOutput ((receivedEach (n + 1)).balanceHistory 4 1) (u + 1) n := by
      intro w vw _ _ hw
      rw [receivedEach_version] at hw
      split at hw
      · cases hw
        rfl
      · cases hw
    rw [receivedEach_version]
    simp only [List.mem_map, List.mem_reverse, List.mem_range, Prod.mk.injEq]
    constructor
    · rintro ⟨w, hw, rfl, rfl⟩
      exact ⟨if_pos hw, Nat.zero_le w, Nat.le_of_lt_succ hw, hnone⟩
    · rintro ⟨hv, -, hle, -⟩
      rw [if_pos (Nat.lt_succ_of_le hle), Option.some.injEq] at hv
      exact ⟨u, Nat.lt_succ_of_le hle, rfl, hv⟩

/-- With one version more than a page holds the oldest one is never handed out. -/
theorem receivedEach_incomplete :
    ((receivedEach (DEFAULT_MAX_ITEMS + 1)).hasAsset 1 = true ∧
      ((receivedEach (DEFAULT_MAX_ITEMS + 1)).balanceHistory 4 1).Linked VersionedBalance.previousTopoheight ∧
      (((receivedEach (DEFAULT_MAX_ITEMS + 1)).balanceHistory 4 1).version DEFAULT_MAX_ITEMS).isSome) ∧
    ¬(receivedEach (DEFAULT_MAX_ITEMS + 1)).PagesComplete 4 1 0 DEFAULT_MAX_ITEMS := by
  have hstored : (((receivedEach (DEFAULT_MAX_ITEMS + 1)).balanceHistory 4 1).version DEFAULT_MAX_ITEMS).isSome := by
    rw [receivedEach_version, if_pos (Nat.lt_succ_self _)]
    rfl
  refine ⟨⟨receivedEach_known _, receivedEach_linked _, hstored⟩, fun h => ?_⟩
  obtain ⟨all, hall, hfits⟩ := fitsOnePage_of_complete (receivedEach_known _) (receivedEach_linked _) hstored h
  rw [hall.unique (receivedEach_spendable _), List.length_map, List.length_reverse, List.length_range] at hfits
  exact absurd hfits (Nat.not_succ_le_self _)

/-- A short history is read as a whole. -/
theorem pagesComplete_receivedTwice : (receivedEach 2).PagesComplete 4 1 0 1 := by
  have hstored : (((receivedEach 2).balanceHistory 4 1).version 1).isSome := by
    rw [receivedEach_version]
    rfl
  refine (pagesComplete_iff (receivedEach_known 2) (receivedEach_linked 2) hstored 0).mpr ⟨_, receivedEach_spendable 1, ?_⟩
  rw [List.length_map, List.length_reverse, List.length_range]
  decide

end Xelis.Storage
