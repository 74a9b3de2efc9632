import Xelis.State.Balances
import Xelis.Storage.BalanceSearch
import Xelis.Storage.Deletion
import Xelis.Storage.DeletionAbove

namespace Xelis.State.ApplicableChainState

open Lib (FiniteMap Exec History)
open Storage (VersionedTrees HasPrevious getBalanceKeyFor cleanBalance cleanBalance_link)

variable {P : Type} [RistrettoPoint P] {clean : PublicKey → Hash → VersionedBalance P}

/-- Over these balances, every lookup of the block at `t` starts from the given ones, whichever assets are known. -/
def StartsFrom (clean : PublicKey → Hash → VersionedBalance P) (balances : VersionedTrees (VersionedBalance P))
    (t : TopoHeight) : Prop :=
  ∀ storage : Storage P, storage.balances = balances → ∀ key asset found,
    storage.getNewVersionedBalance key asset t = .ok found → found.1 = clean key asset

/-- The balances of all accounts are linked, and none is stored at the topoheight or above it. -/
structure BalancesReady (balances : VersionedTrees (VersionedBalance P)) (t : TopoHeight) : Prop where
  linked : ∀ key asset, (balances.history (getBalanceKeyFor key asset)).Linked VersionedBalance.previousTopoheight
  below : ∀ key asset, (balances.history (getBalanceKeyFor key asset)).Below t

def newestBalances (balances : VersionedTrees (VersionedBalance P)) (key : PublicKey) (asset : Hash) : VersionedBalance P :=
  cleanBalance (balances.history (getBalanceKeyFor key asset))

omit [RistrettoPoint P] in
theorem BalancesReady.single (key : PublicKey) (asset : Hash) (v : VersionedBalance P) (hlink : v.previousTopoheight = none) :
    BalancesReady (VersionedTrees.setLast ⟨∅, ∅⟩ (getBalanceKeyFor key asset) 0 v) 1 := by
  refine ⟨fun k a => ?_, fun k a => ?_⟩
  · by_cases hsame : getBalanceKeyFor key asset = getBalanceKeyFor k a
    · rw [← hsame, VersionedTrees.history_setLast_self]
      exact History.Linked.push_first hlink fun _ _ => rfl
    · rw [VersionedTrees.history_setLast_of_ne _ _ _ _ hsame]
      exact History.Linked.empty
  · have hbelow := (VersionedTrees.Below.empty 1).setLast (getBalanceKeyFor key asset) Nat.one_pos v
    exact ⟨hbelow.pointers _, hbelow.versions _⟩

variable {t T n : TopoHeight}

theorem BalancesReady.startsFrom {balances : VersionedTrees (VersionedBalance P)}
    (hready : BalancesReady balances t) : StartsFrom (newestBalances balances) balances t := by
  rintro storage rfl key asset found hload
  exact Storage.getNewVersionedBalance_clean (hready.linked key asset)
    (fun l hlast => Nat.le_of_lt ((hready.below key asset).last l hlast)) hload

structure SpentFrom (start : VersionedBalance P) (e : Echange P) : Prop where
  previous : e.version.previousTopoheight = start.previousTopoheight
  output : e.version.outputBalance = none
  final : e.version.finalBalance = start.finalBalance - e.outputSum

/-- The balances received are linked to the ones that the block started from. -/
def LinkedEntries (clean : PublicKey → Hash → VersionedBalance P) (s : ApplicableChainState P) : Prop :=
  ∀ key asset version, entryOf s key asset = some version → version.previousTopoheight = (clean key asset).previousTopoheight

variable {key : PublicKey} {asset : Hash} {version : VersionedBalance P} {ct balance : Ciphertext P}

section Entries

variable {s : ApplicableChainState P}

section

omit [RistrettoPoint P]

theorem LinkedEntries.withReceiver (h : LinkedEntries clean s) (key : PublicKey) :
    LinkedEntries clean { s with inner := s.inner.withReceiver key } := by
  intro k a version hentry
  refine h k a version ?_
  rw [← hentry]
  exact (ChainState.receiverBalances_insert_getD s.inner key k a).symm

theorem LinkedEntries.setReceiverVersion (h : LinkedEntries clean s)
    (hversion : version.previousTopoheight = (clean key asset).previousTopoheight) :
    LinkedEntries clean { s with inner := ChainState.setReceiverVersion key asset version s.inner } := by
  intro k a version' hentry
  rw [entryOf_setReceiverVersion] at hentry
  split at hentry
  · obtain ⟨rfl, rfl⟩ := ‹_ ∧ _›
    rw [Option.some.injEq] at hentry
    rw [← hentry]
    exact hversion
  · exact h k a version' hentry

theorem LinkedEntries.putReceiverBalance (h : LinkedEntries clean s) (key : PublicKey) (asset : Hash) (ct : Ciphertext P) :
    LinkedEntries clean { s with inner := ChainState.putReceiverBalance key asset ct s.inner } := by
  intro k a version hentry
  rw [entryOf_putReceiverBalance] at hentry
  split at hentry
  · obtain ⟨found, hfound, rfl⟩ := Option.map_eq_some_iff.mp hentry
    obtain ⟨rfl, rfl⟩ := ‹_ ∧ _›
    exact h k a found hfound
  · exact h k a version hentry

end

theorem LinkedEntries.lookup (h : LinkedEntries clean s) (hstarts : StartsFrom clean s.inner.storage.balances s.inner.topoheight)
    {inner : ChainState P}
    (hload : ChainState.internalGetReceiverBalance key asset s.inner = .ok ct inner) : LinkedEntries clean { s with inner } := by
  have hwith := h.withReceiver key
  rw [ChainState.internalGetReceiverBalance_eq] at hload
  cases hentry : s.inner.receiverBalances[key]?.bind (·[asset]?) with
  | some version =>
    simp only [hentry, EStateM.Result.ok.injEq] at hload
    rw [← hload.2]
    exact hwith
  | none =>
    cases hfound : s.inner.storage.getNewVersionedBalance key asset s.inner.topoheight with
    | error e => simp [hentry, hfound] at hload
    | ok found =>
      simp only [hentry, hfound, EStateM.Result.ok.injEq] at hload
      rw [← hload.2]
      exact hwith.setReceiverVersion (by rw [hstarts s.inner.storage rfl key asset found hfound])

end Entries

/-- What holds of the balances of a block until they are written. Spendings that are verified against an older version
are not compared with it. -/
structure Tracked (clean : PublicKey → Hash → VersionedBalance P) (s : ApplicableChainState P) : Prop where
  starts : StartsFrom clean s.inner.storage.balances s.inner.topoheight
  entries : LinkedEntries clean s
  spendings : ∀ key asset e, echangeOf s key asset = some e → e.newVersion = true → SpentFrom (clean key asset) e

/-- What an account has received up to now, on top of what it started the block with. -/
def receivedFrom (clean : PublicKey → Hash → VersionedBalance P) (s : ApplicableChainState P) (key : PublicKey) (asset : Hash) :
    Ciphertext P :=
  ((entryOf s key asset).getD (clean key asset)).finalBalance

/-- What an account has when nothing more happens in the block. -/
def balanceFrom (clean : PublicKey → Hash → VersionedBalance P) (s : ApplicableChainState P) (key : PublicKey) (asset : Hash) :
    Ciphertext P :=
  receivedFrom clean s key asset - s.inner.spent key asset

/-- Nothing that the balances of a block depend on has changed. -/
structure SameFinals (s s' : ApplicableChainState P) : Prop where
  balances : s'.inner.storage.balances = s.inner.storage.balances
  topoheight : s'.inner.topoheight = s.inner.topoheight
  received : ∀ key asset, entryOf s' key asset = entryOf s key asset
  spent : ∀ key asset, echangeOf s' key asset = echangeOf s key asset

variable {s s' : ApplicableChainState P}

theorem Tracked.congr (h : Tracked clean s) (hsame : SameFinals s s') : Tracked clean s' := by
  refine ⟨?_, fun key asset version hentry => ?_, fun key asset e he => ?_⟩
  · rw [hsame.balances, hsame.topoheight]
    exact h.starts
  · rw [hsame.received] at hentry
    exact h.entries key asset version hentry
  · rw [hsame.spent] at he
    exact h.spendings key asset e he

theorem SameFinals.balanceFrom (hsame : SameFinals s s') : balanceFrom clean s' = balanceFrom clean s := by
  funext key asset
  have hspent : s'.inner.spent key asset = s.inner.spent key asset := by
    have hechange := hsame.spent key asset
    unfold echangeOf at hechange
    rw [ChainState.spent, ChainState.spent, hechange]
  rw [ApplicableChainState.balanceFrom, ApplicableChainState.balanceFrom, receivedFrom, receivedFrom, hsame.received, hspent]

theorem spent_of_echange {e : Echange P} (h : echangeOf s key asset = some e) : s.inner.spent key asset = e.outputSum := by
  unfold echangeOf at h
  rw [ChainState.spent, h]

theorem spent_of_no_echange (h : echangeOf s key asset = none) : s.inner.spent key asset = 0 := by
  unfold echangeOf at h
  rw [ChainState.spent, h]
  rfl

variable {received entry : Option (VersionedBalance P)}

/-- In each of its branches, the version that is stored has what was received less what was spent. -/
theorem mergeEchange_final {storage : Storage P} {blockVersion : BlockVersion} {e : Echange P}
    (hstarts : StartsFrom clean storage.balances t)
    (hreceived : ∀ final, received = some final → final.previousTopoheight = (clean key asset).previousTopoheight)
    (hspent : e.newVersion = true → SpentFrom (clean key asset) e)
    (h : mergeEchange storage blockVersion t key asset e received = .ok version) :
    version.previousTopoheight = (clean key asset).previousTopoheight ∧
      version.finalBalance = (received.getD (clean key asset)).finalBalance - e.outputSum := by
  unfold mergeEchange at h
  cases received with
  | some final =>
    -- incoming and outgoing
    cases h
    exact ⟨hreceived final rfl, rfl⟩
  | none =>
    dsimp only at h
    split at h
    · -- the output balance or an old version was spent from
      cases hload : storage.getNewVersionedBalance key asset t with
      | error error => simp [hload] at h
      | ok found =>
        obtain ⟨loaded, new⟩ := found
        have hclean : loaded = clean key asset := hstarts storage rfl key asset _ hload
        simp only [hload] at h
        split at h
        · cases h
          exact ⟨congrArg (·.previousTopoheight) hclean, congrArg (fun v => v.finalBalance - e.outputSum) hclean⟩
        · cases h
          exact ⟨congrArg (·.previousTopoheight) hclean, congrArg (fun v => v.finalBalance - e.outputSum) hclean⟩
    · -- the newest version was spent from
      rename_i hcond
      have hnew : e.newVersion = true := by simp_all
      cases h
      exact ⟨(hspent hnew).previous, (hspent hnew).final⟩

section Changes

variable {s s' : ApplicableChainState P} {key : PublicKey} {asset : Hash}

/-- A balance that the block holds: it is linked to the one before it, and has what the account has. -/
def Holds (clean : PublicKey → Hash → VersionedBalance P) (key : PublicKey) (asset : Hash) (balance : Ciphertext P) :
    Option (VersionedBalance P) → Prop
  | some version => version.previousTopoheight = (clean key asset).previousTopoheight ∧ version.finalBalance = balance
  | none => balance = (clean key asset).finalBalance

theorem Merged.holds (htracked : Tracked clean s)
    (h : Merged s key asset (echangeOf s key asset) entry) : Holds clean key asset (balanceFrom clean s key asset) entry := by
  cases hecho : echangeOf s key asset with
  | none =>
    rw [hecho] at h
    have hbalance : balanceFrom clean s key asset = receivedFrom clean s key asset := by
      rw [balanceFrom, spent_of_no_echange hecho, sub_zero]
    rw [hbalance, show entry = entryOf s key asset from h, receivedFrom]
    cases hentry : entryOf s key asset with
    | none => rfl
    | some version => exact ⟨htracked.entries key asset version hentry, rfl⟩
  | some e =>
    rw [hecho] at h
    obtain ⟨version, hmerge, rfl⟩ := h
    rw [balanceFrom, spent_of_echange hecho]
    exact mergeEchange_final htracked.starts (htracked.entries key asset) (htracked.spendings key asset e hecho) hmerge

/-- A transfer of the contracts is added. -/
theorem Credited.holds (hstarts : StartsFrom clean s.inner.storage.balances s.inner.topoheight)
    (hentry : Holds clean key asset balance (entryOf s key asset)) {amount : Option Nat}
    (h : Credited s key asset amount entry) :
    Holds clean key asset (balance + Ciphertext.ofScalar (amount.getD 0)) entry := by
  cases amount with
  | none =>
    rw [show entry = entryOf s key asset from h, Option.getD_none, Ciphertext.ofScalar_zero, add_zero]
    exact hentry
  | some amount =>
    obtain ⟨version, hfound, rfl⟩ := h
    have hversion : version.previousTopoheight = (clean key asset).previousTopoheight ∧ version.finalBalance = balance := by
      rcases hfound with hheld | ⟨hnone, new, hload⟩
      · rw [hheld] at hentry
        exact hentry
      · rw [hnone] at hentry
        have hclean : version = clean key asset := hstarts s.inner.storage rfl key asset _ hload
        exact ⟨congrArg (·.previousTopoheight) hclean, (congrArg (·.finalBalance) hclean).trans hentry.symm⟩
    refine ⟨hversion.1, ?_⟩
    show version.finalBalance.addScalar amount = _
    rw [Ciphertext.addScalar_eq, hversion.2, Option.getD_some]

/-- Writing a block stores what every account has, with the transfers of the contracts, linked to the balance that the
block started from. -/
theorem applyChanges_final (key : PublicKey) (asset : Hash) {env : Env P} (htracked : Tracked clean s) (h : applyChanges env s = .ok ⟨⟩ s') :
    ∃ entry, s'.inner.storage.balanceHistory key asset =
        (s.inner.storage.balanceHistory key asset).extend s.inner.topoheight entry ∧
      Holds clean key asset (balanceFrom clean s key asset +
        Ciphertext.ofScalar ((transferOf s.contractManager.tracker key asset).getD 0)) entry := by
  obtain ⟨s₃, hblock, hbalances, hentries⟩ := applyChanges_balances h
  obtain ⟨hmerged, entry, hcredited, hhistory⟩ := hentries key asset
  have hstarts : StartsFrom clean s₃.inner.storage.balances s₃.inner.topoheight := by
    rw [hbalances, hblock.topoheight]
    exact htracked.starts
  exact ⟨entry, hhistory, hcredited.holds hstarts (hmerged.holds htracked)⟩

theorem BalancesReady.extend {s : Storage P} (hready : BalancesReady s.balances t)
    (hholds : Holds (newestBalances s.balances) key asset balance entry) :
    ((s.balanceHistory key asset).extend t entry).Linked VersionedBalance.previousTopoheight ∧
      ((s.balanceHistory key asset).extend t entry).Below (t + 1) := by
  have hlinked := hready.linked key asset
  have hbelow := hready.below key asset
  refine ⟨?_, (hbelow.mono (Nat.le_succ t)).extend (Nat.lt_succ_self t) entry⟩
  cases entry with
  | none => exact hlinked
  | some v =>
    refine hlinked.push ?_ fun l hlast => hbelow.last l hlast
    rw [hholds.1, newestBalances, cleanBalance_link]
    exact hlinked.last_eq.symm

end Changes

section TakenBack

open Storage (deleteVersionedDataAtTopoheight deleteFamilyAtTopoheight deleteFamily_moves deleteRegistrations_moves)

variable {s s' : Storage P}

section

omit [RistrettoPoint P]

theorem deleteVersionedData_balances
    (h : deleteVersionedDataAtTopoheight t s = .ok ⟨⟩ s') : s.balances.deleteVersionedTreeAtTopoheight t = .ok s'.balances := by
  have htrans : ∀ a b c : Storage P, b.balances = a.balances → c.balances = b.balances → c.balances = a.balances :=
    fun a b c hab hbc => hbc.trans hab
  obtain ⟨⟨⟩, s₁, hfirst, hrest⟩ := Exec.bind_ok_iff.mp h
  have hkept : s'.balances = s₁.balances := by
    have hmoves : Exec.Moves (fun s s' : Storage P => s'.balances = s.balances) (do
        Storage.deleteVersionedNoncesAtTopoheight t
        Storage.deleteVersionedMultisigsAtTopoheight t
        Storage.deleteVersionedRegistrationsAtTopoheight t
        Storage.deleteVersionedContractsAtTopoheight t
        Storage.deleteVersionedContractDataAtTopoheight t
        Storage.deleteVersionedAssetsSupplyAtTopoheight t
        if 0 < t then Storage.deleteVersionedAssetsAtTopoheight t) := by
      refine .bind htrans (deleteFamily_moves (fun _ => rfl) fun _ _ => rfl) fun _ => ?_
      refine .bind htrans (deleteFamily_moves (fun _ => rfl) fun _ _ => rfl) fun _ => ?_
      refine .bind htrans (fun s => ?_) fun _ => ?_
      · exact deleteRegistrations_moves (R := fun s s' => s'.balances = s.balances) (fun _ => rfl) htrans (fun _ _ => rfl) _ s
      refine .bind htrans (deleteFamily_moves (fun _ => rfl) fun _ _ => rfl) fun _ => ?_
      refine .bind htrans (deleteFamily_moves (fun _ => rfl) fun _ _ => rfl) fun _ => ?_
      refine .bind htrans (deleteFamily_moves (fun _ => rfl) fun _ _ => rfl) fun _ => ?_
      split
      · exact deleteFamily_moves (fun _ => rfl) fun _ _ => rfl
      · exact fun _ => rfl
    have hrun := hmoves s₁
    rwa [hrest] at hrun
  rw [hkept]
  unfold Storage.deleteVersionedBalancesAtTopoheight deleteFamilyAtTopoheight at hfirst
  cases hdelete : s.balances.deleteVersionedTreeAtTopoheight t with
  | error e => simp [hdelete] at hfirst
  | ok tr =>
    simp only [hdelete, EStateM.Result.ok.injEq, true_and] at hfirst
    rw [← hfirst]

theorem deleteVersionedData_forM_balances {ts : List TopoHeight}
    (h : ts.forM deleteVersionedDataAtTopoheight s = .ok ⟨⟩ s') :
    ts.foldlM VersionedTrees.deleteVersionedTreeAtTopoheight s.balances = .ok s'.balances := by
  induction ts generalizing s with
  | nil =>
    cases h
    rfl
  | cons t ts ih =>
    obtain ⟨⟨⟩, s₁, hfirst, hrest⟩ := Exec.bind_ok_iff.mp h
    exact FiniteMap.foldlM_cons_ok.mpr ⟨s₁.balances, deleteVersionedData_balances hfirst, ih hrest⟩

theorem BalancesReady.takeBack (hready : BalancesReady s.balances (T + n))
    (h : (List.range' T n).forM deleteVersionedDataAtTopoheight s = .ok ⟨⟩ s') : BalancesReady s'.balances T := by
  obtain ⟨tr, hdelete, hacts⟩ := VersionedTrees.acts_deleteVersionedTrees s.balances (List.range' T n)
  rw [deleteVersionedData_forM_balances h, Except.ok.injEq] at hdelete
  subst hdelete
  have hcut : ∀ key asset, (s'.balances.history (getBalanceKeyFor key asset)).Linked VersionedBalance.previousTopoheight ∧
      (s'.balances.history (getBalanceKeyFor key asset)).Below T := by
    intro key asset
    rw [hacts.history]
    exact (hready.linked key asset).dropAt_from fun u hu => (hready.below key asset).version u hu
  exact ⟨fun key asset => (hcut key asset).1, fun key asset => (hcut key asset).2⟩

end

end TakenBack

end Xelis.State.ApplicableChainState
