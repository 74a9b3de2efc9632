import Xelis.Lib.HistoryCut
import Xelis.Lib.MapLoops
import Xelis.Storage.Chains

namespace Xelis.Storage.VersionedTrees

open Lib (FiniteMap History toBeBytes)

section Definitions

variable {V : Type} [HasPrevious V]

def deleteVersionsAbove (key : Key) (topoheight : TopoHeight) (context : DiskContext) :
    Nat → Option TopoHeight → VersionedTrees V → Except BlockchainError (Option TopoHeight × VersionedTrees V)
  | _, none, tr => .ok (none, tr)
  | 0, some _, _ => .error .endlessChain
  | fuel + 1, some prevTopo, tr =>
    if prevTopo ≤ topoheight then .ok (some prevTopo, tr)
    else match tr.version key prevTopo with
      | none => .error (.notFoundOnDisk context)
      | some v =>
        deleteVersionsAbove key topoheight context fuel (HasPrevious.previousTopoheight v) (tr.removeAt key prevTopo)

/-- One pointer: it goes back below `topoheight`, or is deleted when no version is left. -/
def deletePointerAbove (topoheight : TopoHeight) (context : DiskContext) (tr : VersionedTrees V)
    (pointer : Key × TopoHeight) : Except BlockchainError (VersionedTrees V) :=
  if topoheight < pointer.2 then
    match tr.version pointer.1 pointer.2 with
    | none => .error (.notFoundOnDisk context)
    | some v =>
      match deleteVersionsAbove pointer.1 topoheight context (tr.fuel pointer.2) (HasPrevious.previousTopoheight v)
          (tr.removeAt pointer.1 pointer.2) with
      | .error e => .error e
      | .ok (some topo, tr) => .ok (tr.setPointer pointer.1 topo)
      | .ok (none, tr) => .ok { tr with pointers := tr.pointers.erase pointer.1 }
  else .ok tr

def deleteVersionedTreeAboveTopoheight (tr : VersionedTrees V) (topoheight : TopoHeight) (context : DiskContext) :
    Except BlockchainError (VersionedTrees V) :=
  tr.pointers.toList.foldlM (deletePointerAbove topoheight context) tr

end Definitions

section Histories

variable {V : Type} {tr tr' tr'' : VersionedTrees V} {f g : History V → History V} {key : Key}

structure ActsOn (f : History V → History V) (key : Key) (tr tr' : VersionedTrees V) : Prop where
  history : tr'.history key = f (tr.history key)
  pointers : ∀ key', key' ≠ key → tr'.pointers[key']? = tr.pointers[key']?
  versions : ∀ prefixedKey, (∀ u, prefixedKey ≠ getVersionedKey key u) →
    tr'.versions[prefixedKey]? = tr.versions[prefixedKey]?

/-- The history of every key changes by `f`; what is no version of any key stays. -/
structure Acts (f : History V → History V) (tr tr' : VersionedTrees V) : Prop where
  history : ∀ key, tr'.history key = f (tr.history key)
  versions : ∀ prefixedKey, (∀ key u, prefixedKey ≠ getVersionedKey key u) →
    tr'.versions[prefixedKey]? = tr.versions[prefixedKey]?

theorem ActsOn.history_of_ne (h : ActsOn f key tr tr') {key' : Key} (hne : key' ≠ key) :
    tr'.history key' = tr.history key' := by
  refine History.ext (h.pointers key' hne) (funext fun u => h.versions _ fun u' he => ?_)
  exact hne (getVersionedKey_inj he).1

/-- What happened to the histories is all that happened. -/
theorem Acts.unique (h : Acts f tr tr') (h' : Acts f tr tr'') : tr' = tr'' := by
  have hhistory : ∀ key, tr'.history key = tr''.history key := fun key => (h.history key).trans (h'.history key).symm
  have hpointers : tr'.pointers = tr''.pointers :=
    Std.ExtTreeMap.ext_getElem? fun key => congrArg History.last (hhistory key)
  have hversions : tr'.versions = tr''.versions := by
    refine Std.ExtTreeMap.ext_getElem? fun prefixedKey => ?_
    by_cases hversion : ∃ key u, prefixedKey = getVersionedKey key u
    · obtain ⟨key, u, rfl⟩ := hversion
      exact congrFun (congrArg History.version (hhistory key)) u
    · have hnot : ∀ key u, prefixedKey ≠ getVersionedKey key u := fun key u he => hversion ⟨key, u, he⟩
      exact (h.versions prefixedKey hnot).trans (h'.versions prefixedKey hnot).symm
  match tr', tr'', hpointers, hversions with
  | ⟨_, _⟩, ⟨_, _⟩, rfl, rfl => rfl

theorem Acts.refl (tr : VersionedTrees V) : Acts id tr tr := ⟨fun _ => rfl, fun _ _ => rfl⟩

theorem Acts.trans (h : Acts f tr tr') (h' : Acts g tr' tr'') : Acts (g ∘ f) tr tr'' where
  history key := by rw [h'.history, h.history, Function.comp_apply]
  versions pk hpk := (h'.versions pk hpk).trans (h.versions pk hpk)

theorem Acts.congr (h : Acts f tr tr') (hsame : ∀ key, f (tr.history key) = g (tr.history key)) : Acts g tr tr' :=
  ⟨fun key => (h.history key).trans (hsame key), h.versions⟩

section Turns

variable {E : Type} {k : E → Key} {step : VersionedTrees V → E → Except BlockchainError (VersionedTrees V)} {es : List E}

private theorem foldlM_actsOn_run (hdistinct : es.Pairwise fun a b => k a ≠ k b)
    (hstep : ∀ e ∈ es, ∀ tr₁, tr₁.history (k e) = tr.history (k e) → ∃ tr₂, step tr₁ e = .ok tr₂ ∧ ActsOn f (k e) tr₁ tr₂) :
    ∃ tr', es.foldlM step tr = .ok tr' ∧ (∀ e ∈ es, tr'.history (k e) = f (tr.history (k e))) ∧
      (∀ key, (∀ e ∈ es, k e ≠ key) → tr'.history key = tr.history key) ∧
      ∀ pk, (∀ key u, pk ≠ getVersionedKey key u) → tr'.versions[pk]? = tr.versions[pk]? := by
  induction es generalizing tr with
  | nil => exact ⟨tr, rfl, nofun, fun _ _ => rfl, fun _ _ => rfl⟩
  | cons e es ih =>
    obtain ⟨hne, hdistinct⟩ := List.pairwise_cons.mp hdistinct
    obtain ⟨tr₁, he, hacts⟩ := hstep e List.mem_cons_self tr rfl
    have hbefore : ∀ d ∈ es, tr₁.history (k d) = tr.history (k d) := fun d hd =>
      hacts.history_of_ne (hne d hd).symm
    obtain ⟨tr', hes, hturns, hothers, hrest⟩ := ih hdistinct fun d hd tr₂ htr₂ =>
      hstep d (List.mem_cons_of_mem _ hd) tr₂ (htr₂.trans (hbefore d hd))
    refine ⟨tr', FiniteMap.foldlM_cons_ok.mpr ⟨tr₁, he, hes⟩, ?_, ?_, ?_⟩
    · intro d hd
      rcases List.mem_cons.mp hd with rfl | hd
      · rw [hothers (k d) fun c hc => (hne c hc).symm, hacts.history]
      · rw [hturns d hd, hbefore d hd]
    · intro key hkey
      rw [hothers key fun d hd => hkey d (List.mem_cons_of_mem _ hd)]
      exact hacts.history_of_ne (hkey e List.mem_cons_self).symm
    · intro pk hpk
      exact (hrest pk hpk).trans (hacts.versions pk fun u => hpk (k e) u)

/-- Turns on different keys, each of which changes the history of its key by `f`. -/
theorem foldlM_actsOn (hdistinct : es.Pairwise fun a b => k a ≠ k b)
    (hstep : ∀ e ∈ es, ∀ tr₁, tr₁.history (k e) = tr.history (k e) → ∃ tr₂, step tr₁ e = .ok tr₂ ∧ ActsOn f (k e) tr₁ tr₂)
    (hrest : ∀ key, (∀ e ∈ es, k e ≠ key) → f (tr.history key) = tr.history key) :
    ∃ tr', es.foldlM step tr = .ok tr' ∧ Acts f tr tr' := by
  obtain ⟨tr', hrun, hturns, hothers, hversions⟩ := foldlM_actsOn_run hdistinct hstep
  refine ⟨tr', hrun, fun key => ?_, hversions⟩
  by_cases hturn : ∃ e ∈ es, k e = key
  · obtain ⟨e, he, rfl⟩ := hturn
    exact hturns e he
  · have hnot : ∀ e ∈ es, k e ≠ key := fun e he hk => hturn ⟨e, he, hk⟩
    rw [hothers key hnot, hrest key hnot]

end Turns

end Histories

section AtTopoheight

variable {V : Type} [HasPrevious V] {tr : VersionedTrees V} {key : Key} {t : TopoHeight}

theorem drop_getVersionedKey (key : Key) (t : TopoHeight) : (getVersionedKey key t).drop 8 = key := by
  rw [getVersionedKey, List.drop_left' (Lib.length_toBeBytes t)]

theorem actsOn_erase {v : V} (hv : tr.version key t = some v) {pointers : FiniteMap Key TopoHeight}
    (hself : pointers[key]? =
      (tr.pointers[key]?).bind fun l => if t ≤ l then HasPrevious.previousTopoheight v else some l)
    (hother : ∀ key', key' ≠ key → pointers[key']? = tr.pointers[key']?) :
    ActsOn (History.dropAt HasPrevious.previousTopoheight · t) key tr
      ⟨pointers, tr.versions.erase (getVersionedKey key t)⟩ where
  history := by
    rw [History.dropAt_of_some (show (tr.history key).version t = some v from hv)]
    exact History.ext hself (version_removeAt tr key t)
  pointers := hother
  versions pk hpk := FiniteMap.getElem?_erase_of_ne _ (hpk t).symm

theorem actsOn_deleteVersion {v : V} (hv : tr.version key t = some v) :
    ∃ tr', deleteVersion t tr (getVersionedKey key t) = .ok tr' ∧
      ActsOn (History.dropAt HasPrevious.previousTopoheight · t) key tr tr' := by
  have hstored : tr.versions[getVersionedKey key t]? = some v := hv
  unfold deleteVersion
  simp only [hstored, drop_getVersionedKey]
  cases hpointer : tr.pointers[key]? with
  | none => exact ⟨_, rfl, actsOn_erase hv (by rw [hpointer]; rfl) fun _ _ => rfl⟩
  | some pointer =>
    by_cases hle : t ≤ pointer
    · have hself : ∀ r, HasPrevious.previousTopoheight v = r →
          (tr.pointers[key]?).bind (fun l => if t ≤ l then HasPrevious.previousTopoheight v else some l) = r := by
        intro r hr
        rw [hpointer, Option.bind_some, if_pos hle, hr]
      simp only [if_pos hle]
      cases hprevious : HasPrevious.previousTopoheight v with
      | none =>
        refine ⟨_, rfl, actsOn_erase hv ?_ fun key' hne => FiniteMap.getElem?_erase_of_ne _ hne.symm⟩
        rw [FiniteMap.getElem?_erase_self', hself none hprevious]
      | some previous =>
        refine ⟨_, rfl, actsOn_erase hv ?_ fun key' hne => FiniteMap.getElem?_insert_of_ne _ _ hne.symm⟩
        rw [FiniteMap.getElem?_insert_self', hself (some previous) hprevious]
    · simp only [if_neg hle]
      refine ⟨_, rfl, actsOn_erase hv ?_ fun _ _ => rfl⟩
      rw [hpointer, Option.bind_some, if_neg hle]

theorem acts_deleteVersionedTreeAtTopoheight (tr : VersionedTrees V) (t : TopoHeight) :
    ∃ tr', tr.deleteVersionedTreeAtTopoheight t = .ok tr' ∧
      Acts (History.dropAt HasPrevious.previousTopoheight · t) tr tr' := by
  have hscanned : ∀ pk ∈ tr.versions.keys.filter ((toBeBytes t).isPrefixOf ·),
      pk = getVersionedKey (pk.drop 8) t ∧ (tr.versions[pk]?).isSome := by
    intro pk hpk
    obtain ⟨hmem, hprefix⟩ := List.mem_filter.mp hpk
    obtain ⟨key, rfl⟩ := List.isPrefixOf_iff_prefix.mp hprefix
    refine ⟨?_, Std.ExtTreeMap.mem_iff_isSome_getElem?.mp (Std.ExtTreeMap.mem_keys.mp hmem)⟩
    rw [List.drop_left' (Lib.length_toBeBytes t)]
    rfl
  refine foldlM_actsOn (k := fun pk => pk.drop 8) ?_ ?_ ?_
  · refine (Std.ExtTreeMap.nodup_keys.filter _).imp_of_mem fun {pk pk'} hpk hpk' hne he => hne ?_
    rw [(hscanned pk hpk).1, (hscanned pk' hpk').1, he]
  · intro pk hpk tr₁ hsame
    obtain ⟨heq, hstored⟩ := hscanned pk hpk
    have hversion : tr₁.version (pk.drop 8) t = tr.version (pk.drop 8) t :=
      congrFun (congrArg History.version hsame) t
    rw [heq] at hstored
    obtain ⟨v, hv⟩ := Option.isSome_iff_exists.mp hstored
    have hdeleted := actsOn_deleteVersion (hversion.trans hv)
    rwa [← heq] at hdeleted
  · intro key hkey
    refine History.dropAt_of_none (Option.not_isSome_iff_eq_none.mp fun hstored => ?_)
    refine hkey (getVersionedKey key t) (List.mem_filter.mpr ⟨?_, ?_⟩) (drop_getVersionedKey key t)
    · exact Std.ExtTreeMap.mem_keys.mpr (Std.ExtTreeMap.mem_iff_isSome_getElem?.mpr hstored)
    · exact List.isPrefixOf_iff_prefix.mpr ⟨key, rfl⟩

end AtTopoheight

section AboveTopoheight

variable {V : Type} [HasPrevious V] {tr : VersionedTrees V} {key : Key} {T : TopoHeight}

/-- What the walk along a chain has left: the versions up to the link that it follows. -/
private def upToLink (h : History V) : Option TopoHeight → Nat → Option V
  | none, _ => none
  | some p, u => if u ≤ p then h.version u else none

theorem deleteVersionsAbove_none (context : DiskContext) (fuel : Nat) (tr : VersionedTrees V) :
    deleteVersionsAbove key T context fuel none tr = .ok (none, tr) := by
  cases fuel with
  | zero => rfl
  | succ fuel => rfl

variable {h : History V}

private theorem upToLink_step (hl : h.Linked HasPrevious.previousTopoheight) {p : TopoHeight} {v : V}
    (hv : h.version p = some v) :
    Function.update (upToLink h (some p)) p none = upToLink h (HasPrevious.previousTopoheight v) := by
  funext u
  by_cases hu : u = p
  · rw [hu, Function.update_self]
    cases hlink : HasPrevious.previousTopoheight v with
    | none => rfl
    | some q => exact (if_neg (Nat.not_le.mpr (hl.link_lt hv hlink))).symm
  · rw [Function.update_of_ne hu]
    cases hlink : HasPrevious.previousTopoheight v with
    | none =>
      show (if u ≤ p then h.version u else none) = none
      by_cases hle : u ≤ p
      · rw [if_pos hle]
        exact hl.link_none p v hv hlink u (Nat.lt_of_le_of_ne hle hu)
      · rw [if_neg hle]
    | some q =>
      obtain ⟨hqp, -, hbetween⟩ := hl.link_some p v q hv hlink
      show (if u ≤ p then h.version u else none) = if u ≤ q then h.version u else none
      by_cases huq : u ≤ q
      · rw [if_pos huq, if_pos (Nat.le_of_lt (Nat.lt_of_le_of_lt huq hqp))]
      · rw [if_neg huq]
        by_cases hle : u ≤ p
        · rw [if_pos hle]
          exact hbetween u (Nat.lt_of_not_le huq) (Nat.lt_of_le_of_ne hle hu)
        · rw [if_neg hle]

private theorem deleteVersionsAbove_ended (context : DiskContext) (hversions : tr.version key = upToLink h none)
    (hcovers : ∀ w, w ≤ T → (h.version w).isSome → ∃ p, (none : Option TopoHeight) = some p ∧ w ≤ p) (fuel : Nat) :
    deleteVersionsAbove key T context fuel none tr = .ok (h.newest T, tr) ∧ tr.version key = (h.upTo T).version := by
  have hempty : h.EmptyUntil T := by
    intro w hw
    refine Option.not_isSome_iff_eq_none.mp fun hstored => ?_
    obtain ⟨p, hp, -⟩ := hcovers w hw hstored
    cases hp
  refine ⟨?_, ?_⟩
  · rw [deleteVersionsAbove_none, History.newest_eq_none.mpr hempty]
  · rw [hversions]
    funext u
    show none = if u ≤ T then h.version u else none
    by_cases hu : u ≤ T
    · rw [if_pos hu, hempty u hu]
    · rw [if_neg hu]

theorem deleteVersionsAbove_upTo (hl : h.Linked HasPrevious.previousTopoheight) (context : DiskContext)
    {next : Option TopoHeight} (hnext : ∀ p, next = some p → (h.version p).isSome)
    (hversions : tr.version key = upToLink h next)
    (hcovers : ∀ w, w ≤ T → (h.version w).isSome → ∃ p, next = some p ∧ w ≤ p)
    {fuel : Nat} (hfuel : ∀ p, next = some p → @LT.lt Nat _ p fuel) :
    ∃ tr', deleteVersionsAbove key T context fuel next tr = .ok (h.newest T, tr') ∧
      tr'.version key = (h.upTo T).version ∧ tr'.pointers = tr.pointers ∧
      ∀ pk, (∀ u, pk ≠ getVersionedKey key u) → tr'.versions[pk]? = tr.versions[pk]? := by
  induction fuel generalizing next tr with
  | zero =>
    cases next with
    | none =>
      obtain ⟨hrun, hleft⟩ := deleteVersionsAbove_ended context hversions hcovers 0
      exact ⟨tr, hrun, hleft, rfl, fun _ _ => rfl⟩
    | some p => exact absurd (hfuel p rfl) (Nat.not_lt_zero p)
  | succ fuel ih =>
    cases next with
    | none =>
      obtain ⟨hrun, hleft⟩ := deleteVersionsAbove_ended context hversions hcovers (fuel + 1)
      exact ⟨tr, hrun, hleft, rfl, fun _ _ => rfl⟩
    | some p =>
      obtain ⟨v, hv⟩ := Option.isSome_iff_exists.mp (hnext p rfl)
      unfold deleteVersionsAbove
      by_cases hle : p ≤ T
      · have habove : ∀ w, p < w → w ≤ T → h.version w = none := by
          intro w hlt hw
          refine Option.not_isSome_iff_eq_none.mp fun hstored => ?_
          obtain ⟨q, hq, hwq⟩ := hcovers w hw hstored
          rw [Option.some.injEq] at hq
          exact absurd (hq ▸ hwq) (Nat.not_le.mpr hlt)
        rw [if_pos hle, History.newest_eq_some.mpr ⟨hle, hnext p rfl, habove⟩]
        refine ⟨tr, rfl, ?_, rfl, fun _ _ => rfl⟩
        rw [hversions]
        funext u
        show (if u ≤ p then h.version u else none) = if u ≤ T then h.version u else none
        by_cases hu : u ≤ p
        · rw [if_pos hu, if_pos (Nat.le_trans hu hle)]
        · rw [if_neg hu]
          by_cases huT : u ≤ T
          · rw [if_pos huT, habove u (Nat.lt_of_not_le hu) huT]
          · rw [if_neg huT]
      · have hstored : tr.version key p = some v := by
          rw [hversions]
          exact (if_pos (Nat.le_refl p)).trans hv
        rw [if_neg hle, hstored]
        have hrest : (tr.removeAt key p).version key = upToLink h (HasPrevious.previousTopoheight v) := by
          rw [version_removeAt, hversions, upToLink_step hl hv]
        have hcovers' : ∀ w, w ≤ T → (h.version w).isSome → ∃ q, HasPrevious.previousTopoheight v = some q ∧ w ≤ q :=
          fun w hw hstored => hl.exists_link hv hstored (Nat.lt_of_le_of_lt hw (Nat.lt_of_not_le hle))
        have hfuel' : ∀ q, HasPrevious.previousTopoheight v = some q → @LT.lt Nat _ q fuel := fun q hq =>
          Nat.lt_of_lt_of_le (hl.link_lt hv hq) (Nat.le_of_lt_succ (hfuel p rfl))
        obtain ⟨tr', hrun, hleft, hpointers, hothers⟩ := ih (fun q hq => hl.link_stored hv hq) hrest hcovers' hfuel'
        refine ⟨tr', hrun, hleft, hpointers, fun pk hpk => (hothers pk hpk).trans ?_⟩
        exact FiniteMap.getElem?_erase_of_ne _ (hpk p).symm

theorem actsOn_deletePointerAbove (hl : (tr.history key).Linked HasPrevious.previousTopoheight) (context : DiskContext)
    {last : TopoHeight} (hlast : tr.pointers[key]? = some last) :
    ∃ tr', deletePointerAbove T context tr (key, last) = .ok tr' ∧ ActsOn (History.upTo · T) key tr tr' := by
  obtain ⟨hstored, hnewer⟩ := hl.last_some last hlast
  obtain ⟨v, hv⟩ := Option.isSome_iff_exists.mp hstored
  have hversion : tr.version key last = some v := hv
  unfold deletePointerAbove
  by_cases hlt : T < last
  · have hcut : (tr.removeAt key last).version key = upToLink (tr.history key) (HasPrevious.previousTopoheight v) := by
      rw [version_removeAt, ← upToLink_step hl hv]
      funext u
      by_cases hu : u = last
      · rw [hu, Function.update_self, Function.update_self]
      · rw [Function.update_of_ne hu, Function.update_of_ne hu]
        show tr.version key u = if u ≤ last then tr.version key u else none
        by_cases hle : u ≤ last
        · rw [if_pos hle]
        · rw [if_neg hle]
          exact hnewer u (Nat.lt_of_not_le hle)
    have hcovers : ∀ w, w ≤ T → ((tr.history key).version w).isSome →
        ∃ q, HasPrevious.previousTopoheight v = some q ∧ w ≤ q :=
      fun w hw hstored => hl.exists_link hv hstored (Nat.lt_of_le_of_lt hw hlt)
    have hfuel : ∀ q, HasPrevious.previousTopoheight v = some q → @LT.lt Nat _ q (tr.fuel last) := fun q hq =>
      Nat.lt_of_lt_of_le (hl.link_lt hv hq) (Nat.le_trans (Nat.le_add_right last tr.versions.size) (Nat.le_add_right _ 2))
    obtain ⟨tr', hrun, hleft, hpointers, hothers⟩ :=
      deleteVersionsAbove_upTo hl context (fun q hq => hl.link_stored hv hq) hcut hcovers hfuel
    have hpointers' : tr'.pointers = tr.pointers := hpointers
    have hothers' : ∀ pk, (∀ u, pk ≠ getVersionedKey key u) → tr'.versions[pk]? = tr.versions[pk]? := fun pk hpk =>
      (hothers pk hpk).trans (FiniteMap.getElem?_erase_of_ne _ (hpk last).symm)
    rw [if_pos hlt]
    simp only [hversion, hrun]
    cases hnew : (tr.history key).newest T with
    | none =>
      refine ⟨_, rfl, History.ext ?_ hleft, fun key' hne => ?_, hothers'⟩
      · exact (FiniteMap.getElem?_erase_self' _ _).trans hnew.symm
      · exact (FiniteMap.getElem?_erase_of_ne _ hne.symm).trans (by rw [hpointers'])
    | some topo =>
      refine ⟨_, rfl, History.ext ?_ hleft, fun key' hne => ?_, hothers'⟩
      · exact (FiniteMap.getElem?_insert_self' _ _ _).trans hnew.symm
      · exact (FiniteMap.getElem?_insert_of_ne _ _ hne.symm).trans (by rw [hpointers'])
  · rw [if_neg hlt]
    refine ⟨tr, rfl, ?_, fun _ _ => rfl, fun _ _ => rfl⟩
    refine ((History.linked_iff.mp hl).1.upTo_eq_self fun u hu => ?_).symm
    exact hnewer u (Nat.lt_of_le_of_lt (Nat.le_of_not_lt hlt) hu)

/-- The walks along the chains leave every history up to `T`. -/
theorem acts_deleteVersionedTreeAboveTopoheight (hwf : tr.WellFormed) (T : TopoHeight) (context : DiskContext) :
    ∃ tr', tr.deleteVersionedTreeAboveTopoheight T context = .ok tr' ∧ Acts (History.upTo · T) tr tr' := by
  refine foldlM_actsOn (k := Prod.fst) (FiniteMap.toList_keys_distinct tr.pointers) ?_ ?_
  · rintro ⟨key, last⟩ hentry tr₁ hsame
    have hlast : tr₁.pointers[key]? = some last :=
      (congrArg History.last hsame).trans (Std.ExtTreeMap.mem_toList_iff_getElem?_eq_some.mp hentry)
    have hl : (tr₁.history key).Linked HasPrevious.previousTopoheight := by
      rw [hsame]
      exact hwf key
    exact actsOn_deletePointerAbove hl context hlast
  · intro key hkey
    have hlast : tr.pointers[key]? = none := by
      refine Option.eq_none_iff_forall_ne_some.mpr fun last hlast => ?_
      exact hkey (key, last) (Std.ExtTreeMap.mem_toList_iff_getElem?_eq_some.mpr hlast) rfl
    exact (History.linked_iff.mp (hwf key)).1.upTo_eq_self fun u _ => (hwf key).last_none hlast u

end AboveTopoheight

section Runs

variable {V : Type} [HasPrevious V] {tr : VersionedTrees V}

theorem acts_deleteVersionedTrees (tr : VersionedTrees V) (ts : List TopoHeight) :
    ∃ tr', ts.foldlM deleteVersionedTreeAtTopoheight tr = .ok tr' ∧
      Acts (fun h => ts.foldl (History.dropAt HasPrevious.previousTopoheight) h) tr tr' := by
  induction ts generalizing tr with
  | nil => exact ⟨tr, rfl, .refl tr⟩
  | cons t ts ih =>
    obtain ⟨tr₁, hfirst, hacts⟩ := acts_deleteVersionedTreeAtTopoheight tr t
    obtain ⟨tr', hrest, hacts'⟩ := ih tr₁
    exact ⟨tr', FiniteMap.foldlM_cons_ok.mpr ⟨tr₁, hfirst, hrest⟩, hacts.trans hacts'⟩

/-- Deleting above `T` at once, upwards or downwards leaves the same trees: the versions up to `T`, with every pointer
at the newest of them. -/
theorem deletions_agree (hwf : tr.WellFormed) (context : DiskContext) (T N : Nat)
    (hall : ∀ key u, N < u → tr.version key u = none) :
    ∃ tr', tr.deleteVersionedTreeAboveTopoheight T context = .ok tr' ∧
      (List.range' (T + 1) (N - T)).foldlM deleteVersionedTreeAtTopoheight tr = .ok tr' ∧
      (List.range' (T + 1) (N - T)).reverse.foldlM deleteVersionedTreeAtTopoheight tr = .ok tr' ∧
      (∀ key u, tr'.version key u = if u ≤ T then tr.version key u else none) ∧
      (∀ key, (tr'.history key).Headed) ∧
      ∀ key, (∀ u, u ≤ T → tr.version key u = none) → tr'.pointers[key]? = none := by
  have hnone : ∀ key u, T + (N - T) < u → tr.version key u = none := fun key u hu => hall key u (by omega)
  obtain ⟨tr', habove, hacts⟩ := acts_deleteVersionedTreeAboveTopoheight hwf T context
  obtain ⟨up, hup, hactsUp⟩ := acts_deleteVersionedTrees tr (List.range' (T + 1) (N - T))
  obtain ⟨down, hdown, hactsDown⟩ := acts_deleteVersionedTrees tr (List.range' (T + 1) (N - T)).reverse
  have hsameUp : up = tr' := (hactsUp.congr fun key => (hwf key).dropAt_ascending (hnone key)).unique hacts
  have hsameDown : down = tr' := (hactsDown.congr fun key => (hwf key).dropAt_descending (hnone key)).unique hacts
  refine ⟨tr', habove, hsameUp ▸ hup, hsameDown ▸ hdown, fun key u => ?_, fun key => ?_, fun key hempty => ?_⟩
  · exact congrFun (congrArg History.version (hacts.history key)) u
  · rw [hacts.history key]
    exact History.headed_upTo _ T
  · exact (congrArg History.last (hacts.history key)).trans (History.newest_eq_none.mpr hempty)

end Runs

def twoKeys : VersionedTrees (Versioned Nat) :=
  (((empty.setLast [7] 2 ⟨none, 1⟩).setLast [7] 5 ⟨some 2, 2⟩).setLast [7] 10 ⟨some 5, 3⟩).setLast [8] 7 ⟨none, 4⟩

theorem twoKeys_wellFormed : twoKeys.WellFormed := by
  have hother : ([7] : Key) ≠ [8] := by decide
  have hnew : (((empty.setLast [7] 2 ⟨none, 1⟩).setLast [7] 5 ⟨some 2, 2⟩).setLast [7] 10
      (⟨some 5, 3⟩ : Versioned Nat)).pointers[([8] : Key)]? = none := by
    rw [pointers_setLast_of_ne _ _ _ _ hother, pointers_setLast_of_ne _ _ _ _ hother,
      pointers_setLast_of_ne _ _ _ _ hother]
    exact Std.ExtTreeMap.getElem?_empty
  refine (((WellFormed.empty.setLast rfl ?_).setLast rfl ?_).setLast rfl ?_).setLast hnew.symm ?_
  · exact fun l hl => nomatch hl
  · exact fun l hl => lt_of_pointers_setLast (by decide) hl
  · exact fun l hl => lt_of_pointers_setLast (by decide) hl
  · intro l hl
    rw [hnew] at hl
    cases hl

theorem twoKeys_stored (key : Key) (u : Nat) (hu : 10 < u) : twoKeys.version key u = none := by
  have hne : ∀ t : Nat, t ≤ 10 → t ≠ u := fun t ht => Nat.ne_of_lt (Nat.lt_of_le_of_lt ht hu)
  rw [twoKeys, version_setLast_of_ne _ _ _ _ fun hc => hne 7 (by decide) hc.2,
    version_setLast_of_ne _ _ _ _ fun hc => hne 10 (by decide) hc.2,
    version_setLast_of_ne _ _ _ _ fun hc => hne 5 (by decide) hc.2,
    version_setLast_of_ne _ _ _ _ fun hc => hne 2 (by decide) hc.2]
  exact Std.ExtTreeMap.getElem?_empty

/-- Above 3 the first key keeps its oldest version, the second one loses its pointer. -/
theorem deletions_agree_twoKeys : ∃ tr', twoKeys.deleteVersionedTreeAboveTopoheight 3 .lastNonce = .ok tr' ∧
    (List.range' 4 7).foldlM deleteVersionedTreeAtTopoheight twoKeys = .ok tr' ∧ tr'.pointers[([8] : Key)]? = none := by
  obtain ⟨tr', habove, hup, -, -, -, hgone⟩ :=
    deletions_agree twoKeys_wellFormed .lastNonce 3 10 twoKeys_stored
  refine ⟨tr', habove, hup, hgone [8] fun u hu => ?_⟩
  obtain rfl | rfl | rfl | rfl : u = 0 ∨ u = 1 ∨ u = 2 ∨ u = 3 := by omega
  · decide +kernel
  · decide +kernel
  · decide +kernel
  · decide +kernel

end Xelis.Storage.VersionedTrees
