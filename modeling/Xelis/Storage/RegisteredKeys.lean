import Xelis.Lib.IndexSet
import Xelis.Lib.Placement
import Xelis.Storage.Versions

namespace Xelis.Storage

open Lib (FiniteMap IndexSet)

def entryTopoheight (entry : Key) : TopoHeight := Lib.ofDigitsBE (entry.take 8)

/-- The account behind the topoheight. -/
def entryKey (entry : Key) : PublicKey := keyHash ((entry.drop 8).take 32)

def inRange (lo hi : TopoHeight) (entry : Key) : Bool := decide (lo ≤ entryTopoheight entry ∧ entryTopoheight entry ≤ hi)

def topoheightFromEntry (entry : Key) : Except BlockchainError TopoHeight :=
  if entry.length < 8 then .error (.errorOnReader .invalidSize) else .ok (entryTopoheight entry)

section Definitions

variable {P : Type} (s : Storage P)

def getAccountRegistrationTopoheight (key : PublicKey) : Except BlockchainError TopoHeight :=
  match s.registrations[keyBytes key]? with
  | some topo => .ok topo
  | none => .error (.notFoundOnDisk .accountRegistrationTopoHeight)

def deleteAccountRegistration (key : PublicKey) : Storage P :=
  match s.registrations[keyBytes key]? with
  | some topo =>
    { s with
      registrations := s.registrations.erase (keyBytes key)
      registrationsPrefixed := s.registrationsPrefixed.erase (prefixedDbKey topo key) }
  | none => s

/-- The loop over the ordered registrations. It counts those of the topoheight that it is at. -/
def collectKeys (maximum skip : Nat) (minTopoheight maxTopoheight : TopoHeight) :
    List Key → Nat → Nat → TopoHeight → IndexSet PublicKey → Except BlockchainError (IndexSet PublicKey × Nat)
  | [], _, localIndex, _, keys => .ok (keys, localIndex)
  | entry :: entries, skipCount, localIndex, currentTopo, keys => do
    let topo ← topoheightFromEntry entry
    if topo < minTopoheight ∨ maxTopoheight < topo then
      collectKeys maximum skip minTopoheight maxTopoheight entries skipCount localIndex currentTopo keys
    else
      let localIndex := (if topo ≠ currentTopo then 0 else localIndex) + 1
      if skipCount < skip then
        collectKeys maximum skip minTopoheight maxTopoheight entries (skipCount + 1) localIndex topo keys
      else
        let key ← hashFromKey ((entry.drop 8).take 32)
        let keys := keys.insert key
        if maximum ≤ keys.elems.length then return (keys, localIndex)
        collectKeys maximum skip minTopoheight maxTopoheight entries skipCount localIndex topo keys

/-- A page of the accounts registered in a range, and the place of the last one at its topoheight. -/
def getRegisteredKeys (maximum skip : Nat) (minTopoheight maxTopoheight : TopoHeight) :
    Except BlockchainError (IndexSet PublicKey × Nat) :=
  collectKeys maximum skip minTopoheight maxTopoheight s.registrationsPrefixed.keys 0 0 0 .empty

def registrationOf (key : PublicKey) : Option TopoHeight := s.registrations[keyBytes key]?

def registeredIn (lo hi : TopoHeight) : List Key := s.registrationsPrefixed.keys.filter (inRange lo hi)

/-- The ordered registrations are those of the accounts. -/
def RegistrationsAgree : Prop :=
  ∀ entry, entry ∈ s.registrationsPrefixed ↔ ∃ topo key, entry = prefixedDbKey topo key ∧ s.registrationOf key = some topo

end Definitions

section Entries

variable {P : Type} {s : Storage P} {topo : TopoHeight} {key : PublicKey} {lo hi : TopoHeight} {entry : Key}

@[simp] theorem entryTopoheight_prefixedDbKey (topo : TopoHeight) (key : PublicKey) :
    entryTopoheight (prefixedDbKey topo key) = topo := by
  rw [entryTopoheight, prefixedDbKey, List.take_left' (Lib.length_toBeBytes topo)]
  exact Lib.ofDigitsBE_toBeBytes topo

private theorem drop_prefixedDbKey (topo : TopoHeight) (key : PublicKey) :
    ((prefixedDbKey topo key).drop 8).take 32 = keyBytes key := by
  rw [prefixedDbKey, List.drop_left' (Lib.length_toBeBytes topo)]
  exact List.take_of_length_le (by rw [length_keyBytes])

@[simp] theorem entryKey_prefixedDbKey (topo : TopoHeight) (key : PublicKey) : entryKey (prefixedDbKey topo key) = key := by
  rw [entryKey, drop_prefixedDbKey, keyHash_keyBytes]

theorem topoheightFromEntry_prefixedDbKey (topo : TopoHeight) (key : PublicKey) :
    topoheightFromEntry (prefixedDbKey topo key) = .ok topo := by
  have hlength : (prefixedDbKey topo key).length = 40 := by
    rw [prefixedDbKey, List.length_append, Lib.length_toBeBytes, length_keyBytes]
  rw [topoheightFromEntry, if_neg (by omega), entryTopoheight_prefixedDbKey]

theorem hashFromKey_prefixedDbKey (topo : TopoHeight) (key : PublicKey) :
    hashFromKey (((prefixedDbKey topo key).drop 8).take 32) = .ok key := by
  rw [drop_prefixedDbKey, hashFromKey_keyBytes]

theorem prefixedDbKey_inj {topo' : TopoHeight} {key' : PublicKey} (h : prefixedDbKey topo key = prefixedDbKey topo' key') :
    topo = topo' ∧ key = key' :=
  ⟨by rw [← entryTopoheight_prefixedDbKey topo key, h, entryTopoheight_prefixedDbKey],
    by rw [← entryKey_prefixedDbKey topo key, h, entryKey_prefixedDbKey]⟩

/-- The order of the registrations. -/
def Precedes (a b : Key) : Prop := compare a b = .lt

instance : DecidableRel Precedes := fun a b => inferInstanceAs (Decidable (compare a b = .lt))

theorem Precedes.asymm (a b : Key) (h : Precedes a b) : ¬Precedes b a := by
  intro h'
  have hgt : compare a b = .gt := Std.OrientedCmp.gt_of_lt h'
  rw [h] at hgt
  cases hgt

theorem registrations_ordered (s : Storage P) : s.registrationsPrefixed.keys.Pairwise Precedes :=
  Std.ExtTreeMap.ordered_keys

theorem registeredIn_ordered (s : Storage P) (lo hi : TopoHeight) : (s.registeredIn lo hi).Pairwise Precedes :=
  (registrations_ordered s).filter _

theorem nodup_registeredIn (s : Storage P) (lo hi : TopoHeight) : (s.registeredIn lo hi).Nodup :=
  Lib.nodup_of_ordered Precedes.asymm (registeredIn_ordered s lo hi)

variable (hagree : s.RegistrationsAgree)
include hagree

theorem mem_registeredIn : prefixedDbKey topo key ∈ s.registeredIn lo hi ↔
    s.registrationOf key = some topo ∧ lo ≤ topo ∧ topo ≤ hi := by
  rw [registeredIn, List.mem_filter, inRange, decide_eq_true_eq, Std.ExtTreeMap.mem_keys, hagree,
    entryTopoheight_prefixedDbKey]
  refine and_congr_left fun _ => ⟨?_, fun h => ⟨topo, key, rfl, h⟩⟩
  rintro ⟨topo', key', heq, h⟩
  obtain ⟨rfl, rfl⟩ := prefixedDbKey_inj heq
  exact h

theorem exists_of_mem_registeredIn (h : entry ∈ s.registeredIn lo hi) :
    ∃ topo key, entry = prefixedDbKey topo key ∧ s.registrationOf key = some topo ∧ lo ≤ topo ∧ topo ≤ hi := by
  have hmem : entry ∈ s.registrationsPrefixed := Std.ExtTreeMap.mem_keys.mp (List.mem_filter.mp h).1
  obtain ⟨topo, key, rfl, -⟩ := (hagree entry).mp hmem
  exact ⟨topo, key, rfl, (mem_registeredIn hagree).mp h⟩

theorem topoheight_le_of_precedes {a b : Key} (ha : a ∈ s.registrationsPrefixed) (hb : b ∈ s.registrationsPrefixed)
    (h : Precedes a b) : entryTopoheight a ≤ entryTopoheight b := by
  obtain ⟨ta, ka, rfl, -⟩ := (hagree a).mp ha
  obtain ⟨tb, kb, rfl, -⟩ := (hagree b).mp hb
  rw [entryTopoheight_prefixedDbKey, entryTopoheight_prefixedDbKey]
  exact Lib.le_of_compare_toBeBytes h

theorem entry_eq_of_key {a b : Key} (ha : a ∈ s.registrationsPrefixed) (hb : b ∈ s.registrationsPrefixed)
    (h : entryKey a = entryKey b) : a = b := by
  obtain ⟨ta, ka, rfl, hka⟩ := (hagree a).mp ha
  obtain ⟨tb, kb, rfl, hkb⟩ := (hagree b).mp hb
  rw [entryKey_prefixedDbKey, entryKey_prefixedDbKey] at h
  subst h
  rw [hka] at hkb
  rw [Option.some.inj hkb]

end Entries

section Places

def lastTopoheight (entries : List Key) : TopoHeight := (entries.getLast?.map entryTopoheight).getD 0

def placeOf (entries : List Key) : Nat := (entries.filter fun entry => entryTopoheight entry = lastTopoheight entries).length

/-- The topoheights do not go down. -/
def Ascending (entries : List Key) : Prop := entries.Pairwise fun a b => entryTopoheight a ≤ entryTopoheight b

variable {entries : List Key} {entry : Key}

@[simp] theorem lastTopoheight_concat (entries : List Key) (entry : Key) :
    lastTopoheight (entries ++ [entry]) = entryTopoheight entry := by
  rw [lastTopoheight, List.getLast?_concat]
  rfl

theorem Ascending.le_last (h : Ascending entries) (hmem : entry ∈ entries) : entryTopoheight entry ≤ lastTopoheight entries := by
  rcases List.eq_nil_or_concat' entries with rfl | ⟨init, last, rfl⟩
  · cases hmem
  · rw [lastTopoheight_concat]
    rcases List.mem_append.mp hmem with hinit | hlast
    · exact (List.pairwise_append.mp h).2.2 entry hinit last (List.mem_singleton_self last)
    · rw [List.mem_singleton.mp hlast]

/-- Counting on as the loop does. -/
theorem placeOf_concat (h : Ascending (entries ++ [entry])) :
    placeOf (entries ++ [entry]) = (if entryTopoheight entry ≠ lastTopoheight entries then 0 else placeOf entries) + 1 := by
  obtain ⟨hentries, -, hacross⟩ := List.pairwise_append.mp h
  have hself : [entry].filter (fun e => decide (entryTopoheight e = entryTopoheight entry)) = [entry] :=
    List.filter_cons_of_pos (decide_eq_true rfl)
  rw [placeOf, lastTopoheight_concat, List.filter_append, hself, List.length_append, List.length_singleton]
  by_cases hsame : entryTopoheight entry = lastTopoheight entries
  · rw [if_neg (not_not_intro hsame), placeOf, hsame]
  · rw [if_pos hsame]
    have hnone : entries.filter (fun e => decide (entryTopoheight e = entryTopoheight entry)) = [] := by
      refine List.filter_eq_nil_iff.mpr fun e he => ?_
      rw [decide_eq_true_eq]
      intro heq
      have hle := Ascending.le_last hentries he
      rcases List.eq_nil_or_concat' entries with rfl | ⟨init, last, rfl⟩
      · cases he
      · rw [lastTopoheight_concat] at hle hsame
        have hlast := hacross last (List.mem_append_right _ (List.mem_singleton_self last)) entry (List.mem_singleton_self entry)
        exact hsame (Nat.le_antisymm (heq ▸ hle) hlast)
    rw [hnone, List.length_nil]

end Places

section Listing

variable {P : Type} {lo hi : TopoHeight}

theorem collectKeys_eq {maximum skip skipCount : Nat} {keys : IndexSet PublicKey} {entries passed : List Key}
    (hentries : ∀ e ∈ entries, ∃ topo key, e = prefixedDbKey topo key)
    (hascending : Ascending (passed ++ entries.filter (inRange lo hi)))
    (hnodup : (keys.elems ++ (entries.filter (inRange lo hi)).map entryKey).Nodup) (hroom : keys.elems.length < maximum) :
    ∃ page, collectKeys maximum skip lo hi entries skipCount (placeOf passed) (lastTopoheight passed) keys =
        .ok (page, placeOf (passed ++ (entries.filter (inRange lo hi)).take
          (skip - skipCount + (maximum - keys.elems.length)))) ∧
      page.elems = keys.elems ++ (((entries.filter (inRange lo hi)).drop (skip - skipCount)).take
        (maximum - keys.elems.length)).map entryKey := by
  induction entries generalizing skipCount keys passed with
  | nil => exact ⟨keys, by simp [collectKeys], by simp⟩
  | cons e entries ih =>
    obtain ⟨topo, key, rfl⟩ := hentries e List.mem_cons_self
    have hrest := fun e' he' => hentries e' (List.mem_cons_of_mem _ he')
    unfold collectKeys
    rw [topoheightFromEntry_prefixedDbKey]
    dsimp only [bind, Except.bind]
    by_cases hin : inRange lo hi (prefixedDbKey topo key) = true
    · have hbounds : lo ≤ topo ∧ topo ≤ hi := by simpa [inRange] using hin
      rw [List.filter_cons_of_pos hin] at hascending hnodup ⊢
      rw [List.map_cons, entryKey_prefixedDbKey] at hnodup
      rw [if_neg (not_or.mpr ⟨Nat.not_lt.mpr hbounds.1, Nat.not_lt.mpr hbounds.2⟩)]
      have hplace : (if topo ≠ lastTopoheight passed then 0 else placeOf passed) + 1 =
          placeOf (passed ++ [prefixedDbKey topo key]) := by
        rw [placeOf_concat (hascending.sublist ((List.singleton_sublist.mpr List.mem_cons_self).append_left _)),
          entryTopoheight_prefixedDbKey]
      have hascending' : Ascending ((passed ++ [prefixedDbKey topo key]) ++ entries.filter (inRange lo hi)) := by
        rw [List.append_assoc]
        exact hascending
      rw [hplace]
      by_cases hskip : skipCount < skip
      · have hnodup' : (keys.elems ++ (entries.filter (inRange lo hi)).map entryKey).Nodup :=
          hnodup.sublist ((List.sublist_cons_self _ _).append_left _)
        obtain ⟨page, hpage, helems⟩ := ih hrest hascending' hnodup' hroom
        have hleft : skip - skipCount = skip - (skipCount + 1) + 1 := by omega
        rw [lastTopoheight_concat, entryTopoheight_prefixedDbKey, List.append_assoc] at hpage
        refine ⟨page, ?_, ?_⟩
        · rw [if_pos hskip, hpage, hleft, Nat.add_right_comm, List.take_succ_cons]
          rfl
        · rw [helems, hleft, List.drop_succ_cons]
      · have hleft : skip - skipCount = 0 := by omega
        have hroom' : maximum - keys.elems.length = maximum - (keys.elems.length + 1) + 1 := by omega
        have hnotIn : key ∉ keys.elems := fun hmem => (List.nodup_append.mp hnodup).2.2 key hmem key List.mem_cons_self rfl
        have helems := IndexSet.elems_insert_of_not_mem hnotIn
        have hlength : (keys.insert key).elems.length = keys.elems.length + 1 := by
          rw [helems, List.length_append, List.length_singleton]
        rw [if_neg hskip, hashFromKey_prefixedDbKey, hleft, Nat.zero_add, List.drop_zero, hroom', List.take_succ_cons,
          List.map_cons, entryKey_prefixedDbKey]
        dsimp only
        by_cases hfull : maximum ≤ (keys.insert key).elems.length
        · have hnone : maximum - (keys.elems.length + 1) = 0 := by omega
          refine ⟨keys.insert key, ?_, ?_⟩
          · rw [if_pos hfull, hnone, List.take_zero]
            rfl
          · rw [helems, hnone, List.take_zero, List.map_nil]
        · have hnodup' : ((keys.insert key).elems ++ (entries.filter (inRange lo hi)).map entryKey).Nodup := by
            rw [helems, List.append_assoc]
            exact hnodup
          obtain ⟨page, hpage, hpageElems⟩ := ih hrest hascending' hnodup' (by omega)
          rw [lastTopoheight_concat, entryTopoheight_prefixedDbKey, hleft, Nat.zero_add, hlength, List.append_assoc] at hpage
          rw [hleft, List.drop_zero, hlength, helems, List.append_assoc] at hpageElems
          refine ⟨page, ?_, hpageElems⟩
          rw [if_neg hfull, hpage]
          rfl
    · have hout : topo < lo ∨ hi < topo := by
        have hbounds : ¬(lo ≤ topo ∧ topo ≤ hi) := by simpa [inRange] using hin
        refine Classical.or_iff_not_imp_left.mpr fun h => Nat.lt_of_not_le fun h' => hbounds ⟨Nat.le_of_not_lt h, h'⟩
      rw [List.filter_cons_of_neg hin] at hascending hnodup ⊢
      rw [if_pos hout]
      exact ih hrest hascending hnodup hroom

variable {s : Storage P} (hagree : s.RegistrationsAgree)
include hagree

theorem registrations_ascending : Ascending s.registrationsPrefixed.keys :=
  (registrations_ordered s).imp_of_mem fun ha hb h =>
    topoheight_le_of_precedes hagree (Std.ExtTreeMap.mem_keys.mp ha) (Std.ExtTreeMap.mem_keys.mp hb) h

theorem registeredIn_ascending (lo hi : TopoHeight) : Ascending (s.registeredIn lo hi) :=
  (registrations_ascending hagree).filter _

theorem nodup_registeredKeys (lo hi : TopoHeight) : ((s.registeredIn lo hi).map entryKey).Nodup := by
  refine List.pairwise_map.mpr ((nodup_registeredIn s lo hi).imp_of_mem fun ha hb hne heq => hne ?_)
  exact entry_eq_of_key hagree (Std.ExtTreeMap.mem_keys.mp (List.mem_filter.mp ha).1)
    (Std.ExtTreeMap.mem_keys.mp (List.mem_filter.mp hb).1) heq

theorem getRegisteredKeys_eq {maximum : Nat} (hpos : 0 < maximum) (skip : Nat) (lo hi : TopoHeight) :
    ∃ page, s.getRegisteredKeys maximum skip lo hi = .ok (page, placeOf ((s.registeredIn lo hi).take (skip + maximum))) ∧
      page.elems = (((s.registeredIn lo hi).drop skip).take maximum).map entryKey := by
  have hentries (e : Key) (he : e ∈ s.registrationsPrefixed.keys) : ∃ topo key, e = prefixedDbKey topo key := by
    obtain ⟨topo, key, heq, -⟩ := (hagree e).mp (Std.ExtTreeMap.mem_keys.mp he)
    exact ⟨topo, key, heq⟩
  have hascending : Ascending ([] ++ s.registeredIn lo hi) := registeredIn_ascending hagree lo hi
  have hnodup : ((IndexSet.empty : IndexSet PublicKey).elems ++ (s.registeredIn lo hi).map entryKey).Nodup :=
    nodup_registeredKeys hagree lo hi
  exact collectKeys_eq hentries hascending hnodup hpos

end Listing

section Writes

variable {P : Type} {s : Storage P} {key other : PublicKey} {topo : TopoHeight}

theorem registrationOf_set_self (s : Storage P) (key : PublicKey) (topo : TopoHeight) :
    (s.setAccountRegistrationTopoheight key topo).registrationOf key = some topo :=
  FiniteMap.getElem?_insert_self' _ _ _

theorem registrationOf_set_of_ne (s : Storage P) (hne : key ≠ other) (topo : TopoHeight) :
    (s.setAccountRegistrationTopoheight key topo).registrationOf other = s.registrationOf other :=
  FiniteMap.getElem?_insert_of_ne _ _ fun h => hne (keyBytes_injective h)

theorem registrationOf_delete_self (s : Storage P) (key : PublicKey) :
    (s.deleteAccountRegistration key).registrationOf key = none := by
  unfold deleteAccountRegistration
  cases h : s.registrations[keyBytes key]? with
  | none => exact h
  | some topo => exact FiniteMap.getElem?_erase_self' _ _

theorem registrationOf_delete_of_ne (s : Storage P) (hne : key ≠ other) :
    (s.deleteAccountRegistration key).registrationOf other = s.registrationOf other := by
  unfold deleteAccountRegistration
  cases s.registrations[keyBytes key]? with
  | none => rfl
  | some topo => exact FiniteMap.getElem?_erase_of_ne _ fun h => hne (keyBytes_injective h)

private theorem mem_withoutKey (hagree : s.RegistrationsAgree) (key : PublicKey) (entry : Key) :
    (entry ∈ match s.registrations[keyBytes key]? with
      | some old => s.registrationsPrefixed.erase (prefixedDbKey old key)
      | none => s.registrationsPrefixed) ↔
      ∃ topo other, entry = prefixedDbKey topo other ∧ key ≠ other ∧ s.registrationOf other = some topo := by
  cases h : s.registrations[keyBytes key]? with
  | none =>
    refine (hagree entry).trans ⟨?_, ?_⟩
    · rintro ⟨topo, other, rfl, hother⟩
      refine ⟨topo, other, rfl, ?_, hother⟩
      rintro rfl
      rw [registrationOf, h] at hother
      cases hother
    · rintro ⟨topo, other, rfl, -, hother⟩
      exact ⟨topo, other, rfl, hother⟩
  | some old =>
    dsimp only
    rw [Std.ExtTreeMap.mem_erase, hagree entry]
    constructor
    · rintro ⟨hne, topo, other, rfl, hother⟩
      refine ⟨topo, other, rfl, ?_, hother⟩
      rintro rfl
      rw [registrationOf, h] at hother
      exact hne (by rw [Option.some.inj hother]; exact Std.ReflCmp.compare_self)
    · rintro ⟨topo, other, rfl, hne, hother⟩
      exact ⟨fun heq => hne (prefixedDbKey_inj (Std.LawfulEqCmp.eq_of_compare heq)).2, topo, other, rfl, hother⟩

theorem RegistrationsAgree.set (hagree : s.RegistrationsAgree) (key : PublicKey) (topo : TopoHeight) :
    (s.setAccountRegistrationTopoheight key topo).RegistrationsAgree := by
  intro entry
  refine Std.ExtTreeMap.mem_insert.trans ((or_congr Std.LawfulEqCmp.compare_eq_iff_eq (mem_withoutKey hagree key entry)).trans ?_)
  constructor
  · rintro (rfl | ⟨topo', other, rfl, hne, hother⟩)
    · exact ⟨topo, key, rfl, registrationOf_set_self s key topo⟩
    · exact ⟨topo', other, rfl, (registrationOf_set_of_ne s hne topo).trans hother⟩
  · rintro ⟨topo', other, rfl, hother⟩
    by_cases heq : key = other
    · subst heq
      rw [registrationOf_set_self] at hother
      exact .inl (by rw [Option.some.inj hother])
    · rw [registrationOf_set_of_ne s heq] at hother
      exact .inr ⟨topo', other, rfl, heq, hother⟩

theorem RegistrationsAgree.delete (hagree : s.RegistrationsAgree) (key : PublicKey) :
    (s.deleteAccountRegistration key).RegistrationsAgree := by
  intro entry
  have hmem : entry ∈ (s.deleteAccountRegistration key).registrationsPrefixed ↔
      entry ∈ match s.registrations[keyBytes key]? with
        | some old => s.registrationsPrefixed.erase (prefixedDbKey old key)
        | none => s.registrationsPrefixed := by
    unfold deleteAccountRegistration
    cases s.registrations[keyBytes key]? with
    | none => rfl
    | some old => rfl
  rw [hmem, mem_withoutKey hagree key entry]
  constructor
  · rintro ⟨topo, other, rfl, hne, hother⟩
    exact ⟨topo, other, rfl, (registrationOf_delete_of_ne s hne).trans hother⟩
  · rintro ⟨topo, other, rfl, hother⟩
    have hne : key ≠ other := by
      rintro rfl
      rw [registrationOf_delete_self] at hother
      cases hother
    exact ⟨topo, other, rfl, hne, (registrationOf_delete_of_ne s hne).symm.trans hother⟩

end Writes

end Xelis.Storage
