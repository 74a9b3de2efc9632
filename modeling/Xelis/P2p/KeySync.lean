import Xelis.P2p.BootstrapRequest

/-! How a fast sync goes through the accounts: the node through its own ones, and its peer through those asked for. -/

namespace Xelis.P2p

open Xelis.Storage

section Source

variable {P : Type}

/-- Only the pointer goes, the version stays. -/
def deleteLastTopoheightForNonce (s : Storage P) (key : PublicKey) : Storage P :=
  { s with nonces := { s.nonces with pointers := s.nonces.pointers.erase (keyBytes key) } }

/-- What the answer for one account does to it. -/
def handleNonce (stableTopoheight : TopoHeight) (s : Storage P) : PublicKey × Wire.State Nat → Storage P
  | (_, .clean) => s
  | (key, .deleted) => (deleteLastTopoheightForNonce s key).deleteAccountRegistration key
  | (key, .none) => (deleteLastTopoheightForNonce s key).deleteAccountRegistration key
  | (key, .some nonce) =>
    (s.setLastNonceTo key stableTopoheight ⟨none, nonce⟩).setAccountRegistrationTopoheight key stableTopoheight

/-- Accounts without an answer are left as they are. -/
def handleNonces (s : Storage P) (keys : List PublicKey) (nonces : List (Wire.State Nat)) (stableTopoheight : TopoHeight) :
    Storage P := (keys.zip nonces).foldl (handleNonce stableTopoheight) s

/-- Where the loop over the local accounts is. -/
structure KeyWalk (P : Type) where
  storage : Storage P
  i : Nat
  minimumTopoheight : TopoHeight
  skip : Nat

/-- What a node goes by: the size of a page, the topoheights, and what its peer answers in a turn. -/
structure KeySync where
  maximum : Nat
  ourTopoheight : TopoHeight
  stableTopoheight : TopoHeight
  peer : Nat → List PublicKey → List (Wire.State Nat)

variable (c : KeySync)

/-- One turn: a page of accounts, which are then brought up to date with the answers of the peer. -/
def walkTurn (w : KeyWalk P) : Except BlockchainError (List PublicKey × Option (KeyWalk P)) := do
  let (keys, s) ← w.storage.getRegisteredKeys c.maximum w.skip w.minimumTopoheight c.ourTopoheight
  match keys.elems.getLast? with
  | none => return (keys.elems, none)
  | some key =>
    let minimumTopoheight ← w.storage.getAccountRegistrationTopoheight key
    let storage := handleNonces w.storage keys.elems (c.peer w.i keys.elems) c.stableTopoheight
    if keys.elems.length < c.maximum then return (keys.elems, none)
    return (keys.elems, some ⟨storage, w.i + 1, minimumTopoheight, s⟩)

/-- The loop, with the accounts that it went through. -/
def walkKeys : Nat → KeyWalk P → Except BlockchainError (List PublicKey)
  | 0, _ => .error .endlessChain
  | turns + 1, w => do
    let (keys, next) ← walkTurn c w
    match next with
    | none => return keys
    | some w => return keys ++ (← walkKeys turns w)

def KeyWalk.start (s : Storage P) : KeyWalk P := ⟨s, 0, 0, 0⟩

variable (maximum : Nat)

/-- Asking for page after page until there is no next one. -/
def requestKeys (s : Storage P) (min max : TopoHeight) : Nat → Option Nat → Except Stop (List PublicKey)
  | 0, _ => .error .spent
  | turns + 1, page => do
    let (keys, nextPage) ← handleKeys maximum s min max page
    match nextPage with
    | none => return keys
    | some page => return keys ++ (← requestKeys s min max turns (some page))

end Source

section Moves

variable {P : Type} {s : Storage P} {keys : List PublicKey} {stableTopoheight : TopoHeight}

/-- The accounts of a list stay, go, or move to one topoheight; the others stay. -/
structure Moved (keys : List PublicKey) (stableTopoheight : TopoHeight) (s s' : Storage P) : Prop where
  agree : s'.RegistrationsAgree
  other : ∀ key, key ∉ keys → s'.registrationOf key = s.registrationOf key
  moves : ∀ key, s'.registrationOf key = s.registrationOf key ∨ s'.registrationOf key = some stableTopoheight ∨
    s'.registrationOf key = none

theorem handleNonce_moved (hagree : s.RegistrationsAgree) (answer : PublicKey × Wire.State Nat) :
    Moved [answer.1] stableTopoheight s (handleNonce stableTopoheight s answer) := by
  have hdelete (key : PublicKey) : Moved [key] stableTopoheight s ((deleteLastTopoheightForNonce s key).deleteAccountRegistration key) := by
    have hagree' : (deleteLastTopoheightForNonce s key).RegistrationsAgree := hagree
    refine ⟨hagree'.delete key, fun other hother => ?_, fun other => ?_⟩
    · exact registrationOf_delete_of_ne _ fun heq => hother (List.mem_singleton.mpr heq.symm)
    · by_cases heq : key = other
      · subst heq
        exact .inr (.inr (registrationOf_delete_self _ _))
      · exact .inl (registrationOf_delete_of_ne _ heq)
  obtain ⟨key, nonce⟩ := answer
  cases nonce with
  | clean => exact ⟨hagree, fun _ _ => rfl, fun _ => .inl rfl⟩
  | deleted => exact hdelete key
  | none => exact hdelete key
  | some nonce =>
    have hagree' : (s.setLastNonceTo key stableTopoheight ⟨none, nonce⟩).RegistrationsAgree := hagree
    refine ⟨hagree'.set key stableTopoheight, fun other hother => ?_, fun other => ?_⟩
    · exact registrationOf_set_of_ne _ (fun heq => hother (List.mem_singleton.mpr heq.symm)) _
    · by_cases heq : key = other
      · subst heq
        exact .inr (.inl (registrationOf_set_self _ _ _))
      · exact .inl (registrationOf_set_of_ne _ heq _)

theorem foldl_handleNonce_moved {answers : List (PublicKey × Wire.State Nat)} (hagree : s.RegistrationsAgree) :
    Moved (answers.map Prod.fst) stableTopoheight s (answers.foldl (handleNonce stableTopoheight) s) := by
  induction answers generalizing s with
  | nil => exact ⟨hagree, fun _ _ => rfl, fun _ => .inl rfl⟩
  | cons answer answers ih =>
    have hone : Moved [answer.1] stableTopoheight s (handleNonce stableTopoheight s answer) := handleNonce_moved hagree answer
    have hrest := ih hone.agree
    refine ⟨hrest.agree, fun key hkey => ?_, fun key => ?_⟩
    · rw [List.map_cons, List.mem_cons, not_or] at hkey
      exact (hrest.other key hkey.2).trans (hone.other key fun hmem => hkey.1 (List.mem_singleton.mp hmem))
    · rcases hrest.moves key with hsame | hmoved
      · rw [List.foldl_cons, hsame]
        exact hone.moves key
      · exact .inr hmoved

theorem handleNonces_moved (hagree : s.RegistrationsAgree) (keys : List PublicKey) (nonces : List (Wire.State Nat))
    (stableTopoheight : TopoHeight) : Moved keys stableTopoheight s (handleNonces s keys nonces stableTopoheight) := by
  have hmoved : Moved ((keys.zip nonces).map Prod.fst) stableTopoheight s
      ((keys.zip nonces).foldl (handleNonce stableTopoheight) s) := foldl_handleNonce_moved hagree
  refine ⟨hmoved.agree, fun key hkey => hmoved.other key fun hmem => hkey ?_, hmoved.moves⟩
  obtain ⟨⟨key', nonce⟩, hpair, rfl⟩ := List.mem_map.mp hmem
  exact (List.of_mem_zip hpair).1

/-- The answer for an account that is registered at `topo` leaves it there. -/
def Stays (topo stableTopoheight : TopoHeight) : Wire.State Nat → Prop
  | .clean => True
  | .some _ => stableTopoheight = topo
  | .none => False
  | .deleted => False

variable {key : PublicKey} {topo : TopoHeight}

theorem handleNonce_stays (hkey : s.registrationOf key = some topo) (nonce : Wire.State Nat) :
    (handleNonce stableTopoheight s (key, nonce)).registrationOf key = some topo ↔ Stays topo stableTopoheight nonce := by
  have hdelete : ((deleteLastTopoheightForNonce s key).deleteAccountRegistration key).registrationOf key ≠ some topo := by
    rw [registrationOf_delete_self]
    exact Option.some_ne_none topo ∘ Eq.symm
  cases nonce with
  | clean => exact iff_of_true hkey trivial
  | deleted => exact iff_of_false hdelete id
  | none => exact iff_of_false hdelete id
  | some nonce =>
    rw [handleNonce, registrationOf_set_self, Option.some.injEq]
    rfl

/-- The accounts registered at `topo` stay there exactly when each answer leaves them there. The induction is on the
accounts: what comes behind one of them is about others. -/
theorem handleNonces_stays (hagree : s.RegistrationsAgree) (hnodup : keys.Nodup) (nonces : List (Wire.State Nat)) :
    (∀ key ∈ keys, s.registrationOf key = some topo →
      (handleNonces s keys nonces stableTopoheight).registrationOf key = some topo) ↔
    ∀ answer ∈ keys.zip nonces, s.registrationOf answer.1 = some topo → Stays topo stableTopoheight answer.2 := by
  induction keys generalizing s nonces with
  | nil => exact iff_of_true (fun _ hkey => absurd hkey List.not_mem_nil) (fun _ hanswer => absurd hanswer List.not_mem_nil)
  | cons key keys ih =>
    cases nonces with
    | nil =>
      rw [List.zip_nil_right]
      exact iff_of_true (fun _ _ hkey => hkey) (fun _ hanswer => absurd hanswer List.not_mem_nil)
    | cons nonce nonces =>
      obtain ⟨hfresh, hnodup⟩ := List.nodup_cons.mp hnodup
      have hone : Moved [key] stableTopoheight s (handleNonce stableTopoheight s (key, nonce)) :=
        handleNonce_moved hagree (key, nonce)
      have hrest : Moved keys stableTopoheight (handleNonce stableTopoheight s (key, nonce))
          (handleNonces s (key :: keys) (nonce :: nonces) stableTopoheight) := handleNonces_moved hone.agree _ _ _
      have hother (other : PublicKey) (hmem : other ∈ keys) :
          (handleNonce stableTopoheight s (key, nonce)).registrationOf other = s.registrationOf other :=
        hone.other other (fun heq => hfresh (List.mem_singleton.mp heq ▸ hmem))
      rw [List.forall_mem_cons, List.zip_cons_cons, List.forall_mem_cons, hrest.other key hfresh]
      refine and_congr (imp_congr_right fun hkey => handleNonce_stays hkey nonce) ?_
      have hanswers := ih hone.agree hnodup nonces
      constructor
      · intro h answer hanswer hregistered
        have hmem := (List.of_mem_zip hanswer).1
        refine hanswers.mp (fun other hmem hregistered => h other hmem (hother other hmem ▸ hregistered)) answer hanswer ?_
        rw [hother _ hmem, hregistered]
      · intro h other hmem hregistered
        refine hanswers.mpr (fun answer hanswer hregistered => h answer hanswer ?_) other hmem ?_
        · rw [← hother _ (List.of_mem_zip hanswer).1, hregistered]
        · rw [hother other hmem, hregistered]

end Moves

variable {a b e g : Key}

section Turns

variable {P : Type} (w : KeyWalk P) (c : KeySync)

def KeyWalk.entries : List Key := w.storage.registeredIn w.minimumTopoheight c.ourTopoheight

/-- Those that the next page starts with. -/
def KeyWalk.ahead : List Key := (w.entries c).drop w.skip

/-- Those gone through once the page is full. -/
def KeyWalk.passed : List Key := (w.entries c).take (w.skip + c.maximum)

/-- Those that the page leaves. -/
def KeyWalk.left : List Key := (w.entries c).drop (w.skip + c.maximum)

def KeyWalk.page : List PublicKey := ((w.ahead c).take c.maximum).map entryKey

/-- Those of them at the topoheight of the last one. -/
def KeyWalk.group : List Key :=
  (w.passed c).filter fun e => entryTopoheight e = lastTopoheight (w.passed c)

/-- A full page: the next one starts at the topoheight of its last account, behind the place of that one. -/
structure Next (w w' : KeyWalk P) : Prop where
  full : w.skip + c.maximum ≤ (w.entries c).length
  minimum : w'.minimumTopoheight = lastTopoheight (w.passed c)
  skip : w'.skip = (w.group c).length
  moved : Moved (w.page c) c.stableTopoheight w.storage w'.storage

variable {w} {c}

theorem passed_append_left (w : KeyWalk P) (c : KeySync) : w.passed c ++ w.left c = w.entries c := List.take_append_drop _ _

theorem passed_precedes_left (ha : a ∈ w.passed c) (hb : b ∈ w.left c) : Precedes a b := by
  have hordered : (w.entries c).Pairwise Precedes := registeredIn_ordered _ _ _
  rw [← passed_append_left w c] at hordered
  exact (List.pairwise_append.mp hordered).2.2 a ha b hb

theorem ahead_eq (w : KeyWalk P) (c : KeySync) : w.ahead c = (w.ahead c).take c.maximum ++ w.left c := by
  have hleft : w.left c = (w.ahead c).drop c.maximum := (List.drop_drop ..).symm
  rw [hleft, List.take_append_drop]

/-- What a turn does: it ends with the range, or goes on behind a full page. -/
theorem walkTurn_cases (hagree : w.storage.RegistrationsAgree) (hpos : 0 < c.maximum) :
    (walkTurn c w = .ok (w.page c, none) ∧
      w.left c = []) ∨
    ∃ w', walkTurn c w = .ok (w.page c, some w') ∧
      Next c w w' := by
  obtain ⟨keys, hkeys, helems⟩ := getRegisteredKeys_eq hagree hpos w.skip w.minimumTopoheight c.ourTopoheight
  have hpage : keys.elems = w.page c := helems
  have hlength : (w.page c).length = min c.maximum ((w.entries c).length - w.skip) := by
    rw [KeyWalk.page, List.length_map, List.length_take, KeyWalk.ahead, List.length_drop]
  unfold walkTurn
  dsimp only [bind, Except.bind]
  rw [hkeys]
  dsimp only
  rw [hpage]
  rcases List.eq_nil_or_concat' ((w.ahead c).take c.maximum) with hnil | ⟨init, last, hlast⟩
  · have hempty : w.page c = [] := by rw [KeyWalk.page, hnil, List.map_nil]
    refine .inl ⟨by rw [hempty]; rfl, List.drop_eq_nil_of_le ?_⟩
    rw [hempty, List.length_nil] at hlength
    omega
  · have hmem : last ∈ w.entries c :=
      List.mem_of_mem_drop (List.mem_of_mem_take (hlast ▸ List.mem_append_right init (List.mem_singleton_self last)))
    obtain ⟨topo, key, rfl, hkey, -⟩ := exists_of_mem_registeredIn hagree hmem
    have hgetLast : (w.page c).getLast? = some key := by
      rw [KeyWalk.page, hlast, List.map_append, List.map_singleton, List.getLast?_concat, entryKey_prefixedDbKey]
    have hregistration : w.storage.getAccountRegistrationTopoheight key = .ok topo := by
      have hregistered : w.storage.registrations[keyBytes key]? = some topo := hkey
      rw [getAccountRegistrationTopoheight, hregistered]
    rw [hgetLast]
    dsimp only
    rw [hregistration]
    dsimp only
    by_cases hshort : (w.page c).length < c.maximum
    · refine .inl ⟨by rw [if_pos hshort]; rfl, List.drop_eq_nil_of_le (by omega)⟩
    · have hlastTopo : lastTopoheight (w.passed c) = topo := by
        have hpassed : w.passed c = ((w.entries c).take w.skip ++ init) ++
            [prefixedDbKey topo key] := by
          rw [List.append_assoc, ← hlast]
          exact List.take_add
        rw [hpassed, lastTopoheight_concat, entryTopoheight_prefixedDbKey]
      refine .inr ⟨_, by rw [if_neg hshort]; rfl, by omega, hlastTopo.symm, rfl, ?_⟩
      exact handleNonces_moved hagree _ _ _

end Turns

variable {key : PublicKey} {topo : TopoHeight}

section Steps

variable {P : Type} {w w' : KeyWalk P} {c : KeySync}
  (hagree : w.storage.RegistrationsAgree)
include hagree

theorem passed_ascending : Ascending (w.passed c) :=
  (registeredIn_ascending hagree _ _).sublist (List.take_sublist _ _)

theorem mem_passed_of_page (h : key ∈ w.page c) :
    ∃ topo, prefixedDbKey topo key ∈ w.passed c ∧ w.storage.registrationOf key = some topo := by
  obtain ⟨a, ha, rfl⟩ := List.mem_map.mp h
  have hpassed : a ∈ w.passed c := by
    rw [KeyWalk.passed, List.take_add]
    exact List.mem_append_right _ ha
  obtain ⟨topo, key, rfl, hkey, -⟩ := exists_of_mem_registeredIn hagree (List.mem_of_mem_take hpassed)
  rw [entryKey_prefixedDbKey]
  exact ⟨topo, hpassed, hkey⟩

theorem key_not_mem_page (he : prefixedDbKey topo key ∈ w.left c) : key ∉ w.page c := by
  intro hpage
  obtain ⟨topo', hpassed, hkey'⟩ := mem_passed_of_page hagree hpage
  obtain rfl : topo = topo' :=
    Option.some.inj (((mem_registeredIn hagree).mp (List.mem_of_mem_drop he)).1.symm.trans hkey')
  exact Precedes.asymm _ _ (passed_precedes_left hpassed he) (passed_precedes_left hpassed he)

variable (hnext : Next c w w')
include hnext

theorem Next.exists_last (hpos : 0 < c.maximum) : ∃ init topo key, w.passed c = init ++ [prefixedDbKey topo key] ∧
    w'.minimumTopoheight = topo := by
  rcases List.eq_nil_or_concat' (w.passed c) with hnil | ⟨init, last, hlast⟩
  · have hlength := congrArg List.length hnil
    have hfull := hnext.full
    rw [KeyWalk.passed, List.length_take, List.length_nil] at hlength
    omega
  · have hmem : last ∈ w.entries c :=
      List.mem_of_mem_take (hlast ▸ List.mem_append_right init (List.mem_singleton_self last))
    obtain ⟨topo, key, rfl, -⟩ := exists_of_mem_registeredIn hagree hmem
    exact ⟨init, topo, key, hlast, by rw [hnext.minimum, hlast, lastTopoheight_concat, entryTopoheight_prefixedDbKey]⟩

theorem Next.minimum_le (hpos : 0 < c.maximum) : w.minimumTopoheight ≤ w'.minimumTopoheight := by
  obtain ⟨init, topo, key, hlast, htopo⟩ := hnext.exists_last hagree hpos
  have hmem : prefixedDbKey topo key ∈ w.entries c :=
    List.mem_of_mem_take (hlast ▸ List.mem_append_right init (List.mem_singleton_self _))
  rw [htopo]
  exact ((mem_registeredIn hagree).mp hmem).2.1

theorem Next.topoheight_passed (he : e ∈ w.passed c) : entryTopoheight e ≤ w'.minimumTopoheight := by
  rw [hnext.minimum]
  exact (passed_ascending hagree).le_last he

theorem Next.topoheight_left (hpos : 0 < c.maximum) (he : e ∈ w.left c) : w'.minimumTopoheight ≤ entryTopoheight e := by
  obtain ⟨init, topo, key, hlast, htopo⟩ := hnext.exists_last hagree hpos
  have hascending : Ascending (w.entries c) := registeredIn_ascending hagree _ _
  rw [← passed_append_left w c] at hascending
  have hle := (List.pairwise_append.mp hascending).2.2 (prefixedDbKey topo key)
    (hlast ▸ List.mem_append_right init (List.mem_singleton_self _)) e he
  rwa [entryTopoheight_prefixedDbKey, ← htopo] at hle

theorem Next.mem_group (he : e ∈ w'.entries c) (hpassed : e ∈ w.passed c) : e ∈ w.group c := by
  obtain ⟨topo, key, rfl, -, hlo, -⟩ := exists_of_mem_registeredIn hnext.moved.agree he
  have hle := hnext.topoheight_passed hagree hpassed
  refine List.mem_filter.mpr ⟨hpassed, decide_eq_true ?_⟩
  rw [entryTopoheight_prefixedDbKey] at hle ⊢
  rw [← hnext.minimum]
  exact Nat.le_antisymm hle hlo

/-- What is in the range after a turn was in it before, or was moved there by the turn. -/
theorem Next.mem_entries (hpos : 0 < c.maximum) (he : e ∈ w'.entries c) :
    e ∈ w.entries c ∨ entryTopoheight e = c.stableTopoheight ∧ w.minimumTopoheight < c.stableTopoheight := by
  obtain ⟨topo, key, rfl, hkey, hlo, hhi⟩ := exists_of_mem_registeredIn hnext.moved.agree he
  have hstays (h : w.storage.registrationOf key = some topo) : prefixedDbKey topo key ∈ w.entries c :=
    (mem_registeredIn hagree).mpr ⟨h, Nat.le_trans (hnext.minimum_le hagree hpos) hlo, hhi⟩
  by_cases hpage : key ∈ w.page c
  · obtain ⟨topo', hpassed, hkey'⟩ := mem_passed_of_page hagree hpage
    have hlo' := ((mem_registeredIn hagree).mp (List.mem_of_mem_take hpassed)).2.1
    have hle := hnext.topoheight_passed hagree hpassed
    rw [entryTopoheight_prefixedDbKey] at hle
    rcases hnext.moved.moves key with hsame | hstable | hnone
    · exact .inl (hstays (hsame.symm.trans hkey))
    · obtain rfl : topo = c.stableTopoheight := Option.some.inj (hkey.symm.trans hstable)
      rcases Nat.lt_or_eq_of_le (Nat.le_trans hlo' (Nat.le_trans hle hlo)) with hlt | heq
      · exact .inr ⟨entryTopoheight_prefixedDbKey _ _, hlt⟩
      · have hsame : topo' = c.stableTopoheight := Nat.le_antisymm (Nat.le_trans hle hlo) (heq ▸ hlo')
        exact .inl (hstays (hsame ▸ hkey'))
    · rw [hnone] at hkey
      cases hkey
  · exact .inl (hstays ((hnext.moved.other key hpage).symm.trans hkey))

/-- What would be skipped too much: a place that one of the group has left. -/
theorem Next.not_mem_ahead (he : e ∈ w'.entries c) (hg : g ∈ w.group c)
    (hbefore : ∀ a ∈ w'.entries c, Precedes a e → a ∈ w.passed c ∧ a ≠ g) : e ∉ w'.ahead c := by
  have hlength : ((w.group c).erase g).length < w'.skip := by
    rw [List.length_erase_of_mem hg, hnext.skip]
    exact Nat.sub_lt (List.length_pos_of_mem hg) Nat.one_pos
  refine Lib.not_mem_drop_of_ahead Precedes.asymm (registeredIn_ordered _ _ _) he (fun a ha hprecedes => ?_) hlength
  obtain ⟨hpassed, hne⟩ := hbefore a ha hprecedes
  exact (List.mem_erase_of_ne hne).mpr (hnext.mem_group hagree ha hpassed)

theorem Next.mem_left (he : e ∈ w'.ahead c) (hsame : ∀ a ∈ w'.entries c, a = e ∨ Precedes a e → a ∈ w.entries c) :
    e ∈ w.left c := by
  have hmem : e ∈ w'.entries c := List.mem_of_mem_drop he
  have hentries := hsame e hmem (.inl rfl)
  rw [← passed_append_left w c] at hentries
  refine (List.mem_append.mp hentries).resolve_left fun hpassed => ?_
  refine hnext.not_mem_ahead hagree hmem (hnext.mem_group hagree hmem hpassed) (fun a ha hprecedes => ⟨?_, ?_⟩) he
  · have haEntries := hsame a ha (.inr hprecedes)
    rw [← passed_append_left w c] at haEntries
    exact (List.mem_append.mp haEntries).resolve_right fun hleft =>
      Precedes.asymm a e hprecedes (passed_precedes_left hpassed hleft)
  · rintro rfl
    exact Precedes.asymm a a hprecedes hprecedes

/-- Where those at the topoheight of the last account stay there, the next page starts with what this one left. -/
theorem Next.mem_ahead (hpos : 0 < c.maximum)
    (hkept : ∀ key ∈ w.page c, w.storage.registrationOf key = some w'.minimumTopoheight →
      w'.storage.registrationOf key = some w'.minimumTopoheight)
    (he : e ∈ w.left c) : e ∈ w'.ahead c := by
  have hle := hnext.topoheight_left hagree hpos he
  obtain ⟨topo, key, rfl, hkey, hlo, hhi⟩ := exists_of_mem_registeredIn hagree (List.mem_of_mem_drop he)
  rw [entryTopoheight_prefixedDbKey] at hle
  have hpage := key_not_mem_page hagree he
  have hmem : prefixedDbKey topo key ∈ w'.entries c :=
    (mem_registeredIn hnext.moved.agree).mpr ⟨(hnext.moved.other key hpage).trans hkey, hle, hhi⟩
  have hnodup : (w.group c).Nodup :=
    ((nodup_registeredIn w.storage w.minimumTopoheight c.ourTopoheight).sublist (List.take_sublist _ _)).filter _
  refine Lib.mem_drop_of_ahead Precedes.asymm (registeredIn_ordered _ _ _) hmem hnodup (fun a ha => ?_) (Nat.le_of_eq hnext.skip)
  obtain ⟨hpassed, htopo⟩ := List.mem_filter.mp ha
  refine ⟨?_, passed_precedes_left hpassed he⟩
  obtain ⟨topo', key', rfl, hkey', -, hhi'⟩ := exists_of_mem_registeredIn hagree (List.mem_of_mem_take hpassed)
  rw [decide_eq_true_eq, entryTopoheight_prefixedDbKey, ← hnext.minimum] at htopo
  subst htopo
  refine (mem_registeredIn hnext.moved.agree).mpr ⟨?_, Nat.le_refl _, hhi'⟩
  by_cases hpage' : key' ∈ w.page c
  · exact hkept key' hpage' hkey'
  · exact (hnext.moved.other key' hpage').trans hkey'

/-- Where one of them is gone and nothing comes in, the first account that the page left is skipped. -/
theorem Next.skipped (hpos : 0 < c.maximum) (hour : c.ourTopoheight < c.stableTopoheight)
    (hkey : key ∈ w.page c) (hregistered : w.storage.registrationOf key = some w'.minimumTopoheight)
    (hgone : w'.storage.registrationOf key ≠ some w'.minimumTopoheight) {rest : List Key}
    (hleft : w.left c = e :: rest) : e ∉ w'.ahead c := by
  intro he
  have hmem : e ∈ w'.entries c := List.mem_of_mem_drop he
  have heLeft : e ∈ w.left c := hleft ▸ List.mem_cons_self
  obtain ⟨topo, hpassed, hkey'⟩ := mem_passed_of_page hagree hkey
  obtain rfl : topo = w'.minimumTopoheight := Option.some.inj (hkey'.symm.trans hregistered)
  have hgroup : prefixedDbKey w'.minimumTopoheight key ∈ w.group c :=
    List.mem_filter.mpr ⟨hpassed, decide_eq_true (by rw [entryTopoheight_prefixedDbKey, hnext.minimum])⟩
  refine hnext.not_mem_ahead hagree hmem hgroup (fun b hb hprecedes => ⟨?_, ?_⟩) he
  · have hentries : b ∈ w.entries c := by
      refine (hnext.mem_entries hagree hpos hb).resolve_right fun hmoved => ?_
      obtain ⟨topo, key, rfl, -, -, hhi⟩ := exists_of_mem_registeredIn hnext.moved.agree hb
      rw [entryTopoheight_prefixedDbKey] at hmoved
      exact absurd hhi (Nat.not_le.mpr (hmoved.1 ▸ hour))
    rw [← passed_append_left w c] at hentries
    refine (List.mem_append.mp hentries).resolve_right fun hbLeft => ?_
    have hordered : (w.left c).Pairwise Precedes :=
      (registeredIn_ordered w.storage w.minimumTopoheight c.ourTopoheight).sublist (List.drop_sublist _ _)
    rw [hleft] at hordered hbLeft
    rcases List.mem_cons.mp hbLeft with rfl | hrest
    · exact Precedes.asymm b b hprecedes hprecedes
    · exact Precedes.asymm b e hprecedes ((List.pairwise_cons.mp hordered).1 b hrest)
  · rintro rfl
    exact hgone ((mem_registeredIn hnext.moved.agree).mp hb).1

omit hagree in
theorem Next.length_left : (w.left c).length + c.maximum = (w.ahead c).length := by
  have hfull := hnext.full
  rw [KeyWalk.left, KeyWalk.ahead, List.length_drop, List.length_drop]
  omega

end Steps

variable {keys visited : List PublicKey}

section Ends

variable {P : Type} {w : KeyWalk P} {c : KeySync}

theorem walkKeys_next {w' : KeyWalk P}
    (hturn : walkTurn c w = .ok (keys, some w')) (hends : ∃ turns visited, walkKeys c turns w' = .ok visited) :
    ∃ turns visited, walkKeys c turns w = .ok visited := by
  obtain ⟨turns, visited, hvisited⟩ := hends
  refine ⟨turns + 1, keys ++ visited, ?_⟩
  rw [walkKeys]
  dsimp only [bind, Except.bind]
  rw [hturn]
  dsimp only
  rw [hvisited]
  rfl

theorem walkKeys_last (hturn : walkTurn c w = .ok (keys, none)) : ∃ turns visited, walkKeys c turns w = .ok visited := by
  refine ⟨1, keys, ?_⟩
  rw [walkKeys]
  dsimp only [bind, Except.bind]
  rw [hturn]
  rfl

variable (hpos : 0 < c.maximum)
include hpos

/-- Where accounts move only to topoheights that are behind the loop, every page leaves less. -/
theorem walk_ends_above (n : Nat) (hagree : w.storage.RegistrationsAgree) (habove : c.stableTopoheight ≤ w.minimumTopoheight)
    (hn : (w.ahead c).length ≤ n) : ∃ turns visited, walkKeys c turns w = .ok visited := by
  induction n generalizing w with
  | zero =>
    rcases walkTurn_cases hagree hpos with ⟨hturn, -⟩ | ⟨w', -, hnext⟩
    · exact walkKeys_last hturn
    · have hlength := hnext.length_left
      omega
  | succ n ih =>
    rcases walkTurn_cases hagree hpos with ⟨hturn, -⟩ | ⟨w', hturn, hnext⟩
    · exact walkKeys_last hturn
    · have hlength := hnext.length_left
      have hsame (a : Key) (ha : a ∈ w'.entries c) : a ∈ w.entries c :=
        (hnext.mem_entries hagree hpos ha).resolve_right fun hmoved => absurd habove (Nat.not_le.mpr hmoved.2)
      have hsubset : w'.ahead c ⊆ w.left c := fun e he =>
        hnext.mem_left hagree he fun a ha _ => hsame a ha
      have hnodup : (w'.ahead c).Nodup := (nodup_registeredIn _ _ _).sublist (List.drop_sublist _ _)
      have hle := (List.subperm_of_subset hnodup hsubset).length_le
      exact walkKeys_next hturn
        (ih hnext.moved.agree (Nat.le_trans habove (hnext.minimum_le hagree hpos)) (by omega))

/-- Before, every page leaves less of what is below the topoheight that accounts move to. -/
theorem walk_ends (hagree : w.storage.RegistrationsAgree) : ∃ turns visited, walkKeys c turns w = .ok visited := by
  let below (entries : List Key) : List Key := entries.filter fun e => decide (entryTopoheight e < c.stableTopoheight)
  have hmain (n : Nat) (hn : (below (w.ahead c)).length ≤ n) :
      ∃ turns visited, walkKeys c turns w = .ok visited := by
    induction n using Nat.strongRecOn generalizing w with
    | _ n ih =>
      rcases walkTurn_cases hagree hpos with ⟨hturn, -⟩ | ⟨w', hturn, hnext⟩
      · exact walkKeys_last hturn
      · rcases Nat.lt_or_ge w'.minimumTopoheight c.stableTopoheight with hlt | hge
        · have hsubset : below (w'.ahead c) ⊆ below (w.left c) := by
            intro e he
            obtain ⟨hahead, hbelow⟩ := List.mem_filter.mp he
            refine List.mem_filter.mpr ⟨hnext.mem_left hagree hahead fun a ha hprecedes => ?_, hbelow⟩
            refine (hnext.mem_entries hagree hpos ha).resolve_right fun hmoved => ?_
            have hle : entryTopoheight a ≤ entryTopoheight e := by
              rcases hprecedes with rfl | hprecedes
              · exact Nat.le_refl _
              · have hregistered {b : Key} (hb : b ∈ w'.entries c) : b ∈ w'.storage.registrationsPrefixed :=
                  Std.ExtTreeMap.mem_keys.mp (List.mem_filter.mp hb).1
                exact topoheight_le_of_precedes hnext.moved.agree (hregistered ha)
                  (hregistered (List.mem_of_mem_drop hahead)) hprecedes
            exact absurd (hmoved.1 ▸ hle) (Nat.not_le.mpr (of_decide_eq_true hbelow))
          have hnodup : (below (w'.ahead c)).Nodup :=
            ((nodup_registeredIn _ _ _).sublist (List.drop_sublist _ _)).filter _
          have hle := (List.subperm_of_subset hnodup hsubset).length_le
          have hpage : below ((w.ahead c).take c.maximum) = (w.ahead c).take c.maximum := by
            refine List.filter_eq_self.mpr fun e he => decide_eq_true (Nat.lt_of_le_of_lt ?_ hlt)
            refine hnext.topoheight_passed hagree (?_ : e ∈ w.passed c)
            rw [KeyWalk.passed, List.take_add]
            exact List.mem_append_right _ he
          have hsplit : (below (w.ahead c)).length =
              ((w.ahead c).take c.maximum).length + (below (w.left c)).length := by
            conv_lhs => rw [ahead_eq w c]
            show (List.filter _ (_ ++ _)).length = _
            rw [List.filter_append, List.length_append]
            exact congrArg (· + _) (congrArg List.length hpage)
          have htake : ((w.ahead c).take c.maximum).length = c.maximum := by
            have hlength := hnext.length_left
            rw [List.length_take]
            omega
          exact walkKeys_next hturn (ih _ (by omega) hnext.moved.agree (Nat.le_refl _))
        · exact walkKeys_next hturn (walk_ends_above hpos _ hnext.moved.agree hge (Nat.le_refl _))
  exact hmain _ (Nat.le_refl _)

end Ends

section Visits

variable {P : Type} (c : KeySync)

/-- The places that the loop comes to from one of them. -/
inductive Reached : KeyWalk P → KeyWalk P → Prop where
  | start (w : KeyWalk P) : Reached w w
  | turn {w w' last : KeyWalk P} {keys : List PublicKey} :
    walkTurn c w = .ok (keys, some w') → Reached w' last → Reached w last

/-- For no page that leaves something the peer answers that one of the accounts at the topoheight of the last one moves
or goes. -/
def KeepsPlaces (start : KeyWalk P) : Prop :=
  ∀ w, Reached c start w → w.left c ≠ [] →
    ∀ answer ∈ (w.page c).zip (c.peer w.i (w.page c)),
      w.storage.registrationOf answer.1 = some (lastTopoheight (w.passed c)) →
      Stays (lastTopoheight (w.passed c)) c.stableTopoheight answer.2

/-- The loop ends, and has gone through every account registered up to our topoheight when it started. -/
def VisitsAll (s : Storage P) : Prop :=
  ∃ turns visited, walkKeys c turns (.start s) = .ok visited ∧
    ∀ key topo, s.registrationOf key = some topo → topo ≤ c.ourTopoheight → key ∈ visited

variable {c} {w w' : KeyWalk P}

theorem KeepsPlaces.next (h : KeepsPlaces c w) (hturn : walkTurn c w = .ok (keys, some w')) :
    KeepsPlaces c w' := fun x hreached => h x (.turn hturn hreached)

theorem walkTurn_storage (hturn : walkTurn c w = .ok (keys, some w')) :
    w'.storage = handleNonces w.storage keys (c.peer w.i keys) c.stableTopoheight := by
  unfold walkTurn at hturn
  obtain ⟨⟨page, skip⟩, -, hturn⟩ := Lib.Exec.except_bind_ok_iff.mp hturn
  dsimp only at hturn
  cases hlast : page.elems.getLast? with
  | none =>
    rw [hlast] at hturn
    cases hturn
  | some last =>
    rw [hlast] at hturn
    obtain ⟨minimum, -, hturn⟩ := Lib.Exec.except_bind_ok_iff.mp hturn
    split at hturn
    · cases hturn
    · cases hturn
      rfl

/-- The accounts of a page at the topoheight of its last one stay there exactly when the answers leave them there. -/
theorem Next.kept_iff (hagree : w.storage.RegistrationsAgree) (hnext : Next c w w')
    (hturn : walkTurn c w = .ok (w.page c, some w')) :
    (∀ key ∈ w.page c, w.storage.registrationOf key = some w'.minimumTopoheight →
        w'.storage.registrationOf key = some w'.minimumTopoheight) ↔
      ∀ answer ∈ (w.page c).zip (c.peer w.i (w.page c)),
        w.storage.registrationOf answer.1 = some (lastTopoheight (w.passed c)) →
        Stays (lastTopoheight (w.passed c)) c.stableTopoheight answer.2 := by
  have hnodup : (w.page c).Nodup := (nodup_registeredKeys hagree _ _).sublist
    (((List.take_sublist _ _).trans (List.drop_sublist _ _)).map entryKey)
  rw [walkTurn_storage hturn, hnext.minimum]
  exact handleNonces_stays hagree hnodup _

variable {turns : Nat}

/-- A run is its first turn and the run behind it. -/
theorem walkKeys_ok {next : Option (KeyWalk P)}
    (h : walkKeys c turns w = .ok visited) (hturn : walkTurn c w = .ok (keys, next)) :
    ∃ k, turns = k + 1 ∧ match next with
      | none => visited = keys
      | some w' => ∃ rest, walkKeys c k w' = .ok rest ∧ visited = keys ++ rest := by
  cases turns with
  | zero => cases h
  | succ turns =>
    refine ⟨turns, rfl, ?_⟩
    rw [walkKeys] at h
    dsimp only [bind, Except.bind] at h
    rw [hturn] at h
    cases next with
    | none => exact (Except.ok.inj h).symm
    | some w' =>
      dsimp only at h ⊢
      cases hrest : walkKeys c turns w' with
      | error e =>
        rw [hrest] at h
        cases h
      | ok rest =>
        rw [hrest] at h
        exact ⟨rest, rfl, (Except.ok.inj h).symm⟩

theorem mem_page_or_left (he : prefixedDbKey topo key ∈ w.ahead c) :
    key ∈ w.page c ∨ prefixedDbKey topo key ∈ w.left c := by
  rw [ahead_eq w c, List.mem_append] at he
  exact he.imp_left fun h => List.mem_map.mpr ⟨_, h, entryKey_prefixedDbKey topo key⟩

variable (hpos : 0 < c.maximum)
include hpos

theorem visits_ahead (hagree : w.storage.RegistrationsAgree) (hkeeps : KeepsPlaces c w)
    (h : walkKeys c turns w = .ok visited) (he : prefixedDbKey topo key ∈ w.ahead c) : key ∈ visited := by
  induction turns generalizing w visited with
  | zero => cases h
  | succ turns ih =>
    rcases walkTurn_cases hagree hpos with ⟨hturn, hleft⟩ | ⟨w', hturn, hnext⟩
    · obtain ⟨-, -, rfl⟩ := walkKeys_ok h hturn
      exact (mem_page_or_left he).resolve_right fun hmem => List.not_mem_nil (hleft ▸ hmem)
    · obtain ⟨k, hk, rest, hrest, rfl⟩ := walkKeys_ok h hturn
      obtain rfl : turns = k := Nat.succ.inj hk
      rcases mem_page_or_left he with hpage | hleft
      · exact List.mem_append_left _ hpage
      · have hkept := (hnext.kept_iff hagree hturn).mpr (hkeeps w (.start w) (List.ne_nil_of_mem hleft))
        exact List.mem_append_right _ (ih hnext.moved.agree (hkeeps.next hturn) hrest (hnext.mem_ahead hagree hpos hkept hleft))

/-- Where accounts move out of the range, nothing comes back before the loop. -/
theorem Next.ahead_subset (hagree : w.storage.RegistrationsAgree) (hour : c.ourTopoheight < c.stableTopoheight)
    (hnext : Next c w w') (he : e ∈ w'.ahead c) : e ∈ w.left c := by
  refine hnext.mem_left hagree he fun a ha _ => (hnext.mem_entries hagree hpos ha).resolve_right fun hmoved => ?_
  obtain ⟨topo, key, rfl, -, -, hhi⟩ := exists_of_mem_registeredIn hnext.moved.agree ha
  rw [entryTopoheight_prefixedDbKey] at hmoved
  exact absurd hhi (Nat.not_le.mpr (hmoved.1 ▸ hour))

omit hpos in
theorem exists_of_mem_page (hagree : w.storage.RegistrationsAgree)
    (hkey : key ∈ w.page c) : ∃ topo, prefixedDbKey topo key ∈ w.ahead c := by
  obtain ⟨e, he, rfl⟩ := List.mem_map.mp hkey
  have hahead := List.mem_of_mem_take he
  obtain ⟨topo, key, rfl, -⟩ := exists_of_mem_registeredIn hagree (List.mem_of_mem_drop hahead)
  exact ⟨topo, by rwa [entryKey_prefixedDbKey]⟩

theorem visited_ahead (hour : c.ourTopoheight < c.stableTopoheight) (hagree : w.storage.RegistrationsAgree)
    (h : walkKeys c turns w = .ok visited) (hkey : key ∈ visited) : ∃ topo, prefixedDbKey topo key ∈ w.ahead c := by
  induction turns generalizing w visited with
  | zero => cases h
  | succ turns ih =>
    rcases walkTurn_cases hagree hpos with ⟨hturn, -⟩ | ⟨w', hturn, hnext⟩
    · obtain ⟨-, -, rfl⟩ := walkKeys_ok h hturn
      exact exists_of_mem_page hagree hkey
    · obtain ⟨k, hk, rest, hrest, rfl⟩ := walkKeys_ok h hturn
      obtain rfl : turns = k := Nat.succ.inj hk
      rcases List.mem_append.mp hkey with hmem | hmem
      · exact exists_of_mem_page hagree hmem
      · obtain ⟨topo, hahead⟩ := ih hnext.moved.agree hrest hmem
        refine ⟨topo, ?_⟩
        rw [ahead_eq w c]
        exact List.mem_append_right _ (hnext.ahead_subset hpos hagree hour hahead)

theorem keepsPlaces_of_visits (hour : c.ourTopoheight < c.stableTopoheight) (hagree : w.storage.RegistrationsAgree)
    (h : walkKeys c turns w = .ok visited) (hall : ∀ topo key, prefixedDbKey topo key ∈ w.ahead c → key ∈ visited) :
    KeepsPlaces c w := by
  induction turns generalizing w visited with
  | zero => cases h
  | succ turns ih =>
    rcases walkTurn_cases hagree hpos with ⟨hturn, hlast⟩ | ⟨w', hturn, hnext⟩
    · intro x hreached hnonempty
      cases hreached with
      | start => exact absurd hlast hnonempty
      | turn hfirst =>
        rw [hturn] at hfirst
        cases hfirst
    · obtain ⟨k, hk, rest, hrest, rfl⟩ := walkKeys_ok h hturn
      obtain rfl : turns = k := Nat.succ.inj hk
      have hleft {topo : TopoHeight} {key : PublicKey} (he : prefixedDbKey topo key ∈ w.left c) :
          key ∈ rest := by
        have hahead : prefixedDbKey topo key ∈ w.ahead c := by
          rw [ahead_eq w c]
          exact List.mem_append_right _ he
        exact (List.mem_append.mp (hall topo key hahead)).resolve_left (key_not_mem_page hagree he)
      have hkeeps := ih hnext.moved.agree hrest fun topo key he => hleft (hnext.ahead_subset hpos hagree hour he)
      intro x hreached hnonempty
      cases hreached with
      | turn hfirst hlater =>
        rw [hturn] at hfirst
        cases hfirst
        exact hkeeps x hlater hnonempty
      | start =>
        refine (hnext.kept_iff hagree hturn).mp (fun key hkey hregistered => ?_)
        by_contra hgone
        obtain ⟨e, others, heq⟩ := List.exists_cons_of_ne_nil hnonempty
        have he : e ∈ w.left c := heq ▸ List.mem_cons_self
        obtain ⟨topo, other, rfl, hother, -⟩ := exists_of_mem_registeredIn hagree (List.mem_of_mem_drop he)
        obtain ⟨topo', hahead⟩ := visited_ahead hpos hour hnext.moved.agree hrest (hleft he)
        have hstill := ((mem_registeredIn hnext.moved.agree).mp (List.mem_of_mem_drop hahead)).1
        rw [hnext.moved.other other (key_not_mem_page hagree he), hother, Option.some.injEq] at hstill
        subst hstill
        exact hnext.skipped hagree hpos hour hkey hregistered hgone heq hahead

theorem visitsAll_of_keeps {s : Storage P} (hagree : s.RegistrationsAgree) (hkeeps : KeepsPlaces c (.start s)) :
    VisitsAll c s := by
  have hended := @walk_ends P (.start s) c hpos hagree
  obtain ⟨turns, visited, hvisited⟩ := hended
  refine ⟨turns, visited, hvisited, fun key topo hkey hle => ?_⟩
  exact visits_ahead hpos hagree hkeeps hvisited ((mem_registeredIn hagree).mpr ⟨hkey, Nat.zero_le topo, hle⟩)

theorem keeps_of_visitsAll {s : Storage P} (hagree : s.RegistrationsAgree) (hour : c.ourTopoheight < c.stableTopoheight)
    (h : VisitsAll c s) : KeepsPlaces c (.start s) := by
  obtain ⟨turns, visited, hvisited, hall⟩ := h
  refine keepsPlaces_of_visits hpos hour hagree hvisited fun topo key he => ?_
  obtain ⟨hkey, -, hle⟩ := (mem_registeredIn hagree).mp (List.mem_of_mem_drop he)
  exact hall key topo hkey hle

end Visits

section Server

variable {P : Type} {s : Storage P} {maximum : Nat} {lo hi : TopoHeight}

theorem handleKeys_refused (h : hi < lo) (page : Option Nat) :
    handleKeys maximum s lo hi page = .error (.failed .invalidPacket) := by
  rw [handleKeys, checkRange, if_pos h]
  rfl

variable (hagree : s.RegistrationsAgree) (hpos : 0 < maximum) (hle : lo ≤ hi)
  (hcount : (s.registeredIn lo hi).length < U64_RANGE)
include hagree hpos hle hcount

theorem handleKeys_eq (page : Option Nat) (hpage : page.getD 0 * maximum ≤ (s.registeredIn lo hi).length) :
    let left := (s.registeredIn lo hi).drop (page.getD 0 * maximum)
    handleKeys maximum s lo hi page =
      .ok ((left.take maximum).map entryKey, if maximum ≤ left.length then some (page.getD 0 + 1) else none) := by
  obtain ⟨keys, hkeys, helems⟩ := getRegisteredKeys_eq hagree hpos (page.getD 0 * maximum) lo hi
  intro left
  have hlist : (s.getRegisteredKeys maximum (page.getD 0 * maximum) lo hi).map (·.1.elems) =
      .ok ((left.take maximum).map entryKey) := by
    rw [hkeys]
    exact congrArg Except.ok helems
  have hserve : handleKeys maximum s lo hi page =
      servePage maximum (fun maximum skip => (s.getRegisteredKeys maximum skip lo hi).map (·.1.elems)) page := by
    rw [handleKeys, checkRange_ok_iff.mpr hle]
    rfl
  have hfull : ((left.take maximum).map entryKey).length = maximum ↔ maximum ≤ left.length := by
    rw [List.length_map, List.length_take]
    omega
  rw [hserve, servePage, mulU64, if_pos (Nat.lt_of_le_of_lt hpage hcount)]
  show (fromStorage ((s.getRegisteredKeys maximum (page.getD 0 * maximum) lo hi).map _) >>= _) = _
  rw [hlist]
  show (if ((left.take maximum).map entryKey).length = maximum then _ else _) = _
  rw [if_congr hfull rfl rfl]
  by_cases hleft : maximum ≤ left.length
  · have hnext : page.getD 0 + 1 < U64_RANGE := by
      have hlength : left.length = (s.registeredIn lo hi).length - page.getD 0 * maximum := List.length_drop
      have hpages : page.getD 0 + 1 ≤ (page.getD 0 + 1) * maximum := Nat.le_mul_of_pos_right _ hpos
      rw [Nat.succ_mul] at hpages
      omega
    rw [if_pos hleft, if_pos hleft, addU64, if_pos hnext]
    rfl
  · rw [if_neg hleft, if_neg hleft]
    rfl

/-- The answers, one after the other, are all the accounts of the range. -/
theorem requestKeys_ends (page : Option Nat) (hpage : page.getD 0 * maximum ≤ (s.registeredIn lo hi).length) :
    ∃ turns, requestKeys maximum s lo hi turns page =
      .ok (((s.registeredIn lo hi).drop (page.getD 0 * maximum)).map entryKey) := by
  have hmain (n : Nat) (hn : ((s.registeredIn lo hi).drop (page.getD 0 * maximum)).length ≤ n) :
      ∃ turns, requestKeys maximum s lo hi turns page =
        .ok (((s.registeredIn lo hi).drop (page.getD 0 * maximum)).map entryKey) := by
    induction n using Nat.strongRecOn generalizing page with
    | _ n ih =>
      have hanswer := handleKeys_eq hagree hpos hle hcount page hpage
      dsimp only at hanswer
      by_cases hfull : maximum ≤ ((s.registeredIn lo hi).drop (page.getD 0 * maximum)).length
      · rw [if_pos hfull] at hanswer
        have hnext : (page.getD 0 + 1) * maximum = page.getD 0 * maximum + maximum := Nat.succ_mul _ _
        have hdrop : (s.registeredIn lo hi).drop ((some (page.getD 0 + 1)).getD 0 * maximum) =
            ((s.registeredIn lo hi).drop (page.getD 0 * maximum)).drop maximum := by
          rw [Option.getD_some, hnext, List.drop_drop]
        have hless : ((s.registeredIn lo hi).drop ((some (page.getD 0 + 1)).getD 0 * maximum)).length < n := by
          rw [hdrop, List.length_drop]
          omega
        have hpage' : (some (page.getD 0 + 1)).getD 0 * maximum ≤ (s.registeredIn lo hi).length := by
          rw [List.length_drop] at hfull
          rw [Option.getD_some, hnext]
          omega
        obtain ⟨turns, hturns⟩ := ih _ hless _ hpage' (Nat.le_refl _)
        refine ⟨turns + 1, ?_⟩
        rw [requestKeys]
        dsimp only [bind, Except.bind]
        rw [hanswer]
        dsimp only
        rw [hturns, hdrop]
        show Except.ok _ = Except.ok _
        rw [← List.map_append, List.take_append_drop]
      · rw [if_neg hfull] at hanswer
        refine ⟨1, ?_⟩
        rw [requestKeys]
        dsimp only [bind, Except.bind]
        rw [hanswer, List.take_of_length_le (Nat.le_of_not_le hfull)]
        rfl
  exact hmain _ (Nat.le_refl _)

end Server

section Paging

variable {P : Type} {s : Storage P} {c : KeySync}

/-- The node goes through all of its own accounts, and a peer hands out the accounts of every range, each once. -/
structure KeyPaging (c : KeySync) (s : Storage P) : Prop where
  visits : VisitsAll c s
  pages : ∀ lo hi, lo ≤ hi → ∃ turns all, requestKeys c.maximum s lo hi turns none = .ok all ∧ all.Nodup ∧
    ∀ key, key ∈ all ↔ ∃ topo, s.registrationOf key = some topo ∧ lo ≤ topo ∧ topo ≤ hi
  refused : ∀ lo hi page, hi < lo → handleKeys c.maximum s lo hi page = .error (.failed .invalidPacket)

theorem requestKeys_complete (hagree : s.RegistrationsAgree) (hpos : 0 < c.maximum)
    (hcount : s.registrationsPrefixed.size < U64_RANGE) {lo hi : TopoHeight} (hle : lo ≤ hi) :
    ∃ turns all, requestKeys c.maximum s lo hi turns none = .ok all ∧ all.Nodup ∧
      ∀ key, key ∈ all ↔ ∃ topo, s.registrationOf key = some topo ∧ lo ≤ topo ∧ topo ≤ hi := by
  have hlength : (s.registeredIn lo hi).length < U64_RANGE :=
    Nat.lt_of_le_of_lt ((List.length_filter_le _ _).trans_eq Std.ExtTreeMap.length_keys) hcount
  have hzero : (none : Option Nat).getD 0 * c.maximum = 0 := Nat.zero_mul c.maximum
  obtain ⟨turns, hturns⟩ := requestKeys_ends hagree hpos hle hlength none (hzero.trans_le (Nat.zero_le _))
  rw [hzero, List.drop_zero] at hturns
  refine ⟨turns, _, hturns, nodup_registeredKeys hagree lo hi, fun key => ?_⟩
  constructor
  · intro hkey
    obtain ⟨e, he, rfl⟩ := List.mem_map.mp hkey
    obtain ⟨topo, key, rfl, hregistered⟩ := exists_of_mem_registeredIn hagree he
    rw [entryKey_prefixedDbKey]
    exact ⟨topo, hregistered⟩
  · rintro ⟨topo, hregistered⟩
    exact List.mem_map.mpr ⟨_, (mem_registeredIn hagree).mpr hregistered, entryKey_prefixedDbKey topo key⟩

/-- Every account is gone through where the places are kept; where accounts move out of the range, only then. -/
theorem keyPaging_iff (hagree : s.RegistrationsAgree) (hpos : 0 < c.maximum)
    (hcount : s.registrationsPrefixed.size < U64_RANGE) : (KeepsPlaces c (.start s) →
      KeyPaging c s) ∧
    (c.ourTopoheight < c.stableTopoheight → (KeyPaging c s ↔
      KeepsPlaces c (.start s))) := by
  have henough (hkeeps : KeepsPlaces c (.start s)) :
      KeyPaging c s :=
    ⟨visitsAll_of_keeps hpos hagree hkeeps, fun _ _ hle => requestKeys_complete hagree hpos hcount hle,
      fun _ _ page h => handleKeys_refused h page⟩
  exact ⟨henough, fun hour => ⟨fun h => keeps_of_visitsAll hpos hagree hour h.visits, henough⟩⟩

private theorem empty_agree : ({} : Storage Int).RegistrationsAgree := by
  intro entry
  refine iff_of_false Std.ExtTreeMap.not_mem_empty ?_
  rintro ⟨topo, key, -, hkey⟩
  have hnone : ({} : Storage Int).registrationOf key = none := Std.ExtTreeMap.getElem?_empty
  rw [hnone] at hkey
  cases hkey

def twoRegistered : Storage Int :=
  (({} : Storage Int).setAccountRegistrationTopoheight 4 0).setAccountRegistrationTopoheight 5 0

theorem twoRegistered_agree : twoRegistered.RegistrationsAgree := (empty_agree.set 4 0).set 5 0

/-- Pages of one account, and a peer with a new nonce for every account. -/
def renewingAll : KeySync := ⟨1, 5, 10, fun _ keys => keys.map fun _ => .some 1⟩

/-- With pages of one account the second one is skipped: the first one has left its place. -/
theorem twoRegistered_missed : twoRegistered.RegistrationsAgree ∧ ¬KeyPaging renewingAll twoRegistered := by
  refine ⟨twoRegistered_agree, fun h => ?_⟩
  have hkeeps := keeps_of_visitsAll (by decide) twoRegistered_agree (by decide) h.visits
  have hleft : (KeyWalk.start twoRegistered).left renewingAll ≠ [] := by decide +kernel
  have hanswer : (4, Wire.State.some 1) ∈ ((KeyWalk.start twoRegistered).page renewingAll).zip
      (renewingAll.peer 0 ((KeyWalk.start twoRegistered).page renewingAll)) := by decide +kernel
  have hregistered : twoRegistered.registrationOf 4 =
      some (lastTopoheight ((KeyWalk.start twoRegistered).passed renewingAll)) := by
    decide +kernel
  have hlast : lastTopoheight ((KeyWalk.start twoRegistered).passed renewingAll) = 0 := by decide +kernel
  have hstays : 10 = lastTopoheight ((KeyWalk.start twoRegistered).passed renewingAll) :=
    hkeeps _ (.start _) hleft _ hanswer hregistered
  rw [hlast] at hstays
  cases hstays

/-- Account 4 at topoheight 0, accounts 5 and 6 at topoheight 1. -/
def threeRegistered : Storage Int :=
  (({} : Storage Int).setAccountRegistrationTopoheight 4 0).setAccountRegistrationTopoheight 5 1
    |>.setAccountRegistrationTopoheight 6 1

/-- Pages of two accounts, and a peer with a new nonce for account 4 only. -/
def renewingFirst : KeySync := ⟨2, 5, 10, fun _ keys => keys.map fun key => if key = 4 then .some 1 else .clean⟩

/-- On pages of two accounts the first account moves, the last one of the page stays, and the third one is met. -/
theorem keyPaging_threeRegistered : KeyPaging renewingFirst threeRegistered := by
  have hagree : threeRegistered.RegistrationsAgree := ((empty_agree.set 4 0).set 5 1).set 6 1
  have hcount : threeRegistered.registrationsPrefixed.size < U64_RANGE := by decide +kernel
  have hanswers : ((KeyWalk.start threeRegistered).page renewingFirst).zip
      (renewingFirst.peer 0 ((KeyWalk.start threeRegistered).page renewingFirst)) = [(4, .some 1), (5, .clean)] := by decide +kernel
  have hlast : lastTopoheight ((KeyWalk.start threeRegistered).passed renewingFirst) = 1 := by decide +kernel
  have hmoving : threeRegistered.registrationOf 4 = some 0 := by decide +kernel
  -- behind the first page there is one more, which is the last
  have hsecond : (walkTurn renewingFirst (.start threeRegistered)).map (fun r => r.2.map fun w =>
      (w.left renewingFirst, (walkTurn renewingFirst w).map fun r => r.2.isNone)) = .ok (some ([], .ok true)) := by decide +kernel
  refine (keyPaging_iff hagree (by decide) hcount).1 ?_
  intro w hreached hleft answer hanswer hregistered
  cases hreached with
  | start =>
    rw [hlast] at hregistered ⊢
    change answer ∈ ((KeyWalk.start threeRegistered).page renewingFirst).zip
      (renewingFirst.peer 0 ((KeyWalk.start threeRegistered).page renewingFirst)) at hanswer
    rw [hanswers] at hanswer
    rcases List.mem_cons.mp hanswer with rfl | hanswer
    · exact absurd (hmoving.symm.trans hregistered) (by decide)
    · rw [List.mem_singleton.mp hanswer]
      trivial
  | turn hfirst hlater =>
    rw [hfirst] at hsecond
    obtain ⟨hnone, hends⟩ := Prod.mk.inj (Option.some.inj (Except.ok.inj hsecond))
    cases hlater with
    | start => exact absurd hnone hleft
    | turn hthird =>
      rw [hthird] at hends
      cases hends

end Paging

end Xelis.P2p
