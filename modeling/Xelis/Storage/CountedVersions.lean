import Xelis.Storage.CountedOperations

namespace Xelis.Storage.SledStorage

open Lib (Exec)

/-- What has versions and is counted: the pointers to the last versions are. -/
inductive Pointed where
  | nonces
  | contracts
  | assets
  deriving DecidableEq

namespace Pointed

def counter : Pointed → Counter
  | .nonces => .accounts
  | .contracts => .contracts
  | .assets => .assets

def versions : Pointed → IVec
  | .nonces => VERSIONED_NONCES
  | .contracts => VERSIONED_CONTRACTS
  | .assets => VERSIONED_ASSETS

def context : Pointed → DiskContext
  | .nonces => .versionedNonce
  | .contracts => .versionedContract
  | .assets => .asset

abbrev pointers (data : Pointed) : IVec := Counter.tree data.counter

theorem versions_outside (data : Pointed) : Outside data.versions := by
  cases data <;> decide +kernel

theorem versions_ne_pointers (data : Pointed) : data.versions ≠ data.pointers := by
  cases data <;> decide +kernel

end Pointed

variable {s s' : SledStorage} {ordered : Prop} {data : Pointed}
variable {key prefixedKey : IVec}

theorem insert_present_inStep (h : s.InStep ordered) {counter : Counter} (value : IVec)
    (hpresent : (s.view (Counter.tree counter) key).isSome) :
    (s.insertIntoDisk (Counter.tree counter) key value).2.InStep ordered := by
  have hsize := size_insert s key value h.ready (Counter.tree counter)
  rw [if_neg (by simpa using Option.isSome_iff_ne_none.mp hpresent), Nat.add_zero] at hsize
  exact h.of_size (insert_sameBut s counter key value h.ready) (congrArg UInt64.ofNat hsize)

theorem remove_version_inStep (data : Pointed) (h : s.InStep ordered) (key : IVec) :
    (s.removeFromDiskInternal data.versions key).2.InStep ordered :=
  h.quiet (remove_quiet data.versions_outside)

theorem view_pointers_remove (data : Pointed) (hready : s.Ready) (key key' : IVec) :
    (s.removeFromDiskInternal data.versions key).2.view data.pointers key' = s.view data.pointers key' :=
  view_remove_of_ne hready fun hboth => data.versions_ne_pointers hboth.1

theorem getVersionedKey_drop (key : IVec) (topoheight : UInt64) : (getVersionedKey key topoheight).drop 8 = key := by
  unfold getVersionedKey
  rw [List.drop_left' (u64_length topoheight)]

variable {topoheight : UInt64}

def KeepsPointersAt (s : SledStorage) (data : Pointed) (topoheight : UInt64) : Prop :=
  ∀ key, s.loadOptionalFromDiskInternal (Option UInt64) data.versions (getVersionedKey key topoheight) = .ok (some none) →
    ∀ pointer, s.loadOptionalFromDiskInternal UInt64 data.pointers key = .ok (some pointer) → pointer < topoheight

/-- The same about one version. -/
def KeepsPointer (s : SledStorage) (data : Pointed) (topoheight : UInt64) (prefixedKey : IVec) : Prop :=
  decode (Option UInt64) (s.view data.versions prefixedKey) = .ok (some none) →
    ∀ pointer, decode UInt64 (s.view data.pointers (prefixedKey.drop 8)) = .ok (some pointer) → pointer < topoheight

theorem loadOptionalDisk_apply (T : Type) [Serializer T] (tree key : IVec) (s : SledStorage) :
    loadOptionalDisk T tree key s =
      match decode T (s.view tree key) with
      | .ok value => .ok value s
      | .error e => .error e s := by
  rw [← loadOptional_eq_view]
  show (Exec.ofExcept (s.loadOptionalFromDiskInternal T tree key) : Disk (Option T)) s = _
  cases s.loadOptionalFromDiskInternal T tree key <;> rfl

theorem removeFromDisk_decode (T : Type) [Serializer T] (hready : s.Ready) (tree key : IVec) :
    removeFromDisk T tree key s =
      match decode T (s.view tree key) with
      | .ok value => .ok value (s.removeFromDiskInternal tree key).2
      | .error e => .error e (s.removeFromDiskInternal tree key).2 := by
  rw [removeFromDisk_apply T hready]
  cases s.view tree key with
  | none => rfl
  | some bytes =>
    dsimp only [decode]
    cases (Serializer.fromBytes bytes : Except ReaderError T) <;> rfl

theorem deleteVersionAt_inStep (h : s.InStep ordered) (hkeeps : s.KeepsPointer data topoheight prefixedKey) :
    (Exec.stateOf (deleteVersionAt data.pointers data.versions topoheight prefixedKey s)).InStep ordered ∧
      ∀ tree key, (tree = data.versions → key ≠ prefixedKey) → (tree = data.pointers → key ≠ prefixedKey.drop 8) →
        (Exec.stateOf (deleteVersionAt data.pointers data.versions topoheight prefixedKey s)).view tree key = s.view tree key := by
  have h₁ := remove_version_inStep data h prefixedKey
  have hview₁ (tree key : IVec) (hne : tree = data.versions → key ≠ prefixedKey) :
      (s.removeFromDiskInternal data.versions prefixedKey).2.view tree key = s.view tree key :=
    view_remove_of_ne h.ready fun hboth => hne hboth.1.symm hboth.2.symm
  have hpointers := view_pointers_remove data h.ready prefixedKey (prefixedKey.drop 8)
  unfold deleteVersionAt
  rw [Exec.bind_apply, removeFromDisk_decode _ h.ready]
  generalize (s.removeFromDiskInternal data.versions prefixedKey).2 = s₁ at h₁ hview₁ hpointers
  have hsame : s₁.InStep ordered ∧ ∀ tree key, (tree = data.versions → key ≠ prefixedKey) →
      (tree = data.pointers → key ≠ prefixedKey.drop 8) → s₁.view tree key = s.view tree key :=
    ⟨h₁, fun tree key hne _ => hview₁ tree key hne⟩
  cases hversion : decode (Option UInt64) (s.view data.versions prefixedKey) with
  | error e => exact hsame
  | ok version =>
    cases version with
    | none => exact hsame
    | some prevTopo =>
      dsimp only
      rw [Exec.bind_apply, loadOptionalDisk_apply, hpointers]
      cases hpointer : decode UInt64 (s.view data.pointers (prefixedKey.drop 8)) with
      | error e => exact hsame
      | ok pointer =>
        cases pointer with
        | none => exact hsame
        | some topoPointer =>
          dsimp only
          by_cases hge : topoPointer ≥ topoheight
          · rw [if_pos hge]
            cases prevTopo with
            | none => exact absurd (hkeeps hversion topoPointer hpointer) (UInt64.not_lt.mpr hge)
            | some prevTopo =>
              have hpresent : (s₁.view data.pointers (prefixedKey.drop 8)).isSome := by
                rw [hpointers]
                cases hview : s.view data.pointers (prefixedKey.drop 8) with
                | none =>
                  rw [hview] at hpointer
                  cases hpointer
                | some bytes => rfl
              refine ⟨insert_present_inStep h₁ _ hpresent, fun tree key hversions hne => ?_⟩
              show (s₁.insertIntoDisk data.pointers (prefixedKey.drop 8) (Serializer.toBytes prevTopo)).2.view tree key = _
              rw [view_insert h₁.ready, if_neg fun hboth => hne hboth.1.symm hboth.2.symm]
              exact hview₁ tree key hversions
          · rw [if_neg hge]
            exact hsame

theorem deleteVersionsAt_inStep (keys : List IVec) (hnodup : keys.Nodup)
    (hshape : ∀ key ∈ keys, ∃ rest, key = getVersionedKey rest topoheight) (h : s.InStep ordered)
    (hkeeps : ∀ key ∈ keys, s.KeepsPointer data topoheight key) :
    (Exec.stateOf (keys.forM (deleteVersionAt data.pointers data.versions topoheight) s)).InStep ordered := by
  induction keys generalizing s with
  | nil => exact h
  | cons key keys ih =>
    obtain ⟨hfresh, hnodup⟩ := List.nodup_cons.mp hnodup
    obtain ⟨hstep, hview⟩ := deleteVersionAt_inStep h (hkeeps key List.mem_cons_self)
    refine bind_inStep hstep fun _ s₁ hrun h₁ => ?_
    have hstate : Exec.stateOf (deleteVersionAt data.pointers data.versions topoheight key s) = s₁ := congrArg Exec.stateOf hrun
    rw [hstate] at hview
    refine ih hnodup (fun other hother => hshape other (List.mem_cons_of_mem _ hother)) h₁ fun other hother => ?_
    -- Another version of the topoheight has another key, and so another pointer.
    have hne : other ≠ key := fun heq => hfresh (heq ▸ hother)
    have hne' : other.drop 8 ≠ key.drop 8 := by
      obtain ⟨rest, rfl⟩ := hshape key List.mem_cons_self
      obtain ⟨rest', rfl⟩ := hshape other (List.mem_cons_of_mem _ hother)
      rw [getVersionedKey_drop, getVersionedKey_drop]
      exact fun heq => hne (congrArg (getVersionedKey · topoheight) heq)
    unfold KeepsPointer
    rw [hview _ _ (fun _ => hne) (fun heq => absurd heq data.versions_ne_pointers),
      hview _ _ (fun heq => absurd heq.symm data.versions_ne_pointers) (fun _ => hne')]
    exact hkeeps other (List.mem_cons_of_mem _ hother)

theorem deleteVersionedTreeAtTopoheight_inStep (h : s.InStep ordered) (hkeeps : s.KeepsPointersAt data topoheight) :
    (Exec.stateOf (deleteVersionedTreeAtTopoheight data.pointers data.versions topoheight s)).InStep ordered := by
  have hshape (key : IVec) (hkey : key ∈ s.scanPrefix data.versions (Serializer.toBytes topoheight)) :
      ∃ rest, key = getVersionedKey rest topoheight := by
    obtain ⟨rest, hrest⟩ := ((mem_scanPrefix_iff s data.versions key _).mp hkey).1
    exact ⟨rest, hrest.symm⟩
  refine deleteVersionsAt_inStep _ (nodup_scanPrefix s _ _) hshape h fun key hkey hversion pointer hpointer => ?_
  obtain ⟨rest, rfl⟩ := hshape key hkey
  rw [← loadOptional_eq_view] at hversion hpointer
  rw [getVersionedKey_drop] at hpointer
  exact hkeeps rest hversion pointer hpointer

section AboveTopoheight

/-- The chain of versions from here on ends without one at or below the topoheight. -/
inductive EndsAbove (s : SledStorage) (data : Pointed) (topoheight : UInt64) (key : IVec) : Option UInt64 → Prop
  | last : EndsAbove s data topoheight key none
  | version {topo : UInt64} {prevTopo : Option UInt64} (above : topoheight < topo)
      (stored : decode (Option UInt64) (s.view data.versions (getVersionedKey key topo)) = .ok (some prevTopo))
      (rest : EndsAbove s data topoheight key prevTopo) : EndsAbove s data topoheight key (some topo)

def KeepsPointersAbove (s : SledStorage) (data : Pointed) (topoheight : UInt64) : Prop :=
  ∀ key topo, s.loadOptionalFromDiskInternal UInt64 data.pointers key = .ok (some topo) →
    ¬s.EndsAbove data topoheight key (some topo)

/-- While versions are deleted: in step, versions are those of the start or gone, and no pointer is gone. -/
structure Deleting (ordered : Prop) (data : Pointed) (start s : SledStorage) : Prop where
  inStep : s.InStep ordered
  versions : ∀ key, s.view data.versions key = start.view data.versions key ∨ s.view data.versions key = none
  pointers : ∀ key, (start.view data.pointers key).isSome → (s.view data.pointers key).isSome

variable {start : SledStorage}

theorem Deleting.remove_version (h : Deleting ordered data start s) (key : IVec) :
    Deleting ordered data start (s.removeFromDiskInternal data.versions key).2 where
  inStep := remove_version_inStep data h.inStep key
  versions key' := by
    rcases view_remove_or h.inStep.ready data.versions key data.versions key' with hsame | hgone
    · rw [hsame]
      exact h.versions key'
    · exact .inr hgone
  pointers key' hkey' := by
    rw [view_pointers_remove data h.inStep.ready]
    exact h.pointers key' hkey'

theorem Deleting.set_pointer (h : Deleting ordered data start s) (value : IVec)
    (hpresent : (start.view data.pointers key).isSome) :
    Deleting ordered data start (s.insertIntoDisk data.pointers key value).2 where
  inStep := insert_present_inStep h.inStep value (h.pointers key hpresent)
  versions key' := by
    rw [view_insert h.inStep.ready, if_neg fun hboth => data.versions_ne_pointers hboth.1.symm]
    exact h.versions key'
  pointers key' hkey' := by
    rw [view_insert h.inStep.ready]
    split
    · rfl
    · exact h.pointers key' hkey'

theorem Deleting.stored (h : Deleting ordered data start s) {prevTopo : Option UInt64}
    (hread : decode (Option UInt64) (s.view data.versions key) = .ok (some prevTopo)) :
    decode (Option UInt64) (start.view data.versions key) = .ok (some prevTopo) := by
  rcases h.versions key with hsame | hgone
  · rw [← hsame]
    exact hread
  · rw [hgone] at hread
    cases hread

/-- The walk down the chain. Where nothing is left to point to, the chain of the start ends above the topoheight. -/
theorem deleteVersionsAbove_deleting (topoheight : UInt64) (key : IVec) (context : DiskContext) (fuel : Nat)
    (prevTopo : Option UInt64) (h : Deleting ordered data start s) :
    Deleting ordered data start (Exec.stateOf (deleteVersionsAbove data.versions key topoheight context fuel prevTopo s)) ∧
      ∀ s', deleteVersionsAbove data.versions key topoheight context fuel prevTopo s = .ok none s' →
        start.EndsAbove data topoheight key prevTopo := by
  induction fuel generalizing s prevTopo with
  | zero =>
    cases prevTopo with
    | none => exact ⟨h, fun _ _ => .last⟩
    | some topo => exact ⟨h, nofun⟩
  | succ fuel ih =>
    cases prevTopo with
    | none => exact ⟨h, fun _ _ => .last⟩
    | some topo =>
      rw [deleteVersionsAbove]
      by_cases hle : topo ≤ topoheight
      · rw [if_pos hle]
        exact ⟨h, nofun⟩
      · rw [if_neg hle, Exec.bind_apply, removeFromDisk_decode _ h.inStep.ready]
        have h₁ := h.remove_version (getVersionedKey key topo)
        cases hread : decode (Option UInt64) (s.view data.versions (getVersionedKey key topo)) with
        | error e => exact ⟨h₁, nofun⟩
        | ok version =>
          cases version with
          | none => exact ⟨h₁, nofun⟩
          | some prev =>
            obtain ⟨hkept, hends⟩ := ih prev h₁
            exact ⟨hkept, fun s' hrun => .version (UInt64.not_le.mp hle) (h.stored hread) (hends s' hrun)⟩

theorem deletePointerAbove_deleting (context : DiskContext) {e : IVec × IVec}
    (h : Deleting ordered data start s) (hentry : start.view data.pointers e.1 = some e.2)
    (hkeeps : start.KeepsPointersAbove data topoheight) :
    Deleting ordered data start (Exec.stateOf (deletePointerAbove data.pointers data.versions topoheight context e s)) := by
  have hpresent : (start.view data.pointers e.1).isSome := by
    rw [hentry]
    rfl
  unfold deletePointerAbove
  rw [Exec.bind_apply, Exec.ofExcept_apply]
  cases htopo : (Serializer.fromBytes e.2 : Except ReaderError UInt64) with
  | error e => exact h
  | ok topo =>
    have hpointer : start.loadOptionalFromDiskInternal UInt64 data.pointers e.1 = .ok (some topo) := by
      rw [loadOptional_eq_view, hentry]
      simp [decode, htopo, Except.mapError, Except.map]
    dsimp only [Except.mapError]
    by_cases habove : topo > topoheight
    · rw [if_pos habove, Exec.bind_apply, Exec.get_apply]
      dsimp only
      rw [Exec.bind_apply, removeFromDisk_decode _ h.inStep.ready]
      have h₁ := h.remove_version (getVersionedKey e.1 topo)
      cases hread : decode (Option UInt64) (s.view data.versions (getVersionedKey e.1 topo)) with
      | error e => exact h₁
      | ok version =>
        cases version with
        | none => exact h₁
        | some prev =>
          dsimp only
          obtain ⟨h₂, hends⟩ := deleteVersionsAbove_deleting topoheight e.1 context
            (s.iterKeys data.versions).length prev h₁
          rw [Exec.bind_apply]
          cases hwalk : deleteVersionsAbove data.versions e.1 topoheight context (s.iterKeys data.versions).length prev
              (s.removeFromDiskInternal data.versions (getVersionedKey e.1 topo)).2 with
          | error e' s₂ =>
            rw [hwalk] at h₂
            exact h₂
          | ok left s₂ =>
            rw [hwalk] at h₂
            cases left with
            | none => exact absurd (.version habove (h.stored hread) (hends s₂ hwalk)) (hkeeps e.1 topo hpointer)
            | some topo' => exact h₂.set_pointer _ hpresent
    · rw [if_neg habove]
      exact h

theorem deleteVersionedTreeAboveTopoheight_inStep (h : s.InStep ordered) {context : DiskContext}
    (hkeeps : s.KeepsPointersAbove data topoheight) :
    (Exec.stateOf (deleteVersionedTreeAboveTopoheight data.pointers data.versions topoheight context s)).InStep ordered := by
  have hloop (entries : List (IVec × IVec)) (hentries : ∀ e ∈ entries, s.view data.pointers e.1 = some e.2) {s₁ : SledStorage}
      (h₁ : Deleting ordered data s s₁) :
      Deleting ordered data s (Exec.stateOf (entries.forM (deletePointerAbove data.pointers data.versions topoheight context) s₁)) := by
    induction entries generalizing s₁ with
    | nil => exact h₁
    | cons e entries ih =>
      have hturn := deletePointerAbove_deleting context h₁ (hentries e List.mem_cons_self) hkeeps
      show Deleting ordered data s (Exec.stateOf ((deletePointerAbove data.pointers data.versions topoheight context e >>=
        fun _ => entries.forM (deletePointerAbove data.pointers data.versions topoheight context)) s₁))
      rw [Exec.bind_apply]
      cases hrun : deletePointerAbove data.pointers data.versions topoheight context e s₁ with
      | error e' s₂ =>
        rw [hrun] at hturn
        exact hturn
      | ok u s₂ =>
        rw [hrun] at hturn
        exact ih (fun e' he' => hentries e' (List.mem_cons_of_mem _ he')) hturn
  exact (hloop (s.iter data.pointers) (fun e he => (mem_iter_iff s data.pointers e.1 e.2).mp he)
    ⟨h, fun _ => .inl rfl, fun _ => id⟩).inStep

end AboveTopoheight

section BelowTopoheight

variable {versions key : IVec} {topoheight : UInt64} {context : DiskContext}

theorem deleteVersionsBelow_silent (houtside : Outside versions) (fuel : Nat) (patched : Bool) (prevTopo : Option UInt64) :
    Silent (deleteVersionsBelow versions key topoheight context fuel patched prevTopo) := by
  induction fuel generalizing patched prevTopo with
  | zero =>
    cases prevTopo with
    | none => exact Silent.pure _
    | some topo => exact Silent.throw _
  | succ fuel ih =>
    cases prevTopo with
    | none => exact Silent.pure _
    | some topo =>
      cases patched with
      | true => exact (removeFromDisk_silent UInt64 houtside).bind fun prev => ih true prev
      | false =>
        refine (loadDisk_silent _ _).bind fun prev => ?_
        split
        · refine (loadDisk_silent _ _).bind fun bytes => ?_
          refine Silent.bind (fun s => ?_) fun _ => ih true prev
          exact writeTree_quiet houtside
        · exact ih false prev

theorem deleteVersionedTreeBelowTopoheight_silent (pointers : IVec) (keepLast : Bool) (houtside : Outside versions) :
    Silent (deleteVersionedTreeBelowTopoheight pointers versions topoheight keepLast context) := by
  cases keepLast with
  | true =>
    refine Silent.get.bind fun s => Silent.forM _ fun e _ => ?_
    refine (Silent.ofExcept _).bind fun topo => (loadDisk_silent _ _).bind fun prev => Silent.get.bind fun s' => ?_
    exact deleteVersionsBelow_silent houtside _ _ _
  | false =>
    refine Silent.get.bind fun s => Silent.forM _ fun key _ => ?_
    refine (Silent.ofExcept _).bind fun topo => ?_
    split
    · exact (removeFromDiskWithoutReading_silent houtside).bind fun _ => Silent.pure _
    · exact Silent.pure _

end BelowTopoheight

end Xelis.Storage.SledStorage
