import Xelis.Storage.Rollback

namespace Xelis.Storage.CachedStorage

open Lib (Exec Lru)
open SledStorage (Inside Touched decode)

variable [Serializer BlockHeader] [Serializer Transaction] [Serializer VarUint]

section Caches

/-- What a cache may hold for a key: anything if the commit point holds the key, else what is on the disk. -/
def Fits (s : SledStorage) (name : CacheName) (key : name.Key) (value : name.Value) : Prop :=
  (s.snapshot ≠ none ∧ s.Touched name.tree (name.keyBytes key)) ∨
    decode name.Value (s.db.tree name.tree)[name.keyBytes key]? = .ok (some value)

/-- The caches agree with the disk. -/
def Fed (c : CachedStorage) : Prop := ∀ name cache, c.caches.of name = some cache → cache.All (Fits c.storage name)

variable {c : CachedStorage} {name : CacheName}

theorem Fed.storage (h : c.Fed) {s : SledStorage} (hopened : s.snapshot ≠ none) (hdb : s.db = c.storage.db)
    (htouched : ∀ tree key, c.storage.Touched tree key → s.Touched tree key) (written : List (SledStorage × DiskWrite)) :
    (⟨s, c.caches, written⟩ : CachedStorage).Fed := by
  intro name cache hcache
  refine (h name cache hcache).mono fun key value hfits => ?_
  rcases hfits with ⟨-, hheld⟩ | hdisk
  · exact .inl ⟨hopened, htouched _ _ hheld⟩
  · refine .inr ?_
    rw [← hdisk]
    show decode _ (s.db.tree _)[_]? = _
    rw [hdb]

theorem Fed.change (h : c.Fed) {f : Lru name.Key name.Value → Lru name.Key name.Value}
    (hf : ∀ cache, c.caches.of name = some cache → cache.All (Fits c.storage name) → (f cache).All (Fits c.storage name)) :
    ({ c with caches := c.caches.change name f } : CachedStorage).Fed := by
  intro other cache hcache
  unfold Caches.change at hcache
  by_cases heq : other = name
  · subst heq
    dsimp only at hcache
    rw [Function.update_self] at hcache
    obtain ⟨held, hheld, rfl⟩ := Option.map_eq_some_iff.mp hcache
    exact hf held hheld (h other held hheld)
  · dsimp only at hcache
    rw [Function.update_of_ne heq] at hcache
    exact h other cache hcache

theorem Fed.pastBlocks (h : c.Fed) (f : Lru Hash (List Hash) → Lru Hash (List Hash)) :
    ({ c with caches := c.caches.changePastBlocks f } : CachedStorage).Fed := h

theorem Fed.clear (c : CachedStorage) : ({ c with caches := c.caches.clear } : CachedStorage).Fed := by
  intro name cache hcache
  obtain ⟨held, -, rfl⟩ := Option.map_eq_some_iff.mp hcache
  exact Lru.all_clear _ held

end Caches

variable {c : CachedStorage}

section Leading

/-- What happens on the way from `a` to `b`: keys stay with the commit point, and as long as every write meets its condition
the start can be given back, the caches agree with the disk and every write is seen. -/
structure Leads (start : SledStorage) (a b : CachedStorage) : Prop where
  touched : ∀ tree key, a.storage.Touched tree key → b.storage.Touched tree key
  kept : ∃ ws, b.written = a.written ++ ws ∧ ((∀ e ∈ ws, e.2.Meets e.1) → a.storage.Inside start → a.Fed →
    b.storage.Inside start ∧ b.Fed ∧ b.storage.visible = ws.foldl (fun x e => e.2.effect x) a.storage.visible)

variable {start : SledStorage} {α β : Type}

theorem Leads.refl (a : CachedStorage) : Leads start a a :=
  ⟨fun _ _ => id, [], (List.append_nil _).symm, fun _ hinside hfed => ⟨hinside, hfed, rfl⟩⟩

theorem Leads.trans (a b c : CachedStorage) (h : Leads start a b) (h' : Leads start b c) : Leads start a c := by
  obtain ⟨ws, hws, hkept⟩ := h.kept
  obtain ⟨ws', hws', hkept'⟩ := h'.kept
  refine ⟨fun tree key hheld => h'.touched tree key (h.touched tree key hheld), ws ++ ws', ?_, fun hmeets hinside hfed => ?_⟩
  · rw [hws', hws, List.append_assoc]
  · obtain ⟨hinside₁, hfed₁, hvisible₁⟩ := hkept (fun e he => hmeets e (List.mem_append_left _ he)) hinside hfed
    obtain ⟨hinside₂, hfed₂, hvisible₂⟩ := hkept' (fun e he => hmeets e (List.mem_append_right _ he)) hinside₁ hfed₁
    refine ⟨hinside₂, hfed₂, ?_⟩
    rw [hvisible₂, hvisible₁, List.foldl_append]

/-- A program whose way is as `Leads` says, from every state. -/
abbrev Leading (start : SledStorage) (x : Cached α) : Prop := Exec.Moves (Leads start) x

theorem Leading.bind {x : Cached α} {f : α → Cached β} (hx : Leading start x) (hf : ∀ a, Leading start (f a)) :
    Leading start (x >>= f) :=
  Exec.Moves.bind Leads.trans hx hf

theorem Leading.pure (a : α) : Leading start (pure a : Cached α) := Leads.refl

theorem Leading.throw (e : BlockchainError) : Leading start (throw e : Cached α) := Leads.refl

theorem Leading.get : Leading start (get : Cached CachedStorage) := Leads.refl

theorem Leading.ofExcept (x : Except BlockchainError α) : Leading start (Exec.ofExcept x : Cached α) := by
  cases x with
  | ok a => exact Leading.pure a
  | error e => exact Leading.throw e

theorem Leading.forM (xs : List β) {f : β → Cached PUnit} (h : ∀ b, Leading start (f b)) : Leading start (xs.forM f) :=
  Exec.Moves.forM Leads.refl Leads.trans xs fun b _ => h b

theorem Leading.foldlM (xs : List β) {f : α → β → Cached α} (h : ∀ a b, Leading start (f a b)) (a : α) :
    Leading start (xs.foldlM f a) :=
  Exec.Moves.foldlM Leads.refl Leads.trans xs (fun a b _ => h a b) a

theorem Leading.mapM (xs : List β) {f : β → Cached α} (h : ∀ b, Leading start (f b)) : Leading start (xs.mapM f) :=
  Exec.Moves.mapM Leads.refl Leads.trans xs fun b _ => h b

theorem write_leading (w : DiskWrite) : Leading start (write w) := by
  intro c
  refine ⟨fun tree key hheld => w.touched_apply hheld, [(c.storage, w)], rfl, fun hmeets hinside hfed => ?_⟩
  have hw : w.Meets c.storage := hmeets _ (List.mem_singleton_self _)
  have hinside' := DiskWrite.inside_apply hinside hw
  exact ⟨hinside', hfed.storage hinside'.opened (hinside'.db.trans hinside.db.symm) (fun _ _ => w.touched_apply) _,
    DiskWrite.visible_apply hinside hw⟩

variable {f : Caches → Caches}

theorem leads_changeCaches
    (h : c.storage.Inside start → c.Fed → ({ c with caches := f c.caches } : CachedStorage).Fed) :
    Leads start c (Exec.stateOf (changeCaches f c)) :=
  ⟨fun _ _ => id, [], (List.append_nil _).symm, fun _ hinside hfed => ⟨hinside, h hinside hfed, rfl⟩⟩

theorem changeCaches_leading
    (h : ∀ c : CachedStorage, c.Fed → ({ c with caches := f c.caches } : CachedStorage).Fed) : Leading start (changeCaches f) :=
  fun c => leads_changeCaches fun _ => h c

end Leading

section Queries

variable {start : SledStorage} {c : CachedStorage} {name : CacheName} {key : name.Key} {cache : Lru name.Key name.Value}

theorem loadFromDisk_leading (T : Type) [Serializer T] (tree key : IVec) (context : DiskContext) :
    Leading start (loadFromDisk T tree key context) :=
  Leading.get.bind fun _ => Leading.ofExcept _

theorem loadOptionalFromDisk_leading (T : Type) [Serializer T] (tree key : IVec) :
    Leading start (loadOptionalFromDisk T tree key) :=
  Leading.get.bind fun _ => Leading.ofExcept _

omit [Serializer BlockHeader] [Serializer Transaction] [Serializer VarUint] in
/-- A cache is asked only for what the commit point does not hold: that is read from the disk. -/
theorem cacheFor_eq_some (h : c.cacheFor name key = some cache) : c.caches.of name = some cache ∧
    c.storage.view name.tree (name.keyBytes key) = (c.storage.db.tree name.tree)[name.keyBytes key]? ∧
    ¬(c.storage.snapshot ≠ none ∧ c.storage.Touched name.tree (name.keyBytes key)) := by
  obtain ⟨hcache, hfree⟩ := Option.filter_eq_some_iff.mp h
  refine ⟨hcache, ?_, fun htouched => ?_⟩
  · unfold SledStorage.view
    cases hs : c.storage.snapshot with
    | none => rfl
    | some snapshot =>
      rw [hs] at hfree
      dsimp only at hfree ⊢
      rw [Snapshot.containsKey_eq_pending] at hfree
      cases hpending : snapshot.pending name.tree (name.keyBytes key) with
      | none => rfl
      | some w =>
        rw [hpending] at hfree
        cases hfree
  · obtain ⟨hopened, hheld⟩ := htouched
    obtain ⟨snapshot, hs⟩ := Option.ne_none_iff_exists'.mp hopened
    rw [hs] at hfree
    dsimp only at hfree
    rw [hheld snapshot hs] at hfree
    cases hfree

variable {value : name.Value}

theorem Fed.peek (h : c.Fed) (hcache : c.cacheFor name key = some cache) (hpeek : cache.peek key = some value) :
    c.storage.loadOptionalFromDiskInternal name.Value name.tree (name.keyBytes key) = .ok (some value) := by
  obtain ⟨hof, hview, huntouched⟩ := cacheFor_eq_some hcache
  rw [SledStorage.loadOptional_eq_view, hview]
  exact ((h name cache hof).peek hpeek).resolve_left huntouched

theorem fits_loaded (hcache : c.cacheFor name key = some cache)
    (hload : c.storage.loadOptionalFromDiskInternal name.Value name.tree (name.keyBytes key) = .ok (some value)) :
    Fits c.storage name key value := by
  obtain ⟨-, hview, -⟩ := cacheFor_eq_some hcache
  rw [SledStorage.loadOptional_eq_view, hview] at hload
  exact .inr hload

theorem Fed.put (h : c.Fed) (hfits : Fits c.storage name key value) :
    ({ c with caches := c.caches.change name (·.put key value) } : CachedStorage).Fed :=
  h.change fun _ _ hall => hall.put hfits

theorem Fed.touch (h : c.Fed) (key : name.Key) :
    ({ c with caches := c.caches.change name (·.touch key) } : CachedStorage).Fed :=
  h.change fun _ _ hall => hall.touch key

theorem Fed.pop (h : c.Fed) (key : name.Key) :
    ({ c with caches := c.caches.change name (·.pop key) } : CachedStorage).Fed :=
  h.change fun _ _ hall => hall.pop key

theorem Fed.clearOne (h : c.Fed) (name : CacheName) :
    ({ c with caches := c.caches.change name Lru.clear } : CachedStorage).Fed :=
  h.change fun cache _ _ => Lru.all_clear _ cache

omit [Serializer BlockHeader] [Serializer Transaction] [Serializer VarUint] in
theorem loadFromDisk_ok (T : Type) [Serializer T] {s : SledStorage} {tree key : IVec} {context : DiskContext} {value : T} :
    s.loadFromDisk T tree key context = .ok value ↔ s.loadOptionalFromDiskInternal T tree key = .ok (some value) := by
  unfold SledStorage.loadFromDisk
  rcases s.loadOptionalFromDiskInternal T tree key with e | _ | read <;> simp

def answer {α : Type} : EStateM.Result BlockchainError CachedStorage α → Except BlockchainError α
  | .ok a _ => .ok a
  | .error e _ => .error e

section

omit [Serializer BlockHeader] [Serializer Transaction] [Serializer VarUint]

theorem loadFromDisk_apply (T : Type) [Serializer T] (tree key : IVec) (context : DiskContext) (c : CachedStorage) :
    loadFromDisk T tree key context c =
      match c.storage.loadFromDisk T tree key context with
      | .ok value => .ok value c
      | .error e => .error e c := by
  show (Exec.ofExcept (c.storage.loadFromDisk T tree key context) : Cached T) c = _
  cases c.storage.loadFromDisk T tree key context <;> rfl

theorem loadOptionalFromDisk_apply (T : Type) [Serializer T] (tree key : IVec) (c : CachedStorage) :
    loadOptionalFromDisk T tree key c =
      match c.storage.loadOptionalFromDiskInternal T tree key with
      | .ok value => .ok value c
      | .error e => .error e c := by
  show (Exec.ofExcept (c.storage.loadOptionalFromDiskInternal T tree key) : Cached (Option T)) c = _
  cases c.storage.loadOptionalFromDiskInternal T tree key <;> rfl

theorem answer_loadFromDisk (T : Type) [Serializer T] (tree key : IVec) (context : DiskContext) (c : CachedStorage) :
    answer (loadFromDisk T tree key context c) = c.storage.loadFromDisk T tree key context := by
  rw [loadFromDisk_apply]
  cases c.storage.loadFromDisk T tree key context <;> rfl

end

theorem getCacheableData_spec (name : CacheName) (key : name.Key) (context : DiskContext) (c : CachedStorage) :
    Leads start c (Exec.stateOf (getCacheableData name key context c)) ∧
      (c.Fed → answer (getCacheableData name key context c) =
        c.storage.loadFromDisk name.Value name.tree (name.keyBytes key) context) := by
  unfold getCacheableData
  rw [Exec.bind_apply, Exec.get_apply]
  dsimp only
  cases hcache : c.cacheFor name key with
  | none => exact ⟨loadFromDisk_leading _ _ _ _ c, fun _ => answer_loadFromDisk _ _ _ _ c⟩
  | some cache =>
    dsimp only
    cases hpeek : cache.peek key with
    | some value =>
      refine ⟨leads_changeCaches fun _ hfed => hfed.touch key, fun hfed => ?_⟩
      exact ((loadFromDisk_ok _).mpr (hfed.peek hcache hpeek)).symm
    | none =>
      dsimp only
      rw [Exec.bind_apply, loadFromDisk_apply]
      cases hload : c.storage.loadFromDisk name.Value name.tree (name.keyBytes key) context with
      | error e => exact ⟨Leads.refl c, fun _ => rfl⟩
      | ok value =>
        refine ⟨leads_changeCaches fun _ hfed => hfed.put ?_, fun _ => rfl⟩
        exact fits_loaded hcache ((loadFromDisk_ok _).mp hload)

theorem getOptionalCacheableData_spec (name : CacheName) (key : name.Key) (c : CachedStorage) :
    Leads start c (Exec.stateOf (getOptionalCacheableData name key c)) ∧
      (c.Fed → answer (getOptionalCacheableData name key c) =
        c.storage.loadOptionalFromDiskInternal name.Value name.tree (name.keyBytes key)) := by
  unfold getOptionalCacheableData
  rw [Exec.bind_apply, Exec.get_apply]
  dsimp only
  cases hcache : c.cacheFor name key with
  | none =>
    refine ⟨loadOptionalFromDisk_leading _ _ _ c, fun _ => ?_⟩
    dsimp only
    rw [loadOptionalFromDisk_apply]
    cases c.storage.loadOptionalFromDiskInternal name.Value name.tree (name.keyBytes key) <;> rfl
  | some cache =>
    dsimp only
    cases hpeek : cache.peek key with
    | some value => exact ⟨leads_changeCaches fun _ hfed => hfed.touch key, fun hfed => (hfed.peek hcache hpeek).symm⟩
    | none =>
      dsimp only
      rw [Exec.bind_apply, loadOptionalFromDisk_apply]
      cases hload : c.storage.loadOptionalFromDiskInternal name.Value name.tree (name.keyBytes key) with
      | error e => exact ⟨Leads.refl c, fun _ => rfl⟩
      | ok read =>
        cases read with
        | none => exact ⟨Leads.refl c, fun _ => rfl⟩
        | some value => exact ⟨leads_changeCaches fun _ hfed => hfed.put (fits_loaded hcache hload), fun _ => rfl⟩

theorem answer_getCacheableData (h : c.Fed) (name : CacheName) (key : name.Key) (context : DiskContext) :
    answer (getCacheableData name key context c) =
      c.storage.loadFromDisk name.Value name.tree (name.keyBytes key) context := by
  have hspec : Leads c.storage c _ ∧ _ := getCacheableData_spec name key context c
  exact hspec.2 h

theorem answer_getOptionalCacheableData (h : c.Fed) (name : CacheName) (key : name.Key) :
    answer (getOptionalCacheableData name key c) =
      c.storage.loadOptionalFromDiskInternal name.Value name.tree (name.keyBytes key) := by
  have hspec : Leads c.storage c _ ∧ _ := getOptionalCacheableData_spec name key c
  exact hspec.2 h

theorem getCacheableData_leading (name : CacheName) (key : name.Key) (context : DiskContext) :
    Leading start (getCacheableData name key context) :=
  fun c => (getCacheableData_spec name key context c).1

theorem getOptionalCacheableData_leading (name : CacheName) (key : name.Key) : Leading start (getOptionalCacheableData name key) :=
  fun c => (getOptionalCacheableData_spec name key c).1

theorem containsDataCached_eq (h : c.Fed) (name : CacheName) (key : name.Key) :
    c.containsDataCached name key = c.storage.containsData name.tree (name.keyBytes key) := by
  unfold containsDataCached SledStorage.containsData
  cases hheld : c.storage.snapshot.bind (·.containsKeyWithValue name.tree (name.keyBytes key)) with
  | some v => rfl
  | none =>
    dsimp only
    split
    · rename_i hcontains
      obtain ⟨cache, hof, hkey⟩ : ∃ cache, c.caches.of name = some cache ∧ cache.contains key = true := by
        cases hof : c.caches.of name with
        | none =>
          rw [hof] at hcontains
          cases hcontains
        | some cache =>
          rw [hof] at hcontains
          exact ⟨cache, rfl, hcontains⟩
      obtain ⟨value, hpeek⟩ := Option.isSome_iff_exists.mp hkey
      rcases (h name cache hof).peek hpeek with ⟨hopened, htouched⟩ | hdisk
      · obtain ⟨snapshot, hs⟩ := Option.ne_none_iff_exists'.mp hopened
        have hcontained := htouched snapshot hs
        rw [hs] at hheld
        rw [Option.bind_some, Snapshot.containsKeyWithValue_eq_pending] at hheld
        rw [Snapshot.containsKey_eq_pending, Option.map_eq_none_iff.mp hheld] at hcontained
        cases hcontained
      · rw [Std.ExtTreeMap.contains_eq_isSome_getElem?]
        cases hread : (c.storage.db.tree name.tree)[name.keyBytes key]? with
        | some bytes => rfl
        | none =>
          rw [hread] at hdisk
          cases hdisk
    · rfl

end Queries

section Operations

variable {start : SledStorage}

theorem insertIntoDisk_leading (tree key value : IVec) : Leading start (insertIntoDisk tree key value) :=
  Leading.get.bind fun _ => (write_leading _).bind fun _ => Leading.pure _

theorem removeFromDiskInternal_leading (tree key : IVec) : Leading start (removeFromDiskInternal tree key) :=
  Leading.get.bind fun _ => (write_leading _).bind fun _ => Leading.pure _

theorem removeFromDiskWithoutReading_leading (tree key : IVec) : Leading start (removeFromDiskWithoutReading tree key) :=
  (removeFromDiskInternal_leading tree key).bind fun _ => Leading.pure _

theorem removeFromDisk_leading (T : Type) [Serializer T] (tree key : IVec) : Leading start (removeFromDisk T tree key) := by
  refine (removeFromDiskInternal_leading tree key).bind fun previous => ?_
  cases previous with
  | none => exact Leading.pure _
  | some bytes => exact (Leading.ofExcept _).bind fun _ => Leading.pure _

theorem deleteData_leading (T : Type) [Serializer T] (tree key : IVec) : Leading start (deleteData T tree key) := by
  refine (removeFromDisk_leading T tree key).bind fun value => ?_
  cases value with
  | some value => exact Leading.pure _
  | none => exact Leading.throw _

theorem deleteCacheableData_leading (name : CacheName) (key : name.Key) : Leading start (deleteCacheableData name key) := by
  refine (deleteData_leading _ _ _).bind fun value => ?_
  exact (changeCaches_leading fun c hfed => hfed.pop key).bind fun _ => Leading.pure _

theorem leads_put (name : CacheName) {key : name.Key} (value : name.Value)
    (h : c.storage.Touched name.tree (name.keyBytes key)) :
    Leads start c (Exec.stateOf (changeCaches (·.change name (·.put key value)) c)) :=
  leads_changeCaches fun hinside hfed => hfed.put (.inl ⟨hinside.opened, h⟩)

/-- A sequence of programs from a state whose commit point holds a key: it still does when the second one starts. -/
theorem leads_bind {α β : Type} {x : Cached α} {f : α → Cached β} {tree key : IVec}
    (h : c.storage.Touched tree key) (hx : Leading start x)
    (hf : ∀ a c', c'.storage.Touched tree key → Leads start c' (Exec.stateOf (f a c'))) :
    Leads start c (Exec.stateOf ((x >>= f) c)) := by
  refine Exec.moves_bind_of_ok Leads.trans (hx c) fun a c' hrun => hf a c' ?_
  have hleads := hx c
  rw [hrun] at hleads
  exact hleads.touched tree key h

omit [Serializer BlockHeader] [Serializer Transaction] [Serializer VarUint] in
theorem insertIntoDisk_touched (tree key value : IVec) (c : CachedStorage) (a : Option IVec) (c' : CachedStorage)
    (hrun : insertIntoDisk tree key value c = .ok a c') : c'.storage.Touched tree key := by
  cases hrun
  exact DiskWrite.touched_insert c.storage tree key value

theorem storeCount_leading (counter : Counter) (n : UInt64) : Leading start (storeCount counter n) :=
  (write_leading _).bind fun _ => (insertIntoDisk_leading _ _ _).bind fun _ => Leading.pure _

theorem count_leading (counter : Counter) : Leading start (count counter) := Leading.get.bind fun _ => Leading.pure _

theorem insertCounted_leading (counter : Counter) (key value : IVec) : Leading start (insertCounted counter key value) := by
  refine (insertIntoDisk_leading _ _ _).bind fun previous => ?_
  split
  · exact (count_leading _).bind fun _ => storeCount_leading _ _
  · exact Leading.pure _

theorem removeCounted_leading (counter : Counter) (key : IVec) : Leading start (removeCounted counter key) := by
  refine (removeFromDiskWithoutReading_leading _ _).bind fun previous => ?_
  split
  · exact (count_leading _).bind fun _ => storeCount_leading _ _
  · exact Leading.pure _

theorem addAsset_leading (asset : Hash) (topoheight : UInt64) (data : IVec) : Leading start (addAsset asset topoheight data) := by
  intro c
  refine Exec.moves_bind_of_ok Leads.trans (insertIntoDisk_leading _ _ _ c) fun previous c₁ hrun => ?_
  refine leads_bind (insertIntoDisk_touched _ _ _ _ _ _ hrun) (insertIntoDisk_leading _ _ _) fun _ c₂ h₂ => ?_
  split
  · refine leads_bind h₂ (count_leading _) fun n c₃ h₃ => ?_
    exact leads_bind h₃ (storeCount_leading _ _) fun _ c₄ h₄ => leads_put .assets topoheight h₄
  · exact leads_put .assets topoheight h₂

theorem addBlockExecutionToOrder_leading (hash : Hash) : Leading start (addBlockExecutionToOrder hash) :=
  Leading.get.bind fun _ => (write_leading _).bind fun _ =>
    (insertIntoDisk_leading _ _ _).bind fun _ => (insertIntoDisk_leading _ _ _).bind fun _ => Leading.pure _

theorem swapBlocksExecutionsPositions_leading (left right : Hash) :
    Leading start (swapBlocksExecutionsPositions left right) :=
  (loadFromDisk_leading _ _ _ _).bind fun _ => (loadFromDisk_leading _ _ _ _).bind fun _ =>
    (insertIntoDisk_leading _ _ _).bind fun _ => (insertIntoDisk_leading _ _ _).bind fun _ => Leading.pure _

theorem storeTips_leading (tips : Tips) : Leading start (storeTips tips) :=
  (insertIntoDisk_leading _ _ _).bind fun _ => write_leading _

theorem setPrunedTopoheight_leading (topoheight : UInt64) : Leading start (setPrunedTopoheight topoheight) :=
  (write_leading _).bind fun _ => (insertIntoDisk_leading _ _ _).bind fun _ => Leading.pure _

theorem clearCaches_leading : Leading start clearCaches :=
  (changeCaches_leading fun c _ => Fed.clear c).bind fun _ => write_leading _

theorem getPastBlocksForBlockHash_leading (hash : Hash) : Leading start (getPastBlocksForBlockHash hash) := by
  refine Leading.get.bind fun c => ?_
  cases c.caches.pastBlocks with
  | none => exact (getCacheableData_leading _ _ _).bind fun _ => Leading.pure _
  | some cache =>
    dsimp only
    cases cache.peek hash with
    | some tips => exact (changeCaches_leading fun _ hfed => hfed.pastBlocks _).bind fun _ => Leading.pure _
    | none =>
      refine (getCacheableData_leading _ _ _).bind fun block => ?_
      exact (changeCaches_leading fun _ hfed => hfed.pastBlocks _).bind fun _ => Leading.pure _

theorem setTopoHeightForBlock_leading (hash : Hash) (topoheight : UInt64) :
    Leading start (setTopoHeightForBlock hash topoheight) := by
  refine fun c => Exec.moves_bind_of_ok Leads.trans (insertIntoDisk_leading _ _ _ c) fun _ c₁ hrun => ?_
  have htopo := insertIntoDisk_touched _ _ _ _ _ _ hrun
  refine Exec.moves_bind_of_ok Leads.trans (insertIntoDisk_leading _ _ _ c₁) fun _ c₂ hrun₂ => ?_
  have hhash := insertIntoDisk_touched _ _ _ _ _ _ hrun₂
  have hsecond : Leading start (insertIntoDisk SledStorage.HASH_AT_TOPO (Serializer.toBytes topoheight) (hashToBytes hash)) :=
    insertIntoDisk_leading _ _ _
  have hleads := hsecond c₁
  rw [hrun₂] at hleads
  refine Exec.moves_bind_of_ok Leads.trans (leads_put .topoByHash topoheight (hleads.touched _ _ htopo)) fun _ c₃ hput => ?_
  cases hput
  exact leads_put .hashAtTopo hash hhash

theorem isBlockTopologicalOrdered_leading (hash : Hash) : Leading start (isBlockTopologicalOrdered hash) := by
  refine Exec.Moves.tryCatch Leads.trans ?_ fun _ => Leading.pure _
  exact (getCacheableData_leading _ _ _).bind fun _ => (getCacheableData_leading _ _ _).bind fun _ => Leading.pure _

theorem setBlocksAtHeight_leading (tips : Tips) (height : Nat) : Leading start (setBlocksAtHeight tips height) :=
  (insertIntoDisk_leading _ _ _).bind fun _ => Leading.pure _

theorem addBlockHashAtHeight_leading (hash : Hash) (height : Nat) : Leading start (addBlockHashAtHeight hash height) := by
  refine Leading.get.bind fun c => ?_
  split
  · exact (loadFromDisk_leading _ _ _ _).bind fun _ => setBlocksAtHeight_leading _ _
  · exact (Leading.pure _).bind fun _ => setBlocksAtHeight_leading _ _

theorem removeBlockHashAtHeight_leading (hash : Hash) (height : Nat) : Leading start (removeBlockHashAtHeight hash height) := by
  refine (loadFromDisk_leading _ _ _ _).bind fun tips => ?_
  dsimp only
  split
  · exact (removeFromDiskWithoutReading_leading _ _).bind fun _ => Leading.pure _
  · exact setBlocksAtHeight_leading _ _

theorem saveTransaction_leading (stored : UInt64) (e : Hash × Transaction) : Leading start (saveTransaction stored e) := by
  refine Leading.get.bind fun c => ?_
  split
  · exact Leading.pure _
  · exact (insertIntoDisk_leading _ _ _).bind fun _ => Leading.pure _

theorem insertCounted_touched (counter : Counter) (key value : IVec) (c : CachedStorage) (a : PUnit) (c' : CachedStorage)
    (hrun : insertCounted counter key value c = .ok a c') : c'.storage.Touched (SledStorage.Counter.tree counter) key := by
  obtain ⟨previous, c₁, hinsert, hrest⟩ := Exec.bind_ok_iff.mp hrun
  have htouched := insertIntoDisk_touched _ _ _ _ _ _ hinsert
  split at hrest
  · have hstore : Leading c.storage (count counter >>= fun n => storeCount counter (n + 1)) :=
      (count_leading counter).bind fun n => storeCount_leading counter (n + 1)
    have hleads := hstore c₁
    rw [hrest] at hleads
    exact hleads.touched _ _ htouched
  · cases hrest
    exact htouched

theorem saveBlock_leading (block : BlockHeader) (txs : List Transaction) (difficulty p : VarUint) (hash : Hash) :
    Leading start (saveBlock block txs difficulty p hash) := by
  refine (Leading.foldlM _ saveTransaction_leading 0).bind fun txsCount => ?_
  have hblock : Leading start (do
      insertCounted .blocks (hashToBytes hash) (Serializer.toBytes block)
      let _ ← insertIntoDisk SledStorage.DIFFICULTY (hashToBytes hash) (Serializer.toBytes difficulty)
      let _ ← insertIntoDisk SledStorage.DIFFICULTY_COVARIANCE (hashToBytes hash) (Serializer.toBytes p)
      addBlockHashAtHeight hash block.height
      changeCaches (·.change .blocks (·.put hash block))) := by
    refine fun c => Exec.moves_bind_of_ok Leads.trans (insertCounted_leading _ _ _ c) fun _ c₁ hrun => ?_
    refine leads_bind (insertCounted_touched .blocks _ _ _ _ _ hrun) (insertIntoDisk_leading _ _ _) fun _ c₂ h₂ => ?_
    refine leads_bind h₂ (insertIntoDisk_leading _ _ _) fun _ c₃ h₃ => ?_
    exact leads_bind h₃ (addBlockHashAtHeight_leading _ _) fun _ c₄ h₄ => leads_put .blocks block h₄
  split
  · exact (count_leading _).bind fun _ => (storeCount_leading _ _).bind fun _ => hblock
  · exact hblock

theorem deleteBlockWithHash_leading (hash : Hash) : Leading start (deleteBlockWithHash hash) := by
  refine (deleteCacheableData_leading _ _).bind fun header => (count_leading _).bind fun _ => (storeCount_leading _ _).bind fun _ => ?_
  refine (removeFromDiskWithoutReading_leading _ _).bind fun _ => (removeFromDiskWithoutReading_leading _ _).bind fun _ => ?_
  refine (removeBlockHashAtHeight_leading _ _).bind fun _ => ?_
  exact (Leading.mapM _ fun tx => getCacheableData_leading _ _ _).bind fun _ => Leading.pure _

theorem deleteTransaction_leading (hash : Hash) : Leading start (deleteTransaction hash) :=
  (deleteData_leading _ _ _).bind fun _ => deleteCacheableData_leading _ _

theorem deleteTxOfBlock_leading (hash : Hash) (txs : List (Hash × Transaction)) (txHash : Hash) :
    Leading start (deleteTxOfBlock hash txs txHash) := by
  have hdelete (shouldDelete : Bool) : Leading start (do
      if shouldDelete && (← get).containsDataCached .transactions txHash then
        let tx : Transaction ← deleteCacheableData .transactions txHash
        return txs ++ [(txHash, tx)]
      else
        return txs : Cached (List (Hash × Transaction))) := by
    refine Leading.get.bind fun c => ?_
    split
    · exact (deleteCacheableData_leading _ _).bind fun _ => Leading.pure _
    · exact Leading.pure _
  have hunmark (shouldDelete : Bool) : Leading start (do
      if (← get).storage.containsData SledStorage.TXS_EXECUTED (hashToBytes txHash) then
        let _ ← removeFromDiskWithoutReading SledStorage.TXS_EXECUTED (hashToBytes txHash)
        let _ ← removeFromDiskWithoutReading SledStorage.CONTRACTS_OUTPUTS (hashToBytes txHash)
      if shouldDelete && (← get).containsDataCached .transactions txHash then
        let tx : Transaction ← deleteCacheableData .transactions txHash
        return txs ++ [(txHash, tx)]
      else
        return txs : Cached (List (Hash × Transaction))) := by
    refine Leading.get.bind fun c => ?_
    split
    · refine (removeFromDiskWithoutReading_leading _ _).bind fun _ => (removeFromDiskWithoutReading_leading _ _).bind fun _ => ?_
      exact hdelete shouldDelete
    · exact hdelete shouldDelete
  refine Leading.get.bind fun c => ?_
  split
  · exact (deleteData_leading _ _ _).bind fun _ => (insertIntoDisk_leading _ _ _).bind fun _ => (Leading.pure _).bind hunmark
  · exact (Leading.pure _).bind hunmark

theorem deleteBlockAtTopoheight_leading (topoheight : UInt64) : Leading start (deleteBlockAtTopoheight topoheight) := by
  refine (deleteCacheableData_leading _ _).bind fun hash => (removeFromDiskWithoutReading_leading _ _).bind fun _ => ?_
  refine (deleteCacheableData_leading _ _).bind fun _ => (deleteCacheableData_leading _ _).bind fun block => ?_
  refine (deleteData_leading _ _ _).bind fun _ => (deleteData_leading _ _ _).bind fun _ => (deleteData_leading _ _ _).bind fun _ => ?_
  refine (deleteData_leading _ _ _).bind fun _ => (deleteCacheableData_leading _ _).bind fun _ => ?_
  refine (Leading.foldlM _ (deleteTxOfBlock_leading hash) []).bind fun txs => Leading.get.bind fun c => ?_
  have hpast : Leading start (changeCaches (·.changePastBlocks (·.pop hash))) :=
    changeCaches_leading fun _ hfed => hfed.pastBlocks _
  split
  · exact (removeBlockHashAtHeight_leading _ _).bind fun _ => hpast.bind fun _ => Leading.pure _
  · exact hpast.bind fun _ => Leading.pure _

end Operations

section Versions

variable {start : SledStorage}

theorem deleteVersionAt_leading (pointers versions : IVec) (topoheight : UInt64) (prefixedKey : IVec) :
    Leading start (deleteVersionAt pointers versions topoheight prefixedKey) := by
  refine (removeFromDisk_leading _ _ _).bind fun removed => ?_
  cases removed with
  | none => exact Leading.throw _
  | some prevTopo =>
    refine (loadOptionalFromDisk_leading _ _ _).bind fun pointer => ?_
    cases pointer with
    | none => exact Leading.pure _
    | some topoPointer =>
      dsimp only
      split
      · cases prevTopo with
        | some prevTopo => exact (insertIntoDisk_leading _ _ _).bind fun _ => Leading.pure _
        | none => exact (removeFromDiskWithoutReading_leading _ _).bind fun _ => Leading.pure _
      · exact Leading.pure _

theorem deleteVersionedTreeAtTopoheight_leading (data : VersionedData) (topoheight : UInt64) :
    Leading start (deleteVersionedTreeAtTopoheight data topoheight) :=
  Leading.get.bind fun _ => Leading.forM _ (deleteVersionAt_leading _ _ _)

theorem deleteVersionsAbove_leading (versions key : IVec) (topoheight : UInt64) (context : DiskContext) (fuel : Nat)
    (prevVersion : Option UInt64) : Leading start (deleteVersionsAbove versions key topoheight context fuel prevVersion) := by
  induction fuel generalizing prevVersion with
  | zero =>
    cases prevVersion with
    | none => exact Leading.pure _
    | some prevTopo => exact Leading.throw _
  | succ fuel ih =>
    cases prevVersion with
    | none => exact Leading.pure _
    | some prevTopo =>
      unfold deleteVersionsAbove
      split
      · exact Leading.pure _
      · refine (removeFromDisk_leading _ _ _).bind fun removed => ?_
        cases removed with
        | none => exact Leading.throw _
        | some prevVersion => exact ih prevVersion

theorem deletePointerAbove_leading (pointers versions : IVec) (topoheight : UInt64) (context : DiskContext) (e : IVec × IVec) :
    Leading start (deletePointerAbove pointers versions topoheight context e) := by
  refine (Leading.ofExcept _).bind fun topo => ?_
  split
  · refine Leading.get.bind fun c => (removeFromDisk_leading _ _ _).bind fun removed => ?_
    cases removed with
    | none => exact Leading.throw _
    | some prevVersion =>
      refine (deleteVersionsAbove_leading _ _ _ _ _ _).bind fun left => ?_
      cases left with
      | some topo => exact (insertIntoDisk_leading _ _ _).bind fun _ => Leading.pure _
      | none => exact (removeFromDiskInternal_leading _ _).bind fun _ => Leading.pure _
  · exact Leading.pure _

theorem deleteVersionedTreeAboveTopoheight_leading (data : VersionedData) (topoheight : UInt64) :
    Leading start (deleteVersionedTreeAboveTopoheight data topoheight) :=
  Leading.get.bind fun _ => Leading.forM _ (deletePointerAbove_leading _ _ _ _)

theorem deleteVersionsBelow_leading (versions key : IVec) (topoheight : UInt64) (context : DiskContext) (fuel : Nat)
    (patched : Bool) (prevVersion : Option UInt64) :
    Leading start (deleteVersionsBelow versions key topoheight context fuel patched prevVersion) := by
  induction fuel generalizing patched prevVersion with
  | zero =>
    cases prevVersion with
    | none => cases patched <;> exact Leading.pure _
    | some prevTopo => cases patched <;> exact Leading.throw _
  | succ fuel ih =>
    cases prevVersion with
    | none => cases patched <;> exact Leading.pure _
    | some prevTopo =>
      cases patched with
      | true => exact (removeFromDisk_leading _ _ _).bind fun prevVersion => ih true prevVersion
      | false =>
        refine (loadFromDisk_leading _ _ _ _).bind fun prevVersion => ?_
        split
        · exact (loadFromDisk_leading _ _ _ _).bind fun _ => (write_leading _).bind fun _ => ih true prevVersion
        · exact ih false prevVersion

theorem deletePointerBelow_leading (versions : IVec) (topoheight : UInt64) (context : DiskContext) (e : IVec × IVec) :
    Leading start (deletePointerBelow versions topoheight context e) :=
  (Leading.ofExcept _).bind fun _ => (loadFromDisk_leading _ _ _ _).bind fun _ => Leading.get.bind fun _ =>
    deleteVersionsBelow_leading _ _ _ _ _ _ _

theorem deleteKeyBelow_leading (versions : IVec) (topoheight : UInt64) (key : IVec) :
    Leading start (deleteKeyBelow versions topoheight key) := by
  refine (Leading.ofExcept _).bind fun topo => ?_
  split
  · exact (removeFromDiskWithoutReading_leading _ _).bind fun _ => Leading.pure _
  · exact Leading.pure _

theorem deleteVersionedTreeBelowTopoheight_leading (data : VersionedData) (topoheight : UInt64) (keepLast : Bool) :
    Leading start (deleteVersionedTreeBelowTopoheight data topoheight keepLast) := by
  unfold deleteVersionedTreeBelowTopoheight
  split
  · exact Leading.get.bind fun _ => Leading.forM _ (deletePointerBelow_leading _ _ _)
  · exact Leading.get.bind fun _ => Leading.forM _ (deleteKeyBelow_leading _ _)

theorem deleteBalancesBelow_leading (key : IVec) (fuel : Nat) (delete : Bool) (prevVersion : Option UInt64) :
    Leading start (deleteBalancesBelow key fuel delete prevVersion) := by
  induction fuel generalizing delete prevVersion with
  | zero =>
    cases prevVersion with
    | none => cases delete <;> exact Leading.pure _
    | some prevTopo => cases delete <;> exact Leading.throw _
  | succ fuel ih =>
    cases prevVersion with
    | none => cases delete <;> exact Leading.pure _
    | some prevTopo =>
      cases delete with
      | true => exact (removeFromDisk_leading _ _ _).bind fun prevVersion => ih true prevVersion
      | false => exact (loadFromDisk_leading _ _ _ _).bind fun read => ih _ read.1

theorem deleteBalancePointerBelow_leading (e : IVec × IVec) : Leading start (deleteBalancePointerBelow e) :=
  (Leading.ofExcept _).bind fun _ => (loadFromDisk_leading _ _ _ _).bind fun _ => Leading.get.bind fun _ =>
    deleteBalancesBelow_leading _ _ _ _

theorem deleteVersionedBalancesBelowTopoheight_leading (topoheight : UInt64) (keepLast : Bool) :
    Leading start (deleteVersionedBalancesBelowTopoheight topoheight keepLast) := by
  unfold deleteVersionedBalancesBelowTopoheight
  split
  · exact Leading.get.bind fun _ => Leading.forM _ deleteBalancePointerBelow_leading
  · exact deleteVersionedTreeBelowTopoheight_leading _ _ _

theorem deleteVersionedRegistrationsAtTopoheight_leading (topoheight : UInt64) :
    Leading start (deleteVersionedRegistrationsAtTopoheight topoheight) :=
  Leading.get.bind fun _ => Leading.forM _ fun _ => (removeFromDiskWithoutReading_leading _ _).bind fun _ =>
    (removeFromDiskWithoutReading_leading _ _).bind fun _ => Leading.pure _

theorem deleteVersionedRegistrationsAboveTopoheight_leading (topoheight : UInt64) :
    Leading start (deleteVersionedRegistrationsAboveTopoheight topoheight) := by
  refine Leading.get.bind fun _ => Leading.forM _ fun _ => (Leading.ofExcept _).bind fun topo => ?_
  split
  · exact (removeFromDiskWithoutReading_leading _ _).bind fun _ =>
      (removeFromDiskWithoutReading_leading _ _).bind fun _ => Leading.pure _
  · exact Leading.pure _

theorem deleteDagOrderAboveTopoheight_leading (topoheight : UInt64) :
    Leading start (deleteDagOrderAboveTopoheight topoheight) := by
  refine Leading.get.bind fun _ => Leading.forM _ fun _ => (Leading.ofExcept _).bind fun topo => ?_
  split
  · exact (Leading.ofExcept _).bind fun _ => (removeFromDiskWithoutReading_leading _ _).bind fun _ =>
      (removeFromDiskWithoutReading_leading _ _).bind fun _ => Leading.pure _
  · exact Leading.pure _

theorem clearVersionedDataCaches_leading : Leading start clearVersionedDataCaches :=
  changeCaches_leading fun _ hfed => ((hfed.clearOne .topoByHash).clearOne .hashAtTopo).clearOne .assets

theorem deleteVersionedDataAtTopoheight_leading (topoheight : UInt64) :
    Leading start (deleteVersionedDataAtTopoheight topoheight) := by
  refine (deleteVersionedTreeAtTopoheight_leading _ _).bind fun _ => (deleteVersionedTreeAtTopoheight_leading _ _).bind fun _ => ?_
  refine (deleteVersionedTreeAtTopoheight_leading _ _).bind fun _ =>
    (deleteVersionedRegistrationsAtTopoheight_leading _).bind fun _ => ?_
  refine (deleteVersionedTreeAtTopoheight_leading _ _).bind fun _ => (deleteVersionedTreeAtTopoheight_leading _ _).bind fun _ => ?_
  refine (deleteVersionedTreeAtTopoheight_leading _ _).bind fun _ => ?_
  split
  · exact deleteVersionedTreeAtTopoheight_leading _ _
  · exact Leading.pure _

theorem deleteVersionedDataBelowTopoheight_leading (topoheight : UInt64) (keepLast : Bool) :
    Leading start (deleteVersionedDataBelowTopoheight topoheight keepLast) := by
  have htree (data : VersionedData) : Leading start (deleteVersionedTreeBelowTopoheight data topoheight keepLast) :=
    deleteVersionedTreeBelowTopoheight_leading _ _ _
  refine (deleteVersionedBalancesBelowTopoheight_leading _ _).bind fun _ => (htree _).bind fun _ => (htree _).bind fun _ => ?_
  refine (htree _).bind fun _ => (htree _).bind fun _ => (htree _).bind fun _ => (htree _).bind fun _ => ?_
  exact clearVersionedDataCaches_leading

theorem deleteVersionedDataAboveTopoheight_leading (topoheight : UInt64) :
    Leading start (deleteVersionedDataAboveTopoheight topoheight) := by
  have htree (data : VersionedData) : Leading start (deleteVersionedTreeAboveTopoheight data topoheight) :=
    deleteVersionedTreeAboveTopoheight_leading _ _
  refine (htree _).bind fun _ => (htree _).bind fun _ => (htree _).bind fun _ => ?_
  refine (deleteVersionedRegistrationsAboveTopoheight_leading _).bind fun _ => (htree _).bind fun _ => (htree _).bind fun _ => ?_
  refine (htree _).bind fun _ => (htree _).bind fun _ => (deleteDagOrderAboveTopoheight_leading _).bind fun _ => ?_
  exact clearVersionedDataCaches_leading

end Versions

section Rewind

variable {start : SledStorage}

theorem searchSyncBlock_leading (prunedTopoheight lowestTopo : TopoHeight) :
    Leading start (searchSyncBlock prunedTopoheight lowestTopo) := by
  induction lowestTopo with
  | zero => exact Leading.pure _
  | succ lowestTopo ih =>
    unfold searchSyncBlock
    split
    · refine (getCacheableData_leading _ _ _).bind fun _ => (getCacheableData_leading _ _ _).bind fun _ =>
        (loadFromDisk_leading _ _ _ _).bind fun _ => ?_
      split
      · exact Leading.pure _
      · exact ih
    · exact Leading.pure _

theorem lowestTopoheight_leading (prunedTopoheight topoheight : TopoHeight) (count : Nat) (untilTopoHeight : TopoHeight) :
    Leading start (lowestTopoheight prunedTopoheight topoheight count untilTopoHeight) := by
  refine (searchSyncBlock_leading _ _).bind fun _ => ?_
  dsimp only
  split <;> exact Leading.pure _

theorem popLoop_leading (prunedTopoheight lowestTopo untilTopoHeight topoheight : TopoHeight) (r : SledStorage.Rewound) :
    Leading start (popLoop prunedTopoheight lowestTopo untilTopoHeight topoheight r) := by
  induction topoheight generalizing r with
  | zero => exact Leading.pure _
  | succ topoheight ih =>
    unfold popLoop
    split
    · exact Leading.pure _
    · refine (deleteBlockAtTopoheight_leading _).bind fun deleted => (deleteVersionedDataAtTopoheight_leading _).bind fun _ => ?_
      dsimp only
      split
      · refine (getCacheableData_leading _ _ _).bind fun _ => (removeFromDiskWithoutReading_leading _ _).bind fun _ => ?_
        exact (write_leading _).bind fun _ => Leading.pure _
      · exact ih _

theorem orderedTips_leading (tips : Tips) : Leading start (orderedTips tips) := by
  refine Leading.foldlM _ (fun kept tip => (isBlockTopologicalOrdered_leading tip).bind fun ordered => ?_) tips
  split <;> exact Leading.pure _

theorem popBlocks_leading (height : Nat) (topoheight : TopoHeight) (blocksCount : Nat) (untilTopoHeight : TopoHeight) :
    Leading start (popBlocks height topoheight blocksCount untilTopoHeight) := by
  unfold popBlocks
  have hpops : Leading start (do
      let prunedTopoheight := ((← get).getPrunedTopoheight.map UInt64.toNat).getD 0
      let lowestTopo ← lowestTopoheight prunedTopoheight topoheight blocksCount untilTopoHeight
      let tips ← orderedTips (← get).storage.counters.tipsCache
      let r ← popLoop prunedTopoheight lowestTopo untilTopoHeight topoheight { height, topoheight, tips, txs := [], done := 0 }
      clearCaches
      storeTips r.tips
      let _ ← insertIntoDisk SledStorage.EXTRA SledStorage.TOP_TOPO_HEIGHT (SledStorage.heightBytes r.topoheight)
      let _ ← insertIntoDisk SledStorage.EXTRA SledStorage.TOP_HEIGHT (SledStorage.heightBytes r.height)
      let _ ← insertIntoDisk SledStorage.EXTRA SledStorage.BLOCKS_COUNT (Serializer.toBytes ((← count .blocks) - r.done))
      return (r.height, r.topoheight, r.txs) : Cached (Nat × TopoHeight × List (Hash × Transaction))) := by
    refine Leading.get.bind fun _ => (lowestTopoheight_leading _ _ _ _).bind fun _ => Leading.get.bind fun _ => ?_
    refine (orderedTips_leading _).bind fun _ => (popLoop_leading _ _ _ _ _).bind fun _ => clearCaches_leading.bind fun _ => ?_
    refine (storeTips_leading _).bind fun _ => (insertIntoDisk_leading _ _ _).bind fun _ => (insertIntoDisk_leading _ _ _).bind fun _ => ?_
    exact (count_leading _).bind fun _ => (insertIntoDisk_leading _ _ _).bind fun _ => Leading.pure _
  split
  · exact (Leading.throw _).bind fun _ => hpops
  · exact hpops

end Rewind

end Xelis.Storage.CachedStorage
