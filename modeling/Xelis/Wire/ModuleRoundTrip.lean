import Xelis.Wire.CellRoundTrip

/-! Which decoded modules are well formed: the reader takes one entry id too many, any hook, and constants that are
written otherwise. -/

namespace Xelis.Wire

open Lib (Codec Parses)
open Lib.Codec (readFresh Fresh KeyOrder)
open Lib.Reader (Reads)

variable {S R : Type} [CurveScalar S] [RangeProof R]

namespace Module

section Definitions

variable (context : Option TxVersion) (order : KeyOrder DataValue) (same : ValueCell S R → ValueCell S R → Bool)

def readConstantsIn : Reader (List (ValueCell S R)) := do
  let constantsLen ← readU16
  readFresh .invalidValue same (ValueCell.readIn context order same) constantsLen []

/-- As `read`, with the version of the context, which can be missing. -/
def readIn : Reader (Module S R) := do
  let constants ← readConstantsIn context order same
  let chunks ← readChunks
  let entryIds ← readEntryIds chunks.length
  let hooks ← readHooks
  return { constants, chunks, entryIds, hooks }

/-- What is read of a spelled module. -/
def merged (m : Module S R) : Module S R := { m with constants := m.constants.map (ValueCell.merged order same) }

/-- The chunks and the ids that the reader takes. -/
structure Shaped (m : Module S R) : Prop where
  chunks_length : m.chunks.length < 2 ^ 16
  chunks : ∀ c ∈ m.chunks, c.length < 2 ^ 32
  entryIds_length : m.entryIds.length ≤ m.chunks.length
  entryIds_nodup : m.entryIds.Nodup
  entryIds : ∀ id ∈ m.entryIds, id ≤ m.chunks.length
  hooks_length : m.hooks.length < 2 ^ 8
  hooks_nodup : (m.hooks.map Prod.fst).Nodup
  hooks : ∀ hook ∈ m.hooks, hook.1 < 2 ^ 8 ∧ hook.2 < 2 ^ 16

/-- What can be spelled in bytes for the context. -/
structure RawIn (m : Module S R) : Prop extends Shaped m where
  constants_length : m.constants.length < 2 ^ 16
  constants_fresh : Fresh same (m.constants.map (ValueCell.merged order same))
  constants : ∀ c ∈ m.constants, c.RawIn context

/-- An invocation of the chunk passes verification. -/
def isEntryChunk (m : Module S R) (id : Nat) : Bool := m.entryIds.contains id

def getChunkIdOfHook (m : Module S R) (hook : Nat) : Option Nat := (m.hooks.find? (fun h => h.1 = hook)).map Prod.snd

/-- Every chunk that an invocation or a hook designates is there, and nothing is listed twice. -/
structure WellFormed (m : Module S R) : Prop where
  entryIds : ∀ id, m.isEntryChunk id = true → id < m.chunks.length
  hooks : ∀ hook id, m.getChunkIdOfHook hook = some id → id < m.chunks.length
  constants_fresh : Fresh same m.constants
  entryIds_nodup : m.entryIds.Nodup
  hooks_nodup : (m.hooks.map Prod.fst).Nodup

/-- A module of the source whose ids are valid. Hooks are numbered by bytes, chunks and constants by 16 bits. -/
structure Typed (m : Module S R) : Prop where
  constants_length : m.constants.length ≤ 65535
  constants_fresh : Fresh same m.constants
  constants : ∀ c ∈ m.constants, c.Fits order same
  chunks_length : m.chunks.length ≤ 65535
  chunks : ∀ c ∈ m.chunks, c.length < 2 ^ 32
  entryIds_nodup : m.entryIds.Nodup
  entryIds : ∀ id ∈ m.entryIds, id < m.chunks.length
  hooks_nodup : (m.hooks.map Prod.fst).Nodup
  hooks : ∀ hook ∈ m.hooks, hook.1 < 2 ^ 8 ∧ hook.2 < m.chunks.length

/-- What the writing keeps: fewer than 256 hooks, and no validity proof that the context cannot read. -/
structure Writable (m : Module S R) : Prop where
  hooks : m.hooks.length < 2 ^ 8
  constants : ∀ c ∈ m.constants, c.InContext context

end Definitions

section Parsing

variable (context : Option TxVersion) (order : KeyOrder DataValue) (same : ValueCell S R → ValueCell S R → Bool)

theorem parses : Parses (readIn context order same) write (merged order same) (RawIn context order same) := by
  have hcells : Parses (readConstantsIn context order same) _ _ _ :=
    Parses.counted u16_codec fun n _ => (ValueCell.parses order same context).fresh n
  have hchunks : Parses readChunks _ _ _ := (Codec.counted u16_codec fun n _ => ValueCell.bytes_codec.many n).parses
  refine hcells.bind (p := constants) (fun _ h => ⟨h.constants_length, h.constants_fresh, h.constants⟩) fun constants hconstants => ?_
  refine hchunks.bind (p := chunks) (fun _ h => ⟨h.2.chunks_length, h.2.chunks⟩) fun chunks hchunks => ?_
  refine (entryIds_codec chunks.length hchunks.1).parses.bind (p := entryIds) (fun m h => ?_) fun entryIds hentryIds => ?_
  · obtain ⟨rfl, -, h⟩ := h
    exact ⟨h.entryIds_length, h.entryIds_nodup, h.entryIds⟩
  have hnodup : ∀ hooks : List (Nat × Nat), Fresh (fun a b => decide (a.1 = b.1)) hooks ↔ (hooks.map Prod.fst).Nodup :=
    fun _ => Codec.fresh_iff_nodup
  refine hooks_codec.parses.bind (p := hooks) (fun m h => ?_) fun hooks hhooks => ?_
  · have h := h.2.2.2
    exact ⟨h.hooks_length, (hnodup _).mpr h.hooks_nodup, h.hooks⟩
  have hshaped : Shaped { constants, chunks, entryIds, hooks : Module S R } :=
    ⟨hchunks.1, hchunks.2, hentryIds.1, hentryIds.2.1, hentryIds.2.2, hhooks.1, (hnodup _).mp hhooks.2.1, hhooks.2.2⟩
  refine ⟨fun m hm => ?_, fun hread => ?_⟩
  · obtain ⟨rfl, rfl, rfl, rfl, -⟩ := hm
    exact Reads.pure _
  · cases hread
    exact ⟨{ constants, chunks, entryIds, hooks },
      ⟨rfl, rfl, rfl, rfl, hshaped, hconstants.1, hconstants.2.1, hconstants.2.2⟩, rfl, rfl⟩

variable {m w : Module S R}

section

omit [CurveScalar S]

theorem merged_eq (h : ∀ c ∈ m.constants, c.Fits order same) : merged order same m = m := by
  unfold merged
  rw [List.map_congr_left fun c hc => (h c hc).merged_eq order same, List.map_id']

theorem RawIn.writable (h : m.RawIn context order same) : (merged order same m).Writable context where
  hooks := h.hooks_length
  constants c hc := by
    obtain ⟨w, hw, rfl⟩ := List.mem_map.mp hc
    exact (h.constants w hw).inContext order same

theorem RawIn.constants_fit (h : m.RawIn context order same) :
    ∀ c ∈ (merged order same m).constants, c.Fits order same := by
  intro c hc
  obtain ⟨w, hw, rfl⟩ := List.mem_map.mp hc
  exact (h.constants w hw).fits order same

end

/-- As many distinct ids as there are numbers below the bound, at most. -/
theorem length_le_of_nodup {ids : List Nat} {n : Nat} (hnodup : ids.Nodup) (h : ∀ id ∈ ids, id < n) : ids.length ≤ n := by
  have hle := (List.subperm_of_subset hnodup fun id hid => List.mem_range.mpr (h id hid)).length_le
  rwa [List.length_range] at hle

theorem Typed.rawIn (h : m.Typed order same) (hwritable : m.Writable context) : m.RawIn context order same where
  chunks_length := Nat.lt_succ_of_le h.chunks_length
  chunks := h.chunks
  entryIds_length := length_le_of_nodup h.entryIds_nodup h.entryIds
  entryIds_nodup := h.entryIds_nodup
  entryIds id hid := Nat.le_of_lt (h.entryIds id hid)
  hooks_length := hwritable.hooks
  hooks_nodup := h.hooks_nodup
  hooks hook hhook := ⟨(h.hooks hook hhook).1, Nat.lt_of_lt_of_le (h.hooks hook hhook).2 (Nat.le_succ_of_le h.chunks_length)⟩
  constants_length := Nat.lt_succ_of_le h.constants_length
  constants_fresh := by
    rw [List.map_congr_left fun c hc => (h.constants c hc).merged_eq order same, List.map_id']
    exact h.constants_fresh
  constants c hc := (h.constants c hc).rawIn order same (hwritable.constants c hc)

theorem reads_written_iff (h : m.Typed order same) :
    Reads (readIn context order same) (write m) m ↔ m.Writable context := by
  constructor
  · intro hreads
    obtain ⟨w, hw, hm, -⟩ := (parses context order same).parsed (hreads [])
    rw [hm]
    exact hw.writable context order same
  · intro hwritable
    have hreads := (parses context order same).reads m (h.rawIn context order same hwritable)
    rwa [merged_eq order same h.constants] at hreads

omit [CurveScalar S] in
theorem Typed.wellFormed (h : m.Typed order same) : m.WellFormed same where
  entryIds id hid := h.entryIds id (List.contains_iff_mem.mp hid)
  hooks hook id hid := by
    obtain ⟨found, hfound, rfl⟩ := Option.map_eq_some_iff.mp hid
    exact (h.hooks found (List.mem_of_find?_eq_some hfound)).2
  constants_fresh := h.constants_fresh
  entryIds_nodup := h.entryIds_nodup
  hooks_nodup := h.hooks_nodup

omit [CurveScalar S] in
theorem WellFormed.typed (hw : w.RawIn context order same) (h : (merged order same w).WellFormed same) :
    (merged order same w).Typed order same where
  constants_length := by
    rw [show (merged order same w).constants.length = w.constants.length from List.length_map _]
    exact Nat.le_of_lt_succ hw.constants_length
  constants_fresh := hw.constants_fresh
  constants := hw.constants_fit
  chunks_length := Nat.le_of_lt_succ hw.chunks_length
  chunks := hw.chunks
  entryIds_nodup := hw.entryIds_nodup
  entryIds id hid := h.entryIds id (List.contains_iff_mem.mpr hid)
  hooks_nodup := hw.hooks_nodup
  hooks hook hhook := by
    refine ⟨(hw.hooks hook hhook).1, h.hooks hook.1 hook.2 ?_⟩
    show Option.map Prod.snd (w.hooks.find? (fun h => h.1 = hook.1)) = _
    rw [Codec.find_of_mem hw.hooks_nodup hhook]
    rfl

/-- A module that is read is well formed and written as it came if and only if the bytes spell one with valid ids whose
maps give every key once, in order. A module with valid ids is read back if and only if it has fewer than 256 hooks and the
context has the version of its proofs. -/
theorem modules_well_formed :
    (∀ bytes m rest, readIn context order same bytes = .ok (m, rest) →
      (m.WellFormed same ∧ bytes = write m ++ rest ↔ ∃ spelled, spelled.Typed order same ∧ spelled.Writable context ∧
        bytes = write spelled ++ rest)) ∧
      ∀ m : Module S R, m.Typed order same → (Reads (readIn context order same) (write m) m ↔ m.Writable context) := by
  refine ⟨fun bytes m rest hread => ⟨?_, ?_⟩, fun m hm => reads_written_iff context order same hm⟩
  · rintro ⟨hwell, hbytes⟩
    obtain ⟨w, hw, rfl, -⟩ := (parses context order same).parsed hread
    exact ⟨_, hwell.typed context order same hw, hw.writable context order same, hbytes⟩
  · rintro ⟨spelled, htyped, hwritable, rfl⟩
    have hspelled := (reads_written_iff context order same htyped).mpr hwritable rest
    rw [hspelled] at hread
    cases hread
    exact ⟨htyped.wellFormed order same, rfl⟩

end Parsing

/-- One empty chunk. The entry and the constructor designate others. -/
def pastTheEnd : Module (Fin GROUP_ORDER) IVec := { constants := [], chunks := [[]], entryIds := [1], hooks := [(0, 7)] }

theorem pastTheEnd_rawIn (context : Option TxVersion) (order : KeyOrder DataValue)
    (same : ValueCell (Fin GROUP_ORDER) IVec → ValueCell (Fin GROUP_ORDER) IVec → Bool) : pastTheEnd.RawIn context order same where
  chunks_length := by decide
  chunks := by decide
  entryIds_length := by decide
  entryIds_nodup := by decide
  entryIds := by decide
  hooks_length := by decide
  hooks_nodup := by decide
  hooks := by decide
  constants_length := by decide
  constants_fresh := List.Pairwise.nil
  constants _ hc := nomatch hc

/-- The reader takes it. -/
theorem pastTheEnd_accepted : ¬ ∀ (context : Option TxVersion) (order : KeyOrder DataValue)
    (same : ValueCell (Fin GROUP_ORDER) IVec → ValueCell (Fin GROUP_ORDER) IVec → Bool) (bytes rest : IVec)
    (m : Module (Fin GROUP_ORDER) IVec), readIn context order same bytes = .ok (m, rest) →
      m.WellFormed same ∧ bytes = write m ++ rest := by
  intro h
  have hread := (parses none anyOrder (fun _ _ => false)).reads pastTheEnd (pastTheEnd_rawIn _ _ _) []
  have hmissing := (h _ _ _ _ _ _ hread).1.entryIds 1 (by decide)
  exact absurd hmissing (by decide)

def oneChunk : Module (Fin GROUP_ORDER) IVec := { constants := [], chunks := [[]], entryIds := [0], hooks := [(0, 0)] }

theorem oneChunk_round_trip : Reads (readIn none anyOrder (fun _ _ => false)) (write oneChunk) oneChunk := by
  have htyped : oneChunk.Typed anyOrder (fun _ _ => false) :=
    { constants_length := by decide, constants_fresh := List.Pairwise.nil, constants := (fun _ hc => nomatch hc),
      chunks_length := by decide, chunks := by decide, entryIds_nodup := by decide, entryIds := by decide,
      hooks_nodup := by decide, hooks := by decide }
  refine ((modules_well_formed none anyOrder (fun _ _ => false)).2 oneChunk htyped).mpr ?_
  exact { hooks := by decide, constants := fun _ hc => nomatch hc }

end Module

end Xelis.Wire
