import Xelis.Wire.Primitive

namespace Xelis.Wire

open Lib (Codec)
open Lib.Codec (readEntries writeEntry readFresh Fresh FreshKeys KeyOrder)
open Lib.Reader (readMany takeBytes)

variable {S R : Type}

inductive ValueCell (S R : Type) where
  | default (value : Primitive S R)
  | bytes (bytes : IVec)
  | array (values : List (ValueCell S R))
  | map (map : List (ValueCell S R × ValueCell S R))

variable [CurveScalar S] [RangeProof R]

/-- What surrounds the reading of a value: the version of the transaction, the order of hash maps, and when the
virtual machine takes two cells for the same key. -/
structure Context (S R : Type) where
  version : TxVersion
  order : KeyOrder DataValue
  same : ValueCell S R → ValueCell S R → Bool

variable (context : Context S R)

namespace ValueCell

mutual

def write : ValueCell S R → IVec
  | default value => writeU8 0 ++ value.write
  | bytes b => writeU8 1 ++ (writeU32 b.length ++ b)
  | array values => writeU8 2 ++ (writeU32 values.length ++ writeCells values)
  | map es => writeU8 3 ++ (writeU32 es.length ++ writePairs es)

def writeCells : List (ValueCell S R) → IVec
  | [] => []
  | v :: vs => v.write ++ writeCells vs

def writePairs : List (ValueCell S R × ValueCell S R) → IVec
  | [] => []
  | (k, v) :: es => k.write ++ v.write ++ writePairs es

end

def readBytes : Reader IVec := do
  let len ← readU32
  takeBytes .invalidSize len

/-- A key that comes again replaces the value; the strict form refuses it. -/
def readAt (readPrimitive : Reader (Primitive S R)) (same : ValueCell S R → ValueCell S R → Bool) (strict : Bool) :
    Nat → Reader (ValueCell S R)
  | 0 => throw .invalidSize
  | depth + 1 => do
    match ← readU8 with
    | 0 => return default (← readPrimitive)
    | 1 => return bytes (← readBytes)
    | 2 => return array (← readU32 >>= fun len => readMany (readAt readPrimitive same strict depth) len)
    | 3 => return map (← readU32 >>= fun len =>
        readEntries strict .invalidValue same (readAt readPrimitive same strict depth) (readAt readPrimitive same strict depth) len [])
    | _ => throw .invalidValue

/-- Cells can nest as deep as there are bytes. -/
def read (strict : Bool) : Reader (ValueCell S R) := fun bytes =>
  readAt (Primitive.read context.version context.order strict) context.same strict bytes.length bytes

/-- The limits of the format, and what is asked of the primitive values and of the entries of a map. -/
def HoldsAt (P : Primitive S R → Prop) (K : List (ValueCell S R × ValueCell S R) → Prop) : Nat → ValueCell S R → Prop
  | 0, _ => False
  | _ + 1, default value => P value
  | _ + 1, bytes b => b.length < 2 ^ 32
  | depth + 1, array values => values.length < 2 ^ 32 ∧ ∀ v ∈ values, HoldsAt P K depth v
  | depth + 1, map es => (es.length < 2 ^ 32 ∧ K es) ∧ ∀ e ∈ es, HoldsAt P K depth e.1 ∧ HoldsAt P K depth e.2

def Holds (P : Primitive S R → Prop) (K : List (ValueCell S R × ValueCell S R) → Prop) (cell : ValueCell S R) : Prop :=
  ∃ depth, HoldsAt P K depth cell

def Valid : ValueCell S R → Prop := Holds (Primitive.Valid context.version context.order) (FreshKeys context.same)

omit [CurveScalar S] [RangeProof R] in
theorem bytes_codec : Codec (fun _ => readBytes) (fun b => writeU32 b.length ++ b) (fun b => b.length < 2 ^ 32) := by
  refine u32_codec.bind (p := List.length) (fun _ hb => hb) fun len hlen => ?_
  exact (Codec.take ReaderError.invalidSize len).congr fun b => ⟨fun hb => ⟨hb, hb ▸ hlen⟩, fun hb => hb.1⟩

theorem writeCells_eq (vs : List (ValueCell S R)) : writeCells vs = vs.flatMap write := by
  induction vs with
  | nil => rfl
  | cons v vs ih => rw [writeCells, ih, List.flatMap_cons]

theorem writePairs_eq (es : List (ValueCell S R × ValueCell S R)) : writePairs es = es.flatMap (writeEntry write write) := by
  induction es with
  | nil => rfl
  | cons e es ih => rw [writePairs, ih, List.flatMap_cons, writeEntry]

theorem codecAt (depth : Nat) : Codec (fun strict => readAt (Primitive.read context.version context.order strict) context.same strict depth) write
    (HoldsAt (Primitive.Valid context.version context.order) (FreshKeys context.same) depth) := by
  induction depth with
  | zero => exact Codec.throw fun _ h => h
  | succ depth ih =>
    refine Codec.tagged (fun v _ => by cases v <;> exact writeU8_append_ne_nil _ _) fun t => ?_
    match t with
    | 0 =>
      refine (Primitive.codec context.version context.order).map (c := default) (fun _ _ => tail_writeU8 _ _) fun v => ?_
      cases v <;> simp [write, HoldsAt]
    | 1 =>
      refine bytes_codec.map (c := bytes) (fun _ _ => tail_writeU8 _ _) fun v => ?_
      cases v <;> simp [write, HoldsAt]
    | 2 =>
      refine (Codec.counted u32_codec fun n _ => ih.many n).map (c := array) (fun vs _ => ?_) fun v => ?_
      · rw [write, tail_writeU8, writeCells_eq]
      · cases v <;> simp [write, HoldsAt]
    | 3 =>
      refine (Codec.entries u32_codec (fun _ _ => by simp) ih ih).map (c := map) (fun es _ => ?_) fun v => ?_
      · rw [write, tail_writeU8, writePairs_eq]
      · cases v <;> simp [write, HoldsAt, and_assoc]
    | t + 4 => exact Codec.throw fun v => by cases v <;> simp [write]

theorem HoldsAt.deep_enough {P : Primitive S R → Prop} {K : List (ValueCell S R × ValueCell S R) → Prop} (m n : Nat) (cell : ValueCell S R)
    (h : HoldsAt P K m cell) (hlen : (write cell).length ≤ n) : HoldsAt P K n cell := by
  induction m generalizing n cell with
  | zero => exact absurd h id
  | succ m ih =>
    have hpos : 0 < (write cell).length := List.length_pos_of_ne_nil (by cases cell <;> exact writeU8_append_ne_nil _ _)
    obtain ⟨n, rfl⟩ : ∃ k, n = k + 1 := ⟨n - 1, by omega⟩
    cases cell with
    | default value => exact h
    | bytes b => exact h
    | array vs =>
      refine ⟨h.1, fun v hv => ih n v (h.2 v hv) ?_⟩
      have hle := Codec.length_le_flatMap write hv
      rw [write, writeCells_eq] at hlen
      simp only [List.length_append, length_writeU8] at hlen
      omega
    | map es =>
      have hle : ∀ e ∈ es, (write e.1).length + (write e.2).length ≤ n := by
        intro e he
        have hle := Codec.length_le_flatMap (writeEntry write write) he
        rw [writeEntry, List.length_append] at hle
        rw [write, writePairs_eq] at hlen
        simp only [List.length_append, length_writeU8] at hlen
        omega
      refine ⟨h.1, fun e he => ⟨ih n e.1 (h.2 e he).1 ?_, ih n e.2 (h.2 e he).2 ?_⟩⟩
      · exact Nat.le_trans (Nat.le_add_right _ _) (hle e he)
      · exact Nat.le_trans (Nat.le_add_left _ _) (hle e he)

theorem codec : Codec (read context) write (Valid context) := Codec.unbounded (codecAt context) HoldsAt.deep_enough

/-- What a cell takes by itself, and the cells that it puts on the stack. -/
def parts : ValueCell S R → Nat × List (ValueCell S R)
  | default value => (1 + value.size, [])
  | bytes b => (1 + 4 + b.length, [])
  | array values => (1 + 4, values.reverse)
  | map es => (1 + 4, (es.flatMap (fun e => [e.1, e.2])).reverse)

theorem length_write (cell : ValueCell S R) :
    cell.write.length = cell.parts.1 + (cell.parts.2.map (fun v => v.write.length)).sum := by
  cases cell with
  | default value => simp [write, parts, Primitive.size_eq]
  | bytes b =>
    simp only [write, parts, List.length_append, length_writeU8, length_writeU32, List.map_nil, List.sum_nil]
    omega
  | array values => simp [write, parts, writeCells_eq, List.map_reverse, List.sum_reverse, List.length_flatMap, ← Nat.add_assoc]
  | map es =>
    have hpairs : (es.flatMap (writeEntry write write)).length =
        ((es.flatMap (fun e => [e.1, e.2])).map (fun v => v.write.length)).sum := by
      induction es with
      | nil => rfl
      | cons e es ih => simp [List.flatMap_cons, writeEntry, ih]
    simp only [write, parts, writePairs_eq, List.length_append, length_writeU8, length_writeU32, List.map_reverse, List.sum_reverse, hpairs]
    omega

theorem parts_pos (cell : ValueCell S R) : 0 < cell.parts.1 := by
  cases cell with
  | default value => exact Nat.lt_add_right _ Nat.zero_lt_one
  | bytes b => exact Nat.lt_add_right _ (by decide)
  | array values => exact Nat.succ_pos _
  | map es => exact Nat.succ_pos _

/-- The cells that are still to be measured are on a stack. -/
def sizeLoop : List (ValueCell S R) → Nat → Nat
  | [], total => total
  | cell :: stack, total => sizeLoop (cell.parts.2 ++ stack) (total + cell.parts.1)
  termination_by stack => (stack.map (fun v => v.write.length)).sum
  decreasing_by
    have hpos := parts_pos cell
    rw [List.map_append, List.sum_append, List.map_cons, List.sum_cons, length_write cell]
    omega

def size (cell : ValueCell S R) : Nat := sizeLoop [cell] 0

theorem sizeLoop_eq (stack : List (ValueCell S R)) (total : Nat) :
    sizeLoop stack total = total + (stack.map (fun v => v.write.length)).sum := by
  fun_induction sizeLoop stack total with
  | case1 total => rfl
  | case2 cell stack total ih =>
    rw [ih, List.map_append, List.sum_append, List.map_cons, List.sum_cons, length_write cell]
    omega

theorem size_eq (cell : ValueCell S R) : cell.size = cell.write.length := by
  rw [size, sizeLoop_eq, Nat.zero_add, List.map_singleton, List.sum_singleton]

end ValueCell

/-- The bytecode of a contract. -/
structure Module (S R : Type) where
  constants : List (ValueCell S R)
  chunks : List IVec
  entryIds : List Nat
  hooks : List (Nat × Nat)

namespace Module

def writeChunk (instructions : IVec) : IVec := writeU32 instructions.length ++ instructions

def writeHook (hook : Nat × Nat) : IVec := writeU8 hook.1 ++ writeU16 hook.2

def write (module : Module S R) : IVec :=
  [writeU16 module.constants.length ++ module.constants.flatMap ValueCell.write,
    writeU16 module.chunks.length ++ module.chunks.flatMap writeChunk,
    writeU16 module.entryIds.length ++ module.entryIds.flatMap writeU16,
    writeU8 module.hooks.length ++ module.hooks.flatMap writeHook].flatten

def readConstants (strict : Bool) : Reader (List (ValueCell S R)) := do
  let constantsLen ← readU16
  readFresh .invalidValue context.same (ValueCell.read context strict) constantsLen []

def readChunks : Reader (List IVec) := do
  let chunksLen ← readU16
  readMany ValueCell.readBytes chunksLen

def readEntryId (chunksLen : Nat) : Reader Nat := do
  let id ← readU16
  if id > chunksLen then throw .invalidValue else return id

def readEntryIds (chunksLen : Nat) : Reader (List Nat) := do
  let entryIdsLen ← readU16
  if entryIdsLen > chunksLen then throw .invalidValue else
  readFresh .invalidValue (fun a b => decide (a = b)) (readEntryId chunksLen) entryIdsLen []

def readHook : Reader (Nat × Nat) := do
  let hookId ← readU8
  let chunkId ← readU16
  return (hookId, chunkId)

/-- A hook can be registered one time only. -/
def readHooks : Reader (List (Nat × Nat)) := do
  let hooksLen ← readU8
  readFresh .invalidValue (fun a b => decide (a.1 = b.1)) readHook hooksLen []

def read (strict : Bool) : Reader (Module S R) := do
  let constants ← readConstants context strict
  let chunks ← readChunks
  let entryIds ← readEntryIds chunks.length
  let hooks ← readHooks
  return { constants, chunks, entryIds, hooks }

structure Valid (module : Module S R) : Prop where
  constants_length : module.constants.length < 2 ^ 16
  constants_fresh : Fresh context.same module.constants
  constants : ∀ c ∈ module.constants, c.Valid context
  chunks_length : module.chunks.length < 2 ^ 16
  chunks : ∀ c ∈ module.chunks, c.length < 2 ^ 32
  entryIds_length : module.entryIds.length ≤ module.chunks.length
  entryIds_nodup : module.entryIds.Nodup
  entryIds : ∀ id ∈ module.entryIds, id ≤ module.chunks.length
  hooks_length : module.hooks.length < 2 ^ 8
  hooks_nodup : (module.hooks.map Prod.fst).Nodup
  hooks : ∀ hook ∈ module.hooks, hook.1 < 2 ^ 8 ∧ hook.2 < 2 ^ 16

omit [CurveScalar S] [RangeProof R] in
theorem entryIds_codec (chunksLen : Nat) (h : chunksLen < 2 ^ 16) :
    Codec (fun _ => readEntryIds chunksLen) (fun ids => writeU16 ids.length ++ ids.flatMap writeU16)
      (fun ids => ids.length ≤ chunksLen ∧ ids.Nodup ∧ ∀ id ∈ ids, id ≤ chunksLen) := by
  have hid : Codec (fun _ => readEntryId chunksLen) writeU16 (fun id => id ≤ chunksLen) := by
    have hcodec : Codec (fun _ => readEntryId chunksLen) (fun id => writeU16 id ++ []) (fun id => id ≤ chunksLen) := by
      refine u16_codec.bind (p := id) (fun _ hle => Nat.lt_of_le_of_lt hle h) fun id _ => ?_
      refine Codec.guard (fun hle => Codec.pure rfl fun id' => ?_) ?_
      · constructor
        · exact fun h => h.1
        · rintro rfl
          exact ⟨rfl, Nat.le_of_not_lt hle⟩
      · rintro hgt id' ⟨rfl, hle⟩
        exact Nat.not_le_of_lt hgt hle
    exact hcodec.congr_write fun _ _ => List.append_nil _
  have hnodup : ∀ ids : List Nat, Fresh (fun a b => decide (a = b)) ids ↔ ids.Nodup := by
    intro ids
    simp only [Fresh, List.Nodup, decide_eq_false_iff_not, ne_eq]
  refine u16_codec.bind (p := List.length) (fun _ hids => Nat.lt_of_le_of_lt hids.1 h) fun n hn => ?_
  refine Codec.guard (fun hle => ?_) ?_
  · refine (hid.fresh n).congr fun ids => ?_
    rw [hnodup]
    exact ⟨fun hids => ⟨hids.1, hids.1 ▸ Nat.le_of_not_lt hle, hids.2⟩, fun hids => ⟨hids.1, hids.2.2⟩⟩
  · rintro hgt ids ⟨rfl, hle, -⟩
    exact Nat.not_le_of_lt hgt hle

omit [CurveScalar S] [RangeProof R] in
theorem hooks_codec : Codec (fun _ => readHooks) (fun hooks => writeU8 hooks.length ++ hooks.flatMap writeHook)
    (fun hooks => hooks.length < 2 ^ 8 ∧ Fresh (fun a b => decide (a.1 = b.1)) hooks ∧
      ∀ hook ∈ hooks, hook.1 < 2 ^ 8 ∧ hook.2 < 2 ^ 16) := by
  have hhook : Codec (fun _ => readHook) writeHook (fun hook => hook.1 < 2 ^ 8 ∧ hook.2 < 2 ^ 16) := by
    have hcodec : Codec (fun _ => readHook) (fun hook => writeU8 hook.1 ++ (writeU16 hook.2 ++ []))
        (fun hook => hook.1 < 2 ^ 8 ∧ hook.2 < 2 ^ 16) := by
      refine u8_codec.bind (p := Prod.fst) (fun _ h => h.1) fun hookId hid => ?_
      refine u16_codec.bind (p := Prod.snd) (fun _ h => h.2.2) fun chunkId hchunk => Codec.pure rfl fun hook => ?_
      constructor
      · rintro ⟨rfl, rfl, -⟩
        rfl
      · rintro rfl
        exact ⟨rfl, rfl, hid, hchunk⟩
    refine hcodec.congr_write fun hook _ => ?_
    rw [List.append_nil, writeHook]
  exact Codec.counted u8_codec fun n _ => hhook.fresh n

theorem codec : Codec (read context) write (Valid context) := by
  refine (Codec.counted u16_codec fun n _ => (ValueCell.codec context).fresh n).bind (p := constants)
    (fun _ h => ⟨h.constants_length, h.constants_fresh, h.constants⟩) fun constants hconstants => ?_
  refine (Codec.counted u16_codec fun n _ => ValueCell.bytes_codec.many n).bind (p := chunks)
    (fun _ h => ⟨h.2.chunks_length, h.2.chunks⟩) fun chunks hchunks => ?_
  refine (entryIds_codec chunks.length hchunks.1).bind (p := entryIds) (fun m h => ?_) fun entryIds hentryIds => ?_
  · obtain ⟨rfl, -, h⟩ := h
    exact ⟨h.entryIds_length, h.entryIds_nodup, h.entryIds⟩
  have hnodup : ∀ hooks : List (Nat × Nat), Fresh (fun a b => decide (a.1 = b.1)) hooks ↔ (hooks.map Prod.fst).Nodup := by
    intro hooks
    rw [List.Nodup, List.pairwise_map]
    simp only [Fresh, decide_eq_false_iff_not, ne_eq]
  refine hooks_codec.bind (p := hooks) (fun m h => ?_) fun hooks hhooks => ?_
  · have h := h.2.2.2
    exact ⟨h.hooks_length, (hnodup _).mpr h.hooks_nodup, h.hooks⟩
  refine Codec.pure rfl fun m => ?_
  constructor
  · rintro ⟨rfl, rfl, rfl, rfl, -⟩
    rfl
  · rintro rfl
    exact ⟨rfl, rfl, rfl, rfl, hconstants.1, hconstants.2.1, hconstants.2.2, hchunks.1, hchunks.2, hentryIds.1, hentryIds.2.1,
      hentryIds.2.2, hhooks.1, (hnodup _).mp hhooks.2.1, hhooks.2.2⟩

end Module

end Xelis.Wire
