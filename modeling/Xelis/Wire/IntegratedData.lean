import Xelis.Lib.Parsing
import Xelis.Wire.Transaction

namespace Xelis.Wire

open Lib (Codec Parses)
open Lib.Codec (readEntries writeEntry KeyOrder)
open Lib.Parses (mergeEntries)
open Lib.Reader (Reads)

/-- What the comments of the source allow a blob. -/
def DOCUMENTED_BLOB_SIZE : Nat := 65535

namespace DataValue

/-- The numbers fit the machine types of the source. -/
def Typed : DataValue → Prop
  | u8 value => value < 2 ^ 8
  | u16 value => value < 2 ^ 16
  | u32 value => value < 2 ^ 32
  | u64 value => value < U64_RANGE
  | u128 value => value < 2 ^ 128
  | _ => True

/-- Texts have at most 255 bytes, blobs at most `limit`. -/
def Within (limit : Nat) : DataValue → Prop
  | string value => (stringBytes value).length ≤ 255
  | blob value => value.length ≤ limit
  | _ => True

theorem valid_iff (v : DataValue) : v.Valid ↔ v.Typed ∧ v.Within DEFAULT_MAX_ITEMS := by
  cases v <;> simp [Valid, Typed, Within, Nat.lt_succ_iff]

end DataValue

variable {depth m limit : Nat} {e : DataElement}

namespace DataElement

/-- An element of the source: its numbers are machine numbers, and the keys of a map differ. -/
def Typed : DataElement → Prop := Holds DataValue.Typed (fun _ => True) fun es => (es.map Prod.fst).Nodup

/-- An element with at most 255 entries in an array or a map, 255 bytes in a text and `limit` bytes in a blob. -/
def Within (limit : Nat) : DataElement → Prop :=
  Holds (fun v => v.Typed ∧ v.Within limit) (fun n => n ≤ 255) fun es => es.length ≤ 255 ∧ (es.map Prod.fst).Nodup

/-- What can be spelled in bytes: a map can name a key twice. -/
def RawAt : Nat → DataElement → Prop := HoldsAt DataValue.Valid (fun n => n < 2 ^ 8) fun es => es.length < 2 ^ 8

def Raw (e : DataElement) : Prop := ∃ depth, RawAt depth e

/-- No map names a key twice. -/
def Distinct : DataElement → Prop := Holds (fun _ => True) (fun _ => True) fun es => (es.map Prod.fst).Nodup

section Holds

variable {P P' : DataValue → Prop} {A A' : Nat → Prop} {K K' : List (DataValue × DataElement) → Prop}

theorem HoldsAt.mono (hP : ∀ v, P v → P' v) (hA : ∀ n, A n → A' n) (hK : ∀ es, K es → K' es)
    (h : HoldsAt P A K depth e) : HoldsAt P' A' K' depth e := by
  induction depth generalizing e with
  | zero => exact absurd h id
  | succ depth ih =>
    cases e with
    | value v => exact hP v h
    | array vs => exact ⟨hA _ h.1, fun v hv => ih (h.2 v hv)⟩
    | fields es => exact ⟨hK _ h.1, fun e he => ⟨hP _ (h.2 e he).1, ih (h.2 e he).2⟩⟩

theorem Holds.mono (hP : ∀ v, P v → P' v) (hA : ∀ n, A n → A' n) (hK : ∀ es, K es → K' es)
    (h : Holds P A K e) : Holds P' A' K' e := by
  obtain ⟨depth, h⟩ := h
  exact ⟨depth, h.mono hP hA hK⟩

theorem Within.raw (h : e.Within DEFAULT_MAX_ITEMS) : e.Raw :=
  h.mono (fun v hv => (DataValue.valid_iff v).mpr hv) (fun _ hn => Nat.lt_succ_of_le hn) (fun _ hes => Nat.lt_succ_of_le hes.1)

end Holds

section Merged

variable (order : KeyOrder DataValue)

mutual

/-- The element that the fields make when its maps take them one by one: a key that comes again replaces its value,
and they stand in the order of the map. -/
def merged : DataElement → DataElement
  | value v => value v
  | array vs => array (mergedElements vs)
  | fields es => fields (order.arrange (mergeEntries (fun a b => decide (a = b)) (mergedFields es)))

def mergedElements : List DataElement → List DataElement
  | [] => []
  | v :: vs => merged v :: mergedElements vs

def mergedFields : List (DataValue × DataElement) → List (DataValue × DataElement)
  | [] => []
  | (k, v) :: es => (k, merged v) :: mergedFields es

end

theorem mergedElements_eq (vs : List DataElement) : mergedElements order vs = vs.map (merged order) := by
  induction vs with
  | nil => rfl
  | cons v vs ih => rw [mergedElements, ih, List.map_cons]

theorem mergedFields_eq (es : List (DataValue × DataElement)) :
    mergedFields order es = es.map (Prod.map id (merged order)) := by
  induction es with
  | nil => rfl
  | cons e es ih =>
    rw [mergedFields, ih, List.map_cons]
    rfl

theorem keys_mergedFields (es : List (DataValue × DataElement)) : (mergedFields order es).map Prod.fst = es.map Prod.fst := by
  rw [mergedFields_eq, List.map_map]
  rfl

theorem perm_merged {es : List (DataValue × DataElement)} (hdistinct : (es.map Prod.fst).Nodup) :
    (order.arrange (mergeEntries (fun a b => decide (a = b)) (mergedFields order es))).Perm (es.map (Prod.map id (merged order))) := by
  have hkeys : ((mergedFields order es).map Prod.fst).Nodup := by rwa [keys_mergedFields]
  rw [Parses.mergeEntries_of_fresh (Codec.freshKeys_iff_nodup.mpr hkeys), ← mergedFields_eq]
  exact order.arrange_perm hkeys

theorem perm_arrange_mergeEntries (es : List (DataValue × DataElement)) :
    (order.arrange (mergeEntries (fun a b => decide (a = b)) es)).Perm (mergeEntries (fun a b => decide (a = b)) es) :=
  order.arrange_perm (Codec.freshKeys_iff_nodup.mp (Parses.freshKeys_mergeEntries es))

theorem parsesAt (depth : Nat) : Parses (readAt order false depth) write (merged order) (RawAt depth) := by
  induction depth with
  | zero => exact Parses.throw fun _ h => h
  | succ depth ih =>
    refine Parses.tagged (fun e => by cases e <;> exact writeU8_append_ne_nil _ _) fun t => ?_
    match t with
    | 0 =>
      refine DataValue.codec.parses.map (c := value) (fun _ => rfl) (fun _ => rfl) fun e => ?_
      cases e <;> simp [write, RawAt, HoldsAt]
    | 1 =>
      refine (Parses.counted u8_codec fun n _ => ih.many n).map (c := array) (fun vs => ?_) (fun vs => ?_) fun e => ?_
      · rw [write, tail_writeU8, writeElements_eq]
      · rw [merged, mergedElements_eq]
      · cases e <;> simp [write, RawAt, HoldsAt]
    | 2 =>
      have hentries : Parses (readU8 >>= fun size =>
          readEntries false .invalidValue (fun a b => decide (a = b)) DataValue.read (readAt order false depth) size []) _ _ _ :=
        Parses.counted u8_codec fun n _ => Parses.entries DataValue.codec.parses ih n
      refine (hentries.after order.arrange).map (c := fields) (fun es => ?_) (fun es => ?_) fun e => ?_
      · rw [write, tail_writeU8, writeFields_eq]
      · rw [merged, mergedFields_eq]
      · cases e <;> simp [write, RawAt, HoldsAt]
    | t + 3 => exact Parses.throw fun e => by cases e <;> simp [write]

theorem parses : Parses (read order false) write (merged order) Raw :=
  Parses.unbounded (parsesAt order) (HoldsAt.deep_enough (P := DataValue.Valid))

theorem length_writeEntries_arrange (es : List (DataValue × DataElement)) :
    (writeFields (order.arrange (mergeEntries (fun a b => decide (a = b)) es))).length =
      (writeFields (mergeEntries (fun a b => decide (a = b)) es)).length := by
  rw [writeFields_eq, writeFields_eq]
  exact ((perm_arrange_mergeEntries order es).flatMap_right _).length_eq

mutual

theorem length_write_merged : (e : DataElement) → (write (merged order e)).length ≤ (write e).length
  | value v => Nat.le_refl _
  | array vs => by
    have hle := length_writeElements_merged vs
    simp only [merged, write, List.length_append, length_writeU8]
    omega
  | fields es => by
    have hle := length_writeFields_merged es
    have hmerge := Parses.length_write_mergeEntries (fun a b => decide (a = b)) DataValue.write write (mergedFields order es)
    rw [← writeFields_eq, ← writeFields_eq] at hmerge
    simp only [merged, write, List.length_append, length_writeU8, length_writeEntries_arrange]
    omega

theorem length_writeElements_merged : (vs : List DataElement) → (writeElements (mergedElements order vs)).length ≤ (writeElements vs).length
  | [] => Nat.le_refl _
  | v :: vs => by
    have hv := length_write_merged v
    have hvs := length_writeElements_merged vs
    simp only [mergedElements, writeElements, List.length_append]
    omega

theorem length_writeFields_merged : (es : List (DataValue × DataElement)) →
    (writeFields (mergedFields order es)).length ≤ (writeFields es).length
  | [] => Nat.le_refl _
  | (k, v) :: es => by
    have hv := length_write_merged v
    have hes := length_writeFields_merged es
    simp only [mergedFields, writeFields, List.length_append]
    omega

end

variable {P P' : DataValue → Prop}

theorem HoldsAt.length_write_merged {A : Nat → Prop}
    (h : HoldsAt P A (fun es => (es.map Prod.fst).Nodup) depth e) : (write (merged order e)).length = (write e).length := by
  induction depth generalizing e with
  | zero => exact absurd h id
  | succ depth ih =>
    cases e with
    | value v => rfl
    | array vs =>
      have hsame : (vs.map (merged order)).flatMap write = vs.flatMap (fun v => write (merged order v)) := List.flatMap_map ..
      rw [merged, write, write, mergedElements_eq, writeElements_eq, writeElements_eq, hsame]
      simp only [List.length_append, length_writeU8, List.length_flatMap]
      rw [List.map_congr_left fun v hv => ih (h.2 v hv)]
    | fields es =>
      obtain ⟨hdistinct, hentries⟩ := h
      have hperm := (perm_merged order hdistinct).flatMap_right (writeEntry DataValue.write write)
      have hsame : (es.map (Prod.map id (merged order))).flatMap (writeEntry DataValue.write write) =
          es.flatMap (fun e => e.1.write ++ write (merged order e.2)) := List.flatMap_map ..
      rw [hsame] at hperm
      rw [merged, write, write, writeFields_eq, writeFields_eq]
      simp only [List.length_append, length_writeU8, hperm.length_eq, List.length_flatMap, writeEntry]
      rw [List.map_congr_left fun e he => congrArg (e.1.write.length + ·) (ih (hentries e he).2)]

/-- No byte is lost when no key is named twice. -/
theorem Distinct.length_write_merged (h : e.Distinct) : (write (merged order e)).length = (write e).length := by
  obtain ⟨depth, h⟩ := h
  exact h.length_write_merged order

/-- What a reader gives back is small enough. -/
theorem Valid.within (h : e.Valid order) : e.Within DEFAULT_MAX_ITEMS :=
  h.mono (fun v hv => (DataValue.valid_iff v).mp hv) (fun _ hn => Nat.le_of_lt_succ hn) fun _ hes => ⟨Nat.le_of_lt_succ hes.1, hes.2.1⟩

theorem Valid.merged_eq (h : e.Valid order) : merged order e = e := by
  obtain ⟨depth, h⟩ := h
  induction depth generalizing e with
  | zero => exact absurd h id
  | succ depth ih =>
    cases e with
    | value v => rfl
    | array vs =>
      rw [merged, mergedElements_eq, List.map_congr_left fun v hv => ih (h.2 v hv), List.map_id']
    | fields es =>
      obtain ⟨⟨-, hdistinct, harranged⟩, hentries⟩ := h
      have hsame : mergedFields order es = es := by
        rw [mergedFields_eq]
        refine (List.map_congr_left fun e he => ?_).trans (List.map_id' es)
        rw [Prod.map, ih (hentries e he).2]
        rfl
      rw [merged, hsame, Parses.mergeEntries_of_fresh (Codec.freshKeys_iff_nodup.mpr hdistinct),
        order.arrange_eq_self hdistinct harranged]

/-- The limits do not look at the order of the fields. -/
theorem HoldsAt.of_merged {A A' : Nat → Prop} {K' : List (DataValue × DataElement) → Prop}
    (hK' : ∀ es es', (es.map Prod.fst).Perm (es'.map Prod.fst) → K' es → K' es')
    (h : HoldsAt P A (fun es => (es.map Prod.fst).Nodup) m e) (hmerged : HoldsAt P' A' K' depth (merged order e)) : HoldsAt P' A' K' depth e := by
  induction m generalizing depth e with
  | zero => exact absurd h id
  | succ m ih =>
    cases depth with
    | zero => exact absurd hmerged id
    | succ depth =>
      cases e with
      | value v => exact hmerged
      | array vs =>
        rw [merged, mergedElements_eq] at hmerged
        obtain ⟨hcount, hvs⟩ := hmerged
        rw [List.length_map] at hcount
        exact ⟨hcount, fun v hv => ih (h.2 v hv) (hvs _ (List.mem_map_of_mem hv))⟩
      | fields es =>
        have hperm := perm_merged order h.1
        have hkeys : (es.map (Prod.map id (merged order))).map Prod.fst = es.map Prod.fst := by
          rw [← mergedFields_eq, keys_mergedFields]
        rw [merged] at hmerged
        obtain ⟨hcount, hes⟩ := hmerged
        refine ⟨hK' _ es (hkeys ▸ hperm.map Prod.fst) hcount, fun e he => ?_⟩
        have hmem := hperm.mem_iff.mpr (List.mem_map_of_mem (f := Prod.map id (merged order)) he)
        exact ⟨(hes _ hmem).1, ih (h.2 e he).2 (hes _ hmem).2⟩

theorem Within.of_merged (htyped : e.Typed) (h : (merged order e).Within limit) : e.Within limit := by
  obtain ⟨m, htyped⟩ := htyped
  obtain ⟨depth, h⟩ := h
  refine ⟨depth, htyped.of_merged order (fun es es' hperm hes => ⟨?_, hperm.nodup_iff.mp hes.2⟩) h⟩
  rw [← List.length_map Prod.fst, ← hperm.length_eq, List.length_map]
  exact hes.1

end Merged

section RoundTrip

variable (order : KeyOrder DataValue)

/-- The element is read back from its bytes, whatever follows them, and takes as many as its size says. -/
def Kept (e : DataElement) : Prop := Reads (read order false) (write e) (e.merged order) ∧ e.size = (write e).length

/-- Its bytes are not read as another element. -/
def Unmistaken (e : DataElement) : Prop := ∀ e' rest, read order false (write e) = .ok (e', rest) → e' = e.merged order

theorem kept_iff (h : e.Typed) : Kept order e ↔ e.Within DEFAULT_MAX_ITEMS := by
  constructor
  · rintro ⟨hreads, -⟩
    exact Within.of_merged order h (Valid.within order ((codec order).sound (hreads [])).1)
  · exact fun hwithin => ⟨(parses order).reads e hwithin.raw, size_eq e⟩

theorem Kept.unmistaken (h : Kept order e) : Unmistaken order e := by
  intro e' rest hread
  have hkept := h.1 []
  rw [List.append_nil, hread] at hkept
  exact (Prod.mk.inj (Except.ok.inj hkept)).1

theorem writeU8_mod (n : Nat) : writeU8 (n % 256) = writeU8 n := by
  show [UInt8.ofNat (n % 256)] = [UInt8.ofNat n]
  congr 1
  apply UInt8.toNat.inj
  rw [UInt8.toNat_ofNat', UInt8.toNat_ofNat', Nat.mod_mod]

/-- Bytes that begin like those of a smaller element are read as that one. -/
theorem mistaken_of_prefix {e' : DataElement} {rest : IVec} (hraw : e'.Raw) (hwrite : write e = write e' ++ rest)
    (hne : e'.merged order ≠ e.merged order) : ¬ Unmistaken order e := by
  intro hunmistaken
  have hread := (parses order).reads e' hraw rest
  rw [← hwrite] at hread
  exact hne (hunmistaken _ _ hread)

/-- Of too many entries the count keeps its lowest byte: the first ones are read as the whole array. -/
theorem mistaken_array {vs : List DataElement} (hcount : 255 < vs.length)
    (h : ∀ v ∈ vs.take (vs.length % 256), v.Within DEFAULT_MAX_ITEMS) : ¬ Unmistaken order (array vs) := by
  have hfew : vs.length % 256 < 256 := Nat.mod_lt _ (by decide)
  have hlen : (vs.take (vs.length % 256)).length = vs.length % 256 := by
    rw [List.length_take]
    omega
  have hwrite : write (array vs) = write (array (vs.take (vs.length % 256))) ++ writeElements (vs.drop (vs.length % 256)) := by
    rw [write, write, hlen, writeU8_mod, List.append_assoc, List.append_assoc]
    congr 2
    rw [writeElements_eq, writeElements_eq, writeElements_eq, ← List.flatMap_append, List.take_append_drop]
  have hraw : Raw (array (vs.take (vs.length % 256))) := by
    refine ⟨(writeElements (vs.take (vs.length % 256))).length + 1, show _ < 2 ^ 8 by omega, fun v hv => ?_⟩
    obtain ⟨depth, hv'⟩ := (h v hv).raw
    rw [writeElements_eq]
    exact HoldsAt.deep_enough _ _ v hv' (Codec.length_le_flatMap write hv)
  refine mistaken_of_prefix order hraw hwrite fun hsame => ?_
  rw [merged, merged, mergedElements_eq, mergedElements_eq] at hsame
  have hlength := congrArg List.length (array.inj hsame)
  rw [List.length_map, List.length_map, hlen] at hlength
  omega

theorem mistaken_fields {es : List (DataValue × DataElement)} (hdistinct : (es.map Prod.fst).Nodup) (hcount : 255 < es.length)
    (h : ∀ e ∈ es.take (es.length % 256), e.1.Valid ∧ e.2.Within DEFAULT_MAX_ITEMS) : ¬ Unmistaken order (fields es) := by
  have hfew : es.length % 256 < 256 := Nat.mod_lt _ (by decide)
  have hlen : (es.take (es.length % 256)).length = es.length % 256 := by
    rw [List.length_take]
    omega
  have hwrite : write (fields es) = write (fields (es.take (es.length % 256))) ++ writeFields (es.drop (es.length % 256)) := by
    rw [write, write, hlen, writeU8_mod, List.append_assoc, List.append_assoc]
    congr 2
    rw [writeFields_eq, writeFields_eq, writeFields_eq, ← List.flatMap_append, List.take_append_drop]
  have hraw : Raw (fields (es.take (es.length % 256))) := by
    refine ⟨(writeFields (es.take (es.length % 256))).length + 1, ?_, fun e he => ⟨(h e he).1, ?_⟩⟩
    · show (es.take (es.length % 256)).length < 2 ^ 8
      rw [hlen]
      exact hfew
    · obtain ⟨depth, he'⟩ := (h e he).2.raw
      have hle := Codec.length_le_flatMap (writeEntry DataValue.write write) he
      rw [writeEntry, List.length_append] at hle
      rw [writeFields_eq]
      exact HoldsAt.deep_enough _ _ e.2 he' (by omega)
  refine mistaken_of_prefix order hraw hwrite fun hsame => ?_
  rw [merged, merged] at hsame
  have hlength := congrArg List.length (fields.inj hsame)
  have htaken : ((es.take (es.length % 256)).map Prod.fst).Nodup := hdistinct.sublist ((List.take_sublist _ _).map _)
  rw [(perm_merged order htaken).length_eq, (perm_merged order hdistinct).length_eq, List.length_map, List.length_map, hlen] at hlength
  omega

theorem mistaken_string {s t : String} (hlen : 255 < (stringBytes s).length)
    (ht : stringBytes t = (stringBytes s).take ((stringBytes s).length % 256)) : ¬ Unmistaken order (value (.string s)) := by
  have hfew : (stringBytes s).length % 256 < 256 := Nat.mod_lt _ (by decide)
  have htlen : (stringBytes t).length = (stringBytes s).length % 256 := by
    rw [ht, List.length_take]
    omega
  have hwrite : write (value (.string s)) =
      write (value (.string t)) ++ ((stringBytes s).take 255).drop ((stringBytes s).length % 256) := by
    have hsplit : (stringBytes t).take 255 = ((stringBytes s).take 255).take ((stringBytes s).length % 256) := by
      rw [List.take_of_length_le (by omega), List.take_take, ht, Nat.min_eq_left (by omega)]
    simp only [write, DataValue.write, writeString, htlen, writeU8_mod, hsplit, List.append_assoc, List.take_append_drop]
  have hraw : (value (.string t)).Raw := ⟨1, show (stringBytes t).length < 2 ^ 8 by omega⟩
  refine mistaken_of_prefix order hraw hwrite fun hsame => ?_
  have hst := congrArg (fun s => (stringBytes s).length) (DataValue.string.inj (value.inj hsame))
  simp only [htlen] at hst
  omega

/-- What the source promises of a codec for integrated data. -/
def RoundTrips (e : DataElement) : Prop := (e.Within DOCUMENTED_BLOB_SIZE → Kept order e) ∧ Unmistaken order e

/-- The elements whose blobs are small enough round trip, and no others of those that the comments allow. Larger arrays,
maps and texts are taken for others, whenever what is read of them is an element. -/
theorem small_elements_round_trip {e : DataElement} (h : e.Typed) :
    (e.Within DEFAULT_MAX_ITEMS → RoundTrips order e) ∧
      (e.Within DOCUMENTED_BLOB_SIZE → (RoundTrips order e ↔ e.Within DEFAULT_MAX_ITEMS)) ∧
      (∀ vs, e = array vs → 255 < vs.length → (∀ v ∈ vs.take (vs.length % 256), v.Within DEFAULT_MAX_ITEMS) →
        ¬ RoundTrips order e) ∧
      (∀ es, e = fields es → 255 < es.length →
        (∀ d ∈ es.take (es.length % 256), d.1.Valid ∧ d.2.Within DEFAULT_MAX_ITEMS) → ¬ RoundTrips order e) ∧
      ∀ s t, e = value (.string s) → 255 < (stringBytes s).length →
        stringBytes t = (stringBytes s).take ((stringBytes s).length % 256) → ¬ RoundTrips order e := by
  have hsmall : e.Within DEFAULT_MAX_ITEMS → RoundTrips order e := by
    intro hwithin
    have hkept := (kept_iff order h).mpr hwithin
    exact ⟨fun _ => hkept, hkept.unmistaken⟩
  refine ⟨hsmall, fun hdocumented => ⟨fun hround => (kept_iff order h).mp (hround.1 hdocumented), hsmall⟩, ?_, ?_, ?_⟩
  · rintro vs rfl hcount hvs hround
    exact mistaken_array order hcount hvs hround.2
  · rintro es rfl hcount hes hround
    obtain ⟨depth, htyped⟩ := h
    cases depth with
    | zero => exact htyped
    | succ depth => exact mistaken_fields order htyped.1 hcount hes hround.2
  · rintro s t rfl hlen ht hround
    exact mistaken_string order hlen ht hround.2

end RoundTrip

def flags : DataElement := array (List.replicate 256 (value (.bool true)))

theorem flags_typed : flags.Typed :=
  ⟨2, trivial, fun v hv => by
    rw [List.eq_of_mem_replicate hv]
    trivial⟩

/-- Nothing is left to read of them. -/
theorem flags_first (v : DataElement) (h : v ∈ (List.replicate 256 (value (.bool true))).take
    ((List.replicate 256 (value (.bool true))).length % 256)) : v.Within DEFAULT_MAX_ITEMS := by
  rw [List.length_replicate, Nat.mod_self] at h
  exact absurd h List.not_mem_nil

/-- They are read as an array of none. -/
theorem flags_mistaken : ¬ ∀ (order : KeyOrder DataValue) (e : DataElement), e.Typed → RoundTrips order e := by
  intro h
  exact mistaken_array anyOrder (by rw [List.length_replicate]; decide) flags_first (h anyOrder flags flags_typed).2

def largeBlob : DataElement := value (.blob (List.replicate 1025 0))

/-- The comments allow the blob, but its reader does not. -/
theorem flags_not_round_trip : ¬ RoundTrips anyOrder flags ∧ ¬ RoundTrips anyOrder largeBlob := by
  constructor
  · exact (small_elements_round_trip anyOrder flags_typed).2.2.1 _ rfl (by rw [List.length_replicate]; decide) flags_first
  · have hdocumented : largeBlob.Within DOCUMENTED_BLOB_SIZE := ⟨1, trivial, by
      rw [DataValue.Within, List.length_replicate]
      decide⟩
    have htyped : largeBlob.Typed := ⟨1, trivial⟩
    rw [(small_elements_round_trip anyOrder htyped).2.1 hdocumented]
    rintro ⟨depth, hwithin⟩
    cases depth with
    | zero => exact hwithin
    | succ depth =>
      have hlen : (List.replicate 1025 (0 : UInt8)).length ≤ DEFAULT_MAX_ITEMS := hwithin.2
      rw [List.length_replicate] at hlen
      exact absurd hlen (by decide)

end DataElement

end Xelis.Wire
