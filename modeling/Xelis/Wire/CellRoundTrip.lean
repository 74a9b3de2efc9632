import Xelis.Wire.CellContext

/-! The round trip of value cells: what is written is read back, given the version that its proofs need. -/

namespace Xelis.Wire

open Lib (Codec Parses)
open Lib.Codec (readEntries writeEntry FreshKeys KeyOrder)
open Lib.Parses (mergeEntries)
open Lib.Reader (Reads readMany)

variable {S R : Type} [CurveScalar S] [RangeProof R]
variable {cell : ValueCell S R}

namespace ValueCell

section Definitions

variable (context : Option TxVersion) (order : KeyOrder DataValue) (same : ValueCell S R → ValueCell S R → Bool)

def readIn : Reader (ValueCell S R) := fun bytes =>
  readAt (Primitive.readIn context order) same false bytes.length bytes

mutual

def merged : ValueCell S R → ValueCell S R
  | default value => default (value.merged order)
  | bytes b => bytes b
  | array values => array (mergedCells values)
  | map es => map (mergeEntries same (mergedPairs es))

def mergedCells : List (ValueCell S R) → List (ValueCell S R)
  | [] => []
  | v :: vs => merged v :: mergedCells vs

def mergedPairs : List (ValueCell S R × ValueCell S R) → List (ValueCell S R × ValueCell S R)
  | [] => []
  | (k, v) :: es => (merged k, merged v) :: mergedPairs es

end

/-- A cell within the limits of the format; the keys of its maps differ. -/
def Fits : ValueCell S R → Prop := Holds (Primitive.Holds (OpaqueWrapper.Fits order)) (FreshKeys same)

/-- The validity proofs of the cell are of the version in the context. -/
def InContext : ValueCell S R → Prop := Holds (Primitive.Holds (OpaqueWrapper.InContext context)) (fun _ => True)

/-- What can be spelled in bytes for the context: a map can name a key twice. -/
def RawIn : ValueCell S R → Prop := Holds (Primitive.Holds (OpaqueWrapper.RawIn context)) (fun _ => True)

/-- No map names a key twice, neither one of cells nor one of an address. -/
def Distinct : ValueCell S R → Prop :=
  Holds (Primitive.Holds OpaqueWrapper.Distinct) (fun es => FreshKeys same (mergedPairs order same es))

end Definitions

section Holds

variable {P P' : Primitive S R → Prop} {K K' : List (ValueCell S R × ValueCell S R) → Prop}

section

omit [CurveScalar S] [RangeProof R]

theorem HoldsAt.mono (hP : ∀ p, P p → P' p) (hK : ∀ es, K es → K' es) {depth : Nat}
    (h : HoldsAt P K depth cell) : HoldsAt P' K' depth cell := by
  induction depth generalizing cell with
  | zero => exact absurd h id
  | succ depth ih =>
    cases cell with
    | default value => exact hP value h
    | bytes b => exact h
    | array vs => exact ⟨h.1, fun v hv => ih (h.2 v hv)⟩
    | map es => exact ⟨⟨h.1.1, hK es h.1.2⟩, fun e he => ⟨ih (h.2 e he).1, ih (h.2 e he).2⟩⟩

theorem HoldsAt.and {depth : Nat} (h : HoldsAt P K depth cell) (h' : HoldsAt P' K' depth cell) :
    HoldsAt (fun p => P p ∧ P' p) (fun es => K es ∧ K' es) depth cell := by
  induction depth generalizing cell with
  | zero => exact absurd h id
  | succ depth ih =>
    cases cell with
    | default value => exact ⟨h, h'⟩
    | bytes b => exact h
    | array vs => exact ⟨h.1, fun v hv => ih (h.2 v hv) (h'.2 v hv)⟩
    | map es =>
      exact ⟨⟨h.1.1, h.1.2, h'.1.2⟩, fun e he => ⟨ih (h.2 e he).1 (h'.2 e he).1, ih (h.2 e he).2 (h'.2 e he).2⟩⟩

theorem Holds.mono (hP : ∀ p, P p → P' p) (hK : ∀ es, K es → K' es) (h : Holds P K cell) : Holds P' K' cell := by
  obtain ⟨depth, h⟩ := h
  exact ⟨depth, h.mono hP hK⟩

end

theorem Holds.and (h : Holds P K cell) (h' : Holds P' K' cell) :
    Holds (fun p => P p ∧ P' p) (fun es => K es ∧ K' es) cell := by
  obtain ⟨m, h⟩ := h
  obtain ⟨n, h'⟩ := h'
  exact ⟨_, (h.deep_enough m cell.write.length cell (Nat.le_refl _)).and (h'.deep_enough n cell.write.length cell (Nat.le_refl _))⟩

end Holds

section Merged

variable (order : KeyOrder DataValue) (same : ValueCell S R → ValueCell S R → Bool)

omit [CurveScalar S] [RangeProof R] in
theorem mergedCells_eq (vs : List (ValueCell S R)) : mergedCells order same vs = vs.map (merged order same) := by
  induction vs with
  | nil => rfl
  | cons v vs ih => rw [mergedCells, ih, List.map_cons]

omit [CurveScalar S] [RangeProof R] in
theorem mergedPairs_eq (es : List (ValueCell S R × ValueCell S R)) :
    mergedPairs order same es = es.map (Prod.map (merged order same) (merged order same)) := by
  induction es with
  | nil => rfl
  | cons e es ih =>
    rw [mergedPairs, ih, List.map_cons]
    rfl

/-- The bytes that are accepted spell raw cells, and what is read is what merging makes of them. -/
theorem parsesAt (context : Option TxVersion) (depth : Nat) :
    Parses (readAt (Primitive.readIn context order) same false depth) write (merged order same)
      (HoldsAt (Primitive.Holds (OpaqueWrapper.RawIn context)) (fun _ => True) depth) := by
  induction depth with
  | zero => exact Parses.throw fun _ h => h
  | succ depth ih =>
    refine Parses.tagged (fun v => by cases v <;> exact writeU8_append_ne_nil _ _) fun t => ?_
    match t with
    | 0 =>
      refine (Primitive.parses context order).map (c := default) (fun _ => tail_writeU8 _ _) (fun _ => rfl) fun v => ?_
      cases v <;> simp [write, HoldsAt]
    | 1 =>
      refine bytes_codec.parses.map (c := bytes) (fun _ => tail_writeU8 _ _) (fun _ => rfl) fun v => ?_
      cases v <;> simp [write, HoldsAt]
    | 2 =>
      refine (Parses.counted u32_codec fun n _ => ih.many n).map (c := array) (fun vs => ?_) (fun vs => ?_) fun v => ?_
      · rw [write, tail_writeU8, writeCells_eq]
      · rw [merged, mergedCells_eq]
      · cases v <;> simp [write, HoldsAt]
    | 3 =>
      refine (Parses.counted u32_codec fun n _ => Parses.entries ih ih n).map (c := map) (fun es => ?_) (fun es => ?_) fun v => ?_
      · rw [write, tail_writeU8, writePairs_eq]
      · rw [merged, mergedPairs_eq]
      · cases v <;> simp [write, HoldsAt]
    | t + 4 => exact Parses.throw fun v => by cases v <;> simp [write]

theorem parses (context : Option TxVersion) : Parses (readIn context order same) write (merged order same) (RawIn context) :=
  Parses.unbounded (parsesAt order same context) HoldsAt.deep_enough

mutual

theorem length_write_merged : (cell : ValueCell S R) → (write (merged order same cell)).length ≤ (write cell).length
  | default value => by
    have hle := value.length_write_merged order
    simp only [merged, write, List.length_append]
    omega
  | bytes b => Nat.le_refl _
  | array vs => by
    have hle := length_writeCells_merged vs
    simp only [merged, write, List.length_append, length_writeU32]
    omega
  | map es => by
    have hle := length_writePairs_merged es
    have hmerge := Parses.length_write_mergeEntries same write write (mergedPairs order same es)
    rw [← writePairs_eq, ← writePairs_eq] at hmerge
    simp only [merged, write, List.length_append, length_writeU32]
    omega

theorem length_writeCells_merged : (vs : List (ValueCell S R)) →
    (writeCells (mergedCells order same vs)).length ≤ (writeCells vs).length
  | [] => Nat.le_refl _
  | v :: vs => by
    have hv := length_write_merged v
    have hvs := length_writeCells_merged vs
    simp only [mergedCells, writeCells, List.length_append]
    omega

theorem length_writePairs_merged : (es : List (ValueCell S R × ValueCell S R)) →
    (writePairs (mergedPairs order same es)).length ≤ (writePairs es).length
  | [] => Nat.le_refl _
  | (k, v) :: es => by
    have hk := length_write_merged k
    have hv := length_write_merged v
    have hes := length_writePairs_merged es
    simp only [mergedPairs, writePairs, List.length_append]
    omega

end

/-- No byte is lost when no key is named twice. -/
theorem Distinct.length_write_merged (h : cell.Distinct order same) :
    (write (merged order same cell)).length = (write cell).length := by
  obtain ⟨depth, h⟩ := h
  induction depth generalizing cell with
  | zero => exact absurd h id
  | succ depth ih =>
    cases cell with
    | default value => simp only [merged, write, List.length_append, Primitive.Distinct.length_write_merged order (p := value) h]
    | bytes b => rfl
    | array vs =>
      have hsame : (vs.map (merged order same)).flatMap write = vs.flatMap (fun v => write (merged order same v)) :=
        List.flatMap_map ..
      rw [merged, write, write, mergedCells_eq, writeCells_eq, writeCells_eq, hsame]
      simp only [List.length_append, length_writeU8, length_writeU32, List.length_flatMap]
      rw [List.map_congr_left fun v hv => ih (h.2 v hv)]
    | map es =>
      obtain ⟨⟨-, hfresh⟩, hentries⟩ := h
      have hsame : (es.map (Prod.map (merged order same) (merged order same))).flatMap (writeEntry write write) =
          es.flatMap (fun e => write (merged order same e.1) ++ write (merged order same e.2)) := List.flatMap_map ..
      rw [merged, write, write, Parses.mergeEntries_of_fresh hfresh, writePairs_eq, writePairs_eq, mergedPairs_eq, hsame]
      simp only [List.length_append, length_writeU8, length_writeU32, List.length_flatMap, writeEntry]
      rw [List.map_congr_left fun e he => congrArg₂ (· + ·) (ih (hentries e he).1) (ih (hentries e he).2)]

omit [CurveScalar S] in
theorem Fits.merged_eq (h : cell.Fits order same) : merged order same cell = cell := by
  obtain ⟨depth, h⟩ := h
  induction depth generalizing cell with
  | zero => exact absurd h id
  | succ depth ih =>
    cases cell with
    | default value =>
      exact congrArg default (Primitive.Holds.merged_eq order (fun o ho => OpaqueWrapper.Fits.merged_eq order ho) h)
    | bytes b => rfl
    | array vs => rw [merged, mergedCells_eq, List.map_congr_left fun v hv => ih (h.2 v hv), List.map_id']
    | map es =>
      obtain ⟨⟨-, hfresh⟩, hentries⟩ := h
      have hself : mergedPairs order same es = es := by
        rw [mergedPairs_eq]
        refine (List.map_congr_left fun e he => ?_).trans (List.map_id' es)
        rw [Prod.map, ih (hentries e he).1, ih (hentries e he).2]
      rw [merged, hself, Parses.mergeEntries_of_fresh hfresh]

variable {context : Option TxVersion}

theorem Fits.rawIn (h : cell.Fits order same) (hcontext : cell.InContext context) : cell.RawIn context := by
  refine (Holds.and h hcontext).mono (fun p hp => ?_) fun _ _ => trivial
  exact (hp.1.and hp.2).mono fun o ho => ho.1.rawIn context order ho.2

omit [CurveScalar S] [RangeProof R] in
theorem Holds.merged {P P' : Primitive S R → Prop} {K : List (ValueCell S R × ValueCell S R) → Prop}
    (hP : ∀ p, P p → P' (p.merged order)) (h : Holds P K cell) :
    Holds P' (FreshKeys same) (merged order same cell) := by
  obtain ⟨depth, h⟩ := h
  refine ⟨depth, ?_⟩
  induction depth generalizing cell with
  | zero => exact absurd h id
  | succ depth ih =>
    cases cell with
    | default value => exact hP value h
    | bytes b => exact h
    | array vs =>
      rw [ValueCell.merged, mergedCells_eq]
      refine ⟨by rw [List.length_map]; exact h.1, fun v hv => ?_⟩
      obtain ⟨w, hw, rfl⟩ := List.mem_map.mp hv
      exact ih (h.2 w hw)
    | map es =>
      obtain ⟨⟨hcount, -⟩, hentries⟩ := h
      rw [ValueCell.merged, mergedPairs_eq]
      refine ⟨⟨?_, Parses.freshKeys_mergeEntries _⟩, fun e he => ?_⟩
      · refine Nat.lt_of_le_of_lt (Parses.length_mergeEntries same _) ?_
        rwa [List.length_map]
      · obtain ⟨⟨d, hd, hkey⟩, d', hd', hvalue⟩ := Parses.mem_mergeEntries he
        obtain ⟨w, hw, rfl⟩ := List.mem_map.mp hd
        obtain ⟨w', hw', rfl⟩ := List.mem_map.mp hd'
        rw [hkey, hvalue]
        exact ⟨ih (hentries w hw).1, ih (hentries w' hw').2⟩

omit [CurveScalar S] in
theorem RawIn.inContext (h : cell.RawIn context) : (merged order same cell).InContext context :=
  (Holds.merged order same (fun _ hp => Primitive.Holds.merged order (fun _ ho => ho.inContext context order) hp) h).mono
    (fun _ hp => hp) fun _ _ => trivial

omit [CurveScalar S] in
/-- What is read is within the limits of the format. -/
theorem RawIn.fits (h : cell.RawIn context) : (merged order same cell).Fits order same :=
  Holds.merged order same (fun _ hp => Primitive.Holds.merged order (fun _ ho => ho.fits context order) hp) h

end Merged

section RoundTrip

variable (context : Option TxVersion) (order : KeyOrder DataValue) (same : ValueCell S R → ValueCell S R → Bool)

/-- The cell is read back, whatever follows it, and takes as many bytes as its size says. -/
def RoundTrips (cell : ValueCell S R) : Prop := Reads (readIn context order same) (write cell) cell ∧ cell.size = (write cell).length

/-- A cell is read back if and only if its validity proofs are of the version in the context. What is read of other
bytes is written in no more bytes, and in as many when no map names a key twice. -/
theorem cells_round_trip {cell : ValueCell S R} (h : cell.Fits order same) :
    (RoundTrips context order same cell ↔ cell.InContext context) ∧
      ∀ bytes cell' rest, readIn context order same bytes = .ok (cell', rest) →
        ∃ spelled, bytes = write spelled ++ rest ∧ cell' = merged order same spelled ∧
          (write cell').length ≤ (write spelled).length ∧
          (spelled.Distinct order same → (write cell').length = (write spelled).length) := by
  refine ⟨⟨fun hround => ?_, fun hcontext => ⟨?_, size_eq cell⟩⟩, fun bytes cell' rest hread => ?_⟩
  · obtain ⟨w, hw, hcell, -⟩ := (parses order same context).parsed (hround.1 [])
    rw [hcell]
    exact hw.inContext order same
  · have hreads := (parses order same context).reads cell (h.rawIn order same hcontext)
    rwa [h.merged_eq order same] at hreads
  · obtain ⟨w, -, rfl, hbytes⟩ := (parses order same context).parsed hread
    exact ⟨w, hbytes, rfl, length_write_merged order same w, fun hdistinct => hdistinct.length_write_merged order same⟩

end RoundTrip

def sampleProof : CiphertextValidityProof (Fin GROUP_ORDER) :=
  { y0 := 0, y1 := 0, y2 := some 0, zR := ⟨0, groupOrder_pos⟩, zX := ⟨0, groupOrder_pos⟩ }

def storedProof : ValueCell (Fin GROUP_ORDER) IVec := default (.opaqueWrapper (.ciphertextValidityProof sampleProof))

theorem storedProof_fits (order : KeyOrder DataValue) (same : ValueCell (Fin GROUP_ORDER) IVec → ValueCell (Fin GROUP_ORDER) IVec → Bool) :
    storedProof.Fits order same := ⟨1, 1, trivial⟩

/-- It is not read back from storage. -/
theorem storedProof_lost : ¬ ∀ (context : Option TxVersion) (order : KeyOrder DataValue)
    (same : ValueCell (Fin GROUP_ORDER) IVec → ValueCell (Fin GROUP_ORDER) IVec → Bool) (cell : ValueCell (Fin GROUP_ORDER) IVec),
    cell.Fits order same → RoundTrips context order same cell := by
  intro h
  have hreads := (h none anyOrder (fun _ _ => false) storedProof (storedProof_fits _ _)).1 []
  obtain ⟨w, hw, hcell, -⟩ := (parses anyOrder (fun _ _ => false) none).parsed hreads
  have hcontext := hw.inContext anyOrder (fun _ _ => false)
  rw [← hcell] at hcontext
  obtain ⟨_ | depth, hdepth⟩ := hcontext
  · exact hdepth
  · obtain ⟨_ | inner, hinner⟩ := hdepth
    · exact hinner
    · obtain ⟨version, hnone, -⟩ := hinner
      cases hnone

def storedMap : ValueCell (Fin GROUP_ORDER) IVec := map [(default (.u8 1), array [default (.u8 2), bytes [3]])]

theorem storedMap_holds (O : OpaqueWrapper (Fin GROUP_ORDER) IVec → Prop)
    {K : List (ValueCell (Fin GROUP_ORDER) IVec × ValueCell (Fin GROUP_ORDER) IVec) → Prop}
    (hK : K [(default (.u8 1), array [default (.u8 2), bytes [3]])]) : Holds (Primitive.Holds O) K storedMap := by
  refine ⟨3, ⟨show 1 < 2 ^ 32 by decide, hK⟩, fun e he => ?_⟩
  rw [List.mem_singleton.mp he]
  refine ⟨⟨1, show 1 < 2 ^ 8 by decide⟩, show 2 < 2 ^ 32 by decide, fun v hv => ?_⟩
  rcases List.mem_cons.mp hv with rfl | hv
  · exact ⟨1, show 2 < 2 ^ 8 by decide⟩
  · rw [List.mem_singleton.mp hv]
    exact show 1 < 2 ^ 32 by decide

theorem storedMap_round_trip : RoundTrips none anyOrder (fun _ _ => false) storedMap :=
  (cells_round_trip none anyOrder (fun _ _ => false) (storedMap_holds _ (List.pairwise_singleton _ _))).1.mpr
    (storedMap_holds _ trivial)

end ValueCell

end Xelis.Wire
