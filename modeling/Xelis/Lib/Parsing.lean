import Xelis.Lib.Codec

/-! Readers that take more than what is written: the bytes are those of a raw value, and the value that is read is
what is made of the raw one. -/

namespace Xelis.Lib

open Codec (insertEntry readEntries writeEntry tag)
open Reader (Reads bind_ok_iff readBe readBe_reads readBe_ok readMany)

variable {ε α β κ ν : Type}

/-- The accepted bytes are those of the raw values, each read as its merged form. -/
structure Parses (read : Reader ε α) (write : α → List UInt8) (merge : α → α) (Raw : α → Prop) : Prop where
  reads : ∀ w, Raw w → Reads read (write w) (merge w)
  parsed : ∀ {bytes x rest}, read bytes = .ok (x, rest) → ∃ w, Raw w ∧ x = merge w ∧ bytes = write w ++ rest

variable {read : Reader ε α}

theorem Codec.parses {write : α → List UInt8} {V : α → Prop} (h : Codec (fun _ => read) write V) :
    Parses read write id V where
  reads w hw := h.reads false w hw
  parsed hread := ⟨_, (@Codec.sound _ _ _ _ _ h false _ _ _ hread).1, rfl, h.faithful hread⟩

variable {e short repeated : ε} {bytes rest : List UInt8}

namespace Parses

section Sequence

variable {read : Reader ε α} {write : α → List UInt8} {merge : α → α} {Raw : α → Prop}

theorem congr {Raw' : α → Prop} (h : Parses read write merge Raw) (hRaw : ∀ w, Raw w ↔ Raw' w) : Parses read write merge Raw' where
  reads w hw := h.reads w ((hRaw w).mpr hw)
  parsed hread := by
    obtain ⟨w, hw, hx, hbytes⟩ := h.parsed hread
    exact ⟨w, (hRaw w).mp hw, hx, hbytes⟩

theorem pure {x : α} (hwrite : write x = []) (hmerge : merge x = x) (hRaw : ∀ w, Raw w ↔ w = x) :
    Parses (Pure.pure x : Reader ε α) write merge Raw where
  reads w hw := by
    rw [(hRaw w).mp hw, hwrite, hmerge]
    exact Reads.pure x
  parsed hread := by
    cases hread
    exact ⟨x, (hRaw x).mpr rfl, hmerge.symm, by rw [hwrite, List.nil_append]⟩

theorem throw (hRaw : ∀ w, ¬ Raw w) : Parses (MonadExcept.throw e : Reader ε α) write merge Raw where
  reads w hw := absurd hw (hRaw w)
  parsed hread := nomatch hread

theorem bind {f : α → Reader ε β} {p : β → α} {writeRest : β → List UInt8} {merge' : β → β} {Raw' : β → Prop}
    (h : Parses read write merge Raw) (hpart : ∀ b, Raw' b → Raw (p b))
    (hrest : ∀ w, Raw w → Parses (f (merge w)) writeRest merge' (fun b => p b = w ∧ Raw' b)) :
    Parses (read >>= f) (fun b => write (p b) ++ writeRest b) merge' Raw' where
  reads b hb := (h.reads (p b) (hpart b hb)).bind ((hrest (p b) (hpart b hb)).reads b ⟨rfl, hb⟩)
  parsed hread := by
    obtain ⟨a, mid, ha, hb⟩ := bind_ok_iff.mp hread
    obtain ⟨w, hw, rfl, rfl⟩ := h.parsed ha
    obtain ⟨b, ⟨rfl, hRaw⟩, hx, rfl⟩ := (hrest w hw).parsed hb
    exact ⟨b, hRaw, hx, (List.append_assoc _ _ _).symm⟩

theorem after (g : α → α) (h : Parses read write merge Raw) : Parses (do return g (← read)) write (fun w => g (merge w)) Raw where
  reads w hw := (h.reads w hw).map g
  parsed hread := by
    obtain ⟨a, mid, ha, hb⟩ := bind_ok_iff.mp hread
    cases hb
    obtain ⟨w, hw, rfl, hbytes⟩ := h.parsed ha
    exact ⟨w, hw, rfl, hbytes⟩

/-- A value that is another one under a constructor. -/
theorem map {c : α → β} {write' : β → List UInt8} {merge' : β → β} {Raw' : β → Prop} (h : Parses read write merge Raw)
    (hwrite : ∀ a, write' (c a) = write a) (hmerge : ∀ a, merge' (c a) = c (merge a)) (hRaw : ∀ b, Raw' b ↔ ∃ a, Raw a ∧ b = c a) :
    Parses (do return c (← read)) write' merge' Raw' where
  reads b hb := by
    obtain ⟨a, ha, rfl⟩ := (hRaw b).mp hb
    rw [hwrite, hmerge]
    exact (h.reads a ha).map c
  parsed hread := by
    obtain ⟨a, mid, ha, hb⟩ := bind_ok_iff.mp hread
    cases hb
    obtain ⟨w, hw, rfl, rfl⟩ := h.parsed ha
    exact ⟨c w, (hRaw _).mpr ⟨w, hw, rfl⟩, (hmerge w).symm, by rw [hwrite]⟩

theorem guard {c : Prop} [Decidable c] (h : ¬ c → Parses read write merge Raw) (hc : c → ∀ w, ¬ Raw w) :
    Parses (if c then MonadExcept.throw e else read) write merge Raw := by
  by_cases hcase : c
  · rw [if_pos hcase]
    exact throw (hc hcase)
  · rw [if_neg hcase]
    exact h hcase

/-- A first byte says how the rest is read. -/
theorem tagged {f : Nat → Reader ε β} {write : β → List UInt8} {merge : β → β} {Raw : β → Prop}
    (hne : ∀ b, write b ≠ [])
    (h : ∀ t, Parses (f t) (fun b => (write b).tail) merge (fun b => tag (write b) = some t ∧ Raw b)) :
    Parses (readBe short 1 >>= f) write merge Raw where
  reads b hb := by
    cases hwrite : write b with
    | nil => exact absurd hwrite (hne b)
    | cons x bytes =>
      have htag : tag (write b) = some x.toNat := by rw [hwrite, Codec.tag_cons]
      rw [← hwrite, Codec.eq_of_tag htag]
      exact (readBe_reads short x.toNat_lt).bind ((h x.toNat).reads b ⟨htag, hb⟩)
  parsed hread := by
    obtain ⟨t, mid, ht, hb⟩ := bind_ok_iff.mp hread
    obtain ⟨rfl, -⟩ := readBe_ok ht
    obtain ⟨w, ⟨htag, hRaw⟩, hx, rfl⟩ := (h t).parsed hb
    exact ⟨w, hRaw, hx, by rw [Codec.eq_of_tag htag, List.append_assoc]; rfl⟩

end Sequence

section Loops

variable {read : Reader ε α} {write : α → List UInt8} {merge : α → α} {Raw : α → Prop}

theorem many (h : Parses read write merge Raw) (n : Nat) :
    Parses (readMany read n) (fun ws => ws.flatMap write) (fun ws => ws.map merge) (fun ws => ws.length = n ∧ ∀ w ∈ ws, Raw w) where
  reads ws hws := by
    obtain ⟨rfl, hRaw⟩ := hws
    induction ws with
    | nil => exact Reads.pure []
    | cons w ws ih =>
      rw [List.flatMap_cons]
      refine (h.reads w (hRaw w List.mem_cons_self)).bind ?_
      exact (ih fun y hy => hRaw y (List.mem_cons_of_mem w hy)).map (merge w :: ·)
  parsed {bytes xs rest} hread := by
    induction n generalizing bytes xs with
    | zero =>
      cases hread
      exact ⟨[], ⟨rfl, fun _ hw => nomatch hw⟩, rfl, rfl⟩
    | succ n ih =>
      obtain ⟨x, mid, hx, hread⟩ := bind_ok_iff.mp hread
      obtain ⟨ys, mid', hys, hread⟩ := bind_ok_iff.mp hread
      cases hread
      obtain ⟨w, hw, rfl, rfl⟩ := h.parsed hx
      obtain ⟨ws, ⟨rfl, hws⟩, rfl, rfl⟩ := ih hys
      refine ⟨w :: ws, ⟨rfl, fun v hv => ?_⟩, rfl, by rw [List.flatMap_cons, List.append_assoc]⟩
      rcases List.mem_cons.mp hv with rfl | hv
      · exact hw
      · exact hws v hv

/-- The number of elements, then the elements. -/
theorem counted {readCount : Reader ε Nat} {writeCount : Nat → List UInt8} {bound : Nat} {f : Nat → Reader ε (List α)}
    {write : List α → List UInt8} {merge : List α → List α} {Raw : List α → Prop}
    (hcount : Codec (fun _ => readCount) writeCount (fun n => n < bound))
    (h : ∀ n, n < bound → Parses (f n) write merge (fun ws => ws.length = n ∧ Raw ws)) :
    Parses (readCount >>= f) (fun ws => writeCount ws.length ++ write ws) merge (fun ws => ws.length < bound ∧ Raw ws) := by
  refine hcount.parses.bind (p := List.length) (fun _ hws => hws.1) fun n hn => ?_
  exact (h n hn).congr fun ws => ⟨fun hws => ⟨hws.1, hws.1 ▸ hn, hws.2⟩, fun hws => ⟨hws.1, hws.2.2⟩⟩

variable {same : α → α → Bool}

open Codec (readFresh Fresh) in
theorem readFresh_reads (h : Parses read write merge Raw) {ws : List α}
    (hws : ∀ w ∈ ws, Raw w) (before : List α) (hfresh : Fresh same (before ++ ws.map merge)) :
    Reads (readFresh repeated same read ws.length before) (ws.flatMap write) (before ++ ws.map merge) := by
  induction ws generalizing before with
  | nil =>
    rw [List.map_nil, List.append_nil]
    exact Reads.pure before
  | cons w ws ih =>
    rw [List.map_cons, List.append_cons] at hfresh ⊢
    have hnew : before.any (fun y => same y (merge w)) = false :=
      ((Fresh.concat_iff before (merge w)).mp (List.pairwise_append.mp hfresh).1).2
    rw [List.flatMap_cons]
    refine (h.reads w (hws w List.mem_cons_self)).bind ?_
    rw [if_neg (by rw [hnew]; exact Bool.false_ne_true)]
    exact ih (fun y hy => hws y (List.mem_cons_of_mem w hy)) (before ++ [merge w]) hfresh

open Codec (readFresh Fresh) in
theorem readFresh_parsed (h : Parses read write merge Raw) {n : Nat} {before ys : List α} (hbefore : Fresh same before)
    (hread : readFresh repeated same read n before bytes = .ok (ys, rest)) :
    ∃ ws : List α, ws.length = n ∧ Fresh same ys ∧ (∀ w ∈ ws, Raw w) ∧ ys = before ++ ws.map merge ∧
      bytes = ws.flatMap write ++ rest := by
  induction n generalizing bytes before with
  | zero =>
    cases hread
    exact ⟨[], rfl, hbefore, (fun _ hw => nomatch hw), (List.append_nil _).symm, rfl⟩
  | succ n ih =>
    obtain ⟨x, mid, hx, hmore⟩ := bind_ok_iff.mp hread
    split at hmore
    · cases hmore
    · rename_i hnew
      obtain ⟨ws, rfl, hfresh, hws, rfl, rfl⟩ := ih ((Fresh.concat_iff before x).mpr ⟨hbefore, Bool.eq_false_iff.mpr hnew⟩) hmore
      obtain ⟨w, hw, rfl, rfl⟩ := h.parsed hx
      refine ⟨w :: ws, rfl, hfresh, fun v hv => ?_, by rw [List.map_cons, ← List.append_cons],
        by rw [List.flatMap_cons, List.append_assoc]⟩
      rcases List.mem_cons.mp hv with rfl | hv
      · exact hw
      · exact hws v hv

/-- A given number of elements, all different. -/
theorem fresh (h : Parses read write merge Raw) (n : Nat) :
    Parses (Codec.readFresh repeated same read n []) (fun ws => ws.flatMap write) (fun ws => ws.map merge)
      (fun ws => ws.length = n ∧ Codec.Fresh same (ws.map merge) ∧ ∀ w ∈ ws, Raw w) where
  reads ws hws := by
    obtain ⟨rfl, hfresh, hws⟩ := hws
    exact readFresh_reads h hws [] hfresh
  parsed hread := by
    obtain ⟨ws, hlen, hfresh, hws, rfl, hbytes⟩ := readFresh_parsed h List.Pairwise.nil hread
    exact ⟨ws, ⟨hlen, hfresh, hws⟩, rfl, hbytes⟩

end Loops

section Entries

/-- What a map holds after the entries were put in one by one. -/
def mergeEntries (same : κ → κ → Bool) (es : List (κ × ν)) : List (κ × ν) :=
  es.foldl (fun m e => insertEntry same m e.1 e.2) []

variable {same : κ → κ → Bool} {repeated : ε} {readKey : Reader ε κ} {readValue : Reader ε ν}
  {writeKey : κ → List UInt8} {writeValue : ν → List UInt8} {mergeKey : κ → κ} {mergeValue : ν → ν}
  {RawKey : κ → Prop} {RawValue : ν → Prop}
variable {es before m : List (κ × ν)}

theorem readEntries_reads (hK : Parses readKey writeKey mergeKey RawKey) (hV : Parses readValue writeValue mergeValue RawValue)
    (hes : ∀ e ∈ es, RawKey e.1 ∧ RawValue e.2) (before : List (κ × ν)) :
    Reads (readEntries false repeated same readKey readValue es.length before) (es.flatMap (writeEntry writeKey writeValue))
      ((es.map (Prod.map mergeKey mergeValue)).foldl (fun m e => insertEntry same m e.1 e.2) before) := by
  induction es generalizing before with
  | nil => exact Reads.pure before
  | cons e es ih =>
    obtain ⟨hkey, hvalue⟩ := hes e List.mem_cons_self
    rw [List.flatMap_cons, writeEntry, List.append_assoc]
    exact (hK.reads e.1 hkey).bind ((hV.reads e.2 hvalue).bind (ih (fun d hd => hes d (List.mem_cons_of_mem e hd)) _))

theorem readEntries_parsed (hK : Parses readKey writeKey mergeKey RawKey) (hV : Parses readValue writeValue mergeValue RawValue)
    {n : Nat} (hread : readEntries false repeated same readKey readValue n before bytes = .ok (m, rest)) :
    ∃ es : List (κ × ν), (es.length = n ∧ ∀ e ∈ es, RawKey e.1 ∧ RawValue e.2) ∧
      m = (es.map (Prod.map mergeKey mergeValue)).foldl (fun m e => insertEntry same m e.1 e.2) before ∧
      bytes = es.flatMap (writeEntry writeKey writeValue) ++ rest := by
  induction n generalizing bytes before with
  | zero =>
    cases hread
    exact ⟨[], ⟨rfl, fun _ he => nomatch he⟩, rfl, rfl⟩
  | succ n ih =>
    obtain ⟨k, mid, hk, hvalue⟩ := bind_ok_iff.mp hread
    obtain ⟨v, mid', hv, hentries⟩ := bind_ok_iff.mp hvalue
    rw [Bool.false_and, if_neg Bool.false_ne_true] at hentries
    obtain ⟨es, ⟨rfl, hes⟩, rfl, rfl⟩ := ih hentries
    obtain ⟨wk, hwk, rfl, rfl⟩ := hK.parsed hk
    obtain ⟨wv, hwv, rfl, rfl⟩ := hV.parsed hv
    refine ⟨(wk, wv) :: es, ⟨rfl, fun e he => ?_⟩, rfl, ?_⟩
    · rcases List.mem_cons.mp he with rfl | he
      · exact ⟨hwk, hwv⟩
      · exact hes e he
    · rw [List.flatMap_cons, writeEntry, List.append_assoc, List.append_assoc]

theorem entries (hK : Parses readKey writeKey mergeKey RawKey) (hV : Parses readValue writeValue mergeValue RawValue) (n : Nat) :
    Parses (readEntries false repeated same readKey readValue n []) (fun es => es.flatMap (writeEntry writeKey writeValue))
      (fun es => mergeEntries same (es.map (Prod.map mergeKey mergeValue)))
      (fun es => es.length = n ∧ ∀ e ∈ es, RawKey e.1 ∧ RawValue e.2) where
  reads es hes := by
    obtain ⟨rfl, hes⟩ := hes
    exact readEntries_reads hK hV hes []
  parsed hread := readEntries_parsed hK hV hread

theorem mergeEntries_of_fresh (h : Codec.FreshKeys same es) : mergeEntries same es = es := by
  induction es using List.reverseRecOn with
  | nil => rfl
  | append_singleton es e ih =>
    obtain ⟨hes, hnew⟩ := (Codec.FreshKeys.concat_iff es e).mp h
    unfold mergeEntries at ih ⊢
    rw [List.foldl_append, ih hes]
    exact Codec.insertEntry_of_new hnew

theorem freshKeys_mergeEntries (es : List (κ × ν)) : Codec.FreshKeys same (mergeEntries same es) := by
  induction es using List.reverseRecOn with
  | nil => exact List.Pairwise.nil
  | append_singleton es e ih =>
    unfold mergeEntries at ih ⊢
    rw [List.foldl_append]
    exact ih.insertEntry e.1 e.2

/-- Merging makes no new keys and no new values. -/
theorem mem_mergeEntries {e : κ × ν} (h : e ∈ mergeEntries same es) : (∃ d ∈ es, e.1 = d.1) ∧ ∃ d ∈ es, e.2 = d.2 := by
  induction es using List.reverseRecOn generalizing e with
  | nil => nomatch h
  | append_singleton es d ih =>
    unfold mergeEntries at ih h
    rw [List.foldl_append] at h
    obtain ⟨hkey, hvalue⟩ := Codec.mem_insertEntry h
    have hlast : d ∈ es ++ [d] := List.mem_append_right es List.mem_cons_self
    refine ⟨?_, ?_⟩
    · rcases hkey with hkey | ⟨c, hc, hkey⟩
      · exact ⟨d, hlast, hkey⟩
      · obtain ⟨⟨b, hb, heq⟩, -⟩ := ih hc
        exact ⟨b, List.mem_append_left _ hb, hkey.trans heq⟩
    · rcases hvalue with hvalue | ⟨c, hc, hvalue⟩
      · exact ⟨d, hlast, hvalue⟩
      · obtain ⟨-, b, hb, heq⟩ := ih hc
        exact ⟨b, List.mem_append_left _ hb, (congrArg Prod.snd hvalue).trans heq⟩

/-- Merging does not make the writing longer. -/
theorem length_write_mergeEntries (same : κ → κ → Bool) (writeKey : κ → List UInt8) (writeValue : ν → List UInt8)
    (es : List (κ × ν)) :
    ((mergeEntries same es).flatMap (writeEntry writeKey writeValue)).length ≤
      (es.flatMap (writeEntry writeKey writeValue)).length := by
  induction es using List.reverseRecOn with
  | nil => exact Nat.le_refl _
  | append_singleton es e ih =>
    unfold mergeEntries at ih ⊢
    rw [List.foldl_append]
    refine Nat.le_trans (Codec.length_write_insertEntry same writeKey writeValue _ e.1 e.2) ?_
    rw [List.flatMap_append, List.flatMap_singleton, List.length_append, writeEntry, List.length_append]
    omega

theorem length_mergeEntries (same : κ → κ → Bool) (es : List (κ × ν)) : (mergeEntries same es).length ≤ es.length := by
  induction es using List.reverseRecOn with
  | nil => exact Nat.le_refl _
  | append_singleton es e ih =>
    unfold mergeEntries at ih ⊢
    rw [List.foldl_append, List.length_append]
    exact Nat.le_trans (Codec.length_insertEntry same _ e.1 e.2) (Nat.succ_le_succ ih)

end Entries

section Bounds

variable {write : α → List UInt8} {merge : α → α}

theorem limited {Raw : α → Prop} (h : Parses read write merge Raw) (limit : Nat) (tooLong : ε) :
    Parses (Codec.readLimited limit tooLong read) write merge (fun w => Raw w ∧ (write w).length ≤ limit) where
  reads w hw rest := Codec.readLimited_append (h.reads w hw.1 rest) hw.2 tooLong
  parsed {bytes x rest} hread := by
    obtain ⟨hread, hle⟩ := Codec.readLimited_ok hread
    obtain ⟨w, hw, hx, rfl⟩ := h.parsed hread
    rw [List.length_append, Nat.add_sub_cancel] at hle
    exact ⟨w, ⟨hw, hle⟩, hx, rfl⟩

/-- A recursive reader that may go as deep as the bytes are long; each level takes a byte. -/
theorem unbounded {r : Nat → Reader ε α} {Raw : Nat → α → Prop} (h : ∀ n, Parses (r n) write merge (Raw n))
    (hdepth : ∀ m n w, Raw m w → (write w).length ≤ n → Raw n w) :
    Parses (fun bytes => r bytes.length bytes) write merge (fun w => ∃ n, Raw n w) where
  reads w hw rest := by
    obtain ⟨m, hm⟩ := hw
    refine (h _).reads w (hdepth m _ w hm ?_) rest
    rw [List.length_append]
    exact Nat.le_add_right _ _
  parsed hread := by
    obtain ⟨w, hw, hx, hbytes⟩ := (h _).parsed hread
    exact ⟨w, ⟨_, hw⟩, hx, hbytes⟩

end Bounds

end Parses

end Xelis.Lib
