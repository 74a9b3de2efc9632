import Xelis.Lib.Reader

/-! Readers and writers that undo each other. A reader has a strict form, which also refuses what the other one takes
but the writer would not write. -/

namespace Xelis.Lib

open Reader (Reads bind_ok_iff readBe readBe_reads readBe_ok readMany takeBytes)

variable {ε α β κ ν : Type}

/-- Valid values are read back from what is written. What is read is valid and no longer than the bytes it was read
from, and the strict reader only takes the bytes that would be written. -/
structure Codec (read : Bool → Reader ε α) (write : α → List UInt8) (Valid : α → Prop) : Prop where
  reads : ∀ strict x, Valid x → Reads (read strict) (write x) x
  sound : ∀ {strict bytes x rest}, read strict bytes = .ok (x, rest) →
    Valid x ∧ (write x).length + rest.length ≤ bytes.length
  faithful : ∀ {bytes x rest}, read true bytes = .ok (x, rest) → bytes = write x ++ rest

variable {e short : ε} {V' V : β → Prop} {bytes rest : List UInt8} {t bound n : Nat} {readCount : Reader ε Nat}
  {writeCount : Nat → List UInt8} {es m ds m' : List (κ × ν)}

namespace Codec

section Sequence

variable {read : Bool → Reader ε α} {write : α → List UInt8} {V W : α → Prop}

theorem congr (h : Codec read write V) (hV : ∀ x, V x ↔ W x) : Codec read write W where
  reads strict x hx := h.reads strict x ((hV x).mpr hx)
  sound hread := ⟨(hV _).mp (h.sound hread).1, (h.sound hread).2⟩
  faithful hread := h.faithful hread

/-- Only what is written for valid values matters. -/
theorem congr_write {write' : α → List UInt8} (h : Codec read write V) (hwrite : ∀ x, V x → write x = write' x) :
    Codec read write' V where
  reads strict x hx := hwrite x hx ▸ h.reads strict x hx
  sound hread := ⟨(h.sound hread).1, hwrite _ (h.sound hread).1 ▸ (h.sound hread).2⟩
  faithful hread := hwrite _ (h.sound hread).1 ▸ h.faithful hread

theorem pure {x : α} (hwrite : write x = []) (hV : ∀ y, V y ↔ y = x) : Codec (fun _ => (Pure.pure x : Reader ε α)) write V where
  reads strict y hy := by
    rw [(hV y).mp hy, hwrite]
    exact Reads.pure x
  sound hread := by
    cases hread
    exact ⟨(hV x).mpr rfl, by rw [hwrite, List.length_nil, Nat.zero_add]⟩
  faithful hread := by
    cases hread
    rw [hwrite, List.nil_append]

theorem throw (hV : ∀ x, ¬ V x) : Codec (fun _ => (MonadExcept.throw e : Reader ε α)) write V where
  reads _ x hx := absurd hx (hV x)
  sound hread := nomatch hread
  faithful hread := nomatch hread

theorem bind {f : α → Bool → Reader ε β} {p : β → α} {writeRest : β → List UInt8} (h : Codec read write V)
    (hpart : ∀ b, V' b → V (p b)) (hrest : ∀ a, V a → Codec (f a) writeRest (fun b => p b = a ∧ V' b)) :
    Codec (fun strict => read strict >>= fun a => f a strict) (fun b => write (p b) ++ writeRest b) V' where
  reads strict b hb := (h.reads strict (p b) (hpart b hb)).bind ((hrest (p b) (hpart b hb)).reads strict b ⟨rfl, hb⟩)
  sound hread := by
    obtain ⟨a, mid, ha, hb⟩ := bind_ok_iff.mp hread
    obtain ⟨hV, hfits⟩ := h.sound ha
    obtain ⟨⟨rfl, hV'⟩, hfits'⟩ := (hrest a hV).sound hb
    refine ⟨hV', ?_⟩
    rw [List.length_append]
    omega
  faithful hread := by
    obtain ⟨a, mid, ha, hb⟩ := bind_ok_iff.mp hread
    obtain ⟨⟨rfl, -⟩, -⟩ := (hrest a (h.sound ha).1).sound hb
    rw [h.faithful ha, (hrest _ (h.sound ha).1).faithful hb, List.append_assoc]

/-- A value that is another one under a constructor. -/
theorem map {c : α → β} {write' : β → List UInt8} (h : Codec read write V)
    (hwrite : ∀ a, V a → write' (c a) = write a) (hV : ∀ b, V' b ↔ ∃ a, V a ∧ b = c a) :
    Codec (fun strict => do return c (← read strict)) write' V' where
  reads strict b hb := by
    obtain ⟨a, ha, rfl⟩ := (hV b).mp hb
    have hread := (h.reads strict a ha).bind (f := fun a => Pure.pure (c a)) (Reads.pure _)
    rwa [List.append_nil, ← hwrite a ha] at hread
  sound hread := by
    obtain ⟨a, mid, ha, hb⟩ := bind_ok_iff.mp hread
    cases hb
    obtain ⟨hva, hfits⟩ := h.sound ha
    exact ⟨(hV _).mpr ⟨a, hva, rfl⟩, hwrite a hva ▸ hfits⟩
  faithful hread := by
    obtain ⟨a, mid, ha, hb⟩ := bind_ok_iff.mp hread
    cases hb
    rw [hwrite a (h.sound ha).1]
    exact h.faithful ha

theorem guard {c : Prop} [Decidable c] (h : ¬ c → Codec read write V) (hc : c → ∀ x, ¬ V x) :
    Codec (fun strict => if c then MonadExcept.throw e else read strict) write V := by
  by_cases hcase : c
  · simp only [if_pos hcase]
    exact throw (hc hcase)
  · simp only [if_neg hcase]
    exact h hcase

end Sequence

theorem be (short : ε) (w : Nat) : Codec (fun _ => readBe short w) (beBytes w) (fun n => n < 256 ^ w) where
  reads _ _ hn := readBe_reads short hn
  sound hread := by
    obtain ⟨rfl, hlt⟩ := readBe_ok hread
    exact ⟨hlt, by rw [List.length_append]⟩
  faithful hread := (readBe_ok hread).1

theorem take (short : ε) (n : Nat) : Codec (fun _ => takeBytes short n) id (fun bytes => bytes.length = n) where
  reads _ _ hlen := Reader.takeBytes_reads short hlen
  sound hread := by
    obtain ⟨rfl, hlen⟩ := Reader.takeBytes_ok hread
    exact ⟨hlen, by rw [List.length_append, id]⟩
  faithful hread := (Reader.takeBytes_ok hread).1

/-- The first byte of what is written. -/
def tag (bytes : List UInt8) : Option Nat := bytes.head?.map UInt8.toNat

@[simp] theorem tag_cons (b : UInt8) (bytes : List UInt8) : tag (b :: bytes) = some b.toNat := rfl

theorem eq_of_tag (h : tag bytes = some t) : bytes = beBytes 1 t ++ bytes.tail := by
  cases bytes with
  | nil => cases h
  | cons b bytes =>
    obtain rfl : b.toNat = t := Option.some.inj h
    show b :: bytes = UInt8.ofNat b.toNat :: bytes
    rw [UInt8.ofNat_toNat]

/-- A first byte says how the rest is read. -/
theorem tagged {f : Nat → Bool → Reader ε β} {write : β → List UInt8} (hne : ∀ b, V b → write b ≠ [])
    (h : ∀ t, Codec (f t) (fun b => (write b).tail) (fun b => tag (write b) = some t ∧ V b)) :
    Codec (fun strict => readBe short 1 >>= fun t => f t strict) write V where
  reads strict b hb := by
    cases hwrite : write b with
    | nil => exact absurd hwrite (hne b hb)
    | cons x bytes =>
      have htag : tag (write b) = some x.toNat := by rw [hwrite, tag_cons]
      rw [← hwrite, eq_of_tag htag]
      exact (readBe_reads short x.toNat_lt).bind ((h x.toNat).reads strict b ⟨htag, hb⟩)
  sound hread := by
    obtain ⟨t, mid, ht, hb⟩ := bind_ok_iff.mp hread
    obtain ⟨rfl, -⟩ := readBe_ok ht
    obtain ⟨⟨htag, hV⟩, hfits⟩ := (h t).sound hb
    refine ⟨hV, ?_⟩
    rw [eq_of_tag htag, List.length_append, List.length_append, length_beBytes]
    omega
  faithful hread := by
    obtain ⟨t, mid, ht, hb⟩ := bind_ok_iff.mp hread
    obtain ⟨rfl, -⟩ := readBe_ok ht
    obtain ⟨⟨htag, -⟩, -⟩ := (h t).sound hb
    rw [(h t).faithful hb, eq_of_tag htag, List.append_assoc]
    rfl

/-- The value, or the error. -/
def okOr (e : ε) : Option α → Reader ε α
  | some x => Pure.pure x
  | none => MonadExcept.throw e

/-- What an outside function makes of the bytes. -/
theorem decoded {d : List UInt8 → Option α} {encode : α → List UInt8} {read : Bool → Reader ε (List UInt8)}
    {V : List UInt8 → Prop} (h : Codec read id V) (hdecode : ∀ bytes x, d bytes = some x ↔ encode x = bytes) :
    Codec (fun strict => read strict >>= fun bytes => okOr e (d bytes)) encode (fun x => V (encode x)) where
  reads strict x hx := by
    have hdec : Reads (okOr e (d (encode x))) [] x := by
      rw [(hdecode _ _).mpr rfl]
      exact Reads.pure x
    have hread := (h.reads strict (encode x) hx).bind (f := fun bytes => okOr e (d bytes)) hdec
    rwa [List.append_nil] at hread
  sound hread := by
    obtain ⟨bytes', mid, hbytes, hx⟩ := bind_ok_iff.mp hread
    cases hdec : d bytes' with
    | some y =>
      rw [hdec] at hx
      cases hx
      rw [(hdecode _ _).mp hdec]
      exact h.sound hbytes
    | none =>
      rw [hdec] at hx
      cases hx
  faithful hread := by
    obtain ⟨bytes', mid, hbytes, hx⟩ := bind_ok_iff.mp hread
    cases hdec : d bytes' with
    | some y =>
      rw [hdec] at hx
      cases hx
      rw [(hdecode _ _).mp hdec]
      exact h.faithful hbytes
    | none =>
      rw [hdec] at hx
      cases hx

section Loops

variable {read : Bool → Reader ε α} {write : α → List UInt8} {V : α → Prop}

theorem many (h : Codec read write V) (n : Nat) :
    Codec (fun strict => readMany (read strict) n) (fun xs => xs.flatMap write) (fun xs => xs.length = n ∧ ∀ x ∈ xs, V x) where
  reads strict xs hxs := by
    obtain ⟨rfl, hV⟩ := hxs
    exact Reader.readMany_reads fun x hx => h.reads strict x (hV x hx)
  sound {strict bytes xs rest} hread := by
    induction n generalizing bytes xs with
    | zero =>
      cases hread
      exact ⟨⟨rfl, fun x hx => nomatch hx⟩, Nat.le_of_eq (Nat.zero_add _)⟩
    | succ n ih =>
      obtain ⟨x, mid, hx, hread⟩ := bind_ok_iff.mp hread
      obtain ⟨ys, mid', hys, hread⟩ := bind_ok_iff.mp hread
      cases hread
      obtain ⟨⟨rfl, hV⟩, hfits⟩ := ih hys
      obtain ⟨hVx, hfitsx⟩ := h.sound hx
      refine ⟨⟨rfl, fun y hy => ?_⟩, ?_⟩
      · rcases List.mem_cons.mp hy with rfl | hy
        · exact hVx
        · exact hV y hy
      · rw [List.flatMap_cons, List.length_append]
        omega
  faithful hread := (Reader.readMany_ok (fun _ _ _ hx => h.faithful hx) hread).1

variable {xs before ys : List α}

theorem length_le_flatMap (write : α → List UInt8) {x : α} (h : x ∈ xs) :
    (write x).length ≤ (xs.flatMap write).length := by
  obtain ⟨before, after, rfl⟩ := List.append_of_mem h
  simp only [List.flatMap_append, List.flatMap_cons, List.length_append]
  omega

/-- The number of elements, then the elements. -/
theorem counted {f : Nat → Bool → Reader ε (List α)}
    {write : List α → List UInt8} {V : List α → Prop} (hcount : Codec (fun _ => readCount) writeCount (fun n => n < bound))
    (h : ∀ n, n < bound → Codec (f n) write (fun xs => xs.length = n ∧ V xs)) :
    Codec (fun strict => readCount >>= fun n => f n strict) (fun xs => writeCount xs.length ++ write xs)
      (fun xs => xs.length < bound ∧ V xs) := by
  refine hcount.bind (p := List.length) (fun _ hxs => hxs.1) fun n hn => ?_
  exact (h n hn).congr fun xs => ⟨fun hxs => ⟨hxs.1, hxs.1 ▸ hn, hxs.2⟩, fun hxs => ⟨hxs.1, hxs.2.2⟩⟩

/-- `n` more elements; one that is the same as one at hand is refused. -/
def readFresh (repeated : ε) (same : α → α → Bool) (r : Reader ε α) : Nat → List α → Reader ε (List α)
  | 0, xs => Pure.pure xs
  | n + 1, xs => do
    let x ← r
    if xs.any (fun y => same y x) then MonadExcept.throw repeated else readFresh repeated same r n (xs ++ [x])

/-- No element is the same as an earlier one. -/
def Fresh (same : α → α → Bool) (xs : List α) : Prop := xs.Pairwise (fun a b => same a b = false)

variable {repeated : ε} {same : α → α → Bool}

theorem Fresh.concat_iff (xs : List α) (x : α) :
    Fresh same (xs ++ [x]) ↔ Fresh same xs ∧ xs.any (fun y => same y x) = false := by
  rw [Fresh, List.pairwise_append, List.any_eq_false]
  simp [Fresh]

theorem readFresh_reads {r : Reader ε α} (h : ∀ x ∈ xs, Reads r (write x) x) (before : List α)
    (hfresh : Fresh same (before ++ xs)) : Reads (readFresh repeated same r xs.length before) (xs.flatMap write) (before ++ xs) := by
  induction xs generalizing before with
  | nil =>
    rw [List.append_nil]
    exact Reads.pure before
  | cons x xs ih =>
    rw [List.append_cons] at hfresh ⊢
    have hx : before.any (fun y => same y x) = false := ((Fresh.concat_iff before x).mp (List.pairwise_append.mp hfresh).1).2
    rw [List.flatMap_cons]
    refine (h x List.mem_cons_self).bind ?_
    rw [if_neg (by rw [hx]; exact Bool.false_ne_true)]
    exact ih (fun y hy => h y (List.mem_cons_of_mem x hy)) (before ++ [x]) hfresh

/-- What was read stands after the elements at hand, and none is the same as an earlier one. -/
theorem readFresh_ok (h : Codec read write V) {strict : Bool}
    (hbefore : Fresh same before) (hread : readFresh repeated same (read strict) n before bytes = .ok (ys, rest)) :
    ∃ xs, ys = before ++ xs ∧ xs.length = n ∧ Fresh same ys ∧ (∀ x ∈ xs, V x) ∧
      (xs.flatMap write).length + rest.length ≤ bytes.length ∧ (strict = true → bytes = xs.flatMap write ++ rest) := by
  induction n generalizing bytes before with
  | zero =>
    cases hread
    exact ⟨[], (List.append_nil _).symm, rfl, hbefore, (fun x hx => nomatch hx), Nat.le_of_eq (Nat.zero_add _), fun _ => rfl⟩
  | succ n ih =>
    obtain ⟨x, mid, hx, hread⟩ := bind_ok_iff.mp hread
    split at hread
    · cases hread
    · rename_i hnew
      have hnext : Fresh same (before ++ [x]) := (Fresh.concat_iff before x).mpr ⟨hbefore, Bool.eq_false_iff.mpr hnew⟩
      obtain ⟨xs, rfl, hlen, hfresh, hV, hfits, hbytes⟩ := ih hnext hread
      obtain ⟨hVx, hfitsx⟩ := h.sound hx
      refine ⟨x :: xs, by rw [← List.append_cons], by rw [List.length_cons, hlen], hfresh, fun y hy => ?_, ?_, fun hstrict => ?_⟩
      · rcases List.mem_cons.mp hy with rfl | hy
        · exact hVx
        · exact hV y hy
      · rw [List.flatMap_cons, List.length_append]
        omega
      · subst hstrict
        rw [h.faithful hx, hbytes rfl, List.flatMap_cons, List.append_assoc]

/-- A given number of elements, all different. -/
theorem fresh (h : Codec read write V) (n : Nat) :
    Codec (fun strict => readFresh repeated same (read strict) n []) (fun xs => xs.flatMap write)
      (fun xs => xs.length = n ∧ Fresh same xs ∧ ∀ x ∈ xs, V x) where
  reads strict xs hxs := by
    obtain ⟨rfl, hfresh, hV⟩ := hxs
    exact readFresh_reads (fun x hx => h.reads strict x (hV x hx)) [] hfresh
  sound hread := by
    obtain ⟨xs, rfl, hlen, hfresh, hV, hfits, -⟩ := readFresh_ok h List.Pairwise.nil hread
    exact ⟨⟨hlen, hfresh, hV⟩, hfits⟩
  faithful hread := by
    obtain ⟨xs, rfl, -, -, -, -, hbytes⟩ := readFresh_ok h List.Pairwise.nil hread
    exact hbytes rfl

theorem fresh_iff_nodup [DecidableEq κ] {key : α → κ} :
    Fresh (fun a b => decide (key a = key b)) xs ↔ (xs.map key).Nodup := by
  rw [Fresh, List.Nodup, List.pairwise_map]
  simp only [decide_eq_false_iff_not, ne_eq]

/-- Elements with different keys are elements none of which repeats an earlier one. -/
theorem readDistinct_eq_readFresh [DecidableEq κ] (key : α → κ) (r : Reader ε α) (n : Nat) (xs : List α) :
    Reader.readDistinct repeated key r n xs = readFresh repeated (fun a b => decide (key a = key b)) r n xs := by
  induction n generalizing xs with
  | zero => rfl
  | succ n ih =>
    unfold Reader.readDistinct readFresh
    refine congrArg (r >>= ·) (funext fun x => ?_)
    have hmem : key x ∈ xs.map key ↔ xs.any (fun y => decide (key y = key x)) = true := by
      rw [List.mem_map, List.any_eq_true]
      simp only [decide_eq_true_eq]
    rw [ih (xs ++ [x])]
    exact if_congr hmem rfl rfl

theorem distinct [DecidableEq κ] (key : α → κ) (h : Codec read write V) (n : Nat) :
    Codec (fun strict => Reader.readDistinct repeated key (read strict) n []) (fun xs => xs.flatMap write)
      (fun xs => xs.length = n ∧ (xs.map key).Nodup ∧ ∀ x ∈ xs, V x) := by
  simp only [readDistinct_eq_readFresh]
  exact (h.fresh n).congr fun xs => by rw [fresh_iff_nodup]

end Loops

section Entries

/-- A key that is there keeps its place and gets the new value. -/
def insertEntry (same : κ → κ → Bool) : List (κ × ν) → κ → ν → List (κ × ν)
  | [], k, v => [(k, v)]
  | e :: es, k, v => if same e.1 k then (e.1, v) :: es else e :: insertEntry same es k v

/-- `n` more entries of a map; the strict form refuses a key that is there already. -/
def readEntries (strict : Bool) (repeated : ε) (same : κ → κ → Bool) (readKey : Reader ε κ) (readValue : Reader ε ν) :
    Nat → List (κ × ν) → Reader ε (List (κ × ν))
  | 0, es => Pure.pure es
  | n + 1, es => do
    let k ← readKey
    let v ← readValue
    if strict && es.any (fun e => same e.1 k) then MonadExcept.throw repeated
    else readEntries strict repeated same readKey readValue n (insertEntry same es k v)

def FreshKeys (same : κ → κ → Bool) (es : List (κ × ν)) : Prop := es.Pairwise (fun a b => same a.1 b.1 = false)

variable {same : κ → κ → Bool} {repeated : ε} {readKey : Bool → Reader ε κ} {readValue : Bool → Reader ε ν}
  {writeKey : κ → List UInt8} {writeValue : ν → List UInt8} {VK : κ → Prop} {VV : ν → Prop}

def writeEntry (writeKey : κ → List UInt8) (writeValue : ν → List UInt8) (e : κ × ν) : List UInt8 := writeKey e.1 ++ writeValue e.2

theorem insertEntry_of_new {k : κ} {v : ν} (h : es.any (fun e => same e.1 k) = false) :
    insertEntry same es k v = es ++ [(k, v)] := by
  induction es with
  | nil => rfl
  | cons e es ih =>
    rw [List.any_cons, Bool.or_eq_false_iff] at h
    rw [insertEntry, h.1, if_neg Bool.false_ne_true, ih h.2, List.cons_append]

theorem mem_insertEntry {k : κ} {v : ν} {e : κ × ν} (h : e ∈ insertEntry same es k v) :
    (e.1 = k ∨ ∃ d ∈ es, e.1 = d.1) ∧ (e.2 = v ∨ ∃ d ∈ es, e = d) := by
  induction es with
  | nil =>
    rw [insertEntry, List.mem_singleton] at h
    rw [h]
    exact ⟨Or.inl rfl, Or.inl rfl⟩
  | cons d es ih =>
    unfold insertEntry at h
    split at h
    · rcases List.mem_cons.mp h with rfl | h
      · exact ⟨Or.inr ⟨d, List.mem_cons_self, rfl⟩, Or.inl rfl⟩
      · exact ⟨Or.inr ⟨e, List.mem_cons_of_mem d h, rfl⟩, Or.inr ⟨e, List.mem_cons_of_mem d h, rfl⟩⟩
    · rcases List.mem_cons.mp h with rfl | h
      · exact ⟨Or.inr ⟨e, List.mem_cons_self, rfl⟩, Or.inr ⟨e, List.mem_cons_self, rfl⟩⟩
      · obtain ⟨hkey, hvalue⟩ := ih h
        refine ⟨hkey.imp_right ?_, hvalue.imp_right ?_⟩
        · rintro ⟨c, hc, heq⟩
          exact ⟨c, List.mem_cons_of_mem d hc, heq⟩
        · rintro ⟨c, hc, heq⟩
          exact ⟨c, List.mem_cons_of_mem d hc, heq⟩

theorem FreshKeys.insertEntry (h : FreshKeys same es) (k : κ) (v : ν) : FreshKeys same (insertEntry same es k v) := by
  induction es with
  | nil => exact List.pairwise_singleton _ _
  | cons e es ih =>
    obtain ⟨hhead, htail⟩ := List.pairwise_cons.mp h
    unfold Codec.insertEntry
    split
    · exact List.pairwise_cons.mpr ⟨hhead, htail⟩
    · rename_i hother
      refine List.pairwise_cons.mpr ⟨fun d hd => ?_, ih htail⟩
      rcases (mem_insertEntry hd).1 with hkey | ⟨c, hc, hkey⟩
      · rw [hkey]
        exact Bool.eq_false_iff.mpr hother
      · rw [hkey]
        exact hhead c hc

theorem length_insertEntry (same : κ → κ → Bool) (es : List (κ × ν)) (k : κ) (v : ν) : (insertEntry same es k v).length ≤ es.length + 1 := by
  induction es with
  | nil => exact Nat.le_refl 1
  | cons e es ih =>
    unfold insertEntry
    split
    · exact Nat.le_succ _
    · exact Nat.succ_le_succ ih

theorem length_write_insertEntry (same : κ → κ → Bool) (writeKey : κ → List UInt8) (writeValue : ν → List UInt8)
    (es : List (κ × ν)) (k : κ) (v : ν) :
    ((insertEntry same es k v).flatMap (writeEntry writeKey writeValue)).length ≤
      (es.flatMap (writeEntry writeKey writeValue)).length + ((writeKey k).length + (writeValue v).length) := by
  induction es with
  | nil => simp [insertEntry, writeEntry]
  | cons e es ih =>
    unfold insertEntry
    split
    · simp only [List.flatMap_cons, List.length_append, writeEntry]
      omega
    · rw [List.flatMap_cons, List.flatMap_cons, List.length_append, List.length_append]
      omega

theorem FreshKeys.concat_iff (es : List (κ × ν)) (e : κ × ν) :
    FreshKeys same (es ++ [e]) ↔ FreshKeys same es ∧ es.any (fun d => same d.1 e.1) = false := by
  rw [FreshKeys, List.pairwise_append, List.any_eq_false]
  simp [FreshKeys]

theorem readEntries_reads (hK : Codec readKey writeKey VK) (hV : Codec readValue writeValue VV) (strict : Bool)
    (hvalid : ∀ e ∈ es, VK e.1 ∧ VV e.2) (before : List (κ × ν)) (hfresh : FreshKeys same (before ++ es)) :
    Reads (readEntries strict repeated same (readKey strict) (readValue strict) es.length before)
      (es.flatMap (writeEntry writeKey writeValue)) (before ++ es) := by
  induction es generalizing before with
  | nil =>
    rw [List.append_nil]
    exact Reads.pure before
  | cons e es ih =>
    rw [List.append_cons] at hfresh ⊢
    have hnew : before.any (fun d => same d.1 e.1) = false :=
      ((FreshKeys.concat_iff before e).mp (List.pairwise_append.mp hfresh).1).2
    obtain ⟨hkey, hvalue⟩ := hvalid e List.mem_cons_self
    rw [List.flatMap_cons, writeEntry, List.append_assoc]
    refine (hK.reads strict e.1 hkey).bind ((hV.reads strict e.2 hvalue).bind ?_)
    rw [if_neg (by rw [hnew, Bool.and_false]; exact Bool.false_ne_true), insertEntry_of_new hnew]
    exact ih (fun d hd => hvalid d (List.mem_cons_of_mem e hd)) (before ++ [e]) hfresh

theorem readEntries_ok (hK : Codec readKey writeKey VK) (hV : Codec readValue writeValue VV) {strict : Bool}
    {before : List (κ × ν)} (hbefore : FreshKeys same before) (hvalid : ∀ e ∈ before, VK e.1 ∧ VV e.2)
    (hread : readEntries strict repeated same (readKey strict) (readValue strict) n before bytes = .ok (m, rest)) :
    FreshKeys same m ∧ (∀ e ∈ m, VK e.1 ∧ VV e.2) ∧ m.length ≤ before.length + n ∧
      (m.flatMap (writeEntry writeKey writeValue)).length + rest.length ≤
        (before.flatMap (writeEntry writeKey writeValue)).length + bytes.length ∧
      (strict = true → ∃ es, m = before ++ es ∧ es.length = n ∧ bytes = es.flatMap (writeEntry writeKey writeValue) ++ rest) := by
  induction n generalizing bytes before with
  | zero =>
    cases hread
    exact ⟨hbefore, hvalid, Nat.le_refl _, Nat.le_refl _, fun _ => ⟨[], (List.append_nil _).symm, rfl, rfl⟩⟩
  | succ n ih =>
    obtain ⟨k, mid, hk, hread⟩ := bind_ok_iff.mp hread
    obtain ⟨v, mid', hv, hread⟩ := bind_ok_iff.mp hread
    split at hread
    · cases hread
    · rename_i hnew
      obtain ⟨hVk, hfitsk⟩ := hK.sound hk
      obtain ⟨hVv, hfitsv⟩ := hV.sound hv
      have hnext : ∀ e ∈ insertEntry same before k v, VK e.1 ∧ VV e.2 := by
        intro e he
        obtain ⟨hkey, hvalue⟩ := mem_insertEntry he
        refine ⟨?_, ?_⟩
        · rcases hkey with rfl | ⟨d, hd, heq⟩
          · exact hVk
          · exact heq ▸ (hvalid d hd).1
        · rcases hvalue with rfl | ⟨d, hd, rfl⟩
          · exact hVv
          · exact (hvalid e hd).2
      obtain ⟨hfresh, hvalid', hlen, hfits, hbytes⟩ := ih (hbefore.insertEntry k v) hnext hread
      have hgrow := length_insertEntry same before k v
      have hwrite := length_write_insertEntry same writeKey writeValue before k v
      refine ⟨hfresh, hvalid', by omega, by omega, fun hstrict => ?_⟩
      subst hstrict
      rw [Bool.true_and] at hnew
      obtain ⟨es, rfl, hes, hrest⟩ := hbytes rfl
      rw [insertEntry_of_new (Bool.eq_false_iff.mpr hnew)]
      refine ⟨(k, v) :: es, by rw [← List.append_cons], by rw [List.length_cons, hes], ?_⟩
      rw [hK.faithful hk, hV.faithful hv, hrest, List.flatMap_cons, writeEntry, List.append_assoc, List.append_assoc]

theorem entries
    (hcount : Codec (fun _ => readCount) writeCount (fun n => n < bound)) (hlength : ∀ n m, (writeCount n).length = (writeCount m).length)
    (hK : Codec readKey writeKey VK) (hV : Codec readValue writeValue VV) :
    Codec (fun strict => readCount >>= fun n => readEntries strict repeated same (readKey strict) (readValue strict) n [])
      (fun m => writeCount m.length ++ m.flatMap (writeEntry writeKey writeValue))
      (fun m => m.length < bound ∧ FreshKeys same m ∧ ∀ e ∈ m, VK e.1 ∧ VV e.2) where
  reads strict m hm := by
    obtain ⟨hlen, hfresh, hvalid⟩ := hm
    exact (hcount.reads strict _ hlen).bind (readEntries_reads hK hV strict hvalid [] hfresh)
  sound {strict bytes m rest} hread := by
    obtain ⟨n, mid, hn, hm⟩ := bind_ok_iff.mp hread
    obtain ⟨hlt, hfitsn⟩ := @sound _ _ _ _ _ hcount strict _ _ _ hn
    obtain ⟨hfresh, hvalid, hlen, hfits, -⟩ := readEntries_ok hK hV List.Pairwise.nil (fun e he => nomatch he) hm
    rw [List.length_nil, Nat.zero_add] at hlen
    rw [List.flatMap_nil, List.length_nil, Nat.zero_add] at hfits
    refine ⟨⟨Nat.lt_of_le_of_lt hlen hlt, hfresh, hvalid⟩, ?_⟩
    rw [List.length_append, hlength m.length n]
    omega
  faithful hread := by
    obtain ⟨n, mid, hn, hm⟩ := bind_ok_iff.mp hread
    obtain ⟨-, -, -, -, hbytes⟩ := readEntries_ok hK hV List.Pairwise.nil (fun e he => nomatch he) hm
    obtain ⟨es, rfl, rfl, rfl⟩ := hbytes rfl
    rw [hcount.faithful hn, List.append_assoc]

end Entries

section Order

variable [DecidableEq κ]

/-- In which order a map gives its keys back: whichever way they were put in, it is the same. -/
structure KeyOrder (κ : Type) where
  order : List κ → List κ
  perm : ∀ ks, (order ks).Perm ks
  unique : ∀ {ks ks'}, ks.Perm ks' → order ks = order ks'

def KeyOrder.arrange (o : KeyOrder κ) (es : List (κ × ν)) : List (κ × ν) :=
  (o.order (es.map Prod.fst)).filterMap (fun k => es.find? (fun e => e.1 = k))

def KeyOrder.Arranged (o : KeyOrder κ) (es : List (κ × ν)) : Prop := o.order (es.map Prod.fst) = es.map Prod.fst

instance (o : KeyOrder κ) (es : List (κ × ν)) : Decidable (o.Arranged es) := inferInstanceAs (Decidable (_ = _))

theorem find_of_mem (h : (es.map Prod.fst).Nodup) {e : κ × ν} (he : e ∈ es) :
    es.find? (fun d => d.1 = e.1) = some e := by
  cases hfind : es.find? (fun d => d.1 = e.1) with
  | none =>
    have hnone := List.find?_eq_none.mp hfind e he
    simp at hnone
  | some d =>
    have hkey : d.1 = e.1 := by simpa using List.find?_some hfind
    rw [List.inj_on_of_nodup_map h (List.mem_of_find?_eq_some hfind) he hkey]

theorem filterMap_find (h : (es.map Prod.fst).Nodup) {ks : List κ}
    (hks : ks = ds.map Prod.fst) (hds : ∀ d ∈ ds, d ∈ es) : ks.filterMap (fun k => es.find? (fun e => e.1 = k)) = ds := by
  subst hks
  induction ds with
  | nil => rfl
  | cons d ds ih =>
    rw [List.map_cons, List.filterMap_cons, find_of_mem h (hds d List.mem_cons_self)]
    exact congrArg (d :: ·) (ih fun c hc => hds c (List.mem_cons_of_mem d hc))

theorem KeyOrder.arrange_eq_self (o : KeyOrder κ) (h : (es.map Prod.fst).Nodup) (harranged : o.Arranged es) :
    o.arrange es = es :=
  filterMap_find h harranged fun _ hd => hd

theorem KeyOrder.arrange_perm (o : KeyOrder κ) (h : (es.map Prod.fst).Nodup) : (o.arrange es).Perm es := by
  have hperm : (o.arrange es).Perm ((es.map Prod.fst).filterMap (fun k => es.find? (fun e => e.1 = k))) :=
    (o.perm (es.map Prod.fst)).filterMap _
  rwa [filterMap_find h rfl fun _ hd => hd] at hperm

theorem KeyOrder.arranged_arrange (o : KeyOrder κ) (h : (es.map Prod.fst).Nodup) : o.Arranged (o.arrange es) := by
  have hkeys : (o.arrange es).map Prod.fst = o.order (es.map Prod.fst) := by
    have hmem : ∀ k ∈ o.order (es.map Prod.fst), ∃ e, es.find? (fun d => d.1 = k) = some e ∧ e.1 = k := by
      intro k hk
      obtain ⟨e, he, rfl⟩ := List.mem_map.mp ((o.perm _).mem_iff.mp hk)
      exact ⟨e, find_of_mem h he, rfl⟩
    unfold arrange
    revert hmem
    generalize o.order (es.map Prod.fst) = ks
    intro hmem
    induction ks with
    | nil => rfl
    | cons k ks ih =>
      obtain ⟨e, hfind, hkey⟩ := hmem k List.mem_cons_self
      rw [List.filterMap_cons, hfind]
      show e.1 :: _ = k :: ks
      rw [hkey, ih fun k hk => hmem k (List.mem_cons_of_mem _ hk)]
  unfold Arranged
  rw [hkeys]
  exact o.unique (o.perm _)

theorem freshKeys_iff_nodup : FreshKeys (fun a b => decide (a = b)) es ↔ (es.map Prod.fst).Nodup := by
  rw [FreshKeys, List.Nodup, List.pairwise_map]
  simp only [decide_eq_false_iff_not, ne_eq]

theorem entries_perm {writeKey : κ → List UInt8} {writeValue : ν → List UInt8}
    {VK : κ → Prop} {VV : ν → Prop} (hperm : m.Perm m')
    (h : m.length < bound ∧ FreshKeys (fun a b => decide (a = b)) m ∧ ∀ e ∈ m, VK e.1 ∧ VV e.2) :
    (m'.length < bound ∧ FreshKeys (fun a b => decide (a = b)) m' ∧ ∀ e ∈ m', VK e.1 ∧ VV e.2) ∧
      (writeCount m'.length ++ m'.flatMap (writeEntry writeKey writeValue)).length =
        (writeCount m.length ++ m.flatMap (writeEntry writeKey writeValue)).length := by
  obtain ⟨hlen, hfresh, hvalid⟩ := h
  rw [freshKeys_iff_nodup] at hfresh ⊢
  refine ⟨⟨hperm.length_eq ▸ hlen, (hperm.map _).nodup_iff.mp hfresh, fun e he => hvalid e (hperm.mem_iff.mpr he)⟩, ?_⟩
  rw [List.length_append, List.length_append, hperm.length_eq, (hperm.flatMap_right _).length_eq]

/-- A map that does not keep the order in which its entries were put in. -/
theorem arranged {read : Bool → Reader ε (List (κ × ν))} {write : List (κ × ν) → List UInt8} {V : List (κ × ν) → Prop}
    (o : KeyOrder κ) (e : ε) (h : Codec read write V) (hnodup : ∀ m, V m → (m.map Prod.fst).Nodup)
    (hperm : ∀ m m', m.Perm m' → V m → V m' ∧ (write m').length = (write m).length) :
    Codec (fun strict => read strict >>= fun es =>
        if strict && !decide (o.Arranged es) then MonadExcept.throw e else Pure.pure (o.arrange es))
      write (fun m => V m ∧ o.Arranged m) where
  reads strict m hm := by
    obtain ⟨hV, harranged⟩ := hm
    intro rest
    rw [Reader.bind_apply, h.reads strict m hV rest]
    simp only [harranged, decide_true, Bool.not_true, Bool.and_false, Bool.false_eq_true, if_false,
      o.arrange_eq_self (hnodup m hV) harranged]
    rfl
  sound hread := by
    obtain ⟨es, mid, hes, hm⟩ := bind_ok_iff.mp hread
    obtain ⟨hV, hfits⟩ := h.sound hes
    split at hm
    · cases hm
    · cases hm
      obtain ⟨hV', hlen⟩ := hperm es _ (o.arrange_perm (hnodup es hV)).symm hV
      exact ⟨⟨hV', o.arranged_arrange (hnodup es hV)⟩, hlen ▸ hfits⟩
  faithful hread := by
    obtain ⟨es, mid, hes, hm⟩ := bind_ok_iff.mp hread
    split at hm
    · cases hm
    · rename_i horder
      cases hm
      rw [Bool.true_and, Bool.not_eq_true', Bool.not_eq_false, decide_eq_true_eq] at horder
      rw [o.arrange_eq_self (hnodup es (h.sound hes).1) horder]
      exact h.faithful hes

end Order

section Bounds

variable {write : α → List UInt8}

/-- What took more than `limit` bytes is refused. -/
def readLimited (limit : Nat) (tooLong : ε) (r : Reader ε α) : Reader ε α := do
  let before ← get
  let x ← r
  let after ← get
  if before.length - after.length > limit then MonadExcept.throw tooLong else return x

theorem readLimited_ok {limit : Nat} {tooLong : ε} {r : Reader ε α} {bytes rest : List UInt8} {x : α}
    (h : readLimited limit tooLong r bytes = .ok (x, rest)) : r bytes = .ok (x, rest) ∧ bytes.length - rest.length ≤ limit := by
  obtain ⟨before, start, hbefore, h⟩ := bind_ok_iff.mp h
  cases hbefore
  obtain ⟨y, mid, hy, h⟩ := bind_ok_iff.mp h
  obtain ⟨after, rest', hafter, h⟩ := bind_ok_iff.mp h
  cases hafter
  split at h
  · cases h
  · rename_i hle
    cases h
    exact ⟨hy, Nat.le_of_not_lt hle⟩

theorem readLimited_append {limit : Nat} {r : Reader ε α} {front rest : List UInt8} {x : α}
    (h : r (front ++ rest) = .ok (x, rest)) (hle : front.length ≤ limit) (tooLong : ε) :
    readLimited limit tooLong r (front ++ rest) = .ok (x, rest) := by
  have hlen : ¬ (front ++ rest).length - rest.length > limit := by
    rw [List.length_append, Nat.add_sub_cancel]
    exact Nat.not_lt_of_le hle
  show (get >>= fun before : List UInt8 => r >>= fun x => get >>= fun after : List UInt8 =>
    if before.length - after.length > limit then MonadExcept.throw tooLong else Pure.pure x) (front ++ rest) = _
  rw [Reader.bind_apply]
  show (r >>= _) (front ++ rest) = _
  rw [Reader.bind_apply, h]
  show (if (front ++ rest).length - rest.length > limit then MonadExcept.throw tooLong else Pure.pure x : Reader ε α) rest = _
  rw [if_neg hlen]
  rfl

theorem limited {read : Bool → Reader ε α} {V : α → Prop} (h : Codec read write V) (limit : Nat) (tooLong : ε) :
    Codec (fun strict => readLimited limit tooLong (read strict)) write (fun x => V x ∧ (write x).length ≤ limit) where
  reads strict x hx rest := readLimited_append (h.reads strict x hx.1 rest) hx.2 tooLong
  sound hread := by
    obtain ⟨hread, hle⟩ := readLimited_ok hread
    obtain ⟨hV, hfits⟩ := h.sound hread
    exact ⟨⟨hV, by omega⟩, hfits⟩
  faithful hread := h.faithful (readLimited_ok hread).1

/-- A recursive reader that may go as deep as the bytes are long; each level takes a byte. -/
theorem unbounded {r : Bool → Nat → Reader ε α} {V : Nat → α → Prop} (h : ∀ n, Codec (fun strict => r strict n) write (V n))
    (hdepth : ∀ m n x, V m x → (write x).length ≤ n → V n x) :
    Codec (fun strict bytes => r strict bytes.length bytes) write (fun x => ∃ n, V n x) where
  reads strict x hx rest := by
    obtain ⟨m, hm⟩ := hx
    refine (h _).reads strict x (hdepth m _ x hm ?_) rest
    rw [List.length_append]
    exact Nat.le_add_right _ _
  sound hread := ⟨⟨_, ((h _).sound hread).1⟩, ((h _).sound hread).2⟩
  faithful hread := (h _).faithful hread

end Bounds

end Codec

end Xelis.Lib
