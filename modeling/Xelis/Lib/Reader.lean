import Mathlib.Data.List.Induction
import Mathlib.Data.List.Nodup
import Mathlib.Tactic.Ring

/-! Programs that take values off the front of a list of bytes. -/

namespace Xelis.Lib

/-- The lowest `w` bytes of a number, most significant first. -/
def beBytes : Nat → Nat → List UInt8
  | 0, _ => []
  | w + 1, n => beBytes w (n / 256) ++ [UInt8.ofNat n]

/-- The number whose bytes are given, most significant first. -/
def ofBeBytes (bytes : List UInt8) : Nat := bytes.foldl (fun acc b => acc * 256 + b.toNat) 0

@[simp] theorem length_beBytes (w n : Nat) : (beBytes w n).length = w := by
  induction w generalizing n with
  | zero => rfl
  | succ w ih => simp [beBytes, ih]

@[simp] theorem ofBeBytes_concat (bytes : List UInt8) (b : UInt8) :
    ofBeBytes (bytes ++ [b]) = ofBeBytes bytes * 256 + b.toNat := by
  simp [ofBeBytes]

theorem ofBeBytes_beBytes (w n : Nat) (h : n < 256 ^ w) : ofBeBytes (beBytes w n) = n := by
  induction w generalizing n with
  | zero =>
    rw [pow_zero, Nat.lt_one_iff] at h
    subst h
    rfl
  | succ w ih =>
    have hhigh : n / 256 < 256 ^ w := by
      rw [Nat.div_lt_iff_lt_mul (by norm_num)]
      rwa [pow_succ] at h
    rw [beBytes, ofBeBytes_concat, ih _ hhigh, UInt8.toNat_ofNat']
    omega

theorem ofBeBytes_lt (bytes : List UInt8) : ofBeBytes bytes < 256 ^ bytes.length := by
  induction bytes using List.reverseRecOn with
  | nil => simp [ofBeBytes]
  | append_singleton bytes b ih =>
    have hb := b.toNat_lt
    rw [ofBeBytes_concat, List.length_append, List.length_singleton, pow_succ]
    omega

theorem beBytes_ofBeBytes (bytes : List UInt8) : beBytes bytes.length (ofBeBytes bytes) = bytes := by
  induction bytes using List.reverseRecOn with
  | nil => rfl
  | append_singleton bytes b ih =>
    have hb := b.toNat_lt
    have hhigh : (ofBeBytes bytes * 256 + b.toNat) / 256 = ofBeBytes bytes := by omega
    have hlow : UInt8.ofNat (ofBeBytes bytes * 256 + b.toNat) = b := by
      apply UInt8.toNat.inj
      rw [UInt8.toNat_ofNat']
      omega
    rw [List.length_append, List.length_singleton, beBytes, ofBeBytes_concat, hhigh, hlow, ih]

/-- A program that takes a value off the front of the bytes that are left. -/
abbrev Reader (ε α : Type) := StateT (List UInt8) (Except ε) α

variable {bytes rest bytes' x : List UInt8} {n w : Nat}

namespace Reader

variable {ε α β κ : Type}

theorem bind_apply (r : Reader ε α) (f : α → Reader ε β) (bytes : List UInt8) :
    (r >>= f) bytes = match r bytes with
      | .ok (a, rest) => f a rest
      | .error e => .error e := by
  show (r bytes >>= fun p => f p.1 p.2) = _
  cases r bytes with
  | ok p => rfl
  | error e => rfl

theorem pure_apply (a : α) (bytes : List UInt8) : (pure a : Reader ε α) bytes = .ok (a, bytes) := rfl

theorem throw_apply (e : ε) (bytes : List UInt8) : (throw e : Reader ε α) bytes = .error e := rfl

variable {r s : Reader ε α} {f : α → Reader ε β}

theorem bind_ok_iff {b : β} :
    (r >>= f) bytes = .ok (b, rest) ↔ ∃ a mid, r bytes = .ok (a, mid) ∧ f a mid = .ok (b, rest) := by
  rw [bind_apply]
  cases r bytes with
  | ok p =>
    obtain ⟨a, mid⟩ := p
    simp [and_assoc]
  | error e => simp

/-- The bytes are read as the value, whatever comes after them. -/
def Reads (r : Reader ε α) (bytes : List UInt8) (x : α) : Prop := ∀ rest, r (bytes ++ rest) = .ok (x, rest)

/-- What is read stood in front, as `write` puts it there. -/
def Faithful (r : Reader ε α) (write : α → List UInt8) : Prop :=
  ∀ bytes x rest, r bytes = .ok (x, rest) → bytes = write x ++ rest

theorem Reads.pure (x : α) : Reads (pure x : Reader ε α) [] x := fun _ => rfl

variable {a : α}

theorem Reads.bind {b : β} (hr : Reads r bytes a) (hf : Reads (f a) bytes' b) : Reads (r >>= f) (bytes ++ bytes') b := by
  intro rest
  rw [bind_apply, List.append_assoc, hr]
  exact hf rest

theorem Reads.bind_pure {b : β} (hr : Reads r bytes a) (hf : f a = Pure.pure b) : Reads (r >>= f) bytes b := by
  have hread := hr.bind (hf ▸ Reads.pure b)
  rwa [List.append_nil] at hread

theorem Reads.map (f : α → β) (hr : Reads r bytes a) :
    Reads (r >>= fun a => Pure.pure (f a)) bytes (f a) := hr.bind_pure rfl

/-- A check that the value passes. -/
theorem Reads.guard {c : Prop} [Decidable c] (hc : ¬ c) (hr : Reads r bytes a) :
    Reads (if c then s else r) bytes a := by
  rwa [if_neg hc]

def takeBytes (short : ε) (n : Nat) : Reader ε (List UInt8) := fun bytes =>
  if bytes.length < n then .error short else .ok (bytes.take n, bytes.drop n)

/-- A number of `w` bytes. -/
def readBe (short : ε) (w : Nat) : Reader ε Nat := do
  let bytes ← takeBytes short w
  return ofBeBytes bytes

theorem takeBytes_reads (short : ε) (h : bytes.length = n) : Reads (takeBytes short n) bytes bytes := by
  subst h
  intro rest
  simp [takeBytes]

theorem takeBytes_ok {short : ε} (h : takeBytes short n bytes = .ok (x, rest)) : bytes = x ++ rest ∧ x.length = n := by
  unfold takeBytes at h
  split at h
  · cases h
  · rename_i hlong
    cases h
    exact ⟨(List.take_append_drop n bytes).symm, List.length_take_of_le (Nat.le_of_not_lt hlong)⟩

theorem readBe_reads (short : ε) (h : n < 256 ^ w) : Reads (readBe short w) (beBytes w n) n := by
  have hread := (takeBytes_reads short (length_beBytes w n)).bind (f := fun bytes => Pure.pure (ofBeBytes bytes)) (Reads.pure _)
  rwa [List.append_nil, ofBeBytes_beBytes w n h] at hread

theorem readBe_ok {short : ε} (h : readBe short w bytes = .ok (n, rest)) :
    bytes = beBytes w n ++ rest ∧ n < 256 ^ w := by
  obtain ⟨x, mid, hx, hn⟩ := bind_ok_iff.mp h
  obtain ⟨rfl, rfl⟩ := takeBytes_ok hx
  cases hn
  exact ⟨by rw [beBytes_ofBeBytes], ofBeBytes_lt x⟩

section Loops

/-- The same program `n` times. -/
def readMany (r : Reader ε α) : Nat → Reader ε (List α)
  | 0 => pure []
  | n + 1 => do
    let x ← r
    let xs ← readMany r n
    return x :: xs

/-- `n` more elements after the ones at hand; one whose key is there already is refused. -/
def readDistinct [DecidableEq κ] (repeated : ε) (key : α → κ) (r : Reader ε α) : Nat → List α → Reader ε (List α)
  | 0, xs => pure xs
  | n + 1, xs => do
    let x ← r
    if key x ∈ xs.map key then throw repeated else readDistinct repeated key r n (xs ++ [x])

variable {r : Reader ε α} {write : α → List UInt8}
variable {xs : List α}

theorem readMany_reads (h : ∀ x ∈ xs, Reads r (write x) x) : Reads (readMany r xs.length) (xs.flatMap write) xs := by
  induction xs with
  | nil => exact Reads.pure []
  | cons x xs ih =>
    rw [List.flatMap_cons]
    refine (h x List.mem_cons_self).bind ?_
    have hrest := (ih fun y hy => h y (List.mem_cons_of_mem x hy)).bind (f := fun ys => Pure.pure (x :: ys)) (Reads.pure _)
    rwa [List.append_nil] at hrest

theorem readMany_ok (hr : Faithful r write)
    (h : readMany r n bytes = .ok (xs, rest)) : bytes = xs.flatMap write ++ rest ∧ xs.length = n := by
  induction n generalizing bytes xs with
  | zero =>
    cases h
    exact ⟨rfl, rfl⟩
  | succ n ih =>
    obtain ⟨x, mid, hx, h⟩ := bind_ok_iff.mp h
    obtain ⟨ys, mid', hys, h⟩ := bind_ok_iff.mp h
    cases h
    obtain ⟨rfl, rfl⟩ := ih hys
    rw [hr _ _ _ hx, List.flatMap_cons, List.append_assoc]
    exact ⟨rfl, rfl⟩

variable [DecidableEq κ] {repeated : ε} {key : α → κ}

theorem readDistinct_reads (h : ∀ x ∈ xs, Reads r (write x) x) (before : List α)
    (hnodup : ((before ++ xs).map key).Nodup) :
    Reads (readDistinct repeated key r xs.length before) (xs.flatMap write) (before ++ xs) := by
  induction xs generalizing before with
  | nil =>
    rw [List.append_nil]
    exact Reads.pure before
  | cons x xs ih =>
    have hsplit : before ++ x :: xs = (before ++ [x]) ++ xs := by simp
    have hfresh : key x ∉ before.map key := by
      intro hmem
      rw [List.map_append, List.map_cons] at hnodup
      exact List.disjoint_of_nodup_append hnodup hmem List.mem_cons_self
    rw [List.flatMap_cons]
    refine (h x List.mem_cons_self).bind ?_
    rw [if_neg hfresh, hsplit]
    rw [hsplit] at hnodup
    exact ih (fun y hy => h y (List.mem_cons_of_mem x hy)) (before ++ [x]) hnodup

end Loops

end Reader

end Xelis.Lib
