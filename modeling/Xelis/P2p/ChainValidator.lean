import Xelis.Blockchain.HeaderVerification

/-! The validator of the chain that a peer sends: its headers are checked before any block of the own chain is given up. -/

namespace Xelis.P2p

open Lib (Exec FiniteMap IndexMap IndexSet)
open Blockchain

variable {P : Type}

structure BlockData where
  header : BlockHeader
  difficulty : VarUint
  cumulativeDifficulty : Option VarUint
  p : VarUint

structure ChainValidator where
  blocks : IndexMap Hash BlockData
  blocksAtHeight : FiniteMap Nat (IndexSet Hash)
  startingTopoheight : TopoHeight

/-- What the order of the blocks decides: the base of some tips, and the work between a base and a block. -/
structure BaseSearch where
  findCommonBase : ChainValidator → List Hash → Except BlockchainError (Hash × Nat)
  findTipWorkScore : ChainValidator → Hash → Hash → Nat → Except BlockchainError VarUint

namespace ChainValidator

def new (startingTopoheight : TopoHeight) : ChainValidator := ⟨.empty, ∅, startingTopoheight⟩

/-- What the difficulty is computed from: the blocks of the validator come first, then the stored ones. -/
def provider (v : ChainValidator) (s : Storage P) : Storage P :=
  { s with
    blocks := v.blocks.laidOver (fun data => some data.header) s.blocks
    difficulty := v.blocks.laidOver (fun data => some data.difficulty) s.difficulty
    cumulativeDifficulty := v.blocks.laidOver BlockData.cumulativeDifficulty s.cumulativeDifficulty
    difficultyCovariance := v.blocks.laidOver (fun data => some data.p) s.difficultyCovariance }

/-- What is checked before a block is kept. Its timestamp is not looked at. -/
def verifyBlock (rules : HeaderRules) (search : BaseSearch) (s : Storage P) (hash : Hash) (header : BlockHeader)
    (v : ChainValidator) : Except BlockchainError (VarUint × VarUint × Hash × Nat) := do
  refuseIf ((v.blocks.get hash).isSome = true) .alreadyInChain
  refuseIf (s.hasBlockWithHash hash = true) .alreadyInChain
  let version := getVersionAtHeight rules.network header.height
  refuseIf (version ≠ header.version) .invalidBlockVersion
  let heightAtTips ← calculateHeightAtTips (v.provider s) header.tips
  refuseIf (heightAtTips ≠ header.height) (.invalidBlockHeight heightAtTips header.height)
  let tipsCount := header.tips.length
  refuseIf (tipsCount = 0 ∨ TIPS_LIMIT < tipsCount) (.invalidTipsCount hash tipsCount)
  header.tips.forM fun tip =>
    refuseIf ((v.blocks.get tip).isNone = true ∧ s.hasBlockWithHash tip = false) (.invalidTipsNotFound hash tip)
  let heightByTips ← calculateHeightAtTips (v.provider s) header.tips
  refuseIf (heightByTips ≠ header.height) (.invalidBlockHeight heightByTips header.height)
  let powHash ← header.getPowHash rules.xelis rules.blake3 (getPowAlgorithmForVersion version)
  let (difficulty, p) ← verifyProofOfWork rules (v.provider s) powHash header.tips
  let (base, baseHeight) ← search.findCommonBase v header.tips
  return (difficulty, p, base, baseHeight)

def push (v : ChainValidator) (hash : Hash) (header : BlockHeader) (difficulty p : VarUint) : ChainValidator :=
  let hashes := (v.blocksAtHeight[header.height]?).getD .empty
  { v with
    blocks := v.blocks.insert hash { header, difficulty, cumulativeDifficulty := none, p }
    blocksAtHeight := v.blocksAtHeight.insert header.height (hashes.insert hash) }

def setCumulativeDifficulty (v : ChainValidator) (hash : Hash) (header : BlockHeader) (difficulty p cumulativeDifficulty : VarUint) :
    ChainValidator :=
  { v with blocks := v.blocks.insert hash { header, difficulty, cumulativeDifficulty := some cumulativeDifficulty, p } }

/-- A block whose work cannot be computed stays in the validator without it. -/
def insertBlock (rules : HeaderRules) (search : BaseSearch) (s : Storage P) (hash : Hash) (header : BlockHeader) :
    Exec BlockchainError ChainValidator PUnit := do
  let (difficulty, p, base, baseHeight) ← Exec.ofExcept (verifyBlock rules search s hash header (← get))
  modify fun v => v.push hash header difficulty p
  let cumulativeDifficulty ← Exec.ofExcept (search.findTipWorkScore (← get) hash base baseHeight)
  modify fun v => v.setCumulativeDifficulty hash header difficulty p cumulativeDifficulty

section Provider

variable {v : ChainValidator} {s : Storage P} {hash : Hash}

theorem blocks_provider : (v.provider s).blocks[hash]? = ((v.blocks.get hash).map BlockData.header).or s.blocks[hash]? := by
  rw [provider, IndexMap.getElem?_laidOver]
  cases v.blocks.get hash <;> rfl

def Holds (v : ChainValidator) (s : Storage P) (hash : Hash) (header : BlockHeader) : Prop :=
  s.blocks[hash]? = some header ∨ ∃ data, v.blocks.get hash = some data ∧ data.header = header

variable {header other : BlockHeader}

theorem holds_of_provider (h : (v.provider s).blocks[hash]? = some header) : Holds v s hash header := by
  rw [blocks_provider] at h
  cases hget : v.blocks.get hash with
  | none =>
    rw [hget] at h
    exact .inl h
  | some data =>
    rw [hget] at h
    exact .inr ⟨data, hget, Option.some.inj h⟩

theorem refuseIf_except {ε : Type} {cond : Prop} [Decidable cond] {e : ε} (h : (refuseIf cond e : Except ε PUnit) = .ok ⟨⟩) :
    ¬cond := by
  intro hcond
  rw [refuseIf, if_pos hcond] at h
  cases h

theorem forM_except_mem {ε : Type} {tips : List Hash} {f : Hash → Except ε PUnit.{1}} (h : tips.forM f = .ok ⟨⟩) {tip : Hash}
    (htip : tip ∈ tips) : f tip = .ok ⟨⟩ := by
  induction tips with
  | nil => cases htip
  | cons first tips ih =>
    obtain ⟨⟨⟩, hfirst, hrest⟩ := Exec.except_bind_ok h
    rcases List.mem_cons.mp htip with rfl | htip
    · exact hfirst
    · exact ih hrest htip

variable {rules : HeaderRules} {search : BaseSearch}

theorem verifyBlock_ok {result : VarUint × VarUint × Hash × Nat}
    (h : verifyBlock rules search s hash header v = .ok result) : TipsStored (v.provider s) header.tips := by
  obtain ⟨⟨⟩, -, h⟩ := Exec.except_bind_ok h
  obtain ⟨⟨⟩, -, h⟩ := Exec.except_bind_ok h
  obtain ⟨⟨⟩, -, h⟩ := Exec.except_bind_ok h
  obtain ⟨height, -, h⟩ := Exec.except_bind_ok h
  obtain ⟨⟨⟩, -, h⟩ := Exec.except_bind_ok h
  obtain ⟨⟨⟩, -, h⟩ := Exec.except_bind_ok h
  obtain ⟨⟨⟩, htips, -⟩ := Exec.except_bind_ok h
  intro tip htip
  have hfound := refuseIf_except (forM_except_mem htips htip)
  rw [blocks_provider]
  cases hget : v.blocks.get tip with
  | some data => exact ⟨data.header, rfl⟩
  | none =>
    have hstored : s.hasBlockWithHash tip = true := by
      rw [hget] at hfound
      simpa using hfound
    rw [Storage.hasBlockWithHash, Std.ExtTreeMap.contains_eq_isSome_getElem?] at hstored
    exact Option.isSome_iff_exists.mp hstored

/-- What a call leaves behind: the blocks of before, and the new one when its tips are known. -/
theorem holds_insertBlock {key : Hash}
    (h : Holds (Exec.stateOf (insertBlock rules search s hash header v)) s key other) :
    Holds v s key other ∨ (key = hash ∧ other = header ∧ TipsStored (v.provider s) header.tips) := by
  have hinserted (w : ChainValidator) (data : BlockData) (hdata : data.header = header) (entries : FiniteMap Nat (IndexSet Hash))
      (hw : Holds { w with blocks := w.blocks.insert hash data, blocksAtHeight := entries } s key other) :
      Holds w s key other ∨ (key = hash ∧ other = header) := by
    rcases hw with hstored | ⟨data', hget, rfl⟩
    · exact .inl (.inl hstored)
    · dsimp only at hget
      rw [IndexMap.get_insert] at hget
      by_cases hkey : key = hash
      · rw [if_pos hkey] at hget
        exact .inr ⟨hkey, Option.some.inj hget ▸ hdata⟩
      · rw [if_neg hkey] at hget
        exact .inl (.inr ⟨data', hget, rfl⟩)
  unfold insertBlock at h
  rw [Exec.bind_apply, Exec.get_apply] at h
  dsimp only at h
  rw [Exec.bind_apply, Exec.ofExcept_apply] at h
  cases hverify : verifyBlock rules search s hash header v with
  | error e =>
    rw [hverify] at h
    exact .inl h
  | ok result =>
    have htips := verifyBlock_ok hverify
    obtain ⟨difficulty, p, base, baseHeight⟩ := result
    rw [hverify] at h
    dsimp only at h
    rw [Exec.bind_apply, Exec.modify_apply] at h
    dsimp only at h
    rw [Exec.bind_apply, Exec.get_apply] at h
    dsimp only at h
    rw [Exec.bind_apply, Exec.ofExcept_apply] at h
    cases hscore : search.findTipWorkScore (v.push hash header difficulty p) hash base baseHeight with
    | error e =>
      rw [hscore] at h
      rcases hinserted v _ rfl _ h with hbefore | ⟨hkey, hother⟩
      · exact .inl hbefore
      · exact .inr ⟨hkey, hother, htips⟩
    | ok cumulativeDifficulty =>
      rw [hscore] at h
      rcases hinserted (v.push hash header difficulty p) _ rfl _ h with hpushed | ⟨hkey, hother⟩
      · rcases hinserted v _ rfl _ hpushed with hbefore | ⟨hkey, hother⟩
        · exact .inl hbefore
        · exact .inr ⟨hkey, hother, htips⟩
      · exact .inr ⟨hkey, hother, htips⟩

end Provider

end ChainValidator

section Runs

/-- The stored chain and the validator of a chain that is synced. -/
structure SyncState (P : Type) where
  storage : Storage P
  validator : ChainValidator

inductive HeaderAction where
  | newBlock (header : BlockHeader)
  | removeBlocks
  | newValidator (startingTopoheight : TopoHeight)
  | insertBlock (header : BlockHeader)

/-- What may happen to the headers, in any order. The headers that are ever seen are `headers`, and a block comes with the hash of
its header. After its checks an accepted block is saved, and blocks that are pruned or rewound are gone; the rest of the storage may
change in any way. -/
inductive HeaderStep (rules : HeaderRules) (headers : Set BlockHeader) : SyncState P → HeaderAction → SyncState P → Prop where
  | newBlock {st : SyncState P} {storage : Storage P} {view : Blockchain.ChainView} {turns blockSize : Nat} {header : BlockHeader}
      {txs : List Transaction} {difficulty p : VarUint} (hmem : header ∈ headers)
      (hverified : verifyNewHeader rules view turns st.storage header (header.hash rules.blake3) blockSize () =
        .ok (difficulty, p) ())
      (hsaved : storage.blocks = (st.storage.saveBlock header txs difficulty p (header.hash rules.blake3)).blocks) :
      HeaderStep rules headers st (.newBlock header) { st with storage }
  | removeBlocks {st : SyncState P} {storage : Storage P}
      (hkept : ∀ (hash : Hash) (header : BlockHeader), storage.blocks[hash]? = some header → st.storage.blocks[hash]? = some header) :
      HeaderStep rules headers st .removeBlocks { st with storage }
  | newValidator {st : SyncState P} (startingTopoheight : TopoHeight) :
      HeaderStep rules headers st (.newValidator startingTopoheight) { st with validator := .new startingTopoheight }
  | insertBlock {st : SyncState P} {search : BaseSearch} {header : BlockHeader} (hmem : header ∈ headers) :
      HeaderStep rules headers st (.insertBlock header)
        { st with validator :=
            Exec.stateOf (ChainValidator.insertBlock rules search st.storage (header.hash rules.blake3) header st.validator) }

/-- The states reached from an empty chain by actions that meet a condition. -/
inductive HeadersReached (rules : HeaderRules) (headers : Set BlockHeader) (cond : SyncState P → HeaderAction → Prop) :
    SyncState P → Prop where
  | start {s : Storage P} (hempty : s.blocks = ∅) (startingTopoheight : TopoHeight) :
      HeadersReached rules headers cond ⟨s, .new startingTopoheight⟩
  | step {st st' : SyncState P} {action : HeaderAction} (hreached : HeadersReached rules headers cond st)
      (hstep : HeaderStep rules headers st action st') (hcond : cond st action) : HeadersReached rules headers cond st'

namespace SyncState

def provider (st : SyncState P) : Storage P := st.validator.provider st.storage

def Holds (st : SyncState P) (hash : Hash) (header : BlockHeader) : Prop := st.validator.Holds st.storage hash header

def AloneAtZero (st : SyncState P) (header : BlockHeader) : Prop :=
  header.timestamp = 0 → ∀ hash other, st.Holds hash other → other.timestamp = 0 → other = header

/-- The check that the validator leaves out: a block is not older than one of its tips. -/
def KeepsTime (st : SyncState P) : HeaderAction → Prop
  | .newBlock header => st.AloneAtZero header
  | .insertBlock header => (∀ tip ∈ header.tips, timestampOf st.provider tip ≤ header.timestamp) ∧ st.AloneAtZero header
  | _ => True

/-- In the stored chain and in the one of the validator, the solve time is never negative and the newest tip is always found. -/
structure TimesForward (rules : HeaderRules) (st : SyncState P) : Prop where
  storage : SolvesForward rules st.storage
  validator : SolvesForward rules st.provider
  storageNewest : FindsNewest st.storage
  validatorNewest : FindsNewest st.provider

end SyncState

variable {rules : HeaderRules} {headers : Set BlockHeader} {st st' : SyncState P} {hash : Hash} {header : BlockHeader}

def Later (rules : HeaderRules) (headers : Set BlockHeader) (header : BlockHeader) : Prop :=
  ∀ tip ∈ header.tips, ∀ parent ∈ headers, parent.hash rules.blake3 = tip → parent.timestamp ≤ header.timestamp

/-- The blocks that are held come from the headers under their own hash, in the order of their timestamps. -/
structure Ordered (rules : HeaderRules) (headers : Set BlockHeader) (st : SyncState P) : Prop where
  header : ∀ hash header, st.Holds hash header → header ∈ headers ∧ header.hash rules.blake3 = hash
  later : ∀ hash header, st.Holds hash header → Later rules headers header
  alone : ∀ hash hash' header header', st.Holds hash header → st.Holds hash' header' → header.timestamp = 0 →
    header'.timestamp = 0 → header = header'

theorem Ordered.mono (h : Ordered rules headers st) (hholds : ∀ hash header, st'.Holds hash header → st.Holds hash header) :
    Ordered rules headers st' where
  header hash header hheld := h.header hash header (hholds hash header hheld)
  later hash header hheld := h.later hash header (hholds hash header hheld)
  alone hash hash' header header' hheld hheld' := h.alone hash hash' header header' (hholds _ _ hheld) (hholds _ _ hheld')

theorem Ordered.extend (h : Ordered rules headers st) (hmem : header ∈ headers) (halone : st.AloneAtZero header)
    (hlater : (∃ hash, ¬st.Holds hash header ∧ st'.Holds hash header) → Later rules headers header)
    (hholds : ∀ hash other, st'.Holds hash other → st.Holds hash other ∨ (hash = header.hash rules.blake3 ∧ other = header)) :
    Ordered rules headers st' where
  header hash other hheld := by
    rcases hholds hash other hheld with hbefore | ⟨rfl, rfl⟩
    · exact h.header hash other hbefore
    · exact ⟨hmem, rfl⟩
  later hash other hheld := by
    rcases hholds hash other hheld with hbefore | ⟨rfl, rfl⟩
    · exact h.later hash other hbefore
    · by_cases hbefore : st.Holds (other.hash rules.blake3) other
      · exact h.later _ other hbefore
      · exact hlater ⟨_, hbefore, hheld⟩
  alone hash hash' other other' hheld hheld' hzero hzero' := by
    rcases hholds hash other hheld with hbefore | ⟨-, rfl⟩
    · rcases hholds hash' other' hheld' with hbefore' | ⟨-, rfl⟩
      · exact h.alone hash hash' other other' hbefore hbefore' hzero hzero'
      · exact halone hzero' hash other hbefore hzero
    · rcases hholds hash' other' hheld' with hbefore' | ⟨-, rfl⟩
      · exact (halone hzero hash' other' hbefore' hzero').symm
      · rfl

variable {s : Storage P}

theorem Later.of_known (hinjective : Set.InjOn (BlockHeader.hash rules.blake3) headers)
    (hheaders : ∀ tip parent, s.blocks[tip]? = some parent → parent ∈ headers ∧ parent.hash rules.blake3 = tip)
    (hstored : TipsStored s header.tips) (hle : ∀ tip ∈ header.tips, timestampOf s tip ≤ header.timestamp) :
    Later rules headers header := by
  intro tip htip parent hparent hhash
  obtain ⟨known, hknown⟩ := hstored tip htip
  obtain ⟨hmem, hsame⟩ := hheaders tip known hknown
  have heq : parent = known := hinjective hparent hmem (hhash.trans hsame.symm)
  rw [heq, ← timestampOf_eq hknown]
  exact hle tip htip

theorem HeaderStep.ordered (hinjective : Set.InjOn (BlockHeader.hash rules.blake3) headers) {action : HeaderAction}
    (h : Ordered rules headers st) (hstep : HeaderStep rules headers st action st') (hcond : st.KeepsTime action) :
    Ordered rules headers st' := by
  cases hstep with
  | @newBlock storage view turns blockSize header txs difficulty p hmem hverified hsaved =>
    have hnotOlder := verifyNewHeader_ok hverified
    have hstored : TipsStored st.storage header.tips := fun tip htip => ⟨_, (hnotOlder tip htip).choose_spec.1⟩
    refine h.extend hmem hcond (fun _ => Later.of_known hinjective (fun tip parent hparent => h.header tip parent (.inl hparent))
      hstored fun tip htip => ?_) fun hash other hheld => ?_
    · obtain ⟨parent, hparent, hle⟩ := hnotOlder tip htip
      exact (timestampOf_eq hparent).trans_le hle
    · rcases hheld with hblock | hkept
      · rw [hsaved] at hblock
        have hinsert : (st.storage.blocks.insert (header.hash rules.blake3) header)[hash]? = some other := hblock
        by_cases hkey : header.hash rules.blake3 = hash
        · subst hkey
          rw [FiniteMap.getElem?_insert_self'] at hinsert
          exact .inr ⟨rfl, (Option.some.inj hinsert).symm⟩
        · rw [FiniteMap.getElem?_insert_of_ne _ _ hkey] at hinsert
          exact .inl (.inl hinsert)
      · exact .inl (.inr hkept)
  | removeBlocks hkept => exact h.mono fun hash header hheld => hheld.imp (hkept hash header) id
  | newValidator startingTopoheight =>
    refine h.mono fun hash header hheld => ?_
    rcases hheld with hblock | ⟨data, hget, -⟩
    · exact .inl hblock
    · cases hget
  | @insertBlock search header hmem =>
    refine h.extend hmem hcond.2 (fun hnew => ?_) fun hash other hheld => ?_
    · obtain ⟨hash, hbefore, hheld⟩ := hnew
      have hstored := ((ChainValidator.holds_insertBlock hheld).resolve_left hbefore).2.2
      exact Later.of_known hinjective (fun tip parent hparent => h.header tip parent (ChainValidator.holds_of_provider hparent))
        hstored hcond.1
    · exact (ChainValidator.holds_insertBlock hheld).imp id fun hnew => ⟨hnew.1, hnew.2.1⟩

theorem HeadersReached.ordered (hinjective : Set.InjOn (BlockHeader.hash rules.blake3) headers)
    (hreached : HeadersReached rules headers SyncState.KeepsTime st) : Ordered rules headers st := by
  induction hreached with
  | @start s hempty startingTopoheight =>
    have hnothing (hash : Hash) (header : BlockHeader) : ¬SyncState.Holds ⟨s, .new startingTopoheight⟩ hash header := by
      rintro (hblock | ⟨data, hget, -⟩)
      · rw [hempty] at hblock
        cases hblock
      · cases hget
    exact ⟨fun hash header hheld => absurd hheld (hnothing hash header), fun hash header hheld => absurd hheld (hnothing hash header),
      fun hash _ header _ hheld => absurd hheld (hnothing hash header)⟩
  | step hreached hstep hcond ih => exact hstep.ordered hinjective ih hcond

theorem Ordered.tipsFirst (h : Ordered rules headers st)
    (hholds : ∀ hash header, s.blocks[hash]? = some header → st.Holds hash header) : TipsFirst s := by
  intro hash header hblock tip htip
  cases hparent : s.blocks[tip]? with
  | none =>
    rw [timestampOf, hparent]
    exact Nat.zero_le _
  | some parent =>
    obtain ⟨hmem, hhash⟩ := h.header tip parent (hholds tip parent hparent)
    rw [timestampOf_eq hparent]
    exact h.later hash header (hholds hash header hblock) tip htip parent hmem hhash

theorem Ordered.oneAtZero (h : Ordered rules headers st)
    (hholds : ∀ hash header, s.blocks[hash]? = some header → st.Holds hash header) : OneAtZero s := by
  intro hash hash' header header' hblock hblock' hzero hzero'
  have hheld := hholds hash header hblock
  have hheld' := hholds hash' header' hblock'
  have heq := h.alone hash hash' header header' hheld hheld' hzero hzero'
  exact (h.header hash header hheld).2.symm.trans (heq ▸ (h.header hash' header' hheld').2)

/-- As long as the validator is not given a block that is older than its tips, no solve time is negative. -/
theorem times_forward (hinjective : Set.InjOn (BlockHeader.hash rules.blake3) headers)
    (hreached : HeadersReached rules headers SyncState.KeepsTime st) : st.TimesForward rules := by
  have hordered := hreached.ordered hinjective
  have hstored (hash : Hash) (header : BlockHeader) (hblock : st.storage.blocks[hash]? = some header) : st.Holds hash header :=
    .inl hblock
  have hprovider (hash : Hash) (header : BlockHeader) (hblock : st.provider.blocks[hash]? = some header) : st.Holds hash header :=
    ChainValidator.holds_of_provider hblock
  exact ⟨(hordered.tipsFirst hstored).solvesForward rules, (hordered.tipsFirst hprovider).solvesForward rules,
    findsNewest_iff.mpr (hordered.oneAtZero hstored), findsNewest_iff.mpr (hordered.oneAtZero hprovider)⟩

end Runs

/-- A hash that is the timestamp of the header, and a proof of work that is always enough. -/
def timestampRules : HeaderRules where
  network := .testnet
  simulator := false
  skipPowVerification := false
  xelis := ⟨⟨Unit, (), fun _ pad => (.ok Hash.zero, pad)⟩, ⟨Unit, (), fun _ pad => (.ok Hash.zero, pad)⟩, .ok []⟩
  blake3 bytes := hashOfBytes ((bytes.drop 32).take 8)

def headerAt (timestamp : TimestampMillis) (height : Nat) (tips : List Hash) : BlockHeader where
  version := .v0
  tips := tips
  timestamp := timestamp
  height := height
  nonce := 0
  extraNonce := List.replicate 32 0
  miner := 0
  txsHashes := []

/-- The work of the blocks does not matter here. -/
def sampleSearch : BaseSearch := ⟨fun _ tips => .ok (tips.headD Hash.zero, 0), fun _ _ _ _ => .ok 1⟩

def genesisAtTen : BlockHeader := headerAt 10 0 []

def genesisStored : Storage Unit := Storage.saveBlock {} genesisAtTen [] 1 (getCovarianceP .v0) 10

def childAt (timestamp : TimestampMillis) : BlockHeader := headerAt timestamp 1 [10]

/-- The validator after it was given a block on top of the genesis. -/
def childInserted (timestamp : TimestampMillis) : SyncState Unit where
  storage := genesisStored
  validator := Exec.stateOf (ChainValidator.insertBlock timestampRules sampleSearch genesisStored
    ((childAt timestamp).hash timestampRules.blake3) (childAt timestamp) (.new 1))

theorem injOn_childAt {timestamp : TimestampMillis}
    (h : (childAt timestamp).hash timestampRules.blake3 ≠ genesisAtTen.hash timestampRules.blake3) :
    Set.InjOn (BlockHeader.hash timestampRules.blake3) {genesisAtTen, childAt timestamp} := by
  rintro a (rfl | rfl) b (rfl | rfl) heq
  · rfl
  · exact absurd heq.symm h
  · exact absurd heq h
  · rfl

theorem childInserted_reached {cond : SyncState Unit → HeaderAction → Prop} {timestamp : TimestampMillis}
    (hgenesis : cond ⟨{}, .new 1⟩ (.newBlock genesisAtTen))
    (hchild : cond ⟨genesisStored, .new 1⟩ (.insertBlock (childAt timestamp))) :
    HeadersReached timestampRules {genesisAtTen, childAt timestamp} cond (childInserted timestamp) := by
  have hverified : verifyNewHeader timestampRules ⟨10, 0, 0⟩ 1 ({} : Storage Unit) genesisAtTen
      (genesisAtTen.hash timestampRules.blake3) 0 () = .ok (1, getCovarianceP .v0) () := rfl
  have hhash : genesisAtTen.hash timestampRules.blake3 = 10 := by decide +kernel
  have hsaved : genesisStored.blocks = (Storage.saveBlock ({} : Storage Unit) genesisAtTen [] 1 (getCovarianceP .v0)
      (genesisAtTen.hash timestampRules.blake3)).blocks := by
    rw [hhash]
    rfl
  have hnew : HeaderStep timestampRules {genesisAtTen, childAt timestamp} ⟨{}, .new 1⟩ (.newBlock genesisAtTen)
      ⟨genesisStored, .new 1⟩ := .newBlock (.inl rfl) hverified hsaved
  have hinsert : HeaderStep timestampRules {genesisAtTen, childAt timestamp} ⟨genesisStored, .new 1⟩
      (.insertBlock (childAt timestamp)) (childInserted timestamp) := .insertBlock (.inr rfl)
  exact ((HeadersReached.start rfl 1).step hnew hgenesis).step hinsert hchild

/-- A header older than the genesis is taken, and the next one would be given a negative solve time. -/
theorem childInserted_backwards : ¬∀ (rules : HeaderRules) (headers : Set BlockHeader) (st : SyncState Unit),
    Set.InjOn (BlockHeader.hash rules.blake3) headers → HeadersReached rules headers (fun _ _ => True) st → st.TimesForward rules := by
  intro h
  have hforward := h timestampRules _ (childInserted 5) (injOn_childAt (by decide +kernel))
    (childInserted_reached trivial trivial)
  have hrequest : requestAtTips timestampRules (childInserted 5).provider [5] =
      .ok (.calculate 10 5 OTHER_MINIMUM_DIFFICULTY (getCovarianceP .v0) OTHER_MINIMUM_DIFFICULTY .v0) := by decide +kernel
  exact absurd (hforward.validator _ _ _ _ _ _ _ hrequest) (by decide)

/-- A header after the genesis keeps the times in order. -/
theorem childInserted_forward : (childInserted 12).TimesForward timestampRules := by
  have hinjective := @injOn_childAt 12 (by decide +kernel)
  refine times_forward hinjective (childInserted_reached ?_ ⟨?_, ?_⟩)
  · exact fun hzero => absurd hzero (by decide)
  · intro tip htip
    rw [List.mem_singleton.mp htip]
    decide +kernel
  · exact fun hzero => absurd hzero (by decide)

end Xelis.P2p
