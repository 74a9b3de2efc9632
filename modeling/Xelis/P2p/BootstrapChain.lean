import Xelis.P2p.BootstrapRequest

/-! A fast sync as a node goes through it: the requests that follow each other, and the arithmetic on the answers of the peer. -/

namespace Xelis.P2p

open Lib.Reader (bind_ok_iff)
open Xelis.Blockchain (Blockchain)
open Xelis.Storage (PRUNE_SAFETY_LIMIT)

/-- Where a fast sync is. -/
structure Bootstrap where
  ourTopoheight : TopoHeight
  stableTopoheight : TopoHeight := 0
  topTopoheight : TopoHeight := 0
  topHeight : Nat := 0
  topBlockHash : Option Hash := none
  deriving DecidableEq

/-- An answer of the peer, and what the node meets while it handles it. -/
structure Answer (P S R : Type) where
  response : StepResponse S R
  /-- The chain at that time: it may have grown since the sync started. -/
  chain : Blockchain P
  /-- What the removal of a number of blocks comes to. -/
  rewind : Nat → Except BlockchainError TopoHeight
  /-- What the writes and the further requests of the turn come to. -/
  rest : Except BootstrapError PUnit

section Source

variable {P S R : Type}

/-- How many blocks are to be removed down to the common point, or down to what is pruned. -/
def popCount (ourTopoheight : TopoHeight) (c : Blockchain P) (commonPoint : CommonPoint) : Except Stop Nat :=
  if commonPoint.topoheight ≤ prunedTopoheight c then subU64 ourTopoheight (prunedTopoheight c)
  else subU64 ourTopoheight commonPoint.topoheight

/-- The common point is checked, and the blocks above it are removed. -/
def rewindToCommonPoint (ourTopoheight : TopoHeight) (a : Answer P S R) (commonPoint : CommonPoint) : Except Stop TopoHeight := do
  let hashAtTopo ← fromStorage (a.chain.storage.getHashAtTopoHeight commonPoint.topoheight)
  if hashAtTopo ≠ commonPoint.hash then throw (.failed .unknown)
  let topBlockHash ← fromStorage a.chain.storage.getTopBlockHash
  if commonPoint.hash = topBlockHash then return ourTopoheight
  let popCount ← popCount ourTopoheight a.chain commonPoint
  fromStorage (a.rewind popCount)

def finishTurn (a : Answer P S R) : Except Stop PUnit := a.rest.mapError .failed

def blockTopoheights (lowestTopoheight : TopoHeight) (blocks : List BlockMetadata) : Except Stop (List TopoHeight) :=
  (List.range blocks.length).mapM (addU64 lowestTopoheight)

/-- One turn of the loop: the answer gives the next request. -/
def handleAnswer (b : Bootstrap) (a : Answer P S R) : Except Stop (Bootstrap × Option StepRequest) :=
  match a.response with
  | .chainInfo none _ _ _ => .error (.failed .unknown)
  | .chainInfo (some commonPoint) topoheight height hash => do
    let ourTopoheight ← rewindToCommonPoint b.ourTopoheight a commonPoint
    return ({ ourTopoheight, stableTopoheight := topoheight, topTopoheight := topoheight, topHeight := height, topBlockHash := some hash },
      some (.assets ourTopoheight topoheight none))
  | .assets _ nextPage => do
    finishTurn a
    if nextPage.isSome then return (b, some (.assets b.ourTopoheight b.stableTopoheight nextPage))
    return (b, some (.keys b.ourTopoheight b.stableTopoheight none))
  | .keys _ nextPage => do
    finishTurn a
    if nextPage.isSome then return (b, some (.keys b.ourTopoheight b.stableTopoheight nextPage))
    return (b, some (.contracts b.ourTopoheight b.stableTopoheight none))
  | .contracts _ page => do
    finishTurn a
    if page.isSome then return (b, some (.contracts b.ourTopoheight b.stableTopoheight page))
    return (b, some (.blocksMetadata b.stableTopoheight))
  | .blocksMetadata blocks => do
    if blocks.length ≠ PRUNE_SAFETY_LIMIT + 1 then throw (.failed .invalidPacket)
    let lowestTopoheight ← subU64 b.stableTopoheight PRUNE_SAFETY_LIMIT
    let _ ← blockTopoheights lowestTopoheight blocks
    finishTurn a
    return ({ b with topBlockHash := none }, none)
  | _ => .error (.failed .invalidPacket)

def bootstrapTurn (b : Bootstrap) (request : StepRequest) (a : Answer P S R) : Except Stop (Bootstrap × Option StepRequest) :=
  if a.response.kind ≠ request.kind then .error (.failed (.invalidBootstrapStep request.kind a.response.kind))
  else handleAnswer b a

/-- The loop over the answers, as far as they go. -/
def runBootstrap : Bootstrap → Option StepRequest → List (Answer P S R) → Except Stop (Bootstrap × Option StepRequest)
  | b, none, _ => .ok (b, none)
  | b, some request, [] => .ok (b, some request)
  | b, some request, a :: answers => do
    let (b, next) ← bootstrapTurn b request a
    runBootstrap b next answers

def bootstrapChain (turns : Nat) (c : Blockchain P) (answers : List (Answer P S R)) :
    Except Stop (Bootstrap × Option StepRequest) := do
  match ← fromStorage (buildListOfBlocksId c.storage c.topoheight turns) with
  | none => .error .spent
  | some blocks => runBootstrap { ourTopoheight := c.topoheight } (some (.chainInfo blocks)) answers

end Source

section Conditions

variable {P S R : Type}

def stopTopoheight (c : Blockchain P) (commonPoint : CommonPoint) : TopoHeight := max commonPoint.topoheight (prunedTopoheight c)

structure BelowTop (a : Answer P S R) (commonPoint : CommonPoint) : Prop where
  ours : a.chain.storage.getHashAtTopoHeight commonPoint.topoheight = .ok commonPoint.hash
  top : ∃ top, a.chain.storage.getTopBlockHash = .ok top ∧ commonPoint.hash ≠ top

/-- The blocks that the peer wants removed reach higher than the chain did when the sync started. -/
def Overtaken (ourTopoheight : TopoHeight) (a : Answer P S R) : Prop :=
  ∃ commonPoint topoheight height hash, a.response = .chainInfo (some commonPoint) topoheight height hash ∧
    BelowTop a commonPoint ∧ ourTopoheight < stopTopoheight a.chain commonPoint

/-- The common point is our top, or the blocks above it can be removed. -/
def Aligned (ourTopoheight : TopoHeight) (a : Answer P S R) (commonPoint : CommonPoint) : Prop :=
  (a.chain.storage.getHashAtTopoHeight commonPoint.topoheight = .ok commonPoint.hash ∧
    a.chain.storage.getTopBlockHash = .ok commonPoint.hash) ∨
  BelowTop a commonPoint ∧ stopTopoheight a.chain commonPoint ≤ ourTopoheight ∧
    ∃ topoheight, a.rewind (ourTopoheight - stopTopoheight a.chain commonPoint) = .ok topoheight

/-- The kind that is asked for behind the last page of one. -/
def StepKind.following : StepKind → StepKind
  | .assets => .keys
  | .keys => .contracts
  | _ => .blocksMetadata

/-- A page of a kind that is handled, and whether there is a next one. -/
def PageOf (kind : StepKind) (more : Bool) (a : Answer P S R) : Prop :=
  a.rest = .ok ⟨⟩ ∧ match kind, a.response with
    | .assets, .assets _ page => page.isSome = more
    | .keys, .keys _ page => page.isSome = more
    | .contracts, .contracts _ page => page.isSome = more
    | _, _ => False

/-- Pages that lead from a kind to the metadata of the blocks. -/
inductive Pages : StepKind → List (Answer P S R) → Prop where
  | done : Pages .blocksMetadata []
  | more {kind : StepKind} {a : Answer P S R} {pages : List (Answer P S R)} :
    PageOf kind true a → Pages kind pages → Pages kind (a :: pages)
  | last {kind : StepKind} {a : Answer P S R} {pages : List (Answer P S R)} :
    PageOf kind false a → Pages kind.following pages → Pages kind (a :: pages)

/-- The answers go through the pages up to the metadata of as many blocks as are expected. -/
def Completes (kind : StepKind) (answers : List (Answer P S R)) : Prop :=
  ∃ pages a later blocks, answers = pages ++ a :: later ∧ Pages kind pages ∧ a.response = .blocksMetadata blocks ∧
    blocks.length = PRUNE_SAFETY_LIMIT + 1

/-- The stable block of the peer is lower than the blocks it sends are many. -/
def TooYoung (ourTopoheight : TopoHeight) (a : Answer P S R) (answers : List (Answer P S R)) : Prop :=
  ∃ commonPoint topoheight height hash, a.response = .chainInfo (some commonPoint) topoheight height hash ∧
    Aligned ourTopoheight a commonPoint ∧ topoheight < PRUNE_SAFETY_LIMIT ∧ Completes .assets answers

/-- The answers that a fast sync can take without leaving the range. -/
def AnswersFit (turns : Nat) (c : Blockchain P) (answers : List (Answer P S R)) : Prop :=
  ∀ blocks a later, buildListOfBlocksId c.storage c.topoheight turns = .ok (some blocks) → answers = a :: later →
    ¬Overtaken c.topoheight a ∧ ¬TooYoung c.topoheight a later

end Conditions

section Rewind

variable {P S R : Type} {ourTopoheight : TopoHeight} {a : Answer P S R} {commonPoint : CommonPoint}

theorem popCount_eq (ourTopoheight : TopoHeight) (c : Blockchain P) (commonPoint : CommonPoint) :
    popCount ourTopoheight c commonPoint = subU64 ourTopoheight (stopTopoheight c commonPoint) := by
  unfold popCount stopTopoheight
  split
  · rw [Nat.max_eq_right ‹_›]
  · rw [Nat.max_eq_left (Nat.le_of_lt (Nat.not_le.mp ‹_›))]

theorem rewindToCommonPoint_below (h : BelowTop a commonPoint) : rewindToCommonPoint ourTopoheight a commonPoint =
    subU64 ourTopoheight (stopTopoheight a.chain commonPoint) >>= fun popCount => fromStorage (a.rewind popCount) := by
  obtain ⟨hours, top, htop, hne⟩ := h
  rw [← popCount_eq, rewindToCommonPoint, hours, htop]
  show (if commonPoint.hash ≠ commonPoint.hash then _ else if commonPoint.hash = top then _ else _) = _
  rw [if_neg (not_not.mpr rfl), if_neg hne]

theorem rewindToCommonPoint_not_below (ourTopoheight : TopoHeight) (h : ¬BelowTop a commonPoint) :
    (∃ e, rewindToCommonPoint ourTopoheight a commonPoint = .error (.failed e) ∧ ¬Aligned ourTopoheight a commonPoint) ∨
      rewindToCommonPoint ourTopoheight a commonPoint = .ok ourTopoheight ∧ Aligned ourTopoheight a commonPoint := by
  have haligned : Aligned ourTopoheight a commonPoint ↔
      a.chain.storage.getHashAtTopoHeight commonPoint.topoheight = .ok commonPoint.hash ∧
        a.chain.storage.getTopBlockHash = .ok commonPoint.hash := or_iff_left fun hbelow => h hbelow.1
  rw [haligned]
  unfold rewindToCommonPoint
  cases hhash : a.chain.storage.getHashAtTopoHeight commonPoint.topoheight with
  | error e => exact .inl ⟨_, rfl, nofun⟩
  | ok ours =>
    by_cases heq : ours = commonPoint.hash
    · subst heq
      cases htop : a.chain.storage.getTopBlockHash with
      | error e => exact .inl ⟨_, if_neg (not_not.mpr rfl), nofun⟩
      | ok top =>
        have hsame : commonPoint.hash = top := by
          by_contra hne
          exact h ⟨hhash, top, htop, hne⟩
        refine .inr ⟨?_, rfl, congrArg _ hsame.symm⟩
        show (if commonPoint.hash ≠ commonPoint.hash then _ else if commonPoint.hash = top then _ else _) = _
        rw [if_neg (not_not.mpr rfl), if_pos hsame]
        rfl
    · exact .inl ⟨_, if_pos heq, fun hours => heq (Except.ok.inj hours.1)⟩

theorem inRange_rewindToCommonPoint : InRange (rewindToCommonPoint ourTopoheight a commonPoint) ↔
    (BelowTop a commonPoint → stopTopoheight a.chain commonPoint ≤ ourTopoheight) := by
  by_cases h : BelowTop a commonPoint
  · rw [rewindToCommonPoint_below h, inRange_bind_iff, inRange_subU64, and_iff_left fun _ _ => inRange_fromStorage _, imp_iff_right h]
  · refine iff_of_true ?_ fun hbelow => absurd hbelow h
    rcases rewindToCommonPoint_not_below ourTopoheight h with ⟨e, heq, -⟩ | ⟨heq, -⟩
    · exact heq ▸ inRange_failed e
    · exact heq ▸ inRange_ok ourTopoheight

theorem rewindToCommonPoint_ok_iff :
    (∃ topoheight, rewindToCommonPoint ourTopoheight a commonPoint = .ok topoheight) ↔ Aligned ourTopoheight a commonPoint := by
  by_cases h : BelowTop a commonPoint
  · obtain ⟨hours, top, htop, hne⟩ := h
    have htops : ¬(a.chain.storage.getHashAtTopoHeight commonPoint.topoheight = .ok commonPoint.hash ∧
        a.chain.storage.getTopBlockHash = .ok commonPoint.hash) := fun hequal =>
      hne (Except.ok.inj (hequal.2.symm.trans htop))
    rw [Aligned, or_iff_right htops, rewindToCommonPoint_below ⟨hours, top, htop, hne⟩, subU64]
    by_cases hle : stopTopoheight a.chain commonPoint ≤ ourTopoheight
    · rw [if_pos hle]
      show (∃ topoheight, fromStorage (a.rewind _) = .ok topoheight) ↔ _
      cases a.rewind (ourTopoheight - stopTopoheight a.chain commonPoint) with
      | error e => exact iff_of_false nofun nofun
      | ok topoheight => exact iff_of_true ⟨topoheight, rfl⟩ ⟨⟨hours, top, htop, hne⟩, hle, topoheight, rfl⟩
    · rw [if_neg hle]
      exact iff_of_false nofun fun haligned => hle haligned.2.1
  · rcases rewindToCommonPoint_not_below ourTopoheight h with ⟨e, heq, hnot⟩ | ⟨heq, haligned⟩
    · exact iff_of_false (fun ⟨topoheight, hok⟩ => nomatch heq.symm.trans hok) hnot
    · exact iff_of_true ⟨ourTopoheight, heq⟩ haligned

end Rewind

section Turns

variable {P S R : Type} {b : Bootstrap} {request : StepRequest} {a : Answer P S R} {kind : StepKind} {more : Bool}

theorem PageOf.cases (h : PageOf kind more a) : a.rest = .ok ⟨⟩ ∧
    ((∃ assets page, kind = .assets ∧ a.response = .assets assets page ∧ page.isSome = more) ∨
      (∃ keys page, kind = .keys ∧ a.response = .keys keys page ∧ page.isSome = more) ∨
      ∃ contracts page, kind = .contracts ∧ a.response = .contracts contracts page ∧ page.isSome = more) := by
  obtain ⟨hrest, h⟩ := h
  refine ⟨hrest, ?_⟩
  split at h
  · exact .inl ⟨_, _, rfl, ‹_›, h⟩
  · exact .inr (.inl ⟨_, _, rfl, ‹_›, h⟩)
  · exact .inr (.inr ⟨_, _, rfl, ‹_›, h⟩)
  · exact h.elim

theorem PageOf.unique {more' : Bool} (h : PageOf kind more a) (h' : PageOf kind more' a) : more = more' := by
  obtain ⟨-, ⟨_, page, rfl, hresponse, rfl⟩ | ⟨_, page, rfl, hresponse, rfl⟩ | ⟨_, page, rfl, hresponse, rfl⟩⟩ := h.cases <;>
  · have h' := h'.2
    rw [hresponse] at h'
    exact h'

theorem bootstrapTurn_of_kind (h : a.response.kind = request.kind) : bootstrapTurn b request a = handleAnswer b a :=
  if_neg (not_not.mpr h)

theorem bootstrapTurn_of_other (h : a.response.kind ≠ request.kind) :
    bootstrapTurn b request a = .error (.failed (.invalidBootstrapStep request.kind a.response.kind)) := if_pos h

theorem bootstrapTurn_page (h : PageOf request.kind more a) : ∃ next, bootstrapTurn b request a = .ok (b, some next) ∧
    next.kind = if more then request.kind else request.kind.following := by
  obtain ⟨hrest, hpage⟩ := h.cases
  have hfinish : finishTurn a = .ok ⟨⟩ := by
    rw [finishTurn, hrest]
    rfl
  obtain ⟨_, page, hkind, hresponse, rfl⟩ | ⟨_, page, hkind, hresponse, rfl⟩ | ⟨_, page, hkind, hresponse, rfl⟩ := hpage <;>
  · have hsame : a.response.kind = request.kind := by
      rw [hresponse, hkind]
      rfl
    rw [bootstrapTurn_of_kind hsame, handleAnswer, hresponse, hkind, hfinish]
    cases page with
    | none => exact ⟨_, rfl, rfl⟩
    | some n => exact ⟨_, rfl, rfl⟩

theorem bootstrapTurn_not_page (hinfo : request.kind ≠ .chainInfo) (hblocks : request.kind ≠ .blocksMetadata)
    (h : ∀ more, ¬PageOf request.kind more a) : ∃ e, bootstrapTurn b request a = .error (.failed e) := by
  by_cases hsame : a.response.kind = request.kind
  · rw [bootstrapTurn_of_kind hsame]
    have hfails {kind : StepKind} (page : Option Nat) (hkind : request.kind = kind)
        (hpage : a.rest = .ok ⟨⟩ → PageOf kind page.isSome a) : ∃ e, finishTurn a = .error (.failed e) := by
      cases hrest : a.rest with
      | ok u => exact absurd (hkind ▸ hpage hrest) (h _)
      | error e => exact ⟨e, by rw [finishTurn, hrest]; rfl⟩
    unfold handleAnswer
    cases hresponse : a.response with
    | chainInfo commonPoint topoheight height hash =>
      rw [hresponse] at hsame
      exact absurd hsame.symm hinfo
    | blocksMetadata blocks =>
      rw [hresponse] at hsame
      exact absurd hsame.symm hblocks
    | assets assets page =>
      rw [hresponse] at hsame
      obtain ⟨e, he⟩ := hfails page hsame.symm fun hrest => ⟨hrest, by rw [hresponse]; exact Eq.refl page.isSome⟩
      exact ⟨e, by rw [he]; rfl⟩
    | keys keys page =>
      rw [hresponse] at hsame
      obtain ⟨e, he⟩ := hfails page hsame.symm fun hrest => ⟨hrest, by rw [hresponse]; exact Eq.refl page.isSome⟩
      exact ⟨e, by rw [he]; rfl⟩
    | contracts contracts page =>
      rw [hresponse] at hsame
      obtain ⟨e, he⟩ := hfails page hsame.symm fun hrest => ⟨hrest, by rw [hresponse]; exact Eq.refl page.isSome⟩
      exact ⟨e, by rw [he]; rfl⟩
    | _ => exact ⟨_, rfl⟩
  · exact ⟨_, bootstrapTurn_of_other hsame⟩

theorem inRange_finishTurn (a : Answer P S R) : InRange (finishTurn a) := by
  unfold finishTurn
  cases a.rest <;> exact nofun

theorem inRange_blockTopoheights {lowestTopoheight : TopoHeight} {blocks : List BlockMetadata}
    (h : lowestTopoheight + blocks.length ≤ U64_RANGE) : InRange (blockTopoheights lowestTopoheight blocks) := by
  refine inRange_mapM fun i hi => (inRange_addU64 _ _).mpr ?_
  have hlt := List.mem_range.mp hi
  exact Nat.lt_of_lt_of_le (Nat.add_lt_add_left hlt _) h

theorem inRange_bootstrapTurn_blocks (hkind : request.kind = .blocksMetadata) (hstable : b.stableTopoheight < U64_RANGE) :
    InRange (bootstrapTurn b request a) ↔
      ∀ blocks, a.response = .blocksMetadata blocks → blocks.length = PRUNE_SAFETY_LIMIT + 1 →
        PRUNE_SAFETY_LIMIT ≤ b.stableTopoheight := by
  by_cases hsame : a.response.kind = request.kind
  · obtain ⟨blocks, hresponse⟩ : ∃ blocks, a.response = .blocksMetadata blocks := by
      rw [hkind] at hsame
      cases hresponse : a.response with
      | blocksMetadata blocks => exact ⟨blocks, rfl⟩
      | _ =>
        rw [hresponse] at hsame
        cases hsame
    rw [bootstrapTurn_of_kind hsame, handleAnswer, hresponse]
    dsimp only
    by_cases hcount : blocks.length = PRUNE_SAFETY_LIMIT + 1
    · rw [if_neg (not_not.mpr hcount), inRange_bind_iff, inRange_subU64]
      constructor
      · exact fun h _ _ _ => h.1
      · intro h
        refine ⟨h blocks rfl hcount, fun lowest hlowest => ?_⟩
        have hle := h blocks rfl hcount
        rw [subU64, if_pos hle] at hlowest
        cases hlowest
        refine inRange_bind_iff.mpr ⟨inRange_blockTopoheights ?_, fun _ _ => ?_⟩
        · rw [hcount, ← Nat.add_assoc, Nat.sub_add_cancel hle]
          exact hstable
        · exact inRange_bind_iff.mpr ⟨inRange_finishTurn a, fun _ _ => inRange_pure _⟩
    · rw [if_pos hcount]
      refine iff_of_true (inRange_failed _) fun other hother hlength => ?_
      cases hother
      exact absurd hlength hcount
  · rw [bootstrapTurn_of_other hsame]
    refine iff_of_true (inRange_failed _) fun blocks hresponse => ?_
    rw [hresponse, hkind] at hsame
    exact absurd rfl hsame

theorem bootstrapTurn_blocks_last {b' : Bootstrap} {next : Option StepRequest} (hkind : request.kind = .blocksMetadata)
    (h : bootstrapTurn b request a = .ok (b', next)) : next = none := by
  by_cases hsame : a.response.kind = request.kind
  · rw [bootstrapTurn_of_kind hsame, handleAnswer] at h
    rw [hkind] at hsame
    cases hresponse : a.response with
    | blocksMetadata blocks =>
      rw [hresponse] at h
      dsimp only at h
      split at h
      · cases h
      · obtain ⟨lowest, -, h⟩ := Lib.Exec.except_bind_ok h
        obtain ⟨topoheights, -, h⟩ := Lib.Exec.except_bind_ok h
        obtain ⟨⟨⟩, -, h⟩ := Lib.Exec.except_bind_ok h
        cases h
        rfl
    | _ =>
      rw [hresponse] at hsame
      cases hsame
  · rw [bootstrapTurn_of_other hsame] at h
    cases h

end Turns

section Runs

variable {P S R : Type} {kind : StepKind} {more : Bool} {a : Answer P S R} {answers : List (Answer P S R)}

theorem not_completes_nil : ¬Completes kind ([] : List (Answer P S R)) := by
  rintro ⟨pages, a, later, blocks, hanswers, -⟩
  cases pages <;> cases hanswers

theorem completes_page (h : PageOf kind more a) :
    Completes kind (a :: answers) ↔ Completes (if more then kind else kind.following) answers := by
  constructor
  · rintro ⟨pages, last, later, blocks, hanswers, hpages, hlast⟩
    cases hpages with
    | done => exact h.2.elim
    | more hpage hrest =>
      cases hanswers
      cases hpage.unique h
      exact ⟨_, last, later, blocks, rfl, hrest, hlast⟩
    | last hpage hrest =>
      cases hanswers
      cases hpage.unique h
      exact ⟨_, last, later, blocks, rfl, hrest, hlast⟩
  · rintro ⟨pages, last, later, blocks, rfl, hpages, hlast⟩
    refine ⟨a :: pages, last, later, blocks, rfl, ?_, hlast⟩
    cases more with
    | true => exact .more h hpages
    | false => exact .last h hpages

theorem not_completes (hblocks : kind ≠ .blocksMetadata) (h : ∀ more, ¬PageOf kind more a) : ¬Completes kind (a :: answers) := by
  rintro ⟨pages, last, later, blocks, hanswers, hpages, -⟩
  cases hpages with
  | done => exact hblocks rfl
  | more hpage _ =>
    cases hanswers
    exact h true hpage
  | last hpage _ =>
    cases hanswers
    exact h false hpage

theorem completes_blocksMetadata : Completes .blocksMetadata (a :: answers) ↔
    ∃ blocks, a.response = .blocksMetadata blocks ∧ blocks.length = PRUNE_SAFETY_LIMIT + 1 := by
  constructor
  · rintro ⟨pages, last, later, blocks, hanswers, hpages, hlast⟩
    cases hpages with
    | done =>
      cases hanswers
      exact ⟨blocks, hlast⟩
    | more hpage _ => exact hpage.2.elim
    | last hpage _ => exact hpage.2.elim
  · rintro ⟨blocks, hlast⟩
    exact ⟨[], a, answers, blocks, rfl, .done, hlast⟩

theorem StepKind.following_ne_chainInfo (kind : StepKind) : kind.following ≠ .chainInfo := by
  cases kind <;> exact nofun

theorem inRange_runBootstrap {b : Bootstrap} {request : StepRequest} (hstable : b.stableTopoheight < U64_RANGE)
    (hinfo : request.kind ≠ .chainInfo) :
    InRange (runBootstrap b (some request) answers) ↔
      (Completes request.kind answers → PRUNE_SAFETY_LIMIT ≤ b.stableTopoheight) := by
  induction answers generalizing request with
  | nil => exact iff_of_true (inRange_ok _) fun h => absurd h not_completes_nil
  | cons a answers ih =>
    rw [runBootstrap]
    by_cases hblocks : request.kind = .blocksMetadata
    · rw [inRange_bind_iff, inRange_bootstrapTurn_blocks hblocks hstable, hblocks, completes_blocksMetadata]
      rw [and_iff_left]
      · exact ⟨fun h ⟨blocks, hresponse, hcount⟩ => h blocks hresponse hcount,
          fun h blocks hresponse hcount => h ⟨blocks, hresponse, hcount⟩⟩
      · rintro ⟨b', next⟩ hturn
        cases bootstrapTurn_blocks_last hblocks hturn
        dsimp only
        rw [runBootstrap]
        exact inRange_ok _
    · by_cases hpage : ∃ more, PageOf request.kind more a
      · obtain ⟨more, hpage⟩ := hpage
        obtain ⟨next, hturn, hnext⟩ := bootstrapTurn_page (b := b) hpage
        rw [hturn, completes_page hpage, ← hnext]
        refine ih ?_
        rw [hnext]
        cases more with
        | true => exact hinfo
        | false => exact StepKind.following_ne_chainInfo _
      · rw [not_exists] at hpage
        obtain ⟨e, hturn⟩ := bootstrapTurn_not_page (b := b) hinfo hblocks hpage
        rw [hturn]
        exact iff_of_true (inRange_failed e) fun h => absurd h (not_completes hblocks hpage)

theorem inRange_runBootstrap_start {ourTopoheight : TopoHeight} {blocks : List BlockId}
    (hfits : ∀ commonPoint topoheight height hash, a.response = .chainInfo commonPoint topoheight height hash → topoheight < U64_RANGE) :
    InRange (runBootstrap { ourTopoheight } (some (.chainInfo blocks)) (a :: answers)) ↔
      ¬Overtaken ourTopoheight a ∧ ¬TooYoung ourTopoheight a answers := by
  have hrefused {e : BootstrapError} (hturn : bootstrapTurn { ourTopoheight } (.chainInfo blocks) a = .error (.failed e))
      (hresponse : ∀ commonPoint topoheight height hash, a.response ≠ .chainInfo (some commonPoint) topoheight height hash) :
      InRange (runBootstrap { ourTopoheight } (some (.chainInfo blocks)) (a :: answers)) ↔
        ¬Overtaken ourTopoheight a ∧ ¬TooYoung ourTopoheight a answers := by
    rw [runBootstrap, hturn]
    refine iff_of_true (inRange_failed e) ⟨?_, ?_⟩
    · rintro ⟨commonPoint, topoheight, height, hash, hinfo, -⟩
      exact hresponse _ _ _ _ hinfo
    · rintro ⟨commonPoint, topoheight, height, hash, hinfo, -⟩
      exact hresponse _ _ _ _ hinfo
  by_cases hsame : a.response.kind = .chainInfo
  · have hturn : bootstrapTurn { ourTopoheight } (.chainInfo blocks) a = handleAnswer { ourTopoheight } a := bootstrapTurn_of_kind hsame
    cases hresponse : a.response with
    | chainInfo commonPoint topoheight height hash =>
      cases commonPoint with
      | none =>
        refine hrefused (e := .unknown) ?_ fun _ _ _ _ heq => by rw [hresponse] at heq; cases heq
        rw [hturn, handleAnswer, hresponse]
      | some commonPoint =>
        let after (t : TopoHeight) : Bootstrap :=
          { ourTopoheight := t, stableTopoheight := topoheight, topTopoheight := topoheight, topHeight := height, topBlockHash := some hash }
        have hrun (t : TopoHeight) : InRange (runBootstrap (after t) (some (.assets t topoheight none)) answers) ↔
            (Completes .assets answers → PRUNE_SAFETY_LIMIT ≤ topoheight) :=
          inRange_runBootstrap (hfits _ _ _ _ hresponse) nofun
        have hbind : runBootstrap { ourTopoheight } (some (.chainInfo blocks)) (a :: answers) =
            rewindToCommonPoint ourTopoheight a commonPoint >>= fun t =>
              runBootstrap (after t) (some (.assets t topoheight none)) answers := by
          rw [runBootstrap, hturn, handleAnswer, hresponse]
          dsimp only
          cases rewindToCommonPoint ourTopoheight a commonPoint with
          | error e => rfl
          | ok t => rfl
        rw [hbind, inRange_bind_iff, inRange_rewindToCommonPoint]
        refine and_congr ⟨?_, fun h hbelow => ?_⟩ ⟨?_, fun h t ht => (hrun t).mpr fun hcompletes => ?_⟩
        · rintro h ⟨_, _, _, _, hinfo, hbelow, hlt⟩
          cases hresponse.symm.trans hinfo
          exact Nat.not_lt.mpr (h hbelow) hlt
        · exact Nat.not_lt.mp fun hlt => h ⟨commonPoint, topoheight, height, hash, hresponse, hbelow, hlt⟩
        · rintro h ⟨_, _, _, _, hinfo, haligned, hlow, hcompletes⟩
          cases hresponse.symm.trans hinfo
          obtain ⟨t, ht⟩ := rewindToCommonPoint_ok_iff.mpr haligned
          exact Nat.not_le.mpr hlow ((hrun t).mp (h t ht) hcompletes)
        · exact Nat.not_lt.mp fun hlow =>
            h ⟨commonPoint, topoheight, height, hash, hresponse, rewindToCommonPoint_ok_iff.mp ⟨t, ht⟩, hlow, hcompletes⟩
    | _ =>
      rw [hresponse] at hsame
      cases hsame
  · exact hrefused (bootstrapTurn_of_other hsame) fun _ _ _ _ heq => hsame (by rw [heq]; rfl)

end Runs

section Results

variable {P S R : Type}

variable [Wire.CurveScalar S] [Wire.RangeProof R] (context : Wire.Context S R)

/-- What can be decoded of the bytes of a peer. -/
def Received (response : StepResponse S R) : Prop := ∃ bytes rest, StepResponse.read context bytes = .ok (response, rest)

variable {context}

theorem Received.topoheight_lt {commonPoint : Option CommonPoint} {topoheight height : Nat} {hash : Hash}
    (h : Received context (.chainInfo commonPoint topoheight height hash)) : topoheight < U64_RANGE := by
  obtain ⟨bytes, rest, h⟩ := h
  obtain ⟨tag, mid, -, h⟩ := bind_ok_iff.mp h
  split at h
  case h_1 =>
    obtain ⟨_, _, -, h⟩ := bind_ok_iff.mp h
    obtain ⟨n, _, hn, h⟩ := bind_ok_iff.mp h
    obtain ⟨_, _, -, h⟩ := bind_ok_iff.mp h
    obtain ⟨_, _, -, h⟩ := bind_ok_iff.mp h
    cases h
    exact (readU64_ok hn).2
  all_goals
    -- the other tags end in another constructor
    simp only [bind_ok_iff, Lib.Reader.pure_apply, Lib.Reader.throw_apply, Except.ok.injEq, Prod.mk.injEq, reduceCtorEq,
      false_and, and_false, exists_false] at h

variable (context)

/-- The answers of a node stay in range exactly for the requests that fit, and a fast sync does exactly for the answers that do. -/
theorem bootstrap_arithmetic :
    (∀ (turns : Nat) (c : Blockchain P) bytes rest request, StepRequest.read bytes = .ok (request, rest) →
      (InRange (handleBootstrapChainRequest turns c request) ↔ request.Fits c)) ∧
    ∀ (turns : Nat) (c : Blockchain P) (answers : List (Answer P S R)), (∀ a ∈ answers, Received context a.response) →
      (InRange (bootstrapChain turns c answers) ↔ AnswersFit turns c answers) := by
  refine ⟨fun turns c bytes rest request hread => ?_, fun turns c answers hreceived => ?_⟩
  · refine inRange_handleBootstrapChainRequest fun t ht => ?_
    subst ht
    exact StepRequest.read_blocksMetadata hread
  · unfold bootstrapChain AnswersFit
    rw [inRange_bind_iff, and_iff_right (inRange_fromStorage _)]
    cases buildListOfBlocksId c.storage c.topoheight turns with
    | error e => exact iff_of_true (fun _ hlist => nomatch hlist) fun _ _ _ hblocks => nomatch hblocks
    | ok built =>
      cases built with
      | none =>
        refine iff_of_true (fun list hlist => ?_) fun _ _ _ hblocks => nomatch hblocks
        cases hlist
        exact nofun
      | some blocks =>
        cases answers with
        | nil =>
          refine iff_of_true (fun list hlist => ?_) fun _ _ _ _ hanswers => nomatch hanswers
          cases hlist
          exact inRange_ok _
        | cons a later =>
          have hstart := @inRange_runBootstrap_start P S R a later c.topoheight blocks
            fun commonPoint topoheight height hash heq => (heq ▸ hreceived a List.mem_cons_self).topoheight_lt
          constructor
          · intro h blocks' a' later' hblocks hanswers
            cases hanswers
            exact hstart.mp (h _ rfl)
          · intro h list hlist
            cases hlist
            exact hstart.mpr (h blocks a later rfl rfl)

end Results

/-- A chain of three blocks, as far as it goes. -/
def chainOf (topoheight : TopoHeight) : Blockchain Unit where
  storage := { orderedStorage none [⟨7#256, 0⟩, ⟨8#256, 1⟩, ⟨9#256, 2⟩] with topTopoheight := some topoheight }
  topoheight
  stableTopoheight := topoheight

def emptyBlock (i : Nat) : BlockMetadata where
  hash := BitVec.ofNat 256 i
  supply := 0
  burnedSupply := 0
  reward := 0
  difficulty := 1
  cumulativeDifficulty := 1
  p := 1
  executedTransactions := []

/-- As many blocks as are expected. -/
def emptyBlocks : List BlockMetadata := (List.range (PRUNE_SAFETY_LIMIT + 1)).map emptyBlock

def answer (chain : Blockchain Unit) (response : StepResponse (Fin Wire.GROUP_ORDER) IVec) :
    Answer Unit (Fin Wire.GROUP_ORDER) IVec where
  response
  chain
  rewind _ := .ok 0
  rest := .ok ⟨⟩

/-- A whole fast sync to a peer without accounts, from the genesis. -/
def syncResponses (stableTopoheight : TopoHeight) : List (StepResponse (Fin Wire.GROUP_ORDER) IVec) :=
  [.chainInfo (some ⟨7#256, 0⟩) stableTopoheight stableTopoheight 11#256, .assets [] none, .keys [] none, .contracts [] none,
    .blocksMetadata emptyBlocks]

def syncAnswers (stableTopoheight : TopoHeight) : List (Answer Unit (Fin Wire.GROUP_ORDER) IVec) :=
  (syncResponses stableTopoheight).map (answer (chainOf 0))

noncomputable def anyContext : Wire.Context (Fin Wire.GROUP_ORDER) IVec where
  version := .v2
  order := Wire.anyOrder
  same _ _ := false

theorem Received.of_valid {response : StepResponse (Fin Wire.GROUP_ORDER) IVec} (h : response.Valid anyContext) :
    Received anyContext response := ⟨response.write, [], (StepResponse.packed anyContext h).1⟩

theorem syncAnswers_received {stableTopoheight : TopoHeight} (h : stableTopoheight < U64_RANGE) :
    ∀ a ∈ syncAnswers stableTopoheight, Received anyContext a.response := by
  have hpage : StepRequest.PageValid none := nofun
  have hblocks : ∀ block ∈ emptyBlocks, block.Valid := by
    intro block hmem
    obtain ⟨i, -, rfl⟩ := List.mem_map.mp hmem
    have hzero : 0 < U64_RANGE := by decide
    have hone : 1 < 2 ^ 256 := by decide
    exact ⟨hzero, hzero, hzero, hone, hone, hone, Nat.two_pow_pos 16, List.nodup_nil⟩
  intro a ha
  simp only [syncAnswers, syncResponses, List.map_cons, List.map_nil, List.mem_cons, List.not_mem_nil, or_false] at ha
  obtain rfl | rfl | rfl | rfl | rfl := ha
  · refine Received.of_valid ⟨fun point hpoint => ?_, h, h⟩
    cases hpoint
    decide
  · exact Received.of_valid ⟨⟨by decide, List.nodup_nil, nofun⟩, hpage⟩
  · exact Received.of_valid ⟨⟨by decide, List.nodup_nil⟩, hpage⟩
  · exact Received.of_valid ⟨⟨by decide, List.nodup_nil⟩, hpage⟩
  · exact Received.of_valid ⟨by decide, by decide +kernel, hblocks⟩

/-- A young chain is asked for its blocks and for a page far behind all others, a sync goes to a young peer, and one meets a
common point above the block it started from. -/
theorem bootstrap_arithmetic_fails :
    (StepRequest.read (StepRequest.blocksMetadata 1).write = .ok (.blocksMetadata 1, []) ∧
      handleBootstrapChainRequest 0 (chainOf 1) (.blocksMetadata 1) = .error .arithmeticOverflow) ∧
    (StepRequest.read (StepRequest.assets 0 1 (some (2 ^ 54))).write = .ok (.assets 0 1 (some (2 ^ 54)), []) ∧
      handleBootstrapChainRequest 0 (chainOf 1) (.assets 0 1 (some (2 ^ 54))) = .error .arithmeticOverflow) ∧
    ((∀ a ∈ syncAnswers 5, Received anyContext a.response) ∧
      bootstrapChain 1 (chainOf 0) (syncAnswers 5) = .error .arithmeticOverflow) ∧
    bootstrapChain 1 (chainOf 0) [answer (chainOf 2) (.chainInfo (some ⟨8#256, 1⟩) 90 90 11#256)] = .error .arithmeticOverflow :=
  ⟨⟨by decide +kernel, rfl⟩, ⟨by decide +kernel, rfl⟩, ⟨syncAnswers_received (by decide), by decide +kernel⟩, by decide +kernel⟩

/-- A page in the middle is served in range, and so is a sync to an older peer. -/
theorem bootstrap_arithmetic_old : InRange (handleBootstrapChainRequest 0 (chainOf 1) (.assets 0 1 (some 3))) ∧
    InRange (bootstrapChain 1 (chainOf 0) (syncAnswers 90)) := by
  have hread : StepRequest.read (StepRequest.assets 0 1 (some 3)).write = .ok (.assets 0 1 (some 3), []) := by decide +kernel
  refine ⟨((bootstrap_arithmetic anyContext).1 0 (chainOf 1) _ _ _ hread).mpr fun _ _ => by decide, ?_⟩
  refine ((bootstrap_arithmetic anyContext).2 1 (chainOf 0) _ (syncAnswers_received (by decide))).mpr ?_
  intro blocks a later _ hanswers
  cases hanswers
  refine ⟨?_, ?_⟩
  · rintro ⟨commonPoint, topoheight, height, hash, hinfo, ⟨-, top, htop, hne⟩, -⟩
    cases hinfo
    have hours : (chainOf 0).storage.getTopBlockHash = .ok 7#256 := by decide +kernel
    exact hne (Except.ok.inj (hours.symm.trans htop))
  · rintro ⟨commonPoint, topoheight, height, hash, hinfo, -, hlow, -⟩
    cases hinfo
    exact absurd hlow (by decide)

end Xelis.P2p
