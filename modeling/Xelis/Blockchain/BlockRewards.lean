import Xelis.Blockchain.Emission
import Xelis.Blockchain.Insertion

namespace Xelis.Blockchain

open Lib (Exec FiniteMap)
open Storage (SameOrder)
open State State.ApplicableChainState

variable {P : Type}
variable {a b c s s' : Storage P} {hash txHash other : Hash} {block : Block}
  {blockReward pastBurnedSupply m q count pastSupply reward : Nat} {o o' : Ordering P}

section Frames

structure KeepsRewards (s s' : Storage P) : Prop where
  order : SameOrder s s'
  blocksAtHeight : s'.blocksAtHeight = s.blocksAtHeight
  supply : s'.supply = s.supply
  rewards : s'.rewards = s.rewards

theorem KeepsRewards.refl (s : Storage P) : KeepsRewards s s := ⟨⟨rfl, rfl, rfl⟩, rfl, rfl, rfl⟩

theorem KeepsRewards.trans (hab : KeepsRewards a b) (hbc : KeepsRewards b c) : KeepsRewards a c :=
  ⟨hab.order.trans hbc.order, hbc.blocksAtHeight.trans hab.blocksAtHeight, hbc.supply.trans hab.supply,
    hbc.rewards.trans hab.rewards⟩

theorem KeepsRewards.of_eq (h : s' = s) : KeepsRewards s s' := h ▸ .refl s

theorem KeepsRewards.of_onlyVersioned (h : Storage.OnlyVersioned s s') : KeepsRewards s s' := by
  obtain ⟨_, _, _, _, _, _, _, _, _, rfl⟩ := h
  exact ⟨⟨rfl, rfl, rfl⟩, rfl, rfl, rfl⟩

theorem keepsRewards_linked (s : Storage P) (txHash hash : Hash) : KeepsRewards s (s.addBlockLinkedToTxIfNotPresent txHash hash) := by
  obtain ⟨_, hlinked⟩ := s.addBlockLinkedToTxIfNotPresent_eq txHash hash
  rw [hlinked]
  exact ⟨⟨rfl, rfl, rfl⟩, rfl, rfl, rfl⟩

theorem Steps.keepsRewards {kinds : List WriteKind} {s s' : ApplicableChainState P} (h : Steps kinds s s') :
    KeepsRewards s.inner.storage s'.inner.storage := by
  unfold Steps at h
  induction h with
  | refl => exact .refl _
  | tail _ hstep ih =>
    refine ih.trans ?_
    cases hstep with
    | _ => exact ⟨⟨rfl, rfl, rfl⟩, rfl, rfl, rfl⟩

variable [RistrettoPoint P]

theorem executeTransaction_keepsRewards (env : Env P) (hash : Hash) (tx : Transaction) (txHash : Hash) :
    Exec.Moves (fun run run' : BlockRun P => KeepsRewards run.storage run'.storage) (executeTransaction env hash tx txHash) := by
  intro run
  have hlink : KeepsRewards run.storage (run.link txHash hash).storage := keepsRewards_linked _ _ _
  refine hlink.trans ?_
  unfold executeTransaction
  dsimp only
  generalize run.link txHash hash = run
  split
  · exact .refl _
  · split
    · exact .refl _
    · exact .refl _
    · have hframed := (Transaction.applyWithPartialVerify_footprint env tx txHash run.chainState).framed
      split
      · rename_i e chainState happly
        rw [happly] at hframed
        exact .of_eq hframed.storage
      · rename_i chainState happly
        rw [happly] at hframed
        have hkept : KeepsRewards run.storage chainState.inner.storage := .of_eq hframed.storage
        split
        · exact hkept
        · rw [ChainState.internalUpdateAccountNonce_eq]
          cases chainState.inner.findAccount tx.source with
          | error e => exact hkept
          | ok account => exact hkept.trans ⟨⟨rfl, rfl, rfl⟩, rfl, rfl, rfl⟩

theorem executeBlock_keepsRewards (env : Env P) (devPublicKey : PublicKey) (hash : Hash) (block : Block) (blockReward : Nat) :
    Exec.Moves (fun run run' : BlockRun P => KeepsRewards run.storage run'.storage)
      (executeBlock env devPublicKey hash block blockReward) := by
  have htrans : ∀ a b c : BlockRun P, KeepsRewards a.storage b.storage → KeepsRewards b.storage c.storage →
      KeepsRewards a.storage c.storage := fun _ _ _ => KeepsRewards.trans
  have hfinish : ∀ totalFees, Exec.Moves (fun s s' : ApplicableChainState P => KeepsRewards s.inner.storage s'.inner.storage)
      (finishBlock env devPublicKey block.header.miner block.header.height blockReward totalFees) := fun totalFees =>
    .bind (fun _ _ _ => KeepsRewards.trans) (fun s => Steps.keepsRewards (rewardBlock_steps _ _ _ _ _ s)) fun _ s =>
      Steps.keepsRewards (applyChanges_steps env s)
  refine .bind htrans (.forM (fun _ => .refl _) htrans _ fun e _ => executeTransaction_keepsRewards env hash e.1 e.2) fun _ => ?_
  refine .bind htrans (fun run => .refl _) fun before run => ?_
  have hmoves := hfinish before.totalFees run.chainState
  unfold onChainState
  cases hrun : finishBlock env devPublicKey block.header.miner block.header.height blockReward before.totalFees run.chainState with
  | ok _ chainState =>
    rw [hrun] at hmoves
    exact hmoves
  | error e chainState =>
    rw [hrun] at hmoves
    exact hmoves

theorem runBlock_keepsRewards {node : Node P} {version : BlockVersion} {base t : TopoHeight}
    (h : runBlock node version base hash block t pastBurnedSupply blockReward o = .ok ⟨⟩ o') :
    KeepsRewards o.storage o'.storage ∧ o'.sideBlocks = o.sideBlocks := by
  simp only [runBlock] at h
  cases hexecute : executeBlock node.env node.devPublicKey hash block blockReward
      (o.blockRun node version base hash block t pastBurnedSupply) with
  | error e run => simp [hexecute] at h
  | ok _ run =>
    simp only [hexecute, EStateM.Result.ok.injEq, true_and] at h
    subst h
    exact ⟨(executeBlock_keepsRewards _ _ _ _ _).of_ok hexecute, rfl⟩

end Frames

section Rewarded

variable {s s' : Storage P} {t n : Nat}

theorem heightAt_congr (h : SameOrder s s') : heightAt s' = heightAt s := by
  funext q
  unfold heightAt
  rw [h.hashAtTopo, h.blocks]

theorem FilledBelow.congr (h : SameOrder s s') (hfilled : FilledBelow s n) : FilledBelow s' n := by
  intro q hq
  obtain ⟨hash, header, hordered⟩ := hfilled q hq
  exact ⟨hash, header, h.orderedAt.mpr hordered⟩

theorem BlocksListed.congr (hblocks : s'.blocks = s.blocks) (hhashes : s'.blocksAtHeight = s.blocksAtHeight) (hlisted : BlocksListed s) :
    BlocksListed s' := by
  have hheight : ∀ hash height, HasHeight s' hash height ↔ HasHeight s hash height := by
    intro hash height
    unfold HasHeight
    rw [hblocks]
  refine ⟨fun hash height hstored => ?_, fun height hashes hsome => ?_, fun height hashes hsome hash => ?_⟩
  · rw [hhashes]
    exact hlisted.listed hash height ((hheight hash height).mp hstored)
  · rw [hhashes] at hsome
    exact hlisted.nodup height hashes hsome
  · rw [hhashes] at hsome
    exact (hlisted.mem_iff height hashes hsome hash).trans (hheight hash height).symm

def supplyBefore (s : Storage P) (t : Nat) : Option Nat := if t = 0 then some 0 else s.supply[t - 1]?

/-- The reward stored at a topoheight is the one of its block in the order, and it is added to the supply. -/
def RewardStored (s : Storage P) (t : Nat) : Prop :=
  ∃ pastSupply, supplyBefore s t = some pastSupply ∧ s.rewards[t]? = some (rewardAt (heightAt s) pastSupply t) ∧
    s.supply[t]? = some (pastSupply + rewardAt (heightAt s) pastSupply t)

/-- The order is complete below `n`, with its rewards. -/
structure Rewarded (s : Storage P) (n : Nat) : Prop where
  filled : FilledBelow s n
  listed : BlocksListed s
  stored : ∀ q < n, RewardStored s q

theorem Rewarded.mono (h : Rewarded s n) (hle : m ≤ n) : Rewarded s m :=
  ⟨h.filled.mono hle, h.listed, fun q hq => h.stored q (hq.trans_le hle)⟩

theorem RewardStored.congr (h : RewardStored s t) (hheights : ∀ q ≤ t, heightAt s q = heightAt s' q)
    (hsupply : ∀ q ≤ t, s'.supply[q]? = s.supply[q]?) (hreward : s'.rewards[t]? = s.rewards[t]?) : RewardStored s' t := by
  obtain ⟨pastSupply, hpast, hstored, hnext⟩ := h
  refine ⟨pastSupply, ?_, ?_, ?_⟩
  · unfold supplyBefore at hpast ⊢
    rw [hsupply (t - 1) (Nat.sub_le t 1)]
    exact hpast
  · rw [hreward, ← rewardAt_congr hheights pastSupply]
    exact hstored
  · rw [hsupply t le_rfl, ← rewardAt_congr hheights pastSupply]
    exact hnext

theorem KeepsRewards.rewarded (h : KeepsRewards s s') (hrewarded : Rewarded s n) : Rewarded s' n := by
  refine ⟨hrewarded.filled.congr h.order, hrewarded.listed.congr h.order.blocks h.blocksAtHeight, fun q hq => ?_⟩
  refine (hrewarded.stored q hq).congr (fun i _ => ?_) (fun i _ => ?_) ?_
  · rw [heightAt_congr h.order]
  · rw [h.supply]
  · rw [h.rewards]

end Rewarded

variable {header : BlockHeader}

section Placing

variable {s : Storage P} {t : Nat} {hash : Hash}

def NotBelow (s : Storage P) (t : Nat) (hash : Hash) : Prop := ∀ q < t, ∀ header, ¬s.OrderedAt q hash header

theorem orderedAt_setTopoHeight (hfresh : NotBelow s t hash) (hq : q < t) :
    (s.setTopoHeightForBlock hash t).OrderedAt q other header ↔ s.OrderedAt q other header := by
  have hslot : (s.setTopoHeightForBlock hash t).hashAtTopo[q]? = s.hashAtTopo[q]? := FiniteMap.getElem?_insert_of_ne _ _ hq.ne'
  by_cases hother : other = hash
  · subst hother
    refine ⟨fun h => ?_, fun h => absurd h (hfresh q hq header)⟩
    have hplace : (s.setTopoHeightForBlock other t).topoByHash[other]? = some t := FiniteMap.getElem?_insert_self' _ _ _
    exact absurd (Option.some.inj (hplace.symm.trans h.place)) hq.ne'
  · have hplace : (s.setTopoHeightForBlock hash t).topoByHash[other]? = s.topoByHash[other]? :=
      FiniteMap.getElem?_insert_of_ne _ _ (Ne.symm hother)
    constructor
    · rintro ⟨h₁, h₂, h₃⟩
      exact ⟨hslot.symm.trans h₁, hplace.symm.trans h₂, h₃⟩
    · rintro ⟨h₁, h₂, h₃⟩
      exact ⟨hslot.trans h₁, hplace.trans h₂, h₃⟩

theorem heightAt_setTopoHeight (hq : q < t) : heightAt (s.setTopoHeightForBlock hash t) q = heightAt s q := by
  unfold heightAt
  rw [show (s.setTopoHeightForBlock hash t).hashAtTopo[q]? = s.hashAtTopo[q]? from FiniteMap.getElem?_insert_of_ne _ _ hq.ne']
  rfl

theorem filledBelow_setTopoHeight (hfilled : FilledBelow s t) (hfresh : NotBelow s t hash)
    (hheader : s.blocks[hash]? = some header) :
    FilledBelow (s.setTopoHeightForBlock hash t) (t + 1) ∧ (s.setTopoHeightForBlock hash t).OrderedAt t hash header := by
  have hplaced : (s.setTopoHeightForBlock hash t).OrderedAt t hash header :=
    ⟨FiniteMap.getElem?_insert_self' _ _ _, FiniteMap.getElem?_insert_self' _ _ _, hheader⟩
  refine ⟨fun q hq => ?_, hplaced⟩
  rcases Nat.lt_succ_iff_lt_or_eq.mp hq with hlt | rfl
  · obtain ⟨other, header', hother⟩ := hfilled q hlt
    exact ⟨other, header', (orderedAt_setTopoHeight hfresh hlt).mpr hother⟩
  · exact ⟨hash, header, hplaced⟩

end Placing

section Counting

variable {o o₁ : Ordering P} {t : Nat} {hash : Hash}

/-- What the loop carries to the topoheight `t`: the order below it is rewarded, and a counter says how many side blocks
of its height stand there. -/
structure Counted (o : Ordering P) (t : Nat) : Prop where
  rewarded : Rewarded o.storage t
  counters : ∀ (height count : Nat), o.sideBlocks[height]? = some count → count = sidesBelow (heightAt o.storage) height t

theorem load_ok {α : Type} {f : Storage P → Except BlockchainError α} {a : α}
    (h : Ordering.load f o = .ok a o') : f o.storage = .ok a ∧ o' = o := by
  unfold Ordering.load at h
  rw [Exec.bind_apply, Exec.get_apply] at h
  dsimp only at h
  rw [Exec.ofExcept_apply] at h
  cases hf : f o.storage with
  | error e => simp [hf] at h
  | ok b =>
    simp only [hf, EStateM.Result.ok.injEq] at h
    exact ⟨congrArg Except.ok h.1, h.2.symm⟩

theorem sideBlocksAt_ok (hstorage : o.storage = s) (hlisted : BlocksListed s)
    (hfilled : FilledBelow s t) (hordered : s.OrderedAt t hash header)
    (hcounters : ∀ (height count : Nat), o.sideBlocks[height]? = some count → count = sidesBelow (heightAt s) height t)
    (h : sideBlocksAt hash header.height t o = .ok count o₁) :
    count = sidesBelow (heightAt s) header.height t ∧ o₁ = o := by
  unfold sideBlocksAt at h
  rw [Exec.bind_apply, Exec.get_apply] at h
  dsimp only at h
  cases hcounter : o.sideBlocks[header.height]? with
  | some known =>
    rw [hcounter] at h
    obtain ⟨rfl, rfl⟩ : known = count ∧ o = o₁ := by
      simpa only [Exec.pure_apply, EStateM.Result.ok.injEq] using h
    exact ⟨hcounters _ _ hcounter, rfl⟩
  | none =>
    rw [hcounter] at h
    obtain ⟨hcount, rfl⟩ := load_ok h
    rw [hstorage, countSideBlocks_eq hlisted hfilled hordered, Except.ok.injEq] at hcount
    exact ⟨hcount.symm, rfl⟩

theorem rewardOf_ok (hstorage : o.storage = s) (hlisted : BlocksListed s)
    (hfilled : FilledBelow s t) (hordered : s.OrderedAt t hash header)
    (hcounters : ∀ (height count : Nat), o.sideBlocks[height]? = some count → count = sidesBelow (heightAt s) height t)
    (h : rewardOf hash header.height t pastSupply o = .ok reward o₁) :
    reward = rewardAt (heightAt s) pastSupply t ∧ o₁.storage = s ∧
      ∀ (height count : Nat), o₁.sideBlocks[height]? = some count → count = sidesBelow (heightAt s) height (t + 1) := by
  obtain ⟨isSideBlock, o₂, hload, hrest⟩ := Exec.bind_ok_iff.mp h
  obtain ⟨hside, rfl⟩ := load_ok hload
  rw [hstorage, isSideBlock_ordered hfilled hordered le_rfl, Except.ok.injEq] at hside
  obtain ⟨count, o₃, hsides, hlast⟩ := Exec.bind_ok_iff.mp hrest
  obtain ⟨hcount, rfl⟩ := sideBlocksAt_ok hstorage hlisted hfilled hordered hcounters hsides
  have hheight := heightAt_eq hordered
  cases hlast
  refine ⟨?_, hstorage, fun height known hknown => ?_⟩
  · rw [hcount, ← hside, rewardAt, hheight]
  · rw [sidesBelow_succ, hheight]
    by_cases hsame : height = header.height
    · subst hsame
      rw [FiniteMap.getElem?_insert_self', Option.some.injEq] at hknown
      rw [← hknown, ← hside, hcount]
      simp only [true_and, decide_eq_true_eq]
    · rw [FiniteMap.getElem?_insert_of_ne _ _ (Ne.symm hsame)] at hknown
      rw [if_neg fun hboth => hsame hboth.1.symm]
      have hbefore := hcounters height known hknown
      exact hbefore

end Counting

section Ordered

variable {o o₁ o' : Ordering P} {t n : Nat} {hash : Hash}

def rewardedAt (s : Storage P) (hash : Hash) (t reward supply : Nat) : Storage P :=
  ((s.setTopoHeightForBlock hash t).setBlockRewardAtTopoHeight t reward).setSupplyAtTopoHeight t supply

theorem pastSupplies_ok {r : Nat × Nat} (h : pastSupplies t s = .ok r) : supplyBefore s t = some r.1 := by
  unfold pastSupplies at h
  unfold supplyBefore
  split
  · rename_i hzero
    rw [if_pos hzero] at h
    cases h
    rfl
  · rename_i hpos
    rw [if_neg hpos] at h
    obtain ⟨pastSupply, hsupply, h⟩ := Exec.except_bind_ok h
    obtain ⟨pastBurnedSupply, -, h⟩ := Exec.except_bind_ok h
    cases h
    unfold Storage.getSupplyAtTopoHeight at hsupply
    split at hsupply
    · rename_i supply hfound
      cases hsupply
      exact hfound
    · cases hsupply

theorem getBlockByHash_ok (h : s.getBlockByHash hash = .ok block) : s.blocks[hash]? = some block.header := by
  unfold Storage.getBlockByHash at h
  obtain ⟨header, hheader, h⟩ := Exec.except_bind_ok h
  obtain ⟨transactions, -, h⟩ := Exec.except_bind_ok h
  cases h
  unfold Storage.getBlockHeaderByHash at hheader
  split at hheader
  · rename_i found hfound
    cases hheader
    exact hfound
  · cases hheader

theorem Rewarded.place (h : Rewarded s t) (hfresh : NotBelow s t hash)
    (hheader : s.blocks[hash]? = some header) (hpast : supplyBefore s t = some pastSupply)
    (hreward : reward = rewardAt (heightAt (s.setTopoHeightForBlock hash t)) pastSupply t) :
    Rewarded (rewardedAt s hash t reward (pastSupply + reward)) (t + 1) := by
  have hsame : SameOrder (s.setTopoHeightForBlock hash t) (rewardedAt s hash t reward (pastSupply + reward)) := ⟨rfl, rfl, rfl⟩
  have hheights := heightAt_congr hsame
  refine ⟨(filledBelow_setTopoHeight h.filled hfresh hheader).1.congr hsame, BlocksListed.congr (s := s) rfl rfl h.listed, fun q hq => ?_⟩
  rcases Nat.lt_succ_iff_lt_or_eq.mp hq with hlt | heq
  · refine (h.stored q hlt).congr (fun i hi => ?_) (fun i hi => ?_) ?_
    · rw [hheights, heightAt_setTopoHeight (hi.trans_lt hlt)]
    · exact FiniteMap.getElem?_insert_of_ne _ _ (hi.trans_lt hlt).ne'
    · exact FiniteMap.getElem?_insert_of_ne _ _ hlt.ne'
  · subst heq
    refine ⟨pastSupply, ?_, ?_, ?_⟩
    · unfold supplyBefore at hpast ⊢
      split
      · rename_i hzero
        rwa [if_pos hzero] at hpast
      · rename_i hpos
        rw [if_neg hpos] at hpast
        have hne : q ≠ q - 1 := by omega
        exact (FiniteMap.getElem?_insert_of_ne _ _ hne).trans hpast
    · rw [hheights, ← hreward]
      exact FiniteMap.getElem?_insert_self' _ _ _
    · rw [hheights, ← hreward]
      exact FiniteMap.getElem?_insert_self' _ _ _

theorem Counted.prepareBlock (h : Counted o t) (hfresh : NotBelow o.storage t hash) {r : Block × Nat × Nat}
    (hrun : prepareBlock hash t o = .ok r o₁) :
    Counted o₁ (t + 1) ∧ ∃ reward supply, o₁.storage = rewardedAt o.storage hash t reward supply := by
  obtain ⟨⟨⟩, o₂, hplace, hrun⟩ := Exec.bind_ok_iff.mp hrun
  cases hplace
  obtain ⟨supplies, o₃, hload, hrun⟩ := Exec.bind_ok_iff.mp hrun
  obtain ⟨hsupplies, rfl⟩ := load_ok hload
  obtain ⟨block, o₄, hload', hrun⟩ := Exec.bind_ok_iff.mp hrun
  obtain ⟨hblock, rfl⟩ := load_ok hload'
  have hheader : o.storage.blocks[hash]? = some block.header := getBlockByHash_ok hblock
  obtain ⟨hfilled, hordered⟩ := filledBelow_setTopoHeight h.rewarded.filled hfresh hheader
  obtain ⟨reward, o₅, hreward, hrun⟩ := Exec.bind_ok_iff.mp hrun
  obtain ⟨hcount, hstorage, hcounters⟩ := rewardOf_ok (o := { o with storage := o.storage.setTopoHeightForBlock hash t }) rfl
    (BlocksListed.congr (s := o.storage) rfl rfl h.rewarded.listed) (hfilled.mono (Nat.le_succ t)) hordered
    (fun height count hknown => (h.counters height count hknown).trans
      (sidesBelow_congr (fun q hq => (heightAt_setTopoHeight hq).symm) height)) hreward
  have hpast := pastSupplies_ok hsupplies
  obtain ⟨⟨⟩, o₆, hset, hrun⟩ := Exec.bind_ok_iff.mp hrun
  cases hset
  obtain ⟨⟨⟩, o₇, hset, hrun⟩ := Exec.bind_ok_iff.mp hrun
  cases hset
  cases hrun
  have hplaced : (((o₅.storage.setBlockRewardAtTopoHeight t reward).setSupplyAtTopoHeight t (supplies.1 + reward))) =
      rewardedAt o.storage hash t reward (supplies.1 + reward) := by
    rw [hstorage]
    rfl
  refine ⟨⟨?_, fun height count hknown => ?_⟩, reward, supplies.1 + reward, hplaced⟩
  · show Rewarded ((o₅.storage.setBlockRewardAtTopoHeight t reward).setSupplyAtTopoHeight t (supplies.1 + reward)) (t + 1)
    rw [hplaced]
    exact h.rewarded.place hfresh hheader hpast hcount
  · show count = sidesBelow (heightAt ((o₅.storage.setBlockRewardAtTopoHeight t reward).setSupplyAtTopoHeight t
      (supplies.1 + reward))) height (t + 1)
    rw [hplaced]
    exact hcounters height count hknown

variable [RistrettoPoint P] {node : Node P} {version : BlockVersion} {base : TopoHeight}

theorem Counted.orderBlock (h : Counted o t) (hfresh : NotBelow o.storage t hash)
    (hrun : orderBlock node version base hash t o = .ok ⟨⟩ o') :
    Counted o' (t + 1) ∧ o'.storage.hashAtTopo = o.storage.hashAtTopo.insert t hash ∧
      o'.storage.topoByHash = o.storage.topoByHash.insert hash t ∧ o'.storage.blocks = o.storage.blocks := by
  obtain ⟨⟨block, pastBurnedSupply, blockReward⟩, o₁, hprepare, hexecute⟩ := Exec.bind_ok_iff.mp hrun
  obtain ⟨hcounted, reward, supply, hstorage⟩ := h.prepareBlock hfresh hprepare
  obtain ⟨hkeeps, hsides⟩ := runBlock_keepsRewards hexecute
  refine ⟨⟨hkeeps.rewarded hcounted.rewarded, fun height count hknown => ?_⟩, ?_, ?_, ?_⟩
  · rw [hsides] at hknown
    rw [heightAt_congr hkeeps.order]
    exact hcounted.counters height count hknown
  · rw [hkeeps.order.hashAtTopo, hstorage]
    rfl
  · rw [hkeeps.order.topoByHash, hstorage]
    rfl
  · rw [hkeeps.order.blocks, hstorage]
    rfl

/-- No topoheight from `n` on holds a block, and every place holds one. -/
structure OrderEnds (s : Storage P) (n : Nat) : Prop where
  slots : ∀ (q : Nat) (hash : Hash), s.hashAtTopo[q]? = some hash → q < n
  places : ∀ (hash : Hash) (q : Nat), s.topoByHash[hash]? = some q → ∃ other, s.hashAtTopo[q]? = some other

omit [RistrettoPoint P] in
theorem OrderEnds.place (h : OrderEnds s n) (hlt : t < n) (hslots : s'.hashAtTopo = s.hashAtTopo.insert t hash)
    (hplaces : s'.topoByHash = s.topoByHash.insert hash t) : OrderEnds s' n := by
  refine ⟨fun q other hother => ?_, fun other q hother => ?_⟩
  · rw [hslots] at hother
    by_cases hq : t = q
    · exact hq ▸ hlt
    · rw [FiniteMap.getElem?_insert_of_ne _ _ hq] at hother
      exact h.slots q other hother
  · rw [hslots]
    by_cases hq : t = q
    · exact ⟨hash, hq ▸ FiniteMap.getElem?_insert_self' _ _ _⟩
    · rw [FiniteMap.getElem?_insert_of_ne _ _ hq]
      rw [hplaces] at hother
      by_cases hsame : hash = other
      · subst hsame
        rw [FiniteMap.getElem?_insert_self', Option.some.injEq] at hother
        exact absurd hother hq
      · rw [FiniteMap.getElem?_insert_of_ne _ _ hsame] at hother
        exact h.places other q hother

/-- The blocks of the new order one after the other, as long as none of them stands below already. -/
theorem Counted.orderFrom {hashes : List Hash} (h : Counted o t) (hends : OrderEnds o.storage n) (hlen : t + hashes.length ≤ n)
    (hnodup : hashes.Nodup) (hfresh : ∀ hash ∈ hashes, NotBelow o.storage t hash)
    (hrun : orderFrom node version base t hashes o = .ok ⟨⟩ o') :
    Rewarded o'.storage (t + hashes.length) ∧ OrderEnds o'.storage n := by
  induction hashes generalizing t o with
  | nil =>
    cases hrun
    exact ⟨h.rewarded, hends⟩
  | cons hash hashes ih =>
    obtain ⟨hnotIn, hnodup⟩ := List.nodup_cons.mp hnodup
    obtain ⟨⟨⟩, o₁, hblock, hrest⟩ := Exec.bind_ok_iff.mp hrun
    have hhash := hfresh hash List.mem_cons_self
    obtain ⟨hcounted, hslots, hplaces, hblocks⟩ := h.orderBlock hhash hblock
    rw [List.length_cons] at hlen ⊢
    have hnext : ∀ other ∈ hashes, NotBelow o₁.storage (t + 1) other := by
      intro other hother q hq header hordered
      have hne : hash ≠ other := fun heq => hnotIn (heq ▸ hother)
      have hslot := hordered.slot
      rw [hslots] at hslot
      rcases Nat.lt_succ_iff_lt_or_eq.mp hq with hlt | rfl
      · have hplace := hordered.place
        have hstored := hordered.block
        rw [FiniteMap.getElem?_insert_of_ne _ _ hlt.ne'] at hslot
        rw [hplaces, FiniteMap.getElem?_insert_of_ne _ _ hne] at hplace
        rw [hblocks] at hstored
        exact hfresh other (List.mem_cons_of_mem _ hother) q hlt header ⟨hslot, hplace, hstored⟩
      · rw [FiniteMap.getElem?_insert_self', Option.some.injEq] at hslot
        exact hne hslot
    have hends₁ : OrderEnds o₁.storage n := hends.place (by omega) hslots hplaces
    obtain ⟨hrewarded, hends'⟩ := ih hcounted hends₁ (by omega) hnodup hnext hrest
    rw [Nat.add_right_comm] at hrewarded
    exact ⟨hrewarded, hends'⟩

end Ordered

end Xelis.Blockchain
