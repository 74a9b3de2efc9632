import Xelis.Blockchain.RewardRuns

namespace Xelis.Blockchain

open Lib (Exec FiniteMap Halt)
open State State.ApplicableChainState

variable {P : Type}

section Blocks

/-- What a reordering does to the storage, when the preparation of a block does it, and all that keeps the rewards. -/
structure Reorders (R : Storage P → Storage P → Prop) : Prop where
  trans : ∀ a b c, R a b → R b c → R a c
  keeps : ∀ {a b}, KeepsRewards a b → R a b
  prepares : ∀ hash topoheight, Exec.Moves (fun o o' : Ordering P => R o.storage o'.storage) (prepareBlock hash topoheight)

variable {R : Storage P → Storage P → Prop}

theorem Reorders.along {σ : Type} (h : Reorders R) (f : σ → Storage P) (a b c : σ) (hab : R (f a) (f b)) (hbc : R (f b) (f c)) :
    R (f a) (f c) := h.trans _ _ _ hab hbc

theorem Reorders.refl (h : Reorders R) (s : Storage P) : R s s := h.keeps (.refl s)

theorem Reorders.cleanOrder (h : Reorders R) (turns : Nat) (topoheight : TopoHeight) :
    Exec.Moves (fun c c' : Cleaning P => R c.storage c'.storage) (cleanOrder turns topoheight) := by
  induction turns generalizing topoheight with
  | zero => exact fun c => h.refl _
  | succ turns ih =>
    intro c
    unfold Blockchain.cleanOrder
    rw [Exec.bind_apply, Exec.get_apply]
    dsimp only
    rw [Exec.bind_apply, Exec.ofExcept_apply]
    cases c.storage.getHashAtTopoHeight topoheight with
    | error e => exact h.refl _
    | ok hash =>
      dsimp only
      split
      · exact ih (topoheight + 1) { c with order := c.order.tail, skipped := c.skipped + 1 }
      · have hclean : Exec.Moves (fun c c' : Cleaning P => R c.storage c'.storage) (cleanBlock topoheight hash) :=
          fun c => h.keeps (cleanBlock_sameProgress topoheight hash c).storage
        exact Exec.Moves.bind (h.along Cleaning.storage) hclean (fun _ => ih (topoheight + 1)) { c with isWritten := true }

variable [RistrettoPoint P]

theorem Reorders.orderBlock (h : Reorders R) (node : Node P) (version : BlockVersion) (base : TopoHeight) (hash : Hash)
    (topoheight : TopoHeight) :
    Exec.Moves (fun o o' : Ordering P => R o.storage o'.storage) (orderBlock node version base hash topoheight) := by
  refine .bind (h.along Ordering.storage) (h.prepares hash topoheight) ?_
  rintro ⟨block, pastBurnedSupply, blockReward⟩ o
  have hexecute := h.keeps (executeBlock_keepsRewards node.env node.devPublicKey hash block blockReward
    (o.blockRun node version base hash block topoheight pastBurnedSupply))
  simp only [runBlock]
  split
  · rename_i hrun
    rw [hrun] at hexecute
    exact hexecute
  · rename_i hrun
    rw [hrun] at hexecute
    exact hexecute

theorem Reorders.orderFrom (h : Reorders R) (node : Node P) (version : BlockVersion) (base topoheight : TopoHeight) (order : List Hash) :
    Exec.Moves (fun o o' : Ordering P => R o.storage o'.storage) (orderFrom node version base topoheight order) := by
  induction order generalizing topoheight with
  | nil => exact fun o => h.refl _
  | cons hash order ih =>
    exact .bind (h.along Ordering.storage) (h.orderBlock node version base hash topoheight) fun _ => ih (topoheight + 1)

theorem Reorders.reordering (h : Reorders R) (setup : Setup P) (b : NewBlock) (plan : Plan) :
    Exec.Moves (fun c c' : Blockchain P => R c.storage c'.storage) (reorder setup b plan) := by
  refine .bind (h.along Blockchain.storage) (fun c => ?_) fun cleaning c => ?_
  · have hclean := h.cleanOrder (c.topoheight + 1 - plan.baseTopoHeight) plan.baseTopoHeight
      { storage := c.storage, order := plan.fullOrder.elems, isWritten := decide (plan.baseTopoHeight = 0) }
    unfold cleanOldOrder
    dsimp only
    split
    · rename_i hrun
      rw [hrun] at hclean
      exact hclean
    · rename_i hrun
      rw [hrun] at hclean
      split
      · exact h.trans _ _ _ hclean (h.keeps ⟨⟨rfl, rfl, rfl⟩, rfl, rfl, rfl⟩)
      · exact hclean
  · unfold writeNewOrder
    dsimp only
    generalize (if cleaning.isWritten || b.header.tips.isEmpty then _ else _ : TopoHeight × List Hash) = start
    have hwrite := h.orderFrom setup.toNode (setup.version b) plan.baseTopoHeight start.1 start.2
      { storage := c.storage, orphanedTransactions := cleaning.orphanedTransactions }
    split
    · rename_i hrun
      rw [hrun] at hwrite
      exact hwrite
    · rename_i hrun
      rw [hrun] at hwrite
      exact hwrite

end Blocks

section Insertions

variable {b : NewBlock} {c c' : Blockchain P}

/-- What was looked for in the graph is no part of the storage. -/
theorem planOrder_sameChain {setup : Setup P} : Exec.Moves SameChain (planOrder (P := P) setup b) := by
  have htrans : ∀ c₁ c₂ c₃ : Blockchain P, SameChain c₁ c₂ → SameChain c₂ c₃ → SameChain c₁ c₃ := fun _ _ _ => SameChain.trans
  refine .bind htrans (fun c => ⟨rfl, rfl⟩) fun c => .bind htrans (onCaches_sameChain _) fun base => ?_
  refine .bind htrans (onCaches_sameChain _) fun bestTip => .bind htrans (load_sameChain _) fun baseTopoHeight => ?_
  exact .bind htrans (onCaches_sameChain _) fun fullOrder c => ⟨rfl, rfl⟩

variable [RistrettoPoint P]

def SameBlocks (s s' : Storage P) : Prop := s'.blocks = s.blocks

omit [RistrettoPoint P] in
theorem sameBlocks_reorders : Reorders (SameBlocks (P := P)) where
  trans _ _ _ hab hbc := Eq.trans hbc hab
  keeps h := h.order.blocks
  prepares hash topoheight o :=
    (prepareBlock_keeps (f := (·.blocks)) (fun _ _ _ => rfl) (fun _ _ _ => rfl) (fun _ _ _ => rfl) hash topoheight o).1

theorem Reorders.insertion {R : Storage P → Storage P → Prop} (h : Reorders R) (setup : Setup P) (b : NewBlock) (difficulty p : VarUint)
    (c : Blockchain P) :
    R ((c.storage.saveBlock b.header b.transactions difficulty p b.blockHash).addBlockExecutionToOrder b.blockHash)
      (Exec.stateOf ((do
        let plan ← placeNewBlock setup b difficulty p
        let highestTopo ← reorder setup b plan
        finishInsertion setup b plan highestTopo : Insertion P PUnit) c)).storage := by
  have hsame : ∀ c c' : Blockchain P, SameChain c c' → R c.storage c'.storage := fun c c' hsame => by
    rw [hsame.1]
    exact h.refl _
  have hplace : Exec.Moves (fun c c' : Blockchain P => R c.storage c'.storage) (do
      let score ← cumulativeDifficulty setup b
      Insertion.onStorage (·.setCumulativeDifficultyForBlockHash b.blockHash score)
      planOrder setup b) :=
    .bind (h.along Blockchain.storage) (fun c => hsame _ _ (cumulativeDifficulty_sameChain c)) fun score =>
      .bind (h.along Blockchain.storage) (fun c => h.keeps ⟨⟨rfl, rfl, rfl⟩, rfl, rfl, rfl⟩) fun _ c => hsame _ _ (planOrder_sameChain c)
  have hall := Exec.Moves.bind (h.along Blockchain.storage) hplace fun plan => (h.reordering setup b plan).bind (h.along Blockchain.storage)
    fun highestTopo c =>
      have hfinish : Exec.Moves _ (finishInsertion setup b plan highestTopo) := finishInsertion_finishes highestTopo
      h.keeps (hfinish c).1
  exact hall { c with storage := (c.storage.saveBlock b.header b.transactions difficulty p b.blockHash).addBlockExecutionToOrder b.blockHash }

variable {setup : Setup P}

theorem addNewBlock_error {e : Halt (VerificationError BlockchainError)} (h : addNewBlock setup b c = .error e c') :
    (verifyNewBlock setup b c = .error e c' ∧ c'.storage = c.storage) ∨
      (∃ result c₁, verifyNewBlock setup b c = .ok result c₁) ∧ c.storage.blocks[b.blockHash]? = none ∧
        c'.storage.blocks = c.storage.blocks.insert b.blockHash b.header := by
  have hverified : SameChain c (Exec.stateOf (verifyNewBlock setup b c)) := verifyNewBlock_sameChain c
  rcases Exec.bind_error_iff.mp h with hrefused | ⟨⟨difficulty, p⟩, c₁, hverify, hrest⟩
  · rw [hrefused] at hverified
    exact .inl ⟨hrefused, hverified.1⟩
  · have hinserted := sameBlocks_reorders.insertion setup b difficulty p c₁
    dsimp only at hrest
    rw [hverify] at hverified
    rw [hrest] at hinserted
    refine .inr ⟨⟨_, c₁, hverify⟩, verifyNewBlock_new hverify, ?_⟩
    rw [← hverified.1]
    exact hinserted

/-- An insertion that fails leaves the storage as it was exactly when it was the verification of the block that failed: after it the
new block is stored, and nothing takes it back. -/
theorem addNewBlock_atomic_iff (setup : Setup P) (b : NewBlock) (c c' : Blockchain P) (e : Halt (VerificationError BlockchainError))
    (h : addNewBlock setup b c = .error e c') : c'.storage = c.storage ↔ ∃ e₁ c₁, verifyNewBlock setup b c = .error e₁ c₁ := by
  rcases addNewBlock_error h with ⟨hrefused, hsame⟩ | ⟨⟨result, c₁, hverify⟩, hnew, hstored⟩
  · exact iff_of_true hsame ⟨e, c', hrefused⟩
  · refine iff_of_false (fun hsame => ?_) fun ⟨e₁, c₂, hrefused⟩ => nomatch hverify.symm.trans hrefused
    rw [hsame] at hstored
    rw [hstored, FiniteMap.getElem?_insert_self'] at hnew
    cases hnew

end Insertions

section Supply

/-- No more than the maximum was ever given out. -/
def Capped (s : Storage P) : Prop := ∀ (t : TopoHeight) (supply : Nat), s.supply[t]? = some supply → supply ≤ MAXIMUM_SUPPLY

theorem internalGetBlockReward_le (pastSupply : Nat) (isSideBlock : Bool) (count : Nat) :
    internalGetBlockReward pastSupply isSideBlock count ≤ MAXIMUM_SUPPLY - pastSupply := by
  have hreward : getBlockReward pastSupply ≤ MAXIMUM_SUPPLY - pastSupply := by
    unfold getBlockReward BLOCK_TIME_MILLIS MILLIS_PER_SECOND
    have hle := Nat.div_le_self (MAXIMUM_SUPPLY - pastSupply) (2 ^ EMISSION_SPEED_FACTOR)
    split <;> omega
  have hpercentage : sideBlockRewardPercentage count ≤ 100 := by
    unfold sideBlockRewardPercentage
    split
    · split
      · exact (Nat.div_le_self _ _).trans (by decide)
      · decide
    · decide
  unfold internalGetBlockReward
  split
  · refine le_trans (Nat.div_le_of_le_mul ?_) hreward
    rw [Nat.mul_comm 100]
    exact Nat.mul_le_mul_left _ hpercentage
  · exact hreward

theorem rewardOf_le {hash : Hash} {height t pastSupply reward : Nat} {o o' : Ordering P}
    (h : rewardOf hash height t pastSupply o = .ok reward o') : reward ≤ MAXIMUM_SUPPLY - pastSupply := by
  obtain ⟨isSideBlock, o₁, -, h⟩ := Exec.bind_ok_iff.mp h
  obtain ⟨count, o₂, -, h⟩ := Exec.bind_ok_iff.mp h
  cases h
  exact internalGetBlockReward_le _ _ _

theorem supplyBefore_le {s : Storage P} (h : Capped s) {t past : Nat} (hpast : supplyBefore s t = some past) : past ≤ MAXIMUM_SUPPLY := by
  unfold supplyBefore at hpast
  split at hpast
  · cases hpast
    exact Nat.zero_le _
  · exact h _ _ hpast

variable [RistrettoPoint P]

omit [RistrettoPoint P] in
theorem prepareBlock_capped (hash : Hash) (t : TopoHeight) :
    Exec.Moves (fun o o' : Ordering P => Capped o.storage → Capped o'.storage) (prepareBlock hash t) := by
  intro o
  have htrans : ∀ a b c : Ordering P, (Capped a.storage → Capped b.storage) → (Capped b.storage → Capped c.storage) →
      Capped a.storage → Capped c.storage := fun _ _ _ hab hbc h => hbc (hab h)
  refine Exec.moves_bind_of_ok htrans id fun _ o₁ _ => ?_
  refine Exec.moves_bind_of_ok htrans (by rw [load_still]; exact id) fun supplies o₂ hload => ?_
  obtain ⟨hsupplies, rfl⟩ := load_ok hload
  refine Exec.moves_bind_of_ok htrans (by rw [load_still]; exact id) fun block o₃ hload => ?_
  obtain ⟨-, rfl⟩ := load_ok hload
  refine Exec.moves_bind_of_ok htrans (by rw [(rewardOf_keeps _ _ _ _ _).1]; exact id) fun reward o₄ hreward hcapped => ?_
  show Capped ((o₄.storage.setBlockRewardAtTopoHeight t reward).setSupplyAtTopoHeight t (supplies.1 + reward))
  intro q supply hq
  by_cases heq : t = q
  · have hsupply : (o₄.storage.supply.insert t (supplies.1 + reward))[q]? = some supply := hq
    subst heq
    rw [FiniteMap.getElem?_insert_self', Option.some.injEq] at hsupply
    rw [((rewardOf_keeps _ _ _ _).of_ok hreward).1] at hcapped
    have hpast := supplyBefore_le hcapped (pastSupplies_ok hsupplies)
    have hle := rewardOf_le hreward
    omega
  · exact hcapped q supply ((FiniteMap.getElem?_insert_of_ne _ _ heq).symm.trans hq)

omit [RistrettoPoint P] in
theorem capped_reorders : Reorders fun s s' : Storage P => Capped s → Capped s' where
  trans _ _ _ hab hbc h := hbc (hab h)
  keeps h hcapped t supply hsupply := hcapped t supply (h.supply ▸ hsupply)
  prepares := prepareBlock_capped

theorem addNewBlock_capped (setup : Setup P) (b : NewBlock) :
    Exec.Moves (fun c c' : Blockchain P => Capped c.storage → Capped c'.storage) (addNewBlock setup b) := by
  intro c
  refine Exec.moves_bind_of_ok (capped_reorders.along Blockchain.storage) (fun h => ?_) fun r c₁ _ h => ?_
  · have hsame : SameChain c (Exec.stateOf (verifyNewBlock setup b c)) := verifyNewBlock_sameChain c
    rw [hsame.1]
    exact h
  · exact capped_reorders.insertion setup b r.1 r.2 c₁ h

/-- Along every sequence of insertions, whether they succeed or fail and whatever order they make, no supply above the maximum is
stored. -/
theorem supply_capped (setup : Setup P) (asset : Versioned AssetData) (hash : Hash) (bs : List NewBlock) :
    Capped (bs.foldl (fun c b => Exec.stateOf (addNewBlock setup b c)) (createGenesis asset hash)).storage :=
  List.foldlRecOn bs _ (motive := fun c => Capped c.storage) (fun _ _ hnone => by cases hnone) fun c hcapped b _ =>
    addNewBlock_capped setup b c hcapped

end Supply

section Samples

open Transaction (sampleTx)

def minedBy (miner : PublicKey) (b : NewBlock) : NewBlock := { b with header := { b.header with miner } }

/-- Out of the reward of the block with hash 2, which is at topoheight 1. -/
def rewardBurn : Transaction := { sampleTx (.burn ⟨XELIS_ASSET, 1⟩) 131597044 with version := .v0, reference := ⟨2#256, 1⟩ }

def rivalBlock : NewBlock :=
  let b := arrival 3 1001 1 [1]
  { b with transactions := [rewardBurn], header := { b.header with txsHashes := [0] } }

/-- The rival block passes the verification, since the account of the miner exists. It takes the place of the block that paid the
account, so that the account is not found any more: the chain is left with the rival block in its order. -/
theorem rivalBlock_fails : ∃ c, Grown lightSetup (fun _ _ => True) c ∧ ∃ c',
    addNewBlock lightSetup rivalBlock c = .error (.failed (.state (.accountNotFound 7#256))) c' ∧
      c.storage.hashAtTopo[1]? = some 2#256 ∧ c'.storage.hashAtTopo[1]? = some 3#256 := by
  have hrun : (match grow lightSetup (fun _ _ => true) (arrival 1 1000 0 []) [minedBy 7#256 (arrival 2 1001 1 [1])] with
      | some c => match addNewBlock lightSetup rivalBlock c with
        | .error (.failed (.state (.accountNotFound key))) c' =>
          key == 7#256 && c.storage.hashAtTopo[1]? == some 2#256 && c'.storage.hashAtTopo[1]? == some 3#256
        | _ => false
      | none => false) = true := by decide +kernel
  split at hrun
  · rename_i c hgrow
    split at hrun
    · rename_i key c' hadd
      simp only [Bool.and_eq_true, beq_iff_eq] at hrun
      obtain ⟨⟨rfl, hbefore⟩, hafter⟩ := hrun
      exact ⟨c, grown_of_grow (fun _ _ _ => trivial) hgrow, c', hadd, hbefore, hafter⟩
    · cases hrun
  · cases hrun

theorem addNewBlock_not_atomic :
    ¬∀ c, Grown lightSetup (fun _ _ => True) c → ∀ b e c', addNewBlock lightSetup b c = .error e c' → c'.storage = c.storage := by
  intro hatomic
  obtain ⟨c, hgrown, c', hadd, hbefore, hafter⟩ := rivalBlock_fails
  rw [hatomic c hgrown rivalBlock _ c' hadd, hbefore] at hafter
  cases hafter

/-- The rival block is not refused, and the storage changes. -/
theorem addNewBlock_atomic_iff_rival : ∃ c c' : Blockchain ℤ, (c'.storage = c.storage ↔ ∃ e₁ c₁, verifyNewBlock lightSetup rivalBlock c = .error e₁ c₁) ∧
    c'.storage ≠ c.storage := by
  obtain ⟨c, -, c', hadd, hbefore, hafter⟩ := rivalBlock_fails
  refine ⟨c, c', addNewBlock_atomic_iff lightSetup rivalBlock c c' _ hadd, fun hsame => ?_⟩
  rw [hsame, hbefore] at hafter
  cases hafter

end Samples

end Xelis.Blockchain
