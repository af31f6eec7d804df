import Lxs.State.Transactions

/-!
# What a block does

What `applyBlock` has checked when it accepts a block, and that a block adds exactly its reward to the balances
and the burn total.
-/

set_option linter.unusedSectionVars false

namespace Lxs

open Std Vm State

variable [Crypto] {tr : Treasury} {parent next : State} {b : Block} {p : Header} {receipts : List Receipt}

/-! ### Accepted blocks -/

structure HeaderOk (h p : Header) : Prop where
  parentHash : h.parentHash = p.hash
  height : h.height = p.height + 1
  timestamp : p.timestamp < h.timestamp
  gasLimit_min : minBlockGasLimit ≤ h.gasLimit
  gasLimit_diff : gasLimitDiff h.gasLimit p.gasLimit < p.gasLimit / gasLimitBoundDivisor

theorem checkHeader_ok_iff {h p : Header} : checkHeader h (some p) = .ok () ↔ HeaderOk h p := by
  unfold checkHeader
  dsimp only
  constructor
  · intro hc
    split_ifs at hc with h₁ h₂ h₃ h₄
    rw [not_or] at h₄
    exact ⟨not_not.1 h₁, not_not.1 h₂, Int64.not_le.1 h₃, UInt64.not_lt.1 h₄.1, UInt64.not_le.1 h₄.2⟩
  · rintro ⟨h₁, h₂, h₃, h₄, h₅⟩
    rw [if_neg (not_not.2 h₁), if_neg (not_not.2 h₂), if_neg (Int64.not_le.2 h₃),
      if_neg (not_or.2 ⟨UInt64.not_lt.2 h₄, UInt64.not_le.2 h₅⟩)]

structure Applied (tr : Treasury) (parent : State) (b : Block) (p : Header) (next : State) (receipts : List Receipt) :
    Prop where
  txRoot : b.verifyTxRoot = true
  header : HeaderOk b.header p
  receiptRoot : receiptRoot receipts = b.header.receiptRoot
  stateRoot : next.root = b.header.stateRoot
  txs : ∃ s, applyTxs b.header 0 0 b.txs (blockState parent b.header) = .ok (s, b.header.gasUsed, receipts) ∧
    next = creditBlockReward tr s b.header.proposer b.header.height

theorem applyBlock_ok_iff : applyBlock tr parent b (some p) = .ok (next, receipts) ↔
    Applied tr parent b p next receipts := by
  unfold applyBlock
  constructor
  · intro h
    split_ifs at h with htx
    cases hc : checkHeader b.header (some p) with
    | error e => rw [hc] at h; cases h
    | ok u =>
      rw [hc] at h
      cases ht : applyTxs b.header 0 0 b.txs (blockState parent b.header) with
      | error e => rw [ht] at h; cases h
      | ok x =>
        obtain ⟨s, totalGas, rs⟩ := x
        rw [ht] at h
        dsimp only [sealBlock] at h
        split_ifs at h with hg hr hs
        cases h
        rw [not_not] at hg hr hs
        exact ⟨by simpa using htx, checkHeader_ok_iff.1 hc, hr, hs, s, hg ▸ ht, rfl⟩
  · rintro ⟨htx, hh, hr, hs, s, ht, rfl⟩
    rw [if_neg (by simp [htx]), checkHeader_ok_iff.2 hh]
    dsimp only
    rw [ht]
    dsimp only [sealBlock]
    rw [if_neg (not_not.2 rfl), if_neg (not_not.2 hr), if_neg (not_not.2 hs)]

/-! ### Runs of transactions -/

inductive TxStep (h : Header) : State → Transaction → State → TxResult → Prop
  | mk {s tx t r} : applyTx s tx h.proposer h.gasLimit = some (t, .ok r) → TxStep h s tx t r

variable {chainID : UInt64}

theorem TxStep.ok {h : Header} {s t : State} {tx : Transaction} {r : TxResult}
    (hs : TxStep h s tx t r) (hsane : tx.sanityCheck chainID = .ok ()) :
    ∃ sender price, TxOk s tx sender h.proposer price t r := by
  obtain ⟨sender, price, amount, hsane⟩ := Transaction.sane_of_sanityCheck hsane
  obtain ⟨happ⟩ := hs
  obtain ⟨e, he⟩ | ⟨t', r', hr, -, hok⟩ := applyTx_cases (s := s) hsane h.proposer h.gasLimit
  · rw [happ] at he
    cases he
  · rw [happ] at hr
    cases hr
    exact ⟨sender, price, hok⟩

/-- **The rule for the loop over the transactions**: what every transaction preserves, the loop preserves. -/
theorem applyTxs_induction {P : State → State → Prop} {h : Header} {txs : List Transaction}
    (hrefl : ∀ s, P s s) (htrans : ∀ {s t u}, P s t → P t u → P s u)
    (hstep : ∀ tx ∈ txs, ∀ {s t r}, TxStep h s tx t r → P s t) :
    ∀ {i totalGas s t gas receipts}, applyTxs h i totalGas txs s = .ok (t, gas, receipts) → P s t := by
  induction txs with
  | nil =>
    intro i totalGas s t gas receipts hr
    cases hr
    exact hrefl s
  | cons tx txs ih =>
    intro i totalGas s t gas receipts hr
    unfold applyTxs at hr
    split at hr
    · cases hr
    · cases hr
    · rename_i t' r happ
      split_ifs at hr with hg
      split at hr
      · cases hr
      · rename_i t'' gas' rs hrest
        cases hr
        have hfirst := hstep tx (List.mem_cons_self ..) ⟨happ⟩
        exact htrans hfirst (ih (fun tx' hm => hstep tx' (List.mem_cons_of_mem _ hm)) hrest)

/-! ### Touched accounts -/

theorem writes_creditBlockReward (tr : Treasury) (s : State) (miner : Address) (height : UInt64) :
    s.Writes (creditBlockReward tr s miner height) ∧ miner ∈ (creditBlockReward tr s miner height).touched := by
  unfold creditBlockReward
  dsimp only
  have htouched : ∀ (t : State) v, miner ∈ (t.credit miner v).touched := fun t v =>
    ExtTreeSet.mem_insert.2 (.inl (LawfulEqCmp.compare_eq_iff_eq.2 rfl))
  split_ifs
  · exact ⟨((Writes.refl s).burn _).credit _ _, htouched _ _⟩
  · exact ⟨((Writes.refl s).credit _ _).credit _ _, htouched _ _⟩
  · exact ⟨(Writes.refl s).credit _ _, htouched _ _⟩

/-- **A block touches what it changes**, and always its proposer. -/
theorem Applied.writes (h : Applied tr parent b p next receipts)
    (hsane : ∀ tx ∈ b.txs, tx.sanityCheck chainID = .ok ()) :
    (∀ a, a ∉ next.touched → next.get a = parent.get a) ∧ parent.burned ≤ next.burned ∧
      b.header.proposer ∈ next.touched := by
  obtain ⟨s, hs, rfl⟩ := h.txs
  have htxs : (blockState parent b.header).Writes s := by
    refine applyTxs_induction (P := State.Writes) .refl Writes.trans (fun tx hm _ _ _ hst => ?_) hs
    obtain ⟨_, _, hok⟩ := hst.ok (hsane tx hm)
    exact hok.writes
  obtain ⟨hreward, hmem⟩ := writes_creditBlockReward tr s b.header.proposer b.header.height
  have hw := htxs.trans hreward
  exact ⟨hw.same, hw.burned, hmem⟩

/-! ### Conservation -/

/-- The balances and the burn total, when only value that is there moves. -/
structure Keeps (s t : State) : Prop where
  solvent : s.Solvent → t.Solvent
  total : t.sumBalances + t.burned = s.sumBalances + s.burned

theorem Keeps.trans {s t u : State} (h₁ : Keeps s t) (h₂ : Keeps t u) : Keeps s u :=
  ⟨fun hs => h₂.solvent (h₁.solvent hs), h₂.total.trans h₁.total⟩

theorem blockRewardAt_nonneg (height : UInt64) : 0 ≤ blockRewardAt height := Int.natCast_nonneg _

theorem treasuryCut_bounds {reward : ℤ} (h : 0 ≤ reward) {bps : ℤ} (h₀ : 0 ≤ bps) (h₁ : bps ≤ 10000) :
    0 ≤ reward * bps / 10000 ∧ reward * bps / 10000 ≤ reward := by
  refine ⟨Int.ediv_nonneg (Int.mul_nonneg h h₀) (by decide), ?_⟩
  have : reward * bps ≤ reward * 10000 := Int.mul_le_mul_of_nonneg_left h₁ h
  omega

theorem total_creditBlockReward (s : State) (miner : Address) (height : UInt64) (hbps : tr.basisPoints.toInt ≤ 10000) :
    let t := creditBlockReward tr s miner height
    (s.Solvent → t.Solvent) ∧ t.sumBalances + t.burned = s.sumBalances + s.burned + blockRewardAt height := by
  intro t
  have hreward := blockRewardAt_nonneg height
  show (s.Solvent → (creditBlockReward tr s miner height).Solvent) ∧ (creditBlockReward tr s miner height).sumBalances +
    (creditBlockReward tr s miner height).burned = _
  unfold creditBlockReward
  dsimp only
  split_ifs with hon hburn
  · obtain ⟨h₀, h₁⟩ := treasuryCut_bounds hreward (Int64.lt_iff_toInt_lt.1 hon.1).le hbps
    refine ⟨fun hs => (hs.burn _).credit (by omega) miner, ?_⟩
    rw [sumBalances_credit, sumBalances_burn, burned_credit, burned_burn s h₀]
    omega
  · obtain ⟨h₀, h₁⟩ := treasuryCut_bounds hreward (Int64.lt_iff_toInt_lt.1 hon.1).le hbps
    refine ⟨fun hs => (hs.credit h₀ _).credit (by omega) miner, ?_⟩
    rw [sumBalances_credit, sumBalances_credit, burned_credit, burned_credit]
    omega
  · refine ⟨fun hs => hs.credit hreward miner, ?_⟩
    rw [sumBalances_credit, burned_credit]
    omega

/-- **A block adds its reward**, and nothing else, to the balances and the burn total. -/
theorem Applied.conserves (h : Applied tr parent b p next receipts)
    (hsane : ∀ tx ∈ b.txs, tx.sanityCheck chainID = .ok ()) (hbps : tr.basisPoints.toInt ≤ 10000) :
    (parent.Solvent → next.Solvent) ∧
      next.sumBalances + next.burned = parent.sumBalances + parent.burned + blockRewardAt b.header.height := by
  obtain ⟨s, hs, rfl⟩ := h.txs
  have hkeep : Keeps (blockState parent b.header) s := by
    refine applyTxs_induction (P := Keeps) (fun _ => ⟨id, rfl⟩) Keeps.trans (fun tx hm _ _ _ hst => ?_) hs
    obtain ⟨_, _, hok⟩ := hst.ok (hsane tx hm)
    exact ⟨hok.solvent, hok.total⟩
  obtain ⟨hsolvent, htotal⟩ := total_creditBlockReward s b.header.proposer b.header.height hbps
  refine ⟨fun hp => hsolvent (hkeep.solvent hp), htotal.trans ?_⟩
  rw [hkeep.total]
  rfl

end Lxs
