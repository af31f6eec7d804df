import Lxs.State.Creation

/-!
# The receipts of a block

Every transaction of a block leaves one receipt, with its gas, the gas of the block up to it, and its logs. The total of
the gas is a 64-bit sum that is compared with the limit after each transaction: it is exact as long as the gas of the
receipts is below `2 ^ 64`, which a gas limit below `2 ^ 63` is enough for. A state collects the logs of every transaction
applied to it, and a copy keeps them, so the state after a block has the logs of the state before it, followed by those of
the receipts.
-/

set_option linter.unusedSectionVars false

namespace Lxs

open State Vm

variable [Crypto] {s t u : State} {tx : Transaction} {txs : List Transaction} {h : Header} {sender coinbase : Address}
  {price amount : ℤ} {blockGasLimit gas total : UInt64} {receipts : List Receipt}

/-! ### One transaction -/

theorem State.Extends.logs (h : s.Extends t) : s.logs <+: t.logs := h.store.extra

theorem runTx_gas {ctx : Address → Context} {budget : UInt64} {r : TxRun}
    (hr : runTx ctx tx sender amount budget s = some r) : r.gasUsed.toNat ≤ budget.toNat := by
  have hexec : ∀ {code input : Bytes} {c : Context} {s t : State} {res : Result},
      execute code input budget c 0 s = .ok (t, res) → res.gasLeft.toNat ≤ budget.toNat := by
    intro code input c s t res hx
    obtain ⟨t', res', hx', hres⟩ := run_ok (newInterp_wf code input budget c 0) s
    cases hx.symm.trans hx'
    exact hres.left
  have hsub : ∀ {left : UInt64}, left.toNat ≤ budget.toNat → (budget - left).toNat = budget.toNat - left.toNat :=
    toNat_sub_le
  unfold runTx at hr
  split at hr
  · unfold runCreation at hr
    dsimp only at hr
    split_ifs at hr
    · cases hr
      exact le_rfl
    · split at hr
      · cases hr
      · rename_i t res hx
        have hleft := hexec hx
        split_ifs at hr with herr hsize hdeposit
        · cases hr
          show (budget - res.gasLeft).toNat ≤ _
          rw [hsub hleft]
          omega
        · cases hr
          exact le_rfl
        · cases hr
          exact le_rfl
        · cases hr
          have hle := UInt64.le_iff_toNat_le.1 (UInt64.not_lt.1 hdeposit)
          have := budget.toNat_lt
          show (budget - res.gasLeft + _).toNat ≤ _
          rw [UInt64.toNat_add, hsub hleft]
          omega
  · split_ifs at hr
    · unfold runCall at hr
      dsimp only at hr
      split at hr
      · cases hr
      · rename_i t res hx
        cases hr
        show (budget - res.gasLeft).toNat ≤ _
        rw [hsub (hexec hx)]
        omega
    · cases hr
      exact Nat.zero_le _
    · cases hr
      exact Nat.zero_le _

theorem executeTx_receipt (hgas : intrinsicGasFor tx.data tx.toAddr.isNone ≤ tx.gasLimit) {r : TxResult}
    (hx : executeTx s tx sender coinbase blockGasLimit price amount = some (t, r)) :
    t.logs = s.logs ++ r.logs ∧ r.gasUsed ≤ tx.gasLimit := by
  unfold executeTx at hx
  dsimp only at hx
  generalize hr : runTx _ tx sender amount _ _ = run at hx
  cases run with
  | none => cases hx
  | some run =>
    cases hx
    have hin := (runTx_inside hr (inside_startTx s sender)).1
    constructor
    · show (settleTx _ _ _ _ _).logs = s.logs ++ (settleTx _ _ _ _ _).logs.drop s.logs.length
      rw [logs_settleTx]
      refine (List.prefix_iff_eq_append.1 ?_).symm
      unfold TxRun.close
      split
      · exact hin.logs
      · dsimp only
        rw [revertToSnapshot_of_extends hin]
        exact List.prefix_rfl
    · have hused : ∀ {n : ℕ}, (run.close n (tx.gasLimit - intrinsicGasFor tx.data tx.toAddr.isNone)).2.2.toNat ≤
          (tx.gasLimit - intrinsicGasFor tx.data tx.toAddr.isNone).toNat := by
        intro n
        unfold TxRun.close
        split
        · exact runTx_gas hr
        · dsimp only
          split_ifs
          · exact runTx_gas hr
          · exact le_rfl
      have hle := UInt64.le_iff_toNat_le.1 hgas
      exact UInt64.le_iff_toNat_le.2 (gasUsed_bounds hle hused le_rfl).2.1

theorem checkTx_gas {v : Unit} (hc : checkTx s tx sender blockGasLimit = some (.ok v)) :
    intrinsicGasFor tx.data tx.toAddr.isNone ≤ tx.gasLimit ∧ (blockGasLimit = 0 ∨ tx.gasLimit ≤ blockGasLimit) := by
  unfold checkTx at hc
  dsimp only at hc
  split at hc
  · cases hc
  split at hc
  · cases hc
  split at hc
  · cases hc
  rename_i hint
  split at hc
  · cases hc
  rename_i hblock
  refine ⟨UInt64.not_lt.1 hint, ?_⟩
  by_cases hz : blockGasLimit = 0
  · exact .inl hz
  · exact .inr (UInt64.not_lt.1 fun hlt => hblock ⟨UInt64.pos_iff_ne_zero.2 hz, hlt⟩)

theorem TxStep.receipt {r : TxResult} (hs : TxStep h s tx t r) :
    t.logs = s.logs ++ r.logs ∧ r.gasUsed ≤ tx.gasLimit ∧ (h.gasLimit = 0 ∨ tx.gasLimit ≤ h.gasLimit) := by
  obtain ⟨happ⟩ := hs
  unfold applyTx at happ
  split at happ
  · cases happ
  · rename_i sender hsender
    split at happ
    · cases happ
    · rename_i price amount hcheck hprice hamount
      obtain ⟨⟨t', r'⟩, hx, heq⟩ := Option.map_eq_some_iff.1 happ
      cases heq
      obtain ⟨hint, hblock⟩ := checkTx_gas hcheck
      obtain ⟨hlogs, hgas⟩ := executeTx_receipt hint hx
      exact ⟨hlogs, hgas, hblock⟩
    · cases happ

/-! ### The loop over the transactions -/

/-- The transactions of a block one after another, from a total of gas: what is left, the total, and the receipts. -/
inductive TxRuns (h : Header) : UInt64 → List Transaction → State → State → UInt64 → List Receipt → Prop
  | nil {gas : UInt64} {s : State} : TxRuns h gas [] s s gas []
  | cons {gas total : UInt64} {tx : Transaction} {txs : List Transaction} {s t u : State} {r : TxResult}
      {receipts : List Receipt} : TxStep h s tx t r → gas + r.gasUsed ≤ h.gasLimit →
      TxRuns h (gas + r.gasUsed) txs t u total receipts →
      TxRuns h gas (tx :: txs) s u total (⟨r.status.code, gas + r.gasUsed, r.gasUsed, r.logs⟩ :: receipts)

theorem txRuns_of_applyTxs : ∀ {i : ℕ} {gas : UInt64} {s : State},
    applyTxs h i gas txs s = .ok (u, total, receipts) → TxRuns h gas txs s u total receipts := by
  induction txs generalizing receipts with
  | nil =>
    intro i gas s hr
    cases hr
    exact .nil
  | cons tx txs ih =>
    intro i gas s hr
    unfold applyTxs at hr
    split at hr
    · cases hr
    · cases hr
    · rename_i t r happ
      split_ifs at hr with hfull
      split at hr
      · cases hr
      · rename_i hrest
        cases hr
        exact .cons ⟨happ⟩ (UInt64.not_lt.1 hfull) (ih hrest)

def logsOf (receipts : List Receipt) : List Log := receipts.flatMap Receipt.logs

def gasOf (receipts : List Receipt) : ℕ := (receipts.map fun r => r.gasUsed.toNat).sum

theorem gasOf_cons (r : Receipt) (receipts : List Receipt) : gasOf (r :: receipts) = r.gasUsed.toNat + gasOf receipts := by
  rw [gasOf, List.map_cons, List.sum_cons, gasOf]

/-- The gas that transactions use one after another, without machine arithmetic. -/
def spentGas (h : Header) : List Transaction → State → ℕ
  | [], _ => 0
  | tx :: txs, s =>
    match applyTx s tx h.proposer h.gasLimit with
    | some (t, .ok r) => r.gasUsed.toNat + spentGas h txs t
    | _ => 0

def Cumulative (start : ℕ) (receipts : List Receipt) : Prop :=
  ∀ pre r post, receipts = pre ++ r :: post → r.cumulativeGasUsed.toNat = start + gasOf pre + r.gasUsed.toNat

theorem Cumulative.cons {start : ℕ} {r : Receipt} (hr : r.cumulativeGasUsed.toNat = start + r.gasUsed.toNat)
    (hrest : Cumulative (start + r.gasUsed.toNat) receipts) : Cumulative start (r :: receipts) := by
  intro pre x post heq
  cases pre with
  | nil =>
    cases heq
    exact hr
  | cons y pre =>
    cases heq
    rw [hrest pre x post rfl, gasOf_cons]
    omega

namespace TxRuns

variable (hruns : TxRuns h gas txs s u total receipts)
include hruns

theorem logs : u.logs = s.logs ++ logsOf receipts := by
  induction hruns with
  | nil => simp [logsOf]
  | cons hstep _ _ ih =>
    rw [ih, hstep.receipt.1, List.append_assoc]
    rfl

theorem exact (hfits : gas.toNat + gasOf receipts < 2 ^ 64) :
    total.toNat = gas.toNat + gasOf receipts ∧ Cumulative gas.toNat receipts := by
  induction hruns with
  | nil => exact ⟨rfl, fun pre r post heq => by simp at heq⟩
  | @cons gas total tx txs s t u r receipts hstep _ _ ih =>
    rw [gasOf_cons] at hfits ⊢
    dsimp only at hfits ⊢
    have hadd : (gas + r.gasUsed).toNat = gas.toNat + r.gasUsed.toNat := by
      rw [UInt64.toNat_add, Nat.mod_eq_of_lt (by omega)]
    obtain ⟨htotal, hrest⟩ := ih (by omega)
    rw [hadd] at htotal hrest
    exact ⟨by omega, .cons hadd hrest⟩

theorem le_gasLimit (hgas : gas ≤ h.gasLimit) : total ≤ h.gasLimit := by
  induction hruns with
  | nil => exact hgas
  | cons _ hle _ ih => exact ih hle

theorem gasOf_le_gasLimit (hlimit : h.gasLimit.toNat < 2 ^ 63) (hgas : gas ≤ h.gasLimit) :
    gas.toNat + gasOf receipts ≤ h.gasLimit.toNat := by
  induction hruns with
  | nil => exact UInt64.le_iff_toNat_le.1 hgas
  | @cons gas total tx txs s t u r receipts hstep hle _ ih =>
    have hused : r.gasUsed.toNat ≤ h.gasLimit.toNat := by
      obtain ⟨-, hused, hzero | hblock⟩ := hstep.receipt
      · -- with a limit of zero the total stays zero, so the transaction used nothing
        rw [hzero] at hgas hle ⊢
        rw [UInt64.le_zero_iff.1 hgas, UInt64.zero_add] at hle
        exact UInt64.le_iff_toNat_le.1 hle
      · exact UInt64.le_iff_toNat_le.1 (UInt64.le_trans hused hblock)
    have hgas := UInt64.le_iff_toNat_le.1 hgas
    have hadd : (gas + r.gasUsed).toNat = gas.toNat + r.gasUsed.toNat := by
      rw [UInt64.toNat_add, Nat.mod_eq_of_lt (by omega)]
    have hrest := ih hle
    rw [gasOf_cons]
    dsimp only
    omega

theorem gasOf_le_declared : gasOf receipts ≤ (txs.map fun tx => tx.gasLimit.toNat).sum := by
  induction hruns with
  | nil => exact le_rfl
  | cons hstep _ _ ih =>
    have hused := UInt64.le_iff_toNat_le.1 hstep.receipt.2.1
    rw [gasOf_cons, List.map_cons, List.sum_cons]
    exact Nat.add_le_add hused ih

theorem spentGas_eq : spentGas h txs s = gasOf receipts := by
  induction hruns with
  | nil => rfl
  | cons hstep _ _ ih =>
    obtain ⟨happ⟩ := hstep
    rw [spentGas, happ, gasOf_cons, ← ih]

end TxRuns

/-! ### The block -/

section Block

variable {tr : Treasury} {parent next : State} {b : Block} {p : Header} {parentHeader : Option Header}

theorem logs_creditBlockReward (tr : Treasury) (s : State) (miner : Address) (height : UInt64) :
    (creditBlockReward tr s miner height).logs = s.logs := by
  unfold creditBlockReward
  dsimp only
  split_ifs
  · exact burn_logs _ _
  · rfl
  · rfl

theorem txRuns_of_applyBlock (happ : applyBlock tr parent b parentHeader = .ok (next, receipts)) : ∃ t,
    TxRuns b.header 0 b.txs (blockState parent b.header) t b.header.gasUsed receipts ∧ next.logs = t.logs := by
  unfold applyBlock at happ
  split_ifs at happ
  split at happ
  · cases happ
  split at happ
  · cases happ
  rename_i t total rs htxs
  unfold sealBlock at happ
  dsimp only at happ
  split_ifs at happ with hgas
  cases happ
  rw [not_not] at hgas
  exact ⟨t, hgas ▸ txRuns_of_applyTxs htxs, logs_creditBlockReward _ _ _ _⟩

/-- **The logs of the parent are kept**: the state after a block has them, followed by those of the receipts. -/
theorem Applied.logs (happ : Applied tr parent b p next receipts) : next.logs = parent.logs ++ logsOf receipts := by
  obtain ⟨t, hruns, hlogs⟩ := txRuns_of_applyBlock (applyBlock_ok_iff.2 happ)
  rw [hlogs]
  exact hruns.logs

def GasExact (b : Block) (receipts : List Receipt) : Prop :=
  b.header.gasUsed.toNat = gasOf receipts ∧ b.header.gasUsed ≤ b.header.gasLimit ∧ Cumulative 0 receipts

theorem TxRuns.gasExact_iff (hruns : TxRuns b.header 0 b.txs s t b.header.gasUsed receipts) :
    GasExact b receipts ↔ gasOf receipts < 2 ^ 64 := by
  have hzero : (0 : UInt64).toNat = 0 := rfl
  constructor
  · rintro ⟨hsum, -, -⟩
    rw [← hsum]
    exact UInt64.toNat_lt _
  · intro hfits
    obtain ⟨hsum, hcumulative⟩ := hruns.exact (by omega)
    rw [hzero, zero_add] at hsum
    exact ⟨hsum, hruns.le_gasLimit UInt64.zero_le, hcumulative⟩

theorem TxRuns.gasOf_lt (hruns : TxRuns h 0 txs s t total receipts)
    (hcond : h.gasLimit.toNat < 2 ^ 63 ∨ (txs.map fun tx => tx.gasLimit.toNat).sum < 2 ^ 64) : gasOf receipts < 2 ^ 64 := by
  rcases hcond with hlimit | hdeclared
  · have := hruns.gasOf_le_gasLimit hlimit UInt64.zero_le
    omega
  · exact Nat.lt_of_le_of_lt hruns.gasOf_le_declared hdeclared

end Block

end Lxs
