import Lxs.State.Transition

/-!
# What a transaction does

One specification for the execution inside a transaction, over its four cases, and from it what a whole
transaction does: an error changes nothing, a failure leaves only the fee, and value is conserved.
-/

set_option linter.unusedSectionVars false

namespace Lxs

open Std Vm

variable [Crypto]

/-! ### Checked transactions -/

structure Transaction.Sane (tx : Transaction) (sender : Address) (price amount : ℤ) : Prop where
  sender : tx.sender = .ok sender
  gasPrice : tx.gasPrice = some price
  value : tx.value = some amount
  price_nonneg : 0 ≤ price
  amount_nonneg : 0 ≤ amount
  intrinsic : intrinsicGasFor tx.data tx.toAddr.isNone ≤ tx.gasLimit

variable {tx : Transaction}

theorem Transaction.sane_of_sanityCheck {chainID : UInt64} (h : tx.sanityCheck chainID = .ok ()) :
    ∃ sender price amount, tx.Sane sender price amount := by
  unfold sanityCheck at h
  split_ifs at h with _ _ hv hp hg _
  simp only [Bool.not_eq_true', Bool.not_eq_false] at hv hp
  obtain ⟨amount, hv, hv0⟩ := exists_of_isNonneg hv
  obtain ⟨price, hp, hp0⟩ := exists_of_isNonneg hp
  cases hs : tx.sender with
  | error e => rw [hs] at h; cases h
  | ok sender => exact ⟨sender, price, amount, hs, hp, hv, hp0, hv0, UInt64.not_lt.1 hg⟩

/-! ### The execution inside a transaction -/

open State

/-- What the execution inside a transaction promises, from a state in which `amount` has left the sender. -/
structure RunOk (amount : ℤ) (budget : UInt64) (s : State) (r : TxRun) : Prop where
  inside : ∀ b : State, b.Inside s → b.Inside r.state
  gas : r.gasUsed.toNat ≤ budget.toNat
  solvent : s.Solvent → r.state.Solvent
  total : r.fault = none → r.state.sumBalances + r.state.burned = s.sumBalances + s.burned + amount
  writes : s.Writes r.state

theorem toNat_sub_le {a b : UInt64} (h : b.toNat ≤ a.toNat) : (a - b).toNat = a.toNat - b.toNat :=
  UInt64.toNat_sub_of_le a b (UInt64.le_iff_toNat_le.2 h)

section Run

variable {ctx : Address → Context} {tx : Transaction} {sender target : Address} {amount : ℤ} {budget : UInt64} {s : State}

theorem executed_ok {code input : Bytes} {addr : Address} {t : State} {res : Result} {c : Context} (hv : 0 ≤ amount)
    (h : execute code input budget c 0 (s.credit addr amount) = .ok (t, res)) :
    RunOk amount budget s (.ofResult t budget res) ∧ res.gasLeft.toNat ≤ budget.toNat := by
  have heff := execute_effects h
  have hcons := effects_conserves heff
  obtain ⟨t', res', h', hres⟩ := run_ok (newInterp_wf code input budget c 0) (s.credit addr amount)
  obtain ⟨rfl, rfl⟩ : t = t' ∧ res = res' := by
    have := h.symm.trans h'
    cases this
    exact ⟨rfl, rfl⟩
  have hleft : res.gasLeft.toNat ≤ budget.toNat := hres.left
  refine ⟨⟨fun b hb => effects_inside heff b (hb.credit addr amount), ?_, fun hs => hcons.solvent (hs.credit hv addr), ?_,
    ((Writes.refl s).credit addr amount).trans (effects_writes heff)⟩, hleft⟩
  · show (budget - res.gasLeft).toNat ≤ _
    rw [toNat_sub_le hleft]
    omega
  · intro _
    show t.sumBalances + t.burned = _
    rw [hcons.sum, hcons.burned, sumBalances_credit, burned_credit]
    omega

theorem runCall_ok (hv : 0 ≤ amount) : ∃ r, runCall ctx tx target amount budget s = some r ∧ RunOk amount budget s r := by
  obtain ⟨t, res, hr, -⟩ := run_ok (newInterp_wf ((s.credit target amount).getCode target) tx.data budget (ctx target) 0)
    (s.credit target amount)
  refine ⟨.ofResult t budget res, ?_, (executed_ok hv hr).1⟩
  unfold runCall execute
  simp only [hr]

theorem RunOk.fault {r : TxRun} (h : RunOk amount budget s r) (f : TxFault) :
    RunOk amount budget s ⟨r.state, budget, some f⟩ :=
  ⟨h.inside, le_rfl, h.solvent, (fun hn => by cases hn), h.writes⟩

theorem runCreation_ok (hv : 0 ≤ amount) :
    ∃ r, runCreation ctx tx sender amount budget s = some r ∧ RunOk amount budget s r := by
  unfold runCreation
  dsimp only
  split
  · exact ⟨_, rfl, fun _ hb => hb, le_rfl, id, (fun h => by cases h), .refl _⟩
  · obtain ⟨t, res, hr, -⟩ := run_ok (newInterp_wf tx.data [] budget (ctx (createAddress sender tx.nonce)) 0)
      (s.credit (createAddress sender tx.nonce) amount)
    obtain ⟨hok, hleft⟩ := executed_ok hv hr
    unfold execute
    simp only [hr]
    split_ifs with herr _ hgas
    · exact ⟨_, rfl, hok⟩
    · exact ⟨_, rfl, hok.fault _⟩
    · exact ⟨_, rfl, hok.fault _⟩
    · have hset : Conserves t (t.set (createAddress sender tx.nonce)
          { t.get (createAddress sender tx.nonce) with code := res.ret }) := conserves_set rfl
      have hle := UInt64.le_iff_toNat_le.1 (UInt64.not_lt.1 hgas)
      refine ⟨_, rfl, fun b hb => (hok.inside b hb).set _ _, ?_, fun hs => hset.solvent (hok.solvent hs), fun _ => ?_,
        hok.writes.set _ _⟩
      · show (budget - res.gasLeft + _).toNat ≤ _
        have hsub := toNat_sub_le hleft
        rw [UInt64.toNat_add, hsub]
        have := budget.toNat_lt
        omega
      · have herr : (TxRun.ofResult t budget res).fault = none := by simpa [TxRun.ofResult] using herr
        have htot := hok.total herr
        have hsum : (t.setCode (createAddress sender tx.nonce) res.ret).sumBalances = t.sumBalances := hset.sum
        show (t.setCode (createAddress sender tx.nonce) res.ret).sumBalances + t.burned = _
        rw [hsum]
        exact htot

variable (ctx tx sender budget s) in
theorem runTx_ok (hv : 0 ≤ amount) : ∃ r, runTx ctx tx sender amount budget s = some r ∧ RunOk amount budget s r := by
  unfold runTx
  split
  · exact runCreation_ok hv
  · rename_i target _
    split_ifs
    · exact runCall_ok hv
    · refine ⟨_, rfl, fun b hb => hb.burn (some amount), Nat.zero_le _, fun hs => hs.burn (some amount), fun _ => ?_,
        (Writes.refl s).burn (some amount)⟩
      show (s.burn _).sumBalances + (s.burn _).burned = _
      rw [burned_burn s hv, sumBalances_burn]
      omega
    · refine ⟨_, rfl, fun b hb => hb.credit target amount, Nat.zero_le _, fun hs => hs.credit hv target, fun _ => ?_,
        (Writes.refl s).credit target amount⟩
      show (s.credit target amount).sumBalances + (s.credit target amount).burned = _
      rw [sumBalances_credit, burned_credit]
      omega

end Run

/-! ### Fees -/

theorem feeTip_add_feeBurn (fee : ℤ) : feeTip fee + feeBurn fee = fee := Int.sub_add_cancel _ _

theorem feeBurn_nonneg {fee : ℤ} (h : 0 ≤ fee) : 0 ≤ feeBurn fee :=
  Int.ediv_nonneg (Int.mul_nonneg h (by decide)) (by decide)

theorem feeBurn_le {fee : ℤ} (h : 0 ≤ fee) : feeBurn fee ≤ fee := by
  have hc : (feeBurnBasisPoints.toNat : ℤ) = 2000 := rfl
  unfold feeBurn
  rw [hc]
  omega

section Settle

variable (s : State) (sender coinbase : Address) {maxFee spent : ℤ}

theorem settleTx_refund (h : spent ≤ maxFee) (a : Address) :
    (if 0 < maxFee - spent then s.credit sender (maxFee - spent) else s).get a =
      { s.get a with balance := (s.get a).balance + if sender = a then maxFee - spent else 0 } := by
  split
  · rw [get_credit]
    split <;> simp
  · have : maxFee - spent = 0 := by omega
    simp [this]

theorem get_settleTx (h : spent ≤ maxFee) (a : Address) :
    (settleTx s sender coinbase maxFee spent).get a = { s.get a with
      balance := (s.get a).balance + (if sender = a then maxFee - spent else 0) +
        if coinbase = a then feeTip spent else 0 } := by
  unfold settleTx distributeFee
  dsimp only
  rw [get_credit, get_burn, settleTx_refund s sender h]
  split <;> simp

theorem burned_settleTx (h : 0 ≤ spent) :
    (settleTx s sender coinbase maxFee spent).burned = s.burned + feeBurn spent := by
  unfold settleTx distributeFee
  dsimp only
  rw [burned_credit, burned_burn _ (feeBurn_nonneg h)]
  split <;> rfl

theorem logs_settleTx : (settleTx s sender coinbase maxFee spent).logs = s.logs := by
  unfold settleTx distributeFee
  dsimp only
  show (State.burn _ _).logs = _
  rw [burn_logs]
  split <;> rfl

theorem sumBalances_settleTx (h : spent ≤ maxFee) :
    (settleTx s sender coinbase maxFee spent).sumBalances = s.sumBalances + (maxFee - spent) + feeTip spent := by
  unfold settleTx distributeFee
  dsimp only
  rw [sumBalances_credit, sumBalances_burn]
  split
  · rw [sumBalances_credit]
  · omega

theorem writes_settleTx : s.Writes (settleTx s sender coinbase maxFee spent) := by
  unfold settleTx distributeFee
  dsimp only
  split
  · exact (((Writes.refl s).credit _ _).burn _).credit _ _
  · exact ((Writes.refl s).burn _).credit _ _

theorem solvent_settleTx (hs : s.Solvent) (h₀ : 0 ≤ spent) (h : spent ≤ maxFee) :
    (settleTx s sender coinbase maxFee spent).Solvent := by
  intro a
  have htip : 0 ≤ feeTip spent := by have := feeBurn_le h₀; unfold feeTip; omega
  have := hs a
  rw [balance, get_settleTx s sender coinbase h]
  show 0 ≤ s.balance a + _ + _
  split_ifs <;> omega

end Settle

section Charge

variable (s : State) (sender : Address) {maxFee amount : ℤ}

theorem get_chargeTx (a : Address) : (chargeTx s sender maxFee).get a = if sender = a then
    { s.get a with balance := (s.get a).balance - maxFee, nonce := (s.get a).nonce + 1 } else s.get a :=
  s.get_update sender _ a

theorem balance_chargeTx (a : Address) :
    (chargeTx s sender maxFee).balance a = s.balance a - if sender = a then maxFee else 0 := by
  rw [balance, get_chargeTx]
  split
  · rfl
  · exact (Int.sub_zero _).symm

theorem sumBalances_chargeTx : (chargeTx s sender maxFee).sumBalances = s.sumBalances - maxFee := by
  have := s.sumBalances_update sender fun acc => { acc with balance := acc.balance - maxFee, nonce := acc.nonce + 1 }
  simp only [balance] at this
  unfold chargeTx
  omega

theorem sumBalances_startTx : (startTx s sender maxFee amount).sumBalances = s.sumBalances - maxFee - amount := by
  unfold startTx
  rw [sumBalances_subBalance]
  exact congrArg (· - amount) (sumBalances_chargeTx s sender)

theorem solvent_startTx (hs : s.Solvent) (hcost : maxFee + amount ≤ s.balance sender) :
    (startTx s sender maxFee amount).Solvent := by
  intro a
  have hb : (chargeTx s sender maxFee).snapshot.balance a = s.balance a - if sender = a then maxFee else 0 :=
    balance_chargeTx s sender a
  unfold startTx
  rw [balance_subBalance, hb]
  have := hs a
  split
  · subst a; omega
  · omega

theorem solvent_chargeTx (hs : s.Solvent) (hcost : maxFee ≤ s.balance sender) : (chargeTx s sender maxFee).Solvent := by
  intro a
  have := hs a
  rw [balance_chargeTx]
  split
  · subst a; omega
  · omega

theorem writes_chargeTx : s.Writes (chargeTx s sender maxFee) := (Writes.refl s).set _ _

theorem writes_startTx : s.Writes (startTx s sender maxFee amount) := (writes_chargeTx s sender).snapshot.set _ _

theorem inside_startTx : (chargeTx s sender maxFee).snapshot.Inside (startTx s sender maxFee amount) := by
  have h : (chargeTx s sender maxFee).snapshot.Inside (chargeTx s sender maxFee).snapshot :=
    ⟨.refl _, by simp [State.snapshot]⟩
  exact h.set _ _

end Charge

/-! ### One transaction -/

/-- What is left once the execution inside a transaction is closed: kept, or undone to the state in which only gas and
nonce are charged. -/
structure ClosedOk (s : State) (sender : Address) (maxFee : ℤ) (budget : UInt64) (t : State) (status : ReceiptStatus)
    (used : UInt64) : Prop where
  gas : used.toNat ≤ budget.toNat
  failed : status = .failed → t = chargeTx s sender maxFee
  solvent : s.Solvent → t.Solvent
  total : t.sumBalances + t.burned = s.sumBalances + s.burned - maxFee
  writes : s.Writes t

variable {s : State} {sender : Address}

theorem TxRun.close_ok {maxFee amount : ℤ} {budget : UInt64} {r : TxRun}
    (h : RunOk amount budget (startTx s sender maxFee amount) r) (hamount : 0 ≤ amount)
    (hcost : maxFee + amount ≤ s.balance sender) {t : State} {status : ReceiptStatus} {used : UInt64}
    (hc : r.close (chargeTx s sender maxFee).snapshots.length budget = (t, status, used)) :
    ClosedOk s sender maxFee budget t status used := by
  have hburned : (chargeTx s sender maxFee).burned = s.burned := rfl
  have hsum : (chargeTx s sender maxFee).sumBalances = s.sumBalances - maxFee := sumBalances_chargeTx s sender
  unfold close at hc
  split at hc
  · rename_i hf
    cases hc
    refine ⟨h.gas, fun hst => (by cases hst), fun hs => h.solvent (solvent_startTx s sender hs hcost), ?_,
      ((writes_startTx s sender).trans h.writes).discardSnapshots⟩
    have htot := h.total hf
    have hstart : (startTx s sender maxFee amount).sumBalances = s.sumBalances - maxFee - amount :=
      sumBalances_startTx s sender
    have hstart' : (startTx s sender maxFee amount).burned = s.burned := rfl
    show r.state.sumBalances + r.state.burned = _
    omega
  · rw [revertToSnapshot_of_extends (h.inside _ (inside_startTx s sender)).1] at hc
    cases hc
    refine ⟨?_, fun _ => rfl, fun hs => solvent_chargeTx s sender hs (by omega), by omega, writes_chargeTx s sender⟩
    split
    · exact h.gas
    · exact le_rfl

structure TxOk (s : State) (tx : Transaction) (sender coinbase : Address) (price : ℤ) (t : State) (r : TxResult) :
    Prop where
  intrinsic_le : intrinsicGasFor tx.data tx.toAddr.isNone ≤ r.gasUsed
  le_gasLimit : r.gasUsed ≤ tx.gasLimit
  failed : r.status = .failed → r.logs = [] ∧
    t = settleTx (chargeTx s sender (tx.gasLimit.toNat * price)) sender coinbase (tx.gasLimit.toNat * price)
      (r.gasUsed.toNat * price)
  solvent : s.Solvent → t.Solvent
  total : t.sumBalances + t.burned = s.sumBalances + s.burned
  writes : s.Writes t

theorem gasUsed_bounds {intrinsic used limit : UInt64} {price : ℤ} (hle : intrinsic.toNat ≤ limit.toNat)
    (hu : used.toNat ≤ (limit - intrinsic).toNat) (hp : 0 ≤ price) :
    intrinsic.toNat ≤ (intrinsic + used).toNat ∧ (intrinsic + used).toNat ≤ limit.toNat ∧
      0 ≤ ((intrinsic + used).toNat * price : ℤ) ∧ ((intrinsic + used).toNat * price : ℤ) ≤ limit.toNat * price := by
  have := limit.toNat_lt
  rw [toNat_sub_le hle] at hu
  have hadd : (intrinsic + used).toNat = intrinsic.toNat + used.toNat := by
    rw [UInt64.toNat_add]
    omega
  refine ⟨by omega, by omega, Int.mul_nonneg (Int.natCast_nonneg _) hp, ?_⟩
  exact Int.mul_le_mul_of_nonneg_right (by omega) hp

variable {price amount : ℤ}

/-- **A transaction past its checks is executed**, within its gas limit, and conserves value. -/
theorem executeTx_ok (coinbase : Address)
    (blockGasLimit : UInt64) (h : tx.Sane sender price amount)
    (hcost : tx.gasLimit.toNat * price + amount ≤ s.balance sender) :
    ∃ t r, executeTx s tx sender coinbase blockGasLimit price amount = some (t, r) ∧
      TxOk s tx sender coinbase price t r := by
  obtain ⟨run, hrun, hok⟩ := runTx_ok
    (txContext (startTx s sender (tx.gasLimit.toNat * price) amount) tx sender coinbase blockGasLimit price amount)
    tx sender (tx.gasLimit - intrinsicGasFor tx.data tx.toAddr.isNone)
    (startTx s sender (tx.gasLimit.toNat * price) amount) h.amount_nonneg
  unfold executeTx
  dsimp only
  rw [hrun]
  dsimp only
  generalize hc : run.close _ _ = c
  obtain ⟨t, status, used⟩ := c
  have hclosed := TxRun.close_ok hok h.amount_nonneg hcost hc
  obtain ⟨hlow, hhigh, hpos, hspent⟩ :=
    gasUsed_bounds (UInt64.le_iff_toNat_le.1 h.intrinsic) hclosed.gas h.price_nonneg
  refine ⟨_, _, rfl, UInt64.le_iff_toNat_le.2 hlow, UInt64.le_iff_toNat_le.2 hhigh, fun hst => ⟨?_, ?_⟩, fun hs => ?_, ?_,
    hclosed.writes.trans (writes_settleTx _ _ _)⟩
  · show State.logsSince _ _ = []
    rw [logsSince, logs_settleTx, hclosed.failed hst]
    exact List.drop_length
  · rw [hclosed.failed hst]
  · exact solvent_settleTx _ _ _ (hclosed.solvent hs) hpos hspent
  · have htot := hclosed.total
    have htip := feeTip_add_feeBurn
      ((intrinsicGasFor tx.data tx.toAddr.isNone + used).toNat * price)
    show (settleTx t _ _ _ _).sumBalances + (settleTx t _ _ _ _).burned = _
    rw [sumBalances_settleTx _ _ _ hspent, burned_settleTx _ _ _ hpos]
    omega

theorem checkTx_cases
    (h : tx.Sane sender price amount) (blockGasLimit : UInt64) :
    (∃ e, checkTx s tx sender blockGasLimit = some (.error e)) ∨
      checkTx s tx sender blockGasLimit = some (.ok ()) ∧ tx.nonce = s.nonce sender ∧
        (blockGasLimit = 0 ∨ tx.gasLimit ≤ blockGasLimit) ∧
        tx.gasLimit.toNat * price + amount ≤ s.balance sender := by
  have hcost : tx.cost = some (tx.gasLimit.toNat * price + amount) := by
    simp [Transaction.cost, h.gasPrice, h.value]
  unfold checkTx
  dsimp only
  rw [hcost]
  dsimp only
  split_ifs with hlow hhigh hgas hblock hbal
  · exact .inl ⟨_, rfl⟩
  · exact .inl ⟨_, rfl⟩
  · exact .inl ⟨_, rfl⟩
  · exact .inl ⟨_, rfl⟩
  · exact .inl ⟨_, rfl⟩
  · refine .inr ⟨rfl, UInt64.le_antisymm (UInt64.not_lt.1 hhigh) (UInt64.not_lt.1 hlow), ?_, Int.not_lt.1 hbal⟩
    by_cases hz : blockGasLimit = 0
    · exact .inl hz
    · have hpos : 0 < blockGasLimit := UInt64.pos_iff_ne_zero.2 hz
      exact .inr (UInt64.not_lt.1 fun hlt => hblock ⟨hpos, hlt⟩)

/-- **A sane transaction is refused, with nothing changed, or executed.** -/
theorem applyTx_cases
    (h : tx.Sane sender price amount) (coinbase : Address) (blockGasLimit : UInt64) :
    (∃ e, applyTx s tx coinbase blockGasLimit = some (s, .error e)) ∨
      ∃ t r, applyTx s tx coinbase blockGasLimit = some (t, .ok r) ∧
        executeTx s tx sender coinbase blockGasLimit price amount = some (t, r) ∧
        TxOk s tx sender coinbase price t r := by
  unfold applyTx
  rw [h.sender, h.gasPrice, h.value]
  dsimp only
  obtain ⟨e, hc⟩ | ⟨hc, -, -, hcost⟩ := checkTx_cases (s := s) h blockGasLimit
  · rw [hc]
    exact .inl ⟨e, rfl⟩
  · rw [hc]
    obtain ⟨t, r, hr, hok⟩ := executeTx_ok coinbase blockGasLimit h hcost
    exact .inr ⟨t, r, by simp only [hr, Option.map_some], hr, hok⟩

/-- **A failed transaction leaves only its fee.** A transaction that passes `sanityCheck` returns. With an error the
state is unchanged. Otherwise its gas is between the intrinsic gas and its gas limit, and if it failed it has no logs
and every account is as before, but for the nonce and the fee of the sender and the tip of the coinbase; the rest of
the fee is burned. -/
theorem applyTx_failed_leaves_fee {s : State} {tx : Transaction} {coinbase : Address} {blockGasLimit chainID : UInt64}
    (h : tx.sanityCheck chainID = .ok ()) :
    ∃ s' res, applyTx s tx coinbase blockGasLimit = some (s', res) ∧
      match res with
      | .error _ => s' = s
      | .ok r =>
        intrinsicGasFor tx.data tx.toAddr.isNone ≤ r.gasUsed ∧ r.gasUsed ≤ tx.gasLimit ∧
        (r.status = .failed → ∃ sender price, tx.sender = .ok sender ∧ tx.gasPrice = some price ∧
          let spent : ℤ := r.gasUsed.toNat * price
          feeTip spent + feeBurn spent = spent ∧ r.logs = [] ∧ s'.logs = s.logs ∧
          s'.burned = s.burned + feeBurn spent ∧
          ∀ a, s'.get a =
            { s.get a with
              nonce := (s.get a).nonce + if sender = a then 1 else 0
              balance := (s.get a).balance - (if sender = a then spent else 0) +
                if coinbase = a then feeTip spent else 0 }) := by
  obtain ⟨sender, price, amount, hsane⟩ := Transaction.sane_of_sanityCheck h
  obtain ⟨e, he⟩ | ⟨t, r, hr, -, hok⟩ := applyTx_cases (s := s) hsane coinbase blockGasLimit
  · exact ⟨s, .error e, he, rfl⟩
  · refine ⟨t, .ok r, hr, hok.intrinsic_le, hok.le_gasLimit, fun hst => ⟨sender, price, hsane.sender, hsane.gasPrice, ?_⟩⟩
    obtain ⟨hlogs, rfl⟩ := hok.failed hst
    have hpos : 0 ≤ (r.gasUsed.toNat * price : ℤ) := Int.mul_nonneg (Int.natCast_nonneg _) hsane.price_nonneg
    have hle : (r.gasUsed.toNat * price : ℤ) ≤ tx.gasLimit.toNat * price :=
      Int.mul_le_mul_of_nonneg_right (by exact_mod_cast UInt64.le_iff_toNat_le.1 hok.le_gasLimit) hsane.price_nonneg
    refine ⟨feeTip_add_feeBurn _, hlogs, logs_settleTx _ _ _, burned_settleTx _ _ _ hpos, fun a => ?_⟩
    rw [get_settleTx _ _ _ hle, get_chargeTx]
    by_cases hsa : sender = a
    · simp only [hsa, if_true]
      congr 1
      omega
    · simp [hsa]

def txOutcome (o : Option (State × Except TxError TxResult)) : Option (State × TxResult) :=
  match o with
  | some (s, .ok r) => some (s, r)
  | _ => none

omit [Crypto] in
theorem eq_some_of_txOutcome {o : Option (State × Except TxError TxResult)} {r : TxResult}
    (h : txOutcome o = some (s, r)) : o = some (s, .ok r) := by
  unfold txOutcome at h
  split at h
  · cases h; rfl
  · cases h

/-! A signed call of a contract whose code is one invalid instruction, with the digests and the key it needs. -/

def invalidCallSig : Bytes :=
  beBytes 65 0x1c5cbdf0646e5db4eaa398f365f2ea7a0e3d419b7e0330e39ce92bddedcac4f9bc25127039248c145b61d7d398e3692f38c639b58928c8206c7633d3ee763892b6

def invalidCall : Transaction := ⟨0, 1, 0, some 0xc0de, some 5, 30000, some 3, [], invalidCallSig⟩

@[reducible]
def invalidCallCrypto : Crypto :=
  signedCrypto
    [(invalidCall, 0x9fc0fe0b91cdbc95af80436bd5353b61cc88278f3de779e35b0e13a69a1b85cc,
      0x6cd8ce8cfaea84ae7eab8d56f54f300115c33ea7ccfc707d9d0f17a5dc2fddcd)] []

def invalidCallState : State :=
  (State.new.credit senderAddr 1000000).setCode 0xc0de [0xfe]

omit [Crypto] in
theorem applyTx_failed_leaves_fee_invalidCall :
    @Transaction.sanityCheck invalidCallCrypto invalidCall 1 = .ok () ∧
      (∃ s' r, @applyTx invalidCallCrypto invalidCallState invalidCall 9 1000000 = some (s', .ok r) ∧
        r.status = .failed) ∧
      ∃ s' res, @applyTx invalidCallCrypto invalidCallState invalidCall 9 1000000 = some (s', res) ∧
        ∀ r, res = .ok r → intrinsicGasFor [] false ≤ r.gasUsed ∧ r.gasUsed ≤ 30000 := by
  have hsane : @Transaction.sanityCheck invalidCallCrypto invalidCall 1 = .ok () := by decide +kernel
  have hfails : (txOutcome (@applyTx invalidCallCrypto invalidCallState invalidCall 9 1000000)).map (fun x => x.2.status) =
      some .failed := by decide +kernel
  obtain ⟨s', res, hr, hres⟩ := @applyTx_failed_leaves_fee invalidCallCrypto invalidCallState invalidCall 9 1000000 1 hsane
  refine ⟨hsane, ?_, s', res, hr, ?_⟩
  · obtain ⟨⟨s', r⟩, hx, hst⟩ := Option.map_eq_some_iff.1 hfails
    exact ⟨s', r, eq_some_of_txOutcome hx, hst⟩
  · rintro r rfl
    exact ⟨hres.1, hres.2.1⟩

end Lxs
