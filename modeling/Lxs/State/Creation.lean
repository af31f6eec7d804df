import Lxs.State.Blocks

/-!
# Installed code

When code is installed, by a creation inside a frame or by a transaction, and what happens to code that is there.
The check against a live account is made before the init code runs and the code is installed after it, so the
address may have been filled in between, by a creation that starts at the same address while the first is still
running. In runs without such a creation code is only ever installed over none, and is never replaced.
-/

set_option linter.unusedSectionVars false

namespace Lxs

open Std Vm State

variable [Crypto]

/-! ### The frame of a transaction -/

/-- The frame in which the execution inside a transaction runs code, if it does, with the addresses under creation
around it: that of the transaction's own new contract. -/
def runFrame (ctx : Address → Context) (tx : Transaction) (sender : Address) (value : ℤ) (budget : UInt64) (s : State) :
    Option (List Address × Interp × State) :=
  match tx.toAddr with
  | none =>
    let addr := createAddress sender tx.nonce
    if s.nonce addr ≠ 0 ∨ 0 < (s.getCode addr).length then none
    else some ([addr], newInterp tx.data [] budget (ctx addr) 0, s.credit addr value)
  | some target =>
    if 0 < (s.getCode target).length then
      let s' := s.credit target value
      some ([], newInterp (s'.getCode target) tx.data budget (ctx target) 0, s')
    else none

def txFrame (s : State) (tx : Transaction) (sender coinbase : Address) (blockGasLimit : UInt64) (price amount : ℤ) :
    Option (List Address × Interp × State) :=
  let start := startTx s sender (tx.gasLimit.toNat * price) amount
  runFrame (txContext start tx sender coinbase blockGasLimit price amount) tx sender amount
    (tx.gasLimit - intrinsicGasFor tx.data tx.toAddr.isNone) start

/-- No creation in the transaction starts at an address whose own creation is still running. -/
def TxCreatesOk (s : State) (tx : Transaction) (coinbase : Address) (blockGasLimit : UInt64) : Prop :=
  ∀ sender price amount B m u, tx.Sane sender price amount →
    txFrame s tx sender coinbase blockGasLimit price amount = some (B, m, u) → CreatesOk NotRunning B m u

/-! ### Inside a frame -/

/-- Where code is installed while the frame `m₀` runs from `s₀`, there was none before, and code that is there when a
frame starts is there when it ends. -/
structure InstallsOnEmpty (B₀ : List Address) (m₀ : Interp) (s₀ : State) : Prop where
  opCreate : ∀ B m u p m' t r, During B₀ m₀ s₀ B m u → instruction m u = .ok (.create p, m') → Fresh p m.ctx u →
    run (createFrame p m') (enterCreate m.ctx p.newAddr p.value u) = .ok (t, r) → t.getCode p.newAddr = []
  applyTx : ∀ t r, run m₀ s₀ = .ok (t, r) → ∀ a ∈ B₀, t.getCode a = []
  kept : ∀ B m u t r, During B₀ m₀ s₀ B m u → run m u = .ok (t, r) → ∀ a, u.getCode a ≠ [] → t.getCode a = u.getCode a

variable {B : List Address} {m : Interp}

theorem run_code {s t : State} {r : Result} (hm : m.WF)
    (hok : CreatesOk NotRunning B m s) (h : run m s = .ok (t, r)) :
    ∀ a, a ∈ B ∨ s.getCode a ≠ [] → t.getCode a = s.getCode a :=
  effects_code (run_effects hm hok h)

theorem installsOnEmpty {B₀ : List Address} {m₀ : Interp} {s₀ : State} (hm : m₀.WF) (hok : CreatesOk NotRunning B₀ m₀ s₀)
    (hB : ∀ a ∈ B₀, s₀.getCode a = []) : InstallsOnEmpty B₀ m₀ s₀ where
  opCreate B m u p m' t r hd hi hf hr := by
    have hnew := hd.create hi hf
    have hcode := run_code (newInterp_wf _ _ _ _ _) (hok.during hnew) hr p.newAddr (.inl (List.mem_cons_self ..))
    rw [hcode]
    exact (getCode_enterCall _ _ _).trans hf.2
  applyTx t r hr a ha := (run_code hm hok hr a (.inl ha)).trans (hB a ha)
  kept B m u t r hd hr a ha := run_code (hd.wf hm) (hok.during hd) hr a (.inr ha)

/-! ### Over a transaction -/

theorem getCode_credit (s : State) (a c : Address) (v : ℤ) : (s.credit a v).getCode c = s.getCode c := by
  unfold credit
  exact getCode_update (by intro; rfl) a c

theorem getCode_subBalance (s : State) (a c : Address) (v : ℤ) : (s.subBalance a v).getCode c = s.getCode c := by
  unfold subBalance
  exact getCode_update (by intro; rfl) a c

theorem getCode_burn (s : State) (v : Option ℤ) (a : Address) : (s.burn v).getCode a = s.getCode a :=
  congrArg Account.code (s.get_burn v a)

theorem getCode_chargeTx (s : State) (sender a : Address) (maxFee : ℤ) :
    (chargeTx s sender maxFee).getCode a = s.getCode a := by
  unfold chargeTx
  exact getCode_update (by intro; rfl) sender a

theorem getCode_startTx (s : State) (sender a : Address) (maxFee amount : ℤ) :
    (startTx s sender maxFee amount).getCode a = s.getCode a :=
  (getCode_subBalance _ _ _ _).trans (getCode_chargeTx s sender a maxFee)

theorem getCode_settleTx (s : State) (sender coinbase a : Address) (maxFee spent : ℤ) :
    (settleTx s sender coinbase maxFee spent).getCode a = s.getCode a := by
  unfold settleTx distributeFee
  dsimp only
  rw [getCode_credit, getCode_burn]
  split
  · exact getCode_credit _ _ _ _
  · rfl

section Tx

variable {ctx : Address → Context} {tx : Transaction} {sender coinbase : Address} {amount price : ℤ}
  {budget blockGasLimit : UInt64} {s : State}

theorem runFrame_fresh {B : List Address} {m : Interp} {u : State}
    (h : runFrame ctx tx sender amount budget s = some (B, m, u)) : m.WF ∧ ∀ a ∈ B, u.getCode a = [] := by
  unfold runFrame at h
  split at h
  · dsimp only at h
    split_ifs at h with hlive
    cases h
    refine ⟨newInterp_wf _ _ _ _ _, fun a ha => ?_⟩
    rw [List.mem_singleton.1 ha, getCode_credit]
    exact (not_live_iff.1 hlive).2
  · split_ifs at h
    cases h
    exact ⟨newInterp_wf _ _ _ _ _, fun a ha => absurd ha List.not_mem_nil⟩

/-- What the execution inside a transaction leaves: a frame ran, with its code installed if it made a contract, or at
most the value moved. -/
inductive RunTx (ctx : Address → Context) (tx : Transaction) (sender : Address) (amount : ℤ) (budget : UInt64) (s : State)
    (t : State) : Prop
  | same : t = s → RunTx ctx tx sender amount budget s t
  | burned : t = s.burn (some amount) → RunTx ctx tx sender amount budget s t
  | credited (target : Address) : t = s.credit target amount → RunTx ctx tx sender amount budget s t
  | ran (B : List Address) (m : Interp) (addr : Address) (u : State) (res : Result) :
      runFrame ctx tx sender amount budget s = some (B, m, s.credit addr amount) →
      run m (s.credit addr amount) = .ok (u, res) → (t = u ∨ addr ∈ B ∧ t = u.setCode addr res.ret) →
      RunTx ctx tx sender amount budget s t

variable {r : TxRun}

theorem runTx_state (h : runTx ctx tx sender amount budget s = some r) :
    RunTx ctx tx sender amount budget s r.state := by
  unfold runTx at h
  cases hto : tx.toAddr with
  | none =>
    rw [hto] at h
    unfold runCreation at h
    dsimp only at h
    split_ifs at h with hlive
    · cases h
      exact .same rfl
    · cases hr : execute tx.data [] budget (ctx (createAddress sender tx.nonce)) 0
          (s.credit (createAddress sender tx.nonce) amount) with
      | error e => rw [hr] at h; cases h
      | ok x =>
        obtain ⟨t, res⟩ := x
        have hframe : runFrame ctx tx sender amount budget s =
            some ([createAddress sender tx.nonce], newInterp tx.data [] budget (ctx (createAddress sender tx.nonce)) 0,
              s.credit (createAddress sender tx.nonce) amount) := by
          simp only [runFrame, hto]
          rw [if_neg hlive]
        rw [hr] at h
        dsimp only at h
        split_ifs at h
        · cases h; exact .ran _ _ _ _ _ hframe hr (.inl rfl)
        · cases h; exact .ran _ _ _ _ _ hframe hr (.inl rfl)
        · cases h; exact .ran _ _ _ _ _ hframe hr (.inl rfl)
        · cases h; exact .ran _ _ _ _ _ hframe hr (.inr ⟨List.mem_singleton.2 rfl, rfl⟩)
  | some target =>
    rw [hto] at h
    dsimp only at h
    split_ifs at h with hcall hburn
    · unfold runCall at h
      dsimp only at h
      cases hr : execute ((s.credit target amount).getCode target) tx.data budget (ctx target) 0
          (s.credit target amount) with
      | error e => rw [hr] at h; cases h
      | ok x =>
        obtain ⟨t, res⟩ := x
        rw [hr] at h
        cases h
        refine .ran [] _ target _ _ ?_ hr (.inl rfl)
        simp only [runFrame, hto]
        rw [if_pos hcall]
    · cases h
      exact .burned rfl
    · cases h
      exact .credited target rfl

theorem runTx_inside (h : runTx ctx tx sender amount budget s = some r) {b : State} (hb : b.Inside s) :
    b.Inside r.state := by
  cases runTx_state h with
  | same hs => exact hs ▸ hb
  | burned hs => exact hs ▸ hb.burn _
  | credited target hs => exact hs ▸ hb.credit _ _
  | ran B m addr u res hf hr hs =>
    have heff : Effects anyCreate B m.ctx (s.credit addr amount) u :=
      run_effects (runFrame_fresh hf).1 (fun _ _ _ _ _ _ _ _ => trivial) hr
    have hin := effects_inside heff b (hb.credit _ _)
    rcases hs with hs | ⟨-, hs⟩
    · exact hs ▸ hin
    · exact hs ▸ hin.set _ _

theorem runTx_code (hok : ∀ B m u, runFrame ctx tx sender amount budget s = some (B, m, u) → CreatesOk NotRunning B m u) (h : runTx ctx tx sender amount budget s = some r) :
    ∀ a, s.getCode a ≠ [] → r.state.getCode a = s.getCode a := by
  intro a ha
  cases runTx_state h with
  | same hs => rw [hs]
  | burned hs => rw [hs, getCode_burn]
  | credited target hs => rw [hs, getCode_credit]
  | ran B m addr u res hf hr hs =>
    obtain ⟨hwf, hB⟩ := runFrame_fresh hf
    have hcode : u.getCode a = s.getCode a :=
      (run_code hwf (hok _ _ _ hf) hr a (.inr (by rwa [getCode_credit]))).trans (getCode_credit _ _ _ _)
    rcases hs with hs | ⟨haddr, hs⟩
    · rw [hs, hcode]
    · have hne : addr ≠ a := by
        rintro rfl
        have hnone := hB addr haddr
        rw [getCode_credit] at hnone
        exact ha hnone
      rw [hs]
      exact (getCode_setCode_ne hne _).trans hcode

theorem executeTx_code (hsane : tx.Sane sender price amount) (hok : TxCreatesOk s tx coinbase blockGasLimit) {t : State}
    {r : TxResult} (h : executeTx s tx sender coinbase blockGasLimit price amount = some (t, r)) :
    ∀ a, s.getCode a ≠ [] → t.getCode a = s.getCode a := by
  intro a ha
  unfold executeTx at h
  dsimp only at h
  generalize hr : runTx _ tx sender amount _ _ = run at h
  cases run with
  | none => cases h
  | some run =>
    cases h
    have hrun : run.state.getCode a = s.getCode a :=
      (runTx_code (fun B m u hf => hok sender price amount B m u hsane hf) hr a
        (by rwa [getCode_startTx])).trans (getCode_startTx _ _ _ _ _)
    obtain ⟨run', hr', hok'⟩ := runTx_ok
      (txContext (startTx s sender (tx.gasLimit.toNat * price) amount) tx sender coinbase blockGasLimit price amount)
      tx sender (tx.gasLimit - intrinsicGasFor tx.data tx.toAddr.isNone)
      (startTx s sender (tx.gasLimit.toNat * price) amount) hsane.amount_nonneg
    rw [hr] at hr'
    cases hr'
    rw [getCode_settleTx]
    unfold TxRun.close
    split
    · exact hrun
    · show (State.revertToSnapshot _ _).getCode a = _
      rw [revertToSnapshot_of_extends (hok'.inside _ (inside_startTx s sender)).1]
      exact getCode_chargeTx s sender a _

theorem applyTx_code (hsane : tx.Sane sender price amount) (hok : TxCreatesOk s tx coinbase blockGasLimit) {t : State}
    {r : TxResult} (h : applyTx s tx coinbase blockGasLimit = some (t, .ok r)) :
    ∀ a, s.getCode a ≠ [] → t.getCode a = s.getCode a := by
  obtain ⟨e, he⟩ | ⟨t', r', hr, hx, -⟩ := applyTx_cases (s := s) hsane coinbase blockGasLimit
  · rw [h] at he
    cases he
  · rw [h] at hr
    cases hr
    exact executeTx_code hsane hok hx

end Tx

/-! ### Over a chain -/

theorem getCode_creditBlockReward (tr : Treasury) (s : State) (miner a : Address) (height : UInt64) :
    (creditBlockReward tr s miner height).getCode a = s.getCode a := by
  unfold creditBlockReward
  dsimp only
  split_ifs
  · rw [getCode_credit, getCode_burn]
  · rw [getCode_credit, getCode_credit]
  · rw [getCode_credit]

/-- The worlds reached by what `applyBlock` does, block after block, with transactions in which no creation starts at
an address whose own creation is still running. -/
inductive Committed (s : State) : State → Prop
  | refl : Committed s s
  | start {t} (h : Header) : Committed s t → Committed s (blockState t h)
  | tx {t tx coinbase blockGasLimit chainID u r} : Committed s t → tx.sanityCheck chainID = .ok () →
      TxCreatesOk t tx coinbase blockGasLimit → applyTx t tx coinbase blockGasLimit = some (u, .ok r) → Committed s u
  | reward {t} (tr : Treasury) (miner : Address) (height : UInt64) : Committed s t →
      Committed s (creditBlockReward tr t miner height)

theorem Committed.code {s t : State} (h : Committed s t) : ∀ a, s.getCode a ≠ [] → t.getCode a = s.getCode a := by
  intro a ha
  induction h with
  | refl => rfl
  | start h _ ih => exact ih
  | tx _ hsane hcreates happ ih =>
    obtain ⟨sender, price, amount, hsane⟩ := Transaction.sane_of_sanityCheck hsane
    exact (applyTx_code hsane hcreates happ a (ih.symm ▸ ha)).trans ih
  | reward tr miner height _ ih => exact (getCode_creditBlockReward tr _ miner a height).trans ih

/-- **Installed code is never replaced** in a run in which no creation starts at an address whose own creation is still
running: code that is there stays, and in the next such transaction code is only installed where there is none. -/
theorem code_never_replaced {s t : State} {tx : Transaction} {coinbase : Address} {blockGasLimit : UInt64}
    (hrun : Committed s t) (hok : TxCreatesOk t tx coinbase blockGasLimit) :
    (∀ a, s.getCode a ≠ [] → t.getCode a = s.getCode a) ∧
      ∀ sender price amount B m u, tx.Sane sender price amount →
        txFrame t tx sender coinbase blockGasLimit price amount = some (B, m, u) → InstallsOnEmpty B m u := by
  refine ⟨hrun.code, fun sender price amount B m u hsane hf => ?_⟩
  obtain ⟨hwf, hB⟩ := runFrame_fresh hf
  exact installsOnEmpty hwf (hok sender price amount B m u hsane hf) hB

/-! ### Checking a run -/

/-- If a creation starts here, it is not at an address of `B`. -/
def startsAside (B : List Address) (m : Interp) (s : State) : Bool :=
  match instruction m s with
  | .ok (.create p, _) => !decide (Fresh p m.ctx s) || !B.contains p.newAddr
  | _ => true

theorem txCreatesOk_of_check {s : State} {tx : Transaction} {sender coinbase : Address} {blockGasLimit : UInt64}
    {price amount : ℤ} (hsane : tx.Sane sender price amount) {n : ℕ}
    (h : (txFrame s tx sender coinbase blockGasLimit price amount).all (fun f => checkRun startsAside n f.1 f.2.1 f.2.2) = true) :
    TxCreatesOk s tx coinbase blockGasLimit := by
  intro sender' price' amount' B m u hsane' hf
  obtain rfl : sender = sender' := Except.ok.inj (hsane.sender.symm.trans hsane'.sender)
  obtain rfl : price = price' := Option.some.inj (hsane.gasPrice.symm.trans hsane'.gasPrice)
  obtain rfl : amount = amount' := Option.some.inj (hsane.value.symm.trans hsane'.value)
  rw [hf] at h
  intro B' m' s' p m'' hd hi hfresh
  have htest := hd.test h
  rw [startsAside, hi] at htest
  simpa [hfresh, NotRunning] using htest

/-! The init code of a transaction creates a contract by `CREATE2`, whose init code creates one more, and returns the
same init code as the code of the new contract; a second transaction calls that. -/

def deploySig : Bytes :=
  beBytes 65 0x1c2b4ea0a797a443d293ef5cff444f4979f06acfebd7e86d277475656138385b6c6625767e2bb70b14508e63b183c31b8097177f34ed9ae2ff47b966bb1822bdde

def invokeSig : Bytes :=
  beBytes 65 0x1b2fa2104d6b38d11b0230010559879124e42ab8dfeff5ff29dc9cdadd4ecacc3f53ff1b53221fdfd5caa03cff2720c3841669accccebab85ebf20cc73737e0184

def innerInit : Bytes := beBytes 31 0x6960aa60005360016000f36000526000600a60166000f560005360016000f3

def deployTx : Transaction :=
  ⟨0, 1, 0, none, some 0, 400000, some 1, 0x7e :: innerInit ++ beBytes 18 0x6000526000601f60016000f550601f6001f3, deploySig⟩

def invokeTx : Transaction := ⟨0, 1, 1, some 0xf2e246bb76df876cef8b38ae84130f4f55de395b, some 0, 400000, some 1, [], invokeSig⟩

@[reducible]
def nestedCrypto : Crypto :=
  signedCrypto
    [(deployTx, 0x3fe993fb29c5e9ab717f3cd3f435abf0ae4da65bffddbbc4375aef227ee59722,
      0xc2e64e7af12138a35ffd6579aedeabfb03f154bea0b92753817f62d3264a7e0e),
     (invokeTx, 0x44727b3a83ea12afc96a840e2286ddf2edcda7eef7887230f603bb29d2951aed,
      0x30bbb7a6b77f44b352a0a34c2327abf2a59c43c93168c7a0be38527b668bbac5)]
    [((23, 0xd6947e5f4552091a69125d5dfcb7b8c2659029395bdf80),
      0x6a120af821c27670f30be89ff2e246bb76df876cef8b38ae84130f4f55de395b),
     ((31, 0x6960aa60005360016000f36000526000600a60166000f560005360016000f3),
      0xaa7fc621b31eff8324b1dce75a45aa24fd1ccd71a967edfc110e9f4efdd79b52),
     ((85, 0xfff2e246bb76df876cef8b38ae84130f4f55de395b0000000000000000000000000000000000000000000000000000000000000000aa7fc621b31eff8324b1dce75a45aa24fd1ccd71a967edfc110e9f4efdd79b52),
      0x6f1ef9e149465ee40b49cc1d0259d051a17af7d27877f642b6a05204ce756c63),
     ((10, 0x60aa60005360016000f3),
      0x826a1e97d22ecc6869e5090eabe52a03fa845a19b1dd4bfe5af320df3f466c74),
     ((85, 0xff0259d051a17af7d27877f642b6a05204ce756c630000000000000000000000000000000000000000000000000000000000000000826a1e97d22ecc6869e5090eabe52a03fa845a19b1dd4bfe5af320df3f466c74),
      0x5ac92268bf7b0a35b86d5da65106ce242a6757762cbec193bc4df1a50d346689),
     ((85, 0xfff2e246bb76df876cef8b38ae84130f4f55de395b0000000000000000000000000000000000000000000000000000000000000000826a1e97d22ecc6869e5090eabe52a03fa845a19b1dd4bfe5af320df3f466c74),
      0xcb0a61260eaff54e57a33e297aeff3d8e9ded10eac499e29c092ec56474f8f7f)]

def nestedState : State := (State.new.credit senderAddr 1000000).setCode 0xc0de [0]

/-- The world after the first transaction. -/
def nestedDeployed : Option State := (txOutcome (@applyTx nestedCrypto nestedState deployTx 9 1000000)).map Prod.fst

/-- The codes of the contract of the first transaction and of the two below it. -/
def nestedCodes (s : State) : List Bytes :=
  [0xf2e246bb76df876cef8b38ae84130f4f55de395b, 0x259d051a17af7d27877f642b6a05204ce756c63,
    0x5106ce242a6757762cbec193bc4df1a50d346689].map s.getCode

omit [Crypto] in
theorem code_never_replaced_nested :
    ∃ t m u, @Committed nestedCrypto nestedState t ∧ nestedCodes t = [innerInit, [0x89], [0xaa]] ∧
      @TxCreatesOk nestedCrypto t invokeTx 9 1000000 ∧
      @txFrame nestedCrypto t invokeTx senderAddr 9 1000000 1 0 = some ([], m, u) ∧
      (∀ a, nestedState.getCode a ≠ [] → t.getCode a = nestedState.getCode a) ∧ @InstallsOnEmpty nestedCrypto [] m u := by
  have hdeploy : @Transaction.Sane nestedCrypto deployTx senderAddr 1 0 :=
    @Transaction.Sane.mk nestedCrypto _ _ _ _ (by decide +kernel) rfl rfl (by decide) le_rfl (by decide +kernel)
  have hinvoke : @Transaction.Sane nestedCrypto invokeTx senderAddr 1 0 :=
    @Transaction.Sane.mk nestedCrypto _ _ _ _ (by decide +kernel) rfl rfl (by decide) le_rfl (by decide +kernel)
  have hfirst : @TxCreatesOk nestedCrypto nestedState deployTx 9 1000000 :=
    @txCreatesOk_of_check nestedCrypto _ _ _ _ _ _ _ hdeploy 25 (by decide +kernel)
  have hnext : nestedDeployed.any (fun t => decide (nestedCodes t = [innerInit, [0x89], [0xaa]]) &&
      (@txFrame nestedCrypto t invokeTx senderAddr 9 1000000 1 0).any fun f =>
        decide (f.1 = []) && @checkRun nestedCrypto _ _ (@startsAside nestedCrypto) 15 f.1 f.2.1 f.2.2) = true := by decide +kernel
  obtain ⟨t, ht, hnext⟩ := (Option.any_eq_true _ _).1 hnext
  rw [Bool.and_eq_true, decide_eq_true_eq, Option.any_eq_true] at hnext
  obtain ⟨hcodes, ⟨B, m, u⟩, hframe, hcheck⟩ := hnext
  rw [Bool.and_eq_true, decide_eq_true_eq] at hcheck
  obtain ⟨rfl, hcheck⟩ := hcheck
  obtain ⟨⟨_, r⟩, hr, rfl⟩ := Option.map_eq_some_iff.1 ht
  have hrun := @Committed.tx nestedCrypto nestedState _ deployTx 9 1000000 1 _ r (@Committed.refl nestedCrypto nestedState)
    (by decide +kernel) hfirst (eq_some_of_txOutcome hr)
  have hok := @txCreatesOk_of_check nestedCrypto _ _ _ _ _ _ _ hinvoke 15
    (by rw [hframe]; exact hcheck)
  obtain ⟨hkept, hinstalls⟩ := @code_never_replaced nestedCrypto _ _ _ _ _ hrun hok
  exact ⟨_, m, u, hrun, hcodes, hok, hframe, hkept, hinstalls _ _ _ _ _ _ hinvoke hframe⟩

/-! ### Creating a contract inside its own creation -/

def turns : ℕ → Interp → State → Option (Interp × State)
  | 0, m, s => some (m, s)
  | n + 1, m, s =>
    match runStep run m s with
    | .ok (.next m' s') => turns n m' s'
    | _ => none

theorem turns_during {B₀ B : List Address} {m₀ m m' : Interp} {s₀ s s' : State} :
    ∀ {n : ℕ}, During B₀ m₀ s₀ B m s → turns n m s = some (m', s') → During B₀ m₀ s₀ B m' s' := by
  intro n
  induction n generalizing m s with
  | zero =>
    intro hd h
    cases h
    exact hd
  | succ n ih =>
    intro hd h
    unfold turns at h
    split at h
    · rename_i hst
      exact ih (hd.next hst) h
    · cases h

/-- The frame is about to create a contract, and when the init code has run the new address has code already. -/
def overwrites (m : Interp) (u : State) : Bool :=
  match instruction m u with
  | .ok (.create p, m') =>
    match run (createFrame p m') (enterCreate m.ctx p.newAddr p.value u) with
    | .ok (t, r) =>
      decide ((bumpNonce m.ctx u).nonce p.newAddr = 0) && decide ((bumpNonce m.ctx u).getCode p.newAddr = []) &&
        r.err.isNone && decide (t.getCode p.newAddr ≠ [])
    | _ => false
  | _ => false

theorem exists_of_overwrites {u : State} (h : overwrites m u = true) :
    ∃ p m' t r, instruction m u = .ok (.create p, m') ∧ Fresh p m.ctx u ∧
      run (createFrame p m') (enterCreate m.ctx p.newAddr p.value u) = .ok (t, r) ∧ r.err = none ∧
      t.getCode p.newAddr ≠ [] := by
  unfold overwrites at h
  split at h
  · rename_i p m' hi
    split at h
    · rename_i t r hr
      simp only [Bool.and_eq_true, decide_eq_true_eq, Option.isNone_iff_eq_none] at h
      exact ⟨p, m', t, r, hi, ⟨h.1.1.1, h.1.1.2⟩, hr, h.1.2, h.2⟩
    · cases h
  · cases h

/-! A contract that creates another one by `CREATE2`, always with the same salt and the same init code. The init code
sets a slot of the new contract, calls its creator and returns the code `[0xaa]`; when the slot is set already it
returns `[0xbb]` at once. -/

def reentrantSig : Bytes :=
  beBytes 65 0x1bf28773c2d975288bc7d1d205c3748651b075fbc6610e58cddeeddf8f19405aa816ef54a03612b6416682479c793147b748a6530b5a4402018cc214850d248f8c

def reentrantTx : Transaction := ⟨0, 1, 0, some 0xc0de, some 0, 400000, some 1, [], reentrantSig⟩

@[reducible]
def reentrantCrypto : Crypto :=
  signedCrypto
    [(reentrantTx, 0xe351401a6797962203908b08150ad55bcf24635a17576dd13aae3155ac871eff,
      0xa9d86eec58d05b9ae6c3c65f49598471a06169b482e78a4f084d3c6364c2ad7d)]
    [((46, 0x600054602357600160005560006000600060006000335af15060aa60005360016000f35b60bb60005360016000f3),
      0x6729f0ce12b82ffae8b8712affc62b54d0e690d3a8b7c7fcc364e5d28074c445),
     ((85, 0xff000000000000000000000000000000000000c0de00000000000000000000000000000000000000000000000000000000000000006729f0ce12b82ffae8b8712affc62b54d0e690d3a8b7c7fcc364e5d28074c445),
      0x37a1d516b28086866cea006369b6f6aed052b55e3f5b523e8d6464ca61ee7316)]

def reentrantState : State :=
  (State.new.credit senderAddr 1000000).setCode 0xc0de
    (beBytes 63 0x602e60116000396000602e60006000f500600054602357600160005560006000600060006000335af15060aa60005360016000f35b60bb60005360016000f3)

def reentrantFrame : Option ((Interp × State) × Interp × State) :=
  match @txFrame reentrantCrypto reentrantState reentrantTx senderAddr 9 1000000 1 0 with
  | some ([], m, s) => (@turns reentrantCrypto 8 m s).map fun x => ((m, s), x)
  | _ => none

omit [Crypto] in
/-- **Code is replaced by a creation inside its own creation.** The outer creation finds no account at the new address,
the init code runs, and by then the address holds the code that the inner creation has installed; after the
transaction it holds the code of the outer one. -/
theorem code_replaced_in_own_creation :
    @Transaction.sanityCheck reentrantCrypto reentrantTx 1 = .ok () ∧
      (∃ m₀ s₀ B m u p m' t r, @txFrame reentrantCrypto reentrantState reentrantTx
          senderAddr 9 1000000 1 0 = some ([], m₀, s₀) ∧
        @During reentrantCrypto _ _ [] m₀ s₀ B m u ∧ @instruction reentrantCrypto _ _ m u = .ok (.create p, m') ∧
        Fresh p m.ctx u ∧
        @run reentrantCrypto _ _ (createFrame p m') (enterCreate m.ctx p.newAddr p.value u) = .ok (t, r) ∧
        r.err = none ∧ t.getCode p.newAddr ≠ []) ∧
      ∃ s' r, @applyTx reentrantCrypto reentrantState reentrantTx 9 1000000 = some (s', .ok r) ∧ r.status = .success ∧
        s'.getCode 0x69b6f6aed052b55e3f5b523e8d6464ca61ee7316 = [0xaa] := by
  have hframe : reentrantFrame.map (fun x => @overwrites reentrantCrypto x.2.1 x.2.2) = some true := by decide +kernel
  have hfinal : (txOutcome (@applyTx reentrantCrypto reentrantState reentrantTx 9 1000000)).map
      (fun x => (x.2.status, x.1.getCode 0x69b6f6aed052b55e3f5b523e8d6464ca61ee7316)) = some (.success, [0xaa]) := by
    decide +kernel
  refine ⟨by decide +kernel, ?_, ?_⟩
  · obtain ⟨⟨_, m, u⟩, hx, hover⟩ := Option.map_eq_some_iff.1 hframe
    obtain ⟨p, m', t, r, hi, hf, hr, he, hc⟩ := @exists_of_overwrites reentrantCrypto m u hover
    unfold reentrantFrame at hx
    split at hx
    · rename_i m₀ s₀ hfr
      obtain ⟨⟨m₁, u₁⟩, ht, hx⟩ := Option.map_eq_some_iff.1 hx
      cases hx
      have hd : @During reentrantCrypto _ _ [] m₀ s₀ [] m u :=
        @turns_during reentrantCrypto _ _ _ _ _ _ _ _ _ (@During.start reentrantCrypto _ _ _ _ _) ht
      exact ⟨m₀, s₀, [], m, u, p, m', t, r, hfr, hd, hi, hf, hr, he, hc⟩
    · cases hx
  · obtain ⟨⟨s', r⟩, hs, heq⟩ := Option.map_eq_some_iff.1 hfinal
    rw [Prod.mk.injEq] at heq
    exact ⟨s', r, eq_some_of_txOutcome hs, heq⟩

end Lxs
