import Lxs.State.Creation

/-!
# Replay protection

Nonces only grow while none of them reaches the largest value, whatever code runs: a creation consumes one of its
creator's, and undoing a frame goes back to a state the frame has only added to. So a transaction, which is applied at
exactly its sender's nonce and consumes it, is never applied twice.

* `run_nonce`, `applyTx_nonce` — one frame, one transaction;
* `replay_protection` — **over a chain of blocks**.
-/

set_option linter.unusedSectionVars false

namespace Lxs

open Std Vm

variable [Crypto]

def lastNonce : UInt64 := 0xFFFFFFFFFFFFFFFF

namespace State

def NoncesBelow (s : State) : Prop := ∀ a, s.nonce a ≠ lastNonce

def NonceLe (s t : State) : Prop := ∀ a, (s.nonce a).toNat ≤ (t.nonce a).toNat

variable {s t u : State} {ctx : Context}

theorem NonceLe.refl (s : State) : NonceLe s s := fun _ => le_rfl

theorem NonceLe.trans (h₁ : NonceLe s t) (h₂ : NonceLe t u) : NonceLe s u := fun a => (h₁ a).trans (h₂ a)

theorem NonceLe.of_eq (h : ∀ a, t.nonce a = s.nonce a) : NonceLe s t := fun a => by rw [h a]

theorem nonce_update {f : Account → Account} (hf : ∀ acc, (f acc).nonce = acc.nonce) (a c : Address) :
    (s.update a f).nonce c = s.nonce c := by
  rw [nonce, get_update]
  split
  · exact hf _
  · rfl

theorem nonce_credit (a c : Address) (v : ℤ) : (s.credit a v).nonce c = s.nonce c := by
  unfold credit
  exact nonce_update (by intro; rfl) a c

theorem nonce_subBalance (a c : Address) (v : ℤ) : (s.subBalance a v).nonce c = s.nonce c := by
  unfold subBalance
  exact nonce_update (by intro; rfl) a c

theorem nonce_setStorage (a c : Address) (key value : Hash) : (s.setStorage a key value).nonce c = s.nonce c := by
  unfold setStorage
  exact nonce_update (by intro; rfl) a c

theorem nonce_setCode (a c : Address) (code : Bytes) : (s.setCode a code).nonce c = s.nonce c := by
  unfold setCode
  exact nonce_update (by intro; rfl) a c

theorem nonce_burn (v : Option ℤ) (a : Address) : (s.burn v).nonce a = s.nonce a := congrArg Account.nonce (s.get_burn v a)

theorem nonce_enterCall (target : Address) (value : ℤ) (a : Address) :
    (Vm.enterCall ctx target value s).nonce a = s.nonce a := by
  unfold Vm.enterCall Vm.transfer
  split
  · exact (nonce_credit _ _ _).trans (nonce_subBalance _ _ _)
  · rfl

theorem toNat_succ {n : UInt64} (h : n ≠ lastNonce) : (n + 1).toNat = n.toNat + 1 := by
  have hne : n.toNat ≠ 0xFFFFFFFFFFFFFFFF := fun heq => h (UInt64.toNat_inj.1 heq)
  have hlt := n.toNat_lt
  rw [UInt64.toNat_add, UInt64.toNat_one]
  omega

theorem nonceLe_bumpNonce (h : s.NoncesBelow) : NonceLe s (bumpNonce ctx s) := by
  intro a
  have hget : (bumpNonce ctx s).nonce a = if ctx.address = a then s.nonce ctx.address + 1 else s.nonce a := by
    show (s.setNonce ctx.address (s.nonce ctx.address + 1)).nonce a = _
    rw [nonce, get_setNonce]
    split <;> rfl
  rw [hget]
  split
  case isTrue ha => rw [← ha, toNat_succ (h ctx.address)]; exact Nat.le_succ _
  case isFalse => exact le_rfl

end State

open State

/-! ### Frames -/

section Frames

variable {B₀ : List Address} {m₀ : Interp} {s₀ : State}

/-- No nonce is used up in any state passed while a frame runs. -/
def FrameBelow (B₀ : List Address) (m₀ : Interp) (s₀ : State) : Prop :=
  ∀ B m s, During B₀ m₀ s₀ B m s → s.NoncesBelow

/-- Frames keep nonces, by induction on the turns: a kept frame by the induction hypothesis, a reverted one because
undoing it gives back the state it was entered in. -/
theorem runFuel_nonce (hlow : FrameBelow B₀ m₀ s₀) : ∀ (n : ℕ) (B : List Address) (m : Interp) (s t : State) (r : Result),
    During B₀ m₀ s₀ B m s → m.WF → runFuel n m s = .ok (t, r) → s.NonceLe t
  | 0, _, _, _, _, _, _, _, h => by cases h
  | n + 1, B, m, s, t, r, hd, hm, h => by
    rw [runFuel] at h
    cases hst : runStep (runFuel n) m s with
    | error a => rw [hst] at h; cases h
    | ok st =>
      rw [hst] at h
      have hsub : ∀ B' m' u v q, During B₀ m₀ s₀ B' m' u → m'.WF → runFuel n m' u = .ok (v, q) →
          Effects anyCreate B' m'.ctx u v := fun B' m' u v q =>
        runFuel_effects (fun _ _ _ _ _ _ _ _ => trivial) n B' m' u v q
      have hturn : s.NonceLe st.state := by
        cases runStep_turn hm hst with
        | same hs => rw [hs]; exact .refl s
        | sstore key value _ hs => rw [hs]; exact .of_eq fun a => nonce_setStorage _ _ _ _
        | log l _ hs => rw [hs]; exact .refl s
        | call p m' hi hp hctx hc =>
          obtain ⟨v, q, hcallee, hstate⟩ := performCall_state hctx hc
          have henter : s.NonceLe (enterCall m.ctx p.target p.value s) := .of_eq (nonce_enterCall p.target p.value)
          rcases hcallee with rfl | ⟨hn, hr⟩
          · rcases hstate with hstate | hstate <;> rw [hstate]
            · exact henter
            · have hrefl : Effects anyCreate B m.ctx (enterCall m.ctx p.target p.value s)
                  (enterCall m.ctx p.target p.value s) := .refl
              have hrev := revert_effects hrefl
              exact .of_eq fun a => congrArg (State.nonce · a) hrev
          · have hcall := hd.call hi hn
            rcases hstate with hstate | hstate <;> rw [hstate]
            · exact henter.trans (runFuel_nonce hlow n B _ _ v q hcall (newInterp_wf _ _ _ _ _) hr)
            · have hrev := revert_effects (hsub B _ _ v q hcall (newInterp_wf _ _ _ _ _) hr)
              exact .of_eq fun a => congrArg (State.nonce · a) hrev
        | create p m' hi hp hctx hc =>
          have hbump : s.NonceLe (bumpNonce m.ctx s) := nonceLe_bumpNonce (hlow B m s hd)
          obtain hstate | ⟨hfresh, v, q, hr, hstate⟩ := performCreate_state hp hctx hc
          · rw [hstate]; exact hbump
          · have hcreate := hd.create hi hfresh
            have henter : s.NonceLe (enterCreate m.ctx p.newAddr p.value s) :=
              hbump.trans (.of_eq (nonce_enterCall p.newAddr p.value))
            rcases hstate with hstate | ⟨code, hstate⟩ <;> rw [hstate]
            · have hrev := revert_effects (hsub _ _ _ v q hcreate (newInterp_wf _ _ _ _ _) hr)
              exact hbump.trans (.of_eq fun a => congrArg (State.nonce · a) hrev)
            · have hrun := runFuel_nonce hlow n _ _ _ v q hcreate (newInterp_wf _ _ _ _ _) hr
              exact (henter.trans hrun).trans (.of_eq fun a => nonce_setCode _ _ _)
      have hrun := runStep_mono (refines_run n) hst
      cases st with
      | halt t' r' => cases h; exact hturn
      | next m' s' =>
        exact hturn.trans (runFuel_nonce hlow n B m' s' t r (hd.next hrun) (stepOk_of_runStep hm hrun).1 h)

theorem run_nonce {B : List Address} {m : Interp} {s t : State} {r : Result} (hm : m.WF) (hlow : FrameBelow B m s)
    (h : run m s = .ok (t, r)) : s.NonceLe t :=
  runFuel_nonce hlow _ B m s t r .start hm h

end Frames

/-! ### Transactions -/

section Tx

variable {ctx : Address → Context} {tx : Transaction} {sender coinbase : Address} {amount price : ℤ}
  {budget blockGasLimit : UInt64} {s t : State}

theorem runTx_nonce (hlow : ∀ B m u, runFrame ctx tx sender amount budget s = some (B, m, u) → FrameBelow B m u) {r : TxRun}
    (h : runTx ctx tx sender amount budget s = some r) : s.NonceLe r.state := by
  cases runTx_state h with
  | same hs => exact hs ▸ .refl s
  | burned hs => exact hs ▸ .of_eq (nonce_burn _)
  | credited target hs => exact hs ▸ .of_eq fun a => nonce_credit _ _ _
  | ran B m addr u res hf hr hs =>
    have hle : s.NonceLe u :=
      (NonceLe.of_eq fun a => nonce_credit _ _ _).trans (run_nonce (runFrame_fresh hf).1 (hlow B m _ hf) hr)
    rcases hs with hs | ⟨-, hs⟩
    · exact hs ▸ hle
    · exact hs ▸ hle.trans (.of_eq fun a => nonce_setCode _ _ _)

theorem nonce_settleTx (maxFee spent : ℤ) (a : Address) : (settleTx s sender coinbase maxFee spent).nonce a = s.nonce a := by
  unfold settleTx distributeFee
  dsimp only
  rw [nonce_credit, nonce_burn]
  split
  · exact nonce_credit _ _ _
  · rfl

/-- No nonce is used up before a transaction or in any state passed while its code runs. -/
def TxBelow (s : State) (tx : Transaction) (coinbase : Address) (blockGasLimit : UInt64) : Prop :=
  s.NoncesBelow ∧ ∀ sender price amount B m u, tx.sender = .ok sender → tx.gasPrice = some price → tx.value = some amount →
    txFrame s tx sender coinbase blockGasLimit price amount = some (B, m, u) → FrameBelow B m u

theorem executeTx_nonce (hlow : ∀ B m u, txFrame s tx sender coinbase blockGasLimit price amount = some (B, m, u) →
      FrameBelow B m u) {r : TxResult} (h : executeTx s tx sender coinbase blockGasLimit price amount = some (t, r)) :
    (chargeTx s sender (tx.gasLimit.toNat * price)).NonceLe t := by
  unfold executeTx at h
  dsimp only at h
  generalize hr : runTx _ tx sender amount _ _ = run at h
  cases run with
  | none => cases h
  | some run =>
    cases h
    have hle := runTx_nonce hlow hr
    refine NonceLe.trans ?_ (.of_eq fun a => nonce_settleTx _ _ a)
    unfold TxRun.close
    split
    · have hstart : (chargeTx s sender (tx.gasLimit.toNat * price)).NonceLe
          (startTx s sender (tx.gasLimit.toNat * price) amount) := .of_eq fun a => nonce_subBalance _ _ _
      exact hstart.trans hle
    · dsimp only
      rw [revertToSnapshot_of_extends (runTx_inside hr (inside_startTx s sender)).1]
      exact .refl _

theorem checkTx_nonce (h : checkTx s tx sender blockGasLimit = some (.ok ())) : s.nonce sender = tx.nonce := by
  unfold checkTx at h
  dsimp only at h
  split at h
  · cases h
  case isFalse hlow =>
    split at h
    · cases h
    case isFalse hhigh => exact UInt64.le_antisymm (UInt64.not_lt.1 hlow) (UInt64.not_lt.1 hhigh)

/-- **A transaction** is applied at its sender's nonce, which it consumes, and lowers no nonce. -/
theorem applyTx_nonce (hlow : TxBelow s tx coinbase blockGasLimit) {r : TxResult}
    (h : applyTx s tx coinbase blockGasLimit = some (t, .ok r)) :
    s.NonceLe t ∧ ∃ sender, tx.sender = .ok sender ∧ s.nonce sender = tx.nonce ∧
      tx.nonce.toNat < (t.nonce sender).toNat := by
  unfold applyTx at h
  split at h
  · cases h
  case h_2 sender hs =>
    split at h
    · cases h
    case h_2 price amount hcheck hprice hamount =>
      obtain ⟨⟨t', r'⟩, hx, heq⟩ := Option.map_eq_some_iff.1 h
      cases heq
      have hnonce := checkTx_nonce hcheck
      have hle := executeTx_nonce (fun B m u => hlow.2 sender price amount B m u hs hprice hamount) hx
      have hcharge : ∀ a, ((chargeTx s sender (tx.gasLimit.toNat * price)).nonce a).toNat =
          (s.nonce a).toNat + if sender = a then 1 else 0 := by
        intro a
        rw [nonce, get_chargeTx]
        split
        · exact toNat_succ (hlow.1 a)
        · rfl
      refine ⟨fun a => ?_, sender, hs, hnonce, ?_⟩
      · have := hle a
        rw [hcharge] at this
        omega
      · have := hle sender
        rw [hcharge, if_pos rfl, hnonce] at this
        omega
    · cases h

end Tx

/-! ### Chains -/

/-- A transaction of a block with the state in which it is applied. -/
structure Included where
  header : Header
  state : State
  tx : Transaction

def Included.Below (x : Included) : Prop := TxBelow x.state x.tx x.header.proposer x.header.gasLimit

/-- The transactions of a block, each with the state the loop reaches it in. -/
def included (h : Header) : List Transaction → State → List Included
  | [], _ => []
  | tx :: txs, s =>
    ⟨h, s, tx⟩ :: match applyTx s tx h.proposer h.gasLimit with
      | some (t, .ok _) => included h txs t
      | _ => []

/-- A chain of blocks on a parent, with all transactions included on the way to the last state. -/
inductive BlockRun (tr : Treasury) : State → Header → List Block → List Included → State → Prop
  | nil {s h} : BlockRun tr s h [] [] s
  | cons {s h b s' receipts bs xs t} : applyBlock tr s b (some h) = .ok (s', receipts) → BlockRun tr s' b.header bs xs t →
      BlockRun tr s h (b :: bs) (included b.header b.txs (blockState s b.header) ++ xs) t

def Included.Differs (x y : Included) : Prop :=
  ∀ a, x.tx.sender = .ok a → y.tx.sender = .ok a → x.tx.nonce ≠ y.tx.nonce

/-- The transactions `xs` spend their senders' nonces on the way from `s` to `t`. -/
structure Spent (s : State) (xs : List Included) (t : State) : Prop where
  le : s.NonceLe t
  current : ∀ x ∈ xs, ∃ a, x.tx.sender = .ok a ∧ x.state.nonce a = x.tx.nonce ∧
    (s.nonce a).toNat ≤ x.tx.nonce.toNat ∧ x.tx.nonce.toNat < (t.nonce a).toNat
  distinct : xs.Pairwise Included.Differs

variable {s t : State}

theorem Spent.nil (h : s.NonceLe t) : Spent s [] t := ⟨h, by simp, .nil⟩

theorem Spent.append {s t u : State} {xs ys : List Included} (hx : Spent s xs t) (hy : Spent t ys u) : Spent s (xs ++ ys) u := by
  refine ⟨hx.le.trans hy.le, fun x hmem => ?_, List.pairwise_append.2 ⟨hx.distinct, hy.distinct, fun x hxm y hym => ?_⟩⟩
  · rcases List.mem_append.1 hmem with hmem | hmem
    · obtain ⟨a, hs, hn, hlo, hhi⟩ := hx.current x hmem
      exact ⟨a, hs, hn, hlo, hhi.trans_le (hy.le a)⟩
    · obtain ⟨a, hs, hn, hlo, hhi⟩ := hy.current x hmem
      exact ⟨a, hs, hn, (hx.le a).trans hlo, hhi⟩
  · intro a hxa hya heq
    obtain ⟨b, hs, -, -, hhi⟩ := hx.current x hxm
    obtain ⟨c, hs', -, hlo, -⟩ := hy.current y hym
    rw [hxa] at hs
    rw [hya] at hs'
    cases hs
    cases hs'
    rw [heq] at hhi
    omega

variable {h : Header} {receipts : List Receipt}

theorem applyTxs_spent {txs : List Transaction} {i : ℕ} {totalGas gas : UInt64} (hlow : ∀ x ∈ included h txs s, x.Below)
    (happ : applyTxs h i totalGas txs s = .ok (t, gas, receipts)) :
    Spent s (included h txs s) t ∧ (included h txs s).map Included.tx = txs := by
  induction txs generalizing i totalGas gas s receipts with
  | nil =>
    cases happ
    exact ⟨.nil (.refl _), rfl⟩
  | cons tx txs ih =>
    unfold applyTxs at happ
    split at happ
    · cases happ
    · cases happ
    case h_3 t' r hr =>
      split at happ
      · cases happ
      split at happ
      · cases happ
      case h_2 t'' gas' rs hrest =>
        cases happ
        rw [included, hr] at hlow ⊢
        obtain ⟨hspent, htxs⟩ := ih (fun x hx => hlow x (List.mem_cons_of_mem _ hx)) hrest
        obtain ⟨hle, sender, hs, hn, hlt⟩ := applyTx_nonce (hlow _ List.mem_cons_self) hr
        have hfirst : Spent s [⟨h, s, tx⟩] t' := by
          refine ⟨hle, fun x hx => ?_, List.pairwise_singleton _ _⟩
          rw [List.mem_singleton.1 hx]
          exact ⟨sender, hs, hn, by rw [hn], hlt⟩
        exact ⟨hfirst.append hspent, by rw [List.map_cons, htxs]⟩

theorem nonce_creditBlockReward (tr : Treasury) (s : State) (miner a : Address) (height : UInt64) :
    (creditBlockReward tr s miner height).nonce a = s.nonce a := by
  unfold creditBlockReward
  dsimp only
  split_ifs
  · rw [nonce_credit, nonce_burn]
  · rw [nonce_credit, nonce_credit]
  · rw [nonce_credit]

variable {tr : Treasury}

theorem applyBlock_spent {s s' : State} {b : Block}
    (happ : applyBlock tr s b (some h) = .ok (s', receipts))
    (hlow : ∀ x ∈ included b.header b.txs (blockState s b.header), x.Below) :
    Spent s (included b.header b.txs (blockState s b.header)) s' ∧
      (included b.header b.txs (blockState s b.header)).map Included.tx = b.txs := by
  obtain ⟨u, hu, rfl⟩ := (applyBlock_ok_iff.1 happ).txs
  obtain ⟨hblock, htxs⟩ := applyTxs_spent hlow hu
  have hpre : Spent s [] (blockState s b.header) := .nil (.refl _)
  have hpost : Spent u [] (creditBlockReward tr u b.header.proposer b.header.height) :=
    .nil (.of_eq fun a => nonce_creditBlockReward _ _ _ _ _)
  have hall := (hpre.append hblock).append hpost
  rw [List.nil_append, List.append_nil] at hall
  exact ⟨hall, htxs⟩

theorem BlockRun.spent {bs : List Block} {xs : List Included}
    (hrun : BlockRun tr s h bs xs t) (hlow : ∀ x ∈ xs, x.Below) : Spent s xs t ∧ xs.map Included.tx = bs.flatMap Block.txs := by
  induction hrun with
  | nil => exact ⟨.nil (.refl _), rfl⟩
  | @cons s h b s' receipts bs xs t happ _ ih =>
    obtain ⟨hspent, htxs⟩ := ih fun x hx => hlow x (List.mem_append_right _ hx)
    obtain ⟨hblock, hblockTxs⟩ := applyBlock_spent happ fun x hx => hlow x (List.mem_append_left _ hx)
    exact ⟨hblock.append hspent, by rw [List.map_append, hblockTxs, htxs, List.flatMap_cons]⟩

def lastHeader (h : Header) (bs : List Block) : Header := (bs.getLast?.map Block.header).getD h

theorem BlockRun.snoc {s t t' : State} {bs : List Block} {xs : List Included} {b : Block} (hrun : BlockRun tr s h bs xs t)
    (happ : applyBlock tr t b (some (lastHeader h bs)) = .ok (t', receipts)) :
    BlockRun tr s h (bs ++ [b]) (xs ++ included b.header b.txs (blockState t b.header)) t' := by
  induction hrun with
  | nil =>
    have hone := BlockRun.cons happ .nil
    rwa [List.append_nil] at hone
  | @cons s h c s' rs bs xs t hc _ ih =>
    rw [List.cons_append, List.append_assoc]
    refine .cons hc (ih ?_)
    rw [← happ]
    cases bs with
    | nil => rfl
    | cons d bs => rw [lastHeader, lastHeader, List.getLast?_cons_cons]; rfl

/-- **Replay protection.** Along a chain in which no nonce is used up, nonces do not decrease, every transaction is applied
at its sender's nonce, and no two transactions share a sender and a nonce. -/
theorem replay_protection {tr : Treasury} {s t : State} {h : Header} {bs : List Block} {xs : List Included}
    (hrun : BlockRun tr s h bs xs t) (hlow : ∀ x ∈ xs, x.Below) :
    xs.map Included.tx = bs.flatMap Block.txs ∧ (∀ a, s.nonce a ≤ t.nonce a) ∧
      (∀ x ∈ xs, ∃ a, x.tx.sender = .ok a ∧ x.state.nonce a = x.tx.nonce) ∧ xs.Pairwise Included.Differs := by
  obtain ⟨hspent, htxs⟩ := hrun.spent hlow
  refine ⟨htxs, fun a => UInt64.le_iff_toNat_le.2 (hspent.le a), fun x hx => ?_, hspent.distinct⟩
  obtain ⟨a, hs, hn, -, -⟩ := hspent.current x hx
  exact ⟨a, hs, hn⟩

/-! A block with two transfers of one sender. -/

def Included.isPlain (x : Included) : Bool :=
  x.state.accounts.toList.all (fun kv => kv.2.1.nonce ≠ lastNonce) &&
    match x.tx.sender, x.tx.gasPrice, x.tx.value with
    | .ok sender, some price, some amount =>
      (txFrame x.state x.tx sender x.header.proposer x.header.gasLimit price amount).isNone
    | _, _, _ => true

theorem Included.below_of_isPlain {x : Included} (h : x.isPlain = true) : x.Below := by
  obtain ⟨hsmall, hframe⟩ := Bool.and_eq_true_iff.1 h
  refine ⟨fun a => ?_, fun sender price amount B m u hs hp ha hf => ?_⟩
  · cases hl : x.state.accounts[a]? with
    | none =>
      rw [State.nonce, State.get, hl]
      decide
    | some l =>
      have := List.all_eq_true.1 hsmall (a, l) (ExtTreeMap.mem_toList_iff_getElem?_eq_some.2 hl)
      rw [State.nonce, State.get, hl]
      simpa [readLeaf] using this
  · rw [hs, hp, ha] at hframe
    dsimp only at hframe
    rw [hf] at hframe
    cases hframe

def replaySig₀ : Bytes :=
  beBytes 65 0x1c6a245bf6dc698504c89a20cfded60853152b695336c28063b61c65cbd269e6b42bc5f6f9055a7b12b9f434494a42acb688f3a3939ba267dc0ed8040ac0ce28ff

def replaySig₁ : Bytes :=
  beBytes 65 0x1bd30199d74fb5a22d47b6e054e2f378cedacffcb89904a61d75d0dbd407143e654a933f8ca0501366a8f9a2eddae1b8198cc6d0ced88c133fd6a91f2ff7fb29f4

def replayTx₀ : Transaction := ⟨0, 1, 0, some 0xbeef, some 5, 21000, some 1, [], replaySig₀⟩
def replayTx₁ : Transaction := ⟨0, 1, 1, some 0xbeef, some 5, 21000, some 1, [], replaySig₁⟩

@[reducible]
def replayCrypto : Crypto :=
  signedCrypto
    [(replayTx₀, 0x48e2bbe17da193b6b2d38a5023170d8ab56cf5350c46ad5cfca95433b5e4a9f1,
      0x3d9b76cff2698c2056f7c1f0e9158eabed7ce7dfbb5fefdd3be4a8f6eda07323),
     (replayTx₁, 0xda967494a647f0fd9914c1efc0d583f191d96755dd97d478f3154e39ebdb50e6,
      0xc1290c3807441d72793f9f90943469de4fae5430f9a3bd2f1f4b49cbd450a955)]
    [((196, 0xf4240000000000000000000000000000000000000000000000000000000010000000000000000),
      0xa2fa6537915579a7aa510610ca2067d47e5a72384d525ab11cb0ff2ef868bca3),
     ((33, 0x3d9b76cff2698c2056f7c1f0e9158eabed7ce7dfbb5fefdd3be4a8f6eda07323),
      0x4f0518d3103ccf6c661a5f201531863db5e9c677d70a023728dfed7b3dd12761),
     ((33, 0xc1290c3807441d72793f9f90943469de4fae5430f9a3bd2f1f4b49cbd450a955),
      0x701201ab006a98ee1dcf5dc8cd0692b61897fbff1af78f8dc2859be0cbf1cfea),
     ((65, 0x14f0518d3103ccf6c661a5f201531863db5e9c677d70a023728dfed7b3dd12761701201ab006a98ee1dcf5dc8cd0692b61897fbff1af78f8dc2859be0cbf1cfea),
      0xd4d8b4cb2566215bbc2c20d07bd14af42540dbe69a6c8c26c78bbb26cad1734e),
     ((33, 0x1000000000000520800000000000052080000000000000000),
      0xad23b69da32d145c175b34ff2f7496d276b88665dcf3416e66ed6890643bec38),
     ((33, 0x1000000000000a41000000000000052080000000000000000),
      0x99f85157feb8a41f82663e2a0450ee81b23ba52caaca98d080f8b3df31206b09),
     ((65, 0x1ad23b69da32d145c175b34ff2f7496d276b88665dcf3416e66ed6890643bec3899f85157feb8a41f82663e2a0450ee81b23ba52caaca98d080f8b3df31206b09),
      0xc5d8a6cd2a8ae009ba58bc9d951a017a84dd48d6d4dc85130021b6361db249ad),
     ((62, 0x9000000000000002100000000000000000000000000000009015af1d78b58c483400000000000000000),
      0x98a48ea0b5bf6feb0b08df3dd7463047f889eb2b3d25ff1be96cb51c371b83d4),
     ((54, 0xbeef0000000000000019000000000000000000000000000000010a0000000000000000),
      0x4b7fee4204b2278896b5a5da63c0afaaf1a53a578fc8b2949354c2439223a09b),
     ((56, 0x7e5f4552091a69125d5dfcb7b8c2659029395bdf000000000000001b000000000000000200000000000000030e9e260000000000000000),
      0x412340bdead0681daf16674bd1055ad9cec8ed9377f30af68322a191bfae2250),
     ((65, 0x198a48ea0b5bf6feb0b08df3dd7463047f889eb2b3d25ff1be96cb51c371b83d44b7fee4204b2278896b5a5da63c0afaaf1a53a578fc8b2949354c2439223a09b),
      0x7ae09d0d42aae521986439bde8116059cd39534dfec2b36ebbb938e5bcf6c3bb),
     ((65, 0x17ae09d0d42aae521986439bde8116059cd39534dfec2b36ebbb938e5bcf6c3bb412340bdead0681daf16674bd1055ad9cec8ed9377f30af68322a191bfae2250),
      0x13db1602755cfa5cd670450a622bfde790133f041645c6b6b9f68daa55a9b5a6),
     ((42, 0x13db1602755cfa5cd670450a622bfde790133f041645c6b6b9f68daa55a9b5a6000000000000000220d0),
      0xfae21d74eeabee1d07e593d282affe3f490adc5cc0857b3374f5b5cdd5e369fa)]

def replayParent : Header := ⟨0, 0, 0, 0, 0, 0, 0, 1000000, 0, 1, 0⟩

def replayState : State := State.new.credit senderAddr 1000000

def replayBlock : Block where
  header :=
    { parentHash := 0xa2fa6537915579a7aa510610ca2067d47e5a72384d525ab11cb0ff2ef868bca3
      height := 1
      timestamp := 240000
      txRoot := 0xd4d8b4cb2566215bbc2c20d07bd14af42540dbe69a6c8c26c78bbb26cad1734e
      receiptRoot := 0xc5d8a6cd2a8ae009ba58bc9d951a017a84dd48d6d4dc85130021b6361db249ad
      stateRoot := 0xfae21d74eeabee1d07e593d282affe3f490adc5cc0857b3374f5b5cdd5e369fa
      gasUsed := 42000
      gasLimit := 1000000
      proposer := 9
      difficulty := 1
      nonce := 0 }
  txs := [replayTx₀, replayTx₁]

omit [Crypto] in
theorem replay_protection_twoTransfers :
    ∃ xs t, @BlockRun replayCrypto ⟨0, 0⟩ replayState replayParent [replayBlock] xs t ∧ xs.length = 2 ∧
      (∀ a, replayState.nonce a ≤ t.nonce a) ∧
      (∀ x ∈ xs, ∃ a, @Transaction.sender replayCrypto x.tx = .ok a ∧ x.state.nonce a = x.tx.nonce) ∧
      xs.Pairwise (@Included.Differs replayCrypto) := by
  have hok : (@applyBlock replayCrypto ⟨0, 0⟩ replayState replayBlock (some replayParent)).isOk = true := by decide +kernel
  have hplain : (@included replayCrypto replayBlock.header replayBlock.txs (blockState replayState replayBlock.header)).all
      (@Included.isPlain replayCrypto) = true := by decide +kernel
  cases happ : @applyBlock replayCrypto ⟨0, 0⟩ replayState replayBlock (some replayParent) with
  | error e => rw [happ] at hok; cases hok
  | ok x =>
    have hrun := @BlockRun.cons replayCrypto _ _ _ _ _ _ _ _ _ happ (@BlockRun.nil replayCrypto _ _ _)
    rw [List.append_nil] at hrun
    obtain ⟨htxs, hle, hcurrent, hdistinct⟩ := @replay_protection replayCrypto _ _ _ _ _ _ hrun fun y hy =>
      @Included.below_of_isPlain replayCrypto y (List.all_eq_true.1 hplain y hy)
    refine ⟨_, _, hrun, ?_, hle, hcurrent, hdistinct⟩
    rw [← List.length_map (f := Included.tx), htxs]
    rfl

end Lxs
