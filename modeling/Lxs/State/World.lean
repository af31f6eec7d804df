import Lxs.State.Blocks
import Lxs.Vm.Simulation

/-!
# Blocks depend on the world only

Two states with the same accounts and the same burn total, whatever their touched sets and the logs of earlier
transactions, run transactions alike. So whether a block is accepted, its receipts and the world after it are
determined by the world before it.
-/

set_option linter.unusedSectionVars false

namespace Lxs

open Std Lib Vm

/-! ### Alike states -/

/-- The savepoints of two states whose logs start with `p` and with `q`. -/
structure Snapshot.Alike (p q : List Log) (a b : Snapshot) : Prop where
  journalLen : a.journalLen = b.journalLen
  burned : a.burned = b.burned
  logCount : ∃ k, a.logCount = p.length + k ∧ b.logCount = q.length + k

def JournalEntry.write (e : JournalEntry) : Address × Option Leaf := (e.addr, e.prev)

/-- Two states that agree but for their touched sets and the logs `p` and `q` they started with. -/
structure State.Alike (p q : List Log) (s t : State) : Prop where
  accounts : s.accounts = t.accounts
  burned : s.burned = t.burned
  bctx : s.bctx = t.bctx
  logs : ∃ l, s.logs = p ++ l ∧ t.logs = q ++ l
  journal : s.journal.map JournalEntry.write = t.journal.map JournalEntry.write
  snapshots : List.Forall₂ (Snapshot.Alike p q) s.snapshots t.snapshots

theorem forall₂_getElem? {α β : Type} {R : α → β → Prop} {l : List α} {l' : List β} (h : List.Forall₂ R l l') (i : ℕ) :
    (l[i]? = none ∧ l'[i]? = none) ∨ ∃ a b, l[i]? = some a ∧ l'[i]? = some b ∧ R a b := by
  induction h generalizing i with
  | nil => exact .inl ⟨rfl, rfl⟩
  | cons hab _ ih =>
    cases i with
    | zero => exact .inr ⟨_, _, rfl, rfl, hab⟩
    | succ i => simpa using ih i

theorem foldr_undoEntry (es : List JournalEntry) (w : ExtTreeMap Address Leaf × ExtTreeSet Address) :
    (es.foldr State.undoEntry w).1 = (es.map JournalEntry.write).foldr (fun e m => FinMap.put m e.1 e.2) w.1 := by
  induction es with
  | nil => rfl
  | cons e es ih =>
    simp only [List.foldr_cons, List.map_cons, State.undoEntry, ih]
    rfl

namespace State

variable {p q : List Log} {s t : State}

namespace Alike

theorem get (h : Alike p q s t) (a : Address) : s.get a = t.get a := get_congr h.accounts a

theorem get_eq (h : Alike p q s t) : s.get = t.get := funext h.get

theorem set (h : Alike p q s t) (a : Address) (acc : Account) : Alike p q (s.set a acc) (t.set a acc) := by
  obtain ⟨ha, hb, hc, hl, hj, hs⟩ := h
  refine ⟨?_, hb, hc, hl, ?_, hs⟩
  · show FinMap.put s.accounts a _ = FinMap.put t.accounts a _
    rw [ha]
  · have hempty : s.snapshots.isEmpty = t.snapshots.isEmpty := by
      generalize s.snapshots = l at hs
      generalize t.snapshots = l' at hs
      cases hs <;> rfl
    show (if s.snapshots.isEmpty then s.journal else s.journal ++ [_]).map _ =
      (if t.snapshots.isEmpty then t.journal else t.journal ++ [_]).map _
    rw [hempty]
    split
    · exact hj
    · rw [List.map_append, List.map_append, hj]
      simp only [List.map_cons, List.map_nil, JournalEntry.write, ha]

theorem update (h : Alike p q s t) (a : Address) (f : Account → Account) : Alike p q (s.update a f) (t.update a f) := by
  unfold State.update
  rw [h.get]
  exact h.set a _

theorem credit (h : Alike p q s t) (a : Address) (v : ℤ) : Alike p q (s.credit a v) (t.credit a v) := by
  unfold State.credit
  exact h.update a _

theorem subBalance (h : Alike p q s t) (a : Address) (v : ℤ) : Alike p q (s.subBalance a v) (t.subBalance a v) := by
  unfold State.subBalance
  exact h.update a _

theorem setNonce (h : Alike p q s t) (a : Address) (n : UInt64) : Alike p q (s.setNonce a n) (t.setNonce a n) := by
  unfold State.setNonce
  exact h.update a _

theorem setCode (h : Alike p q s t) (a : Address) (code : Bytes) : Alike p q (s.setCode a code) (t.setCode a code) := by
  unfold State.setCode
  exact h.update a _

theorem setStorage (h : Alike p q s t) (a : Address) (key value : Hash) :
    Alike p q (s.setStorage a key value) (t.setStorage a key value) := by
  unfold State.setStorage
  exact h.update a _

theorem burn (h : Alike p q s t) (v : Option ℤ) : Alike p q (s.burn v) (t.burn v) := by
  cases v with
  | none => exact h
  | some v =>
    unfold State.burn
    dsimp only
    split
    · exact h
    · exact ⟨h.accounts, by show s.burned + v = t.burned + v; rw [h.burned], h.bctx, h.logs, h.journal, h.snapshots⟩

theorem addLog (h : Alike p q s t) (log : Log) : Alike p q (s.addLog log) (t.addLog log) := by
  obtain ⟨l, hs, ht⟩ := h.logs
  refine ⟨h.accounts, h.burned, h.bctx, ⟨l ++ [log], ?_, ?_⟩, h.journal, h.snapshots⟩
  · show s.logs ++ [log] = _
    rw [hs, List.append_assoc]
  · show t.logs ++ [log] = _
    rw [ht, List.append_assoc]

theorem length_journal (h : Alike p q s t) : s.journal.length = t.journal.length := by
  simpa using congrArg List.length h.journal

theorem snapshot (h : Alike p q s t) : Alike p q s.snapshot t.snapshot := by
  obtain ⟨l, hs, ht⟩ := h.logs
  refine ⟨h.accounts, h.burned, h.bctx, h.logs, h.journal, ?_⟩
  refine List.rel_append h.snapshots (.cons ⟨h.length_journal, h.burned, l.length, ?_, ?_⟩ .nil)
  · show s.logs.length = _
    rw [hs, List.length_append]
  · show t.logs.length = _
    rw [ht, List.length_append]

theorem discardSnapshots (h : Alike p q s t) : Alike p q s.discardSnapshots t.discardSnapshots :=
  ⟨h.accounts, h.burned, h.bctx, h.logs, rfl, .nil⟩

theorem revertToSnapshot (h : Alike p q s t) (id : ℕ) : Alike p q (s.revertToSnapshot id) (t.revertToSnapshot id) := by
  unfold State.revertToSnapshot
  obtain ⟨hs, ht⟩ | ⟨a, b, hs, ht, hab⟩ := forall₂_getElem? h.snapshots id
  · rw [hs, ht]
    exact h
  · rw [hs, ht]
    obtain ⟨hlen, hburned, k, hka, hkb⟩ := hab
    obtain ⟨l, hsl, htl⟩ := h.logs
    refine ⟨?_, hburned, h.bctx, ⟨l.take k, ?_, ?_⟩, ?_, List.forall₂_take _ h.snapshots⟩
    · dsimp only
      rw [foldr_undoEntry, foldr_undoEntry, List.map_drop, List.map_drop, h.journal, h.accounts, hlen]
    · show s.logs.take a.logCount = _
      rw [hsl, hka, List.take_length_add_append]
    · show t.logs.take b.logCount = _
      rw [htl, hkb, List.take_length_add_append]
    · show (s.journal.take _).map _ = (t.journal.take _).map _
      rw [List.map_take, List.map_take, h.journal, hlen]

theorem length_snapshots (h : Alike p q s t) : s.snapshots.length = t.snapshots.length := h.snapshots.length_eq

theorem view (h : Alike p q s t) : Vm.view s = Vm.view t := by
  show View.mk s.getStorage s.getCode s.nonce s.balance = View.mk t.getStorage t.getCode t.nonce t.balance
  unfold getStorage getCode nonce balance
  rw [h.get_eq]

theorem root [Crypto] (h : Alike p q s t) : s.root = t.root := by
  unfold State.root
  rw [h.accounts, h.burned]

end Alike

theorem alike_simulation (p q : List Log) : Simulation (Alike p q) where
  view h := h.view
  setStorage a key value h := h.setStorage a key value
  setCode a code h := h.setCode a code
  setNonce a n h := h.setNonce a n
  addBalance a v h := h.credit a v
  subBalance a v h := h.subBalance a v
  addLog l h := h.addLog l
  snapshotId h := h.length_snapshots
  snapshot h := h.snapshot
  revertToSnapshot id h := h.revertToSnapshot id

end State

/-! ### Transactions -/

inductive RelTx (p q : List Log) : Option (State × Except TxError TxResult) → Option (State × Except TxError TxResult) → Prop
  | panic : RelTx p q none none
  | refused {s t} (e : TxError) : s.Alike p q t → RelTx p q (some (s, .error e)) (some (t, .error e))
  | done {s t} (r : TxResult) : s.Alike p q t → RelTx p q (some (s, .ok r)) (some (t, .ok r))

inductive RelTxRun (p q : List Log) : Option TxRun → Option TxRun → Prop
  | panic : RelTxRun p q none none
  | done {s t} (gasUsed : UInt64) (fault : Option TxFault) : s.Alike p q t →
      RelTxRun p q (some ⟨s, gasUsed, fault⟩) (some ⟨t, gasUsed, fault⟩)

section Tx

variable [Crypto] {p q : List Log} {s t : State} {tx : Transaction}

theorem State.Alike.checkTx (h : s.Alike p q t) (sender : Address) (blockGasLimit : UInt64) :
    checkTx s tx sender blockGasLimit = checkTx t tx sender blockGasLimit := by
  unfold Lxs.checkTx
  rw [h.get_eq]

theorem State.Alike.chargeTx (h : s.Alike p q t) (sender : Address) (maxFee : ℤ) :
    (chargeTx s sender maxFee).Alike p q (chargeTx t sender maxFee) := h.update sender _

theorem State.Alike.startTx (h : s.Alike p q t) (sender : Address) (maxFee amount : ℤ) :
    (startTx s sender maxFee amount).Alike p q (startTx t sender maxFee amount) :=
  (h.chargeTx sender maxFee).snapshot.subBalance sender amount

theorem State.Alike.settleTx (h : s.Alike p q t) (sender coinbase : Address) (maxFee spent : ℤ) :
    (settleTx s sender coinbase maxFee spent).Alike p q (settleTx t sender coinbase maxFee spent) := by
  unfold Lxs.settleTx distributeFee
  dsimp only
  split
  · exact ((h.credit _ _).burn _).credit _ _
  · exact (h.burn _).credit _ _

theorem runCreation_alike (tx : Transaction) (ctx : Address → Context) (sender : Address) (amount : ℤ) (budget : UInt64) (h : s.Alike p q t) :
    RelTxRun p q (runCreation ctx tx sender amount budget s) (runCreation ctx tx sender amount budget t) := by
  have hrun := execute_sim (State.alike_simulation p q) (h.credit (createAddress sender tx.nonce) amount) tx.data []
    budget (ctx (createAddress sender tx.nonce)) 0
  have hnonce : s.nonce = t.nonce := by unfold State.nonce; rw [h.get_eq]
  have hcode : s.getCode = t.getCode := by unfold State.getCode; rw [h.get_eq]
  unfold runCreation
  dsimp only
  rw [hnonce, hcode]
  split
  · exact .done _ _ h
  · generalize execute _ _ _ _ _ (s.credit _ _) = x at hrun ⊢
    generalize execute _ _ _ _ _ (t.credit _ _) = y at hrun ⊢
    cases hrun with
    | error a => exact .panic
    | ok r hst =>
      dsimp only
      split_ifs
      · exact .done _ _ hst
      · exact .done _ _ hst
      · exact .done _ _ hst
      · exact .done _ _ (hst.setCode _ _)

theorem runCall_alike (tx : Transaction) (ctx : Address → Context) (target : Address) (amount : ℤ) (budget : UInt64) (h : s.Alike p q t) :
    RelTxRun p q (runCall ctx tx target amount budget s) (runCall ctx tx target amount budget t) := by
  have h' := h.credit target amount
  have hcode : (s.credit target amount).getCode = (t.credit target amount).getCode := by
    unfold State.getCode
    rw [h'.get_eq]
  have hrun := execute_sim (State.alike_simulation p q) h' ((t.credit target amount).getCode target) tx.data budget
    (ctx target) 0
  unfold runCall
  dsimp only
  rw [hcode]
  generalize execute _ _ _ _ _ (s.credit _ _) = x at hrun ⊢
  generalize execute _ _ _ _ _ (t.credit _ _) = y at hrun ⊢
  cases hrun with
  | error a => exact .panic
  | ok r hst => exact .done _ _ hst

theorem runTx_alike (tx : Transaction) (ctx : Address → Context) (sender : Address) (amount : ℤ) (budget : UInt64) (h : s.Alike p q t) :
    RelTxRun p q (runTx ctx tx sender amount budget s) (runTx ctx tx sender amount budget t) := by
  have hcode : s.getCode = t.getCode := by unfold State.getCode; rw [h.get_eq]
  unfold runTx
  rw [hcode]
  split
  · exact runCreation_alike tx ctx sender amount budget h
  · split_ifs
    · exact runCall_alike tx ctx _ amount budget h
    · exact .done _ _ (h.burn _)
    · exact .done _ _ (h.credit _ _)

theorem State.Alike.logsSince {s' t' : State} (h : s.Alike p q t) (h' : s'.Alike p q t') :
    s'.logsSince s.logCount = t'.logsSince t.logCount := by
  obtain ⟨l, hs, ht⟩ := h.logs
  obtain ⟨l', hs', ht'⟩ := h'.logs
  unfold State.logsSince State.logCount
  rw [hs, ht, hs', ht', List.length_append, List.length_append, List.drop_length_add_append,
    List.drop_length_add_append]

theorem executeTx_alike (sender coinbase : Address) (blockGasLimit : UInt64) (price amount : ℤ) (h : s.Alike p q t) :
    RelTx p q ((executeTx s tx sender coinbase blockGasLimit price amount).map fun x => (x.1, .ok x.2))
      ((executeTx t tx sender coinbase blockGasLimit price amount).map fun x => (x.1, .ok x.2)) := by
  have hcharge := h.chargeTx sender (tx.gasLimit.toNat * price)
  have hstart := h.startTx sender (tx.gasLimit.toNat * price) amount
  have hctx : txContext (startTx s sender (tx.gasLimit.toNat * price) amount) tx sender coinbase blockGasLimit price amount =
      txContext (startTx t sender (tx.gasLimit.toNat * price) amount) tx sender coinbase blockGasLimit price amount := by
    unfold txContext
    rw [hstart.bctx]
  have hrun := runTx_alike tx
    (txContext (startTx t sender (tx.gasLimit.toNat * price) amount) tx sender coinbase blockGasLimit price amount) sender
    amount (tx.gasLimit - intrinsicGasFor tx.data tx.toAddr.isNone) hstart
  unfold executeTx
  dsimp only
  rw [hctx, hcharge.length_snapshots]
  generalize runTx _ _ _ _ _ (startTx s _ _ _) = x at hrun ⊢
  generalize runTx _ _ _ _ _ (startTx t _ _ _) = y at hrun ⊢
  cases hrun with
  | panic => exact .panic
  | done gasUsed fault hst =>
    cases fault with
    | none =>
      have hend := hst.discardSnapshots.settleTx sender coinbase (tx.gasLimit.toNat * price)
        ((intrinsicGasFor tx.data tx.toAddr.isNone + gasUsed).toNat * price)
      dsimp only [TxRun.close, Option.map_some]
      rw [hcharge.logsSince hend]
      exact .done _ hend
    | some f =>
      have hend := (hst.revertToSnapshot (chargeTx t sender (tx.gasLimit.toNat * price)).snapshots.length).settleTx sender
        coinbase (tx.gasLimit.toNat * price) ((intrinsicGasFor tx.data tx.toAddr.isNone +
          if f = .vm .reverted then gasUsed else tx.gasLimit - intrinsicGasFor tx.data tx.toAddr.isNone).toNat * price)
      dsimp only [TxRun.close, Option.map_some]
      rw [hcharge.logsSince hend]
      exact .done _ hend

theorem applyTx_alike (tx : Transaction) (coinbase : Address) (blockGasLimit : UInt64) (h : s.Alike p q t) :
    RelTx p q (applyTx s tx coinbase blockGasLimit) (applyTx t tx coinbase blockGasLimit) := by
  unfold applyTx
  split
  · exact .refused _ h
  · rename_i sender _
    rw [h.checkTx sender blockGasLimit]
    split
    · exact .refused _ h
    · exact executeTx_alike sender coinbase blockGasLimit _ _ h
    · exact .panic

end Tx

/-! ### Blocks -/

inductive RelTxs (p q : List Log) : Except BlockError (State × UInt64 × List Receipt) →
    Except BlockError (State × UInt64 × List Receipt) → Prop
  | error (e : BlockError) : RelTxs p q (.error e) (.error e)
  | ok {s t} (gas : UInt64) (receipts : List Receipt) : s.Alike p q t →
      RelTxs p q (.ok (s, gas, receipts)) (.ok (t, gas, receipts))

/-- What the state root commits to: the accounts and the burn total. -/
@[ext]
structure World where
  accounts : ExtTreeMap Address Leaf
  burned : ℤ

instance : LawfulBEq Leaf := inferInstance

instance : DecidableEq World := fun _ _ => decidable_of_iff _ World.ext_iff.symm

def State.world (s : State) : World := ⟨s.accounts, s.burned⟩

/-- Two blocks are accepted with the same receipts and leave the same world, or are refused for the same reason. -/
inductive RelBlock : Except BlockError (State × List Receipt) → Except BlockError (State × List Receipt) → Prop
  | error (e : BlockError) : RelBlock (.error e) (.error e)
  | ok {s t} (receipts : List Receipt) : s.world = t.world → RelBlock (.ok (s, receipts)) (.ok (t, receipts))

section Blocks

variable [Crypto] {p q : List Log} {s t : State}

theorem State.Alike.world (h : s.Alike p q t) : s.world = t.world := World.ext h.accounts h.burned

theorem State.Alike.creditBlockReward (h : s.Alike p q t) (tr : Treasury) (miner : Address) (height : UInt64) :
    (creditBlockReward tr s miner height).Alike p q (creditBlockReward tr t miner height) := by
  unfold Lxs.creditBlockReward
  dsimp only
  split_ifs
  · exact (h.burn _).credit _ _
  · exact (h.credit _ _).credit _ _
  · exact h.credit _ _

theorem applyTxs_alike (h : Header) (txs : List Transaction) :
    ∀ i totalGas {s t}, s.Alike p q t → RelTxs p q (applyTxs h i totalGas txs s) (applyTxs h i totalGas txs t) := by
  induction txs with
  | nil => exact fun _ _ _ _ hst => .ok _ _ hst
  | cons tx txs ih =>
    intro i totalGas s t hst
    have htx := applyTx_alike tx h.proposer h.gasLimit hst
    unfold applyTxs
    generalize applyTx s tx h.proposer h.gasLimit = x at htx ⊢
    generalize applyTx t tx h.proposer h.gasLimit = y at htx ⊢
    cases htx with
    | panic => exact .error _
    | refused e _ => exact .error _
    | @done s' t' r hst' =>
      dsimp only
      split_ifs
      · exact .error _
      · have hrest := ih (i + 1) (totalGas + r.gasUsed) hst'
        generalize applyTxs h (i + 1) (totalGas + r.gasUsed) txs s' = x at hrest ⊢
        generalize applyTxs h (i + 1) (totalGas + r.gasUsed) txs t' = y at hrest ⊢
        cases hrest with
        | error e => exact .error _
        | ok gas receipts hend => exact .ok _ _ hend

theorem blockState_alike (h : Header) (hw : s.world = t.world) :
    (blockState s h).Alike s.logs t.logs (blockState t h) :=
  ⟨congrArg World.accounts hw, congrArg World.burned hw, rfl, ⟨[], (List.append_nil _).symm, (List.append_nil _).symm⟩, rfl,
    .nil⟩

/-- **A block depends on the world before it only**: whether it is accepted, its receipts and the world after it. -/
theorem applyBlock_world (tr : Treasury) (b : Block) (parentHeader : Option Header) (hw : s.world = t.world) :
    RelBlock (applyBlock tr s b parentHeader) (applyBlock tr t b parentHeader) := by
  have htxs := applyTxs_alike b.header b.txs 0 0 (blockState_alike b.header hw)
  unfold applyBlock
  split
  · exact .error _
  · split
    · exact .error _
    · generalize applyTxs b.header 0 0 b.txs (blockState s b.header) = x at htxs ⊢
      generalize applyTxs b.header 0 0 b.txs (blockState t b.header) = y at htxs ⊢
      cases htxs with
      | error e => exact .error _
      | @ok s' t' gas receipts hend =>
        have hnext := hend.creditBlockReward tr b.header.proposer b.header.height
        dsimp only [sealBlock]
        rw [hnext.root]
        split_ifs
        · exact .error _
        · exact .error _
        · exact .error _
        · exact .ok _ hnext.world

end Blocks

end Lxs
