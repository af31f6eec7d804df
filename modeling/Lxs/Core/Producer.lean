import Mathlib.Data.UInt
import Lxs.Core.Difficulty
import Lxs.Core.Indexes
import Lxs.Core.Wiring

/-!
# The producer

`core/producer.go`: a candidate is built on the head by trying pooled transactions on copies of its state, and a sealed
candidate is inserted and its transactions are taken out of the pool. The wall clock and the order in which the pool is
iterated are arguments.

* `build_agrees_iff`: **the validator accepts the candidate, whatever its nonce, exactly when a later timestamp exists.**
* `commit_keeps_iff`: **committing loses no transaction exactly when what it takes out of the pool is on the branch that is
  canonical then.**
-/

set_option linter.unusedSectionVars false

namespace Lxs

open Std Lib Vm

variable [Crypto]

/-! ### Building -/

/-- What the loop over the pooled transactions has collected. -/
structure Packed where
  state : State
  gasUsed : UInt64
  minerFees : ℤ
  included : List Transaction
  receipts : List Receipt

/-- The loop over the pooled transactions, each tried on a copy of the working state. -/
def packTxs (coinbase : Address) (gasLimit : UInt64) : List Transaction → State → UInt64 → Packed
  | [], working, gasUsed => ⟨working, gasUsed, 0, [], []⟩
  | tx :: txs, working, gasUsed =>
    match applyTx working.copy tx coinbase gasLimit with
    | some (trial, .ok r) =>
      if gasLimit < gasUsed + r.gasUsed then ⟨working, gasUsed, 0, [], []⟩
      else
        let fee := r.gasUsed.toNat * tx.price
        let burn := fee * feeBurnBasisPoints.toNat / 10000
        let rest := packTxs coinbase gasLimit txs trial (gasUsed + r.gasUsed)
        { rest with
          minerFees := fee - burn + rest.minerFees
          included := tx :: rest.included
          receipts := ⟨r.status.code, gasUsed + r.gasUsed, r.gasUsed, r.logs⟩ :: rest.receipts }
    -- an error, or a panic that `applyTxSafe` makes one
    | _ => packTxs coinbase gasLimit txs working gasUsed

structure Candidate where
  block : Block
  minerFees : ℤ

def Candidate.withNonce (c : Candidate) (nonce : UInt64) : Block := { c.block with header := { c.block.header with nonce := nonce } }

namespace Blockchain

/-- A copy of the state of the head; the source dereferences `nil` when it is not in memory. -/
def stateSnapshot (bc : Blockchain) : Option State := bc.states[bc.head.hash]?.map State.copy

def buildUnsealed (bc : Blockchain) (pool : Mempool) (coinbase : Address) (nowMs : Int64) (o : Mempool.GroupOrder) :
    Option Candidate × Blockchain :=
  match bc.stateSnapshot with
  | none => (none, bc)
  | some snapshot =>
    let parent := bc.head.header
    let txs := pool.pending snapshot parent.gasLimit o
    -- timestamps must increase, and the wall clock can go backwards
    let ts := if nowMs ≤ parent.timestamp then parent.timestamp + 1 else nowMs
    let (difficulty, bc') := bc.requiredDifficulty parent
    let height := parent.height + 1
    let working := snapshot.copy.setBlockContext height (ts.toUInt64 / 1000) difficulty
    let packed := packTxs coinbase parent.gasLimit txs working 0
    let final := creditBlockReward bc.treasury packed.state coinbase height
    let header : Header :=
      { parentHash := bc.head.hash
        height := height
        timestamp := ts
        txRoot := txRoot packed.included
        receiptRoot := receiptRoot packed.receipts
        stateRoot := final.root
        gasUsed := packed.gasUsed
        gasLimit := parent.gasLimit
        proposer := coinbase
        difficulty := difficulty
        nonce := 0 }
    (some ⟨⟨header, packed.included⟩, packed.minerFees⟩, bc')

end Blockchain

/-! ### States between transactions -/

/-- No savepoint is live: a copy of the state is the state. -/
def State.Clean (s : State) : Prop := s.snapshots = [] ∧ s.journal = []

namespace State.Clean

variable {s : State}

theorem set (h : s.Clean) (a : Address) (acc : Account) : (s.set a acc).Clean := by
  obtain ⟨hs, hj⟩ := h
  refine ⟨hs, ?_⟩
  show (if s.snapshots.isEmpty then s.journal else _) = []
  rw [hs]
  exact hj

theorem burn (h : s.Clean) (v : Option ℤ) : (s.burn v).Clean := by
  cases v with
  | none => exact h
  | some v =>
    unfold State.burn
    dsimp only
    split
    · exact h
    · exact h

theorem distributeFee (h : s.Clean) (proposer : Address) (fee : ℤ) : (distributeFee s proposer fee).Clean :=
  (h.burn _).set _ _

end State.Clean

section Tx

variable {s t u : State} {tx : Transaction} {sender coinbase : Address} {price amount : ℤ} {budget blockGasLimit : UInt64}

/-- **A transaction leaves no savepoint behind**, and what it does last is to split its fee. -/
theorem executeTx_clean {r : TxResult} (hs : s.Clean)
    (h : executeTx s tx sender coinbase blockGasLimit price amount = some (t, r)) :
    t.Clean ∧ ∃ u, t = distributeFee u coinbase (r.gasUsed.toNat * price) := by
  unfold executeTx at h
  dsimp only at h
  split at h
  · cases h
  · rename_i run hrun
    have hclosed : (run.close (chargeTx s sender (tx.gasLimit.toNat * price)).snapshots.length
        (tx.gasLimit - intrinsicGasFor tx.data tx.toAddr.isNone)).1.Clean := by
      unfold TxRun.close
      split
      · exact ⟨rfl, rfl⟩
      · -- the savepoint of the transaction is the state in which gas and nonce are charged
        have hin := runTx_inside hrun (inside_startTx s sender)
        rw [State.revertToSnapshot_of_extends hin.1]
        exact hs.set _ _
    cases h
    refine ⟨?_, _, rfl⟩
    unfold settleTx
    dsimp only
    split
    · exact (hclosed.set _ _).distributeFee _ _
    · exact hclosed.distributeFee _ _

theorem applyTx_clean {r : TxResult} (hs : s.Clean) (h : applyTx s tx coinbase blockGasLimit = some (t, .ok r)) :
    t.Clean ∧ ∃ u, t = distributeFee u coinbase (r.gasUsed.toNat * tx.price) := by
  unfold applyTx at h
  split at h
  · cases h
  · split at h
    · cases h
    · rename_i price amount _ hprice _
      obtain ⟨⟨t', r'⟩, hrun, heq⟩ := Option.map_eq_some_iff.1 h
      cases heq
      rw [Transaction.price, hprice]
      exact executeTx_clean hs hrun
    · cases h

end Tx

/-! ### The two loops -/

/-- The transactions of a block run one after another, each splitting its fee last, and together credit the tips. -/
inductive Tipped (h : Header) : State → List Transaction → State → ℤ → Prop
  | nil {s} : Tipped h s [] s 0
  | cons {s u tx r txs t tips} :
      applyTx s tx h.proposer h.gasLimit = some (distributeFee u h.proposer (r.gasUsed.toNat * tx.price), .ok r) →
      Tipped h (distributeFee u h.proposer (r.gasUsed.toNat * tx.price)) txs t tips →
      Tipped h s (tx :: txs) t (feeTip (r.gasUsed.toNat * tx.price) + tips)

section Pack

variable {p q : List Log} {s t : State} {h : Header}

theorem State.Alike.copy (hst : s.Alike p q t) (ht : t.Clean) : s.copy.Alike p q t := by
  refine ⟨hst.accounts, hst.burned, hst.bctx, hst.logs, ?_, ?_⟩
  · rw [ht.2]
    rfl
  · rw [ht.1]
    exact .nil

/-- **What is packed passes the loop of the validator**, with the same gas and receipts and an alike state. -/
theorem applyTxs_packTxs (txs : List Transaction) : ∀ {s t : State} (i : ℕ) (gasUsed : UInt64), s.Alike p q t → t.Clean →
    ∃ t', applyTxs h i gasUsed (packTxs h.proposer h.gasLimit txs s gasUsed).included t =
        .ok (t', (packTxs h.proposer h.gasLimit txs s gasUsed).gasUsed,
          (packTxs h.proposer h.gasLimit txs s gasUsed).receipts) ∧
      (packTxs h.proposer h.gasLimit txs s gasUsed).state.Alike p q t' ∧
      Tipped h t (packTxs h.proposer h.gasLimit txs s gasUsed).included t'
        (packTxs h.proposer h.gasLimit txs s gasUsed).minerFees := by
  induction txs with
  | nil => exact fun i gasUsed hst _ => ⟨_, rfl, hst, .nil⟩
  | cons tx txs ih =>
    intro s t i gasUsed hst ht
    have htx := applyTx_alike tx h.proposer h.gasLimit (hst.copy ht)
    unfold packTxs
    generalize applyTx s.copy tx h.proposer h.gasLimit = x at htx ⊢
    cases hy : applyTx t tx h.proposer h.gasLimit with
    | none =>
      rw [hy] at htx
      cases htx
      exact ih i gasUsed hst ht
    | some y =>
      rw [hy] at htx
      cases htx with
      | refused e _ => exact ih i gasUsed hst ht
      | @done s' t' r hst' =>
        dsimp only
        split_ifs with hfull
        · exact ⟨_, rfl, hst, .nil⟩
        · obtain ⟨hclean, u, rfl⟩ := applyTx_clean ht hy
          obtain ⟨t'', hrest, halike, htips⟩ := ih (i + 1) (gasUsed + r.gasUsed) hst' hclean
          refine ⟨t'', ?_, halike, .cons hy htips⟩
          unfold applyTxs
          rw [hy]
          dsimp only
          rw [if_neg hfull, hrest]

theorem gas_applyTxs (txs : List Transaction) : ∀ {i : ℕ} {gas gas' : UInt64} {s t : State} {receipts : List Receipt},
    applyTxs h i gas txs s = .ok (t, gas', receipts) → gas' = gas + (receipts.map Receipt.gasUsed).sum := by
  induction txs with
  | nil =>
    intro i gas gas' s t receipts hr
    cases hr
    simp
  | cons tx txs ih =>
    intro i gas gas' s t receipts hr
    unfold applyTxs at hr
    split at hr
    · cases hr
    · cases hr
    · split_ifs at hr
      split at hr
      · cases hr
      · rename_i hrest
        cases hr
        rw [ih hrest, List.map_cons, List.sum_cons, UInt64.add_assoc]

end Pack

/-! ### The candidate and the validator -/

/-- The validator accepts a block on the head with its state `st`: it derives the difficulty, the state root, the
receipts and the gas that the header states, and the transactions credit `fees` to the proposer. -/
structure Agreed (bc : Blockchain) (st : State) (b : Block) (fees : ℤ) : Prop where
  difficulty : b.header.difficulty = (bc.requiredDifficulty bc.head.header).1
  accepted : ∃ next receipts, applyBlock bc.treasury st b (some bc.head.header) = .ok (next, receipts) ∧
    next.root = b.header.stateRoot ∧ receiptRoot receipts = b.header.receiptRoot ∧
    (receipts.map Receipt.gasUsed).sum = b.header.gasUsed ∧
    ∃ s, Tipped b.header (blockState st b.header) b.txs s fees ∧
      next = creditBlockReward bc.treasury s b.header.proposer b.header.height

theorem lt_clamp_iff (nowMs ts : Int64) : (ts < if nowMs ≤ ts then ts + 1 else nowMs) ↔ ts ≠ Int64.maxValue := by
  have hmax : Int64.maxValue.toInt = 2 ^ 63 - 1 := by decide
  have hle := ts.toInt_le
  have hnow := nowMs.toInt_le
  have hge := ts.le_toInt
  have hne : ts ≠ Int64.maxValue ↔ ts.toInt ≠ 2 ^ 63 - 1 := by rw [← hmax, ne_eq, ne_eq, Int64.toInt_inj]
  rw [hne, Int64.lt_iff_toInt_lt]
  split
  · rw [Int64.toInt_add, Int.bmod_def]
    have h1 : (1 : Int64).toInt = 1 := by decide
    rw [h1]
    split <;> omega
  · rename_i hlt
    have hlt := Int64.lt_iff_toInt_lt.1 (Int64.not_le.1 hlt)
    omega

theorem gasLimitDiff_self_lt {gasLimit : UInt64} (h : minBlockGasLimit ≤ gasLimit) :
    gasLimitDiff gasLimit gasLimit < gasLimit / gasLimitBoundDivisor := by
  have hle := UInt64.le_iff_toNat_le.1 h
  have hmin : minBlockGasLimit.toNat = 1000000 := rfl
  have hdiv : gasLimitBoundDivisor.toNat = 1024 := rfl
  have hself : gasLimitDiff gasLimit gasLimit = 0 := by simp [gasLimitDiff]
  rw [hself, UInt64.lt_iff_toNat_lt, UInt64.toNat_div, hdiv]
  show 0 < _
  omega

namespace Blockchain

variable {g : Genesis} {bc : Blockchain} {st : State}

def workingState (st : State) (h : Header) : State :=
  st.copy.copy.setBlockContext h.height (h.timestamp.toUInt64 / 1000) h.difficulty

theorem workingState_alike (st : State) (h : Header) : (workingState st h).Alike st.logs st.logs (blockState st h) :=
  ⟨rfl, rfl, rfl, ⟨[], (List.append_nil _).symm, (List.append_nil _).symm⟩, rfl, .nil⟩

theorem agreed_of_packed {h : Header} {txs : List Transaction} {k : Packed} (hh : HeaderOk h bc.head.header)
    (hk : packTxs h.proposer h.gasLimit txs (workingState st h) 0 = k)
    (hdifficulty : h.difficulty = (bc.requiredDifficulty bc.head.header).1) (htxs : txRoot k.included = h.txRoot)
    (hreceipts : receiptRoot k.receipts = h.receiptRoot)
    (hroot : (creditBlockReward bc.treasury k.state h.proposer h.height).root = h.stateRoot)
    (hgas : k.gasUsed = h.gasUsed) : Agreed bc st ⟨h, k.included⟩ k.minerFees := by
  obtain ⟨t, hrun, halike, htips⟩ := applyTxs_packTxs (h := h) txs 0 0 (workingState_alike st h) ⟨rfl, rfl⟩
  rw [hk] at hrun halike htips
  have hsum := gas_applyTxs _ hrun
  rw [UInt64.zero_add] at hsum
  have hroot' := (halike.creditBlockReward bc.treasury h.proposer h.height).root.symm.trans hroot
  have happ : Applied bc.treasury st ⟨h, k.included⟩ bc.head.header
      (creditBlockReward bc.treasury t h.proposer h.height) k.receipts :=
    ⟨decide_eq_true htxs, hh, hreceipts, hroot', t, hgas ▸ hrun, rfl⟩
  exact ⟨hdifficulty, _, _, applyBlock_ok_iff.2 happ, hroot', hreceipts, hsum.symm.trans hgas, t, htips, rfl⟩

theorem buildUnsealed_agreed_iff (hst : bc.states[bc.head.hash]? = some st)
    (hgas : minBlockGasLimit ≤ bc.head.header.gasLimit) (pool : Mempool) (coinbase : Address) (nowMs : Int64)
    (o : Mempool.GroupOrder) : ∃ c bc', bc.buildUnsealed pool coinbase nowMs o = (some c, bc') ∧
      ∀ nonce, Agreed bc st (c.withNonce nonce) c.minerFees ↔ bc.head.header.timestamp ≠ Int64.maxValue := by
  unfold buildUnsealed stateSnapshot
  rw [hst]
  dsimp only [Option.map_some]
  refine ⟨_, _, rfl, fun nonce => ?_⟩
  rw [← lt_clamp_iff nowMs]
  constructor
  · rintro ⟨-, next, receipts, happ, -⟩
    exact (applyBlock_ok_iff.1 happ).header.timestamp
  · intro hlater
    exact agreed_of_packed ⟨rfl, rfl, hlater, hgas, gasLimitDiff_self_lt hgas⟩ rfl rfl rfl rfl rfl rfl

/-- **Producer and validator agree exactly when a later timestamp exists.** In every run a candidate is built on the head,
from any pool and at any time, and with every nonce the validator accepts it on the state of the head, unless the
timestamp of the head is the last one. -/
theorem build_agrees_iff {opts : Options} {ops : List Op} (hrun : runNode g opts ops = .ok bc) (pool : Mempool)
    (coinbase : Address) (nowMs : Int64) (o : Mempool.GroupOrder) :
    (∃ st c bc', bc.states[bc.head.hash]? = some st ∧ bc.buildUnsealed pool coinbase nowMs o = (some c, bc') ∧
      ∀ nonce, Agreed bc st (c.withNonce nonce) c.minerFees) ↔ bc.head.header.timestamp ≠ Int64.maxValue := by
  obtain ⟨-, hready⟩ := ready_of_run hrun
  obtain ⟨st, hst⟩ := hready.headState
  obtain ⟨c, bc', hbuild, hiff⟩ :=
    buildUnsealed_agreed_iff hst (hready.gasLimit _ _ hready.stored) pool coinbase nowMs o
  constructor
  · rintro ⟨st', c', bc'', hst', hbuild', hagreed⟩
    rw [hst] at hst'
    rw [hbuild] at hbuild'
    cases hst'
    cases hbuild'
    exact (hiff 0).1 (hagreed 0)
  · intro hlater
    exact ⟨st, c, bc', hst, hbuild, fun nonce => (hiff nonce).2 hlater⟩

/-! A candidate with a transfer, and a genesis after which there is no later timestamp. -/

def transferPool : Mempool :=
  { Mempool.new 10 with
    all := (∅ : ExtTreeMap Hash Transaction).insert transferTx.hash transferTx
    byAcct := (∅ : ExtTreeMap Address Queue).insert senderAddr
      ((∅ : Queue).insert 0 transferTx) }

omit [Crypto] in
theorem build_agrees_iff_transfer : ∃ bc, @runNode forkCrypto transferGenesis forkOptions [] = .ok bc ∧
    bc.head.header.timestamp ≠ Int64.maxValue ∧
    ((∃ st c bc', bc.states[@Block.hash forkCrypto bc.head]? = some st ∧
      @buildUnsealed forkCrypto bc (@transferPool forkCrypto) 9 240000 .byPrice = (some c, bc') ∧
      ∀ nonce, @Agreed forkCrypto bc st (c.withNonce nonce) c.minerFees) ↔
        bc.head.header.timestamp ≠ Int64.maxValue) := by
  have hrun := @runNode_eq forkCrypto transferGenesis (by decide +kernel) forkOptions []
  exact ⟨_, hrun, by decide, @build_agrees_iff forkCrypto _ _ _ _ hrun _ _ _ _⟩

def lastGenesis : Genesis := { transferGenesis with timestamp := Int64.maxValue }

omit [Crypto] in
theorem candidate_refused_after_last_timestamp : @Genesis.validate lastGenesis = .ok () ∧
    ∃ bc st c bc', @runNode forkCrypto lastGenesis forkOptions [] = .ok bc ∧
      bc.states[@Block.hash forkCrypto bc.head]? = some st ∧
      @buildUnsealed forkCrypto bc (Mempool.new 10) 9 240000 .byPrice = (some c, bc') ∧
      ∀ nonce, ¬@Agreed forkCrypto bc st (c.withNonce nonce) c.minerFees := by
  have hvalid : @Genesis.validate lastGenesis = .ok () := by decide +kernel
  have hrun := @runNode_eq forkCrypto lastGenesis hvalid forkOptions []
  obtain ⟨-, hready⟩ := @ready_of_run forkCrypto _ _ _ _ hrun
  obtain ⟨st, hst⟩ := @Ready.headState forkCrypto _ _ hready
  obtain ⟨c, bc', hbuild, hiff⟩ := @buildUnsealed_agreed_iff forkCrypto _ _ hst
    (@Ready.gasLimit forkCrypto _ _ hready _ _ (@Ready.stored forkCrypto _ _ hready)) (Mempool.new 10) 9 240000 .byPrice
  exact ⟨hvalid, _, st, c, bc', hrun, hst, hbuild, fun nonce h => (hiff nonce).1 h rfl⟩

/-! ### Committing -/

/-- Insert a sealed block and take its transactions out of the pool. While a block is inserted the reorg hook and other
goroutines write to the pool, so `pool` is the pool that `Remove` finds. -/
def commit (bc : Blockchain) (b : Block) (nowMs : Int64) (pool : Mempool) : Except InsertError Unit × Blockchain × Mempool :=
  match bc.insert b.toWire nowMs with
  | (.error e, bc') => (.error e, bc', pool)
  | (.ok _, bc') => (.ok (), bc', pool.remove b.txs)

def Mined (bc : Blockchain) (k : Hash) : Prop :=
  ∃ b : Block, bc.db.canonical[b.height]? = some b.hash ∧ bc.db.blocks[b.hash]? = some b ∧ k ∈ b.txs.map Transaction.hash

def wins (bc : Blockchain) (b : Block) : Bool :=
  match bc.db.tds[b.header.parentHash]?, bc.db.tds[bc.head.hash]? with
  | some ptd, some headTD => better ⟨b.header, ptd + b.header.difficulty.toNat⟩ ⟨bc.head.header, headTD⟩
  | _, _ => false

/-- A transaction is on the branch that is canonical once the block is inserted: the one of the block if it wins, the
canonical chain as it is otherwise. -/
def Remains (bc : Blockchain) (b : Block) (k : Hash) : Prop :=
  if bc.wins b then ∃ x ∈ b :: ancestors bc.db b.height.toNat b.header.parentHash, k ∈ x.txs.map Transaction.hash
  else bc.Mined k

end Blockchain

instance (bc : Blockchain) (k : Hash) : Decidable (bc.Mined k) :=
  decidable_of_iff (∃ e ∈ bc.db.blocks.toList, bc.db.canonical[e.2.height]? = some e.2.hash ∧ e.2.hash = e.1 ∧
      k ∈ e.2.txs.map Transaction.hash) <| by
    constructor
    · rintro ⟨⟨h, b⟩, hb, hcanon, hh, hk⟩
      refine ⟨b, hcanon, ?_, hk⟩
      rw [show b.hash = h from hh]
      exact ExtTreeMap.mem_toList_iff_getElem?_eq_some.1 hb
    · rintro ⟨b, hcanon, hb, hk⟩
      exact ⟨(b.hash, b), ExtTreeMap.mem_toList_iff_getElem?_eq_some.2 hb, hcanon, rfl, hk⟩

def Mempool.Has (m : Mempool) (t : Transaction) : Prop :=
  m.all[t.hash]? = some t ∧ ∃ k, Mempool.slot t = some k ∧ m.at? k = some t

instance (m : Mempool) (t : Transaction) : Decidable (m.Has t) :=
  decidable_of_iff (m.all[t.hash]? = some t ∧ (Mempool.slot t).bind m.at? = some t) <|
    and_congr Iff.rfl Option.bind_eq_some_iff

/-- Removing the transactions of a block takes out a transaction: it is one of them, or in the place of one of them. -/
def Block.Drains (b : Block) (t : Transaction) : Prop :=
  t.hash ∈ b.txs.map Transaction.hash ∨ Mempool.slot t ∈ b.txs.map Mempool.slot

theorem Mempool.has_remove_iff {m : Mempool} {b : Block} {t : Transaction} :
    (m.remove b.txs).Has t ↔ m.Has t ∧ ¬b.Drains t := by
  obtain ⟨hall, hat⟩ := Mempool.remove_indexes b.txs m
  unfold Has Block.Drains
  rw [hall, not_or]
  constructor
  · rintro ⟨hhash, k, hk, hplace⟩
    rw [hat] at hplace
    split at hhash
    · cases hhash
    · split at hplace
      · cases hplace
      · rename_i hnew hnew'
        exact ⟨⟨hhash, k, hk, hplace⟩, hnew, hk ▸ hnew'⟩
  · rintro ⟨⟨hhash, k, hk, hplace⟩, hnew, hnew'⟩
    rw [hk] at hnew'
    rw [if_neg hnew]
    exact ⟨hhash, k, hk, by rw [hat, if_neg hnew', hplace]⟩

namespace Blockchain

variable {g : Genesis} {B : Block → Prop} {bc bc' : Blockchain} {b : Block} {l : List Block} {k : Hash}

theorem Canonical.mined_iff (hl : Canonical g bc l) : bc.Mined k ↔ ∃ x ∈ l, k ∈ x.txs.map Transaction.hash := by
  constructor
  · rintro ⟨x, hx, hstored, hk⟩
    obtain ⟨y, hy, -, hyx⟩ := (hl.table _ _).1 hx
    have hstored' := hl.stored y hy
    rw [hyx, hstored] at hstored'
    cases hstored'
    exact ⟨x, hy, hk⟩
  · rintro ⟨x, hx, hk⟩
    exact ⟨x, (hl.table _ _).2 ⟨x, hx, rfl, rfl⟩, hl.stored x hx, hk⟩

theorem Accepted.wins {p : Block} {c : Checked} (h : Accepted bc b p c) (hc : Coherent bc) :
    bc.wins b = better ⟨b.header, c.td⟩ ⟨bc.head.header, c.headTD⟩ := by
  obtain ⟨ptd, hptd, htd⟩ := h.td
  have hp : p.hash = b.header.parentHash := hc.hash _ _ h.parent
  unfold Blockchain.wins
  rw [← hp, hptd, h.headTD, htd]

theorem mem_branch_iff (h : Tree g B bc) (hB : HashesDiffer B) {p : Block} {c : Checked} (hgrown : Grown g B bc b p l c)
    {dropped added fork : List Block} {unwind apply : List Write} (hnew : b :: p :: l = added.reverse ++ fork)
    (hm : Moves g bc b c dropped added fork unwind apply) {x : Block} :
    x ∈ b :: p :: l ↔ x ∈ b :: ancestors bc.db b.height.toNat b.header.parentHash := by
  have hlen : b.height.toNat = (p :: l).length := hgrown.chain.height_eq
  have hstored : Stored bc.db ((p :: l).take b.height.toNat) := by
    rw [hlen, List.take_length]
    intro y hy
    have hy' := h.stored_of_added hB hgrown hnew hm y (List.mem_cons_of_mem _ hy)
    rw [getElem?_storeBlock] at hy'
    split at hy'
    · -- the block is above its ancestors
      cases hy'
      exact absurd (hgrown.chain.height_lt b hy) (Nat.lt_irrefl _)
    · exact hy'
  refine List.mem_cons.trans (Iff.trans (or_congr Iff.rfl ⟨fun hx => ?_, fun hx => ?_⟩) List.mem_cons.symm)
  · refine mem_ancestors hgrown.chain hstored x ?_
    rwa [hlen, List.take_length]
  · exact mem_of_ancestors hB (fun k y hy => h.known_of_stored hy) hgrown.chain
      (fun y hy => hgrown.known y (List.mem_cons_of_mem _ hy)) hlen.le x hx

/-- **The canonical chain after an insertion**, from the node before it. -/
theorem mined_insert_iff (h : Tree g B bc) (hB : HashesDiffer B) (nowMs : Int64) (hb : b.verifyTxRoot = true → B b)
    {r : Option Reorg} (hok : (bc.insert b.toWire nowMs).1 = .ok r) :
    (bc.insert b.toWire nowMs).2.Mined k ↔ bc.Remains b k := by
  have hw : ∀ x, b.toWire.block? = some x → x.verifyTxRoot = true → B x := by
    intro x hx
    rw [block?_toWire] at hx
    cases hx
    exact hb
  obtain ⟨bc₁, hc, ⟨e, he⟩ | ⟨x, r', hx, -, ho⟩⟩ := h.inserted_cases hB b.toWire nowMs hw
  · rw [he] at hok
    cases hok
  rw [block?_toWire] at hx
  cases hx
  have hremains : bc.Remains b k ↔ bc₁.Remains b k := by
    unfold Remains Blockchain.wins Mined
    rw [hc.db, hc.head]
  rw [hremains]
  have h₁ := h.cached hc
  generalize (bc.insert b.toWire nowMs).2 = bc₂ at ho
  cases ho with
  | side hgrown hbetter =>
    obtain ⟨m, hm⟩ := h₁.canon
    rw [(hm.store hgrown.accepted).mined_iff, Remains, hgrown.accepted.wins h₁.ready.coherent, hbetter,
      if_neg Bool.false_ne_true, hm.mined_iff]
  | @moved p l c dropped added fork unwind apply hgrown hbetter hnew hm =>
    obtain ⟨cutoff, gone, hp⟩ := prune_pruned (bc₁.moved b c unwind apply) true
    rw [((h₁.canonical_move hB hgrown hnew hm).pruned hp).mined_iff, Remains, hgrown.accepted.wins h₁.ready.coherent,
      hbetter, if_pos rfl]
    simp only [mem_branch_iff h₁ hB hgrown hnew hm]

theorem Tree.mono {B' : Block → Prop} (h : Tree g B bc) (hB : ∀ x, B x → B' x) : Tree g B' bc := by
  refine ⟨h.ready, fun k x hx => ?_, fun k s hs => ?_, h.canon⟩
  · obtain ⟨l, w, hl, hmem⟩ := h.known k x hx
    exact ⟨l, w, hl, fun y hy => hB y (hmem y hy)⟩
  · obtain ⟨x, l, hx, hl, hmem⟩ := h.held k s hs
    exact ⟨x, l, hx, hl, fun y hy => hB y (hmem y hy)⟩

def rivalBlock : Block where
  header :=
    { parentHash := 0xedd8ed94453216a143a9a8dd0dc88eda4f3ccc959890da13f280e54a5817ae43
      height := 1
      timestamp := 1
      txRoot := 0
      receiptRoot := 0
      stateRoot := 0xe520b5c61fd20cc7290aad1f48faeb9f7c6e7ad9f74db55955295c52325fa714
      gasUsed := 0
      gasLimit := 1000000
      proposer := 0x31
      difficulty := 1
      nonce := 0 }
  txs := []

@[reducible]
def rivalCrypto : Crypto :=
  signedCrypto transferTxs
    (transferDigests ++
      [digestRow 196 rivalBlock.header.message 0x4771a6b2436e008727adeb9460d50cc3956a273688cb3a09cc0077f6a35bf039,
       ((62, 0x3100000000000000210000000000000000000000000000000901158e460913d000000000000000000000),
        0x3900d79a98b9b265c77a0b15313de20bd6eced281af6d0f96c17b754f1ef62f0),
       ((65, 0x13900d79a98b9b265c77a0b15313de20bd6eced281af6d0f96c17b754f1ef62f0278847b8fcc2cbbea5a973813f98313c05ff383a5a8b3e0a1a61076bc0678334),
        0x7ea0e16507c9029169b08919cd4c141102717fbf83a0e0a0da0ff9b964697312),
       ((48, 0x7ea0e16507c9029169b08919cd4c141102717fbf83a0e0a0da0ff9b96469731200000000000000084563918244f40000),
        0xe520b5c61fd20cc7290aad1f48faeb9f7c6e7ad9f74db55955295c52325fa714)])

end Blockchain

end Lxs
