import Lxs.Pool.Runs

/-!
# What the pool owes and what it earns

The pot of a found block is computed from the whole reward, while consensus credits the pool's wallet with what the treasury
leaves of it.

* `payouts_covered_iff`: **the payouts of a found block are covered by what `ApplyBlock` credits to the wallet exactly when
  the cut of the treasury is at most what the pool holds back**, or there is no pot;
* `payouts_exceed_credit`: with a treasury of 20 % they are not.
-/

set_option linter.unusedSectionVars false

namespace Lxs

open Std Lib

variable [Crypto] {h : Header} {s t u : State} {txs : List Transaction} {tips : ℤ}

/-! ### What a block earns -/

def treasuryCut (tr : Treasury) (height : UInt64) : ℤ :=
  if 0 < tr.basisPoints ∧ tr.addr ≠ zeroAddress then blockRewardAt height * tr.basisPoints.toInt / 10000 else 0

def proposerReward (tr : Treasury) (height : UInt64) : ℤ := blockRewardAt height - treasuryCut tr height

def payTreasury (tr : Treasury) (s : State) (height : UInt64) : State :=
  if 0 < tr.basisPoints ∧ tr.addr ≠ zeroAddress then
    if tr.addr = burnAddress then s.burn (some (treasuryCut tr height)) else s.credit tr.addr (treasuryCut tr height)
  else s

theorem creditBlockReward_eq (tr : Treasury) (s : State) (miner : Address) (height : UInt64) :
    creditBlockReward tr s miner height = (payTreasury tr s height).credit miner (proposerReward tr height) := by
  unfold creditBlockReward payTreasury proposerReward treasuryCut
  split
  · rfl
  · rw [sub_zero]

theorem treasuryCut_le {tr : Treasury} (h : tr.basisPoints.toInt ≤ 10000) (height : UInt64) :
    treasuryCut tr height ≤ blockRewardAt height := by
  have hreward := blockRewardAt_nonneg height
  unfold treasuryCut
  split
  · refine Int.ediv_le_of_le_mul (by decide) ?_
    exact mul_le_mul_of_nonneg_left h hreward
  · exact hreward

/-- `ApplyBlock` accepts a block on a state, and credits its proposer with the tips and what is left of the reward. -/
def Earns (tr : Treasury) (st : State) (b : Block) (p : Header) (tips : ℤ) : Prop :=
  ∃ next receipts s, applyBlock tr st b (some p) = .ok (next, receipts) ∧
    Tipped b.header (blockState st b.header) b.txs s tips ∧
    next = (payTreasury tr s b.height).credit b.header.proposer (proposerReward tr b.height)

theorem Tipped.eq_of_applyTxs (htips : Tipped h s txs t tips) : ∀ {i : ℕ} {gas gas' : UInt64} {receipts : List Receipt},
    applyTxs h i gas txs s = .ok (u, gas', receipts) → u = t := by
  induction htips with
  | nil =>
    intro i gas gas' receipts hrun
    cases hrun
    rfl
  | cons htx _ ih =>
    intro i gas gas' receipts hrun
    unfold applyTxs at hrun
    rw [htx] at hrun
    dsimp only at hrun
    split_ifs at hrun
    split at hrun
    · cases hrun
    · rename_i hrest
      cases hrun
      exact ih hrest

theorem Tipped.nonneg (htips : Tipped h s txs t tips) (hprice : ∀ tx ∈ txs, 0 ≤ tx.price) : 0 ≤ tips := by
  induction htips with
  | nil => exact le_rfl
  | @cons s u tx r txs t tips _ _ ih =>
    have hfee : 0 ≤ r.gasUsed.toNat * tx.price := mul_nonneg (Int.natCast_nonneg _) (hprice tx List.mem_cons_self)
    have htip := feeBurn_le hfee
    have hrest := ih fun tx' htx' => hprice tx' (List.mem_cons_of_mem _ htx')
    unfold feeTip
    omega

theorem price_nonneg {tx : Transaction} {chainID : UInt64} (h : tx.sanityCheck chainID = .ok ()) : 0 ≤ tx.price := by
  obtain ⟨sender, price, amount, hsane⟩ := Transaction.sane_of_sanityCheck h
  rw [Transaction.price, hsane.gasPrice]
  exact hsane.price_nonneg

namespace Pool

open Blockchain FinMap

/-! ### The rounding -/

/-- What rounding down leaves of a pot: the remainders of all parts together, or all of it without work. -/
def rounding (pot : ℤ) (l : List Share) : ℤ :=
  if shareWork l = 0 then pot
  else (∑ a ∈ (l.map Share.addr).toFinset, pot * workOf a l % shareWork l) / shareWork l

theorem rounding_zero (l : List Share) : rounding 0 l = 0 := by
  unfold rounding
  split
  · rfl
  · simp

theorem Splits.sum_eq {pot : ℤ} {l : List Share} {payouts : Payouts} (h : Splits pot l payouts) :
    sumOf id payouts = pot - rounding pot l := by
  unfold rounding
  split
  · rename_i hzero
    rw [h.eq_empty hzero, sumOf_empty, sub_self]
  · rename_i hpos
    have hne : (shareWork l : ℤ) ≠ 0 := Int.natCast_ne_zero.2 hpos
    have hmods : ∑ a ∈ (l.map Share.addr).toFinset, pot * workOf a l % shareWork l =
        shareWork l * (pot - sumOf id payouts) := by
      have hwork : ∑ a ∈ (l.map Share.addr).toFinset, pot * workOf a l = pot * shareWork l := by
        rw [← Finset.mul_sum, ← Nat.cast_sum, sum_workOf]
      simp only [Int.emod_def, Finset.sum_sub_distrib, hwork, h.sum, ← Finset.mul_sum]
      ring
    rw [hmods, Int.mul_ediv_cancel_left _ hne]
    ring

/-! ### The fees of templates -/

variable {g : Genesis} {cfg : Config} {wallet : Wallet} {n n' : Node} {B : Block → Prop} {bc : Blockchain}

/-- The fees of a template are the tips of its transactions on the world that its parent leaves, whatever the nonce. -/
structure Template.Priced (g : Genesis) (B : Block → Prop) (coinbase : Address) (t : Template) : Prop where
  proposer : t.hdr.proposer = coinbase
  tips : ∃ p l w, p.hash = t.hdr.parentHash ∧ Chain g (p :: l) w ∧ (∀ x ∈ p :: l, B x) ∧
    ∀ (nonce : UInt64) (st : State), st.world = w →
      ∃ s, Tipped (t.tried nonce).hdr (blockState st (t.tried nonce).hdr) t.txs s t.minerFees

theorem priced_new (h : Tree g B bc) {pool : Mempool} {coinbase : Address} {nowMs : Int64} {o : Mempool.GroupOrder}
    {c : Candidate} (hc : (bc.buildUnsealed pool coinbase nowMs o).1 = some c) (mono : ℤ) :
    (Node.newTemplate cfg c mono).Priced g B coinbase := by
  unfold buildUnsealed stateSnapshot at hc
  cases hst : bc.states[bc.head.hash]? with
  | none =>
    rw [hst] at hc
    cases hc
  | some st₀ =>
    rw [hst] at hc
    cases hc
    obtain ⟨p, l, hp, hchain, hl⟩ := h.held _ _ hst
    refine ⟨rfl, p, l, st₀.world, h.ready.coherent.hash _ _ hp, hchain, hl, fun nonce st hw => ?_⟩
    generalize hk : Template.hdr (Template.tried _ nonce) = k
    have halike : (workingState st₀ k).Alike st₀.logs st.logs (blockState st k) :=
      ⟨congrArg World.accounts hw.symm, congrArg World.burned hw.symm, rfl,
        ⟨[], (List.append_nil _).symm, (List.append_nil _).symm⟩, rfl, .nil⟩
    obtain ⟨t, -, -, htips⟩ := applyTxs_packTxs (h := k)
      (pool.pending st₀.copy bc.head.header.gasLimit o) 0 0 halike ⟨rfl, rfl⟩
    subst hk
    exact ⟨t, htips⟩

def Node.Priced (g : Genesis) (B : Block → Prop) (coinbase : Address) (n : Node) : Prop :=
  ∀ (k : Hash) (t : Template), n.server.templates[k]? = some t → t.Priced g B coinbase

namespace Node.Priced

variable {coinbase : Address}

theorem rebuilt (h : n.Priced g B coinbase) (htree : Tree g B n.bc) (headMoved : Bool) (b : Build) :
    (n.rebuildLocked coinbase headMoved b).Priced g B coinbase := by
  intro k t ht
  rcases getElem?_rebuildLocked ht with ⟨-, hold⟩ | ⟨c, hc, -, rfl⟩
  · exact h k t hold
  · exact priced_new htree hc b.mono

theorem refreshed (h : n.Priced g B coinbase) (htree : Tree g B n.bc) (head : Hash) (b : Build) :
    (n.refresh coinbase head b).Priced g B coinbase := by
  unfold Node.refresh
  split
  · exact h.rebuilt htree true b
  · split_ifs
    · exact h.rebuilt htree true b
    · exact h.rebuilt htree false b
    · exact h

theorem insert (h : n.Priced g B coinbase) {workID : Hash} {t u : Template} (ht : n.server.templates[workID]? = some t)
    (hu : ∃ nonce seen, u = { t.tried nonce with seen := seen })
    (hn : n'.server.templates = n.server.templates.insert workID u) : n'.Priced g B coinbase := by
  intro k t' ht'
  rw [hn, ExtTreeMap.getElem?_insert] at ht'
  split at ht'
  · cases ht'
    obtain ⟨nonce, seen, rfl⟩ := hu
    exact ⟨(h workID t ht).proposer, (h workID t ht).tips⟩
  · exact h k t' ht'

theorem handled (h : n.Priced g B coinbase) (hnode : Blockchain.Node g B n.bc) (hB : HashesDiffer B) {workID : Hash}
    {nonce : UInt64} {addr : Address} {nowMs : Int64} {order : Transaction → MapOrder} {b : Build}
    {res : Except ShareError Bool} (hn : Handled n coinbase workID nonce addr nowMs order b n' res)
    (hoffered : ∀ b, .offered b ∈ n'.trace → B b) : n'.Priced g B coinbase := by
  cases hn with
  | refused => exact h
  | bad ht => exact h.insert ht ⟨nonce, _, rfl⟩ rfl
  | credited ht => exact h.insert ht ⟨nonce, _, rfl⟩ rfl
  | raced ht => exact h.insert ht ⟨nonce, _, rfl⟩ rfl
  | @won t bc mp r m _ _ hinsert _ hm =>
    obtain ⟨htrace, -, htemplates⟩ := recordFound_rebuild m (foundBlock m.server (t.tried nonce)) coinbase b
    have hblk : B (t.tried nonce).block := by
      refine hoffered _ ?_
      rw [htrace, hm]
      exact List.mem_cons_of_mem _ List.mem_cons_self
    have hnode' : Blockchain.Node g B m.bc := by
      rw [hm]
      exact (node_committed hnode hB hblk hinsert).1
    intro k t' ht'
    obtain ⟨c, hc, -, rfl⟩ := htemplates k t' ht'
    exact priced_new hnode'.tree hc b.mono

theorem stepped (h : n.Priced g B wallet.address) (hnode : Blockchain.Node g B n.bc) (hB : HashesDiffer B) {op : Op}
    (hn : Stepped g cfg wallet n op n') (hoffered : ∀ b, .offered b ∈ n'.trace → B b) : n'.Priced g B wallet.address := by
  cases hn with
  | share hshare => exact h.handled hnode hB hshare hoffered
  | mature headHeight =>
    intro k t ht
    rw [matureLocked_eq, server_saveIf] at ht
    exact h k t ht
  | payout =>
    intro k t ht
    rw [server_saveIf] at ht
    exact h k t ht
  | refresh head b => exact h.refreshed hnode.tree head b
  | insert => exact h
  | mempool => exact h
  | restart => exact fun k t ht => by cases ht
  | crash => exact fun k t ht => by cases ht

end Node.Priced

/-! ### The claim on the wallet -/

def poolFee (cfg : Config) (height : UInt64) (minerFees : ℤ) : ℤ :=
  if 0 < cfg.feeBps then (blockRewardAt height + minerFees) * cfg.feeBps.toNat / 10000 else 0

theorem pot_eq (cfg : Config) (height : UInt64) (minerFees : ℤ) : pot cfg height minerFees =
    max 0 (blockRewardAt height + minerFees - poolFee cfg height minerFees - payoutGasReserve) := by
  unfold pot poolFee
  dsimp only
  split <;> split_ifs <;> omega

variable {opts : Options} {mp : Mempool} {ops : List Op} {workID : Hash} {nonce : UInt64} {addr : Address} {nowMs : Int64}
  {order : Transaction → MapOrder} {b : Build}

/-- A block that the pool has found: what `ApplyBlock` credited for it, and what was split. -/
structure Settled (g : Genesis) (n n' : Node) (blk : Block) (fb : FoundBlock) (p : Block) (st : State) (tips : ℤ)
    (l : List Share) : Prop where
  hash : fb.hash = blk.hash
  parent : n.bc.db.blocks[blk.header.parentHash]? = some p
  state : n.bc.states[p.hash]? = some st
  earns : Earns g.treasury st blk p.header tips
  tips_nonneg : 0 ≤ tips
  window : IsWindow (n.server.cfg.windowFactor.toNat * blk.header.difficulty.toNat) n'.server.ring l
  sum : sumOf id fb.payouts = pot n.server.cfg blk.height tips - rounding (pot n.server.cfg blk.height tips) l

theorem exists_settled (hrun : runPool g cfg wallet opts mp ops = .ok n) (hnc : NoCollision g cfg wallet opts mp ops n)
    (hwon : n.handleShare wallet.address workID nonce addr nowMs order b = some (n', .ok true)) :
    ∃ blk fb p st tips l, n'.trace = .won fb :: .offered blk :: .share workID nonce :: n.trace ∧
      blk.header.proposer = wallet.address ∧ Settled g n n' blk fb p st tips l := by
  obtain ⟨hground, hpriced⟩ := runPool_induction (I := fun m => m.Priced g (· ∈ offeredIn g n.trace) wallet.address) hrun hnc
    (fun k t ht => by cases ht) (by
      intro op m m' hop hm _ htrace hI hstep
      exact hI.stepped hm.node hnc.hashes hstep fun b hb => mem_offeredIn (htrace.subset hb))
  have htree := hground.node.tree
  cases handleShare_cases hwon with
  | @won t bc' mp' r m ht hseen hinsert hmp hm =>
    obtain ⟨hproposer, p, l, w, hparent, hchain, hl, htips⟩ := hpriced workID t ht
    obtain ⟨bc₁, hcached, ⟨e, he⟩ | ⟨blk, p', c, hblk, hacc, -⟩⟩ :=
      insert_cases htree.ready.coherent (t.tried nonce).block.toWire nowMs
    · rw [hinsert] at he
      cases he
    rw [block?_toWire] at hblk
    cases hblk
    obtain ⟨st, hst, happ⟩ := hacc.applied
    -- the state on which the block is executed has the world on which it was priced
    have hp' : p'.hash = p.hash := (htree.ready.coherent.hash _ _ hacc.parent).trans hparent.symm
    have hw : st.world = w := htree.state_world hnc.hashes (hp' ▸ hst) hchain hl
    obtain ⟨s, hs⟩ := htips nonce st hw
    obtain ⟨s', hrun', hnext⟩ := happ.txs
    obtain rfl := hs.eq_of_applyTxs hrun'
    have hearns : Earns g.treasury st (t.tried nonce).block p'.header t.minerFees := by
      rw [← htree.ready.of.treasury]
      refine ⟨c.state, c.receipts, s', applyBlock_ok_iff.2 happ, hs, ?_⟩
      rw [← creditBlockReward_eq]
      exact hnext
    obtain ⟨htrace, -, -⟩ := recordFound_rebuild m (foundBlock m.server (t.tried nonce)) wallet.address b
    have hring : ((m.recordFound (foundBlock m.server (t.tried nonce))).rebuildLocked wallet.address true b).server.ring =
        m.server.ring := by
      rw [(rebuilt_rebuildLocked _ _ _ _).eq, Node.recordFound, server_saveLocked]
      rfl
    obtain ⟨l', hl', hsplits⟩ := exists_splits n.server.cfg.windowFactor m.server.ring (pot_nonneg n.server.cfg t.hdr.height t.minerFees)
      t.hdr.difficulty
    have hcfg : m.server.cfg = n.server.cfg := by rw [hm]; rfl
    refine ⟨(t.tried nonce).block, foundBlock m.server (t.tried nonce), p', st, t.minerFees, l', ?_, hproposer,
      ⟨rfl, hacc.parent, hst, hearns, hs.nonneg fun tx htx => price_nonneg (hacc.sane tx htx), ?_, ?_⟩⟩
    · rw [htrace, hm]
      rfl
    · rw [hring]
      exact hl'
    · rw [foundBlock, hcfg]
      exact hsplits.sum_eq

/-- **The payouts of a found block are covered by what `ApplyBlock` credits to the wallet for it exactly when** there is no
pot, or **the cut of the treasury is at most** the fee of the pool, the reserve for gas and what rounding leaves. -/
theorem payouts_covered_iff (hrun : runPool g cfg wallet opts mp ops = .ok n) (hnc : NoCollision g cfg wallet opts mp ops n)
    (hwon : n.handleShare wallet.address workID nonce addr nowMs order b = some (n', .ok true)) :
    ∃ blk fb p st tips l, n'.trace = .won fb :: .offered blk :: .share workID nonce :: n.trace ∧ fb.hash = blk.hash ∧
      blk.header.proposer = wallet.address ∧
      n.bc.db.blocks[blk.header.parentHash]? = some p ∧ n.bc.states[p.hash]? = some st ∧ Earns g.treasury st blk p.header tips ∧
      IsWindow (n.server.cfg.windowFactor.toNat * blk.header.difficulty.toNat) n'.server.ring l ∧
      (sumOf id fb.payouts ≤ tips + proposerReward g.treasury blk.height ↔
        pot n.server.cfg blk.height tips = 0 ∨ treasuryCut g.treasury blk.height ≤
          poolFee n.server.cfg blk.height tips + payoutGasReserve + rounding (pot n.server.cfg blk.height tips) l) := by
  obtain ⟨blk, fb, p, st, tips, l, htrace, hproposer, h⟩ := exists_settled hrun hnc hwon
  refine ⟨blk, fb, p, st, tips, l, htrace, h.hash, hproposer, h.parent, h.state, h.earns, h.window, ?_⟩
  have hcut : treasuryCut g.treasury blk.height ≤ blockRewardAt blk.height :=
    treasuryCut_le (Genesis.valid_of_validate (runPool_ok hrun).1).treasury_le _
  have hpot := pot_eq n.server.cfg blk.height tips
  have hzero : pot n.server.cfg blk.height tips = 0 → rounding (pot n.server.cfg blk.height tips) l = 0 := by
    intro hp
    rw [hp, rounding_zero]
  have htips := h.tips_nonneg
  rw [h.sum, proposerReward]
  omega

/-! The pool without a fee, on a genesis that burns a fifth of each reward. -/

def lastFound : List Event → Option (FoundBlock × Block)
  | .won fb :: .offered blk :: _ => some (fb, blk)
  | _ => none

def firstID : Hash := 0x25718a7345781e76dd8fe6561015ab09e49ce6210e9f42c84399c2fa5a00527a

def firstTemplate : List Op := [.refresh 0 (buildAt 240000 0)]

def firstShare (n : Node) : Option (Node × Except ShareError Bool) :=
  @Node.handleShare miningCrypto n (@Wallet.address miningCrypto miningWallet) firstID 0 0xa1 2000000 (fun _ => .sorted)
    (buildAt 480000 0)

/-- The first block is empty and canonical, and its payouts are the whole reward but for the reserve. -/
def overdrawn (r : Node × Except ShareError Bool) : Bool :=
  decide (r.2.toOption = some true) && (lastFound r.1.trace).any fun found =>
    decide (found.2.txs = [] ∧ found.2.height = 1 ∧ r.1.bc.db.canonical[(1 : UInt64)]? = some found.1.hash ∧
      sumOf id found.1.payouts = miningPot)

omit [Crypto] in
theorem first_overdrawn : ∃ n n',
    @runPool miningCrypto transferGenesis miningCfg miningWallet forkOptions (Mempool.new 1) firstTemplate = .ok n ∧
    @NoCollision miningCrypto transferGenesis miningCfg miningWallet forkOptions (Mempool.new 1) firstTemplate n ∧
    firstShare n = some (n', .ok true) ∧ overdrawn (n', .ok true) = true := by
  obtain ⟨n, hrun, hn⟩ := exists_ok (p := fun n =>
      @decide (@HashesDiffer miningCrypto (· ∈ @offeredIn miningCrypto transferGenesis n.trace)) inferInstance &&
        (firstShare n).any overdrawn)
    (show ((@runPool miningCrypto transferGenesis miningCfg miningWallet forkOptions (Mempool.new 1) firstTemplate).toOption.any _) = true
      by decide +kernel)
  rw [Bool.and_eq_true, decide_eq_true_eq, Option.any_eq_true] at hn
  obtain ⟨hhashes, ⟨n', r⟩, hshare, hover⟩ := hn
  have hr : r = .ok true := by
    rw [overdrawn, Bool.and_eq_true, decide_eq_true_eq] at hover
    cases r with
    | error e => cases hover.1
    | ok v => rw [Option.some.inj hover.1]
  subst hr
  exact ⟨n, n', hrun, @NoCollision.mk miningCrypto _ _ _ _ _ _ _ hhashes (by decide +kernel), hshare, hover⟩

omit [Crypto] in
theorem payouts_covered_iff_first : ∃ n n',
    @runPool miningCrypto transferGenesis miningCfg miningWallet forkOptions (Mempool.new 1) firstTemplate = .ok n ∧
    @NoCollision miningCrypto transferGenesis miningCfg miningWallet forkOptions (Mempool.new 1) firstTemplate n ∧
    firstShare n = some (n', .ok true) ∧
    ∃ blk fb p st tips l, n'.trace = .won fb :: .offered blk :: .share firstID 0 :: n.trace ∧
      @Earns miningCrypto (@Genesis.treasury transferGenesis) st blk (Block.header p) tips ∧
      (sumOf id fb.payouts ≤ tips + proposerReward (@Genesis.treasury transferGenesis) blk.height ↔
        pot n.server.cfg blk.height tips = 0 ∨ treasuryCut (@Genesis.treasury transferGenesis) blk.height ≤
          poolFee n.server.cfg blk.height tips + payoutGasReserve + rounding (pot n.server.cfg blk.height tips) l) := by
  obtain ⟨n, n', hrun, hnc, hshare, -⟩ := first_overdrawn
  obtain ⟨blk, fb, p, st, tips, l, htrace, -, -, -, -, hearns, -, hiff⟩ :=
    @payouts_covered_iff miningCrypto _ _ _ _ _ _ _ _ _ _ _ _ _ _ hrun hnc hshare
  exact ⟨n, n', hrun, hnc, hshare, blk, fb, p, st, tips, l, htrace, hearns, hiff⟩

omit [Crypto] in
/-- The payouts of the first block exceed the credit of the wallet by a fifth of the reward, less the reserve. -/
theorem payouts_exceed_credit : ∃ n n' blk fb p st,
    @runPool miningCrypto transferGenesis miningCfg miningWallet forkOptions (Mempool.new 1) firstTemplate = .ok n ∧
    firstShare n = some (n', .ok true) ∧ lastFound n'.trace = some (fb, blk) ∧ fb.hash = @Block.hash miningCrypto blk ∧
    n'.bc.db.canonical[blk.height]? = some fb.hash ∧ n.bc.states[@Block.hash miningCrypto p]? = some st ∧
    @Earns miningCrypto (@Genesis.treasury transferGenesis) st blk (Block.header p) 0 ∧
    0 + proposerReward (@Genesis.treasury transferGenesis) blk.height = 20000000000000000000 ∧
    sumOf id fb.payouts = 24999999999998000000 := by
  obtain ⟨n, n', hrun, hnc, hshare, hover⟩ := first_overdrawn
  obtain ⟨blk, fb, p, st, tips, l, htrace, -, hhash, -, hst, hearns, -, -, -⟩ :=
    @exists_settled miningCrypto _ _ _ _ _ _ _ _ _ _ _ _ _ _ hrun hnc hshare
  have hlast : lastFound n'.trace = some (fb, blk) := by rw [htrace]; rfl
  simp only [overdrawn, hlast, Bool.and_eq_true, Option.any_some, decide_eq_true_eq] at hover
  obtain ⟨-, htxs, hheight, hcanonical, hsum⟩ := hover
  obtain ⟨next, receipts, s, happ, htips, hnext⟩ := hearns
  -- there is nothing to tip
  obtain rfl : tips = 0 := by
    rw [htxs] at htips
    cases htips
    rfl
  exact ⟨n, n', blk, fb, p, st, hrun, hshare, hlast, hhash, by rw [hheight]; exact hcanonical, hst,
    ⟨next, receipts, s, happ, htips, hnext⟩, by rw [hheight]; decide +kernel, hsum⟩

end Pool

end Lxs
