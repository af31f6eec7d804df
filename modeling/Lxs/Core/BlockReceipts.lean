import Lxs.Core.Restart
import Lxs.State.Receipts

/-!
# What a node keeps of the blocks it executed

A node that is not reopened keeps, for every state in memory, the block, its receipts, and the execution that led to the
state from the genesis block on. The logs in the state are those of all the receipts on the way, the oldest first: a state
has only the logs of its own block when no block before it has any. The gas a block declares is the gas of its receipts as
long as these sum to less than `2 ^ 64`.
-/

set_option linter.unusedSectionVars false

namespace Lxs

open Std Lib

variable [Crypto] {g : Genesis} {s t : State} {b p : Block} {l : List Block} {receipts : List Receipt} {rs : List (List Receipt)}

/-! ### Executions from the genesis block -/

/-- A chain of executed blocks, the last first, with their receipts and the state after them. -/
inductive Executed (g : Genesis) : List Block → List (List Receipt) → State → Prop
  | genesis : Executed g [g.block] [[]] g.state.clearTouched
  | block {b p : Block} {l : List Block} {receipts : List Receipt} {rs : List (List Receipt)} {s t : State} :
      Executed g (p :: l) rs s → Applied g.treasury s b p.header t receipts → Executed g (b :: p :: l) (receipts :: rs) t

theorem logs_genesis (g : Genesis) : g.state.logs = [] := by
  unfold Genesis.state
  refine List.foldlRecOn _ _ (motive := fun s : State => s.logs = []) rfl fun s hs kv _ => ?_
  exact hs

theorem Executed.logs (h : Executed g l rs s) : s.logs = (rs.reverse.map logsOf).flatten := by
  induction h with
  | genesis => exact logs_genesis g
  | block _ happ ih =>
    rw [happ.logs, ih]
    simp

theorem Executed.logs_eq_iff (h : Executed g l (receipts :: rs) s) :
    (s.logs = logsOf receipts ↔ ∀ older ∈ rs, logsOf older = []) ∧
      (s.logs.length ≤ (logsOf receipts).length ↔ ∀ older ∈ rs, logsOf older = []) := by
  have hlogs : s.logs = (rs.reverse.map logsOf).flatten ++ logsOf receipts := by
    rw [h.logs]
    simp
  have hnil : (rs.reverse.map logsOf).flatten = [] ↔ ∀ older ∈ rs, logsOf older = [] := by
    simp
  rw [hlogs, ← hnil]
  constructor
  · exact List.append_left_eq_self
  · rw [List.length_append, ← List.length_eq_zero_iff]
    omega

namespace Blockchain

variable {bc bc' : Blockchain}

/-- The states in memory are those of executed blocks, whose receipts are stored. -/
def Retained (g : Genesis) (bc : Blockchain) : Prop :=
  ∀ (k : Hash) (s : State), bc.states[k]? = some s → ∃ b l receipts rs, bc.db.blocks[k]? = some b ∧
    bc.db.receipts[k]? = some receipts ∧ Executed g (b :: l) (receipts :: rs) s

namespace Retained

theorem of_fresh (g : Genesis) (opts : Options) : Retained g (fresh g opts) := by
  intro k s hs
  obtain ⟨rfl, rfl⟩ := states_fresh hs
  have hdb : (fresh g opts).db = Database.empty.commit g.writes := rfl
  refine ⟨g.block, [], [], [], ?_, ?_, .genesis⟩
  · rw [hdb, commit_genesis, getElem?_put_empty, if_pos rfl]
  · rw [hdb, commit_genesis, getElem?_put_empty, if_pos rfl]

theorem cached (h : Retained g bc) (hc : Cached bc bc') : Retained g bc' := by
  intro k s hs
  rw [hc.states] at hs
  rw [hc.db]
  exact h k s hs

theorem prune (h : Retained g bc) (hc : Coherent bc) : Retained g (bc.prune true) := by
  intro k s hs
  obtain ⟨cutoff, gone, hp⟩ := prune_pruned bc true
  obtain ⟨b, l, receipts, rs, hb, hr, hex⟩ := h k s (hp.states_sub k s hs)
  have hb' : (bc.prune true).db.blocks[k]? = some b := (hp.stored_of_state hc hs).trans hb
  exact ⟨b, l, receipts, rs, hb', (receipts_prune hb').trans hr, hex⟩

theorem executed (h : Retained g bc) (hready : Ready g bc) {c : Checked} (hacc : Accepted bc b p c) :
    ∃ l rs, Executed g (b :: l) (c.receipts :: rs) c.state := by
  obtain ⟨s, hs, happ⟩ := hacc.applied
  obtain ⟨p', l, receipts, rs, hp', -, hex⟩ := h _ s hs
  have hp := hacc.parent
  rw [← hready.coherent.hash _ _ hp, hp'] at hp
  cases hp
  rw [hready.of.treasury] at happ
  exact ⟨_, _, .block hex happ⟩

theorem store (h : Retained g bc) {c : Checked} (hex : Executed g (b :: l) (c.receipts :: rs) c.state) {db' : Database}
    {cache : ExtTreeMap Hash Block} {head : Block} (hblocks : db'.blocks = (storeBlock bc.db b c).blocks)
    (hreceipts : db'.receipts = (storeBlock bc.db b c).receipts) :
    Retained g { bc with db := db', blockCache := cache, states := bc.states.insert b.hash c.state, head := head } := by
  intro k s hs
  dsimp only at hs ⊢
  rw [hblocks, hreceipts, getElem?_storeBlock, receipts_storeBlock]
  rw [getElem?_insert_hash] at hs
  split_ifs at hs ⊢
  · cases hs
    exact ⟨b, l, c.receipts, rs, rfl, rfl, hex⟩
  · exact h k s hs

theorem insert (h : Retained g bc) (hready : Ready g bc) (w : WireBlock) (nowMs : Int64) :
    Retained g (bc.insert w nowMs).2 := by
  obtain ⟨bc', hc, ⟨e, he⟩ | ⟨b, p, c, -, hacc, hplaced⟩⟩ := insert_cases hready.coherent w nowMs
  · rw [he]
    exact h.cached hc
  · obtain ⟨l, rs, hex⟩ := h.executed hready hacc
    have hret := h.cached hc
    have hcoh := (hready.cached hc).coherent
    obtain ⟨db', hmoved, heq⟩ | heq := hplaced.blocks
    · rw [heq]
      exact prune (hret.store hex hmoved.blocks hmoved.receipts) (hcoh.store hmoved.blocks)
    · rw [heq]
      exact hret.store hex rfl rfl

end Retained

theorem retained_of_run {opts : Options} {ops : List Op} (hrun : runNode g opts ops = .ok bc) (hins : ∀ o, .reopen o ∉ ops) :
    Retained g bc := by
  obtain ⟨hg, -⟩ := ready_of_run hrun
  rw [runNode_eq hg] at hrun
  refine (Run.run_preserves (I := fun _ bc => Ready g bc ∧ Retained g bc) ?_ ⟨ready_fresh hg opts, .of_fresh g opts⟩ hrun).2
  rintro past op rest bc bc' heq ⟨hready, hret⟩ hstep
  cases op with
  | insert w nowMs =>
    cases hstep
    exact ⟨hready.insert w nowMs, hret.insert hready w nowMs⟩
  | reopen o => exact absurd (by rw [← heq]; simp) (hins o)

/-- **What a retained state holds.** A state in memory has the logs of its own block alone, and no more of them, exactly
when the blocks before it have none. -/
theorem retained_logs_own {opts : Options} {ops : List Op} (hrun : runNode g opts ops = .ok bc)
    (hins : ∀ o, .reopen o ∉ ops) {k : Hash} (hs : bc.states[k]? = some s) :
    ∃ b l receipts rs, bc.db.blocks[k]? = some b ∧ bc.db.receipts[k]? = some receipts ∧
      Executed g (b :: l) (receipts :: rs) s ∧ (s.logs = logsOf receipts ↔ ∀ older ∈ rs, logsOf older = []) ∧
      (s.logs.length ≤ (logsOf receipts).length ↔ ∀ older ∈ rs, logsOf older = []) := by
  obtain ⟨b, l, receipts, rs, hb, hr, hex⟩ := retained_of_run hrun hins k s hs
  exact ⟨b, l, receipts, rs, hb, hr, hex, hex.logs_eq_iff⟩

end Blockchain

/-! ### Gas -/

/-- **Gas is accounted exactly** when the transactions use less than `2 ^ 64` gas together, as they do when the limit of
the block is below `2 ^ 63` or the limits of the transactions sum to less than `2 ^ 64`. -/
theorem block_gas_exact {tr : Treasury} {parent next : State} {parentHeader : Option Header}
    (happ : applyBlock tr parent b parentHeader = .ok (next, receipts)) :
    (GasExact b receipts ↔ spentGas b.header b.txs (blockState parent b.header) < 2 ^ 64) ∧
      (b.header.gasLimit.toNat < 2 ^ 63 ∨ (b.txs.map fun tx => tx.gasLimit.toNat).sum < 2 ^ 64 → GasExact b receipts) := by
  obtain ⟨t, hruns, -⟩ := txRuns_of_applyBlock happ
  rw [hruns.spentGas_eq]
  exact ⟨hruns.gasExact_iff, fun hcond => hruns.gasExact_iff.2 (hruns.gasOf_lt hcond)⟩

/-! ### Concrete blocks

A contract creation that emits a log, a block without transactions above it, and a block with two creations that use
`2 ^ 63` gas each. -/

def logSig : Bytes :=
  beBytes 65 0x1c5cbdf0646e5db4eaa398f365f2ea7a0e3d419b7e0330e39ce92bddedcac4f9bc7860f29d926ed41c5d75e7bd0e051513b32f33ca2eabd0692b62501146c2a9dc

def firstGasSig : Bytes :=
  beBytes 65 0x1cacd484e2f0c7f65309ad178a9f559abde09796974c57e714c35f110dfc27ccbe0bdd06cbc8291bba357d4df2e48fe936b412359f353d5a34576bf66de2b7516b

def secondGasSig : Bytes :=
  beBytes 65 0x1b774ae7f858a9411e5ef4246b70c65aac5649980be5c17891bbec17895da008cb7a3cf478ecfbf8c02698e8c23bd784d493c19129d2c199147ea03d4514920797

def logTx : Transaction := ⟨0, 1, 0, none, some 0, 100000, some 0, [0x60, 0, 0x60, 0, 0xa0, 0], logSig⟩
def firstGasTx : Transaction := ⟨0, 1, 0, none, some 0, 0x8000000000000000, some 0, [0xfe], firstGasSig⟩
def secondGasTx : Transaction := ⟨0, 1, 1, none, some 0, 0x8000000000000000, some 0, [0xfe], secondGasSig⟩

def logBlock : Block where
  header :=
    { parentHash := 0xedd8ed94453216a143a9a8dd0dc88eda4f3ccc959890da13f280e54a5817ae43
      height := 1
      timestamp := 1
      txRoot := 0x5917dd2786c42a2a2031b305711543e72d4235514a3d6def5548240d2499ee2b
      receiptRoot := 0x13b622ad00ff35333ae56f6213ce8fd365021e5dcf0f7f575dbefa26c53f0653
      stateRoot := 0xcaf9d26d961dc03cd1b0826a2b1fd610dc1d3ac367b5aafecf63dc9d6951fcad
      gasUsed := 53441
      gasLimit := 1000000
      proposer := 9
      difficulty := 1
      nonce := 0 }
  txs := [logTx]

def quietBlock : Block where
  header :=
    { parentHash := 0xf6933e348a3cb1ecd6d8b79e72021171328a157d281a3caecce5793d1f96e9db
      height := 2
      timestamp := 2
      txRoot := 0x0
      receiptRoot := 0x0
      stateRoot := 0x2dcd73399f3eb59750cdbe5db2e47924e3d3ccdc3061ac3445acbdd87d138f7c
      gasUsed := 0
      gasLimit := 1000000
      proposer := 9
      difficulty := 1
      nonce := 0 }
  txs := []

@[reducible]
def receiptCrypto : Crypto :=
  signedCrypto
    [(logTx, 0x589b6d4c909a7e4ece2db66eaaf1f262c72f6d95733eea71e66d6bcc86c16644,
      0x3aff2e1602e3cf49981464e44ba9725ae2193c5c54b848d7bac60534e50ac765),
     (firstGasTx, 0xbdf0b84718aa0338d7baa5ff69b9982d2ebb28e84218e4fe0f3ef75bcc805146,
      0xedbac8d87f594d64489e66355b6cad89de0933b71d8536d883775696c0cbb2fe),
     (secondGasTx, 0x481696d578830e9ff879db3bfcf6f029b07e589027a0b4f3521f7dcba15f2b3e,
      0xca40765ba6cfa258fb980cd3066f0bdc5baba2d42c7bd455b9f08457869c2e05)]
    (genesisDigests ++
      [digestRow 196 logBlock.header.message 0xf6933e348a3cb1ecd6d8b79e72021171328a157d281a3caecce5793d1f96e9db,
       digestRow 196 quietBlock.header.message 0x70e56825436329eb2eab33d9584714ee171fa749b991af1a4e0f2d2295cb7849,
       ((33, 0x3aff2e1602e3cf49981464e44ba9725ae2193c5c54b848d7bac60534e50ac765),
        0x5917dd2786c42a2a2031b305711543e72d4235514a3d6def5548240d2499ee2b),
       ((23, 0xd6947e5f4552091a69125d5dfcb7b8c2659029395bdf80),
        0x6a120af821c27670f30be89ff2e246bb76df876cef8b38ae84130f4f55de395b),
       ((69, 0x1000000000000d0c1000000000000d0c10000000000000001f2e246bb76df876cef8b38ae84130f4f55de395b00000000000000000000000000000000),
        0x13b622ad00ff35333ae56f6213ce8fd365021e5dcf0f7f575dbefa26c53f0653),
       ((62, 0x900000000000000210000000000000000000000000000000901158e460913d000000000000000000000),
        0x7360373fd719683443b1afcbfb2cf74a92671fef6927a0f91858a07c01f1b560),
       ((56, 0x7e5f4552091a69125d5dfcb7b8c2659029395bdf000000000000001b000000000000000100000000000000030f42400000000000000000),
        0xc334dde7154bc6dac6ead0830c97c2776e10d6f140f733e3418cec806cfaea59),
       ((65, 0x17360373fd719683443b1afcbfb2cf74a92671fef6927a0f91858a07c01f1b560c334dde7154bc6dac6ead0830c97c2776e10d6f140f733e3418cec806cfaea59),
        0x8354fc5fe22b51683c87d3ca27047ba2d9755f3ee5898da9e3abdde1a41a4523),
       ((48, 0x8354fc5fe22b51683c87d3ca27047ba2d9755f3ee5898da9e3abdde1a41a452300000000000000084563918244f40000),
        0xcaf9d26d961dc03cd1b0826a2b1fd610dc1d3ac367b5aafecf63dc9d6951fcad),
       ((62, 0x9000000000000002100000000000000000000000000000009022b1c8c1227a000000000000000000000),
        0x2c5febc69456aea996c4a485a42654199951cf5f48c5b3580be75e87e86ebf62),
       ((65, 0x12c5febc69456aea996c4a485a42654199951cf5f48c5b3580be75e87e86ebf62c334dde7154bc6dac6ead0830c97c2776e10d6f140f733e3418cec806cfaea59),
        0x97805dec4aca171973e177e8afec05ba0b443e29788b1b8cce6d6e99e97c62cf),
       ((48, 0x97805dec4aca171973e177e8afec05ba0b443e29788b1b8cce6d6e99e97c62cf00000000000000088ac7230489e80000),
        0x2dcd73399f3eb59750cdbe5db2e47924e3d3ccdc3061ac3445acbdd87d138f7c),
       ((33, 0xedbac8d87f594d64489e66355b6cad89de0933b71d8536d883775696c0cbb2fe),
        0x77ec1473659d9c5797c37628ff24bb6e4d2307e1ed149cf296aaf3e82215fcbe),
       ((33, 0xca40765ba6cfa258fb980cd3066f0bdc5baba2d42c7bd455b9f08457869c2e05),
        0xdf8c9387c34e1bf464728a0fe75a61a1dea4e1ebc05baf2dda0e201c93c450c3),
       ((65, 0x177ec1473659d9c5797c37628ff24bb6e4d2307e1ed149cf296aaf3e82215fcbedf8c9387c34e1bf464728a0fe75a61a1dea4e1ebc05baf2dda0e201c93c450c3),
        0x1cc228fa69dfcd8024b9547569a9d2759677450e809df3555159350fbeb5a556),
       ((196, 0x3c1c4fbcb845598b2ff547265275455a78b54bbb71968f1bf5424ce3e5052d4c0000000000000000000000000000000000000000000000000000000000000000000000000000000000000000000000000000000000000000000000000000000000000000000000000000000000000000278847b8fcc2cbbea5a973813f98313c05ff383a5a8b3e0a1a61076bc067833400000000000000008000000000000000000000000000000000000000000000000000000000000000000000010000000000000000),
        0x31db25eec13179a45f7d125649557526e2997cc261a71cf2c1fba23d1b90b2e2),
       ((23, 0xd6947e5f4552091a69125d5dfcb7b8c2659029395bdf01),
        0xe5c121c300b4da3bd2d1a0ae2946259e0334f33a064106302415ad3391bed384),
       ((33, 0x800000000000000080000000000000000000000000000000),
        0xc4154c552c1490d657ece6caa00501c1d2740ad7ff14c3699a30f6252c8ebd02),
       ((33, 0x80000000000000000000000000000000),
        0x0daa54fffd56374cb857813cdf8852923a4b0cbc1b1ce137ed88bf0ec934b516),
       ((65, 0x1c4154c552c1490d657ece6caa00501c1d2740ad7ff14c3699a30f6252c8ebd020daa54fffd56374cb857813cdf8852923a4b0cbc1b1ce137ed88bf0ec934b516),
        0xed3f18346d018a7bdf565cd4279d07b1b9e8eafa95c0bd511a388b047f4f4c2b),
       ((56, 0x7e5f4552091a69125d5dfcb7b8c2659029395bdf000000000000001b000000000000000200000000000000030f42400000000000000000),
        0xe8ba2a3cce1ec280d8fae37a1f4aa83930f067cf7b36bf586efea46c6f77a07d),
       ((65, 0x17360373fd719683443b1afcbfb2cf74a92671fef6927a0f91858a07c01f1b560e8ba2a3cce1ec280d8fae37a1f4aa83930f067cf7b36bf586efea46c6f77a07d),
        0xf8336202315ca0c47bb63fcae9687266bddbbf0b69b84e3144e9c4aad10ce8a7),
       ((48, 0xf8336202315ca0c47bb63fcae9687266bddbbf0b69b84e3144e9c4aad10ce8a700000000000000084563918244f40000),
        0x3160bfb82787ad9becadd9e56254d8161bc547fb123042138d88fefe1a6b4037)])

namespace Blockchain

omit [Crypto] in
theorem quietBlock_kept : ∃ bc, @runNode receiptCrypto transferGenesis forkOptions [offer logBlock, offer quietBlock] = .ok bc ∧
    ([logBlock, quietBlock].map fun b => ((bc.states[@Block.hash receiptCrypto b]?).map fun s => s.logs.length,
      (bc.db.receipts[@Block.hash receiptCrypto b]?).map fun r => (logsOf r).length)) = [(some 1, some 1), (some 1, some 0)] :=
  Run.exists_of_map (by decide +kernel)

omit [Crypto] in
theorem retained_logs_own_first : ∃ bc s receipts,
    @runNode receiptCrypto transferGenesis forkOptions [offer logBlock, offer quietBlock] = .ok bc ∧
      bc.states[@Block.hash receiptCrypto logBlock]? = some s ∧
      bc.db.receipts[@Block.hash receiptCrypto logBlock]? = some receipts ∧ s.logs = logsOf receipts := by
  obtain ⟨bc, hrun, hkept⟩ := quietBlock_kept
  have hfirst := (List.cons.inj hkept).1
  obtain ⟨s, hs, hslen⟩ := Option.map_eq_some_iff.1 (Prod.mk.inj hfirst).1
  obtain ⟨rs₁, hr₁, hrlen⟩ := Option.map_eq_some_iff.1 (Prod.mk.inj hfirst).2
  have hins : ∀ o, .reopen o ∉ [offer logBlock, offer quietBlock] := by simp [offer]
  obtain ⟨b, l, receipts, rs, -, hr, -, hown, hlength⟩ := @retained_logs_own receiptCrypto _ _ _ _ _ hrun hins _ hs
  obtain rfl := Option.some.inj (hr.symm.trans hr₁)
  exact ⟨bc, s, receipts, hrun, hs, hr, hown.2 (hlength.1 (by omega))⟩

omit [Crypto] in
/-- A retained state with more logs than its block. -/
theorem retained_logs_not_own : ∃ bc s receipts,
    @runNode receiptCrypto transferGenesis forkOptions [offer logBlock, offer quietBlock] = .ok bc ∧
      bc.states[@Block.hash receiptCrypto quietBlock]? = some s ∧
      bc.db.receipts[@Block.hash receiptCrypto quietBlock]? = some receipts ∧ (logsOf receipts).length < s.logs.length := by
  obtain ⟨bc, hrun, hkept⟩ := quietBlock_kept
  have hsecond := (List.cons.inj (List.cons.inj hkept).2).1
  obtain ⟨s, hs, hslen⟩ := Option.map_eq_some_iff.1 (Prod.mk.inj hsecond).1
  obtain ⟨receipts, hr, hrlen⟩ := Option.map_eq_some_iff.1 (Prod.mk.inj hsecond).2
  exact ⟨bc, s, receipts, hrun, hs, hr, by omega⟩

end Blockchain

def wideGenesis : Genesis := { transferGenesis with gasLimit := 0x8000000000000000 }

def wideBlock : Block where
  header :=
    { parentHash := 0x31db25eec13179a45f7d125649557526e2997cc261a71cf2c1fba23d1b90b2e2
      height := 1
      timestamp := 1
      txRoot := 0x1cc228fa69dfcd8024b9547569a9d2759677450e809df3555159350fbeb5a556
      receiptRoot := 0xed3f18346d018a7bdf565cd4279d07b1b9e8eafa95c0bd511a388b047f4f4c2b
      stateRoot := 0x3160bfb82787ad9becadd9e56254d8161bc547fb123042138d88fefe1a6b4037
      gasUsed := 0
      gasLimit := 0x8000000000000000
      proposer := 9
      difficulty := 1
      nonce := 0 }
  txs := [firstGasTx, secondGasTx]

omit [Crypto] in
theorem block_gas_exact_transfer : ∃ next receipts,
    @applyBlock transferCrypto transferGenesis.treasury transferGenesis.state transferBlock
      (some (@Genesis.block transferCrypto transferGenesis).header) = .ok (next, receipts) ∧ GasExact transferBlock receipts := by
  obtain ⟨next, receipts, happ⟩ := transferBlock_applied
  exact ⟨next, receipts, happ, (@block_gas_exact transferCrypto _ _ _ _ _ _ happ).2 (.inl (by decide))⟩

omit [Crypto] in
/-- A block whose transactions use `2 ^ 64` gas together and that declares none. -/
theorem block_gas_wraps : wideGenesis.validate = .ok () ∧
    (∀ tx ∈ wideBlock.txs, @Transaction.sanityCheck receiptCrypto tx wideGenesis.chainID = .ok ()) ∧
    (@applyBlock receiptCrypto wideGenesis.treasury wideGenesis.state wideBlock
      (some (@Genesis.block receiptCrypto wideGenesis).header)).map (fun r =>
        (wideBlock.header.gasUsed, gasOf r.2, r.2.map Receipt.cumulativeGasUsed)) =
      .ok (0, 2 ^ 64, [0x8000000000000000, 0]) := by
  decide +kernel

end Lxs
