import Lxs.State.Blocks

/-!
# Genesis

`core/genesis.go`: block zero, what is checked of it, and the chains of blocks above it. Allocations are a map,
whose iteration order in the source is not fixed; nothing but the error of `validate` depends on it.
-/

set_option linter.unusedSectionVars false

namespace Lxs

open Std Lib State

variable [Crypto]

structure Genesis where
  totalSupply : Option ℤ
  chainID : UInt64
  timestamp : Int64
  gasLimit : UInt64
  /-- a `nil` balance is `none` -/
  alloc : ExtTreeMap Address (Option ℤ)
  difficulty : UInt64
  treasuryReward : Address
  treasuryRewardBps : UInt64
  deriving DecidableEq

inductive GenesisError
  | chainID
  | gasLimit (gasLimit : UInt64)
  | treasuryRewardBps (bps : UInt64)
  | treasuryHalfSet
  | nilAllocation (addr : Address)
  | negativeAllocation (addr : Address)
  | totalSupply (sum declared : ℤ)
  deriving DecidableEq

/-- The loop over the allocations: none is `nil` or negative, and their sum. -/
def sumAlloc : List (Address × Option ℤ) → ℤ → Except GenesisError ℤ
  | [], sum => .ok sum
  | (addr, none) :: _, _ => .error (.nilAllocation addr)
  | (addr, some bal) :: alloc, sum =>
    if bal < 0 then .error (.negativeAllocation addr) else sumAlloc alloc (sum + bal)

def minDifficulty : UInt64 := 1

def chainTagPrefix : Bytes := [0x6c, 0x78, 0x73, 0x2f, 0x67, 0x65, 0x6e, 0x65, 0x73, 0x69, 0x73, 0x2f, 0x76, 0x31]

/-- The parent hash of the genesis block, which binds all its descendants to the chain id. -/
def chainTag (chainID : UInt64) : Hash := keccak256 (chainTagPrefix ++ encUint64 chainID)

namespace Genesis

variable (g : Genesis)

def validate : Except GenesisError Unit :=
  if g.chainID = 0 then .error .chainID
  else if g.gasLimit < minBlockGasLimit then .error (.gasLimit g.gasLimit)
  else if 10000 < g.treasuryRewardBps then .error (.treasuryRewardBps g.treasuryRewardBps)
  else if decide (0 < g.treasuryRewardBps) ≠ decide (g.treasuryReward ≠ zeroAddress) then .error .treasuryHalfSet
  else
    match sumAlloc g.alloc.toList 0 with
    | .error e => .error e
    | .ok sum =>
      match g.totalSupply with
      | none => .ok ()
      | some declared => if sum ≠ declared then .error (.totalSupply sum declared) else .ok ()

def supply : ℤ := g.alloc.toList.foldl (fun sum kv => sum + kv.2.getD 0) 0

/-- The world before the first block; only called on a genesis without `nil` allocations. -/
def state : State := g.alloc.toList.foldl (fun s kv => s.credit kv.1 (kv.2.getD 0)) State.new

def block : Block where
  header :=
    { parentHash := chainTag g.chainID
      height := 0
      timestamp := g.timestamp
      txRoot := txRoot []
      receiptRoot := receiptRoot []
      stateRoot := g.state.root
      gasUsed := 0
      gasLimit := g.gasLimit
      proposer := zeroAddress
      difficulty := if g.difficulty = 0 then minDifficulty else g.difficulty
      nonce := 0 }
  txs := []

/-- The package variables of the reward split, as `NewBlockchain` sets them. -/
def treasury : Treasury := ⟨g.treasuryRewardBps.toInt64, g.treasuryReward⟩

end Genesis

/-! ### Valid genesis blocks -/

section Valid

variable {g : Genesis}

theorem sumAlloc_nonneg {l : List (Address × Option ℤ)} {sum r : ℤ} (h : sumAlloc l sum = .ok r) :
    ∀ kv ∈ l, 0 ≤ kv.2.getD 0 := by
  induction l generalizing sum with
  | nil => exact fun _ hm => absurd hm List.not_mem_nil
  | cons kv l ih =>
    obtain ⟨addr, bal⟩ := kv
    cases bal with
    | none => cases h
    | some bal =>
      unfold sumAlloc at h
      split_ifs at h with hneg
      rintro kv' hm
      rcases List.mem_cons.1 hm with rfl | hm
      · exact Int.not_lt.1 hneg
      · exact ih h kv' hm

structure Genesis.Valid (g : Genesis) : Prop where
  chainID : g.chainID ≠ 0
  gasLimit : minBlockGasLimit ≤ g.gasLimit
  bps : g.treasuryRewardBps ≤ 10000
  alloc : ∀ kv ∈ g.alloc.toList, 0 ≤ kv.2.getD 0

theorem Genesis.valid_of_validate (h : g.validate = .ok ()) : g.Valid := by
  unfold validate at h
  split_ifs at h with h₁ h₂ h₃ h₄
  cases hs : sumAlloc g.alloc.toList 0 with
  | error e => rw [hs] at h; cases h
  | ok sum => exact ⟨h₁, UInt64.not_lt.1 h₂, UInt64.not_lt.1 h₃, sumAlloc_nonneg hs⟩

theorem Genesis.Valid.treasury_le (h : g.Valid) : g.treasury.basisPoints.toInt ≤ 10000 := by
  have hle := UInt64.le_iff_toNat_le.1 h.bps
  have : (10000 : UInt64).toNat = 10000 := rfl
  show g.treasuryRewardBps.toInt64.toInt ≤ 10000
  rw [← Int64.toInt_toBitVec, UInt64.toBitVec_toInt64, BitVec.toInt_eq_toNat_of_lt]
  · show (g.treasuryRewardBps.toNat : ℤ) ≤ 10000
    omega
  · show 2 * g.treasuryRewardBps.toNat < 2 ^ 64
    omega

theorem total_credits (l : List (Address × Option ℤ)) (hl : ∀ kv ∈ l, 0 ≤ kv.2.getD 0) (s : State) (hs : s.Solvent)
    (sum : ℤ) (hsum : s.sumBalances + s.burned = sum) :
    let t := l.foldl (fun s kv => s.credit kv.1 (kv.2.getD 0)) s
    t.Solvent ∧ t.sumBalances + t.burned = l.foldl (fun sum kv => sum + kv.2.getD 0) sum := by
  induction l generalizing s sum with
  | nil => exact ⟨hs, hsum⟩
  | cons kv l ih =>
    refine ih (fun kv' hm => hl kv' (List.mem_cons_of_mem _ hm)) _ (hs.credit (hl kv (List.mem_cons_self ..)) kv.1) _ ?_
    show _ = sum + kv.2.getD 0
    rw [sumBalances_credit, burned_credit]
    omega

theorem Genesis.Valid.total_state (h : g.Valid) :
    g.state.Solvent ∧ g.state.sumBalances + g.state.burned = g.supply := by
  refine total_credits _ h.alloc State.new (fun a => ?_) 0 ?_
  · show 0 ≤ (readLeaf (∅ : ExtTreeMap Address Leaf)[a]?).balance
    rw [ExtTreeMap.getElem?_empty]
    exact le_rfl
  · show FinMap.sumOf (fun l : Leaf => l.1.balance) (∅ : ExtTreeMap Address Leaf) + 0 = 0
    rw [FinMap.sumOf_empty]
    rfl

end Valid

/-! ### Chains above a genesis -/

/-- The worlds and headers reached from the genesis by blocks that `applyBlock` accepts, with transactions that
pass `sanityCheck`. -/
inductive ChainFrom (g : Genesis) : State → Header → Prop
  | genesis : ChainFrom g g.state g.block.header
  | block {s h b s' receipts} : ChainFrom g s h → (∀ tx ∈ b.txs, tx.sanityCheck g.chainID = .ok ()) →
      applyBlock g.treasury s b (some h) = .ok (s', receipts) → ChainFrom g s' b.header

variable {g : Genesis} {s : State} {h : Header}

/-- Timestamps strictly increase, so a chain is shorter than the range of timestamps and heights do not wrap. -/
theorem ChainFrom.height_le (hc : ChainFrom g s h) : (h.height.toNat : ℤ) ≤ h.timestamp.toInt - g.timestamp.toInt := by
  induction hc with
  | genesis => exact (Int.sub_self _).ge
  | @block s h b s' receipts _ _ happ ih =>
    obtain ⟨-, hh, -, -, -⟩ := applyBlock_ok_iff.1 happ
    have hlt := Int64.lt_iff_toInt_lt.1 hh.timestamp
    rw [hh.height, UInt64.toNat_add]
    have : (1 : UInt64).toNat = 1 := rfl
    omega

theorem ChainFrom.height_succ (hc : ChainFrom g s h) {h' : Header} (hh : HeaderOk h' h) :
    h'.height.toNat = h.height.toNat + 1 := by
  have hle := hc.height_le
  have hlt := Int64.lt_iff_toInt_lt.1 hh.timestamp
  have hmax := Int64.toInt_lt h'.timestamp
  have hmin := Int64.le_toInt g.timestamp
  rw [hh.height, UInt64.toNat_add]
  have : (1 : UInt64).toNat = 1 := rfl
  omega

def issued (height : UInt64) : ℤ := ∑ i ∈ Finset.Icc 1 height.toNat, blockRewardAt (UInt64.ofNat i)

/-- **Value is conserved over whole chains.** After every block the balances and the burn total add up to the
genesis allocations and the rewards issued so far, and no balance is negative. -/
theorem chain_conserves_value (hg : g.validate = .ok ()) (hc : ChainFrom g s h) :
    s.sumBalances + s.burned = g.supply + issued h.height ∧ ∀ a, 0 ≤ s.balance a := by
  have hvalid := Genesis.valid_of_validate hg
  induction hc with
  | genesis =>
    obtain ⟨hs, ht⟩ := hvalid.total_state
    refine ⟨?_, hs⟩
    have : issued g.block.header.height = 0 := rfl
    omega
  | @block s h b s' receipts hc hsane happ ih =>
    obtain ⟨htotal, hsolvent⟩ := ih
    have happ := applyBlock_ok_iff.1 happ
    obtain ⟨hs', htotal'⟩ := happ.conserves hsane hvalid.treasury_le
    refine ⟨?_, hs' hsolvent⟩
    have hheight := hc.height_succ happ.header
    have hof : UInt64.ofNat b.header.height.toNat = b.header.height := UInt64.ofNat_toNat
    rw [htotal', htotal, issued, issued, hheight, Finset.sum_Icc_succ_top (by omega), ← hheight, hof]
    omega

/-! A chain of one block with one signed transfer, a fifth of its reward burned, with the digests and the key it needs. -/

def transferSig : Bytes :=
  beBytes 65 0x1c774ae7f858a9411e5ef4246b70c65aac5649980be5c17891bbec17895da008cb5d99cc62d57df0c6af23c35272094885081b58b98fabafce3027e006fd3fa8e3

def transferTx : Transaction := ⟨0, 1, 0, some 0xbeef, some 5, 21000, some 3, [], transferSig⟩

def transferGenesis : Genesis where
  totalSupply := none
  chainID := 1
  timestamp := 0
  gasLimit := 1000000
  alloc := (∅ : ExtTreeMap Address (Option ℤ)).insert senderAddr (some 1000000)
  difficulty := 1
  treasuryReward := burnAddress
  treasuryRewardBps := 2000

def transferBlock : Block where
  header :=
    { parentHash := 0xedd8ed94453216a143a9a8dd0dc88eda4f3ccc959890da13f280e54a5817ae43
      height := 1
      timestamp := 240000
      txRoot := 0x819269a0308714bee97a00b24ec47d0ebb8229732415d46d0972970f61d6b1ba
      receiptRoot := 0xad23b69da32d145c175b34ff2f7496d276b88665dcf3416e66ed6890643bec38
      stateRoot := 0xd32685a5c66752f61155a6bc7a16440586022dfd225c4b27289c21190bd9e982
      gasUsed := 21000
      gasLimit := 1000000
      proposer := 9
      difficulty := 1
      nonce := 0 }
  txs := [transferTx]

def genesisDigests : List ((ℕ × ℕ) × Hash) :=
  [((22, 0x6c78732f67656e657369732f76310000000000000001),
    0x3c1c4fbcb845598b2ff547265275455a78b54bbb71968f1bf5424ce3e5052d4c),
   ((56, 0x7e5f4552091a69125d5dfcb7b8c2659029395bdf000000000000001b000000000000000000000000000000030f42400000000000000000),
    0x278847b8fcc2cbbea5a973813f98313c05ff383a5a8b3e0a1a61076bc0678334),
   ((196, 0x3c1c4fbcb845598b2ff547265275455a78b54bbb71968f1bf5424ce3e5052d4c0000000000000000000000000000000000000000000000000000000000000000000000000000000000000000000000000000000000000000000000000000000000000000000000000000000000000000278847b8fcc2cbbea5a973813f98313c05ff383a5a8b3e0a1a61076bc0678334000000000000000000000000000f4240000000000000000000000000000000000000000000000000000000010000000000000000),
    0xedd8ed94453216a143a9a8dd0dc88eda4f3ccc959890da13f280e54a5817ae43)]

def transferDigests : List ((ℕ × ℕ) × Hash) :=
  digestRow 196 transferBlock.header.message 0x4f92c1868097e9cd8b925942aa055a2d38c325b6f25b6fd9bba95ea9d78e32fa ::
    genesisDigests ++
    [((33, 0xd7410962600ab2ca93d318bd6f9b5535c68c1b43f04d9fdbf23c4f3f7e4dd000),
      0x819269a0308714bee97a00b24ec47d0ebb8229732415d46d0972970f61d6b1ba),
     ((33, 0x1000000000000520800000000000052080000000000000000),
      0xad23b69da32d145c175b34ff2f7496d276b88665dcf3416e66ed6890643bec38),
     ((62, 0x900000000000000210000000000000000000000000000000901158e460913d0c4e00000000000000000),
      0x9337666187318e213466df6c2bf058d094f78ad78411e1b61964af094e281610),
     ((54, 0xbeef000000000000001900000000000000000000000000000001050000000000000000),
      0x76c29efee6557de9ec0ea6a42720f5d4ddaedc8c03d21328b39fce0d80313c0f),
     ((56, 0x7e5f4552091a69125d5dfcb7b8c2659029395bdf000000000000001b000000000000000100000000000000030e4c230000000000000000),
      0xbb98e577c64c0daedeee7fb0539fec15c7208dcba868f6ea90a257b73aee05e1),
     ((65, 0x19337666187318e213466df6c2bf058d094f78ad78411e1b61964af094e28161076c29efee6557de9ec0ea6a42720f5d4ddaedc8c03d21328b39fce0d80313c0f),
      0x2309f79f89e728210d2395ff925a1a0f830bd11faf18ea4acaa5274b7013ff5e),
     ((65, 0x12309f79f89e728210d2395ff925a1a0f830bd11faf18ea4acaa5274b7013ff5ebb98e577c64c0daedeee7fb0539fec15c7208dcba868f6ea90a257b73aee05e1),
      0x15e49c8296c39c4299e5490ffc5a3af073083217319f29a8194fe1404c0b85c5),
     ((48, 0x15e49c8296c39c4299e5490ffc5a3af073083217319f29a8194fe1404c0b85c500000000000000084563918244f43138),
      0xd32685a5c66752f61155a6bc7a16440586022dfd225c4b27289c21190bd9e982)]

def transferTxs : List (Transaction × Hash × Hash) :=
  [(transferTx, 0x8e50e046d3c0176b2795401f759fc30ed2d6a13938c5349716536d1d13797533,
    0xd7410962600ab2ca93d318bd6f9b5535c68c1b43f04d9fdbf23c4f3f7e4dd000)]

@[reducible]
def transferCrypto : Crypto := signedCrypto transferTxs transferDigests

omit [Crypto] in
theorem transferGenesis_valid : @Genesis.validate transferGenesis = .ok () := by decide +kernel

omit [Crypto] in
theorem transferBlock_applied : ∃ s receipts, @applyBlock transferCrypto transferGenesis.treasury transferGenesis.state
    transferBlock (some (@Genesis.block transferCrypto transferGenesis).header) = .ok (s, receipts) := by
  have hok : (@applyBlock transferCrypto transferGenesis.treasury transferGenesis.state transferBlock
      (some (@Genesis.block transferCrypto transferGenesis).header)).isOk = true := by decide +kernel
  cases h : @applyBlock transferCrypto transferGenesis.treasury transferGenesis.state transferBlock
      (some (@Genesis.block transferCrypto transferGenesis).header) with
  | error e => rw [h] at hok; cases hok
  | ok x => exact ⟨x.1, x.2, rfl⟩

omit [Crypto] in
theorem chain_conserves_value_transfer :
    @Genesis.validate transferGenesis = .ok () ∧ ∃ s, @ChainFrom transferCrypto transferGenesis s transferBlock.header ∧
      s.sumBalances + s.burned = transferGenesis.supply + issued transferBlock.header.height ∧ ∀ a, 0 ≤ s.balance a := by
  have hvalid := transferGenesis_valid
  have hsane : ∀ tx ∈ transferBlock.txs, @Transaction.sanityCheck transferCrypto tx transferGenesis.chainID = .ok () := by decide +kernel
  obtain ⟨s, receipts, happ⟩ := transferBlock_applied
  have hchain := @ChainFrom.block transferCrypto _ _ _ _ _ _ (@ChainFrom.genesis transferCrypto transferGenesis) hsane happ
  exact ⟨hvalid, s, hchain, @chain_conserves_value transferCrypto _ _ _ hvalid hchain⟩

end Lxs
