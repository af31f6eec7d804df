import Lxs.State.Execution

/-!
# The state transition

`state/transition.go` and `state/rlp.go`: one transaction, one block. A panic of the source is `none` in
`applyTx`; `applyBlock` recovers it and refuses the block. The treasury split and the fee burn are package
variables of the source; the first is set from the genesis and is a parameter here, the second is constant.
-/

namespace Lxs

open Std Vm

variable [Crypto]

/-! ### Contract addresses -/

def rlpLength (n : ℕ) (offset : UInt8) : Bytes :=
  if n < 56 then [offset + UInt8.ofNat n]
  else
    let lenBytes := (encUint64 (UInt64.ofNat n)).dropWhile (· = 0)
    (offset + 55 + UInt8.ofNat lenBytes.length) :: lenBytes

def rlpBytes (b : Bytes) : Bytes :=
  if b.length = 1 ∧ b.headD 0 < 0x80 then [b.headD 0] else rlpLength b.length 0x80 ++ b

def rlpUint (x : UInt64) : Bytes :=
  if x = 0 then rlpBytes [] else rlpBytes ((encUint64 x).dropWhile (· = 0))

def rlpList (items : List Bytes) : Bytes := rlpLength items.flatten.length 0xc0 ++ items.flatten

def createAddress (sender : Address) (nonce : UInt64) : Address :=
  hashToAddress (keccak256 (rlpList [rlpBytes (addressBytes sender), rlpUint nonce]))

/-! ### Issuance -/

def baseBlockReward : ℕ := 25 * 10 ^ 18
def halvingInterval : UInt64 := 1000000

def blockRewardAt (height : UInt64) : ℤ := (baseBlockReward >>> (height / halvingInterval).toNat : ℕ)

/-- The share of each block reward that does not go to the proposer. -/
structure Treasury where
  basisPoints : Int64
  addr : Address
  deriving DecidableEq

def creditBlockReward (tr : Treasury) (s : State) (miner : Address) (height : UInt64) : State :=
  let reward := blockRewardAt height
  if 0 < tr.basisPoints ∧ tr.addr ≠ zeroAddress then
    let treasuryCut := reward * tr.basisPoints.toInt / 10000
    let s' := if tr.addr = burnAddress then s.burn (some treasuryCut) else s.credit tr.addr treasuryCut
    s'.credit miner (reward - treasuryCut)
  else s.credit miner reward

/-! ### Fees -/

def feeBurnBasisPoints : UInt64 := 2000

def feeBurn (fee : ℤ) : ℤ := fee * feeBurnBasisPoints.toNat / 10000

/-- The proposer takes what the burn leaves, rounding included. -/
def feeTip (fee : ℤ) : ℤ := fee - feeBurn fee

def distributeFee (s : State) (proposer : Address) (fee : ℤ) : State :=
  (s.burn (some (feeBurn fee))).credit proposer (feeTip fee)

/-! ### One transaction -/

inductive TxError
  | check (e : TxCheckError)
  | nonceTooLow (have_ want : UInt64)
  | nonceTooHigh (have_ want : UInt64)
  | belowIntrinsic
  | overBlockGas (gas limit : UInt64)
  | insufficient (have_ want : ℤ)
  deriving DecidableEq

/-- Why the execution inside a transaction failed. -/
inductive TxFault
  | contractCollision
  | vm (e : VmError)
  deriving DecidableEq

structure TxResult where
  gasUsed : UInt64
  status : ReceiptStatus
  logs : List Log
  deriving DecidableEq

def checkTx (s : State) (tx : Transaction) (sender : Address) (blockGasLimit : UInt64) : Option (Except TxError Unit) :=
  let acc := s.get sender
  if tx.nonce < acc.nonce then some (.error (.nonceTooLow tx.nonce acc.nonce))
  else if acc.nonce < tx.nonce then some (.error (.nonceTooHigh tx.nonce acc.nonce))
  else if tx.gasLimit < intrinsicGasFor tx.data tx.toAddr.isNone then some (.error .belowIntrinsic)
  else if 0 < blockGasLimit ∧ blockGasLimit < tx.gasLimit then
    some (.error (.overBlockGas tx.gasLimit blockGasLimit))
  else
    match tx.cost with
    | none => none
    | some cost => if acc.balance < cost then some (.error (.insufficient acc.balance cost)) else some (.ok ())

/-- Gas and nonce commit first and are never rolled back. -/
def chargeTx (s : State) (sender : Address) (maxFee : ℤ) : State :=
  s.update sender fun acc => { acc with balance := acc.balance - maxFee, nonce := acc.nonce + 1 }

/-- The state in which the execution inside a transaction starts: a savepoint with gas and nonce charged, and the
value taken from the sender. -/
def startTx (s : State) (sender : Address) (maxFee value : ℤ) : State :=
  (chargeTx s sender maxFee).snapshot.subBalance sender value

def txContext (s : State) (tx : Transaction) (sender coinbase : Address) (blockGasLimit : UInt64)
    (gasPrice value : ℤ) (address : Address) : Context where
  address := address
  caller := sender
  value := value
  blockGasLimit := blockGasLimit
  origin := sender
  gasPrice := gasPrice
  coinbase := coinbase
  blockNumber := s.bctx.number
  time := s.bctx.time
  difficulty := s.bctx.difficulty
  chainID := tx.chainID
  baseFee := 0
  static := false

def codeDepositGas : UInt64 := 200

/-- What the execution inside a transaction leaves: the state, the gas used, and why it failed. -/
structure TxRun where
  state : State
  gasUsed : UInt64
  fault : Option TxFault

def TxRun.ofResult (s : State) (budget : UInt64) (res : Result) : TxRun :=
  ⟨s, budget - res.gasLeft, res.err.map .vm⟩

/-- Contract creation, in a state in which the value has left the sender. -/
def runCreation (ctx : Address → Context) (tx : Transaction) (sender : Address) (value : ℤ) (budget : UInt64)
    (s : State) : Option TxRun :=
  let addr := createAddress sender tx.nonce
  if s.nonce addr ≠ 0 ∨ 0 < (s.getCode addr).length then some ⟨s, budget, some .contractCollision⟩
  else
    match execute tx.data [] budget (ctx addr) 0 (s.credit addr value) with
    | .error _ => none
    | .ok (t, res) =>
      if res.err.isSome then some (.ofResult t budget res)
      else if maxCodeSize < res.ret.length then some ⟨t, budget, some (.vm .maxCodeSize)⟩
      else
        let codeGas := codeDepositGas * UInt64.ofNat res.ret.length
        if res.gasLeft < codeGas then some ⟨t, budget, some (.vm .outOfGas)⟩
        else some ⟨t.setCode addr res.ret, budget - res.gasLeft + codeGas, none⟩

/-- The call of a contract, which holds the value while its code runs. -/
def runCall (ctx : Address → Context) (tx : Transaction) (target : Address) (value : ℤ) (budget : UInt64)
    (s : State) : Option TxRun :=
  let s' := s.credit target value
  match execute (s'.getCode target) tx.data budget (ctx target) 0 s' with
  | .error _ => none
  | .ok (t, res) => some (.ofResult t budget res)

/-- The switch over the recipient: creation, contract call, burn, or plain transfer. -/
def runTx (ctx : Address → Context) (tx : Transaction) (sender : Address) (value : ℤ) (budget : UInt64)
    (s : State) : Option TxRun :=
  match tx.toAddr with
  | none => runCreation ctx tx sender value budget s
  | some target =>
    if 0 < (s.getCode target).length then runCall ctx tx target value budget s
    else if target = burnAddress then some ⟨s.burn (some value), 0, none⟩
    else some ⟨s.credit target value, 0, none⟩

/-- Undo a failed execution, or drop the savepoints; a revert keeps the gas that is left. -/
def TxRun.close (r : TxRun) (snap : ℕ) (budget : UInt64) : State × ReceiptStatus × UInt64 :=
  match r.fault with
  | none => (r.state.discardSnapshots, .success, r.gasUsed)
  | some f => (r.state.revertToSnapshot snap, .failed, if f = .vm .reverted then r.gasUsed else budget)

def settleTx (s : State) (sender coinbase : Address) (maxFee spent : ℤ) : State :=
  let s' := if 0 < maxFee - spent then s.credit sender (maxFee - spent) else s
  distributeFee s' coinbase spent

def executeTx (s : State) (tx : Transaction) (sender coinbase : Address) (blockGasLimit : UInt64)
    (gasPrice value : ℤ) : Option (State × TxResult) :=
  let intrinsic := intrinsicGasFor tx.data tx.toAddr.isNone
  let maxFee := tx.gasLimit.toNat * gasPrice
  let s₁ := chargeTx s sender maxFee
  let logStart := s₁.logCount
  let snap := s₁.snapshots.length
  let s₂ := startTx s sender maxFee value
  let budget := tx.gasLimit - intrinsic
  match runTx (txContext s₂ tx sender coinbase blockGasLimit gasPrice value) tx sender value budget s₂ with
  | none => none
  | some r =>
    let (s₃, status, vmGasUsed) := r.close snap budget
    let gasUsed := intrinsic + vmGasUsed
    let s₄ := settleTx s₃ sender coinbase maxFee (gasUsed.toNat * gasPrice)
    some (s₄, ⟨gasUsed, status, s₄.logsSince logStart⟩)

def applyTx (s : State) (tx : Transaction) (coinbase : Address) (blockGasLimit : UInt64) :
    Option (State × Except TxError TxResult) :=
  match tx.sender with
  | .error e => some (s, .error (.check e))
  | .ok sender =>
    match checkTx s tx sender blockGasLimit, tx.gasPrice, tx.value with
    | some (.error e), _, _ => some (s, .error e)
    | some (.ok _), some gasPrice, some value =>
      (executeTx s tx sender coinbase blockGasLimit gasPrice value).map fun (t, r) => (t, .ok r)
    | _, _, _ => none

/-! ### One block -/

def gasLimitBoundDivisor : UInt64 := 1024
def minBlockGasLimit : UInt64 := 1000000

inductive BlockError
  | badTxRoot
  | badParent
  | badHeight
  | badTimestamp
  | badGasLimit
  | tx (index : ℕ) (hash : Hash) (e : TxError)
  | gasLimit
  | gasUsed (computed header : UInt64)
  | badReceiptRoot (computed header : Hash)
  | badStateRoot (computed header : Hash)
  | blockPanic
  deriving DecidableEq

def gasLimitDiff (lim plim : UInt64) : UInt64 := if lim < plim then plim - lim else lim - plim

def checkHeader (h : Header) (parentHeader : Option Header) : Except BlockError Unit :=
  match parentHeader with
  | none => if 0 < h.height then .error .badParent else .ok ()
  | some p =>
    if h.parentHash ≠ p.hash then .error .badParent
    else if h.height ≠ p.height + 1 then .error .badHeight
    else if h.timestamp ≤ p.timestamp then .error .badTimestamp
    else if h.gasLimit < minBlockGasLimit ∨ p.gasLimit / gasLimitBoundDivisor ≤ gasLimitDiff h.gasLimit p.gasLimit
    then .error .badGasLimit
    else .ok ()

/-- The loop over the transactions from index `i`, with the gas used so far; the receipts are in order. -/
def applyTxs (h : Header) : ℕ → UInt64 → List Transaction → State → Except BlockError (State × UInt64 × List Receipt)
  | _, totalGas, [], s => .ok (s, totalGas, [])
  | i, totalGas, tx :: txs, s =>
    match applyTx s tx h.proposer h.gasLimit with
    | none => .error .blockPanic
    | some (_, .error e) => .error (.tx i tx.hash e)
    | some (t, .ok r) =>
      if h.gasLimit < totalGas + r.gasUsed then .error .gasLimit
      else
        match applyTxs h (i + 1) (totalGas + r.gasUsed) txs t with
        | .error e => .error e
        | .ok (t', gas, receipts) => .ok (t', gas, ⟨r.status.code, totalGas + r.gasUsed, r.gasUsed, r.logs⟩ :: receipts)

def blockState (parent : State) (h : Header) : State :=
  parent.copy.clearTouched.setBlockContext h.height (h.timestamp.toUInt64 / 1000) h.difficulty

/-- The checks on what the transactions left, and the block reward. -/
def sealBlock (tr : Treasury) (h : Header) (s : State) (totalGas : UInt64) (receipts : List Receipt) :
    Except BlockError (State × List Receipt) :=
  if totalGas ≠ h.gasUsed then .error (.gasUsed totalGas h.gasUsed)
  else if receiptRoot receipts ≠ h.receiptRoot then .error (.badReceiptRoot (receiptRoot receipts) h.receiptRoot)
  else
    let next := creditBlockReward tr s h.proposer h.height
    if next.root ≠ h.stateRoot then .error (.badStateRoot next.root h.stateRoot) else .ok (next, receipts)

def applyBlock (tr : Treasury) (parent : State) (b : Block) (parentHeader : Option Header) :
    Except BlockError (State × List Receipt) :=
  if !b.verifyTxRoot then .error .badTxRoot
  else
    match checkHeader b.header parentHeader with
    | .error e => .error e
    | .ok _ =>
      match applyTxs b.header 0 0 b.txs (blockState parent b.header) with
      | .error e => .error e
      | .ok (s, totalGas, receipts) => sealBlock tr b.header s totalGas receipts

end Lxs
