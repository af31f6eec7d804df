import Lxs.Vm.Precompiles

/-!
# Instructions

`vm/exec.go` and the first half of `vm/call.go`. An instruction reads the state through `View`, works on
its frame, and says in its `Action` what is still to be done to the state: nothing, a storage write, a
log, or a call or creation whose operands, price and callee frame are already fixed.
-/

namespace Lxs.Vm

variable [Crypto]

/-- What instructions read of the state. -/
structure View where
  getStorage : Address → Hash → Hash
  getCode : Address → Bytes
  getNonce : Address → UInt64
  getBalance : Address → ℤ

inductive CallMode
  | regular | delegate | static
  deriving DecidableEq

/-- A call that is about to be made, its gas already deducted. -/
structure CallPlan where
  target : Address
  /-- the value to move, zero when none moves -/
  value : ℤ
  args : Bytes
  give : UInt64
  retOff : ℕ
  retSize : ℕ
  sub : Context
  deriving DecidableEq

/-- A creation that is about to be made, its gas already deducted. -/
structure CreatePlan where
  newAddr : Address
  nonce : UInt64
  value : ℤ
  initCode : Bytes
  give : UInt64
  sub : Context
  deriving DecidableEq

inductive Action
  | next
  | ret (data : Bytes)
  | revert (data : Bytes)
  | sstore (key value : Hash)
  | log (log : Log)
  | call (plan : CallPlan)
  | create (plan : CreatePlan)
  deriving DecidableEq

/-! ### Instructions without effect on the state -/

/-- Only `EXP` has a price beside the static one, per byte of its exponent. -/
def binop (op : BinOp) (a b : ℕ) : OpM Unit := do
  useGas (if op = .EXP then 50 * UInt64.ofNat (byteLen b) else 0)
  push (op.value a b)

def EnvOp.value (v : View) (m : Interp) : EnvOp → ℤ
  | ADDRESS => m.ctx.address.toNat
  | SELFBALANCE => v.getBalance m.ctx.address
  | CALLER => m.ctx.caller.toNat
  | ORIGIN => m.ctx.origin.toNat
  | GASPRICE => m.ctx.gasPrice
  | COINBASE => m.ctx.coinbase.toNat
  | TIMESTAMP => m.ctx.time.toNat
  | NUMBER => m.ctx.blockNumber.toNat
  | DIFFICULTY => m.ctx.difficulty
  | CHAINID => m.ctx.chainID.toNat
  | BASEFEE => m.ctx.baseFee
  | CALLVALUE => m.ctx.value
  | GASLIMIT => m.ctx.blockGasLimit.toNat
  | CALLDATASIZE => m.input.length
  | CODESIZE => m.code.length
  | PUSH0 => 0
  | PC => m.pc
  | MSIZE => m.mem.length
  | GAS => m.gas.toNat
  | RETURNDATASIZE => m.returnData.length

/-- Copy `length` bytes of `data` at `dataOff` into the memory, paid per word. -/
def copyData (memOff dataOff length : ℕ) (data : Bytes) : OpM Unit := do
  chargeMem memOff length
  useGas (3 * toWordSize (uint64 length))
  let part ← readData data dataOff (uint64 length)
  memSet (uint64 memOff) part

/-- EIP-1052: the hash of the code, of the empty code for a live account, else zero. -/
def extcodehash (v : View) (a : Address) : ℤ :=
  if 0 < (v.getCode a).length then (keccak256 (v.getCode a)).toNat
  else if v.getBalance a ≠ 0 ∨ v.getNonce a ≠ 0 then (keccak256 []).toNat
  else 0

/-! ### Instructions that act on the state -/

def popTopics : ℕ → OpM (List Hash)
  | 0 => return []
  | n + 1 => do
    let t ← wordToHash (← pop)
    return t :: (← popTopics n)

def opSstore (v : View) : OpM Action := do
  failIf (← get).ctx.static .staticStateChange
  let key ← pop
  let val ← pop
  let kh ← wordToHash key
  let vh ← wordToHash val
  useGas (sstoreGas (v.getStorage (← get).ctx.address kh) vh)
  return .sstore kh vh

def opLog (n : ℕ) : OpM Action := do
  failIf (← get).ctx.static .staticStateChange
  let off ← pop
  let size ← pop
  let topics ← popTopics n
  chargeMem off size
  useGas (logGas + UInt64.ofNat n * logTopicGas)
  useGas (logDataGas * uint64 size)
  let data ← memGet (uint64 off) (uint64 size)
  return .log ⟨(← get).ctx.address, topics, data⟩

def clampGas (w : ℕ) : UInt64 := if isUint64 w then uint64 w else 0xFFFFFFFFFFFFFFFF

/-- Refuse a call or a creation: the caller goes on with a zero. -/
def refuse : OpM Action := do
  push 0
  return .next

def subContext (ctx : Context) (mode : CallMode) (target : Address) (value : ℤ) : Context :=
  match mode with
  | .delegate => ctx
  | .static => { ctx with address := target, caller := ctx.address, value := 0, static := true }
  | .regular => { ctx with address := target, caller := ctx.address, value := value }

def opCall (v : View) (mode : CallMode) : OpM Action := do
  let gasWord ← pop
  let toWord ← pop
  let value ← popIf (mode = .regular)
  let argsOff ← pop
  let argsSize ← pop
  let retOff ← pop
  let retSize ← pop
  failIf (0 < value ∧ (← get).ctx.static) .staticStateChange
  useGas (if 0 < value then callBaseGas + callValueGas else callBaseGas)
  chargeMem argsOff argsSize
  chargeMem retOff retSize
  let args ← memGet (uint64 argsOff) (uint64 argsSize)
  let target ← wordToAddress toWord
  let gas := (← get).gas
  let most := gas - gas / 64
  let give := if clampGas gasWord < most then clampGas gasWord else most
  modify fun m => { m with returnData := [] }
  let m ← get
  if maxCallDepth ≤ m.depth then return ← refuse
  if 0 < value ∧ v.getBalance m.ctx.address < value then return ← refuse
  modify fun m => { m with gas := m.gas - give }
  return .call ⟨target, value, args, give, retOff, retSize, subContext m.ctx mode target value⟩

def createAddress (creator : Address) (nonce : UInt64) : Address :=
  hashToAddress (keccak256 (Rlp.list [Rlp.bytes (addressBytes creator), Rlp.uint nonce]))

def create2Address (creator : Address) (salt : Hash) (initCode : Bytes) : Address :=
  hashToAddress (keccak256 (0xff :: (addressBytes creator ++ hashBytes salt ++ hashBytes (keccak256 initCode))))

/-- The address of a new contract: from the creator's nonce, or from the salt and the init code. -/
def newAddress (create2 : Bool) (creator : Address) (nonce : UInt64) (salt : ℕ) (initCode : Bytes) : OpM Address :=
  if create2 then do return create2Address creator (← wordToHash salt) initCode
  else return createAddress creator nonce

def opCreate (v : View) (create2 : Bool) : OpM Action := do
  failIf (← get).ctx.static .staticStateChange
  let value ← pop
  let offset ← pop
  let size ← pop
  let salt ← popIf create2
  useGas createGas
  chargeMem offset size
  useGas (if create2 then keccak256WordGas * toWordSize (uint64 size) else 0)
  let initCode ← memGet (uint64 offset) (uint64 size)
  modify fun m => { m with returnData := [] }
  let m ← get
  let creator := m.ctx.address
  if maxCallDepth ≤ m.depth then return ← refuse
  if 0 < value ∧ v.getBalance creator < value then return ← refuse
  let nonce := v.getNonce creator
  let newAddr ← newAddress create2 creator nonce salt initCode
  let give := m.gas - m.gas / 64
  modify fun m => { m with gas := m.gas - give }
  return .create ⟨newAddr, nonce, value, initCode, give,
    { m.ctx with address := newAddr, caller := creator, value := value }⟩

/-! ### One instruction -/

/-- The instructions other than `STOP`, `PUSH`, `DUP` and `SWAP`. -/
def exec (v : View) (op : OpCode) : OpM Action := do
  match op with
  | .bin op =>
    let a ← pop
    let b ← pop
    binop op a b
    return .next
  | .ADDMOD =>
    let a ← pop
    let b ← pop
    let n ← pop
    push (if n = 0 then 0 else ((a + b) % n : ℕ))
    return .next
  | .MULMOD =>
    let a ← pop
    let b ← pop
    let n ← pop
    push (if n = 0 then 0 else (a * b % n : ℕ))
    return .next
  | .SHA3 =>
    let off ← pop
    let size ← pop
    chargeMem off size
    useGas (keccak256WordGas * toWordSize (uint64 size))
    let data ← memGet (uint64 off) (uint64 size)
    push (keccak256 data).toNat
    return .next
  | .ISZERO =>
    let a ← pop
    push (if a = 0 then 1 else 0)
    return .next
  | .NOT =>
    let a ← pop
    push (a ^^^ (tt256 - 1) : ℕ)
    return .next
  | .POP =>
    let _ ← pop
    return .next
  | .MLOAD =>
    let off ← pop
    chargeMem off 32
    let data ← memGet (uint64 off) 32
    push (bytesToNat data)
    return .next
  | .MSTORE =>
    let off ← pop
    let val ← pop
    chargeMem off 32
    memSet32 (uint64 off) val
    return .next
  | .MSTORE8 =>
    let off ← pop
    let val ← pop
    chargeMem off 1
    memSet (uint64 off) [UInt8.ofNat val]
    return .next
  | .SLOAD =>
    let key ← pop
    let kh ← wordToHash key
    push (v.getStorage (← get).ctx.address kh).toNat
    return .next
  | .SSTORE => opSstore v
  | .env op =>
    push (op.value v (← get))
    return .next
  | .BALANCE =>
    let a ← wordToAddress (← pop)
    push (v.getBalance a)
    return .next
  | .EXTCODESIZE =>
    let a ← wordToAddress (← pop)
    push (v.getCode a).length
    return .next
  | .EXTCODEHASH =>
    let a ← wordToAddress (← pop)
    push (extcodehash v a)
    return .next
  | .BLOCKHASH =>
    let _ ← pop
    push 0
    return .next
  | .CALLDATALOAD =>
    let off ← pop
    let data ← readData (← get).input off 32
    push (bytesToNat data)
    return .next
  | .CALLDATACOPY =>
    let memOff ← pop
    let dataOff ← pop
    let length ← pop
    copyData memOff dataOff length (← get).input
    return .next
  | .CODECOPY =>
    let memOff ← pop
    let codeOff ← pop
    let length ← pop
    copyData memOff codeOff length (← get).code
    return .next
  | .EXTCODECOPY =>
    let addr ← pop
    let memOff ← pop
    let codeOff ← pop
    let length ← pop
    chargeMem memOff length
    useGas (3 * toWordSize (uint64 length))
    let a ← wordToAddress addr
    let part ← readData (v.getCode a) codeOff (uint64 length)
    memSet (uint64 memOff) part
    return .next
  | .RETURNDATACOPY =>
    let memOff ← pop
    let dataOff ← pop
    let length ← pop
    let data := (← get).returnData
    failIf (!isUint64 (dataOff + length) || data.length < dataOff + length) .returnDataOutOfBounds
    chargeMem memOff length
    useGas (3 * toWordSize (uint64 length))
    let part ← slice data (uint64 dataOff).toNat (uint64 (dataOff + length)).toNat
    memSet (uint64 memOff) part
    return .next
  | .MCOPY =>
    let destOff ← pop
    let srcOff ← pop
    let length ← pop
    chargeMem destOff length
    chargeMem srcOff length
    useGas (3 * toWordSize (uint64 length))
    let data ← memGet (uint64 srcOff) (uint64 length)
    memSet (uint64 destOff) data
    return .next
  | .JUMP =>
    let dest ← pop
    jump dest
    return .next
  | .JUMPI =>
    let dest ← pop
    let cond ← pop
    if cond ≠ 0 then jump dest
    return .next
  | .JUMPDEST => return .next
  | .LOG n => opLog n
  | .CREATE => opCreate v false
  | .CREATE2 => opCreate v true
  | .CALL => opCall v .regular
  | .DELEGATECALL => opCall v .delegate
  | .STATICCALL => opCall v .static
  | .RETURN => return .ret (← readMem)
  | .REVERT => return .revert (← readMem)
  | .STOP | .PUSH _ | .DUP _ | .SWAP _ | .INVALID | .unknown _ => fail .invalidOpcode

/-- One turn of the loop of `run`: the static price, the instruction, and the step to the next one. -/
def dispatch (v : View) (op : OpCode) : OpM Action := do
  useGas op.gasCost
  match op with
  | .STOP => return .ret []
  | .PUSH n =>
    doPush n
    return .next
  | .DUP n =>
    dup n
    advance
    return .next
  | .SWAP n =>
    swap n
    advance
    return .next
  | op =>
    let act ← exec v op
    advance
    return act

end Lxs.Vm
