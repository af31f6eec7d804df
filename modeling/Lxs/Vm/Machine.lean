import Lxs.Vm.Opcodes

/-!
# Words, memory and the frame

`vm/stack.go`, `vm/memory.go` and the frame of `vm/interpreter.go`. Stack words are natural numbers
below `2 ^ 256`, top first. Slices may have any length, so an allocation never fails; an index or a slice
expression out of bounds and `FillBytes` of an oversized number are the panic `Fault.panic`.
-/

namespace Lxs.Vm

/-! ### Errors and results -/

inductive VmError
  | outOfGas | invalidJump | invalidOpcode | reverted | returnDataOutOfBounds | staticStateChange
  | maxCodeSize | stackUnderflow | stackOverflow | badPoint | badPairingInput
  deriving DecidableEq

structure Result where
  ret : Bytes
  gasLeft : UInt64
  err : Option VmError
  deriving DecidableEq

/-! ### Words -/

def tt256 : ℕ := 2 ^ 256
def tt255 : ℕ := 2 ^ 255

/-- The low 256 bits. -/
def wrap (v : ℤ) : ℕ := (v % tt256).toNat

def toSigned (x : ℕ) : ℤ := if x < tt255 then x else (x : ℤ) - tt256
def toUnsigned (x : ℤ) : ℤ := x % tt256

def isUint64 (w : ℕ) : Bool := w < 2 ^ 64

/-- The word read as `uint64`, low bits first. -/
def uint64 (w : ℕ) : UInt64 := UInt64.ofNat w

/-- The power `x ** y mod m` by squaring; `bitLen y` is enough fuel. -/
def expMod : ℕ → ℕ → ℕ → ℕ → ℕ
  | 0, _, _, m => 1 % m
  | fuel + 1, x, y, m =>
    if y = 0 then 1 % m
    else
      let r := expMod fuel (x * x % m) (y / 2) m
      if y % 2 = 1 then r * x % m else r

def boolToInt (b : Bool) : ℤ := if b then 1 else 0

/-- The result of a two-operand operation before it is reduced to 256 bits. -/
def BinOp.value (a b : ℕ) : BinOp → ℤ
  | ADD => a + b
  | MUL => a * b
  | SUB => a - b
  | DIV => if b = 0 then 0 else a / b
  | SDIV => if toSigned b = 0 then 0 else toUnsigned (Int.tdiv (toSigned a) (toSigned b))
  | MOD => if b = 0 then 0 else a % b
  | SMOD => if toSigned b = 0 then 0 else toUnsigned (Int.tmod (toSigned a) (toSigned b))
  | SIGNEXTEND =>
    if 31 < a then b
    else
      let bitPos := 8 * a + 7
      let mask := 2 ^ (bitPos + 1) - 1
      if b.testBit bitPos then ((b ||| ((tt256 - 1) ^^^ mask) : ℕ) : ℤ) else ((b &&& mask : ℕ) : ℤ)
  | BYTE => if 32 ≤ a then 0 else (((b >>> (8 * (31 - a))) &&& 0xff : ℕ) : ℤ)
  | EXP => expMod (bitLen b) a b tt256
  | LT => boolToInt (a < b)
  | GT => boolToInt (b < a)
  | SLT => boolToInt (toSigned a < toSigned b)
  | SGT => boolToInt (toSigned b < toSigned a)
  | EQ => boolToInt (a = b)
  | AND => ((a &&& b : ℕ) : ℤ)
  | OR => ((a ||| b : ℕ) : ℤ)
  | XOR => ((a ^^^ b : ℕ) : ℤ)
  | SHL => if 256 ≤ a then 0 else ((b <<< a : ℕ) : ℤ)
  | SHR => if 256 ≤ a then 0 else ((b >>> a : ℕ) : ℤ)
  | SAR =>
    if 256 ≤ a then (if toSigned b < 0 then ((tt256 - 1 : ℕ) : ℤ) else 0)
    else toUnsigned (toSigned b >>> a)

/-! ### Memory -/

/-- The `size` bytes at `offset`, zero-padded past the end of the data. -/
def window (data : Bytes) (offset size : ℕ) : Bytes :=
  let part := (data.drop offset).take size
  part ++ List.replicate (size - part.length) 0

def toWordSize (n : UInt64) : UInt64 := (n + 31) / 32

def memoryCost (words : UInt64) : UInt64 := words * 3 + (words * words) / 512

def maxMemBytes : UInt64 := 4294967296

/-- The gas to make `[offset, offset + size)` addressable, `none` when it cannot be paid. -/
def expansionGas (mem : Bytes) (offset size : UInt64) : Option UInt64 :=
  if size = 0 then some 0
  else
    let stop := offset + size
    if stop < offset then none
    else if maxMemBytes < stop then none
    else
      let newWords := toWordSize stop
      let oldWords := toWordSize (UInt64.ofNat mem.length)
      if newWords ≤ oldWords then some 0 else some (memoryCost newWords - memoryCost oldWords)

def resize (mem : Bytes) (size : UInt64) : Bytes := mem ++ List.replicate (size.toNat - mem.length) 0

/-- A read that never faults: out of range is zero. -/
def getData (data : Bytes) (offset : ℕ) (size : UInt64) : Bytes :=
  if size = 0 || !isUint64 offset then List.replicate size.toNat 0 else window data offset size.toNat

/-! ### The frame -/

def maxStack : ℕ := 1024
def maxCallDepth : ℕ := 1024
def maxCodeSize : ℕ := 24576

/-- The environment of a call frame. Its `State` is passed beside it; the optional numbers of the
source read as zero when unset. -/
structure Context where
  address : Address
  caller : Address
  value : ℤ
  blockGasLimit : UInt64
  origin : Address
  gasPrice : ℤ
  coinbase : Address
  blockNumber : UInt64
  time : UInt64
  difficulty : ℤ
  chainID : UInt64
  baseFee : ℤ
  static : Bool
  deriving DecidableEq

structure Interp where
  code : Bytes
  input : Bytes
  stack : List ℕ
  mem : Bytes
  pc : ℕ
  gas : UInt64
  jumps : List Bool
  jumped : Bool
  ctx : Context
  depth : ℕ
  returnData : Bytes
  deriving DecidableEq

/-- The frame `execute` starts with. -/
def newInterp (code input : Bytes) (gas : UInt64) (ctx : Context) (depth : ℕ) : Interp :=
  ⟨code, input, [], [], 0, gas, analyseJumpdests code, false, ctx, depth, []⟩

/-- Why an instruction did not complete. -/
inductive Fault
  | err (e : VmError)
  | panic
  deriving DecidableEq

/-- Instructions work on the frame and may fault. -/
abbrev OpM := StateT Interp (Except Fault)

def fail {α : Type} (e : VmError) : OpM α := throw (.err e)

/-- The early return `if c { return e }`. -/
def failIf (c : Prop) [Decidable c] (e : VmError) : OpM Unit := if c then fail e else pure ()

/-- The expression `l[i]`, which panics when the index is out of range. -/
def index {α : Type} (l : List α) (i : ℕ) : OpM α :=
  match l[i]? with
  | some x => return x
  | none => throw .panic

/-- The expression `data[lo:hi]`, which panics unless `lo ≤ hi ≤ len(data)`. -/
def slice (data : Bytes) (lo hi : ℕ) : OpM Bytes :=
  if lo ≤ hi ∧ hi ≤ data.length then return (data.drop lo).take (hi - lo) else throw .panic

/-- A buffer of `size` zeros with a part copied to its front. -/
def padded (part : Bytes) (size : UInt64) : Bytes := part ++ List.replicate (size.toNat - part.length) 0

/-! ### Stack and gas -/

def push (v : ℤ) : OpM Unit := do
  failIf (maxStack ≤ (← get).stack.length) .stackOverflow
  modify fun m => { m with stack := wrap v :: m.stack }

def pop : OpM ℕ := do
  match (← get).stack with
  | [] => fail .stackUnderflow
  | v :: stack =>
    modify fun m => { m with stack := stack }
    return v

def popIf (c : Prop) [Decidable c] : OpM ℕ := if c then pop else pure 0

def dup (n : ℕ) : OpM Unit := do
  let stack := (← get).stack
  failIf (stack.length ≤ n - 1) .stackUnderflow
  let v ← index stack (n - 1)
  push v

def swap (n : ℕ) : OpM Unit := do
  let stack := (← get).stack
  failIf (stack.length ≤ n) .stackUnderflow
  let top ← index stack 0
  let v ← index stack n
  modify fun m => { m with stack := (stack.set 0 v).set n top }

def useGas (cost : UInt64) : OpM Unit := do
  failIf ((← get).gas < cost) .outOfGas
  modify fun m => { m with gas := m.gas - cost }

/-! ### Memory of the frame -/

/-- Pay for `[off, off + size)` and grow the memory to it. -/
def chargeMem (off size : ℕ) : OpM Unit := do
  if size = 0 then return
  failIf (!isUint64 off || !isUint64 size) .outOfGas
  match expansionGas (← get).mem (uint64 off) (uint64 size) with
  | none => fail .outOfGas
  | some gas =>
    useGas gas
    modify fun m => { m with mem := resize m.mem (uint64 off + uint64 size) }

/-- Read the memory, zero past its end; the slice expression panics when `offset + size` wraps. -/
def memGet (offset size : UInt64) : OpM Bytes := do
  let mem := (← get).mem
  if size = 0 ∨ mem.length ≤ offset.toNat then return padded [] size
  let part ← slice mem offset.toNat (min (offset + size).toNat mem.length)
  return padded part size

/-- `getData` for an instruction: the slice expression panics when `off + size` wraps. A list of `2 ^ 63` bytes or more
stands for no slice, and the end of the window is not reduced in it. -/
def readData (data : Bytes) (offset : ℕ) (size : UInt64) : OpM Bytes := do
  if size = 0 ∨ !isUint64 offset ∨ data.length ≤ offset then return padded [] size
  let stop := if data.length < 2 ^ 63 then (uint64 offset + size).toNat else offset + size.toNat
  let part ← slice data offset (min stop data.length)
  return padded part size

/-- Write into the memory; the slice expression panics when the window is not there. -/
def memSet (offset : UInt64) (val : Bytes) : OpM Unit := do
  if val.length = 0 then return
  let mem := (← get).mem
  if mem.length < offset.toNat + val.length then throw .panic
  modify fun m => { m with mem := mem.take offset.toNat ++ val ++ mem.drop (offset.toNat + val.length) }

def memSet32 (offset : UInt64) (val : ℕ) : OpM Unit := do
  if tt256 ≤ val then throw .panic
  memSet offset (beBytes 32 val)

def readMem : OpM Bytes := do
  let off ← pop
  let size ← pop
  chargeMem off size
  memGet (uint64 off) (uint64 size)

/-- The word as 32 bytes; `FillBytes` panics when it does not fit. -/
def wordToHash (w : ℕ) : OpM Hash := do
  if tt256 ≤ w then throw .panic
  return BitVec.ofNat 256 w

def wordToAddress (w : ℕ) : OpM Address := do
  return hashToAddress (← wordToHash w)

/-! ### Control -/

def jump (dest : ℕ) : OpM Unit := do
  failIf (!isUint64 dest) .invalidJump
  let jumps := (← get).jumps
  failIf (jumps.length ≤ dest) .invalidJump
  let valid ← index jumps dest
  failIf (!valid) .invalidJump
  modify fun m => { m with pc := dest, jumped := true }

/-- The loop over the `n` bytes after a push, zero past the end of the code. -/
def pushData (code : Bytes) (start : ℕ) : ℕ → OpM Bytes
  | 0 => return []
  | n + 1 => do
    let b ← if start < code.length then index code start else pure 0
    let rest ← pushData code (start + 1) n
    return b :: rest

def doPush (n : ℕ) : OpM Unit := do
  let m ← get
  let data ← pushData m.code (m.pc + 1) n
  modify fun m => { m with pc := m.pc + 1 + n }
  push (bytesToNat data)

def advance : OpM Unit :=
  modify fun m => if m.jumped then { m with jumped := false } else { m with pc := m.pc + 1 }

end Lxs.Vm
