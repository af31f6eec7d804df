import Lxs.Common.Primitives

/-!
# Opcodes and the gas schedule

`vm/opcodes.go`. The byte of an instruction is decoded into an inductive type; the two-operand
operations and the ones that only push a value of the frame are grouped.
-/

namespace Lxs.Vm

/-- The operations `binop` handles, first operand on top. -/
inductive BinOp
  | ADD | MUL | SUB | DIV | SDIV | MOD | SMOD | SIGNEXTEND | EXP
  | LT | GT | SLT | SGT | EQ | AND | OR | XOR | BYTE | SHL | SHR | SAR
  deriving DecidableEq

/-- The operations that push one value read from the frame, its environment or its own account. -/
inductive EnvOp
  | ADDRESS | SELFBALANCE | CALLER | ORIGIN | GASPRICE | COINBASE | TIMESTAMP | NUMBER | DIFFICULTY
  | CHAINID | BASEFEE | CALLVALUE | GASLIMIT | CALLDATASIZE | CODESIZE | PUSH0 | PC | MSIZE | GAS
  | RETURNDATASIZE
  deriving DecidableEq

inductive OpCode
  | STOP
  | bin (op : BinOp)
  | ADDMOD | MULMOD
  | SHA3
  | ISZERO | NOT
  | POP | MLOAD | MSTORE | MSTORE8 | SLOAD | SSTORE
  | env (op : EnvOp)
  | BALANCE | EXTCODESIZE | EXTCODEHASH | BLOCKHASH
  | CALLDATALOAD | CALLDATACOPY | CODECOPY | EXTCODECOPY | RETURNDATACOPY | MCOPY
  | JUMP | JUMPI | JUMPDEST
  | PUSH (n : ℕ) | DUP (n : ℕ) | SWAP (n : ℕ)
  /-- with the number of indexed topics -/
  | LOG (n : Fin 5)
  | CREATE | CREATE2 | CALL | DELEGATECALL | STATICCALL
  | RETURN | REVERT | INVALID
  | unknown (b : UInt8)
  deriving DecidableEq

def decode (b : UInt8) : OpCode :=
  let n := b.toNat
  if 0x60 ≤ n ∧ n ≤ 0x7f then .PUSH (n - 0x60 + 1)
  else if 0x80 ≤ n ∧ n ≤ 0x8f then .DUP (n - 0x80 + 1)
  else if 0x90 ≤ n ∧ n ≤ 0x9f then .SWAP (n - 0x90 + 1)
  else if h : 0xa0 ≤ n ∧ n ≤ 0xa4 then .LOG ⟨n - 0xa0, by omega⟩
  else
    match n with
    | 0x00 => .STOP
    | 0x01 => .bin .ADD
    | 0x02 => .bin .MUL
    | 0x03 => .bin .SUB
    | 0x04 => .bin .DIV
    | 0x05 => .bin .SDIV
    | 0x06 => .bin .MOD
    | 0x07 => .bin .SMOD
    | 0x08 => .ADDMOD
    | 0x09 => .MULMOD
    | 0x0a => .bin .EXP
    | 0x0b => .bin .SIGNEXTEND
    | 0x10 => .bin .LT
    | 0x11 => .bin .GT
    | 0x12 => .bin .SLT
    | 0x13 => .bin .SGT
    | 0x14 => .bin .EQ
    | 0x15 => .ISZERO
    | 0x16 => .bin .AND
    | 0x17 => .bin .OR
    | 0x18 => .bin .XOR
    | 0x19 => .NOT
    | 0x1a => .bin .BYTE
    | 0x1b => .bin .SHL
    | 0x1c => .bin .SHR
    | 0x1d => .bin .SAR
    | 0x20 => .SHA3
    | 0x30 => .env .ADDRESS
    | 0x31 => .BALANCE
    | 0x32 => .env .ORIGIN
    | 0x33 => .env .CALLER
    | 0x34 => .env .CALLVALUE
    | 0x35 => .CALLDATALOAD
    | 0x36 => .env .CALLDATASIZE
    | 0x37 => .CALLDATACOPY
    | 0x38 => .env .CODESIZE
    | 0x39 => .CODECOPY
    | 0x3a => .env .GASPRICE
    | 0x3b => .EXTCODESIZE
    | 0x3c => .EXTCODECOPY
    | 0x3d => .env .RETURNDATASIZE
    | 0x3e => .RETURNDATACOPY
    | 0x3f => .EXTCODEHASH
    | 0x40 => .BLOCKHASH
    | 0x41 => .env .COINBASE
    | 0x42 => .env .TIMESTAMP
    | 0x43 => .env .NUMBER
    | 0x44 => .env .DIFFICULTY
    | 0x45 => .env .GASLIMIT
    | 0x46 => .env .CHAINID
    | 0x47 => .env .SELFBALANCE
    | 0x48 => .env .BASEFEE
    | 0x50 => .POP
    | 0x51 => .MLOAD
    | 0x52 => .MSTORE
    | 0x53 => .MSTORE8
    | 0x54 => .SLOAD
    | 0x55 => .SSTORE
    | 0x56 => .JUMP
    | 0x57 => .JUMPI
    | 0x58 => .env .PC
    | 0x59 => .env .MSIZE
    | 0x5a => .env .GAS
    | 0x5b => .JUMPDEST
    | 0x5e => .MCOPY
    | 0x5f => .env .PUSH0
    | 0xf0 => .CREATE
    | 0xf1 => .CALL
    | 0xf3 => .RETURN
    | 0xf4 => .DELEGATECALL
    | 0xf5 => .CREATE2
    | 0xfa => .STATICCALL
    | 0xfd => .REVERT
    | 0xfe => .INVALID
    | _ => .unknown b

/-! ### Gas -/

def logGas : UInt64 := 375
def logTopicGas : UInt64 := 375
def logDataGas : UInt64 := 8
def callBaseGas : UInt64 := 700
def callValueGas : UInt64 := 9000
def keccak256Gas : UInt64 := 30
def keccak256WordGas : UInt64 := 6
def createGas : UInt64 := 32000
def createDataGas : UInt64 := 200
def sloadGas : UInt64 := 800
def sstoreSetGas : UInt64 := 20000
def sstoreResetGas : UInt64 := 5000
def sstoreNoopGas : UInt64 := 800

def sstoreGas (cur next : Hash) : UInt64 :=
  if cur = next then sstoreNoopGas else if cur = zeroHash then sstoreSetGas else sstoreResetGas

def BinOp.gasCost : BinOp → UInt64
  | MUL | DIV | MOD | SDIV | SMOD | SIGNEXTEND => 5
  | EXP => 10
  | ADD | SUB | LT | GT | EQ | SLT | SGT | AND | OR | XOR | SHL | SHR | SAR | BYTE => 3

def EnvOp.gasCost : EnvOp → UInt64
  | SELFBALANCE => 5
  | _ => 2

/-- The static price of an instruction. Free here are the ones that end the frame, fault, or charge
themselves. -/
def OpCode.gasCost : OpCode → UInt64
  | bin op => op.gasCost
  | env op => op.gasCost
  | ADDMOD | MULMOD | JUMP => 8
  | SHA3 => keccak256Gas
  | ISZERO | NOT | MLOAD | MSTORE | MSTORE8 | MCOPY => 3
  | CALLDATALOAD | CALLDATACOPY | CODECOPY | RETURNDATACOPY => 3
  | PUSH _ | DUP _ | SWAP _ => 3
  | POP => 2
  | BALANCE | EXTCODESIZE | EXTCODEHASH | EXTCODECOPY => 700
  | BLOCKHASH => 20
  | JUMPI => 10
  | JUMPDEST => 1
  | SLOAD => sloadGas
  | STOP | SSTORE | LOG _ | CREATE | CREATE2 | CALL | DELEGATECALL | STATICCALL => 0
  | RETURN | REVERT | INVALID | unknown _ => 0

/-! ### Jump destinations -/

/-- The marks of the `JUMPDEST` bytes, `skip` bytes of push data still to pass over. -/
def scanJumpdests : ℕ → Bytes → List Bool
  | _, [] => []
  | skip + 1, _ :: code => false :: scanJumpdests skip code
  | 0, b :: code =>
    match decode b with
    | .JUMPDEST => true :: scanJumpdests 0 code
    | .PUSH n => false :: scanJumpdests n code
    | _ => false :: scanJumpdests 0 code

/-- A `0x5b` inside push data is data, not a destination. -/
def analyseJumpdests (code : Bytes) : List Bool := scanJumpdests 0 code

end Lxs.Vm
