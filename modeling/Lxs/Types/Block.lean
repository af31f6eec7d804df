import Lxs.Types.Tx

/-!
# Merkle roots, receipts, headers and blocks
-/

namespace Lxs

variable [Crypto]

/-! ### Merkle roots -/

def hashLeaf (data : Bytes) : Hash := keccak256 (0x00 :: data)
def hashNode (l r : Hash) : Hash := keccak256 (0x01 :: (hashBytes l ++ hashBytes r))

/-- One pass over a layer: neighbours are hashed together, an odd last node is promoted. -/
def nextLayer : List Hash → List Hash
  | l :: r :: layer => hashNode l r :: nextLayer layer
  | layer => layer

/-- The loop `for len(layer) > 1`; a pass shortens the layer, so its length is enough fuel. -/
def reduceLayers : ℕ → List Hash → Hash
  | 0, layer => layer.headD zeroHash
  | n + 1, layer => if 1 < layer.length then reduceLayers n (nextLayer layer) else layer.headD zeroHash

def merkleRoot (leaves : List Bytes) : Hash :=
  if leaves.length = 0 then zeroHash else reduceLayers leaves.length (leaves.map hashLeaf)

def txRoot (txs : List Transaction) : Hash := merkleRoot (txs.map fun tx => hashBytes tx.hash)

/-! ### Receipts -/

inductive ReceiptStatus
  | failed | success
  deriving DecidableEq

def ReceiptStatus.code : ReceiptStatus → UInt64
  | .failed => 0
  | .success => 1

structure Receipt where
  status : UInt64
  cumulativeGasUsed : UInt64
  gasUsed : UInt64
  logs : List Log
  deriving DecidableEq

def Receipt.encode (r : Receipt) : Bytes :=
  encUint64 r.status ++ encUint64 r.cumulativeGasUsed ++ encUint64 r.gasUsed ++
    encUint64 (UInt64.ofNat r.logs.length) ++ r.logs.flatMap Log.encodeInto

def receiptRoot (receipts : List Receipt) : Hash := merkleRoot (receipts.map Receipt.encode)

/-! ### Headers and blocks -/

structure Header where
  parentHash : Hash
  height : UInt64
  /-- unix milliseconds -/
  timestamp : Int64
  txRoot : Hash
  receiptRoot : Hash
  stateRoot : Hash
  gasUsed : UInt64
  gasLimit : UInt64
  proposer : Address
  difficulty : UInt64
  nonce : UInt64
  deriving DecidableEq

def Header.message (h : Header) : Bytes :=
  hashBytes h.parentHash ++ encUint64 h.height ++ encInt64 h.timestamp ++ hashBytes h.txRoot ++ hashBytes h.receiptRoot ++
    hashBytes h.stateRoot ++ encUint64 h.gasUsed ++ encUint64 h.gasLimit ++ addressBytes h.proposer ++
    encUint64 h.difficulty ++ encUint64 h.nonce

def Header.hash (h : Header) : Hash := keccak256 h.message

structure Block where
  header : Header
  txs : List Transaction
  deriving DecidableEq

namespace Block

variable (b : Block)

def hash : Hash := b.header.hash
def height : UInt64 := b.header.height

def verifyTxRoot : Bool := txRoot b.txs = b.header.txRoot

end Block

/-- A block as decoded from the wire, where a transaction may be `nil`. -/
structure WireBlock where
  header : Header
  txs : List (Option Transaction)
  deriving DecidableEq

/-- The block itself, `none` when an element is `nil`. -/
def WireBlock.block? (w : WireBlock) : Option Block := (w.txs.mapM id).map fun txs => ⟨w.header, txs⟩

def Block.toWire (b : Block) : WireBlock := ⟨b.header, b.txs.map some⟩

end Lxs
