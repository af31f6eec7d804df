import Lxs.Types.Rlp

/-!
# Transactions

`types/tx.go`, the signing side of `types/eth.go`, and the recovery half of `crypto/keys.go`.
A `nil` value or gas price is `none`; the cached hash and sender of the source are recomputed.
-/

namespace Lxs

variable [Crypto]

/-! ### Signature recovery -/

def signatureLength : ℕ := 65

/-- Half the order of the secp256k1 group, `N >> 1`. -/
def halfOrder : ℕ := 0xFFFFFFFFFFFFFFFFFFFFFFFFFFFFFFFEBAAEDCE6AF48A03BBFD25E8CD0364141 / 2

inductive CryptoError
  | badLength | highS | library
  deriving DecidableEq

def checkLowS (sig : Bytes) : Except CryptoError Unit :=
  if sig.length ≠ signatureLength then .error .badLength
  else if halfOrder < bytesToNat ((sig.drop 33).take 32) then .error .highS
  else .ok ()

def recover (digest : Hash) (sig : Bytes) : Except CryptoError Bytes := do
  checkLowS sig
  if sig.length ≠ signatureLength then throw .badLength
  match Crypto.recoverCompact sig digest with
  | none => .error .library
  | some raw => .ok raw

def recoverAddress (digest : Hash) (sig : Bytes) : Except CryptoError Address := do
  let raw ← recover digest sig
  return hashToAddress (keccak256 (raw.drop 1))

/-! ### The transaction -/

structure Transaction where
  txType : UInt8
  chainID : UInt64
  nonce : UInt64
  /-- no recipient means contract creation -/
  toAddr : Option Address
  value : Option ℤ
  gasLimit : UInt64
  gasPrice : Option ℤ
  data : Bytes
  sig : Bytes
  deriving DecidableEq

def txTypeTransfer : UInt8 := 0x00
def txTypeEthLegacy : UInt8 := 0x64

def isKnownTxType (t : UInt8) : Bool := t = txTypeTransfer || t = txTypeEthLegacy

inductive TxCheckError
  | txType | chainID | negativeValue | negativeGasPrice | intrinsicGas | unsigned | badSignature
  deriving DecidableEq

namespace Transaction

variable (tx : Transaction)

def addrBytes (toAddr : Option Address) : Bytes :=
  match toAddr with
  | none => []
  | some a => addressBytes a

def ethSigningHash : Hash :=
  keccak256 (Rlp.list [Rlp.uint tx.nonce, Rlp.big tx.gasPrice, Rlp.uint tx.gasLimit,
    Rlp.bytes (addrBytes tx.toAddr), Rlp.big tx.value, Rlp.bytes tx.data, Rlp.uint tx.chainID,
    Rlp.bytes [], Rlp.bytes []])

def nativeMessage : Bytes :=
  encUint64 tx.txType.toUInt64 ++ encUint64 tx.chainID ++ encUint64 tx.nonce ++ encOptionalAddress tx.toAddr ++
    encBigInt tx.value ++ encUint64 tx.gasLimit ++ encBigInt tx.gasPrice ++ encBytes tx.data

def signingHash : Hash :=
  if tx.txType = txTypeEthLegacy then tx.ethSigningHash else keccak256 tx.nativeMessage

/-- The signed RLP of a legacy transaction, `v` rebuilt from the chain id and the recovery id. -/
def encodeEthRaw : Bytes :=
  if tx.sig.length ≠ 65 then []
  else
    let recid := (tx.sig.headD 0 - 27).toUInt64
    let v := tx.chainID * 2 + 35 + recid
    let r := bytesToNat ((tx.sig.drop 1).take 32)
    let s := bytesToNat ((tx.sig.drop 33).take 32)
    Rlp.list [Rlp.uint tx.nonce, Rlp.big tx.gasPrice, Rlp.uint tx.gasLimit,
      Rlp.bytes (addrBytes tx.toAddr), Rlp.big tx.value, Rlp.bytes tx.data, Rlp.uint v,
      Rlp.big (some r), Rlp.big (some s)]

def ethRawHash : Hash := keccak256 tx.encodeEthRaw

def hash : Hash :=
  if tx.txType = txTypeEthLegacy ∧ tx.sig.length = 65 then tx.ethRawHash
  else keccak256 (hashBytes tx.signingHash ++ encBytes tx.sig)

def sender : Except TxCheckError Address :=
  if tx.sig.length ≠ signatureLength then .error .unsigned
  else
    match recoverAddress tx.signingHash tx.sig with
    | .error _ => .error .badSignature
    | .ok addr => .ok addr

end Transaction

/-! ### Intrinsic gas -/

def intrinsicGas : UInt64 := 21000
def txGasContractCreation : UInt64 := 53000
def txDataNonZeroGas : UInt64 := 16
def txDataZeroGas : UInt64 := 4

def intrinsicGasFor (data : Bytes) (isCreate : Bool) : UInt64 :=
  data.foldl (fun gas b => if b = 0 then gas + txDataZeroGas else gas + txDataNonZeroGas)
    (if isCreate then txGasContractCreation else intrinsicGas)

namespace Transaction

variable (tx : Transaction)

def isNonneg (v : Option ℤ) : Bool :=
  match v with
  | none => false
  | some v => 0 ≤ v

omit [Crypto] in
theorem exists_of_isNonneg {v : Option ℤ} (h : isNonneg v = true) : ∃ x, v = some x ∧ 0 ≤ x := by
  cases v with
  | none => cases h
  | some x => exact ⟨x, rfl, by simpa [isNonneg] using h⟩

/-- The stateless validation of a transaction, cheap checks first. -/
def sanityCheck (chainID : UInt64) : Except TxCheckError Unit :=
  if !isKnownTxType tx.txType then .error .txType
  else if tx.chainID ≠ chainID then .error .chainID
  else if !isNonneg tx.value then .error .negativeValue
  else if !isNonneg tx.gasPrice then .error .negativeGasPrice
  else if tx.gasLimit < intrinsicGasFor tx.data tx.toAddr.isNone then .error .intrinsicGas
  else if tx.sig.length ≠ signatureLength then .error .unsigned
  else tx.sender.map fun _ => ()

/-- The most the sender must afford, `none` when a `nil` field makes the source panic. -/
def cost : Option ℤ := do
  let price ← tx.gasPrice
  let value ← tx.value
  return tx.gasLimit.toNat * price + value

end Transaction

/-! ### Transactions of one account

For concrete runs: native transactions of the account of `senderKey`, each with the digest that is signed and its hash. -/

def signedDigests (txs : List (Transaction × Hash × Hash)) : List ((ℕ × ℕ) × Hash) :=
  senderDigest :: txs.flatMap fun t =>
    [digestRow t.1.nativeMessage.length t.1.nativeMessage t.2.1, digestRow 105 (hashBytes t.2.1 ++ encBytes t.1.sig) t.2.2]

def signedKeys (txs : List (Transaction × Hash × Hash)) : List ((ℕ × Hash) × Bytes) :=
  txs.map fun t => ((bytesToNat t.1.sig, t.2.1), senderPoint)

@[reducible]
def signedCrypto (txs : List (Transaction × Hash × Hash)) (digests : List ((ℕ × ℕ) × Hash)) : Crypto :=
  tableCrypto (signedDigests txs ++ digests) (signedKeys txs)

end Lxs
