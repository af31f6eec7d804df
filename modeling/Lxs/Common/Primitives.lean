import Mathlib.Tactic

/-!
# Byte strings, hashes, addresses and the canonical encoder

A `Hash` is the 32-byte array of the source read as a big-endian number, an `Address` likewise with
20 bytes, so `bytes.Compare` is the order of numbers and `SetBytes`/`FillBytes` are the identity.
What the node takes from outside its own sources (Keccak-256, SHA-256, signature recovery and the
bn256 group) is the parameter `Crypto`.
-/

namespace Lxs

abbrev Bytes := List UInt8
abbrev Hash := BitVec 256
abbrev Address := BitVec 160

instance instTransOrdHash : Std.TransOrd Hash := inferInstance
instance instLawfulEqOrdHash : Std.LawfulEqOrd Hash := inferInstance
instance instTransOrdAddress : Std.TransOrd Address := inferInstance
instance instLawfulEqOrdAddress : Std.LawfulEqOrd Address := inferInstance

def zeroHash : Hash := 0
def zeroAddress : Address := 0

/-- The protocol's sink for destroyed value, `0x…dEaD`. -/
def burnAddress : Address := 0xdEaD

/-! ### Big-endian numbers -/

/-- The number `new(big.Int).SetBytes(b)`. -/
def bytesToNat (b : Bytes) : ℕ := b.foldl (fun n c => n * 256 + c.toNat) 0

def beBytesOnto : ℕ → ℕ → Bytes → Bytes
  | 0, _, b => b
  | w + 1, n, b => beBytesOnto w (n / 256) (UInt8.ofNat n :: b)

/-- The last `w` bytes of a number, the most significant first. -/
def beBytes (w n : ℕ) : Bytes := beBytesOnto w n []

/-- The `BitLen` of a non-negative integer. -/
def bitLen (n : ℕ) : ℕ := if n = 0 then 0 else n.log2 + 1

/-- The number of bytes `(x.BitLen() + 7) / 8`. -/
def byteLen (n : ℕ) : ℕ := (bitLen n + 7) / 8

/-- The bytes `big.Int.Bytes()`: the absolute value, big-endian and without leading zeros. -/
def bigBytes (v : ℤ) : Bytes := beBytes (byteLen v.natAbs) v.natAbs

def hashBytes (h : Hash) : Bytes := beBytes 32 h.toNat
def addressBytes (a : Address) : Bytes := beBytes 20 a.toNat

def hashToAddress (h : Hash) : Address := h.setWidth 160

/-! ### What lies outside the sources -/

/-- The primitives the node takes from other packages: `keccak256` is `sha3.NewLegacyKeccak256` over
the concatenated chunks, `recoverCompact` is `ecdsa.RecoverCompact` (signature, digest) with the key
as its 65 uncompressed bytes, and the last three are the bn256 group on marshalled points, `none`
when a point does not unmarshal. -/
class Crypto where
  keccak256 : Bytes → Hash
  sha256 : Bytes → Bytes
  recoverCompact : Bytes → Hash → Option Bytes
  g1Add : Bytes → Bytes → Option Bytes
  g1ScalarMult : Bytes → ℕ → Option Bytes
  pairingCheck : List (Bytes × Bytes) → Option Bool

export Crypto (keccak256)

/-- The primitives on finitely many inputs, for concrete runs: digests, by the length and the big-endian value of what
is hashed, and the keys recovered from signatures, by value and digest. -/
@[reducible]
def tableCrypto (digests : List ((ℕ × ℕ) × Hash)) (keys : List ((ℕ × Hash) × Bytes)) : Crypto where
  keccak256 b := (digests.lookup (b.length, bytesToNat b)).getD zeroHash
  sha256 _ := []
  recoverCompact sig digest := keys.lookup (bytesToNat sig, digest)
  g1Add _ _ := none
  g1ScalarMult _ _ := none
  pairingCheck _ := none

/-- What is hashed, of a given length, and its digest. -/
def digestRow (length : ℕ) (b : Bytes) (h : Hash) : (ℕ × ℕ) × Hash := ((length, bytesToNat b), h)

/-! The account of the private key 1: its public key, the digest of the key, and its address. -/

def senderKey : ℕ :=
  0x79be667ef9dcbbac55a06295ce870b07029bfcdb2dce28d959f2815b16f81798483ada7726a3c4655da4fbfc0e1108a8fd17b448a68554199c47d08ffb10d4b8

def senderPoint : Bytes := 4 :: beBytes 64 senderKey

def senderDigest : (ℕ × ℕ) × Hash := ((64, senderKey), 0xc0a6c424ac7157ae408398df7e5f4552091a69125d5dfcb7b8c2659029395bdf)

def senderAddr : Address := 0x7e5f4552091a69125d5dfcb7b8c2659029395bdf

/-! ### The canonical encoder -/

def encUint64 (v : UInt64) : Bytes := beBytes 8 v.toNat
def encInt64 (v : Int64) : Bytes := encUint64 v.toUInt64
def encBytes (b : Bytes) : Bytes := encUint64 (UInt64.ofNat b.length) ++ b
def encBigInt (v : Option ℤ) : Bytes :=
  match v with
  | none => encBytes []
  | some v => encBytes (bigBytes v)
def encOptionalAddress (a : Option Address) : Bytes :=
  match a with
  | none => [0]
  | some a => 1 :: addressBytes a

/-! ### Logs -/

/-- An event emitted with LOG0 to LOG4. -/
structure Log where
  address : Address
  topics : List Hash
  data : Bytes
  deriving DecidableEq

def Log.encodeInto (l : Log) : Bytes :=
  addressBytes l.address ++ encUint64 (UInt64.ofNat l.topics.length) ++ l.topics.flatMap hashBytes ++
    encBytes l.data

end Lxs
