import Lxs.Common.Primitives

/-!
# Recursive length prefix encoding

The encoder of package `rlp`, and the second, smaller encoder of package `state` that only derives
contract addresses.
-/

namespace Lxs.Rlp

def bigEndian (x : UInt64) : Bytes := beBytes 8 x.toNat

def trimLeadingZeros (b : Bytes) : Bytes := b.dropWhile (· = 0)

def lengthPrefix (n : ℕ) (offset : UInt8) : Bytes :=
  if n < 56 then [offset + UInt8.ofNat n]
  else
    let lb := trimLeadingZeros (bigEndian (UInt64.ofNat n))
    (offset + 55 + UInt8.ofNat lb.length) :: lb

def bytes (b : Bytes) : Bytes :=
  match b with
  | [c] => if c < 0x80 then [c] else lengthPrefix 1 0x80 ++ [c]
  | b => lengthPrefix b.length 0x80 ++ b

def uint (x : UInt64) : Bytes := bytes (trimLeadingZeros (bigEndian x))

/-- A non-negative integer; `nil` encodes like zero. -/
def big (x : Option ℤ) : Bytes :=
  match x with
  | none => bytes []
  | some x => if x = 0 then bytes [] else bytes (bigBytes x)

def list (items : List Bytes) : Bytes :=
  lengthPrefix items.flatten.length 0xc0 ++ items.flatten

end Lxs.Rlp
