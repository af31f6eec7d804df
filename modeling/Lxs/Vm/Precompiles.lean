import Lxs.Types.Tx
import Lxs.Vm.Machine

/-!
# Precompiled contracts

`vm/precompiles.go`, `vm/modexp.go`, `vm/bn256.go` and `vm/ripemd160.go`.
-/

namespace Lxs.Vm

/-! ### RIPEMD-160 -/

def rotl32 (x : UInt32) (n : ℕ) : UInt32 := (x <<< UInt32.ofNat n) ||| (x >>> UInt32.ofNat (32 - n))

def ripemdF (j : ℕ) (x y z : UInt32) : UInt32 :=
  if j < 16 then x ^^^ y ^^^ z
  else if j < 32 then (x &&& y) ||| (~~~x &&& z)
  else if j < 48 then (x ||| ~~~y) ^^^ z
  else if j < 64 then (x &&& z) ||| (y &&& ~~~z)
  else x ^^^ (y ||| ~~~z)

def ripemdKL (j : ℕ) : UInt32 :=
  if j < 16 then 0x00000000
  else if j < 32 then 0x5A827999
  else if j < 48 then 0x6ED9EBA1
  else if j < 64 then 0x8F1BBCDC
  else 0xA953FD4E

def ripemdKR (j : ℕ) : UInt32 :=
  if j < 16 then 0x50A28BE6
  else if j < 32 then 0x5C4DD124
  else if j < 48 then 0x6D703EF3
  else if j < 64 then 0x7A6D76E9
  else 0x00000000

def ripemdRL : List ℕ :=
  [0, 1, 2, 3, 4, 5, 6, 7, 8, 9, 10, 11, 12, 13, 14, 15,
   7, 4, 13, 1, 10, 6, 15, 3, 12, 0, 9, 5, 2, 14, 11, 8,
   3, 10, 14, 4, 9, 15, 8, 1, 2, 7, 0, 6, 13, 11, 5, 12,
   1, 9, 11, 10, 0, 8, 12, 4, 13, 3, 7, 15, 14, 5, 6, 2,
   4, 0, 5, 9, 7, 12, 2, 10, 14, 1, 3, 8, 11, 6, 15, 13]

def ripemdRR : List ℕ :=
  [5, 14, 7, 0, 9, 2, 11, 4, 13, 6, 15, 8, 1, 10, 3, 12,
   6, 11, 3, 7, 0, 13, 5, 10, 14, 15, 8, 12, 4, 9, 1, 2,
   15, 5, 1, 3, 7, 14, 6, 9, 11, 8, 12, 2, 10, 0, 4, 13,
   8, 6, 4, 1, 3, 11, 15, 0, 5, 12, 2, 13, 9, 7, 10, 14,
   12, 15, 10, 4, 1, 5, 8, 7, 6, 2, 13, 14, 0, 3, 9, 11]

def ripemdSL : List ℕ :=
  [11, 14, 15, 12, 5, 8, 7, 9, 11, 13, 14, 15, 6, 7, 9, 8,
   7, 6, 8, 13, 11, 9, 7, 15, 7, 12, 15, 9, 11, 7, 13, 12,
   11, 13, 6, 7, 14, 9, 13, 15, 14, 8, 13, 6, 5, 12, 7, 5,
   11, 12, 14, 15, 14, 15, 9, 8, 9, 14, 5, 6, 8, 6, 5, 12,
   9, 15, 5, 11, 6, 8, 13, 12, 5, 12, 13, 14, 11, 8, 5, 6]

def ripemdSR : List ℕ :=
  [8, 9, 9, 11, 13, 15, 15, 5, 7, 7, 8, 11, 14, 14, 12, 6,
   9, 13, 15, 7, 12, 8, 9, 11, 7, 7, 12, 7, 6, 15, 13, 11,
   9, 7, 15, 11, 8, 6, 6, 14, 12, 13, 5, 14, 13, 13, 7, 5,
   15, 5, 8, 11, 14, 14, 6, 14, 6, 9, 12, 9, 12, 5, 15, 8,
   8, 5, 12, 9, 12, 5, 14, 6, 8, 13, 6, 5, 15, 13, 11, 11]

structure RipemdState where
  a : UInt32
  b : UInt32
  c : UInt32
  d : UInt32
  e : UInt32

/-- One step of one line: the rotated sum enters at `b`. -/
def ripemdStep (h : RipemdState) (f k word : UInt32) (s : ℕ) : RipemdState :=
  ⟨h.e, rotl32 (h.a + f + word + k) s + h.e, h.b, rotl32 h.c 10, h.d⟩

/-- Both lines over one block of sixteen words, and the cross-over combine. -/
def ripemd160Block (h : RipemdState) (x : List UInt32) : RipemdState :=
  let lines := (List.range 80).foldl
    (fun (p : RipemdState × RipemdState) j =>
      (ripemdStep p.1 (ripemdF j p.1.b p.1.c p.1.d) (ripemdKL j) (x.getD (ripemdRL.getD j 0) 0) (ripemdSL.getD j 0),
       ripemdStep p.2 (ripemdF (79 - j) p.2.b p.2.c p.2.d) (ripemdKR j) (x.getD (ripemdRR.getD j 0) 0)
         (ripemdSR.getD j 0)))
    (h, h)
  ⟨h.b + lines.1.c + lines.2.d, h.c + lines.1.d + lines.2.e, h.d + lines.1.e + lines.2.a,
   h.e + lines.1.a + lines.2.b, h.a + lines.1.b + lines.2.c⟩

def leBytes (w n : ℕ) : Bytes := (beBytes w n).reverse
def leUint32 (b : Bytes) : UInt32 := UInt32.ofNat (bytesToNat b.reverse)

/-- The block number `i` of the padded message, as sixteen little-endian words. -/
def ripemdWords (padded : Bytes) (i : ℕ) : List UInt32 :=
  (List.range 16).map fun k => leUint32 ((padded.drop (64 * i + 4 * k)).take 4)

def ripemd160 (msg : Bytes) : Bytes :=
  let zeros := (64 + 55 - msg.length % 64) % 64
  let padded := msg ++ [0x80] ++ List.replicate zeros 0 ++ leBytes 8 (msg.length * 8)
  let h := (List.range (padded.length / 64)).foldl (fun h i => ripemd160Block h (ripemdWords padded i))
    ⟨0x67452301, 0xEFCDAB89, 0x98BADCFE, 0x10325476, 0xC3D2E1F0⟩
  [h.a, h.b, h.c, h.d, h.e].flatMap fun w => leBytes 4 w.toNat

/-! ### MODEXP -/

/-- The three length words, and kept as unbounded numbers. -/
def modexpHeader (input : Bytes) : ℕ × ℕ × ℕ :=
  (bytesToNat (getData input 0 32), bytesToNat (getData input 32 32), bytesToNat (getData input 64 32))

def adjustedFromHead (head base : ℕ) : ℕ := if head = 0 then base else base + (bitLen head - 1)

def multComplexity (x : ℕ) : ℤ :=
  if x ≤ 64 then x * x
  else if x ≤ 1024 then (x * x / 4 : ℕ) + 96 * x - 3072
  else (x * x / 16 : ℕ) + 480 * x - 199680

def modexpGas (input : Bytes) : UInt64 :=
  let (baseLen, expLen, modLen) := modexpHeader input
  let expOff := 96 + baseLen
  let adjExpLen :=
    if expLen ≤ 32 then adjustedFromHead (bytesToNat (getData input expOff (uint64 expLen))) 0
    else adjustedFromHead (bytesToNat (getData input expOff 32)) ((expLen - 32) * 8)
  let cost := multComplexity (max baseLen modLen) * (max adjExpLen 1 : ℕ) / 20
  if 0 ≤ cost ∧ cost < 2 ^ 64 then UInt64.ofNat cost.toNat else 0xFFFFFFFFFFFFFFFF

def modexpRun (input : Bytes) : Bytes :=
  let (baseLenB, expLenB, modLenB) := modexpHeader input
  let modLen := uint64 modLenB
  if modLen = 0 then []
  else
    let expOff := 96 + baseLenB
    let modOff := expOff + expLenB
    let base := bytesToNat (getData input 96 (uint64 baseLenB))
    let exp := bytesToNat (getData input expOff (uint64 expLenB))
    let mod := bytesToNat (getData input modOff modLen)
    if mod = 0 then List.replicate modLen.toNat 0 else beBytes modLen.toNat (expMod (bitLen exp) base exp mod)

/-! ### The table -/

/-- A native contract: its price, and its output or the error that fails the call. -/
structure Precompile where
  gas : Bytes → UInt64
  run : Bytes → Except VmError Bytes

def linearWordGas (base perWord : UInt64) (input : Bytes) : UInt64 :=
  base + perWord * toWordSize (UInt64.ofNat input.length)

def leftPad32 (b : Bytes) : Bytes := List.replicate 12 0 ++ b

variable [Crypto]

/-- The signer's address, or nothing for any invalid input. -/
def ecrecoverRun (input : Bytes) : Bytes :=
  let inp := window input 0 128
  if ((inp.drop 32).take 31).any (· ≠ 0) then []
  else
    let v := inp.getD 63 0
    if v ≠ 27 ∧ v ≠ 28 then []
    else
      match recoverAddress (BitVec.ofNat 256 (bytesToNat (inp.take 32))) (v :: (inp.drop 64).take 64) with
      | .error _ => []
      | .ok addr => leftPad32 (addressBytes addr)

def identityPrecompile : Precompile := ⟨linearWordGas 15 3, fun input => .ok input⟩
def sha256Precompile : Precompile := ⟨linearWordGas 60 12, fun input => .ok (Crypto.sha256 input)⟩
def ripemd160Precompile : Precompile :=
  ⟨linearWordGas 600 120, fun input => .ok (leftPad32 (ripemd160 input))⟩
def ecrecoverPrecompile : Precompile := ⟨fun _ => 3000, fun input => .ok (ecrecoverRun input)⟩
def modexpPrecompile : Precompile := ⟨modexpGas, fun input => .ok (modexpRun input)⟩

def bn256AddPrecompile : Precompile where
  gas _ := 150
  run input :=
    match Crypto.g1Add (getData input 0 64) (getData input 64 64) with
    | none => .error .badPoint
    | some p => .ok p

def bn256ScalarMulPrecompile : Precompile where
  gas _ := 6000
  run input :=
    match Crypto.g1ScalarMult (getData input 0 64) (bytesToNat (getData input 64 32)) with
    | none => .error .badPoint
    | some p => .ok p

def bn256PairSize : ℕ := 192

def bn256PairingPrecompile : Precompile where
  gas input := 45000 + UInt64.ofNat (input.length / bn256PairSize) * 34000
  run input :=
    if input.length % bn256PairSize ≠ 0 then .error .badPairingInput
    else
      let pairs := (List.range (input.length / bn256PairSize)).map fun i =>
        let term := (input.drop (bn256PairSize * i)).take bn256PairSize
        (term.take 64, term.drop 64)
      match Crypto.pairingCheck pairs with
      | none => .error .badPoint
      | some ok => .ok (List.replicate 31 0 ++ [if ok then 1 else 0])

def precompileFor (addr : Address) : Option Precompile :=
  match addr.toNat with
  | 1 => some ecrecoverPrecompile
  | 2 => some sha256Precompile
  | 3 => some ripemd160Precompile
  | 4 => some identityPrecompile
  | 5 => some modexpPrecompile
  | 6 => some bn256AddPrecompile
  | 7 => some bn256ScalarMulPrecompile
  | 8 => some bn256PairingPrecompile
  | _ => none

/-- Charge and run; a fault burns all the gas forwarded. -/
def runPrecompile (p : Precompile) (input : Bytes) (gas : UInt64) : Result :=
  let cost := p.gas input
  if gas < cost then ⟨[], 0, some .outOfGas⟩
  else
    match p.run input with
    | .error e => ⟨[], 0, some e⟩
    | .ok ret => ⟨ret, gas - cost, none⟩

end Lxs.Vm
