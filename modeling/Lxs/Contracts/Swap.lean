import Mathlib.Data.Nat.Sqrt
import Lxs.Contracts.Peg

/-!
# The pair of LxsSwap

`LxsSwapPair` of `LxsSwap.sol`, over two standard tokens: a token is the balances it keeps, its transfers are exact and call
nobody. `swap` sends first and checks afterwards; what the recipient's code does in between is part of the message.

* `sqrt_eq`: the Newton loop computes the integer square root.
* `sqrt_exact`: **it ends, and no operation of it is one that the compiler's checks refuse.**
* `liquidity_kept`: **no call takes value from a unit of liquidity**, whatever its callbacks do.
-/

namespace Lxs.Contracts

def checkedMul (a b : ℕ) : Option ℕ := if a * b < 2 ^ 256 then some (a * b) else none

/-- A division by zero reverts. -/
def checkedDiv (a b : ℕ) : Option ℕ := if b = 0 then none else some (a / b)

theorem checkedMul_some {a b c : ℕ} (h : checkedMul a b = some c) : c = a * b := by
  unfold checkedMul at h
  split_ifs at h
  cases h
  rfl

theorem checkedDiv_some {a b c : ℕ} (h : checkedDiv a b = some c) : 0 < b ∧ c = a / b := by
  unfold checkedDiv at h
  split_ifs at h with hb
  cases h
  exact ⟨Nat.pos_of_ne_zero hb, rfl⟩

variable {a b : ℕ}

theorem checkedAdd_eq (h : a + b < 2 ^ 256) : checkedAdd a b = some (a + b) := if_pos h

theorem checkedSub_eq (h : b ≤ a) : checkedSub a b = some (a - b) := if_pos h

theorem checkedMul_eq (h : a * b < 2 ^ 256) : checkedMul a b = some (a * b) := if_pos h

theorem checkedDiv_eq (h : 0 < b) : checkedDiv a b = some (a / b) := if_neg h.ne'

/-! ### A standard token -/

abbrev Ledger := Address → ℕ

def Ledger.transfer (t : Ledger) (source recipient : Address) (value : ℕ) : Option Ledger := do
  let rest ← checkedSub (t source) value
  let t := Function.update t source rest
  let bal ← checkedAdd (t recipient) value
  return Function.update t recipient bal

def Ledger.add (t : Ledger) (recipient : Address) (value : ℕ) : Option Ledger := do
  let bal ← checkedAdd (t recipient) value
  return Function.update t recipient bal

def Ledger.take (t : Ledger) (source : Address) (value : ℕ) : Option Ledger := do
  let rest ← checkedSub (t source) value
  return Function.update t source rest

/-- `_mint` of a token with a supply: the supply and the balances after it. -/
def Ledger.issue (t : Ledger) (supply : ℕ) (recipient : Address) (value : ℕ) : Option (ℕ × Ledger) := do
  let supply ← checkedAdd supply value
  let bal ← checkedAdd (t recipient) value
  return (supply, Function.update t recipient bal)

/-- `_burn` of a token with a supply. -/
def Ledger.destroy (t : Ledger) (supply : ℕ) (source : Address) (value : ℕ) : Option (ℕ × Ledger) := do
  let rest ← checkedSub (t source) value
  let supply ← checkedSub supply value
  return (supply, Function.update t source rest)

/-! ### The square root -/

/-- The `while` loop of `_sqrt`; `z` falls in every turn. -/
def sqrtLoop (y : ℕ) : ℕ → ℕ → ℕ → ℕ
  | 0, z, _ => z
  | fuel + 1, z, x => if x < z then sqrtLoop y fuel x ((y / x + x) / 2) else z

def sqrt (y : ℕ) : ℕ :=
  if 3 < y then sqrtLoop y y y (y / 2 + 1)
  else if y ≠ 0 then 1
  else 0

/-- A step from a positive guess does not fall below the root: the mean of `z` and `y / z + 1` is at least their geometric
mean. -/
theorem lt_newton_sq {y z : ℕ} (hz : 0 < z) : y < ((y / z + z) / 2 + 1) * ((y / z + z) / 2 + 1) := by
  have hquot : y < z * (y / z + 1) := by
    have := Nat.div_add_mod y z
    have := Nat.mod_lt y hz
    rw [Nat.mul_add, Nat.mul_one]
    omega
  generalize y / z = q at hquot ⊢
  have hmean : q + 1 + z ≤ 2 * ((q + z) / 2 + 1) := by omega
  generalize (q + z) / 2 + 1 = x at hmean ⊢
  have hsq : (q + 1 + z) * (q + 1 + z) ≤ 2 * x * (2 * x) := Nat.mul_le_mul hmean hmean
  have hamgm : 4 * (z * (q + 1)) ≤ (q + 1 + z) * (q + 1 + z) := by
    have := four_mul_le_sq_add z (q + 1)
    nlinarith
  nlinarith

/-- The loop keeps to guesses that are not below the root, and ends at one that is not above it. -/
theorem sqrtLoop_spec (y : ℕ) : ∀ fuel z : ℕ, z ≤ fuel → y < (z + 1) * (z + 1) →
    sqrtLoop y fuel z ((y / z + z) / 2) = Nat.sqrt y := by
  intro fuel
  induction fuel with
  | zero =>
    intro z hz hy
    obtain rfl : z = 0 := Nat.le_zero.1 hz
    exact Nat.eq_sqrt.2 ⟨Nat.zero_le _, hy⟩
  | succ fuel ih =>
    intro z hz hy
    rw [sqrtLoop]
    split_ifs with hlt
    · exact ih _ (Nat.le_of_lt_succ (hlt.trans_le hz)) (lt_newton_sq ((Nat.zero_le _).trans_lt hlt))
    · refine Nat.eq_sqrt.2 ⟨?_, hy⟩
      rcases Nat.eq_zero_or_pos z with rfl | hpos
      · exact Nat.zero_le _
      · exact (Nat.le_div_iff_mul_le hpos).1 (by omega)

theorem sqrt_eq (y : ℕ) : sqrt y = Nat.sqrt y := by
  unfold sqrt
  split_ifs with hbig hne
  · -- the first turn goes from `y` to `y / 2 + 1`, which is above the root
    obtain ⟨fuel, rfl⟩ : ∃ fuel, y = fuel + 1 := ⟨y - 1, by omega⟩
    rw [sqrtLoop, if_pos (by omega)]
    refine sqrtLoop_spec _ _ _ (by omega) ?_
    have : fuel + 1 < ((fuel + 1) / 2 + 1) * 2 := by omega
    nlinarith
  · exact Nat.eq_sqrt.2 ⟨by omega, by omega⟩
  · rw [not_not.1 hne, Nat.sqrt_zero]

/-! The same function with the compiler's checks. -/

/-- The `while` loop with its checks, for a number of turns; `none` if a check fails or the turns are used up. -/
def checkedSqrtLoop (y : ℕ) : ℕ → ℕ → ℕ → Option ℕ
  | 0, z, x => if x < z then none else some z
  | turns + 1, z, x =>
    if x < z then do
      let q ← checkedDiv y x
      let sum ← checkedAdd q x
      let next ← checkedDiv sum 2
      checkedSqrtLoop y turns x next
    else some z

def checkedSqrt (turns y : ℕ) : Option ℕ :=
  if 3 < y then do
    let half ← checkedDiv y 2
    let x ← checkedAdd half 1
    checkedSqrtLoop y turns y x
  else if y ≠ 0 then some 1
  else some 0

theorem two_le_guess {y x : ℕ} (hbig : 3 < y) (hroot : y < (x + 1) * (x + 1)) : 2 ≤ x := by
  by_contra hlt
  have : (x + 1) * (x + 1) ≤ 2 * 2 := Nat.mul_le_mul (by omega) (by omega)
  omega

/-- **One checked turn after the other does what the loop does**: a guess that is not below the root is at least two, so its
quotient is at most half of `y`, and the sum of the two fits. -/
theorem checkedSqrtLoop_eq {y : ℕ} (hbig : 3 < y) (hy : y < 2 ^ 256) : ∀ turns z x : ℕ, z ≤ turns → x ≤ y / 2 + 1 →
    y < (x + 1) * (x + 1) → checkedSqrtLoop y turns z x = some (sqrtLoop y turns z x) := by
  intro turns
  induction turns with
  | zero =>
    intro z x hz _ _
    rw [checkedSqrtLoop, sqrtLoop, if_neg (by omega)]
  | succ turns ih =>
    intro z x hz hx hroot
    rw [checkedSqrtLoop, sqrtLoop]
    split_ifs with hlt
    · have htwo := two_le_guess hbig hroot
      have hquot : y / x ≤ y / 2 := Nat.div_le_div_left htwo Nat.two_pos
      have hpos : 0 < x := by omega
      have hfits : y / x + x < 2 ^ 256 := by omega
      simp only [checkedDiv_eq hpos, checkedAdd_eq hfits, checkedDiv_eq Nat.two_pos, Option.bind_eq_bind, Option.bind_some]
      exact ih x _ (by omega) (by omega) (lt_newton_sq hpos)
    · rfl

theorem checkedSqrt_eq {y : ℕ} (hy : y < 2 ^ 256) : checkedSqrt y y = some (sqrt y) := by
  unfold checkedSqrt sqrt
  split_ifs with hbig hne
  · have hfits : y / 2 + 1 < 2 ^ 256 := by omega
    simp only [checkedDiv_eq Nat.two_pos, checkedAdd_eq hfits, Option.bind_eq_bind, Option.bind_some]
    refine checkedSqrtLoop_eq hbig hy y y _ le_rfl le_rfl ?_
    have : y < (y / 2 + 1) * 2 := by omega
    nlinarith
  · rfl
  · rfl

/-- **The pair's square root is exact**: for every 256-bit word the loop ends, no sum on the way overflows and no divisor is
zero, and what it returns is the greatest number whose square is at most the word. -/
theorem sqrt_exact (y : BitVec 256) : ∃ turns z, checkedSqrt turns y.toNat = some z ∧ z = sqrt y.toNat ∧
    IsGreatest {z : ℕ | z * z ≤ y.toNat} z := by
  refine ⟨y.toNat, sqrt y.toNat, checkedSqrt_eq y.isLt, rfl, ?_⟩
  rw [sqrt_eq]
  exact ⟨Nat.sqrt_le _, fun z hz => Nat.le_sqrt.2 hz⟩

example : checkedSqrt 3 10 = some 3 := by decide

/-! ### The pair -/

structure Pair where
  token0 : Address
  token1 : Address
  graduator : Address
  totalSupply : ℕ
  balanceOf : Address → ℕ
  allowance : Address → Address → ℕ
  reserve0 : ℕ
  reserve1 : ℕ
  blockTimestampLast : ℕ
  price0CumulativeLast : ℕ
  price1CumulativeLast : ℕ
  unlocked : Bool

def minimumLiquidity : ℕ := 1000

namespace Pair

/-- `_mint` of liquidity. -/
def issue (p : Pair) (recipient : Address) (value : ℕ) : Option Pair :=
  (Ledger.issue p.balanceOf p.totalSupply recipient value).map fun r => { p with totalSupply := r.1, balanceOf := r.2 }

/-- `_burn` of liquidity. -/
def destroy (p : Pair) (source : Address) (value : ℕ) : Option Pair :=
  (Ledger.destroy p.balanceOf p.totalSupply source value).map fun r => { p with totalSupply := r.1, balanceOf := r.2 }

def transfer (p : Pair) (sender recipient : Address) (value : ℕ) : Option Pair := do
  let balances ← Ledger.transfer p.balanceOf sender recipient value
  return { p with balanceOf := balances }

def transferFrom (p : Pair) (sender source recipient : Address) (value : ℕ) : Option Pair := do
  let a := p.allowance source sender
  if a ≠ 2 ^ 256 - 1 then
    let rest ← checkedSub a value
    { p with
      allowance := Function.update p.allowance source (Function.update (p.allowance source) sender rest) }.transfer
        source recipient value
  else p.transfer source recipient value

def approve (p : Pair) (sender spender : Address) (value : ℕ) : Pair :=
  { p with allowance := Function.update p.allowance sender (Function.update (p.allowance sender) spender value) }

/-- `_update`; the timestamp and the price sums wrap. -/
def update (p : Pair) (now balance0 balance1 reserve0 reserve1 : ℕ) : Option Pair :=
  if 2 ^ 112 ≤ balance0 ∨ 2 ^ 112 ≤ balance1 then none
  else
    let blockTimestamp := now % 2 ^ 32
    let timeElapsed := (blockTimestamp + 2 ^ 32 - p.blockTimestampLast) % 2 ^ 32
    let advances := 0 < timeElapsed ∧ reserve0 ≠ 0 ∧ reserve1 ≠ 0
    some { p with
      price0CumulativeLast :=
        if advances then (p.price0CumulativeLast + reserve1 * 2 ^ 112 / reserve0 * timeElapsed) % 2 ^ 256
        else p.price0CumulativeLast
      price1CumulativeLast :=
        if advances then (p.price1CumulativeLast + reserve0 * 2 ^ 112 / reserve1 * timeElapsed) % 2 ^ 256
        else p.price1CumulativeLast
      blockTimestampLast := blockTimestamp
      reserve0 := balance0
      reserve1 := balance1 }

end Pair

def ContractAddress := { a : Address // a ≠ zeroAddress }

/-- The pair and the balances of its two tokens. -/
structure Pool (addr : ContractAddress) where
  pair : Pair
  ledger0 : Ledger
  ledger1 : Ledger

namespace Pool

variable {addr : ContractAddress}

def liquidity (p : Pair) (amount0 amount1 : ℕ) : Option ℕ := do
  if p.totalSupply = 0 then
    let k ← checkedMul amount0 amount1
    checkedSub (sqrt k) minimumLiquidity
  else
    let x0 ← checkedMul amount0 p.totalSupply
    let l0 ← checkedDiv x0 p.reserve0
    let x1 ← checkedMul amount1 p.totalSupply
    let l1 ← checkedDiv x1 p.reserve1
    return if l0 < l1 then l0 else l1

def mint (s : Pool addr) (now : ℕ) (sender recipient : Address) : Option (Pool addr) := do
  let p := s.pair
  guard (p.unlocked = true)
  guard (p.graduator ≠ zeroAddress ∧ p.totalSupply = 0 → sender = p.graduator)
  let balance0 := s.ledger0 addr.1
  let balance1 := s.ledger1 addr.1
  let amount0 ← checkedSub balance0 p.reserve0
  let amount1 ← checkedSub balance1 p.reserve1
  let l ← liquidity p amount0 amount1
  let p' ← (if p.totalSupply = 0 then p.issue zeroAddress minimumLiquidity else some p)
  guard (0 < l)
  let p' ← p'.issue recipient l
  let p' ← p'.update now balance0 balance1 p.reserve0 p.reserve1
  return { s with pair := p' }

def burn (s : Pool addr) (now : ℕ) (recipient : Address) : Option (Pool addr) := do
  let p := s.pair
  guard (p.unlocked = true)
  let l := p.balanceOf addr.1
  let x0 ← checkedMul l (s.ledger0 addr.1)
  let amount0 ← checkedDiv x0 p.totalSupply
  let x1 ← checkedMul l (s.ledger1 addr.1)
  let amount1 ← checkedDiv x1 p.totalSupply
  guard (0 < amount0 ∧ 0 < amount1)
  let p' ← p.destroy addr.1 l
  let ledger0 ← s.ledger0.transfer addr.1 recipient amount0
  let ledger1 ← s.ledger1.transfer addr.1 recipient amount1
  let p' ← p'.update now (ledger0 addr.1) (ledger1 addr.1) p.reserve0 p.reserve1
  return ⟨p', ledger0, ledger1⟩

/-- `swap` up to the recipient's code: the outputs have left. -/
def startSwap (s : Pool addr) (amount0Out amount1Out : ℕ) (recipient : Address) : Option (Pool addr) := do
  let p := s.pair
  guard (p.unlocked = true)
  guard (0 < amount0Out ∨ 0 < amount1Out)
  guard (amount0Out < p.reserve0 ∧ amount1Out < p.reserve1)
  guard (recipient ≠ p.token0 ∧ recipient ≠ p.token1)
  let ledger0 ← (if 0 < amount0Out then s.ledger0.transfer addr.1 recipient amount0Out else some s.ledger0)
  let ledger1 ← (if 0 < amount1Out then s.ledger1.transfer addr.1 recipient amount1Out else some s.ledger1)
  return ⟨{ p with unlocked := false }, ledger0, ledger1⟩

def amountIn (balance reserve out : ℕ) : ℕ := if reserve - out < balance then balance - (reserve - out) else 0

/-- `swap` after the recipient's code: the check of the product. -/
def endSwap (s : Pool addr) (now amount0Out amount1Out : ℕ) : Option (Pool addr) := do
  let p := s.pair
  let balance0 := s.ledger0 addr.1
  let balance1 := s.ledger1 addr.1
  let amount0In := amountIn balance0 p.reserve0 amount0Out
  let amount1In := amountIn balance1 p.reserve1 amount1Out
  guard (0 < amount0In ∨ 0 < amount1In)
  let x0 ← checkedMul balance0 1000
  let y0 ← checkedMul amount0In 3
  let adjusted0 ← checkedSub x0 y0
  let x1 ← checkedMul balance1 1000
  let y1 ← checkedMul amount1In 3
  let adjusted1 ← checkedSub x1 y1
  let k ← checkedMul adjusted0 adjusted1
  guard (p.reserve0 * p.reserve1 * 1000 ^ 2 ≤ k)
  let p' ← p.update now balance0 balance1 p.reserve0 p.reserve1
  return { s with pair := { p' with unlocked := true } }

def sync (s : Pool addr) (now : ℕ) : Option (Pool addr) := do
  let p := s.pair
  guard (p.unlocked = true)
  let p' ← p.update now (s.ledger0 addr.1) (s.ledger1 addr.1) p.reserve0 p.reserve1
  return { s with pair := p' }

end Pool

/-! ### What each function can do -/

namespace Ledger

variable {t t' : Ledger} {source recipient a : Address} {value : ℕ}

theorem transfer_some (h : t.transfer source recipient value = some t') :
    ∃ rest bal, rest + value = t source ∧ bal = Function.update t source rest recipient + value ∧
      t' = Function.update (Function.update t source rest) recipient bal := by
  simp only [transfer, Option.bind_eq_bind, Option.bind_eq_some_iff, Option.pure_def, Option.some.injEq] at h
  obtain ⟨rest, hrest, bal, hbal, rfl⟩ := h
  exact ⟨rest, bal, checkedSub_some hrest, checkedAdd_some hbal, rfl⟩

theorem le_transfer (h : t.transfer source recipient value = some t') (ha : a ≠ source) : t a ≤ t' a := by
  obtain ⟨rest, bal, -, rfl, rfl⟩ := transfer_some h
  by_cases har : a = recipient
  · subst har
    simp [Function.update_of_ne ha]
  · simp [Function.update_of_ne har, Function.update_of_ne ha]

theorem le_transfer_source (h : t.transfer source recipient value = some t') : t source ≤ t' source + value := by
  obtain ⟨rest, bal, hrest, rfl, rfl⟩ := transfer_some h
  by_cases hsr : source = recipient
  · subst hsr
    simp only [Function.update_self]
    omega
  · rw [Function.update_of_ne hsr, Function.update_self]
    omega

theorem transfer_recipient (h : t.transfer source recipient value = some t') (hne : source ≠ recipient) :
    t' recipient = t recipient + value := by
  obtain ⟨rest, bal, -, rfl, rfl⟩ := transfer_some h
  rw [Function.update_self, Function.update_of_ne (Ne.symm hne)]

theorem transfer_source (h : t.transfer source recipient value = some t') (hne : source ≠ recipient) :
    t' source + value = t source := by
  obtain ⟨rest, bal, hrest, rfl, rfl⟩ := transfer_some h
  rw [Function.update_of_ne hne, Function.update_self]
  exact hrest

theorem sum_transfer (h : t.transfer source recipient value = some t') : ∑ x, t' x = ∑ x, t x := by
  obtain ⟨rest, bal, hrest, rfl, rfl⟩ := transfer_some h
  have hsource := sum_update t source rest
  have hrecipient := sum_update (Function.update t source rest) recipient
    (Function.update t source rest recipient + value)
  omega

theorem add_some (h : t.add recipient value = some t') :
    t' = Function.update t recipient (t recipient + value) := by
  simp only [add, Option.bind_eq_bind, Option.bind_eq_some_iff, Option.pure_def, Option.some.injEq] at h
  obtain ⟨bal, hbal, rfl⟩ := h
  rw [checkedAdd_some hbal]

theorem le_add (h : t.add recipient value = some t') (a : Address) : t a ≤ t' a := by
  rw [add_some h]
  by_cases ha : a = recipient
  · subst ha
    rw [Function.update_self]
    exact Nat.le_add_right ..
  · rw [Function.update_of_ne ha]

theorem sum_add (h : t.add recipient value = some t') : ∑ x, t' x = ∑ x, t x + value := by
  have := sum_update t recipient (t recipient + value)
  rw [add_some h]
  omega

theorem take_some (h : t.take source value = some t') :
    ∃ rest, rest + value = t source ∧ t' = Function.update t source rest := by
  simp only [take, Option.bind_eq_bind, Option.bind_eq_some_iff, Option.pure_def, Option.some.injEq] at h
  obtain ⟨rest, hrest, rfl⟩ := h
  exact ⟨rest, checkedSub_some hrest, rfl⟩

theorem take_of_ne (h : t.take source value = some t') (ha : a ≠ source) : t' a = t a := by
  obtain ⟨rest, -, rfl⟩ := take_some h
  exact Function.update_of_ne ha ..

theorem sum_take (h : t.take source value = some t') : ∑ x, t' x + value = ∑ x, t x := by
  obtain ⟨rest, hrest, rfl⟩ := take_some h
  have := sum_update t source rest
  omega

theorem le_sum (t : Ledger) (a : Address) : t a ≤ ∑ x, t x :=
  Finset.single_le_sum (fun _ _ => Nat.zero_le _) (Finset.mem_univ a)

theorem add_le_sum (t : Ledger) {a b : Address} (h : a ≠ b) : t a + t b ≤ ∑ x, t x := by
  rw [← Finset.sum_pair h]
  exact Finset.sum_le_sum_of_subset (Finset.subset_univ _)

theorem exists_transfer (hv : value ≤ t source) (hsum : ∑ x, t x < 2 ^ 256) :
    ∃ t', t.transfer source recipient value = some t' := by
  have hbound : Function.update t source (t source - value) recipient + value < 2 ^ 256 := by
    by_cases hne : recipient = source
    · subst hne
      rw [Function.update_self]
      have := t.le_sum recipient
      omega
    · rw [Function.update_of_ne hne]
      have := t.add_le_sum hne
      omega
  simp only [transfer, Option.bind_eq_bind, checkedSub_eq hv, Option.bind_some, checkedAdd_eq hbound]
  exact ⟨_, rfl⟩

theorem exists_add (h : t recipient + value < 2 ^ 256) : ∃ t', t.add recipient value = some t' := by
  simp only [add, Option.bind_eq_bind, checkedAdd_eq h, Option.bind_some]
  exact ⟨_, rfl⟩

variable {supply : ℕ} {r : ℕ × Ledger}

theorem issue_some (h : t.issue supply recipient value = some r) :
    r = (supply + value, Function.update t recipient (t recipient + value)) := by
  simp only [issue, Option.bind_eq_bind, Option.bind_eq_some_iff, Option.pure_def, Option.some.injEq] at h
  obtain ⟨s, hs, bal, hbal, rfl⟩ := h
  rw [checkedAdd_some hs, checkedAdd_some hbal]

theorem destroy_some (h : t.destroy supply source value = some r) :
    ∃ rest s, rest + value = t source ∧ s + value = supply ∧ r = (s, Function.update t source rest) := by
  simp only [destroy, Option.bind_eq_bind, Option.bind_eq_some_iff, Option.pure_def, Option.some.injEq] at h
  obtain ⟨rest, hrest, s, hs, rfl⟩ := h
  exact ⟨rest, s, checkedSub_some hrest, checkedSub_some hs, rfl⟩

theorem exists_issue (hsum : ∑ x, t x = supply) (h : supply + value < 2 ^ 256) :
    ∃ r, t.issue supply recipient value = some r := by
  have hbal : t recipient + value < 2 ^ 256 := by
    have := t.le_sum recipient
    omega
  simp only [issue, Option.bind_eq_bind, checkedAdd_eq h, checkedAdd_eq hbal, Option.bind_some]
  exact ⟨_, rfl⟩

end Ledger

namespace Pair

variable {p p' : Pair} {recipient source sender : Address} {value now b0 b1 r0 r1 : ℕ}

theorem issue_some (h : p.issue recipient value = some p') :
    p' = { p with
      totalSupply := p.totalSupply + value
      balanceOf := Function.update p.balanceOf recipient (p.balanceOf recipient + value) } := by
  obtain ⟨r, hr, rfl⟩ := Option.map_eq_some_iff.1 h
  rw [Ledger.issue_some hr]

theorem destroy_some (h : p.destroy source value = some p') :
    ∃ rest supply, rest + value = p.balanceOf source ∧ supply + value = p.totalSupply ∧
      p' = { p with totalSupply := supply, balanceOf := Function.update p.balanceOf source rest } := by
  obtain ⟨r, hr, rfl⟩ := Option.map_eq_some_iff.1 h
  obtain ⟨rest, supply, hrest, hsupply, rfl⟩ := Ledger.destroy_some hr
  exact ⟨rest, supply, hrest, hsupply, rfl⟩

theorem update_some (h : p.update now b0 b1 r0 r1 = some p') :
    b0 < 2 ^ 112 ∧ b1 < 2 ^ 112 ∧ ∃ price0 price1 time,
      p' = { p with
        price0CumulativeLast := price0, price1CumulativeLast := price1, blockTimestampLast := time
        reserve0 := b0, reserve1 := b1 } := by
  unfold update at h
  split_ifs at h with hbig
  cases h
  push Not at hbig
  exact ⟨hbig.1, hbig.2, _, _, _, rfl⟩

theorem exists_update (h0 : b0 < 2 ^ 112) (h1 : b1 < 2 ^ 112) :
    ∃ p', p.update now b0 b1 r0 r1 = some p' := by
  unfold update
  rw [if_neg (by omega)]
  exact ⟨_, rfl⟩

end Pair

namespace Pool

variable {addr : ContractAddress} {s s' : Pool addr} {now amount0Out amount1Out : ℕ} {sender recipient : Address}

theorem mint_some (h : s.mint now sender recipient = some s') :
    s.pair.unlocked = true ∧ (s.pair.graduator ≠ zeroAddress ∧ s.pair.totalSupply = 0 → sender = s.pair.graduator) ∧
      ∃ amount0 amount1 l p₁ p₂ p₃, amount0 + s.pair.reserve0 = s.ledger0 addr.1 ∧
        amount1 + s.pair.reserve1 = s.ledger1 addr.1 ∧ liquidity s.pair amount0 amount1 = some l ∧
        (if s.pair.totalSupply = 0 then s.pair.issue zeroAddress minimumLiquidity else some s.pair) = some p₁ ∧ 0 < l ∧
        p₁.issue recipient l = some p₂ ∧
        p₂.update now (s.ledger0 addr.1) (s.ledger1 addr.1) s.pair.reserve0 s.pair.reserve1 = some p₃ ∧
        s' = { s with pair := p₃ } := by
  simp only [mint, Option.bind_eq_bind, Option.bind_eq_some_iff, Option.pure_def, Option.some.injEq,
    Option.guard_eq_some', exists_const] at h
  obtain ⟨hunlocked, hgate, amount0, h0, amount1, h1, l, hl, p₁, hp₁, hpos, p₂, hp₂, p₃, hp₃, rfl⟩ := h
  exact ⟨hunlocked, hgate, amount0, amount1, l, p₁, p₂, p₃, checkedSub_some h0, checkedSub_some h1, hl, hp₁, hpos, hp₂, hp₃,
    rfl⟩

theorem burn_some (h : s.burn now recipient = some s') :
    s.pair.unlocked = true ∧ 0 < s.pair.totalSupply ∧
      ∃ p₁ p₂ t₀ t₁, s.pair.destroy addr.1 (s.pair.balanceOf addr.1) = some p₁ ∧
        s.ledger0.transfer addr.1 recipient (s.pair.balanceOf addr.1 * s.ledger0 addr.1 / s.pair.totalSupply) = some t₀ ∧
        s.ledger1.transfer addr.1 recipient (s.pair.balanceOf addr.1 * s.ledger1 addr.1 / s.pair.totalSupply) = some t₁ ∧
        p₁.update now (t₀ addr.1) (t₁ addr.1) s.pair.reserve0 s.pair.reserve1 = some p₂ ∧ s' = ⟨p₂, t₀, t₁⟩ := by
  simp only [burn, Option.bind_eq_bind, Option.bind_eq_some_iff, Option.pure_def, Option.some.injEq,
    Option.guard_eq_some', exists_const] at h
  obtain ⟨hunlocked, x0, hx0, amount0, ha0, x1, hx1, amount1, ha1, hpos, p₁, hp₁, t₀, ht₀, t₁, ht₁, p₂, hp₂, rfl⟩ := h
  obtain ⟨hT, rfl⟩ := checkedDiv_some ha0
  obtain ⟨-, rfl⟩ := checkedDiv_some ha1
  obtain rfl := checkedMul_some hx0
  obtain rfl := checkedMul_some hx1
  exact ⟨hunlocked, hT, p₁, p₂, t₀, t₁, hp₁, ht₀, ht₁, hp₂, rfl⟩

theorem startSwap_some (h : s.startSwap amount0Out amount1Out recipient = some s') :
    s.pair.unlocked = true ∧ s'.pair = { s.pair with unlocked := false } := by
  simp only [startSwap, Option.bind_eq_bind, Option.bind_eq_some_iff, Option.pure_def, Option.some.injEq,
    Option.guard_eq_some', exists_const] at h
  obtain ⟨hunlocked, -, -, -, t₀, -, t₁, -, rfl⟩ := h
  exact ⟨hunlocked, rfl⟩

theorem startSwap_sums (h : s.startSwap amount0Out amount1Out recipient = some s') :
    ∑ a, s'.ledger0 a = ∑ a, s.ledger0 a ∧ ∑ a, s'.ledger1 a = ∑ a, s.ledger1 a := by
  simp only [startSwap, Option.bind_eq_bind, Option.bind_eq_some_iff, Option.pure_def, Option.some.injEq,
    Option.guard_eq_some', exists_const] at h
  obtain ⟨-, -, -, -, t₀, ht₀, t₁, ht₁, rfl⟩ := h
  have hsum : ∀ {t t' : Ledger} {out : ℕ}, (if 0 < out then t.transfer addr.1 recipient out else some t) = some t' →
      ∑ a, t' a = ∑ a, t a := by
    intro t t' out ht
    split_ifs at ht
    · exact Ledger.sum_transfer ht
    · cases ht
      rfl
  exact ⟨hsum ht₀, hsum ht₁⟩

theorem endSwap_some (h : s.endSwap now amount0Out amount1Out = some s') :
    s.pair.reserve0 * s.pair.reserve1 ≤ s.ledger0 addr.1 * s.ledger1 addr.1 ∧
      ∃ p', s.pair.update now (s.ledger0 addr.1) (s.ledger1 addr.1) s.pair.reserve0 s.pair.reserve1 = some p' ∧
        s' = { s with pair := { p' with unlocked := true } } := by
  simp only [endSwap, Option.bind_eq_bind, Option.bind_eq_some_iff, Option.pure_def, Option.some.injEq,
    Option.guard_eq_some', exists_const] at h
  obtain ⟨-, x0, hx0, y0, -, adj0, hadj0, x1, hx1, y1, -, adj1, hadj1, k, hk, hcheck, p', hp', rfl⟩ := h
  refine ⟨?_, p', hp', rfl⟩
  obtain rfl := checkedMul_some hx0
  obtain rfl := checkedMul_some hx1
  obtain rfl := checkedMul_some hk
  have h0 : adj0 ≤ s.ledger0 addr.1 * 1000 := by
    have := checkedSub_some hadj0
    omega
  have h1 : adj1 ≤ s.ledger1 addr.1 * 1000 := by
    have := checkedSub_some hadj1
    omega
  have hscaled : s.pair.reserve0 * s.pair.reserve1 * 1000 ^ 2 ≤ s.ledger0 addr.1 * s.ledger1 addr.1 * 1000 ^ 2 := by
    calc s.pair.reserve0 * s.pair.reserve1 * 1000 ^ 2 ≤ adj0 * adj1 := hcheck
      _ ≤ s.ledger0 addr.1 * 1000 * (s.ledger1 addr.1 * 1000) := Nat.mul_le_mul h0 h1
      _ = s.ledger0 addr.1 * s.ledger1 addr.1 * 1000 ^ 2 := by ring
  exact Nat.le_of_mul_le_mul_right hscaled (by norm_num)

theorem sync_some (h : s.sync now = some s') :
    s.pair.unlocked = true ∧
      ∃ p', s.pair.update now (s.ledger0 addr.1) (s.ledger1 addr.1) s.pair.reserve0 s.pair.reserve1 = some p' ∧
        s' = { s with pair := p' } := by
  simp only [sync, Option.bind_eq_bind, Option.bind_eq_some_iff, Option.pure_def, Option.some.injEq,
    Option.guard_eq_some', exists_const] at h
  obtain ⟨hunlocked, p', hp', rfl⟩ := h
  exact ⟨hunlocked, p', hp', rfl⟩

end Pool

/-! ### Runs -/

/-- Who can send: the zero address has no key, and the pair's code sends nothing but what its functions send. -/
def Caller (addr : ContractAddress) := { a : Address // a ≠ zeroAddress ∧ a ≠ addr.1 }

/-- A call of the pair, or something that happens to the balances of its tokens. With `swap` comes what its callback does,
and whether it returns. -/
inductive Call (addr : ContractAddress)
  | mint (now : ℕ) (sender : Caller addr) (recipient : Address)
  | burn (now : ℕ) (recipient : Address)
  | swap (now amount0Out amount1Out : ℕ) (recipient : Address) (inner : List (Call addr)) (ok : Bool)
  | sync (now : ℕ)
  | transfer (sender : Caller addr) (recipient : Address) (value : ℕ)
  | transferFrom (sender : Caller addr) (source recipient : Address) (value : ℕ)
  | approve (sender : Caller addr) (spender : Address) (value : ℕ)
  | move0 (source : Caller addr) (recipient : Address) (value : ℕ)
  | move1 (source : Caller addr) (recipient : Address) (value : ℕ)
  /-- new units of a token, such as a deposit in `WLXS` -/
  | add0 (recipient : Address) (value : ℕ)
  | add1 (recipient : Address) (value : ℕ)
  /-- units that leave a token, such as a withdrawal from `WLXS` -/
  | take0 (source : Caller addr) (value : ℕ)
  | take1 (source : Caller addr) (value : ℕ)

namespace Pool

variable {addr : ContractAddress}

def withPair (s : Pool addr) (p : Option Pair) : Pool addr := { s with pair := p.getD s.pair }

def with0 (s : Pool addr) (t : Option Ledger) : Pool addr := { s with ledger0 := t.getD s.ledger0 }

def with1 (s : Pool addr) (t : Option Ledger) : Pool addr := { s with ledger1 := t.getD s.ledger1 }

mutual

def call (s : Pool addr) : Call addr → Pool addr
  | .mint now sender recipient => (s.mint now sender.1 recipient).getD s
  | .burn now recipient => (s.burn now recipient).getD s
  | .swap now amount0Out amount1Out recipient inner ok =>
    match s.startSwap amount0Out amount1Out recipient with
    | none => s
    | some sent => if ok then ((calls sent inner).endSwap now amount0Out amount1Out).getD s else s
  | .sync now => (s.sync now).getD s
  | .transfer sender recipient value => s.withPair (s.pair.transfer sender.1 recipient value)
  | .transferFrom sender source recipient value => s.withPair (s.pair.transferFrom sender.1 source recipient value)
  | .approve sender spender value => s.withPair (some (s.pair.approve sender.1 spender value))
  | .move0 source recipient value => s.with0 (s.ledger0.transfer source.1 recipient value)
  | .move1 source recipient value => s.with1 (s.ledger1.transfer source.1 recipient value)
  | .add0 recipient value => s.with0 (s.ledger0.add recipient value)
  | .add1 recipient value => s.with1 (s.ledger1.add recipient value)
  | .take0 source value => s.with0 (s.ledger0.take source.1 value)
  | .take1 source value => s.with1 (s.ledger1.take source.1 value)

def calls (s : Pool addr) : List (Call addr) → Pool addr
  | [] => s
  | c :: cs => calls (call s c) cs

end

/-- A pair as the factory makes it, with whatever its address was sent before. -/
def created (token0 token1 graduator : Address) (ledger0 ledger1 : Ledger) : Pool addr :=
  ⟨⟨token0, token1, graduator, 0, fun _ => 0, fun _ _ => 0, 0, 0, 0, 0, 0, true⟩, ledger0, ledger1⟩

inductive Reachable : Pool addr → Prop
  | created (token0 token1 graduator : Address) (ledger0 ledger1 : Ledger) :
    Reachable (created token0 token1 graduator ledger0 ledger1)
  | call {s : Pool addr} (c : Call addr) : Reachable s → Reachable (s.call c)

end Pool

/-! ### Liquidity -/

/-- The balances add up to the supply, and what is locked at the zero address cannot leave it. -/
structure Pair.Shares (p : Pair) : Prop where
  supply : ∑ a, p.balanceOf a = p.totalSupply
  zero : ∀ x, p.allowance zeroAddress x = 0
  minimum : p.totalSupply = 0 ∨ minimumLiquidity ≤ p.balanceOf zeroAddress

/-- A step that takes no value from a unit of liquidity: the reserves' product over the square of the supply does not fall.
It is written without the division. -/
def Pair.Kept (p p' : Pair) : Prop :=
  0 < p.totalSupply →
    0 < p'.totalSupply ∧ p.reserve0 * p.reserve1 * p'.totalSupply ^ 2 ≤ p'.reserve0 * p'.reserve1 * p.totalSupply ^ 2

/-- A step of the liquidity token alone. -/
structure Pair.Shuffled (p p' : Pair) : Prop where
  rest : p' = { p with balanceOf := p'.balanceOf, allowance := p'.allowance }
  shares : p.Shares → p'.Shares

namespace Pair

variable {p p' p'' : Pair} {sender source recipient : Address} {value : ℕ}

theorem Shuffled.refl (p : Pair) : Shuffled p p := ⟨rfl, id⟩

theorem Shuffled.trans (h : Shuffled p p') (h' : Shuffled p' p'') : Shuffled p p'' := by
  refine ⟨?_, h'.shares ∘ h.shares⟩
  rw [h'.rest, h.rest]

theorem Shuffled.kept (h : Shuffled p p') : Kept p p' := by
  intro hpos
  rw [h.rest]
  exact ⟨hpos, le_rfl⟩

theorem kept_of_sides (hpos : 0 < p.totalSupply → 0 < p'.totalSupply)
    (h0 : p.reserve0 * p'.totalSupply ≤ p'.reserve0 * p.totalSupply)
    (h1 : p.reserve1 * p'.totalSupply ≤ p'.reserve1 * p.totalSupply) : Kept p p' := by
  refine fun h => ⟨hpos h, ?_⟩
  calc p.reserve0 * p.reserve1 * p'.totalSupply ^ 2 = p.reserve0 * p'.totalSupply * (p.reserve1 * p'.totalSupply) := by ring
    _ ≤ p'.reserve0 * p.totalSupply * (p'.reserve1 * p.totalSupply) := Nat.mul_le_mul h0 h1
    _ = p'.reserve0 * p'.reserve1 * p.totalSupply ^ 2 := by ring

theorem shuffled_transfer (hzero : source = zeroAddress → value = 0) (h : p.transfer source recipient value = some p') :
    Shuffled p p' := by
  simp only [transfer, Option.bind_eq_bind, Option.bind_eq_some_iff, Option.pure_def, Option.some.injEq] at h
  obtain ⟨t, ht, rfl⟩ := h
  refine ⟨rfl, fun hs => ⟨(Ledger.sum_transfer ht).trans hs.supply, hs.zero, ?_⟩⟩
  refine hs.minimum.imp_right fun hmin => ?_
  by_cases hsource : source = zeroAddress
  · have hle := Ledger.le_transfer_source ht
    rw [hzero hsource, hsource] at hle
    exact hmin.trans hle
  · exact hmin.trans (Ledger.le_transfer ht (Ne.symm hsource))

theorem shuffled_approve (p : Pair) (hsender : sender ≠ zeroAddress) (spender : Address) :
    Shuffled p (p.approve sender spender value) := by
  refine ⟨rfl, fun hs => ⟨hs.supply, fun x => ?_, hs.minimum⟩⟩
  dsimp only [approve]
  rw [Function.update_of_ne (Ne.symm hsender)]
  exact hs.zero x

/-- Nobody has an allowance from the zero address, so nothing is taken from it. -/
theorem shuffled_transferFrom (hs : p.Shares) (h : p.transferFrom sender source recipient value = some p') :
    Shuffled p p' := by
  unfold transferFrom at h
  dsimp only at h
  split_ifs at h with hmax
  · simp only [Option.bind_eq_bind, Option.bind_eq_some_iff] at h
    obtain ⟨rest, hrest, h⟩ := h
    have hsub := checkedSub_some hrest
    have hspend : Shuffled p { p with
        allowance := Function.update p.allowance source (Function.update (p.allowance source) sender rest) } := by
      refine ⟨rfl, fun hs => ⟨hs.supply, fun x => ?_, hs.minimum⟩⟩
      dsimp only
      by_cases hzero : zeroAddress = source
      · subst hzero
        rw [hs.zero] at hsub
        rw [Function.update_self]
        by_cases hx : x = sender
        · subst hx
          rw [Function.update_self]
          omega
        · rw [Function.update_of_ne hx]
          exact hs.zero x
      · rw [Function.update_of_ne hzero]
        exact hs.zero x
    refine hspend.trans (shuffled_transfer (fun hzero => ?_) h)
    rw [hzero, hs.zero] at hsub
    omega
  · refine shuffled_transfer (fun hzero => ?_) h
    rw [hzero, hs.zero] at hmax
    exact absurd hmax (by norm_num)

theorem Shares.issue (hs : p.Shares) (hmin : p.totalSupply = 0 → recipient = zeroAddress ∧ value = minimumLiquidity)
    (h : p.issue recipient value = some p') : p'.Shares := by
  obtain rfl := issue_some h
  refine ⟨?_, hs.zero, .inr ?_⟩
  · have := sum_update p.balanceOf recipient (p.balanceOf recipient + value)
    have := hs.supply
    dsimp only
    omega
  · dsimp only
    by_cases hzero : recipient = zeroAddress
    · rw [hzero, Function.update_self]
      rcases hs.minimum with hempty | hmin'
      · rw [(hmin hempty).2]
        exact Nat.le_add_left ..
      · exact hmin'.trans (Nat.le_add_right ..)
    · rw [Function.update_of_ne (Ne.symm hzero)]
      exact hs.minimum.resolve_left fun hempty => hzero (hmin hempty).1

theorem Shares.minimum_le (hs : p.Shares) (h : minimumLiquidity ≤ p.balanceOf zeroAddress) :
    minimumLiquidity ≤ p.totalSupply := by
  rw [← hs.supply]
  exact h.trans (Finset.single_le_sum (fun _ _ => Nat.zero_le _) (Finset.mem_univ zeroAddress))

theorem Shares.destroy (hs : p.Shares) (hsource : source ≠ zeroAddress) (hpos : 0 < p.totalSupply)
    (h : p.destroy source value = some p') : p'.Shares ∧ 0 < p'.totalSupply := by
  obtain ⟨rest, supply, hrest, hsupply, rfl⟩ := destroy_some h
  have hlocked := hs.minimum.resolve_left hpos.ne'
  have hshares : Shares { p with totalSupply := supply, balanceOf := Function.update p.balanceOf source rest } := by
    refine ⟨?_, hs.zero, .inr ?_⟩
    · have := sum_update p.balanceOf source rest
      have := hs.supply
      dsimp only
      omega
    · dsimp only
      rw [Function.update_of_ne (Ne.symm hsource)]
      exact hlocked
  refine ⟨hshares, lt_of_lt_of_le (by decide) (hshares.minimum_le ?_)⟩
  dsimp only
  rw [Function.update_of_ne (Ne.symm hsource)]
  exact hlocked

theorem Shares.update {now b0 b1 r0 r1 : ℕ} (hs : p.Shares) (h : p.update now b0 b1 r0 r1 = some p') : p'.Shares := by
  obtain ⟨-, -, _, _, _, rfl⟩ := update_some h
  exact ⟨hs.supply, hs.zero, hs.minimum⟩

end Pair

namespace Pool

variable {addr : ContractAddress} {s s' : Pool addr}

structure Backed (s : Pool addr) : Prop where
  reserve0 : s.pair.reserve0 ≤ s.ledger0 addr.1
  reserve1 : s.pair.reserve1 ≤ s.ledger1 addr.1

structure Sound (s : Pool addr) : Prop where
  shares : s.pair.Shares
  backed : s.Backed
  unlocked : s.pair.unlocked = true

theorem backed_update {p p' : Pair} {now r0 r1 : ℕ} {t₀ t₁ : Ledger}
    (h : p.update now (t₀ addr.1) (t₁ addr.1) r0 r1 = some p') : Backed (⟨p', t₀, t₁⟩ : Pool addr) := by
  obtain ⟨-, -, _, _, _, rfl⟩ := Pair.update_some h
  exact ⟨le_rfl, le_rfl⟩

/-! #### While a swap waits for its callback -/

theorem shuffled_withPair {p : Option Pair} (h : ∀ p', p = some p' → s.pair.Shuffled p') :
    s.pair.Shuffled (s.withPair p).pair := by
  cases p with
  | none => exact .refl _
  | some p' => exact h p' rfl

theorem shuffled_call_of_locked (hlocked : s.pair.unlocked = false) (hs : s.pair.Shares) (c : Call addr) :
    s.pair.Shuffled (s.call c).pair := by
  have hno : s.pair.unlocked ≠ true := by simp [hlocked]
  have hgetD : ∀ {r : Option (Pool addr)}, (∀ s', r = some s' → s.pair.unlocked = true) →
      s.pair.Shuffled (r.getD s).pair := by
    intro r hr
    cases r with
    | none => exact .refl _
    | some s' => exact absurd (hr s' rfl) hno
  cases c with
  | mint now sender recipient =>
    rw [call]
    exact hgetD fun s' h => (mint_some h).1
  | burn now recipient =>
    rw [call]
    exact hgetD fun s' h => (burn_some h).1
  | swap now amount0Out amount1Out recipient inner ok =>
    rw [call]
    cases h : s.startSwap amount0Out amount1Out recipient with
    | none => exact .refl _
    | some sent => exact absurd (startSwap_some h).1 hno
  | sync now =>
    rw [call]
    exact hgetD fun s' h => (sync_some h).1
  | transfer sender recipient value =>
    rw [call]
    exact shuffled_withPair fun p' h => Pair.shuffled_transfer (fun hz => absurd hz sender.2.1) h
  | transferFrom sender source recipient value =>
    rw [call]
    exact shuffled_withPair fun p' h => Pair.shuffled_transferFrom hs h
  | approve sender spender value =>
    rw [call]
    exact Pair.shuffled_approve _ sender.2.1 spender
  | move0 source recipient value | move1 source recipient value | add0 recipient value | add1 recipient value
  | take0 source value | take1 source value =>
    rw [call]
    exact .refl _

theorem shuffled_calls_of_locked (cs : List (Call addr)) : ∀ {s : Pool addr}, s.pair.unlocked = false → s.pair.Shares →
    s.pair.Shuffled (s.calls cs).pair := by
  induction cs with
  | nil =>
    intro s _ _
    rw [calls]
    exact .refl _
  | cons c cs ih =>
    intro s hlocked hs
    rw [calls]
    have hstep := shuffled_call_of_locked hlocked hs c
    refine hstep.trans (ih ?_ (hstep.shares hs))
    rw [hstep.rest]
    exact hlocked

/-! #### One call -/

variable {now : ℕ}

theorem sound_mint (hs : s.Sound) {sender recipient : Address} (h : s.mint now sender recipient = some s') :
    s'.Sound ∧ s.pair.Kept s'.pair := by
  obtain ⟨hunlocked, -, amount0, amount1, l, p₁, p₂, p₃, h0, h1, hl, hp₁, hpos, hp₂, hp₃, rfl⟩ := mint_some h
  have hshares₁ : p₁.Shares ∧ 0 < p₁.totalSupply ∧ p₁.unlocked = true := by
    split_ifs at hp₁ with hempty
    · have hshares := hs.shares.issue (fun _ => ⟨rfl, rfl⟩) hp₁
      obtain rfl := Pair.issue_some hp₁
      exact ⟨hshares, by simp [minimumLiquidity], hunlocked⟩
    · cases hp₁
      exact ⟨hs.shares, Nat.pos_of_ne_zero hempty, hunlocked⟩
  have hshares₂ := hshares₁.1.issue (fun hempty => absurd hempty hshares₁.2.1.ne') hp₂
  have hshares₃ := hshares₂.update hp₃
  have hbacked : Backed (⟨p₃, s.ledger0, s.ledger1⟩ : Pool addr) := backed_update hp₃
  obtain ⟨-, -, _, _, _, rfl⟩ := Pair.update_some hp₃
  obtain rfl := Pair.issue_some hp₂
  refine ⟨⟨hshares₃, hbacked, hshares₁.2.2⟩, fun hT => ?_⟩
  rw [if_neg hT.ne'] at hp₁
  cases hp₁
  -- liquidity is the smaller of the two shares, each rounded down
  have hshare : l * s.pair.reserve0 ≤ amount0 * s.pair.totalSupply ∧
      l * s.pair.reserve1 ≤ amount1 * s.pair.totalSupply := by
    simp only [liquidity, if_neg hT.ne', Option.bind_eq_bind, Option.bind_eq_some_iff, Option.pure_def,
      Option.some.injEq] at hl
    obtain ⟨x0, hx0, l0, hl0, x1, hx1, l1, hl1, hmin⟩ := hl
    obtain ⟨-, rfl⟩ := checkedDiv_some hl0
    obtain ⟨-, rfl⟩ := checkedDiv_some hl1
    obtain rfl := checkedMul_some hx0
    obtain rfl := checkedMul_some hx1
    have hle : l ≤ amount0 * s.pair.totalSupply / s.pair.reserve0 ∧
        l ≤ amount1 * s.pair.totalSupply / s.pair.reserve1 := by
      split_ifs at hmin <;> omega
    exact ⟨(Nat.mul_le_mul_right _ hle.1).trans (Nat.div_mul_le_self ..),
      (Nat.mul_le_mul_right _ hle.2).trans (Nat.div_mul_le_self ..)⟩
  refine Pair.kept_of_sides (fun _ => Nat.add_pos_left hT _) ?_ ?_ hT
  · dsimp only
    rw [← h0]
    linarith [hshare.1]
  · dsimp only
    rw [← h1]
    linarith [hshare.2]

theorem burn_share {L T T' b b' amount r : ℕ} (hT : T' + L = T) (hamount : amount = L * b / T) (hb : b ≤ b' + amount)
    (hr : r ≤ b) : r * T' ≤ b' * T := by
  have hpaid : amount * T ≤ L * b := by
    rw [hamount]
    exact Nat.div_mul_le_self ..
  have hleft : b * T ≤ b' * T + amount * T := by
    rw [← Nat.add_mul]
    exact Nat.mul_le_mul_right T hb
  have hsplit : b * T = b * T' + L * b := by
    rw [← hT]
    ring
  have hreserve : r * T' ≤ b * T' := Nat.mul_le_mul_right T' hr
  omega

theorem sound_burn (hs : s.Sound) {recipient : Address} (h : s.burn now recipient = some s') :
    s'.Sound ∧ s.pair.Kept s'.pair := by
  obtain ⟨hunlocked, hT, p₁, p₂, t₀, t₁, hp₁, ht₀, ht₁, hp₂, rfl⟩ := burn_some h
  obtain ⟨hshares₁, hpos₁⟩ := hs.shares.destroy addr.2 hT hp₁
  have hshares₂ := hshares₁.update hp₂
  have hbacked : Backed (⟨p₂, t₀, t₁⟩ : Pool addr) := backed_update hp₂
  obtain ⟨-, -, _, _, _, rfl⟩ := Pair.update_some hp₂
  obtain ⟨rest, supply, hrest, hsupply, rfl⟩ := Pair.destroy_some hp₁
  refine ⟨⟨hshares₂, hbacked, hunlocked⟩, Pair.kept_of_sides (fun _ => hpos₁) ?_ ?_⟩
  · exact burn_share hsupply rfl (Ledger.le_transfer_source ht₀) hs.backed.reserve0
  · exact burn_share hsupply rfl (Ledger.le_transfer_source ht₁) hs.backed.reserve1

theorem sound_sync (hs : s.Sound) (h : s.sync now = some s') : s'.Sound ∧ s.pair.Kept s'.pair := by
  obtain ⟨hunlocked, p', hp', rfl⟩ := sync_some h
  have hshares := hs.shares.update hp'
  have hbacked : Backed (⟨p', s.ledger0, s.ledger1⟩ : Pool addr) := backed_update hp'
  obtain ⟨-, -, _, _, _, rfl⟩ := Pair.update_some hp'
  refine ⟨⟨hshares, hbacked, hunlocked⟩, Pair.kept_of_sides id ?_ ?_⟩
  · exact Nat.mul_le_mul_right _ hs.backed.reserve0
  · exact Nat.mul_le_mul_right _ hs.backed.reserve1

theorem sound_swap (hs : s.Sound) {now amount0Out amount1Out : ℕ} {recipient : Address} {inner : List (Call addr)}
    {sent : Pool addr} (hsent : s.startSwap amount0Out amount1Out recipient = some sent)
    (h : (sent.calls inner).endSwap now amount0Out amount1Out = some s') : s'.Sound ∧ s.pair.Kept s'.pair := by
  obtain ⟨-, hpair⟩ := startSwap_some hsent
  have hsentShares : sent.pair.Shares := by
    rw [hpair]
    exact ⟨hs.shares.supply, hs.shares.zero, hs.shares.minimum⟩
  have hshuffled := shuffled_calls_of_locked inner (by rw [hpair]) hsentShares
  obtain ⟨hproduct, p', hp', rfl⟩ := endSwap_some h
  have hshares := (hshuffled.shares hsentShares).update hp'
  have hbacked : Backed (⟨p', (sent.calls inner).ledger0, (sent.calls inner).ledger1⟩ : Pool addr) := backed_update hp'
  obtain ⟨-, -, _, _, _, rfl⟩ := Pair.update_some hp'
  refine ⟨⟨⟨hshares.supply, hshares.zero, hshares.minimum⟩, ⟨hbacked.reserve0, hbacked.reserve1⟩, rfl⟩, fun hT => ?_⟩
  have hrest := hshuffled.rest
  rw [hpair] at hrest
  have hsupply : (sent.calls inner).pair.totalSupply = s.pair.totalSupply := by rw [hrest]
  have h0 : (sent.calls inner).pair.reserve0 = s.pair.reserve0 := by rw [hrest]
  have h1 : (sent.calls inner).pair.reserve1 = s.pair.reserve1 := by rw [hrest]
  dsimp only
  rw [hsupply]
  rw [h0, h1] at hproduct
  exact ⟨hT, Nat.mul_le_mul_right _ hproduct⟩

theorem sound_ledgers (hs : s.Sound) {t₀ t₁ : Ledger} (h0 : s.ledger0 addr.1 ≤ t₀ addr.1)
    (h1 : s.ledger1 addr.1 ≤ t₁ addr.1) : Sound (⟨s.pair, t₀, t₁⟩ : Pool addr) ∧ s.pair.Kept s.pair :=
  ⟨⟨hs.shares, ⟨hs.backed.reserve0.trans h0, hs.backed.reserve1.trans h1⟩, hs.unlocked⟩, (Pair.Shuffled.refl _).kept⟩

theorem Sound.call (hs : s.Sound) (c : Call addr) : (s.call c).Sound ∧ s.pair.Kept (s.call c).pair := by
  have hstay : s.Sound ∧ s.pair.Kept s.pair := ⟨hs, (Pair.Shuffled.refl _).kept⟩
  have hgetD : ∀ {r : Option (Pool addr)}, (∀ s', r = some s' → s'.Sound ∧ s.pair.Kept s'.pair) →
      (r.getD s).Sound ∧ s.pair.Kept (r.getD s).pair := by
    intro r hr
    cases r with
    | none => exact hstay
    | some s' => exact hr s' rfl
  have hshuffled : ∀ {p : Option Pair}, (∀ p', p = some p' → s.pair.Shuffled p') →
      (s.withPair p).Sound ∧ s.pair.Kept (s.withPair p).pair := by
    intro p hp
    have h := shuffled_withPair hp
    refine ⟨⟨h.shares hs.shares, ?_, ?_⟩, h.kept⟩
    · refine ⟨?_, ?_⟩
      · rw [h.rest]
        exact hs.backed.reserve0
      · rw [h.rest]
        exact hs.backed.reserve1
    · rw [h.rest]
      exact hs.unlocked
  have hwith0 : ∀ {t : Option Ledger}, (∀ t', t = some t' → s.ledger0 addr.1 ≤ t' addr.1) →
      (s.with0 t).Sound ∧ s.pair.Kept (s.with0 t).pair := by
    intro t ht
    cases t with
    | none => exact hstay
    | some t' => exact sound_ledgers hs (ht t' rfl) le_rfl
  have hwith1 : ∀ {t : Option Ledger}, (∀ t', t = some t' → s.ledger1 addr.1 ≤ t' addr.1) →
      (s.with1 t).Sound ∧ s.pair.Kept (s.with1 t).pair := by
    intro t ht
    cases t with
    | none => exact hstay
    | some t' => exact sound_ledgers hs le_rfl (ht t' rfl)
  cases c with
  | mint now sender recipient =>
    rw [Pool.call]
    exact hgetD fun s' h => sound_mint hs h
  | burn now recipient =>
    rw [Pool.call]
    exact hgetD fun s' h => sound_burn hs h
  | swap now amount0Out amount1Out recipient inner ok =>
    rw [Pool.call]
    cases hsent : s.startSwap amount0Out amount1Out recipient with
    | none => exact hstay
    | some sent =>
      dsimp only
      split_ifs
      · exact hgetD fun s' h => sound_swap hs hsent h
      · exact hstay
  | sync now =>
    rw [Pool.call]
    exact hgetD fun s' h => sound_sync hs h
  | transfer sender recipient value =>
    rw [Pool.call]
    exact hshuffled fun p' h => Pair.shuffled_transfer (fun hz => absurd hz sender.2.1) h
  | transferFrom sender source recipient value =>
    rw [Pool.call]
    exact hshuffled fun p' h => Pair.shuffled_transferFrom hs.shares h
  | approve sender spender value =>
    rw [Pool.call]
    refine hshuffled fun p' h => ?_
    cases h
    exact Pair.shuffled_approve _ sender.2.1 spender
  | move0 source recipient value =>
    rw [Pool.call]
    exact hwith0 fun t' h => Ledger.le_transfer h (Ne.symm source.2.2)
  | move1 source recipient value =>
    rw [Pool.call]
    exact hwith1 fun t' h => Ledger.le_transfer h (Ne.symm source.2.2)
  | add0 recipient value =>
    rw [Pool.call]
    exact hwith0 fun t' h => Ledger.le_add h _
  | add1 recipient value =>
    rw [Pool.call]
    exact hwith1 fun t' h => Ledger.le_add h _
  | take0 source value =>
    rw [Pool.call]
    exact hwith0 fun t' h => (Ledger.take_of_ne h (Ne.symm source.2.2)).ge
  | take1 source value =>
    rw [Pool.call]
    exact hwith1 fun t' h => (Ledger.take_of_ne h (Ne.symm source.2.2)).ge

theorem sound_created (token0 token1 graduator : Address) (ledger0 ledger1 : Ledger) :
    Sound (created token0 token1 graduator ledger0 ledger1 : Pool addr) :=
  ⟨⟨Finset.sum_const_zero, fun _ => rfl, .inl rfl⟩, ⟨Nat.zero_le _, Nat.zero_le _⟩, rfl⟩

theorem Reachable.sound (h : s.Reachable) : s.Sound := by
  induction h with
  | created token0 token1 graduator ledger0 ledger1 => exact sound_created ..
  | call c _ ih => exact (ih.call c).1

/-- **No call takes value from a unit of liquidity**: from every state that calls can reach, after one more of them the
pair still holds its reserves, and if there was liquidity there still is, with no smaller product of the reserves over the
square of its supply. -/
theorem liquidity_kept (h : s.Reachable) (c : Call addr) :
    (0 < s.pair.totalSupply →
      0 < (s.call c).pair.totalSupply ∧
        s.pair.reserve0 * s.pair.reserve1 * (s.call c).pair.totalSupply ^ 2 ≤
          (s.call c).pair.reserve0 * (s.call c).pair.reserve1 * s.pair.totalSupply ^ 2) ∧
      (s.call c).pair.reserve0 ≤ (s.call c).ledger0 addr.1 ∧ (s.call c).pair.reserve1 ≤ (s.call c).ledger1 addr.1 := by
  obtain ⟨hsound, hkept⟩ := h.sound.call c
  exact ⟨hkept, hsound.backed.reserve0, hsound.backed.reserve1⟩

def sampleAddr : ContractAddress := ⟨99, by decide⟩

def trader : Caller sampleAddr := ⟨7, by decide, by decide⟩

/-- Liquidity of 2000 and 2000, given by 7, who then has 500 of the first token. -/
def sampleCalls : List (Call sampleAddr) := [.add0 99 2000, .add1 99 2000, .mint 1 trader 7, .add0 7 500]

def samplePool : Pool sampleAddr := (created 11 12 zeroAddress (fun _ => 0) fun _ => 0).calls sampleCalls

/-- A flash swap: 100 of the second token are lent, and its callback pays 120 of the first. -/
def flashSwap : Call sampleAddr := .swap 2 0 100 7 [.move0 trader 99 120, .sync 2] true

theorem Reachable.calls (cs : List (Call addr)) : ∀ {s : Pool addr}, s.Reachable → (s.calls cs).Reachable := by
  induction cs with
  | nil =>
    intro s h
    rw [Pool.calls]
    exact h
  | cons c cs ih =>
    intro s h
    rw [Pool.calls]
    exact ih (h.call c)

theorem liquidity_kept_flashSwap :
    samplePool.pair.totalSupply = 2000 ∧ (samplePool.call flashSwap).pair.reserve0 = 2120 ∧
      (samplePool.call flashSwap).pair.reserve1 = 1900 ∧
      samplePool.pair.reserve0 * samplePool.pair.reserve1 * (samplePool.call flashSwap).pair.totalSupply ^ 2 ≤
        (samplePool.call flashSwap).pair.reserve0 * (samplePool.call flashSwap).pair.reserve1 *
          samplePool.pair.totalSupply ^ 2 := by
  have hsupply : samplePool.pair.totalSupply = 2000 := by decide +kernel
  have hreach : samplePool.Reachable := (Reachable.created 11 12 zeroAddress (fun _ => 0) fun _ => 0).calls sampleCalls
  have hpos : 0 < samplePool.pair.totalSupply := by rw [hsupply]; norm_num
  exact ⟨hsupply, by decide +kernel, by decide +kernel, ((liquidity_kept hreach flashSwap).1 hpos).2⟩

end Pool

end Lxs.Contracts
