import Lxs.Contracts.Swap

/-!
# The quotes of the router

`getAmountOut` of `LxsRouter.sol` against `swap` of the pair: the router divides and rounds down, the pair compares scaled
products.

* `quote_exact`: **the quote is the exact limit of the pair**, for every recipient but the pair itself and its tokens.
-/

namespace Lxs.Contracts

/-- `getAmountOut`, in checked arithmetic. -/
def getAmountOut (amountIn rIn rOut : ℕ) : Option ℕ := do
  guard (0 < amountIn ∧ 0 < rIn ∧ 0 < rOut)
  let inWithFee ← checkedMul amountIn 997
  let num ← checkedMul inWithFee rOut
  let scaled ← checkedMul rIn 1000
  let den ← checkedAdd scaled inWithFee
  checkedDiv num den

namespace Pool

variable {addr : ContractAddress}

/-- `swap` with empty data, which calls nobody. -/
def swap (s : Pool addr) (now amount0Out amount1Out : ℕ) (recipient : Address) : Option (Pool addr) := do
  let s ← s.startSwap amount0Out amount1Out recipient
  s.endSwap now amount0Out amount1Out

/-! The two directions: the first token comes in (`zeroIn`), or the second. -/

def reserveIn (s : Pool addr) (zeroIn : Bool) : ℕ := if zeroIn then s.pair.reserve0 else s.pair.reserve1

def reserveOut (s : Pool addr) (zeroIn : Bool) : ℕ := if zeroIn then s.pair.reserve1 else s.pair.reserve0

def ledgerIn (s : Pool addr) (zeroIn : Bool) : Ledger := if zeroIn then s.ledger0 else s.ledger1

def ledgerOut (s : Pool addr) (zeroIn : Bool) : Ledger := if zeroIn then s.ledger1 else s.ledger0

def pay (s : Pool addr) (zeroIn : Bool) (payer : Address) (amount : ℕ) : Option (Pool addr) :=
  ((s.ledgerIn zeroIn).transfer payer addr.1 amount).map fun t =>
    if zeroIn then { s with ledger0 := t } else { s with ledger1 := t }

def swapFor (s : Pool addr) (zeroIn : Bool) (now out : ℕ) (recipient : Address) : Option (Pool addr) :=
  if zeroIn then s.swap now 0 out recipient else s.swap now out 0 recipient

end Pool

/-! ### The arithmetic -/

theorem product_iff_quote {rIn rOut amountIn out : ℕ} (hin : 0 < amountIn) (hout : out ≤ rOut) :
    rIn * rOut * 1000 ^ 2 ≤ ((rIn + amountIn) * 1000 - amountIn * 3) * ((rOut - out) * 1000 - 0 * 3) ↔
      out ≤ amountIn * 997 * rOut / (rIn * 1000 + amountIn * 997) := by
  have hpos : 0 < rIn * 1000 + amountIn * 997 := by omega
  obtain ⟨left, rfl⟩ := Nat.exists_eq_add_of_le hout
  have hscaled : (rIn + amountIn) * 1000 - amountIn * 3 = rIn * 1000 + amountIn * 997 := by omega
  have hleft : (out + left - out) * 1000 - 0 * 3 = left * 1000 := by
    rw [Nat.add_sub_cancel_left, Nat.zero_mul, Nat.sub_zero]
  rw [Nat.le_div_iff_mul_le hpos, hscaled, hleft]
  constructor
  · intro h
    nlinarith
  · intro h
    nlinarith

theorem quote_lt {rIn rOut amountIn : ℕ} (hrIn : 0 < rIn) (hrOut : 0 < rOut) :
    amountIn * 997 * rOut / (rIn * 1000 + amountIn * 997) < rOut := by
  rw [Nat.div_lt_iff_lt_mul (by omega)]
  nlinarith

theorem getAmountOut_eq {rIn rOut amountIn : ℕ} (hin : 0 < amountIn) (hrIn : 0 < rIn) (hrOut : 0 < rOut)
    (hfit : rIn + amountIn < 2 ^ 112) (hfit' : rOut < 2 ^ 112) :
    getAmountOut amountIn rIn rOut = some (amountIn * 997 * rOut / (rIn * 1000 + amountIn * 997)) := by
  have hsum : rIn * 1000 + amountIn * 997 < 2 ^ 122 := by omega
  have hbig : (2 : ℕ) ^ 122 ≤ 2 ^ 256 := by norm_num
  have hfee : amountIn * 997 < 2 ^ 122 := (Nat.le_add_left _ _).trans_lt hsum
  have hscaled : rIn * 1000 < 2 ^ 122 := (Nat.le_add_right _ _).trans_lt hsum
  have hnum : amountIn * 997 * rOut < 2 ^ 256 :=
    calc amountIn * 997 * rOut ≤ 2 ^ 122 * 2 ^ 112 := Nat.mul_le_mul hfee.le hfit'.le
      _ < 2 ^ 256 := by norm_num
  have hden : 0 < rIn * 1000 + amountIn * 997 := by omega
  unfold getAmountOut
  simp only [hin, hrIn, hrOut, and_self, guard_true, Option.bind_eq_bind, Option.pure_def, Option.bind_some,
    checkedMul_eq (hfee.trans_le hbig),
    checkedMul_eq (hscaled.trans_le hbig), checkedMul_eq hnum, checkedAdd_eq (hsum.trans_le hbig), checkedDiv_eq hden]

/-! ### The swap -/

namespace Pool

variable {addr : ContractAddress} {s s' : Pool addr} {now amount0Out amount1Out : ℕ} {recipient payer : Address}

theorem scaled_lt {balance : ℕ} (h : balance < 2 ^ 112) : balance * 1000 < 2 ^ 122 := by omega

theorem amountIn_le (balance reserve out : ℕ) : amountIn balance reserve out ≤ balance := by
  unfold amountIn
  split <;> omega

theorem endSwap_isSome_iff (h0 : s.ledger0 addr.1 < 2 ^ 112) (h1 : s.ledger1 addr.1 < 2 ^ 112) :
    (s.endSwap now amount0Out amount1Out).isSome ↔
      (0 < amountIn (s.ledger0 addr.1) s.pair.reserve0 amount0Out ∨ 0 < amountIn (s.ledger1 addr.1) s.pair.reserve1 amount1Out) ∧
      s.pair.reserve0 * s.pair.reserve1 * 1000 ^ 2 ≤
        (s.ledger0 addr.1 * 1000 - amountIn (s.ledger0 addr.1) s.pair.reserve0 amount0Out * 3) *
          (s.ledger1 addr.1 * 1000 - amountIn (s.ledger1 addr.1) s.pair.reserve1 amount1Out * 3) := by
  have hin0 := amountIn_le (s.ledger0 addr.1) s.pair.reserve0 amount0Out
  have hin1 := amountIn_le (s.ledger1 addr.1) s.pair.reserve1 amount1Out
  unfold endSwap
  dsimp only
  generalize s.ledger0 addr.1 = b0 at *
  generalize s.ledger1 addr.1 = b1 at *
  generalize amountIn b0 s.pair.reserve0 amount0Out = in0 at *
  generalize amountIn b1 s.pair.reserve1 amount1Out = in1 at *
  have hsub0 : in0 * 3 ≤ b0 * 1000 := by omega
  have hsub1 : in1 * 3 ≤ b1 * 1000 := by omega
  have hx0 := scaled_lt h0
  have hx1 := scaled_lt h1
  have hk : (b0 * 1000 - in0 * 3) * (b1 * 1000 - in1 * 3) < 2 ^ 256 :=
    calc (b0 * 1000 - in0 * 3) * (b1 * 1000 - in1 * 3) ≤ 2 ^ 122 * 2 ^ 122 :=
          Nat.mul_le_mul ((Nat.sub_le _ _).trans hx0.le) ((Nat.sub_le _ _).trans hx1.le)
      _ < 2 ^ 256 := by norm_num
  have hbig : (2 : ℕ) ^ 122 ≤ 2 ^ 256 := by norm_num
  obtain ⟨p, hp⟩ : ∃ p, s.pair.update now b0 b1 s.pair.reserve0 s.pair.reserve1 = some p := Pair.exists_update h0 h1
  rw [Option.isSome_iff_exists]
  simp only [Option.bind_eq_bind, Option.bind_eq_some_iff, Option.guard_eq_some', exists_const, hp, Option.some.injEq,
    checkedMul_eq (hx0.trans_le hbig), checkedMul_eq (hx1.trans_le hbig), checkedMul_eq ((hsub0.trans_lt hx0).trans_le hbig),
    checkedMul_eq ((hsub1.trans_lt hx1).trans_le hbig), checkedSub_eq hsub0, checkedSub_eq hsub1, checkedMul_eq hk,
    Option.pure_def, exists_eq_left', exists_and_left, exists_eq', and_true]

/-- What the pair has left of the output, on the scale of the product check. -/
def scaledLeft (addr : ContractAddress) (recipient : Address) (rOut out : ℕ) : ℕ :=
  if recipient = addr.1 then rOut * 1000 - out * 3 else (rOut - out) * 1000 - 0 * 3

theorem amountIn_paid (reserve amount : ℕ) : amountIn (reserve + amount) reserve 0 = amount := by
  unfold amountIn
  split <;> omega

variable {rIn rOut out paid : ℕ}

theorem left_after {t t' : Ledger} (ht : t addr.1 = rOut) (hpos : 0 < out) (hout : out < rOut)
    (h : t.transfer addr.1 recipient out = some t') :
    t' addr.1 ≤ rOut ∧ t' addr.1 * 1000 - amountIn (t' addr.1) rOut out * 3 = scaledLeft addr recipient rOut out := by
  by_cases hself : recipient = addr.1
  · subst hself
    obtain ⟨rest, bal, hrest, rfl, rfl⟩ := Ledger.transfer_some h
    rw [Function.update_self, Function.update_self, scaledLeft, if_pos rfl, amountIn, if_pos (by omega)]
    constructor
    · omega
    · congr 2 <;> omega
  · have hleft := Ledger.transfer_source h (Ne.symm hself)
    rw [scaledLeft, if_neg hself, amountIn, if_neg (by omega)]
    constructor
    · omega
    · congr 2
      omega

theorem startSwap_eq_some : s.startSwap amount0Out amount1Out recipient = some s' ↔
    s.pair.unlocked = true ∧ (0 < amount0Out ∨ 0 < amount1Out) ∧
      (amount0Out < s.pair.reserve0 ∧ amount1Out < s.pair.reserve1) ∧
      (recipient ≠ s.pair.token0 ∧ recipient ≠ s.pair.token1) ∧ ∃ t₀ t₁,
        (if 0 < amount0Out then s.ledger0.transfer addr.1 recipient amount0Out else some s.ledger0) = some t₀ ∧
        (if 0 < amount1Out then s.ledger1.transfer addr.1 recipient amount1Out else some s.ledger1) = some t₁ ∧
        s' = ⟨{ s.pair with unlocked := false }, t₀, t₁⟩ := by
  simp only [startSwap, Option.bind_eq_bind, Option.bind_eq_some_iff, Option.guard_eq_some', exists_const, Option.pure_def,
    Option.some.injEq, exists_and_left, eq_comm (a := s')]

def sent (s : Pool addr) (zeroIn : Bool) (t : Ledger) : Pool addr :=
  ⟨{ s.pair with unlocked := false }, if zeroIn then s.ledger0 else t, if zeroIn then t else s.ledger1⟩

def endFor (s : Pool addr) (zeroIn : Bool) (now out : ℕ) : Option (Pool addr) :=
  if zeroIn then s.endSwap now 0 out else s.endSwap now out 0

variable {zeroIn : Bool}

theorem swapFor_isSome_iff (hunlocked : s.pair.unlocked = true) (hpos : 0 < out) (hr : 0 < s.reserveIn zeroIn) :
    (s.swapFor zeroIn now out recipient).isSome ↔ out < s.reserveOut zeroIn ∧
      (recipient ≠ s.pair.token0 ∧ recipient ≠ s.pair.token1) ∧
      ∃ t, (s.ledgerOut zeroIn).transfer addr.1 recipient out = some t ∧ ((s.sent zeroIn t).endFor zeroIn now out).isSome := by
  have hswap {a₀ a₁ : ℕ} : (s.swap now a₀ a₁ recipient).isSome ↔
      ∃ s₁, s.startSwap a₀ a₁ recipient = some s₁ ∧ (s₁.endSwap now a₀ a₁).isSome := by
    unfold swap
    cases s.startSwap a₀ a₁ recipient <;> simp
  cases zeroIn with
  | true =>
    show (s.swap now 0 out recipient).isSome ↔ _
    rw [hswap]
    simp only [startSwap_eq_some, hunlocked, hpos, show 0 < s.pair.reserve0 from hr, lt_irrefl, if_false, if_true, or_true,
      true_and, Option.some.injEq]
    constructor
    · rintro ⟨s₁, ⟨hout, hrecipient, t₀, t, rfl, ht, rfl⟩, hend⟩
      exact ⟨hout, hrecipient, t, ht, hend⟩
    · rintro ⟨hout, hrecipient, t, ht, hend⟩
      exact ⟨_, ⟨hout, hrecipient, _, t, rfl, ht, rfl⟩, hend⟩
  | false =>
    show (s.swap now out 0 recipient).isSome ↔ _
    rw [hswap]
    simp only [startSwap_eq_some, hunlocked, hpos, show 0 < s.pair.reserve1 from hr, lt_irrefl, if_false, if_true, true_or,
      true_and, and_true, Option.some.injEq]
    constructor
    · rintro ⟨s₁, ⟨hout, hrecipient, t, t₁, ht, rfl, rfl⟩, hend⟩
      exact ⟨hout, hrecipient, t, ht, hend⟩
    · rintro ⟨hout, hrecipient, t, ht, hend⟩
      exact ⟨_, ⟨hout, hrecipient, t, _, ht, rfl, rfl⟩, hend⟩

theorem endFor_isSome_iff {t : Ledger} (hpaid : 0 < paid) (hin : s.ledgerIn zeroIn addr.1 = s.reserveIn zeroIn + paid)
    (hfit : s.reserveIn zeroIn + paid < 2 ^ 112) (ht : t addr.1 < 2 ^ 112) :
    ((s.sent zeroIn t).endFor zeroIn now out).isSome ↔ s.reserveIn zeroIn * s.reserveOut zeroIn * 1000 ^ 2 ≤
      ((s.reserveIn zeroIn + paid) * 1000 - paid * 3) * (t addr.1 * 1000 - amountIn (t addr.1) (s.reserveOut zeroIn) out * 3) := by
  cases zeroIn with
  | true =>
    have hin : s.ledger0 addr.1 = s.pair.reserve0 + paid := hin
    have hend : ((s.sent true t).endSwap now 0 out).isSome ↔ _ := endSwap_isSome_iff (hin ▸ hfit) ht
    simp only [sent, if_true, hin, amountIn_paid] at hend
    exact hend.trans (and_iff_right (.inl hpaid))
  | false =>
    have hin : s.ledger1 addr.1 = s.pair.reserve1 + paid := hin
    have hend : ((s.sent false t).endSwap now out 0).isSome ↔ _ := endSwap_isSome_iff ht (hin ▸ hfit)
    simp only [sent, if_false, Bool.false_eq_true, hin, amountIn_paid] at hend
    rw [Nat.mul_comm (s.reserveIn false), Nat.mul_comm (_ - paid * 3)]
    exact hend.trans (and_iff_right (.inr hpaid))

theorem swapFor_iff (hunlocked : s.pair.unlocked = true) (hpos : 0 < out) (hpaid : 0 < paid) (hr : 0 < s.reserveIn zeroIn)
    (hin : s.ledgerIn zeroIn addr.1 = s.reserveIn zeroIn + paid) (hout : s.ledgerOut zeroIn addr.1 = s.reserveOut zeroIn)
    (hfit : s.reserveIn zeroIn + paid < 2 ^ 112) (hfit' : s.reserveOut zeroIn < 2 ^ 112)
    (hsum : ∑ a, s.ledgerOut zeroIn a < 2 ^ 256) :
    (s.swapFor zeroIn now out recipient).isSome ↔ out < s.reserveOut zeroIn ∧
      (recipient ≠ s.pair.token0 ∧ recipient ≠ s.pair.token1) ∧ s.reserveIn zeroIn * s.reserveOut zeroIn * 1000 ^ 2 ≤
        ((s.reserveIn zeroIn + paid) * 1000 - paid * 3) * scaledLeft addr recipient (s.reserveOut zeroIn) out := by
  rw [swapFor_isSome_iff hunlocked hpos hr]
  refine and_congr_right fun hlt => and_congr_right fun _ => ?_
  constructor
  · rintro ⟨t, ht, hend⟩
    obtain ⟨hle, hscaled⟩ := left_after hout hpos hlt ht
    rwa [endFor_isSome_iff hpaid hin hfit (hle.trans_lt hfit'), hscaled] at hend
  · intro hk
    obtain ⟨t, ht⟩ : ∃ t, (s.ledgerOut zeroIn).transfer addr.1 recipient out = some t :=
      Ledger.exists_transfer (hout ▸ hlt.le) hsum
    obtain ⟨hle, hscaled⟩ := left_after hout hpos hlt ht
    refine ⟨t, ht, ?_⟩
    rwa [endFor_isSome_iff hpaid hin hfit (hle.trans_lt hfit'), hscaled]

theorem pay_some (h : s.pay zeroIn payer paid = some s') (hpayer : payer ≠ addr.1) : s'.pair = s.pair ∧
    s'.ledgerIn zeroIn addr.1 = s.ledgerIn zeroIn addr.1 + paid ∧ s'.ledgerOut zeroIn = s.ledgerOut zeroIn := by
  obtain ⟨t, ht, rfl⟩ := Option.map_eq_some_iff.1 h
  have hbal := Ledger.transfer_recipient ht hpayer
  cases zeroIn with
  | true => exact ⟨rfl, hbal, rfl⟩
  | false => exact ⟨rfl, hbal, rfl⟩

/-- **The quote of the router is the exact limit of the pair.** After the input was paid into a pair whose reserves are its
balances, a swap for `out` units goes through exactly when `out` is at most the quote, for every recipient other than the
pair and its tokens. The tokens are refused as recipients; to the pair itself the output does not leave, and only the fee on
it counts. -/
theorem quote_exact (hunlocked : s.pair.unlocked = true) (hsync : s.ledgerIn zeroIn addr.1 = s.reserveIn zeroIn)
    (hsync' : s.ledgerOut zeroIn addr.1 = s.reserveOut zeroIn) (hrIn : 0 < s.reserveIn zeroIn)
    (hrOut : 0 < s.reserveOut zeroIn) (hfit' : s.reserveOut zeroIn < 2 ^ 112) (hsum : ∑ a, s.ledgerOut zeroIn a < 2 ^ 256)
    (hpaid : 0 < paid) (hfit : s.reserveIn zeroIn + paid < 2 ^ 112) (hpayer : payer ≠ addr.1)
    (h : s.pay zeroIn payer paid = some s') :
    ∃ quote, getAmountOut paid (s.reserveIn zeroIn) (s.reserveOut zeroIn) = some quote ∧ quote < s.reserveOut zeroIn ∧
      ∀ now out recipient, 0 < out →
        (recipient = s.pair.token0 ∨ recipient = s.pair.token1 → s'.swapFor zeroIn now out recipient = none) ∧
        (recipient ≠ s.pair.token0 → recipient ≠ s.pair.token1 → recipient ≠ addr.1 →
          ((s'.swapFor zeroIn now out recipient).isSome ↔ out ≤ quote)) ∧
        (recipient ≠ s.pair.token0 → recipient ≠ s.pair.token1 → recipient = addr.1 →
          ((s'.swapFor zeroIn now out recipient).isSome ↔ out < s.reserveOut zeroIn ∧
            s.reserveIn zeroIn * s.reserveOut zeroIn * 1000 ^ 2 ≤
              ((s.reserveIn zeroIn + paid) * 1000 - paid * 3) * (s.reserveOut zeroIn * 1000 - out * 3))) := by
  refine ⟨_, getAmountOut_eq hpaid hrIn hrOut hfit hfit', quote_lt hrIn hrOut, fun now out recipient hpos => ?_⟩
  obtain ⟨hpair, hin, hout⟩ := pay_some h hpayer
  have hreserveIn : s'.reserveIn zeroIn = s.reserveIn zeroIn := by unfold reserveIn; rw [hpair]
  have hreserveOut : s'.reserveOut zeroIn = s.reserveOut zeroIn := by unfold reserveOut; rw [hpair]
  have hiff : (s'.swapFor zeroIn now out recipient).isSome ↔ _ := swapFor_iff (hpair ▸ hunlocked) hpos hpaid
    (hreserveIn ▸ hrIn) (by rw [hin, hsync, hreserveIn]) (by rw [hout, hsync', hreserveOut]) (hreserveIn ▸ hfit)
    (hreserveOut ▸ hfit') (hout ▸ hsum)
  rw [hreserveIn, hreserveOut, hpair] at hiff
  refine ⟨fun htoken => ?_, fun h0 h1 hne => ?_, fun h0 h1 heq => ?_⟩
  · rw [← Option.not_isSome_iff_eq_none, hiff]
    exact fun hsome => htoken.elim hsome.2.1.1 hsome.2.1.2
  · rw [hiff, and_iff_right (show recipient ≠ s.pair.token0 ∧ recipient ≠ s.pair.token1 from ⟨h0, h1⟩), scaledLeft, if_neg hne]
    constructor
    · rintro ⟨hlt, hk⟩
      exact (product_iff_quote hpaid hlt.le).1 hk
    · intro hle
      have hlt := hle.trans_lt (quote_lt hrIn hrOut)
      exact ⟨hlt, (product_iff_quote hpaid hlt.le).2 hle⟩
  · rw [hiff, and_iff_right (show recipient ≠ s.pair.token0 ∧ recipient ≠ s.pair.token1 from ⟨h0, h1⟩), scaledLeft, if_pos heq]

/-- A pair at 9 with a thousand units of each token, and a trader at 7 with 500 units of the first. -/
def market : Pool ⟨9, by decide⟩ where
  pair := ⟨1, 2, 0, 1000, fun _ => 0, fun _ _ => 0, 1000, 1000, 0, 0, 0, true⟩
  ledger0 a := if a = 9 then 1000 else if a = 7 then 500 else 0
  ledger1 a := if a = 9 then 1000 else 0

/-- The trader sells 500 units and may take 332, and not 333. -/
theorem quote_exact_market : ∃ s', market.pay true 7 500 = some s' ∧ getAmountOut 500 1000 1000 = some 332 ∧
    (s'.swapFor true 0 332 7).isSome ∧ ¬(s'.swapFor true 0 333 7).isSome := by
  have hsum : ∑ a, market.ledgerOut true a < 2 ^ 256 := by
    show ∑ a : Address, (if a = 9 then 1000 else 0) < 2 ^ 256
    rw [Finset.sum_ite_eq' Finset.univ (9 : Address) fun _ => 1000]
    norm_num
  obtain ⟨s', h⟩ : ∃ s', market.pay true 7 500 = some s' := Option.isSome_iff_exists.1 (by decide +kernel)
  obtain ⟨quote, hquote, -, hswap⟩ := @quote_exact _ _ _ _ 500 true rfl rfl rfl (by decide) (by decide) (by decide) hsum
    (by decide) (by decide) (by decide) h
  have hvalue : getAmountOut 500 1000 1000 = some 332 := by decide
  obtain rfl : 332 = quote := Option.some.inj (hvalue.symm.trans hquote)
  refine ⟨s', h, hvalue, ?_, ?_⟩
  · exact ((hswap 0 332 7 (by decide)).2.1 (by decide) (by decide) (by decide)).2 (by decide)
  · rw [(hswap 0 333 7 (by decide)).2.1 (by decide) (by decide) (by decide)]
    decide

/-- **To the pair itself more than the quote goes through.** -/
theorem swap_to_pair_beyond_quote : getAmountOut 500 1000 1000 = some 332 ∧
    ((market.pay true 7 500).bind fun s => s.swapFor true 0 333 9).isSome := by
  decide +kernel

end Pool

end Lxs.Contracts
