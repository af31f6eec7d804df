import Lxs.Contracts.Wlxs

/-!
# A coin on its curve

`PumpCoin` of `BondingCurve.sol` as `PumpFactory` creates it, with the contracts it moves to when it graduates: `WLXS` and its
own gated pair. Native balances are part of the state, so a payout needs the funds. Calls that pay somebody, or that ask
somebody back, wait for other code in between, and that code may call anything.

* `solvent`: **the coin holds what it owes in every moment**, its supply adds up, and no payment of it lacks funds.
-/

namespace Lxs.Contracts

open Lib

/-! ### The place -/

/-- What the factory fixes: the contracts' addresses, its fee, and its exchange, zero for none. -/
structure Site where
  coin : ContractAddress
  wlxs : ContractAddress
  pair : ContractAddress
  coin_ne_wlxs : coin.1 ≠ wlxs.1
  coin_ne_pair : coin.1 ≠ pair.1
  wlxs_ne_pair : wlxs.1 ≠ pair.1
  swapFactory : Address
  feeRecipient : Address
  feeBps : ℕ
  feeBps_le : feeBps ≤ 1000

/-- The contracts' addresses and the zero address send nothing of their own. -/
def Outsider (t : Site) := { a : Address // a ≠ zeroAddress ∧ a ≠ t.coin.1 ∧ a ≠ t.wlxs.1 ∧ a ≠ t.pair.1 }

def ether : ℕ := 10 ^ 18

def curveSupply : ℕ := 800000000 * ether

def virtualNative : ℕ := 30 * ether

def gradTarget : ℕ := 300 * ether

/-! ### The coin -/

structure PumpCoin where
  totalSupply : ℕ
  balanceOf : Ledger
  allowance : Address → Address → ℕ
  reserveNative : ℕ
  curveTokens : ℕ
  feeAccrued : ℕ
  graduated : Bool
  unlocked : Bool

namespace PumpCoin

/-- `_mint` -/
def issue (c : PumpCoin) (recipient : Address) (v : ℕ) : Option PumpCoin :=
  (c.balanceOf.issue c.totalSupply recipient v).map fun r => { c with totalSupply := r.1, balanceOf := r.2 }

/-- `_burn` -/
def destroy (c : PumpCoin) (source : Address) (v : ℕ) : Option PumpCoin :=
  (c.balanceOf.destroy c.totalSupply source v).map fun r => { c with totalSupply := r.1, balanceOf := r.2 }

/-- `_transfer` -/
def transfer (c : PumpCoin) (source recipient : Address) (v : ℕ) : Option PumpCoin := do
  let balances ← c.balanceOf.transfer source recipient v
  return { c with balanceOf := balances }

def approve (c : PumpCoin) (sender spender : Address) (v : ℕ) : PumpCoin :=
  { c with allowance := Function.update c.allowance sender (Function.update (c.allowance sender) spender v) }

def spend (c : PumpCoin) (sender source : Address) (rest : ℕ) : PumpCoin :=
  { c with allowance := Function.update c.allowance source (Function.update (c.allowance source) sender rest) }

def transferFrom (c : PumpCoin) (sender source recipient : Address) (v : ℕ) : Option PumpCoin :=
  let a := c.allowance source sender
  if a < v then none
  else if a ≠ 2 ^ 256 - 1 then (c.spend sender source (a - v)).transfer source recipient v
  else c.transfer source recipient v

def buyOut (c : PumpCoin) (inAmt : ℕ) : Option ℕ := do
  let eff ← checkedAdd virtualNative c.reserveNative
  let k ← checkedMul eff c.curveTokens
  let d ← checkedAdd eff inAmt
  let q ← checkedDiv k d
  checkedSub c.curveTokens q

/-- What a sell releases, before its fee and at most what the curve holds. -/
def grossOut (c : PumpCoin) (amount : ℕ) : Option ℕ := do
  let eff ← checkedAdd virtualNative c.reserveNative
  let k ← checkedMul eff c.curveTokens
  let d ← checkedAdd c.curveTokens amount
  let q ← checkedDiv k d
  let gross ← checkedSub eff q
  return if c.reserveNative < gross then c.reserveNative else gross

end PumpCoin

/-! ### All of it -/

structure World (t : Site) where
  coin : PumpCoin
  wlxs : WLXS
  pair : Pair
  native : Ledger

namespace World

variable {t : Site}

def pool (w : World t) : Pool t.pair :=
  if t.coin.1 < t.wlxs.1 then ⟨w.pair, w.coin.balanceOf, w.wlxs.balanceOf⟩
  else ⟨w.pair, w.wlxs.balanceOf, w.coin.balanceOf⟩

def setPool (w : World t) (s : Pool t.pair) : World t :=
  { w with
    pair := s.pair
    coin := { w.coin with balanceOf := if t.coin.1 < t.wlxs.1 then s.ledger0 else s.ledger1 }
    wlxs := { w.wlxs with balanceOf := if t.coin.1 < t.wlxs.1 then s.ledger1 else s.ledger0 } }

def wrapping (w : World t) : Wrapping t.wlxs := ⟨w.wlxs, w.native⟩

def setWrapping (w : World t) (x : Wrapping t.wlxs) : World t := { w with wlxs := x.wlxs, native := x.native }

/-- `WLXS.deposit` with a value. -/
def deposit (w : World t) (sender : Address) (value : ℕ) : Option (World t) :=
  (w.wrapping.deposit sender value).map w.setWrapping

/-- `_graduate` -/
def graduate (w : World t) (now : ℕ) : Option (World t) := do
  let tokenLiq := w.coin.curveTokens
  let nativeLiq := w.coin.reserveNative
  let c ← { w.coin with graduated := true, curveTokens := 0, reserveNative := 0 }.issue t.coin.1 tokenLiq
  let w ← ({ w with coin := c } : World t).deposit t.coin.1 nativeLiq
  let c ← w.coin.transfer t.coin.1 t.pair.1 tokenLiq
  let x ← w.wlxs.transfer t.coin.1 t.pair.1 nativeLiq
  let w : World t := { w with coin := c, wlxs := x }
  let s ← w.pool.mint now t.coin.1 zeroAddress
  return w.setPool s

def fee (t : Site) (amount : ℕ) : Option ℕ := do
  let x ← checkedMul amount t.feeBps
  return x / 10000

/-- `buyTo` up to graduation. -/
def buyCurve (w : World t) (value minTokensOut : ℕ) (sender recipient : Address) : Option (World t) := do
  let c := w.coin
  let native ← w.native.transfer sender t.coin.1 value
  guard (c.unlocked = true)
  guard (c.graduated = false)
  guard (0 < value)
  guard (recipient ≠ zeroAddress)
  let fee ← fee t value
  let inAmt ← checkedSub value fee
  let out ← c.buyOut inAmt
  guard (minTokensOut ≤ out)
  guard (out ≤ c.curveTokens)
  let reserve ← checkedAdd c.reserveNative inAmt
  let tokens ← checkedSub c.curveTokens out
  let fees ← checkedAdd c.feeAccrued fee
  let c ← { c with reserveNative := reserve, curveTokens := tokens, feeAccrued := fees }.issue recipient out
  return { w with coin := c, native := native }

def buyTo (w : World t) (now value minTokensOut : ℕ) (sender recipient : Address) : Option (World t) := do
  let w ← w.buyCurve value minTokensOut sender recipient
  if t.swapFactory ≠ zeroAddress ∧ gradTarget ≤ w.coin.reserveNative then w.graduate now else some w

/-- `sell` up to the seller's code: the curve is settled and the seller is paid. -/
def startSell (w : World t) (sender : Address) (amount minNativeOut : ℕ) : Option (World t) := do
  let c := w.coin
  guard (c.unlocked = true)
  guard (c.graduated = false)
  guard (0 < amount ∧ amount ≤ c.balanceOf sender)
  let gross ← c.grossOut amount
  let fee ← fee t gross
  let out ← checkedSub gross fee
  guard (minNativeOut ≤ out)
  let tokens ← checkedAdd c.curveTokens amount
  let reserve ← checkedSub c.reserveNative gross
  let fees ← checkedAdd c.feeAccrued fee
  let c ← { c with
    curveTokens := tokens, reserveNative := reserve, feeAccrued := fees, unlocked := false }.destroy sender amount
  let native ← w.native.transfer t.coin.1 sender out
  return { w with coin := c, native := native }

/-- `withdrawFees` up to the recipient's code. The coin and the pair take no native, and `WLXS` wraps it. -/
def startWithdrawFees (w : World t) : Option (World t) := do
  guard (w.coin.unlocked = true)
  let f := w.coin.feeAccrued
  let w : World t := { w with coin := { w.coin with feeAccrued := 0, unlocked := false } }
  if f = 0 then some w
  else if t.feeRecipient = t.coin.1 ∨ t.feeRecipient = t.pair.1 then none
  else if t.feeRecipient = t.wlxs.1 then w.deposit t.coin.1 f
  else
    let native ← w.native.transfer t.coin.1 t.feeRecipient f
    return { w with native := native }

/-- `WLXS.withdraw` up to the owner's code. -/
def startWithdraw (w : World t) (sender : Address) (value : ℕ) : Option (World t) :=
  (w.wrapping.startWithdraw sender value).map w.setWrapping

end World

/-! ### Calls -/

inductive Act (t : Site)
  | buyTo (now value minTokensOut : ℕ) (sender : Outsider t) (recipient : Address)
  | transfer (sender : Outsider t) (recipient : Address) (v : ℕ)
  | approve (sender : Outsider t) (spender : Address) (v : ℕ)
  | transferFrom (sender : Outsider t) (source recipient : Address) (v : ℕ)
  | deposit (sender : Outsider t) (value : ℕ)
  | wlxsTransfer (sender : Outsider t) (recipient : Address) (value : ℕ)
  | wlxsApprove (sender : Outsider t) (spender : Address) (value : ℕ)
  | wlxsTransferFrom (sender : Outsider t) (source recipient : Address) (value : ℕ)
  | mint (now : ℕ) (sender : Outsider t) (recipient : Address)
  | burn (now : ℕ) (recipient : Address)
  | sync (now : ℕ)
  | lpTransfer (sender : Outsider t) (recipient : Address) (value : ℕ)
  | lpApprove (sender : Outsider t) (spender : Address) (value : ℕ)
  | lpTransferFrom (sender : Outsider t) (source recipient : Address) (value : ℕ)
  /-- native from one outsider to another -/
  | send (sender recipient : Outsider t) (value : ℕ)
  /-- native that no call brings, such as a block reward -/
  | reward (recipient : Address) (value : ℕ)

inductive Waiting (t : Site)
  | sell (sender : Outsider t) (amount minNativeOut : ℕ)
  | withdrawFees
  | withdraw (sender : Outsider t) (value : ℕ)
  | swap (now amount0Out amount1Out : ℕ) (recipient : Address)

inductive Pending
  | sell
  | withdrawFees
  | withdraw
  | swap (now amount0Out amount1Out : ℕ)

namespace World

variable {t : Site}

def withPair (w : World t) (p : Option Pair) : Option (World t) := p.map fun p => { w with pair := p }

def withCoin (w : World t) (c : Option PumpCoin) : Option (World t) := c.map fun c => { w with coin := c }

def withWlxs (w : World t) (x : Option WLXS) : Option (World t) := x.map fun x => { w with wlxs := x }

def act (w : World t) : Act t → Option (World t)
  | .buyTo now value minTokensOut sender recipient => w.buyTo now value minTokensOut sender.1 recipient
  | .transfer sender recipient v => w.withCoin (w.coin.transfer sender.1 recipient v)
  | .approve sender spender v => w.withCoin (some (w.coin.approve sender.1 spender v))
  | .transferFrom sender source recipient v => w.withCoin (w.coin.transferFrom sender.1 source recipient v)
  | .deposit sender value => w.deposit sender.1 value
  | .wlxsTransfer sender recipient value => w.withWlxs (w.wlxs.transfer sender.1 recipient value)
  | .wlxsApprove sender spender value => w.withWlxs (some (w.wlxs.approve sender.1 spender value))
  | .wlxsTransferFrom sender source recipient value => w.withWlxs (w.wlxs.transferFrom sender.1 source recipient value)
  | .mint now sender recipient => (w.pool.mint now sender.1 recipient).map w.setPool
  | .burn now recipient => (w.pool.burn now recipient).map w.setPool
  | .sync now => (w.pool.sync now).map w.setPool
  | .lpTransfer sender recipient value => w.withPair (w.pair.transfer sender.1 recipient value)
  | .lpApprove sender spender value => w.withPair (some (w.pair.approve sender.1 spender value))
  | .lpTransferFrom sender source recipient value => w.withPair (w.pair.transferFrom sender.1 source recipient value)
  | .send sender recipient value => (w.native.transfer sender.1 recipient.1 value).map fun n => { w with native := n }
  | .reward recipient value => (w.native.add recipient value).map fun n => { w with native := n }

def start (w : World t) : Waiting t → Option (World t × Pending)
  | .sell sender amount minNativeOut => (w.startSell sender.1 amount minNativeOut).map (·, .sell)
  | .withdrawFees => w.startWithdrawFees.map (·, .withdrawFees)
  | .withdraw sender value => (w.startWithdraw sender.1 value).map (·, .withdraw)
  | .swap now amount0Out amount1Out recipient =>
    (w.pool.startSwap amount0Out amount1Out recipient).map fun s => (w.setPool s, .swap now amount0Out amount1Out)

def unlock (w : World t) : World t := { w with coin := { w.coin with unlocked := true } }

def finish (w : World t) : Pending → Option (World t)
  | .sell => some w.unlock
  | .withdrawFees => some w.unlock
  | .withdraw => some w
  | .swap now amount0Out amount1Out => (w.pool.endSwap now amount0Out amount1Out).map w.setPool

end World

def launch (t : Site) : CallStack.System (World t) where
  Act := Act t
  Call := Waiting t
  Pending := Pending
  act := World.act
  start := World.start
  finish := World.finish

/-- A coin that was just created. The native supply is below `2 ^ 112`, `WLXS` holds what it wrapped, and nobody acts for
the new addresses, though anything may have been sent to them. -/
structure World.Created {t : Site} (w : World t) : Prop where
  coin : w.coin = ⟨0, fun _ => 0, fun _ _ => 0, 0, curveSupply, 0, false, true⟩
  pair : w.pair = (Pool.created (if t.coin.1 < t.wlxs.1 then t.coin.1 else t.wlxs.1)
    (if t.coin.1 < t.wlxs.1 then t.wlxs.1 else t.coin.1)
    (if t.swapFactory = zeroAddress then zeroAddress else t.coin.1) (fun _ => 0) fun _ => 0 : Pool t.pair).pair
  wrapped : ∑ a, w.wlxs.balanceOf a ≤ w.native t.wlxs.1
  wlxsAllowance : ∀ x, w.wlxs.allowance t.pair.1 x = 0

def World.Funded {t : Site} (w : World t) : Prop := ∑ a, w.native a < 2 ^ 112

def Launched (t : Site) (m : CallStack.State (launch t)) : Prop :=
  CallStack.Reaches (launch t) (fun w => w.Created ∧ w.Funded) World.Funded m

/-! ### What the functions of the coin can do -/

namespace PumpCoin

variable {c c' : PumpCoin} {source recipient sender : Address} {v inAmt out gross amount : ℕ}

theorem issue_some (h : c.issue recipient v = some c') :
    c' = { c with
      totalSupply := c.totalSupply + v, balanceOf := Function.update c.balanceOf recipient (c.balanceOf recipient + v) } := by
  obtain ⟨r, hr, rfl⟩ := Option.map_eq_some_iff.1 h
  rw [Ledger.issue_some hr]

theorem destroy_some (h : c.destroy source v = some c') :
    ∃ rest supply, rest + v = c.balanceOf source ∧ supply + v = c.totalSupply ∧
      c' = { c with totalSupply := supply, balanceOf := Function.update c.balanceOf source rest } := by
  obtain ⟨r, hr, rfl⟩ := Option.map_eq_some_iff.1 h
  obtain ⟨rest, supply, hrest, hsupply, rfl⟩ := Ledger.destroy_some hr
  exact ⟨rest, supply, hrest, hsupply, rfl⟩

theorem transfer_some (h : c.transfer source recipient v = some c') :
    ∃ b, c.balanceOf.transfer source recipient v = some b ∧ c' = { c with balanceOf := b } := by
  simp only [transfer, Option.bind_eq_bind, Option.bind_eq_some_iff, Option.pure_def, Option.some.injEq] at h
  obtain ⟨b, hb, rfl⟩ := h
  exact ⟨b, hb, rfl⟩

theorem transferFrom_some (h : c.transferFrom sender source recipient v = some c') :
    v ≤ c.allowance source sender ∧ ∃ rest b, rest ≤ c.allowance source sender ∧
      c.balanceOf.transfer source recipient v = some b ∧
      c' = { c with
        balanceOf := b
        allowance := Function.update c.allowance source (Function.update (c.allowance source) sender rest) } := by
  unfold transferFrom at h
  dsimp only at h
  split_ifs at h with hless hmax
  · obtain ⟨b, hb, rfl⟩ := transfer_some h
    exact ⟨by omega, _, b, Nat.sub_le _ _, hb, rfl⟩
  · obtain ⟨b, hb, rfl⟩ := transfer_some h
    refine ⟨by omega, c.allowance source sender, b, le_rfl, hb, ?_⟩
    rw [Function.update_eq_self, Function.update_eq_self]

theorem grossOut_le (h : c.grossOut amount = some gross) : gross ≤ c.reserveNative := by
  simp only [grossOut, Option.bind_eq_bind, Option.bind_eq_some_iff, Option.pure_def, Option.some.injEq] at h
  obtain ⟨eff, -, k, -, d, -, q, -, g, -, rfl⟩ := h
  split_ifs <;> omega

end PumpCoin

namespace World

variable {t : Site} {w w' : World t} {sender recipient : Address} {now value amount : ℕ}

theorem deposit_some (h : w.deposit sender value = some w') :
    ∃ n b, w.native.transfer sender t.wlxs.1 value = some n ∧ w.wlxs.balanceOf.add sender value = some b ∧
      w' = { w with native := n, wlxs := { w.wlxs with balanceOf := b } } := by
  obtain ⟨x, hx, rfl⟩ := Option.map_eq_some_iff.1 h
  obtain ⟨n, b, hn, hb, rfl⟩ := Wrapping.deposit_some hx
  exact ⟨n, b, hn, hb, rfl⟩

theorem buyCurve_some {minTokensOut : ℕ} (h : w.buyCurve value minTokensOut sender recipient = some w') :
    w.coin.unlocked = true ∧ w.coin.graduated = false ∧ ∃ n fee inAmt out tokens c,
      w.native.transfer sender t.coin.1 value = some n ∧ World.fee t value = some fee ∧ inAmt + fee = value ∧
      w.coin.buyOut inAmt = some out ∧ tokens + out = w.coin.curveTokens ∧
      { w.coin with
        reserveNative := w.coin.reserveNative + inAmt, curveTokens := tokens
        feeAccrued := w.coin.feeAccrued + fee }.issue recipient out = some c ∧
      w' = { w with coin := c, native := n } := by
  simp only [buyCurve, Option.bind_eq_bind, Option.bind_eq_some_iff, Option.pure_def, Option.some.injEq,
    Option.guard_eq_some', exists_const] at h
  obtain ⟨n, hn, hunlocked, hgrad, -, -, fee, hfee, inAmt, hin, out, hout, -, -, reserve, hreserve, tokens, htokens, fees,
    hfees, c, hc, rfl⟩ := h
  obtain rfl := checkedAdd_some hreserve
  obtain rfl := checkedAdd_some hfees
  exact ⟨hunlocked, hgrad, n, fee, inAmt, out, tokens, c, hn, hfee, checkedSub_some hin, hout, checkedSub_some htokens, hc,
    rfl⟩

theorem startSell_some {minNativeOut : ℕ} (h : w.startSell sender amount minNativeOut = some w') :
    w.coin.unlocked = true ∧ w.coin.graduated = false ∧ ∃ n gross fee out reserve c, w.coin.grossOut amount = some gross ∧
      World.fee t gross = some fee ∧ out + fee = gross ∧ reserve + gross = w.coin.reserveNative ∧
      { w.coin with
        curveTokens := w.coin.curveTokens + amount, reserveNative := reserve
        feeAccrued := w.coin.feeAccrued + fee, unlocked := false }.destroy sender amount = some c ∧
      w.native.transfer t.coin.1 sender out = some n ∧ w' = { w with coin := c, native := n } := by
  simp only [startSell, Option.bind_eq_bind, Option.bind_eq_some_iff, Option.pure_def, Option.some.injEq,
    Option.guard_eq_some', exists_const] at h
  obtain ⟨hunlocked, hgrad, -, gross, hgross, fee, hfee, out, hout, -, tokens, htokens, reserve, hreserve, fees, hfees, c,
    hc, n, hn, rfl⟩ := h
  obtain rfl := checkedAdd_some htokens
  obtain rfl := checkedAdd_some hfees
  exact ⟨hunlocked, hgrad, n, gross, fee, out, reserve, c, hgross, hfee, checkedSub_some hout, checkedSub_some hreserve, hc,
    hn, rfl⟩

/-- The steps of a graduation before the pair's `mint`. -/
structure SeedSteps (w : World t) (c₁ : PumpCoin) (w₂ : World t) (c₃ : PumpCoin) (x₃ : WLXS) : Prop where
  issue : { w.coin with graduated := true, curveTokens := 0, reserveNative := 0 }.issue t.coin.1 w.coin.curveTokens = some c₁
  deposit : ({ w with coin := c₁ } : World t).deposit t.coin.1 w.coin.reserveNative = some w₂
  coin : w₂.coin.transfer t.coin.1 t.pair.1 w.coin.curveTokens = some c₃
  wlxs : w₂.wlxs.transfer t.coin.1 t.pair.1 w.coin.reserveNative = some x₃

theorem graduate_some (h : w.graduate now = some w') :
    ∃ c₁ w₂ c₃ x₃ s, w.SeedSteps c₁ w₂ c₃ x₃ ∧
      ({ w₂ with coin := c₃, wlxs := x₃ } : World t).pool.mint now t.coin.1 zeroAddress = some s ∧
      w' = ({ w₂ with coin := c₃, wlxs := x₃ } : World t).setPool s := by
  simp only [graduate, Option.bind_eq_bind, Option.bind_eq_some_iff, Option.pure_def, Option.some.injEq] at h
  obtain ⟨c₁, hc₁, w₂, hw₂, c₃, hc₃, x₃, hx₃, s, hs, rfl⟩ := h
  exact ⟨c₁, w₂, c₃, x₃, s, ⟨hc₁, hw₂, hc₃, hx₃⟩, hs, rfl⟩

theorem graduated_graduate (h : w.graduate now = some w') : w'.coin.graduated = true := by
  obtain ⟨c₁, w₂, c₃, x₃, s, ⟨hc₁, hw₂, hc₃, -⟩, -, rfl⟩ := graduate_some h
  obtain rfl := PumpCoin.issue_some hc₁
  obtain ⟨n, b, -, -, rfl⟩ := deposit_some hw₂
  obtain ⟨b', -, rfl⟩ := PumpCoin.transfer_some hc₃
  rfl

theorem startWithdrawFees_some (h : w.startWithdrawFees = some w') : w.coin.unlocked = true ∧
    ∃ w₀ : World t, w₀ = { w with coin := { w.coin with feeAccrued := 0, unlocked := false } } ∧
      (w' = w₀ ∨ w₀.deposit t.coin.1 w.coin.feeAccrued = some w' ∨
        ∃ n, w.native.transfer t.coin.1 t.feeRecipient w.coin.feeAccrued = some n ∧ w' = { w₀ with native := n }) := by
  simp only [startWithdrawFees, Option.bind_eq_bind, Option.bind_eq_some_iff, Option.guard_eq_some', exists_const] at h
  obtain ⟨hunlocked, h⟩ := h
  refine ⟨hunlocked, _, rfl, ?_⟩
  split_ifs at h
  · exact .inl (Option.some.inj h).symm
  · exact .inr (.inl h)
  · simp only [Option.bind_eq_some_iff, Option.pure_def, Option.some.injEq] at h
    obtain ⟨n, hn, rfl⟩ := h
    exact .inr (.inr ⟨n, hn, rfl⟩)

theorem startWithdraw_some (h : w.startWithdraw sender value = some w') :
    ∃ b n, w.wlxs.balanceOf.take sender value = some b ∧ w.native.transfer t.wlxs.1 sender value = some n ∧
      w' = { w with native := n, wlxs := { w.wlxs with balanceOf := b } } := by
  obtain ⟨x, hx, rfl⟩ := Option.map_eq_some_iff.1 h
  obtain ⟨b, n, hb, hn, rfl⟩ := Wrapping.startWithdraw_some hx
  exact ⟨b, n, hb, hn, rfl⟩

end World

/-! ### Solvency -/

/-- The coin holds what it owes, and the supplies add up. -/
structure World.Solvent {t : Site} (w : World t) : Prop where
  funds : w.coin.reserveNative + w.coin.feeAccrued ≤ w.native t.coin.1
  curve : w.coin.curveTokens + w.coin.totalSupply = curveSupply
  supply : ∑ a, w.coin.balanceOf a = w.coin.totalSupply
  wrapped : ∑ a, w.wlxs.balanceOf a ≤ w.native t.wlxs.1

namespace World

variable {t : Site} {w w' : World t} {sender recipient : Address} {now value amount : ℕ}

theorem Solvent.native (hw : w.Solvent) {n : Ledger} (hcoin : w.native t.coin.1 ≤ n t.coin.1)
    (hwlxs : w.native t.wlxs.1 ≤ n t.wlxs.1) : Solvent ({ w with native := n } : World t) :=
  ⟨hw.funds.trans hcoin, hw.curve, hw.supply, hw.wrapped.trans hwlxs⟩

theorem Solvent.coinBalances (hw : w.Solvent) {b : Ledger} (al : Address → Address → ℕ)
    (hb : ∑ a, b a = ∑ a, w.coin.balanceOf a) :
    Solvent ({ w with coin := { w.coin with balanceOf := b, allowance := al } } : World t) :=
  ⟨hw.funds, hw.curve, hb.trans hw.supply, hw.wrapped⟩

theorem Solvent.wlxsBalances (hw : w.Solvent) {b : Ledger} (al : Address → Address → ℕ)
    (hb : ∑ a, b a = ∑ a, w.wlxs.balanceOf a) : Solvent ({ w with wlxs := ⟨b, al⟩ } : World t) :=
  ⟨hw.funds, hw.curve, hw.supply, hb.le.trans hw.wrapped⟩

theorem Solvent.setPool (hw : w.Solvent) {s : Pool t.pair} (h0 : ∑ a, s.ledger0 a = ∑ a, w.pool.ledger0 a)
    (h1 : ∑ a, s.ledger1 a = ∑ a, w.pool.ledger1 a) : (w.setPool s).Solvent := by
  unfold pool at h0 h1
  unfold World.setPool
  by_cases hlt : t.coin.1 < t.wlxs.1
  · simp only [if_pos hlt] at h0 h1 ⊢
    exact ⟨hw.funds, hw.curve, h0.trans hw.supply, h1.le.trans hw.wrapped⟩
  · simp only [if_neg hlt] at h0 h1 ⊢
    exact ⟨hw.funds, hw.curve, h1.trans hw.supply, h0.le.trans hw.wrapped⟩

theorem Solvent.deposit (hw : w.Solvent) (hsender : sender ≠ t.wlxs.1)
    (hcoin : sender = t.coin.1 → w.coin.reserveNative + w.coin.feeAccrued + value ≤ w.native t.coin.1)
    (h : w.deposit sender value = some w') : w'.Solvent := by
  obtain ⟨x, hx, rfl⟩ := Option.map_eq_some_iff.1 h
  refine ⟨?_, hw.curve, hw.supply, Wrapping.Backed.deposit (w := w.wrapping) hw.wrapped hsender hx⟩
  obtain ⟨n, b, hn, -, rfl⟩ := Wrapping.deposit_some hx
  by_cases hs : sender = t.coin.1
  · have hle := Ledger.le_transfer_source hn
    have := hcoin hs
    rw [hs] at hle
    exact Nat.le_of_add_le_add_right (this.trans hle)
  · exact hw.funds.trans (Ledger.le_transfer hn (Ne.symm hs))

theorem Solvent.buyCurve (hw : w.Solvent) {minTokensOut : ℕ} (hsender : sender ≠ t.coin.1 ∧ sender ≠ t.wlxs.1)
    (h : w.buyCurve value minTokensOut sender recipient = some w') : w'.Solvent := by
  obtain ⟨-, -, n, fee, inAmt, out, tokens, c, hn, -, hin, -, htokens, hc, rfl⟩ := buyCurve_some h
  obtain rfl := PumpCoin.issue_some hc
  have hfunds := hw.funds
  have hcurve := hw.curve
  have hsupply := hw.supply
  have hsum := sum_update w.coin.balanceOf recipient (w.coin.balanceOf recipient + out)
  have hcoin := Ledger.transfer_recipient hn hsender.1
  refine ⟨?_, ?_, ?_, hw.wrapped.trans (Ledger.le_transfer hn (Ne.symm hsender.2))⟩ <;> dsimp only <;> omega

theorem Solvent.seeded (hw : w.Solvent) {c₁ c₃ : PumpCoin} {w₂ : World t} {x₃ : WLXS}
    (hseeds : w.SeedSteps c₁ w₂ c₃ x₃) :
    Solvent ({ w₂ with coin := c₃, wlxs := x₃ } : World t) := by
  obtain ⟨hc₁, hw₂, hc₃, hx₃⟩ := hseeds
  obtain rfl := PumpCoin.issue_some hc₁
  have hcurve := hw.curve
  have hsupply := hw.supply
  have hfunds := hw.funds
  have hsum := sum_update w.coin.balanceOf t.coin.1 (w.coin.balanceOf t.coin.1 + w.coin.curveTokens)
  have hopened : Solvent ({ w with
      coin := { w.coin with
        graduated := true, curveTokens := 0, reserveNative := 0
        totalSupply := w.coin.totalSupply + w.coin.curveTokens
        balanceOf := Function.update w.coin.balanceOf t.coin.1 (w.coin.balanceOf t.coin.1 + w.coin.curveTokens) } } :
      World t) := by
    refine ⟨?_, ?_, ?_, hw.wrapped⟩ <;> dsimp only <;> omega
  have hwrapped := hopened.deposit t.coin_ne_wlxs (fun _ => by dsimp only; omega) hw₂
  obtain ⟨b, hb, rfl⟩ := PumpCoin.transfer_some hc₃
  obtain ⟨b', al, hb', rfl, -⟩ := WLXS.transferFrom_some hx₃
  exact (hwrapped.coinBalances w₂.coin.allowance (Ledger.sum_transfer hb)).wlxsBalances al (Ledger.sum_transfer hb')

theorem Solvent.graduate (hw : w.Solvent) (h : w.graduate now = some w') : w'.Solvent := by
  obtain ⟨c₁, w₂, c₃, x₃, s, hseeds, hs, rfl⟩ := graduate_some h
  obtain ⟨-, -, _, _, _, _, _, p, -, -, -, -, -, -, -, rfl⟩ := Pool.mint_some hs
  exact (hw.seeded hseeds).setPool rfl rfl

theorem Solvent.startSell (hw : w.Solvent) {minNativeOut : ℕ} (h : w.startSell sender amount minNativeOut = some w') :
    w'.Solvent := by
  obtain ⟨-, -, n, gross, fee, out, reserve, c, hgross, -, hout, hreserve, hc, hn, rfl⟩ := startSell_some h
  obtain ⟨rest, supply, hrest, hsupply', rfl⟩ := PumpCoin.destroy_some hc
  dsimp only at hrest hsupply'
  have hcurve := hw.curve
  have hsupply := hw.supply
  have hfunds := hw.funds
  have hsum := sum_update w.coin.balanceOf sender rest
  have hpaid := Ledger.le_transfer_source hn
  refine ⟨?_, ?_, ?_, hw.wrapped.trans (Ledger.le_transfer hn (Ne.symm t.coin_ne_wlxs))⟩ <;> dsimp only <;> omega

theorem Solvent.startWithdrawFees (hw : w.Solvent) (h : w.startWithdrawFees = some w') : w'.Solvent := by
  obtain ⟨-, w₀, rfl, hpaid⟩ := startWithdrawFees_some h
  have hfunds := hw.funds
  have hempty : Solvent ({ w with coin := { w.coin with feeAccrued := 0, unlocked := false } } : World t) := by
    refine ⟨?_, hw.curve, hw.supply, hw.wrapped⟩
    dsimp only
    omega
  rcases hpaid with rfl | hdeposit | ⟨n, hn, rfl⟩
  · exact hempty
  · exact hempty.deposit t.coin_ne_wlxs (fun _ => by dsimp only; omega) hdeposit
  · have hpaid := Ledger.le_transfer_source hn
    refine ⟨?_, hw.curve, hw.supply, hw.wrapped.trans (Ledger.le_transfer hn (Ne.symm t.coin_ne_wlxs))⟩
    dsimp only
    omega

theorem Solvent.startWithdraw (hw : w.Solvent) (h : w.startWithdraw sender value = some w') : w'.Solvent := by
  obtain ⟨x, hx, rfl⟩ := Option.map_eq_some_iff.1 h
  refine ⟨?_, hw.curve, hw.supply, Wrapping.Backed.startWithdraw (w := w.wrapping) hw.wrapped hx⟩
  obtain ⟨b, n, -, hn, rfl⟩ := Wrapping.startWithdraw_some hx
  exact hw.funds.trans (Ledger.le_transfer hn t.coin_ne_wlxs)

end World

/-! ### Every moment -/

namespace World

variable {t : Site} {w w' : World t}

theorem buyTo_some {now value minTokensOut : ℕ} {sender recipient : Address}
    (h : w.buyTo now value minTokensOut sender recipient = some w') :
    ∃ w₁, w.buyCurve value minTokensOut sender recipient = some w₁ ∧
      (w' = w₁ ∧ ¬ (t.swapFactory ≠ zeroAddress ∧ gradTarget ≤ w₁.coin.reserveNative) ∨
        w₁.graduate now = some w' ∧ t.swapFactory ≠ zeroAddress ∧ gradTarget ≤ w₁.coin.reserveNative) := by
  simp only [buyTo, Option.bind_eq_bind, Option.bind_eq_some_iff] at h
  obtain ⟨w₁, hw₁, h⟩ := h
  refine ⟨w₁, hw₁, ?_⟩
  split_ifs at h with hgrad
  · exact .inr ⟨h, hgrad⟩
  · cases h
    exact .inl ⟨rfl, hgrad⟩

theorem Solvent.act (hw : w.Solvent) {a : Act t} (h : w.act a = some w') : w'.Solvent := by
  cases a with
  | buyTo now value minTokensOut sender recipient =>
    obtain ⟨w₁, hw₁, ⟨rfl, -⟩ | ⟨hgrad, -⟩⟩ := buyTo_some h
    · exact hw.buyCurve ⟨sender.2.2.1, sender.2.2.2.1⟩ hw₁
    · exact (hw.buyCurve ⟨sender.2.2.1, sender.2.2.2.1⟩ hw₁).graduate hgrad
  | transfer sender recipient v =>
    obtain ⟨c, hc, rfl⟩ := Option.map_eq_some_iff.1 h
    obtain ⟨b, hb, rfl⟩ := PumpCoin.transfer_some hc
    exact hw.coinBalances _ (Ledger.sum_transfer hb)
  | approve sender spender v =>
    cases h
    exact hw.coinBalances _ rfl
  | transferFrom sender source recipient v =>
    obtain ⟨c, hc, rfl⟩ := Option.map_eq_some_iff.1 h
    obtain ⟨-, rest, b, -, hb, rfl⟩ := PumpCoin.transferFrom_some hc
    exact hw.coinBalances _ (Ledger.sum_transfer hb)
  | deposit sender value => exact hw.deposit sender.2.2.2.1 (fun hs => absurd hs sender.2.2.1) h
  | wlxsTransfer sender recipient value | wlxsTransferFrom sender source recipient value =>
    obtain ⟨x, hx, rfl⟩ := Option.map_eq_some_iff.1 h
    obtain ⟨b, al, hb, rfl, -⟩ := WLXS.transferFrom_some hx
    exact hw.wlxsBalances al (Ledger.sum_transfer hb)
  | wlxsApprove sender spender value =>
    cases h
    exact hw.wlxsBalances _ rfl
  | mint now sender recipient =>
    obtain ⟨s, hs, rfl⟩ := Option.map_eq_some_iff.1 h
    obtain ⟨-, -, _, _, _, _, _, p, -, -, -, -, -, -, -, rfl⟩ := Pool.mint_some hs
    exact hw.setPool rfl rfl
  | burn now recipient =>
    obtain ⟨s, hs, rfl⟩ := Option.map_eq_some_iff.1 h
    obtain ⟨-, -, _, _, t₀, t₁, -, ht₀, ht₁, -, rfl⟩ := Pool.burn_some hs
    exact hw.setPool (Ledger.sum_transfer ht₀) (Ledger.sum_transfer ht₁)
  | sync now =>
    obtain ⟨s, hs, rfl⟩ := Option.map_eq_some_iff.1 h
    obtain ⟨-, p, -, rfl⟩ := Pool.sync_some hs
    exact hw.setPool rfl rfl
  | lpTransfer sender recipient value | lpTransferFrom sender source recipient value =>
    obtain ⟨p, -, rfl⟩ := Option.map_eq_some_iff.1 h
    exact ⟨hw.funds, hw.curve, hw.supply, hw.wrapped⟩
  | lpApprove sender spender value =>
    cases h
    exact ⟨hw.funds, hw.curve, hw.supply, hw.wrapped⟩
  | send sender recipient value =>
    obtain ⟨n, hn, rfl⟩ := Option.map_eq_some_iff.1 h
    exact hw.native (Ledger.le_transfer hn (Ne.symm sender.2.2.1)) (Ledger.le_transfer hn (Ne.symm sender.2.2.2.1))
  | reward recipient value =>
    obtain ⟨n, hn, rfl⟩ := Option.map_eq_some_iff.1 h
    exact hw.native (Ledger.le_add hn _) (Ledger.le_add hn _)

theorem Solvent.start (hw : w.Solvent) {c : Waiting t} {p : Pending} (h : w.start c = some (w', p)) : w'.Solvent := by
  cases c with
  | sell sender amount minNativeOut =>
    obtain ⟨w₁, hw₁, heq⟩ := Option.map_eq_some_iff.1 h
    cases heq
    exact hw.startSell hw₁
  | withdrawFees =>
    obtain ⟨w₁, hw₁, heq⟩ := Option.map_eq_some_iff.1 h
    cases heq
    exact hw.startWithdrawFees hw₁
  | withdraw sender value =>
    obtain ⟨w₁, hw₁, heq⟩ := Option.map_eq_some_iff.1 h
    cases heq
    exact hw.startWithdraw hw₁
  | swap now amount0Out amount1Out recipient =>
    obtain ⟨s, hs, heq⟩ := Option.map_eq_some_iff.1 h
    cases heq
    exact hw.setPool (Pool.startSwap_sums hs).1 (Pool.startSwap_sums hs).2

theorem Solvent.finish (hw : w.Solvent) {p : Pending} (h : w.finish p = some w') : w'.Solvent := by
  cases p with
  | sell | withdrawFees =>
    cases h
    exact ⟨hw.funds, hw.curve, hw.supply, hw.wrapped⟩
  | withdraw =>
    cases h
    exact hw
  | swap now amount0Out amount1Out =>
    obtain ⟨s, hs, rfl⟩ := Option.map_eq_some_iff.1 h
    obtain ⟨-, p, -, rfl⟩ := Pool.endSwap_some hs
    exact hw.setPool rfl rfl

theorem solvent_created (hw : w.Created) : w.Solvent := by
  refine ⟨?_, ?_, ?_, hw.wrapped⟩
  · rw [hw.coin]
    exact Nat.zero_le _
  · rw [hw.coin]
    exact Nat.add_zero _
  · rw [hw.coin]
    exact Finset.sum_const_zero

end World

variable {t : Site} {m : CallStack.State (launch t)}

theorem Launched.world_solvent (h : Launched t m) : m.world.Solvent :=
  (h.keeps (fun _ hw => World.solvent_created hw.1) (fun _ _ _ hw _ ha => hw.act ha) (fun _ _ _ _ hw _ hs => hw.start hs)
    fun _ _ _ hw _ hf => hw.finish hf).1

/-- **The coin is solvent in every moment**, in the middle of payouts and callbacks too: it holds its reserve and the fees
it owes, its tokens add up, what a sell pays is within what it holds, and so is what it wraps when a buy makes it
graduate. -/
theorem solvent (h : Launched t m) :
    m.world.coin.reserveNative + m.world.coin.feeAccrued ≤ m.world.native t.coin.1 ∧
      m.world.coin.curveTokens + m.world.coin.totalSupply = curveSupply ∧
      m.world.coin.totalSupply = ∑ a, m.world.coin.balanceOf a ∧
      (∀ amount gross, m.world.coin.grossOut amount = some gross → gross ≤ m.world.native t.coin.1) ∧
      ∀ (sender : Outsider t) (recipient : Address) (value minTokensOut : ℕ) (w : World t),
        m.world.buyCurve value minTokensOut sender.1 recipient = some w → w.coin.reserveNative ≤ w.native t.coin.1 := by
  have hw := h.world_solvent
  have hfunds := hw.funds
  refine ⟨hfunds, hw.curve, hw.supply.symm, fun amount gross hgross => ?_, fun sender recipient value _ w hbuy => ?_⟩
  · have := PumpCoin.grossOut_le hgross
    omega
  · have := (hw.buyCurve ⟨sender.2.2.1, sender.2.2.2.1⟩ hbuy).funds
    omega

/-! ### The native supply -/

def Act.isReward {t : Site} : Act t → Bool
  | .reward .. => true
  | _ => false

def isReward {t : Site} : CallStack.Op (launch t) → Bool
  | .act a => Act.isReward a
  | _ => false

namespace World

variable {t : Site} {w w' : World t}

theorem native_deposit {sender : Address} {value : ℕ} (h : w.deposit sender value = some w') :
    ∑ a, w'.native a = ∑ a, w.native a := by
  obtain ⟨n, b, hn, -, rfl⟩ := deposit_some h
  exact Ledger.sum_transfer hn

theorem native_act {a : Act t} (ha : a.isReward = false) (h : w.act a = some w') :
    ∑ x, w'.native x = ∑ x, w.native x := by
  cases a with
  | buyTo now value minTokensOut sender recipient =>
    obtain ⟨w₁, hw₁, hor⟩ := buyTo_some h
    obtain ⟨-, -, n, _, _, _, _, c, hn, -, -, -, -, -, rfl⟩ := buyCurve_some hw₁
    rcases hor with ⟨rfl, -⟩ | ⟨hgrad, -⟩
    · exact Ledger.sum_transfer hn
    · obtain ⟨c₁, w₂, c₃, x₃, s, hseeds, -, rfl⟩ := graduate_some hgrad
      exact (native_deposit hseeds.deposit).trans (Ledger.sum_transfer hn)
  | deposit sender value => exact native_deposit h
  | send sender recipient value =>
    obtain ⟨n, hn, rfl⟩ := Option.map_eq_some_iff.1 h
    exact Ledger.sum_transfer hn
  | reward recipient value => cases ha
  | transfer sender recipient v | transferFrom sender source recipient v | wlxsTransfer sender recipient value
  | wlxsTransferFrom sender source recipient value | mint now sender recipient | burn now recipient | sync now
  | lpTransfer sender recipient value | lpTransferFrom sender source recipient value =>
    obtain ⟨x, -, rfl⟩ := Option.map_eq_some_iff.1 h
    rfl
  | approve sender spender v | wlxsApprove sender spender value | lpApprove sender spender value =>
    cases h
    rfl

theorem native_start {c : Waiting t} {p : Pending} (h : w.start c = some (w', p)) :
    ∑ x, w'.native x = ∑ x, w.native x := by
  cases c with
  | sell sender amount minNativeOut =>
    obtain ⟨w₁, hw₁, heq⟩ := Option.map_eq_some_iff.1 h
    cases heq
    obtain ⟨-, -, n, _, _, _, _, _, -, -, -, -, -, hn, rfl⟩ := startSell_some hw₁
    exact Ledger.sum_transfer hn
  | withdrawFees =>
    obtain ⟨w₁, hw₁, heq⟩ := Option.map_eq_some_iff.1 h
    cases heq
    obtain ⟨-, w₀, rfl, rfl | hdeposit | ⟨n, hn, rfl⟩⟩ := startWithdrawFees_some hw₁
    · rfl
    · have hsum := native_deposit hdeposit
      exact hsum
    · exact Ledger.sum_transfer hn
  | withdraw sender value =>
    obtain ⟨w₁, hw₁, heq⟩ := Option.map_eq_some_iff.1 h
    cases heq
    obtain ⟨b, n, -, hn, rfl⟩ := startWithdraw_some hw₁
    exact Ledger.sum_transfer hn
  | swap now amount0Out amount1Out recipient =>
    obtain ⟨s, -, heq⟩ := Option.map_eq_some_iff.1 h
    cases heq
    rfl

theorem native_finish {p : Pending} (h : w.finish p = some w') : ∑ x, w'.native x = ∑ x, w.native x := by
  cases p with
  | sell | withdrawFees | withdraw =>
    cases h
    rfl
  | swap now amount0Out amount1Out =>
    obtain ⟨s, -, rfl⟩ := Option.map_eq_some_iff.1 h
    rfl

end World

/-- The native supply is `N` now, and in every state that a failure goes back to. -/
def Conserved (N : ℕ) (m : CallStack.State (launch t)) : Prop :=
  ∑ a, m.world.native a = N ∧ ∀ f ∈ m.stack, ∑ a, f.1.native a = N

theorem Conserved.exec {N : ℕ} (h : Conserved N m) {op : CallStack.Op (launch t)}
    (hop : isReward op = false) : Conserved N (m.exec op) := by
  have hworld := h.1
  refine CallStack.State.exec_keeps (S := launch t) (I := fun w : World t => ∑ a, w.native a = N) h ?_ ?_ ?_
  · rintro w' a rfl ha -
    exact (World.native_act hop ha).trans hworld
  · exact fun w' c p hc _ => (World.native_start hc).trans hworld
  · exact fun w' p hf _ => (World.native_finish hf).trans hworld

theorem Launched.exec {N : ℕ} (h : Launched t m) (hm : Conserved N m) (hN : N < 2 ^ 112) (op : CallStack.Op (launch t))
    (hop : isReward op = false) : Launched t (m.exec op) ∧ Conserved N (m.exec op) :=
  ⟨.step op h (by rw [World.Funded, (hm.exec hop).1]; exact hN), hm.exec hop⟩

theorem Launched.foldl {N : ℕ} (hN : N < 2 ^ 112) (ops : List (CallStack.Op (launch t)))
    (hops : ∀ op ∈ ops, isReward op = false) :
    ∀ {m : CallStack.State (launch t)}, Launched t m → Conserved N m →
      Launched t (ops.foldl CallStack.State.exec m) ∧ Conserved N (ops.foldl CallStack.State.exec m) := by
  induction ops with
  | nil => exact fun h hm => ⟨h, hm⟩
  | cons op ops ih =>
    intro m h hm
    obtain ⟨hop, hrest⟩ := List.forall_mem_cons.1 hops
    obtain ⟨h', hm'⟩ := h.exec hm hN op hop
    exact ih hrest h' hm'

/-! ### A coin to look at -/

/-- A site with a given fee, whose contracts are at 50, 51 and 52. -/
def siteOf (feeBps : ℕ) (h : feeBps ≤ 1000) : Site where
  coin := ⟨50, by decide⟩
  wlxs := ⟨51, by decide⟩
  pair := ⟨52, by decide⟩
  coin_ne_wlxs := by decide
  coin_ne_pair := by decide
  wlxs_ne_pair := by decide
  swapFactory := 53
  feeRecipient := 54
  feeBps := feeBps
  feeBps_le := h

/-- The coin of that site, new, with the whole native supply at 7. -/
def newWorld (feeBps : ℕ) (h : feeBps ≤ 1000) (supply : ℕ) : World (siteOf feeBps h) where
  coin := ⟨0, fun _ => 0, fun _ _ => 0, 0, curveSupply, 0, false, true⟩
  wlxs := ⟨fun _ => 0, fun _ _ => 0⟩
  pair := ⟨50, 51, 50, 0, fun _ => 0, fun _ _ => 0, 0, 0, 0, 0, 0, true⟩
  native := Function.update (fun _ => 0) 7 supply

theorem launched_newWorld (feeBps : ℕ) (h : feeBps ≤ 1000) {supply : ℕ} (hsupply : supply < 2 ^ 112) :
    Launched (siteOf feeBps h) ⟨newWorld feeBps h supply, []⟩ ∧
      Conserved supply (⟨newWorld feeBps h supply, []⟩ : CallStack.State (launch (siteOf feeBps h))) := by
  have hsum : ∑ a, (newWorld feeBps h supply).native a = supply := by
    have := sum_update (fun _ => 0) 7 supply
    simpa [newWorld] using this
  refine ⟨.start ⟨⟨rfl, rfl, ?_, fun _ => rfl⟩, ?_⟩, hsum, fun f hf => absurd hf List.not_mem_nil⟩
  · simp [newWorld]
  · rw [World.Funded, hsum]
    exact hsupply

def sampleSite : Site := siteOf 100 (by decide)

def buyer : Outsider sampleSite := ⟨7, by decide, by decide, by decide, by decide⟩

/-- Seven buys, sells a part, and while it is paid moves tokens and tries to sell again. -/
def reenteredOps : List (CallStack.Op (launch sampleSite)) :=
  [.act (Act.buyTo 1 ether 0 buyer 7), .call (Waiting.sell buyer 1000 0), .act (Act.transfer buyer 8 5),
    .call (Waiting.sell buyer 1000 0)]

def newSample : CallStack.State (launch sampleSite) := ⟨newWorld 100 (by decide) (1000 * ether), []⟩

def reentered : CallStack.State (launch sampleSite) := reenteredOps.foldl CallStack.State.exec newSample

theorem solvent_reentered :
    reentered.stack.length = 1 ∧ reentered.world.coin.unlocked = false ∧ reentered.world.coin.balanceOf 8 = 5 ∧
      reentered.world.coin.reserveNative + reentered.world.coin.feeAccrued ≤
        reentered.world.native sampleSite.coin.1 := by
  obtain ⟨hstart, hconserved⟩ := launched_newWorld 100 (by decide) (show 1000 * ether < 2 ^ 112 by decide)
  have hrun := (Launched.foldl (by decide) reenteredOps (by decide) hstart hconserved).1
  exact ⟨by decide +kernel, by decide +kernel, by decide +kernel, (solvent hrun).1⟩

end Lxs.Contracts
