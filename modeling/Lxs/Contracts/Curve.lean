import Lxs.Contracts.Launch

/-!
# Rounding on the curve

A buy and a sell of `PumpCoin` keep the product of the virtual and real native with the tokens up to a division, and both
divisions are rounded in the trader's favour. What that gives away is computed here exactly.

* `round_trip_iff`: **when a round trip does not profit**, and when a buy and a sell do not lower the product.
-/

namespace Lxs.Contracts

open Lib

/-! ### The two divisions -/

theorem gross_of_round_trip {eff C : ℕ} (inAmt : ℕ) (hC : 0 < C) :
    eff + inAmt - (eff + inAmt) * (eff * C / (eff + inAmt)) / C =
      inAmt + (eff * C % (eff + inAmt) + (C - 1)) / C := by
  have hsplit : (eff + inAmt) * (eff * C / (eff + inAmt)) + eff * C % (eff + inAmt) = eff * C := Nat.div_add_mod _ _
  generalize (eff + inAmt) * (eff * C / (eff + inAmt)) = x at hsplit ⊢
  generalize eff * C % (eff + inAmt) = r at hsplit ⊢
  -- `x / C` is `eff` less the ceiling of `r / C`
  have hdiv : x / C + (r + (C - 1)) / C = eff := by
    have hx := Nat.div_add_mod x C
    have hxlt := Nat.mod_lt x hC
    have hr := Nat.div_add_mod (r + (C - 1)) C
    have hrlt := Nat.mod_lt (r + (C - 1)) hC
    generalize x / C = a at hx ⊢
    generalize (r + (C - 1)) / C = b at hr ⊢
    generalize x % C = u at hx hxlt
    generalize (r + (C - 1)) % C = v at hr hrlt
    have hsum : C * (a + b) + u + v = eff * C + (C - 1) := by
      rw [Nat.mul_add]
      omega
    have hle : a + b ≤ eff := by
      by_contra hlt
      have hmul : C * (eff + 1) ≤ C * (a + b) := Nat.mul_le_mul_left C (by omega)
      rw [Nat.mul_add, Nat.mul_comm C eff] at hmul
      omega
    have hge : eff ≤ a + b := by
      by_contra hlt
      have hmul : C * (a + b + 1) ≤ C * eff := Nat.mul_le_mul_left C (by omega)
      rw [Nat.mul_add C (a + b), Nat.mul_comm C eff] at hmul
      omega
    omega
  generalize x / C = a at hdiv ⊢
  generalize (r + (C - 1)) / C = b at hdiv ⊢
  omega

theorem le_mul_div_iff {k d : ℕ} : k ≤ d * (k / d) ↔ d ∣ k := by
  constructor
  · intro h
    exact ⟨k / d, le_antisymm h (Nat.mul_div_le k d)⟩
  · intro h
    exact (Nat.mul_div_cancel' h).ge

/-! ### The curve's functions -/

namespace PumpCoin

variable {c : PumpCoin} {inAmt out amount gross : ℕ}

def eff (c : PumpCoin) : ℕ := virtualNative + c.reserveNative

theorem eff_pos (c : PumpCoin) : 0 < c.eff := Nat.add_pos_left (by decide) _

theorem buyOut_some (h : c.buyOut inAmt = some out) : out + c.eff * c.curveTokens / (c.eff + inAmt) = c.curveTokens := by
  simp only [buyOut, Option.bind_eq_bind, Option.bind_eq_some_iff] at h
  obtain ⟨e, he, k, hk, d, hd, q, hq, hout⟩ := h
  obtain rfl := checkedAdd_some he
  obtain rfl := checkedMul_some hk
  obtain rfl := checkedAdd_some hd
  obtain ⟨-, rfl⟩ := checkedDiv_some hq
  exact checkedSub_some hout

theorem grossOut_some (h : c.grossOut amount = some gross) :
    0 < c.curveTokens + amount ∧
      gross = min (c.eff - c.eff * c.curveTokens / (c.curveTokens + amount)) c.reserveNative := by
  simp only [grossOut, Option.bind_eq_bind, Option.bind_eq_some_iff, Option.pure_def, Option.some.injEq] at h
  obtain ⟨e, he, k, hk, d, hd, q, hq, g, hg, rfl⟩ := h
  obtain rfl := checkedAdd_some he
  obtain rfl := checkedMul_some hk
  obtain rfl := checkedAdd_some hd
  obtain ⟨hpos, rfl⟩ := checkedDiv_some hq
  have hsub := checkedSub_some hg
  refine ⟨hpos, ?_⟩
  unfold eff
  split_ifs <;> omega

end PumpCoin

theorem World.fee_some {t : Site} {amount fee : ℕ} (h : World.fee t amount = some fee) :
    fee = amount * t.feeBps / 10000 := by
  simp only [World.fee, Option.bind_eq_bind, Option.bind_eq_some_iff, Option.pure_def, Option.some.injEq] at h
  obtain ⟨x, hx, rfl⟩ := h
  rw [checkedMul_some hx]

theorem sub_fee_le_iff {gross f X : ℕ} (hf : f ≤ 10000) :
    gross - gross * f / 10000 ≤ X ↔ gross * (10000 - f) ≤ 10000 * X := by
  have hsplit : gross * (10000 - f) + gross * f = 10000 * gross := by
    rw [← Nat.mul_add, Nat.sub_add_cancel hf, Nat.mul_comm]
  have hdiv := Nat.div_add_mod (gross * f) 10000
  have hmod := Nat.mod_lt (gross * f) (by norm_num : 0 < 10000)
  omega

/-! ### Round trips -/

def Site.inAmt (t : Site) (X : ℕ) : ℕ := X - X * t.feeBps / 10000

/-- What the floor of a buy with `X` gives back in the sell: the part cut off, rounded up, if the curve holds it. -/
def PumpCoin.cutOff (c : PumpCoin) (inAmt : ℕ) : ℕ :=
  min ((c.eff * c.curveTokens % (c.eff + inAmt) + (c.curveTokens - 1)) / c.curveTokens) c.reserveNative

namespace World

variable {t : Site} {w w₁ w₂ : World t}

theorem buyCurve_curve {value minTokensOut : ℕ} {sender recipient : Address}
    (h : w.buyCurve value minTokensOut sender recipient = some w₁) :
    w₁.coin.reserveNative = w.coin.reserveNative + t.inAmt value ∧
      w₁.coin.curveTokens = w.coin.eff * w.coin.curveTokens / (w.coin.eff + t.inAmt value) := by
  obtain ⟨-, -, n, fee, inAmt, out, tokens, c, -, hfee, hin, hout, htokens, hc, rfl⟩ := buyCurve_some h
  obtain rfl := PumpCoin.issue_some hc
  have hbuy := PumpCoin.buyOut_some hout
  obtain rfl := fee_some hfee
  obtain rfl : inAmt = t.inAmt value := by
    unfold Site.inAmt
    omega
  exact ⟨rfl, by dsimp only; omega⟩

variable {sender : Address}

theorem startSell_curve {amount minNativeOut : ℕ} (h : w.startSell sender amount minNativeOut = some w₂) :
    0 < w.coin.curveTokens + amount ∧ w₂.coin.curveTokens = w.coin.curveTokens + amount ∧
      w₂.coin.reserveNative +
        min (w.coin.eff - w.coin.eff * w.coin.curveTokens / (w.coin.curveTokens + amount)) w.coin.reserveNative =
          w.coin.reserveNative := by
  obtain ⟨-, -, n, gross, fee, out, reserve, c, hgross, -, -, hreserve, hc, -, rfl⟩ := startSell_some h
  obtain ⟨rest, supply, -, -, rfl⟩ := PumpCoin.destroy_some hc
  obtain ⟨hpos, heq⟩ := PumpCoin.grossOut_some hgross
  rw [← heq]
  exact ⟨hpos, rfl, hreserve⟩

theorem buy_keeps_iff {value minTokensOut : ℕ} {sender recipient : Address}
    (h : w.buyCurve value minTokensOut sender recipient = some w₁) :
    w.coin.eff * w.coin.curveTokens ≤ w₁.coin.eff * w₁.coin.curveTokens ↔
      w.coin.eff + t.inAmt value ∣ w.coin.eff * w.coin.curveTokens := by
  obtain ⟨hreserve, htokens⟩ := buyCurve_curve h
  have heff : w₁.coin.eff = w.coin.eff + t.inAmt value := by
    unfold PumpCoin.eff
    omega
  rw [heff, htokens]
  exact le_mul_div_iff

theorem sell_keeps_iff {amount minNativeOut : ℕ} (h : w.startSell sender amount minNativeOut = some w₂) :
    w.coin.eff * w.coin.curveTokens ≤ w₂.coin.eff * w₂.coin.curveTokens ↔
      w.coin.curveTokens + amount ∣ w.coin.eff * w.coin.curveTokens ∨
        w.coin.eff * w.coin.curveTokens / (w.coin.curveTokens + amount) < virtualNative := by
  obtain ⟨hpos, htokens, hreserve⟩ := startSell_curve h
  have hle : w.coin.eff * w.coin.curveTokens / (w.coin.curveTokens + amount) ≤ w.coin.eff :=
    Nat.div_le_of_le_mul (by rw [Nat.add_mul, Nat.mul_comm w.coin.eff]; exact Nat.le_add_right ..)
  rw [htokens]
  by_cases hclamp : w.coin.eff * w.coin.curveTokens / (w.coin.curveTokens + amount) < virtualNative
  · refine iff_of_true ?_ (.inr hclamp)
    have heff : w₂.coin.eff = virtualNative := by
      unfold PumpCoin.eff at *
      omega
    rw [heff]
    exact ((Nat.div_lt_iff_lt_mul hpos).1 hclamp).le
  · have heff : w₂.coin.eff = w.coin.eff * w.coin.curveTokens / (w.coin.curveTokens + amount) := by
      unfold PumpCoin.eff at *
      omega
    rw [heff, Nat.mul_comm (w.coin.eff * w.coin.curveTokens / _), le_mul_div_iff]
    exact ⟨.inl, fun h => h.resolve_right hclamp⟩

theorem round_trip_native {X minTokensOut minNativeOut : ℕ} (hsender : sender ≠ t.coin.1)
    (hbuy : w.buyCurve X minTokensOut sender sender = some w₁)
    (hsell : w₁.startSell sender (w₁.coin.balanceOf sender - w.coin.balanceOf sender) minNativeOut = some w₂) :
    w₂.native sender + X = w.native sender +
      (t.inAmt X + w.coin.cutOff (t.inAmt X) - (t.inAmt X + w.coin.cutOff (t.inAmt X)) * t.feeBps / 10000) := by
  obtain ⟨hreserve, htokens⟩ := buyCurve_curve hbuy
  obtain ⟨-, -, n, fee, inAmt, out, tokens, c, hn, -, -, hout, hsum, hc, rfl⟩ := buyCurve_some hbuy
  obtain rfl := PumpCoin.issue_some hc
  dsimp only at hreserve htokens hsell
  rw [Function.update_self, Nat.add_sub_cancel_left] at hsell
  have hpaid := Ledger.transfer_source hn hsender
  obtain ⟨-, -, n₂, gross, fee₂, out₂, reserve, c₂, hgross, hfee₂, hout₂, -, -, hn₂, rfl⟩ := startSell_some hsell
  have hgot := Ledger.transfer_recipient hn₂ (Ne.symm hsender)
  obtain ⟨hpos, hgross⟩ := PumpCoin.grossOut_some hgross
  obtain rfl := fee_some hfee₂
  dsimp only at hgross hpos hgot hpaid
  -- the tokens before the buy are those after it and those it gave
  rw [hsum] at hgross hpos
  have hgross' : gross = t.inAmt X + w.coin.cutOff (t.inAmt X) := by
    have hround := @gross_of_round_trip w.coin.eff _ (t.inAmt X) hpos
    rw [← htokens] at hround
    unfold PumpCoin.cutOff
    unfold PumpCoin.eff at *
    dsimp only at hgross
    rw [hreserve, ← Nat.add_assoc, hround] at hgross
    rw [hgross]
    omega
  rw [← hgross']
  dsimp only
  omega

end World

/-- **When rounding on the curve gives nothing away**, for every state of a coin, every trade and every fee. A round trip
does not profit exactly if the part that the floor of the buy cut off, rounded up, is covered by the fees. A buy does not
lower the product of native and tokens exactly if its division has no remainder, and a sell exactly if its division has
none or it is cut down to what the curve holds. -/
theorem round_trip_iff (t : Site) (w w₁ w₂ : World t) (sender : Outsider t) :
    (∀ now X minTokensOut minNativeOut, w.buyTo now X minTokensOut sender.1 sender.1 = some w₁ →
      w₁.coin.graduated = false →
      w₁.startSell sender.1 (w₁.coin.balanceOf sender.1 - w.coin.balanceOf sender.1) minNativeOut = some w₂ →
      (w₂.native sender.1 ≤ w.native sender.1 ↔
        (t.inAmt X + w.coin.cutOff (t.inAmt X)) * (10000 - t.feeBps) ≤ 10000 * X)) ∧
    (∀ X minTokensOut recipient, w.buyCurve X minTokensOut sender.1 recipient = some w₁ →
      (w.coin.eff * w.coin.curveTokens ≤ w₁.coin.eff * w₁.coin.curveTokens ↔
        w.coin.eff + t.inAmt X ∣ w.coin.eff * w.coin.curveTokens)) ∧
    ∀ amount minNativeOut, w.startSell sender.1 amount minNativeOut = some w₂ →
      (w.coin.eff * w.coin.curveTokens ≤ w₂.coin.eff * w₂.coin.curveTokens ↔
        w.coin.curveTokens + amount ∣ w.coin.eff * w.coin.curveTokens ∨
          w.coin.eff * w.coin.curveTokens / (w.coin.curveTokens + amount) < virtualNative) := by
  refine ⟨fun now X minTokensOut minNativeOut hbuy hopen hsell => ?_, fun X _ _ h => World.buy_keeps_iff h,
    fun amount _ h => World.sell_keeps_iff h⟩
  obtain ⟨w', hcurve, ⟨rfl, -⟩ | ⟨hgrad, -⟩⟩ := World.buyTo_some hbuy
  · have hnative := World.round_trip_native sender.2.2.1 hcurve hsell
    have hfee : t.feeBps ≤ 10000 := t.feeBps_le.trans (by norm_num)
    rw [← sub_fee_le_iff hfee]
    omega
  · rw [World.graduated_graduate hgrad] at hopen
    cases hopen

/-! ### After one buy -/

/-- The coin of a site with a given fee after 7 has bought with one LXS. -/
def afterBuy (feeBps : ℕ) (h : feeBps ≤ 1000) (sender : Outsider (siteOf feeBps h)) :
    CallStack.State (launch (siteOf feeBps h)) :=
  (⟨newWorld feeBps h (1000 * ether), []⟩ : CallStack.State (launch (siteOf feeBps h))).exec
    (.act (Act.buyTo 1 ether 0 sender 7))

theorem launched_afterBuy (feeBps : ℕ) (h : feeBps ≤ 1000) (sender : Outsider (siteOf feeBps h)) :
    Launched (siteOf feeBps h) (afterBuy feeBps h sender) := by
  obtain ⟨hstart, hconserved⟩ := launched_newWorld feeBps h (show 1000 * ether < 2 ^ 112 by decide)
  exact (hstart.exec hconserved (by decide) _ rfl).1

def tripBought (feeBps : ℕ) (h : feeBps ≤ 1000) (sender : Outsider (siteOf feeBps h)) (X : ℕ) : World (siteOf feeBps h) :=
  ((afterBuy feeBps h sender).world.buyTo 2 X 0 7 7).getD (afterBuy feeBps h sender).world

def tripSold (feeBps : ℕ) (h : feeBps ≤ 1000) (sender : Outsider (siteOf feeBps h)) (X : ℕ) : World (siteOf feeBps h) :=
  ((tripBought feeBps h sender X).startSell 7
    ((tripBought feeBps h sender X).coin.balanceOf 7 - (afterBuy feeBps h sender).world.coin.balanceOf 7) 0).getD
      (tripBought feeBps h sender X)

theorem eq_some_getD {α : Type} {o : Option α} {a : α} (h : o.isSome = true) : o = some (o.getD a) := by
  cases o with
  | none => cases h
  | some b => rfl

/-- With a fee of one percent a round trip with another LXS costs something. -/
theorem round_trip_iff_fee :
    (tripBought 100 (by decide) buyer ether).coin.balanceOf 7 ≠ (afterBuy 100 (by decide) buyer).world.coin.balanceOf 7 ∧
      (tripSold 100 (by decide) buyer ether).native 7 ≤ (afterBuy 100 (by decide) buyer).world.native 7 := by
  refine ⟨by decide +kernel, ?_⟩
  exact ((round_trip_iff sampleSite (afterBuy 100 (by decide) buyer).world (tripBought 100 (by decide) buyer ether)
    (tripSold 100 (by decide) buyer ether) buyer).1 2 ether 0 0 (eq_some_getD (by decide +kernel)) (by decide +kernel)
    (eq_some_getD (by decide +kernel))).2 (by decide +kernel)

def freeSite : Site := siteOf 0 (by decide)

def freeTrader : Outsider freeSite := ⟨7, by decide, by decide, by decide, by decide⟩

/-- Without a fee, a round trip with one wei after somebody's buy pays two, and its buy lowers the product. -/
theorem round_trip_profits : ∃ m : CallStack.State (launch freeSite), Launched freeSite m ∧ m.stack = [] ∧
    ∃ w₁ w₂ : World freeSite, m.world.buyTo 2 1 0 7 7 = some w₁ ∧ w₁.coin.graduated = false ∧
      w₁.startSell 7 (w₁.coin.balanceOf 7 - m.world.coin.balanceOf 7) 0 = some w₂ ∧
      w₂.native 7 = m.world.native 7 + 1 ∧
      w₁.coin.eff * w₁.coin.curveTokens < m.world.coin.eff * m.world.coin.curveTokens :=
  ⟨afterBuy 0 (by decide) freeTrader, launched_afterBuy 0 (by decide) freeTrader, rfl,
    tripBought 0 (by decide) freeTrader 1, tripSold 0 (by decide) freeTrader 1, eq_some_getD (by decide +kernel),
    by decide +kernel, eq_some_getD (by decide +kernel), by decide +kernel, by decide +kernel⟩

end Lxs.Contracts
