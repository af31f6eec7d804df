import Lxs.Contracts.Curve

/-!
# Graduation into the gated pair

Until a coin graduates its pair has no liquidity, whatever is sent to it and whoever calls it, because only the coin may
make the first mint. Whether the buy that reaches the target completes is then a question of the amounts alone.

* `Gated`: what holds in every moment, in the middle of swaps too.
* `graduation_iff`: **exactly when a buy that reaches the target completes**, and what it leaves.
-/

namespace Lxs.Contracts

open Lib

namespace World

variable {t : Site} {w w' : World t}

/-! ### The pair's two sides -/

def coinReserve (w : World t) : ℕ := if t.coin.1 < t.wlxs.1 then w.pair.reserve0 else w.pair.reserve1

def wlxsReserve (w : World t) : ℕ := if t.coin.1 < t.wlxs.1 then w.pair.reserve1 else w.pair.reserve0

theorem pair_pool (w : World t) : w.pool.pair = w.pair := by
  unfold pool
  split_ifs <;> rfl

theorem pool_setPool (w : World t) (s : Pool t.pair) : (w.setPool s).pool = s := by
  unfold pool setPool
  split_ifs <;> rfl

theorem backed_pool_iff (w : World t) : w.pool.Backed ↔
    w.coinReserve ≤ w.coin.balanceOf t.pair.1 ∧ w.wlxsReserve ≤ w.wlxs.balanceOf t.pair.1 := by
  unfold pool coinReserve wlxsReserve
  split_ifs
  · exact ⟨fun h => ⟨h.reserve0, h.reserve1⟩, fun h => ⟨h.1, h.2⟩⟩
  · exact ⟨fun h => ⟨h.reserve1, h.reserve0⟩, fun h => ⟨h.2, h.1⟩⟩

/-! ### What holds in every moment -/

/-- The pair's liquidity adds up, only the coin may mint first, there is no liquidity before graduation, the pair holds its
reserves unless a swap is under way, and nobody may spend for it. -/
structure Gated (w : World t) : Prop where
  shares : w.pair.Shares
  gate : w.pair.graduator = t.coin.1
  first : w.pair.totalSupply = 0 ∨ w.coin.graduated = true
  backed : w.pair.unlocked = true → w.pool.Backed
  coinAllowance : ∀ x, w.coin.allowance t.pair.1 x = 0
  wlxsAllowance : ∀ x, w.wlxs.allowance t.pair.1 x = 0

theorem Gated.of_same_pair (hw : w.Gated) (hpair : w'.pair = w.pair)
    (hgrad : w.coin.graduated = true → w'.coin.graduated = true)
    (hcoin : w.coin.balanceOf t.pair.1 ≤ w'.coin.balanceOf t.pair.1)
    (hwlxs : w.wlxs.balanceOf t.pair.1 ≤ w'.wlxs.balanceOf t.pair.1)
    (hca : ∀ x, w'.coin.allowance t.pair.1 x = 0) (hwa : ∀ x, w'.wlxs.allowance t.pair.1 x = 0) : w'.Gated := by
  refine ⟨hpair ▸ hw.shares, hpair ▸ hw.gate, hpair ▸ hw.first.imp_right hgrad, fun hunlocked => ?_, hca, hwa⟩
  rw [hpair] at hunlocked
  obtain ⟨hc, hx⟩ := (backed_pool_iff w).1 (hw.backed hunlocked)
  have hcr : w'.coinReserve = w.coinReserve := by rw [coinReserve, hpair, coinReserve]
  have hwr : w'.wlxsReserve = w.wlxsReserve := by rw [wlxsReserve, hpair, wlxsReserve]
  exact (backed_pool_iff w').2 ⟨hcr ▸ hc.trans hcoin, hwr ▸ hx.trans hwlxs⟩

theorem Gated.setPool (hw : w.Gated) {s : Pool t.pair} (hshares : s.pair.Shares)
    (hgate : s.pair.graduator = w.pair.graduator) (hfirst : s.pair.totalSupply = 0 ∨ w.coin.graduated = true)
    (hbacked : s.pair.unlocked = true → s.Backed) : (w.setPool s).Gated := by
  refine ⟨hshares, hgate.trans hw.gate, hfirst, fun hunlocked => ?_, hw.coinAllowance, hw.wlxsAllowance⟩
  rw [pool_setPool]
  exact hbacked hunlocked

theorem Gated.sound (hw : w.Gated) (hunlocked : w.pair.unlocked = true) : w.pool.Sound := by
  refine ⟨?_, hw.backed hunlocked, ?_⟩ <;> rw [pair_pool]
  · exact hw.shares
  · exact hunlocked

end World

variable {al : Address → Address → ℕ}

theorem Ledger.le_transfer_of_allowance {b b' : Ledger} {sender source recipient a : Address}
    {v : ℕ} (h : b.transfer source recipient v = some b') (hv : source = a → v ≤ al a sender) (ha : ∀ x, al a x = 0) :
    b a ≤ b' a := by
  by_cases hsource : a = source
  · have hle := Ledger.le_transfer_source h
    have hzero := hv hsource.symm
    rw [ha] at hzero
    rw [← hsource] at hle
    omega
  · exact Ledger.le_transfer h hsource

theorem allowance_spent {source sender a : Address} {rest : ℕ} (ha : ∀ x, al a x = 0)
    (hrest : rest ≤ al source sender) (x : Address) :
    Function.update al source (Function.update (al source) sender rest) a x = 0 := by
  by_cases hsource : a = source
  · subst hsource
    rw [Function.update_self]
    by_cases hx : x = sender
    · subst hx
      rw [ha] at hrest
      rw [Function.update_self]
      omega
    · rw [Function.update_of_ne hx]
      exact ha x
  · rw [Function.update_of_ne hsource]
    exact ha x

theorem allowance_approved {sender spender a : Address} {v : ℕ} (ha : ∀ x, al a x = 0)
    (hsender : a ≠ sender) (x : Address) :
    Function.update al sender (Function.update (al sender) spender v) a x = 0 := by
  rw [Function.update_of_ne hsender]
  exact ha x

/-! ### Every step keeps it -/

namespace Pair

variable {p p' : Pair} {recipient source : Address} {value now b0 b1 r0 r1 : ℕ}

structure SameTerms (p p' : Pair) : Prop where
  graduator : p'.graduator = p.graduator
  unlocked : p'.unlocked = p.unlocked

theorem SameTerms.trans {p'' : Pair} (h : SameTerms p p') (h' : SameTerms p' p'') : SameTerms p p'' :=
  ⟨h'.graduator.trans h.graduator, h'.unlocked.trans h.unlocked⟩

theorem sameTerms_issue (h : p.issue recipient value = some p') : SameTerms p p' := by
  rw [issue_some h]
  exact ⟨rfl, rfl⟩

theorem sameTerms_destroy (h : p.destroy source value = some p') : SameTerms p p' := by
  obtain ⟨_, _, -, -, rfl⟩ := destroy_some h
  exact ⟨rfl, rfl⟩

theorem sameTerms_update (h : p.update now b0 b1 r0 r1 = some p') : SameTerms p p' := by
  obtain ⟨-, -, _, _, _, rfl⟩ := update_some h
  exact ⟨rfl, rfl⟩

theorem unlocked_transferFrom {sender : Address} (h : p.transferFrom sender source recipient value = some p') :
    p'.unlocked = p.unlocked := by
  have htransfer : ∀ {q : Pair}, q.transfer source recipient value = some p' → p'.unlocked = q.unlocked := by
    intro q hq
    simp only [transfer, Option.bind_eq_bind, Option.bind_eq_some_iff, Option.pure_def, Option.some.injEq] at hq
    obtain ⟨b, -, rfl⟩ := hq
    rfl
  unfold transferFrom at h
  dsimp only at h
  split_ifs at h
  · simp only [Option.bind_eq_bind, Option.bind_eq_some_iff] at h
    obtain ⟨rest, -, h⟩ := h
    have hsame := htransfer h
    exact hsame
  · exact htransfer h

theorem Shuffled.sameTerms (h : Shuffled p p') : SameTerms p p' := by
  rw [h.rest]
  exact ⟨rfl, rfl⟩

end Pair

namespace Pool

variable {addr : ContractAddress} {s s' : Pool addr} {now : ℕ} {sender recipient : Address}

theorem sameTerms_mint (h : s.mint now sender recipient = some s') : s.pair.SameTerms s'.pair := by
  obtain ⟨-, -, _, _, _, p₁, p₂, p₃, -, -, -, hp₁, -, hp₂, hp₃, rfl⟩ := mint_some h
  have h₁ : s.pair.SameTerms p₁ := by
    split_ifs at hp₁
    · exact Pair.sameTerms_issue hp₁
    · cases hp₁
      exact ⟨rfl, rfl⟩
  exact (h₁.trans (Pair.sameTerms_issue hp₂)).trans (Pair.sameTerms_update hp₃)

theorem sameTerms_burn (h : s.burn now recipient = some s') : s.pair.SameTerms s'.pair := by
  obtain ⟨-, -, p₁, p₂, t₀, t₁, hp₁, -, -, hp₂, rfl⟩ := burn_some h
  exact (Pair.sameTerms_destroy hp₁).trans (Pair.sameTerms_update hp₂)

theorem sameTerms_sync (h : s.sync now = some s') : s.pair.SameTerms s'.pair := by
  obtain ⟨-, p, hp, rfl⟩ := sync_some h
  exact Pair.sameTerms_update hp

end Pool

namespace World

variable {t : Site} {w w' : World t} {sender recipient : Address} {now value amount : ℕ}

theorem Gated.deposit (hw : w.Gated) (h : w.deposit sender value = some w') : w'.Gated := by
  obtain ⟨n, b, -, hb, rfl⟩ := deposit_some h
  exact hw.of_same_pair rfl id le_rfl (Ledger.le_add hb _) hw.coinAllowance hw.wlxsAllowance

theorem Gated.buyCurve (hw : w.Gated) {minTokensOut : ℕ} (h : w.buyCurve value minTokensOut sender recipient = some w') :
    w'.Gated := by
  obtain ⟨-, -, n, fee, inAmt, out, tokens, c, -, -, -, -, -, hc, rfl⟩ := buyCurve_some h
  obtain rfl := PumpCoin.issue_some hc
  refine hw.of_same_pair rfl id ?_ le_rfl hw.coinAllowance hw.wlxsAllowance
  dsimp only
  by_cases hr : t.pair.1 = recipient
  · rw [hr, Function.update_self]
    exact Nat.le_add_right ..
  · rw [Function.update_of_ne hr]

theorem Gated.seeded (hw : w.Gated) {c₁ c₃ : PumpCoin} {w₂ : World t} {x₃ : WLXS}
    (hseeds : w.SeedSteps c₁ w₂ c₃ x₃) :
    Gated ({ w₂ with coin := c₃, wlxs := x₃ } : World t) := by
  obtain ⟨hc₁, hw₂, hc₃, hx₃⟩ := hseeds
  obtain rfl := PumpCoin.issue_some hc₁
  have hopened : Gated ({ w with
      coin := { w.coin with
        graduated := true, curveTokens := 0, reserveNative := 0
        totalSupply := w.coin.totalSupply + w.coin.curveTokens
        balanceOf := Function.update w.coin.balanceOf t.coin.1 (w.coin.balanceOf t.coin.1 + w.coin.curveTokens) } } :
      World t) := by
    refine hw.of_same_pair rfl (fun _ => rfl) ?_ le_rfl hw.coinAllowance hw.wlxsAllowance
    dsimp only
    rw [Function.update_of_ne (Ne.symm t.coin_ne_pair)]
  have hwrapped := hopened.deposit hw₂
  obtain ⟨b, hb, rfl⟩ := PumpCoin.transfer_some hc₃
  obtain ⟨b', al, hb', rfl, -, hal⟩ := WLXS.transferFrom_some hx₃
  rw [hal rfl]
  exact hwrapped.of_same_pair rfl id (Ledger.le_transfer hb (Ne.symm t.coin_ne_pair))
    (Ledger.le_transfer hb' (Ne.symm t.coin_ne_pair)) hwrapped.coinAllowance hwrapped.wlxsAllowance

theorem Gated.graduate (hw : w.Gated) (h : w.graduate now = some w') : w'.Gated := by
  obtain ⟨c₁, w₂, c₃, x₃, s, hseeds, hs, rfl⟩ := graduate_some h
  have hgraduated := graduated_graduate h
  have hseeded := hw.seeded hseeds
  have hsame := Pool.sameTerms_mint hs
  have hunlocked := (Pool.mint_some hs).1
  rw [pair_pool] at hsame hunlocked
  have hsound := (Pool.sound_mint (hseeded.sound hunlocked) hs).1
  exact hseeded.setPool hsound.shares hsame.graduator (.inr hgraduated) fun _ => hsound.backed

theorem Gated.shuffled (hw : w.Gated) {p : Pair} (h : w.pair.Shuffled p) : Gated ({ w with pair := p } : World t) := by
  have hrest := h.rest
  refine ⟨h.shares hw.shares, ?_, ?_, fun hunlocked => ?_, hw.coinAllowance, hw.wlxsAllowance⟩
  · exact h.sameTerms.graduator.trans hw.gate
  · dsimp only
    rw [hrest]
    exact hw.first
  · dsimp only at hunlocked
    rw [h.sameTerms.unlocked] at hunlocked
    have hbacked := (backed_pool_iff w).1 (hw.backed hunlocked)
    refine (backed_pool_iff _).2 ?_
    unfold coinReserve wlxsReserve at hbacked ⊢
    rw [hrest]
    exact hbacked

theorem Gated.act (hw : w.Gated) {a : Act t} (h : w.act a = some w') : w'.Gated := by
  cases a with
  | buyTo now value minTokensOut sender recipient =>
    obtain ⟨w₁, hw₁, ⟨rfl, -⟩ | ⟨hgrad, -⟩⟩ := buyTo_some h
    · exact hw.buyCurve hw₁
    · exact (hw.buyCurve hw₁).graduate hgrad
  | transfer sender recipient v =>
    obtain ⟨c, hc, rfl⟩ := Option.map_eq_some_iff.1 h
    obtain ⟨b, hb, rfl⟩ := PumpCoin.transfer_some hc
    exact hw.of_same_pair rfl id (Ledger.le_transfer hb (Ne.symm sender.2.2.2.2)) le_rfl hw.coinAllowance hw.wlxsAllowance
  | approve sender spender v =>
    cases h
    exact hw.of_same_pair rfl id le_rfl le_rfl (allowance_approved hw.coinAllowance (Ne.symm sender.2.2.2.2))
      hw.wlxsAllowance
  | transferFrom sender source recipient v =>
    obtain ⟨c, hc, rfl⟩ := Option.map_eq_some_iff.1 h
    obtain ⟨hv, rest, b, hrest, hb, rfl⟩ := PumpCoin.transferFrom_some hc
    exact hw.of_same_pair rfl id (Ledger.le_transfer_of_allowance hb (fun hs => hs ▸ hv) hw.coinAllowance) le_rfl
      (allowance_spent hw.coinAllowance hrest) hw.wlxsAllowance
  | deposit sender value => exact hw.deposit h
  | wlxsTransfer sender recipient value =>
    obtain ⟨x, hx, rfl⟩ := Option.map_eq_some_iff.1 h
    obtain ⟨b, al, hb, rfl, -, hal⟩ := WLXS.transferFrom_some hx
    obtain rfl := hal rfl
    exact hw.of_same_pair rfl id le_rfl (Ledger.le_transfer hb (Ne.symm sender.2.2.2.2)) hw.coinAllowance hw.wlxsAllowance
  | wlxsApprove sender spender value =>
    cases h
    exact hw.of_same_pair rfl id le_rfl le_rfl hw.coinAllowance
      (allowance_approved hw.wlxsAllowance (Ne.symm sender.2.2.2.2))
  | wlxsTransferFrom sender source recipient value =>
    obtain ⟨x, hx, rfl⟩ := Option.map_eq_some_iff.1 h
    obtain ⟨b, al, hb, rfl, hother, hself⟩ := WLXS.transferFrom_some hx
    by_cases hsource : source = sender.1
    · obtain rfl := hself hsource
      rw [hsource] at hb
      exact hw.of_same_pair rfl id le_rfl (Ledger.le_transfer hb (Ne.symm sender.2.2.2.2)) hw.coinAllowance
        hw.wlxsAllowance
    · rcases hother hsource with ⟨hv, rest, hrest, rfl⟩ | ⟨hmax, rfl⟩
      · exact hw.of_same_pair rfl id le_rfl (Ledger.le_transfer_of_allowance hb (fun hs => hs ▸ hv) hw.wlxsAllowance)
          hw.coinAllowance (allowance_spent hw.wlxsAllowance hrest)
      · refine hw.of_same_pair rfl id le_rfl (Ledger.le_transfer hb fun hs => ?_) hw.coinAllowance hw.wlxsAllowance
        rw [← hs, hw.wlxsAllowance] at hmax
        exact absurd hmax (by norm_num)
  | mint now sender recipient =>
    obtain ⟨s, hs, rfl⟩ := Option.map_eq_some_iff.1 h
    have hsame := Pool.sameTerms_mint hs
    obtain ⟨hunlocked, hgate, -⟩ := Pool.mint_some hs
    rw [pair_pool] at hsame hunlocked hgate
    have hsound := (Pool.sound_mint (hw.sound hunlocked) hs).1
    -- without liquidity only the coin passes the gate
    have hgraduated : w.coin.graduated = true := hw.first.resolve_left fun hempty => by
      have hsender := hgate ⟨hw.gate ▸ t.coin.2, hempty⟩
      exact sender.2.2.1 (hsender.trans hw.gate)
    exact hw.setPool hsound.shares hsame.graduator (.inr hgraduated) fun _ => hsound.backed
  | burn now recipient =>
    obtain ⟨s, hs, rfl⟩ := Option.map_eq_some_iff.1 h
    have hsame := Pool.sameTerms_burn hs
    obtain ⟨hunlocked, hT, -⟩ := Pool.burn_some hs
    rw [pair_pool] at hsame hunlocked hT
    have hsound := (Pool.sound_burn (hw.sound hunlocked) hs).1
    exact hw.setPool hsound.shares hsame.graduator (.inr (hw.first.resolve_left hT.ne')) fun _ => hsound.backed
  | sync now =>
    obtain ⟨s, hs, rfl⟩ := Option.map_eq_some_iff.1 h
    have hsame := Pool.sameTerms_sync hs
    obtain ⟨hunlocked, p, hp, rfl⟩ := Pool.sync_some hs
    rw [pair_pool] at hsame hunlocked
    have hsound := (Pool.sound_sync (hw.sound hunlocked) hs).1
    refine hw.setPool hsound.shares hsame.graduator ?_ fun _ => hsound.backed
    obtain ⟨-, -, _, _, _, rfl⟩ := Pair.update_some hp
    rw [pair_pool]
    exact hw.first
  | lpTransfer sender recipient value =>
    obtain ⟨p, hp, rfl⟩ := Option.map_eq_some_iff.1 h
    exact hw.shuffled (Pair.shuffled_transfer (fun hz => absurd hz sender.2.1) hp)
  | lpApprove sender spender value =>
    cases h
    exact hw.shuffled (Pair.shuffled_approve _ sender.2.1 spender)
  | lpTransferFrom sender source recipient value =>
    obtain ⟨p, hp, rfl⟩ := Option.map_eq_some_iff.1 h
    exact hw.shuffled (Pair.shuffled_transferFrom hw.shares hp)
  | send sender recipient value | reward recipient value =>
    obtain ⟨n, -, rfl⟩ := Option.map_eq_some_iff.1 h
    exact hw.of_same_pair rfl id le_rfl le_rfl hw.coinAllowance hw.wlxsAllowance

variable {p : Pending}

theorem Gated.start (hw : w.Gated) {c : Waiting t} (h : w.start c = some (w', p)) : w'.Gated := by
  cases c with
  | sell sender amount minNativeOut =>
    obtain ⟨w₁, hw₁, heq⟩ := Option.map_eq_some_iff.1 h
    cases heq
    obtain ⟨-, -, n, _, _, _, _, c, -, -, -, -, hc, -, rfl⟩ := startSell_some hw₁
    obtain ⟨rest, supply, -, -, rfl⟩ := PumpCoin.destroy_some hc
    refine hw.of_same_pair rfl id ?_ le_rfl hw.coinAllowance hw.wlxsAllowance
    dsimp only
    rw [Function.update_of_ne (Ne.symm sender.2.2.2.2)]
  | withdrawFees =>
    obtain ⟨w₁, hw₁, heq⟩ := Option.map_eq_some_iff.1 h
    cases heq
    obtain ⟨-, w₀, rfl, hpaid⟩ := startWithdrawFees_some hw₁
    have hempty : Gated ({ w with coin := { w.coin with feeAccrued := 0, unlocked := false } } : World t) :=
      hw.of_same_pair rfl id le_rfl le_rfl hw.coinAllowance hw.wlxsAllowance
    rcases hpaid with rfl | hdeposit | ⟨n, -, rfl⟩
    · exact hempty
    · exact hempty.deposit hdeposit
    · exact hempty.of_same_pair rfl id le_rfl le_rfl hempty.coinAllowance hempty.wlxsAllowance
  | withdraw sender value =>
    obtain ⟨w₁, hw₁, heq⟩ := Option.map_eq_some_iff.1 h
    cases heq
    obtain ⟨b, n, hb, -, rfl⟩ := startWithdraw_some hw₁
    exact hw.of_same_pair rfl id le_rfl (Ledger.take_of_ne hb (Ne.symm sender.2.2.2.2)).ge hw.coinAllowance
      hw.wlxsAllowance
  | swap now amount0Out amount1Out recipient =>
    obtain ⟨s, hs, heq⟩ := Option.map_eq_some_iff.1 h
    cases heq
    obtain ⟨-, hpair⟩ := Pool.startSwap_some hs
    rw [pair_pool] at hpair
    refine hw.setPool ?_ ?_ ?_ fun hunlocked => ?_
    · rw [hpair]
      exact ⟨hw.shares.supply, hw.shares.zero, hw.shares.minimum⟩
    · rw [hpair]
    · rw [hpair]
      exact hw.first
    · rw [hpair] at hunlocked
      cases hunlocked

theorem Gated.finish (hw : w.Gated) (h : w.finish p = some w') : w'.Gated := by
  cases p with
  | sell | withdrawFees =>
    cases h
    exact hw.of_same_pair rfl id le_rfl le_rfl hw.coinAllowance hw.wlxsAllowance
  | withdraw =>
    cases h
    exact hw
  | swap now amount0Out amount1Out =>
    obtain ⟨s, hs, rfl⟩ := Option.map_eq_some_iff.1 h
    obtain ⟨-, p, hp, rfl⟩ := Pool.endSwap_some hs
    rw [pair_pool] at hp
    have hshares := hw.shares.update hp
    have hsame := Pair.sameTerms_update hp
    have hbacked : Pool.Backed (⟨p, w.pool.ledger0, w.pool.ledger1⟩ : Pool t.pair) := Pool.backed_update hp
    refine hw.setPool ⟨hshares.supply, hshares.zero, hshares.minimum⟩ hsame.graduator ?_
      fun _ => ⟨hbacked.reserve0, hbacked.reserve1⟩
    obtain ⟨-, -, _, _, _, rfl⟩ := Pair.update_some hp
    exact hw.first

theorem Created.gated (hw : w.Created) (ht : t.swapFactory ≠ zeroAddress) : w.Gated := by
  have hpool : w.pool.Sound := by
    refine ⟨?_, ?_, ?_⟩
    · rw [pair_pool, hw.pair]
      exact (Pool.sound_created ..).shares
    · refine (backed_pool_iff w).2 ⟨?_, ?_⟩ <;>
      · simp only [coinReserve, wlxsReserve, hw.pair, Pool.created, ite_self]
        exact Nat.zero_le _
    · rw [pair_pool, hw.pair]
      rfl
  refine ⟨pair_pool w ▸ hpool.shares, ?_, ?_, fun _ => hpool.backed, fun x => ?_, hw.wlxsAllowance⟩
  · rw [hw.pair]
    exact if_neg ht
  · rw [hw.pair]
    exact .inl rfl
  · rw [hw.coin]

/-! ### Locks -/

def locks (w : World t) : Bool × Bool := (w.coin.unlocked, w.pair.unlocked)

def held : Pending → Bool × Bool → Bool × Bool
  | .sell, l | .withdrawFees, l => (false, l.2)
  | .withdraw, l => l
  | .swap .., l => (l.1, false)

def mayStart : Pending → Bool × Bool → Prop
  | .sell, l | .withdrawFees, l => l.1 = true
  | .withdraw, _ => True
  | .swap .., l => l.2 = true

theorem locks_deposit (h : w.deposit sender value = some w') : w'.locks = w.locks := by
  obtain ⟨n, b, -, -, rfl⟩ := deposit_some h
  rfl

theorem locks_setPool {s : Pool t.pair} (h : w.pool.pair.SameTerms s.pair) : (w.setPool s).locks = w.locks := by
  rw [pair_pool] at h
  exact Prod.ext rfl h.unlocked

theorem locks_buyTo {minTokensOut : ℕ} (h : w.buyTo now value minTokensOut sender recipient = some w') :
    w'.locks = w.locks := by
  obtain ⟨w₁, hw₁, hor⟩ := buyTo_some h
  obtain ⟨-, -, n, _, _, _, _, c, -, -, -, -, -, hc, rfl⟩ := buyCurve_some hw₁
  obtain rfl := PumpCoin.issue_some hc
  rcases hor with ⟨rfl, -⟩ | ⟨hgrad, -⟩
  · rfl
  · obtain ⟨c₁, w₂, c₃, x₃, s, ⟨hc₁, hw₂, hc₃, -⟩, hs, rfl⟩ := graduate_some hgrad
    obtain rfl := PumpCoin.issue_some hc₁
    obtain ⟨b, -, rfl⟩ := PumpCoin.transfer_some hc₃
    rw [locks_setPool (Pool.sameTerms_mint hs)]
    have hlocks := locks_deposit hw₂
    exact hlocks

theorem locks_act {a : Act t} (h : w.act a = some w') : w'.locks = w.locks := by
  cases a with
  | buyTo now value minTokensOut sender recipient => exact locks_buyTo h
  | transfer sender recipient v =>
    obtain ⟨c, hc, rfl⟩ := Option.map_eq_some_iff.1 h
    obtain ⟨b, -, rfl⟩ := PumpCoin.transfer_some hc
    rfl
  | transferFrom sender source recipient v =>
    obtain ⟨c, hc, rfl⟩ := Option.map_eq_some_iff.1 h
    obtain ⟨-, rest, b, -, -, rfl⟩ := PumpCoin.transferFrom_some hc
    rfl
  | deposit sender value => exact locks_deposit h
  | mint now sender recipient =>
    obtain ⟨s, hs, rfl⟩ := Option.map_eq_some_iff.1 h
    exact locks_setPool (Pool.sameTerms_mint hs)
  | burn now recipient =>
    obtain ⟨s, hs, rfl⟩ := Option.map_eq_some_iff.1 h
    exact locks_setPool (Pool.sameTerms_burn hs)
  | sync now =>
    obtain ⟨s, hs, rfl⟩ := Option.map_eq_some_iff.1 h
    exact locks_setPool (Pool.sameTerms_sync hs)
  | lpTransfer sender recipient value =>
    obtain ⟨p, hp, rfl⟩ := Option.map_eq_some_iff.1 h
    exact Prod.ext rfl (Pair.shuffled_transfer (fun hz => absurd hz sender.2.1) hp).sameTerms.unlocked
  | lpTransferFrom sender source recipient value =>
    obtain ⟨p, hp, rfl⟩ := Option.map_eq_some_iff.1 h
    exact Prod.ext rfl (Pair.unlocked_transferFrom hp)
  | wlxsTransfer sender recipient value | wlxsTransferFrom sender source recipient value | send sender recipient value
  | reward recipient value =>
    obtain ⟨x, -, rfl⟩ := Option.map_eq_some_iff.1 h
    rfl
  | approve sender spender v | wlxsApprove sender spender value | lpApprove sender spender value =>
    cases h
    rfl

theorem locks_start {c : Waiting t} (h : w.start c = some (w', p)) :
    mayStart p w.locks ∧ w'.locks = held p w.locks := by
  cases c with
  | sell sender amount minNativeOut =>
    obtain ⟨w₁, hw₁, heq⟩ := Option.map_eq_some_iff.1 h
    cases heq
    obtain ⟨hunlocked, -, n, _, _, _, _, c, -, -, -, -, hc, -, rfl⟩ := startSell_some hw₁
    obtain ⟨rest, supply, -, -, rfl⟩ := PumpCoin.destroy_some hc
    exact ⟨hunlocked, rfl⟩
  | withdrawFees =>
    obtain ⟨w₁, hw₁, heq⟩ := Option.map_eq_some_iff.1 h
    cases heq
    obtain ⟨hunlocked, w₀, rfl, hpaid⟩ := startWithdrawFees_some hw₁
    refine ⟨hunlocked, ?_⟩
    rcases hpaid with rfl | hdeposit | ⟨n, -, rfl⟩
    · rfl
    · have hlocks := locks_deposit hdeposit
      exact hlocks
    · rfl
  | withdraw sender value =>
    obtain ⟨w₁, hw₁, heq⟩ := Option.map_eq_some_iff.1 h
    cases heq
    obtain ⟨b, n, -, -, rfl⟩ := startWithdraw_some hw₁
    exact ⟨trivial, rfl⟩
  | swap now amount0Out amount1Out recipient =>
    obtain ⟨s, hs, heq⟩ := Option.map_eq_some_iff.1 h
    cases heq
    obtain ⟨hunlocked, hpair⟩ := Pool.startSwap_some hs
    rw [pair_pool] at hunlocked
    exact ⟨hunlocked, Prod.ext rfl (by rw [locks, setPool, hpair]; rfl)⟩

theorem locks_finish {l : Bool × Bool} (hfree : mayStart p l) (hw : w.locks = held p l)
    (h : w.finish p = some w') : w'.locks = l := by
  cases p with
  | sell | withdrawFees =>
    cases h
    have hpair : w.pair.unlocked = l.2 := congrArg Prod.snd hw
    exact Prod.ext hfree.symm hpair
  | withdraw =>
    cases h
    exact hw
  | swap now amount0Out amount1Out =>
    obtain ⟨s, hs, rfl⟩ := Option.map_eq_some_iff.1 h
    obtain ⟨-, p, -, rfl⟩ := Pool.endSwap_some hs
    have hcoin : w.coin.unlocked = l.1 := congrArg Prod.fst hw
    exact Prod.ext hcoin hfree.symm

end World

variable {t : Site} {m : CallStack.State (launch t)}

theorem Launched.gated (h : Launched t m) (ht : t.swapFactory ≠ zeroAddress) : m.world.Gated :=
  (h.keeps (fun _ hw => hw.1.gated ht) (fun _ _ _ hw _ ha => hw.act ha) (fun _ _ _ _ hw _ hs => hw.start hs)
    fun _ _ _ hw _ hf => hw.finish hf).1

theorem Launched.unlocked (h : Launched t m) (hstack : m.stack = []) :
    m.world.coin.unlocked = true ∧ m.world.pair.unlocked = true := by
  have htold : CallStack.Told World.locks World.held World.mayStart (true, true) m.world.locks m.stack := h.told
    (fun w hw => by rw [World.locks, hw.1.coin, hw.1.pair]; rfl) (fun _ _ _ ha => World.locks_act ha)
    (fun _ _ _ _ hs => World.locks_start hs) fun _ _ _ _ hfree hw hf => World.locks_finish hfree hw hf
  rw [hstack] at htold
  exact ⟨congrArg Prod.fst htold, congrArg Prod.snd htold⟩

/-! ### When calls complete -/

theorem Pair.exists_issue {p : Pair} {recipient : Address} {value : ℕ} (hs : p.Shares)
    (h : p.totalSupply + value < 2 ^ 256) : ∃ p', p.issue recipient value = some p' := by
  obtain ⟨r, hr⟩ : ∃ r, Ledger.issue p.balanceOf p.totalSupply recipient value = some r := Ledger.exists_issue hs.supply h
  exact ⟨_, by rw [issue, hr]; rfl⟩

namespace Pool

variable {addr : ContractAddress} {s s' : Pool addr} {now : ℕ} {sender : Address}

theorem liquidity_first {p : Pair} {amount0 amount1 l : ℕ} (hT : p.totalSupply = 0)
    (h : liquidity p amount0 amount1 = some l) : l + minimumLiquidity = Nat.sqrt (amount0 * amount1) := by
  simp only [liquidity, if_pos hT, Option.bind_eq_bind, Option.bind_eq_some_iff] at h
  obtain ⟨k, hk, hl⟩ := h
  obtain rfl := checkedMul_some hk
  rw [← sqrt_eq]
  exact checkedSub_some hl

/-- **The first mint** by whoever may make it completes exactly if the product of what came in is large enough, and gives
all of the liquidity to the zero address if that is the recipient. -/
theorem mint_first (now : ℕ) (hs : s.Sound) (hsender : sender = s.pair.graduator) (hT : s.pair.totalSupply = 0)
    (h0 : s.ledger0 addr.1 < 2 ^ 112) (h1 : s.ledger1 addr.1 < 2 ^ 112) :
    ((s.mint now sender zeroAddress).isSome = true ↔
      1001 ^ 2 ≤ (s.ledger0 addr.1 - s.pair.reserve0) * (s.ledger1 addr.1 - s.pair.reserve1)) ∧
    ∀ s', s.mint now sender zeroAddress = some s' →
      0 < s'.pair.totalSupply ∧ s'.pair.balanceOf zeroAddress = s'.pair.totalSupply ∧
        s'.pair.reserve0 = s.ledger0 addr.1 ∧ s'.pair.reserve1 = s.ledger1 addr.1 := by
  have hempty : s.pair.balanceOf zeroAddress = 0 := by
    have := Ledger.le_sum s.pair.balanceOf zeroAddress
    have := hs.shares.supply
    omega
  refine ⟨⟨fun h => ?_, fun hk => ?_⟩, fun s' h => ?_⟩
  · obtain ⟨s', h⟩ := Option.isSome_iff_exists.1 h
    obtain ⟨-, -, amount0, amount1, l, _, _, _, ha0, ha1, hl, -, hpos, -⟩ := mint_some h
    have hroot := liquidity_first hT hl
    have hge : 1001 ≤ Nat.sqrt (amount0 * amount1) := by
      unfold minimumLiquidity at hroot
      omega
    rw [← ha0, ← ha1, Nat.add_sub_cancel, Nat.add_sub_cancel, Nat.pow_two]
    exact Nat.le_sqrt.1 hge
  · have hb0 := hs.backed.reserve0
    have hb1 := hs.backed.reserve1
    generalize hamount0 : s.ledger0 addr.1 - s.pair.reserve0 = amount0 at hk
    generalize hamount1 : s.ledger1 addr.1 - s.pair.reserve1 = amount1 at hk
    have hproduct : amount0 * amount1 < 2 ^ 224 := by
      calc amount0 * amount1 < 2 ^ 112 * 2 ^ 112 := Nat.mul_lt_mul'' (by omega) (by omega)
        _ = 2 ^ 224 := by norm_num
    have hroot : 1001 ≤ Nat.sqrt (amount0 * amount1) := Nat.le_sqrt.2 (by rw [← Nat.pow_two]; exact hk)
    have hrootle : Nat.sqrt (amount0 * amount1) ≤ amount0 * amount1 := Nat.sqrt_le_self _
    have hl : liquidity s.pair amount0 amount1 = some (Nat.sqrt (amount0 * amount1) - minimumLiquidity) := by
      simp only [liquidity, if_pos hT, Option.bind_eq_bind, checkedMul_eq (hproduct.trans (by norm_num)), Option.bind_some,
        sqrt_eq]
      exact checkedSub_eq (by unfold minimumLiquidity; omega)
    obtain ⟨p₁, hp₁⟩ : ∃ p₁, s.pair.issue zeroAddress minimumLiquidity = some p₁ :=
      Pair.exists_issue hs.shares (by rw [hT]; decide)
    have hshares₁ := hs.shares.issue (fun _ => ⟨rfl, rfl⟩) hp₁
    have hT₁ : p₁.totalSupply = minimumLiquidity := by
      rw [Pair.issue_some hp₁]
      dsimp only
      omega
    obtain ⟨p₂, hp₂⟩ : ∃ p₂, p₁.issue zeroAddress (Nat.sqrt (amount0 * amount1) - minimumLiquidity) = some p₂ := by
      refine Pair.exists_issue hshares₁ ?_
      rw [hT₁]
      unfold minimumLiquidity
      have : (2 : ℕ) ^ 224 + 1000 < 2 ^ 256 := by norm_num
      omega
    obtain ⟨p₃, hp₃⟩ : ∃ p₃, p₂.update now (s.ledger0 addr.1) (s.ledger1 addr.1) s.pair.reserve0 s.pair.reserve1 = some p₃ :=
      Pair.exists_update h0 h1
    have hpos : 0 < Nat.sqrt (amount0 * amount1) - minimumLiquidity := by
      unfold minimumLiquidity
      omega
    have hmint : s.mint now sender zeroAddress = some { s with pair := p₃ } := by
      simp only [mint, hs.unlocked, hsender, hT, checkedSub_eq hb0, checkedSub_eq hb1, hamount0, hamount1, hl, hp₁, hp₂, hp₃,
        hpos, guard, if_true, implies_true, Option.bind_eq_bind, Option.bind_some, Option.pure_def]
    rw [hmint]
    rfl
  · obtain ⟨-, -, amount0, amount1, l, p₁, p₂, p₃, -, -, -, hp₁, hpos, hp₂, hp₃, rfl⟩ := mint_some h
    rw [if_pos hT] at hp₁
    obtain rfl := Pair.issue_some hp₁
    obtain rfl := Pair.issue_some hp₂
    obtain ⟨-, -, _, _, _, rfl⟩ := Pair.update_some hp₃
    dsimp only
    rw [Function.update_self, Function.update_self, hT, hempty]
    exact ⟨Nat.add_pos_right _ hpos, rfl, rfl, rfl⟩

end Pool

namespace World

variable {t : Site} {w w' : World t} {now : ℕ}

/-- What came to the pair since its reserves were written, side by side. -/
def unsynced (w : World t) : ℕ × ℕ :=
  (w.coin.balanceOf t.pair.1 - w.coinReserve, w.wlxs.balanceOf t.pair.1 - w.wlxsReserve)

theorem curveSupply_lt : curveSupply < 2 ^ 112 := by decide

theorem Solvent.balance_lt (hw : w.Solvent) (a : Address) : w.coin.balanceOf a < 2 ^ 112 := by
  have hle := Ledger.le_sum w.coin.balanceOf a
  have hsupply := hw.supply
  have hcurve := hw.curve
  have := curveSupply_lt
  omega

theorem Solvent.wlxs_lt (hw : w.Solvent) (hfunded : w.Funded) (a : Address) : w.wlxs.balanceOf a < 2 ^ 112 := by
  have hle := Ledger.le_sum w.wlxs.balanceOf a
  have hnative := Ledger.le_sum w.native t.wlxs.1
  have hwrapped := hw.wrapped
  unfold Funded at hfunded
  omega

theorem mint_pool (now : ℕ) (hg : w.Gated) (hw : w.Solvent) (hfunded : w.Funded) (hunlocked : w.pair.unlocked = true)
    (hT : w.pair.totalSupply = 0) :
    ((w.pool.mint now t.coin.1 zeroAddress).isSome = true ↔ 1001 ^ 2 ≤ w.unsynced.1 * w.unsynced.2) ∧
    ∀ s, w.pool.mint now t.coin.1 zeroAddress = some s →
      0 < s.pair.totalSupply ∧ s.pair.balanceOf zeroAddress = s.pair.totalSupply ∧
        (w.setPool s).coinReserve = w.coin.balanceOf t.pair.1 ∧ (w.setPool s).wlxsReserve = w.wlxs.balanceOf t.pair.1 := by
  have hsound := hg.sound hunlocked
  have hgate : t.coin.1 = w.pool.pair.graduator := by rw [pair_pool, hg.gate]
  have hT' : w.pool.pair.totalSupply = 0 := by rw [pair_pool, hT]
  have hcoin := hw.balance_lt t.pair.1
  have hwlxs := hw.wlxs_lt hfunded t.pair.1
  by_cases hlt : t.coin.1 < t.wlxs.1
  · have hpool : w.pool = ⟨w.pair, w.coin.balanceOf, w.wlxs.balanceOf⟩ := if_pos hlt
    rw [hpool] at hsound hgate hT' ⊢
    obtain ⟨hiff, hres⟩ := Pool.mint_first now hsound hgate hT' hcoin hwlxs
    simp only [unsynced, coinReserve, wlxsReserve, setPool, if_pos hlt]
    exact ⟨hiff, hres⟩
  · have hpool : w.pool = ⟨w.pair, w.wlxs.balanceOf, w.coin.balanceOf⟩ := if_neg hlt
    rw [hpool] at hsound hgate hT' ⊢
    obtain ⟨hiff, hres⟩ := Pool.mint_first now hsound hgate hT' hwlxs hcoin
    simp only [unsynced, coinReserve, wlxsReserve, setPool, if_neg hlt]
    refine ⟨hiff.trans (by rw [Nat.mul_comm]), fun s hs => ?_⟩
    obtain ⟨hpos, hzero, h0, h1⟩ := hres s hs
    exact ⟨hpos, hzero, h1, h0⟩

theorem exists_seeded (hw : w.Solvent) (hfunded : w.Funded) : ∃ c₁ w₂ c₃ x₃, w.SeedSteps c₁ w₂ c₃ x₃ := by
  have hcurve := hw.curve
  have hsupply := hw.supply
  have hfunds := hw.funds
  have hwrapped := hw.wrapped
  have hlt := curveSupply_lt
  unfold Funded at hfunded
  have hbal := Ledger.le_sum w.coin.balanceOf t.coin.1
  have hissue : ∃ c₁,
      { w.coin with graduated := true, curveTokens := 0, reserveNative := 0 }.issue t.coin.1 w.coin.curveTokens =
        some c₁ := by
    obtain ⟨r, hr⟩ : ∃ r, w.coin.balanceOf.issue w.coin.totalSupply t.coin.1 w.coin.curveTokens = some r :=
      Ledger.exists_issue hsupply (by omega)
    exact ⟨_, by rw [PumpCoin.issue, hr]; rfl⟩
  obtain ⟨c₁, hc₁⟩ := hissue
  have hdeposit : ∃ w₂, ({ w with coin := c₁ } : World t).deposit t.coin.1 w.coin.reserveNative = some w₂ := by
    obtain ⟨n, hn⟩ : ∃ n, w.native.transfer t.coin.1 t.wlxs.1 w.coin.reserveNative = some n :=
      Ledger.exists_transfer (by omega) (by omega)
    obtain ⟨b, hb⟩ : ∃ b, w.wlxs.balanceOf.add t.coin.1 w.coin.reserveNative = some b := by
      refine Ledger.exists_add ?_
      have := Ledger.le_sum w.wlxs.balanceOf t.coin.1
      have := Ledger.le_sum w.native t.wlxs.1
      have := Ledger.le_sum w.native t.coin.1
      omega
    simp only [deposit, Wrapping.deposit, wrapping, hn, hb, Option.bind_eq_bind, Option.bind_some]
    exact ⟨_, rfl⟩
  obtain ⟨w₂, hw₂⟩ := hdeposit
  obtain ⟨n, b, hn, hb, rfl⟩ := deposit_some hw₂
  obtain rfl := PumpCoin.issue_some hc₁
  have hsum := sum_update w.coin.balanceOf t.coin.1 (w.coin.balanceOf t.coin.1 + w.coin.curveTokens)
  have hcoin : ∃ c₃, PumpCoin.transfer
      { w.coin with
        graduated := true, curveTokens := 0, reserveNative := 0
        totalSupply := w.coin.totalSupply + w.coin.curveTokens
        balanceOf := Function.update w.coin.balanceOf t.coin.1 (w.coin.balanceOf t.coin.1 + w.coin.curveTokens) }
      t.coin.1 t.pair.1 w.coin.curveTokens = some c₃ := by
    obtain ⟨b', hb'⟩ : ∃ b', Ledger.transfer
        (Function.update w.coin.balanceOf t.coin.1 (w.coin.balanceOf t.coin.1 + w.coin.curveTokens))
        t.coin.1 t.pair.1 w.coin.curveTokens = some b' :=
      Ledger.exists_transfer (by rw [Function.update_self]; exact Nat.le_add_left ..) (by omega)
    simp only [PumpCoin.transfer, hb', Option.bind_eq_bind, Option.bind_some]
    exact ⟨_, rfl⟩
  obtain ⟨c₃, hc₃⟩ := hcoin
  have hbsum : ∑ a, b a = ∑ a, w.wlxs.balanceOf a + w.coin.reserveNative := Ledger.sum_add hb
  have hbcoin : w.coin.reserveNative ≤ b t.coin.1 := by
    rw [Ledger.add_some hb, Function.update_self]
    exact Nat.le_add_left ..
  obtain ⟨b'', hb''⟩ : ∃ b'', Ledger.transfer b t.coin.1 t.pair.1 w.coin.reserveNative = some b'' := by
    refine Ledger.exists_transfer hbcoin ?_
    have := Ledger.le_sum w.native t.wlxs.1
    have := Ledger.le_sum w.native t.coin.1
    omega
  refine ⟨_, _, c₃, ⟨b'', w.wlxs.allowance⟩, hc₁, hw₂, hc₃, ?_⟩
  simp only [WLXS.transfer, WLXS.transferFrom, guard, hbcoin, hb'', if_true, ne_eq, not_true_eq_false, false_and, if_false,
    Option.bind_eq_bind, Option.bind_some, Option.pure_def]

/-- **Graduation** from a state of the curve: it completes exactly if what the pair receives, with what was sent to it
before, is worth a first mint. -/
theorem graduate_iff (now : ℕ) (hg : w.Gated) (hw : w.Solvent) (hfunded : w.Funded) (hunlocked : w.pair.unlocked = true)
    (hT : w.pair.totalSupply = 0) :
    ((w.graduate now).isSome = true ↔
      1001 ^ 2 ≤ (w.coin.curveTokens + w.unsynced.1) * (w.coin.reserveNative + w.unsynced.2)) ∧
    ∀ w', w.graduate now = some w' →
      0 < w'.pair.totalSupply ∧ w'.pair.balanceOf zeroAddress = w'.pair.totalSupply ∧
        w.coin.curveTokens ≤ w'.coinReserve ∧ w.coin.reserveNative ≤ w'.wlxsReserve := by
  obtain ⟨c₁, w₂, c₃, x₃, hseeds⟩ := exists_seeded hw hfunded
  have hg' := hg.seeded hseeds
  have hw' := hw.seeded hseeds
  obtain ⟨hc₁, hw₂, hc₃, hx₃⟩ := hseeds
  have hnative := native_deposit hw₂
  have hmint : ∀ s, ({ w₂ with coin := c₃, wlxs := x₃ } : World t).pool.mint now t.coin.1 zeroAddress = s →
      w.graduate now = s.map (({ w₂ with coin := c₃, wlxs := x₃ } : World t).setPool ·) := by
    rintro s rfl
    simp only [graduate, hc₁, hw₂, hc₃, hx₃, Option.bind_eq_bind, Option.bind_some, Option.pure_def]
    cases ({ w₂ with coin := c₃, wlxs := x₃ } : World t).pool.mint now t.coin.1 zeroAddress <;> rfl
  obtain rfl := PumpCoin.issue_some hc₁
  obtain ⟨n, b, -, hb, rfl⟩ := deposit_some hw₂
  obtain ⟨bc, hbc, rfl⟩ := PumpCoin.transfer_some hc₃
  obtain ⟨bx, al, hbx, rfl, -⟩ := WLXS.transferFrom_some hx₃
  -- the pair gets the curve's tokens and native, besides what it has
  have hcoin : bc t.pair.1 = w.coin.balanceOf t.pair.1 + w.coin.curveTokens := by
    have := Ledger.transfer_recipient hbc t.coin_ne_pair
    dsimp only at this
    rwa [Function.update_of_ne (Ne.symm t.coin_ne_pair)] at this
  have hwlxs : bx t.pair.1 = w.wlxs.balanceOf t.pair.1 + w.coin.reserveNative := by
    have := Ledger.transfer_recipient hbx t.coin_ne_pair
    dsimp only at this
    rwa [Ledger.add_some hb, Function.update_of_ne (Ne.symm t.coin_ne_pair)] at this
  obtain ⟨hc, hx⟩ := (backed_pool_iff w).1 (hg.backed hunlocked)
  obtain ⟨hiff, hres⟩ := mint_pool now hg' hw' (by rw [Funded, hnative]; exact hfunded) hunlocked hT
  refine ⟨?_, fun w' h => ?_⟩
  · rw [hmint _ rfl, Option.isSome_map, hiff]
    have hcoin' : bc t.pair.1 - w.coinReserve = w.coin.curveTokens + (w.coin.balanceOf t.pair.1 - w.coinReserve) := by omega
    have hwlxs' : bx t.pair.1 - w.wlxsReserve = w.coin.reserveNative + (w.wlxs.balanceOf t.pair.1 - w.wlxsReserve) := by
      omega
    simp only [unsynced]
    rw [← hcoin', ← hwlxs']
    rfl
  · rw [hmint _ rfl] at h
    obtain ⟨s, hs, rfl⟩ := Option.map_eq_some_iff.1 h
    obtain ⟨hpos, hzero, hcr, hxr⟩ := hres s hs
    refine ⟨hpos, hzero, ?_, ?_⟩
    · rw [hcr]
      dsimp only
      omega
    · rw [hxr]
      dsimp only
      omega

end World

/-! ### The buy that reaches the target -/

namespace World

variable {t : Site} {w : World t} {X minTokensOut : ℕ} {sender recipient : Address}

theorem fee_le (t : Site) (X : ℕ) : X * t.feeBps / 10000 ≤ X := by
  refine Nat.div_le_of_le_mul ?_
  rw [Nat.mul_comm 10000]
  exact Nat.mul_le_mul_left X (t.feeBps_le.trans (by norm_num))

def leftover (w : World t) (X : ℕ) : ℕ := w.coin.eff * w.coin.curveTokens / (w.coin.eff + t.inAmt X)

theorem leftover_le (w : World t) (X : ℕ) : w.leftover X ≤ w.coin.curveTokens :=
  Nat.div_le_of_le_mul (Nat.mul_le_mul_right _ (Nat.le_add_right ..))

theorem fee_product_lt (t : Site) {x : ℕ} (hx : x < 2 ^ 112) : x * t.feeBps < 2 ^ 256 := by
  calc x * t.feeBps ≤ 2 ^ 112 * 1000 := Nat.mul_le_mul hx.le t.feeBps_le
    _ < 2 ^ 256 := by norm_num

theorem Solvent.curve_product_lt (hw : w.Solvent) (hfunded : w.Funded) :
    (virtualNative + w.coin.reserveNative) * w.coin.curveTokens < 2 ^ 256 := by
  have hcurve := hw.curve
  have hfunds := hw.funds
  have hlt : curveSupply < 2 ^ 90 := by decide
  have hV : virtualNative < 2 ^ 112 := by decide
  have hcoin := Ledger.le_sum w.native t.coin.1
  unfold Funded at hfunded
  calc (virtualNative + w.coin.reserveNative) * w.coin.curveTokens ≤ 2 ^ 113 * 2 ^ 90 :=
        Nat.mul_le_mul (by omega) (by omega)
    _ < 2 ^ 256 := by norm_num

/-- The curve part of a buy completes if its requirements are met: below `2 ^ 112` nothing overflows. -/
theorem exists_buyCurve (hw : w.Solvent) (hfunded : w.Funded) (hunlocked : w.coin.unlocked = true)
    (hopen : w.coin.graduated = false) (hX : 0 < X) (hpays : X ≤ w.native sender) (hrecipient : recipient ≠ zeroAddress)
    (hmin : minTokensOut ≤ w.coin.curveTokens - w.leftover X) :
    ∃ w₁, w.buyCurve X minTokensOut sender recipient = some w₁ := by
  have hcurve := hw.curve
  have hsupply := hw.supply
  have hfunds := hw.funds
  have hlt : curveSupply < 2 ^ 90 := by decide
  have hV : virtualNative < 2 ^ 112 := by decide
  have hk := hw.curve_product_lt hfunded
  unfold Funded at hfunded
  have hXlt := Ledger.le_sum w.native sender
  have hcoin := Ledger.le_sum w.native t.coin.1
  have hfee := fee_le t X
  have hleft := w.leftover_le X
  have hxfee := fee_product_lt t (x := X) (by omega)
  have hin : t.inAmt X = X - X * t.feeBps / 10000 := rfl
  obtain ⟨n, hn⟩ : ∃ n, w.native.transfer sender t.coin.1 X = some n := Ledger.exists_transfer hpays (by omega)
  have hbuyOut : w.coin.buyOut (t.inAmt X) = some (w.coin.curveTokens - w.leftover X) := by
    have he : virtualNative + w.coin.reserveNative < 2 ^ 256 := by omega
    have hd : virtualNative + w.coin.reserveNative + t.inAmt X < 2 ^ 256 := by omega
    have hpos : 0 < virtualNative + w.coin.reserveNative + t.inAmt X := Nat.add_pos_left w.coin.eff_pos _
    simp only [PumpCoin.buyOut, Option.bind_eq_bind, checkedAdd_eq he, checkedMul_eq hk, checkedAdd_eq hd,
      checkedDiv_eq hpos, Option.bind_some]
    exact checkedSub_eq hleft
  have hbal := Ledger.le_sum w.coin.balanceOf recipient
  have hreserve : w.coin.reserveNative + t.inAmt X < 2 ^ 256 := by omega
  have hfees : w.coin.feeAccrued + X * t.feeBps / 10000 < 2 ^ 256 := by omega
  have hissue : w.coin.totalSupply + (w.coin.curveTokens - w.leftover X) < 2 ^ 256 := by omega
  have hgive : w.coin.balanceOf recipient + (w.coin.curveTokens - w.leftover X) < 2 ^ 256 := by omega
  have hout : w.coin.curveTokens - w.leftover X ≤ w.coin.curveTokens := Nat.sub_le ..
  simp only [buyCurve, hn, hunlocked, hopen, hX, hrecipient, hmin, hout, guard, fee, checkedMul_eq hxfee,
    checkedSub_eq hfee, ← hin, hbuyOut, checkedAdd_eq hreserve, checkedSub_eq hout, checkedAdd_eq hfees, PumpCoin.issue, Ledger.issue,
    checkedAdd_eq hissue, checkedAdd_eq hgive, if_true, ne_eq, not_false_eq_true, Option.bind_eq_bind, Option.bind_some,
    Option.pure_def, Option.map_some]
  exact ⟨_, rfl⟩

theorem unsynced_buyCurve (hg : w.Gated) (hunlocked : w.pair.unlocked = true) {w₁ : World t}
    (h : w.buyCurve X minTokensOut sender recipient = some w₁) :
    w₁.unsynced = (w.unsynced.1 + (if recipient = t.pair.1 then w.coin.curveTokens - w.leftover X else 0), w.unsynced.2) := by
  obtain ⟨-, htokens⟩ := buyCurve_curve h
  obtain ⟨-, -, n, fee, inAmt, out, tokens, c, -, -, -, -, hsum, hc, rfl⟩ := buyCurve_some h
  obtain rfl := PumpCoin.issue_some hc
  dsimp only at htokens
  have hleft : w.leftover X = tokens := htokens.symm
  obtain ⟨hback, -⟩ := (backed_pool_iff w).1 (hg.backed hunlocked)
  refine Prod.ext ?_ rfl
  unfold unsynced coinReserve at *
  dsimp only
  by_cases hr : recipient = t.pair.1
  · rw [if_pos hr, hr, Function.update_self]
    omega
  · rw [if_neg hr, Function.update_of_ne (Ne.symm hr)]
    omega

/-- What the pair would receive is worth a first mint: the curve's leftover and native with what was sent to the pair. -/
def Seeds (w : World t) (X : ℕ) (recipient : Address) : Prop :=
  1001 ^ 2 ≤
    (w.leftover X + (w.unsynced.1 + if recipient = t.pair.1 then w.coin.curveTokens - w.leftover X else 0)) *
      (w.coin.reserveNative + t.inAmt X + w.unsynced.2)

end World

variable {t : Site} {m : CallStack.State (launch t)}

theorem Launched.funded (h : Launched t m) : m.world.Funded := by
  cases h with
  | start hw => exact hw.2
  | step op _ hbound => exact hbound

theorem Launched.no_liquidity (h : Launched t m) (ht : t.swapFactory ≠ zeroAddress)
    (hopen : m.world.coin.graduated = false) : m.world.pair.totalSupply = 0 :=
  (h.gated ht).first.resolve_right (by rw [hopen]; exact Bool.false_ne_true)

theorem Launched.target_buy (h : Launched t m) (ht : t.swapFactory ≠ zeroAddress) (hstack : m.stack = [])
    (hopen : m.world.coin.graduated = false) (now X minTokensOut : ℕ) (sender : Outsider t) (recipient : Address)
    (hX : 0 < X) (hpays : X ≤ m.world.native sender.1) (hrecipient : recipient ≠ zeroAddress)
    (hmin : minTokensOut ≤ m.world.coin.curveTokens - m.world.leftover X)
    (htarget : gradTarget ≤ m.world.coin.reserveNative + t.inAmt X) :
    ((m.world.buyTo now X minTokensOut sender.1 recipient).isSome = true ↔ m.world.Seeds X recipient) ∧
      ∀ w', m.world.buyTo now X minTokensOut sender.1 recipient = some w' →
        w'.coin.graduated = true ∧ 0 < w'.pair.totalSupply ∧ w'.pair.balanceOf zeroAddress = w'.pair.totalSupply ∧
          m.world.leftover X ≤ w'.coinReserve ∧ m.world.coin.reserveNative + t.inAmt X ≤ w'.wlxsReserve := by
  have hw := h.world_solvent
  have hg := h.gated ht
  have hT := h.no_liquidity ht hopen
  obtain ⟨hcoin, hpair⟩ := h.unlocked hstack
  obtain ⟨w₁, hw₁⟩ := World.exists_buyCurve hw h.funded hcoin hopen hX hpays hrecipient hmin
  obtain ⟨hreserve, htokens⟩ := World.buyCurve_curve hw₁
  have hgrad : m.world.buyTo now X minTokensOut sender.1 recipient = w₁.graduate now := by
    simp only [World.buyTo, hw₁, Option.bind_eq_bind, Option.bind_some]
    rw [if_pos ⟨ht, by omega⟩]
  have hfunded : w₁.Funded := by
    obtain ⟨-, -, n, _, _, _, _, c, hn, -, -, -, -, -, rfl⟩ := World.buyCurve_some hw₁
    rw [World.Funded, Ledger.sum_transfer hn]
    exact h.funded
  have hsame : w₁.pair = m.world.pair := by
    obtain ⟨-, -, n, _, _, _, _, c, -, -, -, -, -, -, rfl⟩ := World.buyCurve_some hw₁
    rfl
  obtain ⟨hiff, hres⟩ := World.graduate_iff now (hg.buyCurve hw₁) (hw.buyCurve ⟨sender.2.2.1, sender.2.2.2.1⟩ hw₁) hfunded
    (hsame ▸ hpair) (hsame ▸ hT)
  rw [hgrad]
  refine ⟨?_, fun w' hw' => ?_⟩
  · rw [hiff, World.unsynced_buyCurve hg hpair hw₁, htokens, hreserve]
    rfl
  · obtain ⟨hpos, hzero, hc, hx⟩ := hres w' hw'
    rw [htokens] at hc
    rw [hreserve] at hx
    exact ⟨World.graduated_graduate hw', hpos, hzero, hc, hx⟩

/-- **The buy that reaches the target**, between transactions of any run of an exchange's coin that has not graduated. The
pair has no liquidity, so the first mint is still the coin's. A buy whose requirements are met completes exactly if the
pair receives enough for a first mint. It then leaves all of the liquidity at the zero address, and reserves that are at
least what the curve gave. -/
theorem graduation_iff (ht : t.swapFactory ≠ zeroAddress) (h : Launched t m) (hstack : m.stack = [])
    (hopen : m.world.coin.graduated = false) :
    m.world.pair.totalSupply = 0 ∧
      ∀ (now X minTokensOut : ℕ) (sender : Outsider t) (recipient : Address), 0 < X → X ≤ m.world.native sender.1 →
        recipient ≠ zeroAddress → minTokensOut ≤ m.world.coin.curveTokens - m.world.leftover X →
        gradTarget ≤ m.world.coin.reserveNative + t.inAmt X →
        ((m.world.buyTo now X minTokensOut sender.1 recipient).isSome = true ↔ m.world.Seeds X recipient) ∧
          ∀ w', m.world.buyTo now X minTokensOut sender.1 recipient = some w' →
            w'.coin.graduated = true ∧ 0 < w'.pair.totalSupply ∧
              w'.pair.balanceOf zeroAddress = w'.pair.totalSupply ∧
              m.world.leftover X ≤ w'.coinReserve ∧ m.world.coin.reserveNative + t.inAmt X ≤ w'.wlxsReserve := by
  exact ⟨h.no_liquidity ht hopen, h.target_buy ht hstack hopen⟩

def donor : Outsider sampleSite := ⟨9, by decide, by decide, by decide, by decide⟩

/-- Nine gives the pair a wrapped token and a few coins, fails to mint liquidity for them, and makes them reserves. -/
def donatedOps : List (CallStack.Op (launch sampleSite)) :=
  [.act (Act.send buyer donor (10 * ether)), .act (Act.deposit donor (2 * ether)), .act (Act.wlxsTransfer donor 52 ether),
    .act (Act.buyTo 1 ether 0 donor 9), .act (Act.transfer donor 52 1000), .act (Act.mint 1 donor 9), .act (Act.sync 1)]

def donated : CallStack.State (launch sampleSite) := donatedOps.foldl CallStack.State.exec newSample

/-- The coin is then bought up to its target in one go. -/
theorem graduation_iff_donated :
    donated.world.coinReserve = 1000 ∧ donated.world.wlxsReserve = ether ∧
      (donated.world.buyTo 2 (400 * ether) 0 buyer.1 7).isSome = true := by
  obtain ⟨hstart, hconserved⟩ := launched_newWorld 100 (by decide) (show 1000 * ether < 2 ^ 112 by decide)
  have hrun := (Launched.foldl (by decide) donatedOps (by decide) hstart hconserved).1
  refine ⟨by decide +kernel, by decide +kernel, ?_⟩
  exact (((graduation_iff (by decide) hrun (by decide +kernel) (by decide +kernel)).2 2 (400 * ether) 0 buyer 7 (by decide)
    (by decide +kernel) (by decide) (Nat.zero_le _) (by decide +kernel)).1).2 (by unfold World.Seeds; decide +kernel)

/-! ### Draining the curve -/

namespace World

variable {t : Site} {w : World t} {sender : Address} {amount : ℕ}

theorem exists_startSell (hw : w.Solvent) (hfunded : w.Funded) (hunlocked : w.coin.unlocked = true)
    (hopen : w.coin.graduated = false) (hpos : 0 < amount) (hhas : amount ≤ w.coin.balanceOf sender) :
    ∃ w₂, w.startSell sender amount 0 = some w₂ := by
  have hcurve := hw.curve
  have hsupply := hw.supply
  have hfunds := hw.funds
  have hlt : curveSupply < 2 ^ 90 := by decide
  have hV : virtualNative < 2 ^ 112 := by decide
  have hk := hw.curve_product_lt hfunded
  unfold Funded at hfunded
  have hcoin := Ledger.le_sum w.native t.coin.1
  have hbal := Ledger.le_sum w.coin.balanceOf sender
  have he : virtualNative + w.coin.reserveNative < 2 ^ 256 := by omega
  have hd : w.coin.curveTokens + amount < 2 ^ 256 := by omega
  have hq : (virtualNative + w.coin.reserveNative) * w.coin.curveTokens / (w.coin.curveTokens + amount) ≤
      virtualNative + w.coin.reserveNative :=
    Nat.div_le_of_le_mul (by rw [Nat.mul_comm]; exact Nat.mul_le_mul_right _ (Nat.le_add_right ..))
  obtain ⟨gross, hgross⟩ : ∃ gross, w.coin.grossOut amount = some gross := by
    simp only [PumpCoin.grossOut, Option.bind_eq_bind, checkedAdd_eq he, checkedMul_eq hk, checkedAdd_eq hd,
      checkedDiv_eq (Nat.add_pos_right _ hpos), checkedSub_eq hq, Option.bind_some]
    exact ⟨_, rfl⟩
  have hle := PumpCoin.grossOut_le hgross
  have hxfee := fee_product_lt t (x := gross) (by omega)
  have hfee := fee_le t gross
  have hfees : w.coin.feeAccrued + gross * t.feeBps / 10000 < 2 ^ 256 := by omega
  obtain ⟨n, hn⟩ : ∃ n, w.native.transfer t.coin.1 sender (gross - gross * t.feeBps / 10000) = some n :=
    Ledger.exists_transfer (by omega) (by omega)
  have hburn : amount ≤ w.coin.totalSupply := by omega
  simp only [startSell, hunlocked, hopen, hpos, hhas, hgross, guard, fee, checkedMul_eq hxfee, checkedSub_eq hfee,
    checkedAdd_eq hd, checkedSub_eq hle, checkedAdd_eq hfees, PumpCoin.destroy, Ledger.destroy, checkedSub_eq hhas, checkedSub_eq hburn, hn,
    Nat.zero_le, and_self, if_true, Option.bind_eq_bind, Option.bind_some, Option.pure_def, Option.map_some]
  exact ⟨_, rfl⟩

end World

/-- Seven holds everything that the curve of a coin without fees does not: native of a supply of 1000 LXS, and tokens.
Nothing was sent to the pair. -/
structure Held (R C : ℕ) (m : CallStack.State (launch freeSite)) : Prop where
  launched : Launched freeSite m
  conserved : Conserved (1000 * ether) m
  stack : m.stack = []
  graduated : m.world.coin.graduated = false
  reserve : m.world.coin.reserveNative = R
  tokens : m.world.coin.curveTokens = C
  native : m.world.native 7 + R = 1000 * ether
  balance : m.world.coin.balanceOf 7 + C = curveSupply
  unsynced : m.world.unsynced = (0, 0)

def Attained (R C : ℕ) : Prop := ∃ m, Held R C m

namespace Attained

variable {R C : ℕ}

theorem inAmt_free (X : ℕ) : freeSite.inAmt X = X := by
  show X - X * 0 / 10000 = X
  simp

theorem buy (h : Attained R C) {x : ℕ} (hx : 0 < x) (hpays : R + x ≤ 1000 * ether) (htarget : R + x < gradTarget) :
    Attained (R + x) ((virtualNative + R) * C / (virtualNative + R + x)) := by
  obtain ⟨m, hm⟩ := h
  have hw := hm.launched.world_solvent
  have hg := hm.launched.gated (by decide)
  obtain ⟨hcoin, hpair⟩ := hm.launched.unlocked hm.stack
  have hnative := hm.native
  obtain ⟨w₁, hw₁⟩ : ∃ w₁, m.world.buyCurve x 0 freeTrader.1 7 = some w₁ :=
    World.exists_buyCurve hw hm.launched.funded hcoin hm.graduated hx (show x ≤ m.world.native 7 by omega) (by decide)
      (Nat.zero_le _)
  obtain ⟨hreserve, htokens⟩ := World.buyCurve_curve hw₁
  have hunsynced := World.unsynced_buyCurve hg hpair hw₁
  rw [inAmt_free, hm.reserve] at hreserve
  rw [inAmt_free, PumpCoin.eff, hm.reserve, hm.tokens] at htokens
  have hbuy : m.world.buyTo 1 x 0 freeTrader.1 7 = some w₁ := by
    simp only [World.buyTo, hw₁, Option.bind_eq_bind, Option.bind_some]
    rw [if_neg (by omega)]
  have hexec : m.exec (.act (Act.buyTo 1 x 0 freeTrader 7)) = ⟨w₁, m.stack⟩ := by
    show CallStack.State.mk ((m.world.buyTo 1 x 0 freeTrader.1 7).getD m.world) m.stack = _
    rw [hbuy]
    rfl
  obtain ⟨hlaunched, hconserved⟩ := hm.launched.exec hm.conserved (by decide)
    (.act (Act.buyTo 1 x 0 freeTrader 7)) rfl
  rw [hexec] at hlaunched hconserved
  obtain ⟨-, -, n, fee, inAmt, out, tokens, c, hn, -, -, -, hsum, hc, rfl⟩ := World.buyCurve_some hw₁
  obtain rfl := PumpCoin.issue_some hc
  refine ⟨_, hlaunched, hconserved, hm.stack, hm.graduated, hreserve, htokens, ?_, ?_, ?_⟩
  · have hpaid := Ledger.transfer_source hn (by decide)
    have hpaid' : n 7 + x = m.world.native 7 := hpaid
    dsimp only
    omega
  · dsimp only at htokens ⊢
    rw [Function.update_self]
    have := hm.balance
    have := hm.tokens
    omega
  · rw [hunsynced, hm.unsynced, if_neg (by decide)]

theorem sell (h : Attained R C) (hR : 0 < R) (hC : C < curveSupply) (hcheap : virtualNative + R ≤ C + 1) :
    Attained (R - 1) (C + 1) := by
  obtain ⟨m, hm⟩ := h
  have hw := hm.launched.world_solvent
  obtain ⟨hcoin, -⟩ := hm.launched.unlocked hm.stack
  have hbalance := hm.balance
  obtain ⟨w₂, hw₂⟩ : ∃ w₂, m.world.startSell freeTrader.1 1 0 = some w₂ :=
    World.exists_startSell hw hm.launched.funded hcoin hm.graduated Nat.one_pos
      (show 1 ≤ m.world.coin.balanceOf 7 by omega)
  -- `eff * C` is `(eff - 1) * (C + 1)` and a remainder
  have hquot : (virtualNative + R) * C / (C + 1) = virtualNative + R - 1 := by
    obtain ⟨e, he⟩ : ∃ e, virtualNative + R = e + 1 := ⟨virtualNative + R - 1, by omega⟩
    rw [he, Nat.add_sub_cancel]
    refine Nat.div_eq_of_lt_le ?_ ?_
    · nlinarith
    · nlinarith
  obtain ⟨-, htokens, hreserve⟩ := World.startSell_curve hw₂
  rw [PumpCoin.eff, hm.reserve, hm.tokens, hquot] at hreserve
  rw [hm.tokens] at htokens
  have hexec : (m.exec (.call (Waiting.sell freeTrader 1 0))).exec (.leave true) = ⟨w₂.unlock, m.stack⟩ := by
    have hcall : m.exec (.call (Waiting.sell freeTrader 1 0)) = ⟨w₂, (m.world, some Pending.sell) :: m.stack⟩ := by
      have hstart : (launch freeSite).start m.world (Waiting.sell freeTrader 1 0) = some (w₂, Pending.sell) := by
        show (m.world.startSell freeTrader.1 1 0).map (·, Pending.sell) = _
        rw [hw₂]
        rfl
      simp only [CallStack.State.exec, hstart]
    rw [hcall]
    rfl
  obtain ⟨hcalled, hkept⟩ := hm.launched.exec hm.conserved (by decide) (.call (Waiting.sell freeTrader 1 0)) rfl
  obtain ⟨hlaunched, hconserved⟩ := hcalled.exec hkept (by decide) (.leave true) rfl
  rw [hexec] at hlaunched hconserved
  obtain ⟨-, -, n, gross, fee, out, reserve, c, hgross, hfee, hout, hleft, hc, hn, rfl⟩ := World.startSell_some hw₂
  obtain ⟨rest, supply, hrest, -, rfl⟩ := PumpCoin.destroy_some hc
  dsimp only at hrest
  have hfree : fee = 0 := by
    rw [World.fee_some hfee]
    show gross * 0 / 10000 = 0
    simp
  have hV : 0 < virtualNative := by decide
  have hleft' := hm.reserve
  dsimp only at hreserve htokens
  refine ⟨_, hlaunched, hconserved, hm.stack, hm.graduated, ?_, htokens, ?_, ?_, ?_⟩
  · show reserve = R - 1
    omega
  · have hgot : n 7 = m.world.native 7 + out := Ledger.transfer_recipient hn (by decide)
    have hnative := hm.native
    show n 7 + (R - 1) = 1000 * ether
    omega
  · show Function.update m.world.coin.balanceOf 7 rest 7 + (C + 1) = curveSupply
    have hrest' : rest + 1 = m.world.coin.balanceOf 7 := hrest
    rw [Function.update_self]
    omega
  · have hsame := hm.unsynced
    unfold World.unsynced World.coinReserve World.wlxsReserve at hsame ⊢
    show (Function.update m.world.coin.balanceOf 7 rest 52 - _, _) = _
    rw [Function.update_of_ne (by decide)]
    exact hsame

theorem sells (n : ℕ) : ∀ {R C : ℕ}, Attained R C → n ≤ R → C + n ≤ curveSupply → virtualNative + R ≤ C + 1 →
    Attained (R - n) (C + n) := by
  induction n with
  | zero => exact fun h _ _ _ => h
  | succ n ih =>
    intro R C h hR hC hcheap
    have hstep := h.sell (by omega) (by omega) hcheap
    have hrest := ih hstep (by omega) (by omega) (by omega)
    rwa [show R - 1 - n = R - (n + 1) by omega, show C + 1 + n = C + (n + 1) by omega] at hrest

theorem buys (n : ℕ) : ∀ {R C : ℕ}, Attained R C → n ≤ C → C ≤ virtualNative + R + 1 → R + n < gradTarget →
    Attained (R + n) (C - n) := by
  induction n with
  | zero => exact fun h _ _ _ => h
  | succ n ih =>
    intro R C h hC hdear htarget
    have hpays : gradTarget ≤ 1000 * ether := by decide
    have hquot : (virtualNative + R) * C / (virtualNative + R + 1) = C - 1 := by
      obtain ⟨c, rfl⟩ : ∃ c, C = c + 1 := ⟨C - 1, by omega⟩
      rw [Nat.add_sub_cancel]
      refine Nat.div_eq_of_lt_le ?_ ?_
      · nlinarith
      · nlinarith
    have hstep := h.buy Nat.one_pos (by omega) (by omega)
    rw [hquot] at hstep
    have hrest := ih hstep (by omega) (by omega) (by omega)
    rwa [show R + 1 + n = R + (n + 1) by omega, show C - 1 - n = C - (n + 1) by omega] at hrest

/-- One round: 299 LXS in with one buy, and out again in units. -/
theorem round (h : Attained 0 C) (C' : ℕ) (hC' : virtualNative * C / (virtualNative + 299 * ether) = C')
    (hcheap : virtualNative + 299 * ether ≤ C' + 1) (hC : C' + 299 * ether ≤ curveSupply) :
    Attained 0 (C' + 299 * ether) := by
  have hbuy := h.buy (x := 299 * ether) (by decide) (by decide) (by decide)
  rw [Nat.zero_add, Nat.add_zero, hC'] at hbuy
  have hsold := sells (299 * ether) hbuy le_rfl hC hcheap
  rwa [Nat.sub_self] at hsold

theorem start : Attained 0 curveSupply := by
  obtain ⟨hlaunched, hconserved⟩ := launched_newWorld 0 (by decide) (show 1000 * ether < 2 ^ 112 by decide)
  exact ⟨_, hlaunched, hconserved, rfl, rfl, rfl, rfl, by decide +kernel, by decide +kernel, by decide +kernel⟩

/-- Six rounds, and then units with single wei: the curve has no tokens left, and less than the target. -/
theorem drained : Attained 281479545783792994202 0 := by
  have h₁ := start.round 72948328267477203647416413 (by decide +kernel) (by decide +kernel) (by decide +kernel)
  have h₂ := h₁.round 6651850510712207019521253 (by decide +kernel) (by decide +kernel) (by decide +kernel)
  have h₃ := h₂.round 606578982739714925792211 (by decide +kernel) (by decide +kernel) (by decide +kernel)
  have h₄ := h₃.round 55338417879001361014487 (by decide +kernel) (by decide +kernel) (by decide +kernel)
  have h₅ := h₄.round 5073320779240245685211 (by decide +kernel) (by decide +kernel) (by decide +kernel)
  have h₆ := h₅.round 489877274702757965216 (by decide +kernel) (by decide +kernel) (by decide +kernel)
  have hbuy := h₆.buy (x := 150 * ether) (by decide) (by decide) (by decide)
  have htokens : (virtualNative + 0) * (489877274702757965216 + 299 * ether) / (virtualNative + 0 + 150 * ether) =
      131479545783792994202 := by decide +kernel
  rw [htokens] at hbuy
  have hlast := buys 131479545783792994202 hbuy le_rfl (by decide +kernel) (by decide +kernel)
  rwa [Nat.sub_self, show 0 + 150 * ether + 131479545783792994202 = 281479545783792994202 by decide +kernel] at hlast

end Attained

/-- The curve is sold out below its target, and the buy that reaches it reverts. -/
theorem graduation_blocked : ∃ m : CallStack.State (launch freeSite), Launched freeSite m ∧ m.stack = [] ∧
    m.world.coin.graduated = false ∧ ∃ X, 0 < X ∧ X ≤ m.world.native freeTrader.1 ∧
      gradTarget ≤ m.world.coin.reserveNative + freeSite.inAmt X ∧ m.world.buyTo 1 X 0 freeTrader.1 7 = none := by
  obtain ⟨m, hm⟩ := Attained.drained
  have hnative := hm.native
  have hpays : 20 * ether ≤ m.world.native freeTrader.1 := by
    have : 281479545783792994202 + 20 * ether ≤ 1000 * ether := by decide
    show 20 * ether ≤ m.world.native 7
    omega
  have htarget : gradTarget ≤ m.world.coin.reserveNative + freeSite.inAmt (20 * ether) := by
    rw [hm.reserve, Attained.inAmt_free]
    decide
  refine ⟨m, hm.launched, hm.stack, hm.graduated, 20 * ether, by decide, hpays, htarget, ?_⟩
  have hiff := (hm.launched.target_buy (by decide) hm.stack hm.graduated 1 (20 * ether) 0 freeTrader 7 (by decide) hpays
    (by decide) (Nat.zero_le _) htarget).1
  have hseeds : ¬ m.world.Seeds (20 * ether) 7 := by
    unfold World.Seeds World.leftover
    rw [hm.tokens, hm.unsynced, if_neg (by decide), Nat.mul_zero, Nat.zero_div]
    simp
  by_contra hsome
  exact hseeds (hiff.1 (Option.isSome_iff_ne_none.2 hsome))

end Lxs.Contracts
