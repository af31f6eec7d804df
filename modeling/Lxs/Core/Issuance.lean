import Lxs.Core.Genesis

/-!
# Closed-form issuance

`CumulativeIssued` of `state/state.go`: what was issued up to a height, era by era. An era is a run of heights with one
reward; the first starts at height one, since the genesis is not mined.

* `cumulativeIssued_exact` — **the loop over the eras ends, no sum of it wraps, and it adds up the rewards of all heights**.
-/

namespace Lxs

open Finset

/-- The loop over the eras; `none` when the bound on it was too small. -/
def cumulativeLoop (h : UInt64) : ℕ → UInt64 → ℤ → Option ℤ
  | 0, _, _ => none
  | n + 1, era, total =>
    let start := era * halvingInterval
    if h < start then some total
    else
      let reward := blockRewardAt start
      if reward = 0 then some total
      else
        -- height 0 is the genesis
        let lo := if start = 0 then 1 else start
        let hi := if h < start + halvingInterval - 1 then h else start + halvingInterval - 1
        if hi < lo then cumulativeLoop h n (era + 1) total
        else cumulativeLoop h n (era + 1) (total + reward * (hi - lo + 1).toNat)

/-- The number of eras the loop looks at: in the last of them the reward is zero. -/
def issuanceEras : ℕ := 66

def cumulativeIssued (h : UInt64) : Option ℤ := cumulativeLoop h issuanceEras 0 0

/-! ### Eras -/

def eraReward (era : ℕ) : ℤ := (baseBlockReward >>> era : ℕ)

def eraLength : ℕ := 1000000

theorem toNat_halvingInterval : halvingInterval.toNat = eraLength := rfl

theorem blockRewardAt_eq (h : UInt64) : blockRewardAt h = eraReward (h.toNat / eraLength) := by
  rw [blockRewardAt, eraReward, UInt64.toNat_div, toNat_halvingInterval]

theorem issued_eq (h : UInt64) : issued h = ∑ i ∈ Ico 1 (h.toNat + 1), eraReward (i / eraLength) := by
  have hset : Icc 1 h.toNat = Ico 1 (h.toNat + 1) := rfl
  rw [issued, hset]
  refine sum_congr rfl fun i hi => ?_
  have hlt := (mem_Ico.1 hi).2
  have hbound := h.toNat_lt
  rw [blockRewardAt_eq, UInt64.toNat_ofNat_of_lt' (show i < 2 ^ 64 by omega)]

theorem eraReward_zero_of_le {e e' : ℕ} (he : eraReward e = 0) (hle : e ≤ e') : eraReward e' = 0 := by
  unfold eraReward at he ⊢
  have he : baseBlockReward / 2 ^ e = 0 := by
    rw [← Nat.shiftRight_eq_div_pow]
    exact_mod_cast he
  have hlt : baseBlockReward < 2 ^ e := by
    rcases Nat.div_eq_zero_iff.1 he with h0 | hlt
    · exact absurd h0 (by positivity)
    · exact hlt
  rw [Nat.shiftRight_eq_div_pow, Nat.div_eq_of_lt (hlt.trans_le (Nat.pow_le_pow_right (by decide) hle))]
  rfl

theorem sum_era {e lo hi : ℕ} (hlo : e * eraLength ≤ lo) (hhi : hi ≤ (e + 1) * eraLength) :
    ∑ i ∈ Ico lo hi, eraReward (i / eraLength) = eraReward e * (hi - lo : ℕ) := by
  have hconst : ∀ i ∈ Ico lo hi, eraReward (i / eraLength) = eraReward e := by
    intro i hi'
    obtain ⟨h1, h2⟩ := mem_Ico.1 hi'
    congr 1
    exact Nat.div_eq_of_lt_le (hlo.trans h1) (h2.trans_le hhi)
  rw [sum_congr rfl hconst, sum_const, Nat.card_Ico, nsmul_eq_mul, mul_comm]

/-! ### The loop -/

def issuedBefore (h e : ℕ) : ℤ := ∑ i ∈ Ico 1 (min (e * eraLength) (h + 1)), eraReward (i / eraLength)

variable {h e : ℕ}

theorem issuedBefore_of_lt (hlt : h < e * eraLength) :
    issuedBefore h e = ∑ i ∈ Ico 1 (h + 1), eraReward (i / eraLength) := by
  rw [issuedBefore, Nat.min_eq_right hlt]

theorem issuedBefore_of_zero (he : eraReward e = 0) (hle : e * eraLength ≤ h) (hpos : 1 ≤ e) :
    issuedBefore h e = ∑ i ∈ Ico 1 (h + 1), eraReward (i / eraLength) := by
  have hone : 1 ≤ e * eraLength := Nat.mul_pos hpos (by decide)
  rw [issuedBefore, Nat.min_eq_left (hle.trans (Nat.le_succ _)), ← sum_Ico_consecutive _ hone (hle.trans (Nat.le_succ h)),
    left_eq_add]
  refine sum_eq_zero fun i hi => eraReward_zero_of_le he ?_
  exact (Nat.le_div_iff_mul_le (by decide)).2 (mem_Ico.1 hi).1

theorem issuedBefore_succ (hle : e * eraLength ≤ h) : issuedBefore h (e + 1) = issuedBefore h e +
    eraReward e * (min h (e * eraLength + eraLength - 1) + 1 - max 1 (e * eraLength) : ℕ) := by
  have hL : 1 ≤ eraLength := by decide
  have hstop : min ((e + 1) * eraLength) (h + 1) = min h (e * eraLength + eraLength - 1) + 1 := by
    rw [Nat.succ_mul]
    omega
  have hera := sum_era (e := e) (le_max_right 1 (e * eraLength)) (Nat.min_le_left ((e + 1) * eraLength) (h + 1))
  rw [hstop] at hera
  rw [issuedBefore, issuedBefore, hstop, Nat.min_eq_left (hle.trans (Nat.le_succ _)), ← hera]
  rcases Nat.eq_zero_or_pos e with rfl | hpos
  · simp
  · have hone : 1 ≤ e * eraLength := Nat.mul_pos hpos hL
    rw [max_eq_right hone, sum_Ico_consecutive _ hone (by omega)]

theorem toNat_start (he : e < issuanceEras) : (UInt64.ofNat e * halvingInterval).toNat = e * eraLength := by
  rw [issuanceEras] at he
  rw [UInt64.toNat_mul, toNat_halvingInterval, UInt64.toNat_ofNat_of_lt' (show e < 2 ^ 64 by omega), eraLength,
    Nat.mod_eq_of_lt (by omega)]

theorem toNat_lo {start : UInt64} (hstart : start.toNat = e * eraLength) :
    (if start = 0 then 1 else start).toNat = max 1 (e * eraLength) := by
  split_ifs with h0
  · rw [h0] at hstart
    rw [← hstart]
    rfl
  · have hne : start.toNat ≠ 0 := fun h => h0 (UInt64.toNat_inj.1 h)
    omega

theorem toNat_last {start : UInt64} (hstart : start.toNat = e * eraLength) (hbound : e * eraLength + eraLength < 2 ^ 64) :
    (start + halvingInterval - 1).toNat = e * eraLength + eraLength - 1 := by
  have hsum : (start + halvingInterval).toNat = e * eraLength + eraLength := by
    rw [UInt64.toNat_add, hstart, toNat_halvingInterval, Nat.mod_eq_of_lt hbound]
  have hone : (1 : UInt64) ≤ start + halvingInterval := by
    rw [UInt64.le_iff_toNat_le, hsum, eraLength]
    exact Nat.le_add_left 1 _
  rw [UInt64.toNat_sub_of_le _ _ hone, hsum]
  rfl

theorem toNat_hi {start h : UInt64} (hstart : start.toNat = e * eraLength)
    (hbound : e * eraLength + eraLength < 2 ^ 64) :
    (if h < start + halvingInterval - 1 then h else start + halvingInterval - 1).toNat =
      min h.toNat (e * eraLength + eraLength - 1) := by
  have hlast := toNat_last hstart hbound
  split_ifs with hlt
  · rw [UInt64.lt_iff_toNat_lt, hlast] at hlt
    omega
  · rw [UInt64.lt_iff_toNat_lt, hlast] at hlt
    omega

theorem era_bound (he : e < issuanceEras) : e * eraLength + eraLength < 2 ^ 64 := by
  rw [issuanceEras] at he
  rw [eraLength]
  omega

theorem cumulativeLoop_eq (h : UInt64) (n : ℕ) : ∀ e, e + n = issuanceEras → 0 < n →
    cumulativeLoop h n (UInt64.ofNat e) (issuedBefore h.toNat e) = some (issued h) := by
  induction n with
  | zero => exact fun _ _ hn => absurd hn (lt_irrefl 0)
  | succ n ih =>
    intro e he _
    have hlt : e < issuanceEras := by omega
    have hstart := toNat_start hlt
    have hbound := era_bound hlt
    unfold cumulativeLoop
    dsimp only
    have hlo := toNat_lo hstart
    have hhi := toNat_hi (h := h) hstart hbound
    generalize (if UInt64.ofNat e * halvingInterval = 0 then 1 else UInt64.ofNat e * halvingInterval) = lo at hlo ⊢
    generalize (if h < UInt64.ofNat e * halvingInterval + halvingInterval - 1 then h
      else UInt64.ofNat e * halvingInterval + halvingInterval - 1) = hi at hhi ⊢
    split_ifs with hpast hzero hempty
    · -- the height is in an era before
      rw [UInt64.lt_iff_toNat_lt, hstart] at hpast
      rw [issuedBefore_of_lt hpast, issued_eq]
    · rw [blockRewardAt_eq, hstart, Nat.mul_div_cancel _ (by decide)] at hzero
      rw [UInt64.not_lt, UInt64.le_iff_toNat_le, hstart] at hpast
      have hpos : 1 ≤ e := by
        rcases Nat.eq_zero_or_pos e with rfl | hpos
        · exact absurd hzero (by decide)
        · exact hpos
      rw [issuedBefore_of_zero hzero hpast hpos, issued_eq]
    all_goals
      -- the next era
      rw [blockRewardAt_eq, hstart, Nat.mul_div_cancel _ (by decide)] at hzero
      rw [UInt64.not_lt, UInt64.le_iff_toNat_le, hstart] at hpast
      have hnext := ih (e + 1) (by omega) (by
        rcases Nat.eq_zero_or_pos n with rfl | hpos
        · obtain rfl : e = 65 := by
            rw [issuanceEras] at he
            omega
          exact absurd rfl hzero
        · exact hpos)
      rw [UInt64.ofNat_add, issuedBefore_succ hpast] at hnext
    · rw [UInt64.lt_iff_toNat_lt, hlo, hhi] at hempty
      rwa [Nat.sub_eq_zero_of_le hempty, Nat.cast_zero, mul_zero, add_zero] at hnext
    · have hle := UInt64.not_lt.1 hempty
      have hcount : (hi - lo + 1).toNat = min h.toNat (e * eraLength + eraLength - 1) + 1 - max 1 (e * eraLength) := by
        rw [UInt64.le_iff_toNat_le, hlo, hhi] at hle
        rw [UInt64.toNat_add, UInt64.toNat_sub_of_le _ _ (UInt64.not_lt.1 hempty), hlo, hhi, show (1 : UInt64).toNat = 1 from rfl,
          Nat.mod_eq_of_lt (by omega)]
        omega
      rw [blockRewardAt_eq, hstart, Nat.mul_div_cancel _ (by decide), hcount]
      exact hnext

/-- **Closed-form issuance is exact.** For every height the loop ends within `issuanceEras` eras with the sum of the rewards
of all heights up to it, and in none of these eras do the bounds of the era wrap. -/
theorem cumulativeIssued_exact (h : UInt64) : cumulativeIssued h = some (issued h) ∧ ∀ era : Fin issuanceEras,
    (UInt64.ofNat era * halvingInterval).toNat = era * halvingInterval.toNat ∧
      (UInt64.ofNat era * halvingInterval + halvingInterval - 1).toNat = era * halvingInterval.toNat + halvingInterval.toNat - 1 := by
  refine ⟨cumulativeLoop_eq h issuanceEras 0 (Nat.zero_add _) (by decide), fun era => ?_⟩
  have hstart := toNat_start era.isLt
  exact ⟨hstart, toNat_last hstart (era_bound era.isLt)⟩

-- the block at the first boundary is paid half
example : cumulativeIssued 1000000 = some (999999 * 25000000000000000000 + 12500000000000000000) := by decide +kernel

end Lxs
