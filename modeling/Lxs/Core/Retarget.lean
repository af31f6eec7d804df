import Lxs.Core.Consensus
import Lxs.Lib.Signed

/-!
# The difficulty retarget

`lwmaDifficulty` over a window of `N + 1` headers with increasing timestamps, `2 ≤ N ≤ 45`. Its 64-bit sums are exact, so
it is the formula over the integers (`retarget`), and the clamps on one solvetime and on the weighted sum bound how far it
moves from the average difficulty of the window.

* `retarget_bounded_monotone` — **the retarget is exact, bounded, and monotone in difficulties and time**.
-/

namespace Lxs

open Lib Signed

/-- The windows of the retarget: the oldest header first. -/
structure Window (first : Header) (window : List Header) : Prop where
  length : 2 ≤ window.length ∧ window.length ≤ lwmaWindow
  increasing : List.IsChain (fun a b : Header => a.timestamp < b.timestamp) (first :: window)
  range : ∀ h ∈ first :: window, 0 ≤ h.timestamp.toInt ∧ h.timestamp.toInt < 2 ^ 62

/-! ### The formula over the integers -/

def maxSolvetime : ℤ := 1440000

def weighted : ℕ → ℤ → List Header → ℤ
  | _, _, [] => 0
  | i, prev, h :: window => i * min (h.timestamp.toInt - prev) maxSolvetime + weighted (i + 1) h.timestamp.toInt window

def averageDifficulty (window : List Header) : ℕ := (window.map fun h => h.difficulty.toNat).sum / window.length

def guarded (first : Header) (window : List Header) : ℤ :=
  max (weighted 1 first.timestamp.toInt window) (window.length * window.length * 12000)

def retarget (first : Header) (window : List Header) : ℕ :=
  max 1 (min (2 ^ 64 - 1)
    (averageDifficulty window * (window.length * (window.length + 1) * 240000 * 99) / (200 * (guarded first window).toNat)))

/-- What the loop computes fits 64 bits: every solvetime, its weighted value and every running sum. -/
def sumsFit (i : ℕ) (prev l : ℤ) : List Header → Prop
  | [] => True
  | h :: window =>
    let st := min (h.timestamp.toInt - prev) maxSolvetime
    Fits (h.timestamp.toInt - prev) ∧ Fits (i * st) ∧ Fits (l + i * st) ∧
      sumsFit (i + 1) h.timestamp.toInt (l + i * st) window

/-! ### The weighted sum -/

theorem weighted_le (window : List Header) : ∀ (i : ℕ) (prev : ℤ),
    2 * weighted i prev window ≤ maxSolvetime * (window.length * (2 * i + window.length - 1 : ℤ)) := by
  induction window with
  | nil => simp [weighted]
  | cons h window ih =>
    intro i prev
    have hrest := ih (i + 1) h.timestamp.toInt
    have hone : (i : ℤ) * min (h.timestamp.toInt - prev) maxSolvetime ≤ i * maxSolvetime :=
      mul_le_mul_of_nonneg_left (min_le_right _ _) (Int.natCast_nonneg i)
    have hsplit : maxSolvetime * ((h :: window).length * (2 * i + (h :: window).length - 1 : ℤ)) =
        2 * (i * maxSolvetime) + maxSolvetime * (window.length * (2 * (i + 1 : ℕ) + window.length - 1 : ℤ)) := by
      simp only [List.length_cons]
      push_cast
      ring
    rw [weighted, hsplit]
    omega

theorem weighted_nonneg {first : Header} {window : List Header}
    (h : List.IsChain (fun a b : Header => a.timestamp < b.timestamp) (first :: window)) (i : ℕ) :
    0 ≤ weighted i first.timestamp.toInt window := by
  induction window generalizing first i with
  | nil => exact le_rfl
  | cons b window ih =>
    obtain ⟨hlt, hchain⟩ := List.isChain_cons_cons.1 h
    have hlt := Int64.lt_iff_toInt_lt.1 hlt
    have hst : 0 ≤ min (b.timestamp.toInt - first.timestamp.toInt) maxSolvetime := le_min (by omega) (by decide)
    rw [weighted]
    exact add_nonneg (mul_nonneg (Int.natCast_nonneg i) hst) (ih hchain (i + 1))

theorem weighted_last_le {b b' : Header} (hle : b.timestamp.toInt ≤ b'.timestamp.toInt) (window : List Header) :
    ∀ (i : ℕ) (prev : ℤ), weighted i prev (window ++ [b]) ≤ weighted i prev (window ++ [b']) := by
  induction window with
  | nil =>
    intro i prev
    simp only [List.nil_append, weighted, add_zero]
    exact mul_le_mul_of_nonneg_left (min_le_min_right _ (by omega)) (Int.natCast_nonneg i)
  | cons h window ih =>
    intro i prev
    simp only [List.cons_append, weighted]
    have := ih (i + 1) h.timestamp.toInt
    omega

theorem lwmaSums_exact {window : List Header} : ∀ {first : Header} {i l : Int64} {k : ℕ} {sumD : ℕ},
    List.IsChain (fun a b : Header => a.timestamp < b.timestamp) (first :: window) →
    (∀ h ∈ first :: window, 0 ≤ h.timestamp.toInt ∧ h.timestamp.toInt < 2 ^ 62) → i.toInt = k → k + window.length ≤ 46 →
    0 ≤ l.toInt → l.toInt + window.length * 66240000 < 2 ^ 63 →
    (lwmaSums i first.timestamp l sumD window).1.toInt = l.toInt + weighted k first.timestamp.toInt window ∧
      (lwmaSums i first.timestamp l sumD window).2 = sumD + (window.map fun h => h.difficulty.toNat).sum ∧
      sumsFit k first.timestamp.toInt l.toInt window := by
  induction window with
  | nil =>
    intro first i l k sumD _ _ _ _ _ _
    simp [lwmaSums, weighted, sumsFit]
  | cons b window ih =>
    intro first i l k sumD hchain hrange hi hk hl hbound
    obtain ⟨hlt, hchain'⟩ := List.isChain_cons_cons.1 hchain
    have hlt' := Int64.lt_iff_toInt_lt.1 hlt
    have hfirst := hrange first List.mem_cons_self
    have hb := hrange b (List.mem_cons_of_mem _ List.mem_cons_self)
    rw [List.length_cons] at hk hbound
    push_cast at hbound
    have hone : (1 : Int64).toInt = 1 := by decide
    have hmax : (6 * targetBlockTime).toInt = maxSolvetime := by decide
    have hfits : Fits (b.timestamp.toInt - first.timestamp.toInt) := ⟨by omega, by omega⟩
    have hdiff : (b.timestamp - first.timestamp).toInt = b.timestamp.toInt - first.timestamp.toInt := toInt_sub hfits
    -- the clamped solvetime
    have hst : (if 6 * targetBlockTime < b.timestamp - first.timestamp then 6 * targetBlockTime
        else b.timestamp - first.timestamp).toInt = min (b.timestamp.toInt - first.timestamp.toInt) maxSolvetime := by
      rw [apply_ite Int64.toInt, hmax, hdiff]
      split_ifs with hclamp
      · rw [Int64.lt_iff_toInt_lt, hmax, hdiff] at hclamp
        exact (min_eq_right hclamp.le).symm
      · rw [Int64.lt_iff_toInt_lt, hmax, hdiff] at hclamp
        exact (min_eq_left (not_lt.1 hclamp)).symm
    have hstpos : 0 ≤ min (b.timestamp.toInt - first.timestamp.toInt) maxSolvetime := le_min (by omega) (by decide)
    have hstle : min (b.timestamp.toInt - first.timestamp.toInt) maxSolvetime ≤ maxSolvetime := min_le_right _ _
    unfold lwmaSums
    dsimp only
    rw [if_neg (Int64.not_le.2 hlt)]
    generalize (if 6 * targetBlockTime < b.timestamp - first.timestamp then 6 * targetBlockTime
      else b.timestamp - first.timestamp) = st at hst ⊢
    rw [weighted, sumsFit]
    generalize min (b.timestamp.toInt - first.timestamp.toInt) maxSolvetime = t at hst hstpos hstle ⊢
    have hkt : (k : ℤ) * t ≤ 46 * 1440000 := mul_le_mul (by omega) hstle hstpos (by decide)
    have hkt' : 0 ≤ (k : ℤ) * t := mul_nonneg (Int.natCast_nonneg k) hstpos
    have hlen : (0 : ℤ) ≤ window.length := Int.natCast_nonneg _
    have hfits' : Fits (k * t) := ⟨by omega, by omega⟩
    have hterm : (i * st).toInt = k * t := by
      rw [toInt_mul (by rwa [hi, hst]), hi, hst]
    have hfits'' : Fits (l.toInt + k * t) := ⟨by omega, by omega⟩
    have hacc : (l + i * st).toInt = l.toInt + k * t := by
      rw [toInt_add (by rwa [hterm]), hterm]
    have hnext : (i + 1).toInt = (k + 1 : ℕ) := by
      rw [toInt_add (by rw [hi, hone]; exact ⟨by omega, by omega⟩), hi, hone]
      push_cast
      rfl
    obtain ⟨hsum, hdiffs, hrest⟩ := @ih b (i + 1) (l + i * st) (k + 1) (sumD + b.difficulty.toNat) hchain'
      (fun h hh => hrange h (List.mem_cons_of_mem _ hh)) hnext (by omega) (by omega) (by omega)
    rw [hacc] at hsum hrest
    rw [hsum, hdiffs]
    refine ⟨by ring, ?_, hfits, hfits', hfits'', hrest⟩
    rw [List.map_cons, List.sum_cons, Nat.add_assoc]

/-! ### The retarget -/

section Window

variable {first : Header} {window : List Header} (h : Window first window)
include h

theorem Window.sums : (lwmaSums 1 first.timestamp 0 0 window).1.toInt = weighted 1 first.timestamp.toInt window ∧
    (lwmaSums 1 first.timestamp 0 0 window).2 = (window.map fun h => h.difficulty.toNat).sum ∧
    sumsFit 1 first.timestamp.toInt 0 window := by
  have hlen := h.length.2
  rw [lwmaWindow] at hlen
  have hzero : (0 : Int64).toInt = 0 := rfl
  have hsums : (lwmaSums 1 first.timestamp 0 0 window).1.toInt = (0 : Int64).toInt + weighted 1 first.timestamp.toInt window ∧
      (lwmaSums 1 first.timestamp 0 0 window).2 = 0 + (window.map fun h => h.difficulty.toNat).sum ∧
      sumsFit 1 first.timestamp.toInt (0 : Int64).toInt window :=
    lwmaSums_exact h.increasing h.range rfl (by omega) (by rw [hzero]) (by rw [hzero]; omega)
  rwa [hzero, zero_add, zero_add] at hsums

theorem Window.weighted_bounds : 0 ≤ weighted 1 first.timestamp.toInt window ∧
    weighted 1 first.timestamp.toInt window ≤ 720000 * (window.length * (window.length + 1)) := by
  refine ⟨weighted_nonneg h.increasing 1, ?_⟩
  have hle := weighted_le window 1 first.timestamp.toInt
  have heq : maxSolvetime * (window.length * (2 * (1 : ℕ) + window.length - 1 : ℤ)) =
      2 * (720000 * (window.length * (window.length + 1))) := by
    rw [maxSolvetime]
    push_cast
    ring
  rw [heq] at hle
  omega

theorem Window.length_mul : window.length * (window.length + 1) ≤ 2070 := by
  have hlen := h.length.2
  rw [lwmaWindow] at hlen
  exact Nat.mul_le_mul hlen (Nat.succ_le_succ hlen)

theorem Window.exact : (Int64.ofNat window.length * Int64.ofNat window.length * targetBlockTime / 20).toInt =
      window.length * window.length * 12000 ∧
    (Int64.ofNat window.length * (Int64.ofNat window.length + 1) * targetBlockTime * 99).toInt =
      window.length * (window.length + 1) * 240000 * 99 := by
  have hmul := h.length_mul
  rw [Nat.mul_succ] at hmul
  have hsq : ((window.length * window.length : ℕ) : ℤ) = window.length * window.length := Nat.cast_mul _ _
  have hT : targetBlockTime.toInt = 240000 := rfl
  have hn : (Int64.ofNat window.length).toInt = window.length := Int64.toInt_ofNat_of_lt (by omega)
  have hnn : (Int64.ofNat window.length * Int64.ofNat window.length).toInt = window.length * window.length := by
    rw [toInt_mul (by rw [hn]; exact ⟨by omega, by omega⟩), hn]
  have hsucc : (Int64.ofNat window.length + 1).toInt = window.length + 1 := by
    have hone : (1 : Int64).toInt = 1 := rfl
    rw [toInt_add (by rw [hn, hone]; exact ⟨by omega, by omega⟩), hn, hone]
  have hprod : (window.length : ℤ) * (window.length + 1) = window.length * window.length + window.length := by ring
  have hns : (Int64.ofNat window.length * (Int64.ofNat window.length + 1)).toInt = window.length * (window.length + 1) := by
    rw [toInt_mul (by rw [hn, hsucc, hprod]; exact ⟨by omega, by omega⟩), hn, hsucc]
  constructor
  · have hnum : (Int64.ofNat window.length * Int64.ofNat window.length * targetBlockTime).toInt =
        window.length * window.length * 240000 := by
      rw [toInt_mul (by rw [hnn, hT]; exact ⟨by omega, by omega⟩), hnn, hT]
    rw [toInt_div (by rw [hnum]; omega) (by decide), hnum, show (20 : Int64).toInt = 20 from rfl]
    omega
  · have hnum : (Int64.ofNat window.length * (Int64.ofNat window.length + 1) * targetBlockTime).toInt =
        window.length * (window.length + 1) * 240000 := by
      rw [toInt_mul (by rw [hns, hT, hprod]; exact ⟨by omega, by omega⟩), hns, hT]
    have h99 : (99 : Int64).toInt = 99 := rfl
    rw [toInt_mul (by rw [hnum, h99, hprod]; exact ⟨by omega, by omega⟩), hnum, h99]

theorem Window.guarded_bounds : 12000 * (window.length * window.length) ≤ (guarded first window).toNat ∧
    (guarded first window).toNat ≤ 720000 * (window.length * (window.length + 1)) ∧ 0 < (guarded first window).toNat := by
  obtain ⟨hlo, hhi⟩ := h.weighted_bounds
  have hlen := h.length.1
  have hsq : 1 ≤ window.length * window.length := Nat.mul_pos (by omega) (by omega)
  have hmul : window.length * (window.length + 1) = window.length * window.length + window.length := Nat.mul_succ _ _
  have hhi' : weighted 1 first.timestamp.toInt window ≤ ((720000 * (window.length * (window.length + 1)) : ℕ) : ℤ) := by
    push_cast
    exact hhi
  have hguard : (window.length * window.length * 12000 : ℤ) = ((window.length * window.length * 12000 : ℕ) : ℤ) := by
    push_cast
    rfl
  unfold guarded
  rw [hguard]
  omega

theorem Window.lwmaDifficulty_eq : (lwmaDifficulty (first :: window)).toNat = retarget first window := by
  obtain ⟨hsum, hdiffs, -⟩ := h.sums
  obtain ⟨hguard, hnum⟩ := h.exact
  obtain ⟨-, hupper, hpos⟩ := h.guarded_bounds
  have hmul := h.length_mul
  unfold lwmaDifficulty
  dsimp only
  generalize (lwmaSums 1 first.timestamp 0 0 window).1 = l at hsum ⊢
  generalize (lwmaSums 1 first.timestamp 0 0 window).2 = sumD at hdiffs ⊢
  -- the guarded sum
  have hl : (if l < Int64.ofNat window.length * Int64.ofNat window.length * targetBlockTime / 20 then
      Int64.ofNat window.length * Int64.ofNat window.length * targetBlockTime / 20 else l).toInt = guarded first window := by
    rw [apply_ite Int64.toInt, hguard, hsum, guarded, max_def]
    split_ifs with hlt hle hle <;> rw [Int64.lt_iff_toInt_lt, hguard, hsum] at hlt <;> omega
  generalize (if l < Int64.ofNat window.length * Int64.ofNat window.length * targetBlockTime / 20 then
      Int64.ofNat window.length * Int64.ofNat window.length * targetBlockTime / 20 else l) = l' at hl ⊢
  have hden : (200 * l').toInt = ((200 * (guarded first window).toNat : ℕ) : ℤ) := by
    have h200 : (200 : Int64).toInt = 200 := rfl
    rw [toInt_mul (by rw [h200, hl]; exact ⟨by omega, by omega⟩), h200, hl]
    omega
  have hnext : ((sumD / window.length : ℕ) : ℤ) *
      (Int64.ofNat window.length * (Int64.ofNat window.length + 1) * targetBlockTime * 99).toInt / (200 * l').toInt =
      ((averageDifficulty window * (window.length * (window.length + 1) * 240000 * 99) / (200 * (guarded first window).toNat) : ℕ) : ℤ) := by
    rw [hnum, hden, averageDifficulty, hdiffs]
    push_cast
    rfl
  rw [hnext, retarget]
  generalize averageDifficulty window * (window.length * (window.length + 1) * 240000 * 99) /
    (200 * (guarded first window).toNat) = next
  have hmin : minDifficulty.toNat = 1 := rfl
  split_ifs with hfits hlow hlow <;> rw [UInt64.lt_iff_toNat_lt, hmin] at hlow
  · rw [Int.toNat_natCast, UInt64.toNat_ofNat_of_lt' (show next < 2 ^ 64 by omega)] at hlow
    rw [hmin]
    omega
  · rw [Int.toNat_natCast, UInt64.toNat_ofNat_of_lt' (show next < 2 ^ 64 by omega)] at hlow ⊢
    omega
  · exact absurd hlow (by decide)
  · rw [show (0xffffffffffffffff : UInt64).toNat = 2 ^ 64 - 1 from rfl]
    omega

theorem Window.le_retarget : max 1 (averageDifficulty window * 99 / 600) ≤ retarget first window := by
  obtain ⟨-, hupper, hpos⟩ := h.guarded_bounds
  have havg : averageDifficulty window ≤ 2 ^ 64 - 1 := by
    have hsum : (window.map fun h => h.difficulty.toNat).sum ≤ (2 ^ 64 - 1) * window.length := by
      have := List.sum_le_card_nsmul (window.map fun h => h.difficulty.toNat) (2 ^ 64 - 1)
        (by simp only [List.mem_map, forall_exists_index, and_imp, forall_apply_eq_imp_iff₂]
            exact fun b _ => Nat.le_pred_of_lt b.difficulty.toNat_lt)
      rwa [List.length_map, smul_eq_mul, Nat.mul_comm] at this
    exact Nat.div_le_of_le_mul (by rwa [Nat.mul_comm])
  have hquot : averageDifficulty window * 99 / 600 ≤
      averageDifficulty window * (window.length * (window.length + 1) * 240000 * 99) / (200 * (guarded first window).toNat) := by
    refine (Nat.le_div_iff_mul_le (by omega)).2 ?_
    calc averageDifficulty window * 99 / 600 * (200 * (guarded first window).toNat)
        ≤ averageDifficulty window * 99 / 600 * (200 * (720000 * (window.length * (window.length + 1)))) := by gcongr
      _ = averageDifficulty window * 99 / 600 * 600 * (240000 * (window.length * (window.length + 1))) := by ring
      _ ≤ averageDifficulty window * 99 * (240000 * (window.length * (window.length + 1))) :=
        Nat.mul_le_mul_right _ (Nat.div_mul_le_self _ _)
      _ = averageDifficulty window * (window.length * (window.length + 1) * 240000 * 99) := by ring
  rw [retarget]
  omega

theorem Window.retarget_le :
    retarget first window ≤ max 1 (averageDifficulty window * 99 * (window.length + 1) / (10 * window.length)) := by
  obtain ⟨hlower, -, hpos⟩ := h.guarded_bounds
  have hlen := h.length.1
  refine max_le_max le_rfl ((min_le_right _ _).trans ((Nat.le_div_iff_mul_le (by omega)).2 ?_))
  have hN : 0 < 240000 * window.length := by omega
  refine Nat.le_of_mul_le_mul_right ?_ hN
  calc averageDifficulty window * (window.length * (window.length + 1) * 240000 * 99) / (200 * (guarded first window).toNat) *
        (10 * window.length) * (240000 * window.length)
      = averageDifficulty window * (window.length * (window.length + 1) * 240000 * 99) / (200 * (guarded first window).toNat) *
        (200 * (12000 * (window.length * window.length))) := by ring
    _ ≤ averageDifficulty window * (window.length * (window.length + 1) * 240000 * 99) / (200 * (guarded first window).toNat) *
        (200 * (guarded first window).toNat) := by gcongr
    _ ≤ averageDifficulty window * (window.length * (window.length + 1) * 240000 * 99) := Nat.div_mul_le_self _ _
    _ = averageDifficulty window * 99 * (window.length + 1) * (240000 * window.length) := by ring

end Window

/-! ### Monotonicity -/

def Harder (a b : Header) : Prop := a.timestamp = b.timestamp ∧ a.difficulty ≤ b.difficulty

variable {window window' : List Header}

theorem weighted_of_harder (h : List.Forall₂ Harder window window') :
    ∀ (i : ℕ) (prev : ℤ), weighted i prev window = weighted i prev window' := by
  induction h with
  | nil => exact fun _ _ => rfl
  | cons hhead _ ih =>
    intro i prev
    rw [weighted, weighted, hhead.1, ih]

theorem averageDifficulty_le_of_harder (h : List.Forall₂ Harder window window') :
    averageDifficulty window ≤ averageDifficulty window' := by
  rw [averageDifficulty, averageDifficulty, h.length_eq]
  refine Nat.div_le_div_right (List.Forall₂.sum_le_sum ?_)
  rw [List.forall₂_map_left_iff, List.forall₂_map_right_iff]
  exact h.imp fun _ _ hab => UInt64.le_iff_toNat_le.1 hab.2

theorem retarget_le_of_harder {first first' : Header}
    (h : List.Forall₂ Harder (first :: window) (first' :: window')) : retarget first window ≤ retarget first' window' := by
  obtain ⟨hfirst, hwindow⟩ := List.forall₂_cons.1 h
  have hguarded : guarded first window = guarded first' window' := by
    rw [guarded, guarded, hfirst.1, weighted_of_harder hwindow, hwindow.length_eq]
  rw [retarget, retarget, hguarded, hwindow.length_eq]
  have := averageDifficulty_le_of_harder hwindow
  gcongr

theorem retarget_le_of_later {first b b' : Header} {before : List Header} (h : Window first (before ++ [b]))
    (hdiff : b'.difficulty = b.difficulty) (hle : b.timestamp ≤ b'.timestamp) :
    retarget first (before ++ [b']) ≤ retarget first (before ++ [b]) := by
  have hlength : (before ++ [b']).length = (before ++ [b]).length := by rw [List.length_append, List.length_append]; rfl
  have havg : averageDifficulty (before ++ [b']) = averageDifficulty (before ++ [b]) := by
    rw [averageDifficulty, averageDifficulty, hlength]
    simp only [List.map_append, List.map_cons, hdiff]
  have hguarded : guarded first (before ++ [b]) ≤ guarded first (before ++ [b']) := by
    rw [guarded, guarded, hlength]
    exact max_le_max (weighted_last_le (Int64.le_iff_toInt_le.1 hle) before 1 _) le_rfl
  have hpos := h.guarded_bounds.2.2
  rw [retarget, retarget, havg, hlength]
  refine max_le_max le_rfl (min_le_min le_rfl (Nat.div_le_div_left ?_ (by omega)))
  exact Nat.mul_le_mul_left _ (Int.toNat_le_toNat hguarded)

/-- **The retarget is exact, bounded, and monotone**: no operation wraps and no divisor is zero; the result lies between
`99 / 600` and `99 (N + 1) / (10 N)` of the average difficulty, at least one; it grows with every difficulty and falls with
the time of the last header. -/
theorem retarget_bounded_monotone {first : Header} {window : List Header} (h : Window first window) :
    (sumsFit 1 first.timestamp.toInt 0 window ∧ Fits (window.length * window.length * 240000) ∧
      Fits (window.length * (window.length + 1) * 240000 * 99) ∧ Fits (200 * guarded first window) ∧
      0 < window.length ∧ 0 < guarded first window ∧
      (lwmaDifficulty (first :: window)).toNat = retarget first window) ∧
    max minDifficulty.toNat (averageDifficulty window * 99 / 600) ≤ (lwmaDifficulty (first :: window)).toNat ∧
    (lwmaDifficulty (first :: window)).toNat ≤
      max minDifficulty.toNat (averageDifficulty window * 99 * (window.length + 1) / (10 * window.length)) ∧
    (∀ first' window', Window first' window' → List.Forall₂ Harder (first :: window) (first' :: window') →
      lwmaDifficulty (first :: window) ≤ lwmaDifficulty (first' :: window')) ∧
    ∀ before b b', window = before ++ [b] → Window first (before ++ [b']) → b'.difficulty = b.difficulty →
      b.timestamp ≤ b'.timestamp → lwmaDifficulty (first :: before ++ [b']) ≤ lwmaDifficulty (first :: window) := by
  obtain ⟨-, hupper, hpos⟩ := h.guarded_bounds
  have hmul := h.length_mul
  have hlen := h.length.1
  have hsucc : (window.length * (window.length + 1) : ℤ) = ((window.length * (window.length + 1) : ℕ) : ℤ) := by push_cast; rfl
  have hsq : (window.length * window.length : ℤ) = ((window.length * window.length : ℕ) : ℤ) := by push_cast; rfl
  have hle : window.length * window.length ≤ window.length * (window.length + 1) := Nat.mul_le_mul_left _ (Nat.le_succ _)
  refine ⟨⟨h.sums.2.2, ?_, ?_, ⟨by omega, by omega⟩, by omega, by omega, h.lwmaDifficulty_eq⟩, ?_, ?_, ?_, ?_⟩
  · rw [hsq]
    exact ⟨by omega, by omega⟩
  · rw [hsucc]
    exact ⟨by omega, by omega⟩
  · rw [h.lwmaDifficulty_eq]
    exact h.le_retarget
  · rw [h.lwmaDifficulty_eq]
    exact h.retarget_le
  · intro first' window' h' hharder
    rw [UInt64.le_iff_toNat_le, h.lwmaDifficulty_eq, h'.lwmaDifficulty_eq]
    exact retarget_le_of_harder hharder
  · rintro before b b' rfl h' hdiff hlater
    rw [UInt64.le_iff_toNat_le, List.cons_append, h.lwmaDifficulty_eq, h'.lwmaDifficulty_eq]
    exact retarget_le_of_later h hdiff hlater

def timed (timestamp : Int64) (difficulty : UInt64) : Header :=
  ⟨0, 0, timestamp, 0, 0, 0, 0, 0, 0, difficulty, 0⟩

/-- Two blocks on time, then the second one late: the difficulty falls from `99` to `66`. -/
theorem retarget_bounded_monotone_two :
    (lwmaDifficulty [timed 0 100, timed 240000 100, timed 480000 100]).toNat = 99 ∧
    lwmaDifficulty [timed 0 100, timed 240000 100, timed 720000 100] ≤
      lwmaDifficulty [timed 0 100, timed 240000 100, timed 480000 100] := by
  have hon : Window (timed 0 100) [timed 240000 100, timed 480000 100] := ⟨by decide, by decide, by decide⟩
  have hlate : Window (timed 0 100) [timed 240000 100, timed 720000 100] := ⟨by decide, by decide, by decide⟩
  obtain ⟨-, -, -, -, hlater⟩ := retarget_bounded_monotone hon
  exact ⟨by decide, hlater [timed 240000 100] (timed 480000 100) (timed 720000 100) rfl hlate rfl (by decide)⟩

end Lxs
