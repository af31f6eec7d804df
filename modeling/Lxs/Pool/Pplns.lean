import Lxs.Common.Primitives
import Lxs.Lib.FinMap

/-!
# The split of a block's pot

`pplnsLocked` of `pool/server.go`: the pot of a block is split over the newest shares of the ring, pro rata by difficulty and
rounded down. Amounts are big integers, difficulties `uint64`, and the sums of difficulties do not overflow.

* `pplns_exact`: **which shares count, what each address gets, and what is left.**
-/

namespace Lxs.Pool

open Std Lib Lib.FinMap

/-- One accepted proof of work in the ring. -/
structure Share where
  addr : Address
  diff : UInt64
  deriving DecidableEq

/-- The loop over the ring, newest share first: the total and the difficulty of each address. -/
def takeWindow (window : ℕ) : List Share → ℕ → ExtTreeMap Address ℕ → ℕ × ExtTreeMap Address ℕ
  | [], total, perAddr => (total, perAddr)
  | sh :: shares, total, perAddr =>
    if total < window then
      takeWindow window shares (total + sh.diff.toNat) (perAddr.insert sh.addr ((perAddr[sh.addr]?).getD 0 + sh.diff.toNat))
    else (total, perAddr)

/-- The payouts of a block; the ring is oldest first. -/
def pplnsLocked (windowFactor : UInt64) (ring : List Share) (pot : ℤ) (blockDiff : UInt64) : ExtTreeMap Address ℤ :=
  let (total, perAddr) := takeWindow (blockDiff.toNat * windowFactor.toNat) ring.reverse 0 ∅
  if total = 0 then ∅
  else perAddr.filterMap fun _ (d : ℕ) => if 0 < pot * d / total then some (pot * d / total) else none

/-! ### The window -/

def shareWork (l : List Share) : ℕ := (l.map fun sh => sh.diff.toNat).sum

def workOf (a : Address) (l : List Share) : ℕ := shareWork (l.filter fun sh => sh.addr = a)

/-- The shortest run of the newest shares with enough work, or the whole ring if it never is enough. -/
structure IsWindow (window : ℕ) (ring l : List Share) : Prop where
  suffix : l <:+ ring
  reaches : window ≤ shareWork l ∨ l = ring
  shortest : ∀ l', l' <:+ ring → window ≤ shareWork l' → l.length ≤ l'.length

section Window

variable {window total : ℕ} {perAddr : ExtTreeMap Address ℕ}

def newest (window : ℕ) : ℕ → List Share → List Share
  | _, [] => []
  | total, sh :: shares => if total < window then sh :: newest window (total + sh.diff.toNat) shares else []

theorem shareWork_cons (sh : Share) (l : List Share) : shareWork (sh :: l) = sh.diff.toNat + shareWork l := List.sum_cons

theorem shareWork_reverse (l : List Share) : shareWork l.reverse = shareWork l := by
  rw [shareWork, List.map_reverse, List.sum_reverse, shareWork]

theorem workOf_reverse (a : Address) (l : List Share) : workOf a l.reverse = workOf a l := by
  rw [workOf, List.filter_reverse, shareWork_reverse, workOf]

theorem workOf_cons (a : Address) (sh : Share) (l : List Share) :
    workOf a (sh :: l) = (if sh.addr = a then sh.diff.toNat else 0) + workOf a l := by
  unfold workOf
  by_cases h : sh.addr = a
  · rw [List.filter_cons_of_pos (by simpa using h), shareWork_cons, if_pos h]
  · rw [List.filter_cons_of_neg (by simpa using h), if_neg h, Nat.zero_add]

theorem newest_initial (window : ℕ) (shares : List Share) : ∀ total, newest window total shares <+: shares := by
  induction shares with
  | nil => exact fun _ => List.prefix_rfl
  | cons sh shares ih =>
    intro total
    unfold newest
    split
    · exact List.cons_prefix_cons.2 ⟨rfl, ih _⟩
    · exact List.nil_prefix

theorem newest_reaches (shares : List Share) :
    ∀ total, window ≤ total + shareWork (newest window total shares) ∨ newest window total shares = shares := by
  induction shares with
  | nil => exact fun _ => .inr rfl
  | cons sh shares ih =>
    intro total
    unfold newest
    split
    · refine (ih (total + sh.diff.toNat)).imp (fun h => ?_) fun h => by rw [h]
      rwa [shareWork_cons, ← Nat.add_assoc]
    · exact .inl (by omega)

theorem newest_shortest (shares : List Share) : ∀ {total : ℕ} {l : List Share}, l <+: shares → window ≤ total + shareWork l →
    (newest window total shares).length ≤ l.length := by
  induction shares with
  | nil => exact fun _ _ => Nat.zero_le _
  | cons sh shares ih =>
    intro total l hl hwork
    unfold newest
    split
    · rename_i hlt
      cases l with
      | nil => exact absurd hlt (Nat.not_lt.2 hwork)
      | cons sh' l =>
        obtain ⟨rfl, htail⟩ := List.cons_prefix_cons.1 hl
        rw [shareWork_cons, ← Nat.add_assoc] at hwork
        exact Nat.succ_le_succ (ih htail hwork)
    · exact Nat.zero_le _

/-- **What the loop has collected**: the running total, and under each address what was there and its own shares. -/
theorem takeWindow_spec (shares : List Share) : ∀ (total : ℕ) (perAddr : ExtTreeMap Address ℕ),
    (takeWindow window shares total perAddr).1 = total + shareWork (newest window total shares) ∧
    ∀ a, ((takeWindow window shares total perAddr).2[a]?).getD 0 = (perAddr[a]?).getD 0 + workOf a (newest window total shares) := by
  induction shares with
  | nil => exact fun _ _ => ⟨rfl, fun _ => rfl⟩
  | cons sh shares ih =>
    intro total perAddr
    unfold takeWindow newest
    split
    · obtain ⟨htotal, haddr⟩ := ih (total + sh.diff.toNat)
        (perAddr.insert sh.addr ((perAddr[sh.addr]?).getD 0 + sh.diff.toNat))
      refine ⟨by rw [htotal, shareWork_cons, Nat.add_assoc], fun a => ?_⟩
      rw [haddr, workOf_cons, ExtTreeMap.getElem?_insert]
      by_cases h : sh.addr = a
      · rw [if_pos (LawfulEqCmp.compare_eq_iff_eq.2 h), if_pos h, Option.getD_some, h, Nat.add_assoc]
      · rw [if_neg (fun hc => h (LawfulEqCmp.compare_eq_iff_eq.1 hc)), if_neg h, Nat.zero_add]
    · exact ⟨rfl, fun _ => rfl⟩

theorem isWindow_newest (window : ℕ) (ring : List Share) : IsWindow window ring (newest window 0 ring.reverse).reverse := by
  refine ⟨?_, ?_, fun l hl hwork => ?_⟩
  · have hsuffix := (newest_initial window ring.reverse 0).reverse
    rwa [List.reverse_reverse] at hsuffix
  · rw [shareWork_reverse]
    refine (newest_reaches ring.reverse 0).imp (fun h => by rwa [Nat.zero_add] at h) fun h => ?_
    rw [h, List.reverse_reverse]
  · have hle : (newest window 0 ring.reverse).length ≤ l.reverse.length :=
      newest_shortest _ hl.reverse (by rwa [Nat.zero_add, shareWork_reverse])
    rwa [List.length_reverse] at hle ⊢

end Window

/-! ### The split -/

/-- **Rounding down loses less than one unit for each part.** -/
theorem sum_floor {ι : Type} (s : Finset ι) (w : ι → ℕ) (pot : ℤ) (hpos : 0 < ∑ i ∈ s, w i) :
    ∑ i ∈ s, pot * w i / (∑ j ∈ s, w j : ℕ) ≤ pot ∧ pot - ∑ i ∈ s, pot * w i / (∑ j ∈ s, w j : ℕ) < s.card := by
  generalize htotal : ∑ j ∈ s, w j = total at hpos
  have hpos' : (0 : ℤ) < total := Int.natCast_pos.2 hpos
  have hsum : ∑ i ∈ s, pot * w i = pot * total := by rw [← Finset.mul_sum, ← htotal, Nat.cast_sum]
  have hne : s.Nonempty := by
    by_contra hempty
    rw [Finset.not_nonempty_iff_eq_empty] at hempty
    rw [hempty, Finset.sum_empty] at htotal
    omega
  constructor
  · refine le_of_mul_le_mul_right ?_ hpos'
    rw [Finset.sum_mul, ← hsum]
    exact Finset.sum_le_sum fun i _ => Int.ediv_mul_le _ hpos'.ne'
  · have hlt : ∑ i ∈ s, pot * w i < ∑ i ∈ s, (pot * w i / total + 1) * total :=
      Finset.sum_lt_sum_of_nonempty hne fun i _ => Int.lt_ediv_add_one_mul_self _ hpos'
    rw [hsum, ← Finset.sum_mul, Finset.sum_add_distrib, Finset.sum_const, nsmul_eq_mul, mul_one] at hlt
    have := lt_of_mul_lt_mul_right hlt hpos'.le
    omega

theorem sum_workOf (l : List Share) : ∑ a ∈ (l.map Share.addr).toFinset, workOf a l = shareWork l := by
  have key : ∀ (s : Finset Address), (∀ sh ∈ l, sh.addr ∈ s) → ∑ a ∈ s, workOf a l = shareWork l := by
    induction l with
    | nil => exact fun s _ => Finset.sum_const_zero
    | cons sh l ih =>
      intro s hs
      simp only [workOf_cons, Finset.sum_add_distrib, shareWork_cons]
      rw [Finset.sum_ite_eq, if_pos (hs sh List.mem_cons_self), ih s fun x hx => hs x (List.mem_cons_of_mem _ hx)]
  exact key _ fun sh hsh => List.mem_toFinset.2 (List.mem_map_of_mem hsh)

theorem workOf_eq_zero {a : Address} {l : List Share} (ha : a ∉ l.map Share.addr) : workOf a l = 0 := by
  have : (l.filter fun sh => sh.addr = a) = [] := by
    rw [List.filter_eq_nil_iff]
    intro sh hsh heq
    exact ha (List.mem_map.2 ⟨sh, hsh, by simpa using heq⟩)
  rw [workOf, this]
  rfl

variable {ring : List Share} {pot : ℤ} {windowFactor blockDiff : UInt64}

theorem getElem?_pplnsLocked {l : List Share} (hl : newest (blockDiff.toNat * windowFactor.toNat) 0 ring.reverse = l)
    (a : Address) : (pplnsLocked windowFactor ring pot blockDiff)[a]? =
      if 0 < pot * workOf a l / shareWork l then some (pot * workOf a l / shareWork l) else none := by
  obtain ⟨htotal, haddr⟩ := @takeWindow_spec (blockDiff.toNat * windowFactor.toNat) ring.reverse 0 ∅
  unfold pplnsLocked
  rw [hl] at htotal haddr
  generalize takeWindow (blockDiff.toNat * windowFactor.toNat) ring.reverse 0 ∅ = r at htotal haddr ⊢
  obtain ⟨total, perAddr⟩ := r
  dsimp only at htotal haddr ⊢
  rw [Nat.zero_add] at htotal
  subst htotal
  have ha := haddr a
  rw [ExtTreeMap.getElem?_empty, Option.getD_none, Nat.zero_add] at ha
  split
  · rename_i hzero
    rw [ExtTreeMap.getElem?_empty, hzero, Nat.cast_zero, Int.ediv_zero, if_neg (lt_irrefl 0)]
  · rw [ExtTreeMap.getElem?_filterMap']
    cases hd : perAddr[a]? with
    | none =>
      rw [hd, Option.getD_none] at ha
      rw [← ha, Nat.cast_zero, mul_zero, Int.zero_ediv, if_neg (lt_irrefl 0), Option.bind_none]
    | some d =>
      rw [hd, Option.getD_some] at ha
      rw [ha, Option.bind_some]

/-- Each address gets its part of the pot rounded down, or no entry if that is zero. -/
def Splits (pot : ℤ) (l : List Share) (payouts : ExtTreeMap Address ℤ) : Prop :=
  ∀ a, payouts[a]? = if pot * workOf a l / shareWork l = 0 then none else some (pot * workOf a l / shareWork l)

theorem exists_splits (windowFactor : UInt64) (ring : List Share) {pot : ℤ} (hpot : 0 ≤ pot) (blockDiff : UInt64) :
    ∃ l, IsWindow (windowFactor.toNat * blockDiff.toNat) ring l ∧ Splits pot l (pplnsLocked windowFactor ring pot blockDiff) := by
  rw [Nat.mul_comm]
  refine ⟨_, isWindow_newest _ ring, fun a => ?_⟩
  generalize hl : newest (blockDiff.toNat * windowFactor.toNat) 0 ring.reverse = l
  rw [shareWork_reverse, workOf_reverse, getElem?_pplnsLocked hl]
  have hnonneg : 0 ≤ pot * workOf a l / shareWork l :=
    Int.ediv_nonneg (mul_nonneg hpot (Int.natCast_nonneg _)) (Int.natCast_nonneg _)
  split
  · rename_i hpos
    rw [if_neg hpos.ne']
  · rename_i hle
    rw [if_pos (Int.le_antisymm (Int.not_lt.1 hle) hnonneg)]

namespace Splits

variable {pot : ℤ} {l : List Share} {payouts : ExtTreeMap Address ℤ}

theorem sum (h : Splits pot l payouts) :
    sumOf id payouts = ∑ a ∈ (l.map Share.addr).toFinset, pot * workOf a l / shareWork l := by
  have hmem : ∀ a v, payouts[a]? = some v → a ∈ (l.map Share.addr).toFinset := by
    intro a v hv
    by_contra ha
    rw [List.mem_toFinset] at ha
    rw [h a, workOf_eq_zero ha, Nat.cast_zero, mul_zero, Int.zero_ediv, if_pos rfl] at hv
    cases hv
  rw [sumOf_eq_sum id _ hmem]
  refine Finset.sum_congr rfl fun a _ => ?_
  rw [h a]
  split
  · rename_i hzero
    exact hzero.symm
  · rfl

theorem eq_empty (h : Splits pot l payouts) (hzero : shareWork l = 0) : payouts = ∅ := by
  refine ExtTreeMap.ext_getElem? fun a => ?_
  rw [h a, hzero, Nat.cast_zero, Int.ediv_zero, if_pos rfl, ExtTreeMap.getElem?_empty]

theorem sum_le (h : Splits pot l payouts) (hpot : 0 ≤ pot) : sumOf id payouts ≤ pot := by
  rcases Nat.eq_zero_or_pos (shareWork l) with hzero | hpos
  · rw [h.eq_empty hzero, sumOf_empty]
    exact hpot
  · rw [h.sum, ← sum_workOf l]
    exact (sum_floor _ _ pot (by rwa [sum_workOf])).1

end Splits

/-- **The split is exact.** The shares that count are the shortest run of the newest ones with enough work; each address gets
its part of the pot rounded down, or no entry if that is zero; and what is left is less than a unit for each address. -/
theorem pplns_exact (windowFactor : UInt64) (ring : List Share) {pot : ℤ} (hpot : 0 ≤ pot) (blockDiff : UInt64) :
    ∃ l, IsWindow (windowFactor.toNat * blockDiff.toNat) ring l ∧
      (∀ a, (pplnsLocked windowFactor ring pot blockDiff)[a]? =
        if pot * workOf a l / shareWork l = 0 then none else some (pot * workOf a l / shareWork l)) ∧
      sumOf id (pplnsLocked windowFactor ring pot blockDiff) ≤ pot ∧
      (0 < shareWork l → pot - sumOf id (pplnsLocked windowFactor ring pot blockDiff) < (l.map Share.addr).toFinset.card) ∧
      (shareWork l = 0 → pplnsLocked windowFactor ring pot blockDiff = ∅) := by
  obtain ⟨l, hl, hsplits⟩ := exists_splits windowFactor ring hpot blockDiff
  refine ⟨l, hl, hsplits, hsplits.sum_le hpot, fun hpos => ?_, hsplits.eq_empty⟩
  rw [hsplits.sum, ← sum_workOf l]
  exact (sum_floor _ _ pot (by rwa [sum_workOf])).2

/-- The three newest of four shares reach a window of 25: addresses 1 and 2 with a work of 20 and 10 split a pot of 100,
and one unit is left. -/
theorem pplns_exact_four : (pplnsLocked 5 [⟨3, 7⟩, ⟨1, 10⟩, ⟨2, 10⟩, ⟨1, 10⟩] 100 5).toList = [(1, 66), (2, 33)] ∧
    sumOf id (pplnsLocked 5 [⟨3, 7⟩, ⟨1, 10⟩, ⟨2, 10⟩, ⟨1, 10⟩] 100 5) ≤ 100 := by
  obtain ⟨l, -, -, hle, -⟩ := pplns_exact 5 [⟨3, 7⟩, ⟨1, 10⟩, ⟨2, 10⟩, ⟨1, 10⟩] (show (0 : ℤ) ≤ 100 by decide) 5
  exact ⟨by decide +kernel, hle⟩

end Lxs.Pool
