import Lxs.Core.Genesis

/-!
# Proof of work and fork choice

`core/pow.go` and `core/forkchoice.go`. The fork choice is an interface of the source with one implementation,
`HeaviestChain`.
-/

namespace Lxs

/-! ### Difficulty -/

/-- Milliseconds. -/
def targetBlockTime : Int64 := 240000

def lwmaWindow : ℕ := 45

/-- The loop over the averaging window from weight `i`: the weighted solvetimes and the sum of the difficulties. -/
def lwmaSums (i prev l : Int64) (sumD : ℕ) : List Header → Int64 × ℕ
  | [] => (l, sumD)
  | h :: window =>
    let ts := if h.timestamp ≤ prev then prev + 1 else h.timestamp
    let st := if 6 * targetBlockTime < ts - prev then 6 * targetBlockTime else ts - prev
    lwmaSums (i + 1) ts (l + i * st) (sumD + h.difficulty.toNat) window

/-- The difficulty after a window of headers, the oldest first; called on three headers or more. -/
def lwmaDifficulty : List Header → UInt64
  | [] => minDifficulty
  | first :: window =>
    let n := Int64.ofNat window.length
    let (l, sumD) := lwmaSums 1 first.timestamp 0 0 window
    let minL := n * n * targetBlockTime / 20
    let l := if l < minL then minL else l
    let avgD := sumD / window.length
    let next := avgD * (n * (n + 1) * targetBlockTime * 99).toInt / (200 * l).toInt
    let d := if 0 ≤ next ∧ next < 2 ^ 64 then UInt64.ofNat next.toNat else 0xffffffffffffffff
    if d < minDifficulty then minDifficulty else d

/-! ### Proof of work -/

def maxTarget : ℕ := 2 ^ 256 - 1

def powTarget (difficulty : UInt64) : ℕ := maxTarget / (if difficulty = 0 then 1 else difficulty).toNat

def satisfiesPoW [Crypto] (h : Header) : Bool := h.hash.toNat ≤ powTarget h.difficulty

/-! ### Fork choice -/

structure Tip where
  header : Header
  totalDifficulty : ℕ

/-- More accumulated work wins; equal work is decided by the smaller hash. -/
def better [Crypto] (candidate current : Tip) : Bool :=
  if candidate.totalDifficulty ≠ current.totalDifficulty then current.totalDifficulty < candidate.totalDifficulty
  else candidate.header.hash < current.header.hash

section Better

variable [Crypto] {a b c : Tip}

theorem better_iff : better a b = true ↔ b.totalDifficulty < a.totalDifficulty ∨
    a.totalDifficulty = b.totalDifficulty ∧ a.header.hash.toNat < b.header.hash.toNat := by
  unfold better
  split
  · rename_i hne
    simp only [decide_eq_true_eq]
    exact ⟨.inl, fun h => h.resolve_right fun heq => hne heq.1⟩
  · rename_i heq
    rw [not_not] at heq
    rw [decide_eq_true_eq, BitVec.lt_def]
    refine ⟨fun h => .inr ⟨heq, h⟩, fun h => ?_⟩
    rcases h with h | h
    · exact absurd heq.symm (Nat.ne_of_lt h)
    · exact h.2

theorem not_better_iff : better a b = false ↔ a.totalDifficulty < b.totalDifficulty ∨
    a.totalDifficulty = b.totalDifficulty ∧ b.header.hash.toNat ≤ a.header.hash.toNat := by
  rw [← Bool.not_eq_true, better_iff]
  omega

theorem better_irrefl (a : Tip) : better a a = false := not_better_iff.2 (.inr ⟨rfl, le_rfl⟩)

theorem not_better_of_better (hac : better a c = false) (hbc : better b c = true) : better a b = false := by
  rw [not_better_iff] at hac ⊢
  rw [better_iff] at hbc
  omega

end Better

end Lxs
