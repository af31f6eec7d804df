import Lxs.State.State

/-!
# Reading the state after a write

Lookups after `set` and after the mutators built on it, and the sum of all balances.
-/

namespace Lxs

open Std Lib

/-! ### Stored accounts and read accounts -/

@[simp]
theorem readLeaf_leaf? (a : Account) : readLeaf a.leaf? = a := by
  unfold Account.leaf?
  split
  · rfl
  · rename_i h
    obtain ⟨nonce, balance, storage, code⟩ := a
    simp only [Account.isEmpty, Bool.not_eq_false, Bool.and_eq_true, decide_eq_true_eq,
      List.isEmpty_iff, ExtTreeMap.isEmpty_iff] at h
    obtain ⟨⟨⟨rfl, rfl⟩, rfl⟩, rfl⟩ := h
    rfl

@[simp]
theorem leaf?_readLeaf (o : Option Leaf) : (readLeaf o).leaf? = o := by
  cases o with
  | none => rfl
  | some l => exact dif_pos l.2

theorem readLeaf_injective : Function.Injective readLeaf :=
  Function.LeftInverse.injective leaf?_readLeaf

namespace State

variable (s : State)

theorem get_congr {s t : State} (h : s.accounts = t.accounts) (a : Address) : s.get a = t.get a := by
  rw [get, get, h]

@[simp]
theorem exists_eq_false_iff {a : Address} : s.exists a = false ↔ s.accounts[a]? = none := by
  simp [«exists»]

/-! ### One write -/

section Set

variable (a : Address) (acc : Account)

theorem get_set (b : Address) : (s.set a acc).get b = if a = b then acc else s.get b := by
  unfold get set
  rw [FinMap.getElem?_put]
  split <;> simp

theorem get_set_ne {b : Address} (h : a ≠ b) : (s.set a acc).get b = s.get b := by rw [get_set, if_neg h]

@[simp]
theorem set_touched : (s.set a acc).touched = s.touched.insert a := rfl

theorem sumBalances_set : (s.set a acc).sumBalances + s.balance a = s.sumBalances + acc.balance := by
  have key := FinMap.sumOf_put (fun l : Leaf => l.1.balance) s.accounts a acc.leaf?
  have elim_eq : ∀ o : Option Leaf, o.elim 0 (fun l : Leaf => l.1.balance) = (readLeaf o).balance := by
    intro o
    cases o <;> rfl
  rw [elim_eq, elim_eq, readLeaf_leaf?] at key
  exact key

end Set

/-! ### The mutators -/

section Update

variable (a : Address) (f : Account → Account)

theorem get_update (b : Address) : (s.update a f).get b = if a = b then f (s.get b) else s.get b := by
  rw [update, get_set]
  split
  · subst a; rfl
  · rfl

theorem sumBalances_update : (s.update a f).sumBalances + s.balance a = s.sumBalances + (f (s.get a)).balance :=
  s.sumBalances_set a _

end Update

theorem get_credit (a b : Address) (v : ℤ) :
    (s.credit a v).get b = if a = b then { s.get b with balance := (s.get b).balance + v } else s.get b :=
  s.get_update a _ b

theorem get_subBalance (a b : Address) (v : ℤ) :
    (s.subBalance a v).get b = if a = b then { s.get b with balance := (s.get b).balance - v } else s.get b :=
  s.get_update a _ b

theorem get_setCode (a b : Address) (c : Bytes) :
    (s.setCode a c).get b = if a = b then { s.get b with code := c } else s.get b :=
  s.get_update a _ b

theorem get_setNonce (a b : Address) (n : UInt64) :
    (s.setNonce a n).get b = if a = b then { s.get b with nonce := n } else s.get b :=
  s.get_update a _ b

theorem balance_credit (a b : Address) (v : ℤ) :
    (s.credit a v).balance b = s.balance b + if a = b then v else 0 := by
  rw [balance, balance, get_credit]
  split <;> simp

theorem balance_subBalance (a b : Address) (v : ℤ) :
    (s.subBalance a v).balance b = s.balance b - if a = b then v else 0 := by
  rw [balance, balance, get_subBalance]
  split <;> simp

theorem sumBalances_credit (a : Address) (v : ℤ) : (s.credit a v).sumBalances = s.sumBalances + v := by
  have := s.sumBalances_update a fun acc => { acc with balance := acc.balance + v }
  simp only [balance] at this
  unfold credit
  omega

theorem sumBalances_subBalance (a : Address) (v : ℤ) : (s.subBalance a v).sumBalances = s.sumBalances - v := by
  have := s.sumBalances_update a fun acc => { acc with balance := acc.balance - v }
  simp only [balance] at this
  unfold subBalance
  omega

/-! ### Burns -/

@[simp]
theorem burned_credit (a : Address) (v : ℤ) : (s.credit a v).burned = s.burned := rfl

theorem burned_burn {v : ℤ} (hv : 0 ≤ v) : (s.burn (some v)).burned = s.burned + v := by
  unfold burn
  dsimp only
  split
  · omega
  · rfl

theorem burn_eq (v : Option ℤ) : ∃ n, s.burn v = { s with burned := n } := by
  cases v with
  | none => exact ⟨s.burned, rfl⟩
  | some v =>
    unfold burn
    dsimp only
    split
    · exact ⟨s.burned, rfl⟩
    · exact ⟨_, rfl⟩

theorem burn_accounts (v : Option ℤ) : (s.burn v).accounts = s.accounts := by
  obtain ⟨n, h⟩ := s.burn_eq v
  rw [h]

theorem burn_snapshots (v : Option ℤ) : (s.burn v).snapshots = s.snapshots := by
  obtain ⟨n, h⟩ := s.burn_eq v
  rw [h]

theorem burn_logs (v : Option ℤ) : (s.burn v).logs = s.logs := by
  obtain ⟨n, h⟩ := s.burn_eq v
  rw [h]

theorem get_burn (v : Option ℤ) (a : Address) : (s.burn v).get a = s.get a := get_congr (s.burn_accounts v) a

theorem sumBalances_burn (v : Option ℤ) : (s.burn v).sumBalances = s.sumBalances := by
  rw [sumBalances, burn_accounts, ← sumBalances]

end State

end Lxs
