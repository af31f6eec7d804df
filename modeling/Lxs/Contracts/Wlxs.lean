import Lxs.Contracts.Swap
import Lxs.Lib.CallStack

/-!
# Wrapped native

`WLXS` of `LxsSwap.sol`: a deposit or a plain send is wrapped for its sender, and a withdrawal burns first and then sends, with
no lock. Whatever the owner's code does before it takes the money, `withdraw` goes on from there; if it fails, the call is
undone.

* `wlxs_backed`: **the contract holds what is wrapped**, at every external call and after every transaction.
-/

namespace Lxs.Contracts

open Lib

structure WLXS where
  balanceOf : Ledger
  allowance : Address → Address → ℕ

namespace WLXS

def approve (t : WLXS) (sender spender : Address) (value : ℕ) : WLXS :=
  { t with allowance := Function.update t.allowance sender (Function.update (t.allowance sender) spender value) }

def transferFrom (t : WLXS) (sender source recipient : Address) (value : ℕ) : Option WLXS := do
  guard (value ≤ t.balanceOf source)
  let allowance ← (
    if source ≠ sender ∧ t.allowance source sender ≠ 2 ^ 256 - 1 then do
      let rest ← checkedSub (t.allowance source sender) value
      return Function.update t.allowance source (Function.update (t.allowance source) sender rest)
    else some t.allowance)
  let balances ← t.balanceOf.transfer source recipient value
  return ⟨balances, allowance⟩

def transfer (t : WLXS) (sender recipient : Address) (value : ℕ) : Option WLXS :=
  t.transferFrom sender sender recipient value

end WLXS

theorem WLXS.transferFrom_some {x x' : WLXS} {sender source recipient : Address} {value : ℕ}
    (h : x.transferFrom sender source recipient value = some x') :
    ∃ b al, x.balanceOf.transfer source recipient value = some b ∧ x' = ⟨b, al⟩ ∧
      (source ≠ sender → (value ≤ x.allowance source sender ∧ ∃ rest ≤ x.allowance source sender,
        al = Function.update x.allowance source (Function.update (x.allowance source) sender rest)) ∨
        x.allowance source sender = 2 ^ 256 - 1 ∧ al = x.allowance) ∧ (source = sender → al = x.allowance) := by
  simp only [transferFrom, Option.bind_eq_bind, Option.bind_eq_some_iff, Option.pure_def, Option.some.injEq,
    Option.guard_eq_some', exists_const] at h
  obtain ⟨-, al, hal, b, hb, rfl⟩ := h
  refine ⟨b, al, hb, rfl, ?_, ?_⟩
  · intro hne
    split_ifs at hal with hif
    · simp only [Option.bind_eq_some_iff, Option.some.injEq] at hal
      obtain ⟨rest, hrest, rfl⟩ := hal
      have := checkedSub_some hrest
      exact .inl ⟨by omega, rest, by omega, rfl⟩
    · cases hal
      push Not at hif
      exact .inr ⟨hif hne, rfl⟩
  · rintro rfl
    rw [if_neg (by simp)] at hal
    cases hal
    rfl

/-! ### The contract and the native balances -/

/-- The contract at its address, with the native balances of everybody. -/
structure Wrapping (addr : ContractAddress) where
  wlxs : WLXS
  native : Ledger

namespace Wrapping

variable {addr : ContractAddress}

/-- `deposit`, and `receive`, with a value. -/
def deposit (w : Wrapping addr) (sender : Address) (value : ℕ) : Option (Wrapping addr) := do
  let native ← w.native.transfer sender addr.1 value
  let balances ← w.wlxs.balanceOf.add sender value
  return ⟨{ w.wlxs with balanceOf := balances }, native⟩

/-- `withdraw` up to the owner's code. -/
def startWithdraw (w : Wrapping addr) (sender : Address) (value : ℕ) : Option (Wrapping addr) := do
  guard (value ≤ w.wlxs.balanceOf sender)
  let balances ← w.wlxs.balanceOf.take sender value
  let native ← w.native.transfer addr.1 sender value
  return ⟨{ w.wlxs with balanceOf := balances }, native⟩

def withWlxs (w : Wrapping addr) (x : Option WLXS) : Option (Wrapping addr) := x.map fun x => { w with wlxs := x }

def Caller (addr : ContractAddress) := { a : Address // a ≠ addr.1 }

/-- Calls that end at once, and what moves native past the contract. -/
inductive Act (addr : ContractAddress)
  | deposit (sender : Caller addr) (value : ℕ)
  /-- a plain send to the contract -/
  | receive (sender : Caller addr) (value : ℕ)
  | transfer (sender : Caller addr) (recipient : Address) (value : ℕ)
  | transferFrom (sender : Caller addr) (source recipient : Address) (value : ℕ)
  | approve (sender : Caller addr) (spender : Address) (value : ℕ)
  /-- native from one caller to another -/
  | send (sender recipient : Caller addr) (value : ℕ)
  /-- native that no call brings, such as a block reward -/
  | reward (recipient : Address) (value : ℕ)

def act (w : Wrapping addr) : Act addr → Option (Wrapping addr)
  | .deposit sender value => w.deposit sender.1 value
  | .receive sender value => w.deposit sender.1 value
  | .transfer sender recipient value => w.withWlxs (w.wlxs.transfer sender.1 recipient value)
  | .transferFrom sender source recipient value => w.withWlxs (w.wlxs.transferFrom sender.1 source recipient value)
  | .approve sender spender value => w.withWlxs (some (w.wlxs.approve sender.1 spender value))
  | .send sender recipient value => (w.native.transfer sender.1 recipient.1 value).map fun n => { w with native := n }
  | .reward recipient value => (w.native.add recipient value).map fun n => { w with native := n }

/-- The contract as a system of calls: only a withdrawal, of a caller and a value, waits for other code, and it has nothing
left to do after it. -/
def system (addr : ContractAddress) : CallStack.System (Wrapping addr) where
  Act := Act addr
  Call := Caller addr × ℕ
  Pending := Unit
  act := act
  start w call := (w.startWithdraw call.1.1 call.2).map (·, ())
  finish w _ := some w

/-- A contract that was just deployed; anything may have been sent to its address before. -/
def Deployed (w : Wrapping addr) : Prop := w.wlxs = ⟨fun _ => 0, fun _ _ => 0⟩

def Runs (addr : ContractAddress) (m : CallStack.State (system addr)) : Prop :=
  CallStack.Reaches (system addr) Deployed (fun _ => True) m

def Backed (w : Wrapping addr) : Prop := ∑ a, w.wlxs.balanceOf a ≤ w.native addr.1

variable {w w' : Wrapping addr} {sender recipient source : Address} {value : ℕ}

theorem deposit_some (h : w.deposit sender value = some w') : ∃ n b, w.native.transfer sender addr.1 value = some n ∧
    w.wlxs.balanceOf.add sender value = some b ∧ w' = ⟨{ w.wlxs with balanceOf := b }, n⟩ := by
  simp only [deposit, Option.bind_eq_bind, Option.bind_eq_some_iff, Option.pure_def, Option.some.injEq] at h
  obtain ⟨n, hn, b, hb, rfl⟩ := h
  exact ⟨n, b, hn, hb, rfl⟩

theorem Backed.deposit (hw : w.Backed) (hsender : sender ≠ addr.1) (h : w.deposit sender value = some w') : w'.Backed := by
  obtain ⟨n, b, hn, hb, rfl⟩ := deposit_some h
  have hsum := Ledger.sum_add hb
  have hnative := Ledger.transfer_recipient hn hsender
  unfold Backed at hw ⊢
  dsimp only
  omega

theorem startWithdraw_some (h : w.startWithdraw sender value = some w') : ∃ b n, w.wlxs.balanceOf.take sender value = some b ∧
    w.native.transfer addr.1 sender value = some n ∧ w' = ⟨{ w.wlxs with balanceOf := b }, n⟩ := by
  simp only [startWithdraw, Option.bind_eq_bind, Option.bind_eq_some_iff, Option.pure_def, Option.some.injEq,
    Option.guard_eq_some', exists_const] at h
  obtain ⟨-, b, hb, n, hn, rfl⟩ := h
  exact ⟨b, n, hb, hn, rfl⟩

/-- The burn comes before the send, so the contract is backed when the owner's code starts. -/
theorem Backed.startWithdraw (hw : w.Backed) (h : w.startWithdraw sender value = some w') : w'.Backed := by
  obtain ⟨b, n, hb, hn, rfl⟩ := startWithdraw_some h
  have hsum := Ledger.sum_take hb
  have hnative := Ledger.le_transfer_source hn
  unfold Backed at hw ⊢
  dsimp only
  omega

theorem Backed.transferFrom (hw : w.Backed)
    (h : w.withWlxs (w.wlxs.transferFrom sender source recipient value) = some w') : w'.Backed := by
  obtain ⟨x, hx, rfl⟩ := Option.map_eq_some_iff.1 h
  obtain ⟨b, al, hb, rfl, -⟩ := WLXS.transferFrom_some hx
  unfold Backed at hw ⊢
  dsimp only
  rw [Ledger.sum_transfer hb]
  exact hw

theorem Backed.act (hw : w.Backed) {a : Act addr} (h : w.act a = some w') : w'.Backed := by
  cases a with
  | deposit sender value => exact hw.deposit sender.2 h
  | receive sender value => exact hw.deposit sender.2 h
  | transfer sender recipient value => exact hw.transferFrom h
  | transferFrom sender source recipient value => exact hw.transferFrom h
  | approve sender spender value => cases h; exact hw
  | send sender recipient value =>
    obtain ⟨n, hn, rfl⟩ := Option.map_eq_some_iff.1 h
    exact hw.trans (Ledger.le_transfer hn sender.2.symm)
  | reward recipient value =>
    obtain ⟨n, hn, rfl⟩ := Option.map_eq_some_iff.1 h
    exact hw.trans (Ledger.le_add hn _)

/-- **A run keeps the contract backed**, also in the states that a failure goes back to. -/
theorem Runs.backed {m : CallStack.State (system addr)} (h : Runs addr m) :
    m.world.Backed ∧ ∀ f ∈ m.stack, Backed f.1 := by
  refine h.keeps (fun w hw => ?_) (fun w w' a hw _ ha => hw.act ha) (fun w w' c p hw _ hs => ?_) fun w w' p hw _ hf => ?_
  · show ∑ a, w.wlxs.balanceOf a ≤ w.native addr.1
    rw [hw, Finset.sum_const_zero]
    exact Nat.zero_le _
  · obtain ⟨x, hx, hxw⟩ := Option.map_eq_some_iff.1 hs
    cases hxw
    exact hw.startWithdraw hx
  · cases hf
    exact hw

theorem Backed.exists_startWithdraw (hw : w.Backed) (hvalue : value ≤ w.wlxs.balanceOf sender)
    (hsupply : ∑ a, w.native a < 2 ^ 256) : ∃ w', w.startWithdraw sender value = some w' := by
  have hfunds : value ≤ w.native addr.1 := hvalue.trans ((Ledger.le_sum _ sender).trans hw)
  obtain ⟨n, hn⟩ : ∃ n, w.native.transfer addr.1 sender value = some n := Ledger.exists_transfer hfunds hsupply
  simp only [Wrapping.startWithdraw, Ledger.take, hvalue, guard_true, Option.bind_eq_bind, Option.pure_def, Option.bind_some,
    checkedSub_eq hvalue, hn]
  exact ⟨_, rfl⟩

/-- **WLXS is always fully backed.** In every moment of every run, inside a payout or between transactions, and in every
state a failure goes back to, the contract holds what is wrapped; so a withdrawal of at most the caller's balance finds the
money, and goes through to the caller's code as long as the native supply is a number of 256 bits. -/
theorem wlxs_backed {m : CallStack.State (system addr)} (h : Runs addr m) :
    (∑ a, m.world.wlxs.balanceOf a ≤ m.world.native addr.1) ∧
    (∀ f ∈ m.stack, ∑ a, f.1.wlxs.balanceOf a ≤ f.1.native addr.1) ∧
    ∀ sender value, value ≤ m.world.wlxs.balanceOf sender → value ≤ m.world.native addr.1 ∧
      (∑ a, m.world.native a < 2 ^ 256 → (m.world.startWithdraw sender value).isSome) := by
  obtain ⟨hworld, hstack⟩ := h.backed
  refine ⟨hworld, hstack, fun sender value hvalue => ⟨hvalue.trans ((Ledger.le_sum _ sender).trans hworld), fun hsupply => ?_⟩⟩
  obtain ⟨w', hw'⟩ := hworld.exists_startWithdraw hvalue hsupply
  rw [hw']
  rfl

theorem till_ne_zero : (9 : Address) ≠ zeroAddress := by decide

def till : ContractAddress := ⟨9, till_ne_zero⟩

def customer : Caller till := ⟨7, by decide⟩

/-- The customer wraps 3 units and takes 2 of them back: the moment at which the money has left. -/
def payout : CallStack.State (system till) :=
  ((⟨⟨⟨fun _ => 0, fun _ _ => 0⟩, fun a => if a = 7 then 5 else 0⟩, []⟩ : CallStack.State (system till)).exec
    (.act (.deposit customer 3))).exec (.call (customer, 2))

theorem runs_payout : Runs till payout := .step _ (.step _ (.start rfl) trivial) trivial

/-- Inside the payout one unit is wrapped and one is there. -/
theorem wlxs_backed_payout : Runs till payout ∧ payout.stack.length = 1 ∧ payout.world.wlxs.balanceOf 7 = 1 ∧
    payout.world.native 9 = 1 ∧ ∑ a, payout.world.wlxs.balanceOf a ≤ payout.world.native 9 :=
  ⟨runs_payout, by decide +kernel, by decide +kernel, by decide +kernel, (wlxs_backed runs_payout).1⟩

end Wrapping

end Lxs.Contracts
