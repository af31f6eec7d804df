import Mathlib.Data.FinEnum
import Lxs.Common.Primitives
import Lxs.Lib.Outbox

/-!
# The peg

The contracts `WrappedLXS` and `PegVault` of `Peg.sol`. Numbers are `uint256` with checked arithmetic, a call that reverts is
`none`, and the events that the operator mirrors on the other chain are kept in the state. A release pays its recipient in
the middle of its run; what the recipient's code sends to the vault before it returns is part of the message.

* `peg_backed`: **the vault holds what is wrapped, what waits to be minted and what waits to be released**, in every state
  that an operator who only mirrors events can reach, and in every state in the middle of a payout.
-/

namespace Lxs.Contracts

open Lib Lib.Outbox

instance instFintypeAddress : Fintype Address := FinEnum.instFintype

/-! ### Checked arithmetic -/

def checkedAdd (a b : ℕ) : Option ℕ := if a + b < 2 ^ 256 then some (a + b) else none

def checkedSub (a b : ℕ) : Option ℕ := if b ≤ a then some (a - b) else none

theorem checkedAdd_some {a b c : ℕ} (h : checkedAdd a b = some c) : c = a + b := by
  unfold checkedAdd at h
  split_ifs at h
  cases h
  rfl

theorem checkedSub_some {a b c : ℕ} (h : checkedSub a b = some c) : c + b = a := by
  unfold checkedSub at h
  split_ifs at h with hle
  cases h
  omega

theorem sum_update (f : Address → ℕ) (a : Address) (n : ℕ) :
    ∑ x, Function.update f a n x + f a = ∑ x, f x + n := by
  rw [Finset.sum_update_of_mem (Finset.mem_univ a), ← Finset.sum_sdiff (Finset.subset_univ {a}), Finset.sum_singleton]
  ring

/-- A `Locked`, `Redeem` or `Released` event. -/
structure Event where
  nonce : ℕ
  account : Address
  amount : ℕ
  deriving DecidableEq

/-! ### The token -/

structure WrappedLXS where
  operator : Address
  totalSupply : ℕ
  balanceOf : Address → ℕ
  allowance : Address → Address → ℕ
  mintedNonce : ℕ → Bool
  redeemNonce : ℕ
  /-- the `Redeem` events -/
  redeems : List Event

namespace WrappedLXS

variable (t : WrappedLXS)

def mint (sender : Address) (nonce : ℕ) (recipient : Address) (amount : ℕ) : Option WrappedLXS :=
  if sender ≠ t.operator then none
  else if recipient = zeroAddress then none
  else if t.mintedNonce nonce then none
  else
    match checkedAdd t.totalSupply amount, checkedAdd (t.balanceOf recipient) amount with
    | some supply, some bal =>
      some { t with
        mintedNonce := Function.update t.mintedNonce nonce true
        totalSupply := supply
        balanceOf := Function.update t.balanceOf recipient bal }
    | _, _ => none

def redeem (sender : Address) (amount : ℕ) : Option WrappedLXS :=
  let bal := t.balanceOf sender
  if bal < amount then none
  else
    match checkedSub bal amount, checkedSub t.totalSupply amount, checkedAdd t.redeemNonce 1 with
    | some rest, some supply, some next =>
      some { t with
        balanceOf := Function.update t.balanceOf sender rest
        totalSupply := supply
        redeemNonce := next
        redeems := t.redeems ++ [⟨t.redeemNonce, sender, amount⟩] }
    | _, _, _ => none

/-- `_transfer`; the second balance is read after the first is written. -/
def move (source recipient : Address) (value : ℕ) : Option WrappedLXS :=
  if recipient = zeroAddress then none
  else
    let b := t.balanceOf source
    if b < value then none
    else
      match checkedSub b value with
      | none => none
      | some rest =>
        let balances := Function.update t.balanceOf source rest
        match checkedAdd (balances recipient) value with
        | none => none
        | some bal => some { t with balanceOf := Function.update balances recipient bal }

def transfer (sender recipient : Address) (value : ℕ) : Option WrappedLXS := t.move sender recipient value

def transferFrom (sender source recipient : Address) (value : ℕ) : Option WrappedLXS :=
  let a := t.allowance source sender
  if a < value then none
  else if a ≠ 2 ^ 256 - 1 then
    { t with allowance := Function.update t.allowance source (Function.update (t.allowance source) sender (a - value)) }.move
      source recipient value
  else t.move source recipient value

def approve (sender spender : Address) (value : ℕ) : WrappedLXS :=
  { t with allowance := Function.update t.allowance sender (Function.update (t.allowance sender) spender value) }

end WrappedLXS

/-! ### The vault -/

structure PegVault where
  /-- the vault's own address -/
  self : Address
  operator : Address
  entered : Bool
  lockNonce : ℕ
  releasedNonce : ℕ → Bool
  /-- `address(this).balance` -/
  balance : ℕ
  /-- the `Locked` events -/
  locks : List Event
  /-- the `Released` events -/
  releases : List Event

/-- What is sent to the vault: `lock`, a bare send, or `release` with what the recipient's code sends to the vault while it
is paid and whether it returns. -/
inductive Message
  | lock (sender : Address) (value : ℕ)
  | receive (sender : Address) (value : ℕ)
  | release (sender : Address) (nonce : ℕ) (recipient : Address) (amount : ℕ) (inner : List Message) (ok : Bool)

namespace PegVault

/-- The common body of `lock` and `receive`. -/
def deposit (v : PegVault) (sender : Address) (value : ℕ) : Option PegVault :=
  if value = 0 then none
  else
    match checkedAdd v.lockNonce 1 with
    | none => none
    | some next =>
      some { v with
        balance := v.balance + value
        lockNonce := next
        locks := v.locks ++ [⟨v.lockNonce, sender, value⟩] }

def reserve (v : PegVault) : ℕ := v.balance

def lock (v : PegVault) (sender : Address) (value : ℕ) : Option PegVault := v.deposit sender value

def receive (v : PegVault) (sender : Address) (value : ℕ) : Option PegVault := v.deposit sender value

/-- `release` up to the payout: the value has left and the recipient's code is about to run. -/
def startRelease (v : PegVault) (sender : Address) (nonce : ℕ) (recipient : Address) (amount : ℕ) : Option PegVault :=
  if v.entered then none
  else if sender ≠ v.operator then none
  else if recipient = zeroAddress then none
  else if v.releasedNonce nonce then none
  else if v.balance < amount then none
  else
    some { v with
      entered := true
      releasedNonce := Function.update v.releasedNonce nonce true
      balance := v.balance - amount }

/-- `release` after a payout that returned. -/
def endRelease (v : PegVault) (nonce : ℕ) (recipient : Address) (amount : ℕ) : PegVault :=
  { v with releases := v.releases ++ [⟨nonce, recipient, amount⟩], entered := false }

mutual

def message (v : PegVault) : Message → PegVault
  | .lock sender value => (v.lock sender value).getD v
  | .receive sender value => (v.receive sender value).getD v
  | .release sender nonce recipient amount inner ok =>
    match v.startRelease sender nonce recipient amount with
    | none => v
    | some paid =>
      -- the vault itself runs `receive` when it is paid
      if recipient = v.self then
        match paid.receive v.self amount with
        | none => v
        | some paid => paid.endRelease nonce recipient amount
      else if ok then (messages paid inner).endRelease nonce recipient amount
      else v

def messages (v : PegVault) : List Message → PegVault
  | [] => v
  | m :: ms => messages (message v m) ms

end

end PegVault

/-! ### Both chains -/

/-- The two contracts, and the mints that took effect. -/
structure Peg where
  token : WrappedLXS
  vault : PegVault
  mints : List Event

inductive Op
  | vault (m : Message)
  | mint (sender : Address) (nonce : ℕ) (recipient : Address) (amount : ℕ)
  | redeem (sender : Address) (amount : ℕ)
  | transfer (sender recipient : Address) (value : ℕ)
  | transferFrom (sender source recipient : Address) (value : ℕ)
  | approve (sender spender : Address) (value : ℕ)

def deploy (self tokenOperator vaultOperator : Address) : Option Peg :=
  if tokenOperator = zeroAddress ∨ vaultOperator = zeroAddress then none
  else
    some {
      token := ⟨tokenOperator, 0, fun _ => 0, fun _ _ => 0, fun _ => false, 0, []⟩
      vault := ⟨self, vaultOperator, false, 0, fun _ => false, 0, [], []⟩
      mints := [] }

namespace Peg

def exec (p : Peg) : Op → Peg
  | .vault m => { p with vault := p.vault.message m }
  | .mint sender nonce recipient amount =>
    match p.token.mint sender nonce recipient amount with
    | none => p
    | some t => { p with token := t, mints := p.mints ++ [⟨nonce, recipient, amount⟩] }
  | .redeem sender amount => { p with token := (p.token.redeem sender amount).getD p.token }
  | .transfer sender recipient value => { p with token := (p.token.transfer sender recipient value).getD p.token }
  | .transferFrom sender source recipient value =>
    { p with token := (p.token.transferFrom sender source recipient value).getD p.token }
  | .approve sender spender value => { p with token := p.token.approve sender spender value }

def Mirrors (p : Peg) : Op → Prop
  | .vault (.release sender nonce recipient amount _ _) =>
    sender = p.vault.operator → ⟨nonce, recipient, amount⟩ ∈ p.token.redeems
  | .mint sender nonce recipient amount => sender = p.token.operator → ⟨nonce, recipient, amount⟩ ∈ p.vault.locks
  | _ => True

instance (p : Peg) : (op : Op) → Decidable (p.Mirrors op)
  | .vault (.release sender nonce recipient amount _ _) =>
    inferInstanceAs (Decidable (sender = p.vault.operator → ⟨nonce, recipient, amount⟩ ∈ p.token.redeems))
  | .mint sender nonce recipient amount =>
    inferInstanceAs (Decidable (sender = p.token.operator → ⟨nonce, recipient, amount⟩ ∈ p.vault.locks))
  | .vault (.lock ..) | .vault (.receive ..) | .redeem .. | .transfer .. | .transferFrom .. | .approve .. => isTrue trivial

/-- The states that transactions of anyone and of such an operator lead to. -/
inductive Reachable : Peg → Prop
  | deploy {p : Peg} (self tokenOperator vaultOperator : Address) :
    deploy self tokenOperator vaultOperator = some p → Reachable p
  | step {p : Peg} (op : Op) : Reachable p → p.Mirrors op → Reachable (p.exec op)

structure Backed (p : Peg) : Prop where
  locks : Numbered Event.nonce p.vault.locks p.token.mintedNonce p.vault.lockNonce
  redeems : Numbered Event.nonce p.token.redeems p.vault.releasedNonce p.token.redeemNonce
  balance : p.vault.balance = p.token.totalSupply + pending Event.nonce Event.amount p.vault.locks p.token.mintedNonce +
    pending Event.nonce Event.amount p.token.redeems p.vault.releasedNonce
  supply : ∑ a, p.token.balanceOf a = p.token.totalSupply
  mints_nodup : (p.mints.map Event.nonce).Nodup
  mints_done : ∀ e ∈ p.mints, e ∈ p.vault.locks ∧ p.token.mintedNonce e.nonce = true
  releases_nodup : (p.vault.releases.map Event.nonce).Nodup
  releases_done : ∀ e ∈ p.vault.releases, e ∈ p.token.redeems ∧ p.vault.releasedNonce e.nonce = true

/-! ### What the vault's messages keep -/

section

variable {p : Peg} {v v' : PegVault} {t t' : WrappedLXS}

theorem update_true_of {done : ℕ → Bool} {n k : ℕ} (h : done k = true) : Function.update done n true k = true := by
  by_cases heq : k = n
  · rw [heq, Function.update_self]
  · rwa [Function.update_of_ne heq]

variable {sender : Address} {value : ℕ}

theorem deposit_eq (h : v.deposit sender value = some v') :
    v' = { v with
      balance := v.balance + value
      lockNonce := v.lockNonce + 1
      locks := v.locks ++ [⟨v.lockNonce, sender, value⟩] } := by
  unfold PegVault.deposit at h
  split_ifs at h
  split at h
  · cases h
  · rename_i next hnext
    cases h
    rw [checkedAdd_some hnext]

theorem Backed.deposit (hp : p.Backed) (h : p.vault.deposit sender value = some v') :
    Backed { p with vault := v' } := by
  rw [deposit_eq h]
  obtain ⟨hlocks, hpending⟩ := hp.locks.send Event.amount (m := ⟨p.vault.lockNonce, sender, value⟩) rfl
  exact {
    locks := hlocks
    redeems := hp.redeems
    balance := by
      have hbalance := hp.balance
      simp only at hpending ⊢
      omega
    supply := hp.supply
    mints_nodup := hp.mints_nodup
    mints_done := fun e he => ⟨List.mem_append_left _ (hp.mints_done e he).1, (hp.mints_done e he).2⟩
    releases_nodup := hp.releases_nodup
    releases_done := hp.releases_done }

variable {sender recipient : Address} {nonce amount : ℕ}

theorem startRelease_some
    (h : v.startRelease sender nonce recipient amount = some v') :
    v.entered = false ∧ sender = v.operator ∧ v.releasedNonce nonce = false ∧ amount ≤ v.balance ∧
      v' = { v with
        entered := true
        releasedNonce := Function.update v.releasedNonce nonce true
        balance := v.balance - amount } := by
  unfold PegVault.startRelease at h
  split_ifs at h with hentered hsender _ hnonce hbalance
  cases h
  exact ⟨by simpa using hentered, not_not.1 hsender, by simpa using hnonce, Nat.not_lt.1 hbalance, rfl⟩

/-- What a release has done when its recipient is paid: its event is marked and not yet logged. -/
structure Paid (p : Peg) (e : Event) : Prop where
  backed : p.Backed
  entered : p.vault.entered = true
  emitted : e ∈ p.token.redeems
  marked : p.vault.releasedNonce e.nonce = true
  unlogged : e.nonce ∉ p.vault.releases.map Event.nonce

theorem Backed.startRelease (hp : p.Backed)
    (hmem : ⟨nonce, recipient, amount⟩ ∈ p.token.redeems)
    (h : p.vault.startRelease sender nonce recipient amount = some v') :
    Paid { p with vault := v' } ⟨nonce, recipient, amount⟩ := by
  obtain ⟨-, -, hnew, hle, rfl⟩ := startRelease_some h
  obtain ⟨hredeems, hpending⟩ := hp.redeems.deliver Event.amount hmem hnew
  exact {
    entered := rfl
    emitted := hmem
    marked := Function.update_self ..
    unlogged := by
      intro hlogged
      obtain ⟨e, he, hn⟩ := List.mem_map.1 hlogged
      have hdone := (hp.releases_done e he).2
      rw [hn, hnew] at hdone
      cases hdone
    backed := {
      locks := hp.locks
      redeems := hredeems
      balance := by
        have hbalance := hp.balance
        simp only at hpending ⊢
        omega
      supply := hp.supply
      mints_nodup := hp.mints_nodup
      mints_done := hp.mints_done
      releases_nodup := hp.releases_nodup
      releases_done := fun e he => ⟨(hp.releases_done e he).1, update_true_of (hp.releases_done e he).2⟩ } }

variable {e : Event}

theorem Paid.deposit (hp : p.Paid e)
    (h : p.vault.deposit sender value = some v') : Paid { p with vault := v' } e := by
  have hbacked := hp.backed.deposit h
  obtain rfl := deposit_eq h
  exact ⟨hbacked, hp.entered, hp.emitted, hp.marked, hp.unlogged⟩

/-- During a payout the guard refuses every release, so a message can only deposit. -/
theorem Paid.message (hp : p.Paid e) (m : Message) : Paid { p with vault := p.vault.message m } e := by
  have hdeposit : ∀ sender value, Paid { p with vault := (p.vault.deposit sender value).getD p.vault } e := by
    intro sender value
    cases h : p.vault.deposit sender value with
    | none => exact hp
    | some v' => exact hp.deposit h
  cases m with
  | lock sender value => exact hdeposit sender value
  | receive sender value => exact hdeposit sender value
  | release sender nonce recipient amount inner ok =>
    have hnone : p.vault.startRelease sender nonce recipient amount = none := by
      rw [PegVault.startRelease, if_pos hp.entered]
    rw [PegVault.message, hnone]
    exact hp

theorem Paid.messages (ms : List Message) : ∀ {p : Peg}, p.Paid e →
    Paid { p with vault := p.vault.messages ms } e := by
  induction ms with
  | nil =>
    intro p hp
    rw [PegVault.messages]
    exact hp
  | cons m ms ih =>
    intro p hp
    rw [PegVault.messages]
    exact ih (hp.message m)

theorem Paid.endRelease {recipient : Address} (hp : p.Paid ⟨nonce, recipient, amount⟩) :
    Backed { p with vault := p.vault.endRelease nonce recipient amount } where
  locks := hp.backed.locks
  redeems := hp.backed.redeems
  balance := hp.backed.balance
  supply := hp.backed.supply
  mints_nodup := hp.backed.mints_nodup
  mints_done := hp.backed.mints_done
  releases_nodup := by
    simp only [PegVault.endRelease, List.map_append, List.map_singleton]
    exact List.nodup_append.2 ⟨hp.backed.releases_nodup, List.nodup_singleton _, fun n hn k hk heq =>
      hp.unlogged (by rwa [heq, List.mem_singleton.1 hk] at hn)⟩
  releases_done := by
    intro e he
    rcases List.mem_append.1 he with he | he
    · exact hp.backed.releases_done e he
    · rw [List.mem_singleton.1 he]
      exact ⟨hp.emitted, hp.marked⟩

theorem Backed.vault (hp : p.Backed) (m : Message) (hm : p.Mirrors (.vault m)) : Backed (p.exec (.vault m)) := by
  have hdeposit : ∀ sender value, Backed { p with vault := (p.vault.deposit sender value).getD p.vault } := by
    intro sender value
    cases h : p.vault.deposit sender value with
    | none => exact hp
    | some v' => exact hp.deposit h
  cases m with
  | lock sender value => exact hdeposit sender value
  | receive sender value => exact hdeposit sender value
  | release sender nonce recipient amount inner ok =>
    rw [exec, PegVault.message]
    cases hstart : p.vault.startRelease sender nonce recipient amount with
    | none => exact hp
    | some v' =>
      have hpaid := hp.startRelease (hm (startRelease_some hstart).2.1) hstart
      dsimp only
      split_ifs
      · -- the vault pays itself
        cases hself : v'.receive p.vault.self amount with
        | none => exact hp
        | some v'' => exact (hpaid.deposit hself).endRelease
      · exact (hpaid.messages inner).endRelease
      · exact hp

/-! ### What the token's calls keep -/

theorem mint_some (h : t.mint sender nonce recipient amount = some t') :
    sender = t.operator ∧ t.mintedNonce nonce = false ∧
      t' = { t with
        mintedNonce := Function.update t.mintedNonce nonce true
        totalSupply := t.totalSupply + amount
        balanceOf := Function.update t.balanceOf recipient (t.balanceOf recipient + amount) } := by
  unfold WrappedLXS.mint at h
  split_ifs at h with hsender _ hnonce
  split at h
  · rename_i supply bal hsupply hbal
    cases h
    rw [checkedAdd_some hsupply, checkedAdd_some hbal]
    exact ⟨not_not.1 hsender, by simpa using hnonce, rfl⟩
  · cases h

/-- **A mint** of a pending lock moves its amount into the supply. -/
theorem Backed.mint (hp : p.Backed)
    (hm : p.Mirrors (.mint sender nonce recipient amount)) : Backed (p.exec (.mint sender nonce recipient amount)) := by
  rw [exec]
  cases hmint : p.token.mint sender nonce recipient amount with
  | none => exact hp
  | some t' =>
    obtain ⟨hsender, hnew, rfl⟩ := mint_some hmint
    have hmem := hm hsender
    obtain ⟨hlocks, hpending⟩ := hp.locks.deliver Event.amount hmem hnew
    have hsum := sum_update p.token.balanceOf recipient (p.token.balanceOf recipient + amount)
    have hbalance := hp.balance
    have hsupply := hp.supply
    simp only at hpending
    exact {
      locks := hlocks
      redeems := hp.redeems
      balance := by
        simp only
        omega
      supply := by
        simp only
        omega
      mints_nodup := by
        simp only [List.map_append, List.map_singleton]
        refine List.nodup_append.2 ⟨hp.mints_nodup, List.nodup_singleton _, fun n hn k hk heq => ?_⟩
        obtain ⟨e, he, rfl⟩ := List.mem_map.1 hn
        have hdone := (hp.mints_done e he).2
        rw [heq, List.mem_singleton.1 hk, hnew] at hdone
        cases hdone
      mints_done := by
        intro e he
        rcases List.mem_append.1 he with he | he
        · exact ⟨(hp.mints_done e he).1, update_true_of (hp.mints_done e he).2⟩
        · rw [List.mem_singleton.1 he]
          exact ⟨hmem, Function.update_self ..⟩
      releases_nodup := hp.releases_nodup
      releases_done := hp.releases_done }

theorem redeem_some {amount : ℕ} (h : t.redeem sender amount = some t') :
    ∃ rest supply, rest + amount = t.balanceOf sender ∧ supply + amount = t.totalSupply ∧
      t' = { t with
        balanceOf := Function.update t.balanceOf sender rest
        totalSupply := supply
        redeemNonce := t.redeemNonce + 1
        redeems := t.redeems ++ [⟨t.redeemNonce, sender, amount⟩] } := by
  unfold WrappedLXS.redeem at h
  dsimp only at h
  split_ifs at h
  split at h
  · rename_i rest supply next hrest hsupply hnext
    cases h
    rw [checkedAdd_some hnext]
    exact ⟨rest, supply, checkedSub_some hrest, checkedSub_some hsupply, rfl⟩
  · cases h

/-- **A redeem** moves its amount from the supply to what waits for a release. -/
theorem Backed.redeem (hp : p.Backed) (sender : Address) (amount : ℕ) : Backed (p.exec (.redeem sender amount)) := by
  rw [exec]
  cases hredeem : p.token.redeem sender amount with
  | none => exact hp
  | some t' =>
    obtain ⟨rest, supply, hrest, hburn, rfl⟩ := redeem_some hredeem
    obtain ⟨hredeems, hpending⟩ := hp.redeems.send Event.amount (m := ⟨p.token.redeemNonce, sender, amount⟩) rfl
    have hsum := sum_update p.token.balanceOf sender rest
    have hbalance := hp.balance
    have hsupply := hp.supply
    simp only at hpending
    exact {
      locks := hp.locks
      redeems := hredeems
      balance := by
        simp only [Option.getD_some]
        omega
      supply := by
        simp only [Option.getD_some]
        omega
      mints_nodup := hp.mints_nodup
      mints_done := hp.mints_done
      releases_nodup := hp.releases_nodup
      releases_done := fun e he => ⟨List.mem_append_left _ (hp.releases_done e he).1, (hp.releases_done e he).2⟩ }

/-- Both calls that move tokens keep everything but balances and allowances, and the sum of the balances. -/
structure Moved (t t' : WrappedLXS) : Prop where
  rest : t' = { t with balanceOf := t'.balanceOf, allowance := t'.allowance }
  sum : ∑ a, t'.balanceOf a = ∑ a, t.balanceOf a

theorem moved_move {source recipient : Address} (h : t.move source recipient value = some t') : Moved t t' := by
  unfold WrappedLXS.move at h
  dsimp only at h
  split_ifs at h
  split at h
  · cases h
  rename_i rest hrest
  split at h
  · cases h
  rename_i bal hbal
  cases h
  have htake := sum_update t.balanceOf source rest
  have hgive := sum_update (Function.update t.balanceOf source rest) recipient bal
  have hbal := checkedAdd_some hbal
  have hrest := checkedSub_some hrest
  refine ⟨rfl, ?_⟩
  dsimp only
  omega

theorem moved_transferFrom {sender source recipient : Address}
    (h : t.transferFrom sender source recipient value = some t') : Moved t t' := by
  unfold WrappedLXS.transferFrom at h
  dsimp only at h
  split_ifs at h
  · have hmoved := moved_move h
    exact ⟨hmoved.rest, hmoved.sum⟩
  · exact moved_move h

theorem Backed.move (hp : p.Backed) {t' : WrappedLXS} (h : Moved p.token t') : Backed { p with token := t' } := by
  obtain ⟨hrest, hsum⟩ := h
  rw [hrest]
  exact ⟨hp.locks, hp.redeems, hp.balance, hsum.trans hp.supply, hp.mints_nodup, hp.mints_done, hp.releases_nodup,
    hp.releases_done⟩

/-! ### Every run -/

theorem Backed.exec (hp : p.Backed) {op : Op} (hop : p.Mirrors op) : Backed (p.exec op) := by
  have hmove : ∀ {r : Option WrappedLXS}, (∀ t', r = some t' → Moved p.token t') →
      Backed { p with token := r.getD p.token } := by
    intro r hr
    cases r with
    | none => exact hp
    | some t' => exact hp.move (hr t' rfl)
  cases op with
  | vault m => exact hp.vault m hop
  | mint sender nonce recipient amount => exact hp.mint hop
  | redeem sender amount => exact hp.redeem sender amount
  | transfer sender recipient value => exact hmove fun _ h => moved_move h
  | transferFrom sender source recipient value => exact hmove fun _ h => moved_transferFrom h
  | approve sender spender value => exact hp.move ⟨rfl, rfl⟩

theorem backed_deploy {self tokenOperator vaultOperator : Address}
    (h : Contracts.deploy self tokenOperator vaultOperator = some p) : Backed p := by
  unfold Contracts.deploy at h
  split_ifs at h
  cases h
  exact ⟨numbered_nil, numbered_nil, rfl, Finset.sum_const_zero, List.nodup_nil, (fun _ he => by cases he), List.nodup_nil,
    fun _ he => by cases he⟩

theorem Reachable.backed (h : p.Reachable) : p.Backed := by
  induction h with
  | deploy self tokenOperator vaultOperator h => exact backed_deploy h
  | step op _ hop ih => exact ih.exec hop

/-- **The peg stays backed**, between transactions and in the middle of a payout. -/
theorem peg_backed (h : p.Reachable) :
    p.Backed ∧ p.token.totalSupply ≤ p.vault.reserve ∧
      ∀ (sender recipient : Address) (nonce amount : ℕ) (inner : List Message) (ok : Bool) (paid : PegVault),
        p.Mirrors (.vault (.release sender nonce recipient amount inner ok)) →
        p.vault.startRelease sender nonce recipient amount = some paid →
        Backed { p with vault := paid.messages inner } ∧ p.token.totalSupply ≤ (paid.messages inner).reserve := by
  have hreserve : ∀ {q : Peg}, q.Backed → q.token.totalSupply ≤ q.vault.reserve := by
    intro q hq
    have := hq.balance
    unfold PegVault.reserve
    omega
  refine ⟨h.backed, hreserve h.backed, ?_⟩
  intro sender recipient nonce amount inner ok paid hop hstart
  have hpaid := h.backed.startRelease (hop (startRelease_some hstart).2.1) hstart
  have hmid := (hpaid.messages inner).backed
  exact ⟨hmid, hreserve hmid⟩

def freshPeg : Peg := (Contracts.deploy 99 1 2).get rfl

/-- After two locks, the mint of one, and the redeem of a part of it. -/
def samplePeg : Peg :=
  (((freshPeg.exec (.vault (.lock 7 10))).exec (.vault (.receive 8 5))).exec (.mint 1 0 7 10)).exec (.redeem 7 4)

/-- The recipient of a release of 4 locks 3 again and asks for a second release while it is paid. -/
theorem peg_backed_sample :
    (samplePeg.Backed ∧ samplePeg.vault.reserve = 15 ∧ samplePeg.token.totalSupply = 6) ∧
      ∃ paid, samplePeg.vault.startRelease 2 0 7 4 = some paid ∧
        (paid.messages [.lock 7 3, .release 2 0 7 4 [] true]).reserve = 14 ∧
        Backed { samplePeg with vault := paid.messages [.lock 7 3, .release 2 0 7 4 [] true] } := by
  have hlocked := Reachable.step (.vault (.receive 8 5)) (.step (.vault (.lock 7 10)) (.deploy 99 1 2 rfl) trivial) trivial
  have hminted := Reachable.step (.mint 1 0 7 10) hlocked (by decide)
  have hreach : samplePeg.Reachable := .step (.redeem 7 4) hminted trivial
  obtain ⟨hbacked, -, hmid⟩ := peg_backed hreach
  refine ⟨⟨hbacked, by decide, by decide⟩, _, rfl, by decide, ?_⟩
  exact (hmid 2 7 0 4 _ true _ (by decide) rfl).1

end

end Peg

end Lxs.Contracts
