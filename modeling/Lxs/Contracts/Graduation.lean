import Lxs.Contracts.Peg

/-!
# Graduations to the other chain

`GraduationVault` of `Graduation.sol`, and the step of `cmd/graduate` that mints wLXS for a graduation. The peg's relayer and
this one mint the same token, the first against what is locked in the peg's vault and the second against what is locked in
the graduation vault; a redeem is released from the peg's vault alone.

* `Bridge.Accounted`: what the peg's vault holds, with the wLXS minted for graduations on the other side of the equation.
* `Bridge.redeemable_iff`: **when every wLXS can be redeemed**.
-/

namespace Lxs.Contracts

open Lib Lib.Outbox

/-! ### The graduation vault -/

structure Graduated where
  nonce : ℕ
  coin : Address
  source : Address
  lxsAmount : ℕ
  tokenAmount : ℕ
  deriving DecidableEq

structure GraduationVault where
  operator : Address
  minLiquidity : ℕ
  entered : Bool
  gradNonce : ℕ
  /-- `address(this).balance` -/
  balance : ℕ
  /-- the `Graduated` events -/
  graduations : List Graduated

/-- The coin is any contract: `pulled` is whether its `transferFrom` returned true. The guard refuses what its code sends
to the vault in the meantime. -/
def GraduationVault.graduate (v : GraduationVault) (sender : Address) (value : ℕ) (coin : Address) (tokenAmount : ℕ)
    (pulled : Bool) : Option GraduationVault :=
  if v.entered then none
  else if value < v.minLiquidity then none
  else if tokenAmount = 0 then none
  else if coin = zeroAddress then none
  else if !pulled then none
  else
    match checkedAdd v.gradNonce 1 with
    | none => none
    | some next =>
      some { v with
        balance := v.balance + value
        gradNonce := next
        graduations := v.graduations ++ [⟨v.gradNonce, coin, sender, value, tokenAmount⟩] }

/-- A graduation's mint is numbered apart from the locks of the peg. -/
def gradWlxsMintNonce (gradNonce : ℕ) : ℕ := 2 ^ 192 + gradNonce

/-! ### Both relayers -/

/-- The peg, the graduation vault, and the mints for graduations that took effect. -/
structure Bridge where
  peg : Peg
  grad : GraduationVault
  gradMints : List Graduated

namespace Bridge

inductive Op
  | peg (op : Contracts.Op)
  | graduate (sender : Address) (value : ℕ) (coin : Address) (tokenAmount : ℕ) (pulled : Bool)
  | gradMint (g : Graduated)

def exec (b : Bridge) : Op → Bridge
  | .peg op => { b with peg := b.peg.exec op }
  | .graduate sender value coin tokenAmount pulled =>
    { b with grad := (b.grad.graduate sender value coin tokenAmount pulled).getD b.grad }
  | .gradMint g =>
    -- the operator mints to itself, to seed the pool
    match b.peg.token.mint b.peg.token.operator (gradWlxsMintNonce g.nonce) b.peg.token.operator g.lxsAmount with
    | none => b
    | some t => { b with peg := { b.peg with token := t }, gradMints := b.gradMints ++ [g] }

def Mirrors (b : Bridge) : Op → Prop
  | .peg op => b.peg.Mirrors op
  | .gradMint g => g ∈ b.grad.graduations
  | .graduate .. => True

instance (b : Bridge) : (op : Op) → Decidable (b.Mirrors op)
  | .peg op => inferInstanceAs (Decidable (b.peg.Mirrors op))
  | .gradMint g => inferInstanceAs (Decidable (g ∈ b.grad.graduations))
  | .graduate .. => isTrue trivial

def deploy (self tokenOperator vaultOperator gradOperator : Address) (minLiquidity : ℕ) : Option Bridge :=
  if gradOperator = zeroAddress ∨ minLiquidity = 0 then none
  else
    (Contracts.deploy self tokenOperator vaultOperator).map fun p => ⟨p, ⟨gradOperator, minLiquidity, false, 0, 0, []⟩, []⟩

inductive Reachable : Bridge → Prop
  | deploy {b : Bridge} (self tokenOperator vaultOperator gradOperator : Address) (minLiquidity : ℕ) :
    deploy self tokenOperator vaultOperator gradOperator minLiquidity = some b → Reachable b
  | step {b : Bridge} (op : Op) : Reachable b → b.Mirrors op → Reachable (b.exec op)

/-! ### The account -/

/-- The locks that the peg's relayer has minted. A nonce may also be marked by the other relayer. -/
def relayed (b : Bridge) (n : ℕ) : Bool := n ∈ b.peg.mints.map Event.nonce

def unminted (b : Bridge) : ℕ := pending Event.nonce Event.amount b.peg.vault.locks b.relayed

def unreleased (b : Bridge) : ℕ := pending Event.nonce Event.amount b.peg.token.redeems b.peg.vault.releasedNonce

def graduated (b : Bridge) : ℕ := (b.gradMints.map Graduated.lxsAmount).sum

structure Accounted (b : Bridge) : Prop where
  locks : Numbered Event.nonce b.peg.vault.locks b.relayed b.peg.vault.lockNonce
  redeems : Numbered Event.nonce b.peg.token.redeems b.peg.vault.releasedNonce b.peg.token.redeemNonce
  marked : ∀ n, b.relayed n = true → b.peg.token.mintedNonce n = true
  balance : b.peg.vault.balance + b.graduated = b.peg.token.totalSupply + b.unminted + b.unreleased

end Bridge

/-! ### What a message to the peg's vault can do -/

section Messages

variable {I : PegVault → Prop} {v : PegVault} {m : Message}

theorem messages_of_entered (hdeposit : ∀ v v' sender value, I v → v.deposit sender value = some v' → I v')
    (ms : List Message) : ∀ v : PegVault, v.entered = true → I v → I (v.messages ms) := by
  have hgetD : ∀ (v : PegVault) (sender : Address) (value : ℕ), v.entered = true → I v →
      ((v.deposit sender value).getD v).entered = true ∧ I ((v.deposit sender value).getD v) := by
    intro v sender value hentered hv
    cases h : v.deposit sender value with
    | none => exact ⟨hentered, hv⟩
    | some v' =>
      refine ⟨?_, hdeposit v v' sender value hv h⟩
      rw [Option.getD_some, Peg.deposit_eq h]
      exact hentered
  induction ms with
  | nil =>
    intro v _ hv
    rw [PegVault.messages]
    exact hv
  | cons m ms ih =>
    intro v hentered hv
    rw [PegVault.messages]
    cases m with
    | lock sender value =>
      obtain ⟨he, hi⟩ := hgetD v sender value hentered hv
      exact ih _ he hi
    | receive sender value =>
      obtain ⟨he, hi⟩ := hgetD v sender value hentered hv
      exact ih _ he hi
    | release sender nonce recipient amount inner ok =>
      have hnone : v.startRelease sender nonce recipient amount = none := by
        rw [PegVault.startRelease, if_pos hentered]
      rw [PegVault.message, hnone]
      exact ih v hentered hv

/-- **A message deposits, or releases and deposits while it pays**: what both keep, a message keeps. -/
theorem message_keeps (hdeposit : ∀ v v' sender value, I v → v.deposit sender value = some v' → I v')
    (hrelease : ∀ v' sender nonce recipient amount inner ok, m = Message.release sender nonce recipient amount inner ok →
      v.startRelease sender nonce recipient amount = some v' → I v')
    (hlog : ∀ v nonce recipient amount, I v → I (v.endRelease nonce recipient amount)) (hv : I v) : I (v.message m) := by
  have hgetD : ∀ (sender : Address) (value : ℕ), I ((v.deposit sender value).getD v) := by
    intro sender value
    cases h : v.deposit sender value with
    | none => exact hv
    | some v' => exact hdeposit v v' sender value hv h
  cases m with
  | lock sender value => exact hgetD sender value
  | receive sender value => exact hgetD sender value
  | release sender nonce recipient amount inner ok =>
    rw [PegVault.message]
    cases hstart : v.startRelease sender nonce recipient amount with
    | none => exact hv
    | some v' =>
      have hpaid : I v' := hrelease v' sender nonce recipient amount inner ok rfl hstart
      have hentered : v'.entered = true := by
        obtain ⟨-, -, -, -, rfl⟩ := Peg.startRelease_some hstart
        rfl
      dsimp only
      split_ifs
      · cases hself : v'.receive v.self amount with
        | none => exact hv
        | some v'' => exact hlog _ _ _ _ (hdeposit _ _ _ _ hpaid hself)
      · exact hlog _ _ _ _ (messages_of_entered hdeposit inner v' hentered hpaid)
      · exact hv

end Messages

namespace Bridge

variable {b : Bridge}

/-! ### What the transactions keep -/

theorem Accounted.message (hb : b.Accounted) {m : Message} (hm : b.peg.Mirrors (.vault m)) :
    Accounted { b with peg := { b.peg with vault := b.peg.vault.message m } } := by
  refine message_keeps (I := fun v => Accounted { b with peg := { b.peg with vault := v } }) ?_ ?_ ?_ hb
  · intro v v' sender value hv h
    obtain rfl := Peg.deposit_eq h
    obtain ⟨hlocks, hpending⟩ := hv.locks.send Event.amount (m := ⟨v.lockNonce, sender, value⟩) rfl
    refine ⟨hlocks, hv.redeems, hv.marked, ?_⟩
    have hbalance : v.balance + b.graduated = b.peg.token.totalSupply + pending Event.nonce Event.amount v.locks b.relayed +
      pending Event.nonce Event.amount b.peg.token.redeems v.releasedNonce := hv.balance
    have hpending : pending Event.nonce Event.amount (v.locks ++ [⟨v.lockNonce, sender, value⟩]) b.relayed =
      pending Event.nonce Event.amount v.locks b.relayed + value := hpending
    show v.balance + value + b.graduated = b.peg.token.totalSupply +
      pending Event.nonce Event.amount (v.locks ++ [⟨v.lockNonce, sender, value⟩]) b.relayed + _
    rw [hpending]
    show _ = _ + pending Event.nonce Event.amount b.peg.token.redeems v.releasedNonce
    omega
  · rintro v' sender nonce recipient amount inner ok rfl h
    obtain ⟨-, hsender, hnew, hle, rfl⟩ := Peg.startRelease_some h
    obtain ⟨hredeems, hpending⟩ := hb.redeems.deliver Event.amount (hm hsender) hnew
    refine ⟨hb.locks, hredeems, hb.marked, ?_⟩
    have hbalance := hb.balance
    simp only [unreleased] at hbalance hpending ⊢
    show b.peg.vault.balance - amount + b.graduated = b.peg.token.totalSupply + b.unminted + _
    omega
  · exact fun v nonce recipient amount hv => ⟨hv.locks, hv.redeems, hv.marked, hv.balance⟩

theorem relayed_mint (e : Event) (t : WrappedLXS) :
    relayed { b with peg := { b.peg with token := t, mints := b.peg.mints ++ [e] } } =
      Function.update b.relayed e.nonce true := by
  funext n
  by_cases hn : n = e.nonce
  · rw [hn, Function.update_self]
    simp [relayed]
  · rw [Function.update_of_ne hn]
    simp [relayed, hn]

/-- **A mint by the peg's relayer** moves the amount of a pending lock into the supply. -/
theorem Accounted.mint (hb : b.Accounted) {sender recipient : Address} {nonce amount : ℕ}
    (hm : b.peg.Mirrors (.mint sender nonce recipient amount)) :
    Accounted { b with peg := b.peg.exec (.mint sender nonce recipient amount) } := by
  rw [Peg.exec]
  cases hmint : b.peg.token.mint sender nonce recipient amount with
  | none => exact hb
  | some t' =>
    obtain ⟨hsender, hnew, rfl⟩ := Peg.mint_some hmint
    have hfresh : b.relayed nonce = false := by
      cases h : b.relayed nonce with
      | false => rfl
      | true =>
        have := hb.marked nonce h
        rw [hnew] at this
        cases this
    obtain ⟨hlocks, hpending⟩ := hb.locks.deliver Event.amount (hm hsender) hfresh
    have hbalance := hb.balance
    refine ⟨?_, hb.redeems, ?_, ?_⟩
    · rw [relayed_mint]
      exact hlocks
    · rw [relayed_mint]
      intro n hn
      show Function.update b.peg.token.mintedNonce nonce true n = true
      by_cases heq : n = nonce
      · rw [heq, Function.update_self]
      · rw [Function.update_of_ne heq] at hn ⊢
        exact hb.marked n hn
    · simp only [unminted, relayed_mint, unreleased, graduated] at hbalance hpending ⊢
      omega

/-- **A mint for a graduation** adds to the supply, with nothing added to the peg's vault. -/
theorem Accounted.gradMint (hb : b.Accounted) (g : Graduated) : Accounted (b.exec (.gradMint g)) := by
  rw [exec]
  cases hmint : b.peg.token.mint b.peg.token.operator (gradWlxsMintNonce g.nonce) b.peg.token.operator g.lxsAmount with
  | none => exact hb
  | some t' =>
    obtain ⟨-, -, rfl⟩ := Peg.mint_some hmint
    refine ⟨hb.locks, hb.redeems, fun n hn => Peg.update_true_of (hb.marked n hn), ?_⟩
    have hbalance := hb.balance
    simp only [unminted, unreleased, graduated, List.map_append, List.map_singleton, List.sum_append,
      List.sum_singleton] at hbalance ⊢
    show _ = b.peg.token.totalSupply + g.lxsAmount + pending _ _ _ b.relayed + _
    omega

theorem Accounted.redeem (hb : b.Accounted) (sender : Address) (amount : ℕ) :
    Accounted { b with peg := b.peg.exec (.redeem sender amount) } := by
  rw [Peg.exec]
  cases hredeem : b.peg.token.redeem sender amount with
  | none => exact hb
  | some t' =>
    obtain ⟨rest, supply, -, hburn, rfl⟩ := Peg.redeem_some hredeem
    obtain ⟨hredeems, hpending⟩ := hb.redeems.send Event.amount (m := ⟨b.peg.token.redeemNonce, sender, amount⟩) rfl
    refine ⟨hb.locks, hredeems, hb.marked, ?_⟩
    have hbalance := hb.balance
    simp only [unreleased] at hbalance hpending
    show _ + b.graduated = supply + b.unminted + pending _ _ (b.peg.token.redeems ++ [_]) _
    rw [hpending]
    show b.peg.vault.balance + _ = _
    omega

theorem Accounted.moved (hb : b.Accounted) {t : WrappedLXS} (h : Peg.Moved b.peg.token t) :
    Accounted { b with peg := { b.peg with token := t } } := by
  rw [h.rest]
  exact ⟨hb.locks, hb.redeems, hb.marked, hb.balance⟩

theorem Accounted.exec (hb : b.Accounted) {op : Op} (hop : b.Mirrors op) : Accounted (b.exec op) := by
  have hmove : ∀ {r : Option WrappedLXS}, (∀ t', r = some t' → Peg.Moved b.peg.token t') →
      Accounted { b with peg := { b.peg with token := r.getD b.peg.token } } := by
    intro r hr
    cases r with
    | none => exact hb
    | some t' => exact hb.moved (hr t' rfl)
  cases op with
  | graduate sender value coin tokenAmount pulled => exact ⟨hb.locks, hb.redeems, hb.marked, hb.balance⟩
  | gradMint g => exact hb.gradMint g
  | peg op =>
    cases op with
    | vault m => exact hb.message hop
    | mint sender nonce recipient amount => exact hb.mint hop
    | redeem sender amount => exact hb.redeem sender amount
    | transfer sender recipient value => exact hmove fun _ h => Peg.moved_move h
    | transferFrom sender source recipient value => exact hmove fun _ h => Peg.moved_transferFrom h
    | approve sender spender value => exact hb.moved ⟨rfl, rfl⟩

theorem accounted_deploy {self tokenOperator vaultOperator gradOperator : Address} {minLiquidity : ℕ}
    (h : deploy self tokenOperator vaultOperator gradOperator minLiquidity = some b) : b.Accounted := by
  unfold deploy at h
  split_ifs at h
  obtain ⟨p, hp, rfl⟩ := Option.map_eq_some_iff.1 h
  unfold Contracts.deploy at hp
  split_ifs at hp
  cases hp
  exact ⟨numbered_nil, numbered_nil, (fun _ hn => by cases hn), rfl⟩

theorem Reachable.accounted (h : b.Reachable) : b.Accounted := by
  induction h with
  | deploy self tokenOperator vaultOperator gradOperator minLiquidity h => exact accounted_deploy h
  | step op _ hop ih => exact ih.exec hop

theorem amount_le_unreleased {e : Event} (he : e ∈ b.peg.token.redeems) (hnew : b.peg.vault.releasedNonce e.nonce = false) :
    e.amount ≤ b.unreleased := by
  refine List.single_le_sum (fun _ _ => Nat.zero_le _) _ (List.mem_map_of_mem (List.mem_filter.2 ⟨he, ?_⟩))
  rw [hnew]
  rfl

/-- **When every wLXS can be redeemed.** The peg's vault covers the supply and the redeems that wait exactly as long as no
more wLXS was minted for graduations than is locked in the vault and not minted yet. Then no release of a redeem is over the
reserve. -/
theorem redeemable_iff (h : b.Reachable) :
    (b.peg.token.totalSupply + b.unreleased ≤ b.peg.vault.reserve ↔ b.graduated ≤ b.unminted) ∧
      (b.graduated ≤ b.unminted → ∀ e ∈ b.peg.token.redeems, b.peg.vault.releasedNonce e.nonce = false →
        e.amount ≤ b.peg.vault.reserve) := by
  have hbalance := h.accounted.balance
  have hcovered : b.peg.token.totalSupply + b.unreleased ≤ b.peg.vault.reserve ↔ b.graduated ≤ b.unminted := by
    unfold PegVault.reserve
    omega
  refine ⟨hcovered, fun hle e he hnew => ?_⟩
  have hamount := amount_le_unreleased he hnew
  have hcover := hcovered.2 hle
  omega

/-- A graduation of 5 is minted while a lock of 8 waits for its mint, and 5 of it are redeemed. -/
def sampleOps : List Op :=
  [.peg (.vault (.lock 7 8)), .graduate 6 5 12 1 true, .gradMint ⟨0, 12, 6, 5, 1⟩, .peg (.transfer 1 9 5), .peg (.redeem 9 5)]

def gradOnlyOps : List Op := sampleOps.tail

def start : Bridge :=
  ⟨⟨⟨1, 0, fun _ => 0, fun _ _ => 0, fun _ => false, 0, []⟩, ⟨99, 2, false, 0, fun _ => false, 0, [], []⟩, []⟩,
    ⟨1, 1, false, 0, 0, []⟩, []⟩

def MirrorsAll : Bridge → List Op → Prop
  | _, [] => True
  | b, op :: ops => b.Mirrors op ∧ (b.exec op).MirrorsAll ops

instance decidableMirrorsAll : ∀ (ops : List Op) (b : Bridge), Decidable (b.MirrorsAll ops)
  | [], _ => isTrue trivial
  | op :: ops, b => @instDecidableAnd _ _ _ (decidableMirrorsAll ops (b.exec op))

theorem Reachable.foldl {ops : List Op} : ∀ {b : Bridge}, b.Reachable → b.MirrorsAll ops → Reachable (ops.foldl exec b) := by
  induction ops with
  | nil => exact fun h _ => h
  | cons op ops ih => exact fun h hm => ih (h.step op hm.1) hm.2

theorem start_reachable : start.Reachable := .deploy 99 1 2 1 1 rfl

theorem redeemable_iff_sample :
    (sampleOps.foldl exec start).graduated ≤ (sampleOps.foldl exec start).unminted ∧
      (sampleOps.foldl exec start).peg.token.totalSupply + (sampleOps.foldl exec start).unreleased ≤
        (sampleOps.foldl exec start).peg.vault.reserve := by
  have hle : (sampleOps.foldl exec start).graduated ≤ (sampleOps.foldl exec start).unminted := by decide
  exact ⟨hle, (redeemable_iff (start_reachable.foldl (by decide))).1.2 hle⟩

/-- The wLXS of a graduation is redeemed, and the peg's vault has nothing to release: the operator's release of the emitted
event fails, although it was never released. -/
theorem release_over_reserve : ∃ b, Reachable b ∧ (⟨0, 9, 5⟩ : Event) ∈ b.peg.token.redeems ∧
    b.peg.vault.releasedNonce 0 = false ∧ b.peg.vault.entered = false ∧ b.peg.vault.reserve < 5 ∧
    b.peg.vault.startRelease b.peg.vault.operator 0 9 5 = none :=
  ⟨gradOnlyOps.foldl exec start, start_reachable.foldl (by decide), by decide, by decide, by decide, by decide, by decide⟩

end Bridge

end Lxs.Contracts
