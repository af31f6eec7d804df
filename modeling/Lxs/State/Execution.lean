import Lxs.State.Savepoints
import Lxs.Vm.Effects

/-!
# Execution over the world state

The world state as the state of the machine. A revert inside an execution gives back the state in which the
nested frame was entered, so an execution has only the effects of the frames it keeps. What it can do to
balances, code and logs, and that a static frame does nothing, are inductions over those effects.
-/

set_option linter.unusedSectionVars false

namespace Lxs

open Std Vm

instance : StateDB State where
  getStorage := State.getStorage
  setStorage := State.setStorage
  getCode := State.getCode
  setCode := State.setCode
  getNonce := State.nonce
  setNonce := State.setNonce
  getBalance := State.balance
  addBalance := State.credit
  subBalance := State.subBalance
  snapshotId s := s.snapshots.length
  snapshot := State.snapshot
  revertToSnapshot := State.revertToSnapshot
  addLog := State.addLog

namespace State

variable [Crypto] {ok : List Address → Address → Prop} {B : List Address} {ctx : Context} {b s t : State}

/-! ### Reverted frames leave nothing -/

/-- The state `s` extends `b` and journals its writes. -/
def Inside (b s : State) : Prop := b.Extends s ∧ s.snapshots ≠ []

theorem Inside.set (h : b.Inside s) (a : Address) (acc : Account) : b.Inside (s.set a acc) :=
  ⟨h.1.set h.2 a acc, h.2⟩

theorem Inside.credit (h : b.Inside s) (a : Address) (v : ℤ) : b.Inside (s.credit a v) := h.set _ _

theorem Inside.burn (h : b.Inside s) (v : Option ℤ) : b.Inside (s.burn v) :=
  ⟨h.1.burn v, (s.burn_snapshots v).symm ▸ h.2⟩

theorem Inside.bumpNonce (h : b.Inside s) (ctx : Context) : b.Inside (Vm.bumpNonce ctx s) := h.set _ _

theorem Extends.enterCall (h : b.Extends s) (target : Address) (value : ℤ) :
    b.Inside (Vm.enterCall ctx target value s) := by
  have hs : b.Inside s.snapshot := ⟨h.snapshot, by simp [State.snapshot]⟩
  unfold Vm.enterCall Vm.transfer
  split
  · exact (hs.set _ _).set _ _
  · exact hs

theorem snapshot_enterCall (target : Address) (value : ℤ) : s.snapshot.Inside (Vm.enterCall ctx target value s) := by
  have hs : s.snapshot.Inside s.snapshot := ⟨.refl _, by simp [State.snapshot]⟩
  unfold Vm.enterCall Vm.transfer
  split
  · exact (hs.set _ _).set _ _
  · exact hs

theorem effects_inside (h : Effects ok B ctx s t) : ∀ b : State, b.Inside s → b.Inside t := by
  induction h with
  | refl => exact fun _ hb => hb
  | trans _ _ ih₁ ih₂ => exact fun b hb => ih₂ b (ih₁ b hb)
  | sstore key value _ => exact fun b hb => hb.set _ _
  | log l _ => exact fun b hb => ⟨hb.1.addLog l, hb.2⟩
  | call mode target value _ _ ih => exact fun b hb => ih b (hb.1.enterCall target value)
  | @callReverted _ _ s t mode target value _ _ ih =>
    intro b hb
    have hr : t.revertToSnapshot s.snapshots.length = s :=
      revertToSnapshot_of_extends (ih _ (snapshot_enterCall target value)).1
    rwa [← hr] at hb
  | collide _ => exact fun b hb => hb.bumpNonce _
  | @create _ ctx _ _ newAddr value sub code _ _ _ _ _ _ ih =>
    exact fun b hb => (ih b ((hb.bumpNonce ctx).1.enterCall newAddr value)).set _ _
  | @createReverted _ ctx s t newAddr value sub _ _ _ _ ih =>
    intro b hb
    have hr : t.revertToSnapshot (bumpNonce ctx s).snapshots.length = bumpNonce ctx s :=
      revertToSnapshot_of_extends (ih _ (snapshot_enterCall newAddr value)).1
    have hn := hb.bumpNonce ctx
    rwa [← hr] at hn

variable {target : Address} {value : ℤ}

/-- **A frame that is reverted leaves the state as it found it.** -/
theorem revert_effects {sub : Context}
    (h : Effects ok B sub (Vm.enterCall ctx target value s) t) : t.revertToSnapshot s.snapshots.length = s :=
  revertToSnapshot_of_extends (effects_inside h _ (snapshot_enterCall target value)).1

theorem effects_induction {P : List Address → Context → State → State → Prop}
    (refl : ∀ {B ctx s}, P B ctx s s)
    (trans : ∀ {B ctx s t u}, P B ctx s t → P B ctx t u → P B ctx s u)
    (sstore : ∀ {B ctx s} key value, ctx.static = false → P B ctx s (s.setStorage ctx.address key value))
    (log : ∀ {B ctx s} l, ctx.static = false → P B ctx s (s.addLog l))
    (call : ∀ {B ctx s t} mode target value, Funded ctx value s →
      P B (subContext ctx mode target value) (Vm.enterCall ctx target value s) t → P B ctx s t)
    (collide : ∀ {B ctx s}, ctx.static = false → P B ctx s (bumpNonce ctx s))
    (create : ∀ {B ctx s t} newAddr value sub code, ctx.static = false → Funded ctx value s → ok B newAddr →
      (bumpNonce ctx s).getCode newAddr = [] →
      P (newAddr :: B) sub (enterCreate ctx newAddr value s) t → P B ctx s (t.setCode newAddr code))
    (h : Effects ok B ctx s t) : P B ctx s t := by
  induction h with
  | refl => exact refl
  | trans _ _ ih₁ ih₂ => exact trans ih₁ ih₂
  | sstore key value hs => exact sstore key value hs
  | log l hs => exact log l hs
  | call mode target value hf _ ih => exact call mode target value hf ih
  | @callReverted B ctx s t mode target value _ h _ =>
    have hr : P B ctx s s := refl
    nth_rewrite 2 [← revert_effects h] at hr
    exact hr
  | collide hs => exact collide hs
  | create newAddr value sub code hs hf hok _ hc _ ih => exact create newAddr value sub code hs hf hok hc ih
  | @createReverted B ctx s t newAddr value sub hs _ _ h _ =>
    have hr : P B ctx s (bumpNonce ctx s) := collide hs
    rw [← revert_effects h] at hr
    exact hr

/-! ### Static frames -/

/-- The same accounts, logs and burn total. -/
structure SameWorld (s t : State) : Prop where
  accounts : t.accounts = s.accounts
  logs : t.logs = s.logs
  burned : t.burned = s.burned

theorem subContext_static {mode : CallMode} (h : ctx.static = true) :
    (subContext ctx mode target value).static = true := by
  cases mode <;> simp [subContext, h]

theorem enterCall_of_static (h : ctx.static = true) (hf : Funded ctx value s) :
    Vm.enterCall ctx target value s = s.snapshot := by
  unfold Vm.enterCall Vm.transfer
  refine if_neg fun hv => ?_
  have := (hf.2 hv).1
  rw [h] at this
  cases this

theorem effects_static (h : Effects ok B ctx s t) : ctx.static = true → SameWorld s t := by
  refine effects_induction (P := fun _ ctx s t => ctx.static = true → SameWorld s t) ?_ ?_ ?_ ?_ ?_ ?_ ?_ h
  · exact fun _ => ⟨rfl, rfl, rfl⟩
  · intro B ctx s t u h₁ h₂ hs
    obtain ⟨ha, hl, hb⟩ := h₁ hs
    obtain ⟨ha', hl', hb'⟩ := h₂ hs
    exact ⟨ha'.trans ha, hl'.trans hl, hb'.trans hb⟩
  · intro B ctx s key value hf hs
    exact absurd (hf.symm.trans hs) (by decide)
  · intro B ctx s l hf hs
    exact absurd (hf.symm.trans hs) (by decide)
  · intro B ctx s t mode target value hf ih hs
    have hsub := ih (subContext_static hs)
    rw [enterCall_of_static hs hf] at hsub
    exact ⟨hsub.accounts, hsub.logs, hsub.burned⟩
  · intro B ctx s hf hs
    exact absurd (hf.symm.trans hs) (by decide)
  · intro B ctx s t newAddr value sub code hf _ _ _ _ hs
    exact absurd (hf.symm.trans hs) (by decide)

/-! ### Balances -/

def Solvent (s : State) : Prop := ∀ a, 0 ≤ s.balance a

theorem Solvent.credit (h : s.Solvent) {v : ℤ} (hv : 0 ≤ v) (a : Address) : (s.credit a v).Solvent := by
  intro c
  have := h c
  rw [balance_credit]
  split <;> omega

theorem Solvent.burn (h : s.Solvent) (v : Option ℤ) : (s.burn v).Solvent := fun a => by
  rw [balance, get_burn]
  exact h a

/-- Value is neither made nor lost, and nobody goes into debt. -/
structure Conserves (s t : State) : Prop where
  solvent : s.Solvent → t.Solvent
  sum : t.sumBalances = s.sumBalances
  burned : t.burned = s.burned

theorem conserves_set {a : Address} {acc : Account} (h : acc.balance = s.balance a) : Conserves s (s.set a acc) := by
  refine ⟨fun hs c => ?_, ?_, rfl⟩
  · rw [balance, get_set]
    split
    · exact h.symm ▸ hs a
    · exact hs c
  · have := s.sumBalances_set a acc
    omega

theorem Conserves.trans {u : State} (h₁ : Conserves s t) (h₂ : Conserves t u) : Conserves s u :=
  ⟨fun hs => h₂.solvent (h₁.solvent hs), h₂.sum.trans h₁.sum, h₂.burned.trans h₁.burned⟩

theorem Conserves.enterCall (hf : Funded ctx value s) :
    Conserves s (Vm.enterCall ctx target value s) := by
  unfold Vm.enterCall Vm.transfer
  split
  · rename_i hv
    have hle : value ≤ s.balance ctx.address := (hf.2 hv).2
    refine ⟨fun hs c => ?_, ?_, rfl⟩
    · show 0 ≤ ((s.snapshot.subBalance ctx.address value).credit target value).balance c
      rw [balance_credit, balance_subBalance]
      have hc : 0 ≤ s.snapshot.balance c := hs c
      have hne : ctx.address = c → value ≤ s.snapshot.balance c := by rintro rfl; exact hle
      split_ifs with h₁ h₂ h₂
      · have := hne h₁; omega
      · have := hne h₁; omega
      · omega
      · omega
    · show ((s.snapshot.subBalance ctx.address value).credit target value).sumBalances = _
      rw [sumBalances_credit, sumBalances_subBalance]
      exact Int.sub_add_cancel _ _
  · exact ⟨id, rfl, rfl⟩

theorem effects_conserves (h : Effects ok B ctx s t) : Conserves s t := by
  refine effects_induction (P := fun _ _ s t => Conserves s t) ?_ ?_ ?_ ?_ ?_ ?_ ?_ h
  · exact ⟨id, rfl, rfl⟩
  · exact fun h₁ h₂ => h₁.trans h₂
  · exact fun key value _ => conserves_set rfl
  · exact fun l _ => ⟨id, rfl, rfl⟩
  · exact fun mode target value hf ih => (Conserves.enterCall hf).trans ih
  · exact fun _ => conserves_set rfl
  · intro B ctx s t newAddr value sub code _ hf _ _ ih
    have hn : Conserves s (bumpNonce ctx s) := conserves_set rfl
    have hf' : Funded ctx value (bumpNonce ctx s) := by
      refine ⟨hf.1, fun hv => ⟨(hf.2 hv).1, (hf.2 hv).2.trans_eq ?_⟩⟩
      show s.balance ctx.address = (s.setNonce ctx.address _).balance ctx.address
      rw [balance, balance, get_setNonce, if_pos rfl]
    exact ((hn.trans (Conserves.enterCall hf')).trans ih).trans (conserves_set rfl)

/-! ### Touched accounts -/

/-- Every account written on the way from `s` to `t` is touched in `t`, and nothing is unburned. -/
structure Writes (s t : State) : Prop where
  touched : ∀ a, a ∈ s.touched → a ∈ t.touched
  same : ∀ a, a ∉ t.touched → t.get a = s.get a
  burned : s.burned ≤ t.burned

namespace Writes

theorem refl (s : State) : Writes s s := ⟨fun _ => id, fun _ _ => rfl, le_rfl⟩

theorem trans {u : State} (h₁ : Writes s t) (h₂ : Writes t u) : Writes s u := by
  refine ⟨fun a ha => h₂.touched a (h₁.touched a ha), fun a ha => ?_, h₁.burned.trans h₂.burned⟩
  exact (h₂.same a ha).trans (h₁.same a fun hm => ha (h₂.touched a hm))

theorem set (h : Writes s t) (a : Address) (acc : Account) : Writes s (t.set a acc) := by
  refine h.trans ⟨fun c hc => ?_, fun c hc => ?_, le_rfl⟩
  · rw [set_touched, ExtTreeSet.mem_insert]
    exact .inr hc
  · rw [set_touched, ExtTreeSet.mem_insert, not_or] at hc
    exact get_set_ne _ _ _ fun hac => hc.1 (LawfulEqCmp.compare_eq_iff_eq.2 hac)

theorem credit (h : Writes s t) (a : Address) (v : ℤ) : Writes s (t.credit a v) := h.set _ _

theorem burn (h : Writes s t) (v : Option ℤ) : Writes s (t.burn v) := by
  cases v with
  | none => exact h
  | some v =>
    unfold State.burn
    dsimp only
    split
    · exact h
    · rename_i hv
      exact h.trans ⟨fun _ => id, fun _ _ => rfl, by show t.burned ≤ t.burned + v; omega⟩

theorem snapshot (h : Writes s t) : Writes s t.snapshot := ⟨h.touched, h.same, h.burned⟩

theorem discardSnapshots (h : Writes s t) : Writes s t.discardSnapshots := ⟨h.touched, h.same, h.burned⟩

theorem enterCall (h : Writes s t) (target : Address) (value : ℤ) : Writes s (Vm.enterCall ctx target value t) := by
  unfold Vm.enterCall Vm.transfer
  split
  · exact (h.snapshot.set _ _).set _ _
  · exact h.snapshot

end Writes

theorem effects_writes (h : Effects ok B ctx s t) : Writes s t := by
  refine effects_induction (P := fun _ _ s t => Writes s t) ?_ ?_ ?_ ?_ ?_ ?_ ?_ h
  · exact Writes.refl _
  · exact fun h₁ h₂ => h₁.trans h₂
  · exact fun key value _ => (Writes.refl _).set _ _
  · exact fun l _ => ⟨fun _ => id, fun _ _ => rfl, le_rfl⟩
  · exact fun mode target value _ ih => ((Writes.refl _).enterCall target value).trans ih
  · exact fun _ => (Writes.refl _).set _ _
  · intro B ctx s t newAddr value sub code _ _ _ _ ih
    exact ((((Writes.refl s).set _ _).enterCall newAddr value).trans ih).set _ _

/-! ### Code -/

theorem getCode_update {f : Account → Account} (hf : ∀ acc, (f acc).code = acc.code) (a c : Address) :
    (s.update a f).getCode c = s.getCode c := by
  rw [getCode, get_update]
  split
  · exact hf _
  · rfl

theorem getCode_setStorage (a c : Address) (key value : Hash) :
    (s.setStorage a key value).getCode c = s.getCode c := by
  unfold setStorage
  exact getCode_update (by intro; rfl) a c

theorem getCode_bumpNonce (a : Address) : (bumpNonce ctx s).getCode a = s.getCode a := by
  show (s.setNonce ctx.address _).getCode a = _
  unfold setNonce
  exact getCode_update (by intro; rfl) _ a

theorem getCode_enterCall (target : Address) (value : ℤ) (a : Address) :
    (Vm.enterCall ctx target value s).getCode a = s.getCode a := by
  unfold Vm.enterCall Vm.transfer
  split
  · show ((s.snapshot.subBalance ctx.address value).credit target value).getCode a = _
    unfold credit subBalance
    exact (getCode_update (by intro; rfl) target a).trans (getCode_update (by intro; rfl) ctx.address a)
  · rfl

theorem getCode_setCode_ne {a c : Address} (h : a ≠ c) (code : Bytes) : (s.setCode a code).getCode c = s.getCode c := by
  rw [getCode, get_setCode, if_neg h, getCode]

/-- A creation does not start at an address whose own creation is still running around it. -/
def NotRunning (B : List Address) (a : Address) : Prop := a ∉ B

theorem effects_code (h : Effects NotRunning B ctx s t) :
    ∀ a, a ∈ B ∨ s.getCode a ≠ [] → t.getCode a = s.getCode a := by
  refine effects_induction
    (P := fun B _ s t => ∀ a, a ∈ B ∨ s.getCode a ≠ [] → t.getCode a = s.getCode a) ?_ ?_ ?_ ?_ ?_ ?_ ?_ h
  · exact fun _ _ => rfl
  · intro B ctx s t u h₁ h₂ a ha
    have heq := h₁ a ha
    exact (h₂ a (heq ▸ ha)).trans heq
  · exact fun key value _ a _ => getCode_setStorage _ a key value
  · exact fun l _ a _ => rfl
  · intro B ctx s t mode target value _ ih a ha
    have heq : (Vm.enterCall ctx target value s).getCode a = s.getCode a := getCode_enterCall target value a
    exact (ih a (heq ▸ ha)).trans heq
  · exact fun _ a _ => getCode_bumpNonce a
  · intro B ctx s t newAddr value sub code _ _ hnew hempty ih a ha
    have heq : (enterCreate ctx newAddr value s).getCode a = s.getCode a :=
      (getCode_enterCall newAddr value a).trans (getCode_bumpNonce a)
    -- the new contract is neither under creation around the frame nor did it have code
    have hne : newAddr ≠ a := by
      rintro rfl
      rw [getCode_bumpNonce] at hempty
      exact ha.elim hnew fun hc => hc hempty
    refine (getCode_setCode_ne hne code).trans ((ih a ?_).trans heq)
    exact ha.imp (List.mem_cons_of_mem _) fun hc => heq.symm ▸ hc

end State

/-! ### Halting -/

section Execute

variable [Crypto] (code input : Bytes) (gas : UInt64) (ctx : Context) (depth : ℕ) (s : State)

/-- **Execution halts within its gas.** It returns, with no more gas than it was given and with none after an
error other than a revert; the result does not depend on the bound put on its turns; and every turn that does
not end its frame, in any frame passed on the way, leaves the frame with less gas. -/
theorem execute_halts_within_gas :
    (∃ s' r, execute code input gas ctx depth s = .ok (s', r) ∧ r.gasLeft ≤ gas ∧
      ∀ e, r.err = some e → e ≠ .reverted → r.gasLeft = 0) ∧
    (∀ n, gas.toNat < n →
      runFuel n (newInterp code input gas ctx depth) s = execute code input gas ctx depth s) ∧
    ∀ B m t m' t', During [] (newInterp code input gas ctx depth) s B m t →
      runStep run m t = .ok (.next m' t') → m'.gas < m.gas := by
  have hwf := newInterp_wf code input gas ctx depth
  refine ⟨?_, fun n hn => runFuel_eq_run hwf hn, fun B m t m' t' hd hst => ?_⟩
  · obtain ⟨s', r, hr, hok⟩ := run_ok hwf s
    exact ⟨s', r, hr, UInt64.le_iff_toNat_le.2 hok.left, hok.burns⟩
  · exact UInt64.lt_iff_toNat_lt.2 (stepOk_of_runStep (hd.wf hwf) hst).2.2

/-- **No access is out of bounds.** Every index, slice and word conversion of the machine is an operation that panics
outside its bounds. No execution over any state ends in a panic, nor does an instruction or a turn of any frame passed on
the way; and the slice of `getData`, by which the native contracts read too, is in bounds for every size that an
allocation can have. -/
theorem execute_in_bounds {σ : Type} [StateDB σ] (s : σ) :
    execute code input gas ctx depth s ≠ .error .panic ∧
    (∀ B m t, During [] (newInterp code input gas ctx depth) s B m t →
      instruction m t ≠ .error .panic ∧ runStep run m t ≠ .error .panic) ∧
    ∀ data off size m, size.toNat < 2 ^ 63 → readData data off size m = .ok (getData data off size, m) := by
  have hwf := newInterp_wf code input gas ctx depth
  refine ⟨?_, fun B m t hd => ?_, fun data off size m hsize => by rw [readData_eq hsize]; rfl⟩
  · obtain ⟨s', r, hr, -⟩ := run_ok hwf s
    rw [execute, hr]
    exact nofun
  have hm : m.WF := hd.wf hwf
  constructor
  · unfold instruction
    split
    · exact nofun
    · exact fun h => (dispatch_spec hm _).error rfl h rfl
  · obtain ⟨st, hst, -⟩ := runStep_ok (s := t) hm fun code input g ctx depth t _ =>
      run_ok (newInterp_wf code input g ctx depth) t
    rw [hst]
    exact nofun

/-- **A static frame is read-only.** -/
theorem static_execute_readOnly (hstatic : ctx.static = true) :
    ∃ s' r, execute code input gas ctx depth s = .ok (s', r) ∧
      s'.accounts = s.accounts ∧ s'.logs = s.logs ∧ s'.burned = s.burned := by
  obtain ⟨s', r, hr, -⟩ := run_ok (newInterp_wf code input gas ctx depth) s
  obtain ⟨ha, hl, hb⟩ := State.effects_static (execute_effects hr) hstatic
  exact ⟨s', r, hr, ha, hl, hb⟩

end Execute

/-- A static frame that tries to write its storage. -/
theorem static_execute_readOnly_sstore :
    let ctx : Context := ⟨7, 8, 0, 0, 8, 0, 9, 1, 1, 1, 1, 0, true⟩
    let s := State.new.credit 7 5
    ctx.static = true ∧ ∃ s' r, @execute (tableCrypto [] []) State _ [0x60, 1, 0x60, 0, 0x55] [] 100 ctx 0 s =
      .ok (s', r) ∧ s'.accounts = s.accounts ∧ s'.logs = s.logs ∧ s'.burned = s.burned :=
  ⟨rfl, @static_execute_readOnly (tableCrypto [] []) _ _ _ _ _ _ rfl⟩

end Lxs
