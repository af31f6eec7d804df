import Lxs.Vm.Bounds

/-!
# Frames halt within their gas

From the specification of one instruction: every turn of the loop that does not end the frame spends gas,
also over nested frames that refund some, so the gas of a frame bounds its turns. With one unit of fuel
more than its gas a frame always returns, and more fuel changes nothing.
-/

set_option linter.unusedSectionVars false

namespace Lxs.Vm

open Lib.Hoare StateDB

variable [Crypto] {σ : Type} [StateDB σ] {m : Interp} {s : σ}

/-- What the result of a frame that had `gas` promises. -/
structure ResultOk (gas : UInt64) (r : Result) : Prop where
  left : r.gasLeft.toNat ≤ gas.toNat
  burns : ∀ e, r.err = some e → e ≠ .reverted → r.gasLeft = 0

def StepOk (m : Interp) : Step σ → Prop
  | .next m' _ => m'.WF ∧ m'.ctx = m.ctx ∧ m'.gas.toNat < m.gas.toNat
  | .halt _ r => ResultOk m.gas r

def FrameOk (rec : Frame σ) (gas : ℕ) : Prop :=
  ∀ code input (g : UInt64) ctx depth s, g.toNat < gas →
    ∃ s' r, rec (newInterp code input g ctx depth) s = .ok (s', r) ∧ ResultOk g r

theorem resultOk_failed (gas : UInt64) (e : VmError) : ResultOk gas (failed e) :=
  ⟨Nat.zero_le _, fun _ _ _ => rfl⟩

theorem runPrecompile_ok (p : Precompile) (input : Bytes) (gas : UInt64) :
    ResultOk gas (runPrecompile p input gas) := by
  unfold runPrecompile
  dsimp only
  split
  · exact resultOk_failed gas _
  · rename_i hle
    split
    · exact resultOk_failed gas _
    · refine ⟨?_, fun e he => by cases he⟩
      rw [UInt64.toNat_sub_of_le _ _ (UInt64.not_lt.1 hle)]
      exact Nat.sub_le _ _

variable {m₀ : Interp}

theorem finish_ok {rest : OpM Unit}
    (h : Spec (· = m) rest fun _ m' => m'.WF ∧ m'.ctx = m₀.ctx ∧ m'.gas.toNat < m₀.gas.toNat) :
    ∃ st, finish rest m s = .ok st ∧ StepOk m₀ st := by
  unfold finish
  have := h m rfl
  cases hr : rest m with
  | ok p => exact ⟨_, rfl, by rwa [hr] at this⟩
  | error f =>
    rw [hr] at this
    cases f with
    | err e => exact ⟨_, rfl, resultOk_failed _ e⟩
    | panic => exact absurd rfl this

/-! ### Calls and creations -/

theorem toNat_refund {gas left : UInt64} {bound : UInt64} (h : gas.toNat + left.toNat < bound.toNat) :
    (gas + left).toNat = gas.toNat + left.toNat := by
  have := bound.toNat_lt
  rw [UInt64.toNat_add]
  omega

variable {p : CallPlan}

theorem finishCall_spec {res : Result} (hw : Within m₀ 0 0 m)
    (hg : m.gas.toNat + res.gasLeft.toNat < m₀.gas.toNat) (hmem : need p.retOff p.retSize ≤ m.mem.length) :
    Spec (· = m) (finishCall p res) fun _ m' => m'.WF ∧ m'.ctx = m₀.ctx ∧ m'.gas.toNat < m₀.gas.toNat := by
  -- the refund makes a new base, below the gas the frame had before the call
  have hbase : Within { m with gas := m.gas + res.gasLeft } (need p.retOff p.retSize) 0
      { m with gas := m.gas + res.gasLeft, returnData := res.ret } :=
    ⟨rfl, rfl, rfl, hw.words, le_rfl, hmem⟩
  have hend : Spec (Within { m with gas := m.gas + res.gasLeft } (need p.retOff p.retSize) 0)
      (push (if res.err.isSome then 0 else 1)) fun _ m' => m'.WF ∧ m'.ctx = m₀.ctx ∧ m'.gas.toNat < m₀.gas.toNat := by
    refine (push_spec _).post fun _ t ht => ⟨ht.words, ht.ctx.trans hw.ctx, ?_⟩
    have := ht.gas
    rw [toNat_refund hg] at this
    omega
  refine .bind (Q := fun _ => Within { m with gas := m.gas + res.gasLeft } (need p.retOff p.retSize) 0)
    (.modify fun t ht => ht ▸ hbase) fun _ => .ite (fun hpos => ?_) fun _ => hend
  refine slice_bind ⟨Nat.zero_le _, min_le_right _ _⟩ fun part hpart => memSet_bind (fun _ => ?_) hend
  rw [need, if_neg (by omega), hpart]
  omega

theorem performCall_ok {rec : Frame σ} (hrec : FrameOk rec m₀.gas.toNat)
    (hw : Within m₀ 0 0 m) (hg : m.gas.toNat + p.give.toNat < m₀.gas.toNat)
    (hmem : need p.retOff p.retSize ≤ m.mem.length) :
    ∃ st, performCall rec p m s = .ok st ∧ StepOk m₀ st := by
  have hcallee : ∀ t : σ, ∃ s₁ res, callee rec m p t = .ok (s₁, res) ∧ ResultOk p.give res := by
    intro t
    unfold callee
    split
    · exact ⟨t, _, rfl, runPrecompile_ok _ _ _⟩
    · exact hrec _ _ _ _ _ _ (by omega)
  obtain ⟨s₁, res, hc, hres⟩ := hcallee (transfer (snapshot s) m.ctx.address p.target p.value)
  have hleft := hres.left
  unfold performCall
  simp only [hc]
  refine finish_ok (finishCall_spec hw ?_ hmem)
  show m.gas.toNat + res.gasLeft.toNat < _
  omega

theorem finishCreate_spec {gas : UInt64} {returnData : Bytes} {word : ℤ} (hw : Within m₀ 0 0 m)
    (hg : gas.toNat < m₀.gas.toNat) :
    Spec (· = m) (finishCreate gas returnData word)
      fun _ m' => m'.WF ∧ m'.ctx = m₀.ctx ∧ m'.gas.toNat < m₀.gas.toNat := by
  have hbase : Within { m with gas := gas } 0 0 { m with gas := gas, returnData := returnData } :=
    ⟨rfl, rfl, rfl, hw.words, le_rfl, Nat.zero_le _⟩
  refine .bind (Q := fun _ => Within { m with gas := gas } 0 0) (.modify fun t ht => ht ▸ hbase) fun _ => ?_
  refine (push_spec _).post fun _ t ht => ⟨ht.words, ht.ctx.trans hw.ctx, ?_⟩
  have : t.gas.toNat + 0 ≤ gas.toNat := ht.gas
  omega

theorem performCreate_ok {rec : Frame σ} {p : CreatePlan} (hrec : FrameOk rec m₀.gas.toNat)
    (hw : Within m₀ 0 0 m) (hg : m.gas.toNat + p.give.toNat < m₀.gas.toNat) :
    ∃ st, performCreate rec p m s = .ok st ∧ StepOk m₀ st := by
  unfold performCreate
  dsimp only
  split
  · have hbase : Within m 0 0 m := ⟨rfl, rfl, rfl, hw.words, le_rfl, Nat.zero_le _⟩
    have hpush : Spec (· = m) (push 0) fun _ => Within m 0 0 := (push_spec 0).pre fun t ht => ht ▸ hbase
    refine finish_ok (hpush.post fun _ t ht => ⟨ht.words, ht.ctx.trans hw.ctx, ?_⟩)
    have := ht.gas
    omega
  · obtain ⟨s₂, res, hr, hres⟩ := hrec p.initCode [] p.give p.sub (m.depth + 1)
      (transfer (snapshot (setNonce s m.ctx.address (p.nonce + 1))) m.ctx.address p.newAddr p.value) (by omega)
    have hleft := hres.left
    have hgas : (m.gas + res.gasLeft).toNat < m₀.gas.toNat := by
      have hlt : m.gas.toNat + res.gasLeft.toNat < m₀.gas.toNat := by omega
      rw [toNat_refund hlt]
      exact hlt
    simp only [hr]
    show ∃ st, (if res.err.isSome then _ else _) = _ ∧ _
    split
    · exact finish_ok (finishCreate_spec hw hgas)
    · split
      · exact finish_ok (finishCreate_spec hw hgas)
      · split
        · exact finish_ok (finishCreate_spec hw hgas)
        · rename_i hle
          refine finish_ok (finishCreate_spec hw ?_)
          rw [UInt64.toNat_sub_of_le _ _ (UInt64.not_lt.1 hle)]
          exact (Nat.sub_le _ _).trans_lt hgas

/-! ### The loop -/

/-- **Every turn of the loop promises `StepOk`**, when the nested frames keep their bounds. -/
theorem runStep_ok {rec : Frame σ} (hm : m.WF) (hrec : FrameOk rec m.gas.toNat) :
    ∃ st, runStep rec m s = .ok st ∧ StepOk m st := by
  unfold runStep
  split
  · exact ⟨_, rfl, le_rfl, fun e he => by cases he⟩
  · rename_i b _
    have hd := dispatch_spec (v := view s) hm (decode b)
    cases hr : dispatch (view s) (decode b) m with
    | error f =>
      cases f with
      | err e => exact ⟨_, rfl, resultOk_failed _ e⟩
      | panic => exact absurd rfl (hd.error rfl hr)
    | ok p =>
      obtain ⟨act, m'⟩ := p
      obtain ⟨hw, hact⟩ := hd.ok rfl hr
      have hle : m'.gas.toNat ≤ m.gas.toNat := by have := hw.gas; omega
      cases act with
      | next => exact ⟨_, rfl, hw.words, hw.ctx, hact⟩
      | ret d => exact ⟨_, rfl, hle, fun e he => by cases he⟩
      | revert d => exact ⟨_, rfl, hle, fun e he hne => by cases he; exact absurd rfl hne⟩
      | sstore key value => exact ⟨_, rfl, hw.words, hw.ctx, hact.1⟩
      | log l => exact ⟨_, rfl, hw.words, hw.ctx, hact.1⟩
      | call p => exact performCall_ok hrec hw hact.1 hact.2.1
      | create p => exact performCreate_ok hrec hw hact.1

/-- **A frame with more fuel than gas returns**, within its gas. -/
theorem runFuel_ok : ∀ (n : ℕ) (m : Interp) (s : σ), m.WF → m.gas.toNat < n →
    ∃ s' r, runFuel n m s = .ok (s', r) ∧ ResultOk m.gas r
  | 0, _, _, _, h => absurd h (Nat.not_lt_zero _)
  | n + 1, m, s, hm, hn => by
    have hrec : FrameOk (runFuel n : Frame σ) m.gas.toNat := fun code input g ctx depth t hg =>
      runFuel_ok n _ t (newInterp_wf code input g ctx depth) (by show g.toNat < n; omega)
    obtain ⟨st, hst, hok⟩ := runStep_ok (s := s) hm hrec
    rw [runFuel, hst]
    cases st with
    | halt s' r => exact ⟨s', r, rfl, hok⟩
    | next m' s' =>
      obtain ⟨hwf, -, hlt⟩ := hok
      obtain ⟨s'', r, hr, hres⟩ := runFuel_ok n m' s' hwf (by omega)
      exact ⟨s'', r, hr, by have := hres.left; omega, hres.burns⟩

/-- A nested frame that returns under `rec` returns the same under `rec'`. -/
def Refines (rec rec' : Frame σ) : Prop :=
  ∀ code input gas ctx depth s x, rec (newInterp code input gas ctx depth) s = .ok x →
    rec' (newInterp code input gas ctx depth) s = .ok x

theorem callee_mono {rec rec' : Frame σ} (h : Refines rec rec') {x : σ × Result}
    (hx : callee rec m p s = .ok x) : callee rec' m p s = .ok x := by
  unfold callee at hx ⊢
  split
  · rename_i native hn
    rw [hn] at hx
    exact hx
  · rename_i hn
    rw [hn] at hx
    exact h _ _ _ _ _ _ _ hx

theorem performCall_mono {rec rec' : Frame σ} (h : Refines rec rec') {st : Step σ}
    (hst : performCall rec p m s = .ok st) : performCall rec' p m s = .ok st := by
  unfold performCall at hst ⊢
  cases hc : callee rec m p (transfer (snapshot s) m.ctx.address p.target p.value) with
  | error a => simp only [hc] at hst; cases hst
  | ok x => simp only [hc, callee_mono h hc] at hst ⊢; exact hst

theorem performCreate_mono {rec rec' : Frame σ} (h : Refines rec rec') {p : CreatePlan} {st : Step σ}
    (hst : performCreate rec p m s = .ok st) : performCreate rec' p m s = .ok st := by
  unfold performCreate at hst ⊢
  dsimp only at hst ⊢
  split at hst
  · rw [if_pos ‹_›]
    exact hst
  · rw [if_neg ‹_›]
    cases hc : rec (newInterp p.initCode [] p.give p.sub (m.depth + 1))
        (transfer (snapshot (setNonce s m.ctx.address (p.nonce + 1))) m.ctx.address p.newAddr p.value) with
    | error a => simp only [hc] at hst; cases hst
    | ok x => simp only [hc, h _ _ _ _ _ _ _ hc] at hst ⊢; exact hst

theorem runStep_mono {rec rec' : Frame σ} (h : Refines rec rec') {st : Step σ} (hst : runStep rec m s = .ok st) :
    runStep rec' m s = .ok st := by
  unfold runStep at hst ⊢
  split
  · simp_all only
  · rename_i b hb
    rw [hb] at hst
    dsimp only at hst
    cases hr : dispatch (view s) (decode b) m with
    | error f =>
      rw [hr] at hst
      cases f <;> exact hst
    | ok p =>
      obtain ⟨act, m'⟩ := p
      rw [hr] at hst
      cases act with
      | call p => exact performCall_mono h hst
      | create p => exact performCreate_mono h hst
      | _ => exact hst

theorem runFuel_succ : ∀ (n : ℕ) (m : Interp) (s : σ) (x : σ × Result), runFuel n m s = .ok x →
    runFuel (n + 1) m s = .ok x
  | 0, _, _, _, h => by cases h
  | n + 1, m, s, x, h => by
    rw [runFuel] at h ⊢
    cases hst : runStep (runFuel n) m s with
    | error a => rw [hst] at h; cases h
    | ok st =>
      rw [hst] at h
      rw [runStep_mono (fun _ _ _ _ _ t y hy => runFuel_succ n _ t y hy) hst]
      cases st with
      | halt s' r => exact h
      | next m' s' => exact runFuel_succ n m' s' x h

theorem runFuel_mono {n k : ℕ} (hk : n ≤ k) {x : σ × Result} (h : runFuel n m s = .ok x) : runFuel k m s = .ok x := by
  induction k, hk using Nat.le_induction with
  | base => exact h
  | succ k _ ih => exact runFuel_succ k m s x ih

/-- **Any fuel above the gas gives the result of `run`.** -/
theorem runFuel_eq_run (hm : m.WF) {n : ℕ} (hn : m.gas.toNat < n) : runFuel n m s = run m s := by
  obtain ⟨s', r, hr, -⟩ := runFuel_ok (m.gas.toNat + 1) m s hm (Nat.lt_succ_self _)
  rw [run, hr]
  exact runFuel_mono hn hr

theorem run_ok (hm : m.WF) (s : σ) : ∃ s' r, run m s = .ok (s', r) ∧ ResultOk m.gas r :=
  runFuel_ok _ m s hm (Nat.lt_succ_self _)

theorem refines_run (n : ℕ) : Refines (runFuel n : Frame σ) run := by
  intro code input gas ctx depth s x hx
  have hm := newInterp_wf code input gas ctx depth
  have hlt : gas.toNat < max n (gas.toNat + 1) := by omega
  rw [← runFuel_eq_run (n := max n (gas.toNat + 1)) hm hlt]
  exact runFuel_mono (le_max_left _ _) hx

end Lxs.Vm
