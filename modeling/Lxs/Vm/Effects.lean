import Lxs.Vm.Frames

/-!
# What a frame can do to the state

`Effects` collects everything that running a frame can do to the state: storage writes and logs at its own
address, nested frames that are kept or reverted, and the steps of a creation. `During` are the frames and
states passed on the way, with the addresses that are being created around them. Running a frame is shown to
have only such effects; each later property of the state is an induction over them.
-/

set_option linter.unusedSectionVars false

namespace Lxs.Vm

open Lib.Hoare StateDB

variable [Crypto] {σ : Type} [StateDB σ]

/-! ### Effects -/

def enterCall (ctx : Context) (target : Address) (value : ℤ) (s : σ) : σ :=
  transfer (snapshot s) ctx.address target value

def bumpNonce (ctx : Context) (s : σ) : σ := setNonce s ctx.address (getNonce s ctx.address + 1)

def enterCreate (ctx : Context) (newAddr : Address) (value : ℤ) (s : σ) : σ :=
  enterCall ctx newAddr value (bumpNonce ctx s)

/-- Value is only moved by a frame that may write and that has it. -/
def Funded (ctx : Context) (value : ℤ) (s : σ) : Prop :=
  0 ≤ value ∧ (0 < value → ctx.static = false ∧ value ≤ getBalance s ctx.address)

/-- The effects of a frame with environment `ctx`, inside the creations of the addresses `B`; `ok B a` holds
whenever a creation of `a` starts. -/
inductive Effects (ok : List Address → Address → Prop) : List Address → Context → σ → σ → Prop
  | refl {B ctx s} : Effects ok B ctx s s
  | trans {B ctx s t u} : Effects ok B ctx s t → Effects ok B ctx t u → Effects ok B ctx s u
  | sstore {B ctx s} (key value : Hash) : ctx.static = false →
      Effects ok B ctx s (setStorage s ctx.address key value)
  | log {B ctx s} (l : Log) : ctx.static = false → Effects ok B ctx s (addLog s l)
  | call {B ctx s t} (mode : CallMode) (target : Address) (value : ℤ) : Funded ctx value s →
      Effects ok B (subContext ctx mode target value) (enterCall ctx target value s) t → Effects ok B ctx s t
  | callReverted {B ctx s t} (mode : CallMode) (target : Address) (value : ℤ) : Funded ctx value s →
      Effects ok B (subContext ctx mode target value) (enterCall ctx target value s) t →
      Effects ok B ctx s (revertToSnapshot t (snapshotId s))
  | collide {B ctx s} : ctx.static = false → Effects ok B ctx s (bumpNonce ctx s)
  | create {B ctx s t} (newAddr : Address) (value : ℤ) (sub : Context) (code : Bytes) : ctx.static = false →
      Funded ctx value s → ok B newAddr → getNonce (bumpNonce ctx s) newAddr = 0 →
      getCode (bumpNonce ctx s) newAddr = [] →
      Effects ok (newAddr :: B) sub (enterCreate ctx newAddr value s) t →
      Effects ok B ctx s (setCode t newAddr code)
  | createReverted {B ctx s t} (newAddr : Address) (value : ℤ) (sub : Context) : ctx.static = false →
      Funded ctx value s → ok B newAddr →
      Effects ok (newAddr :: B) sub (enterCreate ctx newAddr value s) t →
      Effects ok B ctx s (revertToSnapshot t (snapshotId (bumpNonce ctx s)))

/-! ### The frames passed on the way -/

def instruction (m : Interp) (s : σ) : Except Fault (Action × Interp) :=
  match m.code[m.pc]? with
  | none => .ok (.ret [], m)
  | some b => dispatch (view s) (decode b) m

def createFrame (p : CreatePlan) (m : Interp) : Interp := newInterp p.initCode [] p.give p.sub (m.depth + 1)

def callFrame (p : CallPlan) (m : Interp) (s : σ) : Interp :=
  newInterp (getCode s p.target) p.args p.give p.sub (m.depth + 1)

def Fresh (p : CreatePlan) (ctx : Context) (s : σ) : Prop :=
  getNonce (bumpNonce ctx s) p.newAddr = 0 ∧ getCode (bumpNonce ctx s) p.newAddr = []

/-- The frames and states passed while the frame `m₀` runs from `s₀` inside the creations of `B₀`. -/
inductive During (B₀ : List Address) (m₀ : Interp) (s₀ : σ) : List Address → Interp → σ → Prop
  | start : During B₀ m₀ s₀ B₀ m₀ s₀
  | next {B m s m' s'} : During B₀ m₀ s₀ B m s → runStep run m s = .ok (.next m' s') → During B₀ m₀ s₀ B m' s'
  | call {B m s p m'} : During B₀ m₀ s₀ B m s → instruction m s = .ok (.call p, m') →
      precompileFor p.target = none → During B₀ m₀ s₀ B (callFrame p m' (enterCall m.ctx p.target p.value s))
        (enterCall m.ctx p.target p.value s)
  | create {B m s p m'} : During B₀ m₀ s₀ B m s → instruction m s = .ok (.create p, m') → Fresh p m.ctx s →
      During B₀ m₀ s₀ (p.newAddr :: B) (createFrame p m') (enterCreate m.ctx p.newAddr p.value s)

def CreatesOk (ok : List Address → Address → Prop) (B₀ : List Address) (m₀ : Interp) (s₀ : σ) : Prop :=
  ∀ B m s p m', During B₀ m₀ s₀ B m s → instruction m s = .ok (.create p, m') → Fresh p m.ctx s → ok B p.newAddr

/-! ### Testing what is passed -/

instance (p : CreatePlan) (ctx : Context) (s : σ) : Decidable (Fresh p ctx s) := inferInstanceAs (Decidable (_ ∧ _))

/-- Walk through the frames and states that `m` passes, at most `n` turns and frames deep, and test each. -/
def checkRun (test : List Address → Interp → σ → Bool) : ℕ → List Address → Interp → σ → Bool
  | 0, _, _, _ => false
  | n + 1, B, m, s =>
    test B m s &&
    (match instruction m s with
      | .ok (.create p, m') => !decide (Fresh p m.ctx s) ||
          checkRun test n (p.newAddr :: B) (createFrame p m') (enterCreate m.ctx p.newAddr p.value s)
      | .ok (.call p, m') =>
        checkRun test n B (callFrame p m' (enterCall m.ctx p.target p.value s)) (enterCall m.ctx p.target p.value s)
      | _ => true) &&
    match runStep run m s with
    | .ok (.next m' s') => checkRun test n B m' s'
    | _ => true

theorem During.test {test : List Address → Interp → σ → Bool} {n : ℕ} {B₀ B : List Address} {m₀ m : Interp} {s₀ s : σ}
    (h : checkRun test n B₀ m₀ s₀ = true) (hd : During B₀ m₀ s₀ B m s) : test B m s = true := by
  suffices hpassed : ∃ n, checkRun test n B m s = true by
    obtain ⟨_ | n, hn⟩ := hpassed
    · cases hn
    · rw [checkRun, Bool.and_eq_true, Bool.and_eq_true] at hn
      exact hn.1.1
  induction hd with
  | start => exact ⟨n, h⟩
  | next _ hst ih =>
    obtain ⟨_ | n, hn⟩ := ih
    · cases hn
    · rw [checkRun, Bool.and_eq_true, hst] at hn
      exact ⟨n, hn.2⟩
  | call _ hi _ ih =>
    obtain ⟨_ | n, hn⟩ := ih
    · cases hn
    · rw [checkRun, Bool.and_eq_true, Bool.and_eq_true, hi] at hn
      exact ⟨n, hn.1.2⟩
  | create _ hi hf ih =>
    obtain ⟨_ | n, hn⟩ := ih
    · cases hn
    · rw [checkRun, Bool.and_eq_true, Bool.and_eq_true, hi] at hn
      simp only [decide_eq_true hf, Bool.not_true, Bool.false_or] at hn
      exact ⟨n, hn.1.2⟩

/-! ### Running a frame has only such effects -/

variable {ok : List Address → Address → Prop} {B : List Address} {m m' : Interp} {s : σ}

def Step.state : Step σ → σ
  | .next _ s => s
  | .halt s _ => s

theorem finish_state {rest : OpM Unit} {st : Step σ} (h : finish rest m s = .ok st) : st.state = s := by
  unfold finish at h
  split at h
  · cases h; rfl
  · cases h; rfl
  · cases h

theorem performCall_state {rec : Frame σ} {p : CallPlan} {st : Step σ} (hctx : m'.ctx = m.ctx)
    (h : performCall rec p m' s = .ok st) :
    ∃ t r, (t = enterCall m.ctx p.target p.value s ∨ precompileFor p.target = none ∧
        rec (callFrame p m' (enterCall m.ctx p.target p.value s)) (enterCall m.ctx p.target p.value s) = .ok (t, r)) ∧
      (st.state = t ∨ st.state = revertToSnapshot t (snapshotId s)) := by
  unfold performCall at h
  rw [hctx] at h
  cases hc : callee rec m' p (transfer (snapshot s) m.ctx.address p.target p.value) with
  | error a => rw [hc] at h; cases h
  | ok x =>
    obtain ⟨t, r⟩ := x
    rw [hc] at h
    refine ⟨t, r, ?_, ?_⟩
    · unfold callee at hc
      split at hc
      · cases hc
        exact .inl rfl
      · exact .inr ⟨‹_›, hc⟩
    · rw [finish_state h]
      show (if r.err.isSome then _ else _) = _ ∨ (if r.err.isSome then _ else _) = _
      split
      · exact .inr rfl
      · exact .inl rfl

theorem performCall_effects {rec : Frame σ} {p : CallPlan} {st : Step σ} (hp : p.Ok (view s) m) (hctx : m'.ctx = m.ctx)
    (hrec : ∀ t r, precompileFor p.target = none →
      rec (callFrame p m' (enterCall m.ctx p.target p.value s)) (enterCall m.ctx p.target p.value s) = .ok (t, r) →
      Effects ok B p.sub (enterCall m.ctx p.target p.value s) t)
    (h : performCall rec p m' s = .ok st) : Effects ok B m.ctx s st.state := by
  obtain ⟨mode, hsub, -⟩ := hp.mode
  have hfund : Funded m.ctx p.value s := ⟨hp.value, hp.funded⟩
  obtain ⟨t, r, hcallee, hstate⟩ := performCall_state hctx h
  have heff : Effects ok B p.sub (enterCall m.ctx p.target p.value s) t := by
    rcases hcallee with rfl | ⟨hn, hr⟩
    · exact .refl
    · exact hrec t r hn hr
  rw [hsub] at heff
  rcases hstate with hstate | hstate
  · rw [hstate]
    exact .call mode p.target p.value hfund heff
  · rw [hstate]
    exact .callReverted mode p.target p.value hfund heff

theorem not_live_iff {nonce : UInt64} {code : Bytes} : ¬(nonce ≠ 0 ∨ 0 < code.length) ↔ nonce = 0 ∧ code = [] := by
  simp only [not_or, ne_eq, not_not, not_lt, nonpos_iff_eq_zero, List.length_eq_zero_iff]

theorem performCreate_state {rec : Frame σ} {p : CreatePlan} {st : Step σ} (hp : p.Ok (view s) m) (hctx : m'.ctx = m.ctx)
    (h : performCreate rec p m' s = .ok st) :
    st.state = bumpNonce m.ctx s ∨ Fresh p m.ctx s ∧
      ∃ t r, rec (createFrame p m') (enterCreate m.ctx p.newAddr p.value s) = .ok (t, r) ∧
        (st.state = revertToSnapshot t (snapshotId (bumpNonce m.ctx s)) ∨ ∃ code, st.state = setCode t p.newAddr code) := by
  have hnonce : setNonce s m.ctx.address (p.nonce + 1) = bumpNonce m.ctx s := by rw [hp.nonce]; rfl
  unfold performCreate at h
  dsimp only at h
  rw [hctx, hnonce] at h
  split at h
  · exact .inl (finish_state h)
  · rename_i hlive
    refine .inr ⟨not_live_iff.1 hlive, ?_⟩
    cases hc : rec (newInterp p.initCode [] p.give p.sub (m'.depth + 1))
        (transfer (snapshot (bumpNonce m.ctx s)) m.ctx.address p.newAddr p.value) with
    | error a => rw [hc] at h; cases h
    | ok x =>
      obtain ⟨t, r⟩ := x
      rw [hc] at h
      refine ⟨t, r, hc, ?_⟩
      change (if r.err.isSome then _ else _) = _ at h
      split at h
      · exact .inl (finish_state h)
      · split at h
        · exact .inl (finish_state h)
        · split at h
          · exact .inl (finish_state h)
          · exact .inr ⟨_, finish_state h⟩

theorem performCreate_effects {rec : Frame σ} {p : CreatePlan} {st : Step σ} (hp : p.Ok (view s) m)
    (hctx : m'.ctx = m.ctx) (hok : Fresh p m.ctx s → ok B p.newAddr)
    (hrec : ∀ t r, Fresh p m.ctx s →
      rec (createFrame p m') (enterCreate m.ctx p.newAddr p.value s) = .ok (t, r) →
      Effects ok (p.newAddr :: B) p.sub (enterCreate m.ctx p.newAddr p.value s) t)
    (h : performCreate rec p m' s = .ok st) : Effects ok B m.ctx s st.state := by
  have hfund : Funded m.ctx p.value s := ⟨hp.value, fun hv => ⟨hp.static, hp.funded hv⟩⟩
  obtain hstate | ⟨hfresh, t, r, hr, hstate | ⟨code, hstate⟩⟩ := performCreate_state hp hctx h
  · rw [hstate]
    exact .collide hp.static
  · rw [hstate]
    exact .createReverted p.newAddr p.value p.sub hp.static hfund (hok hfresh) (hrec t r hfresh hr)
  · rw [hstate]
    exact .create p.newAddr p.value p.sub code hp.static hfund (hok hfresh) hfresh.1 hfresh.2 (hrec t r hfresh hr)

/-- What one turn of the loop does to the state. -/
inductive Turn (rec : Frame σ) (m : Interp) (s : σ) (st : Step σ) : Prop
  | same : st.state = s → Turn rec m s st
  | sstore (key value : Hash) : m.ctx.static = false → st.state = setStorage s m.ctx.address key value → Turn rec m s st
  | log (l : Log) : m.ctx.static = false → st.state = addLog s l → Turn rec m s st
  | call (p : CallPlan) (m' : Interp) : instruction m s = .ok (.call p, m') → p.Ok (view s) m → m'.ctx = m.ctx →
      performCall rec p m' s = .ok st → Turn rec m s st
  | create (p : CreatePlan) (m' : Interp) : instruction m s = .ok (.create p, m') → p.Ok (view s) m → m'.ctx = m.ctx →
      performCreate rec p m' s = .ok st → Turn rec m s st

theorem runStep_turn (hm : m.WF) {rec : Frame σ} {st : Step σ} (h : runStep rec m s = .ok st) : Turn rec m s st := by
  unfold runStep at h
  cases hb : m.code[m.pc]? with
  | none => rw [hb] at h; cases h; exact .same rfl
  | some b =>
    rw [hb] at h
    dsimp only at h
    cases hr : dispatch (view s) (decode b) m with
    | error f =>
      rw [hr] at h
      cases f with
      | err e => cases h; exact .same rfl
      | panic => cases h
    | ok x =>
      obtain ⟨act, m'⟩ := x
      rw [hr] at h
      have hinstr : instruction m s = .ok (act, m') := by rw [instruction, hb]; exact hr
      obtain ⟨hw, hact⟩ := (dispatch_spec (v := view s) hm (decode b)).ok rfl hr
      cases act with
      | next | ret | revert => cases h; exact .same rfl
      | sstore key value =>
        cases h
        refine .sstore key value hact.2 ?_
        show setStorage s m'.ctx.address key value = _
        rw [hw.ctx]
      | log l => cases h; exact .log l hact.2 rfl
      | call p => exact .call p m' hinstr hact.2.2 hw.ctx h
      | create p => exact .create p m' hinstr hact.2 hw.ctx h

theorem stepOk_of_runStep (hm : m.WF) {st : Step σ} (h : runStep run m s = .ok st) : StepOk m st := by
  obtain ⟨st', h', hok⟩ := runStep_ok (s := s) hm fun code input g ctx depth t _ =>
    run_ok (newInterp_wf code input g ctx depth) t
  rw [h] at h'
  cases h'
  exact hok

section Run

variable {B₀ : List Address} {m₀ : Interp} {s₀ : σ}

theorem During.wf (h₀ : m₀.WF) (h : During B₀ m₀ s₀ B m s) : m.WF := by
  induction h with
  | start => exact h₀
  | next _ hst ih => exact (stepOk_of_runStep ih hst).1
  | call _ _ _ _ => exact newInterp_wf _ _ _ _ _
  | create _ _ _ _ => exact newInterp_wf _ _ _ _ _

theorem During.trans {B' : List Address} {s' : σ} (h : During B₀ m₀ s₀ B m s) (h' : During B m s B' m' s') :
    During B₀ m₀ s₀ B' m' s' := by
  induction h' with
  | start => exact h
  | next _ hst ih => exact ih.next hst
  | call _ hi hn ih => exact ih.call hi hn
  | create _ hi hf ih => exact ih.create hi hf

theorem CreatesOk.during (hok : CreatesOk ok B₀ m₀ s₀) (hd : During B₀ m₀ s₀ B m s) : CreatesOk ok B m s :=
  fun _ _ _ p _ hd' => hok _ _ _ p _ (hd.trans hd')

theorem runStep_effects (hok : CreatesOk ok B₀ m₀ s₀) (hd : During B₀ m₀ s₀ B m s) (hm : m.WF) {rec : Frame σ}
    (hrec : ∀ B' m' s' t r, During B₀ m₀ s₀ B' m' s' → m'.WF → rec m' s' = .ok (t, r) → Effects ok B' m'.ctx s' t)
    {st : Step σ} (h : runStep rec m s = .ok st) : Effects ok B m.ctx s st.state := by
  cases runStep_turn hm h with
  | same hs => rw [hs]; exact .refl
  | sstore key value hstatic hs => rw [hs]; exact .sstore key value hstatic
  | log l hstatic hs => rw [hs]; exact .log l hstatic
  | call p m' hi hp hctx hc =>
    refine performCall_effects hp hctx (fun t r hn hx => ?_) hc
    exact hrec B _ _ t r (hd.call hi hn) (newInterp_wf _ _ _ _ _) hx
  | create p m' hi hp hctx hc =>
    refine performCreate_effects hp hctx (hok B m s p m' hd hi) (fun t r hf hx => ?_) hc
    exact hrec _ _ _ t r (hd.create hi hf) (newInterp_wf _ _ _ _ _) hx

theorem runFuel_effects (hok : CreatesOk ok B₀ m₀ s₀) : ∀ (n : ℕ) (B : List Address) (m : Interp) (s t : σ) (r : Result),
    During B₀ m₀ s₀ B m s → m.WF → runFuel n m s = .ok (t, r) → Effects ok B m.ctx s t
  | 0, _, _, _, _, _, _, _, h => by cases h
  | n + 1, B, m, s, t, r, hd, hm, h => by
    rw [runFuel] at h
    cases hst : runStep (runFuel n) m s with
    | error a => rw [hst] at h; cases h
    | ok st =>
      rw [hst] at h
      have heff := runStep_effects hok hd hm (runFuel_effects hok n) hst
      have hrun := runStep_mono (refines_run n) hst
      have hsok := stepOk_of_runStep hm hrun
      cases st with
      | halt t' r' => cases h; exact heff
      | next m' s' => exact heff.trans (hsok.2.1 ▸ runFuel_effects hok n B m' s' t r (hd.next hrun) hsok.1 h)

end Run

theorem run_effects {t : σ} {r : Result} (hm : m.WF) (hok : CreatesOk ok B m s) (h : run m s = .ok (t, r)) :
    Effects ok B m.ctx s t :=
  runFuel_effects hok _ B m s t r .start hm h

abbrev anyCreate : List Address → Address → Prop := fun _ _ => True

theorem execute_effects {code input : Bytes} {gas : UInt64} {ctx : Context} {depth : ℕ} {t : σ} {r : Result}
    (h : execute code input gas ctx depth s = .ok (t, r)) : Effects anyCreate [] ctx s t :=
  run_effects (newInterp_wf code input gas ctx depth) (fun _ _ _ _ _ _ _ _ => trivial) h

end Lxs.Vm
