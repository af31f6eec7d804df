import Lxs.Vm.Interpreter

/-!
# Related states run alike

The machine sees a state only through its operations. A relation between two states that the operations keep, and
under which they read the same, is therefore kept by whole runs, which return the same results.
-/

set_option linter.unusedSectionVars false

namespace Lxs.Vm

open StateDB

variable [Crypto] {σ τ : Type} [StateDB σ] [StateDB τ]

/-- The operations of two states keep `R`, and read the same under it. -/
structure Simulation (R : σ → τ → Prop) : Prop where
  view {s t} : R s t → view s = view t
  setStorage {s t} (a : Address) (key value : Hash) : R s t → R (setStorage s a key value) (setStorage t a key value)
  setCode {s t} (a : Address) (code : Bytes) : R s t → R (setCode s a code) (setCode t a code)
  setNonce {s t} (a : Address) (n : UInt64) : R s t → R (setNonce s a n) (setNonce t a n)
  addBalance {s t} (a : Address) (v : ℤ) : R s t → R (addBalance s a v) (addBalance t a v)
  subBalance {s t} (a : Address) (v : ℤ) : R s t → R (subBalance s a v) (subBalance t a v)
  addLog {s t} (l : Log) : R s t → R (addLog s l) (addLog t l)
  snapshotId {s t} : R s t → snapshotId s = snapshotId t
  snapshot {s t} : R s t → R (snapshot s) (snapshot t)
  revertToSnapshot {s t} (id : ℕ) : R s t → R (revertToSnapshot s id) (revertToSnapshot t id)

/-- Two frames end with the same result, in related states. -/
inductive RelRun (R : σ → τ → Prop) : Except Abort (σ × Result) → Except Abort (τ × Result) → Prop
  | ok {s t} (r : Result) : R s t → RelRun R (.ok (s, r)) (.ok (t, r))
  | error (a : Abort) : RelRun R (.error a) (.error a)

/-- Two turns lead to the same frame or result, in related states. -/
inductive RelStep (R : σ → τ → Prop) : Except Abort (Step σ) → Except Abort (Step τ) → Prop
  | next {s t} (m : Interp) : R s t → RelStep R (.ok (.next m s)) (.ok (.next m t))
  | halt {s t} (r : Result) : R s t → RelStep R (.ok (.halt s r)) (.ok (.halt t r))
  | error (a : Abort) : RelStep R (.error a) (.error a)

variable {R : σ → τ → Prop} (hR : Simulation R) {rec : Frame σ} {rec' : Frame τ} {m : Interp} {s : σ} {t : τ}

include hR

theorem Simulation.transfer (h : R s t) (source target : Address) (value : ℤ) :
    R (transfer s source target value) (transfer t source target value) := by
  unfold Vm.transfer
  split
  · exact hR.addBalance target value (hR.subBalance source value h)
  · exact h

omit hR in
theorem finish_sim (h : R s t) (rest : OpM Unit) : RelStep R (finish rest m s) (finish rest m t) := by
  unfold finish
  split
  · exact .next _ h
  · exact .halt _ h
  · exact .error _

theorem callee_sim (hrec : ∀ m s t, R s t → RelRun R (rec m s) (rec' m t)) (h : R s t) (p : CallPlan) :
    RelRun R (callee rec m p s) (callee rec' m p t) := by
  have hcode : getCode s = getCode t := congrArg View.getCode (hR.view h)
  unfold callee
  rw [hcode]
  split
  · exact .ok _ h
  · exact hrec _ _ _ h

theorem performCall_sim (hrec : ∀ m s t, R s t → RelRun R (rec m s) (rec' m t)) (h : R s t) (p : CallPlan) :
    RelStep R (performCall rec p m s) (performCall rec' p m t) := by
  have hid := hR.snapshotId h
  have hcall := callee_sim hR (m := m) hrec (hR.transfer (hR.snapshot h) m.ctx.address p.target p.value) p
  unfold performCall
  rw [hid]
  generalize callee rec m p _ = x at hcall ⊢
  generalize callee rec' m p _ = y at hcall ⊢
  cases hcall with
  | error a => exact .error a
  | ok r hst =>
    refine finish_sim ?_ _
    split
    · exact hR.revertToSnapshot _ hst
    · exact hst

theorem performCreate_sim (hrec : ∀ m s t, R s t → RelRun R (rec m s) (rec' m t)) (h : R s t) (p : CreatePlan) :
    RelStep R (performCreate rec p m s) (performCreate rec' p m t) := by
  have h₁ := hR.setNonce m.ctx.address (p.nonce + 1) h
  have hnonce : getNonce (setNonce s m.ctx.address (p.nonce + 1)) = getNonce (setNonce t m.ctx.address (p.nonce + 1)) :=
    congrArg View.getNonce (hR.view h₁)
  have hcode : getCode (setNonce s m.ctx.address (p.nonce + 1)) = getCode (setNonce t m.ctx.address (p.nonce + 1)) :=
    congrArg View.getCode (hR.view h₁)
  have hid := hR.snapshotId h₁
  have hinit := hrec (newInterp p.initCode [] p.give p.sub (m.depth + 1)) _ _
    (hR.transfer (hR.snapshot h₁) m.ctx.address p.newAddr p.value)
  unfold performCreate
  dsimp only
  rw [hnonce, hcode, hid]
  split
  · exact finish_sim h₁ _
  · generalize rec _ _ = x at hinit ⊢
    generalize rec' _ _ = y at hinit ⊢
    cases hinit with
    | error a => exact .error a
    | ok r hst =>
      have hback := hR.revertToSnapshot (StateDB.snapshotId (setNonce t m.ctx.address (p.nonce + 1))) hst
      show RelStep R (if r.err.isSome then _ else _) (if r.err.isSome then _ else _)
      split
      · exact finish_sim hback _
      · split
        · exact finish_sim hback _
        · split
          · exact finish_sim hback _
          · exact finish_sim (hR.setCode p.newAddr r.ret hst) _

theorem runStep_sim (hrec : ∀ m s t, R s t → RelRun R (rec m s) (rec' m t)) (h : R s t) :
    RelStep R (runStep rec m s) (runStep rec' m t) := by
  unfold runStep
  rw [hR.view h]
  split
  · exact .halt _ h
  · split
    · rename_i act m' _
      cases act with
      | next => exact .next _ h
      | ret d => exact .halt _ h
      | revert d => exact .halt _ h
      | sstore key value => exact .next _ (hR.setStorage _ key value h)
      | log l => exact .next _ (hR.addLog l h)
      | call p => exact performCall_sim hR hrec h p
      | create p => exact performCreate_sim hR hrec h p
    · exact .halt _ h
    · exact .error _

/-- **A relation that the operations keep is kept by whole runs.** -/
theorem runFuel_sim : ∀ (n : ℕ) (m : Interp) (s : σ) (t : τ), R s t → RelRun R (runFuel n m s) (runFuel n m t)
  | 0, _, _, _, _ => .error _
  | n + 1, m, s, t, h => by
    have hst := runStep_sim hR (m := m) (runFuel_sim n) h
    unfold runFuel
    generalize runStep (runFuel n) m s = x at hst ⊢
    generalize runStep (runFuel n) m t = y at hst ⊢
    cases hst with
    | error a => exact .error a
    | halt r h' => exact .ok r h'
    | next m' h' => exact runFuel_sim n m' _ _ h'

theorem execute_sim (h : R s t) (code input : Bytes) (gas : UInt64) (ctx : Context) (depth : ℕ) :
    RelRun R (execute code input gas ctx depth s) (execute code input gas ctx depth t) :=
  runFuel_sim hR _ _ s t h

end Lxs.Vm
