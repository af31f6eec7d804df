import Lxs.Vm.Exec

/-!
# Frames

`vm/interpreter.go`, `vm/statedb.go` and the second half of `vm/call.go`: the loop of a frame over any
state, and the nested frames of calls and creations. `run` recurses with fuel; one unit more than the
frame's gas is enough, which is shown with the gas bounds.
-/

namespace Lxs.Vm

variable [Crypto]

/-- The state the machine reads and writes. -/
class StateDB (σ : Type) where
  getStorage : σ → Address → Hash → Hash
  setStorage : σ → Address → Hash → Hash → σ
  getCode : σ → Address → Bytes
  setCode : σ → Address → Bytes → σ
  getNonce : σ → Address → UInt64
  setNonce : σ → Address → UInt64 → σ
  getBalance : σ → Address → ℤ
  addBalance : σ → Address → ℤ → σ
  subBalance : σ → Address → ℤ → σ
  snapshotId : σ → ℕ
  snapshot : σ → σ
  revertToSnapshot : σ → ℕ → σ
  addLog : σ → Log → σ

open StateDB

variable {σ : Type} [StateDB σ]

/-- The reading half of a state. -/
def view (s : σ) : View := ⟨getStorage s, getCode s, getNonce s, getBalance s⟩

/-- How a run can end without a result: by a panic, or for lack of fuel. -/
inductive Abort
  | panic | starved
  deriving DecidableEq

abbrev Frame (σ : Type) := Interp → σ → Except Abort (σ × Result)

/-- What one turn of the loop leaves behind. -/
inductive Step (σ : Type)
  | next (m : Interp) (s : σ)
  | halt (s : σ) (r : Result)

/-- A hard failure burns all gas. -/
def failed (e : VmError) : Result := ⟨[], 0, some e⟩

/-- End a turn with the rest of an instruction, over a state that is already final. -/
def finish (rest : OpM Unit) (m : Interp) (s : σ) : Except Abort (Step σ) :=
  match rest m with
  | .ok (_, m') => .ok (.next m' s)
  | .error (.err e) => .ok (.halt s (failed e))
  | .error .panic => .error .panic

/-- Move value between two accounts; a zero transfer touches nothing. -/
def transfer (s : σ) (source target : Address) (value : ℤ) : σ :=
  if 0 < value then addBalance (subBalance s source value) target value else s

/-! ### Calls -/

def callee (rec : Frame σ) (m : Interp) (p : CallPlan) (s : σ) : Except Abort (σ × Result) :=
  match precompileFor p.target with
  | some native => .ok (s, runPrecompile native p.args p.give)
  | none => rec (newInterp (getCode s p.target) p.args p.give p.sub (m.depth + 1)) s

/-- The caller after the callee: refund, return data, and the result on the stack. -/
def finishCall (p : CallPlan) (res : Result) : OpM Unit := do
  modify fun m => { m with gas := m.gas + res.gasLeft, returnData := res.ret }
  if 0 < p.retSize then
    let part ← slice res.ret 0 (min (uint64 p.retSize).toNat res.ret.length)
    memSet (uint64 p.retOff) part
  push (if res.err.isSome then 0 else 1)

/-- A callee that fails is undone together with its value transfer. -/
def performCall (rec : Frame σ) (p : CallPlan) (m : Interp) (s : σ) : Except Abort (Step σ) := do
  let snap := snapshotId s
  let (s₁, res) ← callee rec m p (transfer (snapshot s) m.ctx.address p.target p.value)
  finish (finishCall p res) m (if res.err.isSome then revertToSnapshot s₁ snap else s₁)

/-! ### Creations -/

/-- How a creation ends: the state, the return data and gas of the creator, and the word pushed. -/
def finishCreate (gas : UInt64) (returnData : Bytes) (word : ℤ) : OpM Unit := do
  modify fun m => { m with gas := gas, returnData := returnData }
  push word

def performCreate (rec : Frame σ) (p : CreatePlan) (m : Interp) (s : σ) : Except Abort (Step σ) := do
  let creator := m.ctx.address
  let s₁ := setNonce s creator (p.nonce + 1)
  if getNonce s₁ p.newAddr ≠ 0 ∨ 0 < (getCode s₁ p.newAddr).length then
    -- EIP-684: the target is a live account
    finish (push 0) m s₁
  else
    let snap := snapshotId s₁
    let (s₂, res) ← rec (newInterp p.initCode [] p.give p.sub (m.depth + 1))
      (transfer (snapshot s₁) creator p.newAddr p.value)
    let gas := m.gas + res.gasLeft
    if res.err.isSome then finish (finishCreate gas res.ret 0) m (revertToSnapshot s₂ snap)
    else if maxCodeSize < res.ret.length then finish (finishCreate gas [] 0) m (revertToSnapshot s₂ snap)
    else
      let codeGas := createDataGas * UInt64.ofNat res.ret.length
      if gas < codeGas then finish (finishCreate gas [] 0) m (revertToSnapshot s₂ snap)
      else finish (finishCreate (gas - codeGas) [] p.newAddr.toNat) m (setCode s₂ p.newAddr res.ret)

/-! ### The loop -/

def perform (rec : Frame σ) (act : Action) (m : Interp) (s : σ) : Except Abort (Step σ) :=
  match act with
  | .next => .ok (.next m s)
  | .ret data => .ok (.halt s ⟨data, m.gas, none⟩)
  | .revert data => .ok (.halt s ⟨data, m.gas, some .reverted⟩)
  | .sstore key value => .ok (.next m (setStorage s m.ctx.address key value))
  | .log log => .ok (.next m (addLog s log))
  | .call plan => performCall rec plan m s
  | .create plan => performCreate rec plan m s

/-- One turn of the loop of `run`; running off the end of the code is an implicit `STOP`. -/
def runStep (rec : Frame σ) (m : Interp) (s : σ) : Except Abort (Step σ) :=
  match m.code[m.pc]? with
  | none => .ok (.halt s ⟨[], m.gas, none⟩)
  | some b =>
    match dispatch (view s) (decode b) m with
    | .ok (act, m') => perform rec act m' s
    | .error (.err e) => .ok (.halt s (failed e))
    | .error .panic => .error .panic

/-- The loop with fuel, each turn and each nested frame one unit below. -/
def runFuel : ℕ → Frame σ
  | 0, _, _ => .error .starved
  | n + 1, m, s =>
    match runStep (runFuel n) m s with
    | .error a => .error a
    | .ok (.next m' s') => runFuel n m' s'
    | .ok (.halt s' r) => .ok (s', r)

def run : Frame σ := fun m s => runFuel (m.gas.toNat + 1) m s

def execute (code input : Bytes) (gas : UInt64) (ctx : Context) (depth : ℕ) (s : σ) :
    Except Abort (σ × Result) :=
  run (newInterp code input gas ctx depth) s

end Lxs.Vm
