import Lxs.Vm.Frames

/-!
# What an instruction leaves alone

Most parts of an instruction touch the stack, the gas and the returned data, and write into a memory that they do not grow.
A reading of the frame that none of these is part of is the same after them: the length of the memory is one, and the
position in the code is another.
-/

set_option linter.unusedSectionVars false

namespace Lxs.Vm

open Lib.Hoare StateDB

/-- A part of an instruction that leaves what `f` reads of the frame. -/
def Fixes {α γ : Type} (f : Interp → γ) (x : OpM α) : Prop := ∀ c, Ends (fun m => f m = c) x fun _ m => f m = c

/-- What `f` reads does not depend on the stack, the gas, the returned data and the bytes in the memory. -/
class Aside {γ : Type} (f : Interp → γ) : Prop where
  stack (m : Interp) (stack : List ℕ) : f { m with stack := stack } = f m
  gas (m : Interp) (gas : UInt64) : f { m with gas := gas } = f m
  returnData (m : Interp) (data : Bytes) : f { m with returnData := data } = f m
  mem (m : Interp) (mem : Bytes) : mem.length = m.mem.length → f { m with mem := mem } = f m

/-- The instructions that neither touch the memory nor jump. -/
def OpCode.plain : OpCode → Bool
  | SHA3 | MLOAD | MSTORE | MSTORE8 | CALLDATACOPY | CODECOPY | EXTCODECOPY | RETURNDATACOPY | MCOPY | LOG _ | CREATE | CREATE2
  | CALL | DELEGATECALL | STATICCALL | RETURN | REVERT | JUMP | JUMPI => false
  | _ => true

namespace Fixes

variable {α β γ : Type} {f : Interp → γ} {x : OpM α} {k : α → OpM β}

theorem eq (h : Fixes f x) {m m' : Interp} {a : α} (hx : x m = .ok (a, m')) : f m' = f m := (h (f m)).ok rfl hx

theorem pure (a : α) : Fixes f (Pure.pure a : OpM α) := fun _ => .pure fun _ h => h

theorem throw (e : Fault) : Fixes f (throw e : OpM α) := fun _ => .throw trivial

theorem bind (hx : Fixes f x) (hk : ∀ a, Fixes f (k a)) : Fixes f (x >>= k) := fun c => .bind (hx c) fun a => hk a c

theorem get_bind {k : Interp → OpM α} (h : ∀ m, Fixes f (k m)) : Fixes f (get >>= k) := fun c =>
  .of_get fun m hm => (h m c).pre fun _ ht => ht ▸ hm

theorem ite {c : Prop} [Decidable c] {y : OpM α} (hx : Fixes f x) (hy : Fixes f y) : Fixes f (if c then x else y) := fun n =>
  .ite (fun _ => hx n) fun _ => hy n

theorem modify {u : Interp → Interp} (h : ∀ m, f (u m) = f m) : Fixes f (modify u : OpM PUnit) := fun _ =>
  .modify fun m hm => (h m).trans hm

theorem failIf (c : Prop) [Decidable c] (e : VmError) : Fixes f (Vm.failIf c e) := .ite (.throw _) (.pure _)

theorem index (l : List α) (i : ℕ) : Fixes f (Vm.index l i) := by
  unfold Vm.index
  split
  · exact .pure _
  · exact .throw _

theorem slice (data : Bytes) (lo hi : ℕ) : Fixes f (Vm.slice data lo hi) := .ite (.pure _) (.throw _)

theorem memGet (off size : UInt64) : Fixes f (Vm.memGet off size) :=
  .get_bind fun _ => .ite (.pure _) (.bind (.slice _ _ _) fun _ => .pure _)

theorem readData (data : Bytes) (off : ℕ) (size : UInt64) : Fixes f (Vm.readData data off size) :=
  .ite (.pure _) (.bind (.slice _ _ _) fun _ => .pure _)

theorem wordToHash (w : ℕ) : Fixes f (Vm.wordToHash w) := .ite (.bind (.throw _) fun _ => .pure _) (.pure _)

theorem wordToAddress (w : ℕ) : Fixes f (Vm.wordToAddress w) := .bind (.wordToHash w) fun _ => .pure _

theorem newAddress [Crypto] (create2 : Bool) (creator : Address) (nonce : UInt64) (salt : ℕ) (initCode : Bytes) :
    Fixes f (Vm.newAddress create2 creator nonce salt initCode) :=
  .ite (.bind (.wordToHash _) fun _ => .pure _) (.pure _)

theorem pushData (code : Bytes) : ∀ n start, Fixes f (Vm.pushData code start n)
  | 0, _ => .pure _
  | n + 1, start => by
    have hrest (b : UInt8) : Fixes f (do let rest ← Vm.pushData code (start + 1) n; return b :: rest) :=
      .bind (pushData code n (start + 1)) fun _ => .pure _
    exact .ite (.bind (.index _ _) hrest) (.bind (.pure _) hrest)

variable [Aside f]

theorem push (v : ℤ) : Fixes f (Vm.push v) :=
  .get_bind fun _ => .bind (.failIf _ _) fun _ => .modify fun m => Aside.stack m _

theorem pop : Fixes f Vm.pop := by
  refine .get_bind fun m => ?_
  split
  · exact .throw _
  · exact .bind (.modify fun m => Aside.stack m _) fun _ => .pure _

theorem useGas (cost : UInt64) : Fixes f (Vm.useGas cost) :=
  .get_bind fun _ => .bind (.failIf _ _) fun _ => .modify fun m => Aside.gas m _

theorem memSet (off : UInt64) (val : Bytes) : Fixes f (Vm.memSet off val) := by
  unfold Vm.memSet
  refine .ite (.pure _) fun c => .of_get fun m hm => .ite (fun _ => ?_) fun hle => .modify fun t ht => ?_
  · exact .throw trivial
  · subst ht
    refine (Aside.mem t _ ?_).trans hm
    simp only [List.length_append, List.length_take, List.length_drop]
    omega

theorem memSet32 (off : UInt64) (val : ℕ) : Fixes f (Vm.memSet32 off val) :=
  .ite (.bind (.throw _) fun _ => .memSet _ _) (.memSet _ _)

theorem popIf (c : Prop) [Decidable c] : Fixes f (Vm.popIf c) := .ite .pop (.pure _)

theorem dup (n : ℕ) : Fixes f (Vm.dup n) :=
  .get_bind fun _ => .bind (.failIf _ _) fun _ => .bind (.index _ _) fun _ => .push _

theorem swap (n : ℕ) : Fixes f (Vm.swap n) :=
  .get_bind fun _ => .bind (.failIf _ _) fun _ => .bind (.index _ _) fun _ => .bind (.index _ _) fun _ =>
    .modify fun m => Aside.stack m _

theorem popTopics : ∀ n, Fixes f (Vm.popTopics n)
  | 0 => .pure _
  | n + 1 => .bind .pop fun _ => .bind (.wordToHash _) fun _ => .bind (popTopics n) fun _ => .pure _

theorem refuse : Fixes f Vm.refuse := .bind (.push 0) fun _ => .pure _

theorem binop (op : BinOp) (a b : ℕ) : Fixes f (Vm.binop op a b) := .bind (.useGas _) fun _ => .push _

theorem finishCall (p : CallPlan) (res : Result) : Fixes f (Vm.finishCall p res) :=
  .bind (.modify fun m => (Aside.returnData { m with gas := m.gas + res.gasLeft } _).trans (Aside.gas m _)) fun _ =>
    .ite (.bind (.slice _ _ _) fun _ => .bind (.memSet _ _) fun _ => .push _) (.push _)

theorem finishCreate (gas : UInt64) (returnData : Bytes) (word : ℤ) : Fixes f (Vm.finishCreate gas returnData word) :=
  .bind (.modify fun m => (Aside.returnData { m with gas := gas } _).trans (Aside.gas m _)) fun _ => .push _

variable [Crypto] {v : View}

theorem exec_plain {op : OpCode} (h : op.plain = true) : Fixes f (exec v op) := by
  cases op with
  | bin op => exact .bind .pop fun _ => .bind .pop fun _ => .bind (.binop _ _ _) fun _ => .pure _
  | ADDMOD | MULMOD => exact .bind .pop fun _ => .bind .pop fun _ => .bind .pop fun _ => .bind (.push _) fun _ => .pure _
  | ISZERO | NOT | BLOCKHASH => exact .bind .pop fun _ => .bind (.push _) fun _ => .pure _
  | POP => exact .bind .pop fun _ => .pure _
  | SLOAD => exact .bind .pop fun _ => .bind (.wordToHash _) fun _ => .get_bind fun _ => .bind (.push _) fun _ => .pure _
  | SSTORE =>
    exact .get_bind fun _ => .bind (.failIf _ _) fun _ => .bind .pop fun _ => .bind .pop fun _ =>
      .bind (.wordToHash _) fun _ => .bind (.wordToHash _) fun _ => .get_bind fun _ => .bind (.useGas _) fun _ => .pure _
  | env op => exact .get_bind fun _ => .bind (.push _) fun _ => .pure _
  | BALANCE | EXTCODESIZE | EXTCODEHASH =>
    exact .bind .pop fun _ => .bind (.wordToAddress _) fun _ => .bind (.push _) fun _ => .pure _
  | CALLDATALOAD =>
    exact .bind .pop fun _ => .get_bind fun _ => .bind (.readData _ _ _) fun _ => .bind (.push _) fun _ => .pure _
  | JUMPDEST => exact .pure _
  | STOP | PUSH _ | DUP _ | SWAP _ | INVALID | unknown _ => exact .throw _
  | _ => cases h

end Fixes

/-! ### One turn -/

variable [Crypto] {σ : Type} [StateDB σ] {m m' : Interp} {s s' : σ}

def Aftermath (rest : OpM Unit) : Prop := ∀ {γ : Type} (f : Interp → γ) [Aside f], Fixes f rest

variable {γ : Type}

theorem finish_next {rest : OpM Unit} (hrest : Aftermath rest) (h : finish rest m s = .ok (.next m' s'))
    (f : Interp → γ) [Aside f] : f m' = f m := by
  unfold finish at h
  split at h
  · rename_i hr
    cases h
    exact (hrest f).eq hr
  · cases h
  · cases h

theorem performCall_next {rec : Frame σ} {p : CallPlan} (h : performCall rec p m s = .ok (.next m' s'))
    (f : Interp → γ) [Aside f] : f m' = f m := by
  unfold performCall at h
  cases hc : callee rec m p (transfer (snapshot s) m.ctx.address p.target p.value) with
  | error a => rw [hc] at h; cases h
  | ok x => rw [hc] at h; exact finish_next (fun _ => .finishCall p _) h f

theorem performCreate_next {rec : Frame σ} {p : CreatePlan} (h : performCreate rec p m s = .ok (.next m' s'))
    (f : Interp → γ) [Aside f] : f m' = f m := by
  unfold performCreate at h
  dsimp only at h
  split at h
  · exact finish_next (fun _ => .push 0) h f
  · cases hc : rec (newInterp p.initCode [] p.give p.sub (m.depth + 1))
        (transfer (snapshot (setNonce s m.ctx.address (p.nonce + 1))) m.ctx.address p.newAddr p.value) with
    | error a => rw [hc] at h; cases h
    | ok x =>
      rw [hc] at h
      dsimp only [bind, Except.bind] at h
      split_ifs at h
      all_goals exact finish_next (fun _ => .finishCreate _ _ _) h f

/-- **A turn of the loop is its instruction**, as far as a reading is concerned that nested frames leave alone. -/
theorem runStep_next {rec : Frame σ} (h : runStep rec m s = .ok (.next m' s')) (f : Interp → γ) [Aside f] :
    ∃ b act m₁, m.code[m.pc]? = some b ∧ dispatch (view s) (decode b) m = .ok (act, m₁) ∧ f m' = f m₁ := by
  unfold runStep at h
  cases hb : m.code[m.pc]? with
  | none => rw [hb] at h; cases h
  | some b =>
    rw [hb] at h
    dsimp only at h
    cases hr : dispatch (view s) (decode b) m with
    | error e => rw [hr] at h; cases e <;> cases h
    | ok x =>
      obtain ⟨act, m₁⟩ := x
      rw [hr] at h
      refine ⟨b, act, m₁, rfl, hr, ?_⟩
      cases act with
      | next => cases h; rfl
      | ret d => cases h
      | revert d => cases h
      | sstore key value => cases h; rfl
      | log l => cases h; rfl
      | call p => exact performCall_next h f
      | create p => exact performCreate_next h f

end Lxs.Vm
