import Lxs.Lib.Mirror
import Lxs.Vm.Effects
import Lxs.Vm.Simulation

/-!
# Runs that do not look at their environment

Two runs of a frame in different transaction environments, from states that differ in the balance and the nonce of one
account. As long as the first never looks at what differs (`Observes`) the second does the same.
-/

set_option linter.unusedSectionVars false

namespace Lxs.Vm

open Lib Lib.Hoare StateDB

/-! ### Environments -/

/-- The frame's own part of a context in the environment of another. -/
def Context.inEnv (c env : Context) : Context :=
  { env with address := c.address, caller := c.caller, value := c.value, baseFee := c.baseFee, static := c.static }

def Interp.inEnv (env : Context) (m : Interp) : Interp := { m with ctx := m.ctx.inEnv env }

def Action.inEnv (env : Context) : Action → Action
  | .call p => .call { p with sub := p.sub.inEnv env }
  | .create p => .create { p with sub := p.sub.inEnv env }
  | act => act

/-- Two views that differ at most in the balance and the nonce of one account. -/
structure View.Agree (a : Address) (v w : View) : Prop where
  getStorage : v.getStorage = w.getStorage
  getCode : v.getCode = w.getCode
  getNonce : ∀ x, x ≠ a → v.getNonce x = w.getNonce x
  getBalance : ∀ x, x ≠ a → v.getBalance x = w.getBalance x

def EnvOp.isOfTx : EnvOp → Bool
  | ORIGIN | GASPRICE | COINBASE | TIMESTAMP | NUMBER | DIFFICULTY | CHAINID | GASLIMIT => true
  | _ => false

def Interp.topAddress (m : Interp) : Option Address := m.stack.head?.map fun w => hashToAddress (BitVec.ofNat 256 w)

/-- The instruction reads the environment, or the balance or the nonce of the account `a`. -/
def Reads (a : Address) (v : View) (m : Interp) : OpCode → Prop
  | .env op => op.isOfTx = true ∨ op = .SELFBALANCE ∧ m.ctx.address = a
  | .BALANCE => m.topAddress = some a
  | .EXTCODEHASH => m.topAddress = some a ∧ v.getCode a = []
  | .CALL => m.ctx.address = a ∧ ∃ value, m.stack[2]? = some value ∧ 0 < value
  | .CREATE | .CREATE2 => m.ctx.address = a
  | _ => False

variable {env : Context} {m : Interp} {α : Type}

/-! ### Primitives -/

/-- A program that acts alike in every environment. -/
abbrev Same (env : Context) (x : OpM α) (m : Interp) : Prop := Mirror (Interp.inEnv env) id x x m

theorem fail_same (e : VmError) : Same env (fail e : OpM α) m := Mirror.throw _

theorem failIf_bind_mirror {β : Type} {f : α → β} {c c' : Prop} [Decidable c] [Decidable c'] {e : VmError} {x : Unit → OpM α}
    {y : Unit → OpM β} (hc : c ↔ c') (h : Mirror (Interp.inEnv env) f (x ()) (y ()) m) :
    Mirror (Interp.inEnv env) f (failIf c e >>= x) (failIf c' e >>= y) m := by
  have hfail : Mirror (Interp.inEnv env) id (failIf c e) (failIf c' e) m :=
    .ite_congr hc (fun _ => fail_same e) fun _ => .pure ()
  refine hfail.bind fun _ t ht => ?_
  unfold failIf at ht
  split at ht
  · cases ht
  · cases ht
    exact h

theorem push_same (v : ℤ) : Same env (push v) m :=
  .of_get <| failIf_bind_mirror Iff.rfl <| .modify rfl

theorem pop_same : Same env pop m := by
  have hstack : (m.inEnv env).stack = m.stack := rfl
  unfold Same Mirror
  cases hs : m.stack with
  | nil => rw [pop_nil hs, pop_nil (hstack.trans hs)]; rfl
  | cons x rest => rw [pop_cons hs, pop_cons (hstack.trans hs)]; rfl

theorem popIf_same (c : Prop) [Decidable c] : Same env (popIf c) m := .ite (fun _ => pop_same) fun _ => .pure _

theorem useGas_same (cost : UInt64) : Same env (useGas cost) m :=
  .of_get <| failIf_bind_mirror Iff.rfl <| .modify rfl

theorem index_same (l : List α) (i : ℕ) : Same env (index l i) m := by
  unfold index
  split
  · exact .pure _
  · exact .throw _

theorem slice_same (data : Bytes) (lo hi : ℕ) : Same env (slice data lo hi) m := by
  unfold slice
  exact .ite (fun _ => .pure _) fun _ => .throw _

theorem dup_same (n : ℕ) : Same env (dup n) m :=
  .of_get <| failIf_bind_mirror Iff.rfl <| (index_same _ _).bind fun _ _ _ => push_same _

theorem swap_same (n : ℕ) : Same env (swap n) m :=
  .of_get <| failIf_bind_mirror Iff.rfl <| (index_same _ _).bind fun _ _ _ => (index_same _ _).bind fun _ _ _ => .modify rfl

theorem chargeMem_same (off size : ℕ) : Same env (chargeMem off size) m := by
  unfold chargeMem
  refine .ite (fun _ => .pure _) fun _ => failIf_bind_mirror Iff.rfl <| .of_get ?_
  have hmem : (m.inEnv env).mem = m.mem := rfl
  rw [hmem]
  split
  · exact fail_same _
  · exact (useGas_same _).bind fun _ _ _ => .modify rfl

theorem memGet_same (off size : UInt64) : Same env (memGet off size) m :=
  .of_get <| .ite (fun _ => .pure _) fun _ => (slice_same _ _ _).bind fun _ _ _ => .pure _

theorem readData_same (data : Bytes) (off : ℕ) (size : UInt64) : Same env (readData data off size) m :=
  .ite (fun _ => .pure _) fun _ => (slice_same _ _ _).bind fun _ _ _ => .pure _

theorem memSet_same (off : UInt64) (val : Bytes) : Same env (memSet off val) m := by
  unfold memSet
  refine .ite (fun _ => .pure _) fun _ => .of_get ?_
  exact .ite (fun _ => .throw _) fun _ => .modify rfl

theorem memSet32_same (off : UInt64) (val : ℕ) : Same env (memSet32 off val) m := by
  unfold memSet32
  exact .ite (fun _ => .throw _) fun _ => memSet_same _ _

theorem readMem_same : Same env readMem m :=
  pop_same.bind fun _ _ _ => pop_same.bind fun _ _ _ => (chargeMem_same _ _).bind fun _ _ _ => memGet_same _ _

theorem wordToHash_same (w : ℕ) : Same env (wordToHash w) m := by
  unfold wordToHash
  exact .ite (fun _ => .throw _) fun _ => .pure _

theorem wordToAddress_same (w : ℕ) : Same env (wordToAddress w) m := (wordToHash_same w).bind fun _ _ _ => .pure _

theorem jump_same (dest : ℕ) : Same env (jump dest) m :=
  failIf_bind_mirror Iff.rfl <| .of_get <| failIf_bind_mirror Iff.rfl <| (index_same _ _).bind fun _ _ _ =>
    failIf_bind_mirror Iff.rfl <| .modify rfl

theorem pushData_same (code : Bytes) : ∀ (n start : ℕ) {m : Interp}, Same env (pushData code start n) m
  | 0, _, _ => .pure _
  | n + 1, start, _ => by
    have hrest (b : UInt8) {t : Interp} :
        Same env (do let rest ← pushData code (start + 1) n; return b :: rest) t :=
      Mirror.bind (pushData_same code n (start + 1)) fun rest _ _ => .pure (b :: rest)
    exact .ite (fun _ => (index_same _ _).bind fun b _ _ => hrest b) fun _ => (Mirror.pure 0).bind fun b _ _ => hrest b

theorem doPush_same (n : ℕ) : Same env (doPush n) m :=
  .of_get <| (pushData_same _ n _).bind fun _ _ _ => Mirror.modify_bind rfl (push_same _)

theorem advance_same : Same env advance m := by
  refine .modify ?_
  show (if m.jumped then _ else _) = Interp.inEnv env (if m.jumped then _ else _)
  split <;> rfl

/-! ### Instructions -/

section Instructions

variable {a : Address} {v w : View} {m₀ : Interp} {k c : ℕ}

variable {t : Interp} {x : ℕ}

theorem pop_ok (h : pop m = .ok (x, t)) : m.stack = x :: t.stack := by
  cases hs : m.stack with
  | nil => rw [pop_nil hs] at h; cases h
  | cons y stack => rw [pop_cons hs] at h; cases h; rfl

theorem wordToAddress_ok {y : Address} (h : wordToAddress x m = .ok (y, t)) :
    y = hashToAddress (BitVec.ofNat 256 x) ∧ t = m := by
  unfold wordToAddress wordToHash at h
  split at h
  · cases h
  · cases h
    exact ⟨rfl, rfl⟩

theorem memGet_ok {off size : UInt64} {data : Bytes} (h : memGet off size m = .ok (data, t)) : t = m := by
  have h : (if size = 0 ∨ off.toNat ≥ m.mem.length then pure (padded [] size) else do
    let part ← slice m.mem off.toNat (min (off + size).toNat m.mem.length)
    return padded part size : OpM Bytes) m = .ok (data, t) := h
  unfold slice at h
  split at h
  · cases h
    rfl
  · split at h
    · cases h
      rfl
    · cases h

theorem refuse_mirror : Mirror (Interp.inEnv env) (Action.inEnv env) refuse refuse m :=
  (push_same 0).bind fun _ _ _ => .pure _

theorem opSstore_mirror (h : View.Agree a v w) :
    Mirror (Interp.inEnv env) (Action.inEnv env) (opSstore v) (opSstore w) m := by
  unfold opSstore
  rw [h.getStorage]
  refine .of_get <| failIf_bind_mirror Iff.rfl <| pop_same.bind fun _ _ _ => pop_same.bind fun _ _ _ => ?_
  exact (wordToHash_same _).bind fun _ _ _ => (wordToHash_same _).bind fun _ _ _ =>
    .of_get <| (useGas_same _).bind fun _ _ _ => .pure _

theorem popTopics_same (n : ℕ) : ∀ m, Same env (popTopics n) m := by
  induction n with
  | zero => exact fun m => .pure _
  | succ n ih =>
    exact fun m => pop_same.bind fun _ _ _ => (wordToHash_same _).bind fun _ t _ => (ih t).bind fun _ _ _ => .pure _

theorem opLog_mirror (n : ℕ) : Mirror (Interp.inEnv env) (Action.inEnv env) (opLog n) (opLog n) m := by
  refine .of_get <| failIf_bind_mirror Iff.rfl <| pop_same.bind fun _ _ _ => pop_same.bind fun _ _ _ => ?_
  refine (popTopics_same n _).bind fun _ _ _ => (chargeMem_same _ _).bind fun _ _ _ => ?_
  exact (useGas_same _).bind fun _ _ _ => (useGas_same _).bind fun _ _ _ => (memGet_same _ _).bind fun _ _ _ =>
    .of_get (.pure _)

theorem popIf_within {b : Prop} [Decidable b] (hw : Within m₀ k c m) (h : popIf b m = .ok (x, t)) :
    Within m₀ k c t := by
  unfold popIf at h
  split at h
  · exact (pop_spec.ok hw h).2
  · cases h
    exact hw

theorem opCall_mirror (h : View.Agree a v w) (mode : CallMode) (hw : Within m₀ k c m)
    (hquiet : m₀.ctx.address = a → mode = .regular → ∀ x, m.stack[2]? = some x → x = 0) :
    Mirror (Interp.inEnv env) (Action.inEnv env) (opCall v mode) (opCall w mode) m := by
  refine pop_same.bind fun gasWord m₁ h₁ => pop_same.bind fun toWord m₂ h₂ => ?_
  refine (popIf_same _).bind fun value m₃ h₃ => ?_
  have hvalue : m₀.ctx.address = a → value = 0 := by
    intro ha
    by_cases hmode : mode = .regular
    · rw [popIf, if_pos hmode] at h₃
      refine hquiet ha hmode value ?_
      rw [pop_ok h₁, pop_ok h₂, pop_ok h₃]
      rfl
    · rw [popIf, if_neg hmode] at h₃
      cases h₃
      rfl
  have hw₁ := (pop_spec.ok hw h₁).2
  have hw₂ := (pop_spec.ok hw₁ h₂).2
  have hw₃ : Within m₀ k c m₃ := popIf_within hw₂ h₃
  refine pop_same.bind fun argsOff m₄ h₄ => pop_same.bind fun argsSize m₅ h₅ => ?_
  refine pop_same.bind fun retOff m₆ h₆ => pop_same.bind fun retSize m₇ h₇ => ?_
  have hw₇ := (pop_spec.ok (pop_spec.ok (pop_spec.ok (pop_spec.ok hw₃ h₄).2 h₅).2 h₆).2 h₇).2
  refine .of_get <| failIf_bind_mirror Iff.rfl <| (useGas_same _).bind fun _ m₈ h₈ => ?_
  refine (chargeMem_same _ _).bind fun _ m₉ h₉ => (chargeMem_same _ _).bind fun _ m₁₀ h₁₀ => ?_
  have hw₉ := ((chargeMem_spec _ _).ok ((useGas_spec _).ok hw₇ h₈) h₉).2
  have hw₁₀ := ((chargeMem_spec _ _).ok hw₉ h₁₀).2
  refine (memGet_same _ _).bind fun args m₁₁ h₁₁ => (wordToAddress_same _).bind fun target m₁₂ h₁₂ => ?_
  have hctx : m₁₂.ctx = m₀.ctx := by
    rw [(wordToAddress_ok h₁₂).2, memGet_ok h₁₁]
    exact hw₁₀.ctx
  refine .of_get <| Mirror.modify_bind rfl <| .of_get ?_
  -- the gates: the depth, and the balance of an account other than `a`
  refine .ite_congr Iff.rfl (fun _ => refuse_mirror) fun _ => ?_
  refine .ite_congr ?_ (fun _ => refuse_mirror) fun _ => ?_
  · show (0 < value ∧ v.getBalance m₁₂.ctx.address < value) ↔ (0 < value ∧ w.getBalance m₁₂.ctx.address < value)
    rw [hctx]
    by_cases ha : m₀.ctx.address = a
    · rw [hvalue ha]
      simp
    · rw [h.getBalance _ ha]
  · refine Mirror.modify_bind rfl ?_
    cases mode
    · exact .pure _
    · exact .pure _
    · exact .pure _

theorem newAddress_same [Crypto] (create2 : Bool) (creator : Address) (nonce : UInt64) (salt : ℕ) (initCode : Bytes) :
    Same env (newAddress create2 creator nonce salt initCode) m := by
  unfold newAddress
  exact .ite (fun _ => (wordToHash_same salt).bind fun _ _ _ => .pure _) fun _ => .pure _

theorem opCreate_mirror [Crypto] (h : View.Agree a v w) (create2 : Bool) (hw : Within m₀ k c m)
    (hquiet : m₀.ctx.address ≠ a) :
    Mirror (Interp.inEnv env) (Action.inEnv env) (opCreate v create2) (opCreate w create2) m := by
  refine .of_get <| failIf_bind_mirror Iff.rfl <| pop_same.bind fun value m₁ h₁ => ?_
  refine pop_same.bind fun offset m₂ h₂ => pop_same.bind fun size m₃ h₃ => (popIf_same _).bind fun salt m₄ h₄ => ?_
  have hw₃ := (pop_spec.ok (pop_spec.ok (pop_spec.ok hw h₁).2 h₂).2 h₃).2
  have hw₄ : Within m₀ k c m₄ := popIf_within hw₃ h₄
  refine (useGas_same _).bind fun _ m₅ h₅ => (chargeMem_same _ _).bind fun _ m₆ h₆ => ?_
  refine (useGas_same _).bind fun _ m₇ h₇ => (memGet_same _ _).bind fun initCode m₈ h₈ => ?_
  have hctx : m₈.ctx = m₀.ctx := by
    rw [memGet_ok h₈]
    exact ((useGas_spec _).ok ((chargeMem_spec _ _).ok ((useGas_spec _).ok hw₄ h₅) h₆).2 h₇).ctx
  have ha : m₈.ctx.address ≠ a := by rw [hctx]; exact hquiet
  refine Mirror.modify_bind rfl <| .of_get ?_
  refine .ite_congr Iff.rfl (fun _ => refuse_mirror) fun _ => .ite_congr ?_ (fun _ => refuse_mirror) fun _ => ?_
  · show (0 < value ∧ v.getBalance m₈.ctx.address < value) ↔ (0 < value ∧ w.getBalance m₈.ctx.address < value)
    rw [h.getBalance _ ha]
  · have hnonce : w.getNonce m₈.ctx.address = v.getNonce m₈.ctx.address := (h.getNonce _ ha).symm
    dsimp only [Interp.inEnv, Context.inEnv]
    rw [hnonce]
    exact (newAddress_same _ _ _ _ _).bind fun _ _ _ => Mirror.modify_bind rfl (.pure _)

theorem copyData_same (memOff dataOff length : ℕ) (data : Bytes) : Same env (copyData memOff dataOff length data) m :=
  (chargeMem_same _ _).bind fun _ _ _ => (useGas_same _).bind fun _ _ _ => (readData_same _ _ _).bind fun _ _ _ =>
    memSet_same _ _

theorem envOp_value_eq {op : EnvOp} (h : View.Agree a v w) (hop : op.isOfTx = false)
    (hself : op = .SELFBALANCE → m.ctx.address ≠ a) : op.value w (m.inEnv env) = op.value v m := by
  cases op with
  | SELFBALANCE => exact (h.getBalance _ (hself rfl)).symm
  | ORIGIN | GASPRICE | COINBASE | TIMESTAMP | NUMBER | DIFFICULTY | CHAINID | GASLIMIT => cases hop
  | _ => rfl

theorem extcodehash_eq [Crypto] (h : View.Agree a v w) {x : Address} (hx : x = a → v.getCode a ≠ []) :
    extcodehash w x = extcodehash v x := by
  unfold extcodehash
  rw [← h.getCode]
  by_cases ha : x = a
  · have hpos : 0 < (v.getCode x).length := List.length_pos_iff.2 (ha ▸ hx ha)
    rw [if_pos hpos, if_pos hpos]
  · rw [h.getBalance x ha, h.getNonce x ha]

theorem top_ne {t u : Interp} {y : Address} (htop : m.topAddress ≠ some a) (hx : pop m = .ok (x, t))
    (hy : wordToAddress x t = .ok (y, u)) : y ≠ a := by
  rintro rfl
  refine htop ?_
  rw [Interp.topAddress, pop_ok hx, (wordToAddress_ok hy).1]
  rfl

variable (env) in
/-- **An instruction that does not read what differs acts alike.** -/
theorem exec_mirror [Crypto] (h : View.Agree a v w) {op : OpCode} (hw : Within m₀ k c m) (hm : m₀.ctx = m.ctx)
    (hreads : ¬Reads a v m op) : Mirror (Interp.inEnv env) (Action.inEnv env) (exec v op) (exec w op) m := by
  cases op with
  | bin op =>
    exact pop_same.bind fun x _ _ => pop_same.bind fun y _ _ =>
      Mirror.bind ((useGas_same _).bind fun _ _ _ => push_same _) fun _ _ _ => .pure _
  | ADDMOD | MULMOD =>
    exact pop_same.bind fun x _ _ => pop_same.bind fun y _ _ => pop_same.bind fun n _ _ =>
      (push_same _).bind fun _ _ _ => .pure _
  | SHA3 =>
    exact pop_same.bind fun off _ _ => pop_same.bind fun size _ _ => (chargeMem_same _ _).bind fun _ _ _ =>
      (useGas_same _).bind fun _ _ _ => (memGet_same _ _).bind fun _ _ _ => (push_same _).bind fun _ _ _ => .pure _
  | ISZERO | NOT | BLOCKHASH => exact pop_same.bind fun x _ _ => (push_same _).bind fun _ _ _ => .pure _
  | POP => exact pop_same.bind fun x _ _ => .pure _
  | MLOAD =>
    exact pop_same.bind fun off _ _ => (chargeMem_same _ _).bind fun _ _ _ => (memGet_same _ _).bind fun _ _ _ =>
      (push_same _).bind fun _ _ _ => .pure _
  | MSTORE =>
    exact pop_same.bind fun off _ _ => pop_same.bind fun val _ _ => (chargeMem_same _ _).bind fun _ _ _ =>
      (memSet32_same _ _).bind fun _ _ _ => .pure _
  | MSTORE8 =>
    exact pop_same.bind fun off _ _ => pop_same.bind fun val _ _ => (chargeMem_same _ _).bind fun _ _ _ =>
      (memSet_same _ _).bind fun _ _ _ => .pure _
  | SLOAD =>
    unfold exec
    rw [h.getStorage]
    exact pop_same.bind fun key _ _ => (wordToHash_same _).bind fun _ _ _ => .of_get <|
      (push_same _).bind fun _ _ _ => .pure _
  | SSTORE => exact opSstore_mirror h
  | env op =>
    have hop : op.isOfTx = false := by
      cases hb : op.isOfTx with
      | false => rfl
      | true => exact absurd (.inl hb) hreads
    have hvalue : op.value w (m.inEnv env) = op.value v m :=
      envOp_value_eq h hop fun hself ha => hreads (.inr ⟨hself, ha⟩)
    refine .of_get ?_
    rw [hvalue]
    exact (push_same _).bind fun _ _ _ => .pure _
  | BALANCE =>
    refine pop_same.bind fun x t hx => (wordToAddress_same _).bind fun y u hy => ?_
    show Mirror _ _ (push (v.getBalance y) >>= _) (push (w.getBalance y) >>= _) _
    rw [h.getBalance y (top_ne hreads hx hy)]
    exact (push_same _).bind fun _ _ _ => .pure _
  | EXTCODESIZE =>
    unfold exec
    rw [h.getCode]
    exact pop_same.bind fun x _ _ => (wordToAddress_same _).bind fun y _ _ => (push_same _).bind fun _ _ _ => .pure _
  | EXTCODEHASH =>
    refine pop_same.bind fun x t hx => (wordToAddress_same _).bind fun y u hy => ?_
    have hhash : extcodehash w y = extcodehash v y := by
      refine extcodehash_eq h fun hya hcode => ?_
      refine top_ne (fun htop => hreads ⟨htop, hcode⟩) hx hy hya
    show Mirror _ _ (push (extcodehash v y) >>= _) (push (extcodehash w y) >>= _) _
    rw [hhash]
    exact (push_same _).bind fun _ _ _ => .pure _
  | CALLDATALOAD =>
    exact pop_same.bind fun off _ _ => .of_get <| (readData_same _ _ _).bind fun _ _ _ => (push_same _).bind fun _ _ _ => .pure _
  | CALLDATACOPY | CODECOPY =>
    exact pop_same.bind fun memOff _ _ => pop_same.bind fun dataOff _ _ => pop_same.bind fun length _ _ => .of_get <|
      (copyData_same _ _ _ _).bind fun _ _ _ => .pure _
  | EXTCODECOPY =>
    unfold exec
    rw [h.getCode]
    exact pop_same.bind fun addr _ _ => pop_same.bind fun memOff _ _ => pop_same.bind fun codeOff _ _ =>
      pop_same.bind fun length _ _ => (chargeMem_same _ _).bind fun _ _ _ => (useGas_same _).bind fun _ _ _ =>
      (wordToAddress_same _).bind fun _ _ _ => (readData_same _ _ _).bind fun _ _ _ => (memSet_same _ _).bind fun _ _ _ => .pure _
  | RETURNDATACOPY =>
    exact pop_same.bind fun memOff _ _ => pop_same.bind fun dataOff _ _ => pop_same.bind fun length _ _ => .of_get <|
      failIf_bind_mirror Iff.rfl <| (chargeMem_same _ _).bind fun _ _ _ => (useGas_same _).bind fun _ _ _ =>
      (slice_same _ _ _).bind fun _ _ _ => (memSet_same _ _).bind fun _ _ _ => .pure _
  | MCOPY =>
    exact pop_same.bind fun destOff _ _ => pop_same.bind fun srcOff _ _ => pop_same.bind fun length _ _ =>
      (chargeMem_same _ _).bind fun _ _ _ => (chargeMem_same _ _).bind fun _ _ _ => (useGas_same _).bind fun _ _ _ =>
      (memGet_same _ _).bind fun _ _ _ => (memSet_same _ _).bind fun _ _ _ => .pure _
  | JUMP => exact pop_same.bind fun dest _ _ => (jump_same _).bind fun _ _ _ => .pure _
  | JUMPI =>
    refine pop_same.bind fun dest _ _ => pop_same.bind fun cond _ _ => .ite (fun _ => ?_) fun _ => .pure _
    exact (jump_same _).bind fun _ _ _ => .pure _
  | JUMPDEST => exact .pure _
  | LOG n => exact opLog_mirror n
  | CREATE | CREATE2 => exact opCreate_mirror h _ hw fun ha => hreads (by rw [hm] at ha; exact ha)
  | CALL =>
    refine opCall_mirror h .regular hw fun ha _ x hx => ?_
    rw [hm] at ha
    by_contra hne
    exact hreads ⟨ha, x, hx, Nat.pos_of_ne_zero hne⟩
  | DELEGATECALL => exact opCall_mirror h .delegate hw fun _ hmode => by cases hmode
  | STATICCALL => exact opCall_mirror h .static hw fun _ hmode => by cases hmode
  | RETURN | REVERT => exact readMem_same.bind fun _ _ _ => .pure _
  | STOP | PUSH | DUP | SWAP | INVALID | unknown => exact Mirror.throw _

theorem useGas_ok {cost : UInt64} {u : Unit} (h : useGas cost m = .ok (u, t)) :
    t = { m with gas := t.gas } := by
  have h : (if m.gas < cost then fail .outOfGas else pure () : OpM Unit) m >>= (fun r => (modify fun m : Interp =>
    { m with gas := m.gas - cost } : OpM Unit) r.2) = .ok (u, t) := h
  split at h
  · cases h
  · cases h
    rfl

variable (env) in
/-- **A turn of the loop that does not read what differs acts alike.** -/
theorem dispatch_mirror [Crypto] (h : View.Agree a v w) {op : OpCode} (hm : m.WF) (hreads : ¬Reads a v m op) :
    Mirror (Interp.inEnv env) (Action.inEnv env) (dispatch v op) (dispatch w op) m := by
  refine (useGas_same _).bind fun _ t ht => ?_
  have hw := (useGas_spec _).ok hm.within ht
  have hreads : ¬Reads a v t op := by
    rw [useGas_ok ht]
    cases op <;> exact hreads
  have hexec := exec_mirror env h hw hw.ctx.symm hreads
  cases op with
  | STOP => exact .pure _
  | PUSH n => exact (doPush_same n).bind fun _ _ _ => .pure _
  | DUP n => exact (dup_same n).bind fun _ _ _ => advance_same.bind fun _ _ _ => .pure _
  | SWAP n => exact (swap_same n).bind fun _ _ _ => advance_same.bind fun _ _ _ => .pure _
  | _ => exact hexec.bind fun _ _ _ => advance_same.bind fun _ _ _ => .pure _

end Instructions

/-! ### Frames -/

section Frames

variable [Crypto] {σ τ : Type} [StateDB σ] [StateDB τ] {a : Address}

/-- The frame is about to look at its environment, or at the balance or the nonce of the account `a`. -/
def Observes (a : Address) (m : Interp) (s : σ) : Prop :=
  (∃ b, m.code[m.pc]? = some b ∧ Reads a (view s) m (decode b)) ∨
    ∃ p m', instruction m s = .ok (.create p, m') ∧ p.newAddr = a

/-- The operations of two states keep `R`, and read the same under it but for the balance and the nonce of `a`. -/
structure Blind (a : Address) (R : σ → τ → Prop) : Prop where
  view {s t} : R s t → View.Agree a (view s) (view t)
  setStorage {s t} (x : Address) (key value : Hash) : R s t → R (setStorage s x key value) (setStorage t x key value)
  setCode {s t} (x : Address) (code : Bytes) : R s t → R (setCode s x code) (setCode t x code)
  setNonce {s t} (x : Address) (n : UInt64) : R s t → R (setNonce s x n) (setNonce t x n)
  addBalance {s t} (x : Address) (v : ℤ) : R s t → R (addBalance s x v) (addBalance t x v)
  subBalance {s t} (x : Address) (v : ℤ) : R s t → R (subBalance s x v) (subBalance t x v)
  addLog {s t} (l : Log) : R s t → R (addLog s l) (addLog t l)
  snapshot {s t} : R s t → R (snapshot s) (snapshot t)
  revert {s t s' t'} : R s t → R s' t' → R (revertToSnapshot s' (snapshotId s)) (revertToSnapshot t' (snapshotId t))

/-- Two turns lead to the same frame up to its environment, or to the same result, in related states. -/
inductive RelTurn (env : Context) (R : σ → τ → Prop) : Except Abort (Step σ) → Except Abort (Step τ) → Prop
  | next {s t} (m : Interp) : R s t → RelTurn env R (.ok (.next m s)) (.ok (.next (m.inEnv env) t))
  | halt {s t} (r : Result) : R s t → RelTurn env R (.ok (.halt s r)) (.ok (.halt t r))
  | error (e : Abort) : RelTurn env R (.error e) (.error e)

variable {R : σ → τ → Prop} {rec : Frame σ} {rec' : Frame τ} {s : σ} {t : τ} {m' : Interp}

theorem finish_blind {rest : OpM Unit} (hrest : Same env rest m) (h : R s t) :
    RelTurn env R (finish rest m s) (finish rest (m.inEnv env) t) := by
  unfold finish
  rw [show rest (m.inEnv env) = _ from hrest]
  cases rest m with
  | ok x => exact .next _ h
  | error f =>
    cases f with
    | err e => exact .halt _ h
    | panic => exact .error _

theorem finishCall_same (p : CallPlan) (r : Result) : Same env (finishCall p r) m :=
  Mirror.modify_bind rfl <| .ite (fun _ => (slice_same _ _ _).bind fun _ _ _ => (memSet_same _ _).bind fun _ _ _ => push_same _)
    fun _ => push_same _

theorem finishCreate_same (gas : UInt64) (data : Bytes) (word : ℤ) : Same env (finishCreate gas data word) m :=
  Mirror.modify_bind rfl (push_same word)

variable (hR : Blind a R)

include hR

theorem Blind.transfer (h : R s t) (source target : Address) (value : ℤ) :
    R (transfer s source target value) (transfer t source target value) := by
  unfold Vm.transfer
  split
  · exact hR.addBalance target value (hR.subBalance source value h)
  · exact h

theorem performCall_blind {p : CallPlan} (h : R s t)
    (hrec : precompileFor p.target = none → ∀ t', R (enterCall m.ctx p.target p.value s) t' →
      RelRun R (rec (callFrame p m (enterCall m.ctx p.target p.value s)) (enterCall m.ctx p.target p.value s))
        (rec' ((callFrame p m (enterCall m.ctx p.target p.value s)).inEnv env) t')) :
    RelTurn env R (performCall rec p m s)
      (performCall rec' { p with sub := p.sub.inEnv env } (m.inEnv env) t) := by
  have henter := hR.transfer (hR.snapshot h) m.ctx.address p.target p.value
  have hcallee : RelRun R (callee rec m p (enterCall m.ctx p.target p.value s))
      (callee rec' (m.inEnv env) { p with sub := p.sub.inEnv env } (enterCall m.ctx p.target p.value t)) := by
    unfold callee
    cases hnative : precompileFor p.target with
    | some native => exact .ok _ henter
    | none =>
      have hcode : getCode (enterCall m.ctx p.target p.value s) = getCode (enterCall m.ctx p.target p.value t) :=
        (hR.view henter).getCode
      dsimp only
      rw [← hcode]
      exact hrec hnative _ henter
  unfold performCall
  change RelTurn env R (callee rec m p (enterCall m.ctx p.target p.value s) >>= _)
    (callee rec' (m.inEnv env) { p with sub := p.sub.inEnv env } (enterCall m.ctx p.target p.value t) >>= _)
  generalize callee rec m p _ = x at hcallee ⊢
  generalize callee rec' _ _ _ = y at hcallee ⊢
  cases hcallee with
  | error e => exact .error e
  | ok r hst =>
    refine finish_blind (finishCall_same p r) ?_
    split
    · exact hR.revert h hst
    · exact hst

theorem performCreate_blind {p : CreatePlan} (h : R s t) (hnonce : p.nonce = getNonce s m.ctx.address)
    (hnew : p.newAddr ≠ a)
    (hrec : Fresh p m.ctx s → ∀ t', R (enterCreate m.ctx p.newAddr p.value s) t' →
      RelRun R (rec (createFrame p m) (enterCreate m.ctx p.newAddr p.value s))
        (rec' ((createFrame p m).inEnv env) t')) :
    RelTurn env R (performCreate rec p m s)
      (performCreate rec' { p with sub := p.sub.inEnv env } (m.inEnv env) t) := by
  have hbump : setNonce s m.ctx.address (p.nonce + 1) = bumpNonce m.ctx s := by rw [hnonce]; rfl
  have h₁ : R (bumpNonce m.ctx s) (setNonce t m.ctx.address (p.nonce + 1)) := hbump ▸ hR.setNonce _ _ h
  have hagree := hR.view h₁
  have hlive : (getNonce (setNonce t m.ctx.address (p.nonce + 1)) p.newAddr ≠ 0 ∨
      0 < (getCode (setNonce t m.ctx.address (p.nonce + 1)) p.newAddr).length) ↔
      (getNonce (bumpNonce m.ctx s) p.newAddr ≠ 0 ∨ 0 < (getCode (bumpNonce m.ctx s) p.newAddr).length) := by
    rw [show getNonce (bumpNonce m.ctx s) p.newAddr = getNonce (setNonce t m.ctx.address (p.nonce + 1)) p.newAddr from
        hagree.getNonce _ hnew,
      show getCode (bumpNonce m.ctx s) = getCode (setNonce t m.ctx.address (p.nonce + 1)) from hagree.getCode]
  unfold performCreate
  dsimp only
  rw [hbump]
  change RelTurn env R (if getNonce (bumpNonce m.ctx s) p.newAddr ≠ 0 ∨ _ then _ else _)
    (if getNonce (setNonce t m.ctx.address (p.nonce + 1)) p.newAddr ≠ 0 ∨
      0 < (getCode (setNonce t m.ctx.address (p.nonce + 1)) p.newAddr).length then _ else _)
  by_cases hfull : getNonce (bumpNonce m.ctx s) p.newAddr ≠ 0 ∨ 0 < (getCode (bumpNonce m.ctx s) p.newAddr).length
  · rw [if_pos hfull, if_pos (hlive.2 hfull)]
    exact finish_blind (push_same 0) h₁
  · rw [if_neg hfull, if_neg fun h' => hfull (hlive.1 h')]
    have hinit := hrec (not_live_iff.1 hfull) _ (hR.transfer (hR.snapshot h₁) m.ctx.address p.newAddr p.value)
    change RelTurn env R (rec (createFrame p m) (enterCreate m.ctx p.newAddr p.value s) >>= _)
      (rec' ((createFrame p m).inEnv env) (Vm.transfer (StateDB.snapshot (setNonce t m.ctx.address (p.nonce + 1)))
        m.ctx.address p.newAddr p.value) >>= _)
    generalize rec _ _ = x at hinit ⊢
    generalize rec' _ _ = y at hinit ⊢
    cases hinit with
    | error e => exact .error e
    | ok r hst =>
      have hback := hR.revert h₁ hst
      show RelTurn env R (if r.err.isSome then _ else _) (if r.err.isSome then _ else _)
      split
      · exact finish_blind (finishCreate_same _ _ _) hback
      · split
        · exact finish_blind (finishCreate_same _ _ _) hback
        · show RelTurn env R (if m.gas + r.gasLeft < _ then _ else _) (if m.gas + r.gasLeft < _ then _ else _)
          split
          · exact finish_blind (finishCreate_same _ _ _) hback
          · exact finish_blind (finishCreate_same _ _ _) (hR.setCode p.newAddr r.ret hst)

variable {B₀ B : List Address} {m₀ : Interp} {s₀ : σ}

variable (env) in
theorem runStep_blind (hd : During B₀ m₀ s₀ B m s) (hm : m.WF) (hquiet : ¬Observes a m s) (h : R s t)
    (hrec : ∀ B m s t, During B₀ m₀ s₀ B m s → m.WF → R s t → RelRun R (rec m s) (rec' (m.inEnv env) t)) :
    RelTurn env R (runStep rec m s) (runStep rec' (m.inEnv env) t) := by
  unfold runStep
  have hcode : (m.inEnv env).code[(m.inEnv env).pc]? = m.code[m.pc]? := rfl
  rw [hcode]
  cases hb : m.code[m.pc]? with
  | none => exact .halt _ h
  | some b =>
    have hreads : ¬Reads a (view s) m (decode b) := fun hr => hquiet (.inl ⟨b, hb, hr⟩)
    have hmirror := dispatch_mirror env (hR.view h) hm hreads
    dsimp only
    rw [show dispatch (Vm.view t) (decode b) (m.inEnv env) = _ from hmirror]
    cases hr : dispatch (Vm.view s) (decode b) m with
    | error f =>
      cases f with
      | err e => exact .halt _ h
      | panic => exact .error _
    | ok x =>
      obtain ⟨act, m'⟩ := x
      have hi : instruction m s = .ok (act, m') := by rw [instruction, hb]; exact hr
      obtain ⟨hw, hact⟩ := (dispatch_spec (v := Vm.view s) hm (decode b)).ok rfl hr
      have hctx : m'.ctx = m.ctx := hw.ctx
      cases act with
      | next => exact .next _ h
      | ret d => exact .halt _ h
      | revert d => exact .halt _ h
      | sstore key value => exact .next _ (hR.setStorage _ key value h)
      | log l => exact .next _ (hR.addLog l h)
      | call p =>
        refine performCall_blind hR h fun hn t' ht' => ?_
        rw [hctx] at ht' ⊢
        exact hrec _ _ _ _ (hd.call hi hn) (newInterp_wf _ _ _ _ _) ht'
      | create p =>
        have hp : p.Ok (Vm.view s) m := hact.2
        refine performCreate_blind hR h (by rw [hctx]; exact hp.nonce) (fun hnew => hquiet (.inr ⟨p, m', hi, hnew⟩)) ?_
        rw [hctx]
        exact fun hf t' ht' => hrec _ _ _ _ (hd.create hi hf) (newInterp_wf _ _ _ _ _) ht'

variable (env) in
theorem runFuel_blind (h₀ : m₀.WF) (hquiet : ∀ B m s, During B₀ m₀ s₀ B m s → ¬Observes a m s) :
    ∀ (n : ℕ) (B : List Address) (m : Interp) (s : σ) (t : τ), During B₀ m₀ s₀ B m s → R s t →
      RelRun R (runFuel n m s) (runFuel n (m.inEnv env) t)
  | 0, _, _, _, _, _, _ => .error _
  | n + 1, B, m, s, t, hd, h => by
    have hturn := runStep_blind env hR hd (hd.wf h₀) (hquiet B m s hd) h fun B m s t hd _ =>
      runFuel_blind h₀ hquiet n B m s t hd
    unfold runFuel
    cases hst : runStep (runFuel n) m s with
    | error e =>
      rw [hst] at hturn
      generalize runStep (runFuel n) (m.inEnv env) t = y at hturn ⊢
      cases hturn
      exact .error e
    | ok st =>
      have hrun := runStep_mono (refines_run n) hst
      rw [hst] at hturn
      generalize runStep (runFuel n) (m.inEnv env) t = y at hturn ⊢
      cases hturn with
      | halt r h' => exact .ok r h'
      | next m' h' => exact runFuel_blind h₀ hquiet n B m' _ _ (hd.next hrun) h'

variable (env) in
theorem execute_blind {code input : Bytes} {gas : UInt64} {ctx : Context} {depth : ℕ} (h : R s t)
    (hquiet : ∀ B m s', During [] (newInterp code input gas ctx depth) s B m s' → ¬Observes a m s') :
    RelRun R (execute code input gas ctx depth s) (execute code input gas (ctx.inEnv env) depth t) :=
  runFuel_blind env hR (newInterp_wf code input gas ctx depth) hquiet _ [] _ s t .start h

end Frames

end Lxs.Vm
