import Lxs.State.Creation

/-!
# Deployment by `CREATE` and by a creation transaction

Both run the init code in a frame of its own, check the size of what it returns and take the price of storing it. The
instruction takes that price from the creator's gas together with what the init frame left, and keeps this leftover when
the code is too large or cannot be paid; the transaction takes it from the leftover alone and burns the budget.

* `create_agrees_iff`: over one and the same init frame **the two agree exactly when the leftover of the init frame decides**.
-/

set_option linter.unusedSectionVars false

namespace Lxs

open Vm Lib.Hoare

variable [Crypto]

/-! ### The words `opCreate` takes from the stack -/

section Stack

variable {α : Type} {n k : ℕ} {R : α → Interp → Prop}

def Popped (n k : ℕ) (m : Interp) : Prop := m.stack.length + k ≤ n

theorem popped_pop : Ends (Popped n k) pop fun _ => Popped n (k + 1) := by
  refine .of_get fun m hm => ?_
  split
  · exact .throw trivial
  · rename_i v stack hs
    refine .bind (Q := fun _ => Popped n (k + 1)) (.modify fun t ht => ?_) fun _ => .pure fun _ h => h
    unfold Popped at hm ⊢
    rw [hs, List.length_cons] at hm
    dsimp only
    omega

theorem popped_popIf {c : Prop} [Decidable c] : Ends (Popped n k) (popIf c) fun _ => Popped n k := by
  unfold popIf
  refine .ite (fun _ => popped_pop.post fun _ m hm => ?_) fun _ => .pure fun _ h => h
  unfold Popped at hm ⊢
  omega

theorem popped_failIf {c : Prop} [Decidable c] {e : VmError} : Ends (Popped n k) (failIf c e) fun _ => Popped n k :=
  .ite (fun _ => .throw trivial) fun _ => .pure fun _ h => h

theorem popped_useGas (cost : UInt64) : Ends (Popped n k) (useGas cost) fun _ => Popped n k :=
  .of_get fun _ hm => .bind (Q := fun _ => Popped n k) (popped_failIf.pre fun _ ht => ht ▸ hm) fun _ =>
    .modify fun _ h => h

theorem popped_chargeMem (off size : ℕ) : Ends (Popped n k) (chargeMem off size) fun _ => Popped n k := by
  unfold chargeMem
  refine .ite (fun _ => .pure fun _ h => h) fun _ => ?_
  refine .bind popped_failIf fun _ => .of_get fun m hm => ?_
  split
  · exact .throw trivial
  · refine .bind (Q := fun _ => Popped n k) ((popped_useGas _).pre fun t ht => ht ▸ hm) fun _ => .modify fun _ h => h

theorem popped_memGet (off size : UInt64) : Ends (Popped n k) (memGet off size) fun _ => Popped n k := by
  refine .of_get fun m hm => .ite (fun _ => .pure fun _ ht => ht ▸ hm) fun _ => ?_
  refine .bind (Q := fun _ => Popped n k) ?_ fun _ => .pure fun _ h => h
  unfold slice
  exact .ite (fun _ => .pure fun _ ht => ht ▸ hm) fun _ => .throw trivial

theorem popped_newAddress {create2 : Bool} {creator : Address} {nonce : UInt64} {salt : ℕ} {initCode : Bytes} :
    Ends (Popped n k) (newAddress create2 creator nonce salt initCode) fun _ => Popped n k := by
  have hword : Ends (Popped n k) (wordToHash salt) fun _ => Popped n k := by
    unfold wordToHash
    refine .ite (fun _ => ?_) fun _ => .pure fun _ h => h
    exact .bind (Q := fun _ _ => False) (.throw trivial) fun _ _ h => h.elim
  unfold newAddress
  refine .ite (fun _ => .bind hword fun _ => .pure fun _ h => h) fun _ => .pure fun _ h => h

theorem popped_opCreate {v : View} {create2 : Bool} :
    Ends (Popped n 0) (opCreate v create2) fun act m => ∀ p, act = .create p → Popped n 3 m := by
  have hrefuse : ∀ {P : Interp → Prop}, Ends P refuse fun act m => ∀ p, act = .create p → Popped n 3 m :=
    fun {P} => .bind (Q := fun _ _ => True) (fun s _ => by split <;> trivial) fun _ => .pure fun _ _ p h => by cases h
  refine .of_get fun m₁ hm₁ => .bind (Q := fun _ => Popped n 0) (popped_failIf.pre fun _ ht => ht ▸ hm₁) fun _ => ?_
  refine .bind popped_pop fun value => .bind popped_pop fun offset => .bind popped_pop fun size => ?_
  refine .bind popped_popIf fun salt => .bind (popped_useGas _) fun _ => .bind (popped_chargeMem _ _) fun _ => ?_
  refine .bind (popped_useGas _) fun _ => .bind (popped_memGet _ _) fun initCode => ?_
  refine .bind (Q := fun _ => Popped n 3) (.modify fun _ h => h) fun _ => .of_get fun m hm => ?_
  dsimp only
  split
  · exact hrefuse
  split
  · exact hrefuse
  refine .bind (Q := fun _ => Popped n 3) (popped_newAddress.pre fun _ ht => ht ▸ hm) fun newAddr => ?_
  exact .bind (Q := fun _ => Popped n 3) (.modify fun _ h => h) fun _ => .pure fun _ h p _ => h

end Stack

/-! ### What each of them leaves -/

section Outcomes

variable {m₀ m : Interp} {s t u t' : State} {p : CreatePlan} {res : Result}

theorem finishCreate_next (hroom : m.stack.length < maxStack) (gas : UInt64) (returnData : Bytes) (word : ℤ) :
    finish (finishCreate gas returnData word) m s =
      .ok (.next { m with gas := gas, returnData := returnData, stack := wrap word :: m.stack } s) := by
  have hpush : finishCreate gas returnData word m =
      .ok ((), { m with gas := gas, returnData := returnData, stack := wrap word :: m.stack }) := by
    show (failIf (maxStack ≤ m.stack.length) .stackOverflow >>= fun _ => _ : OpM Unit) _ = _
    rw [failIf, if_neg (Nat.not_le.2 hroom)]
    rfl
  rw [finish, hpush]

theorem wrap_address (a : Address) : wrap (a.toNat : ℤ) = a.toNat := by
  have hlt : a.toNat < tt256 := a.isLt.trans (by decide)
  unfold wrap
  rw [← Int.natCast_mod, Nat.mod_eq_of_lt hlt, Int.toNat_natCast]

def created (p : CreatePlan) (m : Interp) (snap : ℕ) (t : State) (res : Result) : Step State :=
  let codeGas := createDataGas * UInt64.ofNat res.ret.length
  if res.err.isSome then
    .next { m with gas := m.gas + res.gasLeft, returnData := res.ret, stack := 0 :: m.stack } (t.revertToSnapshot snap)
  else if maxCodeSize < res.ret.length ∨ m.gas + res.gasLeft < codeGas then
    .next { m with gas := m.gas + res.gasLeft, returnData := [], stack := 0 :: m.stack } (t.revertToSnapshot snap)
  else
    .next { m with gas := m.gas + res.gasLeft - codeGas, returnData := [], stack := p.newAddr.toNat :: m.stack }
      (t.setCode p.newAddr res.ret)

theorem performCreate_eq (hp : p.Ok (view s) m₀) (hctx : m.ctx = m₀.ctx) (hroom : m.stack.length < maxStack)
    (hfresh : Fresh p m₀.ctx s)
    (hinit : run (createFrame p m) (enterCreate m₀.ctx p.newAddr p.value s) = .ok (t, res)) :
    performCreate run p m s = .ok (created p m (bumpNonce m₀.ctx s).snapshots.length t res) := by
  have hnonce : StateDB.setNonce s m₀.ctx.address (p.nonce + 1) = bumpNonce m₀.ctx s := by rw [hp.nonce]; rfl
  have hinit' : run (newInterp p.initCode [] p.give p.sub (m.depth + 1))
      (transfer (StateDB.snapshot (bumpNonce m₀.ctx s)) m₀.ctx.address p.newAddr p.value) = .ok (t, res) := hinit
  unfold performCreate
  dsimp only
  rw [hctx, hnonce, if_neg (not_live_iff.2 hfresh), hinit']
  show (if res.err.isSome then _ else _) = _
  unfold created
  dsimp only
  by_cases herr : res.err.isSome = true
  · rw [if_pos herr, if_pos herr, finishCreate_next hroom]
    rfl
  rw [if_neg herr, if_neg herr]
  by_cases hsize : maxCodeSize < res.ret.length
  · rw [if_pos hsize, if_pos (.inl hsize), finishCreate_next hroom]
    rfl
  rw [if_neg hsize]
  by_cases hgas : m.gas + res.gasLeft < createDataGas * UInt64.ofNat res.ret.length
  · rw [if_pos hgas, if_pos (.inr hgas), finishCreate_next hroom]
    rfl
  · rw [if_neg hgas, if_neg (not_or.2 ⟨hsize, hgas⟩), finishCreate_next hroom, wrap_address]
    rfl

def deployed (addr : Address) (budget : UInt64) (t : State) (res : Result) : TxRun :=
  let codeGas := codeDepositGas * UInt64.ofNat res.ret.length
  if res.err.isSome then .ofResult t budget res
  else if maxCodeSize < res.ret.length then ⟨t, budget, some (.vm .maxCodeSize)⟩
  else if res.gasLeft < codeGas then ⟨t, budget, some (.vm .outOfGas)⟩
  else ⟨t.setCode addr res.ret, budget - res.gasLeft + codeGas, none⟩

theorem runCreation_eq {ctx : Address → Context} {tx : Transaction} {sender : Address} {value : ℤ} {budget : UInt64}
    (hnonce : u.nonce (createAddress sender tx.nonce) = 0) (hcode : u.getCode (createAddress sender tx.nonce) = [])
    (hinit : execute tx.data [] budget (ctx (createAddress sender tx.nonce)) 0
      (u.credit (createAddress sender tx.nonce) value) = .ok (t', res)) :
    runCreation ctx tx sender value budget u = some (deployed (createAddress sender tx.nonce) budget t' res) := by
  unfold runCreation
  dsimp only
  rw [if_neg (not_live_iff.2 ⟨hnonce, hcode⟩), hinit]
  unfold deployed
  dsimp only
  split_ifs <;> rfl

end Outcomes

/-! ### When they agree -/

/-- The instruction deploys when the transaction does, and with the same code; where the transaction fails it fails too,
and unless the init code reverted both use up the whole budget. -/
structure Agrees (p : CreatePlan) (m : Interp) (snap : ℕ) (t : State) (res : Result) (st : Step State) (addr : Address)
    (t' : State) (r : TxRun) : Prop where
  success : r.fault = none →
    (∃ m', st = .next m' (t.setCode p.newAddr res.ret) ∧ m'.stack = p.newAddr.toNat :: m.stack) ∧
      r.state = t'.setCode addr res.ret
  failure : ∀ f, r.fault = some f → ∃ m', st = .next m' (t.revertToSnapshot snap) ∧ m'.stack = 0 :: m.stack ∧
    (f ≠ .vm .reverted → m'.gas = m.gas ∧ r.gasUsed = p.give)

/-- What the init frame left pays for the code it returned, or it left nothing and the creator's own `gas` does not pay
for it either. -/
def LeftoverDecides (gas : UInt64) (res : Result) : Prop :=
  res.err = none →
    res.ret.length ≤ maxCodeSize ∧ codeDepositGas * UInt64.ofNat res.ret.length ≤ res.gasLeft ∨
      res.gasLeft = 0 ∧ (maxCodeSize < res.ret.length ∨ gas < codeDepositGas * UInt64.ofNat res.ret.length)

section Agreement

variable {m₀ m : Interp} {s t u t' : State} {p : CreatePlan} {res : Result} {snap : ℕ} {addr : Address}

theorem gas_kept_iff (gas left : UInt64) : gas + left = gas ↔ left = 0 := by
  constructor
  · intro h
    have h' : gas + left = gas + 0 := by rw [h, UInt64.add_zero]
    exact UInt64.add_right_inj gas |>.1 h'
  · rintro rfl
    exact UInt64.add_zero _

/-- Where the transaction cannot store the code, the two agree when the instruction cannot either and nothing is left. -/
theorem agrees_fault_iff {f : VmError} (hf : f ≠ .reverted) (herr : res.err = none)
    (hwrap : (m.gas + res.gasLeft).toNat = m.gas.toNat + res.gasLeft.toNat)
    (hfail : maxCodeSize < res.ret.length ∨ res.gasLeft < codeDepositGas * UInt64.ofNat res.ret.length) :
    Agrees p m snap t res (created p m snap t res) addr t' ⟨t', p.give, some (.vm f)⟩ ↔
      res.gasLeft = 0 ∧ (maxCodeSize < res.ret.length ∨ m.gas < codeDepositGas * UInt64.ofNat res.ret.length) := by
  have hnone : ¬res.err.isSome = true := by simp [herr]
  constructor
  · intro h
    obtain ⟨m', hst, -, hburn⟩ := h.failure _ rfl
    have hgas : m'.gas = m.gas := (hburn fun hf' => hf (by cases hf'; rfl)).1
    unfold created at hst
    dsimp only at hst
    rw [if_neg hnone] at hst
    split_ifs at hst with hrefused
    · cases hst
      have hleft := (gas_kept_iff _ _).1 hgas
      rw [hleft, UInt64.add_zero] at hrefused
      exact ⟨hleft, hrefused⟩
    · -- the instruction deploys, and pays more than the init frame left
      exfalso
      obtain ⟨hsize, hpays⟩ := not_or.1 hrefused
      have hlt := UInt64.lt_iff_toNat_lt.1 (hfail.resolve_left hsize)
      have hle := UInt64.not_lt.1 hpays
      have hsub := UInt64.toNat_sub_of_le _ _ hle
      have hle' := UInt64.le_iff_toNat_le.1 hle
      injection hst with hm' _
      rw [← hm'] at hgas
      have hgas' := congrArg UInt64.toNat hgas
      dsimp only at hgas'
      rw [hsub, hwrap] at hgas'
      rw [hwrap] at hle'
      change res.gasLeft.toNat < (createDataGas * UInt64.ofNat res.ret.length).toNat at hlt
      omega
  · rintro ⟨hleft, hrefused⟩
    refine ⟨(fun h => by cases h), fun f' _ => ⟨{ m with gas := m.gas + res.gasLeft, returnData := [], stack := 0 :: m.stack },
      ?_, rfl, fun _ => ⟨?_, rfl⟩⟩⟩
    · unfold created
      dsimp only
      rw [if_neg hnone, if_pos]
      rw [hleft, UInt64.add_zero]
      exact hrefused
    · rw [hleft]
      exact UInt64.add_zero _

theorem agrees_iff (hres : ResultOk p.give res)
    (hwrap : (m.gas + res.gasLeft).toNat = m.gas.toNat + res.gasLeft.toNat) :
    Agrees p m snap t res (created p m snap t res) addr t' (deployed addr p.give t' res) ↔ LeftoverDecides m.gas res := by
  cases herr : res.err with
  | some e =>
    -- the init code failed in both
    have hsome : res.err.isSome = true := by simp [herr]
    refine iff_of_true ⟨fun h => ?_, fun f hf => ?_⟩ fun h => by rw [herr] at h; cases h
    · rw [deployed, if_pos hsome, TxRun.ofResult, herr] at h
      cases h
    · rw [deployed, if_pos hsome, TxRun.ofResult, herr] at hf
      cases hf
      refine ⟨_, by rw [created, if_pos hsome], rfl, fun hne => ?_⟩
      have hleft := hres.burns e herr fun h => hne (by rw [h])
      rw [deployed, if_pos hsome, TxRun.ofResult, hleft]
      exact ⟨UInt64.add_zero _, UInt64.sub_zero _⟩
  | none =>
    have hnone : ¬res.err.isSome = true := by simp [herr]
    by_cases hsize : maxCodeSize < res.ret.length
    · rw [deployed, if_neg hnone, if_pos hsize, agrees_fault_iff (by decide) herr hwrap (.inl hsize)]
      unfold LeftoverDecides
      constructor
      · exact fun h _ => .inr h
      · intro h
        obtain ⟨hle, -⟩ | h := h herr
        · omega
        · exact h
    by_cases hpays : res.gasLeft < codeDepositGas * UInt64.ofNat res.ret.length
    · rw [deployed, if_neg hnone, if_neg hsize, if_pos hpays, agrees_fault_iff (by decide) herr hwrap (.inr hpays)]
      constructor
      · exact fun h _ => .inr h
      · intro h
        obtain ⟨-, hle⟩ | h := h herr
        · exact absurd hpays (UInt64.not_lt.2 hle)
        · exact h
    · -- what is left pays for the code
      refine iff_of_true ⟨fun _ => ?_, fun f hf => ?_⟩ fun _ => .inl ⟨Nat.not_lt.1 hsize, UInt64.not_lt.1 hpays⟩
      · rw [deployed, if_neg hnone, if_neg hsize, if_neg hpays, created, if_neg hnone, if_neg]
        · exact ⟨⟨_, rfl, rfl⟩, rfl⟩
        · refine not_or.2 ⟨hsize, UInt64.not_lt.2 ?_⟩
          have hle := UInt64.le_iff_toNat_le.1 (UInt64.not_lt.1 hpays)
          rw [UInt64.le_iff_toNat_le, hwrap]
          exact hle.trans (Nat.le_add_left _ _)
      · rw [deployed, if_neg hnone, if_neg hsize, if_neg hpays] at hf
        cases hf

end Agreement

/-- A frame about to create a contract and a creation transaction, of one init code with one budget, both at a fresh
address, whose init frames return the same. -/
structure Twin where
  frame : Interp
  state : State
  create2 : Bool
  plan : CreatePlan
  creator : Interp
  tx : Transaction
  sender : Address
  value : ℤ
  ctx : Address → Context
  txState : State
  result : Result
  /-- the states in which the init frames return -/
  after : State
  txAfter : State
  wf : frame.WF
  stack_le : frame.stack.length ≤ maxStack
  plan_eq : opCreate (view state) create2 frame = .ok (.create plan, creator)
  fresh : Fresh plan frame.ctx state
  data_eq : tx.data = plan.initCode
  tx_nonce : txState.nonce (createAddress sender tx.nonce) = 0
  tx_code : txState.getCode (createAddress sender tx.nonce) = []
  init : run (createFrame plan creator) (enterCreate frame.ctx plan.newAddr plan.value state) = .ok (after, result)
  tx_init : execute plan.initCode [] plan.give (ctx (createAddress sender tx.nonce)) 0
    (txState.credit (createAddress sender tx.nonce) value) = .ok (txAfter, result)

namespace Twin

variable (d : Twin)

def snap : ℕ := (bumpNonce d.frame.ctx d.state).snapshots.length

def Agree : Prop :=
  ∃ st r, performCreate run d.plan d.creator d.state = .ok st ∧
    runCreation d.ctx d.tx d.sender d.value d.plan.give d.txState = some r ∧
    Agrees d.plan d.creator d.snap d.after d.result st (createAddress d.sender d.tx.nonce) d.txAfter r

theorem performCreate_created : performCreate run d.plan d.creator d.state =
    .ok (created d.plan d.creator d.snap d.after d.result) := by
  obtain ⟨hw, -, hp⟩ := (opCreate_spec (v := view d.state) d.create2).ok d.wf.within d.plan_eq
  have hpopped := popped_opCreate.ok (show Popped d.frame.stack.length 0 d.frame from le_rfl) d.plan_eq d.plan rfl
  have hstack := d.stack_le
  have hroom : d.creator.stack.length < maxStack := by
    unfold Popped at hpopped
    omega
  exact performCreate_eq hp hw.ctx hroom d.fresh d.init

theorem runCreation_deployed : runCreation d.ctx d.tx d.sender d.value d.plan.give d.txState =
    some (deployed (createAddress d.sender d.tx.nonce) d.plan.give d.txAfter d.result) :=
  runCreation_eq d.tx_nonce d.tx_code (by rw [d.data_eq]; exact d.tx_init)

theorem resultOk : ResultOk d.plan.give d.result := by
  obtain ⟨t, res, hres, hok⟩ := run_ok (m := createFrame d.plan d.creator) (newInterp_wf _ _ _ _ _)
    (enterCreate d.frame.ctx d.plan.newAddr d.plan.value d.state)
  rw [d.init] at hres
  cases hres
  exact hok

/-- **`CREATE` agrees with a creation transaction exactly when what the init frame left decides.** -/
theorem create_agrees_iff : d.Agree ↔ LeftoverDecides d.creator.gas d.result := by
  have hwrap : (d.creator.gas + d.result.gasLeft).toNat = d.creator.gas.toNat + d.result.gasLeft.toNat := by
    obtain ⟨-, hgas, -⟩ := (opCreate_spec (v := view d.state) d.create2).ok d.wf.within d.plan_eq
    have hleft := d.resultOk.left
    exact toNat_refund (show d.creator.gas.toNat + d.result.gasLeft.toNat < d.frame.gas.toNat by omega)
  have hiff : Agrees d.plan d.creator d.snap d.after d.result (created d.plan d.creator d.snap d.after d.result)
      (createAddress d.sender d.tx.nonce) d.txAfter
      (deployed (createAddress d.sender d.tx.nonce) d.plan.give d.txAfter d.result) ↔
        LeftoverDecides d.creator.gas d.result :=
    agrees_iff d.resultOk hwrap
  rw [← hiff]
  constructor
  · rintro ⟨st, r, hst, hr, hagree⟩
    rw [d.performCreate_created] at hst
    rw [d.runCreation_deployed] at hr
    cases hst
    cases hr
    exact hagree
  · intro hagree
    exact ⟨_, _, d.performCreate_created, d.runCreation_deployed, hagree⟩

end Twin

/-! ### A contract that returns empty code of some length -/

def zerosInit (n : UInt8) : Bytes := [0x60, n, 0x60, 0, 0xf3]

/-- Writes the init code to memory and creates a contract with it. -/
def zerosCreator (n : UInt8) : Bytes :=
  0x64 :: (zerosInit n ++ [0x60, 0, 0x52, 0x60, 5, 0x60, 27, 0x60, 0, 0xf0, 0])

def zerosSender : Address := senderAddr

@[reducible]
def zerosCrypto : Crypto :=
  tableCrypto
    [((23, 0xd694000000000000000000000000000000000000c0de80),
      0xec7378b2df9e2ddae7e347138bbc3514477d75ec797bbe4e19d7961660bb849c),
     ((23, 0xd6947e5f4552091a69125d5dfcb7b8c2659029395bdf80),
      0x6a120af821c27670f30be89ff2e246bb76df876cef8b38ae84130f4f55de395b)] []

def zerosContext (address : Address) : Context :=
  ⟨address, zerosSender, 0, 30000000, zerosSender, 1, 9, 1, 1000, 1, 1, 0, false⟩

def zerosState (n : UInt8) : State := (State.new.credit zerosSender 1000000).setCode 0xc0de (zerosCreator n)

def zerosTx (n : UInt8) : Transaction := ⟨0, 1, 0, none, some 0, 80000, some 1, zerosInit n, []⟩

/-- The creator's frame when it reaches its `CREATE` with 51200 gas, and the transaction. -/
def zerosTwin (n : UInt8) : Option (@Twin zerosCrypto) :=
  letI := zerosCrypto
  match turns 6 (newInterp (zerosCreator n) [] 51221 (zerosContext 0xc0de) 0) (zerosState n) with
  | none => none
  | some (m₀, s) =>
    match hplan : opCreate (view s) false m₀ with
    | .ok (.create p, m) =>
      match hinit : run (createFrame p m) (enterCreate m₀.ctx p.newAddr p.value s),
        htx : execute p.initCode [] p.give (zerosContext (createAddress zerosSender (zerosTx n).nonce)) 0
          ((zerosState n).credit (createAddress zerosSender (zerosTx n).nonce) 0) with
      | .ok (t, res), .ok (t', res') =>
        if h : (∀ w ∈ m₀.stack, w < tt256) ∧ m₀.stack.length ≤ maxStack ∧
            ((bumpNonce m₀.ctx s).nonce p.newAddr = 0 ∧ (bumpNonce m₀.ctx s).getCode p.newAddr = []) ∧
            (zerosTx n).data = p.initCode ∧ (zerosState n).nonce (createAddress zerosSender (zerosTx n).nonce) = 0 ∧
            (zerosState n).getCode (createAddress zerosSender (zerosTx n).nonce) = [] ∧ res = res' then
          some {
            frame := m₀, state := s, create2 := false, plan := p, creator := m, tx := zerosTx n, sender := zerosSender
            value := 0, ctx := zerosContext, txState := zerosState n, result := res, after := t, txAfter := t'
            wf := h.1, stack_le := h.2.1, plan_eq := hplan, fresh := h.2.2.1, data_eq := h.2.2.2.1
            tx_nonce := h.2.2.2.2.1, tx_code := h.2.2.2.2.2.1, init := hinit
            tx_init := by rw [htx, h.2.2.2.2.2.2] }
        else none
      | _, _ => none
    | _ => none

/-- The transaction cannot pay for the code; the instruction pays for it, or refuses and keeps what was left. -/
def Twin.disagrees (d : Twin) : Bool :=
  match performCreate run d.plan d.creator d.state, runCreation d.ctx d.tx d.sender d.value d.plan.give d.txState with
  | .ok (.next m' _), some r => decide (r.fault = some (.vm .outOfGas)) && decide (m'.gas ≠ d.creator.gas)
  | _, _ => false

theorem Twin.not_agree_of_disagrees {d : Twin} (h : d.disagrees = true) : ¬d.Agree := by
  rintro ⟨st, r, hst, hr, hagree⟩
  unfold disagrees at h
  rw [hst, hr] at h
  cases st with
  | halt s' res => cases h
  | next m' s' =>
    simp only [Bool.and_eq_true, decide_eq_true_eq] at h
    obtain ⟨m'', hnext, -, hburn⟩ := hagree.failure _ h.1
    cases hnext
    exact h.2 (hburn (by decide)).1

/-- The word the instruction pushes, the creator's gas and the length of the code at the new address. -/
def Twin.outcome (d : Twin) : Option (ℕ × UInt64 × ℕ) :=
  match performCreate run d.plan d.creator d.state with
  | .ok (.next m' s') => some (m'.stack.headD 0, m'.gas, (s'.getCode d.plan.newAddr).length)
  | _ => none

omit [Crypto] in
/-- **The instruction deploys 95 bytes that the transaction cannot pay for**, and after a deposit of 200 bytes that it
cannot pay for either it still has what the init frame left. -/
theorem create_differs :
    (∃ d, zerosTwin 95 = some d ∧ (@Twin.plan zerosCrypto d).give = 18900 ∧
      @Twin.outcome zerosCrypto d = some (0x8bbc3514477d75ec797bbe4e19d7961660bb849c, 185, 95) ∧
      ¬@Twin.Agree zerosCrypto d) ∧
      ∃ d, zerosTwin 200 = some d ∧ (@Twin.creator zerosCrypto d).gas = 300 ∧ @Twin.outcome zerosCrypto d = some (0, 19173, 0) ∧
        ¬@Twin.Agree zerosCrypto d := by
  have hpays : (zerosTwin 95).map (fun d => ((@Twin.plan zerosCrypto d).give, @Twin.outcome zerosCrypto d, @Twin.disagrees zerosCrypto d)) =
      some (18900, some (0x8bbc3514477d75ec797bbe4e19d7961660bb849c, 185, 95), true) := by decide +kernel
  have hkeeps : (zerosTwin 200).map (fun d => ((@Twin.creator zerosCrypto d).gas, @Twin.outcome zerosCrypto d, @Twin.disagrees zerosCrypto d)) =
      some (300, some (0, 19173, 0), true) := by decide +kernel
  constructor
  · obtain ⟨d, hd, heq⟩ := Option.map_eq_some_iff.1 hpays
    simp only [Prod.mk.injEq] at heq
    exact ⟨d, hd, heq.1, heq.2.1, @Twin.not_agree_of_disagrees zerosCrypto d heq.2.2⟩
  · obtain ⟨d, hd, heq⟩ := Option.map_eq_some_iff.1 hkeeps
    simp only [Prod.mk.injEq] at heq
    exact ⟨d, hd, heq.1, heq.2.1, @Twin.not_agree_of_disagrees zerosCrypto d heq.2.2⟩

end Lxs
