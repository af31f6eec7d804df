import Lxs.Vm.Effects
import Lxs.Vm.Fields

/-!
# Push data is never executed

The bytes after a push are its data. Stepping over them from the first byte of the code gives the boundaries of its
instructions, and the program counter of a frame is always at one of them, or past the end of the code: a push steps over
its data, any other instruction over itself, and a jump only goes to a mark of `analyseJumpdests`, which is a boundary.

* `analyseJumpdests_iff`: the marks are the boundaries that hold `JUMPDEST`;
* `push_data_never_executed`: **the program counter at the start of every turn**, in every frame of an execution.
-/

set_option linter.unusedSectionVars false

namespace Lxs.Vm

open Lib.Hoare StateDB

/-! ### Boundaries -/

def immediates (b : UInt8) : ℕ := if 0x60 ≤ b.toNat ∧ b.toNat ≤ 0x7f then b.toNat - 0x5f else 0

/-- Stepping over opcodes and their push data. -/
inductive Reaches (code : Bytes) (start : ℕ) : ℕ → Prop
  | refl : Reaches code start start
  | step {i : ℕ} {b : UInt8} : Reaches code start i → code[i]? = some b → Reaches code start (i + 1 + immediates b)

def Boundary (code : Bytes) (i : ℕ) : Prop := i < code.length ∧ Reaches code 0 i

def OpCode.immediates : OpCode → ℕ
  | PUSH n => n
  | _ => 0

theorem decode_bytes : ∀ n : Fin 256, (decode (UInt8.ofNat n)).immediates = immediates (UInt8.ofNat n) ∧
    (decode (UInt8.ofNat n) = .JUMPDEST ↔ UInt8.ofNat n = 0x5b) := by
  decide +kernel

theorem immediates_decode (b : UInt8) : (decode b).immediates = immediates b := by
  have h := (decode_bytes ⟨b.toNat, b.toNat_lt⟩).1
  rwa [UInt8.ofNat_toNat] at h

theorem decode_eq_jumpdest (b : UInt8) : decode b = .JUMPDEST ↔ b = 0x5b := by
  have h := (decode_bytes ⟨b.toNat, b.toNat_lt⟩).2
  rwa [UInt8.ofNat_toNat] at h

namespace Reaches

variable {code : Bytes} {b : UInt8} {start i : ℕ}

theorem le (h : Reaches code start i) : start ≤ i := by
  induction h with
  | refl => exact le_rfl
  | step _ _ ih => omega

theorem trans {j : ℕ} (h : Reaches code start i) (h' : Reaches code i j) : Reaches code start j := by
  induction h' with
  | refl => exact h
  | step _ hb ih => exact .step ih hb

theorem head (h : Reaches code start i) : i = start ∨ ∃ b, code[start]? = some b ∧ Reaches code (start + 1 + immediates b) i := by
  induction h with
  | refl => exact .inl rfl
  | @step i b _ hb ih =>
    rcases ih with rfl | ⟨b', hb', hreach⟩
    · exact .inr ⟨b, hb, .refl⟩
    · exact .inr ⟨b', hb', .step hreach hb⟩

theorem cons (h : Reaches code start i) : Reaches (b :: code) (start + 1) (i + 1) := by
  induction h with
  | refl => exact .refl
  | @step i c _ hc ih =>
    rw [show i + 1 + immediates c + 1 = i + 1 + 1 + immediates c by omega]
    exact .step ih hc

theorem of_cons (h : Reaches (b :: code) (start + 1) (i + 1)) : Reaches code start i := by
  have hshift : ∀ {k}, Reaches (b :: code) (start + 1) k → Reaches code start (k - 1) := by
    intro k hk
    induction hk with
    | refl => exact .refl
    | @step i c hi hc ih =>
      have hle := hi.le
      obtain ⟨i, rfl⟩ : ∃ j, i = j + 1 := ⟨i - 1, by omega⟩
      rw [show i + 1 + 1 + immediates c - 1 = i + 1 + immediates c by omega]
      exact .step ih hc
  exact hshift h

theorem cons_iff : Reaches (b :: code) (start + 1) (i + 1) ↔ Reaches code start i := ⟨of_cons, cons⟩

theorem zero_cons_iff : Reaches (b :: code) 0 (i + 1) ↔ Reaches code (immediates b) i := by
  refine Iff.trans ?_ (cons_iff (b := b))
  constructor
  · intro h
    rcases h.head with h0 | ⟨c, hc, hreach⟩
    · cases h0
    · cases hc
      rwa [show 0 + 1 + immediates b = immediates b + 1 by omega] at hreach
  · intro h
    have hfirst : Reaches (b :: code) 0 (immediates b + 1) := by
      rw [show immediates b + 1 = 0 + 1 + immediates b by omega]
      exact .step .refl rfl
    exact hfirst.trans h

end Reaches

/-! ### The marks -/

theorem scanJumpdests_zero_cons (b : UInt8) (code : Bytes) :
    scanJumpdests 0 (b :: code) = decide (b = 0x5b) :: scanJumpdests (immediates b) code := by
  have hdata := immediates_decode b
  have hdest := decode_eq_jumpdest b
  rw [scanJumpdests, ← hdata]
  split
  · rename_i h
    rw [h, decide_eq_true (hdest.1 h)]
    rfl
  · rename_i n h
    rw [h, decide_eq_false fun hb => by rw [hdest.2 hb] at h; cases h]
    rfl
  · rename_i hno hnopush
    rw [decide_eq_false fun hb => hno (hdest.2 hb)]
    cases hop : decode b with
    | PUSH n => exact absurd hop (hnopush n)
    | _ => rfl

theorem scanJumpdests_iff (code : Bytes) : ∀ skip i : ℕ,
    (scanJumpdests skip code)[i]? = some true ↔ Reaches code skip i ∧ code[i]? = some 0x5b := by
  induction code with
  | nil =>
    intro skip i
    cases skip <;> simp [scanJumpdests]
  | cons b code ih =>
    intro skip i
    cases skip with
    | zero =>
      rw [scanJumpdests_zero_cons]
      cases i with
      | zero => simpa using fun _ => Reaches.refl
      | succ i => rw [List.getElem?_cons_succ, List.getElem?_cons_succ, ih, Reaches.zero_cons_iff]
    | succ skip =>
      rw [scanJumpdests]
      cases i with
      | zero => simpa using fun h => absurd (Reaches.le h) (by omega)
      | succ i => rw [List.getElem?_cons_succ, List.getElem?_cons_succ, ih, Reaches.cons_iff]

/-- **The marks are exactly the boundaries that hold `JUMPDEST`.** -/
theorem analyseJumpdests_iff {code : Bytes} {i : ℕ} :
    (analyseJumpdests code)[i]? = some true ↔ Boundary code i ∧ code[i]? = some 0x5b := by
  rw [analyseJumpdests, scanJumpdests_iff, Boundary]
  constructor
  · rintro ⟨hreach, hb⟩
    exact ⟨⟨(List.getElem?_eq_some_iff.1 hb).1, hreach⟩, hb⟩
  · rintro ⟨⟨-, hreach⟩, hb⟩
    exact ⟨hreach, hb⟩

/-! ### The position in the code -/

/-- The part of a frame that says where it is in which code. -/
structure Control where
  code : Bytes
  jumps : List Bool
  pc : ℕ
  jumped : Bool

def Interp.control (m : Interp) : Control := ⟨m.code, m.jumps, m.pc, m.jumped⟩

instance : Aside Interp.control := ⟨fun _ _ => rfl, fun _ _ => rfl, fun _ _ => rfl, fun _ _ _ => rfl⟩

theorem chargeMem_control (off size : ℕ) : Fixes Interp.control (chargeMem off size) := by
  refine .ite (.pure _) <| .bind (.failIf _ _) fun _ => .get_bind fun _ => ?_
  split
  · exact .throw _
  · exact .bind (.useGas _) fun _ => .modify fun _ => rfl

theorem readMem_control : Fixes Interp.control readMem :=
  .bind .pop fun _ => .bind .pop fun _ => .bind (chargeMem_control _ _) fun _ => .memGet _ _

theorem copyData_control (memOff dataOff length : ℕ) (data : Bytes) :
    Fixes Interp.control (copyData memOff dataOff length data) :=
  .bind (chargeMem_control _ _) fun _ => .bind (.useGas _) fun _ => .bind (.readData _ _ _) fun _ => .memSet _ _

section Instructions

variable [Crypto] {v : View}

theorem opLog_control (n : ℕ) : Fixes Interp.control (opLog n) :=
  .get_bind fun _ => .bind (.failIf _ _) fun _ => .bind .pop fun _ => .bind .pop fun _ => .bind (.popTopics n) fun _ =>
    .bind (chargeMem_control _ _) fun _ => .bind (.useGas _) fun _ => .bind (.useGas _) fun _ => .bind (.memGet _ _) fun _ =>
    .get_bind fun _ => .pure _

theorem opCall_control (mode : CallMode) : Fixes Interp.control (opCall v mode) := by
  refine .bind .pop fun _ => .bind .pop fun _ => .bind (.popIf _) fun _ => .bind .pop fun _ => .bind .pop fun _ => ?_
  refine .bind .pop fun _ => .bind .pop fun _ => .get_bind fun _ => .bind (.failIf _ _) fun _ => .bind (.useGas _) fun _ => ?_
  refine .bind (chargeMem_control _ _) fun _ => .bind (chargeMem_control _ _) fun _ => .bind (.memGet _ _) fun _ => ?_
  refine .bind (.wordToAddress _) fun _ => .get_bind fun _ => .bind (.modify fun _ => rfl) fun _ => .get_bind fun _ => ?_
  exact .ite .refuse <| .ite .refuse (.bind (.modify fun _ => rfl) fun _ => .pure _)

theorem opCreate_control (create2 : Bool) : Fixes Interp.control (opCreate v create2) := by
  refine .get_bind fun _ => .bind (.failIf _ _) fun _ => .bind .pop fun _ => .bind .pop fun _ => .bind .pop fun _ => ?_
  refine .bind (.popIf _) fun _ => .bind (.useGas _) fun _ => .bind (chargeMem_control _ _) fun _ => ?_
  refine .bind (.useGas _) fun _ => .bind (.memGet _ _) fun _ => .bind (.modify fun _ => rfl) fun _ => .get_bind fun _ => ?_
  refine .ite .refuse <| .ite .refuse ?_
  exact .bind (.newAddress _ _ _ _ _) fun _ => .bind (.modify fun _ => rfl) fun _ => .pure _

theorem exec_control {op : OpCode} (hjump : op ≠ .JUMP) (hjumpi : op ≠ .JUMPI) : Fixes Interp.control (exec v op) := by
  cases op with
  | bin _ | ADDMOD | MULMOD | ISZERO | NOT | BLOCKHASH | POP | SLOAD | SSTORE | env _ | BALANCE | EXTCODESIZE | EXTCODEHASH
  | CALLDATALOAD | JUMPDEST | STOP | PUSH _ | DUP _ | SWAP _ | INVALID | unknown _ =>
    exact .exec_plain rfl
  | JUMP => exact absurd rfl hjump
  | JUMPI => exact absurd rfl hjumpi
  | SHA3 =>
    exact .bind .pop fun _ => .bind .pop fun _ => .bind (chargeMem_control _ _) fun _ => .bind (.useGas _) fun _ =>
      .bind (.memGet _ _) fun _ => .bind (.push _) fun _ => .pure _
  | MLOAD =>
    exact .bind .pop fun _ => .bind (chargeMem_control _ _) fun _ => .bind (.memGet _ _) fun _ => .bind (.push _) fun _ => .pure _
  | MSTORE =>
    exact .bind .pop fun _ => .bind .pop fun _ => .bind (chargeMem_control _ _) fun _ => .bind (.memSet32 _ _) fun _ => .pure _
  | MSTORE8 =>
    exact .bind .pop fun _ => .bind .pop fun _ => .bind (chargeMem_control _ _) fun _ => .bind (.memSet _ _) fun _ => .pure _
  | CALLDATACOPY | CODECOPY =>
    exact .bind .pop fun _ => .bind .pop fun _ => .bind .pop fun _ => .get_bind fun _ =>
      .bind (copyData_control _ _ _ _) fun _ => .pure _
  | EXTCODECOPY =>
    exact .bind .pop fun _ => .bind .pop fun _ => .bind .pop fun _ => .bind .pop fun _ => .bind (chargeMem_control _ _) fun _ =>
      .bind (.useGas _) fun _ => .bind (.wordToAddress _) fun _ => .bind (.readData _ _ _) fun _ => .bind (.memSet _ _) fun _ => .pure _
  | RETURNDATACOPY =>
    exact .bind .pop fun _ => .bind .pop fun _ => .bind .pop fun _ => .get_bind fun _ => .bind (.failIf _ _) fun _ =>
      .bind (chargeMem_control _ _) fun _ => .bind (.useGas _) fun _ => .bind (.slice _ _ _) fun _ => .bind (.memSet _ _) fun _ =>
      .pure _
  | MCOPY =>
    exact .bind .pop fun _ => .bind .pop fun _ => .bind .pop fun _ => .bind (chargeMem_control _ _) fun _ =>
      .bind (chargeMem_control _ _) fun _ => .bind (.useGas _) fun _ => .bind (.memGet _ _) fun _ => .bind (.memSet _ _) fun _ =>
      .pure _
  | LOG n => exact opLog_control n
  | CREATE => exact opCreate_control false
  | CREATE2 => exact opCreate_control true
  | CALL => exact opCall_control .regular
  | DELEGATECALL => exact opCall_control .delegate
  | STATICCALL => exact opCall_control .static
  | RETURN | REVERT => exact .bind readMem_control fun _ => .pure _

def Control.Jumped (c c' : Control) : Prop := ∃ dest, c.jumps[dest]? = some true ∧ c' = { c with pc := dest, jumped := true }

theorem index_ends {α : Type} (l : List α) (i : ℕ) (c : Control) :
    Ends (fun m => m.control = c) (index l i) fun a m => l[i]? = some a ∧ m.control = c := by
  unfold index
  split
  · rename_i a ha
    exact .pure fun _ h => ⟨ha, h⟩
  · exact .throw trivial

theorem jump_ends (dest : ℕ) (c : Control) :
    Ends (fun m => m.control = c) (jump dest) fun _ m => c.Jumped m.control := by
  refine .bind (Fixes.failIf _ _ c) fun _ => .of_get fun m hm => ?_
  refine Triple.pre (?_ : Ends (fun t => t.control = c) _ _) fun t ht => ht ▸ hm
  refine .bind (Fixes.failIf _ _ c) fun _ => .bind (index_ends _ _ c) fun valid => ?_
  refine .bind (Q := fun _ t => m.jumps[dest]? = some true ∧ t.control = c) ?_ fun _ => .modify fun t ht => ?_
  · refine .ite (fun _ => .throw trivial) fun hvalid => .pure fun t ht => ⟨?_, ht.2⟩
    rw [ht.1, (by simpa using hvalid : valid = true)]
  · obtain ⟨hmark, rfl⟩ := ht
    exact ⟨dest, (congrArg Control.jumps hm) ▸ hmark, rfl⟩

theorem exec_moves (op : OpCode) (c : Control) :
    Ends (fun m => m.control = c) (exec v op) fun _ m => m.control = c ∨ c.Jumped m.control := by
  by_cases hjump : op = .JUMP
  · subst hjump
    exact .bind (Fixes.pop c) fun dest => .bind (jump_ends dest c) fun _ => .pure fun _ h => .inr h
  by_cases hjumpi : op = .JUMPI
  · subst hjumpi
    refine .bind (Fixes.pop c) fun dest => .bind (Fixes.pop c) fun cond => .ite (fun _ => ?_) fun _ => ?_
    · exact .bind (jump_ends dest c) fun _ => .pure fun _ h => .inr h
    · exact .pure fun _ h => .inl h
  · exact (exec_control hjump hjumpi c).post fun _ _ h => .inl h

/-- Where an instruction leaves the counter: where it was when it stops the frame, behind its data, or at a mark. -/
def Control.Moves (n : ℕ) (c c' : Control) : Prop :=
  c' = c ∨ c' = { c with pc := c.pc + 1 + n } ∨ ∃ dest, c.jumps[dest]? = some true ∧ c' = { c with pc := dest }

theorem advance_moves {c : Control} (hc : c.jumped = false) :
    Ends (fun m => m.control = c ∨ c.Jumped m.control) advance fun _ m => c.Moves 0 m.control := by
  refine .modify fun m hm => .inr ?_
  rcases hm with rfl | ⟨dest, hmark, hm⟩
  · left
    have hjumped : m.jumped = false := hc
    rw [if_neg (by rw [hjumped]; exact Bool.false_ne_true)]
    rfl
  · right
    have hjumped : m.jumped = true := congrArg Control.jumped hm
    refine ⟨dest, hmark, ?_⟩
    rw [if_pos hjumped]
    obtain ⟨code, jumps, pc, jumped⟩ := c
    cases hc
    exact congrArg (fun c : Control => { c with jumped := false }) hm

theorem doPush_moves (n : ℕ) (c : Control) :
    Ends (fun m => m.control = c) (doPush n) fun _ m => c.Moves n m.control := by
  refine .of_get fun m hm => Triple.pre (?_ : Ends (fun t => t.control = c) _ _) fun t ht => ht ▸ hm
  refine .bind (Fixes.pushData _ _ _ c) fun data => ?_
  refine .bind (Q := fun _ t => t.control = { c with pc := c.pc + 1 + n }) (.modify fun t ht => ?_) fun _ => ?_
  · subst ht
    rfl
  · exact (Fixes.push _ _).post fun _ _ h => .inr (.inl h)

theorem immediates_of_not_push {op : OpCode} (h : ∀ n, op ≠ .PUSH n) : op.immediates = 0 := by
  cases op with
  | PUSH n => exact absurd rfl (h n)
  | _ => rfl

theorem dispatch_moves (op : OpCode) {c : Control} (hc : c.jumped = false) :
    Ends (fun m => m.control = c) (dispatch v op) fun _ m => c.Moves op.immediates m.control := by
  have hadvance : Ends (fun m => m.control = c) advance fun _ m => c.Moves 0 m.control :=
    (advance_moves hc).pre fun _ h => .inl h
  refine .bind (Fixes.useGas _ c) fun _ => ?_
  split
  case h_1 => exact .pure fun _ h => .inl h
  case h_2 n => exact .bind (doPush_moves n c) fun _ => .pure fun _ h => h
  case h_3 => exact .bind (Fixes.dup _ c) fun _ => .bind hadvance fun _ => .pure fun _ h => h
  case h_4 => exact .bind (Fixes.swap _ c) fun _ => .bind hadvance fun _ => .pure fun _ h => h
  case h_5 _ hpush _ _ =>
    rw [immediates_of_not_push hpush]
    exact .bind (exec_moves op c) fun _ => .bind (advance_moves hc) fun _ => .pure fun _ h => h

end Instructions

/-! ### Every turn of every frame -/

/-- The counter is at an instruction or past the end of the code, whose marks the frame holds. -/
structure Aligned (c : Control) : Prop where
  jumps : c.jumps = analyseJumpdests c.code
  jumped : c.jumped = false
  pc : c.code.length ≤ c.pc ∨ Boundary c.code c.pc

theorem Aligned.start (code input : Bytes) (gas : UInt64) (ctx : Context) (depth : ℕ) :
    Aligned (newInterp code input gas ctx depth).control := by
  refine ⟨rfl, rfl, ?_⟩
  rcases Nat.eq_zero_or_pos code.length with h0 | hpos
  · exact .inl h0.le
  · exact .inr ⟨hpos, .refl⟩

theorem Aligned.moves {c c' : Control} {b : UInt8} (h : Aligned c) (hb : c.code[c.pc]? = some b)
    (hmove : c.Moves (immediates b) c') : Aligned c' := by
  have hin : c.pc < c.code.length := (List.getElem?_eq_some_iff.1 hb).1
  rcases hmove with rfl | rfl | ⟨dest, hmark, rfl⟩
  · exact h
  · refine ⟨h.jumps, h.jumped, ?_⟩
    have hreach : Reaches c.code 0 c.pc := (h.pc.resolve_left (Nat.not_le.2 hin)).2
    rcases Nat.lt_or_ge (c.pc + 1 + immediates b) c.code.length with hlt | hge
    · exact .inr ⟨hlt, hreach.step hb⟩
    · exact .inl hge
  · rw [h.jumps] at hmark
    exact ⟨h.jumps, h.jumped, .inr (analyseJumpdests_iff.1 hmark).1⟩

section Frames

variable [Crypto] {σ : Type} [StateDB σ] {m m' : Interp} {s s' : σ}

theorem runStep_aligned {rec : Frame σ} (h : runStep rec m s = .ok (.next m' s')) (hm : Aligned m.control) :
    Aligned m'.control := by
  obtain ⟨b, act, m₁, hb, hdispatch, hcontrol⟩ := runStep_next h Interp.control
  have hmove := (dispatch_moves (v := view s) (decode b) hm.jumped).ok rfl hdispatch
  rw [immediates_decode] at hmove
  rw [hcontrol]
  exact hm.moves hb hmove

theorem During.aligned {B₀ B : List Address} {m₀ : Interp} {s₀ : σ} (h₀ : Aligned m₀.control) (h : During B₀ m₀ s₀ B m s) :
    Aligned m.control := by
  induction h with
  | start => exact h₀
  | next _ hstep ih => exact runStep_aligned hstep ih
  | call => exact .start ..
  | create => exact .start ..

/-- **Push data is never executed.** At the start of every turn of every frame of an execution the program counter is past
the code or at an instruction, and the marks of a code are its instructions that are `JUMPDEST`. -/
theorem push_data_never_executed (code input : Bytes) (gas : UInt64) (ctx : Context) (depth : ℕ) (s₀ : σ) :
    (∀ B m s, During [] (newInterp code input gas ctx depth) s₀ B m s → m.code.length ≤ m.pc ∨ Boundary m.code m.pc) ∧
      ∀ (code : Bytes) i, (analyseJumpdests code)[i]? = some true ↔ Boundary code i ∧ code[i]? = some 0x5b :=
  ⟨fun _ _ _ h => (h.aligned (.start ..)).pc, fun _ _ => analyseJumpdests_iff⟩

end Frames

end Lxs.Vm
