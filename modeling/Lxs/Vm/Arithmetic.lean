import Lxs.Vm.Effects

/-!
# Words and the instructions of the EVM

What the two-operand instructions and the modular ones are for, on words of 256 bits with the arithmetic of bit vectors,
and that the machine, which computes on unbounded numbers and reduces at the end, pushes exactly these words.
-/

namespace Lxs.Vm

/-! ### Results on words -/

def ofBool (c : Bool) : BitVec 256 := if c then 1 else 0

/-- The result of a two-operand instruction, `a` on top of `b`. -/
def BinOp.evm (a b : BitVec 256) : BinOp → BitVec 256
  | ADD => a + b
  | MUL => a * b
  | SUB => a - b
  | DIV => if b = 0 then 0 else a / b
  | SDIV => if b = 0 then 0 else a.sdiv b
  | MOD => if b = 0 then 0 else a % b
  | SMOD => if b = 0 then 0 else a.srem b
  | SIGNEXTEND => if a.toNat < 31 then (b.setWidth (8 * a.toNat + 8)).signExtend 256 else b
  | BYTE => if a.toNat < 32 then (b.extractLsb' (8 * (31 - a.toNat)) 8).setWidth 256 else 0
  | EXP => a ^ b.toNat
  | LT => ofBool (a.ult b)
  | GT => ofBool (b.ult a)
  | SLT => ofBool (a.slt b)
  | SGT => ofBool (b.slt a)
  | EQ => ofBool (a == b)
  | AND => a &&& b
  | OR => a ||| b
  | XOR => a ^^^ b
  | SHL => b <<< a
  | SHR => b >>> a
  | SAR => b.sshiftRight' a

/-- The sum modulo `n`, in a width in which it does not wrap. -/
def addmod (a b n : BitVec 256) : BitVec 256 :=
  if n = 0 then 0 else ((a.setWidth (256 + 1) + b.setWidth (256 + 1)) % n.setWidth (256 + 1)).setWidth 256

/-- The product modulo `n`, in a width in which it does not wrap. -/
def mulmod (a b n : BitVec 256) : BitVec 256 :=
  if n = 0 then 0 else ((a.setWidth (256 + 256) * b.setWidth (256 + 256)) % n.setWidth (256 + 256)).setWidth 256

/-! ### Unbounded numbers folded back -/

theorem wrap_eq (v : ℤ) : wrap v = (BitVec.ofInt 256 v).toNat := (BitVec.toNat_ofInt v).symm

theorem ofInt_natCast (n : ℕ) : BitVec.ofInt 256 (n : ℤ) = BitVec.ofNat 256 n := BitVec.ofInt_natCast 256 n

theorem ofInt_toUnsigned (v : ℤ) : BitVec.ofInt 256 (toUnsigned v) = BitVec.ofInt 256 v := by
  refine BitVec.eq_of_toNat_eq ?_
  rw [BitVec.toNat_ofInt, BitVec.toNat_ofInt]
  exact congrArg Int.toNat (Int.emod_emod_of_dvd v dvd_rfl)

theorem ofInt_toInt (x : BitVec 256) : BitVec.ofInt 256 x.toInt = x := BitVec.ofInt_toInt

theorem toSigned_toNat (a : BitVec 256) : toSigned a.toNat = a.toInt := by
  rw [BitVec.toInt_eq_toNat_cond]
  unfold toSigned tt255 tt256
  refine if_congr ?_ rfl rfl
  omega

theorem toNat_eq_zero_iff {b : BitVec 256} : b.toNat = 0 ↔ b = 0 := by
  rw [← BitVec.toNat_inj]
  rfl

theorem toInt_eq_zero_iff {b : BitVec 256} : b.toInt = 0 ↔ b = 0 := by
  rw [← BitVec.toInt_inj]
  rfl

theorem ofInt_boolToInt (c : Bool) : BitVec.ofInt 256 (boolToInt c) = ofBool c := by
  cases c with
  | false => rfl
  | true => rfl

theorem expMod_eq (m : ℕ) : ∀ (fuel x y : ℕ), y < 2 ^ fuel → expMod fuel x y m = x ^ y % m
  | 0, x, y, hy => by
    obtain rfl : y = 0 := by omega
    rfl
  | fuel + 1, x, y, hy => by
    unfold expMod
    split
    · rename_i h0
      rw [h0, pow_zero]
    · have hhalf := expMod_eq m fuel (x * x % m) (y / 2) (by rw [pow_succ] at hy; omega)
      have hsquare : (x * x % m) ^ (y / 2) % m = x ^ (2 * (y / 2)) % m := by
        rw [← Nat.pow_mod, pow_mul, pow_two]
      dsimp only
      rw [hhalf, hsquare]
      split
      · rename_i hodd
        rw [Nat.mod_mul_mod, ← pow_succ]
        congr 2
        omega
      · congr 2
        omega

theorem ofNat_pow (x n : ℕ) : BitVec.ofNat 256 (x ^ n) = BitVec.ofNat 256 x ^ n := by
  induction n with
  | zero => rfl
  | succ n ih => rw [pow_succ, BitVec.ofNat_mul, ih, BitVec.pow_succ]

theorem ofNat_mod (n : ℕ) : BitVec.ofNat 256 (n % tt256) = BitVec.ofNat 256 n := by
  refine BitVec.eq_of_toNat_eq ?_
  rw [BitVec.toNat_ofNat, BitVec.toNat_ofNat]
  exact Nat.mod_mod n _

/-! ### Instructions with cases of their own -/

variable (a b : BitVec 256)

theorem sdiv_value : BitVec.ofInt 256 (toUnsigned (Int.tdiv (toSigned a.toNat) (toSigned b.toNat))) = a.sdiv b := by
  rw [ofInt_toUnsigned, toSigned_toNat, toSigned_toNat]
  refine BitVec.eq_of_toInt_eq ?_
  rw [BitVec.toInt_ofInt, BitVec.toInt_sdiv]

theorem smod_value : BitVec.ofInt 256 (toUnsigned (Int.tmod (toSigned a.toNat) (toSigned b.toNat))) = a.srem b := by
  rw [ofInt_toUnsigned, toSigned_toNat, toSigned_toNat, ← BitVec.toInt_srem, ofInt_toInt]

theorem signextend_value (k : ℕ) :
    (if b.toNat.testBit (8 * k + 7) then
        BitVec.ofNat 256 (b.toNat ||| ((tt256 - 1) ^^^ (2 ^ (8 * k + 7 + 1) - 1)))
      else BitVec.ofNat 256 (b.toNat &&& (2 ^ (8 * k + 7 + 1) - 1))) = (b.setWidth (8 * k + 8)).signExtend 256 := by
  have hmsb : (b.setWidth (8 * k + 8)).msb = b.toNat.testBit (8 * k + 7) := by
    rw [BitVec.msb_eq_getLsbD_last, BitVec.getLsbD_setWidth, BitVec.getLsbD]
    simp
  refine BitVec.eq_of_getLsbD_eq fun i hi => ?_
  have hall : (tt256 - 1).testBit i = true := (Nat.testBit_two_pow_sub_one 256 i).trans (decide_eq_true hi)
  have hmask : (2 ^ (8 * k + 7 + 1) - 1).testBit i = decide (i < 8 * k + 8) := Nat.testBit_two_pow_sub_one _ i
  have hbit : b.getLsbD i = b.toNat.testBit i := rfl
  rw [BitVec.getLsbD_signExtend, hmsb, BitVec.getLsbD_setWidth, hbit]
  split
  · rename_i hset
    rw [BitVec.getLsbD_ofNat, Nat.testBit_or, Nat.testBit_xor, hall, hmask, hset]
    by_cases hlow : i < 8 * k + 8
    · simp [hlow]
    · simp [hlow]
  · rename_i hset
    rw [BitVec.getLsbD_ofNat, Nat.testBit_and, hmask]
    by_cases hlow : i < 8 * k + 8
    · simp [hlow]
    · simp [hlow, hset]

theorem byte_value (k : ℕ) : BitVec.ofNat 256 ((b.toNat >>> k) &&& 0xff) = (b.extractLsb' k 8).setWidth 256 := by
  refine BitVec.eq_of_toNat_eq ?_
  rw [BitVec.toNat_setWidth, BitVec.extractLsb'_toNat, BitVec.toNat_ofNat, Nat.and_two_pow_sub_one_eq_mod _ 8]

theorem exp_value : BitVec.ofInt 256 (expMod (bitLen b.toNat) a.toNat b.toNat tt256) = a ^ b.toNat := by
  rw [ofInt_natCast, expMod_eq _ _ _ _ (lt_two_pow_bitLen _), ofNat_mod, ofNat_pow, BitVec.ofNat_toNat, BitVec.setWidth_eq]

theorem sar_value : BitVec.ofInt 256 (if 256 ≤ a.toNat then (if toSigned b.toNat < 0 then ((tt256 - 1 : ℕ) : ℤ) else 0)
    else toUnsigned (toSigned b.toNat >>> a.toNat)) = b.sshiftRight' a := by
  rw [BitVec.sshiftRight_eq', toSigned_toNat]
  split
  · rename_i hge
    have hsign : ∀ i, i < 256 → (b.sshiftRight a.toNat).getLsbD i = decide (b.toInt < 0) := by
      intro i hi
      have hout : ¬a.toNat + i < 256 := by omega
      rw [BitVec.getLsbD_sshiftRight, if_neg hout, BitVec.msb_eq_toInt, decide_eq_false (Nat.not_le.2 hi)]
      rfl
    refine BitVec.eq_of_getLsbD_eq fun i hi => ?_
    rw [hsign i hi]
    split
    · rename_i hneg
      rw [ofInt_natCast, BitVec.getLsbD_ofNat, tt256, Nat.testBit_two_pow_sub_one, decide_eq_true hi, decide_eq_true hneg]
      rfl
    · rename_i hneg
      rw [decide_eq_false hneg]
      exact BitVec.getLsbD_zero
  · rw [ofInt_toUnsigned, ← BitVec.toInt_sshiftRight, ofInt_toInt]

theorem shl_value : BitVec.ofInt 256 (if 256 ≤ a.toNat then 0 else ((b.toNat <<< a.toNat : ℕ) : ℤ)) = b <<< a := by
  rw [BitVec.shiftLeft_eq']
  split
  · rename_i hge
    rw [BitVec.shiftLeft_eq_zero hge]
    rfl
  · rw [ofInt_natCast]
    refine BitVec.eq_of_toNat_eq ?_
    rw [BitVec.toNat_ofNat, BitVec.toNat_shiftLeft]

theorem shr_value : BitVec.ofInt 256 (if 256 ≤ a.toNat then 0 else ((b.toNat >>> a.toNat : ℕ) : ℤ)) = b >>> a := by
  rw [BitVec.ushiftRight_eq']
  split
  · rename_i hge
    rw [BitVec.ushiftRight_eq_zero hge]
    rfl
  · rw [ofInt_natCast]
    refine BitVec.eq_of_toNat_eq ?_
    rw [BitVec.toNat_ofNat, BitVec.toNat_ushiftRight, Nat.mod_eq_of_lt]
    exact Nat.lt_of_le_of_lt (Nat.shiftRight_le _ _) b.isLt

/-! ### The instructions -/

theorem value_evm (op : BinOp) : BitVec.ofInt 256 (op.value a.toNat b.toNat) = op.evm a b := by
  have hofNat : ∀ x : BitVec 256, BitVec.ofNat 256 x.toNat = x := fun x => (BitVec.ofNat_toNat 256 x).trans (BitVec.setWidth_eq x)
  cases op with
  | ADD =>
    show BitVec.ofInt 256 ((a.toNat : ℤ) + b.toNat) = a + b
    rw [BitVec.ofInt_add, ofInt_natCast, ofInt_natCast, hofNat, hofNat]
  | MUL =>
    show BitVec.ofInt 256 ((a.toNat : ℤ) * b.toNat) = a * b
    rw [BitVec.ofInt_mul, ofInt_natCast, ofInt_natCast, hofNat, hofNat]
  | SUB =>
    show BitVec.ofInt 256 ((a.toNat : ℤ) - b.toNat) = a - b
    rw [Int.sub_eq_add_neg, BitVec.ofInt_add, BitVec.ofInt_neg, ofInt_natCast, ofInt_natCast, hofNat, hofNat, BitVec.sub_eq_add_neg]
  | DIV =>
    show BitVec.ofInt 256 (if b.toNat = 0 then 0 else ((a.toNat : ℤ) / b.toNat)) = if b = 0 then 0 else a / b
    rw [apply_ite (BitVec.ofInt 256)]
    refine if_congr toNat_eq_zero_iff rfl ?_
    rw [← Int.natCast_ediv, ofInt_natCast]
    exact (BitVec.udiv_def ..).symm
  | SDIV =>
    show BitVec.ofInt 256 (if _ then 0 else _) = if b = 0 then 0 else a.sdiv b
    rw [apply_ite (BitVec.ofInt 256)]
    exact if_congr (by rw [toSigned_toNat, toInt_eq_zero_iff]) rfl (sdiv_value a b)
  | MOD =>
    show BitVec.ofInt 256 (if b.toNat = 0 then 0 else ((a.toNat : ℤ) % b.toNat)) = if b = 0 then 0 else a % b
    rw [apply_ite (BitVec.ofInt 256)]
    refine if_congr toNat_eq_zero_iff rfl ?_
    rw [← Int.natCast_emod, ofInt_natCast]
    exact (BitVec.umod_def ..).symm
  | SMOD =>
    show BitVec.ofInt 256 (if _ then 0 else _) = if b = 0 then 0 else a.srem b
    rw [apply_ite (BitVec.ofInt 256)]
    exact if_congr (by rw [toSigned_toNat, toInt_eq_zero_iff]) rfl (smod_value a b)
  | SIGNEXTEND =>
    show BitVec.ofInt 256 (if 31 < a.toNat then (b.toNat : ℤ) else if _ then _ else _) = if a.toNat < 31 then _ else b
    by_cases hout : 31 < a.toNat
    · rw [if_pos hout, if_neg (by omega), ofInt_natCast, hofNat]
    · rw [if_neg hout, apply_ite (BitVec.ofInt 256), ofInt_natCast, ofInt_natCast]
      refine (signextend_value b a.toNat).trans ?_
      split
      · rfl
      · -- the sign is in the highest byte already
        obtain h31 : a.toNat = 31 := by omega
        rw [h31]
        exact (BitVec.signExtend_eq _).trans (BitVec.setWidth_eq b)
  | BYTE =>
    show BitVec.ofInt 256 (if 32 ≤ a.toNat then 0 else _) = if a.toNat < 32 then _ else 0
    by_cases hout : 32 ≤ a.toNat
    · rw [if_pos hout, if_neg (by omega)]
      rfl
    · rw [if_neg hout, if_pos (by omega), ofInt_natCast, byte_value]
  | EXP => exact exp_value a b
  | LT => exact ofInt_boolToInt _
  | GT => exact ofInt_boolToInt _
  | SLT =>
    rw [BinOp.value, toSigned_toNat, toSigned_toNat, ofInt_boolToInt]
    rfl
  | SGT =>
    rw [BinOp.value, toSigned_toNat, toSigned_toNat, ofInt_boolToInt]
    rfl
  | EQ =>
    rw [BinOp.value, ofInt_boolToInt, BinOp.evm]
    exact congrArg ofBool (decide_eq_decide.2 BitVec.toNat_inj)
  | AND =>
    show BitVec.ofInt 256 ((a.toNat &&& b.toNat : ℕ) : ℤ) = a &&& b
    rw [ofInt_natCast, ← BitVec.toNat_and, hofNat]
  | OR =>
    show BitVec.ofInt 256 ((a.toNat ||| b.toNat : ℕ) : ℤ) = a ||| b
    rw [ofInt_natCast, ← BitVec.toNat_or, hofNat]
  | XOR =>
    show BitVec.ofInt 256 ((a.toNat ^^^ b.toNat : ℕ) : ℤ) = a ^^^ b
    rw [ofInt_natCast, ← BitVec.toNat_xor, hofNat]
  | SHL => exact shl_value a b
  | SHR => exact shr_value a b
  | SAR => exact sar_value a b

theorem toNat_umod_word {w : ℕ} (hw : 256 ≤ w) (x : BitVec w) {n : BitVec 256} (hn : n ≠ 0) :
    ((x % n.setWidth w).setWidth 256).toNat = x.toNat % n.toNat := by
  have hpos : 0 < n.toNat := Nat.pos_of_ne_zero fun h => hn (toNat_eq_zero_iff.1 h)
  have hfits : n.toNat < 2 ^ w := Nat.lt_of_lt_of_le n.isLt (Nat.pow_le_pow_right Nat.two_pos hw)
  rw [BitVec.toNat_setWidth, BitVec.toNat_umod, BitVec.toNat_setWidth, Nat.mod_eq_of_lt hfits]
  exact Nat.mod_eq_of_lt ((Nat.mod_lt _ hpos).trans n.isLt)

theorem toNat_setWidth_of_le {w : ℕ} (hw : 256 ≤ w) : (a.setWidth w).toNat = a.toNat := by
  rw [BitVec.toNat_setWidth]
  exact Nat.mod_eq_of_lt (Nat.lt_of_lt_of_le a.isLt (Nat.pow_le_pow_right Nat.two_pos hw))

theorem mod_value {w k : ℕ} (hw : 256 ≤ w) {x : BitVec w} (hx : x.toNat = k) (n : BitVec 256) :
    BitVec.ofInt 256 (if n.toNat = 0 then 0 else (k % n.toNat : ℕ)) =
      if n = 0 then 0 else (x % n.setWidth w).setWidth 256 := by
  rw [apply_ite (BitVec.ofInt 256)]
  by_cases hn : n = 0
  · rw [if_pos (toNat_eq_zero_iff.2 hn), if_pos hn]
    rfl
  · rw [if_neg fun h => hn (toNat_eq_zero_iff.1 h), if_neg hn, ofInt_natCast, ← hx, ← toNat_umod_word hw _ hn]
    exact (BitVec.ofNat_toNat 256 _).trans (BitVec.setWidth_eq _)

theorem addmod_value (n : BitVec 256) :
    BitVec.ofInt 256 (if n.toNat = 0 then 0 else ((a.toNat + b.toNat) % n.toNat : ℕ)) = addmod a b n := by
  refine mod_value (by decide) ?_ n
  rw [BitVec.toNat_add, toNat_setWidth_of_le a (by decide), toNat_setWidth_of_le b (by decide)]
  exact Nat.mod_eq_of_lt ((Nat.add_lt_add a.isLt b.isLt).trans_eq (Nat.two_pow_succ 256).symm)

theorem mulmod_value (n : BitVec 256) :
    BitVec.ofInt 256 (if n.toNat = 0 then 0 else (a.toNat * b.toNat % n.toNat : ℕ)) = mulmod a b n := by
  refine mod_value (by decide) ?_ n
  rw [BitVec.toNat_mul, toNat_setWidth_of_le a (by decide), toNat_setWidth_of_le b (by decide)]
  exact Nat.mod_eq_of_lt ((Nat.mul_lt_mul'' a.isLt b.isLt).trans_eq (Nat.pow_add 2 256 256).symm)

/-! ### The machine -/

section Machine

variable {m : Interp}

theorem bind_ok {α β : Type} {x : OpM α} {f : α → OpM β} {t : Interp} {y : α} (h : x m = .ok (y, t)) :
    (x >>= f) m = f y t := by
  show (x m >>= fun p => f p.1 p.2) = f y t
  rw [h]
  rfl

theorem bind_error {α β : Type} {x : OpM α} {f : α → OpM β} {e : Fault} (h : x m = .error e) : (x >>= f) m = .error e := by
  show (x m >>= fun p => f p.1 p.2) = .error e
  rw [h]
  rfl

/-- An instruction that leaves a word on top of the stack, unless the stack is full. -/
def pushes (w : BitVec 256) (m : Interp) : Except Fault (Action × Interp) :=
  if maxStack ≤ m.stack.length then .error (.err .stackOverflow) else .ok (.next, { m with stack := w.toNat :: m.stack })

theorem push_next {v : ℤ} {w : BitVec 256} (h : BitVec.ofInt 256 v = w) (m : Interp) :
    (do push v; return Action.next : OpM Action) m = pushes w m := by
  have hpush : push v m = if maxStack ≤ m.stack.length then .error (.err .stackOverflow)
      else .ok ((), { m with stack := wrap v :: m.stack }) := by
    show (failIf (maxStack ≤ m.stack.length) .stackOverflow >>= fun _ =>
      modify fun m => { m with stack := wrap v :: m.stack } : OpM Unit) m = _
    unfold failIf
    split
    · rfl
    · rfl
  rw [wrap_eq, h] at hpush
  unfold pushes
  split at hpush
  · rw [bind_error hpush, if_pos ‹_›]
  · rw [bind_ok hpush, if_neg ‹_›]
    rfl

variable [Crypto] {rest : List ℕ} {a b n : BitVec 256}

def BinOp.price (b : BitVec 256) (op : BinOp) : UInt64 := if op = .EXP then 50 * UInt64.ofNat (byteLen b.toNat) else 0

theorem exec_bin (v : View) (op : BinOp) (h : m.stack = a.toNat :: b.toNat :: rest) : exec v (.bin op) m =
    if m.gas < op.price b then .error (.err .outOfGas)
    else pushes (op.evm a b) { m with stack := rest, gas := m.gas - op.price b } := by
  have hpops : exec v (.bin op) m = (do binop op a.toNat b.toNat; return Action.next : OpM Action) { m with stack := rest } := by
    refine (bind_ok (pop_cons h)).trans ?_
    exact bind_ok (pop_cons rfl)
  have hgas : useGas (op.price b) { m with stack := rest } = if m.gas < op.price b then .error (.err .outOfGas)
      else .ok ((), { m with stack := rest, gas := m.gas - op.price b }) := by
    show (failIf (m.gas < op.price b) .outOfGas >>= fun _ =>
      modify fun m => { m with gas := m.gas - op.price b } : OpM Unit) { m with stack := rest } = _
    unfold failIf
    split
    · rfl
    · rfl
  have hassoc : (do binop op a.toNat b.toNat; return Action.next : OpM Action) =
      (do useGas (op.price b); push (op.value a.toNat b.toNat); return Action.next : OpM Action) := by
    unfold binop
    rw [bind_assoc]
    rfl
  rw [hpops, hassoc]
  split
  · rw [if_pos ‹_›] at hgas
    exact bind_error hgas
  · rw [if_neg ‹_›] at hgas
    rw [bind_ok hgas]
    exact push_next (value_evm a b op) _

theorem exec_addmod (v : View) (h : m.stack = a.toNat :: b.toNat :: n.toNat :: rest) :
    exec v .ADDMOD m = pushes (addmod a b n) { m with stack := rest } := by
  refine (bind_ok (pop_cons h)).trans ((bind_ok (pop_cons rfl)).trans ((bind_ok (pop_cons rfl)).trans ?_))
  exact push_next (addmod_value a b n) _

theorem exec_mulmod (v : View) (h : m.stack = a.toNat :: b.toNat :: n.toNat :: rest) :
    exec v .MULMOD m = pushes (mulmod a b n) { m with stack := rest } := by
  refine (bind_ok (pop_cons h)).trans ((bind_ok (pop_cons rfl)).trans ((bind_ok (pop_cons rfl)).trans ?_))
  exact push_next (mulmod_value a b n) _

/-- **Word arithmetic is that of the EVM.** Every two-operand instruction pays its price and pushes the result on words,
and so do the modular ones; and in every frame passed by an execution, every word on the stack fits in 256 bits. -/
theorem word_arithmetic_evm {σ : Type} [StateDB σ] (v : View) (code input : Bytes) (gas : UInt64) (ctx : Context) (depth : ℕ)
    (s : σ) :
    (∀ (op : BinOp) (a b : BitVec 256) (rest : List ℕ) (m : Interp), m.stack = a.toNat :: b.toNat :: rest →
      exec v (.bin op) m = if m.gas < op.price b then .error (.err .outOfGas)
        else pushes (op.evm a b) { m with stack := rest, gas := m.gas - op.price b }) ∧
    (∀ (a b n : BitVec 256) (rest : List ℕ) (m : Interp), m.stack = a.toNat :: b.toNat :: n.toNat :: rest →
      exec v .ADDMOD m = pushes (addmod a b n) { m with stack := rest } ∧
      exec v .MULMOD m = pushes (mulmod a b n) { m with stack := rest }) ∧
    ∀ B m t, During [] (newInterp code input gas ctx depth) s B m t → ∀ w ∈ m.stack, w < 2 ^ 256 :=
  ⟨fun op _ _ _ _ h => exec_bin v op h, fun _ _ _ _ _ h => ⟨exec_addmod v h, exec_mulmod v h⟩,
    fun _ _ _ hd => hd.wf (newInterp_wf code input gas ctx depth)⟩

end Machine

end Lxs.Vm
