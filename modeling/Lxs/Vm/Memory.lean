import Lxs.State.Execution
import Lxs.Vm.Fields

/-!
# The memory of a frame

What the instructions of a frame touch of its memory, by the words on its stack, and what the memory has cost so far. Every
access goes through `chargeMem`: the memory ends with the highest byte touched, and its price is that of the words which
cover it, whatever the order of the accesses.

## Main results

* `memory_gas_path_independent`: **the charges of a frame add up to the price of its memory**;
* `msize_iff`: **`MSIZE` pushes whole words exactly when the highest byte touched ends one**.
-/

set_option linter.unusedSectionVars false

namespace Lxs.Vm

open Lib.Hoare StateDB

/-! ### Prices of whole memories -/

def words (n : ℕ) : ℕ := (n + 31) / 32

def wordCost (w : ℕ) : ℕ := w * 3 + w * w / 512

theorem words_mono {a b : ℕ} (h : a ≤ b) : words a ≤ words b := by
  unfold words
  omega

theorem wordCost_mono {a b : ℕ} (h : a ≤ b) : wordCost a ≤ wordCost b := by
  have hsq : a * a / 512 ≤ b * b / 512 := Nat.div_le_div_right (Nat.mul_le_mul h h)
  unfold wordCost
  omega

theorem words_le {n : ℕ} (h : n ≤ 2 ^ 32) : words n ≤ 2 ^ 27 := by
  unfold words
  omega

theorem square_le {w : ℕ} (h : w ≤ 2 ^ 27) : w * w ≤ 2 ^ 54 :=
  (Nat.mul_le_mul h h).trans (by norm_num)

theorem wordCost_lt {w : ℕ} (h : w ≤ 2 ^ 27) : wordCost w < 2 ^ 64 := by
  have hsq := square_le h
  unfold wordCost
  omega

theorem toNat_toWordSize {n : UInt64} (h : n.toNat ≤ 2 ^ 32) : (toWordSize n).toNat = words n.toNat := by
  have h31 : (31 : UInt64).toNat = 31 := rfl
  have h32 : (32 : UInt64).toNat = 32 := rfl
  rw [toWordSize, UInt64.toNat_div, UInt64.toNat_add, h31, h32, Nat.mod_eq_of_lt (by omega), words]

theorem toNat_memoryCost {w : UInt64} (h : w.toNat ≤ 2 ^ 27) : (memoryCost w).toNat = wordCost w.toNat := by
  have hsq := square_le h
  have h3 : (3 : UInt64).toNat = 3 := rfl
  have h512 : (512 : UInt64).toNat = 512 := rfl
  rw [memoryCost, UInt64.toNat_add, UInt64.toNat_mul, UInt64.toNat_div, UInt64.toNat_mul, h3, h512,
    Nat.mod_eq_of_lt (by omega : w.toNat * 3 < 2 ^ 64), Nat.mod_eq_of_lt (by omega : w.toNat * w.toNat < 2 ^ 64),
    Nat.mod_eq_of_lt (by omega), wordCost]

/-- No value on the way to the price of growing from `len` bytes to cover `[off, off + size)` leaves 64 bits. -/
structure Exact (len off size : ℕ) : Prop where
  stop : off + size < 2 ^ 64
  roundNew : off + size + 31 < 2 ^ 64
  roundOld : len + 31 < 2 ^ 64
  squareNew : words (off + size) * words (off + size) < 2 ^ 64
  squareOld : words len * words len < 2 ^ 64
  costNew : wordCost (words (off + size)) < 2 ^ 64
  costOld : wordCost (words len) < 2 ^ 64
  grows : words len < words (off + size) → wordCost (words len) ≤ wordCost (words (off + size))

theorem Exact.of_le {len off size : ℕ} (hlen : len ≤ 2 ^ 32) (hstop : off + size ≤ 2 ^ 32) : Exact len off size := by
  have hnew := square_le (words_le hstop)
  have hold := square_le (words_le hlen)
  exact ⟨by omega, by omega, by omega, by omega, by omega, wordCost_lt (words_le hstop), wordCost_lt (words_le hlen),
    fun h => wordCost_mono h.le⟩

theorem expansionGas_exact {mem : Bytes} {off size gas : UInt64} (hlen : mem.length ≤ 2 ^ 32) (hs : size ≠ 0)
    (h : expansionGas mem off size = some gas) :
    gas.toNat = wordCost (words (max mem.length (off.toNat + size.toNat))) - wordCost (words mem.length) := by
  obtain ⟨hadd, hmax⟩ := toNat_add_of_expansionGas h hs
  have hold : (UInt64.ofNat mem.length).toNat = mem.length := by
    rw [UInt64.toNat_ofNat', Nat.mod_eq_of_lt (by omega)]
  have hnewWords : (toWordSize (off + size)).toNat = words (off.toNat + size.toNat) := by
    rw [toNat_toWordSize (by omega), hadd]
  have holdWords : (toWordSize (UInt64.ofNat mem.length)).toNat = words mem.length := by
    rw [toNat_toWordSize (by omega), hold]
  unfold expansionGas at h
  rw [if_neg hs] at h
  dsimp only at h
  split_ifs at h with _ _ hle
  · obtain rfl := Option.some.inj h
    rw [UInt64.le_iff_toNat_le, hnewWords, holdWords] at hle
    have hmaxWords : words (max mem.length (off.toNat + size.toNat)) = words mem.length := by
      rcases le_total mem.length (off.toNat + size.toNat) with hlt | hlt
      · rw [max_eq_right hlt]
        exact le_antisymm hle (words_mono hlt)
      · rw [max_eq_left hlt]
    rw [hmaxWords, Nat.sub_self]
    rfl
  · obtain rfl := Option.some.inj h
    rw [UInt64.le_iff_toNat_le, hnewWords, holdWords, Nat.not_le] at hle
    have hlt : mem.length ≤ off.toNat + size.toNat := by
      by_contra hcon
      exact absurd (words_mono (Nat.not_le.1 hcon).le) (Nat.not_le.2 hle)
    have hcostNew := toNat_memoryCost (w := toWordSize (off + size)) (by rw [hnewWords]; exact words_le hmax)
    have hcostOld := toNat_memoryCost (w := toWordSize (UInt64.ofNat mem.length)) (by rw [holdWords]; exact words_le hlen)
    rw [hnewWords] at hcostNew
    rw [holdWords] at hcostOld
    have hcost : memoryCost (toWordSize (UInt64.ofNat mem.length)) ≤ memoryCost (toWordSize (off + size)) := by
      rw [UInt64.le_iff_toNat_le, hcostNew, hcostOld]
      exact wordCost_mono hle.le
    rw [UInt64.toNat_sub_of_le _ _ hcost, hcostNew, hcostOld, max_eq_right hlt]

/-! ### The charges of a frame -/

variable {m m' : Interp} {off size : ℕ}

theorem toNat_uint64_of {w : ℕ} (h : isUint64 w = true) : (uint64 w).toNat = w := by
  rw [isUint64, decide_eq_true_eq] at h
  rw [uint64, UInt64.toNat_ofNat', Nat.mod_eq_of_lt h]

theorem chargeMem_ends (hlen : m.mem.length ≤ 2 ^ 32) : Ends (· = m) (chargeMem off size) fun _ m' =>
    (size = 0 ∧ m' = m) ∨ (size ≠ 0 ∧ off + size ≤ 2 ^ 32 ∧ m'.mem.length = max m.mem.length (off + size) ∧
      m.gas.toNat = m'.gas.toNat + (wordCost (words (max m.mem.length (off + size))) - wordCost (words m.mem.length))) := by
  unfold chargeMem
  refine .ite (fun h0 => .pure fun _ ht => .inl ⟨h0, ht⟩) fun hsize => ?_
  refine .bind (Q := fun _ t => t = m ∧ isUint64 off = true ∧ isUint64 size = true) ?_ fun _ => .of_get fun t ht => ?_
  · refine .ite (fun _ => .throw trivial) fun hu => .pure fun _ ht => ⟨ht, ?_⟩
    simpa only [Bool.or_eq_true, Bool.not_eq_true', not_or, Bool.not_eq_false] using hu
  obtain ⟨rfl, hoff, hu⟩ := ht
  split
  · exact .throw trivial
  · rename_i gas hgas
    have hne := uint64_ne_zero hsize hu
    have hexact := expansionGas_exact hlen hne hgas
    obtain ⟨hadd, hmax⟩ := toNat_add_of_expansionGas hgas hne
    rw [toNat_uint64_of hoff, toNat_uint64_of hu] at hexact hadd hmax
    refine .bind (Q := fun _ t' => t'.mem = t.mem ∧ t.gas.toNat = t'.gas.toNat + gas.toNat) ?_ fun _ => .modify fun t' ht' => ?_
    · refine .of_get fun t' ht' => .bind (Q := fun _ u => u = t ∧ ¬t.gas < gas) ?_ fun _ => .modify fun u hu => ?_
      · subst ht'
        exact .ite (fun _ => .throw trivial) fun hlt => .pure fun _ hu => ⟨hu, hlt⟩
      · obtain ⟨rfl, hlt⟩ := hu
        have hle := UInt64.not_lt.1 hlt
        have hle' := UInt64.le_iff_toNat_le.1 hle
        refine ⟨rfl, ?_⟩
        dsimp only
        rw [UInt64.toNat_sub_of_le _ _ hle]
        omega
    · refine .inr ⟨hsize, hmax, ?_, ?_⟩
      · dsimp only
        rw [length_resize, ht'.1, hadd]
      · rw [ht'.2, hexact]

/-- The end of a window; an empty one touches nothing. -/
def stop (access : ℕ × ℕ) : ℕ := if access.2 = 0 then 0 else access.1 + access.2

/-- The greatest end of the windows, zero when all are empty. -/
def top (accesses : List (ℕ × ℕ)) : ℕ := accesses.foldl (fun n access => max n (stop access)) 0

theorem top_append (accesses : List (ℕ × ℕ)) (access : ℕ × ℕ) : top (accesses ++ [access]) = max (top accesses) (stop access) := by
  rw [top, List.foldl_append]
  rfl

/-- **The charges of a frame**: the windows it asked for, one after another from an empty memory, what they cost in all, and
the frame after them. Between two charges the frame may do anything that leaves the length of its memory. -/
inductive Charges : List (ℕ × ℕ) → ℕ → Interp → Prop
  | start {m : Interp} : m.mem = [] → Charges [] 0 m
  | charge {accesses total m m' off size} : Charges accesses total m → chargeMem off size m = .ok ((), m') →
      Charges (accesses ++ [(off, size)]) (total + (m.gas.toNat - m'.gas.toNat)) m'
  | other {accesses total m m'} : Charges accesses total m → m'.mem.length = m.mem.length → Charges accesses total m'

theorem Charges.exact {accesses : List (ℕ × ℕ)} {total : ℕ} (h : Charges accesses total m) :
    m.mem.length = top accesses ∧ top accesses ≤ 2 ^ 32 ∧ total = wordCost (words (top accesses)) := by
  induction h with
  | start hmem => exact ⟨by rw [hmem]; rfl, Nat.zero_le _, rfl⟩
  | other _ hlen ih => exact ⟨hlen.trans ih.1, ih.2⟩
  | @charge accesses total m m' off size _ hcharge ih =>
    obtain ⟨hlen, hle, hcost⟩ := ih
    rw [top_append]
    rcases (chargeMem_ends (hlen ▸ hle)).ok rfl hcharge with ⟨h0, rfl⟩ | ⟨hsize, hstop, hlen', hgas⟩
    · rw [stop, if_pos h0, max_eq_left (Nat.zero_le _), Nat.sub_self]
      exact ⟨hlen, hle, hcost⟩
    · have hstopEq : stop (off, size) = off + size := if_neg hsize
      rw [hlen] at hlen' hgas
      rw [hstopEq]
      have hmono := wordCost_mono (words_mono (le_max_left (top accesses) (off + size)))
      exact ⟨hlen', max_le hle hstop, by omega⟩

/-- **Memory gas is path independent.** Whatever the windows and their order, the charges of a frame add up to the price of
the words that cover the greatest end, and no value on the way to the price of a further window leaves 64 bits. -/
theorem memory_gas_path_independent {accesses : List (ℕ × ℕ)} {total : ℕ} (h : Charges accesses total m) :
    total = (memoryCost (UInt64.ofNat ((top accesses + 31) / 32))).toNat ∧
      ∀ off size m', chargeMem off size m = .ok ((), m') → size ≠ 0 → Exact m.mem.length off size := by
  obtain ⟨hlen, hle, hcost⟩ := h.exact
  constructor
  · have hw := words_le hle
    have hword : (UInt64.ofNat (words (top accesses))).toNat = words (top accesses) := by
      rw [UInt64.toNat_ofNat', Nat.mod_eq_of_lt (by omega)]
    show total = (memoryCost (UInt64.ofNat (words (top accesses)))).toNat
    rw [toNat_memoryCost (by rw [hword]; exact hw), hword]
    exact hcost
  · intro off size m' hcharge hsize
    rcases (chargeMem_ends (hlen ▸ hle)).ok rfl hcharge with ⟨h0, -⟩ | ⟨-, hstop, -⟩
    · exact absurd h0 hsize
    · exact .of_le (hlen ▸ hle) hstop

def chargeCtx : Context := ⟨7, 8, 0, 0, 8, 0, 9, 1, 1, 1, 1, 0, false⟩

def chargeFrame (mem : Bytes) (gas : UInt64) : Interp := { newInterp [] [] gas chargeCtx 0 with mem := mem }

theorem charges_three : Charges [(70, 3), (5, 0), (0, 33)] 9 (chargeFrame (List.replicate 73 0) 91) :=
  have hfirst : Charges [(70, 3)] 9 (chargeFrame (List.replicate 73 0) 91) :=
    @Charges.charge [] 0 (chargeFrame [] 100) _ 70 3 (.start rfl) rfl
  have hempty : Charges [(70, 3), (5, 0)] 9 (chargeFrame (List.replicate 73 0) 91) :=
    @Charges.charge [(70, 3)] 9 _ _ 5 0 hfirst rfl
  @Charges.charge [(70, 3), (5, 0)] 9 _ _ 0 33 hempty rfl

/-- Three windows, the highest first and one of them empty. -/
theorem memory_gas_path_independent_three :
    Charges [(70, 3), (5, 0), (0, 33)] 9 (chargeFrame (List.replicate 73 0) 91) ∧
      9 = (memoryCost (UInt64.ofNat ((top [(70, 3), (5, 0), (0, 33)] + 31) / 32))).toNat :=
  ⟨charges_three, (memory_gas_path_independent charges_three).1⟩

/-! ### What an instruction touches -/

def OpCode.windows (op : OpCode) (stack : List ℕ) : List (ℕ × ℕ) :=
  let word (i : ℕ) : ℕ := stack.getD i 0
  match op with
  | .SHA3 | .LOG _ | .RETURN | .REVERT => [(word 0, word 1)]
  | .MLOAD | .MSTORE => [(word 0, 32)]
  | .MSTORE8 => [(word 0, 1)]
  | .CALLDATACOPY | .CODECOPY | .RETURNDATACOPY => [(word 0, word 2)]
  | .EXTCODECOPY => [(word 1, word 3)]
  | .MCOPY => [(word 0, word 2), (word 1, word 2)]
  | .CREATE | .CREATE2 => [(word 1, word 2)]
  | .CALL => [(word 3, word 4), (word 5, word 6)]
  | .DELEGATECALL | .STATICCALL => [(word 2, word 3), (word 4, word 5)]
  | _ => []

def Interp.windows (m : Interp) : List (ℕ × ℕ) :=
  match m.code[m.pc]? with
  | none => []
  | some b => (decode b).windows m.stack

def Paid (accesses : List (ℕ × ℕ)) (m : Interp) : Prop := ∃ total, Charges accesses total m

/-- The windows are charged for, and `k` words of the stack `st` are popped. -/
def Held (st : List ℕ) (accesses : List (ℕ × ℕ)) (k : ℕ) (m : Interp) : Prop := m.stack = st.drop k ∧ Paid accesses m

/-- A part of an instruction that leaves the length of the memory. -/
def Keeps {α : Type} (x : OpM α) : Prop := ∀ n, Ends (fun m => m.mem.length = n) x fun _ m => m.mem.length = n

section Rules

variable {α β : Type} {x : OpM α} {f : α → OpM β} {accesses : List (ℕ × ℕ)} {st : List ℕ} {k : ℕ}

namespace Keeps

instance : Aside fun m : Interp => m.mem.length := ⟨fun _ _ => rfl, fun _ _ => rfl, fun _ _ => rfl, fun _ _ h => h⟩

theorem of_fixes (h : Fixes (fun m => m.mem.length) x) : Keeps x := h

theorem jump (dest : ℕ) : Keeps (Vm.jump dest) :=
  of_fixes <| .bind (.failIf _ _) fun _ => .get_bind fun _ => .bind (.failIf _ _) fun _ => .bind (.index _ _) fun _ =>
    .bind (.failIf _ _) fun _ => .modify fun _ => rfl

theorem doPush (n : ℕ) : Keeps (Vm.doPush n) :=
  of_fixes <| .get_bind fun _ => .bind (.pushData _ n _) fun _ => .bind (.modify fun _ => rfl) fun _ => .push _

theorem advance : Keeps Vm.advance := by
  refine of_fixes <| .modify fun m => ?_
  split <;> rfl

end Keeps

variable {R : β → Interp → Prop}

theorem paid_keeps (hx : Keeps x) : Ends (Paid accesses) x fun _ => Paid accesses := by
  rintro m ⟨total, hm⟩
  have hlen := hx m.mem.length m rfl
  cases hr : x m with
  | error e => trivial
  | ok p =>
    rw [hr] at hlen
    exact ⟨total, hm.other hlen⟩

theorem paid_bind (hx : Keeps x) (hf : ∀ a, Ends (Paid accesses) (f a) R) : Ends (Paid accesses) (x >>= f) R :=
  .bind (paid_keeps hx) hf

theorem charge_bind {f : Unit → OpM β} (hf : Ends (Paid (accesses ++ [(off, size)])) (f ()) R) :
    Ends (Paid accesses) (chargeMem off size >>= f) R := by
  refine .bind (Q := fun _ => Paid (accesses ++ [(off, size)])) ?_ fun _ => hf
  rintro m ⟨total, hm⟩
  cases hr : chargeMem off size m with
  | error e => trivial
  | ok p => exact ⟨_, hm.charge hr⟩

theorem pop_held {f : ℕ → OpM β} (hf : Ends (Held st accesses (k + 1)) (f (st.getD k 0)) R) :
    Ends (Held st accesses k) (pop >>= f) R := by
  refine .bind (Q := fun v m => v = st.getD k 0 ∧ Held st accesses (k + 1) m) ?_ fun v m hm => by
    obtain ⟨rfl, hm⟩ := hm
    exact hf m hm
  rintro m ⟨hst, total, hm⟩
  cases hs : m.stack with
  | nil => rw [pop_nil hs]; trivial
  | cons v rest =>
    have hdrop : st.drop k = v :: rest := hst.symm.trans hs
    have hword : st[k]? = some v := by rw [← Nat.add_zero k, ← List.getElem?_drop, hdrop]; rfl
    rw [pop_cons hs]
    refine ⟨?_, ?_, total, hm.other rfl⟩
    · rw [List.getD_eq_getElem?_getD, hword]
      rfl
    · rw [← List.tail_drop, hdrop]
      rfl

theorem popIf_held {c : Prop} [Decidable c] {f : ℕ → OpM β}
    (hf : ∀ v, Ends (Held st accesses (if c then k + 1 else k)) (f v) R) : Ends (Held st accesses k) (popIf c >>= f) R := by
  unfold popIf
  split
  · rw [if_pos ‹_›] at hf
    exact pop_held (hf _)
  · rw [if_neg ‹_›] at hf
    exact hf 0

theorem failIf_held {c : Prop} [Decidable c] {e : VmError} {f : Unit → OpM β} (hf : Ends (Held st accesses k) (f ()) R) :
    Ends (Held st accesses k) (failIf c e >>= f) R :=
  .bind (Q := fun _ => Held st accesses k) (.ite (fun _ => .throw trivial) fun _ => .pure fun _ h => h) fun _ => hf

theorem get_held {f : Interp → OpM β} (hf : ∀ m, Ends (Held st accesses k) (f m) R) :
    Ends (Held st accesses k) (get >>= f) R :=
  .of_get fun m hm => (hf m).pre fun _ ht => ht ▸ hm

theorem of_paid {x : OpM β} (h : Ends (Paid accesses) x R) : Ends (Held st accesses k) x R := h.pre fun _ hm => hm.2

end Rules

/-! ### Every instruction pays for its windows -/

section Instructions

variable [Crypto] {v : View} {accesses : List (ℕ × ℕ)} {st : List ℕ}

theorem opLog_paid (n : ℕ) : Ends (Held st accesses 0) (opLog n) fun _ => Paid (accesses ++ [(st.getD 0 0, st.getD 1 0)]) :=
  get_held fun _ => failIf_held <| pop_held <| pop_held <| of_paid <| paid_bind (.of_fixes (.popTopics n)) fun _ => charge_bind <|
    paid_keeps <| .of_fixes <| .bind (.useGas _) fun _ => .bind (.useGas _) fun _ => .bind (.memGet _ _) fun _ => .get_bind fun _ => .pure _

def callWindows (st : List ℕ) (k : ℕ) : List (ℕ × ℕ) :=
  [(st.getD k 0, st.getD (k + 1) 0), (st.getD (k + 2) 0, st.getD (k + 3) 0)]

theorem opCall_paid (mode : CallMode) : Ends (Held st accesses 0) (opCall v mode)
    fun _ => Paid (accesses ++ callWindows st (if mode = .regular then 3 else 2)) := by
  refine pop_held <| pop_held <| popIf_held fun value => ?_
  generalize (if mode = .regular then 2 + 1 else 2) = k
  refine pop_held <| pop_held <| pop_held <| pop_held <| get_held fun _ => failIf_held <| of_paid ?_
  refine paid_bind (.of_fixes (.useGas _)) fun _ => charge_bind <| charge_bind ?_
  rw [List.append_assoc]
  refine paid_keeps <| .of_fixes <| .bind (.memGet _ _) fun _ => .bind (.wordToAddress _) fun _ => .get_bind fun _ => ?_
  refine .bind (.modify fun _ => rfl) fun _ => .get_bind fun _ => .ite .refuse ?_
  exact .ite .refuse (.bind (.modify fun _ => rfl) fun _ => .pure _)

theorem opCreate_paid (create2 : Bool) : Ends (Held st accesses 0) (opCreate v create2)
    fun _ => Paid (accesses ++ [(st.getD 1 0, st.getD 2 0)]) := by
  refine get_held fun _ => failIf_held <| pop_held <| pop_held <| pop_held <| of_paid ?_
  refine paid_bind (.of_fixes (.popIf _)) fun _ => paid_bind (.of_fixes (.useGas _)) fun _ => charge_bind <| paid_keeps <| .of_fixes ?_
  refine .bind (.useGas _) fun _ => .bind (.memGet _ _) fun _ => .bind (.modify fun _ => rfl) fun _ => .get_bind fun _ => ?_
  refine .ite .refuse <| .ite .refuse ?_
  exact .bind (.newAddress _ _ _ _ _) fun _ => .bind (.modify fun _ => rfl) fun _ => .pure _

theorem copyData_paid {memOff dataOff length : ℕ} {data : Bytes} :
    Ends (Paid accesses) (copyData memOff dataOff length data) fun _ => Paid (accesses ++ [(memOff, length)]) :=
  charge_bind <| paid_keeps <| .of_fixes <| .bind (.useGas _) fun _ => .bind (.readData _ _ _) fun _ => .memSet _ _

theorem readMem_paid : Ends (Held st accesses 0) readMem fun _ => Paid (accesses ++ [(st.getD 0 0, st.getD 1 0)]) :=
  pop_held <| pop_held <| of_paid <| charge_bind <| paid_keeps <| .of_fixes <| .memGet _ _

theorem keeps_paid {x : OpM Action} (h : Keeps x) : Ends (Held st accesses 0) x fun _ => Paid (accesses ++ []) := by
  rw [List.append_nil]
  exact of_paid (paid_keeps h)

theorem exec_paid (op : OpCode) : Ends (Held st accesses 0) (exec v op) fun _ => Paid (accesses ++ op.windows st) := by
  cases op with
  | bin _ | ADDMOD | MULMOD | ISZERO | NOT | BLOCKHASH | POP | SLOAD | SSTORE | env _ | BALANCE | EXTCODESIZE | EXTCODEHASH
  | CALLDATALOAD | JUMPDEST | STOP | PUSH _ | DUP _ | SWAP _ | INVALID | unknown _ =>
    exact keeps_paid <| .of_fixes <| .exec_plain rfl
  | JUMP => exact keeps_paid <| .of_fixes <| .bind .pop fun _ => .bind (Keeps.jump _) fun _ => .pure _
  | JUMPI =>
    exact keeps_paid <| .of_fixes <| .bind .pop fun _ => .bind .pop fun _ => .ite (.bind (Keeps.jump _) fun _ => .pure _) (.pure _)
  | SHA3 =>
    exact pop_held <| pop_held <| of_paid <| charge_bind <| paid_keeps <| .of_fixes <| .bind (.useGas _) fun _ =>
      .bind (.memGet _ _) fun _ => .bind (.push _) fun _ => .pure _
  | MLOAD =>
    exact pop_held <| of_paid <| charge_bind <| paid_keeps <| .of_fixes <| .bind (.memGet _ _) fun _ => .bind (.push _) fun _ => .pure _
  | MSTORE =>
    exact pop_held <| pop_held <| of_paid <| charge_bind <| paid_keeps <| .of_fixes <| .bind (.memSet32 _ _) fun _ => .pure _
  | MSTORE8 =>
    exact pop_held <| pop_held <| of_paid <| charge_bind <| paid_keeps <| .of_fixes <| .bind (.memSet _ _) fun _ => .pure _
  | CALLDATACOPY | CODECOPY =>
    exact pop_held <| pop_held <| pop_held <| get_held fun _ => of_paid <| .bind copyData_paid fun _ => .pure fun _ h => h
  | EXTCODECOPY =>
    exact pop_held <| pop_held <| pop_held <| pop_held <| of_paid <| charge_bind <| paid_keeps <| .of_fixes <| .bind (.useGas _) fun _ =>
      .bind (.wordToAddress _) fun _ => .bind (.readData _ _ _) fun _ => .bind (.memSet _ _) fun _ => .pure _
  | RETURNDATACOPY =>
    exact pop_held <| pop_held <| pop_held <| get_held fun _ => failIf_held <| of_paid <| charge_bind <| paid_keeps <| .of_fixes <|
      .bind (.useGas _) fun _ => .bind (.slice _ _ _) fun _ => .bind (.memSet _ _) fun _ => .pure _
  | MCOPY =>
    refine pop_held <| pop_held <| pop_held <| of_paid <| charge_bind <| charge_bind ?_
    rw [List.append_assoc]
    exact paid_keeps <| .of_fixes <| .bind (.useGas _) fun _ => .bind (.memGet _ _) fun _ => .bind (.memSet _ _) fun _ => .pure _
  | LOG n => exact opLog_paid n
  | CREATE => exact opCreate_paid false
  | CREATE2 => exact opCreate_paid true
  | CALL => exact opCall_paid .regular
  | DELEGATECALL => exact opCall_paid .delegate
  | STATICCALL => exact opCall_paid .static
  | RETURN => exact .bind readMem_paid fun _ => .pure fun _ h => h
  | REVERT => exact .bind readMem_paid fun _ => .pure fun _ h => h

theorem dispatch_paid (op : OpCode) : Ends (Held st accesses 0) (dispatch v op) fun _ => Paid (accesses ++ op.windows st) := by
  have hgas : Ends (Held st accesses 0) (useGas op.gasCost) fun _ => Held st accesses 0 := by
    refine get_held fun _ => failIf_held <| .modify fun m hm => ⟨hm.1, ?_⟩
    obtain ⟨total, hcharges⟩ := hm.2
    exact ⟨total, hcharges.other rfl⟩
  refine .bind hgas fun _ => ?_
  split
  case h_1 => exact keeps_paid <| .of_fixes <| .pure _
  case h_2 => exact keeps_paid <| .of_fixes <| .bind (Keeps.doPush _) fun _ => .pure _
  case h_3 => exact keeps_paid <| .of_fixes <| .bind (.dup _) fun _ => .bind Keeps.advance fun _ => .pure _
  case h_4 => exact keeps_paid <| .of_fixes <| .bind (.swap _) fun _ => .bind Keeps.advance fun _ => .pure _
  case h_5 => exact .bind (exec_paid op) fun _ => paid_keeps <| .of_fixes <| .bind Keeps.advance fun _ => .pure _

end Instructions

/-! ### Whole frames -/

section Frames

variable [Crypto] {σ : Type} [StateDB σ] {s s' : σ} {accesses : List (ℕ × ℕ)}

/-- A turn of the loop pays for the windows of its instruction: a nested frame does not change the length of the memory. -/
theorem runStep_paid {rec : Frame σ} (h : runStep rec m s = .ok (.next m' s')) (hm : Paid accesses m) :
    Paid (accesses ++ m.windows) m' := by
  obtain ⟨b, act, m₁, hb, hdispatch, hlen⟩ := runStep_next h fun m => m.mem.length
  obtain ⟨total, hm₁⟩ := (dispatch_paid (v := view s) (decode b)).ok ⟨rfl, hm⟩ hdispatch
  rw [Interp.windows, hb]
  exact ⟨total, hm₁.other hlen⟩

/-- **The frames an execution passes**, each with the windows its own instructions have touched so far. -/
inductive History (m₀ : Interp) (s₀ : σ) : List (ℕ × ℕ) → Interp → σ → Prop
  | start : History m₀ s₀ [] m₀ s₀
  | next {past : List (ℕ × ℕ)} {f f' : Interp} {t t' : σ} : History m₀ s₀ past f t →
      runStep run f t = .ok (.next f' t') → History m₀ s₀ (past ++ f.windows) f' t'
  | call {past : List (ℕ × ℕ)} {f f' : Interp} {t : σ} {p : CallPlan} : History m₀ s₀ past f t →
      instruction f t = .ok (.call p, f') → precompileFor p.target = none →
        History m₀ s₀ [] (callFrame p f' (enterCall f.ctx p.target p.value t)) (enterCall f.ctx p.target p.value t)
  | create {past : List (ℕ × ℕ)} {f f' : Interp} {t : σ} {p : CreatePlan} : History m₀ s₀ past f t →
      instruction f t = .ok (.create p, f') → Fresh p f.ctx t →
        History m₀ s₀ [] (createFrame p f') (enterCreate f.ctx p.newAddr p.value t)

theorem History.paid {m₀ : Interp} {s₀ : σ} (h₀ : m₀.mem = []) (h : History m₀ s₀ accesses m s) : Paid accesses m := by
  induction h with
  | start => exact ⟨0, .start h₀⟩
  | next _ hstep ih => exact runStep_paid hstep ih
  | call => exact ⟨0, .start rfl⟩
  | create => exact ⟨0, .start rfl⟩

theorem push_ends (v : ℤ) (st : List ℕ) : Ends (fun m => m.stack = st) (push v) fun _ m => m.stack = wrap v :: st := by
  refine .of_get fun m hm => .bind (Q := fun _ t => t = m) (.ite (fun _ => .throw trivial) fun _ => .pure fun _ h => h) fun _ =>
    .modify fun t ht => ?_
  subst ht
  exact congrArg _ hm

theorem dispatch_msize {v : View} : Ends (· = m) (dispatch v (.env .MSIZE)) fun act m' =>
    act = .next ∧ m'.stack = wrap m.mem.length :: m.stack := by
  refine .bind (Q := fun _ t => t.mem = m.mem ∧ t.stack = m.stack) ?_ fun _ => ?_
  · refine .of_get fun t ht => .bind (Q := fun _ u => u = t) (.ite (fun _ => .throw trivial) fun _ => .pure fun _ h => h) fun _ =>
      .modify fun u hu => ?_
    subst hu
    subst ht
    exact ⟨rfl, rfl⟩
  · refine .bind (Q := fun act t => act = .next ∧ t.stack = wrap m.mem.length :: m.stack) ?_ fun act => ?_
    · refine .of_get fun t ht => .bind (Q := fun _ u => u.stack = wrap m.mem.length :: m.stack) ?_ fun _ =>
        .pure fun _ h => ⟨rfl, h⟩
      refine (push_ends (t.mem.length : ℤ) t.stack).conseq (fun u hu => congrArg Interp.stack hu) fun _ u hu => ?_
      rw [hu, ht.1, ht.2]
    · refine .bind (Q := fun _ t => act = .next ∧ t.stack = wrap m.mem.length :: m.stack) (.modify fun t ht => ?_) fun _ =>
        .pure fun _ h => h
      split <;> exact ht

/-- **`MSIZE` pushes the end of the highest byte touched.** That is a whole number of words, as the memory is priced,
exactly when this end is a multiple of 32. -/
theorem msize_iff (code input : Bytes) (gas : UInt64) (ctx : Context) (depth : ℕ) (s₀ : σ)
    (h : History (newInterp code input gas ctx depth) s₀ accesses m s) (hop : m.code[m.pc]? = some 0x59)
    (hstep : runStep run m s = .ok (.next m' s')) :
    m'.stack = top accesses :: m.stack ∧
      (m'.stack = 32 * ((top accesses + 31) / 32) :: m.stack ↔ 32 ∣ top accesses) := by
  obtain ⟨total, hcharges⟩ := h.paid rfl
  obtain ⟨hlen, hle, -⟩ := hcharges.exact
  have hstack : m'.stack = top accesses :: m.stack := by
    have hwrap : wrap (m.mem.length : ℤ) = top accesses := by
      unfold wrap
      rw [hlen, ← Int.natCast_mod, Nat.mod_eq_of_lt (hle.trans_lt (by decide)), Int.toNat_natCast]
    have hdecode : decode 0x59 = .env .MSIZE := by decide
    unfold runStep at hstep
    rw [hop] at hstep
    dsimp only at hstep
    rw [hdecode] at hstep
    cases hr : dispatch (view s) (.env .MSIZE) m with
    | error f => rw [hr] at hstep; cases f <;> cases hstep
    | ok x =>
      obtain ⟨act, m₁⟩ := x
      obtain ⟨rfl, hm₁⟩ := dispatch_msize.ok rfl hr
      rw [hr] at hstep
      cases hstep
      rw [hm₁, hwrap]
  refine ⟨hstack, ?_⟩
  rw [hstack, List.cons.injEq, and_iff_left rfl]
  omega

end Frames

/-! ### A byte, then a word -/

/-- Store a byte at 0 and ask for the size, then the same with a word. -/
def storeCode : Bytes := [0x60, 0, 0x60, 0, 0x53, 0x59, 0x60, 0, 0x60, 0, 0x52, 0x59]

/-- The frame of `storeCode` at a position, with a stack, a memory and the gas left. -/
def storeFrame (stack : List ℕ) (mem : Bytes) (pc : ℕ) (gas : UInt64) : Interp :=
  { newInterp storeCode [] 100 chargeCtx 0 with stack := stack, mem := mem, pc := pc, gas := gas }

theorem history_byte : @History (tableCrypto [] []) State _ (newInterp storeCode [] 100 chargeCtx 0) State.new [(0, 1)]
    (storeFrame [] [0] 5 88) State.new :=
  let _ := tableCrypto [] []
  have hfirst : History (newInterp storeCode [] 100 chargeCtx 0) State.new [] (storeFrame [0] [] 2 97) State.new :=
    .next .start rfl
  have hsecond : History (newInterp storeCode [] 100 chargeCtx 0) State.new [] (storeFrame [0, 0] [] 4 94) State.new :=
    .next hfirst rfl
  .next hsecond rfl

theorem history_word : @History (tableCrypto [] []) State _ (newInterp storeCode [] 100 chargeCtx 0) State.new
    [(0, 1), (0, 32)] (storeFrame [1] (List.replicate 32 0) 11 77) State.new :=
  let _ := tableCrypto [] []
  have hsize : History (newInterp storeCode [] 100 chargeCtx 0) State.new [(0, 1)] (storeFrame [1] [0] 6 86) State.new :=
    .next history_byte rfl
  have hfirst : History (newInterp storeCode [] 100 chargeCtx 0) State.new [(0, 1)] (storeFrame [0, 1] [0] 8 83) State.new :=
    .next hsize rfl
  have hsecond : History (newInterp storeCode [] 100 chargeCtx 0) State.new [(0, 1)] (storeFrame [0, 0, 1] [0] 10 80)
      State.new := .next hfirst rfl
  .next hsecond rfl

/-- After the word the size is one word. -/
theorem msize_iff_word : let _ := tableCrypto [] []
    let m := storeFrame [1] (List.replicate 32 0) 11 77
    let m' := storeFrame [32, 1] (List.replicate 32 0) 12 75
    History (newInterp storeCode [] 100 chargeCtx 0) State.new [(0, 1), (0, 32)] m State.new ∧
      m.code[m.pc]? = some 0x59 ∧ runStep run m State.new = .ok (.next m' State.new) ∧
      m'.stack = top [(0, 1), (0, 32)] :: m.stack ∧
      (m'.stack = 32 * ((top [(0, 1), (0, 32)] + 31) / 32) :: m.stack ↔ 32 ∣ top [(0, 1), (0, 32)]) :=
  ⟨history_word, rfl, rfl, @msize_iff _ _ (tableCrypto [] []) _ _ _ _ _ storeCode [] 100 chargeCtx 0 State.new
    history_word rfl rfl⟩

/-- **After the byte the size is one byte**, where one word covers it. -/
theorem msize_byte : let _ := tableCrypto [] []
    let m := storeFrame [] [0] 5 88
    let m' := storeFrame [1] [0] 6 86
    History (newInterp storeCode [] 100 chargeCtx 0) State.new [(0, 1)] m State.new ∧ m.code[m.pc]? = some 0x59 ∧
      runStep run m State.new = .ok (.next m' State.new) ∧ m'.stack = [1] ∧ 32 * ((top [(0, 1)] + 31) / 32) = 32 :=
  ⟨history_byte, rfl, rfl, rfl, rfl⟩

end Lxs.Vm
