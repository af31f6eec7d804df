import Lxs.Common.Bytes
import Lxs.Lib.Hoare
import Lxs.Vm.Interpreter

/-!
# What an instruction does to its frame

One assertion, `Within m₀ k c`, is carried through every instruction: the frame still is that of `m₀`, its
words fit in 256 bits, at least `c` gas is spent and at least `k` bytes of memory are there. It gives the
gas bounds, and that no slice expression or `FillBytes` panics.
-/

namespace Lxs.Vm

open Lib.Hoare

variable {m₀ m : Interp} {k c : ℕ}

structure Within (m₀ : Interp) (k c : ℕ) (m : Interp) : Prop where
  ctx : m.ctx = m₀.ctx
  code : m.code = m₀.code
  depth : m.depth = m₀.depth
  words : ∀ w ∈ m.stack, w < tt256
  gas : m.gas.toNat + c ≤ m₀.gas.toNat
  mem : k ≤ m.mem.length

theorem Within.mono (h : Within m₀ k c m) {k' c' : ℕ} (hk : k' ≤ k) (hc : c' ≤ c) : Within m₀ k' c' m :=
  { h with gas := (Nat.add_le_add_left hc _).trans h.gas, mem := hk.trans h.mem }

/-- A triple whose faults are errors and never a panic. -/
abbrev Spec {α : Type} (P : Interp → Prop) (x : OpM α) (Q : α → Interp → Prop) : Prop :=
  Triple P x Q (· ≠ Fault.panic)

/-- A triple that says nothing of faults. -/
abbrev Ends {α : Type} (P : Interp → Prop) (x : OpM α) (Q : α → Interp → Prop) : Prop := Triple P x Q fun _ => True

/-! ### Stack and gas -/

section Rules

variable {α : Type} {R : α → Interp → Prop}

variable {P : Interp → Prop}

theorem Spec.fail (e : VmError) : Spec P (Vm.fail e) R := Triple.throw (by simp)

theorem failIf_bind {b : Prop} [Decidable b] {e : VmError} {f : Unit → OpM α}
    (h : ¬b → Spec P (f ()) R) : Spec P (failIf b e >>= f) R := by
  unfold failIf
  split
  · exact .bind (Spec.fail (R := fun _ _ => False) e) fun _ _ h => h.elim
  · exact h ‹_›

theorem wrap_lt (v : ℤ) : wrap v < tt256 := by
  have h0 : 0 ≤ v % (tt256 : ℤ) := Int.emod_nonneg v (by decide)
  have h1 : v % (tt256 : ℤ) < tt256 := Int.emod_lt_of_pos v (by decide)
  unfold wrap
  omega

theorem push_spec (v : ℤ) : Spec (Within m₀ k c) (push v) fun _ => Within m₀ k c := by
  refine .of_get fun m hm => failIf_bind fun _ => .modify fun s hs => ?_
  subst hs
  refine { hm with words := fun w hw => ?_ }
  rcases List.mem_cons.1 hw with rfl | hw
  · exact wrap_lt v
  · exact hm.words w hw

theorem pop_nil {m : Interp} (h : m.stack = []) : pop m = .error (.err .stackUnderflow) := by
  cases m
  cases h
  rfl

theorem pop_cons {m : Interp} {x : ℕ} {rest : List ℕ} (h : m.stack = x :: rest) :
    pop m = .ok (x, { m with stack := rest }) := by
  cases m
  cases h
  rfl

theorem pop_spec : Spec (Within m₀ k c) pop fun v m => v < tt256 ∧ Within m₀ k c m := by
  refine .of_get fun m hm => ?_
  split
  · exact Spec.fail _
  · rename_i v stack hst
    refine .bind (Q := fun _ => Within m₀ k c) (.modify fun s hs => ?_) fun _ => .pure fun s hs => ⟨?_, hs⟩
    · subst hs
      exact { hm with words := fun w hw => hm.words w (hst ▸ List.mem_cons_of_mem _ hw) }
    · exact hm.words v (hst ▸ List.mem_cons_self)

theorem useGas_spec (cost : UInt64) :
    Spec (Within m₀ k c) (useGas cost) fun _ => Within m₀ k (c + cost.toNat) := by
  refine .of_get fun m hm => failIf_bind fun hlt => .modify fun s hs => ?_
  subst hs
  refine { hm with gas := ?_ }
  have hle : cost ≤ s.gas := UInt64.not_lt.1 hlt
  have := hm.gas
  have hsub : (s.gas - cost).toNat = s.gas.toNat - cost.toNat := UInt64.toNat_sub_of_le _ _ hle
  have hle' : cost.toNat ≤ s.gas.toNat := UInt64.le_iff_toNat_le.1 hle
  show (s.gas - cost).toNat + _ ≤ _
  omega

theorem pop_bind {f : ℕ → OpM α} (h : ∀ v, v < tt256 → Spec (Within m₀ k c) (f v) R) :
    Spec (Within m₀ k c) (pop >>= f) R :=
  .bind pop_spec fun v s hs => h v hs.1 s hs.2

theorem popIf_bind {b : Prop} [Decidable b] {f : ℕ → OpM α}
    (h : ∀ v, v < tt256 → (¬b → v = 0) → Spec (Within m₀ k c) (f v) R) : Spec (Within m₀ k c) (popIf b >>= f) R := by
  unfold popIf
  split
  · exact pop_bind fun v hv => h v hv fun hn => absurd ‹_› hn
  · exact .bind (Q := fun v m => v = 0 ∧ Within m₀ k c m) (.pure fun _ hs => ⟨rfl, hs⟩)
      fun v s hs => h v (hs.1 ▸ by decide) (fun _ => hs.1) s hs.2

theorem push_bind {v : ℤ} {f : Unit → OpM α} (h : Spec (Within m₀ k c) (f ()) R) :
    Spec (Within m₀ k c) (push v >>= f) R :=
  .bind (push_spec v) fun _ => h

theorem useGas_bind {cost : UInt64} {f : Unit → OpM α} (h : Spec (Within m₀ k (c + cost.toNat)) (f ()) R) :
    Spec (Within m₀ k c) (useGas cost >>= f) R :=
  .bind (useGas_spec cost) fun _ => h

theorem get_bind {f : Interp → OpM α} (h : ∀ m, Within m₀ k c m → Spec (Within m₀ k c) (f m) R) :
    Spec (Within m₀ k c) (get >>= f) R :=
  .of_get fun m hm => (h m hm).pre fun _ ht => ht ▸ hm

/-! ### Memory -/

def need (off size : ℕ) : ℕ := if size = 0 then 0 else (uint64 off).toNat + (uint64 size).toNat

theorem length_resize (mem : Bytes) (size : UInt64) : (resize mem size).length = max mem.length size.toNat := by
  simp only [resize, List.length_append, List.length_replicate]
  omega

/-- A price is quoted only when the end of the window does not wrap and is addressable. -/
theorem toNat_add_of_expansionGas {mem : Bytes} {off size gas : UInt64} (h : expansionGas mem off size = some gas)
    (hs : size ≠ 0) : (off + size).toNat = off.toNat + size.toNat ∧ off.toNat + size.toNat ≤ 2 ^ 32 := by
  unfold expansionGas at h
  rw [if_neg hs] at h
  dsimp only at h
  split at h
  · cases h
  · rename_i hlt
    split at h
    · cases h
    · rename_i hmax
      have hle : off.toNat ≤ (off + size).toNat := UInt64.le_iff_toNat_le.1 (UInt64.not_lt.1 hlt)
      have hle' : (off + size).toNat ≤ 2 ^ 32 := UInt64.le_iff_toNat_le.1 (UInt64.not_lt.1 hmax)
      have h1 := off.toNat_lt
      have h2 := size.toNat_lt
      rw [UInt64.toNat_add] at hle hle' ⊢
      omega

theorem uint64_ne_zero {w : ℕ} (hw : w ≠ 0) (h : isUint64 w = true) : uint64 w ≠ 0 := by
  intro h0
  have : (uint64 w).toNat = 0 := by rw [h0]; rfl
  simp only [uint64, UInt64.toNat_ofNat', isUint64, decide_eq_true_eq] at this h
  omega

/-- What an access that was paid for satisfies: its end is within the addressable memory. -/
def Fits (off size : ℕ) : Prop := size ≠ 0 → (uint64 off).toNat + (uint64 size).toNat ≤ 2 ^ 32

variable {off size : ℕ}

theorem Fits.lt (h : Fits off size) (hs : uint64 size ≠ 0) :
    (uint64 off).toNat + (uint64 size).toNat < 2 ^ 64 := by
  have := h fun h0 => hs (by rw [h0]; rfl)
  omega

theorem Fits.size_lt (h : Fits off size) : (uint64 size).toNat < 2 ^ 63 := by
  by_cases hs : size = 0
  · rw [hs]
    decide
  · have := h hs
    omega

theorem chargeMem_spec (off size : ℕ) : Spec (Within m₀ k c) (chargeMem off size)
    fun _ m => Fits off size ∧ Within m₀ (max k (need off size)) c m := by
  unfold chargeMem
  split
  · rename_i h0
    exact .pure fun s hs => ⟨fun hne => absurd h0 hne, by simpa [need, h0] using hs⟩
  · rename_i hsize
    refine failIf_bind fun hu => .of_get fun m hm => ?_
    simp only [Bool.or_eq_true, Bool.not_eq_true', not_or, Bool.not_eq_false] at hu
    split
    · exact Spec.fail _
    · rename_i gas hgas
      obtain ⟨hw, hmax⟩ := toNat_add_of_expansionGas hgas (uint64_ne_zero hsize hu.2)
      refine .bind ((useGas_spec gas).pre fun t ht => ht ▸ hm) fun _ => .modify fun s hs => ⟨fun _ => hmax, ?_⟩
      refine { hs with gas := by have := hs.gas; dsimp only; omega, mem := ?_ }
      have := hs.mem
      dsimp only
      rw [length_resize, hw, need, if_neg hsize]
      omega

theorem chargeMem_bind {f : Unit → OpM α}
    (h : Fits off size → Spec (Within m₀ (max k (need off size)) c) (f ()) R) :
    Spec (Within m₀ k c) (chargeMem off size >>= f) R :=
  .bind (chargeMem_spec off size) fun _ s hs => h hs.1 s hs.2

theorem length_window (data : Bytes) (off size : ℕ) : (window data off size).length = size := by
  simp only [window, List.length_append, List.length_replicate, List.length_take]
  omega

variable {size : UInt64}

theorem length_padded {part : Bytes} (h : part.length ≤ size.toNat) :
    (padded part size).length = size.toNat := by
  rw [padded, List.length_append, List.length_replicate]
  omega

theorem pure_bind_spec {β : Type} {x : β} {f : β → OpM α} (h : Spec P (f x) R) :
    Spec P (Pure.pure x >>= f) R :=
  .bind (Q := fun y m => y = x ∧ P m) (.pure fun _ hs => ⟨rfl, hs⟩) fun _ s hs => hs.1 ▸ h s hs.2

theorem index_bind {β : Type} {l : List β} {i : ℕ} {f : β → OpM α} (hi : i < l.length)
    (h : ∀ x ∈ l, Spec P (f x) R) : Spec P (index l i >>= f) R := by
  unfold index
  rw [List.getElem?_eq_getElem hi]
  exact pure_bind_spec (h _ (List.getElem_mem hi))

variable {data : Bytes}

theorem slice_bind {lo hi : ℕ} {f : Bytes → OpM α} (hb : lo ≤ hi ∧ hi ≤ data.length)
    (h : ∀ d, d.length = hi - lo → Spec P (f d) R) : Spec P (slice data lo hi >>= f) R := by
  unfold slice
  rw [if_pos hb]
  refine pure_bind_spec (h _ ?_)
  rw [List.length_take, List.length_drop]
  omega

theorem memGet_bind {off size : UInt64} {f : Bytes → OpM α} (hfits : size ≠ 0 → off.toNat + size.toNat < 2 ^ 64)
    (h : ∀ d, d.length = size.toNat → Spec (Within m₀ k c) (f d) R) :
    Spec (Within m₀ k c) (memGet off size >>= f) R := by
  refine .bind (Q := fun d m => d.length = size.toNat ∧ Within m₀ k c m) ?_ fun d s hs => h d hs.1 s hs.2
  refine get_bind fun m hm => ?_
  dsimp only
  split
  · exact .pure fun _ hs => ⟨length_padded (Nat.zero_le _), hs⟩
  · rename_i hin
    rw [not_or, Nat.not_le] at hin
    have hsum : (off + size).toNat = off.toNat + size.toNat := by
      rw [UInt64.toNat_add, Nat.mod_eq_of_lt (hfits hin.1)]
    refine slice_bind ⟨by omega, min_le_right _ _⟩ fun d hd => .pure fun _ hs => ⟨length_padded ?_, hs⟩
    omega

theorem length_getData : (getData data off size).length = size.toNat := by
  unfold getData window
  split
  · exact List.length_replicate
  · simp only [List.length_append, List.length_replicate, List.length_take]
    omega

/-- **The checked read of an instruction is `getData`**, for every size that an allocation can have: the offset is below
the length of a slice, so the end of the window does not wrap. -/
theorem readData_eq (hsize : size.toNat < 2 ^ 63) :
    readData data off size = pure (getData data off size) := by
  unfold readData getData
  by_cases hzero : size = 0 ∨ !isUint64 off
  · rw [if_pos (hzero.imp_right .inl), if_pos (by simpa using hzero)]
    rfl
  rw [if_neg (by simpa using hzero : ¬(decide (size = 0) || !isUint64 off) = true)]
  by_cases hin : data.length ≤ off
  · rw [if_pos (.inr (.inr hin)), window, List.drop_eq_nil_of_le hin, List.take_nil]
    rfl
  rw [if_neg fun h => h.elim (hzero ∘ .inl) fun h => h.elim (hzero ∘ .inr) hin]
  have hstop : (if data.length < 2 ^ 63 then (uint64 off + size).toNat else off + size.toNat) = off + size.toNat := by
    split
    · rw [UInt64.toNat_add, uint64, UInt64.toNat_ofNat', Nat.mod_eq_of_lt (by omega : off < 2 ^ 64),
        Nat.mod_eq_of_lt (by omega)]
    · rfl
  have htake : (data.drop off).take (min (off + size.toNat) data.length - off) = (data.drop off).take size.toNat := by
    rw [List.take_eq_take_iff, List.length_drop]
    omega
  dsimp only
  rw [hstop, slice, if_pos ⟨by omega, min_le_right _ _⟩, htake]
  rfl

theorem readData_bind {f : Bytes → OpM α}
    (hsize : size.toNat < 2 ^ 63) (h : ∀ d, d.length = size.toNat → Spec P (f d) R) :
    Spec P (readData data off size >>= f) R := by
  rw [readData_eq hsize]
  exact pure_bind_spec (h _ length_getData)

variable {off : UInt64}

theorem memSet_spec {val : Bytes} (hk : val.length ≠ 0 → off.toNat + val.length ≤ k) :
    Spec (Within m₀ k c) (memSet off val) fun _ => Within m₀ k c := by
  unfold memSet
  split
  · exact .pure fun _ hs => hs
  · rename_i hv
    refine .of_get fun m hm => ?_
    have hmem := hm.mem
    have := hk hv
    dsimp only
    rw [if_neg (by omega)]
    refine .modify fun s hs => ?_
    subst hs
    refine { hm with mem := ?_ }
    simp only [List.length_append, List.length_take, List.length_drop]
    omega

theorem memSet_bind {val : Bytes} {f : Unit → OpM α}
    (hk : val.length ≠ 0 → off.toNat + val.length ≤ k) (h : Spec (Within m₀ k c) (f ()) R) :
    Spec (Within m₀ k c) (memSet off val >>= f) R :=
  .bind (memSet_spec hk) fun _ => h

theorem memSet32_bind {val : ℕ} {f : Unit → OpM α} (hv : val < tt256) (hk : off.toNat + 32 ≤ k)
    (h : Spec (Within m₀ k c) (f ()) R) : Spec (Within m₀ k c) (memSet32 off val >>= f) R := by
  have hx : memSet32 off val = memSet off (beBytes 32 val) := if_neg (by omega)
  have hlen := length_beBytes 32 val
  rw [hx]
  generalize beBytes 32 val = bs at hlen
  exact memSet_bind (fun _ => hlen ▸ hk) h

theorem need_le {off size k' : ℕ} {n : ℕ} (hn : n = (uint64 size).toNat) (hk : need off size ≤ k') (h0 : n ≠ 0) :
    (uint64 off).toNat + n ≤ k' := by
  have hs : size ≠ 0 := by
    rintro rfl
    exact h0 hn
  rw [need, if_neg hs] at hk
  omega

theorem wordToHash_bind {w : ℕ} {f : Hash → OpM α} (hw : w < tt256) (h : ∀ x, Spec (Within m₀ k c) (f x) R) :
    Spec (Within m₀ k c) (wordToHash w >>= f) R := by
  have hx : wordToHash w = Pure.pure (BitVec.ofNat 256 w) := by
    unfold wordToHash
    rw [if_neg (by omega)]
  rw [hx]
  exact .bind (Q := fun _ => Within m₀ k c) (.pure fun _ hs => hs) h

theorem wordToAddress_bind {w : ℕ} {f : Address → OpM α} (hw : w < tt256)
    (h : ∀ x, Spec (Within m₀ k c) (f x) R) : Spec (Within m₀ k c) (wordToAddress w >>= f) R :=
  .bind (Q := fun _ => Within m₀ k c) (wordToHash_bind hw fun _ => .pure fun _ hs => hs) h

end Rules

/-! ### Instructions -/

variable {v : View}

/-- What the plan of a call promises about the frame `m₀` in which the instruction started. -/
structure CallPlan.Ok (v : View) (m₀ : Interp) (p : CallPlan) : Prop where
  mode : ∃ mode, p.sub = subContext m₀.ctx mode p.target p.value ∧ (mode ≠ .regular → p.value = 0)
  value : 0 ≤ p.value
  funded : 0 < p.value → m₀.ctx.static = false ∧ p.value ≤ v.getBalance m₀.ctx.address
  depth : m₀.depth < maxCallDepth

structure CreatePlan.Ok (v : View) (m₀ : Interp) (p : CreatePlan) : Prop where
  static : m₀.ctx.static = false
  sub : p.sub = { m₀.ctx with address := p.newAddr, caller := m₀.ctx.address, value := p.value }
  nonce : p.nonce = v.getNonce m₀.ctx.address
  value : 0 ≤ p.value
  funded : 0 < p.value → p.value ≤ v.getBalance m₀.ctx.address
  depth : m₀.depth < maxCallDepth

/-- What an action leaves: gas was spent unless the frame ends here, and a plan keeps its promises. -/
def ActionSpec (v : View) (m₀ : Interp) : Action → Interp → Prop
  | .next, m => m.gas.toNat < m₀.gas.toNat
  | .ret _, _ | .revert _, _ => True
  | .sstore _ _, m | .log _, m => m.gas.toNat < m₀.gas.toNat ∧ m₀.ctx.static = false
  | .call p, m => m.gas.toNat + p.give.toNat < m₀.gas.toNat ∧ need p.retOff p.retSize ≤ m.mem.length ∧ p.Ok v m₀
  | .create p, m => m.gas.toNat + p.give.toNat < m₀.gas.toNat ∧ p.Ok v m₀

def Post (v : View) (m₀ : Interp) (act : Action) (m : Interp) : Prop := Within m₀ 0 0 m ∧ ActionSpec v m₀ act m

theorem Within.post_next (hc : 0 < c) (h : Within m₀ k c m) : Post v m₀ .next m :=
  ⟨h.mono (Nat.zero_le _) (Nat.zero_le _), by have := h.gas; show _ < _; omega⟩

theorem next_spec (hc : 0 < c) : Spec (Within m₀ k c) (pure Action.next) (Post v m₀) :=
  .pure fun _ h => h.post_next hc

theorem binop_spec (op : BinOp) (a b : ℕ) : Spec (Within m₀ k c) (binop op a b) fun _ => Within m₀ k c :=
  useGas_bind ((push_spec _).post fun _ _ h => h.mono le_rfl (by omega))

theorem copyData_spec (memOff dataOff length : ℕ) (data : Bytes) :
    Spec (Within m₀ k c) (copyData memOff dataOff length data) fun _ => Within m₀ k c := by
  refine chargeMem_bind fun hfits => useGas_bind <| readData_bind hfits.size_lt fun part hpart =>
    (memSet_spec fun h0 => ?_).post fun _ _ h => h.mono (by omega) (by omega)
  exact need_le hpart (le_max_right _ _) h0

theorem readMem_spec : Spec (Within m₀ k c) readMem fun _ => Within m₀ k c := by
  refine pop_bind fun off _ => pop_bind fun size _ => chargeMem_bind fun hfits => ?_
  rw [← bind_pure (memGet _ _)]
  exact memGet_bind hfits.lt fun d _ => .pure fun _ h => h.mono (by omega) le_rfl

theorem jump_spec (dest : ℕ) : Spec (Within m₀ k c) (jump dest) fun _ => Within m₀ k c :=
  failIf_bind fun _ => get_bind fun _ _ => failIf_bind fun hlen => index_bind (Nat.not_le.1 hlen) fun _ _ =>
    failIf_bind fun _ => .modify fun _ hs => { hs with }

theorem popTopics_spec (n : ℕ) : Spec (Within m₀ k c) (popTopics n) fun _ => Within m₀ k c := by
  induction n with
  | zero => exact .pure fun _ hs => hs
  | succ n ih =>
    exact pop_bind fun t ht => wordToHash_bind ht fun _ => .bind ih fun _ => .pure fun _ hs => hs

theorem advance_spec : Spec (Within m₀ k c) advance fun _ => Within m₀ k c := by
  refine .modify fun s hs => ?_
  split
  · exact { hs with }
  · exact { hs with }

theorem sstoreGas_pos (cur next : Hash) : 0 < (sstoreGas cur next).toNat := by
  unfold sstoreGas
  split
  · decide
  · split <;> decide

theorem opSstore_spec : Spec (Within m₀ k c) (opSstore v) (Post v m₀) := by
  refine get_bind fun m hm => failIf_bind fun hst => ?_
  refine pop_bind fun key hk => pop_bind fun val hv => wordToHash_bind hk fun kh => wordToHash_bind hv fun vh => ?_
  refine get_bind fun m' _ => useGas_bind (.pure fun s hs => ⟨hs.mono (Nat.zero_le _) (Nat.zero_le _), ?_, ?_⟩)
  · have := hs.gas
    have := sstoreGas_pos (v.getStorage m'.ctx.address kh) vh
    omega
  · simpa [hm.ctx] using hst

theorem logGas_pos : ∀ n : Fin 5, 0 < (logGas + UInt64.ofNat n * logTopicGas).toNat := by decide

theorem opLog_spec (n : Fin 5) : Spec (Within m₀ k c) (opLog n) (Post v m₀) := by
  refine get_bind fun m hm => failIf_bind fun hst => ?_
  refine pop_bind fun off _ => pop_bind fun size _ => .bind (popTopics_spec n) fun topics => ?_
  refine chargeMem_bind fun hfits => useGas_bind <| useGas_bind <| memGet_bind hfits.lt fun d _ => get_bind fun m' _ => ?_
  refine .pure fun s hs => ⟨hs.mono (Nat.zero_le _) (Nat.zero_le _), ?_, ?_⟩
  · have := hs.gas
    have := logGas_pos n
    omega
  · simpa [hm.ctx] using hst

theorem refuse_spec (hc : 0 < c) : Spec (Within m₀ k c) refuse (Post v m₀) :=
  push_bind (next_spec hc)

theorem toNat_sub_div_le (gas : UInt64) : (gas - gas / 64).toNat ≤ gas.toNat := by
  have h : gas / 64 ≤ gas := UInt64.le_iff_toNat_le.2 (by rw [UInt64.toNat_div]; exact Nat.div_le_self _ _)
  rw [UInt64.toNat_sub_of_le _ _ h]
  exact Nat.sub_le _ _

theorem callGas_pos (value : ℕ) : 0 < (if 0 < value then callBaseGas + callValueGas else callBaseGas).toNat := by
  split <;> decide

theorem Within.give {give : UInt64} (h : Within m₀ k c m) (hg : give.toNat ≤ m.gas.toNat) :
    Within m₀ k (c + give.toNat) { m with gas := m.gas - give } := by
  refine { h with gas := ?_ }
  have hsub : (m.gas - give).toNat = m.gas.toNat - give.toNat :=
    UInt64.toNat_sub_of_le _ _ (UInt64.le_iff_toNat_le.2 hg)
  have := h.gas
  show (m.gas - give).toNat + _ ≤ _
  omega

theorem opCall_spec (mode : CallMode) : Spec (Within m₀ k c) (opCall v mode) (Post v m₀) := by
  refine pop_bind fun gasWord _ => pop_bind fun toWord hto => ?_
  refine popIf_bind fun value _ hmode => ?_
  refine pop_bind fun argsOff _ => pop_bind fun argsSize _ => pop_bind fun retOff _ => pop_bind fun retSize _ => ?_
  refine get_bind fun m1 hm1 => failIf_bind fun hstatic => ?_
  refine useGas_bind <| chargeMem_bind fun hargs => chargeMem_bind fun _ => memGet_bind hargs.lt fun args _ => ?_
  refine wordToAddress_bind hto fun target => .of_get fun m hm => ?_
  -- from here on the frame is known exactly: only the gas handed over and the return data change
  have hpos := callGas_pos value
  refine .bind (Q := fun _ t => t = { m with returnData := [] }) (.modify fun _ ht => ht ▸ rfl) fun _ => ?_
  refine .of_get fun _ ht => ?_
  subst ht
  have hm' : Within m₀ _ _ { m with returnData := [] } := { hm with }
  dsimp only
  split
  · exact (refuse_spec (by omega)).pre fun t ht => ht ▸ hm'
  rename_i hdepth
  split
  · exact (refuse_spec (by omega)).pre fun t ht => ht ▸ hm'
  rename_i hfunds
  refine .bind (Q := fun _ => Within m₀ (max (max k (need argsOff argsSize)) (need retOff retSize))
    (c + (if 0 < value then callBaseGas + callValueGas else callBaseGas).toNat +
      (if clampGas gasWord < m.gas - m.gas / 64 then clampGas gasWord else m.gas - m.gas / 64).toNat))
    (.modify fun t ht => ?_) fun _ => .pure fun t ht => ?_
  · subst ht
    refine hm'.give ?_
    have := toNat_sub_div_le m.gas
    split
    · rename_i hlt
      have := UInt64.lt_iff_toNat_lt.1 hlt
      show _ ≤ m.gas.toNat
      omega
    · exact this
  · refine ⟨ht.mono (Nat.zero_le _) (Nat.zero_le _), ?_, ?_, ?_⟩
    · have := ht.gas
      dsimp only
      omega
    · exact (le_max_right _ _).trans ht.mem
    · exact {
        mode := ⟨mode, by rw [hm.ctx], fun hne => by simp [hmode hne]⟩
        value := Int.natCast_nonneg _
        funded := fun hv => by
          have hv' : 0 < value := by simpa using hv
          rw [← hm1.ctx]
          refine ⟨?_, ?_⟩
          · simpa [hv'] using hstatic
          · rw [hm1.ctx, ← hm.ctx]
            simpa [hv'] using hfunds
        depth := by
          rw [← hm.depth]
          simpa using hdepth }

def Interp.WF (m : Interp) : Prop := ∀ w ∈ m.stack, w < tt256

theorem newInterp_wf (code input : Bytes) (gas : UInt64) (ctx : Context) (depth : ℕ) :
    (newInterp code input gas ctx depth).WF := by
  intro w hw
  cases hw

theorem Interp.WF.within (h : m.WF) : Within m 0 0 m := ⟨rfl, rfl, rfl, h, le_rfl, Nat.zero_le _⟩

theorem dup_spec (n : ℕ) : Spec (Within m₀ k c) (dup n) fun _ => Within m₀ k c :=
  get_bind fun _ _ => failIf_bind fun hlen => index_bind (Nat.not_le.1 hlen) fun _ _ => push_spec _

theorem swap_spec (n : ℕ) : Spec (Within m₀ k c) (swap n) fun _ => Within m₀ k c := by
  refine .of_get fun m hm => failIf_bind fun hlen => ?_
  rw [Nat.not_le] at hlen
  refine index_bind (by omega) fun top htop => index_bind hlen fun x hx => .modify fun s hs => ?_
  subst hs
  refine { hm with words := fun w hw => ?_ }
  rcases List.mem_or_eq_of_mem_set hw with hw | rfl
  · rcases List.mem_or_eq_of_mem_set hw with hw | rfl
    · exact hm.words w hw
    · exact hm.words _ hx
  · exact hm.words _ htop

theorem pushData_spec {P : Interp → Prop} (code : Bytes) : ∀ (n start : ℕ), Spec P (pushData code start n) fun _ => P
  | 0, _ => .pure fun _ hs => hs
  | n + 1, start => by
    have hrest : ∀ b : UInt8, Spec P (pushData code (start + 1) n >>= fun rest => pure (b :: rest)) fun _ => P := fun b =>
      .bind (pushData_spec code n (start + 1)) fun _ => .pure fun _ hs => hs
    unfold pushData
    split
    · exact index_bind ‹_› fun b _ => hrest b
    · exact pure_bind_spec (hrest 0)

theorem doPush_spec (n : ℕ) : Spec (Within m₀ k c) (doPush n) fun _ => Within m₀ k c :=
  get_bind fun _ _ => .bind (pushData_spec _ n _) fun _ =>
    .bind (Q := fun _ => Within m₀ k c) (.modify fun _ hs => { hs with }) fun _ => push_spec _

variable [Crypto]

theorem newAddress_bind {α : Type} {R : α → Interp → Prop} {create2 : Bool} {creator : Address} {nonce : UInt64}
    {salt : ℕ} {initCode : Bytes} {f : Address → OpM α} (hsalt : salt < tt256) {P : Interp → Prop}
    (h : ∀ a, Spec P (f a) R) : Spec P (newAddress create2 creator nonce salt initCode >>= f) R := by
  have hx : wordToHash salt = pure (BitVec.ofNat 256 salt) := by
    unfold wordToHash
    rw [if_neg (by omega)]
  unfold newAddress
  split
  · rw [hx]
    exact .bind (Q := fun _ => P) (fun _ hs => hs) h
  · exact .bind (Q := fun _ => P) (fun _ hs => hs) h

theorem opCreate_spec (create2 : Bool) : Spec (Within m₀ k c) (opCreate v create2) (Post v m₀) := by
  refine get_bind fun m1 hm1 => failIf_bind fun hstatic => ?_
  refine pop_bind fun value _ => pop_bind fun offset _ => pop_bind fun size _ => popIf_bind fun salt hsalt _ => ?_
  refine useGas_bind <| chargeMem_bind fun hfits => useGas_bind <| memGet_bind hfits.lt fun initCode _ => ?_
  have hpos : 0 < createGas.toNat := by decide
  refine .bind (Q := fun _ => Within m₀ (max k (need offset size)) (c + createGas.toNat))
    (.modify fun _ hs => { hs with gas := by have := hs.gas; dsimp only; omega }) fun _ => ?_
  refine .of_get fun m hm => ?_
  dsimp only
  split
  · exact (refuse_spec (by omega)).pre fun t ht => ht ▸ hm
  rename_i hdepth
  split
  · exact (refuse_spec (by omega)).pre fun t ht => ht ▸ hm
  rename_i hfunds
  refine newAddress_bind hsalt fun newAddr => ?_
  refine .bind (Q := fun _ => Within m₀ (max k (need offset size))
    (c + createGas.toNat + (m.gas - m.gas / 64).toNat)) (.modify fun t ht => ?_) fun _ => .pure fun t ht => ?_
  · subst ht
    exact hm.give (toNat_sub_div_le _)
  · refine ⟨ht.mono (Nat.zero_le _) (Nat.zero_le _), ?_, ?_⟩
    · have := ht.gas
      dsimp only
      omega
    · exact {
        static := by simpa [hm1.ctx] using hstatic
        sub := by rw [hm.ctx]
        nonce := by rw [hm.ctx]
        value := Int.natCast_nonneg _
        funded := fun hv => by
          have hv' : 0 < value := by simpa using hv
          rw [← hm.ctx]
          simpa [hv'] using hfunds
        depth := by
          rw [← hm.depth]
          simpa using hdepth }

/-- **Every instruction meets its specification**, the static price paid beforehand. -/
theorem exec_spec (op : OpCode) : Spec (Within m₀ 0 op.gasCost.toNat) (exec v op) (Post v m₀) := by
  cases op with
  | bin op =>
    have hc : 0 < op.gasCost.toNat := by cases op <;> decide
    exact pop_bind fun a _ => pop_bind fun b _ => .bind (binop_spec op a b) fun _ => next_spec hc
  | ADDMOD | MULMOD =>
    exact pop_bind fun a _ => pop_bind fun b _ => pop_bind fun n _ => push_bind (next_spec (by decide))
  | SHA3 =>
    exact pop_bind fun off _ => pop_bind fun size _ => chargeMem_bind fun hfits => useGas_bind <|
      memGet_bind hfits.lt fun data _ => push_bind (next_spec (Nat.add_pos_left (by decide) _))
  | ISZERO | NOT | BLOCKHASH => exact pop_bind fun a _ => push_bind (next_spec (by decide))
  | POP => exact pop_bind fun a _ => next_spec (by decide)
  | MLOAD =>
    exact pop_bind fun off _ => chargeMem_bind fun hfits => memGet_bind hfits.lt fun data _ =>
      push_bind (next_spec (by decide))
  | MSTORE =>
    refine pop_bind fun off _ => pop_bind fun val hval => chargeMem_bind fun _ =>
      memSet32_bind hval ?_ (next_spec (by decide))
    exact need_le rfl (le_max_right _ _) (by decide)
  | MSTORE8 =>
    refine pop_bind fun off _ => pop_bind fun val hval => chargeMem_bind fun _ => memSet_bind ?_ (next_spec (by decide))
    exact need_le rfl (le_max_right _ _)
  | SLOAD =>
    exact pop_bind fun key hk => wordToHash_bind hk fun kh => get_bind fun _ _ => push_bind (next_spec (by decide))
  | SSTORE => exact opSstore_spec
  | env op =>
    have hc : 0 < op.gasCost.toNat := by cases op <;> decide
    exact get_bind fun _ _ => push_bind (next_spec hc)
  | BALANCE | EXTCODESIZE | EXTCODEHASH =>
    exact pop_bind fun a ha => wordToAddress_bind ha fun _ => push_bind (next_spec (by decide))
  | CALLDATALOAD =>
    exact pop_bind fun off _ => get_bind fun _ _ => readData_bind (by decide) fun _ _ => push_bind (next_spec (by decide))
  | CALLDATACOPY | CODECOPY =>
    exact pop_bind fun memOff _ => pop_bind fun dataOff _ => pop_bind fun length _ => get_bind fun _ _ =>
      .bind (copyData_spec memOff dataOff length _) fun _ => next_spec (by decide)
  | EXTCODECOPY =>
    refine pop_bind fun addr ha => pop_bind fun memOff _ => pop_bind fun codeOff _ => pop_bind fun length _ => ?_
    refine chargeMem_bind fun hfits => useGas_bind <| wordToAddress_bind ha fun a => readData_bind hfits.size_lt fun part hpart =>
      memSet_bind (fun h0 => ?_) (next_spec (Nat.add_pos_left (by decide) _))
    exact need_le hpart (le_max_right _ _) h0
  | RETURNDATACOPY =>
    refine pop_bind fun memOff _ => pop_bind fun dataOff _ => pop_bind fun length _ => get_bind fun m hm => ?_
    refine failIf_bind fun hb => ?_
    simp only [Bool.or_eq_true, Bool.not_eq_true', not_or, Bool.not_eq_false, decide_eq_true_eq, not_lt, isUint64] at hb
    have htoNat : ∀ {n : ℕ}, n < 2 ^ 64 → (uint64 n).toNat = n := fun hn => by
      rw [uint64, UInt64.toNat_ofNat', Nat.mod_eq_of_lt hn]
    refine chargeMem_bind fun _ => useGas_bind <| slice_bind ?_ fun part hpart =>
      memSet_bind (fun h0 => ?_) (next_spec (Nat.add_pos_left (by decide) _))
    · rw [htoNat (by omega), htoNat hb.1]
      exact ⟨Nat.le_add_right _ _, hb.2⟩
    · refine need_le ?_ (le_max_right _ _) h0
      rw [hpart, htoNat hb.1, htoNat (by omega : dataOff < 2 ^ 64), htoNat (by omega : length < 2 ^ 64)]
      omega
  | MCOPY =>
    refine pop_bind fun destOff _ => pop_bind fun srcOff _ => pop_bind fun length _ => ?_
    refine chargeMem_bind fun _ => chargeMem_bind fun hfits => useGas_bind <| memGet_bind hfits.lt fun data hd =>
      memSet_bind (fun h0 => ?_) (next_spec (Nat.add_pos_left (by decide) _))
    exact need_le hd ((le_max_right _ _).trans (le_max_left _ _)) h0
  | JUMP => exact pop_bind fun dest _ => .bind (jump_spec dest) fun _ => next_spec (by decide)
  | JUMPI =>
    refine pop_bind fun dest _ => pop_bind fun cond _ => .ite (fun _ => ?_) fun _ => next_spec (by decide)
    exact .bind (jump_spec dest) fun _ => next_spec (by decide)
  | JUMPDEST => exact next_spec (by decide)
  | LOG n => exact opLog_spec n
  | CREATE | CREATE2 => exact opCreate_spec _
  | CALL | DELEGATECALL | STATICCALL => exact opCall_spec _
  | RETURN | REVERT =>
    exact .bind readMem_spec fun d => .pure fun _ h => ⟨h.mono (Nat.zero_le _) (Nat.zero_le _), trivial⟩
  | STOP | PUSH | DUP | SWAP | INVALID | unknown => exact Spec.fail _

/-! ### One turn of the loop -/

/-- **What one turn of the loop does to the frame**, up to the state change it asks for. -/
theorem dispatch_spec (hm : m.WF) (op : OpCode) : Spec (· = m) (dispatch v op) (Post v m) := by
  have hpush : 0 < 0 + (3 : UInt64).toNat := by decide
  refine Triple.pre (?_ : Spec (Within m 0 0) _ _) fun t ht => ht ▸ hm.within
  unfold dispatch
  refine useGas_bind ?_
  split
  · exact .pure fun _ h => ⟨h.mono le_rfl (Nat.zero_le _), trivial⟩
  · exact .bind (doPush_spec _) fun _ => next_spec hpush
  · exact .bind (dup_spec _) fun _ => .bind advance_spec fun _ => next_spec hpush
  · exact .bind (swap_spec _) fun _ => .bind advance_spec fun _ => next_spec hpush
  · -- `advance` moves only the program counter, of which `Post` says nothing
    refine .bind (Q := Post v m) ?_ fun act => ?_
    · rw [Nat.zero_add]
      exact exec_spec _
    · refine .bind (Q := fun _ => Post v m act) (.modify fun s hs => ?_) fun _ => .pure fun _ h => h
      obtain ⟨hw, hact⟩ := hs
      split
      · exact ⟨{ hw with }, by cases act <;> exact hact⟩
      · exact ⟨{ hw with }, by cases act <;> exact hact⟩

end Lxs.Vm
