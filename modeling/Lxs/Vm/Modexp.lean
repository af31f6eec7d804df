import Mathlib.Data.UInt
import Lxs.Vm.Arithmetic

/-!
# Modular exponentiation

The precompiled contract reads three lengths of 256 bits and cuts them to 64 bits when it runs. A call that pays at most
`2 ^ 40` gas cannot declare lengths for which that is visible: unless both the base and the modulus are empty, the price is
at least a twentieth of their length and of eight times the length of the exponent.
-/

namespace Lxs.Vm

/-! ### What the input declares -/

/-- The number in the `len` bytes at `off` of the input, which goes on with zeros. -/
def declared (input : Bytes) (off len : ℕ) : ℕ := bytesToNat ((List.range len).map fun i => input.getD (off + i) 0)

def declaredBaseLen (input : Bytes) : ℕ := declared input 0 32
def declaredExpLen (input : Bytes) : ℕ := declared input 32 32
def declaredModLen (input : Bytes) : ℕ := declared input 64 32

def declaredBase (input : Bytes) : ℕ := declared input 96 (declaredBaseLen input)
def declaredExp (input : Bytes) : ℕ := declared input (96 + declaredBaseLen input) (declaredExpLen input)

def declaredMod (input : Bytes) : ℕ :=
  declared input (96 + declaredBaseLen input + declaredExpLen input) (declaredModLen input)

/-- The value of the exponentiation; modulo zero it is zero. -/
def modexpValue (input : Bytes) : ℕ :=
  if declaredMod input = 0 then 0 else declaredBase input ^ declaredExp input % declaredMod input

/-! ### Reads -/

variable {input : Bytes}

theorem window_eq (data : Bytes) (off size : ℕ) : window data off size = (List.range size).map fun i => data.getD (off + i) 0 := by
  have hlen := length_window data off size
  unfold window at hlen ⊢
  dsimp only at hlen ⊢
  refine List.ext_getElem (by rw [hlen, List.length_map, List.length_range]) fun i h₁ h₂ => ?_
  rw [hlen] at h₁
  rw [List.getElem_map, List.getElem_range, List.getElem_append]
  split
  · rename_i hin
    rw [List.length_take, List.length_drop] at hin
    rw [List.getElem_take, List.getElem_drop, List.getD_eq_getElem?_getD, List.getElem?_eq_getElem (by omega), Option.getD_some]
  · rename_i hout
    rw [List.length_take, List.length_drop] at hout
    rw [List.getElem_replicate, List.getD_eq_getElem?_getD, List.getElem?_eq_none (by omega), Option.getD_none]

theorem toNat_uint64 {n : ℕ} (h : n < 2 ^ 64) : (uint64 n).toNat = n := by
  rw [uint64, UInt64.toNat_ofNat', Nat.mod_eq_of_lt h]

theorem bytesToNat_getData {off size : ℕ} (hoff : off < 2 ^ 64) (hsize : size < 2 ^ 64) :
    bytesToNat (getData input off (uint64 size)) = declared input off size := by
  have hget : getData input off (uint64 size) = window input off size := by
    unfold getData
    rw [toNat_uint64 hsize]
    split
    · rename_i h
      have hzero : uint64 size = 0 := by
        rw [isUint64, decide_eq_true hoff] at h
        simpa using h
      have hsize0 : size = 0 := by
        rw [← toNat_uint64 hsize, hzero]
        rfl
      rw [hsize0]
      rfl
    · rfl
  rw [hget, window_eq]
  rfl

theorem beBytes_zero (w : ℕ) : beBytes w 0 = List.replicate w 0 := by
  induction w with
  | zero => rfl
  | succ w ih =>
    rw [beBytes_succ, Nat.zero_div, ih, List.replicate_succ']
    rfl

theorem declared_lt (input : Bytes) (off len : ℕ) : declared input off len < 256 ^ len := by
  have := bytesToNat_lt ((List.range len).map fun i => input.getD (off + i) 0)
  rwa [List.length_map, List.length_range] at this

theorem modexpHeader_eq (input : Bytes) :
    modexpHeader input = (declaredBaseLen input, declaredExpLen input, declaredModLen input) := by
  have hread : ∀ {off : ℕ}, off < 2 ^ 64 → bytesToNat (getData input off 32) = declared input off 32 := fun hoff =>
    bytesToNat_getData hoff (by decide)
  unfold modexpHeader
  rw [hread (by decide), hread (by decide), hread (by decide)]
  rfl

/-! ### The price -/

theorem le_multComplexity (x : ℕ) : (x : ℤ) ≤ multComplexity x := by
  unfold multComplexity
  split
  · exact_mod_cast Nat.le_mul_self x
  · split
    · omega
    · omega

/-- What the price is at least: the adjusted length of the exponent counts each of its bytes past 32 eight times. -/
theorem modexpGas_lengths (h : (modexpGas input).toNat ≤ 2 ^ 40) :
    max (declaredBaseLen input) (declaredModLen input) = 0 ∨
      (declaredBaseLen input < 2 ^ 45 ∧ declaredModLen input < 2 ^ 45 ∧ declaredExpLen input < 2 ^ 45) := by
  unfold modexpGas at h
  rw [modexpHeader_eq] at h
  dsimp only at h
  generalize hadj : (if declaredExpLen input ≤ 32 then _ else _ : ℕ) = adj at h
  have hexp : (declaredExpLen input - 32) * 8 ≤ adj := by
    rw [← hadj]
    unfold adjustedFromHead
    split
    · omega
    · split
      · exact le_rfl
      · exact Nat.le_add_right _ _
  by_cases hzero : max (declaredBaseLen input) (declaredModLen input) = 0
  · exact .inl hzero
  have hbase := le_max_left (declaredBaseLen input) (declaredModLen input)
  have hmod := le_max_right (declaredBaseLen input) (declaredModLen input)
  have hmult := le_multComplexity (max (declaredBaseLen input) (declaredModLen input))
  generalize max (declaredBaseLen input) (declaredModLen input) = x at h hzero hbase hmod hmult
  -- both factors of the price are positive, so each is below twenty times the gas
  have hcost : x * max adj 1 ≤ 20 * 2 ^ 40 + 19 := by
    split_ifs at h with hfits
    · have hle : multComplexity x * (max adj 1 : ℕ) / 20 ≤ 2 ^ 40 := by
        rw [UInt64.toNat_ofNat', Nat.mod_eq_of_lt (by omega)] at h
        omega
      have hprod : ((x * max adj 1 : ℕ) : ℤ) ≤ multComplexity x * (max adj 1 : ℕ) := by
        rw [Nat.cast_mul]
        exact Int.mul_le_mul_of_nonneg_right hmult (Int.natCast_nonneg _)
      omega
    · exact absurd h (by decide)
  have hx : x ≤ x * max adj 1 := Nat.le_mul_of_pos_right x (by omega)
  have hadj' : max adj 1 ≤ x * max adj 1 := Nat.le_mul_of_pos_left _ (by omega)
  exact .inr ⟨by omega, by omega, by omega⟩

theorem modexpValue_lt (input : Bytes) : modexpValue input < 256 ^ declaredModLen input := by
  unfold modexpValue
  split
  · exact Nat.pow_pos (by decide)
  · rename_i hmod
    exact (Nat.mod_lt _ (Nat.pos_of_ne_zero hmod)).trans (declared_lt _ _ _)

theorem modexpRun_eq (h : (modexpGas input).toNat ≤ 2 ^ 40) : modexpRun input = beBytes (declaredModLen input) (modexpValue input) := by
  unfold modexpRun
  rw [modexpHeader_eq]
  dsimp only
  rcases modexpGas_lengths h with hzero | ⟨hbase, hmod, hexp⟩
  · have hmod : declaredModLen input = 0 := by omega
    rw [hmod]
    rfl
  · have hbaseVal : bytesToNat (getData input 96 (uint64 (declaredBaseLen input))) = declaredBase input :=
      bytesToNat_getData (by decide) (by omega)
    have hexpVal : bytesToNat (getData input (96 + declaredBaseLen input) (uint64 (declaredExpLen input))) =
        declaredExp input := bytesToNat_getData (by omega) (by omega)
    have hmodVal : bytesToNat (getData input (96 + declaredBaseLen input + declaredExpLen input)
        (uint64 (declaredModLen input))) = declaredMod input := bytesToNat_getData (by omega) (by omega)
    rw [hbaseVal, hexpVal, hmodVal, expMod_eq _ _ _ _ (lt_two_pow_bitLen _), toNat_uint64 (by omega)]
    unfold modexpValue
    split
    · rename_i hzero
      have hlen : declaredModLen input = 0 := by
        rw [← toNat_uint64 (by omega : declaredModLen input < 2 ^ 64), hzero]
        rfl
      rw [hlen]
      rfl
    · split
      · exact (beBytes_zero _).symm
      · rfl

/-- **Modular exponentiation is correct.** A call with at most `2 ^ 40` gas that does not run out of it returns as many
bytes as the modulus is declared to have, and they are the power modulo the modulus. -/
theorem modexp_correct (input : Bytes) (gas : UInt64) (hgas : gas ≤ 2 ^ 40)
    (hpaid : (runPrecompile modexpPrecompile input gas).err ≠ some .outOfGas) :
    (runPrecompile modexpPrecompile input gas).err = none ∧
      (runPrecompile modexpPrecompile input gas).ret.length = declaredModLen input ∧
      bytesToNat (runPrecompile modexpPrecompile input gas).ret = modexpValue input := by
  have hcost : ¬gas < modexpGas input := by
    intro hlt
    refine hpaid ?_
    unfold runPrecompile
    exact congrArg Result.err (if_pos hlt)
  have hrun : runPrecompile modexpPrecompile input gas = ⟨modexpRun input, gas - modexpGas input, none⟩ := if_neg hcost
  have hle : (modexpGas input).toNat ≤ 2 ^ 40 :=
    UInt64.le_iff_toNat_le.1 (UInt64.le_trans (UInt64.not_lt.1 hcost) hgas)
  rw [hrun, modexpRun_eq hle]
  refine ⟨rfl, length_beBytes _ _, ?_⟩
  rw [bytesToNat_beBytes]
  exact Nat.mod_eq_of_lt (modexpValue_lt input)

/-- `3 ** 2` modulo two bytes of which the input has the first: they go on with a zero. -/
def shortInput : Bytes := beBytes 32 1 ++ beBytes 32 1 ++ beBytes 32 2 ++ [3, 2, 5]

theorem modexp_correct_short : (runPrecompile modexpPrecompile shortInput 1000).err = none ∧
    (runPrecompile modexpPrecompile shortInput 1000).ret.length = 2 ∧
    bytesToNat (runPrecompile modexpPrecompile shortInput 1000).ret = 9 := by
  obtain ⟨herr, hlen, hval⟩ := modexp_correct shortInput 1000 (by decide) (by decide +kernel)
  exact ⟨herr, hlen.trans (by decide +kernel), hval.trans (by decide +kernel)⟩

end Lxs.Vm
