import Lxs.Common.Primitives

/-!
# Big-endian numbers and fixed-width encodings

Byte strings of one length are the numbers below a power of 256, so every fixed-width encoding is injective.
-/

namespace Lxs

/-! ### Numbers -/

theorem beBytesOnto_eq (w n : ℕ) (b : Bytes) : beBytesOnto w n b = beBytes w n ++ b := by
  induction w generalizing n b with
  | zero => rfl
  | succ w ih => rw [beBytes, beBytesOnto, beBytesOnto, ih, ih, List.append_assoc, List.singleton_append]

theorem beBytes_succ (w n : ℕ) : beBytes (w + 1) n = beBytes w (n / 256) ++ [UInt8.ofNat n] :=
  beBytesOnto_eq w (n / 256) [UInt8.ofNat n]

@[simp]
theorem length_beBytes (w n : ℕ) : (beBytes w n).length = w := by
  induction w generalizing n with
  | zero => rfl
  | succ w ih => simp [beBytes_succ, ih]

theorem foldl_bytes (b : Bytes) (n : ℕ) :
    b.foldl (fun n c => n * 256 + c.toNat) n = n * 256 ^ b.length + bytesToNat b := by
  induction b generalizing n with
  | nil => simp [bytesToNat]
  | cons c b ih =>
    simp only [bytesToNat, List.foldl_cons, ih (n * 256 + c.toNat), ih (0 * 256 + c.toNat), List.length_cons]
    ring

theorem bytesToNat_append (a b : Bytes) : bytesToNat (a ++ b) = bytesToNat a * 256 ^ b.length + bytesToNat b := by
  rw [bytesToNat, List.foldl_append, foldl_bytes]
  rfl

theorem bytesToNat_cons (c : UInt8) (b : Bytes) : bytesToNat (c :: b) = c.toNat * 256 ^ b.length + bytesToNat b := by
  have h := bytesToNat_append [c] b
  rwa [show bytesToNat [c] = c.toNat by simp [bytesToNat]] at h

theorem bytesToNat_lt (b : Bytes) : bytesToNat b < 256 ^ b.length := by
  induction b with
  | nil => simp [bytesToNat]
  | cons c b ih =>
    have hc := c.toNat_lt
    calc bytesToNat (c :: b) = c.toNat * 256 ^ b.length + bytesToNat b := bytesToNat_cons c b
      _ < c.toNat * 256 ^ b.length + 256 ^ b.length := by omega
      _ = (c.toNat + 1) * 256 ^ b.length := by ring
      _ ≤ 256 * 256 ^ b.length := Nat.mul_le_mul_right _ (by omega)
      _ = 256 ^ (c :: b).length := by rw [List.length_cons, pow_succ, mul_comm]

theorem bytesToNat_beBytes (w n : ℕ) : bytesToNat (beBytes w n) = n % 256 ^ w := by
  induction w generalizing n with
  | zero => simp [beBytes, beBytesOnto, bytesToNat, Nat.mod_one]
  | succ w ih =>
    have hlast : bytesToNat [UInt8.ofNat n] = n % 256 := by simp [bytesToNat]
    rw [beBytes_succ, bytesToNat_append, ih, hlast, List.length_singleton, pow_one, pow_succ', Nat.mod_mul]
    ring

theorem beBytes_bytesToNat (b : Bytes) : beBytes b.length (bytesToNat b) = b := by
  induction b using List.reverseRecOn with
  | nil => rfl
  | append_singleton b c ih =>
    have hc := c.toNat_lt
    have hlast : bytesToNat [c] = c.toNat := by simp [bytesToNat]
    have hdiv : (bytesToNat b * 256 + c.toNat) / 256 = bytesToNat b := by omega
    have hofNat : UInt8.ofNat (bytesToNat b * 256 + c.toNat) = c := by
      apply UInt8.toNat_inj.1
      rw [UInt8.toNat_ofNat']
      omega
    rw [List.length_append, List.length_singleton, bytesToNat_append, List.length_singleton, pow_one, hlast, beBytes_succ,
      hdiv, ih, hofNat]

theorem bytesToNat_inj {a b : Bytes} (hlen : a.length = b.length) (h : bytesToNat a = bytesToNat b) : a = b := by
  rw [← beBytes_bytesToNat a, ← beBytes_bytesToNat b, hlen, h]

theorem beBytes_inj {w n m : ℕ} (hn : n < 256 ^ w) (hm : m < 256 ^ w) (h : beBytes w n = beBytes w m) : n = m := by
  have h' := congrArg bytesToNat h
  rwa [bytesToNat_beBytes, bytesToNat_beBytes, Nat.mod_eq_of_lt hn, Nat.mod_eq_of_lt hm] at h'

/-! ### Unbounded integers -/

theorem lt_two_pow_bitLen (n : ℕ) : n < 2 ^ bitLen n := by
  rw [bitLen]
  split
  case isTrue h => simp [h]
  case isFalse => exact Nat.lt_log2_self

theorem lt_pow_byteLen (n : ℕ) : n < 256 ^ byteLen n := by
  calc n < 2 ^ bitLen n := lt_two_pow_bitLen n
    _ ≤ 2 ^ (8 * byteLen n) := Nat.pow_le_pow_right (by decide) (by rw [byteLen]; omega)
    _ = 256 ^ byteLen n := by rw [pow_mul]; norm_num

theorem bytesToNat_bigBytes (v : ℤ) : bytesToNat (bigBytes v) = v.natAbs := by
  rw [bigBytes, bytesToNat_beBytes, Nat.mod_eq_of_lt (lt_pow_byteLen _)]

theorem bigBytes_inj {v u : ℤ} (hv : 0 ≤ v) (hu : 0 ≤ u) (h : bigBytes v = bigBytes u) : v = u := by
  have := congrArg bytesToNat h
  rw [bytesToNat_bigBytes, bytesToNat_bigBytes] at this
  omega

@[simp]
theorem length_bigBytes (v : ℤ) : (bigBytes v).length = byteLen v.natAbs := length_beBytes _ _

theorem head?_bigBytes (v : ℤ) : (bigBytes v).head? ≠ some 0 := by
  intro h
  obtain ⟨t, ht⟩ := List.head?_eq_some_iff.1 h
  have hnum := bytesToNat_bigBytes v
  have hlen := length_bigBytes v
  rw [ht, bytesToNat_cons, UInt8.toNat_zero, Nat.zero_mul, Nat.zero_add] at hnum
  rw [ht, List.length_cons] at hlen
  have hlt := bytesToNat_lt t
  rw [hnum] at hlt
  by_cases h0 : v.natAbs = 0
  · rw [h0] at hlen
    exact absurd hlen (by simp [byteLen, bitLen])
  · have hlog := Nat.log2_self_le h0
    have hpow : 256 ^ t.length ≤ 2 ^ v.natAbs.log2 := by
      rw [show 256 = 2 ^ 8 by norm_num, ← pow_mul]
      refine Nat.pow_le_pow_right (by decide) ?_
      rw [byteLen, bitLen, if_neg h0] at hlen
      omega
    omega

/-! ### Encodings -/

@[simp]
theorem length_hashBytes (h : Hash) : (hashBytes h).length = 32 := length_beBytes _ _

@[simp]
theorem length_addressBytes (a : Address) : (addressBytes a).length = 20 := length_beBytes _ _

@[simp]
theorem length_encUint64 (v : UInt64) : (encUint64 v).length = 8 := length_beBytes _ _

theorem hashBytes_inj {h k : Hash} (heq : hashBytes h = hashBytes k) : h = k :=
  BitVec.eq_of_toNat_eq (beBytes_inj (w := 32) h.isLt k.isLt heq)

theorem addressBytes_inj {a b : Address} (heq : addressBytes a = addressBytes b) : a = b :=
  BitVec.eq_of_toNat_eq (beBytes_inj (w := 20) a.isLt b.isLt heq)

theorem encUint64_inj {v u : UInt64} (heq : encUint64 v = encUint64 u) : v = u :=
  UInt64.toNat_inj.1 (beBytes_inj (w := 8) v.toNat_lt u.toNat_lt heq)

theorem ofNat_inj {m n : ℕ} (hm : m < 2 ^ 64) (hn : n < 2 ^ 64) (h : UInt64.ofNat m = UInt64.ofNat n) : m = n := by
  have := congrArg UInt64.toNat h
  rwa [UInt64.toNat_ofNat_of_lt' hm, UInt64.toNat_ofNat_of_lt' hn] at this

theorem encBytes_append_inj {b b' r r' : Bytes} (hb : b.length < 2 ^ 64) (hb' : b'.length < 2 ^ 64)
    (h : encBytes b ++ r = encBytes b' ++ r') : b = b' ∧ r = r' := by
  rw [encBytes, encBytes, List.append_assoc, List.append_assoc] at h
  obtain ⟨hlen, hrest⟩ := List.append_inj h (by simp)
  exact List.append_inj hrest (ofNat_inj hb hb' (encUint64_inj hlen))

theorem flatMap_append_inj {α : Type} {f : α → Bytes} :
    ∀ {l l' : List α} {r r' : Bytes}, l.length = l'.length →
      (∀ a ∈ l, ∀ b ∈ l', ∀ s s', f a ++ s = f b ++ s' → a = b ∧ s = s') → l.flatMap f ++ r = l'.flatMap f ++ r' → l = l' ∧ r = r'
  | [], [], _, _, _, _, h => ⟨rfl, h⟩
  | a :: l, b :: l', r, r', hlen, hf, h => by
    rw [List.flatMap_cons, List.flatMap_cons, List.append_assoc, List.append_assoc] at h
    obtain ⟨rfl, hrest⟩ := hf a List.mem_cons_self b List.mem_cons_self _ _ h
    obtain ⟨rfl, hr⟩ := flatMap_append_inj (Nat.succ_injective hlen)
      (fun x hx y hy => hf x (List.mem_cons_of_mem _ hx) y (List.mem_cons_of_mem _ hy)) hrest
    exact ⟨rfl, hr⟩

theorem map_inj_on {α β : Type} {f : α → β} :
    ∀ {l l' : List α}, l.map f = l'.map f → (∀ a ∈ l, ∀ b ∈ l', f a = f b → a = b) → l = l'
  | [], [], _, _ => rfl
  | a :: l, b :: l', h, hf => by
    obtain ⟨hab, hl⟩ := List.cons.inj h
    rw [hf a (by simp) b (by simp) hab,
      map_inj_on hl fun x hx y hy => hf x (List.mem_cons_of_mem _ hx) y (List.mem_cons_of_mem _ hy)]

end Lxs
