import Lxs.State.State
import Lxs.Types.Merkle

/-!
# The state root binds the state

The encoding of an account can be read back field by field, the leaves of the root are the sorted accounts, and the form
of the root with a burn total is no message of the tree below it: a node has 65 bytes, and where the form is as short as
a leaf, the length of the burn total stands in the upper bytes of the length of the leaf's balance.

* `Account.encode_inj` — the encoding of an account is injective;
* `state_eq_of_root` — **states with one root have the same accounts and the same burn total**.
-/

namespace Lxs

open Std Lib

/-! ### Reading encodings back -/

theorem slot_inj {p q : Hash × Hash} (h : hashBytes p.1 ++ hashBytes p.2 = hashBytes q.1 ++ hashBytes q.2) : p = q := by
  obtain ⟨h1, h2⟩ := List.append_inj h (by simp)
  exact Prod.ext (hashBytes_inj h1) (hashBytes_inj h2)

/-! ### Accounts -/

/-- The balance is not negative, and its bytes and the storage can be counted in a machine word. -/
structure Account.Encodable (a : Account) : Prop where
  balance_nonneg : 0 ≤ a.balance
  balance_length : (bigBytes a.balance).length < 2 ^ 64
  storage_size : a.storage.size < 2 ^ 64

theorem code_inj {c c' : Bytes} (h : (if c.isEmpty then [] else encBytes c) = if c'.isEmpty then [] else encBytes c') :
    c = c' := by
  have hlen : ∀ b : Bytes, encBytes b ≠ [] := fun b h0 => by simpa [encBytes] using congrArg List.length h0
  by_cases hc : c = []
  · by_cases hc' : c' = []
    · rw [hc, hc']
    · rw [if_pos (by simp [hc]), if_neg (by simpa using hc')] at h
      exact absurd h.symm (hlen c')
  · by_cases hc' : c' = []
    · rw [if_neg (by simpa using hc), if_pos (by simp [hc'])] at h
      exact absurd h (hlen c)
    · rw [if_neg (by simpa using hc), if_neg (by simpa using hc')] at h
      exact (List.append_inj h (by simp)).2

theorem Account.encode_inj {a b : Account} (ha : a.Encodable) (hb : b.Encodable) (h : a.encode = b.encode) : a = b := by
  simp only [Account.encode, encBigInt, List.append_assoc] at h
  obtain ⟨hnonce, h⟩ := List.append_inj h (by simp)
  obtain ⟨hbalance, h⟩ := encBytes_append_inj ha.balance_length hb.balance_length h
  obtain ⟨hsize, h⟩ := List.append_inj h (by simp)
  have hsize := ofNat_inj ha.storage_size hb.storage_size (encUint64_inj hsize)
  obtain ⟨hstorage, hcode⟩ := flatMap_append_inj (by rw [ExtTreeMap.length_toList, ExtTreeMap.length_toList, hsize])
    (fun p _ q _ s s' hslot => (List.append_inj hslot (by simp)).imp_left slot_inj) h
  obtain ⟨nonce, balance, storage, code⟩ := a
  obtain ⟨nonce', balance', storage', code'⟩ := b
  rw [Account.mk.injEq]
  exact ⟨encUint64_inj hnonce, bigBytes_inj ha.balance_nonneg hb.balance_nonneg hbalance, FinMap.toList_inj hstorage,
    code_inj hcode⟩

/-! ### The two forms of the root -/

theorem byteLen_le {n k : ℕ} (h : n < 256 ^ k) : byteLen n ≤ k := by
  have h8 : n < 2 ^ (8 * k) := by
    rw [pow_mul]
    exact h
  have hbit : bitLen n ≤ 8 * k := by
    rw [bitLen]
    split
    · omega
    case isFalse h0 => exact (Nat.log2_lt h0).2 h8
  rw [byteLen]
  omega

theorem byteLen_pos {n : ℕ} (h : n ≠ 0) : 0 < byteLen n := by
  rw [byteLen, bitLen, if_neg h]
  omega

theorem encUint64_small {n : ℕ} (h : n < 256) : encUint64 (UInt64.ofNat n) = [0, 0, 0, 0, 0, 0, 0, UInt8.ofNat n] := by
  have hdiv : n / 256 = 0 := Nat.div_eq_of_lt h
  rw [encUint64, UInt64.toNat_ofNat_of_lt' (h.trans (by decide))]
  simp [beBytes, beBytesOnto, hdiv]

theorem burnForm_ne_leaf {r : Hash} {v : ℤ} (hpos : 0 < v) (hlt : v < 2 ^ 128) (a : Address) (acc : Account) :
    hashBytes r ++ encBigInt (some v) ≠ 0x00 :: (addressBytes a ++ encBytes acc.encode) := by
  intro h
  have hv : byteLen v.natAbs ≤ 16 := byteLen_le (by norm_num; omega)
  have hv' := byteLen_pos (n := v.natAbs) (by omega)
  have hlen := congrArg List.length h
  simp only [encBigInt, encBytes, Account.encode, List.length_append, List.length_cons, length_hashBytes, length_encUint64,
    length_bigBytes, length_addressBytes] at hlen
  have hbal : byteLen acc.balance.natAbs < 256 := by omega
  -- the last byte of one length is the third byte of the other
  have hburn : (hashBytes r ++ encBigInt (some v))[39]? = some (UInt8.ofNat (byteLen v.natAbs)) := by
    rw [encBigInt, encBytes, length_bigBytes, encUint64_small (by omega), List.getElem?_append_right (by simp),
      length_hashBytes]
    rfl
  have hleaf : (0x00 :: (addressBytes a ++ encBytes acc.encode))[39]? = some 0 := by
    simp only [encBytes, Account.encode, encBigInt, length_bigBytes, encUint64_small hbal, List.append_assoc]
    rw [List.getElem?_cons_succ, List.getElem?_append_right (by simp), length_addressBytes,
      List.getElem?_append_right (by simp), length_encUint64, List.getElem?_append_right (by simp), length_encUint64]
    rfl
  rw [h, hleaf] at hburn
  have hzero := congrArg UInt8.toNat (Option.some.inj hburn)
  rw [UInt8.toNat_ofNat_of_lt' (Nat.lt_of_le_of_lt hv (by decide))] at hzero
  exact hv'.ne hzero

section Root

variable [Crypto]

def accountLeaf (kv : Address × Leaf) : Bytes := addressBytes kv.1 ++ encBytes kv.2.1.encode

def State.hashed (s : State) : List Bytes :=
  let leaves := s.accounts.toList.map accountLeaf
  merkleHashed leaves ++ if s.burned = 0 then [] else [hashBytes (merkleRoot leaves) ++ encBigInt (some s.burned)]

/-- Accounts that can be encoded, and a burn total below 2 ^ 128. -/
structure State.Encodable (s : State) : Prop where
  accounts : ∀ (a : Address) (l : Leaf), s.accounts[a]? = some l → l.1.Encodable
  burned_nonneg : 0 ≤ s.burned
  burned_lt : s.burned < 2 ^ 128

omit [Crypto] in
theorem accountLeaf_inj {kv kv' : Address × Leaf} (h : kv.2.1.Encodable) (h' : kv'.2.1.Encodable)
    (heq : accountLeaf kv = accountLeaf kv') : kv = kv' := by
  obtain ⟨ha, heq⟩ := List.append_inj heq (by simp)
  have henc := (List.append_inj heq (by simp)).2
  exact Prod.ext (addressBytes_inj ha) (Subtype.ext (Account.encode_inj h h' henc))

omit [Crypto] in
theorem accounts_eq_of_leaves {s t : State} (hs : s.Encodable) (ht : t.Encodable)
    (h : s.accounts.toList.map accountLeaf = t.accounts.toList.map accountLeaf) : s.accounts = t.accounts := by
  have henc : ∀ u : State, u.Encodable → ∀ kv ∈ u.accounts.toList, kv.2.1.Encodable := fun u hu kv hkv =>
    hu.accounts kv.1 kv.2 (ExtTreeMap.mem_toList_iff_getElem?_eq_some.1 hkv)
  refine FinMap.toList_inj (map_inj_on h fun x hx y hy => ?_)
  exact accountLeaf_inj (henc s hs x hx) (henc t ht y hy)

theorem burnForm_ne_merkleRoot {s : State} {r : Hash} {v : ℤ} (hpos : 0 < v) (hlt : v < 2 ^ 128)
    (hfree : CollisionFree ((hashBytes r ++ encBigInt (some v)) :: merkleHashed (s.accounts.toList.map accountLeaf))) :
    keccak256 (hashBytes r ++ encBigInt (some v)) ≠ merkleRoot (s.accounts.toList.map accountLeaf) := by
  intro heq
  by_cases hne : s.accounts.toList.map accountLeaf = []
  · rw [hne] at heq
    exact hfree.ne_zero _ List.mem_cons_self heq
  · obtain ⟨m, hm, htop, hshape⟩ := merkleRoot_top hne
    have hmsg := hfree.inj _ List.mem_cons_self m (List.mem_cons_of_mem _ hm) (heq.trans htop)
    rcases hshape with ⟨d, hd, rfl⟩ | hlen
    · have hmem : d ∈ s.accounts.toList.map accountLeaf := by simp [hd]
      obtain ⟨kv, -, rfl⟩ := List.mem_map.1 hmem
      exact burnForm_ne_leaf hpos hlt kv.1 kv.2.1 hmsg
    · have hv : byteLen v.natAbs ≤ 16 := byteLen_le (by norm_num; omega)
      rw [← hmsg] at hlen
      simp only [encBigInt, encBytes, List.length_append, length_hashBytes, length_encUint64, length_bigBytes] at hlen
      omega

/-- **The root binds the state**, as far as Keccak-256 has no collision on what the two roots hash. -/
theorem state_eq_of_root {s t : State} (hs : s.Encodable) (ht : t.Encodable) (hfree : CollisionFree (s.hashed ++ t.hashed))
    (heq : s.root = t.root) : s.accounts = t.accounts ∧ s.burned = t.burned := by
  have hroot : ∀ u : State, u.root = if u.burned = 0 then merkleRoot (u.accounts.toList.map accountLeaf)
      else keccak256 (hashBytes (merkleRoot (u.accounts.toList.map accountLeaf)) ++ encBigInt (some u.burned)) := fun _ => rfl
  have hsub : ∀ u : State, merkleHashed (u.accounts.toList.map accountLeaf) ⊆ u.hashed := fun u =>
    List.subset_append_left _ _
  have hform : ∀ u : State, u.burned ≠ 0 →
      hashBytes (merkleRoot (u.accounts.toList.map accountLeaf)) ++ encBigInt (some u.burned) ∈ u.hashed := by
    intro u hu
    rw [State.hashed, if_neg hu]
    exact List.mem_append_right _ (List.mem_singleton.2 rfl)
  have hpos : ∀ u : State, u.Encodable → u.burned ≠ 0 → 0 < u.burned := fun u hu h0 => by
    have := hu.burned_nonneg
    omega
  have hleaves : merkleRoot (s.accounts.toList.map accountLeaf) = merkleRoot (t.accounts.toList.map accountLeaf) →
      s.accounts = t.accounts := fun h => by
    refine accounts_eq_of_leaves hs ht (leaves_eq_of_merkleRoot (hfree.mono ?_) h)
    exact List.append_subset.2 ⟨List.subset_append_of_subset_left _ (hsub s), List.subset_append_of_subset_right _ (hsub t)⟩
  rw [hroot, hroot] at heq
  by_cases hbs : s.burned = 0 <;> by_cases hbt : t.burned = 0
  · rw [if_pos hbs, if_pos hbt] at heq
    exact ⟨hleaves heq, hbs.trans hbt.symm⟩
  · rw [if_pos hbs, if_neg hbt] at heq
    refine absurd heq.symm (burnForm_ne_merkleRoot (hpos t ht hbt) ht.burned_lt (hfree.mono ?_))
    exact List.cons_subset.2 ⟨List.mem_append_right _ (hform t hbt), List.subset_append_of_subset_left _ (hsub s)⟩
  · rw [if_neg hbs, if_pos hbt] at heq
    refine absurd heq (burnForm_ne_merkleRoot (hpos s hs hbs) hs.burned_lt (hfree.mono ?_))
    exact List.cons_subset.2 ⟨List.mem_append_left _ (hform s hbs), List.subset_append_of_subset_right _ (hsub t)⟩
  · rw [if_neg hbs, if_neg hbt] at heq
    have hmsg := hfree.inj _ (List.mem_append_left _ (hform s hbs)) _ (List.mem_append_right _ (hform t hbt)) heq
    obtain ⟨hr, hb⟩ := List.append_inj hmsg (by simp)
    have hb := (List.append_inj hb (by simp)).2
    exact ⟨hleaves (hashBytes_inj hr), bigBytes_inj hs.burned_nonneg ht.burned_nonneg hb⟩

end Root

/-! A wallet and a contract with one storage slot, with something burned. -/

@[reducible]
def twoAccountsCrypto : Crypto :=
  tableCrypto
    [((54, 0x1000000000000001900000000000000000000000000000001050000000000000000),
      0x57c2e5f205e66619576b5529340f4a8e53b8cad9c82b651f64d38a85e86ea8a9),
     ((126, 0x2000000000000006100000000000000010000000000000000000000000000000100000000000000000000000000000000000000000000000000000000000000070000000000000000000000000000000000000000000000000000000000000008000000000000000160),
      0xe5bac0a03f8aefc66e7e6e22f42e0f5918370c66e17508fd20f682a3381c6a83),
     ((65, 0x157c2e5f205e66619576b5529340f4a8e53b8cad9c82b651f64d38a85e86ea8a9e5bac0a03f8aefc66e7e6e22f42e0f5918370c66e17508fd20f682a3381c6a83),
      0x7a2935e8709550656ed1f53a2c1ba56370e09e224a9bfc4bb33cfbc99f320d82),
     ((41, 0x7a2935e8709550656ed1f53a2c1ba56370e09e224a9bfc4bb33cfbc99f320d82000000000000000103),
      0x7753646f7c3dc6c827315e3a1f3e6eab24fe2fb3907e5a34be18109f8f0fb5b5)] []

def twoAccounts : State :=
  { State.new with
    accounts := ((∅ : ExtTreeMap Address Leaf).insert 1 ⟨⟨0, 5, ∅, []⟩, by decide⟩).insert 2
      ⟨⟨1, 0, (∅ : ExtTreeMap Hash Hash).insert 7 8, [0x60]⟩, by decide⟩
    burned := 3 }

theorem state_eq_of_root_twoAccounts :
    @State.root twoAccounts twoAccountsCrypto = @State.root (twoAccounts.addLog ⟨2, [], []⟩) twoAccountsCrypto ∧
      twoAccounts.accounts = (twoAccounts.addLog ⟨2, [], []⟩).accounts ∧
      twoAccounts.burned = (twoAccounts.addLog ⟨2, [], []⟩).burned := by
  have henc : ∀ s : State, s.accounts = twoAccounts.accounts → s.burned = 3 → s.Encodable := by
    intro s haccounts hburned
    refine ⟨fun a l h => ?_, by omega, by omega⟩
    have hall : ∀ kv ∈ twoAccounts.accounts.toList, 0 ≤ kv.2.1.balance ∧ (bigBytes kv.2.1.balance).length < 2 ^ 64 ∧
        kv.2.1.storage.size < 2 ^ 64 := by decide +kernel
    rw [haccounts] at h
    obtain ⟨hb, hl, hsize⟩ := hall (a, l) (ExtTreeMap.mem_toList_iff_getElem?_eq_some.2 h)
    exact ⟨hb, hl, hsize⟩
  have hroot : @State.root twoAccounts twoAccountsCrypto = @State.root (twoAccounts.addLog ⟨2, [], []⟩) twoAccountsCrypto := by
    decide +kernel
  have hfree : @CollisionFree twoAccountsCrypto (@State.hashed twoAccountsCrypto twoAccounts ++
      @State.hashed twoAccountsCrypto (twoAccounts.addLog ⟨2, [], []⟩)) :=
    @CollisionFree.mk twoAccountsCrypto _ (by decide +kernel) (by decide +kernel)
  exact ⟨hroot, @state_eq_of_root twoAccountsCrypto _ _ (henc _ rfl rfl) (henc _ rfl rfl) hfree hroot⟩

end Lxs
