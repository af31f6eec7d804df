import Lxs.Common.Bytes
import Lxs.Lib.Merkle
import Lxs.Types.Block

/-!
# Merkle roots bind their leaves

`merkleRoot` is the root of a hash tree over the leaves in order, whatever shape the promotion of odd nodes gives it; so
two lists with one root are one list, as far as Keccak-256 has no collision on what the two roots hash.
-/

namespace Lxs

open Lib.Merkle

variable [Crypto]

/-! ### What a root hashes -/

def layerHashed : List Hash → List Bytes
  | l :: r :: layer => (0x01 :: (hashBytes l ++ hashBytes r)) :: layerHashed layer
  | _ => []

def layersHashed : ℕ → List Hash → List Bytes
  | 0, _ => []
  | n + 1, layer => if 1 < layer.length then layerHashed layer ++ layersHashed n (nextLayer layer) else []

def merkleHashed (leaves : List Bytes) : List Bytes :=
  leaves.map (0x00 :: ·) ++ layersHashed leaves.length (leaves.map hashLeaf)

/-! ### The tree -/

def merkleMessage : Bytes ⊕ Hash × Hash → Bytes
  | .inl data => 0x00 :: data
  | .inr (l, r) => 0x01 :: (hashBytes l ++ hashBytes r)

def merkleHash (x : Bytes ⊕ Hash × Hash) : Hash := keccak256 (merkleMessage x)

omit [Crypto] in
theorem merkleMessage_inj {x y : Bytes ⊕ Hash × Hash} (h : merkleMessage x = merkleMessage y) : x = y := by
  rcases x with d | ⟨l, r⟩ <;> rcases y with d' | ⟨l', r'⟩
  · exact congrArg Sum.inl (List.cons.inj h).2
  · cases (List.cons.inj h).1
  · cases (List.cons.inj h).1
  · obtain ⟨hl, hr⟩ := List.append_inj (List.cons.inj h).2 (by simp)
    rw [hashBytes_inj hl, hashBytes_inj hr]

def HashesIn (ms : List Bytes) (t : HashTree Bytes) : Prop := ∀ x ∈ t.inputs merkleHash, merkleMessage x ∈ ms

theorem HashesIn.mono {ms ms' : List Bytes} {t : HashTree Bytes} (h : HashesIn ms t) (hsub : ms ⊆ ms') : HashesIn ms' t :=
  fun x hx => hsub (h x hx)

/-- One pass joins neighbours: the layer still is the roots of trees over the same leaves. -/
theorem nextLayer_trees : ∀ (ts : List (HashTree Bytes)) (ms : List Bytes), (∀ t ∈ ts, HashesIn ms t) →
    ∃ us : List (HashTree Bytes), nextLayer (ts.map (HashTree.root merkleHash)) = us.map (HashTree.root merkleHash) ∧
      us.flatMap HashTree.leaves = ts.flatMap HashTree.leaves ∧
      (∀ u ∈ us, HashesIn (ms ++ layerHashed (ts.map (HashTree.root merkleHash))) u) ∧ us.length = (ts.length + 1) / 2
  | [], ms, _ => ⟨[], rfl, rfl, by simp, rfl⟩
  | [t], ms, h => ⟨[t], rfl, rfl, fun u hu => (h u hu).mono (by simp), by simp⟩
  | l :: r :: ts, ms, h => by
    obtain ⟨us, hlayer, hleaves, hwithin, hlen⟩ := nextLayer_trees ts ms fun t ht =>
      h t (List.mem_cons_of_mem _ (List.mem_cons_of_mem _ ht))
    have hsub : ms ⊆ ms ++ layerHashed ((l :: r :: ts).map (HashTree.root merkleHash)) := List.subset_append_left _ _
    refine ⟨.node l r :: us, ?_, ?_, ?_, ?_⟩
    · simp only [List.map_cons, nextLayer, hlayer]
      rfl
    · simp only [List.flatMap_cons, hleaves, HashTree.leaves, List.append_assoc]
    · intro u hu
      rcases List.mem_cons.1 hu with rfl | hu
      · rintro x (rfl | hx | hx)
        · exact List.mem_append_right _ List.mem_cons_self
        · exact hsub (h l (by simp) x hx)
        · exact hsub (h r (by simp) x hx)
      · refine (hwithin u hu).mono fun m hm => ?_
        rcases List.mem_append.1 hm with hm | hm
        · exact List.mem_append_left _ hm
        · exact List.mem_append_right _ (List.mem_cons_of_mem _ hm)
    · simp only [List.length_cons, hlen]
      omega

theorem reduceLayers_tree (n : ℕ) (ts : List (HashTree Bytes)) (ms : List Bytes) (hne : ts ≠ []) (hlen : ts.length ≤ n + 1)
    (h : ∀ t ∈ ts, HashesIn ms t) :
    ∃ t : HashTree Bytes, reduceLayers n (ts.map (HashTree.root merkleHash)) = t.root merkleHash ∧
      t.leaves = ts.flatMap HashTree.leaves ∧ HashesIn (ms ++ layersHashed n (ts.map (HashTree.root merkleHash))) t := by
  induction n generalizing ts ms with
  | zero =>
    obtain ⟨t, rfl⟩ : ∃ t, ts = [t] := by
      cases ts with
      | nil => exact absurd rfl hne
      | cons t ts =>
        have : ts = [] := List.eq_nil_of_length_eq_zero (by simpa using hlen)
        exact ⟨t, by rw [this]⟩
    exact ⟨t, rfl, by simp, (h t (by simp)).mono (by simp)⟩
  | succ n ih =>
    rw [reduceLayers, layersHashed]
    by_cases hmore : 1 < ts.length
    · rw [if_pos (by simpa using hmore), if_pos (by simpa using hmore)]
      obtain ⟨us, hlayer, hleaves, hwithin, hus⟩ := nextLayer_trees ts ms h
      obtain ⟨t, hroot, ht, hw⟩ := ih us _ (List.ne_nil_of_length_pos (by omega)) (by omega) hwithin
      rw [hlayer]
      exact ⟨t, hroot, ht.trans hleaves, by rwa [List.append_assoc] at hw⟩
    · obtain ⟨t, rfl⟩ : ∃ t, ts = [t] := List.length_eq_one_iff.1 (by
        have := List.length_pos_of_ne_nil hne
        omega)
      rw [if_neg (by simp), if_neg (by simp)]
      exact ⟨t, rfl, by simp, (h t (by simp)).mono (by simp)⟩

theorem merkleRoot_tree {xs : List Bytes} (hne : xs ≠ []) :
    ∃ t : HashTree Bytes, merkleRoot xs = t.root merkleHash ∧ t.leaves = xs ∧ HashesIn (merkleHashed xs) t := by
  have hleaf : (xs.map HashTree.leaf).map (HashTree.root merkleHash) = xs.map hashLeaf := by
    rw [List.map_map]
    rfl
  obtain ⟨t, hroot, hleaves, hw⟩ := reduceLayers_tree xs.length (xs.map HashTree.leaf) (xs.map (0x00 :: ·)) (by simpa using hne)
    (by simp) (by
      intro t ht x hx
      obtain ⟨d, hd, rfl⟩ := List.mem_map.1 ht
      cases hx
      exact List.mem_map.2 ⟨d, hd, rfl⟩)
  rw [hleaf] at hroot hw
  refine ⟨t, ?_, ?_, hw⟩
  · rw [merkleRoot, if_neg (fun h0 => hne (List.eq_nil_of_length_eq_zero h0)), hroot]
  · rw [hleaves, List.flatMap_map]
    exact List.flatMap_singleton' xs

/-- No two of the messages collide, and none has the zero hash. -/
structure CollisionFree (ms : List Bytes) : Prop where
  inj : ∀ x ∈ ms, ∀ y ∈ ms, keccak256 x = keccak256 y → x = y
  ne_zero : ∀ x ∈ ms, keccak256 x ≠ zeroHash

theorem CollisionFree.mono {ms ms' : List Bytes} (h : CollisionFree ms') (hsub : ms ⊆ ms') : CollisionFree ms :=
  ⟨fun x hx y hy => h.inj x (hsub hx) y (hsub hy), fun x hx => h.ne_zero x (hsub hx)⟩

theorem merkleRoot_top {xs : List Bytes} (hne : xs ≠ []) :
    ∃ m ∈ merkleHashed xs, merkleRoot xs = keccak256 m ∧ ((∃ d, xs = [d] ∧ m = 0x00 :: d) ∨ m.length = 65) := by
  obtain ⟨t, hroot, hleaves, hw⟩ := merkleRoot_tree hne
  refine ⟨merkleMessage (t.top merkleHash), hw _ (HashTree.top_mem _ t), hroot.trans (HashTree.root_eq _ t), ?_⟩
  cases t with
  | leaf d => exact .inl ⟨d, hleaves.symm, rfl⟩
  | node l r => exact .inr (by simp [HashTree.top, merkleMessage])

theorem leaves_eq_of_merkleRoot {xs ys : List Bytes} (hfree : CollisionFree (merkleHashed xs ++ merkleHashed ys))
    (heq : merkleRoot xs = merkleRoot ys) : xs = ys := by
  have hzero : ∀ zs : List Bytes, zs ≠ [] → CollisionFree (merkleHashed zs) → merkleRoot zs ≠ merkleRoot [] := by
    intro zs hne hf h0
    obtain ⟨m, hm, htop, -⟩ := merkleRoot_top hne
    exact hf.ne_zero m hm (htop.symm.trans h0)
  by_cases hx : xs = []
  · by_cases hy : ys = []
    · rw [hx, hy]
    · exact absurd (hx ▸ heq.symm) (hzero ys hy (hfree.mono (List.subset_append_right _ _)))
  · by_cases hy : ys = []
    · exact absurd (hy ▸ heq) (hzero xs hx (hfree.mono (List.subset_append_left _ _)))
    · obtain ⟨t, hroot, hleaves, hw⟩ := merkleRoot_tree hx
      obtain ⟨t', hroot', hleaves', hw'⟩ := merkleRoot_tree hy
      have htree : t = t' := by
        refine HashTree.eq_of_root (fun x hx y hy h => merkleMessage_inj ?_) (hroot.symm.trans (heq.trans hroot'))
        exact hfree.inj _ (List.mem_append_left _ (hw x hx)) _ (List.mem_append_right _ (hw' y hy)) h
      rw [← hleaves, ← hleaves', htree]

/-- **The Merkle root is injective**: lists of leaves of any lengths have one root only if they are one list, as far as
Keccak-256 has no collision and no zero on what the two roots hash. -/
theorem merkleRoot_inj {xs ys : List Bytes} (hfree : CollisionFree (merkleHashed xs ++ merkleHashed ys)) :
    merkleRoot xs = merkleRoot ys ↔ xs = ys :=
  ⟨leaves_eq_of_merkleRoot hfree, fun h => h ▸ rfl⟩

/-- A message and the digest of it differ by one. -/
@[reducible]
def stepCrypto : Crypto := { tableCrypto [] [] with keccak256 := fun b => BitVec.ofNat 256 (bytesToNat b + 1) }

omit [Crypto] in
/-- A list with an odd level, a part of it, and the empty list. -/
theorem merkleRoot_inj_odd : @merkleRoot stepCrypto [[10], [20], [30]] ≠ @merkleRoot stepCrypto [[10], [20]] ∧
    @merkleRoot stepCrypto [[10], [20]] ≠ @merkleRoot stepCrypto [] := by
  have hodd : @CollisionFree stepCrypto (@merkleHashed stepCrypto [[10], [20], [30]] ++ @merkleHashed stepCrypto [[10], [20]]) := by
    refine @CollisionFree.mk stepCrypto _ ?_ ?_ <;> decide +kernel
  have hempty : @CollisionFree stepCrypto (@merkleHashed stepCrypto [[10], [20]] ++ @merkleHashed stepCrypto []) := by
    refine @CollisionFree.mk stepCrypto _ ?_ ?_ <;> decide +kernel
  exact ⟨(@merkleRoot_inj stepCrypto _ _ hodd).not.2 (by decide), (@merkleRoot_inj stepCrypto _ _ hempty).not.2 (by decide)⟩

end Lxs
