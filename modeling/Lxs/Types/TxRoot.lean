import Lxs.Types.Eth
import Lxs.Types.Merkle

/-!
# The transaction root binds the transactions

A native transaction is hashed by way of a signing hash over fields that can be read back one after the other, a wallet
transaction by its list of fields. Both drop the signs of integers and the chain id of a wallet transaction goes into `v`,
so the transactions have to pass the sanity check for one chain.

* `txRoot_binds`: **lists with one transaction root are one list**.
-/

namespace Lxs

variable [Crypto]

/-! ### What is hashed -/

def Transaction.hashed (tx : Transaction) : List Bytes :=
  if tx.txType = txTypeEthLegacy then [tx.encodeEthRaw]
  else [tx.nativeMessage, hashBytes (keccak256 tx.nativeMessage) ++ encBytes tx.sig]

def txRootHashed (txs : List Transaction) : List Bytes :=
  merkleHashed (txs.map fun tx => hashBytes tx.hash) ++ txs.flatMap Transaction.hashed

/-! ### Transactions -/

/-- A signed transaction of a chain with amounts that are not negative. -/
structure Transaction.Signed (tx : Transaction) (chainID : UInt64) (price amount : ℤ) : Prop where
  chainID : tx.chainID = chainID
  sig : tx.sig.length = 65
  gasPrice : tx.gasPrice = some price
  price_nonneg : 0 ≤ price
  value : tx.value = some amount
  amount_nonneg : 0 ≤ amount

theorem Transaction.signed_of_sanityCheck {tx : Transaction} {chainID : UInt64} (h : tx.sanityCheck chainID = .ok ()) :
    ∃ price amount, tx.Signed chainID price amount := by
  unfold sanityCheck at h
  split_ifs at h with _ hchain hv hp _ hsig
  simp only [Bool.not_eq_true', Bool.not_eq_false] at hv hp
  obtain ⟨amount, hv, hv0⟩ := exists_of_isNonneg hv
  obtain ⟨price, hp, hp0⟩ := exists_of_isNonneg hp
  exact ⟨price, amount, not_not.1 hchain, not_not.1 hsig, hp, hp0, hv, hv0⟩

omit [Crypto] in
theorem encOptionalAddress_append_inj {a b : Option Address} {r r' : Bytes}
    (h : encOptionalAddress a ++ r = encOptionalAddress b ++ r') : a = b ∧ r = r' := by
  cases a with
  | none =>
    cases b with
    | none => exact ⟨rfl, (List.cons.inj h).2⟩
    | some b => cases (List.cons.inj h).1
  | some a =>
    cases b with
    | none => cases (List.cons.inj h).1
    | some b =>
      obtain ⟨hab, hr⟩ := List.append_inj (List.cons.inj h).2 (by simp)
      exact ⟨congrArg some (addressBytes_inj hab), hr⟩

section Fields

omit [Crypto]

variable {tx tx' : Transaction} {chainID : UInt64} {price price' amount amount' : ℤ}

theorem Transaction.ext_fields (htype : tx.txType = tx'.txType) (hchain : tx.chainID = tx'.chainID) (hnonce : tx.nonce = tx'.nonce)
    (hto : tx.toAddr = tx'.toAddr) (hvalue : tx.value = tx'.value) (hgas : tx.gasLimit = tx'.gasLimit)
    (hprice : tx.gasPrice = tx'.gasPrice) (hdata : tx.data = tx'.data) (hsig : tx.sig = tx'.sig) : tx = tx' := by
  cases tx
  cases tx'
  simp only [Transaction.mk.injEq]
  exact ⟨htype, hchain, hnonce, hto, hvalue, hgas, hprice, hdata, hsig⟩

theorem nativeMessage_inj (h : tx.Signed chainID price amount) (h' : tx'.Signed chainID price' amount')
    (hlen : tx.nativeMessage.length < 2 ^ 63) (hlen' : tx'.nativeMessage.length < 2 ^ 63) (htype : tx.txType = tx'.txType)
    (hsig : tx.sig = tx'.sig) (heq : tx.nativeMessage = tx'.nativeMessage) : tx = tx' := by
  simp only [Transaction.nativeMessage, h.gasPrice, h.value, h'.gasPrice, h'.value, encBigInt, encBytes, List.length_append]
    at hlen hlen'
  simp only [Transaction.nativeMessage, h.gasPrice, h.value, h'.gasPrice, h'.value, encBigInt, List.append_assoc] at heq
  obtain ⟨-, heq⟩ := List.append_inj heq (by simp)
  obtain ⟨-, heq⟩ := List.append_inj heq (by simp)
  obtain ⟨hnonce, heq⟩ := List.append_inj heq (by simp)
  obtain ⟨hto, heq⟩ := encOptionalAddress_append_inj heq
  obtain ⟨hvalue, heq⟩ := encBytes_append_inj (by omega) (by omega) heq
  obtain ⟨hgas, heq⟩ := List.append_inj heq (by simp)
  obtain ⟨hprice, heq⟩ := encBytes_append_inj (by omega) (by omega) heq
  rw [← List.append_nil (encBytes tx.data), ← List.append_nil (encBytes tx'.data)] at heq
  obtain ⟨hdata, -⟩ := encBytes_append_inj (by omega) (by omega) heq
  refine Transaction.ext_fields htype (h.chainID.trans h'.chainID.symm) (encUint64_inj hnonce) hto ?_ (encUint64_inj hgas) ?_
    hdata hsig
  · rw [h.value, h'.value, bigBytes_inj h.amount_nonneg h'.amount_nonneg hvalue]
  · rw [h.gasPrice, h'.gasPrice, bigBytes_inj h.price_nonneg h'.price_nonneg hprice]

theorem trim_bigEndian_inj {x y : UInt64} (h : Rlp.trimLeadingZeros (Rlp.bigEndian x) = Rlp.trimLeadingZeros (Rlp.bigEndian y)) :
    x = y := by
  have := congrArg bytesToNat h
  rw [Rlp.bytesToNat_bigEndian, Rlp.bytesToNat_bigEndian] at this
  exact UInt64.toNat_inj.1 this

theorem addrBytes_inj {a b : Option Address} (h : Transaction.addrBytes a = Transaction.addrBytes b) : a = b := by
  have := parseTo_addrBytes a
  rw [h, parseTo_addrBytes b] at this
  exact (Except.ok.inj this).symm

theorem headD_eq_of_ethV (hchain : tx.chainID = tx'.chainID) (h : tx.ethV = tx'.ethV) : tx.sig.headD 0 = tx'.sig.headD 0 := by
  unfold Transaction.ethV at h
  rw [hchain] at h
  have hsub := congrArg UInt64.toNat ((UInt64.add_right_inj _).1 h)
  rw [UInt8.toNat_toUInt64, UInt8.toNat_toUInt64] at hsub
  exact (UInt8.sub_left_inj _).1 (UInt8.toNat_inj.1 hsub)

/-- **The signed encoding of a wallet transaction can be read back.** -/
theorem encodeEthRaw_inj (h : tx.Signed chainID price amount) (h' : tx'.Signed chainID price' amount')
    (hlen : tx.encodeEthRaw.length < 2 ^ 63) (htype : tx.txType = tx'.txType) (heq : tx.encodeEthRaw = tx'.encodeEthRaw) :
    tx = tx' := by
  have hraw := encodeEthRaw_eq h.sig h.gasPrice h.value
  have hraw' := encodeEthRaw_eq h'.sig h'.gasPrice h'.value
  have hfields : tx.rawFields price amount = tx'.rawFields price' amount' := by
    have hdecode := Rlp.decodeList_list (tx.rawFields price amount) (hraw ▸ hlen)
    have hdecode' := Rlp.decodeList_list (tx'.rawFields price' amount') (hraw' ▸ heq ▸ hlen)
    rw [← hraw, heq, hraw', hdecode'] at hdecode
    exact (Except.ok.inj (Option.some.inj hdecode)).symm
  simp only [Transaction.rawFields, List.cons.injEq, and_true] at hfields
  obtain ⟨hnonce, hprice, hgas, hto, hvalue, hdata, hv, hr, hs⟩ := hfields
  have hchain := h.chainID.trans h'.chainID.symm
  have hsig : tx.sig = tx'.sig := by
    refine signature_ext h.sig h'.sig (headD_eq_of_ethV hchain (trim_bigEndian_inj hv)) ?_ ?_
    · exact Int.natCast_inj.1 (bigBytes_inj (Int.natCast_nonneg _) (Int.natCast_nonneg _) hr)
    · exact Int.natCast_inj.1 (bigBytes_inj (Int.natCast_nonneg _) (Int.natCast_nonneg _) hs)
  refine Transaction.ext_fields htype hchain (trim_bigEndian_inj hnonce) (addrBytes_inj hto) ?_ (trim_bigEndian_inj hgas) ?_
    hdata hsig
  · rw [h.value, h'.value, bigBytes_inj h.amount_nonneg h'.amount_nonneg hvalue]
  · rw [h.gasPrice, h'.gasPrice, bigBytes_inj h.price_nonneg h'.price_nonneg hprice]

end Fields

/-- **The hash of a transaction binds it**, as far as nothing under it collides. -/
theorem Transaction.eq_of_hash {tx tx' : Transaction} {chainID : UInt64} {price price' amount amount' : ℤ}
    (h : tx.Signed chainID price amount) (h' : tx'.Signed chainID price' amount') (htype : tx.txType = tx'.txType)
    (hlen : ∀ m ∈ tx.hashed ++ tx'.hashed, m.length < 2 ^ 63) (hfree : CollisionFree (tx.hashed ++ tx'.hashed))
    (heq : tx.hash = tx'.hash) : tx = tx' := by
  by_cases heth : tx.txType = txTypeEthLegacy
  · have hhash : ∀ {t : Transaction}, t.txType = txTypeEthLegacy → t.sig.length = 65 →
        t.hashed = [t.encodeEthRaw] ∧ t.hash = keccak256 t.encodeEthRaw := by
      intro t ht hsig
      exact ⟨if_pos ht, if_pos ⟨ht, hsig⟩⟩
    obtain ⟨hm, hh⟩ := hhash heth h.sig
    obtain ⟨hm', hh'⟩ := hhash (htype ▸ heth) h'.sig
    rw [hm, hm'] at hlen hfree
    rw [hh, hh'] at heq
    exact encodeEthRaw_inj h h' (hlen _ (by simp)) htype (hfree.inj _ (by simp) _ (by simp) heq)
  · have hhash : ∀ {t : Transaction}, t.txType ≠ txTypeEthLegacy →
        t.hashed = [t.nativeMessage, hashBytes (keccak256 t.nativeMessage) ++ encBytes t.sig] ∧
          t.hash = keccak256 (hashBytes (keccak256 t.nativeMessage) ++ encBytes t.sig) := by
      intro t ht
      refine ⟨if_neg ht, ?_⟩
      unfold Transaction.hash Transaction.signingHash
      rw [if_neg fun hc => ht hc.1, if_neg ht]
    obtain ⟨hm, hh⟩ := hhash heth
    obtain ⟨hm', hh'⟩ := hhash (htype ▸ heth)
    rw [hm, hm'] at hlen hfree
    rw [hh, hh'] at heq
    obtain ⟨hsigning, hsig⟩ := List.append_inj (hfree.inj _ (by simp) _ (by simp) heq) (by simp)
    have hsig : tx.sig = tx'.sig := (List.append_inj hsig (by simp)).2
    have hmessage := hfree.inj _ (by simp) _ (by simp) (hashBytes_inj hsigning)
    exact nativeMessage_inj h h' (hlen _ (by simp)) (hlen _ (by simp)) htype hsig hmessage

/-- **The transaction root binds the transactions**: lists of sane transactions of one type with one root are one list, as
far as Keccak-256 has no collision and no zero on the messages under the two roots, which have a length in an `int`. -/
theorem txRoot_binds {txType : UInt8} {chainID : UInt64} {txs txs' : List Transaction}
    (htype : ∀ tx ∈ txs ++ txs', tx.txType = txType) (hsane : ∀ tx ∈ txs ++ txs', tx.sanityCheck chainID = .ok ())
    (hlen : ∀ m ∈ txRootHashed txs ++ txRootHashed txs', m.length < 2 ^ 63)
    (hfree : CollisionFree (txRootHashed txs ++ txRootHashed txs')) (heq : txRoot txs = txRoot txs') : txs = txs' := by
  have hmerkle : CollisionFree (merkleHashed (txs.map fun tx => hashBytes tx.hash) ++
      merkleHashed (txs'.map fun tx => hashBytes tx.hash)) := by
    refine hfree.mono fun m hm => ?_
    rcases List.mem_append.1 hm with hm | hm
    · exact List.mem_append_left _ (List.mem_append_left _ hm)
    · exact List.mem_append_right _ (List.mem_append_left _ hm)
  refine map_inj_on (leaves_eq_of_merkleRoot hmerkle heq) fun tx htx tx' htx' hhash => ?_
  have hsub : tx.hashed ++ tx'.hashed ⊆ txRootHashed txs ++ txRootHashed txs' := by
    intro m hm
    rcases List.mem_append.1 hm with hm | hm
    · exact List.mem_append_left _ (List.mem_append_right _ (List.mem_flatMap.2 ⟨tx, htx, hm⟩))
    · exact List.mem_append_right _ (List.mem_append_right _ (List.mem_flatMap.2 ⟨tx', htx', hm⟩))
  obtain ⟨price, amount, h⟩ := Transaction.signed_of_sanityCheck (hsane tx (List.mem_append_left _ htx))
  obtain ⟨price', amount', h'⟩ := Transaction.signed_of_sanityCheck (hsane tx' (List.mem_append_right _ htx'))
  exact Transaction.eq_of_hash h h' ((htype tx (List.mem_append_left _ htx)).trans (htype tx' (List.mem_append_right _ htx')).symm)
    (fun m hm => hlen m (hsub hm)) (hfree.mono hsub) (hashBytes_inj hhash)

omit [Crypto] in
theorem txRoot_binds_wallet : (∀ tx ∈ [walletTx, nextTx] ++ [walletTx, nextTx], tx.txType = txTypeEthLegacy) ∧
    (∀ tx ∈ [walletTx, nextTx] ++ [walletTx, nextTx], @Transaction.sanityCheck walletCrypto tx 1 = .ok ()) ∧
    @txRoot walletCrypto [walletTx, nextTx] ≠ 0 ∧ [walletTx, nextTx] = [walletTx, nextTx] := by
  have htype : ∀ tx ∈ [walletTx, nextTx] ++ [walletTx, nextTx], tx.txType = txTypeEthLegacy := by decide +kernel
  have hsane : ∀ tx ∈ [walletTx, nextTx] ++ [walletTx, nextTx], @Transaction.sanityCheck walletCrypto tx 1 = .ok () := by
    decide +kernel
  have hfree : @CollisionFree walletCrypto (@txRootHashed walletCrypto [walletTx, nextTx] ++
      @txRootHashed walletCrypto [walletTx, nextTx]) := by
    refine @CollisionFree.mk walletCrypto _ ?_ ?_ <;> decide +kernel
  exact ⟨htype, hsane, by decide +kernel, @txRoot_binds walletCrypto _ _ _ _ htype hsane (by decide +kernel) hfree rfl⟩

end Lxs
