import Lxs.Types.RlpDecode
import Lxs.Types.Signature

/-!
# Wallet transactions

`ParseEthLegacyTx` and its relation to `EncodeEthRaw`. The parser reads integers with leading zeros, a `v` of more than 64
bits by its low bits, and a `v` without a chain id as one of the chain 0, none of which the encoder writes.

* `raw_identity_iff`: **an accepted byte string is the encoding of its transaction exactly when it has none of these**;
* `parse_encode`: **what the encoder writes is read back**.
-/

namespace Lxs

variable [Crypto]

/-! ### The parser -/

inductive EthError
  | decode (e : Rlp.DecodeError)
  | fieldCount
  | v
  | field
  | sender (e : TxCheckError)
  deriving DecidableEq

def addressLength : ℕ := 20

def bytesToUint64 (b : Bytes) : Except EthError UInt64 := if 8 < b.length then .error .field else .ok (Rlp.beUint64 b)

def splitV (vv : UInt64) : Except EthError (UInt64 × UInt64) :=
  if vv = 27 ∨ vv = 28 then .ok (0, vv - 27)
  else if 35 ≤ vv then .ok ((vv - 35 - ((vv - 35) &&& 1)) / 2, (vv - 35) &&& 1)
  else .error .v

def parseTo (b : Bytes) : Except EthError (Option Address) :=
  if b.length = 0 then .ok none
  else if b.length = addressLength then .ok (some (BitVec.ofNat 160 (bytesToNat b)))
  else .error .field

/-- A number of at most 32 bytes in its place of the signature. -/
def padLeft (b : Bytes) : Bytes := List.replicate (32 - b.length) 0 ++ b

def parseFields (items : List Bytes) : Except EthError Transaction :=
  match items with
  | [nonce, gasPrice, gasLimit, toBytes, value, data, v, r, s] =>
    match bytesToUint64 nonce with
    | .error e => .error e
    | .ok nonce =>
      match bytesToUint64 gasLimit with
      | .error e => .error e
      | .ok gasLimit =>
        -- `Uint64` of a larger integer is its low 64 bits
        match splitV (UInt64.ofNat (bytesToNat v)) with
        | .error e => .error e
        | .ok (chainID, recid) =>
          match parseTo toBytes with
          | .error e => .error e
          | .ok toAddr =>
            if 32 < r.length ∨ 32 < s.length ∨ r.length = 0 ∨ s.length = 0 then .error .field
            else
              let tx : Transaction :=
                { txType := txTypeEthLegacy
                  chainID := chainID
                  nonce := nonce
                  toAddr := toAddr
                  value := some (bytesToNat value)
                  gasLimit := gasLimit
                  gasPrice := some (bytesToNat gasPrice)
                  data := data
                  sig := (27 + recid).toUInt8 :: (padLeft r ++ padLeft s) }
              match tx.sender with
              | .error e => .error (.sender e)
              | .ok _ => .ok tx
  | _ => .error .fieldCount

/-- `none` is a panic of the decoder. -/
def parseEthLegacyTx (raw : Bytes) : Option (Except EthError Transaction) :=
  match Rlp.decodeList raw with
  | none => none
  | some (.error e) => some (.error (.decode e))
  | some (.ok items) => some (parseFields items)

/-! ### The fields of a transaction -/

def Transaction.ethV (tx : Transaction) : UInt64 := tx.chainID * 2 + 35 + (tx.sig.headD 0 - 27).toUInt64

def Transaction.rawFields (tx : Transaction) (gasPrice value : ℤ) : List Bytes :=
  [Rlp.trimLeadingZeros (Rlp.bigEndian tx.nonce), bigBytes gasPrice, Rlp.trimLeadingZeros (Rlp.bigEndian tx.gasLimit),
    Transaction.addrBytes tx.toAddr, bigBytes value, tx.data, Rlp.trimLeadingZeros (Rlp.bigEndian tx.ethV),
    bigBytes (bytesToNat ((tx.sig.drop 1).take 32)), bigBytes (bytesToNat ((tx.sig.drop 33).take 32))]

omit [Crypto] in
theorem Rlp.big_some (x : ℤ) : Rlp.big (some x) = Rlp.bytes (bigBytes x) := by
  unfold Rlp.big
  split
  · cases ‹_›
  · rename_i h
    cases h
    split_ifs with h0
    · rw [h0]
      rfl
    · rfl

variable {tx : Transaction}

omit [Crypto] in
theorem encodeEthRaw_eq {gasPrice value : ℤ} (hsig : tx.sig.length = 65) (hprice : tx.gasPrice = some gasPrice)
    (hvalue : tx.value = some value) : tx.encodeEthRaw = Rlp.list ((tx.rawFields gasPrice value).map Rlp.bytes) := by
  unfold Transaction.encodeEthRaw
  rw [if_neg (not_not.2 hsig), hprice, hvalue]
  simp only [Rlp.big_some]
  rfl

/-! ### What the parser accepts -/

/-- The transaction that the nine fields of an accepted list give. -/
structure Parsed (nonce gasPrice gasLimit toBytes value data v r s : Bytes) (tx : Transaction) : Prop where
  txType : tx.txType = txTypeEthLegacy
  nonce : nonce.length ≤ 8 ∧ tx.nonce = Rlp.beUint64 nonce
  gasPrice : tx.gasPrice = some (bytesToNat gasPrice : ℤ)
  gasLimit : gasLimit.length ≤ 8 ∧ tx.gasLimit = Rlp.beUint64 gasLimit
  toAddr : parseTo toBytes = .ok tx.toAddr
  value : tx.value = some (bytesToNat value : ℤ)
  data : tx.data = data
  r_length : 0 < r.length ∧ r.length ≤ 32
  s_length : 0 < s.length ∧ s.length ≤ 32
  sig : ∃ recid, splitV (UInt64.ofNat (bytesToNat v)) = .ok (tx.chainID, recid) ∧
    tx.sig = (27 + recid).toUInt8 :: (padLeft r ++ padLeft s)
  sender : ∃ a, tx.sender = .ok a

omit [Crypto] in
theorem bytesToUint64_ok {b : Bytes} {n : UInt64} : bytesToUint64 b = .ok n ↔ b.length ≤ 8 ∧ n = Rlp.beUint64 b := by
  unfold bytesToUint64
  split_ifs with h
  · simp [not_le.2 h]
  · simp [not_lt.1 h, eq_comm]

theorem parseFields_ok {items : List Bytes} : parseFields items = .ok tx ↔
    ∃ nonce gasPrice gasLimit toBytes value data v r s,
      items = [nonce, gasPrice, gasLimit, toBytes, value, data, v, r, s] ∧
        Parsed nonce gasPrice gasLimit toBytes value data v r s tx := by
  constructor
  · intro h
    unfold parseFields at h
    split at h
    swap
    · cases h
    rename_i nonce gasPrice gasLimit toBytes value data v r s
    split at h
    · cases h
    rename_i n hn
    split at h
    · cases h
    rename_i gl hgl
    split at h
    · cases h
    rename_i c recid hv
    split at h
    · cases h
    rename_i a ha
    split at h
    · cases h
    rename_i hrs
    dsimp only at h
    split at h
    · cases h
    rename_i sender hsender
    cases h
    refine ⟨nonce, gasPrice, gasLimit, toBytes, value, data, v, r, s, rfl, ?_⟩
    exact ⟨rfl, bytesToUint64_ok.1 hn, rfl, bytesToUint64_ok.1 hgl, ha, rfl, rfl, by omega, by omega, ⟨recid, hv, rfl⟩,
      ⟨sender, hsender⟩⟩
  · rintro ⟨nonce, gasPrice, gasLimit, toBytes, value, data, v, r, s, rfl, h⟩
    obtain ⟨recid, hv, hsig⟩ := h.sig
    obtain ⟨a, hsender⟩ := h.sender
    have hr := h.r_length
    have hs := h.s_length
    have htx : tx = ⟨txTypeEthLegacy, tx.chainID, tx.nonce, tx.toAddr, some (bytesToNat value), tx.gasLimit,
        some (bytesToNat gasPrice), data, (27 + recid).toUInt8 :: (padLeft r ++ padLeft s)⟩ := by
      rw [← h.txType, ← h.value, ← h.gasPrice, ← h.data, ← hsig]
    unfold parseFields
    dsimp only
    rw [bytesToUint64_ok.2 h.nonce, bytesToUint64_ok.2 h.gasLimit, hv, h.toAddr]
    dsimp only
    rw [if_neg (by omega), ← htx, hsender]

omit [Crypto] in
theorem splitV_ok {vv c recid : UInt64} (h : splitV vv = .ok (c, recid)) : (recid = 0 ∨ recid = 1) ∧
    (c * 2 + 35 + recid = vv ↔ vv ≠ 27 ∧ vv ≠ 28) := by
  unfold splitV at h
  split_ifs at h with h27 h35
  · cases h
    rcases h27 with rfl | rfl <;> decide
  · cases h
    have hx : (vv - 35).toNat = vv.toNat - 35 := UInt64.toNat_sub_of_le _ _ h35
    have hle : 35 ≤ vv.toNat := UInt64.le_iff_toNat_le.1 h35
    have hlt := vv.toNat_lt
    generalize hy : vv - 35 = x at hx ⊢
    have hand : (x &&& 1).toNat = x.toNat % 2 := by rw [UInt64.toNat_and]; exact Nat.and_one_is_mod _
    have hsub : (x - (x &&& 1)).toNat = x.toNat - x.toNat % 2 := by
      rw [UInt64.toNat_sub_of_le, hand]
      exact UInt64.le_iff_toNat_le.2 (by rw [hand]; omega)
    have hdiv : ((x - (x &&& 1)) / 2).toNat = x.toNat / 2 := by
      rw [UInt64.toNat_div, hsub]
      show (x.toNat - x.toNat % 2) / 2 = _
      omega
    have hsum : (x - (x &&& 1)) / 2 * 2 + 35 + (x &&& 1) = vv := by
      refine UInt64.toNat_inj.1 ?_
      rw [UInt64.toNat_add, UInt64.toNat_add, UInt64.toNat_mul, hdiv, hand]
      show ((x.toNat / 2 * 2 % 2 ^ 64 + 35) % 2 ^ 64 + x.toNat % 2) % 2 ^ 64 = _
      omega
    refine ⟨?_, ?_⟩
    · rcases Nat.mod_two_eq_zero_or_one x.toNat with h | h
      · exact .inl (UInt64.toNat_inj.1 (hand.trans h))
      · exact .inr (UInt64.toNat_inj.1 (hand.trans h))
    · exact ⟨fun _ => not_or.1 h27, fun _ => hsum⟩

/-! ### Reading the fields back -/

section Fields

omit [Crypto]

variable {b : Bytes}

theorem Rlp.uint_eq_iff (h : b.length ≤ 8) :
    Rlp.trimLeadingZeros (Rlp.bigEndian (Rlp.beUint64 b)) = b ↔ Rlp.Minimal b := by
  constructor
  · intro heq
    rw [← heq]
    exact Rlp.minimal_trim _
  · intro hmin
    refine (Rlp.minimal_trim _).eq hmin ?_
    rw [Rlp.bytesToNat_bigEndian, Rlp.toNat_beUint64 h]

theorem Rlp.bigBytes_eq_iff : bigBytes (bytesToNat b) = b ↔ Rlp.Minimal b := by
  constructor
  · intro heq
    rw [← heq]
    exact head?_bigBytes _
  · intro hmin
    refine Rlp.Minimal.eq (head?_bigBytes _) hmin ?_
    rw [bytesToNat_bigBytes, Int.natAbs_natCast]

theorem addrBytes_of_parseTo {a : Option Address} (h : parseTo b = .ok a) : Transaction.addrBytes a = b := by
  unfold parseTo at h
  split_ifs at h with h0 h20
  · cases h
    exact (List.length_eq_zero_iff.1 h0).symm
  · cases h
    have hlt := bytesToNat_lt b
    rw [h20, show (256 : ℕ) ^ addressLength = 2 ^ 160 by norm_num [addressLength]] at hlt
    show beBytes 20 (BitVec.ofNat 160 (bytesToNat b)).toNat = b
    rw [BitVec.toNat_ofNat, Nat.mod_eq_of_lt hlt, show 20 = b.length from h20.symm, beBytes_bytesToNat]

theorem parseTo_addrBytes (a : Option Address) : parseTo (Transaction.addrBytes a) = .ok a := by
  cases a with
  | none => rfl
  | some a =>
    have hlen : (addressBytes a).length = addressLength := length_addressBytes a
    have hnum : bytesToNat (addressBytes a) = a.toNat := by
      rw [addressBytes, bytesToNat_beBytes, show 256 ^ 20 = 2 ^ 160 by norm_num, Nat.mod_eq_of_lt a.isLt]
    show parseTo (addressBytes a) = _
    unfold parseTo
    rw [if_neg (by rw [hlen]; decide), if_pos hlen, hnum, BitVec.ofNat_toNat]
    rfl

theorem length_padLeft (h : b.length ≤ 32) : (padLeft b).length = 32 := by
  rw [padLeft, List.length_append, List.length_replicate]
  omega

theorem sig_parts {c : UInt8} {r s : Bytes} (hr : r.length ≤ 32) (hs : s.length ≤ 32) :
    ((c :: (padLeft r ++ padLeft s)).drop 1).take 32 = padLeft r ∧ ((c :: (padLeft r ++ padLeft s)).drop 33).take 32 = padLeft s := by
  have hr' := length_padLeft hr
  have hs' := length_padLeft hs
  constructor
  · rw [List.drop_one, List.tail_cons, ← hr', List.take_left]
  · rw [List.drop_succ_cons, show 32 = (padLeft r).length from hr'.symm, List.drop_left, hr', ← hs', List.take_length]

theorem header_recid {recid : UInt64} (h : recid = 0 ∨ recid = 1) : ((27 + recid).toUInt8 - 27).toUInt64 = recid := by
  rcases h with rfl | rfl <;> decide

end Fields

/-- What an accepted list has to look like to be the encoding of its transaction: integers without leading zeros, and a
`v` of at most eight bytes that has a chain id. -/
def canonicalFields (items : List Bytes) : Bool :=
  match items with
  | [nonce, gasPrice, gasLimit, _, value, _, v, r, s] =>
    Rlp.Minimal nonce ∧ Rlp.Minimal gasPrice ∧ Rlp.Minimal gasLimit ∧ Rlp.Minimal value ∧
      (Rlp.Minimal v ∧ v.length ≤ 8 ∧ bytesToNat v ≠ 27 ∧ bytesToNat v ≠ 28) ∧ Rlp.Minimal r ∧ Rlp.Minimal s
  | _ => false

def isCanonicalRaw (raw : Bytes) : Bool :=
  match Rlp.decodeList raw with
  | some (.ok items) => canonicalFields items
  | _ => false

namespace Parsed

variable {nonce gasPrice gasLimit toBytes value data v r s : Bytes} {tx : Transaction}

theorem sig_length (h : Parsed nonce gasPrice gasLimit toBytes value data v r s tx) : tx.sig.length = 65 := by
  obtain ⟨recid, -, hsig⟩ := h.sig
  rw [hsig, List.length_cons, List.length_append, length_padLeft h.r_length.2, length_padLeft h.s_length.2]

theorem ethV_eq_iff (h : Parsed nonce gasPrice gasLimit toBytes value data v r s tx) :
    Rlp.trimLeadingZeros (Rlp.bigEndian tx.ethV) = v ↔
      Rlp.Minimal v ∧ v.length ≤ 8 ∧ bytesToNat v ≠ 27 ∧ bytesToNat v ≠ 28 := by
  obtain ⟨recid, hv, hsig⟩ := h.sig
  obtain ⟨hrecid, hiff⟩ := splitV_ok hv
  have hethV : tx.ethV = tx.chainID * 2 + 35 + recid := by
    rw [Transaction.ethV, hsig, List.headD_cons, header_recid hrecid]
  rw [hethV]
  -- a number of eight bytes is its own low 64 bits
  have hlow : ∀ {m : ℕ}, bytesToNat v < 2 ^ 64 → m < 2 ^ 64 → (UInt64.ofNat (bytesToNat v) ≠ UInt64.ofNat m ↔ bytesToNat v ≠ m) :=
    fun hb hm => not_congr ⟨ofNat_inj hb hm, fun h => by rw [h]⟩
  constructor
  · intro heq
    have hlen : v.length ≤ 8 := by
      rw [← heq]
      exact (Rlp.length_trim_le _).trans (by simp [Rlp.bigEndian])
    have hnum : bytesToNat v = (tx.chainID * 2 + 35 + recid).toNat := by rw [← heq, Rlp.bytesToNat_bigEndian]
    have hlt : bytesToNat v < 2 ^ 64 := by
      rw [hnum]
      exact UInt64.toNat_lt _
    have hvv := hiff.1 (by rw [hnum, UInt64.ofNat_toNat])
    exact ⟨heq ▸ Rlp.minimal_trim _, hlen, (hlow hlt (by decide)).1 hvv.1, (hlow hlt (by decide)).1 hvv.2⟩
  · rintro ⟨hmin, hlen, h27, h28⟩
    have hlt : bytesToNat v < 2 ^ 64 := (bytesToNat_lt v).trans_le (Nat.pow_le_pow_right (by decide) hlen)
    rw [hiff.2 ⟨(hlow hlt (by decide)).2 h27, (hlow hlt (by decide)).2 h28⟩]
    refine (Rlp.minimal_trim _).eq hmin ?_
    rw [Rlp.bytesToNat_bigEndian, UInt64.toNat_ofNat_of_lt' hlt]

/-- **The fields that are encoded are the fields that were parsed** exactly when these are canonical. -/
theorem rawFields_eq_iff (h : Parsed nonce gasPrice gasLimit toBytes value data v r s tx) :
    tx.rawFields (bytesToNat gasPrice) (bytesToNat value) = [nonce, gasPrice, gasLimit, toBytes, value, data, v, r, s] ↔
      canonicalFields [nonce, gasPrice, gasLimit, toBytes, value, data, v, r, s] = true := by
  obtain ⟨recid, -, hsig⟩ := h.sig
  obtain ⟨hr, hs⟩ := sig_parts (c := (27 + recid).toUInt8) h.r_length.2 h.s_length.2
  rw [← hsig] at hr hs
  have hnum : ∀ b : Bytes, bytesToNat (padLeft b) = bytesToNat b := fun b => Rlp.bytesToNat_zeros _ b
  unfold Transaction.rawFields
  rw [hr, hs, hnum, hnum, h.nonce.2, h.gasLimit.2, h.data, addrBytes_of_parseTo h.toAddr]
  simp only [List.cons.injEq, and_true, true_and, canonicalFields, decide_eq_true_eq, Rlp.uint_eq_iff h.nonce.1,
    Rlp.uint_eq_iff h.gasLimit.1, Rlp.bigBytes_eq_iff, h.ethV_eq_iff]

end Parsed

/-! ### Identity of raw transactions -/

theorem parse_ok {raw : Bytes} (hlen : raw.length < 2 ^ 63) (h : parseEthLegacyTx raw = some (.ok tx)) :
    ∃ nonce gasPrice gasLimit toBytes value data v r s,
      Rlp.decodeList raw = some (.ok [nonce, gasPrice, gasLimit, toBytes, value, data, v, r, s]) ∧
      Rlp.list ([nonce, gasPrice, gasLimit, toBytes, value, data, v, r, s].map Rlp.bytes) = raw ∧
      Parsed nonce gasPrice gasLimit toBytes value data v r s tx := by
  unfold parseEthLegacyTx at h
  obtain ⟨e, he⟩ | ⟨items, hitems, hraw⟩ := Rlp.decodeList_cases hlen
  · rw [he] at h
    cases h
  rw [hitems] at h
  obtain ⟨nonce, gasPrice, gasLimit, toBytes, value, data, v, r, s, rfl, hparsed⟩ := parseFields_ok.1 (Option.some.inj h)
  exact ⟨nonce, gasPrice, gasLimit, toBytes, value, data, v, r, s, hitems, hraw, hparsed⟩

theorem encode_eq_iff {raw : Bytes} (hlen : raw.length < 2 ^ 63) (h : parseEthLegacyTx raw = some (.ok tx)) :
    tx.encodeEthRaw = raw ↔ isCanonicalRaw raw = true := by
  obtain ⟨nonce, gasPrice, gasLimit, toBytes, value, data, v, r, s, hitems, hraw, hparsed⟩ := parse_ok hlen h
  have hcanon : isCanonicalRaw raw = canonicalFields [nonce, gasPrice, gasLimit, toBytes, value, data, v, r, s] := by
    unfold isCanonicalRaw
    rw [hitems]
  rw [hcanon, ← hparsed.rawFields_eq_iff, encodeEthRaw_eq hparsed.sig_length hparsed.gasPrice hparsed.value]
  constructor
  · intro heq
    have hdecode := Rlp.decodeList_list (tx.rawFields (bytesToNat gasPrice) (bytesToNat value)) (by rwa [heq])
    rw [heq, hitems] at hdecode
    exact (Except.ok.inj (Option.some.inj hdecode)).symm
  · intro heq
    rw [heq, hraw]

/-- **The identity of a raw transaction.** An accepted byte string is the encoding of its transaction, and its hash the
hash of the transaction, exactly when it is canonical; canonical byte strings with one transaction are one. -/
theorem raw_identity_iff {raw raw' : Bytes} {tx tx' : Transaction} (hlen : raw.length < 2 ^ 63) (hlen' : raw'.length < 2 ^ 63)
    (h : parseEthLegacyTx raw = some (.ok tx)) (h' : parseEthLegacyTx raw' = some (.ok tx')) :
    (tx.encodeEthRaw = raw ∧ tx.hash = keccak256 raw ↔ isCanonicalRaw raw = true) ∧
      (isCanonicalRaw raw = true → isCanonicalRaw raw' = true → tx = tx' → raw = raw') := by
  refine ⟨⟨fun heq => (encode_eq_iff hlen h).1 heq.1, fun hcanon => ?_⟩, ?_⟩
  · have heq := (encode_eq_iff hlen h).2 hcanon
    obtain ⟨nonce, gasPrice, gasLimit, toBytes, value, data, v, r, s, -, -, hparsed⟩ := parse_ok hlen h
    refine ⟨heq, ?_⟩
    unfold Transaction.hash Transaction.ethRawHash
    rw [if_pos ⟨hparsed.txType, hparsed.sig_length⟩, heq]
  · rintro hcanon hcanon' rfl
    rw [← (encode_eq_iff hlen h).2 hcanon, (encode_eq_iff hlen' h').2 hcanon']

/-! The worked example of EIP-155, and the same list with a leading zero in its nonce. -/

def walletRaw : Bytes :=
  beBytes 110 0xf86c098504a817c800825208943535353535353535353535353535353535353535880de0b6b3a76400008025a028ef61340bd939bc2195fe537567866003e1a15d3c71ff63e1590620aa636276a067cbe9d8997f761aecb703304b3800ccf555c9f3dc64214b297fb1966a3b6d83

def paddedRaw : Bytes :=
  beBytes 112 0xf86e8200098504a817c800825208943535353535353535353535353535353535353535880de0b6b3a76400008025a028ef61340bd939bc2195fe537567866003e1a15d3c71ff63e1590620aa636276a067cbe9d8997f761aecb703304b3800ccf555c9f3dc64214b297fb1966a3b6d83

def walletSig : Bytes :=
  beBytes 65 0x1b28ef61340bd939bc2195fe537567866003e1a15d3c71ff63e1590620aa63627667cbe9d8997f761aecb703304b3800ccf555c9f3dc64214b297fb1966a3b6d83

def walletTx : Transaction where
  txType := txTypeEthLegacy
  chainID := 1
  nonce := 9
  toAddr := some 0x3535353535353535353535353535353535353535
  value := some 1000000000000000000
  gasLimit := 21000
  gasPrice := some 20000000000
  data := []
  sig := walletSig

/-- The next transaction of the same key. -/
def nextTx : Transaction :=
  { walletTx with
    nonce := 10
    sig := beBytes 65 0x1b7a9375ad6167ad54aa74c6348cc54d344cc5dc9487d847049d5eabb0fa03c8fb41ea0453a7f2079499b2b6b2b672cfb094bce212d5679c1eb806809b0baf9c69 }

def walletKey : ℕ :=
  0x044bc2a31265153f07e70e0bab08724e6b85e217f8cd628ceb62974247bb493382ce28cab79ad7119ee1ad3ebcdb98a16805211530ecc6cfefa1b88e6dff99232a

@[reducible]
def walletCrypto : Crypto :=
  tableCrypto
    [((45, 0xec098504a817c800825208943535353535353535353535353535353535353535880de0b6b3a764000080018080),
      0xdaf5a779ae972f972197303d7b574746c7ef83eadac0f2791ad23db92e4c8e53),
     ((64, 0x4bc2a31265153f07e70e0bab08724e6b85e217f8cd628ceb62974247bb493382ce28cab79ad7119ee1ad3ebcdb98a16805211530ecc6cfefa1b88e6dff99232a),
      0x9cead80a9d0a0951cdbf966b9d8a62f656a8d1615c1294fd71e9cfb3e4855a4f),
     ((110, bytesToNat walletRaw),
      0x33469b22e9f636356c4160a87eb19df52b7412e8eac32a4a55ffe88ea8350788),
     ((112, bytesToNat paddedRaw),
      0x031aff0f531706273f909c2d17aa573aeaffb8e5ef98c829a58a71008d6a1e64),
     ((45, 0xec0a8504a817c800825208943535353535353535353535353535353535353535880de0b6b3a764000080018080),
      0x20e2fa075b4f249b2f0ebcac1edf1283dbacad7c787b347a0dd92bb260c434c7),
     ((110, 0xf86c0a8504a817c800825208943535353535353535353535353535353535353535880de0b6b3a76400008025a07a9375ad6167ad54aa74c6348cc54d344cc5dc9487d847049d5eabb0fa03c8fba041ea0453a7f2079499b2b6b2b672cfb094bce212d5679c1eb806809b0baf9c69),
      0x0b366fff2f7e6abf542aab7afe07421ebed2ccad28172dcf273fb202e5678818),
     ((33, 0x33469b22e9f636356c4160a87eb19df52b7412e8eac32a4a55ffe88ea8350788),
      0x92ed0af7712699b77ee1ad625e31269f2b4dabc335a026b0710ff4cf1d36696d),
     ((33, 0xb366fff2f7e6abf542aab7afe07421ebed2ccad28172dcf273fb202e5678818),
      0x1f7b01034f2b72c469458fa22406a26a4c85bd641f39775139745b3fc4bb9f78),
     ((65, 0x192ed0af7712699b77ee1ad625e31269f2b4dabc335a026b0710ff4cf1d36696d1f7b01034f2b72c469458fa22406a26a4c85bd641f39775139745b3fc4bb9f78),
      0xf066020baca1cfeff5e12185b2aa6bebeca6ff03f9c3b2185f55641e1d2e6c64)]
    [((bytesToNat walletSig, 0xdaf5a779ae972f972197303d7b574746c7ef83eadac0f2791ad23db92e4c8e53),
      beBytes 65 walletKey),
     ((bytesToNat nextTx.sig, 0x20e2fa075b4f249b2f0ebcac1edf1283dbacad7c787b347a0dd92bb260c434c7), beBytes 65 walletKey)]

omit [Crypto] in
theorem raw_identity_iff_wallet : (@parseEthLegacyTx walletCrypto walletRaw = some (.ok walletTx) ∧
      @parseEthLegacyTx walletCrypto paddedRaw = some (.ok walletTx)) ∧
    (walletTx.encodeEthRaw = walletRaw ∧ @Transaction.hash walletCrypto walletTx = @keccak256 walletCrypto walletRaw ↔
      isCanonicalRaw walletRaw = true) ∧
    (isCanonicalRaw walletRaw = true → isCanonicalRaw paddedRaw = true → walletTx = walletTx → walletRaw = paddedRaw) := by
  have h : @parseEthLegacyTx walletCrypto walletRaw = some (.ok walletTx) := by decide +kernel
  have h' : @parseEthLegacyTx walletCrypto paddedRaw = some (.ok walletTx) := by decide +kernel
  exact ⟨⟨h, h'⟩, @raw_identity_iff walletCrypto _ _ _ _ (by decide +kernel) (by decide +kernel) h h'⟩

omit [Crypto] in
/-- Both byte strings are accepted with one transaction, and the hash of the second is not the transaction's. -/
theorem padded_raw_accepted : @parseEthLegacyTx walletCrypto walletRaw = some (.ok walletTx) ∧
    @parseEthLegacyTx walletCrypto paddedRaw = some (.ok walletTx) ∧ walletRaw ≠ paddedRaw ∧
    walletTx.encodeEthRaw ≠ paddedRaw ∧
    @Transaction.hash walletCrypto walletTx ≠ @keccak256 walletCrypto paddedRaw := by
  decide +kernel

/-! ### Parsing inverts encoding -/

section Encoded

omit [Crypto]

theorem Rlp.beUint64_trim (x : UInt64) : (Rlp.trimLeadingZeros (Rlp.bigEndian x)).length ≤ 8 ∧
    x = Rlp.beUint64 (Rlp.trimLeadingZeros (Rlp.bigEndian x)) := by
  have hlen : (Rlp.trimLeadingZeros (Rlp.bigEndian x)).length ≤ 8 :=
    (Rlp.length_trim_le _).trans (by simp [Rlp.bigEndian])
  refine ⟨hlen, UInt64.toNat_inj.1 ?_⟩
  rw [Rlp.toNat_beUint64 hlen, Rlp.bytesToNat_bigEndian]

theorem bytesToNat_bigBytes_nonneg {x : ℤ} (h : 0 ≤ x) : (bytesToNat (bigBytes x) : ℤ) = x := by
  rw [bytesToNat_bigBytes, Int.natAbs_of_nonneg h]

theorem padLeft_bigBytes {b : Bytes} (hlen : b.length = 32) (h : bytesToNat b ≠ 0) :
    (0 < (bigBytes (bytesToNat b)).length ∧ (bigBytes (bytesToNat b)).length ≤ 32) ∧ padLeft (bigBytes (bytesToNat b)) = b := by
  have hnum : bytesToNat (bigBytes (bytesToNat b)) = bytesToNat b := by rw [bytesToNat_bigBytes, Int.natAbs_natCast]
  have hle : (bigBytes (bytesToNat b)).length ≤ 32 := by
    refine Rlp.Minimal.length_le (head?_bigBytes _) ?_
    rw [hnum, ← hlen]
    exact bytesToNat_lt b
  have hpos : 0 < (bigBytes (bytesToNat b)).length := by
    refine List.length_pos_iff.2 fun h0 => h ?_
    rw [h0] at hnum
    exact hnum.symm
  refine ⟨⟨hpos, hle⟩, bytesToNat_inj ?_ ?_⟩
  · rw [length_padLeft hle, hlen]
  · exact (Rlp.bytesToNat_zeros _ _).trans hnum

theorem splitV_encoded {c recid : UInt64} (hc : c.toNat < 2 ^ 63 - 18) (hrecid : recid = 0 ∨ recid = 1) :
    splitV (c * 2 + 35 + recid) = .ok (c, recid) := by
  have hr : recid.toNat ≤ 1 := by rcases hrecid with rfl | rfl <;> decide
  have hv : (c * 2 + 35 + recid).toNat = c.toNat * 2 + 35 + recid.toNat := by
    rw [UInt64.toNat_add, UInt64.toNat_add, UInt64.toNat_mul]
    show ((c.toNat * 2 % 2 ^ 64 + 35) % 2 ^ 64 + recid.toNat) % 2 ^ 64 = _
    omega
  generalize c * 2 + 35 + recid = vv at hv ⊢
  have h35 : (35 : UInt64) ≤ vv := UInt64.le_iff_toNat_le.2 (by rw [hv]; show 35 ≤ _; omega)
  have hne : ∀ {m : UInt64}, m.toNat < 35 → vv ≠ m := by
    rintro m hm rfl
    omega
  have hx : (vv - 35).toNat = c.toNat * 2 + recid.toNat := by
    rw [UInt64.toNat_sub_of_le _ _ h35, hv]
    show c.toNat * 2 + 35 + recid.toNat - 35 = _
    omega
  have hand : (vv - 35) &&& 1 = recid := by
    refine UInt64.toNat_inj.1 ?_
    rw [UInt64.toNat_and, hx, show (1 : UInt64).toNat = 1 from rfl, Nat.and_one_is_mod]
    omega
  have hdiv : (vv - 35 - recid) / 2 = c := by
    refine UInt64.toNat_inj.1 ?_
    rw [UInt64.toNat_div, UInt64.toNat_sub_of_le _ _ (UInt64.le_iff_toNat_le.2 (by omega)), hx]
    show (c.toNat * 2 + recid.toNat - recid.toNat) / 2 = _
    omega
  unfold splitV
  rw [if_neg (not_or.2 ⟨hne (by decide), hne (by decide)⟩), if_pos h35, hand, hdiv]

end Encoded

/-- **Parsing inverts encoding** for transactions that a wallet can sign; the encoding has a length in an `int`. -/
theorem parse_encode {tx : Transaction} {gasPrice value : ℤ} {a : Address} (htype : tx.txType = txTypeEthLegacy)
    (hprice : tx.gasPrice = some gasPrice) (hprice0 : 0 ≤ gasPrice) (hvalue : tx.value = some value) (hvalue0 : 0 ≤ value)
    (hchain : tx.chainID.toNat < 2 ^ 63 - 18) (hsig : tx.sig.length = 65) (hheader : tx.sig.headD 0 = 27 ∨ tx.sig.headD 0 = 28)
    (hr : sigR tx.sig ≠ 0) (hs : sigS tx.sig ≠ 0) (hsender : tx.sender = .ok a) (hlen : tx.encodeEthRaw.length < 2 ^ 63) :
    parseEthLegacyTx tx.encodeEthRaw = some (.ok tx) := by
  have hfields := encodeEthRaw_eq hsig hprice hvalue
  have hdecode : Rlp.decodeList tx.encodeEthRaw = some (.ok (tx.rawFields gasPrice value)) := by
    rw [hfields] at hlen ⊢
    exact Rlp.decodeList_list _ hlen
  unfold parseEthLegacyTx
  rw [hdecode]
  refine congrArg some (parseFields_ok.2 ⟨_, _, _, _, _, _, _, _, _, rfl, ?_⟩)
  obtain ⟨hrlen, hrpad⟩ := padLeft_bigBytes (b := (tx.sig.drop 1).take 32) (by simp [hsig]) hr
  obtain ⟨hslen, hspad⟩ := padLeft_bigBytes (b := (tx.sig.drop 33).take 32) (by simp [hsig]) hs
  refine ⟨htype, Rlp.beUint64_trim _, ?_, Rlp.beUint64_trim _, parseTo_addrBytes _, ?_, rfl, hrlen, hslen,
    ⟨(tx.sig.headD 0 - 27).toUInt64, ?_, ?_⟩, ⟨a, hsender⟩⟩
  · rw [bytesToNat_bigBytes_nonneg hprice0, hprice]
  · rw [bytesToNat_bigBytes_nonneg hvalue0, hvalue]
  · rw [Rlp.bytesToNat_bigEndian, UInt64.ofNat_toNat]
    exact splitV_encoded hchain (by rcases hheader with h | h <;> rw [h] <;> decide)
  · have hhead : (27 + (tx.sig.headD 0 - 27).toUInt64).toUInt8 = tx.sig.headD 0 := by
      rcases hheader with h | h <;> rw [h] <;> decide
    rw [hhead, hrpad, hspad]
    exact signature_split hsig

omit [Crypto] in
theorem parse_encode_wallet : @Transaction.sender walletCrypto walletTx = .ok 0x9d8a62f656a8d1615c1294fd71e9cfb3e4855a4f ∧
    @parseEthLegacyTx walletCrypto walletTx.encodeEthRaw = some (.ok walletTx) := by
  have hsender : @Transaction.sender walletCrypto walletTx = .ok 0x9d8a62f656a8d1615c1294fd71e9cfb3e4855a4f := by
    decide +kernel
  refine ⟨hsender, @parse_encode walletCrypto walletTx 20000000000 1000000000000000000 _ rfl rfl (by decide) rfl (by decide)
    (by decide) (by decide +kernel) (.inl (by decide +kernel)) ?_ ?_ hsender ?_⟩ <;> decide +kernel

end Lxs
