import Lxs.Common.Bytes
import Lxs.Types.Tx

/-!
# Signature malleability

`Recover` takes the low half of the two values of `s`, so of the signatures that share `r` and `s` up to sign only the
header byte can differ. Its recovery id is fixed by the key; the flag for a compressed key, which the library reads off
the same byte and `Recover` drops, is not.

* `signature_unique_iff` — **two accepted signatures of one key with one `r` are the same exactly when their flags are**;
* `signature_malleable` — a signed transfer and its twin with the flag set.
-/

namespace Lxs

/-! ### Recovery on the curve -/

def groupOrder : ℕ := 0xFFFFFFFFFFFFFFFFFFFFFFFFFFFFFFFEBAAEDCE6AF48A03BBFD25E8CD0364141

/-- The points of a curve whose group has the prime order `groupOrder`: the base point, the point with a given `x` and
parity of `y`, and the uncompressed bytes of a point. -/
structure Curve (P : Type) [AddCommGroup P] where
  base : P
  lift : ℕ → Bool → Option P
  encode : P → Bytes
  lift_inj : ∀ {x x' : ℕ} {odd odd' : Bool} {R : P}, lift x odd = some R → lift x' odd' = some R → x = x' ∧ odd = odd'
  encode_inj : ∀ {Q Q' : P}, encode Q = encode Q' → Q = Q'
  cancel : ∀ {s : ℕ} {A B : P}, 0 < s → s < groupOrder → s • A = s • B → A = B

/-- The header byte over its offset: recovery id in the two low bits, then the flag for a compressed key. -/
def sigCode (sig : Bytes) : ℕ := (sig.headD 0).toNat - 27
def sigR (sig : Bytes) : ℕ := bytesToNat ((sig.drop 1).take 32)
def sigS (sig : Bytes) : ℕ := bytesToNat ((sig.drop 33).take 32)

def isCompressed (sig : Bytes) : Bool := 4 ≤ sigCode sig

/-- What `RecoverCompact` of the library answers: the header byte is between 27 and 34, `r` and `s` are scalars of the
group, and the key `Q` solves `r • Q + digest • base = s • R` for the point `R` the signature names. -/
structure Recovers {P : Type} [AddCommGroup P] (curve : Curve P) (sig : Bytes) (digest : Hash) (raw : Bytes) :
    Prop where
  header : 27 ≤ (sig.headD 0).toNat ∧ (sig.headD 0).toNat ≤ 34
  r_pos : 0 < sigR sig
  r_lt : sigR sig < groupOrder
  s_pos : 0 < sigS sig
  s_lt : sigS sig < groupOrder
  key : ∃ R Q, curve.lift (sigR sig + groupOrder * (sigCode sig / 2 % 2)) (sigCode sig % 2 = 1) = some R ∧
    raw = curve.encode Q ∧ sigR sig • Q + digest.toNat • curve.base = sigS sig • R

/-! ### Two signatures -/

theorem checkLowS_ok {sig : Bytes} (h : checkLowS sig = .ok ()) : sig.length = 65 ∧ sigS sig ≤ halfOrder := by
  rw [checkLowS] at h
  split at h
  case isTrue => cases h
  case isFalse hlen =>
    split at h
    case isTrue => cases h
    case isFalse hs => exact ⟨not_not.1 hlen, not_lt.1 hs⟩

theorem signature_split {sig : Bytes} (hlen : sig.length = 65) :
    sig = sig.headD 0 :: ((sig.drop 1).take 32 ++ (sig.drop 33).take 32) := by
  cases sig with
  | nil => cases hlen
  | cons c b =>
    have hb : b.length = 64 := by simpa using hlen
    have htake : (b.drop 32).take 32 = b.drop 32 := List.take_of_length_le (by simp [hb])
    simp [htake]

theorem signature_ext {sig sig' : Bytes} (hlen : sig.length = 65) (hlen' : sig'.length = 65)
    (hhead : sig.headD 0 = sig'.headD 0) (hr : sigR sig = sigR sig') (hs : sigS sig = sigS sig') : sig = sig' := by
  have hr' : (sig.drop 1).take 32 = (sig'.drop 1).take 32 := bytesToNat_inj (by simp [hlen, hlen']) hr
  have hs' : (sig.drop 33).take 32 = (sig'.drop 33).take 32 := bytesToNat_inj (by simp [hlen, hlen']) hs
  rw [signature_split hlen, signature_split hlen', hhead, hr', hs']

theorem low_unique {s s' : ℕ} (hs : 0 < s) (hs' : 0 < s') (hlow : s ≤ halfOrder) (hlow' : s' ≤ halfOrder)
    (h : s % groupOrder = s' % groupOrder ∨ (s + s') % groupOrder = 0) : s = s' := by
  have horder : 2 * halfOrder < groupOrder := by decide
  rcases h with h | h
  · rwa [Nat.mod_eq_of_lt (by omega), Nat.mod_eq_of_lt (by omega)] at h
  · rw [Nat.mod_eq_of_lt (by omega)] at h
    omega

theorem Recovers.id_unique {P : Type} [AddCommGroup P] {curve : Curve P} {sig sig' : Bytes} {digest : Hash} {raw : Bytes}
    (h : Recovers curve sig digest raw) (h' : Recovers curve sig' digest raw) (hr : sigR sig = sigR sig')
    (hs : sigS sig = sigS sig') : sigCode sig % 4 = sigCode sig' % 4 := by
  obtain ⟨R, Q, hlift, hraw, hkey⟩ := h.key
  obtain ⟨R', Q', hlift', hraw', hkey'⟩ := h'.key
  have hQ : Q = Q' := curve.encode_inj (hraw.symm.trans hraw')
  have hR : R = R' := by
    refine curve.cancel h.s_pos h.s_lt ?_
    calc sigS sig • R = sigR sig • Q + digest.toNat • curve.base := hkey.symm
      _ = sigR sig' • Q' + digest.toNat • curve.base := by rw [hr, hQ]
      _ = sigS sig' • R' := hkey'
      _ = sigS sig • R' := by rw [hs]
  subst hR
  obtain ⟨hx, hodd⟩ := curve.lift_inj hlift hlift'
  rw [hr] at hx
  have hover : sigCode sig / 2 % 2 = sigCode sig' / 2 % 2 :=
    Nat.eq_of_mul_eq_mul_left (by decide : 0 < groupOrder) (Nat.add_left_cancel hx)
  have hodd : sigCode sig % 2 = 1 ↔ sigCode sig' % 2 = 1 := by simpa using hodd
  omega

section Recover

variable [Crypto]

theorem recover_ok {digest : Hash} {sig raw : Bytes} (h : recover digest sig = .ok raw) :
    checkLowS sig = .ok () ∧ Crypto.recoverCompact sig digest = some raw := by
  rw [recover] at h
  cases hc : checkLowS sig with
  | error e =>
    rw [hc] at h
    cases h
  | ok u =>
    have hlen := (checkLowS_ok hc).1
    cases hraw : Crypto.recoverCompact sig digest with
    | none => simp [hc, hlen, hraw, signatureLength, bind, Except.bind] at h
    | some raw' =>
      simp only [hc, hlen, hraw, signatureLength, bind, Except.bind] at h
      cases h
      exact ⟨rfl, rfl⟩

theorem recoverAddress_ok {digest : Hash} {sig : Bytes} {a : Address} (h : recoverAddress digest sig = .ok a) :
    ∃ raw, recover digest sig = .ok raw ∧ a = hashToAddress (keccak256 (raw.drop 1)) := by
  rw [recoverAddress] at h
  cases hraw : recover digest sig with
  | error e =>
    rw [hraw] at h
    cases h
  | ok raw =>
    rw [hraw] at h
    cases h
    exact ⟨raw, rfl, rfl⟩

/-- **Signatures up to the flag.** Two signatures that `recover` accepts for one address over one digest, with one `r`
and `s` up to sign, are one signature, and their transactions have one hash, exactly when their flags agree. -/
theorem signature_unique_iff {P : Type} [AddCommGroup P] (curve : Curve P)
    (hlib : ∀ sig digest raw, sig.length = 65 → Crypto.recoverCompact sig digest = some raw →
      Recovers curve sig digest raw)
    {digest : Hash} {sig sig' : Bytes} {a : Address} (h : recoverAddress digest sig = .ok a)
    (h' : recoverAddress digest sig' = .ok a)
    (haddr : ∀ raw raw', recover digest sig = .ok raw → recover digest sig' = .ok raw' →
      hashToAddress (keccak256 (raw.drop 1)) = hashToAddress (keccak256 (raw'.drop 1)) → raw = raw')
    (hr : sigR sig = sigR sig')
    (hs : sigS sig % groupOrder = sigS sig' % groupOrder ∨ (sigS sig + sigS sig') % groupOrder = 0) :
    (sig = sig' ∧ ∀ tx : Transaction, tx.sig = sig → { tx with sig := sig' }.hash = tx.hash) ↔
      isCompressed sig = isCompressed sig' := by
  constructor
  · rintro ⟨rfl, -⟩
    rfl
  · intro hflag
    obtain ⟨raw, hraw, ha⟩ := recoverAddress_ok h
    obtain ⟨raw', hraw', ha'⟩ := recoverAddress_ok h'
    have heq : raw = raw' := haddr raw raw' hraw hraw' (ha.symm.trans ha')
    subst heq
    obtain ⟨hlow, hrec⟩ := recover_ok hraw
    obtain ⟨hlow', hrec'⟩ := recover_ok hraw'
    obtain ⟨hlen, hhalf⟩ := checkLowS_ok hlow
    obtain ⟨hlen', hhalf'⟩ := checkLowS_ok hlow'
    have hk := hlib sig digest raw hlen hrec
    have hk' := hlib sig' digest raw hlen' hrec'
    have hs := low_unique hk.s_pos hk'.s_pos hhalf hhalf' hs
    have hid := hk.id_unique hk' hr hs
    have hhead : sig.headD 0 = sig'.headD 0 := by
      have h4 : 4 ≤ sigCode sig ↔ 4 ≤ sigCode sig' := by simpa [isCompressed] using hflag
      have hh := hk.header
      have hh' := hk'.header
      rw [sigCode, sigCode] at hid h4
      exact UInt8.toNat_inj.1 (by omega)
    have hsig := signature_ext hlen hlen' hhead hr hs
    refine ⟨hsig, fun tx htx => ?_⟩
    rw [← hsig, ← htx]

end Recover

/-! A transfer signed with the key 1 and the nonce 1, and its twin with the flag set. The points the signature touches
are the base point and its negative, so the integers serve as the group. -/

def transferDigest : Hash := 0x47536983cf1ba886869918e1b2cb62d95b0672f3e5012b8edc89612c011f251

def plainSig : Bytes :=
  beBytes 65 0x1b79be667ef9dcbbac55a06295ce870b07029bfcdb2dce28d959f2815b16f817987e339d1736ce7634be09f423e9b3c134984c640a6c1e3b9247bb176dd70a09e9

def flaggedSig : Bytes :=
  beBytes 65 0x1f79be667ef9dcbbac55a06295ce870b07029bfcdb2dce28d959f2815b16f817987e339d1736ce7634be09f423e9b3c134984c640a6c1e3b9247bb176dd70a09e9

def basePointX : ℕ := 0x79be667ef9dcbbac55a06295ce870b07029bfcdb2dce28d959f2815b16f81798
def basePointY : ℕ := 0x483ada7726a3c4655da4fbfc0e1108a8fd17b448a68554199c47d08ffb10d4b8
def basePointBytes : Bytes := 4 :: (beBytes 32 basePointX ++ beBytes 32 basePointY)

@[reducible]
def twinCrypto : Crypto :=
  { tableCrypto
      [((79, 0x1000000000000000001000000000000000000000000000000000000beef00000000000000014600000000000052080000000000000001010000000000000000),
        transferDigest),
       senderDigest,
       digestRow 105 (hashBytes transferDigest ++ encBytes plainSig)
        0x8b56d6313d91b7694ff11245043cc3bcf26eb3621aa8d60da2ecadac3a59c790,
       digestRow 105 (hashBytes transferDigest ++ encBytes flaggedSig)
        0xd03832fed2c7f132088b7c4a60fa7c5193d10ab0da806f5d6fdba0deee69b39b] [] with
    recoverCompact := fun sig digest =>
      if digest = transferDigest ∧ (sig = plainSig ∨ sig = flaggedSig) then some basePointBytes else none }

def twinCurve : Curve ℤ where
  base := 1
  lift x odd := if x = basePointX then some (if odd then -1 else 1) else none
  encode Q := if Q = 1 then basePointBytes else List.replicate (Equiv.intEquivNat Q) 0
  lift_inj := by
    intro x x' odd odd' R h h'
    split at h <;> split at h'
    case isTrue.isTrue hx hx' =>
      refine ⟨hx.trans hx'.symm, ?_⟩
      have heq := Option.some.inj (h.trans h'.symm)
      cases odd <;> cases odd' <;> first | rfl | (norm_num at heq)
    all_goals simp at h h'
  encode_inj := by
    have hmem : ∀ n, basePointBytes ≠ List.replicate n 0 := by
      intro n hn
      have : (4 : UInt8) ∈ List.replicate n 0 := hn ▸ List.mem_cons_self
      simp at this
    intro Q Q' h
    split at h <;> split at h
    case isTrue.isTrue hQ hQ' => exact hQ.trans hQ'.symm
    case isTrue.isFalse => exact absurd h (hmem _)
    case isFalse.isTrue => exact absurd h.symm (hmem _)
    case isFalse.isFalse => exact Equiv.intEquivNat.injective (by simpa using congrArg List.length h)
  cancel := by
    intro s A B hs _ h
    rw [nsmul_eq_mul, nsmul_eq_mul] at h
    exact mul_left_cancel₀ (by exact_mod_cast hs.ne') h

def plainTx : Transaction := ⟨0, 1, 0, some 0xbeef, some 70, 21000, some 1, [], plainSig⟩

theorem signature_unique_iff_twin :
    ((plainSig = flaggedSig ∧ ∀ tx : Transaction, tx.sig = plainSig →
        @Transaction.hash twinCrypto { tx with sig := flaggedSig } = @Transaction.hash twinCrypto tx) ↔
      isCompressed plainSig = isCompressed flaggedSig) := by
  refine @signature_unique_iff twinCrypto ℤ _ twinCurve ?_ transferDigest plainSig flaggedSig
    senderAddr (by decide +kernel) (by decide +kernel) ?_ (by decide +kernel) (by decide +kernel)
  · intro sig digest raw _ hraw
    rw [show @Crypto.recoverCompact twinCrypto sig digest =
      if digest = transferDigest ∧ (sig = plainSig ∨ sig = flaggedSig) then some basePointBytes else none from rfl] at hraw
    split at hraw
    case isFalse => cases hraw
    case isTrue h =>
      obtain ⟨rfl, hsig⟩ := h
      cases hraw
      have hfacts : ∀ b, b = plainSig ∨ b = flaggedSig → (27 ≤ (b.headD 0).toNat ∧ (b.headD 0).toNat ≤ 34) ∧
          0 < sigR b ∧ sigR b < groupOrder ∧ 0 < sigS b ∧ sigS b < groupOrder ∧
          sigR b + groupOrder * (sigCode b / 2 % 2) = basePointX ∧ sigCode b % 2 ≠ 1 ∧
          (sigR b : ℤ) + transferDigest.toNat = sigS b := by
        rintro b (rfl | rfl) <;> decide +kernel
      obtain ⟨hhead, hr, hr', hs, hs', hx, hodd, hsum⟩ := hfacts sig hsig
      refine ⟨hhead, hr, hr', hs, hs', 1, 1, ?_, rfl, ?_⟩
      · simp [twinCurve, hx, hodd]
      · simpa [twinCurve] using hsum
  · intro raw raw' hraw hraw' _
    have hplain : @recover twinCrypto transferDigest plainSig = .ok basePointBytes := by decide +kernel
    have hflagged : @recover twinCrypto transferDigest flaggedSig = .ok basePointBytes := by decide +kernel
    rw [hplain] at hraw
    rw [hflagged] at hraw'
    cases hraw
    cases hraw'
    rfl

/-- Both signatures are accepted, with one sender and one `r` and `s`, and the two transactions have two hashes. -/
theorem signature_malleable :
    @recoverAddress twinCrypto transferDigest plainSig = .ok senderAddr ∧
      @recoverAddress twinCrypto transferDigest flaggedSig = .ok senderAddr ∧
      sigR plainSig = sigR flaggedSig ∧ sigS plainSig = sigS flaggedSig ∧ plainSig ≠ flaggedSig ∧
      @Transaction.sanityCheck twinCrypto plainTx 1 = .ok () ∧
      @Transaction.sanityCheck twinCrypto { plainTx with sig := flaggedSig } 1 = .ok () ∧
      @Transaction.sender twinCrypto plainTx = @Transaction.sender twinCrypto { plainTx with sig := flaggedSig } ∧
      @Transaction.hash twinCrypto plainTx ≠ @Transaction.hash twinCrypto { plainTx with sig := flaggedSig } := by
  decide +kernel

end Lxs
