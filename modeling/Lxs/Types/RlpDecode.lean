import Lxs.Common.Bytes
import Lxs.Types.Rlp

/-!
# Decoding flat lists

The decoder of package `rlp` on untrusted bytes. A step returns `none` where it would slice or index outside its input, or
where the loop over the items would not end; `Except` is what the source returns.

* `flat_list_one_encoding`: **flat lists have one encoding**: the decoder inverts the encoder, accepts nothing else, and never
  reads outside its input.
-/

namespace Lxs

namespace Rlp

/-! ### The decoder -/

inductive DecodeError
  | shortInput | leadingZero | trailing | nested | expectList | canon
  deriving DecidableEq

def goInt (n : ℤ) : ℤ := n.bmod (2 ^ 64)

def slice (data : Bytes) (lo hi : ℤ) : Option Bytes :=
  if 0 ≤ lo ∧ lo ≤ hi ∧ hi ≤ data.length then some ((data.drop lo.toNat).take (hi - lo).toNat) else none

/-- The loop `n = n<<8 | uint64(c)`. -/
def beUint64 (b : Bytes) : UInt64 := b.foldl (fun n c => n <<< 8 ||| c.toUInt64) 0

/-- The big-endian length of `nLen` bytes that begins at `data[1]`. -/
def readLen (data : Bytes) (nLen : ℤ) : Option (Except DecodeError ℤ) :=
  if data.length < 1 + nLen then some (.error .shortInput)
  else
    match slice data 1 (1 + nLen) with
    | none => none
    | some lb =>
      match lb[0]? with
      | none => none
      | some c =>
        if c = 0 then some (.error .leadingZero)
        else
          let n := beUint64 lb
          if n < 56 then some (.error .canon)
          else if n > UInt64.ofNat (data.length - (1 + nLen)).toNat then some (.error .shortInput)
          else some (.ok (goInt n.toNat))

/-- What `readItem` returns: the content, whether it is a list, and the bytes after it. -/
structure Item where
  content : Bytes
  isList : Bool
  rest : Bytes
  deriving DecidableEq

def itemAt (data : Bytes) (start n : ℤ) (isList : Bool) : Option (Except DecodeError Item) :=
  if data.length < goInt (start + n) then some (.error .shortInput)
  else
    match slice data start (goInt (start + n)), slice data (goInt (start + n)) data.length with
    | some content, some rest => some (.ok ⟨content, isList, rest⟩)
    | _, _ => none

def longItem (data : Bytes) (nLen : ℤ) (isList : Bool) : Option (Except DecodeError Item) :=
  match readLen data nLen with
  | none => none
  | some (.error e) => some (.error e)
  | some (.ok n) => itemAt data (1 + nLen) n isList

/-- A single byte below 0x80 is its own encoding. -/
def checkSingle (n : ℤ) (item : Item) : Option (Except DecodeError Item) :=
  if n = 1 then
    match item.content[0]? with
    | none => none
    | some c => if c < 0x80 then some (.error .canon) else some (.ok item)
  else some (.ok item)

def readItem (data : Bytes) : Option (Except DecodeError Item) :=
  match data with
  | [] => some (.error .shortInput)
  | b :: _ =>
    if b < 0x80 then itemAt data 0 1 false
    else if b < 0xb8 then
      match itemAt data 1 (b - 0x80).toNat false with
      | some (.ok item) => checkSingle (b - 0x80).toNat item
      | r => r
    else if b < 0xc0 then longItem data (b - 0xb7).toNat false
    else if b < 0xf8 then itemAt data 1 (b - 0xc0).toNat true
    else longItem data (b - 0xf7).toNat true

def decodeItems : ℕ → Bytes → Option (Except DecodeError (List Bytes))
  | _, [] => some (.ok [])
  | 0, _ => none
  | n + 1, payload =>
    match readItem payload with
    | none => none
    | some (.error e) => some (.error e)
    | some (.ok item) =>
      if item.isList then some (.error .nested)
      else
        match decodeItems n item.rest with
        | some (.ok out) => some (.ok (item.content :: out))
        | r => r

/-- A top-level list of byte strings; every item has a byte of its own, so the loop ends. -/
def decodeList (data : Bytes) : Option (Except DecodeError (List Bytes)) :=
  match readItem data with
  | none => none
  | some (.error e) => some (.error e)
  | some (.ok item) =>
    if !item.isList then some (.error .expectList)
    else if item.rest.length ≠ 0 then some (.error .trailing)
    else decodeItems item.content.length item.content

/-! ### Numbers without leading zeros -/

/-- No leading zero. -/
def Minimal (b : Bytes) : Prop := b.head? ≠ some 0

instance (b : Bytes) : Decidable (Minimal b) := inferInstanceAs (Decidable (b.head? ≠ some 0))

theorem bytesToNat_zeros (n : ℕ) (b : Bytes) : bytesToNat (List.replicate n 0 ++ b) = bytesToNat b := by
  induction n with
  | zero => rfl
  | succ n ih =>
    rw [List.replicate_succ, List.cons_append, bytesToNat_cons, ih]
    simp

theorem trimLeadingZeros_split (b : Bytes) :
    ∃ n, b = List.replicate n 0 ++ trimLeadingZeros b ∧ Minimal (trimLeadingZeros b) := by
  induction b with
  | nil => exact ⟨0, rfl, by simp [Minimal, trimLeadingZeros]⟩
  | cons c b ih =>
    by_cases hc : c = 0
    · obtain ⟨n, hn, hmin⟩ := ih
      have htrim : trimLeadingZeros (c :: b) = trimLeadingZeros b := by simp [trimLeadingZeros, hc]
      refine ⟨n + 1, ?_, htrim ▸ hmin⟩
      rw [htrim, List.replicate_succ, List.cons_append, ← hn, hc]
    · have htrim : trimLeadingZeros (c :: b) = c :: b := by simp [trimLeadingZeros, hc]
      exact ⟨0, by rw [htrim]; rfl, by simp [htrim, Minimal, hc]⟩

theorem minimal_trim (b : Bytes) : Minimal (trimLeadingZeros b) := by
  obtain ⟨-, -, h⟩ := trimLeadingZeros_split b
  exact h

theorem bytesToNat_trim (b : Bytes) : bytesToNat (trimLeadingZeros b) = bytesToNat b := by
  obtain ⟨n, hn, -⟩ := trimLeadingZeros_split b
  rw [← bytesToNat_zeros n, ← hn]

theorem length_trim_le (b : Bytes) : (trimLeadingZeros b).length ≤ b.length :=
  (List.dropWhile_sublist _).length_le

variable {b : Bytes}

theorem pow_le_bytesToNat {c : UInt8} (h : Minimal (c :: b)) : 256 ^ b.length ≤ bytesToNat (c :: b) := by
  have hc : c.toNat ≠ 0 := by
    intro h0
    exact h (by rw [List.head?_cons, UInt8.toNat_inj.1 (h0.trans rfl : c.toNat = (0 : UInt8).toNat)])
  rw [bytesToNat_cons]
  calc 256 ^ b.length ≤ c.toNat * 256 ^ b.length := Nat.le_mul_of_pos_left _ (Nat.pos_of_ne_zero hc)
    _ ≤ c.toNat * 256 ^ b.length + bytesToNat b := Nat.le_add_right ..

theorem Minimal.eq {a b : Bytes} (ha : Minimal a) (hb : Minimal b) (h : bytesToNat a = bytesToNat b) : a = b := by
  have hle : ∀ {a b : Bytes}, Minimal a → bytesToNat a = bytesToNat b → a.length ≤ b.length := by
    intro a b ha h
    cases a with
    | nil => exact Nat.zero_le _
    | cons c a =>
      have hlow := pow_le_bytesToNat ha
      have hhigh := bytesToNat_lt b
      rw [← h] at hhigh
      exact (Nat.pow_lt_pow_iff_right (by decide)).1 (hlow.trans_lt hhigh)
  exact bytesToNat_inj (le_antisymm (hle ha h) (hle hb h.symm)) h

theorem Minimal.length_le {w : ℕ} (hb : Minimal b) (h : bytesToNat b < 256 ^ w) : b.length ≤ w := by
  cases b with
  | nil => exact Nat.zero_le _
  | cons c b => exact (Nat.pow_lt_pow_iff_right (by decide)).1 ((pow_le_bytesToNat hb).trans_lt h)

theorem bytesToNat_bigEndian (x : UInt64) : bytesToNat (trimLeadingZeros (bigEndian x)) = x.toNat := by
  rw [bytesToNat_trim, bigEndian, bytesToNat_beBytes, show 256 ^ 8 = 2 ^ 64 by norm_num, Nat.mod_eq_of_lt x.toNat_lt]

theorem toNat_beUint64 (h : b.length ≤ 8) : (beUint64 b).toNat = bytesToNat b := by
  induction b using List.reverseRecOn with
  | nil => rfl
  | append_singleton b c ih =>
    rw [List.length_append, List.length_singleton] at h
    have hsmall : bytesToNat b < 2 ^ 56 := calc
      bytesToNat b < 256 ^ b.length := bytesToNat_lt b
      _ ≤ 256 ^ 7 := Nat.pow_le_pow_right (by decide) (by omega)
    have hstep : beUint64 (b ++ [c]) = beUint64 b <<< 8 ||| c.toUInt64 := by
      rw [beUint64, List.foldl_append]
      rfl
    have hc := c.toNat_lt
    rw [hstep, UInt64.toNat_or, UInt64.toNat_shiftLeft, ih (by omega), bytesToNat_append, List.length_singleton, pow_one,
      UInt8.toNat_toUInt64, show (8 : UInt64).toNat % 64 = 8 from rfl, Nat.shiftLeft_eq, Nat.mod_eq_of_lt (by omega),
      show bytesToNat [c] = c.toNat by simp [bytesToNat], Nat.mul_comm]
    exact (Nat.two_pow_add_eq_or_of_lt (i := 8) (by omega) _).symm

/-! ### Reading one item -/

variable {n : ℕ}

theorem goInt_natCast (h : n < 2 ^ 63) : goInt n = n := by
  unfold goInt
  exact Int.bmod_eq_of_le (by omega) (by omega)

theorem slice_append (pre tail : Bytes) (h : n ≤ tail.length) :
    slice (pre ++ tail) pre.length ((pre.length + n : ℕ) : ℤ) = some (tail.take n) := by
  have hn : ((pre.length + n : ℕ) - (pre.length : ℤ)).toNat = n := by omega
  unfold slice
  rw [if_pos (by simp; omega), Int.toNat_natCast, List.drop_left, hn]

theorem itemAt_eq (pre tail : Bytes) (n : ℕ) (isList : Bool) (h : pre.length + n < 2 ^ 63) :
    itemAt (pre ++ tail) pre.length n isList =
      if tail.length < n then some (.error .shortInput) else some (.ok ⟨tail.take n, isList, tail.drop n⟩) := by
  have hsum : goInt ((pre.length : ℤ) + n) = ((pre.length + n : ℕ) : ℤ) := by
    rw [← Nat.cast_add, goInt_natCast h]
  unfold itemAt
  rw [hsum]
  split_ifs with hlong hshort hshort
  · rfl
  · rw [List.length_append] at hlong
    omega
  · rw [List.length_append] at hlong
    omega
  · have hn : n ≤ tail.length := not_lt.1 hshort
    have hrest := slice_append (pre ++ tail.take n) (tail.drop n) (le_refl _)
    rw [List.append_assoc, List.take_append_drop, List.take_length, List.length_append, List.length_take_of_le hn,
      List.length_drop, show pre.length + n + (tail.length - n) = (pre ++ tail).length by simp; omega] at hrest
    rw [slice_append pre tail hn, hrest]

theorem itemAt_one (b : UInt8) (tail : Bytes) (isList : Bool) (h : n < 2 ^ 62) : itemAt (b :: tail) 1 n isList =
    if tail.length < n then some (.error .shortInput) else some (.ok ⟨tail.take n, isList, tail.drop n⟩) :=
  itemAt_eq [b] tail n isList (by rw [List.length_singleton]; omega)

theorem readLen_eq (b : UInt8) (lb tail : Bytes) (hpos : 0 < lb.length) (h8 : lb.length ≤ 8)
    (hlen : (b :: (lb ++ tail)).length < 2 ^ 63) :
    readLen (b :: (lb ++ tail)) lb.length =
      if Minimal lb then
        if bytesToNat lb < 56 then some (.error .canon)
        else if tail.length < bytesToNat lb then some (.error .shortInput)
        else some (.ok (bytesToNat lb))
      else some (.error .leadingZero) := by
  have hslice := slice_append [b] (lb ++ tail) (n := lb.length) (by simp)
  rw [List.take_left, List.singleton_append] at hslice
  rw [List.length_cons, List.length_append] at hlen
  cases lb with
  | nil => cases hpos
  | cons c lb =>
    have hn := toNat_beUint64 h8
    have hroom : (((b :: (c :: lb ++ tail)).length : ℤ) - (1 + ((c :: lb).length : ℤ))).toNat = tail.length := by
      simp only [List.length_cons, List.length_append]
      omega
    unfold readLen
    rw [if_neg (by simp only [List.length_cons, List.length_append]; omega)]
    have hsum : (1 + ((c :: lb).length : ℤ)) = (([b].length + (c :: lb).length : ℕ) : ℤ) := by simp
    rw [hroom, hsum, show (1 : ℤ) = (([b] : Bytes).length : ℤ) from rfl, hslice]
    have hmin : c = 0 ↔ ¬Minimal (c :: lb) := by simp [Minimal]
    have hsmall : beUint64 (c :: lb) < 56 ↔ bytesToNat (c :: lb) < 56 := by rw [UInt64.lt_iff_toNat_lt, hn]; rfl
    have hover : beUint64 (c :: lb) > UInt64.ofNat tail.length ↔ tail.length < bytesToNat (c :: lb) := by
      rw [gt_iff_lt, UInt64.lt_iff_toNat_lt, hn, UInt64.toNat_ofNat_of_lt' (by simp only [UInt64.size]; omega)]
    simp only [List.getElem?_cons_zero, hmin, hsmall, hover, ite_not]
    split_ifs with h0 h1 h2
    · rfl
    · rfl
    · rw [hn, goInt_natCast (by omega)]
    · rfl

theorem longItem_eq (b : UInt8) (lb tail : Bytes) (isList : Bool) (hpos : 0 < lb.length) (h8 : lb.length ≤ 8)
    (hlen : (b :: (lb ++ tail)).length < 2 ^ 63) :
    longItem (b :: (lb ++ tail)) lb.length isList =
      if Minimal lb then
        if bytesToNat lb < 56 then some (.error .canon)
        else if tail.length < bytesToNat lb then some (.error .shortInput)
        else some (.ok ⟨tail.take (bytesToNat lb), isList, tail.drop (bytesToNat lb)⟩)
      else some (.error .leadingZero) := by
  unfold longItem
  rw [readLen_eq b lb tail hpos h8 hlen]
  rw [List.length_cons, List.length_append] at hlen
  split_ifs with h0 h1 h2
  · rfl
  · rfl
  · have hitem := itemAt_eq (b :: lb) tail (bytesToNat lb) isList (by rw [List.length_cons]; omega)
    rw [if_neg h2, List.length_cons, List.cons_append] at hitem
    dsimp only
    rw [show (1 + (lb.length : ℤ)) = ((lb.length + 1 : ℕ) : ℤ) by push_cast; ring, hitem]
  · rfl

theorem longItem_short {data : Bytes} {nLen : ℕ} (isList : Bool) (h : data.length < 1 + nLen) :
    longItem data nLen isList = some (.error .shortInput) := by
  unfold longItem readLen
  rw [if_pos (by omega)]

theorem readItem_cons (b : UInt8) (tail : Bytes) : readItem (b :: tail) =
    if b.toNat < 128 then itemAt (b :: tail) 0 1 false
    else if b.toNat < 184 then
      match itemAt (b :: tail) 1 ((b.toNat - 128 : ℕ) : ℤ) false with
      | some (.ok item) => checkSingle ((b.toNat - 128 : ℕ) : ℤ) item
      | r => r
    else if b.toNat < 192 then longItem (b :: tail) ((b.toNat - 183 : ℕ) : ℤ) false
    else if b.toNat < 248 then itemAt (b :: tail) 1 ((b.toNat - 192 : ℕ) : ℤ) true
    else longItem (b :: tail) ((b.toNat - 247 : ℕ) : ℤ) true := by
  have hsub : ∀ {c : UInt8} {k : ℕ}, c.toNat = k → k ≤ b.toNat → (b - c).toNat = b.toNat - k := by
    rintro c k rfl h
    exact UInt8.toNat_sub_of_le _ _ (UInt8.le_iff_toNat_le.2 h)
  have h128 : b < 0x80 ↔ b.toNat < 128 := UInt8.lt_iff_toNat_lt
  have h184 : b < 0xb8 ↔ b.toNat < 184 := UInt8.lt_iff_toNat_lt
  have h192 : b < 0xc0 ↔ b.toNat < 192 := UInt8.lt_iff_toNat_lt
  have h248 : b < 0xf8 ↔ b.toNat < 248 := UInt8.lt_iff_toNat_lt
  unfold readItem
  simp only [h128, h184, h192, h248]
  split_ifs with h1 h2 h3 h4
  · rfl
  · rw [hsub (c := 0x80) (k := 128) rfl (not_lt.1 h1)]
  · rw [hsub (c := 0xb7) (k := 183) rfl (by omega)]
  · rw [hsub (c := 0xc0) (k := 192) rfl (not_lt.1 h3)]
  · rw [hsub (c := 0xf7) (k := 247) rfl (by omega)]

/-! ### Items and their encodings -/

theorem bytes_of_length_ne_one (h : b.length ≠ 1) : bytes b = lengthPrefix b.length 0x80 ++ b := by
  match b with
  | [] => rfl
  | [_] => exact absurd rfl h
  | _ :: _ :: _ => rfl

theorem lengthPrefix_short (h : n < 56) (offset : UInt8) : lengthPrefix n offset = [offset + UInt8.ofNat n] := if_pos h

theorem lengthPrefix_long {lb : Bytes} (hmin : Minimal lb) (h : 56 ≤ bytesToNat lb) (h8 : lb.length ≤ 8) (offset : UInt8) :
    lengthPrefix (bytesToNat lb) offset = (offset + 55 + UInt8.ofNat lb.length) :: lb := by
  have hlt : bytesToNat lb < 2 ^ 64 := calc
    bytesToNat lb < 256 ^ lb.length := bytesToNat_lt lb
    _ ≤ 256 ^ 8 := Nat.pow_le_pow_right (by decide) h8
  have htrim : trimLeadingZeros (bigEndian (UInt64.ofNat (bytesToNat lb))) = lb := by
    refine (minimal_trim _).eq hmin ?_
    rw [bytesToNat_bigEndian, UInt64.toNat_ofNat_of_lt' hlt]
  unfold lengthPrefix
  rw [if_neg (not_lt.2 h), htrim]

theorem exists_long (h : 56 ≤ n) (hlt : n < 2 ^ 63) :
    ∃ lb, Minimal lb ∧ bytesToNat lb = n ∧ 0 < lb.length ∧ lb.length ≤ 8 := by
  have hnum : bytesToNat (trimLeadingZeros (bigEndian (UInt64.ofNat n))) = n := by
    rw [bytesToNat_bigEndian, UInt64.toNat_ofNat_of_lt' (by simp only [UInt64.size]; omega)]
  refine ⟨_, minimal_trim _, hnum, ?_, (length_trim_le _).trans (by simp [bigEndian])⟩
  refine List.length_pos_iff.2 fun h0 => ?_
  rw [h0] at hnum
  exact absurd hnum (by simp [bytesToNat]; omega)

def Item.encode (i : Item) : Bytes := if i.isList then lengthPrefix i.content.length 0xc0 ++ i.content else bytes i.content

theorem toNat_header (offset : UInt8) {m k : ℕ} (hm : offset.toNat = m) (h : m + k < 256) :
    (offset + UInt8.ofNat k).toNat = m + k := by
  rw [UInt8.toNat_add, UInt8.toNat_ofNat', Nat.add_mod_mod, hm, Nat.mod_eq_of_lt h]

theorem header_eq {b offset : UInt8} {m k : ℕ} (hm : offset.toNat = m) (hlt : m + k < 256) (h : b.toNat = m + k) :
    offset + UInt8.ofNat k = b :=
  UInt8.toNat_inj.1 (by rw [toNat_header offset hm hlt, h])

theorem longItem_cases {b : UInt8} {tail : Bytes} {nLen : ℕ} (isList : Bool) (hpos : 0 < nLen) (h8 : nLen ≤ 8)
    (hlen : (b :: tail).length < 2 ^ 63) : (∃ e, longItem (b :: tail) nLen isList = some (.error e)) ∨
      ∃ lb content rest, tail = lb ++ (content ++ rest) ∧ lb.length = nLen ∧ Minimal lb ∧ 56 ≤ bytesToNat lb ∧
        content.length = bytesToNat lb ∧ longItem (b :: tail) nLen isList = some (.ok ⟨content, isList, rest⟩) := by
  by_cases hshort : tail.length < nLen
  · exact .inl ⟨_, longItem_short isList (by rw [List.length_cons]; omega)⟩
  have htail := (List.take_append_drop nLen tail).symm
  have hlb : (tail.take nLen).length = nLen := List.length_take_of_le (not_lt.1 hshort)
  generalize tail.take nLen = lb at htail hlb
  generalize tail.drop nLen = rest at htail
  subst htail hlb
  rw [longItem_eq b lb rest isList hpos h8 hlen]
  split_ifs with h0 h1 h2
  · exact .inl ⟨_, rfl⟩
  · exact .inl ⟨_, rfl⟩
  · refine .inr ⟨lb, rest.take (bytesToNat lb), rest.drop (bytesToNat lb), ?_, rfl, h0, not_lt.1 h1,
      List.length_take_of_le (not_lt.1 h2), rfl⟩
    rw [List.take_append_drop]
  · exact .inl ⟨_, rfl⟩

theorem checkSingle_cases {content : Bytes} (rest : Bytes) (hn : content.length = n) (h56 : n < 56) :
    (∃ e, checkSingle n ⟨content, false, rest⟩ = some (.error e)) ∨
      checkSingle n ⟨content, false, rest⟩ = some (.ok ⟨content, false, rest⟩) ∧
        bytes content = (0x80 + UInt8.ofNat n) :: content := by
  unfold checkSingle
  by_cases hone : n = 1
  · subst hone
    obtain ⟨c, rfl⟩ := List.length_eq_one_iff.1 hn
    rw [if_pos Nat.cast_one, List.getElem?_cons_zero]
    dsimp only
    split_ifs with hcanon
    · exact .inl ⟨_, rfl⟩
    · exact .inr ⟨rfl, if_neg hcanon⟩
  · rw [if_neg (by omega)]
    refine .inr ⟨rfl, ?_⟩
    rw [bytes_of_length_ne_one (by rw [hn]; exact hone), hn, lengthPrefix_short h56]
    rfl

/-- **One item**: reading fails, or the input is the encoding of the item and the rest. -/
theorem readItem_cases {data : Bytes} (hlen : data.length < 2 ^ 63) : (∃ e, readItem data = some (.error e)) ∨
    ∃ item, readItem data = some (.ok item) ∧ data = item.encode ++ item.rest := by
  cases data with
  | nil => exact .inl ⟨_, rfl⟩
  | cons b tail =>
    have hb := b.toNat_lt
    rw [readItem_cons]
    split_ifs with h1 h2 h3 h4
    · -- a single byte
      have hitem := itemAt_eq [] (b :: tail) 1 false (by simp)
      rw [if_neg (by simp), List.nil_append] at hitem
      refine .inr ⟨_, hitem, ?_⟩
      have hb' : b < 0x80 := UInt8.lt_iff_toNat_lt.2 h1
      simp [Item.encode, bytes, hb']
    · -- a short string
      generalize hn : b.toNat - 128 = n
      rw [itemAt_one b tail false (by omega)]
      split_ifs with hshort
      · exact .inl ⟨_, rfl⟩
      have hcontent : (tail.take n).length = n := List.length_take_of_le (not_lt.1 hshort)
      have hhead : (0x80 : UInt8) + UInt8.ofNat n = b := header_eq (m := 128) rfl (by omega) (by omega)
      dsimp only
      obtain ⟨e, he⟩ | ⟨hok, hbytes⟩ := checkSingle_cases (tail.drop n) hcontent (by omega)
      · exact .inl ⟨e, he⟩
      · refine .inr ⟨_, hok, ?_⟩
        rw [Item.encode, if_neg (by simp)]
        dsimp only
        rw [hbytes, hhead, List.cons_append, List.take_append_drop]
    · -- a long string
      obtain ⟨e, he⟩ | ⟨lb, content, rest, rfl, hlb, hmin, h56, hcontent, hok⟩ :=
        longItem_cases false (show 0 < b.toNat - 183 by omega) (by omega) hlen
      · exact .inl ⟨e, he⟩
      · refine .inr ⟨_, hok, ?_⟩
        rw [Item.encode, if_neg (by simp)]
        dsimp only
        rw [bytes_of_length_ne_one (by omega), hcontent, lengthPrefix_long hmin h56 (by omega), hlb,
          header_eq (b := b) (m := 183) rfl (by omega) (by omega)]
        simp
    · -- a short list
      rw [itemAt_one b tail true (by omega)]
      split_ifs with hshort
      · exact .inl ⟨_, rfl⟩
      have hcontent : (tail.take (b.toNat - 192)).length = b.toNat - 192 := List.length_take_of_le (not_lt.1 hshort)
      refine .inr ⟨_, rfl, ?_⟩
      rw [Item.encode, if_pos rfl]
      dsimp only
      rw [hcontent, lengthPrefix_short (by omega), header_eq (b := b) (m := 192) rfl (by omega) (by omega),
        List.append_assoc, List.take_append_drop]
      rfl
    · -- a long list
      obtain ⟨e, he⟩ | ⟨lb, content, rest, rfl, hlb, hmin, h56, hcontent, hok⟩ :=
        longItem_cases true (show 0 < b.toNat - 247 by omega) (by omega) hlen
      · exact .inl ⟨e, he⟩
      · refine .inr ⟨_, hok, ?_⟩
        rw [Item.encode, if_pos rfl]
        dsimp only
        rw [hcontent, lengthPrefix_long hmin h56 (by omega), hlb,
          header_eq (b := b) (m := 247) rfl (by omega) (by omega)]
        simp

theorem checkSingle_ok {content rest : Bytes} (hn : content.length = n) (hcanon : ∀ c, content = [c] → ¬c < 0x80) :
    checkSingle n ⟨content, false, rest⟩ = some (.ok ⟨content, false, rest⟩) := by
  unfold checkSingle
  split_ifs with hone
  · obtain ⟨c, rfl⟩ := List.length_eq_one_iff.1 (hn.trans (Int.natCast_inj.1 hone))
    rw [List.getElem?_cons_zero]
    exact if_neg (hcanon c rfl)
  · rfl

theorem readItem_long {content rest : Bytes} (isList : Bool) (hn : content.length = n) (h56 : 56 ≤ n)
    (hlen : (lengthPrefix n (if isList then 0xc0 else 0x80) ++ content ++ rest).length < 2 ^ 63) :
    readItem (lengthPrefix n (if isList then 0xc0 else 0x80) ++ content ++ rest) = some (.ok ⟨content, isList, rest⟩) := by
  have hn63 : n < 2 ^ 63 := by
    rw [List.length_append, List.length_append] at hlen
    omega
  obtain ⟨lb, hmin, hnum, hpos, h8⟩ := exists_long h56 hn63
  rw [← hnum, lengthPrefix_long hmin (hnum ▸ h56) h8, List.append_assoc, List.cons_append] at hlen ⊢
  have hitem := fun b => longItem_eq b lb (content ++ rest) isList hpos h8
  rw [hnum, ← hn, List.take_left, List.drop_left] at hitem
  simp only [hmin, if_true, not_lt.2 (hn ▸ h56), if_false, List.length_append,
    not_lt.2 (Nat.le_add_right content.length rest.length)] at hitem
  rw [readItem_cons]
  cases isList with
  | true =>
    have hb := toNat_header (0xc0 + 55) (m := 247) (k := lb.length) rfl (by omega)
    have hkey : (0xc0 + 55 + UInt8.ofNat lb.length : UInt8).toNat - 247 = lb.length := by omega
    simp only [if_true] at hlen ⊢
    rw [if_neg (by omega), if_neg (by omega), if_neg (by omega), if_neg (by omega), hkey]
    exact hitem _ hlen
  | false =>
    have hb := toNat_header (0x80 + 55) (m := 183) (k := lb.length) rfl (by omega)
    have hkey : (0x80 + 55 + UInt8.ofNat lb.length : UInt8).toNat - 183 = lb.length := by omega
    simp only [Bool.false_eq_true, if_false] at hlen ⊢
    rw [if_neg (by omega), if_neg (by omega), if_pos (by omega), hkey]
    exact hitem _ hlen

theorem readItem_encode (i : Item) (hlen : (i.encode ++ i.rest).length < 2 ^ 63) :
    readItem (i.encode ++ i.rest) = some (.ok i) := by
  obtain ⟨content, isList, rest⟩ := i
  cases isList with
  | true =>
    have hencode : (⟨content, true, rest⟩ : Item).encode = lengthPrefix content.length 0xc0 ++ content := if_pos rfl
    rw [hencode] at hlen ⊢
    by_cases h56 : content.length < 56
    · have hb := toNat_header 0xc0 (m := 192) (k := content.length) rfl (by omega)
      have hkey : (0xc0 + UInt8.ofNat content.length : UInt8).toNat - 192 = content.length := by omega
      rw [lengthPrefix_short h56, List.append_assoc, List.singleton_append, readItem_cons]
      rw [if_neg (by omega), if_neg (by omega), if_neg (by omega), if_pos (by omega), hkey, itemAt_one _ _ _ (by omega),
        if_neg (by simp), List.take_left, List.drop_left]
    · exact readItem_long true rfl (not_lt.1 h56) hlen
  | false =>
    have hencode : (⟨content, false, rest⟩ : Item).encode = bytes content := if_neg (by simp)
    rw [hencode] at hlen ⊢
    by_cases hsingle : ∃ c, content = [c] ∧ c < 0x80
    · obtain ⟨c, rfl, hc⟩ := hsingle
      have hbytes : bytes [c] = [c] := if_pos hc
      have hc' : c.toNat < 128 := UInt8.lt_iff_toNat_lt.1 hc
      have hitem := itemAt_eq [] (c :: rest) 1 false (by simp)
      rw [if_neg (by simp), List.nil_append] at hitem
      rw [hbytes, List.singleton_append, readItem_cons, if_pos hc']
      exact hitem
    · have hcanon : ∀ c, content = [c] → ¬c < 0x80 := fun c hc hlt => hsingle ⟨c, hc, hlt⟩
      have hbytes : bytes content = lengthPrefix content.length 0x80 ++ content := by
        by_cases hone : content.length = 1
        · obtain ⟨c, rfl⟩ := List.length_eq_one_iff.1 hone
          exact if_neg (hcanon c rfl)
        · exact bytes_of_length_ne_one hone
      rw [hbytes] at hlen ⊢
      by_cases h56 : content.length < 56
      · have hb := toNat_header 0x80 (m := 128) (k := content.length) rfl (by omega)
        have hkey : (0x80 + UInt8.ofNat content.length : UInt8).toNat - 128 = content.length := by omega
        rw [lengthPrefix_short h56, List.append_assoc, List.singleton_append, readItem_cons]
        rw [if_neg (by omega), if_pos (by omega), hkey, itemAt_one _ _ _ (by omega), if_neg (by simp), List.take_left,
          List.drop_left]
        exact checkSingle_ok rfl hcanon
      · exact readItem_long false rfl (not_lt.1 h56) hlen

theorem bytes_ne_nil (b : Bytes) : bytes b ≠ [] := by
  have hpre : ∀ n offset, lengthPrefix n offset ≠ [] := by
    intro n offset
    unfold lengthPrefix
    split <;> simp
  unfold bytes
  split
  · split <;> simp [hpre]
  · simp [hpre]

/-! ### Lists -/

theorem decodeItems_bytes : ∀ (xs : List Bytes) (n : ℕ), (xs.map bytes).flatten.length ≤ n →
    (xs.map bytes).flatten.length < 2 ^ 63 → decodeItems n (xs.map bytes).flatten = some (.ok xs)
  | [], n, _, _ => by cases n <;> rfl
  | x :: xs, n, hn, hlen => by
    have hx : 0 < (bytes x).length := List.length_pos_iff.2 (bytes_ne_nil x)
    rw [List.map_cons, List.flatten_cons] at hn hlen ⊢
    rw [List.length_append] at hn
    have hitem := readItem_encode ⟨x, false, (xs.map bytes).flatten⟩ hlen
    have hencode : (⟨x, false, (xs.map bytes).flatten⟩ : Item).encode = bytes x := if_neg (by simp)
    rw [hencode] at hitem
    cases n with
    | zero => omega
    | succ n =>
      have hrest := decodeItems_bytes xs n (by omega) (by rw [List.length_append] at hlen; omega)
      obtain ⟨c, t, ht⟩ := List.exists_cons_of_ne_nil (List.append_ne_nil_of_left_ne_nil (bytes_ne_nil x) (xs.map bytes).flatten)
      dsimp only at hitem
      rw [ht] at hitem ⊢
      unfold decodeItems
      rw [hitem]
      dsimp only
      rw [if_neg (by simp), hrest]

theorem decodeItems_cases (n : ℕ) : ∀ {payload : Bytes}, payload.length ≤ n → payload.length < 2 ^ 63 →
    (∃ e, decodeItems n payload = some (.error e)) ∨
      ∃ xs, decodeItems n payload = some (.ok xs) ∧ (xs.map bytes).flatten = payload := by
  induction n with
  | zero =>
    intro payload hn _
    rw [List.length_eq_zero_iff.1 (Nat.le_zero.1 hn)]
    exact .inr ⟨[], rfl, rfl⟩
  | succ n ih =>
    intro payload hn hlen
    cases payload with
    | nil => exact .inr ⟨[], rfl, rfl⟩
    | cons b tail =>
      unfold decodeItems
      obtain ⟨e, he⟩ | ⟨item, hitem, hdata⟩ := readItem_cases hlen
      · rw [he]
        exact .inl ⟨e, rfl⟩
      rw [hitem]
      dsimp only
      split_ifs with hlist
      · exact .inl ⟨_, rfl⟩
      have hencode : item.encode = bytes item.content := if_neg hlist
      have hpos : 0 < (bytes item.content).length := List.length_pos_iff.2 (bytes_ne_nil _)
      have hsum := congrArg List.length hdata
      rw [hencode, List.length_append] at hsum
      obtain ⟨e, he⟩ | ⟨xs, hxs, hrest⟩ := ih (show item.rest.length ≤ n by omega) (by omega)
      · rw [he]
        exact .inl ⟨e, rfl⟩
      · rw [hxs]
        refine .inr ⟨item.content :: xs, rfl, ?_⟩
        rw [List.map_cons, List.flatten_cons, hrest, hdata, hencode]

theorem decodeList_list (xs : List Bytes) (hlen : (list (xs.map bytes)).length < 2 ^ 63) :
    decodeList (list (xs.map bytes)) = some (.ok xs) := by
  have hencode : (⟨(xs.map bytes).flatten, true, []⟩ : Item).encode = list (xs.map bytes) := if_pos rfl
  have hitem := readItem_encode ⟨(xs.map bytes).flatten, true, []⟩ (by rwa [hencode, List.append_nil])
  rw [hencode, List.append_nil] at hitem
  have hflat : (xs.map bytes).flatten.length < 2 ^ 63 := by
    rw [list, List.length_append] at hlen
    omega
  unfold decodeList
  rw [hitem]
  exact decodeItems_bytes xs _ (le_refl _) hflat

theorem decodeList_cases {d : Bytes} (hlen : d.length < 2 ^ 63) : (∃ e, decodeList d = some (.error e)) ∨
    ∃ xs, decodeList d = some (.ok xs) ∧ list (xs.map bytes) = d := by
  unfold decodeList
  obtain ⟨e, he⟩ | ⟨item, hitem, hdata⟩ := readItem_cases hlen
  · rw [he]
    exact .inl ⟨e, rfl⟩
  rw [hitem]
  dsimp only
  split_ifs with hlist hrest
  · exact .inl ⟨_, rfl⟩
  · exact .inl ⟨_, rfl⟩
  have hencode : item.encode = lengthPrefix item.content.length 0xc0 ++ item.content := if_pos (by simpa using hlist)
  rw [List.length_eq_zero_iff.1 (not_not.1 hrest), List.append_nil, hencode] at hdata
  have hcontent : item.content.length < 2 ^ 63 := by
    rw [hdata, List.length_append] at hlen
    omega
  obtain ⟨e, he⟩ | ⟨xs, hxs, hflat⟩ := decodeItems_cases _ (le_refl item.content.length) hcontent
  · exact .inl ⟨e, he⟩
  · exact .inr ⟨xs, hxs, by rw [list, hflat, hdata]⟩

/-- **Flat lists have one encoding.** Lengths are `int`s: the decoder inverts the encoder, and every input is the encoding
of what is decoded from it, or is no encoding and gives an error. -/
theorem flat_list_one_encoding (xs : List Bytes) (hxs : (list (xs.map bytes)).length < 2 ^ 63) (d : Bytes)
    (hd : d.length < 2 ^ 63) : decodeList (list (xs.map bytes)) = some (.ok xs) ∧
      ((∃ ys, decodeList d = some (.ok ys) ∧ list (ys.map bytes) = d) ∨
        (∃ e, decodeList d = some (.error e)) ∧ ∀ ys : List Bytes, list (ys.map bytes) ≠ d) := by
  refine ⟨decodeList_list xs hxs, ?_⟩
  obtain ⟨e, he⟩ | hok := decodeList_cases hd
  · refine .inr ⟨⟨e, he⟩, ?_⟩
    rintro ys rfl
    rw [decodeList_list ys hd] at he
    cases he
  · exact .inl hok

theorem flat_list_one_encoding_nested :
    decodeList (list (([[], [0], [0x80], List.replicate 60 7] : List Bytes).map bytes)) =
        some (.ok [[], [0], [0x80], List.replicate 60 7]) ∧
      ((∃ ys, decodeList [0xc1, 0xc0] = some (.ok ys) ∧ list (ys.map bytes) = [0xc1, 0xc0]) ∨
        (∃ e, decodeList [0xc1, 0xc0] = some (.error e)) ∧ ∀ ys : List Bytes, list (ys.map bytes) ≠ [0xc1, 0xc0]) :=
  flat_list_one_encoding _ (by decide) _ (by decide)

end Rlp

end Lxs
