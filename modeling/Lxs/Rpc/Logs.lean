import Lxs.Core.Node

/-!
# Log queries

`rpc/logs.go`: `eth_getLogs`, from the decoded filter on. Block heights are 64-bit words, and so is the counter of the loop
over the range. The loop takes the number of heights it may visit; what it reads from the chain goes through the cache,
which changes no result.

## Main results

* `ethGetLogs_bounded_iff` — **when a query ends within the range bound, and that it ends then or never**;
* `ethGetLogs_never_ends` — one height, the last.
-/

namespace Lxs.Rpc

open Std

def maxLogRange : ℕ := 10000

def lastHeight : UInt64 := 0xffffffffffffffff

structure RpcError where
  code : ℤ
  message : String
  deriving DecidableEq

def invalidParams (message : String) : RpcError := ⟨-32602, message⟩

/-- A part of a filter as it was sent: absent or `null`, a list, one value, or something else. -/
inductive Raw (α : Type)
  | any
  | many (values : List α)
  | one (value : α)
  | malformed

structure EthLogFilter where
  fromBlock : String
  toBlock : String
  blockHash : Option Hash
  address : Raw Address
  topics : List (Raw Hash)

/-- An object of the answer; `removed` is always false. -/
structure LogEntry where
  address : Address
  topics : List Hash
  data : Bytes
  blockNumber : UInt64
  blockHash : Hash
  transactionHash : Hash
  transactionIndex : ℕ
  logIndex : UInt64
  deriving DecidableEq

/-! ### Parsing the filter -/

def hexDigit (c : Char) : Option ℕ :=
  if '0' ≤ c ∧ c ≤ '9' then some (c.toNat - '0'.toNat)
  else if 'a' ≤ c ∧ c ≤ 'f' then some (c.toNat - 'a'.toNat + 10)
  else if 'A' ≤ c ∧ c ≤ 'F' then some (c.toNat - 'A'.toNat + 10)
  else none

/-- `strconv.ParseUint` in base 16 with 64 bits. -/
def parseUint (digits : List Char) : Option UInt64 :=
  match digits with
  | [] => none
  | _ =>
    match digits.foldlM (fun n c => (hexDigit c).map (16 * n + ·)) 0 with
    | none => none
    | some n => if n < 2 ^ 64 then some (UInt64.ofNat n) else none

/-- `strings.TrimPrefix` of `0x`. -/
def trimHex : List Char → List Char
  | '0' :: 'x' :: digits => digits
  | digits => digits

/-- The height a block tag stands for; an empty tag is the default. -/
def resolveLogHeight (tag : String) (head default : UInt64) : Except RpcError UInt64 :=
  if tag = "" then .ok default
  else if tag ∈ ["latest", "pending", "safe", "finalized"] then .ok head
  else if tag = "earliest" then .ok 0
  else
    match parseUint (trimHex tag.toList) with
    | none => .error (invalidParams ("bad block tag: " ++ tag))
    | some h => .ok h

def parseAddressFilter : Raw Address → Except RpcError (Option (List Address))
  | .any => .ok none
  | .many addrs => .ok (some addrs)
  | .one addr => .ok (some [addr])
  | .malformed => .error (invalidParams "address must be an address or array of addresses")

def parseTopicFilter : List (Raw Hash) → Except RpcError (List (Option (List Hash)))
  | [] => .ok []
  | raw :: topics =>
    match raw with
    | .malformed => .error (invalidParams "each topic must be null, a hash, or an array of hashes")
    | .any => (parseTopicFilter topics).map (none :: ·)
    | .many hs => (parseTopicFilter topics).map (some hs :: ·)
    | .one h => (parseTopicFilter topics).map (some [h] :: ·)

def topicsMatch : List Hash → List (Option (List Hash)) → Bool
  | _, [] => true
  | [], _ :: _ => false
  | topic :: topics, allowed :: filter => (allowed.all fun hs => topic ∈ hs) && topicsMatch topics filter

def logMatches (l : Log) (addrs : Option (List Address)) (topics : List (Option (List Hash))) : Bool :=
  (addrs.all fun as => l.address ∈ as) && topicsMatch l.topics topics

/-! ### The logs of a range -/

section

variable [Crypto]

def receiptsByHeight (bc : Blockchain) (n : UInt64) : Option (List Receipt × Block) := do
  let h ← bc.db.canonical[n]?
  let blk ← (bc.blockLocked h).1.toOption
  let receipts ← bc.db.receipts[blk.hash]?
  return (receipts, blk)

variable (addrs : Option (List Address)) (topics : List (Option (List Hash)))

/-- The matching logs of one receipt, and the index of the next log of the block. -/
def receiptLogs (blk : Block) (i : ℕ) : UInt64 → List Log → List LogEntry × UInt64
  | logIndex, [] => ([], logIndex)
  | logIndex, l :: logs =>
    let (out, next) := receiptLogs blk i (logIndex + 1) logs
    if logMatches l addrs topics then
      ({ address := l.address
         topics := l.topics
         data := l.data
         blockNumber := blk.header.height
         blockHash := blk.hash
         transactionHash := (blk.txs[i]?.map Transaction.hash).getD zeroHash
         transactionIndex := i
         logIndex := logIndex } :: out, next)
    else (out, next)

def blockLogs (blk : Block) : ℕ → UInt64 → List Receipt → List LogEntry
  | _, _, [] => []
  | i, logIndex, r :: receipts =>
    let (out, next) := receiptLogs addrs topics blk i logIndex r.logs
    out ++ blockLogs blk (i + 1) next receipts

/-- A gap is skipped. -/
def heightLogs (bc : Blockchain) (h : UInt64) : List LogEntry :=
  match receiptsByHeight bc h with
  | none => []
  | some (receipts, blk) => blockLogs addrs topics blk 0 0 receipts

/-- The loop `for h := from; h <= to; h++`; `none` when it would visit more than the given number of heights. -/
def scan (bc : Blockchain) (last : UInt64) : ℕ → UInt64 → Option (List LogEntry)
  | 0, h => if h ≤ last then none else some []
  | n + 1, h => if h ≤ last then (scan bc last n (h + 1)).map (heightLogs addrs topics bc h ++ ·) else some []

end

variable [Crypto]

def logRange (bc : Blockchain) (f : EthLogFilter) : Except RpcError (UInt64 × UInt64) :=
  match f.blockHash with
  | some h =>
    if f.fromBlock ≠ "" ∨ f.toBlock ≠ "" then .error (invalidParams "blockHash cannot be combined with fromBlock/toBlock")
    else
      match (bc.blockLocked h).1 with
      | .error _ => .error (invalidParams "unknown blockHash")
      | .ok blk => .ok (blk.header.height, blk.header.height)
  | none => do
    let first ← resolveLogHeight f.fromBlock bc.head.height 0
    let last ← resolveLogHeight f.toBlock bc.head.height bc.head.height
    if last < first then throw (invalidParams "toBlock is before fromBlock")
    if maxLogRange ≤ (last - first).toNat then
      throw (invalidParams "block range too wide (max 10000); narrow fromBlock/toBlock")
    return (first, last)

/-- The answer to a query that may visit at most `n` heights, `none` when it needs more. -/
def ethGetLogs (bc : Blockchain) (f : EthLogFilter) (n : ℕ) : Option (Except RpcError (List LogEntry)) :=
  match parseAddressFilter f.address, parseTopicFilter f.topics with
  | .error e, _ => some (.error e)
  | .ok _, .error e => some (.error e)
  | .ok addrs, .ok topics =>
    match logRange bc f with
    | .error e => some (.error e)
    | .ok (first, last) => (scan addrs topics bc last n first).map .ok

/-! ### Whether a query ends -/

variable {addrs : Option (List Address)} {topics : List (Option (List Hash))} {bc : Blockchain}

theorem scan_isSome {last : UInt64} (hlast : last.toNat + 1 < 2 ^ 64) (n : ℕ) : ∀ {h : UInt64},
    last.toNat + 1 ≤ h.toNat + n → (scan addrs topics bc last n h).isSome := by
  induction n with
  | zero =>
    intro h hn
    rw [scan, if_neg (by rw [UInt64.le_iff_toNat_le]; omega)]
    rfl
  | succ n ih =>
    intro h hn
    rw [scan]
    split
    case isTrue hle =>
      rw [UInt64.le_iff_toNat_le] at hle
      have hsucc : (h + 1).toNat = h.toNat + 1 := by
        rw [UInt64.toNat_add, UInt64.toNat_one, Nat.mod_eq_of_lt (by omega)]
      rw [Option.isSome_map]
      exact ih (by omega)
    case isFalse => rfl

/-- No height is above the last one: the counter wraps around. -/
theorem scan_lastHeight (n : ℕ) : ∀ h, scan addrs topics bc lastHeight n h = none := by
  have hle (h : UInt64) : h ≤ lastHeight := UInt64.le_iff_toNat_le.2 (Nat.le_of_lt_succ h.toNat_lt)
  induction n with
  | zero => exact fun h => if_pos (hle h)
  | succ n ih =>
    intro h
    rw [scan, if_pos (hle h), ih]
    rfl

/-- A query that is accepted and whose range ends with the last height there is. -/
def Endless (bc : Blockchain) (f : EthLogFilter) : Prop :=
  f.address ≠ .malformed ∧ (∀ raw ∈ f.topics, raw ≠ .malformed) ∧
    match f.blockHash with
    | some h => f.fromBlock = "" ∧ f.toBlock = "" ∧ ∃ blk, (bc.blockLocked h).1 = .ok blk ∧ blk.header.height = lastHeight
    | none => resolveLogHeight f.toBlock bc.head.height bc.head.height = .ok lastHeight ∧
        ∃ first, resolveLogHeight f.fromBlock bc.head.height 0 = .ok first ∧ 2 ^ 64 - maxLogRange ≤ first.toNat

omit [Crypto] in
theorem parseAddressFilter_ok {raw : Raw Address} : (∃ addrs, parseAddressFilter raw = .ok addrs) ↔ raw ≠ .malformed := by
  cases raw <;> simp [parseAddressFilter]

omit [Crypto] in
theorem parseTopicFilter_ok {raws : List (Raw Hash)} :
    (∃ topics, parseTopicFilter raws = .ok topics) ↔ ∀ raw ∈ raws, raw ≠ .malformed := by
  induction raws with
  | nil => simp [parseTopicFilter]
  | cons raw raws ih =>
    rw [List.forall_mem_cons, ← ih]
    cases raw <;> cases h : parseTopicFilter raws <;> simp [parseTopicFilter, h, Except.map]

theorem logRange_tags {f : EthLogFilter} (hf : f.blockHash = none) {first last : UInt64} :
    logRange bc f = .ok (first, last) ↔ resolveLogHeight f.fromBlock bc.head.height 0 = .ok first ∧
      resolveLogHeight f.toBlock bc.head.height bc.head.height = .ok last ∧ first ≤ last ∧
      last.toNat < first.toNat + maxLogRange := by
  rw [logRange, hf]
  cases hfirst : resolveLogHeight f.fromBlock bc.head.height 0 with
  | error e => simp [bind, Except.bind]
  | ok a =>
    cases hlast : resolveLogHeight f.toBlock bc.head.height bc.head.height with
    | error e => simp [bind, Except.bind]
    | ok b =>
      have hsub : first ≤ last → (last - first).toNat = last.toNat - first.toNat := fun h =>
        UInt64.toNat_sub_of_le last first h
      simp only [bind, Except.bind, throw, throwThe, MonadExceptOf.throw, pure, Except.pure, Except.ok.injEq]
      split_ifs with hlt hwide
      · simp only [false_iff]
        rintro ⟨rfl, rfl, hle, -⟩
        exact absurd hlt (UInt64.not_lt.2 hle)
      · simp only [false_iff]
        rintro ⟨rfl, rfl, hle, hnarrow⟩
        rw [hsub hle] at hwide
        rw [UInt64.le_iff_toNat_le] at hle
        omega
      · simp only [Except.ok.injEq, Prod.mk.injEq]
        constructor
        · rintro ⟨rfl, rfl⟩
          have hle := UInt64.not_lt.1 hlt
          rw [hsub hle] at hwide
          exact ⟨rfl, rfl, hle, by omega⟩
        · rintro ⟨rfl, rfl, -⟩
          exact ⟨rfl, rfl⟩

theorem logRange_hash {f : EthLogFilter} {h : Hash} (hf : f.blockHash = some h) {first last : UInt64} :
    logRange bc f = .ok (first, last) ↔ f.fromBlock = "" ∧ f.toBlock = "" ∧
      ∃ blk, (bc.blockLocked h).1 = .ok blk ∧ blk.header.height = first ∧ blk.header.height = last := by
  rw [logRange, hf]
  dsimp only
  split_ifs with htags
  · simp only [false_iff]
    rintro ⟨hfrom, hto, -⟩
    exact htags.elim (absurd hfrom) (absurd hto)
  · push Not at htags
    cases (bc.blockLocked h).1 <;> simp [htags]

theorem endless_iff {f : EthLogFilter} : Endless bc f ↔ (∃ addrs, parseAddressFilter f.address = .ok addrs) ∧
    (∃ topics, parseTopicFilter f.topics = .ok topics) ∧ ∃ first, logRange bc f = .ok (first, lastHeight) := by
  rw [Endless, parseAddressFilter_ok, parseTopicFilter_ok]
  refine and_congr_right fun _ => and_congr_right fun _ => ?_
  cases hf : f.blockHash with
  | some h =>
    simp only [logRange_hash hf]
    constructor
    · rintro ⟨hfrom, hto, blk, hblk, hheight⟩
      exact ⟨lastHeight, hfrom, hto, blk, hblk, hheight, hheight⟩
    · rintro ⟨first, hfrom, hto, blk, hblk, -, hheight⟩
      exact ⟨hfrom, hto, blk, hblk, hheight⟩
  | none =>
    simp only [logRange_tags hf]
    have hlast : lastHeight.toNat = 2 ^ 64 - 1 := rfl
    constructor
    · rintro ⟨hto, first, hfrom, hnarrow⟩
      have hlt := first.toNat_lt
      refine ⟨first, hfrom, hto, UInt64.le_iff_toNat_le.2 (by omega), ?_⟩
      unfold maxLogRange at hnarrow ⊢
      omega
    · rintro ⟨first, hfrom, hto, -, hnarrow⟩
      refine ⟨hto, first, hfrom, ?_⟩
      unfold maxLogRange at hnarrow ⊢
      omega

theorem logRange_narrow {f : EthLogFilter} {first last : UInt64} (h : logRange bc f = .ok (first, last)) :
    last.toNat < first.toNat + maxLogRange := by
  cases hf : f.blockHash with
  | some k =>
    obtain ⟨-, -, blk, -, rfl, rfl⟩ := (logRange_hash hf).1 h
    exact Nat.lt_add_of_pos_right (by decide)
  | none => exact ((logRange_tags hf).1 h).2.2.2

/-- **A query ends within the range bound exactly when its range does not end with the last height**, and otherwise it
never ends. -/
theorem ethGetLogs_bounded_iff (bc : Blockchain) (f : EthLogFilter) :
    ((ethGetLogs bc f maxLogRange).isSome ↔ ¬ Endless bc f) ∧ (Endless bc f → ∀ n, ethGetLogs bc f n = none) := by
  have hnever : Endless bc f → ∀ n, ethGetLogs bc f n = none := by
    intro h n
    obtain ⟨⟨addrs, ha⟩, ⟨topics, ht⟩, first, hr⟩ := endless_iff.1 h
    simp only [ethGetLogs, ha, ht, hr, scan_lastHeight, Option.map_none]
  refine ⟨⟨fun hsome h => ?_, fun h => ?_⟩, hnever⟩
  · rw [hnever h] at hsome
    cases hsome
  cases ha : parseAddressFilter f.address with
  | error e => simp only [ethGetLogs, ha, Option.isSome_some]
  | ok addrs =>
  cases ht : parseTopicFilter f.topics with
  | error e => simp only [ethGetLogs, ha, ht, Option.isSome_some]
  | ok topics =>
  cases hr : logRange bc f with
  | error e => simp only [ethGetLogs, ha, ht, hr, Option.isSome_some]
  | ok range =>
    obtain ⟨first, last⟩ := range
    have hne : last ≠ lastHeight := by
      rintro rfl
      exact h (endless_iff.2 ⟨⟨addrs, ha⟩, ⟨topics, ht⟩, first, hr⟩)
    have hlast : last.toNat + 1 < 2 ^ 64 := by
      have hlt := last.toNat_lt
      have : last.toNat ≠ 2 ^ 64 - 1 := fun heq => hne (UInt64.toNat_inj.1 heq)
      omega
    simp only [ethGetLogs, ha, ht, hr, Option.isSome_map]
    exact scan_isSome hlast _ (logRange_narrow hr)

def lastFilter : EthLogFilter := ⟨"0xffffffffffffffff", "0xffffffffffffffff", none, .any, []⟩

omit [Crypto] in
/-- The query for the last height alone never ends, on a fresh chain. -/
theorem ethGetLogs_never_ends : ¬∃ n answer,
    @ethGetLogs transferCrypto (@Blockchain.fresh transferCrypto transferGenesis ⟨0, 4096⟩) lastFilter n = some answer := by
  rintro ⟨n, answer, hanswer⟩
  have htag (head default : UInt64) : resolveLogHeight "0xffffffffffffffff" head default = .ok lastHeight := rfl
  have hrange : @logRange transferCrypto (@Blockchain.fresh transferCrypto transferGenesis ⟨0, 4096⟩) lastFilter =
      .ok (lastHeight, lastHeight) :=
    (@logRange_tags transferCrypto _ _ rfl _ _).2 ⟨htag _ _, htag _ _, UInt64.le_refl _, by decide⟩
  have hnone : @ethGetLogs transferCrypto (@Blockchain.fresh transferCrypto transferGenesis ⟨0, 4096⟩) lastFilter n =
      none := by
    unfold ethGetLogs
    rw [hrange]
    exact congrArg (Option.map Except.ok) (@scan_lastHeight transferCrypto _ _ _ n lastHeight)
  cases hnone.symm.trans hanswer

end Lxs.Rpc
