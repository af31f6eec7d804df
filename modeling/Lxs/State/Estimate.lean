import Lxs.State.Transactions
import Lxs.Vm.Blind

/-!
# Gas estimates

`EstimateGas` of `state/transition.go`: a probe that runs the message at a gas limit and takes it back, and the binary
search between a limit at which the probe fails and one at which it completes. The probe is a second implementation of
the execution inside a transaction. It leaves out the environment of the transaction and what the sender pays, so a
transaction at the estimate does the same as the probe as long as the code does not look at either.
-/

set_option linter.unusedSectionVars false

namespace Lxs

open Std Lib Vm

variable [Crypto]

/-! ### The probe -/

/-- The environment of a probe; the fields that the source does not set are zero. -/
def probeContext (sender : Address) (value : ℤ) (address : Address) : Context where
  address := address
  caller := sender
  value := value
  blockGasLimit := 0
  origin := zeroAddress
  gasPrice := 0
  coinbase := zeroAddress
  blockNumber := 0
  time := 0
  difficulty := 0
  chainID := 0
  baseFee := 0
  static := false

/-- What a probe reports: whether the message completed, or the failure that no gas can fix. Running out of gas is not
one of those. -/
def ternErr (e : VmError) : Except VmError Bool := if e = .outOfGas then .ok false else .error e

theorem ternErr_ne (e : VmError) : ternErr e ≠ .ok true := by
  unfold ternErr
  split <;> simp

def probeRun (sender : Address) (toAddr : Option Address) (data : Bytes) (value : ℤ) (budget : UInt64) (s : State) :
    Option (State × Except VmError Bool) :=
  match toAddr with
  | none =>
    let addr := createAddress sender (s.nonce sender)
    match execute data [] budget (probeContext sender value addr) 0 (s.credit addr value) with
    | .error _ => none
    | .ok (t, res) =>
      match res.err with
      | some e => some (t, ternErr e)
      | none =>
        if maxCodeSize < res.ret.length then some (t, .error .maxCodeSize)
        else if res.gasLeft < codeDepositGas * UInt64.ofNat res.ret.length then some (t, .ok false)
        else some (t, .ok true)
  | some target =>
    if (s.getCode target).length = 0 then some (s, .ok true)
    else
      let s' := s.credit target value
      match execute (s'.getCode target) data budget (probeContext sender value target) 0 s' with
      | .error _ => none
      | .ok (t, res) =>
        match res.err with
        | some e => some (t, ternErr e)
        | none => some (t, .ok true)

def probe (sender : Address) (toAddr : Option Address) (data : Bytes) (value : ℤ) (gasLimit : UInt64) (s : State) :
    Option (State × Except VmError Bool) :=
  let intrinsic := intrinsicGasFor data toAddr.isNone
  if gasLimit < intrinsic then some (s, .ok false)
  else
    (probeRun sender toAddr data value (gasLimit - intrinsic) s.snapshot).map fun (t, r) =>
      (t.revertToSnapshot s.snapshots.length, r)

/-- The loop of the search, with fuel: `lo` fails and `hi` completes. A failure of any kind asks for more gas. -/
def search (probe : UInt64 → State → Option (State × Except VmError Bool)) :
    ℕ → UInt64 → UInt64 → State → Option (State × UInt64)
  | 0, _, _, _ => none
  | n + 1, lo, hi, s =>
    if lo + 1 < hi then
      let mid := lo + (hi - lo) / 2
      match probe mid s with
      | none => none
      | some (t, .ok true) => search probe n lo mid t
      | some (t, _) => search probe n mid hi t
    else some (s, hi)

/-- Every turn of the search halves the interval, so 65 turns are enough. -/
def estimateGas (s : State) (sender : Address) (toAddr : Option Address) (data : Bytes) (value : Option ℤ) (gasCap : UInt64) :
    Option (State × Except VmError UInt64) :=
  let probe := probe sender toAddr data (value.getD 0)
  match probe gasCap s with
  | none => none
  | some (t, .error e) => some (t, .error e)
  | some (t, .ok false) => some (t, .error .outOfGas)
  | some (t, .ok true) =>
    (search probe 65 (intrinsicGasFor data toAddr.isNone - 1) gasCap t).map fun (t, g) => (t, .ok g)

/-! ### Probes leave the state as it is -/

variable {s t : State} {sender : Address} {toAddr : Option Address} {data : Bytes} {value : ℤ} {gasLimit budget : UInt64}

theorem probeRun_ok (sender : Address) (toAddr : Option Address) (data : Bytes) (value : ℤ) (budget : UInt64) {b : State}
    (h : b.Inside s) : ∃ t r, probeRun sender toAddr data value budget s = some (t, r) ∧ b.Inside t := by
  have hexec : ∀ (code input : Bytes) (ctx : Context) (x : Address), ∃ t res,
      execute code input budget ctx 0 (s.credit x value) = .ok (t, res) ∧ b.Inside t := by
    intro code input ctx x
    obtain ⟨t, res, hr, -⟩ := run_ok (newInterp_wf code input budget ctx 0) (s.credit x value)
    exact ⟨t, res, hr, State.effects_inside (execute_effects hr) b (h.credit x value)⟩
  unfold probeRun
  cases toAddr with
  | none =>
    obtain ⟨t, res, hr, ht⟩ := hexec data [] (probeContext sender value (createAddress sender (s.nonce sender)))
      (createAddress sender (s.nonce sender))
    dsimp only
    rw [hr]
    dsimp only
    split
    · exact ⟨t, _, rfl, ht⟩
    · split
      · exact ⟨t, _, rfl, ht⟩
      · split
        · exact ⟨t, _, rfl, ht⟩
        · exact ⟨t, _, rfl, ht⟩
  | some target =>
    dsimp only
    split
    · exact ⟨s, _, rfl, h⟩
    · obtain ⟨t, res, hr, ht⟩ := hexec ((s.credit target value).getCode target) data (probeContext sender value target) target
      rw [hr]
      dsimp only
      split
      · exact ⟨t, _, rfl, ht⟩
      · exact ⟨t, _, rfl, ht⟩

theorem probe_ok (sender : Address) (toAddr : Option Address) (data : Bytes) (value : ℤ) (s : State) (gasLimit : UInt64) :
    ∃ r, probe sender toAddr data value gasLimit s = some (s, r) := by
  unfold probe
  dsimp only
  split
  · exact ⟨_, rfl⟩
  · have hinside : s.snapshot.Inside s.snapshot := ⟨.refl _, by simp [State.snapshot]⟩
    obtain ⟨t, r, hr, ht⟩ := probeRun_ok sender toAddr data value (gasLimit - intrinsicGasFor data toAddr.isNone) hinside
    refine ⟨r, ?_⟩
    rw [hr, Option.map_some, State.revertToSnapshot_of_extends ht.1]

/-! ### The search -/

section Search

variable {probe : UInt64 → State → Option (State × Except VmError Bool)} (hprobe : ∀ g, ∃ r, probe g s = some (s, r))

include hprobe

theorem search_completes {g : UInt64} : ∀ (n : ℕ) (lo hi : UInt64), probe hi s = some (s, .ok true) →
    search probe n lo hi s = some (t, g) → t = s ∧ probe g s = some (s, .ok true)
  | 0, _, _, _, h => by cases h
  | n + 1, lo, hi, hhi, h => by
    unfold search at h
    split at h
    · obtain ⟨r, hr⟩ := hprobe (lo + (hi - lo) / 2)
      dsimp only at h
      rw [hr] at h
      match r with
      | .ok true => exact search_completes n _ _ hr h
      | .ok false => exact search_completes n _ _ hhi h
      | .error e => exact search_completes n _ _ hhi h
    · cases h
      exact ⟨rfl, hhi⟩

omit hprobe in
theorem toNat_mid {lo hi : UInt64} (hlt : lo < hi) :
    (lo + 1).toNat = lo.toNat + 1 ∧ (lo + (hi - lo) / 2).toNat = lo.toNat + (hi.toNat - lo.toNat) / 2 := by
  have hlt' := UInt64.lt_iff_toNat_lt.1 hlt
  have hhi := hi.toNat_lt
  constructor
  · rw [UInt64.toNat_add, UInt64.toNat_one, Nat.mod_eq_of_lt (by omega)]
  · rw [UInt64.toNat_add, UInt64.toNat_div, UInt64.toNat_sub_of_le _ _ (UInt64.le_of_lt hlt),
      show (2 : UInt64).toNat = 2 from rfl, Nat.mod_eq_of_lt (by omega)]

omit hprobe in
theorem mid_between {lo hi : UInt64} (hlt : lo < hi) (hnext : lo + 1 < hi) :
    lo < lo + (hi - lo) / 2 ∧ lo + (hi - lo) / 2 < hi := by
  obtain ⟨hsucc, hmid⟩ := toNat_mid hlt
  rw [UInt64.lt_iff_toNat_lt, hsucc] at hnext
  rw [UInt64.lt_iff_toNat_lt, UInt64.lt_iff_toNat_lt, hmid]
  omega

/-- **The invariant of the search**: the limit found is in the interval, and one below it is the start of the interval or
a limit at which the probe does not complete. -/
theorem search_least {g start : UInt64} : ∀ (n : ℕ) (lo hi : UInt64), lo < hi →
    (lo = start ∨ probe lo s ≠ some (s, .ok true)) → search probe n lo hi s = some (t, g) →
    lo < g ∧ g ≤ hi ∧ (g - 1 = start ∨ probe (g - 1) s ≠ some (s, .ok true))
  | 0, _, _, _, _, h => by cases h
  | n + 1, lo, hi, hlt, hlo, h => by
    unfold search at h
    split at h
    · rename_i hnext
      obtain ⟨hleft, hright⟩ := mid_between hlt hnext
      obtain ⟨r, hr⟩ := hprobe (lo + (hi - lo) / 2)
      dsimp only at h
      rw [hr] at h
      match r with
      | .ok true =>
        obtain ⟨hg, hle, hleast⟩ := search_least n _ _ hleft hlo h
        exact ⟨hg, UInt64.le_trans hle (UInt64.le_of_lt hright), hleast⟩
      | .ok false =>
        obtain ⟨hg, hrest⟩ := search_least n _ _ hright (.inr (by rw [hr]; simp)) h
        exact ⟨UInt64.lt_trans hleft hg, hrest⟩
      | .error e =>
        obtain ⟨hg, hrest⟩ := search_least n _ _ hright (.inr (by rw [hr]; simp)) h
        exact ⟨UInt64.lt_trans hleft hg, hrest⟩
    · -- the interval is down to one limit
      rename_i hnext
      cases h
      have hlast : g - 1 = lo := by
        have hlt' := UInt64.lt_iff_toNat_lt.1 hlt
        have hnext' := UInt64.le_iff_toNat_le.1 (UInt64.not_lt.1 hnext)
        rw [(toNat_mid hlt).1] at hnext'
        refine UInt64.toNat_inj.1 ?_
        rw [UInt64.toNat_sub_of_le _ _ (UInt64.le_iff_toNat_le.2 (by rw [UInt64.toNat_one]; omega)), UInt64.toNat_one]
        omega
      rw [hlast]
      exact ⟨hlt, UInt64.le_refl _, hlo⟩

theorem search_isSome : ∀ (n : ℕ) (lo hi : UInt64), lo < hi → hi.toNat - lo.toNat ≤ 2 ^ n →
    ∃ g, search probe (n + 1) lo hi s = some (s, g)
  | n, lo, hi, hlt, hwidth => by
    obtain ⟨hsucc, hmid⟩ := toNat_mid hlt
    unfold search
    split
    · rename_i hnext
      obtain ⟨hleft, hright⟩ := mid_between hlt hnext
      cases n with
      | zero =>
        rw [UInt64.lt_iff_toNat_lt, hsucc] at hnext
        rw [Nat.pow_zero] at hwidth
        omega
      | succ n =>
        rw [Nat.pow_succ] at hwidth
        obtain ⟨r, hr⟩ := hprobe (lo + (hi - lo) / 2)
        dsimp only
        rw [hr]
        match r with
        | .ok true => exact search_isSome n _ _ hleft (by rw [hmid]; omega)
        | .ok false => exact search_isSome n _ _ hright (by rw [hmid]; omega)
        | .error e => exact search_isSome n _ _ hright (by rw [hmid]; omega)
    · exact ⟨hi, rfl⟩

end Search

theorem estimateGas_completes {v : Option ℤ} {gasCap g : UInt64}
    (h : estimateGas s sender toAddr data v gasCap = some (t, .ok g)) :
    t = s ∧ probe sender toAddr data (v.getD 0) g s = some (s, .ok true) := by
  have hprobe := probe_ok sender toAddr data (v.getD 0) s
  obtain ⟨r, hr⟩ := hprobe gasCap
  unfold estimateGas at h
  dsimp only at h
  rw [hr] at h
  match r with
  | .error e => cases h
  | .ok false => cases h
  | .ok true =>
    obtain ⟨⟨t', g'⟩, hs, heq⟩ := Option.map_eq_some_iff.1 h
    cases heq
    exact search_completes hprobe 65 _ _ hr hs

theorem intrinsic_le_of_probe (h : probe sender toAddr data value gasLimit s = some (t, .ok true)) :
    intrinsicGasFor data toAddr.isNone ≤ gasLimit := by
  refine UInt64.not_lt.1 fun hlt => ?_
  rw [probe, if_pos hlt] at h
  cases h

/-- The cost of every byte is at most 16, so the sum does not wrap for data that a machine can hold. -/
theorem intrinsicGasFor_pos {isCreate : Bool} (hlen : data.length < 2 ^ 59) : 0 < intrinsicGasFor data isCreate := by
  have hsum : ∀ (l : Bytes) (gas : UInt64), gas.toNat + 16 * l.length < 2 ^ 64 →
      gas.toNat ≤ (l.foldl (fun gas b => if b = 0 then gas + txDataZeroGas else gas + txDataNonZeroGas) gas).toNat := by
    intro l
    induction l with
    | nil => exact fun gas _ => le_rfl
    | cons b l ih =>
      intro gas hfits
      rw [List.length_cons] at hfits
      have hzero : txDataZeroGas.toNat = 4 := rfl
      have hnonZero : txDataNonZeroGas.toNat = 16 := rfl
      rw [List.foldl_cons]
      split
      · have hadd : (gas + txDataZeroGas).toNat = gas.toNat + 4 := by
          rw [UInt64.toNat_add, hzero, Nat.mod_eq_of_lt (by omega)]
        have := ih (gas + txDataZeroGas) (by omega)
        omega
      · have hadd : (gas + txDataNonZeroGas).toNat = gas.toNat + 16 := by
          rw [UInt64.toNat_add, hnonZero, Nat.mod_eq_of_lt (by omega)]
        have := ih (gas + txDataNonZeroGas) (by omega)
        omega
  have hcreate : txGasContractCreation.toNat = 53000 := rfl
  have hcall : intrinsicGas.toNat = 21000 := rfl
  rw [UInt64.lt_iff_toNat_lt]
  unfold intrinsicGasFor
  split
  · exact Nat.lt_of_lt_of_le (by decide) (hsum data _ (by omega))
  · exact Nat.lt_of_lt_of_le (by decide) (hsum data _ (by omega))

theorem pred_lt_of_pos {n m : UInt64} (hpos : 0 < n) (hle : n ≤ m) : n - 1 < m := by
  have hpos' := UInt64.lt_iff_toNat_lt.1 hpos
  have hle' := UInt64.le_iff_toNat_le.1 hle
  rw [UInt64.toNat_zero] at hpos'
  rw [UInt64.lt_iff_toNat_lt, UInt64.toNat_sub_of_le _ _ (UInt64.le_iff_toNat_le.2 (by rw [UInt64.toNat_one]; omega)),
    UInt64.toNat_one]
  omega

/-- **The estimator returns**, and leaves the state as it found it. -/
theorem estimateGas_isSome (v : Option ℤ) (gasCap : UInt64) (hpos : 0 < intrinsicGasFor data toAddr.isNone) :
    ∃ r, estimateGas s sender toAddr data v gasCap = some (s, r) := by
  have hprobe := probe_ok sender toAddr data (v.getD 0) s
  obtain ⟨r, hr⟩ := hprobe gasCap
  unfold estimateGas
  dsimp only
  rw [hr]
  match r with
  | .error e => exact ⟨_, rfl⟩
  | .ok false => exact ⟨_, rfl⟩
  | .ok true =>
    have hlt := pred_lt_of_pos hpos (intrinsic_le_of_probe hr)
    obtain ⟨g, hg⟩ := search_isSome hprobe 64 _ _ hlt ((Nat.sub_le _ _).trans gasCap.toNat_lt.le)
    refine ⟨.ok g, ?_⟩
    change Option.map _ (search _ (64 + 1) _ _ _) = _
    rw [hg]
    rfl

/-- **The search is sound.** The estimator returns with the state as it found it, and an estimate is a limit between the
intrinsic gas and the cap at which the probe completes, and below which it does not or the intrinsic gas ends. -/
theorem estimateGas_sound (s : State) (sender : Address) (toAddr : Option Address) (data : Bytes) (v : Option ℤ)
    (gasCap : UInt64) (hlen : data.length < 2 ^ 59) : ∃ r, estimateGas s sender toAddr data v gasCap = some (s, r) ∧
      ∀ g, r = .ok g → intrinsicGasFor data toAddr.isNone ≤ g ∧ g ≤ gasCap ∧
        probe sender toAddr data (v.getD 0) g s = some (s, .ok true) ∧
        (g = intrinsicGasFor data toAddr.isNone ∨ probe sender toAddr data (v.getD 0) (g - 1) s ≠ some (s, .ok true)) := by
  have hpos : 0 < intrinsicGasFor data toAddr.isNone := intrinsicGasFor_pos hlen
  obtain ⟨r, hest⟩ : ∃ r, estimateGas s sender toAddr data v gasCap = some (s, r) := estimateGas_isSome v gasCap hpos
  refine ⟨r, hest, fun g hr => ?_⟩
  subst hr
  obtain ⟨-, hcompletes⟩ := estimateGas_completes hest
  have hprobe := probe_ok sender toAddr data (v.getD 0) s
  obtain ⟨r, hr⟩ := hprobe gasCap
  unfold estimateGas at hest
  dsimp only at hest
  rw [hr] at hest
  match r with
  | .error e => cases hest
  | .ok false => cases hest
  | .ok true =>
    obtain ⟨⟨t, g'⟩, hsearch, heq⟩ := Option.map_eq_some_iff.1 hest
    cases heq
    have hlt := pred_lt_of_pos hpos (intrinsic_le_of_probe hr)
    obtain ⟨-, hle, hleast⟩ := search_least hprobe 65 _ _ hlt (.inl rfl) hsearch
    refine ⟨intrinsic_le_of_probe hcompletes, hle, hcompletes, hleast.imp_left fun hpred => ?_⟩
    exact (UInt64.sub_left_inj 1).1 hpred

/-! ### States that differ in what the sender pays -/

/-- The account at `x` in two states that may differ in the balance and the nonce of `a`. -/
structure Account.Near (a x : Address) (acc acc' : Account) : Prop where
  code : acc.code = acc'.code
  storage : acc.storage = acc'.storage
  rest : x ≠ a → acc = acc'

def Accounts.Near (a : Address) (w w' : Accounts) : Prop := ∀ x, Account.Near a x (readLeaf w.1[x]?) (readLeaf w'.1[x]?)

structure JournalEntry.Near (a : Address) (e e' : JournalEntry) : Prop where
  addr : e.addr = e'.addr
  prev : Account.Near a e.addr (readLeaf e.prev) (readLeaf e'.prev)

/-- Two states that went the same way from `b` and from `b'`, but for the balance and the nonce of `a`. -/
abbrev State.Apart (a : Address) (b b' s t : State) : Prop :=
  UndoLog.Beside (Accounts.Near a) (JournalEntry.Near a) b.toStore b'.toStore s.toStore t.toStore

variable {a : Address}

theorem Accounts.Near.put {m m' : ExtTreeMap Address Leaf} {u u' v v' : ExtTreeSet Address} {x : Address}
    {o o' : Option Leaf} (h : Accounts.Near a (m, u) (m', u')) (ho : Account.Near a x (readLeaf o) (readLeaf o')) :
    Accounts.Near a (FinMap.put m x o, v) (FinMap.put m' x o', v') := by
  intro y
  dsimp only
  rw [FinMap.getElem?_put, FinMap.getElem?_put]
  split
  · subst x
    exact ho
  · exact h y

theorem undoEntry_near {e e' : JournalEntry} {w w' : Accounts} (he : e.Near a e') (hw : w.Near a w') :
    Accounts.Near a (State.undoEntry e w) (State.undoEntry e' w') := by
  unfold State.undoEntry
  rw [← he.addr]
  exact hw.put he.prev

namespace State.Apart

variable {b b' : State}

theorem get (h : Apart a b b' s t) (x : Address) : Account.Near a x (s.get x) (t.get x) := h.world x

theorem getCode (h : Apart a b b' s t) : s.getCode = t.getCode := funext fun x => (h.get x).code

theorem update (hb : b.snapshots ≠ []) (hb' : b'.snapshots ≠ []) (h : Apart a b b' s t) (x : Address) {f : Account → Account}
    (hf : ∀ acc acc', Account.Near a x acc acc' → Account.Near a x (f acc) (f acc')) :
    Apart a b b' (s.update x f) (t.update x f) := by
  unfold Apart State.update
  rw [toStore_set, toStore_set]
  refine h.write (by simpa [toStore] using hb) (by simpa [toStore] using hb') ⟨rfl, h.get x⟩ ?_
  exact h.world.put (by simpa using hf _ _ (h.get x))

variable (hb : b.snapshots ≠ []) (hb' : b'.snapshots ≠ []) (h : Apart a b b' s t)

include hb hb' h

theorem credit (x : Address) (v : ℤ) : Apart a b b' (s.credit x v) (t.credit x v) := by
  unfold State.credit
  exact h.update hb hb' x fun acc acc' hn => ⟨hn.code, hn.storage, fun hx => by rw [hn.rest hx]⟩

theorem subBalance (x : Address) (v : ℤ) : Apart a b b' (s.subBalance x v) (t.subBalance x v) := by
  unfold State.subBalance
  exact h.update hb hb' x fun acc acc' hn => ⟨hn.code, hn.storage, fun hx => by rw [hn.rest hx]⟩

theorem setNonce (x : Address) (n : UInt64) : Apart a b b' (s.setNonce x n) (t.setNonce x n) := by
  unfold State.setNonce
  exact h.update hb hb' x fun acc acc' hn => ⟨hn.code, hn.storage, fun hx => by rw [hn.rest hx]⟩

theorem setCode (x : Address) (code : Bytes) : Apart a b b' (s.setCode x code) (t.setCode x code) := by
  unfold State.setCode
  exact h.update hb hb' x fun acc acc' hn => ⟨rfl, hn.storage, fun hx => by rw [hn.rest hx]⟩

theorem setStorage (x : Address) (key value : Hash) : Apart a b b' (s.setStorage x key value) (t.setStorage x key value) := by
  unfold State.setStorage
  refine h.update hb hb' x fun acc acc' hn => ⟨hn.code, ?_, fun hx => by rw [hn.rest hx]⟩
  dsimp only
  rw [hn.storage]

omit hb hb' in
theorem view : View.Agree a (Vm.view s) (Vm.view t) := by
  refine ⟨?_, h.getCode, fun x hx => congrArg Account.nonce ((h.get x).rest hx),
    fun x hx => congrArg Account.balance ((h.get x).rest hx)⟩
  funext x key
  show (s.get x).storage[key]?.getD zeroHash = (t.get x).storage[key]?.getD zeroHash
  rw [(h.get x).storage]

end State.Apart

/-- **The machine does the same in states that are apart**, while it does not look at the sender's balance and nonce. -/
theorem apart_blind {b b' : State} (hb : b.snapshots ≠ []) (hb' : b'.snapshots ≠ []) : Blind a (State.Apart a b b') where
  view h := h.view
  setStorage x key value h := h.setStorage hb hb' x key value
  setCode x code h := h.setCode hb hb' x code
  setNonce x n h := h.setNonce hb hb' x n
  addBalance x v h := h.credit hb hb' x v
  subBalance x v h := h.subBalance hb hb' x v
  addLog l h := UndoLog.Beside.update h _ _
  snapshot {s t} h := by
    show State.Apart a b b' s.snapshot t.snapshot
    unfold State.Apart
    rw [State.toStore_snapshot, State.toStore_snapshot]
    exact h.mark
  revert {s t s' t'} h h' := by
    show State.Apart a b b' (s'.revertToSnapshot s.snapshots.length) (t'.revertToSnapshot t.snapshots.length)
    have hback := UndoLog.Beside.revert (d := savepoints) undoEntry_near h h'
    unfold State.Apart
    rw [State.toStore_revertToSnapshot, State.toStore_revertToSnapshot]
    simpa [State.toStore] using hback

/-! ### Transactions at the estimate -/

/-- The frame that a probe runs, and the state in which it starts; a plain transfer runs none. -/
def probeFrame (s : State) (sender : Address) (toAddr : Option Address) (data : Bytes) (value : ℤ) (gasLimit : UInt64) :
    Option (Interp × State) :=
  let budget := gasLimit - intrinsicGasFor data toAddr.isNone
  match toAddr with
  | none =>
    let addr := createAddress sender (s.nonce sender)
    some (newInterp data [] budget (probeContext sender value addr) 0, s.snapshot.credit addr value)
  | some target =>
    if (s.getCode target).length = 0 then none
    else
      let s' := s.snapshot.credit target value
      some (newInterp (s'.getCode target) data budget (probeContext sender value target) 0, s')

/-- The message, run at a gas limit, never looks at the environment of its transaction nor at the balance or the nonce
of the sender. -/
def Quiet (s : State) (sender : Address) (toAddr : Option Address) (data : Bytes) (value : ℤ) (gasLimit : UInt64) : Prop :=
  ∀ m₀ s₀, probeFrame s sender toAddr data value gasLimit = some (m₀, s₀) →
    ∀ B m u, During [] m₀ s₀ B m u → ¬Observes sender m u

/-- The contract a message creates gets a free address: none with a nonce, once the sender's is consumed, or with code. -/
def Vacant (s : State) (sender : Address) : Option Address → Prop
  | some _ => True
  | none =>
    let addr := createAddress sender (s.nonce sender)
    (s.setNonce sender (s.nonce sender + 1)).nonce addr = 0 ∧ s.getCode addr = []

/-- The transaction that sends a message at the sender's current nonce. -/
structure Transaction.Sends (tx : Transaction) (s : State) (sender : Address) (toAddr : Option Address) (data : Bytes)
    (value price : ℤ) : Prop where
  sender_eq : tx.sender = .ok sender
  nonce_eq : tx.nonce = s.nonce sender
  toAddr_eq : tx.toAddr = toAddr
  data_eq : tx.data = data
  value_eq : tx.value = some value
  price_eq : tx.gasPrice = some price

section Transactions

variable {tx : Transaction} {price maxFee : ℤ} {ctx : Address → Context}

theorem get_startTx (x : Address) : (startTx s sender maxFee value).get x =
    if sender = x then
      { s.get x with nonce := (s.get x).nonce + 1, balance := (s.get x).balance - maxFee - value }
    else s.get x := by
  unfold startTx
  rw [State.get_subBalance]
  rw [show (chargeTx s sender maxFee).snapshot.get x = (chargeTx s sender maxFee).get x from rfl, chargeTx, State.get_update]
  split
  · rfl
  · rfl

theorem apart_startTx (hacc : s.accounts = t.accounts) : State.Apart sender s.snapshot (startTx t sender maxFee value)
    s.snapshot (startTx t sender maxFee value) := by
  refine .refl fun x => ?_
  show Account.Near sender x (s.get x) ((startTx t sender maxFee value).get x)
  rw [get_startTx, ← State.get_congr hacc]
  split
  · exact ⟨rfl, rfl, fun hx => absurd ‹sender = x›.symm hx⟩
  · exact ⟨rfl, rfl, fun _ => rfl⟩

theorem execute_of_probe {code input : Bytes} {x : Address} {u : State} {res : Result}
    (hacc : s.accounts = t.accounts)
    (hquiet : ∀ B m u, During [] (newInterp code input budget (probeContext sender value x) 0) (s.snapshot.credit x value)
      B m u → ¬Observes sender m u)
    (h : execute code input budget (probeContext sender value x) 0 (s.snapshot.credit x value) = .ok (u, res)) (env : Context)
    (maxFee : ℤ) : ∃ u', execute code input budget ((probeContext sender value x).inEnv env) 0
      ((startTx t sender maxFee value).credit x value) = .ok (u', res) := by
  have hb : s.snapshot.snapshots ≠ [] := by simp [State.snapshot]
  have hb' : (startTx t sender maxFee value).snapshots ≠ [] := by
    show (chargeTx t sender maxFee).snapshot.snapshots ≠ []
    simp [State.snapshot]
  have hstart : State.Apart sender s.snapshot (startTx t sender maxFee value) (s.snapshot.credit x value)
      ((startTx t sender maxFee value).credit x value) := (apart_startTx hacc).credit hb hb' x value
  have hrun := execute_blind env (apart_blind hb hb') hstart hquiet
  rw [h] at hrun
  generalize execute code input budget _ 0 ((startTx t sender maxFee value).credit x value) = y at hrun ⊢
  cases hrun with
  | ok r h' => exact ⟨_, rfl⟩

theorem runTx_of_probe (env : Context) {u : State} (hacc : s.accounts = t.accounts) (hctx : ∀ x, ctx x =
      (probeContext sender value x).inEnv env) (hsends : tx.Sends s sender toAddr data value price)
    (hquiet : Quiet s sender toAddr data value gasLimit)
    (h : probeRun sender toAddr data value (gasLimit - intrinsicGasFor data toAddr.isNone) s.snapshot = some (u, .ok true)) :
    ∃ r, runTx ctx tx sender value (gasLimit - intrinsicGasFor data toAddr.isNone) (startTx t sender maxFee value) = some r ∧
      (r.fault = none ↔ Vacant s sender toAddr) := by
  have hcode : ∀ x, (startTx t sender maxFee value).getCode x = s.getCode x := by
    intro x
    rw [State.getCode, State.getCode, get_startTx, ← State.get_congr hacc]
    split
    · rfl
    · rfl
  unfold runTx
  rw [hsends.toAddr_eq]
  unfold probeRun at h
  cases toAddr with
  | none =>
    have hnonce : (startTx t sender maxFee value).nonce (createAddress sender (s.nonce sender)) =
        (s.setNonce sender (s.nonce sender + 1)).nonce (createAddress sender (s.nonce sender)) := by
      show ((startTx t sender maxFee value).get _).nonce = ((s.setNonce sender (s.nonce sender + 1)).get _).nonce
      rw [get_startTx, State.get_setNonce, ← State.get_congr hacc]
      split
      · rename_i hself
        rw [← hself]
        rfl
      · rfl
    dsimp only
    unfold runCreation
    dsimp only at h ⊢
    rw [hsends.nonce_eq, hnonce, hcode]
    split
    · -- EIP-684, of which the probe knows nothing
      rename_i hlive
      refine ⟨_, rfl, (fun hf => by cases hf), fun hvacant => ?_⟩
      exact absurd hlive (not_live_iff.2 hvacant)
    · rename_i hlive
      rw [show s.snapshot.nonce sender = s.nonce sender from rfl] at h
      cases hexec : execute data [] (gasLimit - intrinsicGasFor data (none : Option Address).isNone)
          (probeContext sender value (createAddress sender (s.nonce sender))) 0
          (s.snapshot.credit (createAddress sender (s.nonce sender)) value) with
      | error e => rw [hexec] at h; cases h
      | ok y =>
        obtain ⟨t₁, res⟩ := y
        obtain ⟨t₂, hexec₂⟩ := execute_of_probe hacc (hquiet _ _ rfl) hexec env maxFee
        rw [hexec] at h
        rw [hctx, hsends.data_eq, hexec₂]
        dsimp only at h ⊢
        cases herr : res.err with
        | some e =>
          rw [herr] at h
          exact absurd (Prod.mk.inj (Option.some.inj h)).2 (ternErr_ne e)
        | none =>
          rw [herr] at h
          dsimp only at h
          rw [if_neg (by simp)]
          split at h
          · cases h
          · rename_i hsize
            split at h
            · cases h
            · rename_i hdeposit
              rw [if_neg hsize, if_neg hdeposit]
              exact ⟨_, rfl, fun _ => not_live_iff.1 hlive, fun _ => rfl⟩
  | some target =>
    dsimp only at h ⊢
    rw [hcode]
    by_cases hplain : (s.getCode target).length = 0
    · rw [if_neg (by omega)]
      split
      · exact ⟨_, rfl, fun _ => trivial, fun _ => rfl⟩
      · exact ⟨_, rfl, fun _ => trivial, fun _ => rfl⟩
    · rw [show s.snapshot.getCode target = s.getCode target from rfl, if_neg hplain] at h
      rw [if_pos (Nat.pos_of_ne_zero hplain)]
      unfold runCall
      dsimp only
      have hcode' : ((startTx t sender maxFee value).credit target value).getCode target =
          (s.snapshot.credit target value).getCode target := by
        rw [State.getCode, State.get_credit, if_pos rfl, State.getCode, State.get_credit, if_pos rfl]
        exact hcode target
      rw [hcode', hctx, hsends.data_eq]
      cases hexec : execute ((s.snapshot.credit target value).getCode target) data
          (gasLimit - intrinsicGasFor data (some target).isNone) (probeContext sender value target) 0
          (s.snapshot.credit target value) with
      | error e => rw [hexec] at h; cases h
      | ok y =>
        obtain ⟨t₁, res⟩ := y
        have hframe : probeFrame s sender (some target) data value gasLimit = some
            (newInterp ((s.snapshot.credit target value).getCode target) data
              (gasLimit - intrinsicGasFor data (some target).isNone) (probeContext sender value target) 0,
              s.snapshot.credit target value) := if_neg hplain
        obtain ⟨t₂, hexec₂⟩ := execute_of_probe hacc (hquiet _ _ hframe) hexec env maxFee
        rw [hexec] at h
        rw [hexec₂]
        cases herr : res.err with
        | some e =>
          dsimp only at h
          rw [herr] at h
          exact absurd (Prod.mk.inj (Option.some.inj h)).2 (ternErr_ne e)
        | none => exact ⟨_, rfl, fun _ => trivial, fun _ => congrArg (Option.map TxFault.vm) herr⟩

theorem executeTx_status {coinbase : Address} {blockGasLimit : UInt64} {r : TxRun}
    (h : runTx (txContext (startTx s sender (tx.gasLimit.toNat * price) value) tx sender coinbase blockGasLimit price value)
      tx sender value (tx.gasLimit - intrinsicGasFor tx.data tx.toAddr.isNone)
      (startTx s sender (tx.gasLimit.toNat * price) value) = some r) :
    ∃ u res, executeTx s tx sender coinbase blockGasLimit price value = some (u, res) ∧
      (res.status = .success ↔ r.fault = none) := by
  unfold executeTx
  dsimp only
  rw [h]
  refine ⟨_, _, rfl, ?_⟩
  cases hf : r.fault with
  | none => simp [TxRun.close, hf]
  | some f => simp [TxRun.close, hf]

/-- **A transaction at the estimate succeeds** when the message at that limit looks neither at the environment of its
transaction nor at the sender's balance and nonce, exactly if the contract it creates gets a free address. -/
theorem estimate_sufficient {number timeSeconds difficulty gasCap g blockGasLimit : UInt64} {v : Option ℤ}
    {coinbase : Address} (hest : estimateGas s sender toAddr data v gasCap = some (t, .ok g))
    (hsends : tx.Sends s sender toAddr data (v.getD 0) price) (hgas : tx.gasLimit = g) (hlimit : g ≤ blockGasLimit)
    (hfunds : g.toNat * price + v.getD 0 ≤ s.balance sender) (hquiet : Quiet s sender toAddr data (v.getD 0) g) :
    ∃ u r, applyTx (s.setBlockContext number timeSeconds difficulty) tx coinbase blockGasLimit = some (u, .ok r) ∧
      (r.status = .success ↔ Vacant s sender toAddr) := by
  obtain ⟨-, hprobe⟩ := estimateGas_completes hest
  obtain ⟨hsender, hnonce, hto, hdata, hvalue, hprice⟩ := id hsends
  -- the probe completed, so the limit covers the intrinsic gas
  unfold probe at hprobe
  dsimp only at hprobe
  split at hprobe
  · cases hprobe
  rename_i hintrinsic
  obtain ⟨⟨t₁, ok⟩, hrun, heq⟩ := Option.map_eq_some_iff.1 hprobe
  have hok : ok = .ok true := (Prod.mk.inj heq).2
  subst hok
  have hrunTx : ∃ r, runTx (txContext (startTx (s.setBlockContext number timeSeconds difficulty) sender
      (tx.gasLimit.toNat * price) (v.getD 0)) tx sender coinbase blockGasLimit price (v.getD 0)) tx sender (v.getD 0)
      (g - intrinsicGasFor data toAddr.isNone) (startTx (s.setBlockContext number timeSeconds difficulty) sender
      (tx.gasLimit.toNat * price) (v.getD 0)) = some r ∧ (r.fault = none ↔ Vacant s sender toAddr) :=
    runTx_of_probe (s := s) (txContext (startTx (s.setBlockContext number timeSeconds difficulty) sender
      (tx.gasLimit.toNat * price) (v.getD 0)) tx sender coinbase blockGasLimit price (v.getD 0) sender) rfl (fun _ => rfl)
      hsends hquiet hrun
  obtain ⟨r, hr, hfault⟩ := hrunTx
  rw [← hgas, ← hto, ← hdata] at hr
  obtain ⟨u, res, hexec, hres⟩ := executeTx_status hr
  have hcheck : checkTx (s.setBlockContext number timeSeconds difficulty) tx sender blockGasLimit = some (.ok ()) := by
    have hcost : tx.cost = some (g.toNat * price + v.getD 0) := by
      rw [Transaction.cost, hprice, hvalue, hgas]
      rfl
    unfold checkTx
    dsimp only
    rw [show (s.setBlockContext number timeSeconds difficulty).get sender = s.get sender from rfl, hnonce, hgas, hto, hdata,
      hcost, show s.nonce sender = (s.get sender).nonce from rfl]
    rw [if_neg (UInt64.lt_irrefl _), if_neg (UInt64.lt_irrefl _), if_neg hintrinsic, if_neg fun h => absurd h.2 (UInt64.not_lt.2 hlimit)]
    exact if_neg (Int.not_lt.2 hfunds)
  refine ⟨u, res, ?_, hres.trans hfault⟩
  unfold applyTx
  rw [hsender]
  dsimp only
  rw [hcheck, hprice, hvalue]
  dsimp only
  rw [hexec]
  rfl

end Transactions

/-! ### Two contracts

A contract that runs only when it is called by another contract, and one that counts down and then counts its calls, with
calls signed at the gas each is estimated to need. -/

def callSig : UInt64 → Bytes
  | 21024 => beBytes 65 0x1c5cbdf0646e5db4eaa398f365f2ea7a0e3d419b7e0330e39ce92bddedcac4f9bc787f9c36f7052b02e6dfbce56c9769151a3f759b291c5f34dd6e96687bf39324
  | _ => beBytes 65 0x1bc44d12c7065d812e8acf28d7cbb19f9011ecd9e9fdf281b0e6a3b5e87d22e7db5697c2a8dcc8c02de1a14eca2f640a84d1b4193d1a0a57562ccbd0a0b90a50ad

def callTx (gasLimit : UInt64) : Transaction := ⟨0, 1, 0, some 0xc0de, some 0, gasLimit, some 3, [], callSig gasLimit⟩

@[reducible]
def callCrypto : Crypto :=
  signedCrypto
    [(callTx 21024, 0x57c4ca1ad07e1e010c48e25414f1a658f5bda0de9a2b02e008177f6a126b054c,
      0x580b38f2f9490af53b0de47f5b9048e09bba5af4202b2602b0a8819eeaa91355),
     (callTx 41893, 0x0ae3fa59fc6044040476c40f92a391871f543de5cbabc0f86e0d9959271ff075,
      0x5f708246596b1e693d21e9a4d40ad0e5121aafa65f3cb87c9a9f6bc7bfe34c6a)] []

def caller : Address := senderAddr

/-- `CALLER ORIGIN EQ ISZERO PUSH1 8 JUMPI INVALID JUMPDEST STOP` -/
def contractsOnly : Bytes := [0x33, 0x32, 0x14, 0x15, 0x60, 0x08, 0x57, 0xfe, 0x5b, 0x00]

/-- `PUSH1 3 JUMPDEST PUSH1 1 SWAP1 SUB DUP1 PUSH1 2 JUMPI PUSH1 0 SLOAD PUSH1 1 ADD PUSH1 0 SSTORE STOP` -/
def counter : Bytes := beBytes 21 0x60035b600190038060025760005460010160005500

def callState (code : Bytes) : State := (State.new.credit caller 1000000).setCode 0xc0de code

def estimated (o : Option (State × Except VmError UInt64)) : Option UInt64 :=
  match o with
  | some (_, .ok g) => some g
  | _ => none

omit [Crypto] in
theorem eq_some_of_estimated {o : Option (State × Except VmError UInt64)} {g : UInt64} (h : estimated o = some g) :
    ∃ t, o = some (t, .ok g) := by
  unfold estimated at h
  split at h
  · cases h
    exact ⟨_, rfl⟩
  · cases h

omit [Crypto] in
theorem callTx_sends (code : Bytes) {gasLimit : UInt64} (hsender : @Transaction.sender callCrypto (callTx gasLimit) = .ok caller)
    (hnonce : (callState code).nonce caller = 0) :
    @Transaction.Sends callCrypto (callTx gasLimit) (callState code) caller (some 0xc0de) [] 0 3 :=
  @Transaction.Sends.mk callCrypto _ _ _ _ _ _ _ hsender hnonce.symm rfl rfl rfl rfl

omit [Crypto] in
theorem estimated_contractsOnly :
    estimated (@estimateGas callCrypto (callState contractsOnly) caller (some 0xc0de) [] (some 0) 30000000) = some 21024 := by
  decide +kernel

omit [Crypto] in
theorem estimateGas_sound_contractsOnly :
    @estimateGas callCrypto (callState contractsOnly) caller (some 0xc0de) [] (some 0) 30000000 =
      some (callState contractsOnly, .ok 21024) ∧
    @probe callCrypto caller (some 0xc0de) [] 0 21024 (callState contractsOnly) = some (callState contractsOnly, .ok true) ∧
    @probe callCrypto caller (some 0xc0de) [] 0 21023 (callState contractsOnly) ≠ some (callState contractsOnly, .ok true) := by
  obtain ⟨r, hr, hsound⟩ := @estimateGas_sound callCrypto (callState contractsOnly) caller (some 0xc0de) [] (some 0) 30000000
    (by decide)
  obtain ⟨t, ht⟩ := eq_some_of_estimated estimated_contractsOnly
  cases (Prod.mk.inj (Option.some.inj (hr.symm.trans ht))).2
  obtain ⟨-, -, hcompletes, hleast⟩ := hsound 21024 rfl
  exact ⟨hr, hcompletes, hleast.resolve_left (by decide)⟩

omit [Crypto] in
/-- The probe does not know who the origin is, so it does not see the contract refuse its caller: the transaction at the
estimate fails. -/
theorem estimate_insufficient_contractsOnly :
    ∃ t u r, @estimateGas callCrypto (callState contractsOnly) caller (some 0xc0de) [] (some 0) 30000000 = some (t, .ok 21024) ∧
      @Transaction.Sends callCrypto (callTx 21024) (callState contractsOnly) caller (some 0xc0de) [] 0 3 ∧
      21024 * 3 + 0 ≤ (callState contractsOnly).balance caller ∧
      @applyTx callCrypto ((callState contractsOnly).setBlockContext 1 1 1) (callTx 21024) 9 30000000 = some (u, .ok r) ∧
      r.status = .failed := by
  have hfails : (txOutcome (@applyTx callCrypto ((callState contractsOnly).setBlockContext 1 1 1) (callTx 21024) 9 30000000)).map
      (fun x => x.2.status) = some .failed := by decide +kernel
  obtain ⟨t, ht⟩ := eq_some_of_estimated estimated_contractsOnly
  obtain ⟨⟨u, r⟩, hx, hst⟩ := Option.map_eq_some_iff.1 hfails
  exact ⟨t, u, r, ht, callTx_sends _ (by decide +kernel) (by decide +kernel), by decide +kernel, eq_some_of_txOutcome hx, hst⟩

/-- A test that excludes `Observes`: no such instruction, whatever it would look at. -/
def looksAway (a : Address) (m : Interp) (s : State) : Bool :=
  (m.code[m.pc]?).all (fun b => match decode b with
    | .env _ | .BALANCE | .EXTCODEHASH | .CALL | .CREATE | .CREATE2 => false
    | _ => true) &&
  match instruction m s with
  | .ok (.create p, _) => p.newAddr ≠ a
  | _ => true

theorem not_observes_of_looksAway {a : Address} {m : Interp} {s : State} (h : looksAway a m s = true) : ¬Observes a m s := by
  rw [looksAway, Bool.and_eq_true] at h
  rintro (⟨b, hb, hreads⟩ | ⟨p, m', hi, hp⟩)
  · have hop := h.1
    rw [hb, Option.all_some] at hop
    unfold Reads at hreads
    split at hreads <;> simp_all
  · rw [hi] at h
    exact of_decide_eq_true h.2 hp

omit [Crypto] in
theorem estimate_sufficient_counter : ∃ u r,
    @applyTx callCrypto ((callState counter).setBlockContext 1 1 1) (callTx 41893) 9 30000000 = some (u, .ok r) ∧
      (r.status = .success ↔ @Vacant callCrypto (callState counter) caller (some 0xc0de)) := by
  have hest : estimated (@estimateGas callCrypto (callState counter) caller (some 0xc0de) [] (some 0) 30000000) =
      some 41893 := by decide +kernel
  have hquiet : (@probeFrame callCrypto (callState counter) caller (some 0xc0de) [] 0 41893).all
      (fun f => @checkRun callCrypto _ _ (fun _ => @looksAway callCrypto caller) 40 [] f.1 f.2) = true := by decide +kernel
  obtain ⟨t, ht⟩ := eq_some_of_estimated hest
  refine @estimate_sufficient callCrypto _ _ _ _ _ _ _ 1 1 1 30000000 41893 30000000 (some 0) 9 ht
    (callTx_sends _ (by decide +kernel) (by decide +kernel)) rfl (by decide) (by decide +kernel) fun m₀ s₀ hframe B m u hd => ?_
  rw [Option.getD_some] at hframe
  rw [hframe] at hquiet
  exact @not_observes_of_looksAway callCrypto _ _ _ (@During.test callCrypto _ _ _ _ _ _ _ _ _ _ hquiet hd)

end Lxs
