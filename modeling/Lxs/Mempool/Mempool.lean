import Lxs.State.State

/-!
# The mempool

`mempool/mempool.go` and `mempool/journal.go`: pending transactions under two indexes. A panic of the source is `none`.
The order in which a Go map is iterated is not fixed: where a result depends on it, the order is an argument. The
journal is the list of lines of its file; lines are whole transactions and rewriting the file does not fail.
-/

namespace Lxs

open Std Lib

def maxPerAccount : ℕ := 64

inductive PoolError
  | check (e : TxCheckError)
  | alreadyKnown
  | poolFull
  | nonceUsed
  | nonceStale
  | cannotPay
  | underpriced
  | accountLimit
  deriving DecidableEq

abbrev Queue := ExtTreeMap UInt64 Transaction

structure Mempool where
  maxSize : ℤ
  /-- `none` is no floor -/
  minGasPrice : Option ℤ
  all : ExtTreeMap Hash Transaction
  byAcct : ExtTreeMap Address Queue
  «local» : ExtTreeSet Hash
  /-- `none` when there is no journal -/
  journal : Option (List Transaction)
  deriving DecidableEq

/-- An order in which the transactions of a pool are iterated. -/
structure MapOrder where
  order : ExtTreeMap Hash Transaction → List Transaction
  perm : ∀ m, (order m).Perm (m.toList.map Prod.snd)

def MapOrder.sorted : MapOrder := ⟨fun m => m.toList.map Prod.snd, fun _ => .refl _⟩

/-- The gas price; the source dereferences it only in transactions that passed `sanityCheck`, where it is not `nil`. -/
def Transaction.price (tx : Transaction) : ℤ := tx.gasPrice.getD 0

namespace Mempool

variable [Crypto]

def new (maxSize : ℤ) : Mempool := ⟨maxSize, none, ∅, ∅, ∅, none⟩

def setMinGasPrice (m : Mempool) (p : Option ℤ) : Mempool := { m with minGasPrice := p }

/-! ### Adding -/

def lowestPriced : List Transaction → Option Transaction
  | [] => none
  | tx :: txs => some (txs.foldl (fun min tx => if tx.price < min.price then tx else min) tx)

def tail (byNonce : Queue) : Option Transaction :=
  match byNonce.toList.map Prod.snd with
  | [] => none
  | tx :: txs => some (txs.foldl (fun tail tx => if tail.nonce < tx.nonce then tx else tail) tx)

/-- Take an entry out of the index by account; an account without entries goes. -/
def dropEntry (byAcct : ExtTreeMap Address Queue) (sender : Address) (nonce : UInt64) : ExtTreeMap Address Queue :=
  match byAcct[sender]? with
  | none => byAcct
  | some byNonce =>
    let byNonce := byNonce.erase nonce
    if byNonce.isEmpty then byAcct.erase sender else byAcct.insert sender byNonce

def dropLocked (m : Mempool) (tx : Transaction) : Mempool :=
  { m with
    all := m.all.erase tx.hash
    byAcct := match tx.sender with
      | .error _ => m.byAcct
      | .ok sender => dropEntry m.byAcct sender tx.nonce }

def isUnderpriced (m : Mempool) (tx : Transaction) : Bool :=
  match m.minGasPrice with
  | none => false
  | some floor => 0 < floor && tx.price < floor

def account (m : Mempool) (sender : Address) : Queue := (m.byAcct[sender]?).getD ∅

/-- The last lines of `add`; writing into an account that eviction has deleted panics. -/
def store (m : Mempool) (tx : Transaction) (sender : Address) : Option Mempool :=
  match m.byAcct[sender]? with
  | none => none
  | some byNonce =>
    some { m with all := m.all.insert tx.hash tx, byAcct := m.byAcct.insert sender (byNonce.insert tx.nonce tx) }

/-- Make room in a full pool: the tail of the account of the cheapest transaction goes. -/
def evict (m : Mempool) (tx : Transaction) (o : MapOrder) : Option (Except PoolError Mempool) :=
  match lowestPriced (o.order m.all) with
  | none => some (.error .poolFull)
  | some cheapest =>
    if tx.price ≤ cheapest.price then some (.error .poolFull)
    else
      match cheapest.sender with
      | .error _ => some (.error .poolFull)
      | .ok victim =>
        match tail (m.account victim) with
        | none => none
        | some t => some (.ok (m.dropLocked t))

/-- The account is made before the checks, and stays when they fail. -/
def openAccount (m : Mempool) (sender : Address) : Mempool :=
  { m with byAcct := m.byAcct.insert sender (m.account sender) }

def takeIn (m : Mempool) (tx : Transaction) (sender : Address) (o : MapOrder) : Option (Mempool × Except PoolError Unit) :=
  if tx.nonce ∈ m.account sender then some (m, .error .nonceUsed)
  else if maxPerAccount ≤ (m.account sender).size then some (m, .error .accountLimit)
  else if m.maxSize ≤ m.all.size then
    match m.evict tx o with
    | none => none
    | some (.error e) => some (m, .error e)
    | some (.ok m') => (m'.store tx sender).map fun m => (m, .ok ())
  else (m.store tx sender).map fun m => (m, .ok ())

def addLocked (m : Mempool) (tx : Transaction) (sender : Address) (enforceFloor : Bool) (o : MapOrder) :
    Option (Mempool × Except PoolError Unit) :=
  if enforceFloor && m.isUnderpriced tx then some (m, .error .underpriced)
  else if tx.hash ∈ m.all then some (m, .error .alreadyKnown)
  else (m.openAccount sender).takeIn tx sender o

/-- The shared insert; the pool left behind and the error, if any. -/
def add (m : Mempool) (tx : Transaction) (chainID : UInt64) (enforceFloor : Bool) (o : MapOrder) :
    Option (Mempool × Except PoolError Unit) :=
  match tx.sanityCheck chainID with
  | .error e => some (m, .error (.check e))
  | .ok _ =>
    match tx.sender with
    | .error e => some (m, .error (.check e))
    | .ok sender => m.addLocked tx sender enforceFloor o

def addLocal (m : Mempool) (tx : Transaction) (chainID : UInt64) (o : MapOrder) : Option (Mempool × Except PoolError Unit) :=
  match m.add tx chainID true o with
  | some (m, .ok _) =>
    some ({ m with «local» := m.local.insert tx.hash, journal := m.journal.map (· ++ [tx]) }, .ok ())
  | r => r

/-- Take back transactions of orphaned blocks; errors are swallowed and the accepted ones counted. -/
def reinject (m : Mempool) (chainID : UInt64) : List (Transaction × MapOrder) → Option (Mempool × ℕ)
  | [] => some (m, 0)
  | (tx, o) :: txs =>
    match m.add tx chainID false o with
    | none => none
    | some (m, .error _) => reinject m chainID txs
    | some (m, .ok _) => (reinject m chainID txs).map fun (m, n) => (m, n + 1)

/-! ### Removing -/

/-- Keep the local transactions that are still pending, in memory and in the journal. -/
def rewriteJournal (m : Mempool) : Mempool :=
  match m.journal with
  | none => m
  | some _ =>
    { m with
      «local» := m.local.filter (· ∈ m.all)
      journal := some (m.local.toList.filterMap (m.all[·]?)) }

def removeOne (m : Mempool) (tx : Transaction) : Mempool := { m.dropLocked tx with «local» := m.local.erase tx.hash }

def remove (m : Mempool) (txs : List Transaction) : Mempool :=
  let m' := txs.foldl removeOne m
  if txs.any (·.hash ∈ m.local) then m'.rewriteJournal else m'

def live (s : State) (sender : Address) (byNonce : Queue) : Queue :=
  byNonce.filter fun nonce _ => !(nonce < s.nonce sender)

/-- The transactions of an account whose nonce is below the committed one. -/
def stale (s : State) (sender : Address) (byNonce : Queue) : List Transaction :=
  (byNonce.toList.filter fun kv => kv.1 < s.nonce sender).map Prod.snd

def stales (m : Mempool) (s : State) : List Transaction := m.byAcct.toList.flatMap fun kv => stale s kv.1 kv.2

def demote (m : Mempool) (s : State) : Mempool × ℕ :=
  ({ m with
    all := (m.stales s).foldl (fun all tx => all.erase tx.hash) m.all
    byAcct := m.byAcct.filterMap fun sender byNonce =>
      if (live s sender byNonce).isEmpty then none else some (live s sender byNonce) },
    (m.stales s).length)

/-! ### Reading -/

def get (m : Mempool) (h : Hash) : Option Transaction := m.all[h]?

def checkState (s : State) (tx : Transaction) : Option (Except PoolError Unit) :=
  match tx.sender with
  | .error e => some (.error (.check e))
  | .ok sender =>
    if tx.nonce < s.nonce sender then some (.error .nonceStale)
    else tx.cost.map fun cost => if s.balance sender < cost then .error .cannotPay else .ok ()

/-- The transactions of an account from a nonce on, up to the first gap; an account has fewer entries than nonces. -/
def consecutive (byNonce : Queue) : ℕ → UInt64 → List Transaction
  | 0, _ => []
  | n + 1, next =>
    match byNonce[next]? with
    | none => []
    | some tx => tx :: consecutive byNonce n (next + 1)

def groups (m : Mempool) (s : State) : List (List Transaction) :=
  (m.byAcct.toList.map fun kv => consecutive kv.2 kv.2.size (s.nonce kv.1)).filter fun run => !run.isEmpty

/-- The price that orders the accounts: that of the first executable transaction. -/
def groupPrice (run : List Transaction) : ℤ := (run.head?.map Transaction.price).getD 0

/-- What iterating over the accounts and `sort.Slice` may do: any order with falling prices. -/
structure GroupOrder where
  sort : List (List Transaction) → List (List Transaction)
  perm : ∀ l, (sort l).Perm l
  sorted : ∀ l, (sort l).Pairwise fun a b => groupPrice b ≤ groupPrice a

def GroupOrder.byPrice : GroupOrder where
  sort := List.insertionSort fun a b => groupPrice b ≤ groupPrice a
  perm := List.perm_insertionSort _
  sorted l := by
    have : Std.Total fun a b : List Transaction => groupPrice b ≤ groupPrice a := ⟨fun a b => le_total _ _⟩
    have : IsTrans (List Transaction) fun a b => groupPrice b ≤ groupPrice a := ⟨fun a b c h₁ h₂ => Int.le_trans h₂ h₁⟩
    exact List.pairwise_insertionSort _ l

def fill (gasLimit : UInt64) : UInt64 → List Transaction → List Transaction
  | _, [] => []
  | gas, tx :: txs => if gasLimit < gas + tx.gasLimit then [] else tx :: fill gasLimit (gas + tx.gasLimit) txs

def pending (m : Mempool) (s : State) (gasLimit : UInt64) (o : GroupOrder) : List Transaction :=
  fill gasLimit 0 (o.sort (m.groups s)).flatten

end Mempool

end Lxs
