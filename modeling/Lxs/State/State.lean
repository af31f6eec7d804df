import Lxs.Lib.FinMap
import Lxs.Types.Block

/-!
# The world state

`state/state.go`. Accounts are values here, so the copies the source makes before it changes an
account (and the pointers its journal keeps) are the values themselves. A stored account is never
empty, which its type says.
-/

namespace Lxs

open Std Lib

/-! ### Accounts -/

structure Account where
  nonce : UInt64
  balance : ℤ
  storage : ExtTreeMap Hash Hash
  code : Bytes
  deriving DecidableEq

namespace Account

def empty : Account := ⟨0, 0, ∅, []⟩

/-- An account that `set` deletes: no nonce, balance, storage or code. -/
def isEmpty (a : Account) : Bool := a.nonce = 0 && a.balance = 0 && a.storage.isEmpty && a.code.isEmpty

/-- The canonical encoding; the storage slots are counted, and sorted by key. -/
def encode (a : Account) : Bytes :=
  encUint64 a.nonce ++ encBigInt (some a.balance) ++ encUint64 (UInt64.ofNat a.storage.size) ++
    a.storage.toList.flatMap (fun kv => hashBytes kv.1 ++ hashBytes kv.2) ++
    if a.code.isEmpty then [] else encBytes a.code

end Account

abbrev Leaf := { a : Account // a.isEmpty = false }

/-- What `set` stores for an account: nothing when it is empty. -/
def Account.leaf? (a : Account) : Option Leaf := if h : a.isEmpty = false then some ⟨a, h⟩ else none

def readLeaf : Option Leaf → Account
  | some l => l.1
  | none => Account.empty

/-! ### The state -/

structure BlockContext where
  number : UInt64
  /-- seconds -/
  time : UInt64
  difficulty : ℤ
  deriving DecidableEq

/-- A savepoint: where the journal and the logs stood, and the burn total. -/
structure Snapshot where
  journalLen : ℕ
  logCount : ℕ
  burned : ℤ
  deriving DecidableEq

/-- One undoable account write; `existed` of the source is `prev ≠ none`. -/
structure JournalEntry where
  addr : Address
  prev : Option Leaf
  wasTouched : Bool
  deriving DecidableEq

@[ext]
structure State where
  accounts : ExtTreeMap Address Leaf
  touched : ExtTreeSet Address
  snapshots : List Snapshot
  journal : List JournalEntry
  logs : List Log
  bctx : BlockContext
  burned : ℤ
  deriving DecidableEq

namespace State

def new : State := ⟨∅, ∅, [], [], [], ⟨0, 0, 0⟩, 0⟩

variable (s : State)

def setBlockContext (number timeSeconds difficulty : UInt64) : State :=
  { s with bctx := ⟨number, timeSeconds, difficulty.toNat⟩ }

/-- An independent copy: savepoints and journal stay behind. -/
def copy : State := { s with snapshots := [], journal := [] }

def clearTouched : State := { s with touched := ∅ }

def touchedList : List Address := s.touched.toList

def «exists» (addr : Address) : Bool := addr ∈ s.accounts

def get (addr : Address) : Account := readLeaf s.accounts[addr]?

/-- Store an account; the old value is journaled only while a savepoint is live. -/
def set (addr : Address) (acc : Account) : State :=
  { s with
    journal :=
      if s.snapshots.isEmpty then s.journal else s.journal ++ [⟨addr, s.accounts[addr]?, addr ∈ s.touched⟩]
    touched := s.touched.insert addr
    accounts := FinMap.put s.accounts addr acc.leaf? }

/-- The shape of every mutator: read, change, `set`. -/
def update (addr : Address) (f : Account → Account) : State := s.set addr (f (s.get addr))

def balance (addr : Address) : ℤ := (s.get addr).balance
def nonce (addr : Address) : UInt64 := (s.get addr).nonce

/-- Set an account to exact fields; a `nil` balance is zero. -/
def restoreAccount (addr : Address) (nonce : UInt64) (balance : Option ℤ) (storage : ExtTreeMap Hash Hash)
    (code : Bytes) : State :=
  s.set addr ⟨nonce, balance.getD 0, storage, code⟩

def sumBalances : ℤ := FinMap.sumOf (fun l : Leaf => l.1.balance) s.accounts

def getStorage (addr : Address) (key : Hash) : Hash := (s.get addr).storage[key]?.getD zeroHash

/-- The zero hash clears the slot. -/
def setStorage (addr : Address) (key value : Hash) : State :=
  s.update addr fun acc =>
    { acc with storage := if value = zeroHash then acc.storage.erase key else acc.storage.insert key value }

def getCode (addr : Address) : Bytes := (s.get addr).code
def setCode (addr : Address) (code : Bytes) : State := s.update addr fun acc => { acc with code := code }
def setNonce (addr : Address) (nonce : UInt64) : State := s.update addr fun acc => { acc with nonce := nonce }
def credit (addr : Address) (amount : ℤ) : State :=
  s.update addr fun acc => { acc with balance := acc.balance + amount }
def subBalance (addr : Address) (amount : ℤ) : State :=
  s.update addr fun acc => { acc with balance := acc.balance - amount }

/-! ### Savepoints -/

/-- Push a savepoint; its id is the number of savepoints before. -/
def snapshot : State :=
  { s with snapshots := s.snapshots ++ [⟨s.journal.length, s.logs.length, s.burned⟩] }

def undoEntry (e : JournalEntry) (w : ExtTreeMap Address Leaf × ExtTreeSet Address) :
    ExtTreeMap Address Leaf × ExtTreeSet Address :=
  (FinMap.put w.1 e.addr e.prev, if e.wasTouched then w.2.insert e.addr else w.2.erase e.addr)

/-- Back to a savepoint: the journal is replayed newest first down to its mark. -/
def revertToSnapshot (id : ℕ) : State :=
  match s.snapshots[id]? with
  | none => s
  | some snap =>
    let w := (s.journal.drop snap.journalLen).foldr undoEntry (s.accounts, s.touched)
    { s with
      accounts := w.1
      touched := w.2
      journal := s.journal.take snap.journalLen
      logs := s.logs.take snap.logCount
      burned := snap.burned
      snapshots := s.snapshots.take id }

def discardSnapshots : State := { s with snapshots := [], journal := [] }

/-! ### Logs and burns -/

def addLog (log : Log) : State := { s with logs := s.logs ++ [log] }
def logCount : ℕ := s.logs.length
def logsSince (start : ℕ) : List Log := s.logs.drop start

/-- Record destroyed value; a `nil` or non-positive amount changes nothing. -/
def burn (amount : Option ℤ) : State :=
  match amount with
  | none => s
  | some v => if v ≤ 0 then s else { s with burned := s.burned + v }

def setBurned (v : Option ℤ) : State := { s with burned := v.getD 0 }

/-! ### The state root -/

/-- The Merkle root of the sorted accounts, bound to the burn total once something was burned. -/
def root [Crypto] : Hash :=
  let root := merkleRoot (s.accounts.toList.map fun kv => addressBytes kv.1 ++ encBytes kv.2.1.encode)
  if s.burned = 0 then root else keccak256 (hashBytes root ++ encBigInt (some s.burned))

end State

end Lxs
