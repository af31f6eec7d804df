import Lxs.State.World

/-!
# The database

`core/schema.go` over `store/`: one table for each key prefix and the singleton keys. Values are stored as they are
(the JSON round trip loses nothing) and a batch is a list of writes that are committed together.
-/

namespace Lxs

open Std Lib

instance instTransOrdUInt64 : TransOrd UInt64 := inferInstance
instance instLawfulEqOrdUInt64 : LawfulEqOrd UInt64 := inferInstance

structure TxLocation where
  blockHash : Hash
  blockHeight : UInt64
  index : UInt64
  deriving DecidableEq

/-- An account as it was before a block; `existed` tells no account from an account with zero balance. -/
@[ext]
structure StoredDiffEntry where
  address : Address
  existed : Bool
  nonce : UInt64
  balance : Option ℤ
  storage : ExtTreeMap Hash Hash
  code : Bytes

instance : LawfulBEq Hash := inferInstance

instance : DecidableEq StoredDiffEntry := fun _ _ => decidable_of_iff _ StoredDiffEntry.ext_iff.symm

/-- The reverse diff of a block. -/
structure StoredDiff where
  entries : List StoredDiffEntry
  burnDelta : Option ℤ
  deriving DecidableEq

structure Database where
  schema : Option UInt64
  chainID : Option UInt64
  genesis : Option Hash
  head : Option Hash
  /-- the magnitude `putBigInt` stores -/
  burned : Option ℕ
  blocks : ExtTreeMap Hash Block
  receipts : ExtTreeMap Hash (List Receipt)
  canonical : ExtTreeMap UInt64 Hash
  txIndex : ExtTreeMap Hash TxLocation
  accounts : ExtTreeMap Address Account
  revDiffs : ExtTreeMap Hash StoredDiff
  tds : ExtTreeMap Hash ℕ

/-- One queued `Put`, or `Delete` where the value is `none`. -/
inductive Write
  | schema (version : UInt64)
  | chainID (chainID : UInt64)
  | genesis (h : Hash)
  | head (h : Hash)
  | burned (total : ℕ)
  | block (h : Hash) (b : Option Block)
  | receipts (h : Hash) (rs : Option (List Receipt))
  | canonical (height : UInt64) (h : Option Hash)
  | txIndex (h : Hash) (loc : Option TxLocation)
  | account (addr : Address) (acc : Option Account)
  | revDiff (h : Hash) (diff : Option StoredDiff)
  | td (h : Hash) (td : Option ℕ)

namespace Database

def empty : Database := ⟨none, none, none, none, none, ∅, ∅, ∅, ∅, ∅, ∅, ∅⟩

def write (db : Database) : Write → Database
  | .schema v => { db with schema := some v }
  | .chainID v => { db with chainID := some v }
  | .genesis h => { db with genesis := some h }
  | .head h => { db with head := some h }
  | .burned v => { db with burned := some v }
  | .block h b => { db with blocks := FinMap.put db.blocks h b }
  | .receipts h rs => { db with receipts := FinMap.put db.receipts h rs }
  | .canonical n h => { db with canonical := FinMap.put db.canonical n h }
  | .txIndex h loc => { db with txIndex := FinMap.put db.txIndex h loc }
  | .account a acc => { db with accounts := FinMap.put db.accounts a acc }
  | .revDiff h d => { db with revDiffs := FinMap.put db.revDiffs h d }
  | .td h td => { db with tds := FinMap.put db.tds h td }

/-- A batch that is committed. One that is not writes nothing, and `insertOn` fails. -/
def commit (db : Database) (batch : List Write) : Database := batch.foldl write db

theorem commit_append (db : Database) (b₁ b₂ : List Write) : db.commit (b₁ ++ b₂) = (db.commit b₁).commit b₂ :=
  List.foldl_append

end Database

/-! ### Blocks -/

inductive LoadError
  | notFound
  | corrupt (got : Hash)
  deriving DecidableEq

section Blocks

variable [Crypto]

def writeBlock (b : Block) (receipts : List Receipt) : List Write :=
  [.block b.hash (some b), .receipts b.hash (some receipts)]

/-- A block that does not hash to its key is refused. -/
def loadBlock (db : Database) (h : Hash) : Except LoadError Block :=
  match db.blocks[h]? with
  | none => .error .notFound
  | some b => if b.hash ≠ h then .error (.corrupt b.hash) else .ok b

def indexTxs (b : Block) : List Write :=
  b.txs.zipIdx.map fun (tx, i) => .txIndex tx.hash (some ⟨b.hash, b.height, UInt64.ofNat i⟩)

end Blocks

/-! ### Accounts -/

/-- What one touched account adds to the reverse diff of a block: its value in the state before the block. -/
def diffEntry (prev : State) (addr : Address) : StoredDiffEntry :=
  if prev.exists addr then
    let p := prev.get addr
    ⟨addr, true, p.nonce, some p.balance, p.storage, p.code⟩
  else ⟨addr, false, 0, none, ∅, []⟩

/-- The new value of a touched account; an account that is gone is deleted. -/
def accountWrite (next : State) (addr : Address) : Write :=
  .account addr (if next.exists addr then some (next.get addr) else none)

def reverseDiff (next prev : State) (touched : List Address) : StoredDiff :=
  ⟨touched.map (diffEntry prev), some (next.burned - prev.burned)⟩

def writeAccountChanges (h : Hash) (next prev : State) (touched : List Address) : List Write :=
  touched.map (accountWrite next) ++ [.revDiff h (some (reverseDiff next prev touched))]

def StoredDiffEntry.account (e : StoredDiffEntry) : Option Account :=
  if e.existed then some ⟨e.nonce, e.balance.getD 0, e.storage, e.code⟩ else none

/-- Undo the account changes of a block; `none` without a reverse diff. -/
def applyReverseDiff (db : Database) (h : Hash) : Option (List Write) :=
  db.revDiffs[h]?.map fun diff => diff.entries.map fun e => .account e.address e.account

def loadState (db : Database) : State :=
  (db.accounts.toList.foldl
    (fun s kv => s.restoreAccount kv.1 kv.2.nonce (some kv.2.balance) kv.2.storage kv.2.code) State.new).clearTouched

/-- The state before a block from the state after it, as `rebuildWindow` replays the reverse diff. -/
def undoDiff (cur : State) (diff : StoredDiff) : State :=
  let parent := diff.entries.foldl
    (fun s e =>
      if !e.existed then s.restoreAccount e.address 0 none ∅ []
      else s.restoreAccount e.address e.nonce e.balance e.storage e.code) cur.copy
  let parent := match diff.burnDelta with
    | none => parent
    | some delta => parent.setBurned (some (cur.burned - delta))
  parent.clearTouched

/-! ### What batches do -/

namespace Database

variable {ι : Type} (db : Database)

theorem commit_account (f : ι → Address) (v : ι → Option Account) (l : List ι) :
    db.commit (l.map fun i => .account (f i) (v i)) =
      { db with accounts := FinMap.putAll db.accounts (l.map fun i => (f i, v i)) } := by
  induction l generalizing db with
  | nil => rfl
  | cons i l ih => exact ih _

theorem commit_txIndex (f : ι → Hash) (v : ι → Option TxLocation) (l : List ι) :
    db.commit (l.map fun i => .txIndex (f i) (v i)) =
      { db with txIndex := FinMap.putAll db.txIndex (l.map fun i => (f i, v i)) } := by
  induction l generalizing db with
  | nil => rfl
  | cons i l ih => exact ih _

end Database

def loadLeaf (acc : Option Account) : Option Leaf := acc.bind Account.leaf?

theorem loadState_accounts (db : Database) :
    (loadState db).accounts = FinMap.putAll ∅ (db.accounts.toList.map fun kv => (kv.1, kv.2.leaf?)) := by
  show (List.foldl _ State.new _).accounts = _
  have h : ∀ (l : List (Address × Account)) (s : State), (l.foldl (fun s kv =>
      s.restoreAccount kv.1 kv.2.nonce (some kv.2.balance) kv.2.storage kv.2.code) s).accounts =
        FinMap.putAll s.accounts (l.map fun kv => (kv.1, kv.2.leaf?)) := by
    intro l
    induction l with
    | nil => exact fun s => rfl
    | cons kv l ih => exact fun s => ih _
  exact h _ _

theorem getElem?_loadState (db : Database) (a : Address) : (loadState db).accounts[a]? = loadLeaf db.accounts[a]? := by
  rw [loadState_accounts, FinMap.getElem?_putAll fun a => loadLeaf db.accounts[a]?]
  · split
    · rfl
    · rename_i hm
      cases hv : db.accounts[a]? with
      | none => exact ExtTreeMap.getElem?_empty
      | some acc =>
        refine absurd (List.mem_map.2 ⟨(a, acc.leaf?), List.mem_map.2 ⟨(a, acc), ?_, rfl⟩, rfl⟩) hm
        exact ExtTreeMap.mem_toList_iff_getElem?_eq_some.2 hv
  · intro w hw
    obtain ⟨⟨a, acc⟩, hm, rfl⟩ := List.mem_map.1 hw
    show acc.leaf? = loadLeaf db.accounts[a]?
    rw [ExtTreeMap.mem_toList_iff_getElem?_eq_some.1 hm]
    rfl

theorem loadState_putAll (db : Database) (ws : List (Address × Option Account)) :
    (loadState { db with accounts := FinMap.putAll db.accounts ws }).accounts =
      FinMap.putAll (loadState db).accounts (ws.map fun w => (w.1, loadLeaf w.2)) := by
  induction ws generalizing db with
  | nil => rfl
  | cons w ws ih =>
    have hput : (loadState { db with accounts := FinMap.put db.accounts w.1 w.2 }).accounts =
        FinMap.put (loadState db).accounts w.1 (loadLeaf w.2) := by
      refine ExtTreeMap.ext_getElem? fun a => ?_
      rw [getElem?_loadState, FinMap.getElem?_put, FinMap.getElem?_put, getElem?_loadState]
      split <;> rfl
    rw [List.map_cons, FinMap.putAll_cons, FinMap.putAll_cons, ← hput]
    exact ih { db with accounts := FinMap.put db.accounts w.1 w.2 }

/-! ### Diffs -/

theorem loadLeaf_read (s : State) (a : Address) :
    loadLeaf (if s.exists a then some (s.get a) else none) = s.accounts[a]? := by
  cases h : s.exists a with
  | false => exact ((State.exists_eq_false_iff s).1 h).symm
  | true => exact leaf?_readLeaf _

theorem loadLeaf_diffEntry (prev : State) (a : Address) : loadLeaf (diffEntry prev a).account = prev.accounts[a]? := by
  rw [← loadLeaf_read prev a]
  unfold diffEntry
  split <;> rfl

def StoredDiff.leaves (d : StoredDiff) : List (Address × Option Leaf) :=
  d.entries.map fun e => (e.address, loadLeaf e.account)

/-- The diff leads from the world `w` back to the world `v`. -/
structure StoredDiff.Undoes (d : StoredDiff) (w v : World) : Prop where
  accounts : FinMap.putAll w.accounts d.leaves = v.accounts
  burned : ∃ delta, d.burnDelta = some delta ∧ w.burned - delta = v.burned

section Diffs

variable {next prev : State} {touched : List Address}

theorem diffEntry_address (prev : State) (a : Address) : (diffEntry prev a).address = a := by
  unfold diffEntry
  split <;> rfl

/-- **The reverse diff undoes a block** that touches what it changes. -/
theorem reverseDiff_undoes (h : ∀ a, a ∉ touched → next.get a = prev.get a) :
    (reverseDiff next prev touched).Undoes next.world prev.world := by
  refine ⟨FinMap.putAll_eq_of_covers ?_ fun a ha => ?_, _, rfl, Int.sub_sub_self _ _⟩
  · intro w hw
    simp only [StoredDiff.leaves, reverseDiff, List.map_map, List.mem_map] at hw
    obtain ⟨a, -, rfl⟩ := hw
    simp only [Function.comp, diffEntry_address, loadLeaf_diffEntry]
    rfl
  · refine readLeaf_injective (h a fun hm => ha ?_)
    simp only [StoredDiff.leaves, reverseDiff, List.map_map, List.mem_map]
    exact ⟨a, hm, diffEntry_address prev a⟩

theorem putAll_accountWrites (h : ∀ a, a ∉ touched → next.get a = prev.get a) :
    FinMap.putAll prev.accounts
      (touched.map fun a => (a, loadLeaf (if next.exists a then some (next.get a) else none))) = next.accounts := by
  refine FinMap.putAll_eq_of_covers ?_ fun a ha => ?_
  · intro w hw
    obtain ⟨a, -, rfl⟩ := List.mem_map.1 hw
    exact loadLeaf_read next a
  · refine readLeaf_injective (h a fun hm => ha ?_).symm
    exact List.mem_map.2 ⟨_, List.mem_map.2 ⟨a, hm, rfl⟩, rfl⟩

theorem undoDiff_world {d : StoredDiff} {cur : State} {v : World} (h : d.Undoes cur.world v) :
    (undoDiff cur d).world = v := by
  obtain ⟨ha, delta, hd, hb⟩ := h
  have hfold : ∀ (es : List StoredDiffEntry) (s : State), (es.foldl
      (fun s e =>
        if !e.existed then s.restoreAccount e.address 0 none ∅ []
        else s.restoreAccount e.address e.nonce e.balance e.storage e.code) s).accounts =
        FinMap.putAll s.accounts (es.map fun e => (e.address, loadLeaf e.account)) := by
    intro es
    induction es with
    | nil => exact fun s => rfl
    | cons e es ih =>
      intro s
      refine (ih _).trans ?_
      rw [List.map_cons, FinMap.putAll_cons]
      congr 1
      cases he : e.existed <;> simp only [he, StoredDiffEntry.account] <;> rfl
  unfold undoDiff
  rw [hd]
  refine World.ext ?_ hb
  exact (hfold d.entries cur.copy).trans ha

end Diffs

end Lxs
