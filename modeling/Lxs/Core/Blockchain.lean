import Lxs.Core.Consensus
import Lxs.Core.Database

/-!
# The block tree

`core/blockchain.go`: inserting blocks, moving the head, pruning, and opening a database. A method of the source that
changes the chain returns the chain it leaves, also when it fails: reading a block caches it. The wall clock is an
argument of `insert`; the reward split and the sweep interval are package variables of the source and fields here. The
reorg hook is not part of the chain: `insert` returns what it would be called with.
-/

namespace Lxs

open Std Lib

def maxFutureDriftMs : Int64 := 15000
def defaultRetention : UInt64 := 128
def schemaVersion : UInt64 := 1

structure Reorg where
  commonAncestor : Hash
  /-- the oldest first -/
  dropped : List Block
  added : List Block
  deriving DecidableEq

structure Blockchain where
  db : Database
  chainID : UInt64
  genesis : Hash
  genesisDifficulty : UInt64
  retention : UInt64
  gcInterval : UInt64
  treasury : Treasury
  blockCache : ExtTreeMap Hash Block
  states : ExtTreeMap Hash State
  head : Block

structure Options where
  /-- zero means `defaultRetention` -/
  retention : UInt64
  gcInterval : UInt64
  deriving DecidableEq

inductive InsertError
  | knownBlock
  | nilTx (h : Hash)
  | unknownParent (parentHash : Hash)
  | futureBlock (timestamp nowMs : Int64)
  | badDifficulty (header want : UInt64)
  | badPoW (h : Hash)
  | badTxRoot (h : Hash)
  | invalidTx (h : Hash) (e : TxCheckError)
  | reorgTooDeep (h : Hash)
  | block (e : BlockError)
  | noTotalDifficulty (h : Hash)
  | noCommonAncestor
  | noReverseDiff (h : Hash)
  | noState (h : Hash)
  | noParentState (h : Hash)
  | commitFailed
  /-- the bound put on a loop of `findFork` was too small -/
  | outOfFuel
  deriving DecidableEq

/-- Whether the two batches of an insertion are committed: the one with the block, whose error is returned, and the one
of the sweep, whose error is dropped. A batch that is not committed writes nothing. -/
structure Disk where
  commits : Bool
  sweeps : Bool

def Disk.sound : Disk := ⟨true, true⟩

namespace Blockchain

variable [Crypto]

/-! ### Reading blocks -/

def blockLocked (bc : Blockchain) (h : Hash) : Except LoadError Block × Blockchain :=
  match bc.blockCache[h]? with
  | some b => (.ok b, bc)
  | none =>
    match loadBlock bc.db h with
    | .error e => (.error e, bc)
    | .ok b => (.ok b, { bc with blockCache := bc.blockCache.insert h b })

def blockByHeight (bc : Blockchain) (n : UInt64) : Option Block × Blockchain :=
  match bc.db.canonical[n]? with
  | none => (none, bc)
  | some h =>
    match bc.blockLocked h with
    | (.error _, bc') => (none, bc')
    | (.ok b, bc') => (some b, bc')

def windowBack : ℕ → Blockchain → Header → List Header → Option (List Header) × Blockchain
  | 0, bc, _, window => (some window, bc)
  | n + 1, bc, cur, window =>
    match bc.blockLocked cur.parentHash with
    | (.error _, bc') => (none, bc')
    | (.ok b, bc') => windowBack n bc' b.header (b.header :: window)

/-- The length of the window below a block: the height as an `int`, at most `lwmaWindow`. -/
def windowLength (height : UInt64) : ℤ := if lwmaWindow < height.toInt64.toInt then lwmaWindow else height.toInt64.toInt

def requiredDifficulty (bc : Blockchain) (parent : Header) : UInt64 × Blockchain :=
  let w := windowLength parent.height
  if w < 2 then (bc.genesisDifficulty, bc)
  else
    match windowBack w.toNat bc parent [parent] with
    | (none, bc') => (bc.genesisDifficulty, bc')
    | (some window, bc') => (lwmaDifficulty window, bc')

def parentOf (bc : Blockchain) (b : Block) : Except InsertError Block × Blockchain :=
  match bc.blockLocked b.header.parentHash with
  | (.error _, bc') => (.error (.unknownParent b.header.parentHash), bc')
  | (.ok p, bc') => (.ok p, bc')

/-- The loop `for a.Height() > height`: the blocks passed are put in front of `passed`. -/
def walkDown (height : UInt64) : ℕ → Blockchain → Block → List Block → Except InsertError (Block × List Block) × Blockchain
  | 0, bc, _, _ => (.error .outOfFuel, bc)
  | n + 1, bc, a, passed =>
    if height < a.height then
      match bc.parentOf a with
      | (.error e, bc') => (.error e, bc')
      | (.ok p, bc') => walkDown height n bc' p (a :: passed)
    else (.ok (a, passed), bc)

/-- The loop `for a.Hash() != b.Hash()`. -/
def walkTogether : ℕ → Blockchain → Block → Block → List Block → List Block → Except InsertError Reorg × Blockchain
  | 0, bc, _, _, _, _ => (.error .outOfFuel, bc)
  | n + 1, bc, a, b, dropped, added =>
    if a.hash = b.hash then (.ok ⟨a.hash, dropped, added⟩, bc)
    else if a.height = 0 then (.error .noCommonAncestor, bc)
    else
      match bc.parentOf a with
      | (.error e, bc') => (.error e, bc')
      | (.ok pa, bc') =>
        match bc'.parentOf b with
        | (.error e, bc') => (.error e, bc')
        | (.ok pb, bc') => walkTogether n bc' pa pb (a :: dropped) (b :: added)

/-- The branches from the common ancestor of two blocks; the source appends and reverses at the end. -/
def findFork (bc : Blockchain) (oldHead newHead : Block) : Except InsertError Reorg × Blockchain :=
  match walkDown newHead.height (oldHead.height.toNat + 1) bc oldHead [] with
  | (.error e, bc') => (.error e, bc')
  | (.ok (a, dropped), bc') =>
    match walkDown a.height (newHead.height.toNat + 1) bc' newHead [] with
    | (.error e, bc') => (.error e, bc')
    | (.ok (b, added), bc') => walkTogether (a.height.toNat + 1) bc' a b dropped added

/-! ### Pruning -/

/-- Delete the data of every block below `cutoff` that is not canonical at its height. -/
def gcOrphans (bc : Blockchain) (sweeps : Bool) (cutoff : UInt64) : Blockchain :=
  let below := bc.db.blocks.toList.filter fun (h, b) => h ≠ bc.genesis ∧ b.height < cutoff
  let orphans := below.filter fun (h, b) => bc.db.canonical[b.height]? ≠ some h
  let batch := orphans.flatMap fun (h, _) => [.block h none, .receipts h none, .revDiff h none, .td h none]
  { bc with db := if sweeps then bc.db.commit batch else bc.db }

/-- Whether the state of a block stays: not without its block, and not below `cutoff`. -/
def keepsState (bc : Blockchain) (cutoff : UInt64) (h : Hash) : Bool :=
  match bc.blockCache[h]? with
  | none => false
  | some b => !(b.height < cutoff)

def prune (bc : Blockchain) (sweeps : Bool) : Blockchain :=
  if bc.head.height ≤ bc.retention then bc
  else
    let cutoff := bc.head.height - bc.retention
    let pruned := { bc with
      states := bc.states.filter fun h _ => bc.keepsState cutoff h
      blockCache := bc.blockCache.filter fun h b => !(b.height < cutoff && h ≠ bc.genesis) }
    if bc.head.height % bc.gcInterval = 0 then pruned.gcOrphans sweeps cutoff else pruned

/-! ### Moving the head -/

/-- A block that is valid but loses: it is stored with its state and its work. -/
def store (bc : Blockchain) (b : Block) (receipts : List Receipt) (newState : State) (td : ℕ) : Blockchain :=
  { bc with
    db := bc.db.commit (writeBlock b receipts ++ [.td b.hash (some td)])
    blockCache := bc.blockCache.insert b.hash b
    states := bc.states.insert b.hash newState }

def setHead (bc : Blockchain) (sweeps : Bool) (batch : List Write) (b : Block) (newState : State) : Blockchain :=
  prune { bc with
    db := bc.db.commit batch
    blockCache := bc.blockCache.insert b.hash b
    states := bc.states.insert b.hash newState
    head := b } sweeps

def canonicalWrites (b : Block) (st prev : State) : List Write :=
  writeAccountChanges b.hash st prev st.touchedList ++ [.canonical b.height (some b.hash)] ++ indexTxs b

def headWrites (b : Block) (st : State) : List Write := [.head b.hash, .burned st.burned.natAbs]

def extend (bc : Blockchain) (disk : Disk) (b : Block) (receipts : List Receipt) (newState : State) (td : ℕ) :
    Except InsertError (Option Reorg) × Blockchain :=
  match bc.states[b.header.parentHash]? with
  | none => (.error (.noParentState b.hash), bc)
  | some prev =>
    if disk.commits then
      (.ok none, bc.setHead disk.sweeps (writeBlock b receipts ++ [.td b.hash (some td)] ++ canonicalWrites b newState prev ++
        headWrites b newState) b newState)
    else (.error .commitFailed, bc)

def unwindWrites (db : Database) : List Block → Except InsertError (List Write)
  | [] => .ok []
  | b :: dropped =>
    match applyReverseDiff db b.hash with
    | none => .error (.noReverseDiff b.hash)
    | some undo =>
      match unwindWrites db dropped with
      | .error e => .error e
      | .ok batch => .ok (undo ++ b.txs.map (fun tx => .txIndex tx.hash none) ++ [.canonical b.height none] ++ batch)

/-- The state of a block of the winning branch; that of the new tip is not in the map yet. -/
def branchState (bc : Blockchain) (newHead : Block) (newState : State) (b : Block) : Option State :=
  if b.hash = newHead.hash then some newState else bc.states[b.hash]?

def applyWrites (bc : Blockchain) (newHead : Block) (newState : State) : List Block → Except InsertError (List Write)
  | [] => .ok []
  | b :: added =>
    match bc.branchState newHead newState b with
    | none => .error (.noState b.hash)
    | some st =>
      match bc.states[b.header.parentHash]? with
      | none => .error (.noParentState b.hash)
      | some prev =>
        match bc.applyWrites newHead newState added with
        | .error e => .error e
        | .ok batch => .ok (canonicalWrites b st prev ++ batch)

def reorg (bc : Blockchain) (disk : Disk) (newHead : Block) (receipts : List Receipt) (newState : State) (td : ℕ) :
    Except InsertError (Option Reorg) × Blockchain :=
  match bc.findFork bc.head newHead with
  | (.error e, bc') => (.error e, bc')
  | (.ok r, bc') =>
    if bc'.retention.toNat < r.dropped.length then (.error (.reorgTooDeep newHead.hash), bc')
    else
      match unwindWrites bc'.db r.dropped.reverse, bc'.applyWrites newHead newState r.added with
      | .error e, _ => (.error e, bc')
      | .ok _, .error e => (.error e, bc')
      | .ok unwind, .ok apply =>
        if disk.commits then
          (.ok (some r), bc'.setHead disk.sweeps (writeBlock newHead receipts ++ [.td newHead.hash (some td)] ++ unwind ++
            apply ++ headWrites newHead newState) newHead newState)
        else (.error .commitFailed, bc')

/-! ### Inserting a block -/

def checkTxs (chainID : UInt64) : List Transaction → Except InsertError Unit
  | [] => .ok ()
  | tx :: txs =>
    match tx.sanityCheck chainID with
    | .error e => .error (.invalidTx tx.hash e)
    | .ok _ => checkTxs chainID txs

/-- A block that passed every check, with the total difficulties the fork choice compares. -/
structure Checked where
  state : State
  receipts : List Receipt
  td : ℕ
  headTD : ℕ

/-- The checks of `insert` from the difficulty on, in order; nothing is changed. -/
def check (bc : Blockchain) (b parent : Block) (want : UInt64) : Except InsertError Checked :=
  if b.header.difficulty ≠ want then .error (.badDifficulty b.header.difficulty want)
  else if !satisfiesPoW b.header then .error (.badPoW b.hash)
  else if !b.verifyTxRoot then .error (.badTxRoot b.hash)
  else
    match checkTxs bc.chainID b.txs with
    | .error e => .error e
    | .ok _ =>
      match bc.states[parent.hash]? with
      | none => .error (.reorgTooDeep parent.hash)
      | some parentState =>
        match applyBlock bc.treasury parentState b (some parent.header) with
        | .error e => .error (.block e)
        | .ok (newState, receipts) =>
          match bc.db.tds[parent.hash]?, bc.db.tds[bc.head.hash]? with
          | none, _ => .error (.noTotalDifficulty parent.hash)
          | some _, none => .error (.noTotalDifficulty bc.head.hash)
          | some parentTD, some headTD => .ok ⟨newState, receipts, parentTD + b.header.difficulty.toNat, headTD⟩

/-- Store a checked block, and make it the head if the fork choice prefers it. -/
def place (bc : Blockchain) (disk : Disk) (b : Block) (c : Checked) : Except InsertError (Option Reorg) × Blockchain :=
  if !better ⟨b.header, c.td⟩ ⟨bc.head.header, c.headTD⟩ then
    if disk.commits then (.ok none, bc.store b c.receipts c.state c.td) else (.error .commitFailed, bc)
  else if b.header.parentHash = bc.head.hash then bc.extend disk b c.receipts c.state c.td
  else bc.reorg disk b c.receipts c.state c.td

def insertOn (bc : Blockchain) (disk : Disk) (w : WireBlock) (nowMs : Int64) :
    Except InsertError (Option Reorg) × Blockchain :=
  if w.header.hash ∈ bc.db.blocks then (.error .knownBlock, bc)
  else if w.header.hash ∈ bc.blockCache then (.error .knownBlock, bc)
  else
    match w.block? with
    | none => (.error (.nilTx w.header.hash), bc)
    | some b =>
      match bc.parentOf b with
      | (.error e, bc') => (.error e, bc')
      | (.ok parent, bc') =>
        if nowMs + maxFutureDriftMs < b.header.timestamp then (.error (.futureBlock b.header.timestamp nowMs), bc')
        else
          match bc'.requiredDifficulty parent.header with
          | (want, bc') =>
            match bc'.check b parent want with
            | .error e => (.error e, bc')
            | .ok c => bc'.place disk b c

/-- Insertion on a disk on which no commit fails. -/
def insert (bc : Blockchain) (w : WireBlock) (nowMs : Int64) : Except InsertError (Option Reorg) × Blockchain :=
  bc.insertOn .sound w nowMs

end Blockchain

/-! ### Opening a database -/

inductive OpenError
  | genesis (e : GenesisError)
  | noSchema
  | schema (version : UInt64)
  | noGenesis
  | wrongGenesis (stored config : Hash)
  | noChainID
  | wrongChainID (stored config : UInt64)
  | noHead
  | unreadableHead (h : Hash) (e : LoadError)
  | inconsistent (root head : Hash)
  deriving DecidableEq

section Open

variable [Crypto]

/-- The chain before it is initialised or resumed; the head is not set yet. -/
def Genesis.chain (g : Genesis) (db : Database) (opts : Options) : Blockchain where
  db := db
  chainID := g.chainID
  genesis := g.block.hash
  genesisDifficulty := g.block.header.difficulty
  retention := if opts.retention = 0 then defaultRetention else opts.retention
  gcInterval := opts.gcInterval
  treasury := g.treasury
  blockCache := ∅
  states := ∅
  head := g.block

def Genesis.writes (g : Genesis) : List Write :=
  [.schema schemaVersion, .chainID g.chainID, .genesis g.block.hash] ++ writeBlock g.block [] ++
    [.canonical 0 (some g.block.hash), .td g.block.hash (some g.block.header.difficulty.toNat)] ++
    g.alloc.toList.map (fun kv => .account kv.1 (some (g.state.get kv.1))) ++
    [.revDiff g.block.hash (some ⟨[], none⟩), .head g.block.hash]

def Blockchain.initialise (bc : Blockchain) (g : Genesis) : Blockchain :=
  { bc with
    db := bc.db.commit g.writes
    head := g.block
    blockCache := bc.blockCache.insert g.block.hash g.block
    states := bc.states.insert g.block.hash g.state.clearTouched }

/-- Replay reverse diffs backward from a block while each state has the root its block claims. -/
def Blockchain.rebuildWindow : ℕ → Blockchain → Block → State → Blockchain
  | 0, bc, _, _ => bc
  | n + 1, bc, curBlock, cur =>
    if curBlock.height = 0 then bc
    else
      match bc.db.revDiffs[curBlock.hash]?, loadBlock bc.db curBlock.header.parentHash with
      | some diff, .ok parentBlock =>
        let parent := undoDiff cur diff
        if parent.root ≠ parentBlock.header.stateRoot then bc
        else
          rebuildWindow n
            { bc with
              states := bc.states.insert parentBlock.hash parent
              blockCache := bc.blockCache.insert parentBlock.hash parentBlock }
            parentBlock parent
      | _, _ => bc

def Blockchain.checkDatabase (bc : Blockchain) : Except OpenError Unit :=
  match bc.db.schema, bc.db.genesis, bc.db.chainID with
  | none, _, _ => .error .noSchema
  | some version, storedGenesis, storedChainID =>
    if version ≠ schemaVersion then .error (.schema version)
    else
      match storedGenesis with
      | none => .error .noGenesis
      | some h =>
        if h ≠ bc.genesis then .error (.wrongGenesis h bc.genesis)
        else
          match storedChainID with
          | none => .error .noChainID
          | some id => if id ≠ bc.chainID then .error (.wrongChainID id bc.chainID) else .ok ()

def diskState (db : Database) : State := (loadState db).setBurned (db.burned.map Int.ofNat)

def Blockchain.resume (bc : Blockchain) : Except OpenError Blockchain :=
  match bc.checkDatabase with
  | .error e => .error e
  | .ok _ =>
    match bc.db.head with
    | none => .error .noHead
    | some headHash =>
      match loadBlock bc.db headHash with
      | .error e => .error (.unreadableHead headHash e)
      | .ok head =>
        let st := diskState bc.db
        if st.root ≠ head.header.stateRoot then .error (.inconsistent st.root head.header.stateRoot)
        else
          .ok (Blockchain.rebuildWindow bc.retention.toNat
            { bc with
              head := head
              blockCache := bc.blockCache.insert headHash head
              states := bc.states.insert headHash st }
            head st)

def newBlockchain (db : Database) (g : Genesis) (opts : Options) : Except OpenError Blockchain :=
  match g.validate with
  | .error e => .error (.genesis e)
  | .ok _ => if db.head.isSome then (g.chain db opts).resume else .ok ((g.chain db opts).initialise g)

end Open

end Lxs
