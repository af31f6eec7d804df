import Lxs.Core.Producer
import Lxs.Pool.Pplns

/-!
# The mining pool

`pool/server.go` and `pool/persist.go`: templates are handed out, shares of their work are credited, a share that is a block
is committed and its pot split, a split is credited once its block is deep enough and still canonical, and balances are paid
out by transactions of the pool's wallet. The ledger (balances, waiting blocks and totals) is a file. Each call holds the
server's lock, and other parts of the node use the chain and the mempool between the calls.

The clocks, the order in which Go iterates over a map and the signature of a payout are arguments. A panic is `none`. The
trace of a node is what a reader of its log would note, newest first.
-/

namespace Lxs.Pool

open Std Lib

/-! ### Configuration and state -/

structure Config where
  shareDiffDivisor : UInt64
  minShareDiff : UInt64
  feeBps : UInt64
  confirmations : UInt64
  windowFactor : UInt64
  payoutMin : Option ℤ
  /-- `StatePath` is not empty -/
  persists : Bool
  /-- in nanoseconds -/
  refreshInterval : ℤ

def oneLXS : ℤ := 10 ^ 18

def Config.fillDefaults (c : Config) : Config where
  shareDiffDivisor := if c.shareDiffDivisor = 0 then 64 else c.shareDiffDivisor
  minShareDiff := if c.minShareDiff = 0 then 50000 else c.minShareDiff
  feeBps := c.feeBps
  confirmations := if c.confirmations = 0 then 12 else c.confirmations
  windowFactor := if c.windowFactor = 0 then 2 else c.windowFactor
  payoutMin := match c.payoutMin with
    | none => some (oneLXS / 2)
    | some v => if v ≤ 0 then some (oneLXS / 2) else some v
  persists := c.persists
  refreshInterval := if c.refreshInterval = 0 then 10 * 10 ^ 9 else c.refreshInterval

/-- Held back from each pot for the gas of the payouts. -/
def payoutGasReserve : ℤ := 2000000

/-- A block awaiting only its nonce. -/
structure Template where
  id : Hash
  hdr : Header
  txs : List Transaction
  minerFees : ℤ
  shareDiff : UInt64
  /-- a reading of the monotonic clock, in nanoseconds -/
  built : ℤ
  parent : Hash
  /-- the nonces credited on this template -/
  seen : ExtTreeSet UInt64

def Template.shareTarget (t : Template) : ℕ := powTarget t.shareDiff

def Template.blockTarget (t : Template) : ℕ := powTarget t.hdr.difficulty

def Template.tried (t : Template) (nonce : UInt64) : Template := { t with hdr := { t.hdr with nonce := nonce } }

def Template.block (t : Template) : Block := ⟨t.hdr, t.txs⟩

abbrev Payouts := ExtTreeMap Address ℤ

/-- A block of the pool that waits for its maturity. -/
structure FoundBlock where
  height : UInt64
  hash : Hash
  payouts : Payouts
  deriving DecidableEq

structure Ledger where
  balances : Payouts
  pending : List FoundBlock
  totalShares : UInt64
  totalBlocks : UInt64
  totalOrphans : UInt64
  totalPaid : ℤ
  deriving DecidableEq

def Ledger.empty : Ledger := ⟨∅, [], 0, 0, 0, 0⟩

structure Server where
  cfg : Config
  templates : ExtTreeMap Hash Template
  current : Hash
  ring : List Share
  ledger : Ledger
  nextNonce : UInt64
  nonceInit : Bool

def maxRing : ℕ := 100000

def newServer (cfg : Config) (file : Option Ledger) : Server :=
  let cfg := cfg.fillDefaults
  ⟨cfg, ∅, 0, [], if cfg.persists then file.getD .empty else .empty, 0, false⟩

/-- The key of the pool: a signature makes it the sender, and covers all but itself. -/
structure Wallet [Crypto] where
  address : Address
  sign : Transaction → Option Bytes
  sender_sign : ∀ tx sig, sign tx = some sig → Transaction.sender { tx with sig := sig } = .ok address

inductive Event
  /-- a block was passed to `InsertBlock` -/
  | offered (b : Block)
  | share (workID : Hash) (nonce : UInt64)
  | won (fb : FoundBlock)
  /-- a found block matured, with the canonical hash at its height at that time -/
  | matured (fb : FoundBlock) (canonical : Option Hash)
  | orphaned (fb : FoundBlock) (canonical : Option Hash)
  /-- a payout was released -/
  | paid (addr : Address) (amount : ℤ) (tx : Transaction)

/-- The server, the chain and the mempool around it, the file of the ledger, and the trace. -/
structure Node where
  bc : Blockchain
  mp : Mempool
  server : Server
  file : Option Ledger
  trace : List Event

/-- What `BuildUnsealed` and the template read besides the chain and the mempool. -/
structure Build where
  nowMs : Int64
  mono : ℤ
  order : Mempool.GroupOrder

/-- An order in which the balances are iterated. -/
structure Range where
  order : Payouts → List (Address × ℤ)
  perm : ∀ m, (order m).Perm m.toList

def Range.sorted : Range := ⟨fun m => m.toList, fun _ => .refl _⟩

/-! ### The calls -/

variable [Crypto]

/-- The mempool after `InsertBlock`: the hook runs if there was a reorg. -/
def hooked (mp : Mempool) (chainID : UInt64) (order : Transaction → MapOrder) :
    Except InsertError (Option Reorg) → Option Mempool
  | .ok (some r) => mp.reorgHook chainID order r
  | _ => some mp

namespace Node

/-- Writing the file succeeds. -/
def saveLocked (n : Node) : Node := if n.server.cfg.persists then { n with file := some n.server.ledger } else n

def note (n : Node) (e : Event) : Node := { n with trace := e :: n.trace }

def newTemplate (cfg : Config) (c : Candidate) (mono : ℤ) : Template :=
  let hdr := c.block.header
  let shareDiff := hdr.difficulty / cfg.shareDiffDivisor
  let shareDiff := if shareDiff < cfg.minShareDiff then cfg.minShareDiff else shareDiff
  -- a share is never harder than the block
  let shareDiff := if hdr.difficulty < shareDiff then hdr.difficulty else shareDiff
  ⟨hdr.hash, hdr, c.block.txs, c.minerFees, shareDiff, mono, hdr.parentHash, ∅⟩

def rebuildLocked (n : Node) (coinbase : Address) (headMoved : Bool) (b : Build) : Node :=
  let templates := if headMoved then ∅ else n.server.templates
  match n.bc.buildUnsealed n.mp coinbase b.nowMs b.order with
  | (none, bc) => { n with bc, server := { n.server with templates } }
  | (some c, bc) =>
    let t := newTemplate n.server.cfg c b.mono
    let templates := if 64 ≤ templates.size then ∅ else templates
    { n with bc, server := { n.server with templates := templates.insert t.id t, current := t.id } }

end Node

inductive ShareError
  | stale
  | duplicate
  | badShare
  deriving DecidableEq

/-- What is split for a block: the whole reward and the tips, less the fee of the pool and the reserve for gas. -/
def pot (cfg : Config) (height : UInt64) (minerFees : ℤ) : ℤ :=
  let pot := blockRewardAt height + minerFees
  let pot := if 0 < cfg.feeBps then pot - pot * cfg.feeBps.toNat / 10000 else pot
  let pot := pot - payoutGasReserve
  if pot < 0 then 0 else pot

def foundBlock (s : Server) (t : Template) : FoundBlock :=
  ⟨t.hdr.height, t.block.hash, pplnsLocked s.cfg.windowFactor s.ring (pot s.cfg t.hdr.height t.minerFees) t.hdr.difficulty⟩

namespace Node

def recordFound (n : Node) (fb : FoundBlock) : Node :=
  (({ n with server := { n.server with ledger := { n.server.ledger with
      pending := n.server.ledger.pending ++ [fb], totalBlocks := n.server.ledger.totalBlocks + 1 } } }).note (.won fb)).saveLocked

/-- A share that meets the block target: commit, record the split and roll the round. -/
def commitFound (n : Node) (coinbase : Address) (t : Template) (nowMs : Int64) (order : Transaction → MapOrder) (b : Build) :
    Option (Node × Except ShareError Bool) :=
  let blk := t.block
  match hooked n.mp n.bc.chainID order (n.bc.insert blk.toWire nowMs).1 with
  | none => none
  | some mp =>
    match n.bc.commit blk nowMs mp with
    -- lost a race with a competing block: the share still counts
    | (.error _, bc, mp) => some (({ n with bc, mp }).note (.offered blk), .ok false)
    | (.ok _, bc, mp) =>
      let n := ({ n with bc, mp }).note (.offered blk)
      some ((n.recordFound (foundBlock n.server t)).rebuildLocked coinbase true b, .ok true)

def creditShare (n : Node) (workID : Hash) (t : Template) (addr : Address) : Node :=
  let ring := n.server.ring ++ [⟨addr, t.shareDiff⟩]
  ({ n with server := { n.server with
      templates := n.server.templates.insert workID { t with seen := t.seen.insert t.hdr.nonce }
      ring := if maxRing < ring.length then ring.drop (ring.length - maxRing) else ring
      ledger := { n.server.ledger with totalShares := n.server.ledger.totalShares + 1 } } }).note (.share workID t.hdr.nonce)

def handleShare (n : Node) (coinbase : Address) (workID : Hash) (nonce : UInt64) (addr : Address) (nowMs : Int64)
    (order : Transaction → MapOrder) (b : Build) : Option (Node × Except ShareError Bool) :=
  match n.server.templates[workID]? with
  | none => some (n, .error .stale)
  | some t =>
    if nonce ∈ t.seen then some (n, .error .duplicate)
    else
      -- the nonce stays in the header of the template, whatever comes
      let t := t.tried nonce
      let val := t.hdr.hash.toNat
      if t.shareTarget < val then
        some ({ n with server := { n.server with templates := n.server.templates.insert workID t } }, .error .badShare)
      else if t.blockTarget < val then some (n.creditShare workID t addr, .ok false)
      else (n.creditShare workID t addr).commitFound coinbase t nowMs order b

end Node

/-! ### Maturity -/

def creditOne (balances : Payouts) (e : Address × ℤ) : Payouts := balances.insert e.1 ((balances[e.1]?).getD 0 + e.2)

/-- Credit the payouts of a block; the order in which they are iterated does not matter. -/
def credit (balances payouts : Payouts) : Payouts := payouts.toList.foldl creditOne balances

/-- The loop over the waiting blocks. -/
structure Maturing where
  bc : Blockchain
  kept : List FoundBlock
  balances : Payouts
  orphans : UInt64
  changed : Bool
  trace : List Event

def matureOne (confirmations headHeight : UInt64) (m : Maturing) (fb : FoundBlock) : Maturing :=
  if headHeight < fb.height + confirmations then { m with kept := m.kept ++ [fb] }
  else
    let canonical := m.bc.db.canonical[fb.height]?
    match m.bc.blockByHeight fb.height with
    | (some b, bc) =>
      if b.hash = fb.hash then
        { m with bc, balances := credit m.balances fb.payouts, changed := true, trace := .matured fb canonical :: m.trace }
      else { m with bc, orphans := m.orphans + 1, changed := true, trace := .orphaned fb canonical :: m.trace }
    | (none, bc) => { m with bc, orphans := m.orphans + 1, changed := true, trace := .orphaned fb canonical :: m.trace }

def Node.matureLocked (n : Node) (headHeight : UInt64) : Node :=
  let l := n.server.ledger
  let m := l.pending.foldl (matureOne n.server.cfg.confirmations headHeight) ⟨n.bc, [], l.balances, l.totalOrphans, false, n.trace⟩
  let n := { n with
    bc := m.bc
    trace := m.trace
    server := { n.server with ledger := { l with pending := m.kept, balances := m.balances, totalOrphans := m.orphans } } }
  if m.changed then n.saveLocked else n

/-! ### Payouts -/

def payoutTx (chainID nonce : UInt64) (addr : Address) (amount : ℤ) : Transaction :=
  ⟨txTypeTransfer, chainID, nonce, some addr, some amount, 21000, some 1, [], []⟩

/-- The loop over the balances. -/
structure Paying where
  mp : Mempool
  balances : Payouts
  nextNonce : UInt64
  totalPaid : ℤ
  changed : Bool
  trace : List Event

/-- One balance: it goes out if it has reached the minimum, the wallet can pay and the mempool takes the transaction. -/
def payOne (wallet : Wallet) (snap : State) (chainID : UInt64) (payoutMin : ℤ) (o : MapOrder) (p : Paying) (e : Address × ℤ) :
    Option Paying :=
  if e.2 < payoutMin then some p
  else
    match wallet.sign (payoutTx chainID p.nextNonce e.1 e.2) with
    | none => some p
    | some sig =>
      let tx := { payoutTx chainID p.nextNonce e.1 e.2 with sig := sig }
      match Mempool.checkState snap tx with
      | none => none
      | some (.error _) => some p
      | some (.ok _) =>
        match p.mp.add tx chainID true o with
        | none => none
        | some (mp, .error _) => some { p with mp }
        | some (mp, .ok _) =>
          some
            { mp
              balances := p.balances.erase e.1
              nextNonce := p.nextNonce + 1
              totalPaid := p.totalPaid + e.2
              changed := true
              trace := .paid e.1 e.2 tx :: p.trace }

def payAll (wallet : Wallet) (snap : State) (chainID : UInt64) (payoutMin : ℤ) (o : MapOrder) : List (Address × ℤ) → Paying →
    Option Paying
  | [], p => some p
  | e :: entries, p =>
    match payOne wallet snap chainID payoutMin o p e with
    | none => none
    | some p' => payAll wallet snap chainID payoutMin o entries p'

namespace Node

/-- The nonce of the next payout, taken from the chain at first and whenever the chain is ahead. -/
def syncNonce (s : Server) (committed : UInt64) : UInt64 := if !s.nonceInit || s.nextNonce < committed then committed else s.nextNonce

/-- The loop of `payoutLocked` over the first entries of a range. -/
def startPayout (n : Node) (wallet : Wallet) (entries : List (Address × ℤ)) (o : MapOrder) : Option Paying :=
  match n.bc.stateSnapshot with
  | none => none
  | some snap =>
    let l := n.server.ledger
    payAll wallet snap n.bc.chainID (n.server.cfg.payoutMin.getD 0) o entries
      ⟨n.mp, l.balances, syncNonce n.server (snap.nonce wallet.address), l.totalPaid, false, n.trace⟩

def payoutLocked (n : Node) (wallet : Wallet) (r : Range) (o : MapOrder) : Option Node :=
  (n.startPayout wallet (r.order n.server.ledger.balances) o).map fun p =>
    let n := { n with
      mp := p.mp
      trace := p.trace
      server := { n.server with
        ledger := { n.server.ledger with balances := p.balances, totalPaid := p.totalPaid }
        nextNonce := p.nextNonce
        nonceInit := true } }
    if p.changed then n.saveLocked else n

/-! ### Runs -/

/-- The last part of `tick`; `head` is the head as the tick found it. -/
def refresh (n : Node) (coinbase : Address) (head : Hash) (b : Build) : Node :=
  match n.server.templates[n.server.current]? with
  | none => n.rebuildLocked coinbase true b
  | some cur =>
    if cur.parent ≠ head then n.rebuildLocked coinbase true b
    else if n.server.cfg.refreshInterval ≤ b.mono - cur.built then n.rebuildLocked coinbase false b
    else n

def insertBlock (n : Node) (w : WireBlock) (nowMs : Int64) (order : Transaction → MapOrder) : Option Node :=
  (hooked n.mp n.bc.chainID order (n.bc.insert w nowMs).1).map fun mp =>
    { n with
      bc := (n.bc.insert w nowMs).2
      mp
      trace := (w.block?).elim n.trace (.offered · :: n.trace) }

end Node

/-- The calls of the server, what the rest of the node does between them, and the end of the process. A tick is `mature`,
`payout` and `refresh`. -/
inductive Op
  | share (workID : Hash) (nonce : UInt64) (addr : Address) (nowMs : Int64) (order : Transaction → MapOrder) (b : Build)
  | mature (headHeight : UInt64)
  | payout (r : Range) (o : MapOrder)
  | refresh (head : Hash) (b : Build)
  | insert (w : WireBlock) (nowMs : Int64) (order : Transaction → MapOrder)
  | mempool (op : Mempool.PoolOp)
  /-- the process ends between two calls and is started again, with a mempool from its journal -/
  | restart (opts : Options) (mp : Mempool)
  /-- the process ends in `payoutLocked`, after so many balances were handled and before the ledger is saved -/
  | crash (r : Range) (o : MapOrder) (handled : ℕ) (opts : Options) (mp : Mempool)

inductive Stop
  | panic
  | reopen (e : OpenError)

def Node.start (g : Genesis) (cfg : Config) (db : Database) (opts : Options) (mp : Mempool) (file : Option Ledger)
    (trace : List Event) : Except Stop Node :=
  match newBlockchain db g opts with
  | .error e => .error (.reopen e)
  | .ok bc => .ok ⟨bc, mp, newServer cfg file, file, trace⟩

def Node.exec (g : Genesis) (cfg : Config) (wallet : Wallet) (n : Node) : Op → Except Stop Node
  | .share workID nonce addr nowMs order b =>
    match n.handleShare wallet.address workID nonce addr nowMs order b with
    | none => .error .panic
    | some (n', _) => .ok n'
  | .mature headHeight => .ok (n.matureLocked headHeight)
  | .payout r o =>
    match n.payoutLocked wallet r o with
    | none => .error .panic
    | some n' => .ok n'
  | .refresh head b => .ok (n.refresh wallet.address head b)
  | .insert w nowMs order =>
    match n.insertBlock w nowMs order with
    | none => .error .panic
    | some n' => .ok n'
  | .mempool op =>
    match n.mp.exec op with
    | .error _ => .error .panic
    | .ok mp => .ok { n with mp }
  | .restart opts mp => Node.start g cfg n.bc.db opts mp n.file n.trace
  | .crash r o handled opts mp =>
    match n.startPayout wallet ((r.order n.server.ledger.balances).take handled) o with
    | none => .error .panic
    | some p => Node.start g cfg n.bc.db opts mp n.file p.trace

def runPool (g : Genesis) (cfg : Config) (wallet : Wallet) (opts : Options) (mp : Mempool) (ops : List Op) : Except Stop Node :=
  match Node.start g cfg .empty opts mp none [] with
  | .error e => .error e
  | .ok n => Run.run (Node.exec g cfg wallet) n ops

end Lxs.Pool
