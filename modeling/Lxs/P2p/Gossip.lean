import Lxs.Core.Insertion
import Lxs.Lib.Buckets

/-!
# Block gossip

`p2p/gossip.go`: inbound blocks, and the queue of blocks whose parent has not arrived. A peer is penalised by `penalize`;
the scorer's answer whether a peer is banned is an argument. The wall clock is an argument too, by the block that is
tried: no block is tried twice in a call. The hook that starts a sync and the log are left out.
-/

namespace Lxs.P2p

open Std Lib

abbrev PeerID := String

def maxBlockMessage : ℕ := 8388608
def defaultMaxOrphanBytes : ℤ := 33554432

/-- A parked block, with the peer that sent it and its size when it was parked. -/
structure OrphanEntry where
  blk : Block
  source : PeerID
  size : ℤ

structure Stats where
  received : Int64
  fastDuplicate : Int64
  lateDuplicate : Int64
  accepted : Int64
  orphaned : Int64
  evicted : Int64
  rejected : Int64
  dropped : Int64
  deferred : Int64

structure Gossip where
  maxOrphans : ℤ
  maxOrphansPerPeer : ℤ
  maxOrphanBytes : ℤ
  /-- by the parent they wait for -/
  orphans : ExtTreeMap Hash (List OrphanEntry)
  orphansByPeer : ExtTreeMap PeerID ℤ
  /-- the oldest first -/
  orphanOrder : List Hash
  orphanCount : ℤ
  orphanBytes : ℤ
  stats : Stats
  /-- the peers penalised so far, the newest first -/
  penalties : List PeerID

/-- A message on the wire: its length, and the block in it if it decodes to one with a header. -/
structure BlockMessage where
  size : ℕ
  block : Option WireBlock

inductive GossipError
  | messageTooLarge (size : ℕ)
  | badEncoding
  | rejected (h : Hash) (e : InsertError)
  deriving DecidableEq

def orphanBytesOf (b : Block) : ℤ := b.txs.foldl (fun n tx => n + (160 + tx.data.length)) 256

/-- The options of the source; zero selects the default of the last two. -/
def newGossip (maxOrphans maxOrphansPerPeer maxOrphanBytes : ℤ) : Gossip where
  maxOrphans := maxOrphans
  maxOrphansPerPeer := if maxOrphansPerPeer = 0 then maxOrphans.tdiv 4 + 1 else maxOrphansPerPeer
  maxOrphanBytes := if maxOrphanBytes = 0 then defaultMaxOrphanBytes else maxOrphanBytes
  orphans := ∅
  orphansByPeer := ∅
  orphanOrder := []
  orphanCount := 0
  orphanBytes := 0
  stats := ⟨0, 0, 0, 0, 0, 0, 0, 0, 0⟩
  penalties := []

namespace Gossip

def waiting (g : Gossip) (parent : Hash) : List OrphanEntry := Buckets.bucket g.orphans parent

def byPeer (g : Gossip) (p : PeerID) : ℤ := g.orphansByPeer[p]?.getD 0

def penalize (g : Gossip) (p : PeerID) : Gossip :=
  { g with stats := { g.stats with rejected := g.stats.rejected + 1 }, penalties := p :: g.penalties }

/-- Take one block off a peer's share; a share of nothing is deleted. -/
def refund (byPeer : ExtTreeMap PeerID ℤ) (e : OrphanEntry) : ExtTreeMap PeerID ℤ :=
  let n := byPeer[e.source]?.getD 0 - 1
  if n ≤ 0 then byPeer.erase e.source else byPeer.insert e.source n

def evict (g : Gossip) (oldest : Hash) : Gossip :=
  { g with
    orphans := g.orphans.erase oldest
    orphansByPeer := (g.waiting oldest).foldl refund g.orphansByPeer
    orphanCount := (g.waiting oldest).foldl (fun n _ => n - 1) g.orphanCount
    orphanBytes := (g.waiting oldest).foldl (fun n e => n - e.size) g.orphanBytes
    stats := { g.stats with evicted := g.stats.evicted + .ofNat (g.waiting oldest).length } }

/-- Evict the oldest of `order` until a block of the size fits into both bounds. -/
def makeRoom (g : Gossip) (size : ℤ) : List Hash → Gossip
  | [] => { g with orphanOrder := [] }
  | oldest :: order =>
    if g.maxOrphans ≤ g.orphanCount ∨ g.maxOrphanBytes < g.orphanBytes + size then (g.evict oldest).makeRoom size order
    else { g with orphanOrder := oldest :: order }

def park (g : Gossip) (blk : Block) (source : PeerID) (size : ℤ) : Gossip :=
  { g with
    orphanOrder := if blk.header.parentHash ∈ g.orphans then g.orphanOrder else g.orphanOrder ++ [blk.header.parentHash]
    orphans := Buckets.push g.orphans blk.header.parentHash ⟨blk, source, size⟩
    orphansByPeer := g.orphansByPeer.insert source (g.byPeer source + 1)
    orphanCount := g.orphanCount + 1
    orphanBytes := g.orphanBytes + size
    stats := { g.stats with orphaned := g.stats.orphaned + 1 } }

def without (g : Gossip) (h : Hash) : Gossip :=
  { g with
    orphans := g.orphans.erase h
    orphanCount := g.orphanCount - (g.waiting h).length
    orphanBytes := (g.waiting h).foldl (fun n e => n - e.size) g.orphanBytes
    orphansByPeer := (g.waiting h).foldl refund g.orphansByPeer
    orphanOrder := g.orphanOrder.erase h }

/-- What waits for a parent that has arrived, taken out of the queue. -/
def takeWaiting (g : Gossip) (h : Hash) : List OrphanEntry × Gossip :=
  if g.waiting h = [] then ([], g) else (g.waiting h, g.without h)

variable [Crypto]

def queueOrphan (g : Gossip) (blk : Block) (source : PeerID) : Gossip :=
  if (g.waiting blk.header.parentHash).any (·.blk.hash = blk.hash) then g
  else if g.maxOrphansPerPeer ≤ g.byPeer source then g.penalize source
  else
    let size := orphanBytesOf blk
    let g := g.makeRoom size g.orphanOrder
    -- a block larger than the whole budget fits into no queue
    if g.maxOrphanBytes < g.orphanBytes + size then g.penalize source else g.park blk source size

/-- Try the blocks that waited; the hashes of those that were accepted, in order. -/
def tryWaiting (clock : Hash → Int64) : List OrphanEntry → Gossip → Blockchain → List Hash × Gossip × Blockchain
  | [], g, bc => ([], g, bc)
  | e :: waiting, g, bc =>
    match bc.insert e.blk.toWire (clock e.blk.hash) with
    | (.error .knownBlock, bc') => tryWaiting clock waiting g bc'
    | (.error _, bc') => tryWaiting clock waiting (g.penalize e.source) bc'
    | (.ok _, bc') =>
      match tryWaiting clock waiting { g with stats := { g.stats with accepted := g.stats.accepted + 1 } } bc' with
      | (accepted, r) => (e.blk.hash :: accepted, r)

/-- The loop of `resolveOrphans`; `none` when the bound on it was too small. -/
def resolveLoop (clock : Hash → Int64) : ℕ → List Hash → Gossip → Blockchain → Option (Gossip × Blockchain)
  | _, [], g, bc => some (g, bc)
  | 0, _ :: _, _, _ => none
  | n + 1, h :: queue, g, bc =>
    match g.takeWaiting h with
    | (waiting, g) =>
      match tryWaiting clock waiting g bc with
      | (accepted, g, bc) => resolveLoop clock n (queue ++ accepted) g bc

def resolveOrphans (g : Gossip) (bc : Blockchain) (clock : Hash → Int64) (parent : Hash) : Option (Gossip × Blockchain) :=
  resolveLoop clock ((Buckets.entries g.orphans).length + 1) [parent] g bc

def insert (g : Gossip) (bc : Blockchain) (clock : Hash → Int64) (w : WireBlock) (source : PeerID) :
    Option (Except GossipError Unit × Gossip × Blockchain) :=
  match bc.insert w (clock w.header.hash) with
  | (.ok _, bc') =>
    (resolveOrphans { g with stats := { g.stats with accepted := g.stats.accepted + 1 } } bc' clock w.header.hash).map
      fun r => (.ok (), r)
  | (.error .knownBlock, bc') =>
    some (.ok (), { g with stats := { g.stats with lateDuplicate := g.stats.lateDuplicate + 1 } }, bc')
  | (.error (.futureBlock _ _), bc') =>
    some (.ok (), { g with stats := { g.stats with deferred := g.stats.deferred + 1 } }, bc')
  | (.error (.unknownParent _), bc') =>
    -- a block with a `nil` transaction is refused before its parent is looked for
    some (.ok (), (w.block?.map fun b => g.queueOrphan b source).getD g, bc')
  | (.error (.reorgTooDeep _), bc') => some (.ok (), g, bc')
  | (.error e, bc') => some (.error (.rejected w.header.hash e), g.penalize source, bc')

def hasBlock (bc : Blockchain) (h : Hash) : Bool := h ∈ bc.blockCache || h ∈ bc.db.blocks

def onBlock (g : Gossip) (bc : Blockchain) (clock : Hash → Int64) (banned : Bool) (source : PeerID) (msg : BlockMessage) :
    Option (Except GossipError Unit × Gossip × Blockchain) :=
  if banned then some (.ok (), { g with stats := { g.stats with dropped := g.stats.dropped + 1 } }, bc)
  else
    let g := { g with stats := { g.stats with received := g.stats.received + 1 } }
    if maxBlockMessage < msg.size then some (.error (.messageTooLarge msg.size), g.penalize source, bc)
    else
      match msg.block with
      | none => some (.error .badEncoding, g.penalize source, bc)
      | some w =>
        if hasBlock bc w.header.hash then
          some (.ok (), { g with stats := { g.stats with fastDuplicate := g.stats.fastDuplicate + 1 } }, bc)
        else g.insert bc clock w source

end Gossip

end Lxs.P2p
