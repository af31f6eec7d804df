import Lxs.Core.Validity

/-!
# Headers-first sync

`p2p/sync.go`: how a node answers sync requests from its canonical chain, and how it catches up with one peer. A peer is
what it answers: a function from requests to the decoded answer and the length of its encoding, or nothing if the
transport or the decoding fails. `SyncFrom` is a loop of rounds; a round reads the clock for every header it checks and
for every block it inserts, and the readings are its arguments. What reading our own chain caches is left out, as are the
rate limiter of the server, the flag that keeps a second sync from starting, and the log.
-/

namespace Lxs

open Std Lib

variable [Crypto]

/-- The work barrier for a header: the difficulty it claims. -/
def verifyHeaderPoW (h : Header) : Bool := !(h.difficulty < minDifficulty) && satisfiesPoW h

namespace Blockchain

def blockByHash (bc : Blockchain) (h : Hash) : Option Block := (bc.blockLocked h).1.toOption

end Blockchain

namespace P2p

def maxSyncMessage : ℕ := 16777216
def maxHeadersPerRequest : ℕ := 256

inductive SyncError
  | badSyncRequest
  | headerChain
  | headersUnlinked
  | futureHeader
  | bodyMismatch
  /-- the transport, the decoding, or a block of our own chain -/
  | failed
  /-- the bound put on the search for the common ancestor was too small -/
  | outOfFuel
  deriving DecidableEq

inductive SyncRequest
  | headers (source max : UInt64)
  | bodies (hashes : List Hash)

/-- An element is `none` if it is `nil`, or a block without a header. -/
structure SyncResponse where
  headers : List (Option Header)
  blocks : List (Option WireBlock)

abbrev Peer := SyncRequest → Option (SyncResponse × ℕ)

/-! ### Serving -/

def serveHeaders (bc : Blockchain) : ℕ → UInt64 → List Header
  | 0, _ => []
  | n + 1, height =>
    match (bc.blockByHeight height).1 with
    | none => []
    | some blk => blk.header :: serveHeaders bc n (height + 1)

def bodySize (b : Block) : ℕ := b.txs.foldl (fun sz tx => sz + (tx.data.length + 384)) 1024

/-- The blocks for some hashes, up to a size, but the first of any size. -/
def serveBodies (bc : Blockchain) : ℕ → List Block → List Hash → List Block
  | _, blocks, [] => blocks
  | approx, blocks, h :: hashes =>
    match bc.blockByHash h with
    | none => serveBodies bc approx blocks hashes
    | some blk =>
      if 0 < blocks.length ∧ maxSyncMessage * 3 / 4 < approx + bodySize blk then blocks
      else serveBodies bc (approx + bodySize blk) (blocks ++ [blk]) hashes

def serve (bc : Blockchain) : SyncRequest → Except SyncError SyncResponse
  | .headers source max =>
    let n := if max = 0 ∨ maxHeadersPerRequest < max.toNat then maxHeadersPerRequest else max.toNat
    .ok ⟨(serveHeaders bc n source).map some, []⟩
  | .bodies hashes =>
    if maxHeadersPerRequest < hashes.length then .error .badSyncRequest
    else .ok ⟨[], (serveBodies bc 0 [] hashes).map fun b => some b.toWire⟩

/-! ### Asking -/

/-- One request; an answer that is too long is refused. -/
def request (peer : Peer) (req : SyncRequest) : Except SyncError SyncResponse :=
  match peer req with
  | none => .error .failed
  | some (resp, size) => if maxSyncMessage < size then .error .badSyncRequest else .ok resp

def headersOf (headers : List (Option Header)) : Except SyncError (List Header) :=
  match headers.mapM id with
  | none => .error .headerChain
  | some headers => .ok headers

def getHeaders (peer : Peer) (start : UInt64) : Except SyncError (List Header) :=
  match request peer (.headers start (UInt64.ofNat maxHeadersPerRequest)) with
  | .error e => .error e
  | .ok resp => if maxHeadersPerRequest < resp.headers.length then .error .headerChain else headersOf resp.headers

def getHeaderAt (peer : Peer) (height : UInt64) : Except SyncError Header :=
  match request peer (.headers height 1) with
  | .error e => .error e
  | .ok resp =>
    match resp.headers with
    | some h :: _ => if h.height ≠ height then .error .headerChain else .ok h
    | _ => .error .headerChain

def agreesAt (peer : Peer) (bc : Blockchain) (height : UInt64) : Except SyncError Bool :=
  match getHeaderAt peer height with
  | .error e => .error e
  | .ok theirs =>
    match (bc.blockByHeight height).1 with
    | none => .error .failed
    | some ours => .ok (theirs.hash = ours.hash)

/-- The loop of the search: the chains agree at `lo` and differ at `hi`. -/
def searchAncestor (peer : Peer) (bc : Blockchain) : ℕ → UInt64 → UInt64 → Except SyncError UInt64
  | 0, _, _ => .error .outOfFuel
  | n + 1, lo, hi =>
    if lo + 1 < hi then
      let mid := (lo + hi) / 2
      match agreesAt peer bc mid with
      | .error e => .error e
      | .ok true => searchAncestor peer bc n mid hi
      | .ok false => searchAncestor peer bc n lo mid
    else .ok lo

/-- The highest height at which the peer's chain is ours; `none` if that is below the retained blocks. -/
def findCommonAncestor (peer : Peer) (bc : Blockchain) (head : UInt64) : Except SyncError (Option UInt64) :=
  let lo := if bc.retention < head then head - bc.retention else 0
  match agreesAt peer bc lo with
  | .error e => .error e
  | .ok false => .ok none
  | .ok true =>
    match searchAncestor peer bc (head.toNat - lo.toNat + 1) lo head with
    | .error e => .error e
    | .ok anc => .ok (some anc)

def isChildOf (h : Header) : Option Header → Bool
  | none => true
  | some p => h.height = p.height + 1 && h.parentHash = p.hash

/-- The loop over the headers of a batch, the clock read for each of them. -/
def checkHeaders (now : ℕ → Int64) : ℕ → Option Header → List Header → Except SyncError Unit
  | _, _, [] => .ok ()
  | i, prev, h :: headers =>
    if !isChildOf h prev then .error .headerChain
    else if now i + maxFutureDriftMs < h.timestamp then .error .futureHeader
    else if !verifyHeaderPoW h then .error .headerChain
    else checkHeaders now (i + 1) (some h) headers

def checkHeaderChain (bc : Blockchain) (first : Header) (rest : List Header) (start : UInt64) (now : ℕ → Int64) :
    Except SyncError Unit :=
  if first.height ≠ start then .error .headerChain
  else
    match (bc.blockByHeight (start - 1)).1 with
    | none => .error .headersUnlinked
    | some anchor =>
      if first.parentHash ≠ anchor.hash then .error .headersUnlinked else checkHeaders now 0 none (first :: rest)

/-- The blocks of an answer by their hashes; one that was not asked for is refused. -/
def collectBodies (want : List Hash) : ExtTreeMap Hash WireBlock → List (Option WireBlock) →
    Except SyncError (ExtTreeMap Hash WireBlock)
  | got, [] => .ok got
  | _, none :: _ => .error .bodyMismatch
  | got, some b :: blocks =>
    if b.header.hash ∉ want then .error .bodyMismatch else collectBodies want (got.insert b.header.hash b) blocks

/-- The blocks in the order of the headers, up to the first gap. -/
def orderBodies (got : ExtTreeMap Hash WireBlock) : List Hash → List WireBlock
  | [] => []
  | h :: want =>
    match got[h]? with
    | none => []
    | some b => b :: orderBodies got want

def getBodies (peer : Peer) (headers : List Header) : Except SyncError (List WireBlock) :=
  let want := headers.map Header.hash
  match request peer (.bodies want) with
  | .error e => .error e
  | .ok resp =>
    match collectBodies want ∅ resp.blocks with
    | .error e => .error e
    | .ok got => .ok (orderBodies got want)

/-! ### Syncing -/

/-- How the insertions of a round end. -/
inductive Ended
  /-- all were tried, and so many were new -/
  | tried (newly : ℕ)
  /-- a block cannot be judged now -/
  | deferred
  /-- a block is at fault -/
  | faulty
  deriving DecidableEq

/-- Insert the blocks of an answer; `newly` of them were new so far, and `i` were tried. -/
def insertBodies (now : ℕ → Int64) : ℕ → ℕ → Blockchain → List WireBlock → Blockchain × Ended
  | _, newly, bc, [] => (bc, .tried newly)
  | i, newly, bc, b :: blocks =>
    match bc.insert b (now i) with
    | (.ok _, bc') => insertBodies now (i + 1) (newly + 1) bc' blocks
    | (.error .knownBlock, bc') => insertBodies now (i + 1) newly bc' blocks
    | (.error (.futureBlock _ _), bc') => (bc', .deferred)
    | (.error (.reorgTooDeep _), bc') => (bc', .deferred)
    | (.error _, bc') => (bc', .faulty)

/-- Our chain, and how often the peer was penalised. -/
structure Syncing where
  bc : Blockchain
  penalties : ℕ

def Syncing.penalize (s : Syncing) : Syncing := { s with penalties := s.penalties + 1 }

/-- What a round reads from the clock: for the headers of the first and of the second check, and for the blocks. -/
structure Readings where
  first : ℕ → Int64
  second : ℕ → Int64
  insert : ℕ → Int64

/-- Fetch and insert the bodies of checked headers. An error is the state in which `SyncFrom` returns. -/
def pullBodies (peer : Peer) (s : Syncing) (r : Readings) (headers : List Header) : Except Syncing Syncing :=
  match getBodies peer headers with
  | .error .bodyMismatch => .error s.penalize
  | .error _ => .error s
  | .ok blocks =>
    match insertBodies r.insert 0 0 s.bc blocks with
    | (bc, .faulty) => .error { s with bc := bc }.penalize
    | (bc, .deferred) => .error { s with bc := bc }
    | (bc, .tried 0) => .error { s with bc := bc }
    | (bc, .tried (_ + 1)) => .ok { s with bc := bc }

def pullFork (peer : Peer) (s : Syncing) (r : Readings) : Except Syncing Syncing :=
  match findCommonAncestor peer s.bc s.bc.head.height with
  | .error _ => .error s
  | .ok none => .error s
  | .ok (some anc) =>
    match getHeaders peer (anc + 1) with
    | .error _ => .error s
    | .ok [] => .error s
    | .ok (first :: rest) =>
      match checkHeaderChain s.bc first rest (anc + 1) r.second with
      | .error _ => .error s.penalize
      | .ok _ => pullBodies peer s r (first :: rest)

def syncRound (peer : Peer) (s : Syncing) (r : Readings) : Except Syncing Syncing :=
  let start := s.bc.head.height + 1
  match getHeaders peer start with
  | .error _ => .error s
  | .ok [] => .error s
  | .ok (first :: rest) =>
    match checkHeaderChain s.bc first rest start r.first with
    | .error .futureHeader => .error s
    | .error .headersUnlinked => pullFork peer s r
    | .error _ => .error s.penalize
    | .ok _ => pullBodies peer s r (first :: rest)

/-- The rounds for some readings of the clock: an error is the state in which `SyncFrom` has returned, and otherwise it
is still syncing. -/
def syncFrom (peer : Peer) (banned : Bool) (s : Syncing) (rounds : List Readings) : Except Syncing Syncing :=
  if banned then .error s else Run.run (syncRound peer) s rounds

end P2p

end Lxs
