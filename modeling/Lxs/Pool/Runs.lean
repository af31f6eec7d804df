import Lxs.Core.Validity
import Lxs.Pool.Server

/-!
# Runs of the mining pool

What one call of the pool's server does to the chain, and the chain over whole runs: as in every run of a node, its blocks
form a tree whose total difficulties are those of the chains, and the head is the best of them.
-/

set_option linter.unusedSectionVars false

namespace Lxs.Pool

open Std Lib Blockchain

variable [Crypto] {g : Genesis} {cfg : Config} {wallet : Wallet} {n n' : Node} {bc bc' : Blockchain}

/-! ### The calls and the chain -/

theorem buildUnsealed_cached (hc : Coherent bc) (pool : Mempool) (coinbase : Address) (nowMs : Int64) (o : Mempool.GroupOrder) :
    Cached bc (bc.buildUnsealed pool coinbase nowMs o).2 := by
  unfold buildUnsealed
  split
  · exact .refl bc
  · obtain ⟨bc', h, hr⟩ := requiredDifficulty_eq hc bc.head.header
    dsimp only
    rw [hr]
    exact h

/-- A template is built: only the templates and the cache of the chain change. -/
structure Rebuilt (n n' : Node) : Prop where
  eq : n' = { n with
    bc := n'.bc, server := { n.server with templates := n'.server.templates, current := n'.server.current } }
  cached : Coherent n.bc → Cached n.bc n'.bc

theorem rebuilt_rebuildLocked (n : Node) (coinbase : Address) (headMoved : Bool) (b : Build) :
    Rebuilt n (n.rebuildLocked coinbase headMoved b) := by
  have hcached := fun hc : Coherent n.bc => buildUnsealed_cached hc n.mp coinbase b.nowMs b.order
  unfold Node.rebuildLocked
  generalize n.bc.buildUnsealed n.mp coinbase b.nowMs b.order = r at hcached
  obtain ⟨_ | c, bc'⟩ := r
  · exact ⟨rfl, hcached⟩
  · exact ⟨rfl, hcached⟩

variable {coinbase : Address} {b : Build}

/-- **Where templates come from**: a template of a rebuild is an old one, unless the head had moved, or the one that is built
now, under its own hash and with no nonce credited. -/
theorem getElem?_rebuildLocked {headMoved : Bool} {k : Hash} {t : Template}
    (h : (n.rebuildLocked coinbase headMoved b).server.templates[k]? = some t) :
    (headMoved = false ∧ n.server.templates[k]? = some t) ∨
      ∃ c, (n.bc.buildUnsealed n.mp coinbase b.nowMs b.order).1 = some c ∧ k = c.block.header.hash ∧
        t = Node.newTemplate n.server.cfg c b.mono := by
  unfold Node.rebuildLocked at h
  generalize n.bc.buildUnsealed n.mp coinbase b.nowMs b.order = r at h
  generalize hm : (if headMoved then (∅ : ExtTreeMap Hash Template) else n.server.templates) = m at h
  have hold : m[k]? = some t → headMoved = false ∧ n.server.templates[k]? = some t := by
    intro hk
    rw [← hm] at hk
    split at hk
    · cases hk
    · rename_i hmoved
      exact ⟨by simpa using hmoved, hk⟩
  obtain ⟨_ | c, bc'⟩ := r
  · exact .inl (hold h)
  · dsimp only at h
    rw [ExtTreeMap.getElem?_insert] at h
    split at h
    · rename_i hk
      cases h
      exact .inr ⟨c, rfl, (LawfulEqCmp.compare_eq_iff_eq.1 hk).symm, rfl⟩
    · split at h
      · cases h
      · exact .inl (hold h)

variable {nowMs : Int64}

theorem parentHash_buildUnsealed {pool : Mempool} {o : Mempool.GroupOrder} {c : Candidate}
    (h : (bc.buildUnsealed pool coinbase nowMs o).1 = some c) : c.block.header.parentHash = bc.head.hash := by
  unfold buildUnsealed at h
  split at h
  · cases h
  · cases h
    rfl

theorem rebuilt_refresh (n : Node) (coinbase : Address) (head : Hash) (b : Build) : Rebuilt n (n.refresh coinbase head b) := by
  unfold Node.refresh
  split
  · exact rebuilt_rebuildLocked ..
  · split_ifs
    · exact rebuilt_rebuildLocked ..
    · exact rebuilt_rebuildLocked ..
    · exact ⟨rfl, fun _ => .refl _⟩

theorem pot_nonneg (cfg : Config) (height : UInt64) (minerFees : ℤ) : 0 ≤ pot cfg height minerFees := by
  unfold pot
  dsimp only
  split <;> omega

/-- The nonce is new and meets both targets: it is tried as a block. -/
def Template.wins (t : Template) (nonce : UInt64) : Bool :=
  nonce ∉ t.seen && !(t.shareTarget < (t.tried nonce).hdr.hash.toNat) && !(t.blockTarget < (t.tried nonce).hdr.hash.toNat)

/-- **What a submitted nonce can do**: it is refused, credited, or credited and committed as a block, which fails or is
recorded. -/
inductive Handled (n : Node) (coinbase : Address) (workID : Hash) (nonce : UInt64) (addr : Address) (nowMs : Int64)
    (order : Transaction → MapOrder) (b : Build) : Node → Except ShareError Bool → Prop
  | refused {e : ShareError} : Handled n coinbase workID nonce addr nowMs order b n (.error e)
  | bad {t : Template} : n.server.templates[workID]? = some t →
      Handled n coinbase workID nonce addr nowMs order b
        { n with server := { n.server with templates := n.server.templates.insert workID (t.tried nonce) } } (.error .badShare)
  | credited {t : Template} : n.server.templates[workID]? = some t → nonce ∉ t.seen →
      Handled n coinbase workID nonce addr nowMs order b (n.creditShare workID (t.tried nonce) addr) (.ok false)
  | raced {t : Template} {bc : Blockchain} {e : InsertError} : n.server.templates[workID]? = some t → nonce ∉ t.seen →
      n.bc.insert (t.tried nonce).block.toWire nowMs = (.error e, bc) →
      Handled n coinbase workID nonce addr nowMs order b
        (Node.note { n.creditShare workID (t.tried nonce) addr with bc := bc } (.offered (t.tried nonce).block)) (.ok false)
  | won {t : Template} {bc : Blockchain} {mp : Mempool} {r : Option Reorg} {m : Node} :
      n.server.templates[workID]? = some t → t.wins nonce = true →
      n.bc.insert (t.tried nonce).block.toWire nowMs = (.ok r, bc) → hooked n.mp n.bc.chainID order (.ok r) = some mp →
      m = Node.note { n.creditShare workID (t.tried nonce) addr with bc := bc, mp := mp.remove t.txs }
        (.offered (t.tried nonce).block) →
      Handled n coinbase workID nonce addr nowMs order b
        ((m.recordFound (foundBlock m.server (t.tried nonce))).rebuildLocked coinbase true b) (.ok true)

theorem handleShare_cases {workID : Hash} {nonce : UInt64} {addr : Address}
    {order : Transaction → MapOrder} {r : Except ShareError Bool}
    (h : n.handleShare coinbase workID nonce addr nowMs order b = some (n', r)) :
    Handled n coinbase workID nonce addr nowMs order b n' r := by
  unfold Node.handleShare at h
  split at h
  · cases h
    exact .refused
  · rename_i t ht
    split at h
    · cases h
      exact .refused
    · rename_i hseen
      dsimp only at h
      split at h
      · cases h
        exact .bad ht
      · rename_i hshare
        split at h
        · cases h
          exact .credited ht hseen
        · rename_i hblock
          unfold Node.commitFound commit at h
          dsimp only at h
          split at h
          · cases h
          · rename_i mp hmp
            have hbc : (n.creditShare workID (t.tried nonce) addr).bc = n.bc := rfl
            rw [hbc] at h hmp
            generalize hinsert : n.bc.insert (t.tried nonce).block.toWire nowMs = res at h hmp
            obtain ⟨e | reorg, bc⟩ := res
            · cases h
              cases hmp
              exact .raced ht hseen hinsert
            · cases h
              exact .won ht (by simpa [Template.wins, hseen] using ⟨Nat.not_lt.1 hshare, Nat.not_lt.1 hblock⟩) hinsert hmp rfl

section Mature

variable (confirmations headHeight : UInt64) {m : Maturing}

/-- **What becomes of a waiting block**: it waits on, or is deep enough and credited or given up, as the canonical block at
its height is the block itself or not. -/
theorem matureOne_cases (hc : Coherent m.bc) (fb : FoundBlock) :
    matureOne confirmations headHeight m fb = { m with kept := m.kept ++ [fb] } ∨
    ∃ bc', Cached m.bc bc' ∧
      (((m.bc.db.canonical[fb.height]?).bind (m.bc.db.blocks[·]?)).map Block.hash = some fb.hash ∧
        matureOne confirmations headHeight m fb = { m with
          bc := bc', balances := credit m.balances fb.payouts, changed := true
          trace := .matured fb (m.bc.db.canonical[fb.height]?) :: m.trace } ∨
      ((m.bc.db.canonical[fb.height]?).bind (m.bc.db.blocks[·]?)).map Block.hash ≠ some fb.hash ∧
        matureOne confirmations headHeight m fb = { m with
          bc := bc', orphans := m.orphans + 1, changed := true
          trace := .orphaned fb (m.bc.db.canonical[fb.height]?) :: m.trace }) := by
  unfold matureOne
  split
  · exact .inl rfl
  · obtain ⟨bc', hcached, hr⟩ := blockByHeight_eq hc fb.height
    refine .inr ⟨bc', hcached, ?_⟩
    dsimp only
    rw [hr]
    cases (m.bc.db.canonical[fb.height]?).bind (m.bc.db.blocks[·]?) with
    | none => exact .inr ⟨by simp, rfl⟩
    | some b =>
      dsimp only
      split
      · rename_i heq
        exact .inl ⟨by rw [Option.map_some, heq], rfl⟩
      · rename_i hne
        exact .inr ⟨by rw [Option.map_some]; exact fun h => hne (Option.some.inj h), rfl⟩

theorem matureOne_grows (hc : Coherent m.bc) (fb : FoundBlock) : Cached m.bc (matureOne confirmations headHeight m fb).bc ∧
    m.trace <:+ (matureOne confirmations headHeight m fb).trace := by
  rcases matureOne_cases confirmations headHeight hc fb with heq | ⟨bc', hcached, ⟨-, heq⟩ | ⟨-, heq⟩⟩
  · rw [heq]
    exact ⟨.refl _, List.suffix_rfl⟩
  · rw [heq]
    exact ⟨hcached, List.suffix_cons ..⟩
  · rw [heq]
    exact ⟨hcached, List.suffix_cons ..⟩

theorem mature_grows (l : List FoundBlock) : ∀ {m : Maturing}, Coherent m.bc →
    Cached m.bc (l.foldl (matureOne confirmations headHeight) m).bc ∧
      m.trace <:+ (l.foldl (matureOne confirmations headHeight) m).trace := by
  induction l with
  | nil => exact fun _ => ⟨.refl _, List.suffix_rfl⟩
  | cons fb l ih =>
    intro m hc
    obtain ⟨hcached, htrace⟩ := matureOne_grows confirmations headHeight hc fb
    obtain ⟨hcached', htrace'⟩ := ih (hcached.coherent hc)
    exact ⟨hcached.trans hcached', htrace.trans htrace'⟩

theorem filterMap_mature {β : Type} {f : Event → Option β} (hmatured : ∀ fb k, f (.matured fb k) = none)
    (horphaned : ∀ fb k, f (.orphaned fb k) = none) (rest : List FoundBlock) : ∀ {m : Maturing}, Coherent m.bc →
    (rest.foldl (matureOne confirmations headHeight) m).trace.filterMap f = m.trace.filterMap f := by
  induction rest with
  | nil => exact fun _ => rfl
  | cons fb rest ih =>
    intro m hc
    rw [List.foldl_cons, ih ((matureOne_grows confirmations headHeight hc fb).1.coherent hc)]
    rcases matureOne_cases confirmations headHeight hc fb with heq | ⟨bc', -, ⟨-, heq⟩ | ⟨-, heq⟩⟩ <;>
      simp [heq, hmatured, horphaned]

end Mature

section Save

variable (n : Node)

def Node.saveIf (changed : Bool) : Node := if changed then n.saveLocked else n

@[simp] theorem bc_saveLocked : n.saveLocked.bc = n.bc := by
  unfold Node.saveLocked
  split <;> rfl

@[simp] theorem mp_saveLocked : n.saveLocked.mp = n.mp := by
  unfold Node.saveLocked
  split <;> rfl

@[simp] theorem trace_saveLocked : n.saveLocked.trace = n.trace := by
  unfold Node.saveLocked
  split <;> rfl

@[simp] theorem server_saveLocked : n.saveLocked.server = n.server := by
  unfold Node.saveLocked
  split <;> rfl

variable (changed : Bool)

@[simp] theorem bc_saveIf : (n.saveIf changed).bc = n.bc := by cases changed <;> simp [Node.saveIf]

@[simp] theorem trace_saveIf : (n.saveIf changed).trace = n.trace := by cases changed <;> simp [Node.saveIf]

@[simp] theorem server_saveIf : (n.saveIf changed).server = n.server := by cases changed <;> simp [Node.saveIf]

end Save

def maturing (n : Node) (headHeight : UInt64) : Maturing :=
  n.server.ledger.pending.foldl (matureOne n.server.cfg.confirmations headHeight)
    ⟨n.bc, [], n.server.ledger.balances, n.server.ledger.totalOrphans, false, n.trace⟩

def afterMature (n : Node) (m : Maturing) : Node :=
  { n with
    bc := m.bc
    trace := m.trace
    server := { n.server with
      ledger := { n.server.ledger with pending := m.kept, balances := m.balances, totalOrphans := m.orphans } } }

theorem matureLocked_eq (n : Node) (headHeight : UInt64) :
    n.matureLocked headHeight = (afterMature n (maturing n headHeight)).saveIf (maturing n headHeight).changed := rfl

theorem matureLocked_grows (hc : Coherent n.bc) (headHeight : UInt64) :
    Cached n.bc (n.matureLocked headHeight).bc ∧ n.trace <:+ (n.matureLocked headHeight).trace := by
  rw [matureLocked_eq, bc_saveIf, trace_saveIf]
  exact mature_grows n.server.cfg.confirmations headHeight n.server.ledger.pending
    (m := ⟨n.bc, [], n.server.ledger.balances, n.server.ledger.totalOrphans, false, n.trace⟩) hc

section Pay

variable {snap : State} {chainID : UInt64} {payoutMin : ℤ} {o : MapOrder} {p p' : Paying}

/-- **What becomes of a balance**: it stays, or goes out with the next nonce in a transaction that the mempool takes. -/
inductive Paid (wallet : Wallet) (snap : State) (chainID : UInt64) (payoutMin : ℤ) (o : MapOrder) (p : Paying) (e : Address × ℤ) :
    Paying → Prop
  | stays : Paid wallet snap chainID payoutMin o p e p
  | refused {sig : Bytes} {tx : Transaction} {mp : Mempool} {err : PoolError} :
      wallet.sign (payoutTx chainID p.nextNonce e.1 e.2) = some sig →
      tx = { payoutTx chainID p.nextNonce e.1 e.2 with sig := sig } → p.mp.add tx chainID true o = some (mp, .error err) →
      Paid wallet snap chainID payoutMin o p e { p with mp := mp }
  | out {sig : Bytes} {tx : Transaction} {mp : Mempool} : ¬e.2 < payoutMin →
      wallet.sign (payoutTx chainID p.nextNonce e.1 e.2) = some sig →
      tx = { payoutTx chainID p.nextNonce e.1 e.2 with sig := sig } → Mempool.checkState snap tx = some (.ok ()) →
      p.mp.add tx chainID true o = some (mp, .ok ()) →
      Paid wallet snap chainID payoutMin o p e
        ⟨mp, p.balances.erase e.1, p.nextNonce + 1, p.totalPaid + e.2, true, .paid e.1 e.2 tx :: p.trace⟩

theorem payOne_cases {e : Address × ℤ} (h : payOne wallet snap chainID payoutMin o p e = some p') :
    Paid wallet snap chainID payoutMin o p e p' := by
  unfold payOne at h
  split at h
  · cases h
    exact .stays
  · rename_i hmin
    split at h
    · cases h
      exact .stays
    · rename_i sig hsig
      dsimp only at h
      split at h
      · cases h
      · cases h
        exact .stays
      · rename_i hstate
        split at h
        · cases h
        · rename_i mp _ hadd
          cases h
          exact .refused hsig rfl hadd
        · rename_i mp _ hadd
          cases h
          exact .out hmin hsig rfl hstate hadd

theorem payAll_induction {I : List (Address × ℤ) → Paying → Prop}
    (hstep : ∀ e entries p p', I (e :: entries) p → Paid wallet snap chainID payoutMin o p e p' → I entries p') :
    ∀ {entries : List (Address × ℤ)} {p p' : Paying}, payAll wallet snap chainID payoutMin o entries p = some p' →
      I entries p → I [] p'
  | [], _, _, h, hI => by
    cases h
    exact hI
  | e :: entries, p, p', h, hI => by
    unfold payAll at h
    split at h
    · cases h
    · rename_i p₁ hone
      exact payAll_induction hstep h (hstep e entries p p₁ hI (payOne_cases hone))

theorem payAll_trace {entries : List (Address × ℤ)} (h : payAll wallet snap chainID payoutMin o entries p = some p') :
    p.trace <:+ p'.trace := by
  refine payAll_induction (I := fun _ q => p.trace <:+ q.trace) ?_ h List.suffix_rfl
  intro e entries q q' hI hpaid
  cases hpaid with
  | stays => exact hI
  | refused => exact hI
  | out => exact hI.trans (List.suffix_cons ..)

theorem filterMap_payAll {β : Type} {f : Event → Option β} (hf : ∀ a v tx, f (.paid a v tx) = none)
    {entries : List (Address × ℤ)} (h : payAll wallet snap chainID payoutMin o entries p = some p') :
    p'.trace.filterMap f = p.trace.filterMap f := by
  refine payAll_induction (I := fun _ q => q.trace.filterMap f = p.trace.filterMap f) ?_ h rfl
  intro e entries q q' hI hpaid
  cases hpaid with
  | stays => exact hI
  | refused => exact hI
  | out => rw [List.filterMap_cons_none (hf ..), hI]

end Pay

theorem startPayout_some {entries : List (Address × ℤ)} {o : MapOrder} {p : Paying}
    (h : n.startPayout wallet entries o = some p) : ∃ snap, n.bc.stateSnapshot = some snap ∧
      payAll wallet snap n.bc.chainID (n.server.cfg.payoutMin.getD 0) o entries
        ⟨n.mp, n.server.ledger.balances, Node.syncNonce n.server (snap.nonce wallet.address), n.server.ledger.totalPaid, false,
          n.trace⟩ = some p := by
  unfold Node.startPayout at h
  split at h
  · cases h
  · rename_i snap hsnap
    exact ⟨snap, hsnap, h⟩

def afterPayout (n : Node) (p : Paying) : Node :=
  { n with
    mp := p.mp
    trace := p.trace
    server := { n.server with
      ledger := { n.server.ledger with balances := p.balances, totalPaid := p.totalPaid }
      nextNonce := p.nextNonce
      nonceInit := true } }

variable {trace : List Event}

theorem start_ok {db : Database} {opts : Options} {mp : Mempool} {file : Option Ledger}
    (h : Node.start g cfg db opts mp file trace = .ok n) :
    newBlockchain db g opts = .ok n.bc ∧ n = ⟨n.bc, mp, newServer cfg file, file, trace⟩ := by
  unfold Node.start at h
  split at h
  · cases h
  · rename_i bc hbc
    cases h
    exact ⟨hbc, rfl⟩

/-- **What a step can do.** -/
inductive Stepped (g : Genesis) (cfg : Config) (wallet : Wallet) (n : Node) : Op → Node → Prop
  | share {workID : Hash} {nonce : UInt64} {addr : Address} {nowMs : Int64} {order : Transaction → MapOrder} {b : Build}
      {n' : Node} {r : Except ShareError Bool} : Handled n wallet.address workID nonce addr nowMs order b n' r →
      Stepped g cfg wallet n (.share workID nonce addr nowMs order b) n'
  | mature (headHeight : UInt64) : Stepped g cfg wallet n (.mature headHeight) (n.matureLocked headHeight)
  | payout {r : Range} {o : MapOrder} {p : Paying} : n.startPayout wallet (r.order n.server.ledger.balances) o = some p →
      Stepped g cfg wallet n (.payout r o) ((afterPayout n p).saveIf p.changed)
  | refresh (head : Hash) (b : Build) : Stepped g cfg wallet n (.refresh head b) (n.refresh wallet.address head b)
  | insert {w : WireBlock} {nowMs : Int64} {order : Transaction → MapOrder} {mp : Mempool} :
      hooked n.mp n.bc.chainID order (n.bc.insert w nowMs).1 = some mp →
      Stepped g cfg wallet n (.insert w nowMs order)
        { n with bc := (n.bc.insert w nowMs).2, mp := mp, trace := (w.block?).elim n.trace (.offered · :: n.trace) }
  | mempool {op : Mempool.PoolOp} {mp : Mempool} : n.mp.exec op = .ok mp →
      Stepped g cfg wallet n (.mempool op) { n with mp := mp }
  | restart {opts : Options} {mp : Mempool} {bc : Blockchain} : newBlockchain n.bc.db g opts = .ok bc →
      Stepped g cfg wallet n (.restart opts mp) ⟨bc, mp, newServer cfg n.file, n.file, n.trace⟩
  | crash {r : Range} {o : MapOrder} {handled : ℕ} {opts : Options} {mp : Mempool} {p : Paying} {bc : Blockchain} :
      n.startPayout wallet ((r.order n.server.ledger.balances).take handled) o = some p →
      newBlockchain n.bc.db g opts = .ok bc →
      Stepped g cfg wallet n (.crash r o handled opts mp) ⟨bc, mp, newServer cfg n.file, n.file, p.trace⟩

theorem exec_cases {op : Op} (h : n.exec g cfg wallet op = .ok n') : Stepped g cfg wallet n op n' := by
  have hstart : ∀ {opts : Options} {mp : Mempool} {trace : List Event},
      Node.start g cfg n.bc.db opts mp n.file trace = .ok n' →
      ∃ bc, newBlockchain n.bc.db g opts = .ok bc ∧ n' = ⟨bc, mp, newServer cfg n.file, n.file, trace⟩ :=
    fun hs => ⟨n'.bc, start_ok hs⟩
  cases op with
  | share workID nonce addr nowMs order b =>
    simp only [Node.exec] at h
    split at h
    · cases h
    · rename_i hshare
      cases h
      exact .share (handleShare_cases hshare)
  | mature headHeight =>
    cases h
    exact .mature headHeight
  | payout r o =>
    simp only [Node.exec] at h
    split at h
    · cases h
    · rename_i hpayout
      cases h
      obtain ⟨p, hp, rfl⟩ := Option.map_eq_some_iff.1 hpayout
      exact .payout hp
  | refresh head b =>
    cases h
    exact .refresh head b
  | insert w nowMs order =>
    simp only [Node.exec] at h
    split at h
    · cases h
    · rename_i hinsert
      cases h
      obtain ⟨mp, hmp, rfl⟩ := Option.map_eq_some_iff.1 hinsert
      exact .insert hmp
  | mempool op =>
    simp only [Node.exec] at h
    split at h
    · cases h
    · rename_i hop
      cases h
      exact .mempool hop
  | restart opts mp =>
    obtain ⟨bc, hopen, rfl⟩ := hstart h
    exact .restart hopen
  | crash r o handled opts mp =>
    simp only [Node.exec] at h
    split at h
    · cases h
    · rename_i p hp
      obtain ⟨bc, hopen, rfl⟩ := hstart h
      exact .crash hp hopen

/-! ### The chain over runs -/

/-- What a step does to the chain: it reads, inserts a block that the trace then has as offered, or opens the database. -/
inductive ChainStep (g : Genesis) (bc : Blockchain) (trace : List Event) (bc' : Blockchain) : Prop
  | reads : Cached bc bc' → ChainStep g bc trace bc'
  | insert (w : WireBlock) (nowMs : Int64) : (∀ b, w.block? = some b → .offered b ∈ trace) →
      Cached (bc.insert w nowMs).2 bc' → ChainStep g bc trace bc'
  | reopen (opts : Options) : newBlockchain bc.db g opts = .ok bc' → ChainStep g bc trace bc'

theorem recordFound_rebuild (m : Node) (fb : FoundBlock) (coinbase : Address) (b : Build) :
    ((m.recordFound fb).rebuildLocked coinbase true b).trace = .won fb :: m.trace ∧
    (Coherent m.bc → Cached m.bc ((m.recordFound fb).rebuildLocked coinbase true b).bc) ∧
    ∀ (k : Hash) (t : Template), ((m.recordFound fb).rebuildLocked coinbase true b).server.templates[k]? = some t →
      ∃ c, (m.bc.buildUnsealed m.mp coinbase b.nowMs b.order).1 = some c ∧ k = c.block.header.hash ∧
        t = Node.newTemplate m.server.cfg c b.mono := by
  have hrebuilt := rebuilt_rebuildLocked (m.recordFound fb) coinbase true b
  have hcached := hrebuilt.cached
  rw [Node.recordFound, bc_saveLocked] at hcached
  refine ⟨?_, hcached, fun k t ht => ?_⟩
  · rw [hrebuilt.eq]
    exact trace_saveLocked _
  · rcases getElem?_rebuildLocked ht with ⟨hfalse, -⟩ | hnew
    · cases hfalse
    · rw [Node.recordFound, bc_saveLocked, mp_saveLocked, server_saveLocked] at hnew
      exact hnew

theorem Handled.chain {workID : Hash} {nonce : UInt64} {addr : Address}
    {order : Transaction → MapOrder} {res : Except ShareError Bool} (hready : Ready g n.bc)
    (h : Handled n coinbase workID nonce addr nowMs order b n' res) :
    ChainStep g n.bc n'.trace n'.bc ∧ n.trace <:+ n'.trace := by
  have hoffered : ∀ {blk : Block} {trace : List Event}, .offered blk ∈ trace →
      ∀ b, blk.toWire.block? = some b → .offered b ∈ trace := by
    intro blk trace hmem b hb
    rw [block?_toWire] at hb
    cases hb
    exact hmem
  cases h with
  | refused => exact ⟨.reads (.refl _), List.suffix_rfl⟩
  | bad => exact ⟨.reads (.refl _), List.suffix_rfl⟩
  | credited => exact ⟨.reads (.refl _), List.suffix_cons ..⟩
  | @raced t bc e _ _ hinsert =>
    refine ⟨.insert _ nowMs (hoffered List.mem_cons_self) ?_, (List.suffix_cons ..).trans (List.suffix_cons ..)⟩
    rw [hinsert]
    exact .refl _
  | @won t bc mp r m _ _ hinsert _ hm =>
    obtain ⟨htrace, hcached, -⟩ := recordFound_rebuild m (foundBlock m.server (t.tried nonce)) coinbase b
    have hbc : m.bc = (n.bc.insert (t.tried nonce).block.toWire nowMs).2 := by rw [hm, hinsert]; rfl
    have hready' := hready.insert (t.tried nonce).block.toWire nowMs
    rw [← hbc] at hready'
    rw [htrace, hm]
    refine ⟨.insert (t.tried nonce).block.toWire nowMs (hoffered (by simp [Node.note])) ?_, ?_⟩
    · rw [← hbc, ← hm]
      exact hcached hready'.coherent
    · exact ((List.suffix_cons ..).trans (List.suffix_cons ..)).trans (List.suffix_cons ..)

theorem Stepped.chain (hready : Ready g n.bc) {op : Op} (h : Stepped g cfg wallet n op n') :
    ChainStep g n.bc n'.trace n'.bc ∧ n.trace <:+ n'.trace := by
  cases h with
  | share hshare => exact hshare.chain hready
  | mature headHeight =>
    obtain ⟨hcached, htrace⟩ := matureLocked_grows hready.coherent headHeight
    exact ⟨.reads hcached, htrace⟩
  | payout hp =>
    obtain ⟨snap, -, hall⟩ := startPayout_some hp
    rw [bc_saveIf, trace_saveIf]
    exact ⟨.reads (.refl _), payAll_trace hall⟩
  | refresh head b =>
    have hrebuilt := rebuilt_refresh n wallet.address head b
    refine ⟨.reads (hrebuilt.cached hready.coherent), ?_⟩
    rw [hrebuilt.eq]
  | @insert w nowMs order mp _ =>
    refine ⟨.insert w nowMs (fun b hb => ?_) (.refl _), ?_⟩
    · simp [hb]
    · cases w.block? with
      | none => exact List.suffix_rfl
      | some b => exact List.suffix_cons ..
  | mempool => exact ⟨.reads (.refl _), List.suffix_rfl⟩
  | @restart opts _ _ hopen => exact ⟨.reopen opts hopen, List.suffix_rfl⟩
  | @crash _ _ _ opts _ _ _ hp hopen =>
    obtain ⟨snap, -, hall⟩ := startPayout_some hp
    exact ⟨.reopen opts hopen, payAll_trace hall⟩

theorem ChainStep.ready (h : ChainStep g bc trace bc') (hready : Ready g bc) : Ready g bc' := by
  cases h with
  | reads hc => exact hready.cached hc
  | insert w nowMs _ hc => exact (hready.insert w nowMs).cached hc
  | reopen opts hok => exact hready.reopen hok

theorem run_grows {ops : List Op} (hready : Ready g n.bc) (h : Run.run (Node.exec g cfg wallet) n ops = .ok n') :
    Ready g n'.bc ∧ n.trace <:+ n'.trace := by
  refine Run.run_preserves (I := fun _ m => Ready g m.bc ∧ n.trace <:+ m.trace) ?_ ⟨hready, List.suffix_rfl⟩ h
  rintro past op rest m m' - ⟨hm, htrace⟩ hstep
  obtain ⟨hchain, hgrows⟩ := (exec_cases hstep).chain hm
  exact ⟨hchain.ready hm, htrace.trans hgrows⟩

def offeredIn (g : Genesis) (trace : List Event) : List Block :=
  g.block :: trace.filterMap fun
    | .offered b => some b
    | _ => none

theorem mem_offeredIn {b : Block} (h : .offered b ∈ trace) : b ∈ offeredIn g trace :=
  List.mem_cons_of_mem _ (List.mem_filterMap.2 ⟨_, h, rfl⟩)

def memories (g : Genesis) (cfg : Config) (wallet : Wallet) (opts : Options) (mp : Mempool) (ops : List Op) : List State :=
  ops.inits.flatMap fun past =>
    match runPool g cfg wallet opts mp past with
    | .error _ => []
    | .ok n => n.bc.states.toList.map Prod.snd

/-- No two blocks offered in a run have one hash, and no two states in memory one root. -/
structure NoCollision (g : Genesis) (cfg : Config) (wallet : Wallet) (opts : Options) (mp : Mempool) (ops : List Op) (n : Node) :
    Prop where
  hashes : HashesDiffer (· ∈ offeredIn g n.trace)
  roots : RootsDiffer (memories g cfg wallet opts mp ops)

/-- The chain of a running pool: a tree with the work of its blocks, whose states were in memory once. -/
structure Grounded (g : Genesis) (B : Block → Prop) (ss : List State) (bc : Blockchain) : Prop where
  node : Blockchain.Node g B bc
  remembered : Remembered g B ss bc

namespace Grounded

variable {B : Block → Prop} {ss : List State}

theorem cached (h : Grounded g B ss bc) (hc : Cached bc bc') : Grounded g B ss bc' := by
  refine ⟨h.node.cached hc, ?_⟩
  unfold Remembered
  rw [hc.db]
  exact h.remembered

theorem step {trace : List Event} (h : Grounded g B ss bc) (hB : HashesDiffer B) (hroots : RootsDiffer ss)
    (hstep : ChainStep g bc trace bc') (hoffered : ∀ b, .offered b ∈ trace → B b)
    (hss : ∀ (k : Hash) (s : State), bc'.states[k]? = some s → s ∈ ss) : Grounded g B ss bc' := by
  cases hstep with
  | reads hc => exact h.cached hc
  | insert w nowMs hw hc =>
    have hw' : ∀ b, w.block? = some b → b.verifyTxRoot = true → B b := fun b hb _ => hoffered b (hw b hb)
    have hnode := h.node.insert hB w nowMs hw'
    have hmem := h.remembered.insert h.node.tree hB w nowMs hw' fun k s hs => hss k s (hc.states ▸ hs)
    exact cached ⟨hnode, hmem⟩ hc
  | reopen opts hok =>
    obtain ⟨htree, hdb, hhead⟩ := h.node.tree.reopen_of_roots hroots h.remembered hok hss
    obtain ⟨l, hcanon, hdiffs⟩ := h.node.diffs
    refine ⟨⟨htree, h.node.weighed.reopen h.node.tree.ready hok, hdb ▸ h.node.totals, l, hcanon.congr hdb hhead, ?_⟩, ?_⟩
    · rw [hdb]
      exact hdiffs
    · unfold Remembered
      rw [hdb]
      exact h.remembered

end Grounded

/-! ### The work of the head -/

section Weight

variable {B : Block → Prop}

open Classical in
/-- The work of the chain that ends in the block with this hash. -/
noncomputable def weight (g : Genesis) (B : Block → Prop) (k : Hash) : ℕ :=
  if h : ∃ m b l w, b.hash = k ∧ Chain g (b :: l) w ∧ (∀ x ∈ b :: l, B x) ∧ work (b :: l) = m then h.choose else 0

variable {b : Block}

theorem weight_eq (hB : HashesDiffer B) {l : List Block} {w : Lxs.World} (hchain : Chain g (b :: l) w)
    (hl : ∀ x ∈ b :: l, B x) : weight g B b.hash = work (b :: l) := by
  have hex : ∃ m x k v, x.hash = b.hash ∧ Chain g (x :: k) v ∧ (∀ y ∈ x :: k, B y) ∧ work (x :: k) = m :=
    ⟨_, b, l, w, rfl, hchain, hl, rfl⟩
  rw [weight, dif_pos hex]
  obtain ⟨x, k, v, hhash, hx, hk, hwork⟩ := hex.choose_spec
  obtain rfl := hB x b (hk x List.mem_cons_self) (hl b List.mem_cons_self) hhash
  rw [← hwork, hx.tail_unique hB hchain (fun y hy => hk y (List.mem_cons_of_mem _ hy)) fun y hy => hl y (List.mem_cons_of_mem _ hy)]

theorem derivedDifficulty_pos {db : Database} {d : UInt64} (hd : minDifficulty ≤ d) (parent : Header) :
    minDifficulty ≤ derivedDifficulty db d parent := by
  unfold derivedDifficulty
  split
  · exact hd
  · cases headersBack db (windowLength parent.height).toNat parent [parent] with
    | none => exact hd
    | some window => exact minDifficulty_le_lwmaDifficulty window

/-- **Inserting a block makes the head no lighter, and heavier than the parent of the block.** -/
theorem weight_outcome (h : Blockchain.Node g B bc) (hB : HashesDiffer B) (ho : Outcome g B bc b bc') :
    weight g B bc.head.hash ≤ weight g B bc'.head.hash ∧ weight g B b.header.parentHash < weight g B bc'.head.hash := by
  have key : ∀ {p : Block} {l : List Block} {c : Checked}, Grown g B bc b p l c → weight g B bc.head.hash = c.headTD ∧
      weight g B b.hash = c.td ∧ weight g B b.header.parentHash < c.td := by
    intro p l c hgrown
    obtain ⟨m, w, hhead, hm⟩ := h.tree.known _ _ h.tree.ready.stored
    have hheadTD := h.totals _ _ _ _ h.tree.ready.stored hhead hm
    obtain ⟨ptd, hptd, htd⟩ := hgrown.accepted.td
    have hknown : ∀ x ∈ p :: l, B x := fun x hx => hgrown.known x (List.mem_cons_of_mem _ hx)
    have hpos : 0 < b.header.difficulty.toNat := by
      rw [hgrown.accepted.difficulty]
      refine UInt64.le_iff_toNat_le.1 (derivedDifficulty_pos ?_ _)
      rw [h.tree.ready.of.genesisDifficulty]
      exact minDifficulty_le_demandedDifficulty g g.block []
    cases hchain : hgrown.chain with
    | @block _ _ _ v _ hp hb =>
      have hparent := hgrown.accepted.parent
      rw [hb.header.parentHash] at hparent
      have hwork : ptd = work (p :: l) := Option.some.inj (hptd.symm.trans (h.totals _ _ _ _ hparent hp hknown))
      refine ⟨?_, ?_, ?_⟩
      · rw [weight_eq hB hhead hm]
        exact Option.some.inj (hheadTD.symm.trans hgrown.accepted.headTD)
      · rw [weight_eq hB hgrown.chain hgrown.known, htd, hwork]
        simp only [work, List.map_cons, List.sum_cons]
        omega
      · rw [hgrown.chain.parentHash, weight_eq hB hp hknown, htd, hwork]
        omega
  cases ho with
  | @side p l c hgrown hbetter =>
    obtain ⟨hhead, -, hparent⟩ := key hgrown
    have hle : c.td ≤ c.headTD := by
      rcases not_better_iff.1 hbetter with hlt | ⟨heq, -⟩
      · exact Nat.le_of_lt hlt
      · exact heq.le
    refine ⟨le_rfl, ?_⟩
    show weight g B b.header.parentHash < weight g B bc.head.hash
    omega
  | @moved p l c dropped added fork unwind apply hgrown hbetter hnew hm =>
    obtain ⟨hhead, htd, hparent⟩ := key hgrown
    have hle : c.headTD ≤ c.td := by
      rcases better_iff.1 hbetter with hlt | ⟨heq, -⟩
      · exact Nat.le_of_lt hlt
      · exact heq.symm.le
    obtain ⟨cutoff, gone, hp⟩ := prune_pruned (bc.moved b c unwind apply) true
    have hb : ((bc.moved b c unwind apply).prune true).head = b := by rw [hp.rest]; rfl
    rw [hb]
    omega

theorem weight_insert (h : Blockchain.Node g B bc) (hB : HashesDiffer B) (w : WireBlock) (nowMs : Int64)
    (hw : ∀ b, w.block? = some b → B b) : weight g B bc.head.hash ≤ weight g B (bc.insert w nowMs).2.head.hash ∧
      ∀ b r, w.block? = some b → (bc.insert w nowMs).1 = .ok r →
        weight g B b.header.parentHash < weight g B (bc.insert w nowMs).2.head.hash := by
  obtain ⟨bc₁, hc, ⟨e, he⟩ | ⟨b, r, hb, -, ho⟩⟩ := h.tree.inserted_cases hB w nowMs fun b hb _ => hw b hb
  · rw [he, hc.head]
    exact ⟨le_rfl, fun _ _ _ hok => by cases hok⟩
  · obtain ⟨hhead, hparent⟩ := weight_outcome (h.cached hc) hB ho
    rw [hc.head] at hhead
    refine ⟨hhead, fun b' r' hb' _ => ?_⟩
    rw [hb] at hb'
    cases hb'
    exact hparent

theorem node_committed (h : Blockchain.Node g B bc) (hB : HashesDiffer B) (hb : B b) {nowMs : Int64}
    {r : Option Reorg} (hinsert : bc.insert b.toWire nowMs = (.ok r, bc')) :
    Blockchain.Node g B bc' ∧ weight g B b.header.parentHash < weight g B bc'.head.hash := by
  have hw : ∀ x, b.toWire.block? = some x → B x := by
    intro x hx
    rw [block?_toWire] at hx
    cases hx
    exact hb
  have hnode := h.insert hB b.toWire nowMs fun x hx _ => hw x hx
  have hheavier := (weight_insert h hB b.toWire nowMs hw).2 b r (block?_toWire b)
  rw [hinsert] at hnode hheavier
  exact ⟨hnode, hheavier rfl⟩

theorem weight_step {trace : List Event} (h : Blockchain.Node g B bc) (hB : HashesDiffer B) (hstep : ChainStep g bc trace bc')
    (hoffered : ∀ b, .offered b ∈ trace → B b) : weight g B bc.head.hash ≤ weight g B bc'.head.hash := by
  cases hstep with
  | reads hc => rw [hc.head]
  | insert w nowMs hw hc =>
    rw [hc.head]
    exact (weight_insert h hB w nowMs fun b hb => hoffered b (hw b hb)).1
  | reopen opts hok =>
    obtain ⟨-, hhead, -⟩ := reopen_states (R := fun _ _ => True) h.tree.ready hok trivial fun _ _ _ _ _ _ _ _ _ _ => trivial
    rw [hhead]

end Weight

variable {opts : Options} {mp : Mempool} {ops : List Op}

theorem mem_memories {past : List Op} (hpast : past <+: ops) (hrun : runPool g cfg wallet opts mp past = .ok n) {k : Hash}
    {s : State} (hs : n.bc.states[k]? = some s) : s ∈ memories g cfg wallet opts mp ops := by
  refine List.mem_flatMap.2 ⟨past, (List.mem_inits _ _).2 hpast, ?_⟩
  rw [hrun]
  exact List.mem_map.2 ⟨(k, s), ExtTreeMap.mem_toList_iff_getElem?_eq_some.2 hs, rfl⟩

def freshNode (g : Genesis) (cfg : Config) (opts : Options) (mp : Mempool) : Node :=
  ⟨fresh g opts, mp, newServer cfg none, none, []⟩

theorem runPool_ok (h : runPool g cfg wallet opts mp ops = .ok n) : g.validate = .ok () ∧
    Run.run (Node.exec g cfg wallet) (freshNode g cfg opts mp) ops = .ok n := by
  unfold runPool at h
  split at h
  · cases h
  · rename_i n₀ hstart
    obtain ⟨hopen, hn₀⟩ := start_ok hstart
    have hrun : runNode g opts [] = .ok n₀.bc := by
      unfold runNode
      rw [hopen]
      rfl
    obtain ⟨hg, -⟩ := ready_of_run hrun
    rw [runNode_eq hg] at hrun
    have hbc : fresh g opts = n₀.bc := Except.ok.inj hrun
    rw [hn₀, ← hbc] at h
    exact ⟨hg, h⟩

theorem runPool_eq (hg : g.validate = .ok ()) (ops : List Op) : runPool g cfg wallet opts mp ops =
    Run.run (Node.exec g cfg wallet) (freshNode g cfg opts mp) ops := by
  unfold runPool Node.start
  rw [newBlockchain_empty hg]
  rfl

theorem runPool_snoc {past : List Op} {op : Op} (hg : g.validate = .ok ()) (hpast : runPool g cfg wallet opts mp past = .ok n)
    (hexec : n.exec g cfg wallet op = .ok n') : runPool g cfg wallet opts mp (past ++ [op]) = .ok n' := by
  rw [runPool_eq hg] at hpast ⊢
  rw [Run.run_append hpast, Run.run_cons hexec]
  rfl

omit [Crypto] in
theorem at_past {past rest : List Op} {op : Op} (h : past ++ op :: rest = ops) :
    ops.take past.length = past ∧ ops[past.length]? = some op := by
  rw [← h]
  simp

theorem runPool_past {I : Node → Prop} (hrun : runPool g cfg wallet opts mp ops = .ok n) (hfresh : I (freshNode g cfg opts mp))
    (hstep : ∀ past op rest m m', past ++ op :: rest = ops → runPool g cfg wallet opts mp past = .ok m → Ready g m.bc → I m →
      Stepped g cfg wallet m op m' → I m') : I n := by
  obtain ⟨hg, hrun'⟩ := runPool_ok hrun
  have hready : Ready g (freshNode g cfg opts mp).bc := (Blockchain.Node.of_fresh (B := fun _ => True) hg trivial opts).tree.ready
  refine (Run.run_preserves (I := fun past m => runPool g cfg wallet opts mp past = .ok m ∧ Ready g m.bc ∧ I m) ?_
    ⟨runPool_eq hg [], hready, hfresh⟩ hrun').2.2
  rintro past op rest m m' heq ⟨hpast, hm, hI⟩ hexec
  have hexec' := exec_cases hexec
  exact ⟨runPool_snoc hg hpast hexec, (hexec'.chain hm).1.ready hm, hstep past op rest m m' heq hpast hm hI hexec'⟩

/-- **The rule for runs of the pool**: the chain stays grounded in the blocks offered in the run, and so does what steps
between such nodes keep. -/
theorem runPool_induction {I : Node → Prop} (hrun : runPool g cfg wallet opts mp ops = .ok n)
    (hnc : NoCollision g cfg wallet opts mp ops n) (hfresh : I (freshNode g cfg opts mp))
    (hstep : ∀ op m m', op ∈ ops → Grounded g (· ∈ offeredIn g n.trace) (memories g cfg wallet opts mp ops) m.bc →
      Grounded g (· ∈ offeredIn g n.trace) (memories g cfg wallet opts mp ops) m'.bc → m'.trace <:+ n.trace → I m →
      Stepped g cfg wallet m op m' → I m') :
    Grounded g (· ∈ offeredIn g n.trace) (memories g cfg wallet opts mp ops) n.bc ∧ I n := by
  obtain ⟨hg, hrun'⟩ := runPool_ok hrun
  have hempty : runPool g cfg wallet opts mp [] = .ok (freshNode g cfg opts mp) := runPool_eq hg []
  have hgen : g.block ∈ offeredIn g n.trace := List.mem_cons_self ..
  have hbase : Grounded g (· ∈ offeredIn g n.trace) (memories g cfg wallet opts mp ops) (freshNode g cfg opts mp).bc :=
    ⟨.of_fresh hg hgen opts, remembered_fresh hg hgen fun k s hs => mem_memories ⟨ops, rfl⟩ hempty hs⟩
  refine (fun h => ⟨h.2.1, h.2.2⟩) (Run.run_preserves (I := fun past m => runPool g cfg wallet opts mp past = .ok m ∧
    Grounded g (· ∈ offeredIn g n.trace) (memories g cfg wallet opts mp ops) m.bc ∧ I m) ?_ ⟨hempty, hbase, hfresh⟩ hrun')
  rintro past op rest m m' heq ⟨hpast, hm, hI⟩ hexec
  obtain ⟨hchain, -⟩ := (exec_cases hexec).chain hm.node.tree.ready
  have hnext := runPool_snoc hg hpast hexec
  -- the trace of this step is part of the trace at the end
  have htrace : m'.trace <:+ n.trace := by
    rw [runPool_eq hg] at hnext
    rw [← heq, List.append_cons, Run.run_append hnext] at hrun'
    exact (run_grows (hchain.ready hm.node.tree.ready) hrun').2
  have hm' := hm.step hnc.hashes hnc.roots hchain (fun b hb => mem_offeredIn (htrace.subset hb))
    fun k s hs => mem_memories ⟨rest, by rw [← heq, List.append_assoc]; rfl⟩ hnext hs
  exact ⟨hnext, hm', hstep op m m' (by rw [← heq]; simp) hm hm' htrace hI (exec_cases hexec)⟩

/-! ### A small pool

Every nonce is a block. The wallet can sign two payouts of what one block brings. -/

/-- The primitives on finitely many inputs, which are told apart by the first bytes of what is hashed. -/
@[reducible]
def headCrypto (digests : List (ℕ × Hash)) (keys : List ((ℕ × Hash) × Bytes)) : Crypto :=
  { tableCrypto [] keys with keccak256 := fun b => (digests.lookup (bytesToNat (b.take 48))).getD zeroHash }

def payout0Sig : Bytes :=
  beBytes 65 0x1ce59739f701bf75454ed976ac6ee275c574f39acbc9a52baeca8dda0a3ed563d44b2816dc61120c44e106d71bc7afc3d741667111cca338a437323c3af21d8481

def payout1Sig : Bytes :=
  beBytes 65 0x1b8befff4c95e99365d0a703185fb5793a02ea1a2c5cfb4fa3383e1df37639c7fb28618d8158ed336bc51f818b22f14ed5d95aaeaa6b1ab4b3871f3ec44cdb9142

def richSig : Bytes :=
  beBytes 65 0x1b3b85f88c31e7c45f49e04973fb0c9519627fad9dbb394d9df1ce5404c7aa543e20469d347af1be121cb3f26330a201c9548c6c0f3ef72be17599fd7cac7d4714

@[reducible]
def miningCrypto : Crypto :=
  headCrypto
    [(0x6c78732f67656e657369732f76310000000000000001,
      0x3c1c4fbcb845598b2ff547265275455a78b54bbb71968f1bf5424ce3e5052d4c),
     (0x7e5f4552091a69125d5dfcb7b8c2659029395bdf000000000000001b000000000000000000000000000000030f4240,
      0x278847b8fcc2cbbea5a973813f98313c05ff383a5a8b3e0a1a61076bc0678334),
     (0x3c1c4fbcb845598b2ff547265275455a78b54bbb71968f1bf5424ce3e5052d4c00000000000000000000000000000000,
      0xedd8ed94453216a143a9a8dd0dc88eda4f3ccc959890da13f280e54a5817ae43),
     (0x7e5f4552091a69125d5dfcb7b8c2659029395bdf00000000000000210000000000000000000000000000000901158e,
      0x2c8441dfaf584b98a44a5fd46a9d34e1b429c8584a064cbc880808ee5b1be887),
     (0x2c8441dfaf584b98a44a5fd46a9d34e1b429c8584a064cbc880808ee5b1be88700000000000000084563918244f40000,
      0xf573eee21948d37abaa3fe904fe8c33ceb26de463ad51f068fac63a0b2c86c7f),
     (0xedd8ed94453216a143a9a8dd0dc88eda4f3ccc959890da13f280e54a5817ae430000000000000001000000000003a980,
      0x25718a7345781e76dd8fe6561015ab09e49ce6210e9f42c84399c2fa5a00527a),
     (0x7e5f4552091a69125d5dfcb7b8c2659029395bdf000000000000002100000000000000000000000000000009022b1c,
      0xc649d6c6fb593a1dcd60b92042befc542cbe4244df51e3dd07bfb46e250fea8a),
     (0xc649d6c6fb593a1dcd60b92042befc542cbe4244df51e3dd07bfb46e250fea8a00000000000000088ac7230489e80000,
      0xae6921adb13ea32d33f1a716fcf1184ccd98031f8b3448e94d2452eee48fd5b8),
     (0x25718a7345781e76dd8fe6561015ab09e49ce6210e9f42c84399c2fa5a00527a00000000000000020000000000075300,
      0xd1fc7aac04355d1a077b65f88c13b99050173865e02e9b53f2371c46cfadb0d1),
     (0x7e5f4552091a69125d5dfcb7b8c2659029395bdf0000000000000021000000000000000000000000000000090340aa,
      0xb19c0e02d567e0db2024d4b8d6f6f901ba1d65f0a8673ecc9ba58cac77a975bd),
     (0xb19c0e02d567e0db2024d4b8d6f6f901ba1d65f0a8673ecc9ba58cac77a975bd0000000000000008d02ab486cedc0000,
      0x8fbc61eee7b2f5fa142448281e7cf6c551befda66c7284985c5497d004817fb5),
     (0xd1fc7aac04355d1a077b65f88c13b99050173865e02e9b53f2371c46cfadb0d1000000000000000300000000000afc80,
      0x9bc6a56efa746279a26072031fd8035dcb819ebdb429a7dd117e8c01999351f7),
     (0x100000000000000000100000000000000000000000000000000000000a1000000,
      0xb447b750e36fdea6c8e4b92e6823717f1c7f24ca6033b9633d27028a53ad79a0),
     (0x79be667ef9dcbbac55a06295ce870b07029bfcdb2dce28d959f2815b16f81798483ada7726a3c4655da4fbfc0e1108a8,
      0xc0a6c424ac7157ae408398df7e5f4552091a69125d5dfcb7b8c2659029395bdf),
     (0xb447b750e36fdea6c8e4b92e6823717f1c7f24ca6033b9633d27028a53ad79a000000000000000411ce59739f701bf75,
      0xf558b4db11ec76d346c731b95c20197bdd62080cc878a555ee796efe013e6a26),
     (0xf558b4db11ec76d346c731b95c20197bdd62080cc878a555ee796efe013e6a26,
      0x85cd1938bb10f10cd69870f459bbf84676542693ab3fde9000ab51b81ee43e55),
     (0x1000000000000520800000000000052080000000000000000,
      0xad23b69da32d145c175b34ff2f7496d276b88665dcf3416e66ed6890643bec38),
     (0xa1000000000000002100000000000000000000000000000009015af1,
      0xa10ed343829fa350695a621684d321fae8c8d588f11d8c0aa80cd203a6a5a7e3),
     (0x7e5f4552091a69125d5dfcb7b8c2659029395bdf00000000000000210000000000000001000000000000000901e5b8,
      0x0d4901b4ba0d806abb68130ef571661654e84ff49ac28c10c74ef77b9a687658),
     (0x1a10ed343829fa350695a621684d321fae8c8d588f11d8c0aa80cd203a6a5a7e30d4901b4ba0d806abb68130ef57166,
      0x9f5bff16a0fb16276fb802f60bd764d46f80f96e579db335262430a1c1328dac),
     (0x9f5bff16a0fb16276fb802f60bd764d46f80f96e579db335262430a1c1328dac0000000000000008d02ab486cedc1068,
      0x9da3199a51b0d367db162b5d2a56091d6696819066c036683b190e74cb20ea3e),
     (0xd1fc7aac04355d1a077b65f88c13b99050173865e02e9b53f2371c46cfadb0d1000000000000000300000000000ea600,
      0x269a6e590f2673e3aea5c5028fe342633ed55919c66c35a48ac30d109a9d2a18),
     (0x7e5f4552091a69125d5dfcb7b8c2659029395bdf00000000000000210000000000000001000000000000000902fb47,
      0x46c77270fcbb18d2931aa60d5a0578283da85aee4abb264bb0e2468ca0722bb5),
     (0x1a10ed343829fa350695a621684d321fae8c8d588f11d8c0aa80cd203a6a5a7e346c77270fcbb18d2931aa60d5a0578,
      0xc4e9600d3b316fc37612deef1dbaa4941a3a40215ab0b9a09443b868ec6d6fdc),
     (0xc4e9600d3b316fc37612deef1dbaa4941a3a40215ab0b9a09443b868ec6d6fdc000000000000000901158e460913d010,
      0xa52d818fdf785adf811e48e99026ae3ed0e6c61270267b3ad69a759557ba6531),
     (0x269a6e590f2673e3aea5c5028fe342633ed55919c66c35a48ac30d109a9d2a1800000000000000040000000000124f80,
      0xf0751a7d3fa4a82728a2a48a039119834c769ee9e3666d6ea8fac175a52d11ea),
     (0x100000000000000010100000000000000000000000000000000000000a1000000,
      0xe13b60ab96a1e04892c73db608b642588ccce9bded90ed6d698927bc336eac07),
     (0xe13b60ab96a1e04892c73db608b642588ccce9bded90ed6d698927bc336eac0700000000000000411b8befff4c95e993,
      0x73927ce98fe2597b340581fd4e47f02a10d619b2bfdaf96140d558401ecff300),
     (0x73927ce98fe2597b340581fd4e47f02a10d619b2bfdaf96140d558401ecff300,
      0xe46de57f72daeb2d2542519d033f215c1078426818668a23004bcd174af46362),
     (0xa100000000000000210000000000000000000000000000000902b5e3,
      0xd34f0ee07d2733f9ea47622dedc5cff8321c8f8a77cc22686117c9e147c2c9e6),
     (0x7e5f4552091a69125d5dfcb7b8c2659029395bdf00000000000000210000000000000002000000000000000901a055,
      0xe5959cfaf7d3f5a94719857482fa3dcf872a2a870a9a68bb07d52e4baf903840),
     (0x1d34f0ee07d2733f9ea47622dedc5cff8321c8f8a77cc22686117c9e147c2c9e6e5959cfaf7d3f5a94719857482fa3d,
      0xaece64eff70c1316df651341af19c59725f05e64765eb423724a0839c7221d6e),
     (0xaece64eff70c1316df651341af19c59725f05e64765eb423724a0839c7221d6e000000000000000901158e460913d020,
      0x48a20ea8f337f187f518e06df944112603e88d2ff7376ae2d8068e2b786ebdcd),
     (0x269a6e590f2673e3aea5c5028fe342633ed55919c66c35a48ac30d109a9d2a1800000000000000040000000000124f81,
      0x88e758fe3e6d0c05a8095fba049cf9d06b53cb3e1b75b1a7c40b6cc5162f0518),
     (0x7e5f4552091a69125d5dfcb7b8c2659029395bdf00000000000000210000000000000002000000000000000902b5e3,
      0x275c4599e0b4e8e0cd7a66d2afc1741e56ce3274f91336fcc39b18bb4306545b),
     (0x1d34f0ee07d2733f9ea47622dedc5cff8321c8f8a77cc22686117c9e147c2c9e6275c4599e0b4e8e0cd7a66d2afc174,
      0x3bdcd2ae20c136fd81a0219bfd08746b1759a1f51bb8155bcec0f91a9935895d),
     (0x3bdcd2ae20c136fd81a0219bfd08746b1759a1f51bb8155bcec0f91a9935895d0000000000000009015af1d78b58c420,
      0xc16faa1c71a2c22a2cc478b188f3e43f6aef7de957181cc80a76033d4d804607),
     (0x88e758fe3e6d0c05a8095fba049cf9d06b53cb3e1b75b1a7c40b6cc5162f05180000000000000005000000000015f900,
      0xef558e34b6360046b8b96aa0f16260f8eb3abacac61b6ff5b8c6bbc10fb246c4),
     (0x1000000000000000001000000000000000000000000000000000000beef000000,
      0x36939a41d0565ccc383d5ad7611f3b51a5951e89a09239a6ca47633c85c4fd4c),
     (0xc6047f9441ed7d6d3045406e95c07cd85c778e4b8cef3ca7abac09b95c709ee51ae168fea63dc339a3c58419466ceaee,
      0xeedf1a9c68b3f4a8b1a1032b2b5ad5c4795c026514f8317c7a215e218dccd6cf),
     (0x36939a41d0565ccc383d5ad7611f3b51a5951e89a09239a6ca47633c85c4fd4c00000000000000411b3b85f88c31e7c4,
      0xc8c16bbf44a924755c757156dba3d95c960f6e9231d28de8f203d0001e3cedf2),
     (0x3c1c4fbcb845598b2ff547265275455a78b54bbb71968f1bf5424ce3e5052d4c000000000000000000000000000f4240,
      0x49c85a6d9ac94afd5ba058c37827155684c1c1ff9849d2cf0a6806251781a89f),
     (0x49c85a6d9ac94afd5ba058c37827155684c1c1ff9849d2cf0a6806251781a89f000000000000000100000000000f4241,
      0x891e05b2c922452f691e11059977cb9e6318c19229915ee4450a770e318d2610),
     (0x49c85a6d9ac94afd5ba058c37827155684c1c1ff9849d2cf0a6806251781a89f000000000000000100000000000f4242,
      0x8698c0af82d42b3679f8779e96f5e6db117a55732af57eb6c52cacdeba35e94a)]
    [((bytesToNat payout0Sig, 0xb447b750e36fdea6c8e4b92e6823717f1c7f24ca6033b9633d27028a53ad79a0), senderPoint),
     ((bytesToNat payout1Sig, 0xe13b60ab96a1e04892c73db608b642588ccce9bded90ed6d698927bc336eac07), senderPoint),
     ((bytesToNat richSig, 0x36939a41d0565ccc383d5ad7611f3b51a5951e89a09239a6ca47633c85c4fd4c),
      beBytes 65 0x04c6047f9441ed7d6d3045406e95c07cd85c778e4b8cef3ca7abac09b95c709ee51ae168fea63dc339a3c58419466ceaeef7f632653266d0e1236431a950cfe52a)]

def miningPot : ℤ := 24999999999998000000

def miningSign (tx : Transaction) : Option Bytes :=
  if tx = payoutTx 1 0 0xa1 miningPot then some payout0Sig
  else if tx = payoutTx 1 1 0xa1 miningPot then some payout1Sig else none

omit [Crypto] in
theorem sender_miningSign (tx : Transaction) (sig : Bytes) (h : miningSign tx = some sig) :
    @Transaction.sender miningCrypto { tx with sig := sig } = .ok senderAddr := by
  unfold miningSign at h
  split_ifs at h with h0 h1
  · cases h
    rw [h0]
    decide +kernel
  · cases h
    rw [h1]
    decide +kernel

def miningWallet : @Wallet miningCrypto := @Wallet.mk miningCrypto _ miningSign sender_miningSign

def miningCfg : Config := ⟨1, 1, 0, 1, 1, some 1, true, 1⟩

def buildAt (nowMs : Int64) (mono : ℤ) : Build := ⟨nowMs, mono, .byPrice⟩

/-- The nonce zero is submitted, and the next template built at a time. -/
def mine (workID : Hash) (addr : Address) (next : Int64) : Op := .share workID 0 addr 2000000 (fun _ => .sorted) (buildAt next 0)

omit [Crypto] in
theorem exists_ok {r : Except Stop Node} {p : Node → Bool} (h : r.toOption.any p = true) : ∃ n, r = .ok n ∧ p n = true := by
  cases r with
  | error e => cases h
  | ok n => exact ⟨n, rfl, h⟩

def twoFound : List Op :=
  [.refresh 0 (buildAt 240000 0),
   mine 0x25718a7345781e76dd8fe6561015ab09e49ce6210e9f42c84399c2fa5a00527a 0xa1 480000,
   mine 0xd1fc7aac04355d1a077b65f88c13b99050173865e02e9b53f2371c46cfadb0d1 0xa2 720000,
   .mature 2]

end Lxs.Pool
