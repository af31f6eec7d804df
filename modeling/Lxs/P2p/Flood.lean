import Lxs.Core.Convergence
import Lxs.P2p.Orphans

/-!
# A node that is fed by gossip

Blocks come from any peer, any number of times and in any order, a child before its parent too, among messages that are
dropped, too large or no block. What makes the order not matter is the queue of orphans: a block that comes too early waits
there, and is tried when its parent is in. `Fed` is the invariant: what has arrived is stored or parked, and what is parked
waits for a parent that is not stored.

* `Gossip.gossip_refines_insert` — **whatever peers send, the chain is one that insertions alone lead to**;
* `Gossip.gossip_converges` — **the head is the heaviest block that was gossiped**.
-/

namespace Lxs.P2p

open Std Lib Lib.Buckets Blockchain

/-- A message that arrives, with the scorer's answer about its sender and the clock while it is handled. -/
structure Inbound where
  source : PeerID
  banned : Bool
  clock : Hash → Int64
  msg : BlockMessage

/-- The message is handled, and has this block. -/
def Inbound.Offers (m : Inbound) (w : WireBlock) : Prop :=
  m.banned = false ∧ m.msg.size ≤ maxBlockMessage ∧ m.msg.block = some w

namespace Gossip

variable {q q' : Gossip} {b : Block} {S : List Block}

/-! ### Safety -/

section Safety

variable [Crypto]

/-- A node handles a message. -/
def receive (s : Gossip × Blockchain) (m : Inbound) : Except Unit (Gossip × Blockchain) :=
  match s.1.onBlock s.2 m.clock m.banned m.source m.msg with
  | none => .error ()
  | some (_, s') => .ok s'

/-- Insertions alone lead from one chain to the other. -/
def Inserts (g : Genesis) (bc bc' : Blockchain) : Prop :=
  ∃ ops, (∀ op ∈ ops, ∃ w nowMs, op = Op.insert w nowMs) ∧ Run.run (Blockchain.exec g) bc ops = .ok bc'

variable {g : Genesis} {bc bc' bc'' : Blockchain}

theorem Inserts.refl (bc : Blockchain) : Inserts g bc bc := ⟨[], by simp, rfl⟩

theorem Inserts.cons (w : WireBlock) (nowMs : Int64) (h : Inserts g (bc.insert w nowMs).2 bc') : Inserts g bc bc' := by
  obtain ⟨ops, hops, hrun⟩ := h
  exact ⟨.insert w nowMs :: ops, List.forall_mem_cons.2 ⟨⟨w, nowMs, rfl⟩, hops⟩, hrun⟩

theorem Inserts.trans (h : Inserts g bc bc') (h' : Inserts g bc' bc'') : Inserts g bc bc'' := by
  obtain ⟨ops, hops, hrun⟩ := h
  obtain ⟨ops', hops', hrun'⟩ := h'
  exact ⟨ops ++ ops', List.forall_mem_append.2 ⟨hops, hops'⟩, (Run.run_append hrun ops').trans hrun'⟩

theorem tryWaiting_inserts (clock : Hash → Int64) (waiting : List OrphanEntry) : ∀ (q : Gossip) (bc : Blockchain),
    Inserts g bc (tryWaiting clock waiting q bc).2.2 := by
  induction waiting with
  | nil => exact fun _ bc => .refl bc
  | cons e waiting ih =>
    intro q bc
    refine .cons e.blk.toWire (clock e.blk.hash) ?_
    rw [tryWaiting]
    split <;> rename_i hins <;> rw [hins] <;> exact ih _ _

theorem resolveLoop_inserts (clock : Hash → Int64) (n : ℕ) : ∀ {due : List Hash} {q q' : Gossip} {bc bc' : Blockchain},
    resolveLoop clock n due q bc = some (q', bc') → Inserts g bc bc' := by
  induction n with
  | zero =>
    intro due q q' bc bc' hloop
    cases due <;> cases hloop
    exact .refl _
  | succ n ih =>
    intro due q q' bc bc' hloop
    cases due with
    | nil =>
      cases hloop
      exact .refl _
    | cons k due => exact (tryWaiting_inserts clock _ _ bc).trans (ih hloop)

omit [Crypto] in
theorem Sound.count (h : Sound q) (stats : Stats) : Sound { q with stats := stats } :=
  h.of_eq rfl rfl rfl rfl rfl rfl rfl rfl

theorem Sound.insert (h : Sound q) (bc : Blockchain) (clock : Hash → Int64) (w : WireBlock) (p : PeerID) : ∃ r q' bc',
    q.insert bc clock w p = some (r, q', bc') ∧ Sound q' ∧ q'.limits = q.limits ∧ Inserts g bc bc' := by
  have hone : Inserts g bc (bc.insert w (clock w.header.hash)).2 := .cons w _ (.refl _)
  rw [Gossip.insert]
  split <;> rename_i hins <;> rw [hins] at hone
  · set q₁ : Gossip := { q with stats := { q.stats with accepted := q.stats.accepted + 1 } }
    obtain ⟨⟨q', bc''⟩, hres⟩ := Option.isSome_iff_exists.1 (resolveOrphans_isSome q₁ _ clock w.header.hash)
    have hlimits : q'.limits = q₁.limits := limits_resolveLoop clock _ hres
    exact ⟨.ok (), q', bc'', by rw [hres, Option.map_some], Sound.resolveLoop clock _ (h.count _) hres, hlimits,
      hone.trans (resolveLoop_inserts clock _ hres)⟩
  · exact ⟨_, _, _, rfl, h.count _, rfl, hone⟩
  · exact ⟨_, _, _, rfl, h.count _, rfl, hone⟩
  · refine ⟨_, _, _, rfl, ?_, ?_, hone⟩ <;> cases w.block?
    exacts [h, h.queueOrphan _ p, rfl, limits_queueOrphan q _ p]
  · exact ⟨_, _, _, rfl, h, rfl, hone⟩
  · exact ⟨_, _, _, rfl, h.penalize p, rfl, hone⟩

/-- **What a message can do**: be counted, without any block that the chain does not have, or bring a block to `insert`. -/
theorem receive_cases (q : Gossip) (bc : Blockchain) (m : Inbound) :
    (∃ q', receive (q, bc) m = .ok (q', bc) ∧ (Sound q → Sound q') ∧ q'.limits = q.limits ∧ q'.orphans = q.orphans ∧
        (∀ p ∈ q'.penalties, p ∈ q.penalties ∨ p = m.source ∧ ∀ w, ¬ m.Offers w) ∧ ∀ w, m.Offers w → hasBlock bc w.header.hash = true) ∨
      ∃ w stats, m.Offers w ∧ hasBlock bc w.header.hash = false ∧
        ∀ r, insert { q with stats := stats } bc m.clock w m.source = some r → receive (q, bc) m = .ok r.2 := by
  simp only [receive, onBlock]
  split_ifs with hban hsize
  · exact .inl ⟨_, rfl, (·.count _), rfl, rfl, fun _ => .inl, fun w ho => by simp [ho.1] at hban⟩
  · have hnone : ∀ w, ¬ m.Offers w := fun w ho => absurd ho.2.1 (Nat.not_le.2 hsize)
    exact .inl ⟨_, rfl, fun h => (h.count _).penalize _, rfl, rfl, fun p hp => (List.mem_cons.1 hp).symm.imp_right (⟨·, hnone⟩),
      fun w ho => absurd ho (hnone w)⟩
  cases hblock : m.msg.block with
  | none =>
    have hnone : ∀ w, ¬ m.Offers w := by simp [Inbound.Offers, hblock]
    exact .inl ⟨_, rfl, fun h => (h.count _).penalize _, rfl, rfl, fun p hp => (List.mem_cons.1 hp).symm.imp_right (⟨·, hnone⟩),
      fun w ho => absurd ho (hnone w)⟩
  | some w =>
    dsimp only
    split_ifs with hhas
    · refine .inl ⟨_, rfl, (·.count _), rfl, rfl, fun _ => .inl, fun w' ho => ?_⟩
      cases hblock.symm.trans ho.2.2
      exact hhas
    · exact .inr ⟨w, _, ⟨Bool.eq_false_of_not_eq_true hban, Nat.le_of_not_lt hsize, hblock⟩, Bool.eq_false_of_not_eq_true hhas, fun r hr => by rw [hr]⟩

theorem Sound.receive {s : Gossip × Blockchain} (h : Sound s.1) (m : Inbound) :
    ∃ s', receive s m = .ok s' ∧ Sound s'.1 ∧ s'.1.limits = s.1.limits ∧ Inserts g s.2 s'.2 := by
  obtain ⟨q', hrec, hsound, hlimits, -⟩ | ⟨w, stats, -, -, hrec⟩ := receive_cases s.1 s.2 m
  · exact ⟨_, hrec, hsound h, hlimits, .refl _⟩
  · obtain ⟨r, q', bc', hins, hsound, hlimits, hinserts⟩ := (h.count stats).insert s.2 m.clock w m.source
    exact ⟨_, hrec _ hins, hsound, hlimits, hinserts⟩

/-- **A node that is fed by gossip is a node that inserts blocks**, whatever its peers send. Every message is handled to its
end, the accounting of the queue stays exact and within its bounds, and what holds after every run of insertions holds of
the chain. -/
theorem gossip_refines_insert (hg : g.validate = .ok ()) (opts : Options) {maxOrphans : ℤ} (hmax : 1 ≤ maxOrphans)
    (maxOrphansPerPeer maxOrphanBytes : ℤ) (ms : List Inbound) :
    ∃ q bc, Run.run receive (newGossip maxOrphans maxOrphansPerPeer maxOrphanBytes, fresh g opts) ms = .ok (q, bc) ∧
      Accounted q ∧ q.limits = (newGossip maxOrphans maxOrphansPerPeer maxOrphanBytes).limits ∧
      ∃ ops, (∀ op ∈ ops, ∃ w nowMs, op = Op.insert w nowMs) ∧ runNode g opts ops = .ok bc := by
  set start := newGossip maxOrphans maxOrphansPerPeer maxOrphanBytes
  obtain ⟨⟨q, bc⟩, hrun, hsound, hlimits, ops, hops, hnode⟩ := Run.run_induction
    (I := fun _ (s : Gossip × Blockchain) => Sound s.1 ∧ s.1.limits = start.limits ∧ Inserts g (fresh g opts) s.2)
    (fun _ m s _ ⟨hs, hl, hi⟩ _ => by
      obtain ⟨s', hrec, hs', hl', hi'⟩ := hs.receive (g := g) m
      exact ⟨s', hrec, hs', hl'.trans hl, hi.trans hi'⟩)
    (Run.meets_of_forall (C := fun _ _ => True) (fun _ _ => trivial) ms (start, fresh g opts)) [] ⟨sound_newGossip hmax _ _, rfl, .refl _⟩
  exact ⟨q, bc, hrun, hsound.accounted, hlimits, ops, hops, (runNode_eq hg opts ops).trans hnode⟩

/-- A block before its parent, a message that is no block, and a fork. -/
def forkFlood : List Inbound :=
  ⟨"alice", false, fun _ => 1000000, ⟨900, some forkRight2.toWire⟩⟩ :: ⟨"mallory", false, fun _ => 1000000, ⟨3, none⟩⟩ ::
    forkSet.map fun b => ⟨"bob", false, fun _ => 1000000, ⟨900, some b.toWire⟩⟩

omit [Crypto] in
theorem gossip_refines_insert_flood : ∃ q bc,
    Run.run (@receive forkCrypto) (newGossip 4 4 0, @fresh forkCrypto transferGenesis forkOptions) forkFlood = .ok (q, bc) ∧
    Accounted q ∧ q.limits = (newGossip 4 4 0).limits ∧ ∃ ops, (∀ op ∈ ops, ∃ w nowMs, op = Op.insert w nowMs) ∧
      @runNode forkCrypto transferGenesis forkOptions ops = .ok bc :=
  @gossip_refines_insert forkCrypto _ transferGenesis_valid forkOptions 4 (by decide) 4 0 forkFlood

end Safety

/-! ### The blocks in the queue -/

def parked (q : Gossip) : Multiset Block := total (fun e => {e.blk}) q.orphans

theorem sum_singletons (l : List OrphanEntry) : (l.map fun e => ({e.blk} : Multiset Block)).sum = (l.map (·.blk) : List Block) := by
  induction l with
  | nil => rfl
  | cons e l ih => rw [List.map_cons, List.sum_cons, ih, Multiset.singleton_add, List.map_cons, Multiset.cons_coe]

theorem parked_eq (q : Gossip) : q.parked = ((entries q.orphans).map (·.blk) : List Block) := sum_singletons _

theorem mem_parked (hk : Kept q q.orphanOrder) : b ∈ q.parked ↔ ∃ e ∈ q.waiting b.header.parentHash, e.blk = b := by
  rw [parked_eq, Multiset.mem_coe, List.mem_map]
  constructor
  · rintro ⟨e, he, rfl⟩
    obtain ⟨k, hek⟩ := mem_entries.1 he
    exact ⟨e, (hk.filed k e hek).symm ▸ hek, rfl⟩
  · rintro ⟨e, he, rfl⟩
    exact ⟨e, mem_entries.2 ⟨_, he⟩, rfl⟩

theorem parked_takeWaiting (q : Gossip) (k : Hash) :
    (q.takeWaiting k).2.parked + ((q.takeWaiting k).1.map (·.blk) : List Block) = q.parked := by
  rw [takeWaiting]
  split
  · exact add_zero _
  · rw [← sum_singletons]
    exact total_erase _ q.orphans k

theorem orphanCount_eq (hk : Kept q q.orphanOrder) : q.orphanCount = q.parked.card := by
  rw [hk.ledger.count, total, sum_ones, parked_eq, Multiset.coe_card, List.length_map]

/-- The queue has room for every block of `S`. -/
def Room (S : List Block) (q : Gossip) : Prop :=
  S.length ≤ q.maxOrphans ∧ S.length ≤ q.maxOrphansPerPeer ∧ (S.map orphanBytesOf).sum ≤ q.maxOrphanBytes

theorem Room.of_limits (h : Room S q) (hl : q'.limits = q.limits) : Room S q' := by
  obtain ⟨h₁, h₂, h₃⟩ : q'.maxOrphans = q.maxOrphans ∧ q'.maxOrphansPerPeer = q.maxOrphansPerPeer ∧
      q'.maxOrphanBytes = q.maxOrphanBytes := by simpa [limits] using hl
  rwa [Room, h₁, h₂, h₃]

/-- There is room for one more of the blocks. -/
theorem Room.lt (h : Room S q) (hk : Kept q q.orphanOrder) (hle : b ::ₘ q.parked ≤ (S : Multiset Block)) (p : PeerID) :
    q.orphanCount < q.maxOrphans ∧ q.byPeer p < q.maxOrphansPerPeer ∧ q.orphanBytes + orphanBytesOf b ≤ q.maxOrphanBytes := by
  obtain ⟨hmax, hper, hbytes⟩ := h
  have hcard := Multiset.card_le_card hle
  rw [Multiset.card_cons, Multiset.coe_card] at hcard
  have hcount := orphanCount_eq hk
  have hshare : q.byPeer p = (entries q.orphans).countP (·.source = p) := (hk.ledger.share p).trans (sum_shareOf p _)
  have hcountP : (entries q.orphans).countP (·.source = p) ≤ q.parked.card := by
    rw [parked_eq, Multiset.coe_card, List.length_map]
    exact List.countP_le_length
  refine ⟨by omega, by omega, Int.le_trans ?_ hbytes⟩
  obtain ⟨rest, hrest⟩ := Multiset.le_iff_exists_add.1 hle
  have hsum : (S.map orphanBytesOf).sum =
      orphanBytesOf b + (q.parked.map orphanBytesOf).sum + (rest.map orphanBytesOf).sum := by
    rw [← Multiset.sum_coe, ← Multiset.map_coe, hrest, Multiset.map_add, Multiset.sum_add, Multiset.map_cons, Multiset.sum_cons]
  have hsize : q.orphanBytes = (q.parked.map orphanBytesOf).sum := by
    rw [hk.ledger.bytes, total, List.map_congr_left hk.sized, parked_eq, Multiset.map_coe, Multiset.sum_coe, List.map_map]
    rfl
  have hnonneg : 0 ≤ (rest.map orphanBytesOf).sum := Multiset.sum_nonneg fun n hn => by
    obtain ⟨x, -, rfl⟩ := Multiset.mem_map.1 hn
    exact orphanBytesOf_nonneg x
  omega

theorem makeRoom_of_room {size : ℤ} (hcount : q.orphanCount < q.maxOrphans) (hbytes : q.orphanBytes + size ≤ q.maxOrphanBytes) :
    q.makeRoom size q.orphanOrder = q := by
  generalize horder : q.orphanOrder = order
  cases order with
  | nil => rw [makeRoom, ← horder]
  | cons oldest order => rw [makeRoom, if_neg (by omega), ← horder]

/-! ### The invariant -/

variable [Crypto] {g : Genesis} {bad : PeerID → Prop} {came came' : Block → Prop} {due : List Hash} {hand hand' : List Block} {bc : Blockchain}

/-- A node in the middle of a call. The blocks that came are stored, parked, or in `hand`; a parked block waits for a parent
that is not stored, or whose children are `due`. Only `bad` peers were penalised. -/
structure Fed (g : Genesis) (S : List Block) (bad : PeerID → Prop) (came : Block → Prop) (due : List Hash) (hand : List Block) (q : Gossip)
    (bc : Blockchain) : Prop where
  whole : Whole g (· ∈ g.block :: S) bc
  nodup : q.parked.Nodup
  spared : ∀ p ∈ q.penalties, bad p
  known : ∀ b ∈ q.parked, b ∈ S ∧ b ≠ g.block
  stored : ∀ k ∈ due, bc.db.blocks[k]? ≠ none
  waits : ∀ b ∈ q.parked, b.header.parentHash ∈ due ∨ bc.db.blocks[b.header.parentHash]? = none
  held : ∀ b, came b → bc.db.blocks[b.hash]? = some b ∨ b ∈ q.parked ∨ b ∈ hand

theorem Fed.of_held (h : Fed g S bad came due hand q bc) (heq : q'.orphans = q.orphans)
    (hspared : ∀ p ∈ q'.penalties, bad p)
    (hheld : ∀ b, came' b → came b ∨ bc.db.blocks[b.hash]? = some b ∨ b ∈ q.parked ∨ b ∈ hand')
    (hhand : ∀ b ∈ hand, b ∈ hand' ∨ b ∈ q.parked) : Fed g S bad came' due hand' q' bc := by
  have hparked : q'.parked = q.parked := by rw [parked, heq, parked]
  refine ⟨h.whole, hparked ▸ h.nodup, hspared, hparked ▸ h.known, h.stored, hparked ▸ h.waits, fun b hb => ?_⟩
  rw [hparked]
  have := h.held b
  have := hhand b
  have := hheld b hb
  tauto

theorem Fed.of_orphans (h : Fed g S bad came due hand q bc) (heq : q'.orphans = q.orphans)
    (hpen : q'.penalties = q.penalties) : Fed g S bad came due hand q' bc :=
  h.of_held heq (hpen ▸ h.spared) (fun _ => .inl) fun _ => .inl

theorem Fed.takeWaiting {k : Hash} (h : Fed g S bad came (k :: due) [] q bc) (hs : Sound q) :
    Fed g S bad came due ((q.takeWaiting k).1.map (·.blk)) (q.takeWaiting k).2 bc ∧
      ∀ e ∈ (q.takeWaiting k).1, e.blk ∈ S ∧ bc.db.blocks[e.blk.header.parentHash]? ≠ none := by
  have hsum := parked_takeWaiting q k
  have hmem : ∀ x, x ∈ q.parked ↔ x ∈ (q.takeWaiting k).2.parked ∨ x ∈ (q.takeWaiting k).1.map (·.blk) := by
    intro x
    rw [← hsum, Multiset.mem_add, Multiset.mem_coe]
  have hpen : (q.takeWaiting k).2.penalties = q.penalties := by
    rw [Gossip.takeWaiting]
    split <;> rfl
  have hgone : (q.takeWaiting k).2.waiting k = [] := by
    rw [Gossip.takeWaiting]
    split
    · assumption
    · rw [waiting, without, bucket_erase, if_pos rfl]
  have hfiled : ∀ e ∈ (q.takeWaiting k).1, e.blk.header.parentHash = k := by
    intro e he
    rw [Gossip.takeWaiting] at he
    split at he
    · cases he
    · exact hs.kept.filed k e he
  refine ⟨⟨h.whole, (Multiset.nodup_add.1 (hsum ▸ h.nodup)).1, hpen ▸ h.spared, fun x hx => h.known x ((hmem x).2 (.inl hx)),
    fun j hj => h.stored j (List.mem_cons_of_mem _ hj), fun x hx => ?_, fun x hx => ?_⟩,
    fun e he => ⟨(h.known _ ((hmem _).2 (.inr (List.mem_map_of_mem he)))).1, hfiled e he ▸ h.stored k List.mem_cons_self⟩⟩
  · refine (h.waits x ((hmem x).2 (.inl hx))).imp_left fun hdue => (List.mem_cons.1 hdue).resolve_left ?_
    rintro rfl
    obtain ⟨e, he, -⟩ := (mem_parked (hs.takeWaiting _).kept).1 hx
    rw [hgone] at he
    cases he
  · rw [← hmem]
    exact (h.held x hx).imp_right (Or.resolve_right · List.not_mem_nil)

theorem hasBlock_eq (hc : Coherent bc) (h : Hash) : hasBlock bc h = (bc.db.blocks[h]?).isSome := by
  rw [hasBlock, Bool.eq_iff_iff]
  simp only [Bool.or_eq_true, decide_eq_true_eq, ExtTreeMap.mem_iff_isSome_getElem?]
  refine or_iff_right_of_imp fun hcache => ?_
  obtain ⟨b, hb⟩ := Option.isSome_iff_exists.1 hcache
  exact Option.isSome_of_eq_some (hc.cache h b hb)

section Steps

variable (hB : HashesDiffer (· ∈ g.block :: S)) (hclosed : ∀ b ∈ S, ∃ t, HasWork g S b t)
include hB

theorem Fed.insert_grows (h : Fed g S bad came due hand q bc) (hb : b ∈ S) (nowMs : Int64) {x : Block}
    (hx : bc.db.blocks[x.hash]? = some x) : (bc.insert b.toWire nowMs).2.db.blocks[x.hash]? = some x :=
  h.whole.unswept.grows hB _ nowMs (known_of_toWire (List.mem_cons_of_mem _ hb)) hx

include hclosed

theorem Fed.genesis_stored (h : Fed g S bad came due hand q bc) : bc.db.blocks[g.block.hash]? = some g.block :=
  have hd : Delivered g S [] bc := ⟨h.whole.synced, h.whole.unswept, fun _ _ hnil => by cases hnil⟩
  hd.genesis_stored hB hclosed

/-- **A block whose parent is stored goes in**, and the blocks that wait for it are due. -/
theorem Fed.insert (h : Fed g S bad came due (b :: hand) q bc) (hb : b ∈ S) (hparent : bc.db.blocks[b.header.parentHash]? ≠ none)
    {nowMs : Int64} (htimely : b.header.timestamp ≤ nowMs + maxFutureDriftMs) :
    (bc.insert b.toWire nowMs = (.error .knownBlock, bc) ∧ bc.db.blocks[b.hash]? = some b ∧ Fed g S bad came due hand q bc) ∨
      ∃ r, (bc.insert b.toWire nowMs).1 = .ok r ∧ Fed g S bad came (due ++ [b.hash]) hand q (bc.insert b.toWire nowMs).2 := by
  have hw := known_of_toWire (B := (· ∈ g.block :: S)) (List.mem_cons_of_mem _ hb)
  have hunswept := h.whole.unswept
  have hnew : (bc.insert b.toWire nowMs).2.db.blocks[b.hash]? = some b := by
    obtain ⟨t, l, hvalid, hl, -⟩ := hclosed b hb
    obtain ⟨w, hchain⟩ := hvalid.chain
    cases l with
    | nil =>
      cases hchain
      exact h.insert_grows hB hb nowMs (h.genesis_stored hB hclosed)
    | cons p m =>
      rw [hchain.parentHash] at hparent
      obtain ⟨x, hx⟩ := Option.ne_none_iff_exists'.1 hparent
      obtain ⟨hhash, hxB⟩ := hunswept.node.tree.known_of_stored hx
      obtain rfl := hB x p hxB (hl p (by simp)) hhash
      exact hunswept.stores hB hvalid hl hx htimely (h.whole.remembers.statesHeld hunswept hvalid hx nowMs)
  have hheld : ∀ x, came x → (bc.insert b.toWire nowMs).2.db.blocks[x.hash]? = some x ∨ x ∈ q.parked ∨ x ∈ hand := by
    intro x hx
    rcases h.held x hx with hst | hpark | hhand
    · exact .inl (h.insert_grows hB hb nowMs hst)
    · exact .inr (.inl hpark)
    · rcases List.mem_cons.1 hhand with rfl | hhand
      · exact .inl hnew
      · exact .inr (.inr hhand)
  have hwhole := h.whole.insert hB b.toWire nowMs hw
  rcases hunswept.insert_cases hB b.toWire nowMs hw with ⟨e, he, hc⟩ | ⟨b', r, p, l, c, bc₁, hb', hr, hc, -, hblocks, -⟩
  · rw [hc.db] at hnew hheld
    have hmem : b.toWire.header.hash ∈ bc.db.blocks := by
      rw [show b.toWire.header.hash = b.hash from rfl, ExtTreeMap.mem_iff_isSome_getElem?, hnew]
      rfl
    exact .inl ⟨insert_of_known hmem nowMs, hnew, h.whole, h.nodup, h.spared, h.known, h.stored, h.waits, hheld⟩
  · rw [block?_toWire] at hb'
    cases hb'
    refine .inr ⟨r, hr, hwhole, h.nodup, h.spared, h.known, fun k hk => ?_, fun x hx => ?_, hheld⟩ <;>
      rw [hblocks, getElem?_storeBlock, hc.db] <;> split
    case refine_1.isTrue => exact Option.some_ne_none _
    case refine_1.isFalse hne =>
      exact h.stored k ((List.mem_append.1 hk).resolve_right fun hlast => hne (List.mem_singleton.1 hlast).symm)
    case refine_2.isTrue heq => exact .inl (List.mem_append_right _ (heq ▸ List.mem_singleton_self _))
    case refine_2.isFalse => exact (h.waits x hx).imp_left (List.mem_append_left _)

variable {clock : Hash → Int64} (htimely : ∀ b ∈ S, b.header.timestamp ≤ clock b.hash + maxFutureDriftMs)
include htimely

theorem Fed.tryWaiting (waiting : List OrphanEntry) : ∀ {due : List Hash} {q : Gossip} {bc : Blockchain},
    Fed g S bad came due (waiting.map (·.blk)) q bc →
    (∀ e ∈ waiting, e.blk ∈ S ∧ bc.db.blocks[e.blk.header.parentHash]? ≠ none) →
    Fed g S bad came (due ++ (tryWaiting clock waiting q bc).1) [] (tryWaiting clock waiting q bc).2.1
      (tryWaiting clock waiting q bc).2.2 := by
  induction waiting with
  | nil =>
    intro due q bc h _
    rwa [Gossip.tryWaiting, List.append_nil]
  | cons e waiting ih =>
    intro due q bc h hready
    obtain ⟨hb, hparent⟩ := hready e List.mem_cons_self
    have hnext : ∀ x ∈ waiting, x.blk ∈ S ∧
        (bc.insert e.blk.toWire (clock e.blk.hash)).2.db.blocks[x.blk.header.parentHash]? ≠ none := by
      intro x hx
      obtain ⟨hxS, hxp⟩ := hready x (List.mem_cons_of_mem _ hx)
      obtain ⟨p, hp⟩ := Option.ne_none_iff_exists'.1 hxp
      obtain ⟨hhash, -⟩ := h.whole.unswept.node.tree.known_of_stored hp
      rw [← hhash] at hp ⊢
      exact ⟨hxS, by simp [h.insert_grows hB hb _ hp]⟩
    rw [Gossip.tryWaiting]
    rcases h.insert hB hclosed hb hparent (htimely _ hb) with ⟨hins, -, h'⟩ | ⟨r, hr, h'⟩
    · rw [hins] at hnext ⊢
      exact ih h' hnext
    · generalize bc.insert e.blk.toWire (clock e.blk.hash) = ins at *
      obtain ⟨res, bc'⟩ := ins
      cases hr
      have hcounted : Fed g S bad came (due ++ [e.blk.hash]) (waiting.map (·.blk))
        { q with stats := { q.stats with accepted := q.stats.accepted + 1 } } bc' := h'.of_orphans rfl rfl
      have := ih hcounted hnext
      rwa [List.append_assoc] at this

theorem Fed.resolveLoop (n : ℕ) : ∀ {due : List Hash} {q q' : Gossip} {bc bc' : Blockchain}, Sound q → Fed g S bad came due [] q bc →
    resolveLoop clock n due q bc = some (q', bc') → Fed g S bad came [] [] q' bc' := by
  induction n with
  | zero =>
    intro due q q' bc bc' _ h hloop
    cases due <;> cases hloop
    exact h
  | succ n ih =>
    intro due q q' bc bc' hs h hloop
    cases due with
    | nil =>
      cases hloop
      exact h
    | cons k due =>
      obtain ⟨htaken, hready⟩ := h.takeWaiting hs
      exact ih (Sound.tryWaiting clock _ (hs.takeWaiting k)) (htaken.tryWaiting hB hclosed htimely _ hready) hloop

omit hclosed htimely in
/-- A block without its parent finds a place in the queue. -/
theorem Fed.queueOrphan (h : Fed g S bad came [] [b] q bc) (hs : Sound q) (hroom : Room S q) (hb : b ∈ S)
    (hne : b ≠ g.block) (hparent : bc.db.blocks[b.header.parentHash]? = none) (p : PeerID) : Fed g S bad came [] [] (q.queueOrphan b p) bc := by
  have hmem : (q.waiting b.header.parentHash).any (·.blk.hash = b.hash) ↔ b ∈ q.parked := by
    rw [mem_parked hs.kept, List.any_eq_true]
    refine exists_congr fun e => and_congr_right fun he => ?_
    rw [decide_eq_true_iff]
    refine ⟨fun hhash => ?_, fun heq => heq ▸ rfl⟩
    obtain ⟨heS, -⟩ := h.known e.blk ((mem_parked hs.kept).2 ⟨e, (hs.kept.filed _ e he).symm ▸ he, rfl⟩)
    exact hB _ _ (List.mem_cons_of_mem _ heS) (List.mem_cons_of_mem _ hb) hhash
  rw [Gossip.queueOrphan]
  split
  case isTrue hdup => exact h.of_held rfl h.spared (fun _ => .inl) fun x hx => .inr (List.mem_singleton.1 hx ▸ hmem.1 hdup)
  case isFalse hdup =>
    have hnodup : (b ::ₘ q.parked).Nodup := Multiset.nodup_cons.2 ⟨fun hpark => hdup (hmem.2 hpark), h.nodup⟩
    have hknown : ∀ x ∈ b ::ₘ q.parked, x ∈ S ∧ x ≠ g.block := Multiset.forall_mem_cons.2 ⟨⟨hb, hne⟩, h.known⟩
    obtain ⟨hcount, hshare, hbytes⟩ := hroom.lt hs.kept ((Multiset.le_iff_subset hnodup).2 fun x hx => (hknown x hx).1) p
    dsimp only
    rw [if_neg (Int.not_le.2 hshare), makeRoom_of_room hcount hbytes, if_neg (Int.not_lt.2 hbytes)]
    have hparked : (q.park b p (orphanBytesOf b)).parked = b ::ₘ q.parked := by
      rw [parked, park, total_push, add_comm, Multiset.singleton_add, parked]
    refine ⟨h.whole, hparked ▸ hnodup, h.spared, hparked ▸ hknown, h.stored, ?_, fun x hx => ?_⟩ <;> rw [hparked]
    · exact Multiset.forall_mem_cons.2 ⟨.inr hparent, h.waits⟩
    · rw [Multiset.mem_cons]
      have := h.held x hx
      rw [List.mem_singleton] at this
      tauto

/-- A block that is not stored is inserted with all that waits for it, or parked. -/
theorem Fed.handle (h : Fed g S bad came [] [b] q bc) (hs : Sound q) (hroom : Room S q) (hb : b ∈ S)
    (hst : bc.db.blocks[b.hash]? = none) {p : PeerID} {r : Except GossipError Unit} {bc' : Blockchain}
    (hins : q.insert bc clock b.toWire p = some (r, q', bc')) : Fed g S bad came [] [] q' bc' := by
  have hc := h.whole.unswept.node.tree.ready.coherent
  rw [Gossip.insert, show b.toWire.header.hash = b.hash from rfl, block?_toWire] at hins
  by_cases hparent : bc.db.blocks[b.header.parentHash]? = none
  · obtain ⟨hdisk, hcache⟩ := not_mem_of_new hc hst
    have hrefused : bc.insert b.toWire (clock b.hash) = (.error (.unknownParent b.header.parentHash), bc) := by
      unfold Blockchain.insert insertOn
      rw [if_neg (show b.toWire.header.hash ∉ bc.db.blocks from hdisk),
        if_neg (show b.toWire.header.hash ∉ bc.blockCache from hcache), block?_toWire]
      dsimp only
      rw [parentOf_none hc hparent]
    rw [hrefused] at hins
    cases hins
    refine h.queueOrphan hB hs hroom hb ?_ hparent p
    rintro rfl
    exact Option.some_ne_none _ ((h.genesis_stored hB hclosed).symm.trans hst)
  rcases h.insert hB hclosed hb hparent (htimely b hb) with ⟨-, hbefore, -⟩ | ⟨o, ho, hfed⟩
  · exact absurd (hbefore.symm.trans hst) (Option.some_ne_none b)
  generalize bc.insert b.toWire (clock b.hash) = inserted at ho hfed hins
  obtain ⟨res, bc₁⟩ := inserted
  cases ho
  obtain ⟨⟨q₂, bc₂⟩, hres, heq⟩ := Option.map_eq_some_iff.1 hins
  cases heq
  have hfed₁ : Fed g S bad came [b.hash] [] { q with stats := { q.stats with accepted := q.stats.accepted + 1 } } bc₁ :=
    hfed.of_orphans rfl rfl
  exact hfed₁.resolveLoop hB hclosed htimely _ (hs.count _) hres

end Steps

/-! ### Runs -/

/-- The block came with one of the messages. -/
def Came (past : List Inbound) (b : Block) : Prop := ∃ m ∈ past, m.Offers b.toWire

/-- The peer sent a message that offers no block. -/
def Litters (ms : List Inbound) (p : PeerID) : Prop := ∃ m ∈ ms, m.source = p ∧ ∀ w, ¬ m.Offers w

/-- The messages of a run: the blocks they offer are of `S` and not ahead of the clock, and each block of `S` is offered. -/
structure Floods (S : List Block) (ms : List Inbound) : Prop where
  blocks : ∀ m ∈ ms, ∀ w, m.Offers w → ∃ b ∈ S, w = b.toWire
  timely : ∀ m ∈ ms, ∀ b ∈ S, b.header.timestamp ≤ m.clock b.hash + maxFutureDriftMs
  all : ∀ b ∈ S, Came ms b

section Runs

variable (hB : HashesDiffer (· ∈ g.block :: S)) (hclosed : ∀ b ∈ S, ∃ t, HasWork g S b t) {ms past : List Inbound}
include hB hclosed

/-- **One message**, whatever is in it. -/
theorem Fed.receive {s s' : Gossip × Blockchain} (h : Fed g S bad (Came past) [] [] s.1 s.2) (hs : Sound s.1)
    (hroom : Room S s.1) (hms : Floods S ms) {m : Inbound} (hm : m ∈ ms)
    (hbad : (∀ w, ¬ m.Offers w) → bad m.source) (hrec : receive s m = .ok s') :
    Fed g S bad (Came (past ++ [m])) [] [] s'.1 s'.2 := by
  obtain ⟨q, bc⟩ := s
  have hcame : ∀ b, Came (past ++ [m]) b → Came past b ∨ m.Offers b.toWire := by
    rintro b ⟨m', hm', ho⟩
    rcases List.mem_append.1 hm' with hpast | hlast
    · exact .inl ⟨m', hpast, ho⟩
    · exact .inr (List.mem_singleton.1 hlast ▸ ho)
  have hwire : ∀ {w}, m.Offers w → ∃ b ∈ S, w = b.toWire ∧ ∀ x : Block, m.Offers x.toWire → x = b := by
    intro w hblock
    obtain ⟨b, hb, rfl⟩ := hms.blocks m hm w hblock
    refine ⟨b, hb, rfl, fun x hx => ?_⟩
    have := congrArg (Option.bind · WireBlock.block?) (hx.2.2.symm.trans hblock.2.2)
    simpa [block?_toWire] using this
  have hhas := hasBlock_eq h.whole.unswept.node.tree.ready.coherent
  obtain ⟨q', hrec', -, -, horphans, hpen, hstored⟩ | ⟨w, stats, hblock, hnew, hrec'⟩ := receive_cases q bc m
  · cases hrec.symm.trans hrec'
    refine h.of_held horphans (fun p hp => (hpen p hp).elim (h.spared p) fun ⟨hp, hnone⟩ => hp ▸ hbad hnone) (fun b hb => (hcame b hb).imp_right fun ho => .inl ?_) fun _ => .inl
    obtain ⟨x, hx⟩ := Option.isSome_iff_exists.1 ((hhas _).symm.trans (hstored b.toWire ho))
    obtain ⟨hhash, hxB⟩ := h.whole.unswept.node.tree.known_of_stored hx
    obtain ⟨b', hb, -, honly⟩ := hwire ho
    obtain rfl := hB x b hxB (honly b ho ▸ List.mem_cons_of_mem _ hb) hhash
    exact hx
  · obtain ⟨b, hb, rfl, honly⟩ := hwire hblock
    obtain ⟨r, q', bc', hins, -⟩ := Sound.insert (g := g) (Sound.count hs stats) bc m.clock b.toWire m.source
    cases hrec.symm.trans (hrec' _ hins)
    have hhand : Fed g S bad (Came (past ++ [m])) [] [b] { q with stats := stats } bc :=
      h.of_held rfl h.spared (fun x hx => (hcame x hx).imp_right fun ho => .inr (.inr (by simp [honly x ho]))) fun _ hnil => by cases hnil
    exact hhand.handle hB hclosed (hms.timely m hm) (Sound.count hs _) (hroom.of_limits rfl) hb
      (Option.not_isSome_iff_eq_none.1 (by simp [← hhas, ← hnew]; rfl)) hins

/-- If every block has come, then every block is stored: each would wait for the one below it. -/
theorem Fed.all_stored (h : Fed g S bad came [] [] q bc) (hcame : ∀ b ∈ S, came b) (l : List Block) : ∀ {b : Block},
    Valid g (b :: l) → (∀ x ∈ b :: l, x ∈ g.block :: S) → bc.db.blocks[b.hash]? = some b := by
  induction l with
  | nil =>
    intro b hvalid _
    obtain ⟨w, hw⟩ := hvalid.chain
    cases hw
    exact h.genesis_stored hB hclosed
  | cons p m ih =>
    intro b hvalid hl
    obtain ⟨w, hw⟩ := hvalid.chain
    have hp := ih (hvalid.of_suffix (List.suffix_cons b _)) fun x hx => hl x (List.mem_cons_of_mem _ hx)
    rcases List.mem_cons.1 (hl b List.mem_cons_self) with rfl | hb
    · exact h.genesis_stored hB hclosed
    refine (h.held b (hcame b hb)).resolve_right fun hpark => ?_
    rcases h.waits b (hpark.resolve_right List.not_mem_nil) with hnil | hnone
    · cases hnil
    · rw [hw.parentHash, hp] at hnone
      cases hnone

omit hB in
theorem Fed.none_parked (h : Fed g S bad came [] [] q bc) (hstored : ∀ b ∈ g.block :: S, bc.db.blocks[b.hash]? = some b) :
    q.parked = 0 := by
  refine Multiset.eq_zero_of_forall_notMem fun b hb => ?_
  obtain ⟨hbS, hne⟩ := h.known b hb
  obtain ⟨t, l, hvalid, hl, -⟩ := hclosed b hbS
  obtain ⟨w, hw⟩ := hvalid.chain
  cases l with
  | nil =>
    cases hw
    exact hne rfl
  | cons p m =>
    rcases h.waits b hb with hnil | hnone
    · cases hnil
    · rw [hw.parentHash, hstored p (hl p (by simp))] at hnone
      cases hnone

end Runs

/-- **A node that is fed by gossip converges.** Valid blocks that are gossiped in any order, from any peers, any number of
times and among any messages that are dropped are all stored in the end, if the queue has room for them: none waits any
more, the head is the one heaviest block, and no peer was penalised for a block. -/
theorem gossip_converges (hg : g.validate = .ok ()) (hB : HashesDiffer (· ∈ g.block :: S))
    (hclosed : ∀ b ∈ S, ∃ t, HasWork g S b t) {opts : Options} (hlow : ∀ b ∈ S, b.height ≤ (fresh g opts).retention)
    {maxOrphans : ℤ} (hmax : 1 ≤ maxOrphans) {maxOrphansPerPeer maxOrphanBytes : ℤ}
    (hroom : Room S (newGossip maxOrphans maxOrphansPerPeer maxOrphanBytes)) {ms : List Inbound} (h : Floods S ms) :
    ∃ q bc, Run.run receive (newGossip maxOrphans maxOrphansPerPeer maxOrphanBytes, fresh g opts) ms = .ok (q, bc) ∧
      (∀ b ∈ S, bc.db.blocks[b.hash]? = some b) ∧ q.orphanCount = 0 ∧ (∀ p ∈ q.penalties, Litters ms p) ∧
      Heaviest g S bc.head ∧ ∀ x, Heaviest g S x → x = bc.head := by
  set start := newGossip maxOrphans maxOrphansPerPeer maxOrphanBytes
  have hempty : start.parked = 0 := total_empty _
  have hpen : start.penalties = [] := rfl
  have hinit : Fed g S (Litters ms) (Came []) [] [] start (fresh g opts) := by
    refine ⟨.of_fresh hg List.mem_cons_self (low_of_set hlow), ?_, ?_, ?_, ?_, ?_, ?_⟩ <;> simp [hempty, hpen, Came]
  obtain ⟨⟨q, bc⟩, hrun, hs, -, hend⟩ := Run.run_induction
    (I := fun past (s : Gossip × Blockchain) => Sound s.1 ∧ s.1.limits = start.limits ∧ Fed g S (Litters ms) (Came past) [] [] s.1 s.2)
    (fun past m s hm ⟨hs, hl, hfed⟩ _ => by
      obtain ⟨s', hrec, hs', hl', -⟩ := hs.receive (g := g) m
      exact ⟨s', hrec, hs', hl'.trans hl, hfed.receive hB hclosed hs (hroom.of_limits hl) h hm (⟨m, hm, rfl, ·⟩) hrec⟩)
    (Run.meets_of_forall (C := fun _ _ => True) (fun _ _ => trivial) ms (start, fresh g opts)) [] ⟨sound_newGossip hmax _ _, rfl, hinit⟩
  have hstored : ∀ b ∈ S, bc.db.blocks[b.hash]? = some b := by
    intro b hb
    obtain ⟨t, l, hvalid, hl, -⟩ := hclosed b hb
    exact hend.all_stored hB hclosed h.all l hvalid hl
  have hnone := hend.none_parked hclosed (List.forall_mem_cons.2 ⟨hend.genesis_stored hB hclosed, hstored⟩)
  have hbest : Heaviest g S bc.head := hend.whole.unswept.heaviest hB hclosed hstored
  exact ⟨q, bc, hrun, hstored, by rw [orphanCount_eq hs.kept, hnone]; rfl, hend.spared, hbest, fun x hx => hx.unique hbest⟩

omit [Crypto] in
theorem gossip_converges_flood : ∃ q bc,
    Run.run (@receive forkCrypto) (newGossip 4 4 0, @fresh forkCrypto transferGenesis forkOptions) forkFlood = .ok (q, bc) ∧
    (∀ b ∈ forkSet, bc.db.blocks[@Block.hash forkCrypto b]? = some b) ∧ q.orphanCount = 0 ∧ (∀ p ∈ q.penalties, Litters forkFlood p) ∧
    @Heaviest forkCrypto transferGenesis forkSet bc.head ∧
    ∀ x, @Heaviest forkCrypto transferGenesis forkSet x → x = bc.head := by
  have hfloods : @Floods forkCrypto forkSet forkFlood := by
    refine @Floods.mk forkCrypto _ _ ?_ ?_ ?_ <;> simp [forkFlood, forkSet, Came, Inbound.Offers, maxBlockMessage]
    decide
  exact @gossip_converges _ forkCrypto _ transferGenesis_valid hashesDiffer_forkSet hasWork_forkSet forkOptions (by decide +kernel) 4
    (by decide) 4 0 (by unfold Room; decide) _ hfloods

end Gossip

end Lxs.P2p
