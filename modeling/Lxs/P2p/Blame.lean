import Lxs.Core.Refusal
import Lxs.Core.Tree
import Lxs.P2p.Orphans

/-!
# Who is blamed for a refused block

`insert` and `resolveOrphans` classify the errors of an insertion by lists of their own. `insert` spares the sender of a
block that is known, dated ahead of the clock, without a parent, or on a branch too deep to judge; `resolveOrphans`
spares only the sender of a known block.

## Main results

* `Gossip.orphan_blame_iff` — **when waiting as an orphan does not change who is blamed**;
* `Gossip.orphan_blamed_for_clock` — a block a minute ahead of the clock, parked and delivered directly.
-/

namespace Lxs.P2p

open Std Lib Blockchain

namespace Gossip

variable [Crypto] {g : Gossip} {bc : Blockchain}

def BlamedParked (g : Gossip) (bc : Blockchain) (clock : Hash → Int64) (e : OrphanEntry) : Prop :=
  (tryWaiting clock [e] g bc).2.1.penalties = e.source :: g.penalties

/-- A block is refused and the peer that delivers it penalised. A peer that is penalised when the block is accepted is
penalised for another block, one that waited for it. -/
def BlamedDirectly (g : Gossip) (bc : Blockchain) (clock : Hash → Int64) (b : Block) (p : PeerID) : Prop :=
  (∃ err, (bc.insert b.toWire (clock b.hash)).1 = .error err) ∧
    ∃ r g' bc', g.insert bc clock b.toWire p = some (r, g', bc') ∧ g'.penalties = p :: g.penalties

def Takes (g : Gossip) (b : Block) (p : PeerID) : Prop :=
  (g.waiting b.header.parentHash).any (·.blk.hash = b.hash) ∨
    g.byPeer p < g.maxOrphansPerPeer ∧ orphanBytesOf b ≤ g.maxOrphanBytes

def Spared (g : Gossip) (bc : Blockchain) (nowMs : Int64) (b parent : Block) (p : PeerID) : Prop :=
  Deferred bc nowMs b parent ∨ Lost bc nowMs b parent ∧ g.Takes b p

theorem blamedParked_iff {clock : Hash → Int64} {e : OrphanEntry} : g.BlamedParked bc clock e ↔
    ∃ err, (bc.insert e.blk.toWire (clock e.blk.hash)).1 = .error err ∧ err ≠ .knownBlock := by
  unfold BlamedParked tryWaiting
  cases hins : bc.insert e.blk.toWire (clock e.blk.hash) with
  | mk r bc' =>
    split
    next h =>
      cases h
      simp [tryWaiting]
    next err bc' hne h =>
      cases h
      exact ⟨fun _ => ⟨err, rfl, hne⟩, fun _ => rfl⟩
    next h =>
      cases h
      simp [tryWaiting]

theorem queueOrphan_penalties (hk : Kept g g.orphanOrder) (b : Block) (p : PeerID) :
    (g.queueOrphan b p).penalties = p :: g.penalties ↔ ¬ g.Takes b p := by
  have hroom := (makeRoom_spec (orphanBytesOf b) g.orphanOrder hk).2.2.1
  simp only [queueOrphan, hk.makeRoom_lt, Takes]
  split_ifs with hdup hquota hsize
  · simp [hdup]
  · simpa [hdup, penalize] using fun h => absurd hquota (Int.not_le.2 h)
  · simpa [hdup, penalize, hroom] using fun _ => hsize
  · have hpark : ((g.makeRoom (orphanBytesOf b) g.orphanOrder).park b p (orphanBytesOf b)).penalties = g.penalties := hroom
    rw [hpark]
    simp [hdup, Int.not_le.1 hquota, Int.not_lt.1 hsize]

theorem blamedDirectly_iff (hk : Kept g g.orphanOrder) {clock : Hash → Int64} {b : Block} {p : PeerID} :
    g.BlamedDirectly bc clock b p ↔ ∃ err, (bc.insert b.toWire (clock b.hash)).1 = .error err ∧
      (err.isFault = true ∨ ∃ k, err = .unknownParent k ∧ ¬ g.Takes b p) := by
  unfold BlamedDirectly Gossip.insert
  rw [show b.toWire.header.hash = b.hash from rfl, block?_toWire]
  cases hins : bc.insert b.toWire (clock b.hash) with
  | mk r bc' =>
    cases r with
    | ok r => simp
    | error err =>
      cases err <;> simp_all [InsertError.isFault, penalize, queueOrphan_penalties hk]

/-- **When waiting does not change who is blamed.** At every moment at which the parent is stored, the sender of a parked
block is blamed exactly when a peer that delivers the block would be, if and only if the block is not one that `insert`
spares the sender of. -/
theorem orphan_blame_iff (hk : Kept g g.orphanOrder) (hc : Coherent bc) {e : OrphanEntry} {parent : Block}
    (hparent : bc.db.blocks[e.blk.header.parentHash]? = some parent) (clock : Hash → Int64) (p : PeerID) :
    (g.BlamedParked bc clock e ↔ g.BlamedDirectly bc clock e.blk p) ↔ ¬ g.Spared bc (clock e.blk.hash) e.blk parent p := by
  rw [blamedParked_iff, blamedDirectly_iff hk]
  constructor
  · intro hiff hspared
    rcases hspared with hdef | ⟨hlost, htakes⟩
    · obtain ⟨err, herr, hd⟩ := insert_of_deferred hc hparent hdef
      obtain ⟨err', herr', hblame⟩ := hiff.1 ⟨err, herr, by rintro rfl; cases hd⟩
      obtain rfl : err = err' := Except.error.inj (herr.symm.trans herr')
      rcases hblame with hfault | ⟨k, rfl, -⟩
      · cases err <;> cases hd <;> cases hfault
      · cases hd
    · obtain ⟨k, herr⟩ := insert_of_lost hc hlost
      obtain ⟨err', herr', hblame⟩ := hiff.1 ⟨_, herr, by rintro ⟨⟩⟩
      obtain rfl := Except.error.inj (herr.symm.trans herr')
      rcases hblame with hfault | ⟨-, -, hnot⟩
      · cases hfault
      · exact hnot htakes
  · intro hspared
    constructor
    · rintro ⟨err, herr, hne⟩
      rcases insert_error hc hparent herr with hknown | hfault | ⟨-, hdef⟩ | ⟨k, rfl, hlost⟩
      · exact absurd hknown hne
      · exact ⟨err, herr, .inl hfault⟩
      · exact absurd (.inl hdef) hspared
      · exact ⟨_, herr, .inr ⟨k, rfl, fun htakes => hspared (.inr ⟨hlost, htakes⟩)⟩⟩
    · rintro ⟨err, herr, hfault | ⟨k, rfl, -⟩⟩
      · exact ⟨err, herr, by rintro rfl; cases hfault⟩
      · exact ⟨_, herr, by rintro ⟨⟩⟩

/-! ### A block ahead of the clock

The second block of the left branch is dated 480000 and is tried at 420000, right after its parent was inserted. -/

def minuteBehind : Hash → Int64 := fun _ => 420000

def parkedLeft2 : OrphanEntry := ⟨forkLeft2, "alice", 256⟩

omit [Crypto] in
theorem exists_parentOnly : ∃ bc, @runNode forkCrypto transferGenesis forkOptions [offer transferBlock] = .ok bc ∧
    bc.db.blocks[parkedLeft2.blk.header.parentHash]? = some transferBlock ∧
    (@Blockchain.insert forkCrypto bc forkLeft2.toWire 420000).1 = .error (.futureBlock 480000 420000) := by
  obtain ⟨bc, hrun, hfacts⟩ := Run.exists_of_map
    (show (@runNode forkCrypto transferGenesis forkOptions [offer transferBlock]).map (fun bc =>
      (bc.db.blocks[parkedLeft2.blk.header.parentHash]?, (@Blockchain.insert forkCrypto bc forkLeft2.toWire 420000).1)) =
      .ok (some transferBlock, .error (.futureBlock 480000 420000)) by decide +kernel)
  exact ⟨bc, hrun, Prod.mk.inj hfacts⟩

omit [Crypto] in
theorem orphan_blame_iff_left2 : ∃ bc, @runNode forkCrypto transferGenesis forkOptions [offer transferBlock] = .ok bc ∧
    Kept (newGossip 256 0 0) [] ∧ @Coherent forkCrypto bc ∧
    bc.db.blocks[parkedLeft2.blk.header.parentHash]? = some transferBlock ∧
    ((@BlamedParked forkCrypto (newGossip 256 0 0) bc minuteBehind parkedLeft2 ↔
        @BlamedDirectly forkCrypto (newGossip 256 0 0) bc minuteBehind forkLeft2 "alice") ↔
      ¬ @Spared forkCrypto (newGossip 256 0 0) bc 420000 forkLeft2 transferBlock "alice") := by
  obtain ⟨bc, hrun, hparent, -⟩ := exists_parentOnly
  have hkept : Kept (newGossip 256 0 0) [] := (sound_newGossip (by decide) 0 0).kept
  have hready := @ready_of_run forkCrypto _ _ _ _ hrun
  have hc : @Coherent forkCrypto bc := @Ready.coherent forkCrypto _ _ hready.2
  exact ⟨bc, hrun, hkept, hc, hparent, @orphan_blame_iff forkCrypto _ _ hkept hc _ _ hparent minuteBehind "alice"⟩

omit [Crypto] in
/-- The sender of the parked block is blamed for the clock, a peer that delivers it directly is not. -/
theorem orphan_blamed_for_clock : ∃ bc, @runNode forkCrypto transferGenesis forkOptions [offer transferBlock] = .ok bc ∧
    bc.db.blocks[parkedLeft2.blk.header.parentHash]? = some transferBlock ∧
    @BlamedParked forkCrypto (newGossip 256 0 0) bc minuteBehind parkedLeft2 ∧
    ∀ p, ¬ @BlamedDirectly forkCrypto (newGossip 256 0 0) bc minuteBehind forkLeft2 p := by
  obtain ⟨bc, hrun, hparent, hins⟩ := exists_parentOnly
  have hkept : Kept (newGossip 256 0 0) [] := (sound_newGossip (by decide) 0 0).kept
  refine ⟨bc, hrun, hparent, (@blamedParked_iff forkCrypto _ _ _ _).2 ⟨_, hins, by decide⟩, fun p hblamed => ?_⟩
  obtain ⟨err, herr, hblame⟩ := (@blamedDirectly_iff forkCrypto _ _ hkept _ _ _).1 hblamed
  obtain rfl := Except.error.inj (hins.symm.trans herr)
  rcases hblame with hfault | ⟨k, hk, -⟩
  · cases hfault
  · cases hk

end Gossip

end Lxs.P2p
