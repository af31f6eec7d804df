import Lxs.Core.Pruning

/-!
# Nodes that are running

What holds of a node after every run of insertions and reopenings, without any condition: the cache agrees with the
disk, the head is stored and its state is in memory.
-/

set_option linter.unusedSectionVars false

namespace Lxs

open Std Lib

/-! ### Batches -/

def Database.Moved (db db' : Database) : Prop :=
  db' = { db with
    accounts := db'.accounts, canonical := db'.canonical, txIndex := db'.txIndex, revDiffs := db'.revDiffs }

namespace Database.Moved

variable {db db' db'' : Database}

theorem refl (db : Database) : Moved db db := rfl

theorem trans (h₁ : Moved db db') (h₂ : Moved db' db'') : Moved db db'' := by
  unfold Moved at h₁ h₂ ⊢
  rw [h₁] at h₂
  exact h₂

theorem blocks (h : Moved db db') : db'.blocks = db.blocks := by rw [h]
theorem tds (h : Moved db db') : db'.tds = db.tds := by rw [h]
theorem receipts (h : Moved db db') : db'.receipts = db.receipts := by rw [h]

end Database.Moved

namespace Blockchain

variable [Crypto] {bc bc' : Blockchain} {g : Genesis}

theorem moved_canonicalWrites (db : Database) (b : Block) (st prev : State) :
    db.Moved (db.commit (canonicalWrites b st prev)) := by
  unfold canonicalWrites writeAccountChanges indexTxs accountWrite
  rw [Database.commit_append, Database.commit_append, Database.commit_append, Database.commit_account,
    Database.commit_txIndex]
  rfl

theorem moved_unwindWrites {src : Database} {dropped : List Block} {ws : List Write}
    (h : unwindWrites src dropped = .ok ws) (db : Database) : db.Moved (db.commit ws) := by
  induction dropped generalizing ws db with
  | nil =>
    cases h
    exact .refl db
  | cons b dropped ih =>
    unfold unwindWrites at h
    cases hu : applyReverseDiff src b.hash with
    | none => rw [hu] at h; cases h
    | some undo =>
      rw [hu] at h
      cases hrest : unwindWrites src dropped with
      | error e => rw [hrest] at h; cases h
      | ok rest =>
        rw [hrest] at h
        cases h
        obtain ⟨d, -, rfl⟩ := Option.map_eq_some_iff.1 hu
        rw [Database.commit_append, Database.commit_append, Database.commit_append, Database.commit_account,
          Database.commit_txIndex]
        refine Database.Moved.trans ?_ (ih hrest _)
        rfl

theorem moved_applyWrites {newHead : Block} {newState : State} {added : List Block} {ws : List Write}
    (h : bc.applyWrites newHead newState added = .ok ws) (db : Database) : db.Moved (db.commit ws) := by
  induction added generalizing ws db with
  | nil =>
    cases h
    exact .refl db
  | cons b added ih =>
    unfold applyWrites at h
    split at h
    · cases h
    · split at h
      · cases h
      · split at h
        · cases h
        · rename_i hrest
          cases h
          rw [Database.commit_append]
          exact (moved_canonicalWrites db b _ _).trans (ih hrest _)

def storeBlock (db : Database) (b : Block) (c : Checked) : Database :=
  db.commit (writeBlock b c.receipts ++ [.td b.hash (some c.td)])

def moveHead (db : Database) (b : Block) (c : Checked) : Database := db.commit (headWrites b c.state)

theorem commit_extendBatch (db : Database) (b : Block) (c : Checked) (prev : State) :
    db.commit (extendBatch b c prev) = moveHead ((storeBlock db b c).commit (canonicalWrites b c.state prev)) b c := by
  unfold extendBatch
  rw [Database.commit_append, Database.commit_append]
  rfl

theorem commit_reorgBatch (db : Database) (b : Block) (c : Checked) (unwind apply : List Write) :
    db.commit (reorgBatch b c unwind apply) = moveHead (((storeBlock db b c).commit unwind).commit apply) b c := by
  unfold reorgBatch
  rw [Database.commit_append, Database.commit_append, Database.commit_append]
  rfl

variable {b : Block} {c : Checked}

theorem Placed.blocks {sweeps : Bool} {r : Except InsertError (Option Reorg) × Blockchain} (h : Placed sweeps bc b c r) :
    (∃ db', (storeBlock bc.db b c).Moved db' ∧ r.2 = Blockchain.prune { bc with
      db := moveHead db' b c, blockCache := bc.blockCache.insert b.hash b, states := bc.states.insert b.hash c.state, head := b } sweeps) ∨
      r.2 = bc.store b c.receipts c.state c.td := by
  cases h with
  | side _ => exact .inr rfl
  | @extend prev _ _ _ =>
    refine .inl ⟨_, moved_canonicalWrites _ b c.state prev, ?_⟩
    rw [← commit_extendBatch]
    rfl
  | reorg _ _ _ _ _ hu ha =>
    refine .inl ⟨_, (moved_unwindWrites hu _).trans (moved_applyWrites ha _), ?_⟩
    rw [← commit_reorgBatch]
    rfl

/-! ### Running nodes -/

/-- The parameters a chain has from its genesis. -/
structure Of (g : Genesis) (bc : Blockchain) : Prop where
  chainID : bc.chainID = g.chainID
  treasury : bc.treasury = g.treasury
  genesis : bc.genesis = g.block.hash
  genesisDifficulty : bc.genesisDifficulty = g.block.header.difficulty

def Marked (g : Genesis) (db : Database) : Prop :=
  db.schema = some schemaVersion ∧ db.genesis = some g.block.hash ∧ db.chainID = some g.chainID

structure Ready (g : Genesis) (bc : Blockchain) : Prop where
  of : Of g bc
  marked : Marked g bc.db
  coherent : Coherent bc
  gasLimit : ∀ (h : Hash) (b : Block), bc.db.blocks[h]? = some b → minBlockGasLimit ≤ b.header.gasLimit
  head : bc.blockCache[bc.head.hash]? = some bc.head
  headHash : bc.db.head = some bc.head.hash
  headState : ∃ s, bc.states[bc.head.hash]? = some s

theorem Of.cached (h : Of g bc) (hc : Cached bc bc') : Of g bc' :=
  ⟨hc.chainID.trans h.chainID, hc.treasury.trans h.treasury, hc.genesis.trans h.genesis,
    hc.genesisDifficulty.trans h.genesisDifficulty⟩

namespace Ready

theorem stored (h : Ready g bc) : bc.db.blocks[bc.head.hash]? = some bc.head := h.coherent.cache _ _ h.head

theorem cached (h : Ready g bc) (hc : Cached bc bc') : Ready g bc' := by
  refine ⟨h.of.cached hc, ?_, hc.coherent h.coherent, ?_, ?_, ?_, ?_⟩
  · rw [hc.db]; exact h.marked
  · rw [hc.db]; exact h.gasLimit
  · rw [hc.head]; exact hc.le _ _ h.head
  · rw [hc.db, hc.head]; exact h.headHash
  · rw [hc.states, hc.head]; exact h.headState

end Ready

theorem getElem?_insert_hash {β : Type} (m : ExtTreeMap Hash β) (k h : Hash) (v : β) :
    (m.insert k v)[h]? = if k = h then some v else m[h]? := by
  rw [ExtTreeMap.getElem?_insert]
  simp only [LawfulEqCmp.compare_eq_iff_eq]

theorem getElem?_storeBlock (db : Database) (b : Block) (c : Checked) (h : Hash) :
    (storeBlock db b c).blocks[h]? = if b.hash = h then some b else db.blocks[h]? :=
  FinMap.getElem?_put db.blocks b.hash h (some b)

theorem receipts_storeBlock (db : Database) (b : Block) (c : Checked) (h : Hash) :
    (storeBlock db b c).receipts[h]? = if b.hash = h then some c.receipts else db.receipts[h]? :=
  FinMap.getElem?_put db.receipts b.hash h (some c.receipts)

variable {db' : Database}

theorem Coherent.store (h : Coherent bc) {states : ExtTreeMap Hash State}
    {head : Block} (hdb : db'.blocks = (storeBlock bc.db b c).blocks) :
    Coherent { bc with db := db', blockCache := bc.blockCache.insert b.hash b, states := states, head := head } := by
  constructor
  · intro k x hx
    dsimp only at hx
    rw [hdb, getElem?_storeBlock] at hx
    split at hx
    · cases hx; assumption
    · exact h.hash k x hx
  · intro k x hx
    dsimp only at hx ⊢
    rw [hdb, getElem?_storeBlock]
    rw [getElem?_insert_hash] at hx
    split at hx
    · rw [if_pos (by assumption)]; exact hx
    · rw [if_neg (by assumption)]; exact h.cache k x hx

theorem Pruned.coherent {cutoff : UInt64} {gone : Hash → Bool} (h : Pruned bc bc' cutoff gone) (hc : Coherent bc) :
    Coherent bc' := by
  constructor
  · intro k b hb
    rw [h.blocks] at hb
    split at hb
    · cases hb
    · exact hc.hash k b hb
  · intro k b hb
    obtain ⟨hcache, hhigh⟩ := h.cache_sub k b hb
    have hstored := hc.cache k b hcache
    rw [h.blocks, if_neg, hstored]
    -- a cached block is at or above the cutoff, or the genesis
    intro hg
    obtain ⟨b', hb', hgen, hlt, -⟩ := isOrphan_iff.1 (h.gone_orphan k hg)
    rw [hstored] at hb'
    cases hb'
    rcases hhigh with hle | hle
    · exact UInt64.not_lt.2 hle hlt
    · exact hgen hle

theorem Pruned.cutoff_le_head {cutoff : UInt64} {gone : Hash → Bool} (h : Pruned bc bc' cutoff gone) :
    cutoff ≤ bc.head.height := by
  rw [UInt64.le_iff_toNat_le, h.cutoff_eq]
  omega

theorem Ready.prune (h : Ready g bc) (sweeps : Bool) : Ready g (bc.prune sweeps) := by
  obtain ⟨cutoff, gone, hp⟩ := prune_pruned bc sweeps
  have hhead : (bc.prune sweeps).head = bc.head := by rw [hp.rest]
  have hdbhead : (bc.prune sweeps).db.head = bc.db.head := by rw [hp.db]
  obtain ⟨s, hs⟩ := h.headState
  refine ⟨?_, ?_, hp.coherent h.coherent, fun k b hb => ?_, ?_, ?_, s, ?_⟩
  · obtain ⟨h₁, h₂, h₃, h₄⟩ := h.of
    rw [hp.rest]
    exact ⟨h₁, h₂, h₃, h₄⟩
  · rw [hp.db]
    exact h.marked
  · rw [hp.blocks] at hb
    split at hb
    · cases hb
    · exact h.gasLimit k b hb
  · rw [hhead]
    exact hp.cache_keep _ _ h.head hp.cutoff_le_head
  · rw [hhead, hdbhead]
    exact h.headHash
  · rw [hhead]
    exact hp.states_keep _ _ _ hs h.head hp.cutoff_le_head

variable {b p : Block}

theorem Ready.gasLimit_store (h : Ready g bc) (hacc : Accepted bc b p c)
    (hdb : db'.blocks = (storeBlock bc.db b c).blocks) :
    ∀ (k : Hash) (x : Block), db'.blocks[k]? = some x → minBlockGasLimit ≤ x.header.gasLimit := by
  intro k x hx
  rw [hdb, getElem?_storeBlock] at hx
  split at hx
  · obtain ⟨s, -, happ⟩ := hacc.applied
    cases hx
    exact happ.header.gasLimit_min
  · exact h.gasLimit k x hx

theorem Ready.store (h : Ready g bc) (hacc : Accepted bc b p c) :
    Ready g (bc.store b c.receipts c.state c.td) := by
  have hne : b.hash ≠ bc.head.hash := by
    intro heq
    have hnew := hacc.new
    rw [heq, h.stored] at hnew
    cases hnew
  obtain ⟨s, hs⟩ := h.headState
  refine ⟨⟨h.of.1, h.of.2, h.of.3, h.of.4⟩, h.marked, h.coherent.store rfl, h.gasLimit_store hacc rfl, ?_, h.headHash, s, ?_⟩
  · exact (getElem?_insert_hash ..).trans ((if_neg hne).trans h.head)
  · exact (getElem?_insert_hash ..).trans ((if_neg hne).trans hs)

theorem Ready.move (h : Ready g bc) (hacc : Accepted bc b p c)
    (hmoved : (storeBlock bc.db b c).Moved db') : Ready g { bc with
      db := moveHead db' b c, blockCache := bc.blockCache.insert b.hash b, states := bc.states.insert b.hash c.state, head := b } := by
  have hblocks : (moveHead db' b c).blocks = (storeBlock bc.db b c).blocks := hmoved.blocks
  have hmarked : Marked g (moveHead db' b c) := by
    rw [hmoved]
    exact h.marked
  refine ⟨⟨h.of.1, h.of.2, h.of.3, h.of.4⟩, hmarked, h.coherent.store hblocks, h.gasLimit_store hacc hblocks, ?_, rfl, c.state, ?_⟩
  · exact (getElem?_insert_hash ..).trans (if_pos rfl)
  · exact (getElem?_insert_hash ..).trans (if_pos rfl)

theorem Ready.insertOn (h : Ready g bc) (disk : Disk) (w : WireBlock) (nowMs : Int64) :
    Ready g (bc.insertOn disk w nowMs).2 := by
  obtain ⟨bc', hc, ⟨e, he⟩ | ⟨b, p, c, -, hacc, -, hplaced⟩⟩ := insertOn_cases h.coherent disk w nowMs
  · rw [he]
    exact h.cached hc
  · obtain ⟨db', hmoved, hr⟩ | hr := hplaced.blocks
    · rw [hr]
      exact ((h.cached hc).move (hacc.cached hc) hmoved).prune _
    · rw [hr]
      exact (h.cached hc).store (hacc.cached hc)

theorem Ready.insert (h : Ready g bc) (w : WireBlock) (nowMs : Int64) : Ready g (bc.insert w nowMs).2 :=
  h.insertOn .sound w nowMs

/-! ### Opening -/

theorem commit_genesis (g : Genesis) : Database.empty.commit g.writes =
    { schema := some schemaVersion
      chainID := some g.chainID
      genesis := some g.block.hash
      head := some g.block.hash
      burned := none
      blocks := FinMap.put ∅ g.block.hash (some g.block)
      receipts := FinMap.put ∅ g.block.hash (some [])
      canonical := FinMap.put ∅ 0 (some g.block.hash)
      txIndex := ∅
      accounts := FinMap.putAll ∅ (g.alloc.toList.map fun kv => (kv.1, some (g.state.get kv.1)))
      revDiffs := FinMap.put ∅ g.block.hash (some ⟨[], none⟩)
      tds := FinMap.put ∅ g.block.hash (some g.block.header.difficulty.toNat) } := by
  unfold Genesis.writes
  rw [Database.commit_append, Database.commit_append, Database.commit_account]
  rfl

def fresh (g : Genesis) (opts : Options) : Blockchain := (g.chain .empty opts).initialise g

variable {opts : Options}

theorem newBlockchain_empty (hg : g.validate = .ok ()) : newBlockchain .empty g opts = .ok (fresh g opts) := by
  unfold newBlockchain
  rw [hg]
  rfl

theorem runNode_eq (hg : g.validate = .ok ()) (opts : Options) (ops : List Op) :
    runNode g opts ops = Run.run (Blockchain.exec g) (fresh g opts) ops := by
  unfold runNode
  rw [newBlockchain_empty hg]

theorem getElem?_put_empty {β : Type} (k h : Hash) (v : β) :
    (FinMap.put (∅ : ExtTreeMap Hash β) k (some v))[h]? = if k = h then some v else none := by
  rw [FinMap.getElem?_put, ExtTreeMap.getElem?_empty]

theorem ready_fresh (hg : g.validate = .ok ()) (opts : Options) : Ready g (fresh g opts) := by
  have hdb : (fresh g opts).db = Database.empty.commit g.writes := rfl
  rw [commit_genesis] at hdb
  have hblocks : ∀ (h : Hash) (b : Block), (fresh g opts).db.blocks[h]? = some b → g.block.hash = h ∧ g.block = b := by
    intro h b hb
    rw [hdb, getElem?_put_empty] at hb
    split at hb
    · cases hb; exact ⟨‹_›, rfl⟩
    · cases hb
  refine ⟨⟨rfl, rfl, rfl, rfl⟩, ?_, ⟨fun h b hb => ?_, fun h b hb => ?_⟩, fun h b hb => ?_, ?_, ?_, g.state.clearTouched, ?_⟩
  · rw [hdb]
    exact ⟨rfl, rfl, rfl⟩
  · obtain ⟨hh, rfl⟩ := hblocks h b hb
    exact hh
  · have hb : (ExtTreeMap.insert (∅ : ExtTreeMap Hash Block) g.block.hash g.block)[h]? = some b := hb
    rw [getElem?_insert_hash, ExtTreeMap.getElem?_empty] at hb
    rw [hdb, getElem?_put_empty]
    exact hb
  · obtain ⟨-, rfl⟩ := hblocks h b hb
    exact (Genesis.valid_of_validate hg).gasLimit
  · exact (getElem?_insert_hash ..).trans (if_pos rfl)
  · rw [hdb]
    rfl
  · exact (getElem?_insert_hash ..).trans (if_pos rfl)

def resumed (g : Genesis) (db : Database) (opts : Options) (head : Block) : Blockchain :=
  { g.chain db opts with
    head := head
    blockCache := (∅ : ExtTreeMap Hash Block).insert head.hash head
    states := (∅ : ExtTreeMap Hash State).insert head.hash (diskState db) }

variable {db : Database}

theorem loadBlock_ok {h : Hash} (hl : loadBlock db h = .ok b) :
    db.blocks[h]? = some b ∧ b.hash = h := by
  unfold loadBlock at hl
  split at hl
  · cases hl
  · split_ifs at hl with hne
    rename_i hb
    cases hl
    exact ⟨hb, not_not.1 hne⟩

theorem loadBlock_of_stored {h : Hash} (hb : db.blocks[h]? = some b) (hh : b.hash = h) :
    loadBlock db h = .ok b := by
  unfold loadBlock
  rw [hb]
  dsimp only
  rw [if_neg (not_not.2 hh)]

theorem newBlockchain_ok {h : Hash} (hh : db.head = some h)
    (hok : newBlockchain db g opts = .ok bc') : ∃ head, db.blocks[h]? = some head ∧ head.hash = h ∧
      (diskState db).root = head.header.stateRoot ∧
      bc' = rebuildWindow (g.chain db opts).retention.toNat (resumed g db opts head) head (diskState db) := by
  unfold newBlockchain at hok
  cases hg : g.validate with
  | error e => rw [hg] at hok; cases hok
  | ok u =>
    rw [hg] at hok
    dsimp only at hok
    rw [hh] at hok
    change (g.chain db opts).resume = .ok bc' at hok
    unfold resume at hok
    split at hok
    · cases hok
    · split at hok
      · cases hok
      · rename_i headHash hhead
        obtain rfl : headHash = h := Option.some.inj (hhead.symm.trans hh)
        split at hok
        · cases hok
        · rename_i head hload
          obtain ⟨hb, hhash⟩ := loadBlock_ok hload
          dsimp only at hok
          split_ifs at hok with hroot
          cases hok
          refine ⟨head, hb, hhash, not_not.1 hroot, ?_⟩
          subst hhash
          rfl

theorem newBlockchain_of_root (hg : g.validate = .ok ()) (h : Ready g bc) (opts : Options)
    (hroot : (diskState bc.db).root = bc.head.header.stateRoot) : newBlockchain bc.db g opts =
      .ok (rebuildWindow (g.chain bc.db opts).retention.toNat (resumed g bc.db opts bc.head) bc.head (diskState bc.db)) := by
  obtain ⟨hschema, hgenesis, hid⟩ := h.marked
  have hcheck : (g.chain bc.db opts).checkDatabase = .ok () := by
    simp [checkDatabase, Genesis.chain, hschema, hgenesis, hid]
  have hresume : (g.chain bc.db opts).resume =
      .ok (rebuildWindow (g.chain bc.db opts).retention.toNat (resumed g bc.db opts bc.head) bc.head (diskState bc.db)) := by
    unfold resume
    rw [hcheck, show (g.chain bc.db opts).db = bc.db from rfl, h.headHash]
    dsimp only
    rw [loadBlock_of_stored h.stored rfl]
    dsimp only
    rw [if_neg (not_not.2 hroot)]
    rfl
  unfold newBlockchain
  rw [hg, h.headHash]
  exact hresume

/-- Rebuilding the window adds states and cached blocks of the database only. -/
structure Rebuilt (bc bc' : Blockchain) : Prop where
  rest : bc' = { bc with blockCache := bc'.blockCache, states := bc'.states }
  cache : ∀ (h : Hash) (b : Block), bc'.blockCache[h]? = some b → bc.blockCache[h]? = some b ∨ bc.db.blocks[h]? = some b
  keep : ∀ h : Hash, (bc.states[h]?).isSome → (bc'.states[h]?).isSome
  keepCache : ∀ h : Hash, (bc.blockCache[h]?).isSome → (bc'.blockCache[h]?).isSome

theorem rebuildWindow_rebuilt (n : ℕ) : ∀ (bc : Blockchain) (b : Block) (s : State), Rebuilt bc (rebuildWindow n bc b s) := by
  have hrefl : ∀ bc : Blockchain, Rebuilt bc bc := fun bc => ⟨rfl, fun _ _ => .inl, fun _ => id, fun _ => id⟩
  induction n with
  | zero => exact fun bc _ _ => hrefl bc
  | succ n ih =>
    intro bc b s
    unfold rebuildWindow
    split_ifs
    · exact hrefl bc
    · split
      · rename_i diff p _ hload
        dsimp only
        split_ifs
        · exact hrefl bc
        · obtain ⟨hp, hhash⟩ := loadBlock_ok hload
          obtain ⟨hrest, hcache, hkeep, hkeepCache⟩ := ih { bc with
            states := bc.states.insert p.hash (undoDiff s diff)
            blockCache := bc.blockCache.insert p.hash p } p (undoDiff s diff)
          refine ⟨hrest, fun h x hx => ?_, fun h hs => hkeep h ?_, fun h hs => hkeepCache h ?_⟩
          · rcases hcache h x hx with hx | hx
            · dsimp only at hx
              rw [getElem?_insert_hash] at hx
              split at hx
              · rename_i heq
                cases hx
                exact .inr (heq ▸ hhash ▸ hp)
              · exact .inl hx
            · exact .inr hx
          · dsimp only
            rw [getElem?_insert_hash]
            split
            · rfl
            · exact hs
          · dsimp only
            rw [getElem?_insert_hash]
            split
            · rfl
            · exact hs
      · exact hrefl bc

theorem Ready.reopen (h : Ready g bc) (hok : newBlockchain bc.db g opts = .ok bc') : Ready g bc' := by
  obtain ⟨head, hb, hhash, -, rfl⟩ := newBlockchain_ok h.headHash hok
  obtain rfl : bc.head = head := Option.some.inj (h.stored.symm.trans hb)
  have hr := rebuildWindow_rebuilt (g.chain bc.db opts).retention.toNat (resumed g bc.db opts bc.head) bc.head
    (diskState bc.db)
  generalize rebuildWindow _ _ _ _ = bc' at hr
  have hdb : bc'.db = bc.db := by rw [hr.rest]; rfl
  have hhead : bc'.head = bc.head := by rw [hr.rest]; rfl
  have hcache : ∀ (k : Hash) (b : Block), bc'.blockCache[k]? = some b → bc.db.blocks[k]? = some b := by
    intro k b hk
    rcases hr.cache k b hk with hk | hk
    · change (ExtTreeMap.insert (∅ : ExtTreeMap Hash Block) bc.head.hash bc.head)[k]? = some b at hk
      rw [getElem?_insert_hash, ExtTreeMap.getElem?_empty] at hk
      split at hk
      · rename_i heq
        rw [← heq, ← hk]
        exact h.stored
      · cases hk
    · exact hk
  refine ⟨?_, ?_, ⟨?_, ?_⟩, ?_, ?_, ?_, ?_⟩
  · rw [hr.rest]
    exact ⟨rfl, rfl, rfl, rfl⟩
  · rw [hdb]; exact h.marked
  · rw [hdb]; exact h.coherent.hash
  · rw [hdb]; exact hcache
  · rw [hdb]; exact h.gasLimit
  · have hsome := hr.keepCache bc.head.hash (by
      change ((ExtTreeMap.insert (∅ : ExtTreeMap Hash Block) bc.head.hash bc.head)[bc.head.hash]?).isSome
      rw [getElem?_insert_hash, if_pos rfl]
      rfl)
    obtain ⟨x, hx⟩ := Option.isSome_iff_exists.1 hsome
    rw [hhead, hx]
    exact (hcache _ _ hx).symm.trans h.stored
  · rw [hdb, hhead]; exact h.headHash
  · rw [hhead]
    refine Option.isSome_iff_exists.1 (hr.keep bc.head.hash ?_)
    change ((ExtTreeMap.insert (∅ : ExtTreeMap Hash State) bc.head.hash (diskState bc.db))[bc.head.hash]?).isSome
    rw [getElem?_insert_hash, if_pos rfl]
    rfl

theorem ready_of_run {ops : List Op} (h : runNode g opts ops = .ok bc) : g.validate = .ok () ∧ Ready g bc := by
  unfold runNode at h
  cases hg : g.validate with
  | error e =>
    unfold newBlockchain at h
    rw [hg] at h
    cases h
  | ok u =>
    rw [newBlockchain_empty hg] at h
    refine ⟨rfl, Run.run_preserves (I := fun _ bc => Ready g bc) ?_ (ready_fresh hg opts) h⟩
    intro past op rest bc bc' _ hr hstep
    cases op with
    | insert w nowMs =>
      cases hstep
      exact hr.insert w nowMs
    | reopen opts => exact hr.reopen hstep

end Blockchain

end Lxs
