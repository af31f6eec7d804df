import Lxs.Core.Restart

/-!
# Work and the head

Every stored block has the sum of the difficulties of its ancestry as its total difficulty, and none is better than the
head; an insertion that fails changes nothing but the cache. Nothing is asked of the hash function here: the ancestry of a
block is made of blocks that were offered, linked by their hashes.
-/

namespace Lxs

open Std Lib

variable [Crypto] {g : Genesis} {B : Block → Prop}

/-- The blocks from a tip down to the genesis, each naming the hash of the next. -/
inductive Linked (g : Genesis) : List Block → Prop
  | genesis : Linked g [g.block]
  | block {b p : Block} {l : List Block} : Linked g (p :: l) → b.header.parentHash = p.hash → Linked g (b :: p :: l)

def work (l : List Block) : ℕ := (l.map fun b => b.header.difficulty.toNat).sum

namespace Blockchain

variable {bc bc' : Blockchain}

/-- Total difficulties are right and the head is the best block. -/
structure Weighed (g : Genesis) (B : Block → Prop) (bc : Blockchain) : Prop where
  td : ∀ (h : Hash) (b : Block), bc.db.blocks[h]? = some b →
    ∃ l, Linked g (b :: l) ∧ (∀ x ∈ b :: l, B x) ∧ bc.db.tds[h]? = some (work (b :: l))
  best : ∀ (h : Hash) (b : Block) (t headTD : ℕ), bc.db.blocks[h]? = some b → bc.db.tds[h]? = some t →
    bc.db.tds[bc.head.hash]? = some headTD → better ⟨b.header, t⟩ ⟨bc.head.header, headTD⟩ = false

theorem getElem?_tds_storeBlock (db : Database) (b : Block) (c : Checked) (h : Hash) :
    (storeBlock db b c).tds[h]? = if b.hash = h then some c.td else db.tds[h]? :=
  FinMap.getElem?_put db.tds b.hash h (some c.td)

namespace Weighed

theorem cached (h : Weighed g B bc) (hc : Cached bc bc') : Weighed g B bc' := by
  constructor
  · rw [hc.db]; exact h.td
  · rw [hc.db, hc.head]; exact h.best

theorem prune (h : Weighed g B bc) (sweeps : Bool) : Weighed g B (bc.prune sweeps) := by
  obtain ⟨cutoff, gone, hp⟩ := prune_pruned bc sweeps
  have hhead : (bc.prune sweeps).head = bc.head := by rw [hp.rest]
  have hblocks : ∀ {k : Hash} {b : Block}, (bc.prune sweeps).db.blocks[k]? = some b →
      bc.db.blocks[k]? = some b ∧ (bc.prune sweeps).db.tds[k]? = bc.db.tds[k]? := by
    intro k b hb
    rw [hp.blocks] at hb
    rw [hp.tds]
    split at hb
    · cases hb
    · rename_i hgone
      rw [if_neg hgone]
      exact ⟨hb, rfl⟩
  constructor
  · intro k b hb
    obtain ⟨hb, htd⟩ := hblocks hb
    rw [htd]
    exact h.td k b hb
  · intro k b t headTD hb ht hheadTD
    obtain ⟨hb, htd⟩ := hblocks hb
    rw [htd] at ht
    rw [hhead, hp.tds] at hheadTD
    rw [hhead]
    split at hheadTD
    · cases hheadTD
    · exact h.best k b t headTD hb ht hheadTD

theorem td_store (h : Weighed g B bc) (hc : Coherent bc) {b p : Block} {c : Checked} (hacc : Accepted bc b p c) (hb : B b)
    {k : Hash} {x : Block} (hx : (storeBlock bc.db b c).blocks[k]? = some x) :
    ∃ l, Linked g (x :: l) ∧ (∀ y ∈ x :: l, B y) ∧ (storeBlock bc.db b c).tds[k]? = some (work (x :: l)) := by
  rw [getElem?_storeBlock] at hx
  rw [getElem?_tds_storeBlock]
  split at hx
  · cases hx
    rename_i heq
    obtain ⟨l, hl, hlB, hltd⟩ := h.td _ _ hacc.parent
    obtain ⟨ptd, hptd, htd⟩ := hacc.td
    rw [hc.hash _ _ hacc.parent, hltd] at hptd
    cases hptd
    refine ⟨p :: l, .block hl (hc.hash _ _ hacc.parent).symm, ?_, ?_⟩
    · intro y hy
      rcases List.mem_cons.1 hy with rfl | hy
      · exact hb
      · exact hlB y hy
    · rw [if_pos heq, htd]
      simp only [work, List.map_cons, List.sum_cons]
      rw [Nat.add_comm]
  · rename_i hne
    rw [if_neg hne]
    exact h.td k x hx

theorem store (h : Weighed g B bc) (hc : Coherent bc) (hhead : bc.db.blocks[bc.head.hash]? = some bc.head) {b p : Block}
    {c : Checked} (hacc : Accepted bc b p c) (hb : B b) {db' : Database}
    (hblocks : db'.blocks = (storeBlock bc.db b c).blocks) (htds : db'.tds = (storeBlock bc.db b c).tds)
    {cache : ExtTreeMap Hash Block} {states : ExtTreeMap Hash State} {head : Block}
    (hbest : head = bc.head ∧ better ⟨b.header, c.td⟩ ⟨bc.head.header, c.headTD⟩ = false ∨
      head = b ∧ better ⟨b.header, c.td⟩ ⟨bc.head.header, c.headTD⟩ = true) :
    Weighed g B { bc with db := db', blockCache := cache, states := states, head := head } := by
  constructor
  · intro k x hx
    dsimp only at hx ⊢
    rw [hblocks] at hx
    rw [htds]
    exact h.td_store hc hacc hb hx
  · intro k x t headTD hx ht hheadTD
    dsimp only at hx ht hheadTD ⊢
    rw [hblocks, getElem?_storeBlock] at hx
    rw [htds, getElem?_tds_storeBlock] at ht hheadTD
    have hne : b.hash ≠ bc.head.hash := by
      intro heq
      have hnew := hacc.new
      rw [heq, hhead] at hnew
      cases hnew
    -- the block `x` against the old head
    have hold : b.hash ≠ k → better ⟨x.header, t⟩ ⟨bc.head.header, c.headTD⟩ = false := by
      intro hk
      rw [if_neg hk] at hx ht
      exact h.best k x t c.headTD hx ht hacc.headTD
    by_cases hk : b.hash = k
    · -- the new block itself
      rw [if_pos hk] at hx ht
      cases hx
      cases ht
      rcases hbest with ⟨rfl, hbest⟩ | ⟨rfl, hbest⟩
      · rw [if_neg hne, hacc.headTD] at hheadTD
        cases hheadTD
        exact hbest
      · rw [if_pos rfl] at hheadTD
        cases hheadTD
        exact better_irrefl _
    · rcases hbest with ⟨rfl, -⟩ | ⟨rfl, hbest⟩
      · rw [if_neg hne, hacc.headTD] at hheadTD
        cases hheadTD
        exact hold hk
      · rw [if_pos rfl] at hheadTD
        cases hheadTD
        exact not_better_of_better (hold hk) hbest

theorem insertOn (h : Weighed g B bc) (hready : Ready g bc) (disk : Disk) (w : WireBlock) (nowMs : Int64)
    (hw : ∀ b, w.block? = some b → b.verifyTxRoot = true → B b) : Weighed g B (bc.insertOn disk w nowMs).2 := by
  obtain ⟨bc', hc, ⟨e, he⟩ | ⟨b, p, c, hwb, hacc, -, hplaced⟩⟩ := insertOn_cases hready.coherent disk w nowMs
  · rw [he]
    exact h.cached hc
  have h' := h.cached hc
  have hready' := hready.cached hc
  have hacc' := hacc.cached hc
  have hb := hw b hwb hacc.txRoot
  have hmove : ∀ {db' : Database}, (storeBlock bc'.db b c).Moved db' →
      better ⟨b.header, c.td⟩ ⟨bc'.head.header, c.headTD⟩ = true → Weighed g B (Blockchain.prune { bc' with
        db := moveHead db' b c, blockCache := bc'.blockCache.insert b.hash b, states := bc'.states.insert b.hash c.state,
        head := b } disk.sweeps) := by
    intro db' hmoved hbetter
    have hblocks : (moveHead db' b c).blocks = (storeBlock bc'.db b c).blocks := hmoved.blocks
    have htds : (moveHead db' b c).tds = (storeBlock bc'.db b c).tds := hmoved.tds
    exact prune (h'.store hready'.coherent hready'.stored hacc' hb hblocks htds (.inr ⟨rfl, hbetter⟩)) _
  generalize bc.insertOn disk w nowMs = r at hplaced
  cases hplaced with
  | side hbetter => exact h'.store hready'.coherent hready'.stored hacc' hb rfl rfl (.inl ⟨rfl, hbetter⟩)
  | @extend prev hbetter _ _ =>
    unfold setHead
    rw [commit_extendBatch]
    exact hmove (moved_canonicalWrites _ b c.state prev) hbetter
  | reorg hbetter _ _ _ _ hu ha =>
    unfold setHead
    rw [commit_reorgBatch]
    exact hmove ((moved_unwindWrites hu _).trans (moved_applyWrites ha _)) hbetter

theorem insert (h : Weighed g B bc) (hready : Ready g bc) (w : WireBlock) (nowMs : Int64)
    (hw : ∀ b, w.block? = some b → b.verifyTxRoot = true → B b) : Weighed g B (bc.insert w nowMs).2 :=
  h.insertOn hready .sound w nowMs hw

theorem reopen (h : Weighed g B bc) (hready : Ready g bc) {opts : Options} (hok : newBlockchain bc.db g opts = .ok bc') :
    Weighed g B bc' := by
  obtain ⟨hdb, hhead, -⟩ := reopen_states (R := fun _ _ => True) hready hok trivial fun _ _ _ _ _ _ _ _ _ _ => trivial
  constructor
  · rw [hdb]; exact h.td
  · rw [hdb, hhead]; exact h.best

end Weighed

theorem weighed_fresh (hB : B g.block) (opts : Options) : Weighed g B (fresh g opts) := by
  have hdb : (fresh g opts).db = Database.empty.commit g.writes := rfl
  rw [commit_genesis] at hdb
  constructor
  · intro k b hb
    obtain ⟨rfl, rfl⟩ := blocks_fresh hb
    refine ⟨[], .genesis, fun x hx => by rwa [List.mem_singleton.1 hx], ?_⟩
    rw [hdb, getElem?_put_empty, if_pos rfl]
    rfl
  · intro k b t headTD hb ht hheadTD
    obtain ⟨rfl, rfl⟩ := blocks_fresh hb
    obtain rfl := Option.some.inj (ht.symm.trans hheadTD)
    exact better_irrefl _

/-! ### Runs on a disk that may fail -/

def execOn (g : Genesis) (bc : Blockchain) : Op × Disk → Except OpenError Blockchain
  | (.insert w nowMs, disk) => .ok (bc.insertOn disk w nowMs).2
  | (.reopen opts, _) => newBlockchain bc.db g opts

/-- A run in which each operation comes with what becomes of its batches. -/
def runNodeOn (g : Genesis) (opts : Options) (ops : List (Op × Disk)) : Except OpenError Blockchain :=
  match newBlockchain .empty g opts with
  | .error e => .error e
  | .ok bc => Run.run (execOn g) bc ops

variable {opts : Options} {ops : List (Op × Disk)}

theorem weighed_of_run (h : runNodeOn g opts ops = .ok bc) : Ready g bc ∧ Weighed g (· ∈ offered g (ops.map Prod.fst)) bc := by
  unfold runNodeOn at h
  cases hg : g.validate with
  | error e =>
    rw [newBlockchain, hg] at h
    cases h
  | ok u =>
    rw [newBlockchain_empty hg] at h
    refine Run.run_preserves (I := fun _ bc => Ready g bc ∧ Weighed g (· ∈ offered g (ops.map Prod.fst)) bc) ?_
      ⟨ready_fresh hg opts, weighed_fresh (List.mem_cons_self ..) opts⟩ h
    rintro past ⟨op, disk⟩ rest bc bc' heq ⟨hready, hweighed⟩ hstep
    have hop : op ∈ ops.map Prod.fst := List.mem_map.2 ⟨(op, disk), by simp [← heq], rfl⟩
    cases op with
    | insert w nowMs =>
      cases hstep
      exact ⟨hready.insertOn disk w nowMs, hweighed.insertOn hready disk w nowMs (mem_offered hop)⟩
    | reopen opts => exact ⟨hready.reopen hstep, hweighed.reopen hready hstep⟩

theorem eq_of_insert_error (hc : Coherent bc) {disk : Disk} {w : WireBlock} {nowMs : Int64} {e : InsertError}
    (h : bc.insertOn disk w nowMs = (.error e, bc')) : bc' = { bc with blockCache := bc'.blockCache } := by
  obtain ⟨bc₁, hc, ⟨e', he⟩ | ⟨b, p, c, -, -, -, hplaced⟩⟩ := insertOn_cases hc disk w nowMs
  · rw [he] at h
    cases h
    exact hc.eq
  · rw [h] at hplaced
    cases hplaced

/-- **Insertion is all or nothing, and the head is the best stored block.** After every run of insertions and successful
reopenings, on a disk on which any commit may fail: an insertion that fails leaves all but the cache, and it does fail if
its commit does; every stored block has the work of its ancestry, made of blocks that were offered, as its total
difficulty; and no stored block is better than the head. -/
theorem insert_atomic_head_best (h : runNodeOn g opts ops = .ok bc) :
    (∀ disk w nowMs e bc', bc.insertOn disk w nowMs = (.error e, bc') → bc' = { bc with blockCache := bc'.blockCache }) ∧
      (∀ disk w nowMs, disk.commits = false → ∃ e, (bc.insertOn disk w nowMs).1 = .error e) ∧
      (∀ (k : Hash) (b : Block), bc.db.blocks[k]? = some b →
        ∃ l, Linked g (b :: l) ∧ (∀ x ∈ b :: l, x ∈ offered g (ops.map Prod.fst)) ∧ bc.db.tds[k]? = some (work (b :: l))) ∧
      ∃ headTD, bc.db.tds[bc.head.hash]? = some headTD ∧ ∀ (k : Hash) (b : Block) (t : ℕ), bc.db.blocks[k]? = some b →
        bc.db.tds[k]? = some t → better ⟨b.header, t⟩ ⟨bc.head.header, headTD⟩ = false := by
  obtain ⟨hready, hweighed⟩ := weighed_of_run h
  obtain ⟨l, -, -, htd⟩ := hweighed.td _ _ hready.stored
  refine ⟨fun disk w nowMs e bc' he => eq_of_insert_error hready.coherent he, fun disk w nowMs hfails => ?_, hweighed.td, _,
    htd, fun k b t hb ht => hweighed.best k b t _ hb ht htd⟩
  obtain ⟨bc', -, ⟨e, he⟩ | ⟨b, p, c, -, -, hcommits, -⟩⟩ := insertOn_cases hready.coherent disk w nowMs
  · exact ⟨e, by rw [he]⟩
  · rw [hfails] at hcommits
    cases hcommits

/-- Commits that fail beside the head, on it and in the sweep, and then a reorg and a restart. -/
def faultyRun : List (Op × Disk) :=
  (offer forkRight1, ⟨false, true⟩) :: (offer forkRight1, ⟨true, false⟩) :: (offer transferBlock, ⟨false, false⟩) ::
    reorgRun.map fun op => (op, .sound)

omit [Crypto] in
theorem insert_atomic_head_best_faulty : ∃ bc, @runNodeOn forkCrypto transferGenesis forkOptions faultyRun = .ok bc ∧
    (∀ disk w nowMs e bc', @insertOn forkCrypto bc disk w nowMs = (.error e, bc') → bc' = { bc with blockCache := bc'.blockCache }) ∧
      (∀ disk w nowMs, disk.commits = false → ∃ e, (@insertOn forkCrypto bc disk w nowMs).1 = .error e) ∧
      (∀ (k : Hash) (b : Block), bc.db.blocks[k]? = some b → ∃ l, @Linked forkCrypto transferGenesis (b :: l) ∧
        (∀ x ∈ b :: l, x ∈ @offered forkCrypto transferGenesis (faultyRun.map Prod.fst)) ∧ bc.db.tds[k]? = some (work (b :: l))) ∧
      ∃ headTD, bc.db.tds[@Block.hash forkCrypto bc.head]? = some headTD ∧ ∀ (k : Hash) (b : Block) (t : ℕ),
        bc.db.blocks[k]? = some b → bc.db.tds[k]? = some t →
        @better forkCrypto ⟨b.header, t⟩ ⟨bc.head.header, headTD⟩ = false := by
  obtain ⟨bc, hrun, -⟩ := Run.exists_of_map
    (show (@runNodeOn forkCrypto transferGenesis forkOptions faultyRun).map (fun _ => ()) = .ok () by decide +kernel)
  exact ⟨bc, hrun, @insert_atomic_head_best forkCrypto _ _ _ _ hrun⟩

end Blockchain

end Lxs
