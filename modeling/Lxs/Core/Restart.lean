import Lxs.Core.Tree

/-!
# Opening a database

A new database holds the genesis alone. Opening an old one keeps the blocks and the head, and restores states by replaying
reverse diffs from the head down: `rebuildWindow_induction` is the rule for that loop.
-/

namespace Lxs

open Std Lib

namespace Blockchain

variable [Crypto] {g : Genesis} {B : Block → Prop} {bc bc' : Blockchain}

/-! ### New databases -/

variable {opts : Options}

theorem blocks_fresh {k : Hash} {b : Block} (h : (fresh g opts).db.blocks[k]? = some b) :
    g.block.hash = k ∧ g.block = b := by
  have hdb : (fresh g opts).db = Database.empty.commit g.writes := rfl
  rw [hdb, commit_genesis, getElem?_put_empty] at h
  split at h
  · cases h
    exact ⟨‹_›, rfl⟩
  · cases h

theorem states_fresh {k : Hash} {s : State} (h : (fresh g opts).states[k]? = some s) :
    g.block.hash = k ∧ g.state.clearTouched = s := by
  have h : (ExtTreeMap.insert (∅ : ExtTreeMap Hash State) g.block.hash g.state.clearTouched)[k]? = some s := h
  rw [getElem?_insert_hash, ExtTreeMap.getElem?_empty] at h
  split at h
  · cases h
    exact ⟨‹_›, rfl⟩
  · cases h

theorem canonical_fresh (g : Genesis) (opts : Options) : Canonical g (fresh g opts) [g.block] := by
  have hdb : (fresh g opts).db = Database.empty.commit g.writes := rfl
  rw [commit_genesis] at hdb
  refine ⟨rfl, ⟨_, .genesis⟩, fun x hx => ?_, fun n x => ?_⟩
  · rw [List.mem_singleton.1 hx, hdb, getElem?_put_empty, if_pos rfl]
  · rw [hdb, FinMap.getElem?_put, ExtTreeMap.getElem?_empty]
    simp only [List.mem_singleton, exists_eq_left]
    show _ ↔ (0 : UInt64) = n ∧ g.block.hash = x
    split
    · simp [*]
    · simp [*]

theorem tree_fresh (hg : g.validate = .ok ()) (hB : B g.block) (opts : Options) : Tree g B (fresh g opts) := by
  have hknown : ∀ x ∈ [g.block], B x := fun x hx => by rwa [List.mem_singleton.1 hx]
  refine ⟨ready_fresh hg opts, fun k b hb => ?_, fun k s hs => ?_, _, canonical_fresh g opts⟩
  · obtain ⟨-, rfl⟩ := blocks_fresh hb
    exact ⟨[], _, .genesis, hknown⟩
  · obtain ⟨rfl, rfl⟩ := states_fresh hs
    exact ⟨g.block, [], (canonical_fresh g opts).stored _ (by simp), .genesis, hknown⟩

/-! ### Old databases -/

/-- **The rule for rebuilding the window**: what holds of the head and its state, and is kept when a reverse diff is
replayed to a state with the root that the parent claims, holds of every state restored. -/
theorem rebuildWindow_induction {R : Block → State → Prop} {db : Database}
    (hstep : ∀ b s d p, R b s → b.height ≠ 0 → db.revDiffs[b.hash]? = some d → db.blocks[b.header.parentHash]? = some p →
      p.hash = b.header.parentHash → (undoDiff s d).root = p.header.stateRoot → R p (undoDiff s d)) (n : ℕ) :
    ∀ (bc : Blockchain) (b : Block) (s : State), bc.db = db → R b s →
      (∀ (k : Hash) (t : State), bc.states[k]? = some t → ∃ x, db.blocks[k]? = some x ∧ R x t) →
      ∀ (k : Hash) (t : State), (rebuildWindow n bc b s).states[k]? = some t → ∃ x, db.blocks[k]? = some x ∧ R x t := by
  induction n with
  | zero => exact fun bc b s _ _ hstates => hstates
  | succ n ih =>
    intro bc b s hdb hR hstates
    unfold rebuildWindow
    split_ifs with h0
    · exact hstates
    · split
      · rename_i d p hd hload
        obtain ⟨hp, hhash⟩ := loadBlock_ok hload
        rw [hdb] at hd hp
        dsimp only
        split_ifs with hroot
        · exact hstates
        · have hR' := hstep b s d p hR h0 hd hp hhash (not_not.1 hroot)
          refine ih { bc with
            states := bc.states.insert p.hash (undoDiff s d)
            blockCache := bc.blockCache.insert p.hash p } p (undoDiff s d) hdb hR' fun k t ht => ?_
          dsimp only at ht
          rw [getElem?_insert_hash] at ht
          split at ht
          · rename_i heq
            cases ht
            exact ⟨p, heq ▸ hhash ▸ hp, hR'⟩
          · exact hstates k t ht
      · exact hstates

theorem reopen_states {R : Block → State → Prop} (hready : Ready g bc)
    (hok : newBlockchain bc.db g opts = .ok bc') (hhead : R bc.head (diskState bc.db))
    (hstep : ∀ b s d p, R b s → b.height ≠ 0 → bc.db.revDiffs[b.hash]? = some d →
      bc.db.blocks[b.header.parentHash]? = some p → p.hash = b.header.parentHash →
      (undoDiff s d).root = p.header.stateRoot → R p (undoDiff s d)) :
    bc'.db = bc.db ∧ bc'.head = bc.head ∧
      ∀ (k : Hash) (t : State), bc'.states[k]? = some t → ∃ x, bc.db.blocks[k]? = some x ∧ R x t := by
  obtain ⟨head, hb, hhash, -, rfl⟩ := newBlockchain_ok hready.headHash hok
  obtain rfl : bc.head = head := Option.some.inj (hready.stored.symm.trans hb)
  have hr := rebuildWindow_rebuilt (g.chain bc.db opts).retention.toNat (resumed g bc.db opts bc.head) bc.head
    (diskState bc.db)
  refine ⟨by rw [hr.rest]; rfl, by rw [hr.rest]; rfl, ?_⟩
  refine rebuildWindow_induction hstep _ _ _ _ rfl hhead fun k t ht => ?_
  have ht : (ExtTreeMap.insert (∅ : ExtTreeMap Hash State) bc.head.hash (diskState bc.db))[k]? = some t := ht
  rw [getElem?_insert_hash, ExtTreeMap.getElem?_empty] at ht
  split at ht
  · rename_i heq
    cases ht
    exact ⟨bc.head, heq ▸ hb, hhead⟩
  · cases ht

theorem Tree.reopen (h : Tree g B bc) (hok : newBlockchain bc.db g opts = .ok bc') (hdb : bc'.db = bc.db)
    (hhead : bc'.head = bc.head) (hheld : ∀ (k : Hash) (s : State), bc'.states[k]? = some s →
      ∃ b l, bc.db.blocks[k]? = some b ∧ Chain g (b :: l) s.world ∧ ∀ x ∈ b :: l, B x) : Tree g B bc' := by
  obtain ⟨l, hl⟩ := h.canon
  refine ⟨h.ready.reopen hok, ?_, ?_, l, hl.congr hdb hhead⟩
  · rw [hdb]; exact h.known
  · rw [hdb]; exact hheld

/-! ### Runs -/

/-- The blocks of a run whose transactions match their header, and the genesis. -/
def offered (g : Genesis) (ops : List Op) : List Block :=
  g.block :: ops.filterMap fun
    | .insert w _ => w.block?.filter Block.verifyTxRoot
    | .reopen _ => none

theorem mem_offered {ops : List Op} {w : WireBlock} {nowMs : Int64} (hop : Op.insert w nowMs ∈ ops) (b : Block)
    (hb : w.block? = some b) (htx : b.verifyTxRoot = true) : b ∈ offered g ops := by
  refine List.mem_cons_of_mem _ (List.mem_filterMap.2 ⟨_, hop, ?_⟩)
  simp [hb, htx]

theorem runNode_snoc {past : List Op} {op : Op} (hrun : runNode g opts past = .ok bc)
    (hstep : bc.exec g op = .ok bc') : runNode g opts (past ++ [op]) = .ok bc' := by
  unfold runNode at hrun ⊢
  cases hopen : newBlockchain .empty g opts with
  | error e => rw [hopen] at hrun; cases hrun
  | ok bc₀ =>
    rw [hopen] at hrun
    dsimp only at hrun ⊢
    rw [Run.run_append hrun, Run.run_cons hstep]
    rfl

def inserts (blocks : List (WireBlock × Int64)) : List Op := blocks.map fun x => .insert x.1 x.2

/-- **The rule for insertions** into a new database: they always succeed, and what each of them keeps holds at the end. -/
theorem inserts_induction {I : Blockchain → Prop} {C : Blockchain → Op → Prop}
    {blocks : List (WireBlock × Int64)} (hg : g.validate = .ok ()) (hfresh : I (fresh g opts))
    (hC : Run.Meets (Blockchain.exec g) C (fresh g opts) (inserts blocks))
    (hstep : ∀ w nowMs bc, .insert w nowMs ∈ inserts blocks → I bc → C bc (.insert w nowMs) → I (bc.insert w nowMs).2) :
    ∃ bc, runNode g opts (inserts blocks) = .ok bc ∧ I bc := by
  rw [runNode_eq hg]
  refine Run.run_induction (I := fun _ => I) ?_ hC [] hfresh
  intro _ op bc hop hI hmeets
  obtain ⟨⟨w, nowMs⟩, -, rfl⟩ := List.mem_map.1 hop
  exact ⟨_, rfl, hstep w nowMs bc hop hI hmeets⟩

instance (l : List Block) : Decidable (HashesDiffer (· ∈ l)) :=
  decidable_of_iff (∀ x ∈ l, ∀ y ∈ l, x.hash = y.hash → x = y) ⟨fun h x y hx hy => h x hx y hy, fun h x hx y hy => h x y hx hy⟩

omit [Crypto] in
theorem reorgRun_hashesDiffer : @HashesDiffer forkCrypto (· ∈ @offered forkCrypto transferGenesis reorgRun) := by decide +kernel

omit [Crypto] in
theorem exists_reorgRun : ∃ bc, @runNode forkCrypto transferGenesis forkOptions reorgRun = .ok bc := by
  obtain ⟨bc, hrun, -⟩ := Run.exists_of_map
    (show (@runNode forkCrypto transferGenesis forkOptions reorgRun).map (fun _ => ()) = .ok () by decide +kernel)
  exact ⟨bc, hrun⟩

end Blockchain

end Lxs
