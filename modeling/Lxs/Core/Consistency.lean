import Lxs.Core.Restart

/-!
# The disk and the memory

The account table and the burn total on disk are the world after the head, and every canonical block has a reverse diff
that leads back to the world before it (`Saved`). Blocks are unwound by these diffs and adopted by the touched accounts of
their states in memory. A state that was restored from disk has lost its touched accounts, so what is said here of runs
asks that no such state is on a branch that is adopted.

* `disk_matches_memory`: in these runs the disk has the state of the head and every reopening succeeds.
* `reopen_restores_window`: without earlier reopenings the whole window is restored.
-/

set_option linter.unusedSectionVars false

namespace Lxs

open Std Lib

variable [Crypto] {g : Genesis} {B : Block → Prop}

/-! ### Reverse diffs of a chain -/

/-- A chain with reverse diffs on disk, each leading back to the world before its block. -/
inductive Undoable (g : Genesis) (db : Database) : List Block → World → Prop
  | genesis : Undoable g db [g.block] g.state.world
  | block {b p : Block} {l : List Block} {v w : World} {d : StoredDiff} : Undoable g db (p :: l) v → Follows g b p v w →
      db.revDiffs[b.hash]? = some d → d.Undoes w v → Undoable g db (b :: p :: l) w

section Undoable

variable {db db' : Database} {b p : Block} {l : List Block} {v w : World}

theorem Undoable.chain (h : Undoable g db l w) : Chain g l w := by
  induction h with
  | genesis => exact .genesis
  | block _ hb _ _ ih => exact .block ih hb

theorem Undoable.of_suffix {m : List Block} (h : Undoable g db l w) (hm : b :: m <:+ l) : ∃ v, Undoable g db (b :: m) v := by
  induction h with
  | genesis =>
    rcases List.suffix_cons_iff.1 hm with heq | hm
    · rw [heq]
      exact ⟨_, .genesis⟩
    · cases List.suffix_nil.1 hm
  | @block _ _ _ _ w _ hp hb hd hundo ih =>
    rcases List.suffix_cons_iff.1 hm with heq | hm
    · rw [heq]
      exact ⟨w, .block hp hb hd hundo⟩
    · exact ih hm

theorem Undoable.congr (h : Undoable g db l w) (hdb : ∀ x ∈ l, db'.revDiffs[x.hash]? = db.revDiffs[x.hash]?) :
    Undoable g db' l w := by
  induction h with
  | genesis => exact .genesis
  | @block b p l v w d _ hb hd hundo ih =>
    refine .block (ih fun x hx => hdb x (List.mem_cons_of_mem _ hx)) hb ?_ hundo
    rw [hdb b (List.mem_cons_self ..), hd]

def OnDisk (g : Genesis) (db : Database) (l : List Block) : Prop :=
  ∃ w, Undoable g db l w ∧ (loadState db).accounts = w.accounts

theorem loadState_congr (h : db'.accounts = db.accounts) : loadState db' = loadState db := by
  unfold loadState
  rw [h]

theorem accounts_loadState {ws : List (Address × Option Account)} (h : db'.accounts = FinMap.putAll db.accounts ws) :
    (loadState db').accounts = FinMap.putAll (loadState db).accounts (ws.map fun w => (w.1, loadLeaf w.2)) := by
  rw [← loadState_putAll, loadState_congr (show db'.accounts = { db with accounts := FinMap.putAll db.accounts ws }.accounts from h)]

/-- **Unwinding** the newest block leaves the disk with the world before it. -/
theorem OnDisk.unwound (h : OnDisk g db (b :: p :: l)) {d : StoredDiff} (hd : db.revDiffs[b.hash]? = some d) :
    OnDisk g (db.unwound b d) (p :: l) := by
  obtain ⟨w, hw, hacc⟩ := h
  cases hw with
  | @block _ _ _ v _ d' hp hb hd' hundo =>
    obtain rfl := Option.some.inj (hd'.symm.trans hd)
    refine ⟨v, hp.congr fun _ _ => rfl, ?_⟩
    rw [← hundo.accounts, ← hacc]
    refine (accounts_loadState rfl).trans ?_
    rw [List.map_map]
    rfl

/-- **Adopting** a block whose state touched what it changed leaves the disk with the world after it. -/
theorem OnDisk.adopted (h : OnDisk g db (p :: l)) (hb : Follows g b p v w) (hv : Chain g (p :: l) v) {st prev : State}
    (hst : st.world = w) (hprev : prev.world = v) (hcovers : st.Covers v) (hother : ∀ x ∈ p :: l, x.hash ≠ b.hash) :
    OnDisk g (db.adopted b st prev) (b :: p :: l) := by
  obtain ⟨v', hp, hacc⟩ := h
  obtain rfl := hv.unique hp.chain
  have hsame : ∀ a, a ∉ st.touchedList → st.get a = prev.get a := by
    intro a ha
    have hleaf := hcovers a fun hm => ha (ExtTreeSet.mem_toList.2 hm)
    rw [← hprev] at hleaf
    exact congrArg readLeaf hleaf
  subst hst hprev
  refine ⟨_, .block (d := reverseDiff st prev st.touchedList) (hp.congr fun x hx => ?_) hb ?_ (reverseDiff_undoes hsame), ?_⟩
  · exact FinMap.getElem?_put_ne _ _ (hother x hx).symm
  · exact FinMap.getElem?_put_self ..
  · refine (accounts_loadState rfl).trans ?_
    rw [hacc, List.map_map]
    exact putAll_accountWrites hsame

end Undoable

namespace Blockchain

variable {bc bc' : Blockchain}

/-! ### Nodes whose disk is right -/

/-- A state has the touched accounts of its block, or none at all. -/
def Tracked (g : Genesis) (B : Block → Prop) (b : Block) (s : State) : Prop :=
  s.touched = ∅ ∨ ∀ p l v w, (∀ x ∈ b :: p :: l, B x) → Chain g (b :: p :: l) w → Chain g (p :: l) v → s.Covers v

structure Synced (g : Genesis) (B : Block → Prop) (bc : Blockchain) : Prop where
  tree : Tree g B bc
  saved : ∃ l w, Canonical g bc l ∧ Undoable g bc.db l w ∧ (diskState bc.db).world = w
  tracked : ∀ (k : Hash) (s : State) (b : Block), bc.states[k]? = some s → bc.db.blocks[k]? = some b → Tracked g B b s

theorem diskState_world (db : Database) :
    (diskState db).world = ⟨(loadState db).accounts, (db.burned.map Int.ofNat).getD 0⟩ := rfl

theorem Grown.tracked {b p : Block} {l : List Block} {c : Checked} (h : Grown g B bc b p l c) (hB : HashesDiffer B) :
    Tracked g B b c.state := by
  refine .inr fun p' l' v w hl' hw hv => h.covers v ?_
  have heq := h.chain.tail_unique hB hw (fun x hx => h.known x (by simp [hx])) fun x hx => hl' x (by simp [hx])
  rwa [heq]

namespace Synced

theorem cached (h : Synced g B bc) (hc : Cached bc bc') : Synced g B bc' := by
  obtain ⟨l, w, hcanon, hundo, hdisk⟩ := h.saved
  refine ⟨h.tree.cached hc, ⟨l, w, hcanon.congr hc.db hc.head, ?_, ?_⟩, ?_⟩
  · rw [hc.db]; exact hundo
  · rw [hc.db]; exact hdisk
  · rw [hc.db, hc.states]; exact h.tracked

theorem prune (h : Synced g B bc) : Synced g B (bc.prune true) := by
  obtain ⟨cutoff, gone, hp⟩ := prune_pruned bc true
  obtain ⟨l, w, hcanon, hundo, hdisk⟩ := h.saved
  refine ⟨h.tree.prune, ⟨l, w, hcanon.pruned hp, hundo.congr fun x hx => ?_, ?_⟩, fun k s b hs hb => ?_⟩
  · rw [hp.revDiffs, if_neg (hp.not_gone hcanon hx)]
  · rw [← hdisk, hp.db]
    rfl
  · rw [hp.stored_of_state h.tree.ready.coherent hs] at hb
    exact h.tracked k s b (hp.states_sub k s hs) hb

variable {b p : Block} {l : List Block} {c : Checked}

theorem tracked_store (h : Synced g B bc) (hB : HashesDiffer B)
    (hgrown : Grown g B bc b p l c) {k : Hash} {s : State} {x : Block}
    (hs : (bc.states.insert b.hash c.state)[k]? = some s) (hx : (storeBlock bc.db b c).blocks[k]? = some x) :
    Tracked g B x s := by
  rw [getElem?_insert_hash] at hs
  rw [getElem?_storeBlock] at hx
  split at hs
  · rename_i heq
    rw [if_pos heq] at hx
    cases hs
    cases hx
    exact hgrown.tracked hB
  · rename_i hne
    rw [if_neg hne] at hx
    exact h.tracked k s x hs hx

theorem store (h : Synced g B bc) (hB : HashesDiffer B)
    (hgrown : Grown g B bc b p l c) : Synced g B (bc.store b c.receipts c.state c.td) := by
  obtain ⟨chain, w, hcanon, hundo, hdisk⟩ := h.saved
  exact ⟨h.tree.store hgrown, ⟨chain, w, hcanon.store hgrown.accepted, hundo.congr fun _ _ => rfl, hdisk⟩,
    fun k s x hs hx => h.tracked_store hB hgrown hs hx⟩

theorem adopt (h : Synced g B bc) (hB : HashesDiffer B)
    (hgrown : Grown g B bc b p l c) {x q : Block} {m : List Block} {st prev : State} (hsuf : x :: q :: m <:+ b :: p :: l)
    (hfresh : ∀ s : State, x ≠ b → bc.states[x.hash]? = some s → s.touched ≠ ∅)
    (hst : bc.branchState b c.state x = some st) (hprev : bc.states[x.header.parentHash]? = some prev) {db : Database}
    (hdisk : OnDisk g db (q :: m)) : OnDisk g (db.adopted x st prev) (x :: q :: m) := by
  have hknown : ∀ y ∈ x :: q :: m, B y := fun y hy => hgrown.known y (hsuf.subset hy)
  obtain ⟨w, hw⟩ := hgrown.chain.of_suffix hsuf
  have hlow := hw.height_lt
  cases hw with
  | @block _ _ _ v _ hq hx =>
    have hw := Chain.block hq hx
    have hprev' : prev.world = v := by
      rw [hx.header.parentHash] at hprev
      exact h.tree.state_world hB hprev hq fun y hy => hknown y (List.mem_cons_of_mem _ hy)
    have hother : ∀ y ∈ q :: m, y.hash ≠ x.hash := by
      intro y hy heq
      obtain rfl := hB y x (hknown y (List.mem_cons_of_mem _ hy)) (hknown x (List.mem_cons_self ..)) heq
      exact absurd (hlow y hy) (Nat.lt_irrefl _)
    unfold branchState at hst
    split at hst
    · -- the new head, whose state is not in the map yet
      rename_i heq
      cases hst
      obtain rfl := hB x b (hknown x (by simp)) (hgrown.known b (by simp)) heq
      have htail := hgrown.chain.tail_unique hB hw (fun y hy => hgrown.known y (by simp [hy])) fun y hy => hknown y (by simp [hy])
      cases htail
      exact hdisk.adopted hx hq (hgrown.chain.unique hw) hprev' (hgrown.covers v hq) hother
    · rename_i hne
      obtain ⟨y, n, hy, hyn, hyB⟩ := h.tree.held _ _ hst
      obtain rfl := hB y x (hyB y (by simp)) (hknown x (by simp)) (h.tree.ready.coherent.hash _ _ hy)
      have hcovers : st.Covers v := by
        rcases h.tracked _ _ _ hst hy with hempty | hcovers
        · exact absurd hempty (hfresh st (fun heq => hne (congrArg Block.hash heq)) hst)
        · exact hcovers q m v w hknown hw hq
      exact hdisk.adopted hx hq (h.tree.state_world hB hst hw hknown) hprev' hcovers hother

/-- **Moving the head** leaves the disk right if the states of the new branch have their touched accounts. -/
theorem move (h : Synced g B bc) (hB : HashesDiffer B)
    (hgrown : Grown g B bc b p l c) {dropped added fork : List Block} {unwind apply : List Write}
    (hnew : b :: p :: l = added.reverse ++ fork) (hm : Moves g bc b c dropped added fork unwind apply)
    (hfresh : ∀ x ∈ added, ∀ s : State, x ≠ b → bc.states[x.hash]? = some s → s.touched ≠ ∅) :
    Synced g B (bc.moved b c unwind apply) := by
  have hblocks : (bc.moved b c unwind apply).db.blocks = (storeBlock bc.db b c).blocks := (Tree.blocks_moved hm).blocks
  obtain ⟨q, post, rfl⟩ := List.exists_cons_of_ne_nil hm.fork_ne
  -- the disk before the move
  have hold : OnDisk g (storeBlock bc.db b c) (dropped ++ q :: post) := by
    obtain ⟨chain, w, hcanon, hundo, hdisk⟩ := h.saved
    rw [h.tree.canonical_unique hB hm.old hcanon]
    exact ⟨w, hundo.congr fun _ _ => rfl, congrArg World.accounts hdisk⟩
  have hunwound : OnDisk g ((storeBlock bc.db b c).commit unwind) (q :: post) := by
    refine (unwind_induction (P := fun db m => OnDisk g db m ∧ db.revDiffs = bc.db.revDiffs) ?_ hm.unwind ⟨hold, rfl⟩).1
    rintro db x q m d - hd ⟨hdisk, hdiffs⟩
    rw [← hdiffs] at hd
    exact ⟨hdisk.unwound hd, hdiffs⟩
  have hadopted : OnDisk g (((storeBlock bc.db b c).commit unwind).commit apply) (b :: p :: l) := by
    rw [hnew]
    refine adopt_induction ?_ hm.apply hunwound
    intro db x q m st prev hsuf hx hst hprev hdisk
    rw [← hnew] at hsuf
    exact h.adopt hB hgrown hsuf (hfresh x hx) hst hprev hdisk
  obtain ⟨w, hundo, hacc⟩ := hadopted
  obtain rfl := hundo.chain.unique hgrown.chain
  refine ⟨h.tree.move hB hgrown hnew hm, ⟨b :: p :: l, _, h.tree.canonical_move hB hgrown hnew hm,
    hundo.congr fun _ _ => rfl, ?_⟩, fun k s x hs hx => ?_⟩
  · have hburned := hgrown.chain.burned_nonneg
    rw [diskState_world]
    refine World.ext ?_ ?_
    · exact (congrArg State.accounts (loadState_congr rfl)).trans hacc
    · exact Int.natAbs_of_nonneg hburned
  · rw [hblocks] at hx
    exact h.tracked_store hB hgrown hs hx

end Synced

/-! ### The branch a block would adopt -/

/-- The stored blocks from `h` down to the canonical chain, at most `n` of them. -/
def sideBranch (db : Database) : ℕ → Hash → List Block
  | 0, _ => []
  | n + 1, h =>
    match db.blocks[h]? with
    | none => []
    | some b => if db.canonical[b.height]? = some h then [] else b :: sideBranch db n b.header.parentHash

/-- The state of a block was restored from disk: it has no touched accounts. -/
def isRestored (bc : Blockchain) (b : Block) : Bool :=
  match bc.states[b.hash]? with
  | none => false
  | some s => s.touched.isEmpty

def AdoptsFresh (bc : Blockchain) : Op → Prop
  | .insert w _ => ∀ x ∈ sideBranch bc.db w.header.height.toNat w.header.parentHash, bc.isRestored x = false
  | .reopen _ => True

instance (bc : Blockchain) : (op : Op) → Decidable (bc.AdoptsFresh op)
  | .insert w _ =>
    inferInstanceAs (Decidable (∀ x ∈ sideBranch bc.db w.header.height.toNat w.header.parentHash, bc.isRestored x = false))
  | .reopen _ => isTrue trivial

theorem mem_sideBranch {db : Database} {fork : List Block} : ∀ {side : List Block} {n : ℕ} {y : Block} {m : List Block} {w : World},
    y :: m = side ++ fork → Chain g (y :: m) w → Stored db side →
    (∀ x ∈ side, db.canonical[x.height]? ≠ some x.hash) → side.length ≤ n → ∀ x ∈ side, x ∈ sideBranch db n y.hash := by
  intro side
  induction side with
  | nil => exact fun _ _ _ _ _ x hx => absurd hx List.not_mem_nil
  | cons z side ih =>
    intro n y m w heq hchain hstored hoff hn x hx
    rw [List.cons_append] at heq
    obtain ⟨rfl, rfl⟩ := List.cons.inj heq
    cases n with
    | zero => cases hn
    | succ n =>
      unfold sideBranch
      rw [hstored y (List.mem_cons_self ..)]
      dsimp only
      rw [if_neg (hoff y (List.mem_cons_self ..))]
      rcases List.mem_cons.1 hx with rfl | hx
      · exact List.mem_cons_self ..
      · refine List.mem_cons_of_mem _ ?_
        cases hside : side ++ fork with
        | nil =>
          rw [(List.append_eq_nil_iff.1 hside).1] at hx
          cases hx
        | cons q m =>
          rw [hside] at hchain
          cases hchain with
          | block hq hy =>
            rw [hy.header.parentHash]
            exact ih hside.symm hq (fun x hx => hstored x (List.mem_cons_of_mem _ hx))
              (fun x hx => hoff x (List.mem_cons_of_mem _ hx)) (Nat.le_of_succ_le_succ hn) x hx

theorem Moves.mem_sideBranch (h : Tree g B bc) (hB : HashesDiffer B) {b p : Block} {l : List Block} {c : Checked}
    (hgrown : Grown g B bc b p l c) {dropped added fork : List Block} {unwind apply : List Write}
    (hnew : b :: p :: l = added.reverse ++ fork) (hm : Moves g bc b c dropped added fork unwind apply) :
    ∀ x ∈ added, x ≠ b → x ∈ sideBranch bc.db b.height.toNat b.header.parentHash := by
  intro x hx hxb
  have hstored := h.stored_of_added hB hgrown hnew hm
  have hheight := hgrown.chain.height_eq
  cases hrev : added.reverse with
  | nil =>
    rw [List.reverse_eq_nil_iff.1 hrev] at hx
    cases hx
  | cons z side =>
    rw [hrev, List.cons_append] at hnew
    obtain ⟨rfl, hside⟩ := List.cons.inj hnew
    have hxside : x ∈ side := by
      have hx' : x ∈ added.reverse := List.mem_reverse.2 hx
      rw [hrev] at hx'
      exact (List.mem_cons.1 hx').resolve_left hxb
    have hlow := hgrown.chain.height_lt
    cases hgrown.chain with
    | block hp hb =>
      rw [hb.header.parentHash]
      refine Blockchain.mem_sideBranch hside hp (fun y hy => ?_) (fun y hy hcan => ?_) ?_ x hxside
      · -- stored before the new head was
        have hyl : y ∈ p :: l := by rw [hside]; exact List.mem_append_left _ hy
        have hy := hstored y (List.mem_cons_of_mem _ hyl)
        rw [getElem?_storeBlock, if_neg] at hy
        · exact hy
        · intro heq
          obtain rfl := hB b y (hgrown.known b (by simp)) (hgrown.known y (List.mem_cons_of_mem _ hyl)) heq
          exact absurd (hlow b hyl) (Nat.lt_irrefl _)
      · obtain ⟨y', hy', -, hhash⟩ := (hm.old.table _ _).1 hcan
        have hyl : y ∈ b :: p :: l := by rw [hside]; simp [hy]
        obtain rfl := hB y' y (h.known_of_canonical hm.old y' hy') (hgrown.known y hyl) hhash
        have hadd : y' ∈ added := by rw [← List.mem_reverse, hrev]; exact List.mem_cons_of_mem _ hy
        exact hm.off y' hadd hy'
      · rw [hheight, hside, List.length_append]
        exact Nat.le_add_right _ _

/-- **Insertions keep the disk right**, if no block that is adopted has a restored state. -/
theorem Synced.insert (h : Synced g B bc) (hB : HashesDiffer B) (w : WireBlock) (nowMs : Int64)
    (hw : ∀ b, w.block? = some b → b.verifyTxRoot = true → B b) (hfresh : bc.AdoptsFresh (.insert w nowMs)) :
    Synced g B (bc.insert w nowMs).2 := by
  obtain ⟨bc', hc, heq | ⟨b, hwb, ho⟩⟩ := h.tree.inserted hB w nowMs hw
  · rw [heq]
    exact h.cached hc
  have h' := h.cached hc
  generalize (bc.insert w nowMs).2 = bc'' at ho
  cases ho with
  | side hgrown _ => exact h'.store hB hgrown
  | moved hgrown _ hnew hm =>
    refine (h'.move hB hgrown hnew hm fun x hx s hxb hs hempty => ?_).prune
    have hmem := hm.mem_sideBranch h'.tree hB hgrown hnew x hx hxb
    have hheader := block?_header hwb
    have hrestored := hfresh x (by
      rw [← hc.db, ← hheader]
      exact hmem)
    unfold isRestored at hrestored
    rw [hc.states] at hs
    rw [hs] at hrestored
    simp [hempty] at hrestored

/-! ### Opening -/

theorem get_credits (l : List (Address × Option ℤ)) {a : Address} (ha : a ∉ l.map Prod.fst) (s : State) :
    (l.foldl (fun s kv => s.credit kv.1 (kv.2.getD 0)) s).get a = s.get a := by
  induction l generalizing s with
  | nil => rfl
  | cons kv l ih =>
    rw [List.map_cons, List.mem_cons, not_or] at ha
    rw [List.foldl_cons, ih ha.2, State.get_credit, if_neg (Ne.symm ha.1)]

theorem diskState_fresh (g : Genesis) (opts : Options) : (diskState (fresh g opts).db).world = g.state.world := by
  have hdb : (fresh g opts).db = Database.empty.commit g.writes := rfl
  rw [commit_genesis] at hdb
  rw [hdb, diskState_world]
  refine World.ext (ExtTreeMap.ext_getElem? fun a => ?_) g.burned_state.symm
  dsimp only
  rw [getElem?_loadState, FinMap.getElem?_putAll fun a => some (g.state.get a)]
  · split
    · exact leaf?_readLeaf _
    · rename_i ha
      rw [List.map_map] at ha
      refine readLeaf_injective ?_
      exact (get_credits g.alloc.toList ha State.new).symm
  · intro w hw
    obtain ⟨kv, -, rfl⟩ := List.mem_map.1 hw
    rfl

theorem synced_fresh (hg : g.validate = .ok ()) (hB : B g.block) (opts : Options) : Synced g B (fresh g opts) := by
  refine ⟨tree_fresh hg hB opts, ⟨_, _, canonical_fresh g opts, .genesis, diskState_fresh g opts⟩, fun k s b hs _ => ?_⟩
  obtain ⟨-, rfl⟩ := states_fresh hs
  exact .inl rfl

/-- **A disk that is right is opened**, and the states restored are right. -/
theorem Synced.reopen (hg : g.validate = .ok ()) (h : Synced g B bc) (opts : Options) :
    ∃ bc', newBlockchain bc.db g opts = .ok bc' ∧ Synced g B bc' := by
  obtain ⟨l, w, hcanon, hundo, hdisk⟩ := h.saved
  obtain ⟨m, rfl⟩ : ∃ m, l = bc.head :: m := List.head?_eq_some_iff.1 hcanon.head
  have hok := newBlockchain_of_root hg h.tree.ready opts (hundo.chain.root_eq hdisk)
  refine ⟨_, hok, ?_⟩
  -- what is replayed from the head down stays on the canonical chain
  let R : Block → State → Prop := fun b s => s.touched = ∅ ∧ ∃ m', b :: m' <:+ bc.head :: m ∧ Undoable g bc.db (b :: m') s.world
  have hstep : ∀ b s d p, R b s → b.height ≠ 0 → bc.db.revDiffs[b.hash]? = some d →
      bc.db.blocks[b.header.parentHash]? = some p → p.hash = b.header.parentHash →
      (undoDiff s d).root = p.header.stateRoot → R p (undoDiff s d) := by
    rintro b s d p ⟨-, m', hsuf, hundo'⟩ h0 hd hp - -
    generalize hw' : s.world = w' at hundo'
    cases hundo' with
    | genesis => exact absurd rfl h0
    | @block _ q l v _ d' hq hb hd' hd'' =>
      obtain rfl := Option.some.inj (hd'.symm.trans hd)
      have hqsuf : q :: l <:+ bc.head :: m := (List.suffix_cons ..).trans hsuf
      obtain rfl : q = p := by
        rw [hb.header.parentHash] at hp
        exact Option.some.inj ((hcanon.stored q (hqsuf.subset (by simp))).symm.trans hp)
      refine ⟨rfl, l, hqsuf, ?_⟩
      rw [undoDiff_world (hw' ▸ hd'')]
      exact hq
  obtain ⟨hdb, hhead, hstates⟩ := reopen_states h.tree.ready hok ⟨rfl, m, List.suffix_refl _, hdisk ▸ hundo⟩ hstep
  generalize rebuildWindow _ _ _ _ = bc' at hok hdb hhead hstates
  have htree : Tree g B bc' := by
    refine h.tree.reopen hok hdb hhead fun k s hs => ?_
    obtain ⟨x, hx, -, m', hsuf, hundo'⟩ := hstates k s hs
    exact ⟨x, m', hx, hundo'.chain, fun y hy => h.tree.known_of_canonical hcanon y (hsuf.subset hy)⟩
  refine ⟨htree, ⟨_, w, hcanon.congr hdb hhead, ?_, ?_⟩, fun k s b hs _ => ?_⟩
  · rw [hdb]; exact hundo
  · rw [hdb]; exact hdisk
  · obtain ⟨-, -, hempty, -⟩ := hstates k s hs
    exact .inl hempty

theorem synced_of_run (hg : g.validate = .ok ()) (opts : Options) {ops : List Op}
    (hfree : HashesDiffer (· ∈ offered g ops)) (hfresh : Run.Meets (Blockchain.exec g) AdoptsFresh (fresh g opts) ops) :
    ∃ bc, runNode g opts ops = .ok bc ∧ Synced g (· ∈ offered g ops) bc := by
  have hstep : ∀ (past : List Op) (op : Op) (bc : Blockchain), op ∈ ops → Synced g (· ∈ offered g ops) bc →
      bc.AdoptsFresh op → ∃ bc', bc.exec g op = .ok bc' ∧ Synced g (· ∈ offered g ops) bc' := by
    intro past op bc hop h hfresh
    cases op with
    | insert w nowMs => exact ⟨_, rfl, h.insert hfree w nowMs (mem_offered hop) hfresh⟩
    | reopen opts => exact h.reopen hg opts
  rw [runNode_eq hg]
  exact Run.run_induction (I := fun _ => Synced g (· ∈ offered g ops)) hstep hfresh []
    (synced_fresh hg (List.mem_cons_self ..) opts)

/-- **The disk and the memory agree.** In every run in which no block with a restored state is adopted, the accounts and
the burn total on disk are those of the state of the head, with the root the head claims, and every reopening succeeds. -/
theorem disk_matches_memory (hg : g.validate = .ok ()) (opts : Options) (ops : List Op)
    (hfree : HashesDiffer (· ∈ offered g ops)) (hfresh : Run.Meets (Blockchain.exec g) AdoptsFresh (fresh g opts) ops) :
    ∃ bc s, runNode g opts ops = .ok bc ∧ bc.states[bc.head.hash]? = some s ∧
      (diskState bc.db).accounts = s.accounts ∧ (diskState bc.db).burned = s.burned ∧
      (diskState bc.db).root = bc.head.header.stateRoot ∧ ∀ opts', ∃ bc', newBlockchain bc.db g opts' = .ok bc' := by
  obtain ⟨bc, hrun, h⟩ := synced_of_run hg opts hfree hfresh
  obtain ⟨s, hs⟩ := h.tree.ready.headState
  obtain ⟨l, w, hcanon, hundo, hdisk⟩ := h.saved
  obtain ⟨m, rfl⟩ : ∃ m, l = bc.head :: m := List.head?_eq_some_iff.1 hcanon.head
  have hworld : (diskState bc.db).world = s.world :=
    hdisk.trans (h.tree.state_world hfree hs hundo.chain (h.tree.known_of_canonical hcanon)).symm
  refine ⟨bc, s, hrun, hs, congrArg World.accounts hworld, congrArg World.burned hworld, hundo.chain.root_eq hdisk, ?_⟩
  intro opts'
  obtain ⟨bc', hok, -⟩ := h.reopen hg opts'
  exact ⟨bc', hok⟩

omit [Crypto] in
theorem reorgRun_adoptsFresh : Run.Meets (@Blockchain.exec forkCrypto transferGenesis) (@AdoptsFresh forkCrypto)
    (@fresh forkCrypto transferGenesis forkOptions) reorgRun := by
  decide +kernel

omit [Crypto] in
theorem disk_matches_memory_reorg : @Genesis.validate transferGenesis = .ok () ∧
    @HashesDiffer forkCrypto (· ∈ @offered forkCrypto transferGenesis reorgRun) ∧
    Run.Meets (@Blockchain.exec forkCrypto transferGenesis) (@AdoptsFresh forkCrypto)
      (@fresh forkCrypto transferGenesis forkOptions) reorgRun ∧
    ∃ bc s, @runNode forkCrypto transferGenesis forkOptions reorgRun = .ok bc ∧
      bc.states[@Block.hash forkCrypto bc.head]? = some s ∧ (diskState bc.db).accounts = s.accounts ∧
      (diskState bc.db).burned = s.burned ∧ @State.root (diskState bc.db) forkCrypto = bc.head.header.stateRoot ∧
      ∀ opts', ∃ bc', @newBlockchain forkCrypto bc.db transferGenesis opts' = .ok bc' := by
  have hvalid := transferGenesis_valid
  have hfree := reorgRun_hashesDiffer
  have hfresh := reorgRun_adoptsFresh
  exact ⟨hvalid, hfree, hfresh, @disk_matches_memory forkCrypto _ hvalid _ _ hfree hfresh⟩

/-! The same move back to the right branch, with a reopening while its first block is the head: the state of that block
is restored, and when it is adopted again nothing of it is written. -/

def restoredRun : List Op :=
  [offer forkRight1, .reopen forkOptions, offer transferBlock, offer forkRight2, .reopen forkOptions]

omit [Crypto] in
theorem disk_loses_restored_block : @Genesis.validate transferGenesis = .ok () ∧
    @HashesDiffer forkCrypto (· ∈ @offered forkCrypto transferGenesis restoredRun) ∧
    (@runNode forkCrypto transferGenesis forkOptions restoredRun).map (fun _ => ()) =
      .error (.inconsistent 0x1372353671ee9757ddddcc9c33581b2c2a40850b0dd61e3786baa97473a2aca0
        forkRight2.header.stateRoot) := by
  refine ⟨?_, ?_, ?_⟩ <;> decide +kernel

/-! ### The window after a restart -/

theorem states_rebuildWindow (n : ℕ) : ∀ (bc : Blockchain) {b : Block} {m : List Block} {s : State},
    Undoable g bc.db (b :: m) s.world → Stored bc.db m → ∀ k : Hash,
      ((rebuildWindow n bc b s).states[k]?).isSome ↔ (bc.states[k]?).isSome ∨ ∃ x ∈ m.take n, x.hash = k := by
  induction n with
  | zero =>
    intro bc b m s _ _ k
    simp [rebuildWindow]
  | succ n ih =>
    intro bc b m s hundo hstored k
    unfold rebuildWindow
    split_ifs with h0
    · -- the genesis has nothing below
      have hlen := hundo.chain.height_eq
      rw [h0] at hlen
      rw [List.length_eq_zero_iff.1 hlen.symm]
      simp
    · generalize hw : s.world = w at hundo
      cases hundo with
      | genesis => exact absurd rfl h0
      | @block _ p m v _ d hp hb hd hundoes =>
        have hload : loadBlock bc.db b.header.parentHash = .ok p := by
          rw [hb.header.parentHash]
          exact loadBlock_of_stored (hstored p (List.mem_cons_self ..)) rfl
        have hv : (undoDiff s d).world = v := undoDiff_world (hw ▸ hundoes)
        rw [hd, hload]
        dsimp only
        rw [if_neg (not_not.2 (hp.chain.root_eq hv))]
        refine (ih { bc with
          states := bc.states.insert p.hash (undoDiff s d)
          blockCache := bc.blockCache.insert p.hash p } (hv ▸ hp) (fun x hx => hstored x (List.mem_cons_of_mem _ hx)) k).trans ?_
        dsimp only
        rw [getElem?_insert_hash, List.take_succ_cons]
        simp only [List.mem_cons, exists_eq_or_imp]
        split
        · simp [*]
        · simp [*]

/-- Every state in memory but that of the genesis has its touched accounts. -/
def Unrestored (g : Genesis) (bc : Blockchain) : Prop :=
  ∀ (k : Hash) (s : State), bc.states[k]? = some s → k = g.block.hash ∨ s.touched ≠ ∅

theorem of_mem_sideBranch {db : Database} {n : ℕ} {h : Hash} {x : Block} (hx : x ∈ sideBranch db n h) :
    ∃ k : Hash, db.blocks[k]? = some x ∧ db.canonical[x.height]? ≠ some k := by
  induction n generalizing h with
  | zero => cases hx
  | succ n ih =>
    unfold sideBranch at hx
    split at hx
    · cases hx
    · rename_i b hb
      split_ifs at hx with hcan
      · cases hx
      · rcases List.mem_cons.1 hx with rfl | hx
        · exact ⟨h, hb, hcan⟩
        · exact ih hx

theorem Unrestored.adoptsFresh (h : Unrestored g bc) (htree : Tree g B bc) (w : WireBlock) (nowMs : Int64) :
    bc.AdoptsFresh (.insert w nowMs) := by
  intro x hx
  obtain ⟨k, hk, hcan⟩ := of_mem_sideBranch hx
  obtain rfl := htree.ready.coherent.hash k x hk
  unfold isRestored
  split
  · rfl
  · rename_i s hs
    rcases h _ s hs with heq | htouched
    · -- the genesis is canonical
      obtain ⟨l, hl⟩ := htree.canon
      obtain ⟨v, hv⟩ := hl.chain
      rw [heq, hl.stored _ hv.genesis_mem] at hk
      cases hk
      exact absurd ((hl.table _ _).2 ⟨_, hv.genesis_mem, rfl, rfl⟩) hcan
    · simpa using htouched

theorem retention_insert (hc : Coherent bc) (w : WireBlock) (nowMs : Int64) :
    (bc.insert w nowMs).2.retention = bc.retention := by
  obtain ⟨bc', hc, ⟨e, he⟩ | ⟨b, p, c, -, -, hplaced⟩⟩ := insert_cases hc w nowMs
  · rw [he]
    exact hc.retention
  · obtain ⟨db', -, hr⟩ | hr := hplaced.blocks
    · rw [hr]
      obtain ⟨cutoff, gone, hp⟩ := prune_pruned { bc' with
        db := moveHead db' b c, blockCache := bc'.blockCache.insert b.hash b, states := bc'.states.insert b.hash c.state,
        head := b } true
      rw [hp.rest]
      exact hc.retention
    · rw [hr]
      exact hc.retention

theorem Unrestored.insert (h : Unrestored g bc) (htree : Tree g B bc) (hB : HashesDiffer B) (w : WireBlock) (nowMs : Int64)
    (hw : ∀ b, w.block? = some b → b.verifyTxRoot = true → B b) : Unrestored g (bc.insert w nowMs).2 := by
  obtain ⟨bc', hc, heq | ⟨b, -, ho⟩⟩ := htree.inserted hB w nowMs hw
  · rw [heq]
    unfold Unrestored
    rw [hc.states]
    exact h
  rw [Unrestored, ← hc.states] at h
  -- the state of a block that was just executed has its proposer
  have hnew : ∀ {p l c}, Grown g B bc' b p l c → ∀ (k : Hash) (s : State),
      (bc'.states.insert b.hash c.state)[k]? = some s → k = g.block.hash ∨ s.touched ≠ ∅ := by
    intro p l c hgrown k s hs
    rw [getElem?_insert_hash] at hs
    split at hs
    · cases hs
      refine .inr fun hempty => ?_
      have htouched := hgrown.touched
      rw [hempty] at htouched
      exact ExtTreeSet.not_mem_empty htouched
    · exact h k s hs
  generalize (bc.insert w nowMs).2 = bc'' at ho
  cases ho with
  | side hgrown _ => exact hnew hgrown
  | moved hgrown _ _ _ =>
    obtain ⟨cutoff, gone, hp⟩ := prune_pruned (bc'.moved b _ _ _) true
    exact fun k s hs => hnew hgrown k s (hp.states_sub k s hs)

theorem synced_of_inserts (hg : g.validate = .ok ()) (opts : Options) {blocks : List (WireBlock × Int64)}
    (hfree : HashesDiffer (· ∈ offered g (inserts blocks))) : ∃ bc, runNode g opts (inserts blocks) = .ok bc ∧
      Synced g (· ∈ offered g (inserts blocks)) bc ∧ Unrestored g bc ∧ bc.retention = (fresh g opts).retention := by
  refine inserts_induction (C := fun _ _ => True) hg ⟨synced_fresh hg (List.mem_cons_self ..) opts,
    (fun k s hs => .inl (states_fresh hs).1.symm), rfl⟩ (Run.meets_of_forall (fun _ _ => trivial) _ _) ?_
  rintro w nowMs bc hop ⟨hsynced, hunrestored, hretention⟩ -
  refine ⟨?_, hunrestored.insert hsynced.tree hfree w nowMs (mem_offered hop), ?_⟩
  · exact hsynced.insert hfree w nowMs (mem_offered hop) (hunrestored.adoptsFresh hsynced.tree w nowMs)
  · rw [retention_insert hsynced.tree.ready.coherent, hretention]

/-- The states that `bc'` restored from the database of `bc`, whose canonical chain is `l`: those of the head and of the
last blocks below it, as many as the retention allows, each with the world after its block; and the reverse diff of every
canonical block leads from the world after it to the world before it. -/
structure Restores (g : Genesis) (bc bc' : Blockchain) (l : List Block) : Prop where
  states : ∀ k : Hash, (bc'.states[k]?).isSome ↔
    ∃ x ∈ l.take (min bc.retention.toNat bc.head.height.toNat + 1), x.hash = k
  worlds : ∀ x m s w, x :: m <:+ l → bc'.states[x.hash]? = some s → Chain g (x :: m) w → s.world = w
  diffs : ∀ x p m v w, x :: p :: m <:+ l → Chain g (x :: p :: m) w → Chain g (p :: m) v →
    ∃ d, bc.db.revDiffs[x.hash]? = some d ∧ ∀ s, s.world = w → (undoDiff s d).world = v

/-- **A restart rebuilds the whole window** after insertions into a new database. -/
theorem reopen_restores_window (hg : g.validate = .ok ()) (opts opts' : Options) (hret : opts'.retention = opts.retention)
    (blocks : List (WireBlock × Int64)) (hfree : HashesDiffer (· ∈ offered g (inserts blocks))) :
    ∃ bc bc' l, runNode g opts (inserts blocks) = .ok bc ∧ newBlockchain bc.db g opts' = .ok bc' ∧ Canonical g bc l ∧
      Restores g bc bc' l := by
  obtain ⟨bc, hrun, hsynced, -, hretention⟩ := synced_of_inserts hg opts hfree
  obtain ⟨l, w, hcanon, hundo, hdisk⟩ := hsynced.saved
  obtain ⟨m, rfl⟩ : ∃ m, l = bc.head :: m := List.head?_eq_some_iff.1 hcanon.head
  obtain ⟨bc', hok, hsynced'⟩ := hsynced.reopen hg opts'
  refine ⟨bc, bc', bc.head :: m, hrun, hok, hcanon, fun k => ?_, fun x n s v hsuf hs hx => ?_,
    fun x p n v v' hsuf hx hp => ?_⟩
  · have hok' := newBlockchain_of_root hg hsynced.tree.ready opts' (hundo.chain.root_eq hdisk)
    obtain rfl := Except.ok.inj (hok.symm.trans hok')
    refine (states_rebuildWindow _ (resumed g bc.db opts' bc.head) (hdisk ▸ hundo)
      (fun x hx => hcanon.stored x (List.mem_cons_of_mem _ hx)) k).trans ?_
    have hn : (g.chain bc.db opts').retention = bc.retention := by
      rw [hretention]
      show (if opts'.retention = 0 then defaultRetention else opts'.retention) =
        if opts.retention = 0 then defaultRetention else opts.retention
      rw [hret]
    rw [hn, hundo.chain.height_eq, List.take_succ_cons, ← List.take_eq_take_min]
    show ((ExtTreeMap.insert (∅ : ExtTreeMap Hash State) bc.head.hash (diskState bc.db))[k]?).isSome = true ∨ _ ↔ _
    rw [getElem?_insert_hash, ExtTreeMap.getElem?_empty]
    simp only [List.mem_cons, exists_eq_or_imp]
    split
    · simp [*]
    · simp [*]
  · exact hsynced'.tree.state_world hfree hs hx fun y hy => hsynced.tree.known_of_canonical hcanon y (hsuf.subset hy)
  · obtain ⟨v₀, hv₀⟩ := hundo.of_suffix hsuf
    cases hv₀ with
    | @block _ _ _ v₁ _ d hp' hb hd hundoes =>
      obtain rfl := hp'.chain.unique hp
      obtain rfl := (Chain.block hp hb).unique hx
      refine ⟨d, hd, fun s hs => undoDiff_world ?_⟩
      rw [hs]
      exact hundoes

def reorgBlocks : List (WireBlock × Int64) :=
  [(forkRight1.toWire, 1000000), (transferBlock.toWire, 1000000), (forkRight2.toWire, 1000000)]

omit [Crypto] in
theorem reopen_restores_window_reorg : @Genesis.validate transferGenesis = .ok () ∧
    @HashesDiffer forkCrypto (· ∈ @offered forkCrypto transferGenesis (inserts reorgBlocks)) ∧
    ∃ bc bc' l, @runNode forkCrypto transferGenesis forkOptions (inserts reorgBlocks) = .ok bc ∧
      @newBlockchain forkCrypto bc.db transferGenesis forkOptions = .ok bc' ∧
      @Canonical forkCrypto transferGenesis bc l ∧ @Restores forkCrypto transferGenesis bc bc' l := by
  have hvalid := transferGenesis_valid
  have hfree : @HashesDiffer forkCrypto (· ∈ @offered forkCrypto transferGenesis (inserts reorgBlocks)) := by decide +kernel
  exact ⟨hvalid, hfree, @reopen_restores_window forkCrypto _ hvalid forkOptions forkOptions rfl reorgBlocks hfree⟩

end Blockchain

end Lxs
