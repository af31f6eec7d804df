import Lxs.Core.Restart
import Lxs.State.Replay

/-!
# The canonical table and the transaction index

Both match the chain of the head after every run. That a transaction is indexed in one place only rests on replay
protection, so the states in memory have to be right also after reopenings: a state that is restored has the root that its
block claims, which determines it if no two states of the run share a root.

* `TxIndexIs.unwind`, `TxIndexIs.adopt`: one block;
* `tree_run_induction`: an invariant of a node and its tree;
* `indexes_match_head`: **over runs**.
-/

namespace Lxs

open Std Lib

variable [Crypto] {g : Genesis} {B : Block → Prop}

/-! ### The index of a chain -/

def Block.Locates (b : Block) (k : Hash) (loc : TxLocation) : Prop :=
  ∃ i tx, b.txs[i]? = some tx ∧ tx.hash = k ∧ loc = ⟨b.hash, b.height, UInt64.ofNat i⟩

/-- The index has the transactions of a list of blocks, and nothing else, at their places. -/
def TxIndexIs (t : ExtTreeMap Hash TxLocation) (l : List Block) : Prop :=
  ∀ (k : Hash) (loc : TxLocation), t[k]? = some loc ↔ ∃ b ∈ l, b.Locates k loc

def TxsDiffer (l : List Block) : Prop := ((l.flatMap Block.txs).map Transaction.hash).Nodup

section Index

variable {t : ExtTreeMap Hash TxLocation} {b : Block} {l : List Block} {k : Hash} {loc : TxLocation}

theorem Block.Locates.mem (h : b.Locates k loc) : k ∈ b.txs.map Transaction.hash := by
  obtain ⟨i, tx, htx, rfl, -⟩ := h
  exact List.mem_map_of_mem (List.mem_of_getElem? htx)

theorem TxsDiffer.cons (h : TxsDiffer (b :: l)) : (b.txs.map Transaction.hash).Nodup ∧
    ∀ x ∈ l, ∀ k ∈ x.txs.map Transaction.hash, k ∉ b.txs.map Transaction.hash := by
  rw [TxsDiffer, List.flatMap_cons, List.map_append, List.nodup_append'] at h
  obtain ⟨hb, -, hdisj⟩ := h
  refine ⟨hb, fun x hx k hk hkb => hdisj hkb ?_⟩
  obtain ⟨tx, htx, rfl⟩ := List.mem_map.1 hk
  exact List.mem_map_of_mem (List.mem_flatMap.2 ⟨x, hx, htx⟩)

theorem TxIndexIs.unwind (h : TxIndexIs t (b :: l)) (hdiffer : TxsDiffer (b :: l)) :
    TxIndexIs (FinMap.putAll t (b.txs.map fun tx => (tx.hash, none))) l := by
  obtain ⟨-, hdisj⟩ := hdiffer.cons
  intro k loc
  rw [FinMap.getElem?_putAll fun _ => none]
  · rw [List.map_map]
    change (if k ∈ b.txs.map Transaction.hash then none else t[k]?) = some loc ↔ _
    split
    · rename_i hk
      refine ⟨(fun hx => by cases hx), ?_⟩
      rintro ⟨x, hx, hloc⟩
      exact absurd hk (hdisj x hx k hloc.mem)
    · rename_i hk
      rw [h k loc, List.exists_mem_cons_iff]
      exact or_iff_right fun hloc => hk hloc.mem
  · intro w hw
    obtain ⟨tx, -, rfl⟩ := List.mem_map.1 hw
    rfl

def Block.place (b : Block) (k : Hash) : Option TxLocation :=
  (b.txs.zipIdx.find? fun x => x.1.hash = k).map fun x => ⟨b.hash, b.height, UInt64.ofNat x.2⟩

theorem Block.place_eq_some_iff (hb : (b.txs.map Transaction.hash).Nodup) : b.place k = some loc ↔ b.Locates k loc := by
  unfold place
  rw [Option.map_eq_some_iff]
  constructor
  · rintro ⟨⟨tx, i⟩, hfind, rfl⟩
    have hmem := List.mem_of_find?_eq_some hfind
    have hhash := List.find?_some hfind
    exact ⟨i, tx, List.mem_zipIdx_iff_getElem?.1 hmem, by simpa using hhash, rfl⟩
  · rintro ⟨i, tx, htx, rfl, rfl⟩
    cases hfind : b.txs.zipIdx.find? (fun x => x.1.hash = tx.hash) with
    | none =>
      have hnone := List.find?_eq_none.1 hfind (tx, i) (List.mem_zipIdx_iff_getElem?.2 htx)
      simp at hnone
    | some x =>
      obtain ⟨tx', j⟩ := x
      have htx' := List.mem_zipIdx_iff_getElem?.1 (List.mem_of_find?_eq_some hfind)
      have hhash : tx'.hash = tx.hash := by simpa using List.find?_some hfind
      -- one hash, so one position
      have hij : i = j := by
        have hi : i < (b.txs.map Transaction.hash).length := by
          rw [List.length_map]
          exact (List.getElem?_eq_some_iff.1 htx).1
        refine (List.getElem?_inj hi hb).1 ?_
        rw [List.getElem?_map, List.getElem?_map, htx, htx', Option.map_some, Option.map_some, hhash]
      exact ⟨(tx', j), rfl, by rw [hij]⟩

theorem TxIndexIs.adopt (h : TxIndexIs t l) (hdiffer : TxsDiffer (b :: l)) :
    TxIndexIs (FinMap.putAll t (b.txs.zipIdx.map fun x => (x.1.hash, some ⟨b.hash, b.height, UInt64.ofNat x.2⟩))) (b :: l) := by
  obtain ⟨hb, hdisj⟩ := hdiffer.cons
  have hkeys : ∀ k : Hash, k ∈ (b.txs.zipIdx.map fun x => ((x.1.hash, some ⟨b.hash, b.height, UInt64.ofNat x.2⟩) : Hash × Option TxLocation)).map
      Prod.fst ↔ k ∈ b.txs.map Transaction.hash := by
    intro k
    rw [List.map_map]
    simp only [List.mem_map, Function.comp]
    constructor
    · rintro ⟨x, hx, rfl⟩
      exact ⟨x.1, List.mem_of_getElem? (List.mem_zipIdx_iff_getElem?.1 hx), rfl⟩
    · rintro ⟨tx, htx, rfl⟩
      obtain ⟨i, hi⟩ := List.getElem?_of_mem htx
      exact ⟨(tx, i), List.mem_zipIdx_iff_getElem?.2 hi, rfl⟩
  intro k loc
  rw [FinMap.getElem?_putAll b.place]
  · split
    · rename_i hk
      rw [hkeys] at hk
      rw [Block.place_eq_some_iff hb]
      constructor
      · intro hloc
        exact ⟨b, List.mem_cons_self .., hloc⟩
      · rintro ⟨x, hx, hloc⟩
        rcases List.mem_cons.1 hx with rfl | hx
        · exact hloc
        · exact absurd hk (hdisj x hx k hloc.mem)
    · rename_i hk
      rw [hkeys] at hk
      rw [h k loc, List.exists_mem_cons_iff]
      exact (or_iff_right fun hloc => hk hloc.mem).symm
  · intro w hw
    obtain ⟨⟨tx, i⟩, hx, rfl⟩ := List.mem_map.1 hw
    exact ((Block.place_eq_some_iff hb).2 ⟨i, tx, List.mem_zipIdx_iff_getElem?.1 hx, rfl, rfl⟩).symm

end Index

/-! ### Transactions of a chain -/

variable {l : List Block} {w : World}

theorem Chain.blockRun {b : Block} (h : Chain g (b :: l) w) :
    ∃ bs xs t, (b :: l).reverse = g.block :: bs ∧ BlockRun g.treasury g.state g.block.header bs xs t ∧ t.world = w ∧
      lastHeader g.block.header bs = b.header := by
  induction l generalizing b w with
  | nil =>
    cases h
    exact ⟨[], [], g.state, rfl, .nil, rfl, rfl⟩
  | cons p l ih =>
    cases h with
    | block hp hb =>
      obtain ⟨bs, xs, t, hbs, hrun, ht, hlast⟩ := ih hp
      obtain ⟨t', receipts, ht', happ⟩ := hb.of_state ht
      rw [← hlast] at happ
      refine ⟨bs ++ [b], _, t', ?_, hrun.snoc (applyBlock_ok_iff.2 happ), ht', ?_⟩
      · rw [List.reverse_cons, hbs, List.cons_append]
      · rw [lastHeader, List.getLast?_append, List.getLast?_singleton]
        rfl

/-- No nonce is used up by a run of the blocks of `B` from the genesis on. -/
def NoncesLast (g : Genesis) (B : Block → Prop) : Prop :=
  ∀ bs xs t, (∀ b ∈ bs, B b) → BlockRun g.treasury g.state g.block.header bs xs t → ∀ x ∈ xs, x.Below

def TxHashesDiffer (B : Block → Prop) : Prop :=
  ∀ b c, B b → B c → ∀ tx ∈ b.txs, ∀ tx' ∈ c.txs, tx.hash = tx'.hash → tx = tx'

theorem Chain.nodup_txs (h : Chain g l w) (hl : ∀ x ∈ l, B x) (hnonces : NoncesLast g B) :
    (l.flatMap Block.txs).Nodup := by
  obtain ⟨b, m, rfl⟩ := List.exists_cons_of_ne_nil h.ne_nil
  obtain ⟨bs, xs, t, hbs, hrun, -, -⟩ := h.blockRun
  have hB : ∀ x ∈ bs, B x := by
    intro x hx
    refine hl x (List.mem_reverse.1 ?_)
    rw [hbs]
    exact List.mem_cons_of_mem _ hx
  obtain ⟨hspent, htxs⟩ := hrun.spent (hnonces bs xs t hB hrun)
  -- in the order of the run, where the genesis has no transactions
  have hperm : ((b :: m).flatMap Block.txs).Perm (xs.map Included.tx) := by
    rw [htxs]
    have hrev : ((b :: m).flatMap Block.txs).Perm ((b :: m).reverse.flatMap Block.txs) :=
      (List.reverse_perm (b :: m)).symm.flatMap_right _
    rw [hbs, List.flatMap_cons] at hrev
    exact hrev
  refine hperm.nodup_iff.2 ?_
  rw [List.Nodup, List.pairwise_map]
  refine hspent.distinct.imp_of_mem fun {x y} hx _ hdiffer heq => ?_
  obtain ⟨a, ha, -⟩ := hspent.current x hx
  exact hdiffer a ha (heq ▸ ha) (congrArg Transaction.nonce heq)

theorem Chain.txsDiffer (h : Chain g l w) (hl : ∀ x ∈ l, B x) (hnonces : NoncesLast g B)
    (htx : TxHashesDiffer B) : TxsDiffer l := by
  refine (h.nodup_txs hl hnonces).map_on fun tx hmem tx' hmem' heq => ?_
  obtain ⟨b, hb, hmem⟩ := List.mem_flatMap.1 hmem
  obtain ⟨c, hc, hmem'⟩ := List.mem_flatMap.1 hmem'
  exact htx b c (hl b hb) (hl c hc) tx hmem tx' hmem' heq

namespace Blockchain

variable {bc bc' : Blockchain} {opts : Options} {ops : List Op}

/-! ### Trees of nodes that were opened again -/

def memories (g : Genesis) (opts : Options) (ops : List Op) : List State :=
  ops.inits.flatMap fun past =>
    match runNode g opts past with
    | .error _ => []
    | .ok bc => bc.states.toList.map Prod.snd

def RootsDiffer (ss : List State) : Prop := ∀ s ∈ ss, ∀ t ∈ ss, s.root = t.root → s.world = t.world

instance (ss : List State) : Decidable (RootsDiffer ss) :=
  inferInstanceAs (Decidable (∀ s ∈ ss, ∀ t ∈ ss, s.root = t.root → s.world = t.world))

theorem mem_memories {past : List Op} (hpast : past <+: ops) (hrun : runNode g opts past = .ok bc) {k : Hash} {s : State}
    (hs : bc.states[k]? = some s) : s ∈ memories g opts ops := by
  refine List.mem_flatMap.2 ⟨past, (List.mem_inits _ _).2 hpast, ?_⟩
  rw [hrun]
  exact List.mem_map.2 ⟨(k, s), ExtTreeMap.mem_toList_iff_getElem?_eq_some.2 hs, rfl⟩

def Remembered (g : Genesis) (B : Block → Prop) (ss : List State) (bc : Blockchain) : Prop :=
  ∀ (k : Hash) (x : Block), bc.db.blocks[k]? = some x → ∃ s ∈ ss, ∃ l, Chain g (x :: l) s.world ∧ ∀ y ∈ x :: l, B y

variable {ss : List State}

theorem remembered_fresh (hg : g.validate = .ok ()) (hB : B g.block)
    (hss : ∀ (k : Hash) (s : State), (fresh g opts).states[k]? = some s → s ∈ ss) : Remembered g B ss (fresh g opts) := by
  intro k x hx
  obtain ⟨rfl, rfl⟩ := blocks_fresh hx
  obtain ⟨s, hs⟩ := (ready_fresh hg opts).headState
  refine ⟨s, hss _ _ hs, [], ?_, fun y hy => ?_⟩
  · obtain ⟨-, rfl⟩ := states_fresh hs
    exact .genesis
  · rwa [List.mem_singleton.1 hy]

theorem Tree.reopen_of_roots (h : Tree g B bc) (hroots : RootsDiffer ss) (hmem : Remembered g B ss bc)
    (hok : newBlockchain bc.db g opts = .ok bc') (hss : ∀ (k : Hash) (s : State), bc'.states[k]? = some s → s ∈ ss) :
    Tree g B bc' ∧ bc'.db = bc.db ∧ bc'.head = bc.head := by
  obtain ⟨l, hcanon⟩ := h.canon
  obtain ⟨m, rfl⟩ : ∃ m, l = bc.head :: m := List.head?_eq_some_iff.1 hcanon.head
  obtain ⟨w, hw⟩ := hcanon.chain
  have hroot : (diskState bc.db).root = bc.head.header.stateRoot := by
    obtain ⟨head, hb, -, hroot, -⟩ := newBlockchain_ok h.ready.headHash hok
    rw [h.ready.stored] at hb
    cases hb
    exact hroot
  -- a restored state has the root that its block, on the canonical chain, claims
  let R : Block → State → Prop := fun b s => s.root = b.header.stateRoot
  obtain ⟨hdb, hhead, hstates⟩ := reopen_states (R := R) h.ready hok hroot fun _ _ _ _ _ _ _ _ _ hroot => hroot
  refine ⟨h.reopen hok hdb hhead fun k s hs => ?_, hdb, hhead⟩
  obtain ⟨x, hx, hxroot⟩ := hstates k s hs
  obtain ⟨t, ht, n, hn, hnB⟩ := hmem k x hx
  have hworld : s.world = t.world := hroots s (hss k s hs) t ht (hxroot.trans (hn.root_eq rfl).symm)
  exact ⟨x, n, hx, hworld ▸ hn, hnB⟩

theorem Remembered.insert (h : Tree g B bc) (hB : HashesDiffer B) (hmem : Remembered g B ss bc)
    (w : WireBlock) (nowMs : Int64) (hw : ∀ b, w.block? = some b → b.verifyTxRoot = true → B b)
    (hss : ∀ (k : Hash) (s : State), (bc.insert w nowMs).2.states[k]? = some s → s ∈ ss) :
    Remembered g B ss (bc.insert w nowMs).2 := by
  have htree := h.insert hB w nowMs hw
  obtain ⟨bc', hc, heq | ⟨b, -, ho⟩⟩ := h.inserted hB w nowMs hw
  · rw [heq]
    unfold Remembered
    rw [hc.db]
    exact hmem
  rw [Remembered, ← hc.db] at hmem
  have hhead := htree.ready.headState
  generalize (bc.insert w nowMs).2 = bc'' at ho htree hss hhead
  -- a stored block is the new one, whose state is in memory, or an old one
  have hnew : ∀ {s : State} {c : Checked}, bc''.states[b.hash]? = some s →
      (∀ (k : Hash) (x : Block), bc''.db.blocks[k]? = some x → (storeBlock bc'.db b c).blocks[k]? = some x) →
      Remembered g B ss bc'' := by
    intro s c hs hsub k x hx
    have hx' := hsub k x hx
    rw [getElem?_storeBlock] at hx'
    split at hx'
    · rename_i heq
      subst heq
      obtain ⟨y, l, hy, hl, hlB⟩ := htree.held _ _ hs
      rw [hx] at hy
      cases hy
      exact ⟨s, hss _ _ hs, l, hl, hlB⟩
    · exact hmem k x hx'
  cases ho with
  | side hgrown _ => exact hnew ((getElem?_insert_hash ..).trans (if_pos rfl)) fun _ _ hx => hx
  | @moved p l c dropped added fork unwind apply hgrown _ _ hm =>
    obtain ⟨cutoff, gone, hp⟩ := prune_pruned (bc'.moved b c unwind apply) true
    obtain ⟨s, hs⟩ := hhead
    rw [hp.rest] at hs
    refine hnew (c := c) hs fun k x hx => ?_
    rw [hp.blocks] at hx
    split at hx
    · cases hx
    · rw [← (Tree.blocks_moved hm).blocks]
      exact hx

/-! ### Indexes over runs -/

def Indexed (g : Genesis) (bc : Blockchain) : Prop := ∃ l, Canonical g bc l ∧ TxIndexIs bc.db.txIndex l

theorem indexed_fresh (g : Genesis) (opts : Options) : Indexed g (fresh g opts) := by
  have hdb : (fresh g opts).db = Database.empty.commit g.writes := rfl
  rw [commit_genesis] at hdb
  refine ⟨_, canonical_fresh g opts, fun k loc => ?_⟩
  rw [hdb, ExtTreeMap.getElem?_empty]
  refine ⟨(fun h => by cases h), ?_⟩
  rintro ⟨b, hb, i, tx, htx, -, -⟩
  rw [List.mem_singleton.1 hb] at htx
  cases htx

theorem Indexed.insert (h : Indexed g bc) (htree : Tree g B bc) (hB : HashesDiffer B) (w : WireBlock) (nowMs : Int64)
    (hw : ∀ b, w.block? = some b → b.verifyTxRoot = true → B b)
    (hdiffer : ∀ l w, Chain g l w → (∀ x ∈ l, B x) → TxsDiffer l) : Indexed g (bc.insert w nowMs).2 := by
  obtain ⟨bc', hc, heq | ⟨b, -, ho⟩⟩ := htree.inserted hB w nowMs hw
  · obtain ⟨l, hl, hindex⟩ := h
    rw [heq]
    refine ⟨l, hl.congr hc.db hc.head, ?_⟩
    rw [hc.db]
    exact hindex
  have htree' := htree.cached hc
  obtain ⟨old, hold, hindex⟩ := h
  rw [← hc.db] at hindex
  have hold' : Canonical g bc' old := hold.congr hc.db hc.head
  generalize (bc.insert w nowMs).2 = bc'' at ho
  cases ho with
  | side hgrown _ => exact ⟨old, hold'.store hgrown.accepted, hindex⟩
  | @moved p l c dropped added fork unwind apply hgrown _ hnew hm =>
    obtain ⟨cutoff, gone, hp⟩ := prune_pruned (bc'.moved b c unwind apply) true
    refine ⟨b :: p :: l, (htree'.canonical_move hB hgrown hnew hm).pruned hp, ?_⟩
    rw [hp.db]
    refine hm.tables (P := fun db m => TxIndexIs db.txIndex m) hnew ?_ ?_ ?_
    · intro db x q m d hsuf _ hP
      obtain ⟨v, hv⟩ := hm.old.chain
      obtain ⟨u, hu⟩ := hv.of_suffix hsuf
      exact hP.unwind (hdiffer _ u hu fun y hy => htree'.known_of_canonical hm.old y (hsuf.subset hy))
    · intro db x q m st prev hsuf _ _ _ hP
      obtain ⟨u, hu⟩ := hgrown.chain.of_suffix hsuf
      exact hP.adopt (hdiffer _ u hu fun y hy => hgrown.known y (hsuf.subset hy))
    · rw [htree'.canonical_unique hB hm.old hold']
      exact hindex

/-- **The rule for runs that open the database again**: the node keeps a tree, the states of its blocks were in memory
once, and so does what insertions into such trees keep and what only reads the database and the head. -/
theorem tree_run_induction {I : Blockchain → Prop} (hrun : runNode g opts ops = .ok bc)
    (hfree : HashesDiffer (· ∈ offered g ops)) (hroots : RootsDiffer (memories g opts ops)) (hfresh : I (fresh g opts))
    (hinsert : ∀ bc w nowMs, Op.insert w nowMs ∈ ops → Tree g (· ∈ offered g ops) bc → I bc → I (bc.insert w nowMs).2)
    (hreopen : ∀ bc bc' : Blockchain, bc'.db = bc.db → bc'.head = bc.head → I bc → I bc') :
    Tree g (· ∈ offered g ops) bc ∧ I bc := by
  have hg := (ready_of_run hrun).1
  have hempty : runNode g opts [] = .ok (fresh g opts) := runNode_eq hg opts []
  have hmem : Remembered g (· ∈ offered g ops) (memories g opts ops) (fresh g opts) :=
    remembered_fresh hg (List.mem_cons_self ..) fun k s hs => mem_memories ⟨ops, rfl⟩ hempty hs
  have hrun' := hrun
  rw [runNode_eq hg] at hrun'
  refine (fun h => ⟨h.2.1, h.2.2.2⟩) (Run.run_preserves (I := fun past bc => runNode g opts past = .ok bc ∧
    Tree g (· ∈ offered g ops) bc ∧ Remembered g (· ∈ offered g ops) (memories g opts ops) bc ∧ I bc) ?_
    ⟨hempty, tree_fresh hg (List.mem_cons_self ..) opts, hmem, hfresh⟩ hrun')
  rintro past op rest bc bc' heq ⟨hpast, htree, hmem, hI⟩ hstep
  have hop : op ∈ ops := by rw [← heq]; simp
  have hnext := runNode_snoc hpast hstep
  have hss : ∀ (k : Hash) (s : State), bc'.states[k]? = some s → s ∈ memories g opts ops :=
    fun k s hs => mem_memories ⟨rest, by rw [← heq]; simp⟩ hnext hs
  refine ⟨hnext, ?_⟩
  cases op with
  | insert w nowMs =>
    cases hstep
    exact ⟨htree.insert hfree w nowMs (mem_offered hop), hmem.insert htree hfree w nowMs (mem_offered hop) hss,
      hinsert bc w nowMs hop htree hI⟩
  | reopen opts' =>
    obtain ⟨htree', hdb, hhead⟩ := htree.reopen_of_roots hroots hmem hstep hss
    refine ⟨htree', ?_, hreopen bc bc' hdb hhead hI⟩
    unfold Remembered
    rw [hdb]
    exact hmem

theorem indexed_of_run (hrun : runNode g opts ops = .ok bc) (hfree : HashesDiffer (· ∈ offered g ops))
    (htx : TxHashesDiffer (· ∈ offered g ops)) (hroots : RootsDiffer (memories g opts ops))
    (hnonces : NoncesLast g (· ∈ offered g ops)) : Indexed g bc := by
  refine (tree_run_induction hrun hfree hroots (indexed_fresh g opts) ?_ ?_).2
  · intro bc w nowMs hop htree hindexed
    exact hindexed.insert htree hfree w nowMs (mem_offered hop) fun l v hl hB => hl.txsDiffer hB hnonces htx
  · rintro bc bc' hdb hhead ⟨l, hl, hindex⟩
    exact ⟨l, hl.congr hdb hhead, hdb ▸ hindex⟩

/-- **The indexes match the head.** After every run of insertions and successful reopenings the canonical table has an entry
for exactly the heights up to that of the head and names the head's ancestors, and the transaction index has exactly the
transactions of these blocks, at their places. -/
theorem indexes_match_head (hrun : runNode g opts ops = .ok bc) (hfree : HashesDiffer (· ∈ offered g ops))
    (htx : TxHashesDiffer (· ∈ offered g ops)) (hroots : RootsDiffer (memories g opts ops))
    (hnonces : NoncesLast g (· ∈ offered g ops)) :
    ∃ l, l.head? = some bc.head ∧ (∃ w, Chain g l w) ∧
      (∀ n : UInt64, (bc.db.canonical[n]?).isSome ↔ n ≤ bc.head.height) ∧
      (∀ (n : UInt64) (x : Hash), bc.db.canonical[n]? = some x → ∃ b ∈ l, b.height = n ∧ b.hash = x) ∧
      ∀ (k : Hash) (loc : TxLocation), bc.db.txIndex[k]? = some loc ↔ ∃ b ∈ l, b.Locates k loc := by
  obtain ⟨l, hl, hindex⟩ := indexed_of_run hrun hfree htx hroots hnonces
  refine ⟨l, hl.head, hl.chain, fun n => ?_, fun n x hx => (hl.table n x).1 hx, hindex⟩
  obtain ⟨m, rfl⟩ : ∃ m, l = bc.head :: m := List.head?_eq_some_iff.1 hl.head
  obtain ⟨w, hw⟩ := hl.chain
  rw [Option.isSome_iff_exists, UInt64.le_iff_toNat_le]
  constructor
  · rintro ⟨x, hx⟩
    obtain ⟨b, hb, rfl, -⟩ := (hl.table n x).1 hx
    rcases List.mem_cons.1 hb with rfl | hb
    · exact le_rfl
    · exact (hw.height_lt b hb).le
  · intro hn
    obtain ⟨x, hx, hxn⟩ := hw.exists_height hn
    exact ⟨x.hash, (hl.table n _).2 ⟨x, hx, UInt64.toNat_inj.1 hxn, rfl⟩⟩

/-! ### A run with the same transaction on two branches -/

instance (l : List Block) : Decidable (TxHashesDiffer (· ∈ l)) :=
  decidable_of_iff (∀ b ∈ l, ∀ c ∈ l, ∀ tx ∈ b.txs, ∀ tx' ∈ c.txs, tx.hash = tx'.hash → tx = tx')
    ⟨fun h b c hb hc => h b hb c hc, fun h b hb c hc => h b c hb hc⟩

/-- Every run of at most `n` of the blocks applies transactions without code only, and none is longer. -/
def plainRuns (tr : Treasury) (blocks : List Block) : ℕ → State → Header → Bool
  | 0, s, h => blocks.all fun b => !(applyBlock tr s b (some h)).isOk
  | n + 1, s, h =>
    blocks.all fun b =>
      match applyBlock tr s b (some h) with
      | .error _ => true
      | .ok (s', _) => (included b.header b.txs (blockState s b.header)).all Included.isPlain && plainRuns tr blocks n s' b.header

theorem below_of_plainRuns {tr : Treasury} {blocks bs : List Block} {n : ℕ} {s t : State} {h : Header} {xs : List Included}
    (hplain : plainRuns tr blocks n s h = true) (hrun : BlockRun tr s h bs xs t) (hbs : ∀ b ∈ bs, b ∈ blocks) :
    ∀ x ∈ xs, x.Below := by
  induction hrun generalizing n with
  | nil => exact fun _ hx => absurd hx List.not_mem_nil
  | @cons s h b s' receipts bs xs t happ _ ih =>
    have hb := hbs b (List.mem_cons_self ..)
    cases n with
    | zero =>
      have hno := List.all_eq_true.1 hplain b hb
      rw [happ] at hno
      cases hno
    | succ n =>
      have hok := List.all_eq_true.1 hplain b hb
      rw [happ] at hok
      obtain ⟨hfirst, hrest⟩ := Bool.and_eq_true_iff.1 hok
      intro x hx
      rcases List.mem_append.1 hx with hx | hx
      · exact Included.below_of_isPlain (List.all_eq_true.1 hfirst x hx)
      · exact ih hrest (fun c hc => hbs c (List.mem_cons_of_mem _ hc)) x hx

omit [Crypto] in
theorem indexes_match_head_reorg : ∃ bc, @runNode forkCrypto transferGenesis forkOptions reorgRun = .ok bc ∧
    ∃ l, l.head? = some bc.head ∧ (∃ w, @Chain forkCrypto transferGenesis l w) ∧
      (∀ n : UInt64, (bc.db.canonical[n]?).isSome ↔ n ≤ bc.head.height) ∧
      (∀ (n : UInt64) (x : Hash), bc.db.canonical[n]? = some x → ∃ b ∈ l, b.height = n ∧ @Block.hash forkCrypto b = x) ∧
      ∀ (k : Hash) (loc : TxLocation), bc.db.txIndex[k]? = some loc ↔ ∃ b ∈ l, @Block.Locates forkCrypto b k loc := by
  have hfree := reorgRun_hashesDiffer
  have htx : @TxHashesDiffer forkCrypto (· ∈ @offered forkCrypto transferGenesis reorgRun) := by decide +kernel
  have hroots : @RootsDiffer forkCrypto (@memories forkCrypto transferGenesis forkOptions reorgRun) := by decide +kernel
  have hplain : @plainRuns forkCrypto transferGenesis.treasury (@offered forkCrypto transferGenesis reorgRun) 2
      transferGenesis.state (@Genesis.block forkCrypto transferGenesis).header = true := by decide +kernel
  have hnonces : @NoncesLast forkCrypto transferGenesis (· ∈ @offered forkCrypto transferGenesis reorgRun) :=
    fun bs xs t hbs hrun => @below_of_plainRuns forkCrypto _ _ _ _ _ _ _ _ hplain hrun hbs
  obtain ⟨bc, hrun⟩ := exists_reorgRun
  exact ⟨bc, hrun, @indexes_match_head forkCrypto _ _ _ _ hrun hfree htx hroots hnonces⟩

end Blockchain

end Lxs
