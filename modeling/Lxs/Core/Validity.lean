import Lxs.Core.Difficulty
import Lxs.Core.Refusal
import Lxs.Core.Work

/-!
# Valid blocks

A block is valid by its ancestry alone: it is a block of a chain, carries the difficulty that the chain demands and has
the work for it (`Valid`). A node that holds the ancestry of such a block has nothing against it but that it is stored
already, is dated ahead of the clock, or belongs to a branch of which states were pruned.

* `Blockchain.Node` — what every node keeps;
* `Node.insert_ok` — a valid block whose branch has its states and forks off inside the window is stored;
* `Node.insert_error` — otherwise, on a branch without a gap in its states, it is refused without fault.
-/

set_option linter.unusedSectionVars false

namespace Lxs

open Std Lib

variable [Crypto] {g : Genesis} {B : Block → Prop}

/-! ### Validity -/

def demandedDifficulty (g : Genesis) (p : Block) (l : List Block) : UInt64 :=
  windowDifficulty g (Blockchain.windowLength p.height) p l

theorem minDifficulty_le_lwmaDifficulty (window : List Header) : minDifficulty ≤ lwmaDifficulty window := by
  have hfloor : ∀ d : UInt64, minDifficulty ≤ if d < minDifficulty then minDifficulty else d := by
    intro d
    split
    · exact UInt64.le_refl _
    · exact UInt64.not_lt.1 ‹_›
  cases window with
  | nil => exact UInt64.le_refl _
  | cons first window =>
    rw [lwmaDifficulty]
    rcases lwmaSums 1 first.timestamp 0 0 window with ⟨l, sumD⟩
    exact hfloor _

theorem minDifficulty_le_demandedDifficulty (g : Genesis) (p : Block) (l : List Block) :
    minDifficulty ≤ demandedDifficulty g p l := by
  unfold demandedDifficulty windowDifficulty
  split
  · show minDifficulty ≤ if g.difficulty = 0 then minDifficulty else g.difficulty
    split
    · exact UInt64.le_refl _
    · rename_i hne
      rw [UInt64.le_iff_toNat_le, show minDifficulty.toNat = 1 from rfl, Nat.one_le_iff_ne_zero]
      exact fun h0 => hne (UInt64.toNat_inj.1 h0)
  · exact minDifficulty_le_lwmaDifficulty _

/-- A chain whose blocks all have the work that is demanded of them. -/
structure Valid (g : Genesis) (l : List Block) : Prop where
  chain : ∃ w, Chain g l w
  worked : ∀ b p m, b :: p :: m <:+ l → b.header.difficulty = demandedDifficulty g p m ∧ satisfiesPoW b.header = true

theorem Valid.genesis : Valid g [g.block] where
  chain := ⟨_, .genesis⟩
  worked b p m hsuf := absurd hsuf.length_le (by simp)

theorem Valid.cons {b p : Block} {m : List Block} (h : Valid g (p :: m)) (hchain : ∃ w, Chain g (b :: p :: m) w)
    (hdiff : b.header.difficulty = demandedDifficulty g p m) (hwork : satisfiesPoW b.header = true) : Valid g (b :: p :: m) where
  chain := hchain
  worked x y n hsuf := by
    rcases List.suffix_cons_iff.1 hsuf with heq | hsuf
    · cases heq
      exact ⟨hdiff, hwork⟩
    · exact h.worked x y n hsuf

/-- The state after a chain, executed from the genesis on, if all its blocks are valid. -/
def validState (g : Genesis) : List Block → Option State
  | [] => none
  | [b] => if b = g.block then some g.state else none
  | b :: p :: m =>
    if (b.txs.all fun tx => (tx.sanityCheck g.chainID).isOk) ∧ b.header.difficulty = demandedDifficulty g p m ∧ satisfiesPoW b.header then
      (validState g (p :: m)).bind fun s => (applyBlock g.treasury s b (some p.header)).toOption.map Prod.fst
    else none

theorem validState_some {l : List Block} {s : State} (h : validState g l = some s) : Chain g l s.world ∧ Valid g l := by
  fun_induction validState g l generalizing s with
  | case1 => cases h
  | case2 =>
    cases h
    exact ⟨.genesis, .genesis⟩
  | case3 b hb => cases h
  | case4 b p m hok ih =>
    obtain ⟨hsane, hdiff, hwork⟩ := hok
    obtain ⟨v, hv, hs⟩ := Option.bind_eq_some_iff.1 h
    obtain ⟨⟨t, receipts⟩, ht, rfl⟩ := Option.map_eq_some_iff.1 hs
    obtain ⟨hchain, hvalid⟩ := ih hv
    have happ : applyBlock g.treasury v b (some p.header) = .ok (t, receipts) := by
      cases happ : applyBlock g.treasury v b (some p.header) with
      | error e => rw [happ] at ht; cases ht
      | ok r => rw [happ] at ht; cases ht; rfl
    have hsane' : ∀ tx ∈ b.txs, tx.sanityCheck g.chainID = .ok () := by
      intro tx htx
      have hok := List.all_eq_true.1 hsane tx htx
      cases hres : tx.sanityCheck g.chainID with
      | error e => rw [hres] at hok; cases hok
      | ok u => rfl
    have hnext : Chain g (b :: p :: m) t.world := .block hchain ⟨hsane', v, t, receipts, rfl, rfl, applyBlock_ok_iff.1 happ⟩
    exact ⟨hnext, hvalid.cons ⟨_, hnext⟩ hdiff hwork⟩
  | case5 b p m hno => cases h

theorem valid_of_isSome {l : List Block} (h : (validState g l).isSome) : Valid g l := by
  obtain ⟨s, hs⟩ := Option.isSome_iff_exists.1 h
  exact (validState_some hs).2

theorem Valid.of_suffix {l m : List Block} {b : Block} (h : Valid g l) (hm : b :: m <:+ l) : Valid g (b :: m) := by
  obtain ⟨w, hw⟩ := h.chain
  exact ⟨hw.of_suffix hm, fun x p n hsuf => h.worked x p n (hsuf.trans hm)⟩

namespace Blockchain

variable {bc bc' : Blockchain}

/-! ### Nodes -/

def Diffed (db : Database) (l : List Block) : Prop := ∀ b p m, b :: p :: m <:+ l → ∃ d, db.revDiffs[b.hash]? = some d

def Totals (g : Genesis) (B : Block → Prop) (db : Database) : Prop :=
  ∀ (k : Hash) (b : Block) (l : List Block) (w : World), db.blocks[k]? = some b → Chain g (b :: l) w → (∀ x ∈ b :: l, B x) →
    db.tds[k]? = some (work (b :: l))

/-- What every node keeps, as long as its disk is right when it is opened: the tree, the work of its blocks, and the
reverse diffs of its canonical chain. -/
structure Node (g : Genesis) (B : Block → Prop) (bc : Blockchain) : Prop where
  tree : Tree g B bc
  weighed : Weighed g B bc
  totals : Totals g B bc.db
  diffs : ∃ l, Canonical g bc l ∧ Diffed bc.db l

theorem Moves.diffed {b : Block} {new : List Block} {c : Checked} {dropped added fork : List Block}
    {unwind apply : List Write} (hm : Moves g bc b c dropped added fork unwind apply) (hnew : new = added.reverse ++ fork)
    (h : Diffed bc.db (dropped ++ fork)) : Diffed (bc.moved b c unwind apply).db new := by
  refine hm.tables (P := Diffed) hnew ?_ ?_ h
  · intro db x q m d _ _ hP y p n hsuf
    exact hP y p n (hsuf.trans (List.suffix_cons ..))
  · intro db x q m st prev _ _ _ _ hP y p n hsuf
    show ∃ d, (FinMap.put db.revDiffs x.hash (some (reverseDiff st prev st.touchedList)))[y.hash]? = some d
    rw [FinMap.getElem?_put]
    split
    · exact ⟨_, rfl⟩
    · rename_i hne
      rcases List.suffix_cons_iff.1 hsuf with heq | hsuf
      · cases heq
        exact absurd rfl hne
      · exact hP y p n hsuf

theorem Totals.store (h : Totals g B bc.db) (hB : HashesDiffer B) {b p : Block} {l : List Block} {c : Checked}
    (hgrown : Grown g B bc b p l c) : Totals g B (storeBlock bc.db b c) := by
  intro k x m w hx hchain hm
  rw [getElem?_storeBlock] at hx
  rw [getElem?_tds_storeBlock]
  split at hx
  · rename_i heq
    cases hx
    rw [if_pos heq]
    obtain rfl := hgrown.chain.tail_unique hB hchain (fun y hy => hgrown.known y (by simp [hy])) fun y hy => hm y (by simp [hy])
    cases hchain with
    | block hp hb =>
      have hparent := hgrown.accepted.parent
      obtain ⟨ptd, hptd, htd⟩ := hgrown.accepted.td
      rw [hb.header.parentHash] at hparent
      rw [h p.hash p l _ hparent hp fun y hy => hm y (List.mem_cons_of_mem _ hy)] at hptd
      cases hptd
      rw [htd]
      simp only [work, List.map_cons, List.sum_cons]
      rw [Nat.add_comm]
  · rename_i hne
    rw [if_neg hne]
    exact h k x m w hx hchain hm

theorem Totals.pruned (h : Totals g B bc.db) {cutoff : UInt64} {gone : Hash → Bool} (hp : Pruned bc bc' cutoff gone) :
    Totals g B bc'.db := by
  intro k x m w hx hchain hm
  rw [hp.blocks] at hx
  rw [hp.tds]
  split at hx
  · cases hx
  · rename_i hgone
    rw [if_neg hgone]
    exact h k x m w hx hchain hm

namespace Node

theorem cached (h : Node g B bc) (hc : Cached bc bc') : Node g B bc' := by
  obtain ⟨l, hcanon, hdiffs⟩ := h.diffs
  refine ⟨h.tree.cached hc, h.weighed.cached hc, hc.db ▸ h.totals, l, hcanon.congr hc.db hc.head, ?_⟩
  rw [hc.db]
  exact hdiffs

theorem of_outcome (h : Node g B bc) (hB : HashesDiffer B) {b : Block} (ho : Outcome g B bc b bc') :
    Totals g B bc'.db ∧ ∃ l, Canonical g bc' l ∧ Diffed bc'.db l := by
  obtain ⟨l, hcanon, hdiffs⟩ := h.diffs
  cases ho with
  | side hgrown _ => exact ⟨h.totals.store hB hgrown, l, hcanon.store hgrown.accepted, hdiffs⟩
  | @moved p m c dropped added fork unwind apply hgrown _ hnew hm =>
    obtain rfl := h.tree.canonical_unique hB hcanon hm.old
    have hcanon' := h.tree.canonical_move hB hgrown hnew hm
    obtain ⟨cutoff, gone, hp⟩ := prune_pruned (bc.moved b c unwind apply) true
    have htotals : Totals g B (bc.moved b c unwind apply).db := by
      have hmoved := Tree.blocks_moved hm
      intro k x n w hx
      rw [show (bc.moved b c unwind apply).db.blocks = (storeBlock bc.db b c).blocks from hmoved.blocks] at hx
      rw [show (bc.moved b c unwind apply).db.tds = (storeBlock bc.db b c).tds from hmoved.tds]
      exact h.totals.store hB hgrown k x n w hx
    refine ⟨htotals.pruned hp, _, hcanon'.pruned hp, fun x q m hsuf => ?_⟩
    rw [hp.revDiffs, if_neg (hp.not_gone hcanon' (hsuf.subset List.mem_cons_self))]
    exact hm.diffed hnew hdiffs x q m hsuf

theorem insert (h : Node g B bc) (hB : HashesDiffer B) (w : WireBlock) (nowMs : Int64)
    (hw : ∀ b, w.block? = some b → b.verifyTxRoot = true → B b) : Node g B (bc.insert w nowMs).2 := by
  obtain ⟨bc', hc, heq | ⟨b, -, ho⟩⟩ := h.tree.inserted hB w nowMs hw
  · rw [heq]
    exact h.cached hc
  · obtain ⟨htotals, hdiffs⟩ := (h.cached hc).of_outcome hB ho
    exact ⟨h.tree.insert hB w nowMs hw, h.weighed.insert h.tree.ready w nowMs hw, htotals, hdiffs⟩

theorem of_synced (h : Synced g B bc) (hweighed : Weighed g B bc) (htotals : Totals g B bc.db) : Node g B bc := by
  refine ⟨h.tree, hweighed, htotals, ?_⟩
  obtain ⟨l, w, hcanon, hundo, -⟩ := h.saved
  refine ⟨l, hcanon, fun b p m hsuf => ?_⟩
  obtain ⟨v, hv⟩ := hundo.of_suffix hsuf
  cases hv with
  | block _ _ hd _ => exact ⟨_, hd⟩

theorem totals_fresh (opts : Options) : Totals g B (fresh g opts).db := by
  have hdb : (fresh g opts).db = Database.empty.commit g.writes := rfl
  rw [commit_genesis] at hdb
  intro k b l w hb hchain _
  obtain ⟨rfl, rfl⟩ := blocks_fresh hb
  have hlen := hchain.height_eq
  rw [List.length_eq_zero_iff.1 hlen.symm, hdb, getElem?_put_empty, if_pos rfl]
  rfl

theorem of_fresh (hg : g.validate = .ok ()) (hB : B g.block) (opts : Options) : Node g B (fresh g opts) :=
  of_synced (synced_fresh hg hB opts) (weighed_fresh hB opts) (totals_fresh opts)

theorem reopen (h : Node g B bc) (hsynced : Synced g B bc) (hg : g.validate = .ok ()) (opts : Options) :
    ∃ bc', newBlockchain bc.db g opts = .ok bc' ∧ bc'.db = bc.db ∧ Synced g B bc' ∧ Node g B bc' := by
  obtain ⟨bc', hok, hsynced'⟩ := hsynced.reopen hg opts
  have hdb : bc'.db = bc.db :=
    (reopen_states (R := fun _ _ => True) h.tree.ready hok trivial fun _ _ _ _ _ _ _ _ _ _ => trivial).1
  exact ⟨bc', hok, hdb, hsynced', of_synced hsynced' (h.weighed.reopen h.tree.ready hok) (hdb ▸ h.totals)⟩

theorem of_run (hg : g.validate = .ok ()) {opts : Options} {ops : List Op} (hB : HashesDiffer B)
    (hoffered : ∀ b ∈ offered g ops, B b) (hfresh : Run.Meets (Blockchain.exec g) AdoptsFresh (fresh g opts) ops) :
    ∃ bc, runNode g opts ops = .ok bc ∧ Synced g B bc ∧ Node g B bc := by
  rw [runNode_eq hg]
  have hgen : B g.block := hoffered _ List.mem_cons_self
  refine Run.run_induction (I := fun _ bc => Synced g B bc ∧ Node g B bc) ?_ hfresh []
    ⟨synced_fresh hg hgen opts, of_fresh hg hgen opts⟩
  rintro past op bc hop ⟨hsynced, hnode⟩ hadopts
  cases op with
  | insert w nowMs =>
    have hw : ∀ b, w.block? = some b → b.verifyTxRoot = true → B b := fun b hb htx => hoffered b (mem_offered hop b hb htx)
    exact ⟨_, rfl, hsynced.insert hB w nowMs hw hadopts, hnode.insert hB w nowMs hw⟩
  | reopen opts =>
    obtain ⟨bc', hok, -, hsynced', hnode'⟩ := hnode.reopen hsynced hg opts
    exact ⟨bc', hok, hsynced', hnode'⟩

end Node

/-! ### Inserting a valid block -/

theorem unwindWrites_ok {db : Database} {dropped : List Block} (h : ∀ x ∈ dropped, ∃ d, db.revDiffs[x.hash]? = some d) :
    ∃ ws, unwindWrites db dropped = .ok ws := by
  induction dropped with
  | nil => exact ⟨[], rfl⟩
  | cons b dropped ih =>
    obtain ⟨d, hd⟩ := h b List.mem_cons_self
    obtain ⟨ws, hws⟩ := ih fun x hx => h x (List.mem_cons_of_mem _ hx)
    unfold unwindWrites applyReverseDiff
    rw [hd, hws]
    exact ⟨_, rfl⟩

theorem applyWrites_ok {newHead : Block} {newState : State} {added : List Block}
    (h : ∀ x ∈ added, (∃ st, bc.branchState newHead newState x = some st) ∧ ∃ prev, bc.states[x.header.parentHash]? = some prev) :
    ∃ ws, bc.applyWrites newHead newState added = .ok ws := by
  induction added with
  | nil => exact ⟨[], rfl⟩
  | cons b added ih =>
    obtain ⟨⟨st, hst⟩, prev, hprev⟩ := h b List.mem_cons_self
    obtain ⟨ws, hws⟩ := ih fun x hx => h x (List.mem_cons_of_mem _ hx)
    unfold applyWrites
    rw [hst, hprev, hws]
    exact ⟨_, rfl⟩

/-- A valid block whose ancestors are all stored. -/
structure Attached (g : Genesis) (B : Block → Prop) (bc : Blockchain) (b p : Block) (l : List Block) : Prop where
  valid : Valid g (b :: p :: l)
  known : ∀ x ∈ b :: p :: l, B x
  stored : Stored bc.db (p :: l)

/-- Below a block off the canonical chain that has its state, no state is missing. -/
def Unbroken (bc : Blockchain) (l : List Block) : Prop :=
  ∀ x y m, x :: y :: m <:+ l → bc.db.canonical[x.height]? ≠ some x.hash → (bc.states[x.hash]?).isSome →
    (bc.states[y.hash]?).isSome

theorem Unbroken.states {q : Block} {post side : List Block} : ∀ {p : Block} {l : List Block}, Unbroken bc (p :: l) →
    p :: l = side ++ q :: post → (∀ x ∈ side, bc.db.canonical[x.height]? ≠ some x.hash) → (bc.states[p.hash]?).isSome →
    ∀ x ∈ side ++ [q], (bc.states[x.hash]?).isSome := by
  induction side with
  | nil =>
    intro p l _ heq _ hp x hx
    cases heq
    rwa [List.mem_singleton.1 hx]
  | cons y side ih =>
    intro p l hdown heq hoff hp x hx
    rw [List.cons_append] at heq
    obtain ⟨rfl, rfl⟩ := List.cons.inj heq
    rcases List.mem_cons.1 hx with rfl | hx
    · exact hp
    obtain ⟨z, m, hz⟩ : ∃ z m, side ++ q :: post = z :: m := by cases side <;> exact ⟨_, _, rfl⟩
    rw [hz] at hdown
    have hstate := hdown p z m List.suffix_rfl (hoff p List.mem_cons_self) hp
    exact ih (fun x y m hsuf => hdown x y m (hsuf.trans (List.suffix_cons ..))) hz.symm
      (fun x hx => hoff x (List.mem_cons_of_mem _ hx)) hstate x hx

theorem parent_mem_tail {q : Block} {post : List Block} : ∀ {pre : List Block} {w : World}, Chain g (pre ++ q :: post) w →
    ∀ x ∈ pre, ∃ y ∈ (pre ++ [q]).tail, x.header.parentHash = y.hash
  | [], _, _, x, hx => by cases hx
  | z :: pre, w, hchain, x, hx => by
    obtain ⟨y, m, hy⟩ : ∃ y m, pre ++ q :: post = y :: m := by cases pre <;> exact ⟨_, _, rfl⟩
    rw [List.cons_append, hy] at hchain
    cases hchain with
    | block hp hb =>
      rcases List.mem_cons.1 hx with rfl | hx
      · refine ⟨y, ?_, hb.header.parentHash⟩
        cases pre with
        | nil =>
          cases hy
          exact List.mem_cons_self
        | cons z' pre =>
          cases hy
          exact List.mem_cons_self
      · rw [← hy] at hp
        obtain ⟨y, hy, hparent⟩ := parent_mem_tail hp x hx
        exact ⟨y, List.mem_of_mem_tail hy, hparent⟩

namespace Node

section

variable {b p : Block} {l : List Block}

theorem parent_stored (hatt : Attached g B bc b p l) : bc.db.blocks[b.header.parentHash]? = some p := by
  obtain ⟨w, hw⟩ := hatt.valid.chain
  rw [hw.parentHash]
  exact hatt.stored p List.mem_cons_self

theorem difficulty_eq (h : Node g B bc) (hatt : Attached g B bc b p l) :
    b.header.difficulty = derivedDifficulty bc.db bc.genesisDifficulty p.header := by
  obtain ⟨w, hw⟩ := hatt.valid.chain
  cases hw with
  | block hp hb =>
    rw [h.tree.ready.of.genesisDifficulty, derivedDifficulty_eq hp fun x hx => hatt.stored x (List.mem_cons_of_mem _ (List.mem_of_mem_take hx))]
    exact (hatt.valid.worked b p l List.suffix_rfl).1

variable {nowMs : Int64}

theorem passes (h : Node g B bc) (hatt : Attached g B bc b p l) (hnew : bc.db.blocks[b.hash]? = none)
    (htimely : b.header.timestamp ≤ nowMs + maxFutureDriftMs) : Plausible bc nowMs b p := by
  obtain ⟨w, hw⟩ := hatt.valid.chain
  cases hw with
  | block hp hb =>
    obtain ⟨_, _, _, -, -, happ⟩ := hb.applied
    refine ⟨hnew, htimely, h.difficulty_eq hatt, (hatt.valid.worked b p l List.suffix_rfl).2, happ.txRoot, ?_⟩
    rw [h.tree.ready.of.chainID]
    exact hb.sane

theorem accepted (h : Node g B bc) (hB : HashesDiffer B) (hatt : Attached g B bc b p l) (hnew : bc.db.blocks[b.hash]? = none)
    {s : State} (hs : bc.states[p.hash]? = some s) : ∃ c, Accepted bc b p c := by
  have hplaus : Plausible bc (b.header.timestamp - maxFutureDriftMs) b p := h.passes hatt hnew (by simp)
  obtain ⟨w, hw⟩ := hatt.valid.chain
  obtain ⟨_, -, -, hptd⟩ := h.weighed.td _ _ (hatt.stored p List.mem_cons_self)
  obtain ⟨_, -, -, hhtd⟩ := h.weighed.td _ _ h.tree.ready.stored
  cases hw with
  | block hp hb =>
    have hworld := h.tree.state_world hB hs hp fun x hx => hatt.known x (List.mem_cons_of_mem _ hx)
    obtain ⟨t, receipts, -, happ⟩ := hb.of_state hworld
    rw [← h.tree.ready.of.treasury] at happ
    exact ⟨⟨t, receipts, _, _⟩, hnew, parent_stored hatt, hplaus.difficulty, hplaus.pow, hplaus.txRoot, hplaus.sane,
      ⟨s, hs, happ⟩, ⟨_, hptd, rfl⟩, hhtd⟩

theorem off_table (h : Node g B bc) (hB : HashesDiffer B) {chain : List Block} (hcanon : Canonical g bc chain) {x : Block}
    (hx : B x) (hoff : x ∉ chain) : bc.db.canonical[x.height]? ≠ some x.hash := by
  intro hcan
  obtain ⟨y, hy, -, hhash⟩ := (hcanon.table _ _).1 hcan
  obtain rfl := hB y x (h.tree.known_of_canonical hcanon y hy) hx hhash
  exact hoff hy

/-- **The move to the branch of a valid block** succeeds, or the branch forks off too far below the head. -/
theorem reorgResult_cases (h : Node g B bc) (hB : HashesDiffer B) (hatt : Attached g B bc b p l) {c : Checked}
    (hacc : Accepted bc b p c) (hdown : Unbroken bc (p :: l)) : ∃ dropped q post, Canonical g bc (dropped ++ q :: post) ∧
      q :: post <:+ b :: p :: l ∧ (∀ x ∈ b :: p :: l, x ∈ dropped ++ q :: post → x ∈ q :: post) ∧
      if bc.retention.toNat < dropped.length then bc.reorgResult b c = .error (.reorgTooDeep b.hash)
      else ∃ r, bc.reorgResult b c = .ok r := by
  obtain ⟨w, hw⟩ := hatt.valid.chain
  obtain ⟨r, bc₁, hr, hmeet, hdone⟩ := h.tree.fork_spec hB (.refl bc) hw hatt.known
  obtain ⟨x, rfl⟩ := hdone hatt.stored
  obtain ⟨q, post, hcanon, hadded, hoff⟩ := hmeet x rfl
  refine ⟨x.dropped.reverse, q, post, hcanon, ⟨_, hadded.symm⟩, fun y hy hyc => ?_, ?_⟩
  · rw [hadded] at hy
    rcases List.mem_append.1 hy with hy | hy
    · exact absurd hyc (hoff y (List.mem_reverse.1 hy))
    · exact hy
  unfold reorgResult
  rw [hr, List.length_reverse]
  dsimp only
  split_ifs with hdeep
  · rfl
  -- the blocks that are unwound have reverse diffs
  obtain ⟨chain, hcanon', hdiffs⟩ := h.diffs
  obtain rfl := h.tree.canonical_unique hB hcanon hcanon'
  obtain ⟨unwind, hunwind⟩ : ∃ ws, unwindWrites bc.db x.dropped.reverse = .ok ws := by
    refine unwindWrites_ok fun y hy => ?_
    obtain ⟨pre, rest, hsplit⟩ := List.append_of_mem hy
    obtain ⟨z, m, hz⟩ : ∃ z m, rest ++ q :: post = z :: m := by cases rest <;> exact ⟨_, _, rfl⟩
    exact hdiffs y z m ⟨pre, by rw [hsplit, List.append_assoc, List.cons_append, hz]⟩
  -- the blocks that are adopted have states
  have hb : b ∉ x.dropped.reverse ++ q :: post := by
    intro hmem
    have hnew := hacc.new
    rw [hcanon.stored b hmem] at hnew
    cases hnew
  obtain ⟨apply, happly⟩ : ∃ ws, bc.applyWrites b c.state x.added = .ok ws := by
    cases hrev : x.added.reverse with
    | nil =>
      rw [hrev, List.nil_append] at hadded
      refine absurd ?_ hb
      rw [← hadded]
      simp
    | cons y side =>
      rw [hrev, List.cons_append] at hadded
      obtain ⟨rfl, hside⟩ := List.cons.inj hadded
      have hoff' : ∀ z ∈ side, bc.db.canonical[z.height]? ≠ some z.hash := by
        intro z hz
        have hzadd : z ∈ x.added := by rw [← List.mem_reverse, hrev]; exact List.mem_cons_of_mem _ hz
        exact h.off_table hB hcanon (hatt.known z (List.mem_cons_of_mem _ (by rw [hside]; simp [hz]))) (hoff z hzadd)
      obtain ⟨s, hs, -⟩ := hacc.applied
      have hstates := hdown.states hside hoff' (by rw [hs]; rfl)
      refine applyWrites_ok fun z hz => ⟨?_, ?_⟩
      · unfold branchState
        split_ifs with heq
        · exact ⟨_, rfl⟩
        · rw [← List.mem_reverse, hrev] at hz
          rcases List.mem_cons.1 hz with rfl | hz
          · exact absurd rfl heq
          · exact Option.isSome_iff_exists.1 (hstates z (List.mem_append_left _ hz))
      · rw [← List.mem_reverse, hrev] at hz
        rw [hside, ← List.cons_append] at hw
        obtain ⟨y, hy, hparent⟩ := parent_mem_tail hw z hz
        rw [hparent]
        exact Option.isSome_iff_exists.1 (hstates y hy)
  rw [hunwind, happly]
  exact ⟨_, rfl⟩

theorem place_cases (h : Node g B bc) (hB : HashesDiffer B) (hatt : Attached g B bc b p l) {c : Checked}
    (hacc : Accepted bc b p c) (hdown : Unbroken bc (p :: l)) : (∃ r, (bc.place .sound b c).1 = .ok r) ∨
      (bc.place .sound b c).1 = .error (.reorgTooDeep b.hash) ∧ ∃ dropped q post, Canonical g bc (dropped ++ q :: post) ∧
        (∀ x ∈ b :: p :: l, x ∈ dropped ++ q :: post → x ∈ q :: post) ∧ bc.retention.toNat < dropped.length := by
  rw [place_sound]
  split_ifs with hbetter hparent
  · exact .inl ⟨_, rfl⟩
  · obtain ⟨s, hs⟩ := h.tree.ready.headState
    unfold extend
    rw [hparent, hs]
    exact .inl ⟨_, rfl⟩
  · rw [reorg_result h.tree.ready.coherent]
    obtain ⟨dropped, q, post, hcanon, -, hmeet, hres⟩ := h.reorgResult_cases hB hatt hacc hdown
    split_ifs at hres with hdeep
    · exact .inr ⟨hres, dropped, q, post, hcanon, hmeet, hdeep⟩
    · exact .inl hres

theorem insert_error (h : Node g B bc) (hB : HashesDiffer B) (hatt : Attached g B bc b p l) (hdown : Unbroken bc (p :: l)) {e : InsertError} (he : (bc.insert b.toWire nowMs).1 = .error e) :
    e = .knownBlock ∧ bc.db.blocks[b.hash]? = some b ∨ e.isDeferral = true := by
  have hc := h.tree.ready.coherent
  cases hnew : bc.db.blocks[b.hash]? with
  | some b' =>
    rw [insert_of_known (ExtTreeMap.mem_iff_isSome_getElem?.2 (by rw [show b.toWire.header.hash = b.hash from rfl, hnew]; rfl))] at he
    cases he
    obtain ⟨hhash, hb'⟩ := h.tree.known_of_stored hnew
    rw [hB b' b hb' (hatt.known b List.mem_cons_self) hhash]
    exact .inl ⟨rfl, rfl⟩
  | none =>
    rw [insert_result hc hnew (parent_stored hatt)] at he
    split_ifs at he with hts
    · cases he
      exact .inr rfl
    cases hs : bc.states[p.hash]? with
    | none =>
      rw [check_of_pruned (h.passes hatt hnew (Int64.not_lt.1 hts)) hs] at he
      cases he
      exact .inr rfl
    | some s =>
      obtain ⟨c, hacc⟩ := h.accepted hB hatt hnew hs
      rw [check_of_accepted hacc] at he
      dsimp only at he
      rcases h.place_cases hB hatt hacc hdown with ⟨r, hr⟩ | ⟨hdeep, -⟩
      · rw [hr] at he
        cases he
      · rw [hdeep] at he
        cases he
        exact .inr rfl

/-- **A new valid block is stored**, if the clock has reached it, the states of its branch are there and the branch meets
the canonical chain inside the window. -/
theorem insert_ok (h : Node g B bc) (hB : HashesDiffer B) (hatt : Attached g B bc b p l) (hdown : Unbroken bc (p :: l)) (hnew : bc.db.blocks[b.hash]? = none) (htimely : b.header.timestamp ≤ nowMs + maxFutureDriftMs)
    (hs : (bc.states[p.hash]?).isSome) {q : Block} (hq : q ∈ p :: l) (hcan : bc.db.canonical[q.height]? = some q.hash)
    (hdepth : bc.head.height.toNat ≤ q.height.toNat + bc.retention.toNat) : ∃ r, (bc.insert b.toWire nowMs).1 = .ok r := by
  obtain ⟨s, hs⟩ := Option.isSome_iff_exists.1 hs
  obtain ⟨c, hacc⟩ := h.accepted hB hatt hnew hs
  rw [insert_result h.tree.ready.coherent hnew (parent_stored hatt), if_neg (Int64.not_lt.2 htimely), check_of_accepted hacc]
  dsimp only
  rcases h.place_cases hB hatt hacc hdown with hok | ⟨-, dropped, q', post, hcanon, hmeet, hdeep⟩
  · exact hok
  -- the canonical block is at or below the fork
  exfalso
  have hqB := hatt.known q (List.mem_cons_of_mem _ hq)
  have hqc : q ∈ dropped ++ q' :: post := by
    by_contra hoff
    exact h.off_table hB hcanon hqB hoff hcan
  have hlow := hmeet q (List.mem_cons_of_mem _ hq) hqc
  obtain ⟨w, hw⟩ := hcanon.chain
  obtain ⟨v, hv⟩ := hw.lower dropped
  have hhead : bc.head.height.toNat = dropped.length + q'.height.toNat := by
    have hlen := hcanon.head
    obtain ⟨m, hm⟩ := List.head?_eq_some_iff.1 hlen
    rw [hm] at hw
    rw [hw.height_eq, hv.height_eq]
    have := congrArg List.length hm
    simp only [List.length_append, List.length_cons] at this
    omega
  have hle : q.height.toNat ≤ q'.height.toNat := by
    rcases List.mem_cons.1 hlow with rfl | hmem
    · exact Nat.le_refl _
    · exact (hv.height_lt q hmem).le
  omega

end

/-! ### Following a valid chain -/

theorem not_stored_above (h : Node g B bc) {x : Block} {m : List Block} (hvalid : Valid g (x :: m))
    (hknown : ∀ y ∈ x :: m, B y) (hhead : bc.head ∈ m) : bc.db.blocks[x.hash]? ≠ some x := by
  intro hx
  obtain ⟨w, hw⟩ := hvalid.chain
  obtain ⟨pre, post, rfl⟩ := List.append_of_mem hhead
  obtain ⟨v, hv⟩ := Chain.lower (x :: pre) hw
  have htd := h.totals _ x _ w hx hw hknown
  have hhtd := h.totals _ bc.head post v h.tree.ready.stored hv fun y hy =>
    hknown y (List.mem_cons_of_mem _ (List.mem_append_right _ hy))
  have hbest := h.weighed.best _ x _ _ hx htd hhtd
  rw [not_better_iff] at hbest
  -- the work above the head is positive
  have hpos : 1 ≤ x.header.difficulty.toNat := by
    obtain ⟨y, n, hy⟩ : ∃ y n, pre ++ bc.head :: post = y :: n := by cases pre <;> exact ⟨_, _, rfl⟩
    rw [hy] at hvalid
    rw [(hvalid.worked x y n List.suffix_rfl).1]
    exact UInt64.le_iff_toNat_le.1 (minDifficulty_le_demandedDifficulty g y n)
  simp only [work, List.map_cons, List.sum_cons, List.map_append, List.sum_append] at hbest
  omega

/-- **A valid chain is followed**: once a block of it is stored on its ancestors, it is stored with them, and the states of
the chain have no gap. -/
theorem insert_next (h : Node g B bc) (hB : HashesDiffer B) {chain : List Block} (hvalid : Valid g chain)
    (hknown : ∀ x ∈ chain, B x) {b p : Block} {m : List Block} (hsuf : b :: p :: m <:+ chain) (hst : Stored bc.db (p :: m))
    (hun : Unbroken bc chain) {nowMs : Int64} {r : Option Reorg} (hok : (bc.insert b.toWire nowMs).1 = .ok r) :
    Stored (bc.insert b.toWire nowMs).2.db (b :: p :: m) ∧ Unbroken (bc.insert b.toWire nowMs).2 chain := by
  have hbB : B b := hknown b (hsuf.subset List.mem_cons_self)
  have hw : ∀ x, b.toWire.block? = some x → x.verifyTxRoot = true → B x := by
    intro x hx _
    rw [block?_toWire] at hx
    cases hx
    exact hbB
  have hnode := h.insert hB b.toWire nowMs hw
  obtain ⟨bc₁, hc, ⟨e, he⟩ | ⟨b', r', hb', -, ho⟩⟩ := h.tree.inserted_cases hB b.toWire nowMs hw
  · rw [he] at hok
    cases hok
  rw [block?_toWire] at hb'
  cases hb'
  obtain ⟨w, hchain⟩ := (hvalid.of_suffix hsuf).chain
  -- the chain of the block is the one we follow
  have hsame : ∀ {q l c}, Grown g B bc₁ b q l c → q :: l = p :: m := fun hgrown =>
    hgrown.chain.tail_unique hB hchain (fun y hy => hgrown.known y (by simp [hy])) fun y hy => hknown y (hsuf.subset (by simp [hy]))
  generalize (bc.insert b.toWire nowMs).2 = bc₂ at ho hnode
  cases ho with
  | @side q l c hgrown hbetter =>
    obtain ⟨rfl, rfl⟩ := List.cons.inj (hsame hgrown)
    rw [← hc.db] at hst
    refine ⟨fun x hx => ?_, fun x y n hxy hoff hx => ?_⟩
    · rcases List.mem_cons.1 hx with rfl | hx
      · exact (getElem?_storeBlock ..).trans (if_pos rfl)
      · exact hgrown.accepted.stored (hst x hx)
    · show ((bc₁.states.insert b.hash c.state)[y.hash]?).isSome
      replace hx : ((bc₁.states.insert b.hash c.state)[x.hash]?).isSome := hx
      rw [getElem?_insert_hash] at hx ⊢
      split
      · rfl
      split at hx
      · -- the block itself, whose parent has its state
        rename_i heq
        obtain rfl := hB b x hbB (hknown x (hxy.subset List.mem_cons_self)) heq
        obtain ⟨v, hv⟩ := (hvalid.of_suffix hxy).chain
        have htail := hchain.tail_unique hB hv (fun z hz => hknown z (hsuf.subset (by simp [hz])))
          fun z hz => hknown z (hxy.subset (by simp [hz]))
        obtain ⟨rfl, -⟩ := List.cons.inj htail
        obtain ⟨s, hs, -⟩ := hgrown.accepted.applied
        rw [hs]
        rfl
      · rw [hc.states] at hx ⊢
        refine hun x y n hxy ?_ hx
        rw [← hc.db]
        exact hoff
  | @moved q l c dropped added fork unwind apply hgrown _ hnew hm =>
    obtain ⟨rfl, rfl⟩ := List.cons.inj (hsame hgrown)
    have hcanon := (h.tree.cached hc).canonical_move hB hgrown hnew hm
    obtain ⟨cutoff, gone, hp⟩ := prune_pruned (bc₁.moved b c unwind apply) true
    have hcanon' := hcanon.pruned hp
    refine ⟨hcanon'.stored, fun x y n hxy hoff hx => ?_⟩
    -- a block with a state off the canonical chain would be above the head
    exfalso
    obtain ⟨s, hs⟩ := Option.isSome_iff_exists.1 hx
    obtain ⟨x', l', hx', hx'chain, hx'B⟩ := hnode.tree.held _ _ hs
    have hxB : ∀ z ∈ x :: y :: n, B z := fun z hz => hknown z (hxy.subset hz)
    obtain rfl := hB x' x (hx'B x' List.mem_cons_self) (hxB x List.mem_cons_self) (hnode.tree.ready.coherent.hash _ _ hx')
    have hnot : x' ∉ b :: q :: l := fun hmem => hoff ((hcanon'.table _ _).2 ⟨x', hmem, rfl, rfl⟩)
    have habove : b :: q :: l <:+ y :: n := by
      rcases List.suffix_or_suffix_of_suffix hsuf hxy with hle | hle
      · rcases List.suffix_cons_iff.1 hle with heq | hle
        · exact absurd (by rw [heq]; exact List.mem_cons_self) hnot
        · exact hle
      · exact absurd (hle.subset List.mem_cons_self) hnot
    refine hnode.not_stored_above (hvalid.of_suffix hxy) hxB ?_ hx'
    have hhead : ((bc₁.moved b c unwind apply).prune true).head = b := by rw [hp.rest]; rfl
    rw [hhead]
    exact habove.subset List.mem_cons_self

end Node

end Blockchain

end Lxs
