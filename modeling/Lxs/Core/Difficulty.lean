import Lxs.Core.Consistency

/-!
# The required difficulty

A child of a block has to carry the difficulty that the last blocks of its own ancestry determine. The walk down that
ancestry needs all of these blocks on disk. A sweep deletes side blocks below the cutoff, also when a block above the cutoff
that is still in memory descends from them; so what is said here of runs asks that no sweep finds such a branch.

* `required_difficulty_of_ancestry`: in these runs the required difficulty is a function of the ancestry.
-/

set_option linter.unusedSectionVars false

namespace Lxs

open Std Lib

variable [Crypto] {g : Genesis} {B : Block → Prop}

/-- The difficulty of a child by its parent and the last `n` of the blocks below that. -/
def windowDifficulty (g : Genesis) (n : ℤ) (parent : Block) (l : List Block) : UInt64 :=
  if n < 2 then g.block.header.difficulty
  else lwmaDifficulty (((parent :: l).take (n.toNat + 1)).reverse.map Block.header)

/-- The difficulty that the chain below a child, the parent first, demands of it. -/
def ancestryDifficulty (g : Genesis) (parent : Block) (l : List Block) : UInt64 :=
  windowDifficulty g (min parent.height.toNat lwmaWindow : ℕ) parent l

namespace Blockchain

variable {bc bc' : Blockchain}

/-! ### Walking back -/

variable {db : Database}

theorem headersBack_eq {n : ℕ} : ∀ {b : Block} {l : List Block} {w : World}, Chain g (b :: l) w →
    Stored db (l.take n) → n ≤ l.length → ∀ window, headersBack db n b.header window =
      some ((l.take n).reverse.map Block.header ++ window) := by
  induction n with
  | zero =>
    intro b l w _ _ _ window
    simp [headersBack]
  | succ n ih =>
    intro b l w hchain hstored hlen window
    cases l with
    | nil => exact absurd hlen (Nat.not_succ_le_zero _)
    | cons p l =>
      cases hchain with
      | block hp hb =>
        unfold headersBack
        rw [hb.header.parentHash, show db.blocks[p.header.hash]? = some p from hstored p (by simp)]
        dsimp only
        rw [ih hp (fun x hx => hstored x (by simp [hx])) (Nat.le_of_succ_le_succ hlen)]
        simp

theorem windowLength_eq {height : UInt64} (h : height.toNat < 2 ^ 63) :
    windowLength height = (min height.toNat lwmaWindow : ℕ) := by
  have hint : height.toInt64.toInt = height.toNat := by
    rw [← Int64.toInt_toBitVec, UInt64.toBitVec_toInt64, BitVec.toInt_eq_toNat_of_lt]
    · rfl
    · show 2 * height.toNat < 2 ^ 64
      omega
  unfold windowLength
  rw [hint]
  split <;> omega

variable {b : Block} {l : List Block} {w : World}

theorem toNat_windowLength_le (height : UInt64) : (windowLength height).toNat ≤ height.toNat := by
  rcases Nat.lt_or_ge height.toNat (2 ^ 63) with hlt | hge
  · rw [windowLength_eq hlt, Int.toNat_natCast]
    exact Nat.min_le_left _ _
  · have hneg : height.toInt64.toInt < 0 := by
      rw [← Int64.toInt_toBitVec, UInt64.toBitVec_toInt64, BitVec.toInt_eq_toNat_cond]
      have hbound := height.toNat_lt
      rw [if_neg (by show ¬2 * height.toNat < 2 ^ 64; omega)]
      show (height.toNat : ℤ) - ((2 ^ 64 : ℕ) : ℤ) < 0
      omega
    unfold windowLength
    rw [if_neg (by omega)]
    omega

theorem headersBack_window (hchain : Chain g (b :: l) w) (hstored : Stored db (l.take (windowLength b.height).toNat)) :
    headersBack db (windowLength b.height).toNat b.header [b.header] =
      some (((b :: l).take ((windowLength b.height).toNat + 1)).reverse.map Block.header) := by
  have hlen := hchain.height_eq
  have hle := toNat_windowLength_le b.height
  rw [headersBack_eq hchain hstored (by omega), List.take_succ_cons]
  simp

theorem derivedDifficulty_eq (hchain : Chain g (b :: l) w) (hstored : Stored db (l.take (windowLength b.height).toNat)) :
    derivedDifficulty db g.block.header.difficulty b.header = windowDifficulty g (windowLength b.height) b l := by
  unfold derivedDifficulty windowDifficulty
  rw [show b.header.height = b.height from rfl, headersBack_window hchain hstored]
  rfl

/-! ### Sweeps that spare the windows -/

/-- The stored blocks from `h` down, at most `n` of them. -/
def ancestors (db : Database) : ℕ → Hash → List Block
  | 0, _ => []
  | n + 1, h =>
    match db.blocks[h]? with
    | none => []
    | some b => b :: ancestors db n b.header.parentHash

theorem mem_ancestors {n : ℕ} : ∀ {b : Block} {l : List Block} {w : World}, Chain g (b :: l) w →
    Stored db (l.take n) → ∀ x ∈ l.take n, x ∈ ancestors db n b.header.parentHash := by
  induction n with
  | zero =>
    intro b l w _ _ x hx
    cases hx
  | succ n ih =>
    intro b l w hchain hstored x hx
    cases hchain with
    | genesis => cases hx
    | @block _ p l v _ hp hb =>
      rw [List.take_succ_cons] at hx hstored
      unfold ancestors
      rw [hb.header.parentHash, show db.blocks[p.header.hash]? = some p from hstored p (List.mem_cons_self ..)]
      rcases List.mem_cons.1 hx with rfl | hx
      · exact List.mem_cons_self ..
      · exact List.mem_cons_of_mem _ (ih hp (fun y hy => hstored y (List.mem_cons_of_mem _ hy)) x hx)

theorem mem_of_ancestors (hB : HashesDiffer B)
    (hdb : ∀ (k : Hash) (x : Block), db.blocks[k]? = some x → x.hash = k ∧ B x) {n : ℕ} :
    ∀ {b : Block} {l : List Block} {w : World}, Chain g (b :: l) w → (∀ x ∈ l, B x) → n ≤ l.length →
      ∀ x ∈ ancestors db n b.header.parentHash, x ∈ l := by
  induction n with
  | zero =>
    intro b l w _ _ _ x hx
    cases hx
  | succ n ih =>
    intro b l w hchain hl hlen x hx
    cases hchain with
    | genesis => cases hlen
    | @block _ p l v _ hp hb =>
      unfold ancestors at hx
      rw [hb.header.parentHash] at hx
      cases hq : db.blocks[p.header.hash]? with
      | none =>
        rw [hq] at hx
        cases hx
      | some q =>
        rw [hq] at hx
        obtain ⟨hhash, hBq⟩ := hdb _ q hq
        obtain rfl := hB q p hBq (hl p (List.mem_cons_self ..)) hhash
        rcases List.mem_cons.1 hx with rfl | hx
        · exact List.mem_cons_self ..
        · exact List.mem_cons_of_mem _
            (ih hp (fun y hy => hl y (List.mem_cons_of_mem _ hy)) (Nat.le_of_succ_le_succ hlen) x hx)

/-- The window of the block `h` loses nothing if the block `w` becomes the head: the block is below the cutoff itself, or
what its window has below the cutoff is below `w` too. -/
def keepsWindow (bc : Blockchain) (w : Header) (h : Hash) : Bool :=
  match bc.db.blocks[h]? with
  | none => true
  | some y => y.height < w.height - bc.retention || (ancestors bc.db lwmaWindow y.header.parentHash).all fun x =>
      w.height - bc.retention ≤ x.height || x ∈ ancestors bc.db w.height.toNat w.parentHash

/-- A sweep after the operation would leave the window of every block in memory. -/
def SparesWindows (bc : Blockchain) : Op → Prop
  | .insert w _ => bc.retention < w.header.height → w.header.height % bc.gcInterval = 0 →
      ∀ e ∈ bc.states.toList, bc.keepsWindow w.header e.1 = true
  | .reopen _ => True

instance (bc : Blockchain) : (op : Op) → Decidable (bc.SparesWindows op)
  | .insert w _ =>
    inferInstanceAs (Decidable (bc.retention < w.header.height → w.header.height % bc.gcInterval = 0 →
      ∀ e ∈ bc.states.toList, bc.keepsWindow w.header e.1 = true))
  | .reopen _ => isTrue trivial

theorem SparesWindows.mem {w : WireBlock} {nowMs : Int64} (h : bc.SparesWindows (.insert w nowMs))
    (hret : bc.retention < w.header.height) (hsweep : w.header.height % bc.gcInterval = 0) {k : Hash} {s : State} {y x : Block}
    (hs : bc.states[k]? = some s) (hy : bc.db.blocks[k]? = some y) (hhigh : w.header.height - bc.retention ≤ y.height)
    (hx : x ∈ ancestors bc.db lwmaWindow y.header.parentHash) (hlow : x.height < w.header.height - bc.retention) :
    x ∈ ancestors bc.db w.header.height.toNat w.header.parentHash := by
  have hkeeps := h hret hsweep (k, s) (ExtTreeMap.mem_toList_iff_getElem?_eq_some.2 hs)
  unfold keepsWindow at hkeeps
  rw [hy] at hkeeps
  have hall := (Bool.or_eq_true_iff.1 hkeeps).resolve_left (by simpa [UInt64.not_lt] using hhigh)
  have hmem := (Bool.or_eq_true_iff.1 (List.all_eq_true.1 hall x hx)).resolve_left (by simpa [UInt64.not_le] using hlow)
  simpa using hmem

/-! ### Windows on disk -/

/-- Every block whose state is in memory has its window on disk. -/
structure Windowed (g : Genesis) (B : Block → Prop) (bc : Blockchain) : Prop where
  tree : Tree g B bc
  window : ∀ (k : Hash) (s : State) (b : Block) (l : List Block) (w : World), bc.states[k]? = some s →
    bc.db.blocks[k]? = some b → Chain g (b :: l) w → (∀ x ∈ b :: l, B x) → Stored bc.db (l.take lwmaWindow)

namespace Windowed

theorem cached (h : Windowed g B bc) (hc : Cached bc bc') : Windowed g B bc' := by
  refine ⟨h.tree.cached hc, ?_⟩
  rw [hc.db, hc.states]
  exact h.window

theorem window_store (h : Windowed g B bc) (hB : HashesDiffer B) {b p : Block} {l : List Block} {c : Checked}
    (hgrown : Grown g B bc b p l c) {k : Hash} {s : State} {y : Block} {m : List Block} {w : World}
    (hs : (bc.states.insert b.hash c.state)[k]? = some s) (hy : (storeBlock bc.db b c).blocks[k]? = some y)
    (hchain : Chain g (y :: m) w) (hm : ∀ x ∈ y :: m, B x) : Stored (storeBlock bc.db b c) (m.take lwmaWindow) := by
  intro x hx
  refine hgrown.accepted.stored ?_
  rw [getElem?_insert_hash] at hs
  rw [getElem?_storeBlock] at hy
  split at hs
  · rename_i heq
    rw [if_pos heq] at hy
    cases hy
    obtain rfl := hgrown.chain.tail_unique hB hchain (fun z hz => hgrown.known z (by simp [hz])) fun z hz => hm z (by simp [hz])
    obtain ⟨t, ht, -⟩ := hgrown.accepted.applied
    have hparent := hgrown.accepted.parent
    cases hchain with
    | block hp hb =>
      rw [hb.header.parentHash] at hparent
      have hwindow := h.window _ t p l _ ht hparent hp fun z hz => hm z (List.mem_cons_of_mem _ hz)
      rw [show lwmaWindow = 44 + 1 from rfl, List.take_succ_cons] at hx
      rcases List.mem_cons.1 hx with rfl | hx
      · exact hparent
      · exact hwindow x (List.take_subset_take_left _ (by decide) hx)
  · rename_i hne
    rw [if_neg hne] at hy
    exact h.window k s y m w hs hy hchain hm x hx

/-- **Moving the head** keeps the windows if the sweep spares them. -/
theorem move (h : Windowed g B bc) (hB : HashesDiffer B) {b p : Block} {l : List Block} {c : Checked}
    (hgrown : Grown g B bc b p l c) {dropped added fork : List Block} {unwind apply : List Write}
    (hnew : b :: p :: l = added.reverse ++ fork) (hm : Moves g bc b c dropped added fork unwind apply) {w : WireBlock}
    {nowMs : Int64} (hw : w.header = b.header) (hspares : bc.SparesWindows (.insert w nowMs)) :
    Windowed g B ((bc.moved b c unwind apply).prune true) := by
  have hcanon := h.tree.canonical_move hB hgrown hnew hm
  have htree := h.tree.move hB hgrown hnew hm
  have hblocks : (bc.moved b c unwind apply).db.blocks = (storeBlock bc.db b c).blocks := (Tree.blocks_moved hm).blocks
  refine ⟨htree.prune, fun k s y m v hs hy hchain hyB x hx => ?_⟩
  obtain ⟨cutoff, gone, hp⟩ := prune_pruned (bc.moved b c unwind apply) true
  rw [hp.stored_of_state htree.ready.coherent hs, hblocks] at hy
  have hs' := hp.states_sub k s hs
  have hxs := h.window_store hB hgrown hs' hy hchain hyB x hx
  rw [hp.blocks, hblocks, if_neg, hxs]
  intro hgone
  -- a block that is swept from a window would be below the new head
  refine hp.not_gone hcanon ?_ hgone
  by_cases hk : b.hash = k
  · rw [getElem?_storeBlock, if_pos hk] at hy
    cases hy
    rw [hgrown.chain.tail_unique hB hchain (fun z hz => hgrown.known z (by simp [hz])) fun z hz => hyB z (by simp [hz])]
    exact List.mem_cons_of_mem _ (List.mem_of_mem_take hx)
  rw [getElem?_storeBlock, if_neg hk] at hy
  have hs₀ : bc.states[k]? = some s := by
    have hs₁ : (bc.states.insert b.hash c.state)[k]? = some s := hs'
    rwa [getElem?_insert_hash, if_neg hk] at hs₁
  obtain ⟨z, hz, -, hlt, -⟩ := isOrphan_iff.1 (hp.gone_orphan _ hgone)
  obtain rfl : z = x := by
    rw [hblocks, hxs] at hz
    exact (Option.some.inj hz).symm
  have hsweep : b.height % bc.gcInterval = 0 := hp.gone_sweep _ hgone
  have hcut : cutoff.toNat = b.height.toNat - bc.retention.toNat := hp.cutoff_eq
  have hlt' := UInt64.lt_iff_toNat_lt.1 hlt
  have hret : bc.retention < b.height := UInt64.lt_iff_toNat_lt.2 (by omega)
  obtain rfl : cutoff = b.height - bc.retention := by
    refine UInt64.toNat_inj.1 (hcut.trans (toNat_sub_le ?_).symm)
    exact (UInt64.lt_iff_toNat_lt.1 hret).le
  have hhigh : b.height - bc.retention ≤ y.height := by
    rcases hp.states_high k s hs with h0 | ⟨y', hy', hle⟩
    · rw [h0]
      exact UInt64.le_iff_toNat_le.2 (Nat.zero_le _)
    · have hy₁ := htree.ready.coherent.cache _ _ hy'
      rw [hblocks, getElem?_storeBlock, if_neg hk, hy] at hy₁
      cases hy₁
      exact hle
  have hwindow := h.window k s y m v hs₀ hy hchain hyB
  have hmem := hspares.mem (by rwa [hw]) (by rwa [hw]) hs₀ hy (by rwa [hw]) (mem_ancestors hchain hwindow z hx) (by rwa [hw])
  rw [hw] at hmem
  exact List.mem_cons_of_mem _ (mem_of_ancestors hB (fun k x hx => h.tree.known_of_stored hx) hgrown.chain
    (fun x hx => hgrown.known x (List.mem_cons_of_mem _ hx)) hgrown.chain.height_eq.le z hmem)

theorem insert (h : Windowed g B bc) (hB : HashesDiffer B) (w : WireBlock) (nowMs : Int64)
    (hw : ∀ b, w.block? = some b → b.verifyTxRoot = true → B b) (hspares : bc.SparesWindows (.insert w nowMs)) :
    Windowed g B (bc.insert w nowMs).2 := by
  obtain ⟨bc', hc, heq | ⟨b, hwb, ho⟩⟩ := h.tree.inserted hB w nowMs hw
  · rw [heq]
    exact h.cached hc
  have h' := h.cached hc
  generalize (bc.insert w nowMs).2 = bc'' at ho
  cases ho with
  | side hgrown _ => exact ⟨h'.tree.store hgrown, fun k s y m v hs hy => h'.window_store hB hgrown hs hy⟩
  | moved hgrown _ hnew hm =>
    have hspares' : bc'.SparesWindows (.insert w nowMs) := by
      unfold SparesWindows keepsWindow at hspares ⊢
      rw [hc.retention, hc.gcInterval, hc.states, hc.db]
      exact hspares
    exact h'.move hB hgrown hnew hm (block?_header hwb).symm hspares'

end Windowed

theorem windowed_fresh (hg : g.validate = .ok ()) (hB : HashesDiffer B) (hgB : B g.block) (opts : Options) :
    Windowed g B (fresh g opts) := by
  refine ⟨tree_fresh hg hgB opts, fun k s b l w _ hb hchain hl x hx => ?_⟩
  obtain ⟨-, rfl⟩ := blocks_fresh hb
  rw [← Chain.genesis.tail_unique hB hchain (fun _ hx => absurd hx List.not_mem_nil)
    fun y hy => hl y (List.mem_cons_of_mem _ hy)] at hx
  cases hx

/-! ### Runs -/

/-- What a node demands of a child of `b`, which has the ancestors `l`: the difficulty they determine, with all of the
window found. -/
structure Demands (g : Genesis) (bc : Blockchain) (b : Block) (l : List Block) : Prop where
  difficulty : (bc.requiredDifficulty b.header).1 = ancestryDifficulty g b l
  found : 2 ≤ b.height → (windowBack (windowLength b.height).toNat bc b.header [b.header]).1 =
    some (((b :: l).take (min b.height.toNat lwmaWindow + 1)).reverse.map Block.header)

theorem Windowed.demands (h : Windowed g B bc) (hheights : ∀ b, B b → b.height.toNat < 2 ^ 63) {k : Hash} {s : State} (hs : bc.states[k]? = some s) (hb : bc.db.blocks[k]? = some b)
    (hchain : Chain g (b :: l) w) (hl : ∀ x ∈ b :: l, B x) : Demands g bc b l := by
  have hwindow := windowLength_eq (hheights b (hl b (List.mem_cons_self ..)))
  have hstored : Stored bc.db (l.take (windowLength b.height).toNat) := by
    rw [hwindow, Int.toNat_natCast]
    exact fun x hx => h.window k s b l w hs hb hchain hl x (List.take_subset_take_left _ (Nat.min_le_right _ _) hx)
  obtain ⟨bc₁, -, hreq⟩ := requiredDifficulty_eq h.tree.ready.coherent b.header
  obtain ⟨bc₂, -, hwalk⟩ := windowBack_eq (windowLength b.height).toNat h.tree.ready.coherent b.header [b.header]
  refine ⟨?_, fun _ => ?_⟩
  · rw [hreq, h.tree.ready.of.genesisDifficulty, derivedDifficulty_eq hchain hstored, hwindow]
    rfl
  · rw [hwalk, headersBack_window hchain hstored, hwindow, Int.toNat_natCast]

/-- **The required difficulty depends on the ancestry alone**, in runs of insertions whose sweeps spare the windows: it is
the difficulty that the last ancestors of the block determine, and two nodes that hold a block demand the same of its
children. -/
theorem required_difficulty_of_ancestry (hg : g.validate = .ok ()) (opts opts' : Options)
    (blocks blocks' : List (WireBlock × Int64)) (hfree : HashesDiffer (· ∈ offered g (inserts (blocks ++ blocks'))))
    (hheights : ∀ b ∈ offered g (inserts (blocks ++ blocks')), b.height.toNat < 2 ^ 63)
    (hspares : Run.Meets (Blockchain.exec g) SparesWindows (fresh g opts) (inserts blocks))
    (hspares' : Run.Meets (Blockchain.exec g) SparesWindows (fresh g opts') (inserts blocks')) :
    ∃ bc bc', runNode g opts (inserts blocks) = .ok bc ∧ runNode g opts' (inserts blocks') = .ok bc' ∧
      (∀ (k : Hash) (s : State) (b : Block), bc.states[k]? = some s → bc.db.blocks[k]? = some b → ∃ l, Chain g (b :: l) s.world ∧
        (∀ x ∈ b :: l, x ∈ offered g (inserts (blocks ++ blocks'))) ∧ Demands g bc b l) ∧
      ∀ (k : Hash) (s s' : State) (b b' : Block), bc.states[k]? = some s → bc.db.blocks[k]? = some b →
        bc'.states[k]? = some s' → bc'.db.blocks[k]? = some b' →
        b' = b ∧ (bc'.requiredDifficulty b.header).1 = (bc.requiredDifficulty b.header).1 := by
  have hrun : ∀ {opts : Options} {part : List (WireBlock × Int64)}, part ⊆ blocks ++ blocks' →
      Run.Meets (Blockchain.exec g) SparesWindows (fresh g opts) (inserts part) →
      ∃ bc, runNode g opts (inserts part) = .ok bc ∧ Windowed g (· ∈ offered g (inserts (blocks ++ blocks'))) bc := by
    intro opts part hpart hmeets
    refine inserts_induction hg (windowed_fresh hg hfree (List.mem_cons_self ..) opts) hmeets ?_
    intro w nowMs bc hop h hspares
    exact h.insert hfree w nowMs (mem_offered (List.map_subset _ hpart hop)) hspares
  obtain ⟨bc, hok, h⟩ := hrun (List.subset_append_left ..) hspares
  obtain ⟨bc', hok', h'⟩ := hrun (List.subset_append_right ..) hspares'
  refine ⟨bc, bc', hok, hok', fun k s b hs hb => ?_, fun k s s' b b' hs hb hs' hb' => ?_⟩
  · obtain ⟨b₀, l, hb₀, hchain, hl⟩ := h.tree.held k s hs
    obtain rfl := Option.some.inj (hb.symm.trans hb₀)
    exact ⟨l, hchain, hl, h.demands hheights hs hb hchain hl⟩
  · obtain ⟨l, w, hchain, hl⟩ := h.tree.known k b hb
    obtain ⟨hk, hB⟩ := h.tree.known_of_stored hb
    obtain ⟨hk', hB'⟩ := h'.tree.known_of_stored hb'
    obtain rfl := hfree b' b hB' hB (hk'.trans hk.symm)
    refine ⟨rfl, ?_⟩
    rw [(h.demands hheights hs hb hchain hl).difficulty, (h'.demands hheights hs' hb' hchain hl).difficulty]

def sweepOptions : Options := ⟨1, 1⟩

def slowBlocks : List (WireBlock × Int64) :=
  [(transferBlock.toWire, 1000000), (forkLeft2.toWire, 1000000), (forkLeft3.toWire, 1000000)]

omit [Crypto] in
theorem required_difficulty_of_ancestry_slow : @Genesis.validate transferGenesis = .ok () ∧
    @HashesDiffer forkCrypto (· ∈ @offered forkCrypto transferGenesis (inserts (slowBlocks ++ reorgBlocks))) ∧
    (∀ b ∈ @offered forkCrypto transferGenesis (inserts (slowBlocks ++ reorgBlocks)), b.height.toNat < 2 ^ 63) ∧
    Run.Meets (@Blockchain.exec forkCrypto transferGenesis) SparesWindows (@fresh forkCrypto transferGenesis sweepOptions)
      (inserts slowBlocks) ∧
    Run.Meets (@Blockchain.exec forkCrypto transferGenesis) SparesWindows (@fresh forkCrypto transferGenesis forkOptions)
      (inserts reorgBlocks) ∧
    ∃ bc bc', @runNode forkCrypto transferGenesis sweepOptions (inserts slowBlocks) = .ok bc ∧
      @runNode forkCrypto transferGenesis forkOptions (inserts reorgBlocks) = .ok bc' ∧
      (∀ (k : Hash) (s : State) (b : Block), bc.states[k]? = some s → bc.db.blocks[k]? = some b →
        ∃ l, @Chain forkCrypto transferGenesis (b :: l) s.world ∧
          (∀ x ∈ b :: l, x ∈ @offered forkCrypto transferGenesis (inserts (slowBlocks ++ reorgBlocks))) ∧
          @Demands forkCrypto transferGenesis bc b l) ∧
      ∀ (k : Hash) (s s' : State) (b b' : Block), bc.states[k]? = some s → bc.db.blocks[k]? = some b →
        bc'.states[k]? = some s' → bc'.db.blocks[k]? = some b' →
        b' = b ∧ (@requiredDifficulty forkCrypto bc' b.header).1 = (@requiredDifficulty forkCrypto bc b.header).1 := by
  have hvalid := transferGenesis_valid
  have hfree : @HashesDiffer forkCrypto (· ∈ @offered forkCrypto transferGenesis (inserts (slowBlocks ++ reorgBlocks))) := by
    decide +kernel
  have hheights : ∀ b ∈ @offered forkCrypto transferGenesis (inserts (slowBlocks ++ reorgBlocks)), b.height.toNat < 2 ^ 63 := by
    decide +kernel
  have hspares : Run.Meets (@Blockchain.exec forkCrypto transferGenesis) SparesWindows
      (@fresh forkCrypto transferGenesis sweepOptions) (inserts slowBlocks) := by decide +kernel
  have hspares' : Run.Meets (@Blockchain.exec forkCrypto transferGenesis) SparesWindows
      (@fresh forkCrypto transferGenesis forkOptions) (inserts reorgBlocks) := by decide +kernel
  exact ⟨hvalid, hfree, hheights, hspares, hspares',
    @required_difficulty_of_ancestry forkCrypto _ hvalid sweepOptions forkOptions slowBlocks reorgBlocks hfree hheights hspares
      hspares'⟩

/-! The second block of the right branch is in memory when the sweep at height 3 deletes the first one. Its real ancestry
demands more than the genesis difficulty that is asked for then. -/

def sweptRun : List (WireBlock × Int64) :=
  [(transferBlock.toWire, 1000000), (forkRight1.toWire, 1000000), (forkLeft2.toWire, 1000000), (forkRight2.toWire, 1000000),
    (forkLeft3.toWire, 1000000)]

omit [Crypto] in
theorem sweep_breaks_window : @Genesis.validate transferGenesis = .ok () ∧
    @HashesDiffer forkCrypto (· ∈ @offered forkCrypto transferGenesis (inserts sweptRun)) ∧
    forkRight2.header.parentHash = @Block.hash forkCrypto forkRight1 ∧
    forkRight1.header.parentHash = @Block.hash forkCrypto (@Genesis.block forkCrypto transferGenesis) ∧
    @ancestryDifficulty forkCrypto transferGenesis forkRight2 [forkRight1, @Genesis.block forkCrypto transferGenesis] = 14 ∧
    (@runNode forkCrypto transferGenesis sweepOptions (inserts sweptRun)).map (fun bc =>
      ((bc.states[@Block.hash forkCrypto forkRight2]?).isSome, bc.db.blocks[@Block.hash forkCrypto forkRight2]?,
        bc.db.blocks[@Block.hash forkCrypto forkRight1]?, (@requiredDifficulty forkCrypto bc forkRight2.header).1)) =
      .ok (true, some forkRight2, none, 1) := by
  refine ⟨?_, ?_, ?_, ?_, ?_, ?_⟩ <;> decide +kernel

end Blockchain

end Lxs
