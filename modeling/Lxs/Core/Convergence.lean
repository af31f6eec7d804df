import Lxs.Core.Validity

/-!
# Convergence

Fork choice as a matter of the blocks alone. A node whose blocks are all within the retention sweeps nothing (`Unswept`),
so every valid block that it is offered after its parent is stored, if the states of its branch are in memory. Then the
head is the heaviest block that was offered, whatever the order. Without restarts the states are always there; a restart
forgets those of the branches that lost.

* `Blockchain.fork_choice_order_free` — **the head does not depend on the order of arrival**;
* `Blockchain.restart_keeps_fork_choice` — nor on restarts, as long as the states that a block needs are in memory;
* `Blockchain.restart_strands_branch` — a branch that lost before a restart cannot win after it.
-/

set_option linter.unusedSectionVars false

namespace Lxs

open Std Lib

variable [Crypto] {g : Genesis} {B : Block → Prop}

namespace Blockchain

variable {bc bc' : Blockchain}

/-! ### Nodes that sweep nothing -/

theorem prune_of_low (h : bc.head.height ≤ bc.retention) : bc.prune true = bc := by
  unfold prune
  rw [if_pos h]

/-- A node that has swept nothing: its blocks are within the retention, each with its whole chain on disk. -/
structure Unswept (g : Genesis) (B : Block → Prop) (bc : Blockchain) : Prop where
  node : Node g B bc
  low : ∀ b, B b → b.height ≤ bc.retention
  closed : ∀ (k : Hash) (b : Block), bc.db.blocks[k]? = some b → ∃ l w, Chain g (b :: l) w ∧ Stored bc.db (b :: l)

/-- The states that the block of an operation needs are in memory: that of its parent, and those below the blocks that it
would adopt. -/
def StatesHeld (bc : Blockchain) : Op → Prop
  | .insert w _ => bc.db.blocks[w.header.hash]? = none → (bc.states[w.header.parentHash]?).isSome ∧
      ∀ x ∈ sideBranch bc.db w.header.height.toNat w.header.parentHash, (bc.states[x.header.parentHash]?).isSome
  | .reopen _ => True

instance (bc : Blockchain) : (op : Op) → Decidable (bc.StatesHeld op)
  | .insert w _ => inferInstanceAs (Decidable (bc.db.blocks[w.header.hash]? = none → (bc.states[w.header.parentHash]?).isSome ∧
      ∀ x ∈ sideBranch bc.db w.header.height.toNat w.header.parentHash, (bc.states[x.header.parentHash]?).isSome))
  | .reopen _ => isTrue trivial

theorem known_of_toWire {b : Block} (hb : B b) : ∀ x, b.toWire.block? = some x → x.verifyTxRoot = true → B x := by
  intro x hx _
  rw [block?_toWire] at hx
  cases hx
  exact hb

namespace Unswept

/-- **What an insertion adds**: nothing if it fails, and otherwise one block and its state. -/
theorem insert_cases (h : Unswept g B bc) (hB : HashesDiffer B) (w : WireBlock) (nowMs : Int64)
    (hw : ∀ b, w.block? = some b → b.verifyTxRoot = true → B b) :
    (∃ e, (bc.insert w nowMs).1 = .error e ∧ Cached bc (bc.insert w nowMs).2) ∨
      ∃ b r p l c bc₁, w.block? = some b ∧ (bc.insert w nowMs).1 = .ok r ∧ Cached bc bc₁ ∧ Grown g B bc₁ b p l c ∧
        (bc.insert w nowMs).2.db.blocks = (storeBlock bc₁.db b c).blocks ∧
        (bc.insert w nowMs).2.states = bc₁.states.insert b.hash c.state := by
  obtain ⟨bc₁, hc, ⟨e, he⟩ | ⟨b, r, hwb, hr, ho⟩⟩ := h.node.tree.inserted_cases hB w nowMs hw
  · rw [he]
    exact .inl ⟨e, rfl, hc⟩
  refine .inr ⟨b, r, ?_⟩
  generalize (bc.insert w nowMs).2 = bc₂ at ho
  cases ho with
  | @side p l c hgrown _ => exact ⟨p, l, c, bc₁, hwb, hr, hc, hgrown, rfl, rfl⟩
  | @moved p l c dropped added fork unwind apply hgrown _ _ hm =>
    have hlow : b.height ≤ bc₁.retention := hc.retention ▸ h.low b (hgrown.known b List.mem_cons_self)
    rw [prune_of_low (show (bc₁.moved b c unwind apply).head.height ≤ (bc₁.moved b c unwind apply).retention from hlow)]
    exact ⟨p, l, c, bc₁, hwb, hr, hc, hgrown, (Tree.blocks_moved hm).blocks, rfl⟩

theorem grows (h : Unswept g B bc) (hB : HashesDiffer B) (w : WireBlock) (nowMs : Int64)
    (hw : ∀ b, w.block? = some b → b.verifyTxRoot = true → B b) {x : Block}
    (hx : bc.db.blocks[x.hash]? = some x) : (bc.insert w nowMs).2.db.blocks[x.hash]? = some x := by
  rcases h.insert_cases hB w nowMs hw with ⟨e, -, hc⟩ | ⟨b, r, p, l, c, bc₁, -, -, hc, hgrown, hblocks, -⟩
  · rwa [hc.db]
  · rw [hblocks]
    exact hgrown.accepted.stored (by rwa [hc.db])

theorem insert (h : Unswept g B bc) (hB : HashesDiffer B) (w : WireBlock) (nowMs : Int64)
    (hw : ∀ b, w.block? = some b → b.verifyTxRoot = true → B b) : Unswept g B (bc.insert w nowMs).2 where
  node := h.node.insert hB w nowMs hw
  low := by
    rw [retention_insert h.node.tree.ready.coherent]
    exact h.low
  closed k x hx := by
    have hkeep : ∀ {l : List Block}, Stored bc.db l → Stored (bc.insert w nowMs).2.db l :=
      fun hl y hy => h.grows hB w nowMs hw (hl y hy)
    rcases h.insert_cases hB w nowMs hw with ⟨e, -, hc⟩ | ⟨b, r, p, l, c, bc₁, -, -, hc, hgrown, hblocks, -⟩
    · rw [hc.db] at hx
      obtain ⟨l, v, hv, hl⟩ := h.closed k x hx
      exact ⟨l, v, hv, hkeep hl⟩
    rw [hblocks, getElem?_storeBlock, hc.db] at hx
    split at hx
    · -- the block itself, on the chain of its parent
      cases hx
      have hp := hgrown.accepted.parent
      rw [hc.db] at hp
      obtain ⟨l', v, hv, hl'⟩ := h.closed _ p hp
      cases hgrown.chain with
      | block hchain hfollows =>
        obtain rfl : l' = l := by
          refine hv.tail_unique hB hchain (fun y hy => ?_) fun y hy => hgrown.known y (by simp [hy])
          exact (h.node.tree.known_of_stored (hl' y (List.mem_cons_of_mem _ hy))).2
        refine ⟨_, _, .block hchain hfollows, fun y hy => ?_⟩
        rcases List.mem_cons.1 hy with rfl | hy
        · rw [hblocks, getElem?_storeBlock, if_pos rfl]
        · exact hkeep hl' y hy
    · obtain ⟨l', v, hv, hl'⟩ := h.closed k x hx
      exact ⟨l', v, hv, hkeep hl'⟩

theorem stored_chain (h : Unswept g B bc) (hB : HashesDiffer B) {p : Block} {m : List Block} {w : World}
    (hchain : Chain g (p :: m) w) (hknown : ∀ x ∈ p :: m, B x) (hp : bc.db.blocks[p.hash]? = some p) : Stored bc.db (p :: m) := by
  obtain ⟨l, v, hv, hl⟩ := h.closed _ p hp
  obtain rfl := hv.tail_unique hB hchain (fun y hy => (h.node.tree.known_of_stored (hl y (List.mem_cons_of_mem _ hy))).2)
    fun y hy => hknown y (List.mem_cons_of_mem _ hy)
  exact hl

end Unswept

theorem Node.off_above (h : Node g B bc) (hB : HashesDiffer B) {pre post : List Block} {x : Block} {w : World}
    (hchain : Chain g (pre ++ x :: post) w) (hknown : ∀ y ∈ pre ++ x :: post, B y)
    (hoff : bc.db.canonical[x.height]? ≠ some x.hash) : ∀ z ∈ pre ++ [x], bc.db.canonical[z.height]? ≠ some z.hash := by
  intro z hz hcan
  rcases List.mem_append.1 hz with hz | hz
  · obtain ⟨l, hcanon⟩ := h.tree.canon
    obtain ⟨v, hv⟩ := hcanon.chain
    obtain ⟨hi, lo, rfl⟩ := List.append_of_mem hz
    rw [List.append_assoc, List.cons_append] at hchain hknown
    obtain ⟨u, hu⟩ := hchain.lower hi
    have hzl : z ∈ l := by
      by_contra hzl
      exact h.off_table hB hcanon (hknown z (by simp)) hzl hcan
    obtain ⟨hi', lo', rfl⟩ := List.append_of_mem hzl
    obtain ⟨u', hu'⟩ := hv.lower hi'
    have htail := hu.tail_unique hB hu' (fun y hy => hknown y (by simp [hy]))
      fun y hy => h.tree.known_of_canonical hcanon y (by simp [hy])
    refine hoff ((hcanon.table _ _).2 ⟨x, ?_, rfl, rfl⟩)
    rw [← htail]
    simp
  · exact hoff (List.mem_singleton.1 hz ▸ hcan)

namespace Unswept

theorem unbroken (h : Unswept g B bc) (hB : HashesDiffer B) {b p : Block} {m : List Block} (hvalid : Valid g (b :: p :: m))
    (hknown : ∀ x ∈ b :: p :: m, B x) (hst : Stored bc.db (p :: m)) {nowMs : Int64} (hnew : bc.db.blocks[b.hash]? = none)
    (hheld : bc.StatesHeld (.insert b.toWire nowMs)) : Unbroken bc (p :: m) := by
  rintro x y n ⟨pre, hpre⟩ hoff -
  obtain ⟨w, hw⟩ := hvalid.chain
  have hheight := hw.height_eq
  have hparent := hw.parentHash
  obtain ⟨v, hv⟩ := hw.lower [b]
  have hsplit : p :: m = (pre ++ [x]) ++ y :: n := by rw [← hpre]; simp
  have hside : x ∈ sideBranch bc.db b.header.height.toNat p.hash := by
    refine mem_sideBranch hsplit hv (fun z hz => hst z (hsplit ▸ List.mem_append_left _ hz))
      (h.node.off_above hB (hpre ▸ hv) (fun z hz => hknown z ?_) hoff) ?_ x (by simp)
    · exact List.mem_cons_of_mem _ (hpre ▸ hz)
    · have hlen := congrArg List.length hsplit
      rw [List.length_append] at hlen
      have : b.header.height.toNat = (p :: m).length := hheight
      omega
  have hy := (hheld hnew).2 x (by rw [← hparent] at hside; exact hside)
  obtain ⟨u, hu⟩ := (hpre ▸ hv).lower pre
  rwa [hu.parentHash] at hy

/-- **A valid block is stored once its parent is**, if the states it needs are in memory. -/
theorem stores (h : Unswept g B bc) (hB : HashesDiffer B) {b p : Block} {m : List Block} (hvalid : Valid g (b :: p :: m))
    (hknown : ∀ x ∈ b :: p :: m, B x) (hp : bc.db.blocks[p.hash]? = some p) {nowMs : Int64}
    (htimely : b.header.timestamp ≤ nowMs + maxFutureDriftMs) (hheld : bc.StatesHeld (.insert b.toWire nowMs)) :
    (bc.insert b.toWire nowMs).2.db.blocks[b.hash]? = some b := by
  have hbB := hknown b List.mem_cons_self
  have hw := known_of_toWire hbB
  cases hnew : bc.db.blocks[b.hash]? with
  | some x =>
    obtain ⟨hhash, hxB⟩ := h.node.tree.known_of_stored hnew
    obtain rfl := hB x b hxB hbB hhash
    exact h.grows hB _ nowMs hw hnew
  | none =>
    obtain ⟨w, hchain⟩ := hvalid.chain
    obtain ⟨v, hv⟩ := hchain.lower [b]
    have hst := h.stored_chain hB hv (fun x hx => hknown x (List.mem_cons_of_mem _ hx)) hp
    have hs : (bc.states[p.hash]?).isSome := hchain.parentHash ▸ (hheld hnew).1
    obtain ⟨l, hcanon⟩ := h.node.tree.canon
    obtain ⟨u, hu⟩ := hcanon.chain
    have hlow : bc.head.height.toNat ≤ bc.retention.toNat :=
      UInt64.le_iff_toNat_le.1 (h.low _ (h.node.tree.known_of_stored h.node.tree.ready.stored).2)
    obtain ⟨r, hr⟩ := h.node.insert_ok hB ⟨hvalid, hknown, hst⟩ (h.unbroken hB hvalid hknown hst hnew hheld) hnew htimely hs
      hv.genesis_mem ((hcanon.table _ _).2 ⟨_, hu.genesis_mem, rfl, rfl⟩) (hlow.trans (Nat.le_add_left _ _))
    rcases h.insert_cases hB b.toWire nowMs hw with ⟨e, he, -⟩ | ⟨b', r', q, l, c, bc₁, hb', -, -, -, hblocks, -⟩
    · rw [hr] at he
      cases he
    · rw [block?_toWire] at hb'
      cases hb'
      rw [hblocks, getElem?_storeBlock, if_pos rfl]

theorem of_fresh (hg : g.validate = .ok ()) (hB : B g.block) {opts : Options} (hlow : ∀ b, B b → b.height ≤ (fresh g opts).retention) :
    Unswept g B (fresh g opts) where
  node := Node.of_fresh hg hB opts
  low := hlow
  closed k b hb := by
    obtain ⟨-, rfl⟩ := blocks_fresh hb
    exact ⟨[], _, .genesis, (canonical_fresh g opts).stored⟩

theorem reopen (h : Unswept g B bc) (hsynced : Synced g B bc) (hg : g.validate = .ok ()) {opts : Options}
    (hlow : ∀ b, B b → b.height ≤ (fresh g opts).retention) :
    ∃ bc', newBlockchain bc.db g opts = .ok bc' ∧ bc'.db = bc.db ∧ Synced g B bc' ∧ Unswept g B bc' := by
  obtain ⟨bc', hok, hdb, hsynced', hnode'⟩ := h.node.reopen hsynced hg opts
  refine ⟨bc', hok, hdb, hsynced', hnode', ?_, ?_⟩
  · obtain ⟨head, -, -, -, rfl⟩ := newBlockchain_ok h.node.tree.ready.headHash hok
    rw [(rebuildWindow_rebuilt _ _ _ _).rest]
    exact hlow
  · rw [hdb]
    exact h.closed

end Unswept

/-! ### The heaviest block -/

/-- A block with its ancestry among the blocks `S` and the genesis, all valid, and the work of it all. -/
def HasWork (g : Genesis) (S : List Block) (b : Block) (t : ℕ) : Prop :=
  ∃ l, Valid g (b :: l) ∧ (∀ x ∈ b :: l, x ∈ g.block :: S) ∧ work (b :: l) = t

/-- The block with the most work, and among those with equal work the one with the smallest hash. -/
def Heaviest (g : Genesis) (S : List Block) (h : Block) : Prop :=
  ∃ t, HasWork g S h t ∧ ∀ b u, HasWork g S b u → b ≠ h → u < t ∨ u = t ∧ h.hash.toNat < b.hash.toNat

variable {S : List Block}

theorem Heaviest.unique {x y : Block} (hx : Heaviest g S x) (hy : Heaviest g S y) : x = y := by
  obtain ⟨t, hxt, hxbest⟩ := hx
  obtain ⟨u, hyu, hybest⟩ := hy
  by_contra hne
  have hxy := hxbest y u hyu (Ne.symm hne)
  have hyx := hybest x t hxt hne
  omega

theorem hasWork_genesis : ∃ t, HasWork g S g.block t :=
  ⟨_, [], .genesis, fun _ hx => List.mem_singleton.1 hx ▸ List.mem_cons_self, rfl⟩

/-- **The head is the heaviest block** of a set that is stored. -/
theorem Unswept.heaviest (h : Unswept g (· ∈ g.block :: S) bc) (hB : HashesDiffer (· ∈ g.block :: S))
    (hclosed : ∀ b ∈ S, ∃ t, HasWork g S b t) (hall : ∀ b ∈ S, bc.db.blocks[b.hash]? = some b) : Heaviest g S bc.head := by
  have hstored : ∀ b ∈ g.block :: S, bc.db.blocks[b.hash]? = some b := by
    intro b hb
    rcases List.mem_cons.1 hb with rfl | hb
    · obtain ⟨l, hcanon⟩ := h.node.tree.canon
      obtain ⟨w, hw⟩ := hcanon.chain
      exact hcanon.stored _ hw.genesis_mem
    · exact hall b hb
  have htd : ∀ {b u}, HasWork g S b u → bc.db.tds[b.hash]? = some u := by
    rintro b u ⟨l, hvalid, hl, rfl⟩
    obtain ⟨w, hw⟩ := hvalid.chain
    exact h.node.totals _ b l w (hstored b (hl b List.mem_cons_self)) hw hl
  have hhead : bc.head ∈ g.block :: S := (h.node.tree.known_of_stored h.node.tree.ready.stored).2
  obtain ⟨t, ht⟩ : ∃ t, HasWork g S bc.head t := by
    rcases List.mem_cons.1 hhead with heq | hmem
    · exact heq ▸ hasWork_genesis
    · exact hclosed _ hmem
  refine ⟨t, ht, fun b u hu hne => ?_⟩
  have hb : b ∈ g.block :: S := by
    obtain ⟨l, -, hl, -⟩ := hu
    exact hl b List.mem_cons_self
  have hbest := not_better_iff.1 (h.node.weighed.best _ b u t (hstored b hb) (htd hu) (htd ht))
  have hhash : bc.head.hash.toNat ≠ b.hash.toNat :=
    fun heq => hne (hB b bc.head hb hhead (BitVec.eq_of_toNat_eq heq.symm))
  have hle : u < t ∨ u = t ∧ bc.head.hash.toNat ≤ b.hash.toNat := hbest
  omega

/-! ### Deliveries -/

/-- A run that offers every block of `S`, each after its parent and not before the clock has reached it, any number of
times. -/
structure Delivers (g : Genesis) (S : List Block) (ops : List Op) : Prop where
  offers : ∀ w nowMs, .insert w nowMs ∈ ops → ∃ b ∈ S, w = b.toWire ∧ b.header.timestamp ≤ nowMs + maxFutureDriftMs
  all : ∀ b ∈ S, ∃ nowMs, .insert b.toWire nowMs ∈ ops
  parents : ∀ (past : List Op) (b : Block) (nowMs : Int64) (rest : List Op), past ++ .insert b.toWire nowMs :: rest = ops → b = g.block ∨
    b.header.parentHash = g.block.hash ∨ ∃ (p : Block) (t : Int64), .insert p.toWire t ∈ past ∧ b.header.parentHash = p.hash

def parentsFirst : List Hash → List Op → Bool
  | _, [] => true
  | known, .insert w _ :: ops => known.contains w.header.parentHash && parentsFirst (w.header.hash :: known) ops
  | known, .reopen _ :: ops => parentsFirst known ops

theorem parentsFirst_split {w : WireBlock} {nowMs : Int64} {rest : List Op} : ∀ {past : List Op} {known : List Hash},
    parentsFirst known (past ++ .insert w nowMs :: rest) = true →
      w.header.parentHash ∈ known ∨ ∃ v t, .insert v t ∈ past ∧ w.header.parentHash = v.header.hash
  | [], known, h => by
    simp only [List.nil_append, parentsFirst, Bool.and_eq_true, List.contains_iff_mem] at h
    exact .inl h.1
  | .insert v t :: past, known, h => by
    simp only [List.cons_append, parentsFirst, Bool.and_eq_true] at h
    rcases parentsFirst_split h.2 with hmem | ⟨u, t', hu, heq⟩
    · rcases List.mem_cons.1 hmem with heq | hmem
      · exact .inr ⟨v, t, List.mem_cons_self, heq⟩
      · exact .inl hmem
    · exact .inr ⟨u, t', List.mem_cons_of_mem _ hu, heq⟩
  | .reopen o :: past, known, h => by
    have h : parentsFirst known (past ++ .insert w nowMs :: rest) = true := h
    rcases parentsFirst_split h with hmem | ⟨u, t', hu, heq⟩
    · exact .inl hmem
    · exact .inr ⟨u, t', List.mem_cons_of_mem _ hu, heq⟩

def delivers (g : Genesis) (S : List Block) (ops : List Op) : Bool :=
  (ops.all fun
    | .insert w nowMs => S.any fun b => w = b.toWire && b.header.timestamp ≤ nowMs + maxFutureDriftMs
    | .reopen _ => true) &&
  (S.all fun b => ops.any fun
    | .insert w _ => w = b.toWire
    | .reopen _ => false) &&
  parentsFirst [g.block.hash] ops

theorem delivers_sound {ops : List Op} (h : delivers g S ops = true) : Delivers g S ops := by
  simp only [delivers, Bool.and_eq_true, List.all_eq_true] at h
  obtain ⟨⟨hoffers, hall⟩, hparents⟩ := h
  have hoffers' : ∀ w nowMs, .insert w nowMs ∈ ops → ∃ b ∈ S, w = b.toWire ∧ b.header.timestamp ≤ nowMs + maxFutureDriftMs := by
    intro w nowMs hop
    simpa using hoffers _ hop
  refine ⟨hoffers', fun b hb => ?_, fun past b nowMs rest heq => .inr ?_⟩
  · obtain ⟨op, hop, hb⟩ := List.any_eq_true.1 (hall b hb)
    cases op with
    | insert w nowMs =>
      obtain rfl : w = b.toWire := by simpa using hb
      exact ⟨nowMs, hop⟩
    | reopen o => cases hb
  · rw [← heq] at hparents hoffers'
    rcases parentsFirst_split hparents with hmem | ⟨v, t, hv, hp⟩
    · exact .inl (List.mem_singleton.1 hmem)
    · obtain ⟨p, -, rfl, -⟩ := hoffers' v t (List.mem_append_left _ hv)
      exact .inr ⟨p, t, hv, hp⟩

/-- What a node holds after the operations `past`. -/
structure Delivered (g : Genesis) (S : List Block) (past : List Op) (bc : Blockchain) : Prop where
  synced : Synced g (· ∈ g.block :: S) bc
  unswept : Unswept g (· ∈ g.block :: S) bc
  stored : ∀ (b : Block) (nowMs : Int64), .insert b.toWire nowMs ∈ past → bc.db.blocks[b.hash]? = some b

section Deliveries

variable (hB : HashesDiffer (· ∈ g.block :: S)) (hclosed : ∀ b ∈ S, ∃ t, HasWork g S b t) {ops : List Op}
include hB hclosed

theorem Delivered.genesis_stored {past : List Op} (h : Delivered g S past bc) : bc.db.blocks[g.block.hash]? = some g.block := by
  obtain ⟨l, hcanon⟩ := h.unswept.node.tree.canon
  obtain ⟨w, hw⟩ := hcanon.chain
  exact hcanon.stored _ hw.genesis_mem

theorem Delivered.parent (h : Delivers g S ops) {past rest : List Op} (hd : Delivered g S past bc) {b : Block} {nowMs : Int64}
    (heq : past ++ .insert b.toWire nowMs :: rest = ops) (hb : b ∈ S) : b = g.block ∨ ∃ p m, Valid g (b :: p :: m) ∧
      (∀ x ∈ b :: p :: m, x ∈ g.block :: S) ∧ bc.db.blocks[p.hash]? = some p := by
  obtain ⟨t, l, hvalid, hl, -⟩ := hclosed b hb
  obtain ⟨w, hw⟩ := hvalid.chain
  cases l with
  | nil =>
    cases hw
    exact .inl rfl
  | cons p m =>
    rcases h.parents past b nowMs rest heq with rfl | hp | ⟨q, u, hq, hp⟩
    · exact .inl rfl
    all_goals
      refine .inr ⟨p, m, hvalid, hl, ?_⟩
      rw [hw.parentHash] at hp
      have hpS := hl p (by simp)
    · rw [hB p g.block hpS List.mem_cons_self hp]
      exact hd.genesis_stored hB hclosed
    · have hst := hd.stored q u hq
      rw [hB p q hpS (hd.unswept.node.tree.known_of_stored hst).2 hp]
      exact hst

theorem Delivered.insert (h : Delivers g S ops) {past rest : List Op} (hd : Delivered g S past bc) {w : WireBlock} {nowMs : Int64}
    (heq : past ++ .insert w nowMs :: rest = ops) (hfresh : bc.AdoptsFresh (.insert w nowMs))
    (hheld : bc.StatesHeld (.insert w nowMs)) : Delivered g S (past ++ [.insert w nowMs]) (bc.insert w nowMs).2 := by
  obtain ⟨b, hb, rfl, htimely⟩ := h.offers w nowMs (heq ▸ by simp)
  have hw : ∀ x, b.toWire.block? = some x → x.verifyTxRoot = true → x ∈ g.block :: S :=
    known_of_toWire (List.mem_cons_of_mem _ hb)
  have hnew : (bc.insert b.toWire nowMs).2.db.blocks[b.hash]? = some b := by
    rcases hd.parent hB hclosed h heq hb with rfl | ⟨p, m, hvalid, hl, hp⟩
    · exact hd.unswept.grows hB _ nowMs hw (hd.genesis_stored hB hclosed)
    · exact hd.unswept.stores hB hvalid hl hp htimely hheld
  refine ⟨hd.synced.insert hB _ nowMs hw hfresh, hd.unswept.insert hB _ nowMs hw, fun x t hx => ?_⟩
  rcases List.mem_append.1 hx with hx | hx
  · exact hd.unswept.grows hB _ nowMs hw (hd.stored x t hx)
  · have hwire := (Op.insert.inj (List.mem_singleton.1 hx)).1
    have := congrArg WireBlock.block? hwire
    rw [block?_toWire, block?_toWire] at this
    obtain rfl := Option.some.inj this
    exact hnew

theorem Delivered.heaviest (h : Delivers g S ops) (hd : Delivered g S ops bc) : Heaviest g S bc.head := by
  refine hd.unswept.heaviest hB hclosed fun b hb => ?_
  obtain ⟨nowMs, hop⟩ := h.all b hb
  exact hd.stored b nowMs hop

end Deliveries

/-! ### Without restarts -/

def Remembers (bc : Blockchain) : Prop := ∀ (k : Hash) (b : Block), bc.db.blocks[k]? = some b → (bc.states[k]?).isSome

theorem Remembers.insert (hrem : Remembers bc) (h : Unswept g B bc) (hB : HashesDiffer B) (w : WireBlock) (nowMs : Int64)
    (hw : ∀ b, w.block? = some b → b.verifyTxRoot = true → B b) : Remembers (bc.insert w nowMs).2 := by
  intro k x hx
  rcases h.insert_cases hB w nowMs hw with ⟨e, -, hc⟩ | ⟨b, r, p, l, c, bc₁, -, -, hc, -, hblocks, hstates⟩
  · rw [hc.db] at hx
    rw [hc.states]
    exact hrem k x hx
  · rw [hblocks, getElem?_storeBlock, hc.db] at hx
    rw [hstates, getElem?_insert_hash, hc.states]
    split
    · rfl
    · rename_i hne
      rw [if_neg hne] at hx
      exact hrem k x hx

theorem Remembers.statesHeld (hrem : Remembers bc) (h : Unswept g B bc) {b p : Block} {m : List Block}
    (hvalid : Valid g (b :: p :: m)) (hp : bc.db.blocks[p.hash]? = some p) (nowMs : Int64) :
    bc.StatesHeld (.insert b.toWire nowMs) := by
  intro _
  obtain ⟨u, hu⟩ := hvalid.chain
  refine ⟨?_, fun x hx => ?_⟩
  · rw [show b.toWire.header.parentHash = p.hash from hu.parentHash]
    exact hrem _ p hp
  obtain ⟨k, hk, hoff⟩ := of_mem_sideBranch hx
  obtain rfl := h.node.tree.ready.coherent.hash k x hk
  obtain ⟨l, v, hv, hl⟩ := h.closed _ x hk
  cases l with
  | nil =>
    -- the genesis is canonical
    cases hv
    obtain ⟨m, hcanon⟩ := h.node.tree.canon
    obtain ⟨u, hu⟩ := hcanon.chain
    exact absurd ((hcanon.table _ _).2 ⟨_, hu.genesis_mem, rfl, rfl⟩) hoff
  | cons y l =>
    rw [hv.parentHash]
    exact hrem _ y (hl y (by simp))

/-- A node that was never restarted and has swept nothing: the disk is right, and every stored block has the state that its
execution left. -/
structure Whole (g : Genesis) (B : Block → Prop) (bc : Blockchain) : Prop where
  synced : Synced g B bc
  unswept : Unswept g B bc
  unrestored : Unrestored g bc
  remembers : Remembers bc

namespace Whole

theorem of_fresh (hg : g.validate = .ok ()) (hB : B g.block) {opts : Options} (hlow : ∀ b, B b → b.height ≤ (fresh g opts).retention) :
    Whole g B (fresh g opts) where
  synced := synced_fresh hg hB opts
  unswept := .of_fresh hg hB hlow
  unrestored _ _ hs := .inl (states_fresh hs).1.symm
  remembers k b hb := by
    obtain ⟨rfl, rfl⟩ := blocks_fresh hb
    show ((ExtTreeMap.insert (∅ : ExtTreeMap Hash State) g.block.hash g.state.clearTouched)[g.block.hash]?).isSome
    simp

theorem insert (h : Whole g B bc) (hB : HashesDiffer B) (w : WireBlock) (nowMs : Int64)
    (hw : ∀ b, w.block? = some b → b.verifyTxRoot = true → B b) : Whole g B (bc.insert w nowMs).2 where
  synced := h.synced.insert hB w nowMs hw (h.unrestored.adoptsFresh h.synced.tree w nowMs)
  unswept := h.unswept.insert hB w nowMs hw
  unrestored := h.unrestored.insert h.synced.tree hB w nowMs hw
  remembers := h.remembers.insert h.unswept hB w nowMs hw

end Whole

theorem low_of_set {r : UInt64} (hlow : ∀ b ∈ S, b.height ≤ r) : ∀ b, b ∈ g.block :: S → b.height ≤ r := by
  intro b hb
  rcases List.mem_cons.1 hb with rfl | hb
  · exact UInt64.le_iff_toNat_le.2 (Nat.zero_le _)
  · exact hlow b hb

theorem delivered_fresh (hg : g.validate = .ok ()) {opts : Options} (hlow : ∀ b ∈ S, b.height ≤ (fresh g opts).retention) :
    Delivered g S [] (fresh g opts) :=
  ⟨synced_fresh hg List.mem_cons_self opts, .of_fresh hg List.mem_cons_self (low_of_set hlow), fun _ _ h => by cases h⟩

section Runs

variable (hB : HashesDiffer (· ∈ g.block :: S)) (hclosed : ∀ b ∈ S, ∃ t, HasWork g S b t) {ops : List Op}
include hB hclosed

theorem heaviest_of_inserts (hg : g.validate = .ok ()) {opts : Options} (hlow : ∀ b ∈ S, b.height ≤ (fresh g opts).retention) (h : Delivers g S ops)
    (hins : ∀ o, .reopen o ∉ ops) : ∃ bc, runNode g opts ops = .ok bc ∧ Heaviest g S bc.head := by
  rw [runNode_eq hg]
  have hstart : Delivered g S [] (fresh g opts) ∧ Whole g (· ∈ g.block :: S) (fresh g opts) :=
    ⟨delivered_fresh hg hlow, .of_fresh hg List.mem_cons_self (low_of_set hlow)⟩
  have hstep : ∀ past op rest bc, past ++ op :: rest = ops → (Delivered g S past bc ∧ Whole g (· ∈ g.block :: S) bc) → True →
      ∃ bc', bc.exec g op = .ok bc' ∧ Delivered g S (past ++ [op]) bc' ∧ Whole g (· ∈ g.block :: S) bc' := by
    rintro past op rest bc heq ⟨hd, hwhole⟩ -
    cases op with
    | reopen o => exact absurd (by rw [← heq]; simp) (hins o)
    | insert w nowMs =>
      obtain ⟨b, hb, rfl, -⟩ := h.offers w nowMs (heq ▸ by simp)
      have hheld : bc.StatesHeld (.insert b.toWire nowMs) := by
        rcases hd.parent hB hclosed h heq hb with rfl | ⟨p, m, hvalid, -, hp⟩
        · intro hnew
          exact absurd ((hd.genesis_stored hB hclosed).symm.trans hnew) (by simp)
        · exact hwhole.remembers.statesHeld hd.unswept hvalid hp nowMs
      exact ⟨_, rfl, hd.insert hB hclosed h heq (hwhole.unrestored.adoptsFresh hd.synced.tree _ _) hheld,
        hwhole.insert hB _ nowMs (known_of_toWire (List.mem_cons_of_mem _ hb))⟩
  obtain ⟨bc, hrun, hd, -⟩ := Run.run_induction_at hstep (Run.meets_of_forall (fun _ _ => trivial) _ _) hstart
  exact ⟨bc, hrun, hd.heaviest hB hclosed h⟩

theorem heaviest_of_run (hg : g.validate = .ok ()) {opts : Options} (hlow : ∀ b ∈ S, b.height ≤ (fresh g opts).retention)
    (hlow' : ∀ o, .reopen o ∈ ops → ∀ b ∈ S, b.height ≤ (fresh g o).retention) (h : Delivers g S ops)
    (hmeets : Run.Meets (Blockchain.exec g) (fun bc op => bc.AdoptsFresh op ∧ bc.StatesHeld op) (fresh g opts) ops) :
    ∃ bc, runNode g opts ops = .ok bc ∧ Heaviest g S bc.head := by
  rw [runNode_eq hg]
  have hstep : ∀ past op rest bc, past ++ op :: rest = ops → Delivered g S past bc → bc.AdoptsFresh op ∧ bc.StatesHeld op →
      ∃ bc', bc.exec g op = .ok bc' ∧ Delivered g S (past ++ [op]) bc' := by
    rintro past op rest bc heq hd ⟨hfresh, hheld⟩
    cases op with
    | insert w nowMs => exact ⟨_, rfl, hd.insert hB hclosed h heq hfresh hheld⟩
    | reopen o =>
      obtain ⟨bc', hok, hdb, hsynced, hunswept⟩ := hd.unswept.reopen hd.synced hg (low_of_set (hlow' o (heq ▸ by simp)))
      refine ⟨bc', hok, hsynced, hunswept, fun b t hb => ?_⟩
      rw [hdb]
      refine hd.stored b t ((List.mem_append.1 hb).resolve_right fun hlast => ?_)
      cases List.mem_singleton.1 hlast
  obtain ⟨bc, hrun, hd⟩ := Run.run_induction_at hstep hmeets (delivered_fresh hg hlow)
  exact ⟨bc, hrun, hd.heaviest hB hclosed h⟩

end Runs

/-- **Fork choice does not depend on the order of arrival.** Two runs without restarts that offer the same valid blocks,
each after its parent, any number of times, end with the same head, and it is the one heaviest block of the set. -/
theorem fork_choice_order_free (hg : g.validate = .ok ()) (hB : HashesDiffer (· ∈ g.block :: S))
    (hclosed : ∀ b ∈ S, ∃ t, HasWork g S b t) {opts opts' : Options} {ops ops' : List Op}
    (hlow : ∀ b ∈ S, b.height ≤ (fresh g opts).retention) (hlow' : ∀ b ∈ S, b.height ≤ (fresh g opts').retention)
    (h : Delivers g S ops) (h' : Delivers g S ops') (hins : ∀ o, .reopen o ∉ ops) (hins' : ∀ o, .reopen o ∉ ops') :
    ∃ bc bc', runNode g opts ops = .ok bc ∧ runNode g opts' ops' = .ok bc' ∧ bc.head = bc'.head ∧ Heaviest g S bc.head ∧
      ∀ x, Heaviest g S x → x = bc.head := by
  obtain ⟨bc, hrun, hbest⟩ := heaviest_of_inserts hB hclosed hg hlow h hins
  obtain ⟨bc', hrun', hbest'⟩ := heaviest_of_inserts hB hclosed hg hlow' h' hins'
  exact ⟨bc, bc', hrun, hrun', hbest.unique hbest', hbest, fun x hx => hx.unique hbest⟩

def forkSet : List Block := [transferBlock, forkRight1, forkRight2]

omit [Crypto] in
theorem hasWork_forkSet : ∀ b ∈ forkSet, ∃ t, @HasWork forkCrypto transferGenesis forkSet b t := by
  intro b hb
  let gen := @Genesis.block forkCrypto transferGenesis
  have hleft : (@validState forkCrypto transferGenesis [transferBlock, gen]).isSome := by decide +kernel
  have hright : (@validState forkCrypto transferGenesis [forkRight2, forkRight1, gen]).isSome := by decide +kernel
  have hright := @valid_of_isSome forkCrypto _ _ hright
  rcases List.mem_cons.1 hb with rfl | hb
  · exact ⟨_, [gen], @valid_of_isSome forkCrypto _ _ hleft, by decide +kernel, rfl⟩
  rcases List.mem_cons.1 hb with rfl | hb
  · exact ⟨_, [gen], @Valid.of_suffix forkCrypto _ _ _ _ hright (List.suffix_cons ..), by decide +kernel, rfl⟩
  · obtain rfl := List.mem_singleton.1 hb
    exact ⟨_, [forkRight1, gen], hright, by decide +kernel, rfl⟩

omit [Crypto] in
theorem hashesDiffer_forkSet : @HashesDiffer forkCrypto (· ∈ @Genesis.block forkCrypto transferGenesis :: forkSet) := by
  decide +kernel

omit [Crypto] in
theorem delivers_forkSet : @Delivers forkCrypto transferGenesis forkSet (forkSet.map offer) :=
  @delivers_sound forkCrypto _ _ _ (by decide +kernel)

def forkRun : List Op := [offer forkRight1, offer forkRight2, offer transferBlock, offer forkRight1]

omit [Crypto] in
theorem fork_choice_order_free_two : ∃ bc bc', @runNode forkCrypto transferGenesis forkOptions (forkSet.map offer) = .ok bc ∧
    @runNode forkCrypto transferGenesis ⟨2, 1⟩ forkRun = .ok bc' ∧ bc.head = bc'.head ∧
    @Heaviest forkCrypto transferGenesis forkSet bc.head ∧ ∀ x, @Heaviest forkCrypto transferGenesis forkSet x → x = bc.head := by
  have hvalid := transferGenesis_valid
  have hdel := @delivers_sound forkCrypto transferGenesis forkSet forkRun (by decide +kernel)
  have hins : ∀ o, .reopen o ∉ forkSet.map offer := by
    intro o ho
    obtain ⟨b, -, hb⟩ := List.mem_map.1 ho
    cases hb
  have hins' : ∀ o, .reopen o ∉ forkRun := by simp [forkRun, offer]
  exact @fork_choice_order_free forkCrypto _ _ hvalid hashesDiffer_forkSet hasWork_forkSet forkOptions ⟨2, 1⟩ _ _
    (by decide +kernel) (by decide +kernel) delivers_forkSet hdel hins hins'

/-- **Restarts do not change fork choice as long as the states are there.** A run with restarts, in which no restored state
is adopted and every new block finds the states it needs in memory, ends with the heaviest block as its head, as every run
without restarts does. -/
theorem restart_keeps_fork_choice (hg : g.validate = .ok ()) (hB : HashesDiffer (· ∈ g.block :: S))
    (hclosed : ∀ b ∈ S, ∃ t, HasWork g S b t) {opts : Options} {ops : List Op}
    (hlow : ∀ b ∈ S, b.height ≤ (fresh g opts).retention)
    (hlow' : ∀ o, .reopen o ∈ ops → ∀ b ∈ S, b.height ≤ (fresh g o).retention) (h : Delivers g S ops)
    (hmeets : Run.Meets (Blockchain.exec g) (fun bc op => bc.AdoptsFresh op ∧ bc.StatesHeld op) (fresh g opts) ops) :
    ∃ bc, runNode g opts ops = .ok bc ∧ Heaviest g S bc.head ∧ ∀ (opts' : Options) (ops' : List Op),
      (∀ b ∈ S, b.height ≤ (fresh g opts').retention) → Delivers g S ops' → (∀ o, .reopen o ∉ ops') →
        ∃ bc', runNode g opts' ops' = .ok bc' ∧ bc.head = bc'.head := by
  obtain ⟨bc, hrun, hbest⟩ := heaviest_of_run hB hclosed hg hlow hlow' h hmeets
  refine ⟨bc, hrun, hbest, fun opts' ops' hlow'' h'' hins => ?_⟩
  obtain ⟨bc', hrun', hbest'⟩ := heaviest_of_inserts hB hclosed hg hlow'' h'' hins
  exact ⟨bc', hrun', hbest.unique hbest'⟩

/-- The right branch comes after the first restart and is canonical at the second. -/
def restartRun : List Op :=
  [offer transferBlock, .reopen forkOptions] ++ forkSet.map offer ++ [.reopen forkOptions] ++ forkSet.map offer

omit [Crypto] in
theorem restart_keeps_fork_choice_twice : Run.Meets (@Blockchain.exec forkCrypto transferGenesis)
      (fun bc op => @AdoptsFresh forkCrypto bc op ∧ @StatesHeld forkCrypto bc op) (@fresh forkCrypto transferGenesis forkOptions)
      restartRun ∧
    ∃ bc, @runNode forkCrypto transferGenesis forkOptions restartRun = .ok bc ∧
      @Heaviest forkCrypto transferGenesis forkSet bc.head ∧ ∀ (opts' : Options) (ops' : List Op),
        (∀ b ∈ forkSet, b.height ≤ (@fresh forkCrypto transferGenesis opts').retention) →
          @Delivers forkCrypto transferGenesis forkSet ops' → (∀ o, .reopen o ∉ ops') →
            ∃ bc', @runNode forkCrypto transferGenesis opts' ops' = .ok bc' ∧ bc.head = bc'.head := by
  have hvalid := transferGenesis_valid
  have hdel := @delivers_sound forkCrypto transferGenesis forkSet restartRun (by decide +kernel)
  have hmeets : Run.Meets (@Blockchain.exec forkCrypto transferGenesis)
      (fun bc op => @AdoptsFresh forkCrypto bc op ∧ @StatesHeld forkCrypto bc op) (@fresh forkCrypto transferGenesis forkOptions)
      restartRun := by decide +kernel
  have hlow : ∀ b ∈ forkSet, b.height ≤ (@fresh forkCrypto transferGenesis forkOptions).retention := by decide +kernel
  have hlow' : ∀ o, .reopen o ∈ restartRun → ∀ b ∈ forkSet, b.height ≤ (@fresh forkCrypto transferGenesis o).retention := by
    intro o ho
    obtain rfl : o = forkOptions := by simpa [restartRun, forkSet, offer] using ho
    exact hlow
  exact ⟨hmeets, @restart_keeps_fork_choice forkCrypto _ _ hvalid hashesDiffer_forkSet hasWork_forkSet _ _ hlow hlow' hdel hmeets⟩

/-- The left branch wins before the restart, and the right one has more work after it. -/
def strandedRun : List Op :=
  [offer transferBlock, offer forkRight1, .reopen forkOptions] ++ forkSet.map offer

omit [Crypto] in
/-- **A branch that lost before a restart cannot win after it.** The block `forkRight1` is on disk without its state: it is
refused as known, and its child for want of the state of its parent. -/
theorem restart_strands_branch : @Delivers forkCrypto transferGenesis forkSet strandedRun ∧
    @Delivers forkCrypto transferGenesis forkSet (forkSet.map offer) ∧
    (@runNode forkCrypto transferGenesis forkOptions strandedRun).map Blockchain.head = .ok transferBlock ∧
    (@runNode forkCrypto transferGenesis forkOptions (forkSet.map offer)).map Blockchain.head = .ok forkRight2 ∧
    (@runNode forkCrypto transferGenesis forkOptions strandedRun).map (fun bc =>
      (@Blockchain.insert forkCrypto bc forkRight2.toWire 1000000).1) = .ok (.error (.reorgTooDeep (@Block.hash forkCrypto forkRight1))) := by
  obtain ⟨bc, hrun, hstranded⟩ := Run.exists_of_map
    (show (@runNode forkCrypto transferGenesis forkOptions strandedRun).map (fun bc =>
      (bc.head, (@Blockchain.insert forkCrypto bc forkRight2.toWire 1000000).1)) =
      .ok (transferBlock, .error (.reorgTooDeep (@Block.hash forkCrypto forkRight1))) by decide +kernel)
  obtain ⟨hhead, hrefused⟩ := Prod.mk.inj hstranded
  rw [hrun]
  exact ⟨@delivers_sound forkCrypto _ _ _ (by decide +kernel), delivers_forkSet, congrArg _ hhead, by decide +kernel,
    congrArg _ hrefused⟩

end Blockchain

end Lxs
