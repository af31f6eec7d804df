import Lxs.Core.Consistency

/-!
# The branches of a fork

`findFork` walks down from two blocks until they meet. In a tree of stored blocks with one genesis it always ends, at the
lowest common ancestor, with the two branches above it. The blocks a node stores form such a tree
(`Tree.blockTree`).

* `findFork_branches` — **the fork search returns the exact branches**.
-/

set_option linter.unusedSectionVars false

namespace Lxs

open Std Lib

variable [Crypto] {g : Genesis} {B : Block → Prop}

namespace Blockchain

variable {bc : Blockchain} {db : Database} {a b c : Block} {l l' : List Block}

/-- A tree of stored blocks with one genesis: heights count from it. -/
structure BlockTree (g : Genesis) (db : Database) : Prop where
  height : ∀ {k : Hash} {b p : Block}, db.blocks[k]? = some b → db.blocks[b.header.parentHash]? = some p → b.height ≠ 0 →
    b.height.toNat = p.height.toNat + 1
  genesis : ∀ {k : Hash} {b : Block}, db.blocks[k]? = some b → b.height = 0 → b = g.block

/-- The ancestors of a block, the parent first, all of them stored. -/
inductive Ancestors (db : Database) : Block → List Block → Prop
  | genesis {b : Block} : b.height = 0 → Ancestors db b []
  | parent {b p : Block} {l : List Block} : b.height ≠ 0 → db.blocks[b.header.parentHash]? = some p → Ancestors db p l →
      Ancestors db b (p :: l)

namespace Ancestors

theorem unique (h : Ancestors db b l) (h' : Ancestors db b l') : l = l' := by
  induction h generalizing l' with
  | genesis h0 =>
    cases h' with
    | genesis => rfl
    | parent h0' _ _ => exact absurd h0 h0'
  | parent h0 hp _ ih =>
    cases h' with
    | genesis h0' => exact absurd h0' h0
    | parent _ hp' hl' =>
      obtain rfl := Option.some.inj (hp.symm.trans hp')
      rw [ih hl']

theorem rest (h : Ancestors db b l) {pre post : List Block} (hl : b :: l = pre ++ c :: post) : Ancestors db c post := by
  induction h generalizing pre with
  | genesis h0 =>
    cases pre with
    | nil => cases hl; exact .genesis h0
    | cons _ pre => simp at hl
  | parent h0 hp hrest ih =>
    cases pre with
    | nil => cases hl; exact .parent h0 hp hrest
    | cons _ pre => exact ih (List.cons.inj hl).2

theorem stored (h : Ancestors db b l) (hhash : ∀ (k : Hash) (x : Block), db.blocks[k]? = some x → x.hash = k) :
    Stored db l := by
  induction h with
  | genesis => exact fun _ hx => absurd hx List.not_mem_nil
  | parent _ hp _ ih =>
    intro x hx
    rcases List.mem_cons.1 hx with rfl | hx
    · rwa [hhash _ _ hp]
    · exact ih x hx

theorem ancestry (h : Ancestors db b l) (htree : BlockTree g db)
    (hhash : ∀ (k : Hash) (x : Block), db.blocks[k]? = some x → x.hash = k) {k : Hash} (hb : db.blocks[k]? = some b) :
    Ancestry g db (b :: l) := by
  induction h generalizing k with
  | genesis h0 =>
    obtain rfl := htree.genesis hb h0
    exact .genesis
  | parent h0 hp _ ih =>
    refine .block (ih hp) (hhash _ _ hp).symm (htree.height hb hp h0) fun q hq => ?_
    rw [hhash _ _ hp, hp] at hq
    exact (Option.some.inj hq).symm

end Ancestors

theorem Tree.blockTree (h : Tree g B bc) (hB : HashesDiffer B) : BlockTree g bc.db := by
  constructor
  · intro k b p hb hp h0
    obtain ⟨l, w, hchain, hl⟩ := h.known k b hb
    obtain ⟨hhash, hpB⟩ := h.known_of_stored hp
    cases hchain with
    | genesis => exact absurd rfl h0
    | @block _ p' m _ _ hp' hnext =>
      obtain rfl := hB p' p (hl p' (by simp)) hpB (hnext.header.parentHash.symm.trans hhash.symm)
      exact (Chain.block hp' hnext).height_succ
  · intro k b hb h0
    obtain ⟨l, w, hchain, -⟩ := h.known k b hb
    cases hchain with
    | genesis => rfl
    | block hp hnext =>
      have hsucc := (Chain.block hp hnext).height_succ
      rw [h0] at hsucc
      exact absurd hsucc.symm (Nat.succ_ne_zero _)

/-- **The fork search returns the exact branches.** In a tree of stored blocks, the search from two of them whose ancestors
are stored ends; both branches lead, oldest first, from one block up to the two, and every block the two ancestries share
is that block or below it. Nothing but the cache changes. -/
theorem findFork_branches {la lb : List Block} (hc : Coherent bc) (htree : BlockTree g bc.db)
    (hsa : bc.db.blocks[a.hash]? = some a) (hsb : bc.db.blocks[b.hash]? = some b) (ha : Ancestors bc.db a la)
    (hb : Ancestors bc.db b lb) :
    ∃ r bc' c post, bc.findFork a b = (.ok r, bc') ∧ Cached bc bc' ∧ r.commonAncestor = c.hash ∧
      a :: la = r.dropped.reverse ++ c :: post ∧ b :: lb = r.added.reverse ++ c :: post ∧
      ∀ x ∈ a :: la, x ∈ b :: lb → x ∈ c :: post := by
  obtain ⟨r, bc', hr, hcached, hok, hdone⟩ := findFork_spec hc (ha.ancestry htree hc.hash hsa) (hb.ancestry htree hc.hash hsb)
  obtain ⟨r, rfl⟩ := hdone (ha.stored hc.hash) (hb.stored hc.hash)
  obtain ⟨c, c', post, post', hforks⟩ := hok r rfl
  -- one hash names one stored block, and one block has one ancestry
  have hstored : ∀ {x y : Block} {m : List Block}, bc.db.blocks[y.hash]? = some y → Ancestors bc.db y m → x ∈ y :: m →
      bc.db.blocks[x.hash]? = some x := by
    intro x y m hy hm hx
    rcases List.mem_cons.1 hx with rfl | hx
    · exact hy
    · exact hm.stored hc.hash x hx
  have hca : bc.db.blocks[c.hash]? = some c := hstored hsa ha (by rw [hforks.dropped]; simp)
  have hcb : bc.db.blocks[c'.hash]? = some c' := hstored hsb hb (by rw [hforks.added]; simp)
  rw [hforks.hash] at hca
  obtain rfl := Option.some.inj (hca.symm.trans hcb)
  obtain rfl := (ha.rest hforks.dropped).unique (hb.rest hforks.added)
  refine ⟨r, bc', c, post, hr, hcached, hforks.ancestor, hforks.dropped, hforks.added, fun x hx hx' => ?_⟩
  rw [hforks.added] at hx'
  rcases List.mem_append.1 hx' with hx' | hx'
  · exact absurd hx (hforks.off x (List.mem_reverse.1 hx'))
  · exact hx'

omit [Crypto] in
/-- Two branches of unequal length above the genesis. -/
theorem findFork_branches_reorg : ∃ bc r bc' c post, @runNode forkCrypto transferGenesis forkOptions reorgRun = .ok bc ∧
    @findFork forkCrypto bc forkRight2 transferBlock = (.ok r, bc') ∧ r.commonAncestor = @Block.hash forkCrypto c ∧
    [forkRight2, forkRight1, @Genesis.block forkCrypto transferGenesis] = r.dropped.reverse ++ c :: post ∧
    [transferBlock, @Genesis.block forkCrypto transferGenesis] = r.added.reverse ++ c :: post := by
  have hvalid := transferGenesis_valid
  have hfree := reorgRun_hashesDiffer
  have hfresh := reorgRun_adoptsFresh
  have hblocks : (@runNode forkCrypto transferGenesis forkOptions reorgRun).map (fun bc =>
      [forkRight2, forkRight1, transferBlock, @Genesis.block forkCrypto transferGenesis].map fun x =>
        bc.db.blocks[@Block.hash forkCrypto x]?) =
      .ok [some forkRight2, some forkRight1, some transferBlock, some (@Genesis.block forkCrypto transferGenesis)] := by
    decide +kernel
  obtain ⟨bc, hrun, hsynced⟩ := @synced_of_run forkCrypto _ hvalid _ _ hfree hfresh
  rw [hrun] at hblocks
  obtain ⟨hright2, hblocks⟩ := List.cons.inj (Except.ok.inj hblocks)
  obtain ⟨hright1, hblocks⟩ := List.cons.inj hblocks
  obtain ⟨hleft, hblocks⟩ := List.cons.inj hblocks
  have hgenesis := (List.cons.inj hblocks).1
  have hlink : forkRight2.header.parentHash = @Block.hash forkCrypto forkRight1 := by decide +kernel
  have hroot : forkRight1.header.parentHash = @Block.hash forkCrypto (@Genesis.block forkCrypto transferGenesis) ∧
      transferBlock.header.parentHash = @Block.hash forkCrypto (@Genesis.block forkCrypto transferGenesis) := by
    decide +kernel
  have htree := @Synced.tree forkCrypto _ _ _ hsynced
  have hright : Ancestors bc.db forkRight2 [forkRight1, @Genesis.block forkCrypto transferGenesis] :=
    .parent (by decide) (hlink ▸ hright1) (.parent (by decide) (hroot.1 ▸ hgenesis) (.genesis rfl))
  have hother : Ancestors bc.db transferBlock [@Genesis.block forkCrypto transferGenesis] :=
    .parent (by decide) (hroot.2 ▸ hgenesis) (.genesis rfl)
  obtain ⟨r, bc', c, post, hr, -, hancestor, hdropped, hadded, -⟩ := @findFork_branches forkCrypto _ _ _ _ _ _
    (@Ready.coherent forkCrypto _ _ (@Tree.ready forkCrypto _ _ _ htree)) (@Tree.blockTree forkCrypto _ _ _ htree hfree)
    hright2 hleft hright hother
  exact ⟨bc, r, bc', c, post, hrun, hr, hancestor, hdropped, hadded⟩

end Blockchain

end Lxs
