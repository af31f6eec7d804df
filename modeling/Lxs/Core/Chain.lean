import Lxs.Core.Node

/-!
# Chains of valid blocks

What a block is worth without any node: a chain is a list of blocks, the newest first, down to the genesis, each of them
valid on the world the one before leaves. A chain determines the world after it (`Chain.unique`), its tip the rest of it
if no two blocks share a hash (`Chain.tail_unique`), and heights count its blocks.
-/

set_option linter.unusedSectionVars false

namespace Lxs

open Std Lib

variable [Crypto] {g : Genesis} {b p : Block} {l : List Block} {v w : World}

theorem State.root_congr {s t : State} (h : s.world = t.world) : s.root = t.root := by
  have ha : s.accounts = t.accounts := congrArg World.accounts h
  have hb : s.burned = t.burned := congrArg World.burned h
  unfold State.root
  rw [ha, hb]

theorem Genesis.burned_state (g : Genesis) : g.state.burned = 0 := by
  have hcredits : ∀ (alloc : List (Address × Option ℤ)) (s : State),
      (alloc.foldl (fun s kv => s.credit kv.1 (kv.2.getD 0)) s).burned = s.burned := by
    intro alloc
    induction alloc with
    | nil => exact fun _ => rfl
    | cons kv alloc ih => exact fun s => (ih _).trans (State.burned_credit ..)
  exact hcredits _ State.new

/-- The block `b` is valid on `p`, after which the world is `v`, and leaves the world `w`. -/
structure Follows (g : Genesis) (b p : Block) (v w : World) : Prop where
  sane : ∀ tx ∈ b.txs, tx.sanityCheck g.chainID = .ok ()
  applied : ∃ s t receipts, s.world = v ∧ t.world = w ∧ Applied g.treasury s b p.header t receipts

namespace Follows

theorem header (h : Follows g b p v w) : HeaderOk b.header p.header := by
  obtain ⟨s, t, receipts, -, -, happ⟩ := h.applied
  exact happ.header

theorem of_state (h : Follows g b p v w) {s : State} (hs : s.world = v) :
    ∃ t receipts, t.world = w ∧ Applied g.treasury s b p.header t receipts := by
  obtain ⟨s₀, t₀, receipts, hs₀, ht₀, happ⟩ := h.applied
  have hrel := applyBlock_world g.treasury b (some p.header) (hs₀.trans hs.symm)
  rw [applyBlock_ok_iff.2 happ] at hrel
  generalize hx : applyBlock g.treasury s b (some p.header) = x at hrel
  cases hrel with
  | @ok _ t _ hw => exact ⟨t, receipts, hw.symm.trans ht₀, applyBlock_ok_iff.1 hx⟩

theorem unique (h : Follows g b p v w) {w' : World} (h' : Follows g b p v w') : w = w' := by
  obtain ⟨s, t, receipts, hs, ht, happ⟩ := h.applied
  obtain ⟨t', receipts', ht', happ'⟩ := h'.of_state hs
  have heq := (applyBlock_ok_iff.2 happ).symm.trans (applyBlock_ok_iff.2 happ')
  cases heq
  exact ht.symm.trans ht'

end Follows

/-- The blocks of a chain, the newest first, and the world after them. -/
inductive Chain (g : Genesis) : List Block → World → Prop
  | genesis : Chain g [g.block] g.state.world
  | block {b p : Block} {l : List Block} {v w : World} : Chain g (p :: l) v → Follows g b p v w → Chain g (b :: p :: l) w

def HashesDiffer (B : Block → Prop) : Prop := ∀ x y, B x → B y → x.hash = y.hash → x = y

namespace Chain

theorem ne_nil (h : Chain g l w) : l ≠ [] := by
  cases h <;> exact List.cons_ne_nil _ _

theorem exists_chainFrom (h : Chain g (b :: l) w) : ∃ s, s.world = w ∧ ChainFrom g s b.header := by
  induction l generalizing b w with
  | nil =>
    cases h
    exact ⟨g.state, rfl, .genesis⟩
  | cons p l ih =>
    cases h with
    | block hp hb =>
      obtain ⟨s, hs, hfrom⟩ := ih hp
      obtain ⟨t, receipts, ht, happ⟩ := hb.of_state hs
      exact ⟨t, ht, .block hfrom hb.sane (applyBlock_ok_iff.2 happ)⟩

theorem height_succ (h : Chain g (b :: p :: l) w) : b.height.toNat = p.height.toNat + 1 := by
  cases h with
  | block hp hb =>
    obtain ⟨s, -, hfrom⟩ := hp.exists_chainFrom
    exact hfrom.height_succ hb.header

theorem height_eq (h : Chain g (b :: l) w) : b.height.toNat = l.length := by
  induction l generalizing b w with
  | nil =>
    cases h
    rfl
  | cons p l ih =>
    have hsucc := h.height_succ
    cases h with
    | block hp _ => rw [hsucc, ih hp, List.length_cons]

theorem parentHash (h : Chain g (b :: p :: l) w) : b.header.parentHash = p.hash := by
  cases h with
  | block _ hb => exact hb.header.parentHash

theorem lower (pre : List Block) (h : Chain g (pre ++ b :: l) w) : ∃ v, Chain g (b :: l) v := by
  induction pre generalizing w with
  | nil => exact ⟨w, h⟩
  | cons x pre ih =>
    rw [List.cons_append] at h
    generalize hrest : pre ++ b :: l = rest at h
    cases h with
    | genesis =>
      cases pre <;> cases hrest
    | block hp _ =>
      rw [← hrest] at hp
      exact ih hp

theorem of_suffix {m : List Block} (h : Chain g l w) (hm : b :: m <:+ l) : ∃ v, Chain g (b :: m) v := by
  obtain ⟨pre, rfl⟩ := hm
  exact h.lower pre

theorem genesis_mem (h : Chain g l w) : g.block ∈ l := by
  induction h with
  | genesis => exact List.mem_singleton_self _
  | block _ _ ih => exact List.mem_cons_of_mem _ ih

theorem height_lt (h : Chain g (b :: l) w) : ∀ x ∈ l, x.height.toNat < b.height.toNat := by
  intro x hx
  obtain ⟨pre, post, rfl⟩ := List.append_of_mem hx
  obtain ⟨v, hv⟩ := lower (b :: pre) h
  rw [h.height_eq, hv.height_eq]
  simp only [List.length_append, List.length_cons]
  omega

theorem exists_height (h : Chain g (b :: l) w) {n : ℕ} (hn : n ≤ b.height.toNat) : ∃ x ∈ b :: l, x.height.toNat = n := by
  induction l generalizing b w with
  | nil =>
    cases h
    exact ⟨g.block, List.mem_singleton_self _, (Nat.le_zero.1 hn).symm⟩
  | cons p l ih =>
    have hsucc := h.height_succ
    rcases Nat.lt_or_ge p.height.toNat n with hlt | hle
    · exact ⟨b, List.mem_cons_self .., by omega⟩
    · cases h with
      | block hp _ =>
        obtain ⟨x, hx, hxn⟩ := ih hp hle
        exact ⟨x, List.mem_cons_of_mem _ hx, hxn⟩

theorem unique (h : Chain g l w) {w' : World} (h' : Chain g l w') : w = w' := by
  induction h generalizing w' with
  | genesis =>
    cases h'
    rfl
  | block _ hb ih =>
    cases h' with
    | block hp' hb' =>
      obtain rfl := ih hp'
      exact hb.unique hb'

/-- **A block determines the chain below it**, if no two blocks share a hash. -/
theorem tail_unique {B : Block → Prop} (hB : HashesDiffer B) (h : Chain g (b :: l) w) {l' : List Block} {w' : World}
    (h' : Chain g (b :: l') w') (hl : ∀ x ∈ l, B x) (hl' : ∀ x ∈ l', B x) : l = l' := by
  have hlen : l.length = l'.length := h.height_eq.symm.trans h'.height_eq
  induction l generalizing b w w' l' with
  | nil => exact (List.length_eq_zero_iff.1 hlen.symm).symm
  | cons p l ih =>
    cases l' with
    | nil => cases hlen
    | cons p' l' =>
      have hhash : p.hash = p'.hash := h.parentHash.symm.trans h'.parentHash
      obtain rfl := hB p p' (hl p (List.mem_cons_self ..)) (hl' p' (List.mem_cons_self ..)) hhash
      cases h with
      | block hp _ =>
        cases h' with
        | block hp' _ =>
          rw [ih hp hp' (fun x hx => hl x (List.mem_cons_of_mem _ hx)) (fun x hx => hl' x (List.mem_cons_of_mem _ hx))
            (Nat.succ.inj hlen)]

theorem ancestry {B : Block → Prop} (hB : HashesDiffer B) {db : Database}
    (hdb : ∀ (k : Hash) (x : Block), db.blocks[k]? = some x → x.hash = k ∧ B x) (h : Chain g l w) (hl : ∀ x ∈ l, B x) :
    Blockchain.Ancestry g db l := by
  induction h with
  | genesis => exact .genesis
  | @block b p l v w hp hb ih =>
    have hsucc := (Chain.block hp hb).height_succ
    refine .block (ih fun x hx => hl x (List.mem_cons_of_mem _ hx)) hb.header.parentHash hsucc fun q hq => ?_
    obtain ⟨hhash, hq⟩ := hdb p.hash q hq
    exact hB q p hq (hl p (by simp)) hhash

theorem root_eq (h : Chain g (b :: l) w) {s : State} (hs : s.world = w) : s.root = b.header.stateRoot := by
  cases h with
  | genesis => exact State.root_congr hs
  | block _ hb =>
    obtain ⟨_, t, _, -, ht, happ⟩ := hb.applied
    rw [← happ.stateRoot]
    exact State.root_congr (hs.trans ht.symm)

theorem burned_nonneg (h : Chain g l w) : 0 ≤ w.burned := by
  induction h with
  | genesis =>
    exact g.burned_state.ge
  | block _ hb ih =>
    obtain ⟨s, t, receipts, rfl, rfl, happ⟩ := hb.applied
    exact ih.trans (happ.writes hb.sane).2.1

end Chain

end Lxs
