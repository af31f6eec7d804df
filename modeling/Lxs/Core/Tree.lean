import Lxs.Core.Chain

/-!
# The block tree of a node

Every stored block is the tip of a chain of known blocks, every state in memory is the world after its chain, and the
canonical table names the chain of the head (`Tree`). `Tree.inserted` says once what an insertion does to a tree: it
refuses the block, stores it beside the canonical chain, or unwinds the canonical chain to a fork and adopts the blocks
of the new branch. Moving the head is a loop that unwinds and a loop that adopts; `unwind_induction` and
`adopt_induction` are their rules.
-/

set_option linter.unusedSectionVars false

namespace Lxs

open Std Lib

variable [Crypto] {g : Genesis} {B : Block → Prop}

/-! ### Moving the head -/

namespace Database

/-- The database once the canonical block `b` is unwound by its reverse diff. -/
def unwound (db : Database) (b : Block) (d : StoredDiff) : Database :=
  { db with
    accounts := FinMap.putAll db.accounts (d.entries.map fun e => (e.address, e.account))
    txIndex := FinMap.putAll db.txIndex (b.txs.map fun tx => (tx.hash, none))
    canonical := FinMap.put db.canonical b.height none }

/-- The database once `b`, with the states after and before it, is canonical. -/
def adopted (db : Database) (b : Block) (st prev : State) : Database :=
  { db with
    accounts := FinMap.putAll db.accounts
      (st.touchedList.map fun a => (a, if st.exists a then some (st.get a) else none))
    revDiffs := FinMap.put db.revDiffs b.hash (some (reverseDiff st prev st.touchedList))
    canonical := FinMap.put db.canonical b.height (some b.hash)
    txIndex := FinMap.putAll db.txIndex
      (b.txs.zipIdx.map fun x => (x.1.hash, some ⟨b.hash, b.height, UInt64.ofNat x.2⟩)) }

end Database

theorem commit_canonicalWrites (db : Database) (b : Block) (st prev : State) :
    db.commit (Blockchain.canonicalWrites b st prev) = db.adopted b st prev := by
  unfold Blockchain.canonicalWrites writeAccountChanges indexTxs accountWrite
  rw [Database.commit_append, Database.commit_append, Database.commit_append, Database.commit_account,
    Database.commit_txIndex]
  rfl

theorem commit_unwind (db : Database) (b : Block) (d : StoredDiff) (rest : List Write) :
    db.commit (d.entries.map (fun e => .account e.address e.account) ++ b.txs.map (fun tx => .txIndex tx.hash none) ++
      [.canonical b.height none] ++ rest) = (db.unwound b d).commit rest := by
  rw [Database.commit_append, Database.commit_append, Database.commit_append, Database.commit_account,
    Database.commit_txIndex]
  rfl

/-- **The rule for unwinding**: what holds of the tables for a list of canonical blocks, and is kept when the newest of
them is unwound, holds for what is left. -/
theorem unwind_induction {P : Database → List Block → Prop} {src : Database} {p : Block} {l : List Block} :
    ∀ {dropped : List Block} {ws : List Write} {db : Database},
      (∀ db b p' l' d, b :: p' :: l' <:+ dropped ++ p :: l → src.revDiffs[b.hash]? = some d → P db (b :: p' :: l') →
        P (db.unwound b d) (p' :: l')) →
      Blockchain.unwindWrites src dropped = .ok ws → P db (dropped ++ p :: l) → P (db.commit ws) (p :: l) := by
  intro dropped
  induction dropped with
  | nil =>
    intro ws db _ h hP
    cases h
    exact hP
  | cons b dropped ih =>
    intro ws db hstep h hP
    unfold Blockchain.unwindWrites at h
    cases hu : applyReverseDiff src b.hash with
    | none => rw [hu] at h; cases h
    | some undo =>
      rw [hu] at h
      cases hrest : Blockchain.unwindWrites src dropped with
      | error e => rw [hrest] at h; cases h
      | ok rest =>
        rw [hrest] at h
        cases h
        obtain ⟨d, hd, rfl⟩ := Option.map_eq_some_iff.1 hu
        rw [commit_unwind]
        refine ih (fun db x p' l' d hsuf => hstep db x p' l' d (hsuf.trans (List.suffix_cons ..))) hrest ?_
        obtain ⟨q, m, hq⟩ : ∃ q m, dropped ++ p :: l = q :: m := by cases dropped <;> exact ⟨_, _, rfl⟩
        rw [List.cons_append, hq] at hP hstep
        rw [hq]
        exact hstep db b q m d (List.suffix_refl _) hd hP

/-- **The rule for adopting**: what holds of the tables up to a fork, and is kept when the next block of the branch is
adopted, holds for the whole branch. -/
theorem adopt_induction {P : Database → List Block → Prop} {bc : Blockchain} {newHead : Block} {newState : State} :
    ∀ {added : List Block} {p : Block} {l : List Block} {ws : List Write} {db : Database},
      (∀ db b p' l' st prev, b :: p' :: l' <:+ added.reverse ++ p :: l → b ∈ added →
        bc.branchState newHead newState b = some st → bc.states[b.header.parentHash]? = some prev → P db (p' :: l') →
        P (db.adopted b st prev) (b :: p' :: l')) →
      bc.applyWrites newHead newState added = .ok ws → P db (p :: l) → P (db.commit ws) (added.reverse ++ p :: l) := by
  intro added
  induction added with
  | nil =>
    intro p l ws db _ h hP
    cases h
    exact hP
  | cons b added ih =>
    intro p l ws db hstep h hP
    have hrev : (b :: added).reverse ++ p :: l = added.reverse ++ b :: p :: l := by simp
    unfold Blockchain.applyWrites at h
    split at h
    · cases h
    · rename_i st hst
      split at h
      · cases h
      · rename_i prev hprev
        split at h
        · cases h
        · rename_i rest hrest
          cases h
          rw [hrev] at hstep ⊢
          rw [Database.commit_append, commit_canonicalWrites]
          have hfirst := hstep db b p l st prev (List.suffix_append ..) (List.mem_cons_self ..) hst hprev hP
          exact ih (fun db x p' l' st prev hsuf hx => hstep db x p' l' st prev hsuf (List.mem_cons_of_mem _ hx)) hrest hfirst

/-! ### The canonical table -/

/-- The table names the blocks of a list, and nothing else, by their heights. -/
def CanonicalIs (t : ExtTreeMap UInt64 Hash) (l : List Block) : Prop :=
  ∀ (n : UInt64) (x : Hash), t[n]? = some x ↔ ∃ b ∈ l, b.height = n ∧ b.hash = x

section Table

variable {t : ExtTreeMap UInt64 Hash} {b : Block} {l : List Block}

theorem height_ne_of_lt (hlt : ∀ x ∈ l, x.height.toNat < b.height.toNat) : ∀ x ∈ l, x.height ≠ b.height := by
  intro x hx heq
  have := hlt x hx
  rw [heq] at this
  exact absurd this (Nat.lt_irrefl _)

theorem CanonicalIs.unwind (h : CanonicalIs t (b :: l)) (hlt : ∀ x ∈ l, x.height.toNat < b.height.toNat) :
    CanonicalIs (FinMap.put t b.height none) l := by
  intro n x
  rw [FinMap.getElem?_put]
  split
  · rename_i heq
    refine ⟨(fun hx => by cases hx), ?_⟩
    rintro ⟨y, hy, rfl, -⟩
    exact absurd heq.symm (height_ne_of_lt hlt y hy)
  · rename_i hne
    rw [h n x, List.exists_mem_cons_iff]
    exact or_iff_right fun hb => hne hb.1

theorem CanonicalIs.adopt (h : CanonicalIs t l) (hlt : ∀ x ∈ l, x.height.toNat < b.height.toNat) :
    CanonicalIs (FinMap.put t b.height (some b.hash)) (b :: l) := by
  intro n x
  rw [FinMap.getElem?_put]
  split
  · rename_i heq
    constructor
    · rintro ⟨⟩
      exact ⟨b, List.mem_cons_self .., heq, rfl⟩
    · rintro ⟨y, hy, hn, hx⟩
      rcases List.mem_cons.1 hy with rfl | hy
      · rw [hx]
      · exact absurd (hn.trans heq.symm) (height_ne_of_lt hlt y hy)
  · rename_i hne
    rw [h n x, List.exists_mem_cons_iff]
    exact (or_iff_right fun hb => hne hb.1).symm

end Table

/-! ### Trees -/

/-- The touched accounts of a state cover its difference to a world. -/
def State.Covers (s : State) (v : World) : Prop := ∀ a, a ∉ s.touched → s.accounts[a]? = v.accounts[a]?

namespace Blockchain

variable {bc bc' : Blockchain}

/-- The canonical chain of a node, the head first. -/
structure Canonical (g : Genesis) (bc : Blockchain) (l : List Block) : Prop where
  head : l.head? = some bc.head
  chain : ∃ w, Chain g l w
  stored : Stored bc.db l
  table : CanonicalIs bc.db.canonical l

/-- What a node holds, if no two blocks of `B` share a hash. -/
structure Tree (g : Genesis) (B : Block → Prop) (bc : Blockchain) : Prop where
  ready : Ready g bc
  known : ∀ (h : Hash) (b : Block), bc.db.blocks[h]? = some b → ∃ l w, Chain g (b :: l) w ∧ ∀ x ∈ b :: l, B x
  held : ∀ (h : Hash) (s : State), bc.states[h]? = some s →
    ∃ b l, bc.db.blocks[h]? = some b ∧ Chain g (b :: l) s.world ∧ ∀ x ∈ b :: l, B x
  canon : ∃ l, Canonical g bc l

/-- A block that passed every check, on the chain of its parent. -/
structure Grown (g : Genesis) (B : Block → Prop) (bc : Blockchain) (b p : Block) (l : List Block) (c : Checked) : Prop where
  accepted : Accepted bc b p c
  chain : Chain g (b :: p :: l) c.state.world
  known : ∀ x ∈ b :: p :: l, B x
  covers : ∀ v, Chain g (p :: l) v → c.state.Covers v
  touched : b.header.proposer ∈ c.state.touched

/-- The head moves from the chain `dropped ++ fork` to the chain `added.reverse ++ fork`. -/
structure Moves (g : Genesis) (bc : Blockchain) (b : Block) (c : Checked) (dropped added fork : List Block)
    (unwind apply : List Write) : Prop where
  old : Canonical g bc (dropped ++ fork)
  fork_ne : fork ≠ []
  off : ∀ y ∈ added, y ∉ dropped ++ fork
  deep : dropped.length ≤ bc.retention.toNat
  unwind : unwindWrites bc.db dropped = .ok unwind
  apply : bc.applyWrites b c.state added = .ok apply

def moved (bc : Blockchain) (b : Block) (c : Checked) (unwind apply : List Write) : Blockchain :=
  { bc with
    db := moveHead (((storeBlock bc.db b c).commit unwind).commit apply) b c
    blockCache := bc.blockCache.insert b.hash b
    states := bc.states.insert b.hash c.state
    head := b }

/-- What inserting the block `b` does to a tree, once the blocks it reads are cached. -/
inductive Outcome (g : Genesis) (B : Block → Prop) (bc : Blockchain) (b : Block) : Blockchain → Prop
  | side {p l c} : Grown g B bc b p l c → better ⟨b.header, c.td⟩ ⟨bc.head.header, c.headTD⟩ = false →
      Outcome g B bc b (bc.store b c.receipts c.state c.td)
  | moved {p l c dropped added fork unwind apply} : Grown g B bc b p l c →
      better ⟨b.header, c.td⟩ ⟨bc.head.header, c.headTD⟩ = true → b :: p :: l = added.reverse ++ fork →
      Moves g bc b c dropped added fork unwind apply → Outcome g B bc b ((bc.moved b c unwind apply).prune true)

variable {l : List Block}

theorem Canonical.congr (hl : Canonical g bc l) (hdb : bc'.db = bc.db) (hhead : bc'.head = bc.head) :
    Canonical g bc' l := by
  refine ⟨?_, hl.chain, ?_, ?_⟩
  · rw [hhead]; exact hl.head
  · rw [hdb]; exact hl.stored
  · rw [hdb]; exact hl.table

namespace Tree

theorem cached (h : Tree g B bc) (hc : Cached bc bc') : Tree g B bc' := by
  refine ⟨h.ready.cached hc, ?_, ?_, ?_⟩
  · rw [hc.db]; exact h.known
  · rw [hc.db, hc.states]; exact h.held
  · obtain ⟨l, hl⟩ := h.canon
    exact ⟨l, hl.congr hc.db hc.head⟩

theorem known_of_stored (h : Tree g B bc) {k : Hash} {b : Block} (hb : bc.db.blocks[k]? = some b) : b.hash = k ∧ B b := by
  obtain ⟨l, w, -, hB⟩ := h.known k b hb
  exact ⟨h.ready.coherent.hash k b hb, hB b (List.mem_cons_self ..)⟩

theorem known_of_canonical (h : Tree g B bc) (hl : Canonical g bc l) : ∀ x ∈ l, B x :=
  fun x hx => (h.known_of_stored (hl.stored x hx)).2

theorem canonical_unique (h : Tree g B bc) (hB : HashesDiffer B) {l l' : List Block} (hl : Canonical g bc l)
    (hl' : Canonical g bc l') : l = l' := by
  obtain ⟨m, rfl⟩ : ∃ m, l = bc.head :: m := List.head?_eq_some_iff.1 hl.head
  obtain ⟨m', rfl⟩ : ∃ m', l' = bc.head :: m' := List.head?_eq_some_iff.1 hl'.head
  obtain ⟨w, hw⟩ := hl.chain
  obtain ⟨w', hw'⟩ := hl'.chain
  rw [hw.tail_unique hB hw' (fun x hx => h.known_of_canonical hl x (List.mem_cons_of_mem _ hx))
    fun x hx => h.known_of_canonical hl' x (List.mem_cons_of_mem _ hx)]

theorem state_world (h : Tree g B bc) (hB : HashesDiffer B) {x : Block} {m : List Block} {w : World} {s : State}
    (hs : bc.states[x.hash]? = some s) (hx : Chain g (x :: m) w) (hm : ∀ y ∈ x :: m, B y) : s.world = w := by
  obtain ⟨y, l, hy, hchain, hl⟩ := h.held _ _ hs
  obtain rfl := hB y x (hl y (by simp)) (hm x (by simp)) (h.ready.coherent.hash _ _ hy)
  obtain rfl := hchain.tail_unique hB hx (fun z hz => hl z (by simp [hz])) fun z hz => hm z (by simp [hz])
  exact hchain.unique hx

variable {b p : Block} {c : Checked}

theorem grown (h : Tree g B bc) (hacc : Accepted bc b p c) (hb : B b) :
    ∃ l, Grown g B bc b p l c := by
  obtain ⟨s, hs, happ⟩ := hacc.applied
  obtain ⟨p', l, hp', hchain, hl⟩ := h.held _ _ hs
  have hhash := h.ready.coherent.hash _ _ hacc.parent
  obtain rfl : p = p' := by
    have hp := hacc.parent
    rw [← hhash, hp'] at hp
    exact (Option.some.inj hp).symm
  have hsane := hacc.sane
  rw [h.ready.of.chainID] at hsane
  rw [h.ready.of.treasury] at happ
  obtain ⟨hwrites, -, htouched⟩ := happ.writes hsane
  refine ⟨l, hacc, .block hchain ⟨hsane, s, c.state, c.receipts, rfl, rfl, happ⟩, ?_, fun v hv a ha => ?_, htouched⟩
  · intro x hx
    rcases List.mem_cons.1 hx with rfl | hx
    · exact hb
    · exact hl x hx
  · rw [hv.unique hchain]
    exact readLeaf_injective (hwrites a ha)

theorem outcome_extend (h : Tree g B bc) (hB : HashesDiffer B) {prev : State}
    (hgrown : Grown g B bc b p l c) (hbetter : better ⟨b.header, c.td⟩ ⟨bc.head.header, c.headTD⟩ = true)
    (hparent : b.header.parentHash = bc.head.hash) (hprev : bc.states[b.header.parentHash]? = some prev) :
    Outcome g B bc b (bc.setHead true (extendBatch b c prev) b c.state) := by
  obtain ⟨chain, hcanon⟩ := h.canon
  obtain ⟨old, rfl⟩ : ∃ old, chain = bc.head :: old := List.head?_eq_some_iff.1 hcanon.head
  obtain ⟨w, hw⟩ := hcanon.chain
  -- the parent is the head, and their chains are one
  obtain rfl : p = bc.head := by
    have hp := hgrown.accepted.parent
    rw [hparent, h.ready.stored] at hp
    exact (Option.some.inj hp).symm
  obtain rfl : l = old := by
    cases hgrown.chain with
    | block hp _ =>
      refine hp.tail_unique hB hw (fun x hx => hgrown.known x (by simp [hx])) fun x hx => ?_
      exact h.known_of_canonical hcanon x (List.mem_cons_of_mem _ hx)
  have happly : bc.applyWrites b c.state [b] = .ok (canonicalWrites b c.state prev ++ []) := by
    simp only [applyWrites, branchState, if_true, hprev]
  have hoff : b ∉ bc.head :: l := by
    intro hm
    have hnew := hgrown.accepted.new
    rw [hcanon.stored b hm] at hnew
    cases hnew
  have hmoves : Moves g bc b c [] [b] (bc.head :: l) [] (canonicalWrites b c.state prev ++ []) :=
    ⟨hcanon, List.cons_ne_nil _ _, (fun y hy => by rwa [List.mem_singleton.1 hy]), Nat.zero_le _, rfl, happly⟩
  have hout := Outcome.moved hgrown hbetter rfl hmoves
  unfold Blockchain.moved at hout
  rw [List.append_nil] at hout
  unfold setHead
  rw [commit_extendBatch]
  exact hout

/-- **The fork search in a tree**: the branches it returns meet in one block of the canonical chain, and it ends if the
ancestors of the new block are stored. -/
theorem fork_spec (h : Tree g B bc) (hB : HashesDiffer B) {bc₀ : Blockchain} (hc : Cached bc₀ bc) {b : Block}
    {w : World} (hchain : Chain g (b :: l) w) (hknown : ∀ x ∈ b :: l, B x) : ∃ r bc₁, bc₀.findFork bc.head b = (r, bc₁) ∧
      (∀ x, r = .ok x → ∃ q post, Canonical g bc (x.dropped.reverse ++ q :: post) ∧ b :: l = x.added.reverse ++ q :: post ∧
        ∀ y ∈ x.added, y ∉ x.dropped.reverse ++ q :: post) ∧ (Stored bc.db l → ∃ x, r = .ok x) := by
  obtain ⟨chain, hcanon⟩ := h.canon
  obtain ⟨old, rfl⟩ : ∃ old, chain = bc.head :: old := List.head?_eq_some_iff.1 hcanon.head
  obtain ⟨v, hv⟩ := hcanon.chain
  have hdb : ∀ (k : Hash) (x : Block), bc₀.db.blocks[k]? = some x → x.hash = k ∧ B x := by
    intro k x hx
    rw [← hc.db] at hx
    exact h.known_of_stored hx
  obtain ⟨r, bc₁, hr, -, hok, hdone⟩ := findFork_spec (hc.coherent_before h.ready.coherent)
    (hv.ancestry hB hdb (h.known_of_canonical hcanon)) (hchain.ancestry hB hdb hknown)
  rw [← hc.db] at hdone
  refine ⟨r, bc₁, hr, fun x hx => ?_, hdone fun y hy => hcanon.stored y (List.mem_cons_of_mem _ hy)⟩
  obtain ⟨q, q', post, post', hforks⟩ := hok x hx
  -- the two sides meet in one block with one chain below
  have hq : q ∈ bc.head :: old := by rw [hforks.dropped]; simp
  have hq' : q' ∈ b :: l := by rw [hforks.added]; simp
  obtain rfl := hB q q' (h.known_of_canonical hcanon q hq) (hknown q' hq') hforks.hash
  obtain ⟨v, hv⟩ := Chain.lower x.dropped.reverse (hforks.dropped ▸ hv)
  obtain ⟨v', hv'⟩ := Chain.lower x.added.reverse (hforks.added ▸ hchain)
  obtain rfl : post = post' := by
    refine hv.tail_unique hB hv' (fun x hx => h.known_of_canonical hcanon x ?_) fun x hx => hknown x ?_
    · rw [hforks.dropped]; simp [hx]
    · rw [hforks.added]; simp [hx]
  exact ⟨q, post, hforks.dropped ▸ hcanon, hforks.added, fun y hy => hforks.dropped ▸ hforks.off y hy⟩

theorem outcome_reorg (h : Tree g B bc) (hB : HashesDiffer B)
    (hgrown : Grown g B bc b p l c) (hbetter : better ⟨b.header, c.td⟩ ⟨bc.head.header, c.headTD⟩ = true)
    {bc₀ : Blockchain} {r : Reorg} {unwind apply : List Write} (hc : Cached bc₀ bc)
    (hfork : bc₀.findFork bc.head b = (.ok r, bc)) (hdeep : r.dropped.length ≤ bc.retention.toNat)
    (hunwind : unwindWrites bc.db r.dropped.reverse = .ok unwind) (happly : bc.applyWrites b c.state r.added = .ok apply) :
    Outcome g B bc b (bc.setHead true (reorgBatch b c unwind apply) b c.state) := by
  obtain ⟨r', bc₁, hr', hmeet, -⟩ := h.fork_spec hB hc hgrown.chain hgrown.known
  obtain ⟨rfl, -⟩ := Prod.mk.inj (hr'.symm.trans hfork)
  obtain ⟨q, post, hcanon, hadded, hoff⟩ := hmeet r rfl
  have hout := Outcome.moved hgrown hbetter hadded
    ⟨hcanon, List.cons_ne_nil _ _, hoff, by rwa [List.length_reverse], hunwind, happly⟩
  unfold Blockchain.moved at hout
  unfold setHead
  rw [commit_reorgBatch]
  exact hout

/-- **What an insertion does to a tree**: it fails with an error, or succeeds with one of the outcomes. -/
theorem inserted_cases (h : Tree g B bc) (hB : HashesDiffer B) (w : WireBlock) (nowMs : Int64)
    (hw : ∀ b, w.block? = some b → b.verifyTxRoot = true → B b) :
    ∃ bc', Cached bc bc' ∧ ((∃ e, bc.insert w nowMs = (.error e, bc')) ∨
      ∃ b r, w.block? = some b ∧ (bc.insert w nowMs).1 = .ok r ∧ Outcome g B bc' b (bc.insert w nowMs).2) := by
  obtain ⟨bc', hc, he | ⟨b, p, c, hwb, hacc, hplaced⟩⟩ := insert_cases h.ready.coherent w nowMs
  · exact ⟨bc', hc, .inl he⟩
  have h' := h.cached hc
  obtain ⟨l, hgrown⟩ := h'.grown (hacc.cached hc) (hw b hwb hacc.txRoot)
  generalize bc.insert w nowMs = r at hplaced
  refine ⟨bc', hc, .inr ?_⟩
  cases hplaced with
  | side hbetter => exact ⟨b, _, hwb, rfl, .side hgrown hbetter⟩
  | extend hbetter hparent hprev => exact ⟨b, _, hwb, rfl, h'.outcome_extend hB hgrown hbetter hparent hprev⟩
  | reorg hbetter _ hcache hfork hdeep hunwind happly =>
    exact ⟨b, _, hwb, rfl, h'.outcome_reorg hB hgrown hbetter hcache hfork hdeep hunwind happly⟩

theorem inserted (h : Tree g B bc) (hB : HashesDiffer B) (w : WireBlock) (nowMs : Int64)
    (hw : ∀ b, w.block? = some b → b.verifyTxRoot = true → B b) :
    ∃ bc', Cached bc bc' ∧ ((bc.insert w nowMs).2 = bc' ∨
      ∃ b, w.block? = some b ∧ Outcome g B bc' b (bc.insert w nowMs).2) := by
  obtain ⟨bc', hc, ⟨e, he⟩ | ⟨b, r, hwb, -, ho⟩⟩ := h.inserted_cases hB w nowMs hw
  · exact ⟨bc', hc, .inl (by rw [he])⟩
  · exact ⟨bc', hc, .inr ⟨b, hwb, ho⟩⟩

end Tree

/-! ### Insertions keep a tree -/

variable {c : Checked}

/-- **The rule for moving the head**: what holds of the tables for the old chain, and is kept when a block is unwound and
when a block is adopted, holds for the new chain. -/
theorem Moves.tables {P : Database → List Block → Prop} {b : Block} {new : List Block}
    {dropped added fork : List Block} {unwind apply : List Write} (hm : Moves g bc b c dropped added fork unwind apply)
    (hnew : new = added.reverse ++ fork)
    (hunwind : ∀ db x q m d, x :: q :: m <:+ dropped ++ fork → bc.db.revDiffs[x.hash]? = some d → P db (x :: q :: m) →
      P (db.unwound x d) (q :: m))
    (hadopt : ∀ db x q m st prev, x :: q :: m <:+ new → x ∈ added → bc.branchState b c.state x = some st →
      bc.states[x.header.parentHash]? = some prev → P db (q :: m) → P (db.adopted x st prev) (x :: q :: m))
    (h : P (storeBlock bc.db b c) (dropped ++ fork)) :
    P (((storeBlock bc.db b c).commit unwind).commit apply) new := by
  obtain ⟨q, post, rfl⟩ := List.exists_cons_of_ne_nil hm.fork_ne
  subst hnew
  exact adopt_induction hadopt hm.apply (unwind_induction hunwind hm.unwind h)

theorem branchState_of_applyWrites {newHead : Block} {newState : State} {added : List Block} {ws : List Write}
    (h : bc.applyWrites newHead newState added = .ok ws) : ∀ x ∈ added, ∃ st, bc.branchState newHead newState x = some st := by
  induction added generalizing ws with
  | nil => exact fun _ hx => absurd hx List.not_mem_nil
  | cons b added ih =>
    unfold applyWrites at h
    split at h
    · cases h
    · rename_i st hst
      split at h
      · cases h
      · split at h
        · cases h
        · rename_i hrest
          intro x hx
          rcases List.mem_cons.1 hx with rfl | hx
          · exact ⟨st, hst⟩
          · exact ih hrest x hx

variable {cutoff : UInt64} {gone : Hash → Bool}

theorem Pruned.not_gone (h : Pruned bc bc' cutoff gone)
    (hl : Canonical g bc l) {x : Block} (hx : x ∈ l) : ¬gone x.hash = true := by
  intro hg
  obtain ⟨y, hy, -, -, hcan⟩ := isOrphan_iff.1 (h.gone_orphan _ hg)
  rw [hl.stored x hx] at hy
  cases hy
  exact hcan ((hl.table _ _).2 ⟨x, hx, rfl, rfl⟩)

theorem Canonical.pruned (h : Pruned bc bc' cutoff gone)
    (hl : Canonical g bc l) : Canonical g bc' l := by
  refine ⟨?_, hl.chain, fun x hx => ?_, ?_⟩
  · rw [h.rest]; exact hl.head
  · rw [h.blocks, if_neg (h.not_gone hl hx), hl.stored x hx]
  · rw [h.db]; exact hl.table

theorem Pruned.stored_of_state (h : Pruned bc bc' cutoff gone) (hc : Coherent bc)
    {k : Hash} {s : State} (hs : bc'.states[k]? = some s) : bc'.db.blocks[k]? = bc.db.blocks[k]? := by
  rw [h.blocks, if_neg]
  intro hg
  obtain ⟨b, hb, -, hlt, -⟩ := isOrphan_iff.1 (h.gone_orphan _ hg)
  rcases h.states_high k s hs with rfl | ⟨b', hb', hle⟩
  · exact absurd (UInt64.lt_iff_toNat_lt.1 hlt) (Nat.not_lt_zero _)
  · have hb' := hc.cache _ _ hb'
    rw [hb] at hb'
    cases hb'
    exact UInt64.not_lt.2 hle hlt

theorem Accepted.stored {b p : Block} (hacc : Accepted bc b p c) {x : Block}
    (hx : bc.db.blocks[x.hash]? = some x) : (storeBlock bc.db b c).blocks[x.hash]? = some x := by
  rw [getElem?_storeBlock, if_neg, hx]
  intro heq
  have hnew := hacc.new
  rw [heq, hx] at hnew
  cases hnew

theorem Canonical.store (hl : Canonical g bc l) {b p : Block} (hacc : Accepted bc b p c) :
    Canonical g (bc.store b c.receipts c.state c.td) l :=
  ⟨hl.head, hl.chain, fun x hx => hacc.stored (hl.stored x hx), hl.table⟩

namespace Tree

theorem prune (h : Tree g B bc) : Tree g B (bc.prune true) := by
  obtain ⟨cutoff, gone, hp⟩ := prune_pruned bc true
  refine ⟨h.ready.prune true, fun k b hb => ?_, fun k s hs => ?_, ?_⟩
  · rw [hp.blocks] at hb
    split at hb
    · cases hb
    · exact h.known k b hb
  · rw [hp.stored_of_state h.ready.coherent hs]
    exact h.held k s (hp.states_sub k s hs)
  · obtain ⟨l, hl⟩ := h.canon
    exact ⟨l, hl.pruned hp⟩

variable {b p : Block}

theorem known_store (h : Tree g B bc) (hgrown : Grown g B bc b p l c)
    {k : Hash} {x : Block} (hx : (storeBlock bc.db b c).blocks[k]? = some x) :
    ∃ l w, Chain g (x :: l) w ∧ ∀ y ∈ x :: l, B y := by
  rw [getElem?_storeBlock] at hx
  split at hx
  · cases hx
    exact ⟨_, _, hgrown.chain, hgrown.known⟩
  · exact h.known k x hx

theorem held_store (h : Tree g B bc) (hgrown : Grown g B bc b p l c)
    {k : Hash} {s : State} (hs : (bc.states.insert b.hash c.state)[k]? = some s) :
    ∃ x l, (storeBlock bc.db b c).blocks[k]? = some x ∧ Chain g (x :: l) s.world ∧ ∀ y ∈ x :: l, B y := by
  rw [getElem?_insert_hash] at hs
  rw [getElem?_storeBlock]
  split at hs
  · cases hs
    rename_i heq
    rw [if_pos heq]
    exact ⟨b, _, rfl, hgrown.chain, hgrown.known⟩
  · rename_i hne
    rw [if_neg hne]
    exact h.held k s hs

theorem store (h : Tree g B bc) (hgrown : Grown g B bc b p l c) :
    Tree g B (bc.store b c.receipts c.state c.td) := by
  refine ⟨h.ready.store hgrown.accepted, fun k x hx => h.known_store hgrown hx, fun k s hs => h.held_store hgrown hs, ?_⟩
  obtain ⟨chain, hcanon⟩ := h.canon
  exact ⟨chain, hcanon.store hgrown.accepted⟩

variable {dropped added fork : List Block} {unwind apply : List Write}

theorem stored_of_added (h : Tree g B bc) (hB : HashesDiffer B)
    (hgrown : Grown g B bc b p l c)
    (hnew : b :: p :: l = added.reverse ++ fork) (hm : Moves g bc b c dropped added fork unwind apply) :
    ∀ x ∈ b :: p :: l, (storeBlock bc.db b c).blocks[x.hash]? = some x := by
  intro x hx
  have hBx := hgrown.known x hx
  rw [hnew] at hx
  rcases List.mem_append.1 hx with hx | hx
  · obtain ⟨st, hst⟩ := branchState_of_applyWrites hm.apply x (List.mem_reverse.1 hx)
    unfold branchState at hst
    split at hst
    · rename_i heq
      obtain rfl := hB x b hBx (hgrown.known b (by simp)) heq
      rw [getElem?_storeBlock, if_pos rfl]
    · obtain ⟨y, m, hy, -, hym⟩ := h.held _ _ hst
      obtain rfl := hB y x (hym y (by simp)) hBx (h.ready.coherent.hash _ _ hy)
      exact hgrown.accepted.stored hy
  · exact hgrown.accepted.stored (hm.old.stored x (List.mem_append_right _ hx))

theorem blocks_moved {b : Block}
    (hm : Moves g bc b c dropped added fork unwind apply) :
    (storeBlock bc.db b c).Moved (((storeBlock bc.db b c).commit unwind).commit apply) :=
  (moved_unwindWrites hm.unwind (storeBlock bc.db b c)).trans (moved_applyWrites hm.apply _)

theorem canonical_move (h : Tree g B bc) (hB : HashesDiffer B)
    (hgrown : Grown g B bc b p l c)
    (hnew : b :: p :: l = added.reverse ++ fork) (hm : Moves g bc b c dropped added fork unwind apply) :
    Canonical g (bc.moved b c unwind apply) (b :: p :: l) := by
  have hblocks : (bc.moved b c unwind apply).db.blocks = (storeBlock bc.db b c).blocks := (blocks_moved hm).blocks
  refine ⟨rfl, ⟨_, hgrown.chain⟩, fun x hx => ?_, ?_⟩
  · rw [hblocks]
    exact h.stored_of_added hB hgrown hnew hm x hx
  · obtain ⟨w, hw⟩ := hm.old.chain
    refine hm.tables (P := fun db m => CanonicalIs db.canonical m) hnew ?_ ?_ hm.old.table
    · intro db x q m d hsuf _ hP
      obtain ⟨v, hv⟩ := hw.of_suffix hsuf
      exact hP.unwind hv.height_lt
    · intro db x q m st prev hsuf _ _ _ hP
      obtain ⟨v, hv⟩ := hgrown.chain.of_suffix hsuf
      exact hP.adopt hv.height_lt

theorem move (h : Tree g B bc) (hB : HashesDiffer B)
    (hgrown : Grown g B bc b p l c)
    (hnew : b :: p :: l = added.reverse ++ fork) (hm : Moves g bc b c dropped added fork unwind apply) :
    Tree g B (bc.moved b c unwind apply) := by
  have hblocks : (bc.moved b c unwind apply).db.blocks = (storeBlock bc.db b c).blocks := (blocks_moved hm).blocks
  refine ⟨h.ready.move hgrown.accepted (blocks_moved hm), ?_, ?_, _, h.canonical_move hB hgrown hnew hm⟩
  · intro k x hx
    rw [hblocks] at hx
    exact h.known_store hgrown hx
  · intro k s hs
    rw [hblocks]
    exact h.held_store hgrown hs

theorem of_outcome (h : Tree g B bc) (hB : HashesDiffer B) {b : Block} (ho : Outcome g B bc b bc') : Tree g B bc' := by
  cases ho with
  | side hgrown _ => exact h.store hgrown
  | moved hgrown _ hnew hm => exact (h.move hB hgrown hnew hm).prune

theorem insert (h : Tree g B bc) (hB : HashesDiffer B) (w : WireBlock) (nowMs : Int64)
    (hw : ∀ b, w.block? = some b → b.verifyTxRoot = true → B b) : Tree g B (bc.insert w nowMs).2 := by
  obtain ⟨bc', hc, heq | ⟨b, -, ho⟩⟩ := h.inserted hB w nowMs hw
  · rw [heq]
    exact h.cached hc
  · exact (h.cached hc).of_outcome hB ho

end Tree

end Blockchain

/-! ### A small tree

Two branches over one genesis, for concrete runs: the first blocks of both carry the same transfer, the left branch
(`transferBlock`, `forkLeft2`, `forkLeft3`) is slow, the right one fast, and the left one wins every tie. -/

def forkLeft2 : Block where
  header :=
    { parentHash := 0x4f92c1868097e9cd8b925942aa055a2d38c325b6f25b6fd9bba95ea9d78e32fa
      height := 2
      timestamp := 480000
      txRoot := 0
      receiptRoot := 0
      stateRoot := 0x6682995401c2af6cb3f92ebc44ff27c3c95b98a766d5d602ed5a82567131ee4c
      gasUsed := 0
      gasLimit := 1000000
      proposer := 0x12
      difficulty := 1
      nonce := 0 }
  txs := []

def forkLeft3 : Block where
  header :=
    { parentHash := 0x6d4a1312dd9f82029dcb128d4f8ec08a58dfc458f56e58d2fe1960703a9d6f92
      height := 3
      timestamp := 720000
      txRoot := 0
      receiptRoot := 0
      stateRoot := 0xe5d16bed8aaa3c4bbbe111dab65ce72ffbd6f12bf33bffc16a4e595d4581e0f
      gasUsed := 0
      gasLimit := 1000000
      proposer := 0x13
      difficulty := 1
      nonce := 0 }
  txs := []

def forkRight1 : Block where
  header :=
    { parentHash := 0xedd8ed94453216a143a9a8dd0dc88eda4f3ccc959890da13f280e54a5817ae43
      height := 1
      timestamp := 1
      txRoot := 0x819269a0308714bee97a00b24ec47d0ebb8229732415d46d0972970f61d6b1ba
      receiptRoot := 0xad23b69da32d145c175b34ff2f7496d276b88665dcf3416e66ed6890643bec38
      stateRoot := 0x6bb3e151dfedef2d7de39329409c53fe4f10f4b2f5ab45634839c4fcf38f65ca
      gasUsed := 21000
      gasLimit := 1000000
      proposer := 0x21
      difficulty := 1
      nonce := 3 }
  txs := transferBlock.txs

def forkRight2 : Block where
  header :=
    { parentHash := 0xd6d36172847081808411fa65719ed31a27819255866cafea5283675cb43032b3
      height := 2
      timestamp := 2
      txRoot := 0
      receiptRoot := 0
      stateRoot := 0xd431979d7f3c8932a2b2932d253708782ddf35e10b573758229da2ad12c3adbd
      gasUsed := 0
      gasLimit := 1000000
      proposer := 0x22
      difficulty := 1
      nonce := 0 }
  txs := []

@[reducible]
def forkCrypto : Crypto :=
  signedCrypto transferTxs
    (transferDigests ++
      [digestRow 196 forkLeft2.header.message 0x6d4a1312dd9f82029dcb128d4f8ec08a58dfc458f56e58d2fe1960703a9d6f92,
       digestRow 196 forkLeft3.header.message 0x7f17a61f588555bfec318af751a37d56b0951ce3dfbda7cd3457e633a808dc00,
       digestRow 196 forkRight1.header.message 0xd6d36172847081808411fa65719ed31a27819255866cafea5283675cb43032b3,
       digestRow 196 forkRight2.header.message 0x75adbc90c9e53c04b6ae41360e3f33933ca76187b5905d63467e18e87e94625b,
       ((62, 0x1200000000000000210000000000000000000000000000000901158e460913d000000000000000000000),
        0xdfcb8a062cb1c57894a35e391b2b86f9680026b0898bd84d7a5da410c913055d),
       ((65, 0x19337666187318e213466df6c2bf058d094f78ad78411e1b61964af094e281610dfcb8a062cb1c57894a35e391b2b86f9680026b0898bd84d7a5da410c913055d),
        0xda5925d22e45a895c025b48bd249cb83d95523160b8f9418d213f4e4ceb63d6a),
       ((65, 0x176c29efee6557de9ec0ea6a42720f5d4ddaedc8c03d21328b39fce0d80313c0fbb98e577c64c0daedeee7fb0539fec15c7208dcba868f6ea90a257b73aee05e1),
        0xa06ea8bf32b6d640d09076d1661d0561d3a5b412f44dfb16ef113860db0fd594),
       ((65, 0x1da5925d22e45a895c025b48bd249cb83d95523160b8f9418d213f4e4ceb63d6aa06ea8bf32b6d640d09076d1661d0561d3a5b412f44dfb16ef113860db0fd594),
        0x3a9f40276575f3e8a4e2c01d7a1d0a86306dd21e0eff7c5dc1a8b492889e7ac0),
       ((48, 0x3a9f40276575f3e8a4e2c01d7a1d0a86306dd21e0eff7c5dc1a8b492889e7ac000000000000000088ac7230489e83138),
        0x6682995401c2af6cb3f92ebc44ff27c3c95b98a766d5d602ed5a82567131ee4c),
       ((62, 0x1300000000000000210000000000000000000000000000000901158e460913d000000000000000000000),
        0x6dc4b24bfa720107615818e41113b720ae829c595b267bc90f0516f1ad1c28e5),
       ((65, 0x16dc4b24bfa720107615818e41113b720ae829c595b267bc90f0516f1ad1c28e576c29efee6557de9ec0ea6a42720f5d4ddaedc8c03d21328b39fce0d80313c0f),
        0x16b86ff81568008a08254777411091f477ed117e934a17d3cf6d80e878a8c198),
       ((65, 0x1da5925d22e45a895c025b48bd249cb83d95523160b8f9418d213f4e4ceb63d6a16b86ff81568008a08254777411091f477ed117e934a17d3cf6d80e878a8c198),
        0xc2441cdc621b3e05f2dc4929da5996da69abb451f38eab4017e34be56c753e4f),
       ((65, 0x1c2441cdc621b3e05f2dc4929da5996da69abb451f38eab4017e34be56c753e4fbb98e577c64c0daedeee7fb0539fec15c7208dcba868f6ea90a257b73aee05e1),
        0x46797b0de08b57227afb1d41f85f859f49bee703411f3e7c11e310fed5b9f7c),
       ((48, 0x46797b0de08b57227afb1d41f85f859f49bee703411f3e7c11e310fed5b9f7c0000000000000008d02ab486cedc3138),
        0xe5d16bed8aaa3c4bbbe111dab65ce72ffbd6f12bf33bffc16a4e595d4581e0f),
       ((62, 0x2100000000000000210000000000000000000000000000000901158e460913d0c4e00000000000000000),
        0xde45b5ccae6bbc7c7a1dfe49d387fb834ce53d27c5d0ae43583e44ac6675ee35),
       ((65, 0x1de45b5ccae6bbc7c7a1dfe49d387fb834ce53d27c5d0ae43583e44ac6675ee3576c29efee6557de9ec0ea6a42720f5d4ddaedc8c03d21328b39fce0d80313c0f),
        0x1ad825a6439bc2126b251f3761a2a64ae39418c69c1a8e358b75a44891c5829a),
       ((65, 0x11ad825a6439bc2126b251f3761a2a64ae39418c69c1a8e358b75a44891c5829abb98e577c64c0daedeee7fb0539fec15c7208dcba868f6ea90a257b73aee05e1),
        0x19ec81d0929ec06028f77ffad04a998fbf14e6076d3746605cee8b2e5a1a5f78),
       ((48, 0x19ec81d0929ec06028f77ffad04a998fbf14e6076d3746605cee8b2e5a1a5f7800000000000000084563918244f43138),
        0x6bb3e151dfedef2d7de39329409c53fe4f10f4b2f5ab45634839c4fcf38f65ca),
       ((62, 0x2200000000000000210000000000000000000000000000000901158e460913d000000000000000000000),
        0xd493b6fe0edf61f3975bc4e0f5623d759913e1afeded2e73cde7394e81adde0c),
       ((65, 0x1de45b5ccae6bbc7c7a1dfe49d387fb834ce53d27c5d0ae43583e44ac6675ee35d493b6fe0edf61f3975bc4e0f5623d759913e1afeded2e73cde7394e81adde0c),
        0xc34c79a0354f88287be77ab8293558726d0cb302c802466d1f6fdac4b9a7ee16),
       ((65, 0x1c34c79a0354f88287be77ab8293558726d0cb302c802466d1f6fdac4b9a7ee16a06ea8bf32b6d640d09076d1661d0561d3a5b412f44dfb16ef113860db0fd594),
        0x9711a4136f5c0bd2b2eab60bbe1bd15fb58b69c50844ba594afa3bf92aebd3c3),
       ((48, 0x9711a4136f5c0bd2b2eab60bbe1bd15fb58b69c50844ba594afa3bf92aebd3c300000000000000088ac7230489e83138),
        0xd431979d7f3c8932a2b2932d253708782ddf35e10b573758229da2ad12c3adbd),
       ((65, 0x1d493b6fe0edf61f3975bc4e0f5623d759913e1afeded2e73cde7394e81adde0c278847b8fcc2cbbea5a973813f98313c05ff383a5a8b3e0a1a61076bc0678334),
        0xb50fb148b30502de46eba7653a5123011bc680dfff6efb24341da0b7ccc381e0),
       ((48, 0xb50fb148b30502de46eba7653a5123011bc680dfff6efb24341da0b7ccc381e000000000000000088ac7230489e83138),
        0x1372353671ee9757ddddcc9c33581b2c2a40850b0dd61e3786baa97473a2aca0)])

def offer (b : Block) : Op := .insert b.toWire 1000000

def forkOptions : Options := ⟨0, 4096⟩

/-- The head moves from the right branch to the left one and back before the database is opened again. -/
def reorgRun : List Op := [offer forkRight1, offer transferBlock, offer forkRight2, .reopen forkOptions]

end Lxs
