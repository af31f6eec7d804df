import Lxs.Core.Reads
import Lxs.Lib.Run

/-!
# What inserting a block does

One inversion of `insert`: it fails, and then only the cache has changed, or the block passed every check and was put
beside the head, on the head, or on another branch that becomes canonical. Runs are lists of insertions and reopenings.
-/

set_option linter.unusedSectionVars false

namespace Lxs

open Std Lib

namespace Blockchain

variable [Crypto] {bc bc' : Blockchain}

/-! ### Reading leaves all but the cache -/

theorem parentOf_cached (hc : Coherent bc) (b : Block) : ∃ r bc', bc.parentOf b = (r, bc') ∧ Cached bc bc' := by
  cases hp : bc.db.blocks[b.header.parentHash]? with
  | none => exact ⟨_, bc, parentOf_none hc hp, .refl bc⟩
  | some p =>
    obtain ⟨bc', h, hr⟩ := parentOf_some hc hp
    exact ⟨_, bc', hr, h⟩

theorem walkDown_cached (height : UInt64) (n : ℕ) : ∀ {bc : Blockchain}, Coherent bc → ∀ a passed,
    ∃ r bc', walkDown height n bc a passed = (r, bc') ∧ Cached bc bc' := by
  induction n with
  | zero => exact fun {bc} _ _ _ => ⟨_, bc, rfl, .refl bc⟩
  | succ n ih =>
    intro bc hc a passed
    unfold walkDown
    split
    · obtain ⟨r, bc₁, hr, h₁⟩ := parentOf_cached hc a
      rw [hr]
      cases r with
      | error e => exact ⟨_, bc₁, rfl, h₁⟩
      | ok p =>
        obtain ⟨r, bc₂, hr, h₂⟩ := ih (h₁.coherent hc) p (a :: passed)
        exact ⟨r, bc₂, hr, h₁.trans h₂⟩
    · exact ⟨_, bc, rfl, .refl bc⟩

theorem walkTogether_cached (n : ℕ) : ∀ {bc : Blockchain}, Coherent bc → ∀ a b dropped added,
    ∃ r bc', walkTogether n bc a b dropped added = (r, bc') ∧ Cached bc bc' := by
  induction n with
  | zero => exact fun {bc} _ _ _ _ _ => ⟨_, bc, rfl, .refl bc⟩
  | succ n ih =>
    intro bc hc a b dropped added
    unfold walkTogether
    split_ifs
    · exact ⟨_, bc, rfl, .refl bc⟩
    · exact ⟨_, bc, rfl, .refl bc⟩
    · obtain ⟨r, bc₁, hr, h₁⟩ := parentOf_cached hc a
      rw [hr]
      cases r with
      | error e => exact ⟨_, bc₁, rfl, h₁⟩
      | ok pa =>
        dsimp only
        obtain ⟨r, bc₂, hr, h₂⟩ := parentOf_cached (h₁.coherent hc) b
        rw [hr]
        cases r with
        | error e => exact ⟨_, bc₂, rfl, h₁.trans h₂⟩
        | ok pb =>
          obtain ⟨r, bc₃, hr, h₃⟩ := ih (h₂.coherent (h₁.coherent hc)) pa pb (a :: dropped) (b :: added)
          exact ⟨r, bc₃, hr, h₁.trans (h₂.trans h₃)⟩

theorem findFork_cached (hc : Coherent bc) (a b : Block) : ∃ r bc', bc.findFork a b = (r, bc') ∧ Cached bc bc' := by
  unfold findFork
  obtain ⟨r, bc₁, hr, h₁⟩ := walkDown_cached b.height (a.height.toNat + 1) hc a []
  rw [hr]
  cases r with
  | error e => exact ⟨_, bc₁, rfl, h₁⟩
  | ok x =>
    dsimp only
    obtain ⟨r, bc₂, hr, h₂⟩ := walkDown_cached x.1.height (b.height.toNat + 1) (h₁.coherent hc) b []
    rw [hr]
    cases r with
    | error e => exact ⟨_, bc₂, rfl, h₁.trans h₂⟩
    | ok y =>
      obtain ⟨r, bc₃, hr, h₃⟩ := walkTogether_cached (x.1.height.toNat + 1) (h₂.coherent (h₁.coherent hc)) x.1 y.1 x.2 y.2
      exact ⟨r, bc₃, hr, h₁.trans (h₂.trans h₃)⟩

theorem Cached.applyWrites (h : Cached bc bc') (newHead : Block) (newState : State) (added : List Block) :
    bc'.applyWrites newHead newState added = bc.applyWrites newHead newState added := by
  induction added with
  | nil => rfl
  | cons b added ih =>
    unfold Blockchain.applyWrites branchState
    rw [h.states, ih]

/-! ### Checked blocks -/

theorem checkTxs_ok {chainID : UInt64} {txs : List Transaction} (h : checkTxs chainID txs = .ok ()) :
    ∀ tx ∈ txs, tx.sanityCheck chainID = .ok () := by
  induction txs with
  | nil => exact fun _ hm => absurd hm List.not_mem_nil
  | cons tx txs ih =>
    unfold checkTxs at h
    cases htx : tx.sanityCheck chainID with
    | error e => rw [htx] at h; cases h
    | ok u =>
      rw [htx] at h
      intro tx' hm
      rcases List.mem_cons.1 hm with rfl | hm
      · exact htx
      · exact ih h tx' hm

theorem checkTxs_of_sane {chainID : UInt64} {txs : List Transaction} (h : ∀ tx ∈ txs, tx.sanityCheck chainID = .ok ()) :
    checkTxs chainID txs = .ok () := by
  induction txs with
  | nil => rfl
  | cons tx txs ih =>
    unfold checkTxs
    rw [h tx (List.mem_cons_self ..)]
    exact ih fun tx' hm => h tx' (List.mem_cons_of_mem _ hm)

/-- A block that passed every check of `insert`, with its parent and the results. -/
structure Accepted (bc : Blockchain) (b p : Block) (c : Checked) : Prop where
  new : bc.db.blocks[b.hash]? = none
  parent : bc.db.blocks[b.header.parentHash]? = some p
  difficulty : b.header.difficulty = derivedDifficulty bc.db bc.genesisDifficulty p.header
  pow : satisfiesPoW b.header = true
  txRoot : b.verifyTxRoot = true
  sane : ∀ tx ∈ b.txs, tx.sanityCheck bc.chainID = .ok ()
  applied : ∃ s, bc.states[p.hash]? = some s ∧ Applied bc.treasury s b p.header c.state c.receipts
  td : ∃ ptd, bc.db.tds[p.hash]? = some ptd ∧ c.td = ptd + b.header.difficulty.toNat
  headTD : bc.db.tds[bc.head.hash]? = some c.headTD

variable {b p : Block} {c : Checked}

theorem check_ok {want : UInt64} (h : bc.check b p want = .ok c) :
    b.header.difficulty = want ∧ satisfiesPoW b.header = true ∧ b.verifyTxRoot = true ∧
      (∀ tx ∈ b.txs, tx.sanityCheck bc.chainID = .ok ()) ∧
      (∃ s, bc.states[p.hash]? = some s ∧ Applied bc.treasury s b p.header c.state c.receipts) ∧
      (∃ ptd, bc.db.tds[p.hash]? = some ptd ∧ c.td = ptd + b.header.difficulty.toNat) ∧
      bc.db.tds[bc.head.hash]? = some c.headTD := by
  unfold check at h
  split_ifs at h with hd hpow htx
  split at h
  · cases h
  · rename_i htxs
    split at h
    · cases h
    · rename_i s hs
      split at h
      · cases h
      · rename_i newState receipts happ
        split at h
        · cases h
        · cases h
        · rename_i ptd htd hptd hhtd
          cases h
          rw [not_not] at hd
          simp only [Bool.not_eq_true', Bool.not_eq_false] at hpow htx
          exact ⟨hd, hpow, htx, checkTxs_ok htxs, ⟨s, hs, applyBlock_ok_iff.1 happ⟩, ⟨ptd, hptd, rfl⟩, hhtd⟩

theorem check_of_accepted (h : Accepted bc b p c) :
    bc.check b p (derivedDifficulty bc.db bc.genesisDifficulty p.header) = .ok c := by
  obtain ⟨s, hs, happ⟩ := h.applied
  obtain ⟨ptd, hptd, htd⟩ := h.td
  unfold check
  rw [if_neg (not_not.2 h.difficulty), if_neg (by simp [h.pow]), if_neg (by simp [h.txRoot]), checkTxs_of_sane h.sane]
  simp only [hs, applyBlock_ok_iff.2 happ, hptd, h.headTD, ← htd]

/-! ### Where a block is put -/

def extendBatch (b : Block) (c : Checked) (prev : State) : List Write :=
  writeBlock b c.receipts ++ [.td b.hash (some c.td)] ++ canonicalWrites b c.state prev ++ headWrites b c.state

def reorgBatch (b : Block) (c : Checked) (unwind apply : List Write) : List Write :=
  writeBlock b c.receipts ++ [.td b.hash (some c.td)] ++ unwind ++ apply ++ headWrites b c.state

/-- The three ways a checked block is put into the tree. -/
inductive Placed (sweeps : Bool) (bc : Blockchain) (b : Block) (c : Checked) : Except InsertError (Option Reorg) × Blockchain → Prop
  | side : better ⟨b.header, c.td⟩ ⟨bc.head.header, c.headTD⟩ = false →
      Placed sweeps bc b c (.ok none, bc.store b c.receipts c.state c.td)
  | extend {prev} : better ⟨b.header, c.td⟩ ⟨bc.head.header, c.headTD⟩ = true → b.header.parentHash = bc.head.hash →
      bc.states[b.header.parentHash]? = some prev →
      Placed sweeps bc b c (.ok none, bc.setHead sweeps (extendBatch b c prev) b c.state)
  | reorg {bc₀ r unwind apply} : better ⟨b.header, c.td⟩ ⟨bc.head.header, c.headTD⟩ = true →
      b.header.parentHash ≠ bc.head.hash → Cached bc₀ bc → bc₀.findFork bc.head b = (.ok r, bc) →
      r.dropped.length ≤ bc.retention.toNat → unwindWrites bc.db r.dropped.reverse = .ok unwind →
      bc.applyWrites b c.state r.added = .ok apply →
      Placed sweeps bc b c (.ok (some r), bc.setHead sweeps (reorgBatch b c unwind apply) b c.state)

theorem reorg_cases (hc : Coherent bc) (disk : Disk) (b : Block) (c : Checked)
    (hbetter : better ⟨b.header, c.td⟩ ⟨bc.head.header, c.headTD⟩ = true) (hne : b.header.parentHash ≠ bc.head.hash) :
    ∃ bc', Cached bc bc' ∧ ((∃ e, bc.reorg disk b c.receipts c.state c.td = (.error e, bc')) ∨
      disk.commits = true ∧ Placed disk.sweeps bc' b c (bc.reorg disk b c.receipts c.state c.td)) := by
  obtain ⟨r, bc', hr, h⟩ := findFork_cached hc bc.head b
  refine ⟨bc', h, ?_⟩
  unfold reorg
  rw [hr]
  cases r with
  | error e => exact .inl ⟨e, rfl⟩
  | ok r =>
    dsimp only
    by_cases hdeep : bc'.retention.toNat < r.dropped.length
    · exact .inl ⟨_, if_pos hdeep⟩
    · rw [if_neg hdeep]
      cases hu : unwindWrites bc'.db r.dropped.reverse with
      | error e => exact .inl ⟨e, rfl⟩
      | ok unwind =>
        cases ha : bc'.applyWrites b c.state r.added with
        | error e => exact .inl ⟨e, rfl⟩
        | ok apply =>
          dsimp only
          split_ifs with hcommit
          · refine .inr ⟨hcommit, .reorg ?_ ?_ h (h.head ▸ hr) (Nat.not_lt.1 hdeep) hu ha⟩
            · rw [h.head]; exact hbetter
            · rw [h.head]; exact hne
          · exact .inl ⟨_, rfl⟩

theorem place_cases (hc : Coherent bc) (disk : Disk) (hb : Accepted bc b p c) :
    ∃ bc', Cached bc bc' ∧ ((∃ e, bc.place disk b c = (.error e, bc')) ∨
      disk.commits = true ∧ Placed disk.sweeps bc' b c (bc.place disk b c)) := by
  unfold place
  split_ifs with hbetter hcommit hparent
  · exact ⟨bc, .refl bc, .inr ⟨hcommit, .side (by simpa using hbetter)⟩⟩
  · exact ⟨bc, .refl bc, .inl ⟨_, rfl⟩⟩
  · refine ⟨bc, .refl bc, ?_⟩
    obtain ⟨s, hs, -⟩ := hb.applied
    have hprev : bc.states[b.header.parentHash]? = some s := by
      rw [← hc.hash _ _ hb.parent]
      exact hs
    unfold extend
    rw [hprev]
    dsimp only
    split_ifs with hcommit
    · exact .inr ⟨hcommit, .extend (by simpa using hbetter) hparent hprev⟩
    · exact .inl ⟨_, rfl⟩
  · exact reorg_cases hc disk b c (by simpa using hbetter) hparent

/-! ### Insertion -/

theorem Accepted.cached (hb : Accepted bc b p c) (h : Cached bc bc') : Accepted bc' b p c := by
  obtain ⟨h₁, h₂, h₃, h₄, h₅, h₆, h₇, h₈, h₉⟩ := hb
  refine ⟨?_, ?_, ?_, h₄, h₅, ?_, ?_, ?_, ?_⟩
  · rw [h.db]; exact h₁
  · rw [h.db]; exact h₂
  · rw [h.db, h.genesisDifficulty]; exact h₃
  · rw [h.chainID]; exact h₆
  · rw [h.states, h.treasury]; exact h₇
  · rw [h.db]; exact h₈
  · rw [h.db, h.head]; exact h₉

theorem block?_header {w : WireBlock} {b : Block} (h : w.block? = some b) : b.header = w.header := by
  obtain ⟨txs, -, rfl⟩ := Option.map_eq_some_iff.1 h
  rfl

omit [Crypto] in
theorem block?_toWire (b : Block) : b.toWire.block? = some b := by
  have h : ∀ txs : List Transaction, (txs.map some).mapM id = some txs := by
    intro txs
    induction txs with
    | nil => rfl
    | cons tx txs ih => simp [List.mapM_cons, ih]
  simp [WireBlock.block?, Block.toWire, h]

theorem not_mem_of_new (hc : Coherent bc) {h : Hash} (hnew : bc.db.blocks[h]? = none) :
    h ∉ bc.db.blocks ∧ h ∉ bc.blockCache := by
  constructor
  · rw [ExtTreeMap.mem_iff_isSome_getElem?, hnew]
    decide
  · rw [ExtTreeMap.mem_iff_isSome_getElem?]
    intro hs
    obtain ⟨b, hb⟩ := Option.isSome_iff_exists.1 hs
    rw [hc.cache h b hb] at hnew
    cases hnew

/-- **Inserting a block fails, with only the cache changed, or puts a block that passed every check into the tree.** -/
theorem insertOn_cases (hc : Coherent bc) (disk : Disk) (w : WireBlock) (nowMs : Int64) :
    ∃ bc', Cached bc bc' ∧ ((∃ e, bc.insertOn disk w nowMs = (.error e, bc')) ∨ ∃ b p c, w.block? = some b ∧
      Accepted bc b p c ∧ disk.commits = true ∧ Placed disk.sweeps bc' b c (bc.insertOn disk w nowMs)) := by
  unfold insertOn
  split_ifs with hdisk hcache
  · exact ⟨bc, .refl bc, .inl ⟨_, rfl⟩⟩
  · exact ⟨bc, .refl bc, .inl ⟨_, rfl⟩⟩
  cases hw : w.block? with
  | none => exact ⟨bc, .refl bc, .inl ⟨_, rfl⟩⟩
  | some b =>
    dsimp only
    cases hp : bc.db.blocks[b.header.parentHash]? with
    | none =>
      rw [parentOf_none hc hp]
      exact ⟨bc, .refl bc, .inl ⟨_, rfl⟩⟩
    | some p =>
      obtain ⟨bc₁, h₁, hr⟩ := parentOf_some hc hp
      rw [hr]
      dsimp only
      split_ifs with hfuture
      · exact ⟨bc₁, h₁, .inl ⟨_, rfl⟩⟩
      · obtain ⟨bc₂, h₂, hr⟩ := requiredDifficulty_eq (h₁.coherent hc) p.header
        rw [hr]
        have h := h₁.trans h₂
        dsimp only
        cases hcheck : bc₂.check b p (derivedDifficulty bc₁.db bc₁.genesisDifficulty p.header) with
        | error e => exact ⟨bc₂, h, .inl ⟨e, rfl⟩⟩
        | ok c =>
          have hnew : bc.db.blocks[b.hash]? = none := by
            rw [show b.hash = w.header.hash by unfold Block.hash; rw [block?_header hw]]
            cases hn : bc.db.blocks[w.header.hash]? with
            | none => rfl
            | some _ => exact absurd (ExtTreeMap.mem_iff_isSome_getElem?.2 (by rw [hn]; rfl)) hdisk
          rw [h₁.db, h₁.genesisDifficulty] at hcheck
          obtain ⟨hd, hpow, htx, hsane, happ, htd, hhtd⟩ := check_ok hcheck
          rw [h.chainID] at hsane
          rw [h.states, h.treasury] at happ
          rw [h.db] at htd
          rw [h.db, h.head] at hhtd
          have hacc : Accepted bc b p c := ⟨hnew, hp, hd, hpow, htx, hsane, happ, htd, hhtd⟩
          obtain ⟨bc₃, h₃, hplace⟩ := place_cases (h.coherent hc) disk (hacc.cached h)
          exact ⟨bc₃, h.trans h₃, hplace.imp id fun hpl => ⟨b, p, c, rfl, hacc, hpl⟩⟩

theorem insert_cases (hc : Coherent bc) (w : WireBlock) (nowMs : Int64) :
    ∃ bc', Cached bc bc' ∧ ((∃ e, bc.insert w nowMs = (.error e, bc')) ∨
      ∃ b p c, w.block? = some b ∧ Accepted bc b p c ∧ Placed true bc' b c (bc.insert w nowMs)) := by
  obtain ⟨bc', h, he | ⟨b, p, c, hw, hacc, -, hpl⟩⟩ := insertOn_cases hc .sound w nowMs
  · exact ⟨bc', h, .inl he⟩
  · exact ⟨bc', h, .inr ⟨b, p, c, hw, hacc, hpl⟩⟩

theorem insert_of_known {w : WireBlock} (h : w.header.hash ∈ bc.db.blocks) (nowMs : Int64) :
    bc.insert w nowMs = (.error .knownBlock, bc) := by
  unfold insert insertOn
  rw [if_pos h]

end Blockchain

/-! ### Runs -/

/-- What can happen to a node: a block is offered at some time, or the database is closed and opened again. -/
inductive Op
  | insert (w : WireBlock) (nowMs : Int64)
  | reopen (opts : Options)
  deriving DecidableEq

def Blockchain.exec [Crypto] (g : Genesis) (bc : Blockchain) : Op → Except OpenError Blockchain
  | .insert w nowMs => .ok (bc.insert w nowMs).2
  | .reopen opts => newBlockchain bc.db g opts

def runNode [Crypto] (g : Genesis) (opts : Options) (ops : List Op) : Except OpenError Blockchain :=
  match newBlockchain .empty g opts with
  | .error e => .error e
  | .ok bc => Run.run (Blockchain.exec g) bc ops

end Lxs
