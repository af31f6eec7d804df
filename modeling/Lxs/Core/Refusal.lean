import Lxs.Core.Insertion

/-!
# Why a block is refused

The result of `insert` as a function of the database and the state before the call: what was cached does not matter. The
errors fall into three classes, and a block gets one that is no fault of its sender exactly when it is dated ahead of the
clock, its branch cannot be judged any more, or an ancestor of it is missing.
-/

namespace Lxs

open Std

/-- The errors that only a block at fault can cause, or a database at fault. -/
def InsertError.isFault : InsertError → Bool
  | .knownBlock => false
  | .futureBlock _ _ => false
  | .unknownParent _ => false
  | .reorgTooDeep _ => false
  | _ => true

def InsertError.isDeferral : InsertError → Bool
  | .futureBlock _ _ => true
  | .reorgTooDeep _ => true
  | _ => false

namespace Blockchain

variable [Crypto] {bc bc' : Blockchain}

/-! ### The cache does not matter -/

structure Alike (bc bc' : Blockchain) : Prop where
  left : Coherent bc
  right : Coherent bc'
  db : bc'.db = bc.db

theorem Cached.alike (h : Cached bc bc') (hc : Coherent bc) : Alike bc bc' := ⟨hc, h.coherent hc, h.db⟩

theorem Alike.parentOf (h : Alike bc bc') (b : Block) :
    ∃ r bc₁ bc₁', bc.parentOf b = (r, bc₁) ∧ bc'.parentOf b = (r, bc₁') ∧ Alike bc₁ bc₁' := by
  cases hp : bc.db.blocks[b.header.parentHash]? with
  | none => exact ⟨_, bc, bc', parentOf_none h.left hp, parentOf_none h.right (h.db ▸ hp), h⟩
  | some p =>
    obtain ⟨bc₁, h₁, hr₁⟩ := parentOf_some h.left hp
    obtain ⟨bc₁', h₁', hr₁'⟩ := parentOf_some h.right (h.db.symm ▸ hp)
    exact ⟨_, bc₁, bc₁', hr₁, hr₁', h₁.coherent h.left, h₁'.coherent h.right, h₁'.db.trans (h.db.trans h₁.db.symm)⟩

theorem Alike.walkDown (height : UInt64) (n : ℕ) : ∀ {bc bc' : Blockchain}, Alike bc bc' → ∀ a passed,
    ∃ r bc₁ bc₁', Blockchain.walkDown height n bc a passed = (r, bc₁) ∧ Blockchain.walkDown height n bc' a passed = (r, bc₁') ∧
      Alike bc₁ bc₁' := by
  induction n with
  | zero => exact fun {bc bc'} h _ _ => ⟨_, bc, bc', rfl, rfl, h⟩
  | succ n ih =>
    intro bc bc' h a passed
    unfold Blockchain.walkDown
    split
    · obtain ⟨r, bc₁, bc₁', hr, hr', h₁⟩ := h.parentOf a
      rw [hr, hr']
      cases r with
      | error e => exact ⟨_, bc₁, bc₁', rfl, rfl, h₁⟩
      | ok p => exact ih h₁ p (a :: passed)
    · exact ⟨_, bc, bc', rfl, rfl, h⟩

theorem Alike.walkTogether (n : ℕ) : ∀ {bc bc' : Blockchain}, Alike bc bc' → ∀ a b dropped added,
    ∃ r bc₁ bc₁', Blockchain.walkTogether n bc a b dropped added = (r, bc₁) ∧
      Blockchain.walkTogether n bc' a b dropped added = (r, bc₁') ∧ Alike bc₁ bc₁' := by
  induction n with
  | zero => exact fun {bc bc'} h _ _ _ _ => ⟨_, bc, bc', rfl, rfl, h⟩
  | succ n ih =>
    intro bc bc' h a b dropped added
    unfold Blockchain.walkTogether
    split_ifs
    · exact ⟨_, bc, bc', rfl, rfl, h⟩
    · exact ⟨_, bc, bc', rfl, rfl, h⟩
    · obtain ⟨r, bc₁, bc₁', hr, hr', h₁⟩ := h.parentOf a
      rw [hr, hr']
      cases r with
      | error e => exact ⟨_, bc₁, bc₁', rfl, rfl, h₁⟩
      | ok pa =>
        dsimp only
        obtain ⟨r, bc₂, bc₂', hr, hr', h₂⟩ := h₁.parentOf b
        rw [hr, hr']
        cases r with
        | error e => exact ⟨_, bc₂, bc₂', rfl, rfl, h₂⟩
        | ok pb => exact ih h₂ pa pb (a :: dropped) (b :: added)

theorem Alike.findFork (h : Alike bc bc') (a b : Block) : (bc'.findFork a b).1 = (bc.findFork a b).1 := by
  unfold Blockchain.findFork
  obtain ⟨r, bc₁, bc₁', hr, hr', h₁⟩ := Alike.walkDown b.height (a.height.toNat + 1) h a []
  rw [hr, hr']
  cases r with
  | error e => rfl
  | ok x =>
    dsimp only
    obtain ⟨r, bc₂, bc₂', hr, hr', h₂⟩ := Alike.walkDown x.1.height (b.height.toNat + 1) h₁ b []
    rw [hr, hr']
    cases r with
    | error e => rfl
    | ok y =>
      dsimp only
      obtain ⟨r, bc₃, bc₃', hr, hr', -⟩ := Alike.walkTogether (x.1.height.toNat + 1) h₂ x.1 y.1 x.2 y.2
      rw [hr, hr']

theorem Cached.check (h : Cached bc bc') (b p : Block) (want : UInt64) : bc'.check b p want = bc.check b p want := by
  unfold Blockchain.check
  rw [h.chainID, h.states, h.treasury, h.db, h.head]

def reorgResult (bc : Blockchain) (b : Block) (c : Checked) : Except InsertError (Option Reorg) :=
  match (bc.findFork bc.head b).1 with
  | .error e => .error e
  | .ok r =>
    if bc.retention.toNat < r.dropped.length then .error (.reorgTooDeep b.hash)
    else
      match unwindWrites bc.db r.dropped.reverse, bc.applyWrites b c.state r.added with
      | .error e, _ => .error e
      | .ok _, .error e => .error e
      | .ok _, .ok _ => .ok (some r)

theorem reorg_result (hc : Coherent bc) (b : Block) (c : Checked) :
    (bc.reorg .sound b c.receipts c.state c.td).1 = bc.reorgResult b c := by
  obtain ⟨r, bc', hr, h⟩ := findFork_cached hc bc.head b
  unfold reorg reorgResult
  rw [hr]
  cases r with
  | error e => rfl
  | ok r =>
    simp only [Disk.sound, ↓reduceIte]
    rw [h.retention, h.db, h.applyWrites]
    split_ifs
    · rfl
    · cases unwindWrites bc.db r.dropped.reverse with
      | error e => rfl
      | ok unwind => cases bc.applyWrites b c.state r.added <;> rfl

theorem Cached.reorgResult (h : Cached bc bc') (hc : Coherent bc) (b : Block) (c : Checked) :
    bc'.reorgResult b c = bc.reorgResult b c := by
  unfold Blockchain.reorgResult
  rw [h.head, (h.alike hc).findFork, h.retention, h.db]
  simp only [h.applyWrites]

theorem place_sound (bc : Blockchain) (b : Block) (c : Checked) : bc.place .sound b c =
    if !better ⟨b.header, c.td⟩ ⟨bc.head.header, c.headTD⟩ then (.ok none, bc.store b c.receipts c.state c.td)
    else if b.header.parentHash = bc.head.hash then bc.extend .sound b c.receipts c.state c.td
    else bc.reorg .sound b c.receipts c.state c.td := rfl

theorem Cached.place (h : Cached bc bc') (hc : Coherent bc) (b : Block) (c : Checked) :
    (bc'.place .sound b c).1 = (bc.place .sound b c).1 := by
  rw [place_sound, place_sound, h.head]
  split_ifs
  · rfl
  · unfold extend
    rw [h.states]
    cases bc.states[b.header.parentHash]? <;> rfl
  · rw [reorg_result hc, reorg_result (h.coherent hc), h.reorgResult hc]

variable {b p : Block}

theorem insert_result (hc : Coherent bc) (hnew : bc.db.blocks[b.hash]? = none)
    (hp : bc.db.blocks[b.header.parentHash]? = some p) (nowMs : Int64) :
    (bc.insert b.toWire nowMs).1 =
      if nowMs + maxFutureDriftMs < b.header.timestamp then .error (.futureBlock b.header.timestamp nowMs)
      else
        match bc.check b p (derivedDifficulty bc.db bc.genesisDifficulty p.header) with
        | .error e => .error e
        | .ok c => (bc.place .sound b c).1 := by
  obtain ⟨hdisk, hcache⟩ := not_mem_of_new hc hnew
  obtain ⟨bc₁, h₁, hr₁⟩ := parentOf_some hc hp
  obtain ⟨bc₂, h₂, hr₂⟩ := requiredDifficulty_eq (h₁.coherent hc) p.header
  unfold insert insertOn
  rw [if_neg (show b.toWire.header.hash ∉ bc.db.blocks from hdisk),
    if_neg (show b.toWire.header.hash ∉ bc.blockCache from hcache), block?_toWire]
  dsimp only
  rw [hr₁]
  dsimp only
  split_ifs
  · rfl
  · rw [hr₂]
    dsimp only
    rw [(h₁.trans h₂).check, h₁.db, h₁.genesisDifficulty]
    cases bc.check b p (derivedDifficulty bc.db bc.genesisDifficulty p.header) with
    | error e => rfl
    | ok c => exact (h₁.trans h₂).place hc b c

/-! ### Errors by class -/

variable {e : InsertError}

theorem parentOf_error {b : Block} (h : (bc.parentOf b).1 = .error e) : ∃ k, e = .unknownParent k := by
  unfold parentOf at h
  split at h
  · cases h
    exact ⟨_, rfl⟩
  · cases h

theorem walkDown_error (height : UInt64) (n : ℕ) : ∀ {bc : Blockchain} {a : Block} {passed : List Block} {e : InsertError},
    (walkDown height n bc a passed).1 = .error e → e.isFault = true ∨ ∃ k, e = .unknownParent k := by
  induction n with
  | zero =>
    intro bc a passed e h
    cases h
    exact .inl rfl
  | succ n ih =>
    intro bc a passed e h
    unfold walkDown at h
    split at h
    · cases hp : bc.parentOf a with
      | mk r bc' =>
        rw [hp] at h
        cases r with
        | error e' =>
          cases h
          exact .inr (parentOf_error (by rw [hp]))
        | ok p => exact ih h
    · cases h

theorem walkTogether_error (n : ℕ) : ∀ {bc : Blockchain} {a b : Block} {dropped added : List Block} {e : InsertError},
    (walkTogether n bc a b dropped added).1 = .error e → e.isFault = true ∨ ∃ k, e = .unknownParent k := by
  induction n with
  | zero =>
    intro bc a b dropped added e h
    cases h
    exact .inl rfl
  | succ n ih =>
    intro bc a b dropped added e h
    unfold walkTogether at h
    split_ifs at h
    · cases h
      exact .inl rfl
    · cases hp : bc.parentOf a with
      | mk r bc' =>
        rw [hp] at h
        cases r with
        | error e' =>
          cases h
          exact .inr (parentOf_error (by rw [hp]))
        | ok pa =>
          dsimp only at h
          cases hp' : bc'.parentOf b with
          | mk r bc'' =>
            rw [hp'] at h
            cases r with
            | error e' =>
              cases h
              exact .inr (parentOf_error (by rw [hp']))
            | ok pb => exact ih h

theorem findFork_error {a b : Block} (h : (bc.findFork a b).1 = .error e) :
    e.isFault = true ∨ ∃ k, e = .unknownParent k := by
  unfold findFork at h
  cases hw : walkDown b.height (a.height.toNat + 1) bc a [] with
  | mk r bc₁ =>
    rw [hw] at h
    cases r with
    | error e' =>
      cases h
      exact walkDown_error _ _ (by rw [hw])
    | ok x =>
      dsimp only at h
      cases hw' : walkDown x.1.height (b.height.toNat + 1) bc₁ b [] with
      | mk r bc₂ =>
        rw [hw'] at h
        cases r with
        | error e' =>
          cases h
          exact walkDown_error _ _ (by rw [hw'])
        | ok y => exact walkTogether_error _ h

theorem unwindWrites_error {db : Database} {dropped : List Block} (h : unwindWrites db dropped = .error e) :
    e.isFault = true := by
  induction dropped with
  | nil => cases h
  | cons b dropped ih =>
    unfold unwindWrites at h
    split at h
    · cases h
      rfl
    · split at h
      next h' =>
        cases h
        exact ih h'
      · cases h

theorem applyWrites_error {newHead : Block} {newState : State} {added : List Block}
    (h : bc.applyWrites newHead newState added = .error e) : e.isFault = true := by
  induction added with
  | nil => cases h
  | cons b added ih =>
    unfold applyWrites at h
    split at h
    · cases h
      rfl
    · split at h
      · cases h
        rfl
      · split at h
        next h' =>
          cases h
          exact ih h'
        · cases h

theorem checkTxs_error {chainID : UInt64} {txs : List Transaction} (h : checkTxs chainID txs = .error e) :
    e.isFault = true := by
  induction txs with
  | nil => cases h
  | cons tx txs ih =>
    unfold checkTxs at h
    split at h
    · cases h
      rfl
    · exact ih h

/-! ### Blocks that are not judged -/

/-- A new block that passes the checks which need no state. -/
structure Plausible (bc : Blockchain) (nowMs : Int64) (b p : Block) : Prop where
  new : bc.db.blocks[b.hash]? = none
  timely : b.header.timestamp ≤ nowMs + maxFutureDriftMs
  difficulty : b.header.difficulty = derivedDifficulty bc.db bc.genesisDifficulty p.header
  pow : satisfiesPoW b.header = true
  txRoot : b.verifyTxRoot = true
  sane : ∀ tx ∈ b.txs, tx.sanityCheck bc.chainID = .ok ()

/-- A valid block of a branch that would become canonical, off the head. -/
structure Contends (bc : Blockchain) (nowMs : Int64) (b p : Block) (c : Checked) : Prop where
  timely : b.header.timestamp ≤ nowMs + maxFutureDriftMs
  accepted : Accepted bc b p c
  better : better ⟨b.header, c.td⟩ ⟨bc.head.header, c.headTD⟩ = true
  off : b.header.parentHash ≠ bc.head.hash

/-- A block with a stored parent that cannot be judged now: it is dated ahead of the clock, the state of its parent is
gone, or its branch forks off below the retained blocks. -/
inductive Deferred (bc : Blockchain) (nowMs : Int64) (b p : Block) : Prop
  | future : bc.db.blocks[b.hash]? = none → nowMs + maxFutureDriftMs < b.header.timestamp → Deferred bc nowMs b p
  | pruned : Plausible bc nowMs b p → bc.states[p.hash]? = none → Deferred bc nowMs b p
  | deep {c r} : Contends bc nowMs b p c → (bc.findFork bc.head b).1 = .ok r → bc.retention.toNat < r.dropped.length →
      Deferred bc nowMs b p

/-- A valid block of a branch with an ancestor that is not stored any more. -/
inductive Lost (bc : Blockchain) (nowMs : Int64) (b p : Block) : Prop
  | intro {c k} : Contends bc nowMs b p c → (bc.findFork bc.head b).1 = .error (.unknownParent k) → Lost bc nowMs b p

variable {nowMs : Int64}

theorem check_of_pruned (h : Plausible bc nowMs b p) (hs : bc.states[p.hash]? = none) :
    bc.check b p (derivedDifficulty bc.db bc.genesisDifficulty p.header) = .error (.reorgTooDeep p.hash) := by
  unfold check
  rw [if_neg (not_not.2 h.difficulty), if_neg (by simp [h.pow]), if_neg (by simp [h.txRoot]), checkTxs_of_sane h.sane]
  simp only [hs]

theorem check_error {want : UInt64} (h : bc.check b p want = .error e) :
    e.isFault = true ∨ e.isDeferral = true ∧ b.header.difficulty = want ∧ satisfiesPoW b.header = true ∧
      b.verifyTxRoot = true ∧ (∀ tx ∈ b.txs, tx.sanityCheck bc.chainID = .ok ()) ∧ bc.states[p.hash]? = none := by
  unfold check at h
  split_ifs at h with hd hpow htx
  · cases h
    exact .inl rfl
  · cases h
    exact .inl rfl
  · cases h
    exact .inl rfl
  · split at h
    next htxs =>
      cases h
      exact .inl (checkTxs_error htxs)
    next htxs =>
      split at h
      next hs =>
        cases h
        rw [not_not] at hd
        simp only [Bool.not_eq_true', Bool.not_eq_false] at hpow htx
        exact .inr ⟨rfl, hd, hpow, htx, checkTxs_ok htxs, hs⟩
      · split at h
        · cases h
          exact .inl rfl
        · split at h <;> cases h <;> exact .inl rfl

theorem insert_of_contends (hc : Coherent bc) {c : Checked} (h : Contends bc nowMs b p c) :
    (bc.insert b.toWire nowMs).1 = bc.reorgResult b c := by
  rw [insert_result hc h.accepted.new h.accepted.parent, if_neg (Int64.not_lt.2 h.timely), check_of_accepted h.accepted]
  dsimp only
  rw [place_sound, if_neg (by simp [h.better]), if_neg h.off, reorg_result hc]

/-- **A block that cannot be judged now is refused as such.** -/
theorem insert_of_deferred (hc : Coherent bc) (hp : bc.db.blocks[b.header.parentHash]? = some p)
    (h : Deferred bc nowMs b p) : ∃ e, (bc.insert b.toWire nowMs).1 = .error e ∧ e.isDeferral = true := by
  cases h with
  | future hnew hts =>
    rw [insert_result hc hnew hp, if_pos hts]
    exact ⟨_, rfl, rfl⟩
  | pruned h hs =>
    rw [insert_result hc h.new hp, if_neg (Int64.not_lt.2 h.timely), check_of_pruned h hs]
    exact ⟨_, rfl, rfl⟩
  | deep h hfork hdeep =>
    rw [insert_of_contends hc h, reorgResult, hfork]
    dsimp only
    rw [if_pos hdeep]
    exact ⟨_, rfl, rfl⟩

theorem insert_of_lost (hc : Coherent bc) (h : Lost bc nowMs b p) :
    ∃ k, (bc.insert b.toWire nowMs).1 = .error (.unknownParent k) := by
  obtain ⟨h, hfork⟩ := h
  rw [insert_of_contends hc h, reorgResult, hfork]
  exact ⟨_, rfl⟩

theorem reorgResult_error {b : Block} {c : Checked} (h : bc.reorgResult b c = .error e) :
    e.isFault = true ∨
      (e.isDeferral = true ∧ ∃ r, (bc.findFork bc.head b).1 = .ok r ∧ bc.retention.toNat < r.dropped.length) ∨
      ∃ k, e = .unknownParent k ∧ (bc.findFork bc.head b).1 = .error (.unknownParent k) := by
  unfold reorgResult at h
  split at h
  next hfork =>
    cases h
    rcases findFork_error hfork with hf | ⟨k, rfl⟩
    · exact .inl hf
    · exact .inr (.inr ⟨k, rfl, hfork⟩)
  next r hfork =>
    split_ifs at h with hdeep
    · cases h
      exact .inr (.inl ⟨rfl, r, hfork, hdeep⟩)
    · split at h
      next hu =>
        cases h
        exact .inl (unwindWrites_error hu)
      next ha =>
        cases h
        exact .inl (applyWrites_error ha)
      · cases h

/-- **Why the insertion of a block with a stored parent fails.** -/
theorem insert_error (hc : Coherent bc) (hp : bc.db.blocks[b.header.parentHash]? = some p) (h : (bc.insert b.toWire nowMs).1 = .error e) :
    e = .knownBlock ∨ e.isFault = true ∨ (e.isDeferral = true ∧ Deferred bc nowMs b p) ∨
      ∃ k, e = .unknownParent k ∧ Lost bc nowMs b p := by
  cases hnew : bc.db.blocks[b.hash]? with
  | some b' =>
    rw [insert_of_known (ExtTreeMap.mem_iff_isSome_getElem?.2 (by rw [show b.toWire.header.hash = b.hash from rfl, hnew]; rfl))] at h
    cases h
    exact .inl rfl
  | none =>
    rw [insert_result hc hnew hp] at h
    split_ifs at h with hts
    · cases h
      exact .inr (.inr (.inl ⟨rfl, .future hnew hts⟩))
    · have htimely := Int64.not_lt.1 hts
      cases hcheck : bc.check b p (derivedDifficulty bc.db bc.genesisDifficulty p.header) with
      | error e' =>
        rw [hcheck] at h
        cases h
        rcases check_error hcheck with hf | ⟨hdef, hd, hpow, htx, hsane, hs⟩
        · exact .inr (.inl hf)
        · exact .inr (.inr (.inl ⟨hdef, .pruned ⟨hnew, htimely, hd, hpow, htx, hsane⟩ hs⟩))
      | ok c =>
        rw [hcheck] at h
        obtain ⟨hd, hpow, htx, hsane, happ, htd, hhtd⟩ := check_ok hcheck
        have hacc : Accepted bc b p c := ⟨hnew, hp, hd, hpow, htx, hsane, happ, htd, hhtd⟩
        dsimp only at h
        rw [place_sound] at h
        split_ifs at h with hbetter hoff
        · obtain ⟨s, hs, -⟩ := happ
          unfold extend at h
          rw [← hc.hash _ _ hp, hs] at h
          cases h
        · have hcont : Contends bc nowMs b p c := ⟨htimely, hacc, by simpa using hbetter, hoff⟩
          rw [reorg_result hc] at h
          rcases reorgResult_error h with hf | ⟨hdef, r, hfork, hdeep⟩ | ⟨k, rfl, hfork⟩
          · exact .inr (.inl hf)
          · exact .inr (.inr (.inl ⟨hdef, .deep hcont hfork hdeep⟩))
          · exact .inr (.inr (.inr ⟨k, rfl, .intro hcont hfork⟩))

end Blockchain

end Lxs
