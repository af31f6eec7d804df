import Lxs.Core.Insertion

/-!
# What pruning drops

Pruning keeps every state and cached block from the cutoff on. The sweep deletes blocks below the cutoff that are not
canonical at their height, with their reverse diffs and total difficulties, and nothing else.
-/

set_option linter.unusedSectionVars false

namespace Lxs

open Std Lib

namespace Blockchain

variable [Crypto] {bc bc' : Blockchain}

def isOrphan (bc : Blockchain) (cutoff : UInt64) (h : Hash) : Bool :=
  match bc.db.blocks[h]? with
  | none => false
  | some b => h ≠ bc.genesis && b.height < cutoff && bc.db.canonical[b.height]? ≠ some h

variable {cutoff : UInt64}

theorem isOrphan_iff {h : Hash} : bc.isOrphan cutoff h = true ↔
    ∃ b, bc.db.blocks[h]? = some b ∧ h ≠ bc.genesis ∧ b.height < cutoff ∧ bc.db.canonical[b.height]? ≠ some h := by
  unfold isOrphan
  cases bc.db.blocks[h]? with
  | none => simp
  | some b => simp [and_assoc]

theorem commit_deletes (l : List (Hash × Block)) (db : Database) :
    db.commit (l.flatMap fun x => [.block x.1 none, .receipts x.1 none, .revDiff x.1 none, .td x.1 none]) =
      { db with
        blocks := FinMap.putAll db.blocks (l.map fun x => (x.1, none))
        receipts := FinMap.putAll db.receipts (l.map fun x => (x.1, none))
        revDiffs := FinMap.putAll db.revDiffs (l.map fun x => (x.1, none))
        tds := FinMap.putAll db.tds (l.map fun x => (x.1, none)) } := by
  induction l generalizing db with
  | nil => rfl
  | cons x l ih =>
    rw [List.flatMap_cons, Database.commit_append, ih]
    rfl

theorem getElem?_deleted {β : Type} (m : ExtTreeMap Hash β) (l : List Hash) (h : Hash) :
    (FinMap.putAll m (l.map fun k => (k, none)))[h]? = if h ∈ l then none else m[h]? := by
  rw [FinMap.getElem?_putAll fun _ => none]
  · simp only [List.map_map, Function.comp_def, List.map_id']
  · intro w hw
    obtain ⟨k, -, rfl⟩ := List.mem_map.1 hw
    rfl

/-- What `prune` leaves: states and cached blocks from `cutoff` on stay, and the blocks in `gone` are deleted. -/
structure Pruned (bc bc' : Blockchain) (cutoff : UInt64) (gone : Hash → Bool) : Prop where
  rest : bc' = { bc with db := bc'.db, blockCache := bc'.blockCache, states := bc'.states }
  db : bc'.db = { bc.db with
    blocks := bc'.db.blocks, receipts := bc'.db.receipts, revDiffs := bc'.db.revDiffs, tds := bc'.db.tds }
  cutoff_eq : cutoff.toNat = bc.head.height.toNat - bc.retention.toNat
  states_sub : ∀ (h : Hash) (s : State), bc'.states[h]? = some s → bc.states[h]? = some s
  states_high : ∀ (h : Hash) (s : State), bc'.states[h]? = some s →
    cutoff = 0 ∨ ∃ b, bc.blockCache[h]? = some b ∧ cutoff ≤ b.height
  states_keep : ∀ (h : Hash) (s : State) (b : Block), bc.states[h]? = some s → bc.blockCache[h]? = some b →
    cutoff ≤ b.height → bc'.states[h]? = some s
  cache_sub : ∀ (h : Hash) (b : Block), bc'.blockCache[h]? = some b →
    bc.blockCache[h]? = some b ∧ (cutoff ≤ b.height ∨ h = bc.genesis)
  cache_keep : ∀ (h : Hash) (b : Block), bc.blockCache[h]? = some b → cutoff ≤ b.height → bc'.blockCache[h]? = some b
  gone_orphan : ∀ h : Hash, gone h = true → bc.isOrphan cutoff h = true
  gone_sweep : ∀ h : Hash, gone h = true → bc.head.height % bc.gcInterval = 0
  blocks : ∀ h : Hash, bc'.db.blocks[h]? = if gone h then none else bc.db.blocks[h]?
  revDiffs : ∀ h : Hash, bc'.db.revDiffs[h]? = if gone h then none else bc.db.revDiffs[h]?
  tds : ∀ h : Hash, bc'.db.tds[h]? = if gone h then none else bc.db.tds[h]?

def orphans (bc : Blockchain) (cutoff : UInt64) : List Hash :=
  ((bc.db.blocks.toList.filter fun (h, b) => h ≠ bc.genesis ∧ b.height < cutoff).filter
    fun (h, b) => bc.db.canonical[b.height]? ≠ some h).map Prod.fst

theorem mem_orphans {h : Hash} : h ∈ bc.orphans cutoff ↔ bc.isOrphan cutoff h = true := by
  rw [isOrphan_iff]
  simp only [orphans, List.mem_map, List.mem_filter, decide_eq_true_eq]
  constructor
  · rintro ⟨⟨h', b⟩, ⟨⟨hb, hg, hlt⟩, hcan⟩, rfl⟩
    exact ⟨b, ExtTreeMap.mem_toList_iff_getElem?_eq_some.1 hb, hg, hlt, hcan⟩
  · rintro ⟨b, hb, hg, hlt, hcan⟩
    exact ⟨(h, b), ⟨⟨ExtTreeMap.mem_toList_iff_getElem?_eq_some.2 hb, hg, hlt⟩, hcan⟩, rfl⟩

theorem gcOrphans_db (bc : Blockchain) (cutoff : UInt64) : (bc.gcOrphans true cutoff).db =
    { bc.db with
      blocks := FinMap.putAll bc.db.blocks ((bc.orphans cutoff).map fun h => (h, none))
      receipts := FinMap.putAll bc.db.receipts ((bc.orphans cutoff).map fun h => (h, none))
      revDiffs := FinMap.putAll bc.db.revDiffs ((bc.orphans cutoff).map fun h => (h, none))
      tds := FinMap.putAll bc.db.tds ((bc.orphans cutoff).map fun h => (h, none)) } := by
  unfold gcOrphans orphans
  dsimp only
  rw [if_pos rfl, commit_deletes]
  simp only [List.map_map, Function.comp_def]

def dropOld (bc : Blockchain) (cutoff : UInt64) : Blockchain :=
  { bc with
    states := bc.states.filter fun h _ => bc.keepsState cutoff h
    blockCache := bc.blockCache.filter fun h b => !(b.height < cutoff && h ≠ bc.genesis) }

theorem dropOld_pruned (hcut : cutoff.toNat = bc.head.height.toNat - bc.retention.toNat) :
    Pruned bc (bc.dropOld cutoff) cutoff fun _ => false := by
  have hkeep : ∀ {h : Hash} {s : State}, (bc.dropOld cutoff).states[h]? = some s →
      bc.states[h]? = some s ∧ bc.keepsState cutoff h = true := by
    intro h s hs
    rw [dropOld, ExtTreeMap.getElem?_filter'] at hs
    obtain ⟨hs, hk⟩ := Option.filter_eq_some_iff.1 hs
    exact ⟨hs, hk⟩
  refine ⟨rfl, rfl, hcut, fun h s hs => (hkeep hs).1, fun h s hs => ?_, fun h s b hs hb hle => ?_, fun h b hb => ?_,
    fun h b hb hle => ?_, (fun _ hg => by cases hg), (fun _ hg => by cases hg), fun _ => rfl, fun _ => rfl, fun _ => rfl⟩
  · have hk := (hkeep hs).2
    unfold keepsState at hk
    split at hk
    · cases hk
    · rename_i b hb
      exact .inr ⟨b, hb, by simpa [UInt64.not_lt] using hk⟩
  · rw [dropOld, ExtTreeMap.getElem?_filter', hs]
    refine Option.filter_eq_some_iff.2 ⟨rfl, ?_⟩
    unfold keepsState
    rw [hb]
    simpa [UInt64.not_lt] using hle
  · rw [dropOld, ExtTreeMap.getElem?_filter'] at hb
    obtain ⟨hb, hk⟩ := Option.filter_eq_some_iff.1 hb
    refine ⟨hb, ?_⟩
    by_cases hg : h = bc.genesis
    · exact .inr hg
    · exact .inl (by simpa [hg, UInt64.not_lt] using hk)
  · rw [dropOld, ExtTreeMap.getElem?_filter', hb]
    exact Option.filter_eq_some_iff.2 ⟨rfl, by simp [UInt64.not_lt.2 hle]⟩

/-- The sweep reads tables that pruning the caches does not change. -/
theorem gcOrphans_pruned (hcut : cutoff.toNat = bc.head.height.toNat - bc.retention.toNat)
    (hsweep : bc.head.height % bc.gcInterval = 0) :
    Pruned bc ((bc.dropOld cutoff).gcOrphans true cutoff) cutoff (bc.isOrphan cutoff) := by
  have hdrop := dropOld_pruned hcut
  have hdel : ∀ {β : Type} (m : ExtTreeMap Hash β) (h : Hash),
      (FinMap.putAll m ((bc.orphans cutoff).map fun h => (h, none)))[h]? =
        if bc.isOrphan cutoff h then none else m[h]? := by
    intro β m h
    rw [getElem?_deleted]
    by_cases ho : bc.isOrphan cutoff h = true
    · rw [if_pos (mem_orphans.2 ho), if_pos ho]
    · rw [if_neg fun hm => ho (mem_orphans.1 hm), if_neg ho]
  have hdb := (bc.dropOld cutoff).gcOrphans_db cutoff
  refine ⟨rfl, ?_, hcut, hdrop.states_sub, hdrop.states_high, hdrop.states_keep, hdrop.cache_sub, hdrop.cache_keep,
    fun _ => id, fun _ _ => hsweep, fun h => ?_, fun h => ?_, fun h => ?_⟩
  · rw [hdb]
    rfl
  · rw [hdb]
    exact hdel bc.db.blocks h
  · rw [hdb]
    exact hdel bc.db.revDiffs h
  · rw [hdb]
    exact hdel bc.db.tds h

theorem prune_pruned (bc : Blockchain) (sweeps : Bool) : ∃ cutoff gone, Pruned bc (bc.prune sweeps) cutoff gone := by
  unfold prune
  split_ifs with hle hgc
  · -- nothing to prune
    have hle' := UInt64.le_iff_toNat_le.1 hle
    have h0 : ∀ n : UInt64, 0 ≤ n := fun n => UInt64.le_iff_toNat_le.2 (Nat.zero_le _)
    exact ⟨0, fun _ => false, rfl, rfl, by rw [Nat.sub_eq_zero_of_le hle']; rfl, fun _ _ => id, fun _ _ _ => .inl rfl,
      fun _ _ _ hs _ _ => hs, fun _ b hb => ⟨hb, .inl (h0 _)⟩, fun _ _ hb _ => hb, (fun _ hg => by cases hg),
      (fun _ hg => by cases hg), fun _ => rfl, fun _ => rfl, fun _ => rfl⟩
  all_goals
    have hlt := UInt64.lt_iff_toNat_lt.1 (UInt64.not_le.1 hle)
    have hcut : (bc.head.height - bc.retention).toNat = bc.head.height.toNat - bc.retention.toNat :=
      toNat_sub_le hlt.le
  · cases sweeps with
    | true => exact ⟨_, _, gcOrphans_pruned hcut hgc⟩
    | false => exact ⟨_, _, dropOld_pruned hcut⟩
  · exact ⟨_, _, dropOld_pruned hcut⟩

theorem receipts_prune {h : Hash} {b : Block} (hb : (bc.prune true).db.blocks[h]? = some b) :
    (bc.prune true).db.receipts[h]? = bc.db.receipts[h]? := by
  unfold prune at hb ⊢
  split_ifs at hb ⊢
  · rfl
  · dsimp only at hb ⊢
    rw [gcOrphans_db, getElem?_deleted] at hb ⊢
    rw [if_neg fun hm => by rw [if_pos hm] at hb; cases hb]
  · rfl

end Blockchain

end Lxs
