import Lxs.Lib.UndoLog
import Lxs.State.Accounts

/-!
# Savepoints are deep copies

The state as an undo-log store: accounts and touched flags are undone entry by entry, the log list
and the burn total are saved by value. Reverting to a savepoint therefore restores the state exactly,
and a run of the state's operations agrees with a run that copies the whole state at every snapshot.
-/

namespace Lxs

open Std Lib

/-! ### The state as an undo-log store -/

abbrev Accounts := ExtTreeMap Address Leaf × ExtTreeSet Address
abbrev Scalars := List Log × ℤ

/-- Reverting truncates the logs to the count saved, so they may only grow in between. -/
def savepoints : UndoLog.Discipline Accounts JournalEntry Scalars (ℕ × ℤ) where
  undo := State.undoEntry
  save x := (x.1.length, x.2)
  restore k x := (x.1.take k.1, k.2)
  Grows x y := x.1 <+: y.1
  grows_refl _ := List.prefix_rfl
  grows_trans := List.IsPrefix.trans
  restore_save h := Prod.ext (List.prefix_iff_eq_take.1 h).symm rfl

namespace State

def toStore (s : State) : UndoLog.Store Accounts JournalEntry Scalars (ℕ × ℤ) where
  world := (s.accounts, s.touched)
  extra := (s.logs, s.burned)
  journal := s.journal
  marks := s.snapshots.map fun p => (p.journalLen, p.logCount, p.burned)

theorem toStore_injective {s t : State} (h : s.toStore = t.toStore) (hb : s.bctx = t.bctx) : s = t := by
  obtain ⟨accounts, touched, snapshots, journal, logs, bctx, burned⟩ := s
  obtain ⟨accounts', touched', snapshots', journal', logs', bctx', burned'⟩ := t
  simp only [toStore, UndoLog.Store.mk.injEq, Prod.mk.injEq] at h hb
  obtain ⟨⟨rfl, rfl⟩, ⟨rfl, rfl⟩, rfl, hm⟩ := h
  have hs : snapshots = snapshots' := by
    refine List.map_injective_iff.2 (fun p q hpq => ?_) hm
    cases p; cases q; simpa using hpq
  rw [hs, hb]

def entryOf (addr : Address) (w : Accounts) : JournalEntry := ⟨addr, w.1[addr]?, addr ∈ w.2⟩

def write (addr : Address) (acc : Account) (w : Accounts) : Accounts :=
  (FinMap.put w.1 addr acc.leaf?, w.2.insert addr)

theorem undoEntry_write (addr : Address) (acc : Account) (w : Accounts) :
    undoEntry (entryOf addr w) (write addr acc w) = w := by
  refine Prod.ext ?_ ?_
  · refine ExtTreeMap.ext_getElem? fun a => ?_
    simp only [undoEntry, entryOf, write, FinMap.getElem?_put]
    split
    · subst addr; rfl
    · rfl
  · refine ExtTreeSet.ext_mem fun a => ?_
    simp only [undoEntry, entryOf, write, decide_eq_true_eq]
    by_cases ha : addr = a
    · subst ha
      by_cases ht : addr ∈ w.2 <;> simp [ht]
    · by_cases ht : addr ∈ w.2 <;> simp [ht, ha]

theorem toStore_set (s : State) (addr : Address) (acc : Account) :
    (s.set addr acc).toStore = s.toStore.write (entryOf addr s.toStore.world) (write addr acc s.toStore.world) := by
  obtain ⟨accounts, touched, snapshots, journal, logs, bctx, burned⟩ := s
  cases snapshots <;> rfl

theorem toStore_snapshot (s : State) : s.snapshot.toStore = s.toStore.mark savepoints := by
  simp [toStore, snapshot, UndoLog.Store.mark, savepoints]

theorem toStore_revertToSnapshot (s : State) (id : ℕ) :
    (s.revertToSnapshot id).toStore = s.toStore.revert savepoints id := by
  unfold revertToSnapshot UndoLog.Store.revert
  cases h : s.snapshots[id]? with
  | none => simp [toStore, h]
  | some p => simp [toStore, h, savepoints]

theorem revertToSnapshot_bctx (s : State) (id : ℕ) : (s.revertToSnapshot id).bctx = s.bctx := by
  unfold revertToSnapshot
  split <;> rfl

/-! ### Coming back to a savepoint -/

/-- The state `s` was reached from `b` without going below the savepoints of `b`. -/
structure Extends (b s : State) : Prop where
  store : UndoLog.Extends savepoints b.toStore s.toStore
  bctx : s.bctx = b.bctx

namespace Extends

variable {b s : State}

theorem refl (b : State) : Extends b b := ⟨.refl _, rfl⟩

theorem set (h : Extends b s) (hs : s.snapshots ≠ []) (addr : Address) (acc : Account) :
    Extends b (s.set addr acc) := by
  refine ⟨?_, h.bctx⟩
  rw [toStore_set]
  exact h.store.write (by simpa [toStore] using hs) (undoEntry_write addr acc _)

theorem addLog (h : Extends b s) (log : Log) : Extends b (s.addLog log) :=
  ⟨h.store.update (List.prefix_append _ _), h.bctx⟩

theorem burn (h : Extends b s) (amount : Option ℤ) : Extends b (s.burn amount) := by
  cases amount with
  | none => exact h
  | some v =>
    unfold State.burn
    dsimp only
    split
    · exact h
    · exact ⟨h.store.update List.prefix_rfl, h.bctx⟩

theorem snapshot (h : Extends b s) : Extends b s.snapshot := by
  refine ⟨?_, h.bctx⟩
  rw [toStore_snapshot]
  exact h.store.mark

end Extends

/-- **Reverting to a savepoint gives back the state in which it was taken.** -/
theorem revertToSnapshot_of_extends {b s : State} (h : Extends b.snapshot s) :
    s.revertToSnapshot b.snapshots.length = b := by
  refine toStore_injective ?_ ((s.revertToSnapshot_bctx _).trans h.bctx)
  have hs := h.store
  rw [toStore_snapshot] at hs
  rw [toStore_revertToSnapshot]
  simpa [toStore] using UndoLog.revert_of_extends hs

end State

/-! ### Runs of operations -/

/-- The operations on a state between and inside transactions. -/
inductive StateOp
  | addBalance (addr : Address) (amount : ℤ)
  | subBalance (addr : Address) (amount : ℤ)
  | setNonce (addr : Address) (nonce : UInt64)
  | setStorage (addr : Address) (key value : Hash)
  | setCode (addr : Address) (code : Bytes)
  | burn (amount : Option ℤ)
  | addLog (log : Log)
  | snapshot
  | revertToSnapshot (id : ℕ)
  | discardSnapshots

def State.exec (s : State) : StateOp → State
  | .addBalance addr amount => s.credit addr amount
  | .subBalance addr amount => s.subBalance addr amount
  | .setNonce addr nonce => s.setNonce addr nonce
  | .setStorage addr key value => s.setStorage addr key value
  | .setCode addr code => s.setCode addr code
  | .burn amount => s.burn amount
  | .addLog log => s.addLog log
  | .snapshot => s.snapshot
  | .revertToSnapshot id => s.revertToSnapshot id
  | .discardSnapshots => s.discardSnapshots

/-- The state that keeps a full `copy` of itself for every savepoint. -/
structure DeepCopies where
  current : State
  copies : List State

def DeepCopies.exec (d : DeepCopies) : StateOp → DeepCopies
  | .snapshot => { d with copies := d.copies ++ [d.current.copy] }
  | .revertToSnapshot id =>
    match d.copies[id]? with
    | none => d
    | some c => ⟨c, d.copies.take id⟩
  | .discardSnapshots => { d with copies := [] }
  | op => { d with current := d.current.exec op }

/-! ### The simulation -/

def updateOp (addr : Address) (f : Account → Account) : UndoLog.Op Accounts JournalEntry Scalars :=
  .write fun w => (State.entryOf addr w, State.write addr (f (readLeaf w.1[addr]?)) w)

def StateOp.toOp : StateOp → UndoLog.Op Accounts JournalEntry Scalars
  | addBalance addr amount => updateOp addr fun acc => { acc with balance := acc.balance + amount }
  | subBalance addr amount => updateOp addr fun acc => { acc with balance := acc.balance - amount }
  | setNonce addr nonce => updateOp addr fun acc => { acc with nonce := nonce }
  | setStorage addr key value => updateOp addr fun acc =>
    { acc with storage := if value = zeroHash then acc.storage.erase key else acc.storage.insert key value }
  | setCode addr code => updateOp addr fun acc => { acc with code := code }
  | burn none => .update id
  | burn (some v) => .update fun x => if v ≤ 0 then x else (x.1, x.2 + v)
  | addLog log => .update fun x => (x.1 ++ [log], x.2)
  | snapshot => .mark
  | revertToSnapshot id => .revert id
  | discardSnapshots => .discard

theorem StateOp.toOp_lawful (op : StateOp) : op.toOp.Lawful savepoints := by
  cases op with
  | burn amount =>
    cases amount with
    | none => exact fun x => savepoints.grows_refl x
    | some v =>
      intro x
      dsimp only
      split
      · exact savepoints.grows_refl x
      · exact List.prefix_rfl
  | addLog log => exact fun x => List.prefix_append _ _
  | snapshot | revertToSnapshot | discardSnapshots => trivial
  | addBalance addr | subBalance addr | setNonce addr | setStorage addr | setCode addr =>
    exact fun w => State.undoEntry_write addr _ w

theorem State.toStore_exec (s : State) (op : StateOp) :
    (s.exec op).toStore = s.toStore.exec savepoints op.toOp := by
  cases op with
  | burn amount =>
    cases amount with
    | none => rfl
    | some v =>
      simp only [exec, State.burn, StateOp.toOp, UndoLog.Store.exec]
      split <;> rfl
  | snapshot => exact s.toStore_snapshot
  | revertToSnapshot id => exact s.toStore_revertToSnapshot id
  | addLog | discardSnapshots => rfl
  | addBalance addr | subBalance addr | setNonce addr | setStorage addr | setCode addr =>
    exact s.toStore_set addr _

theorem State.exec_bctx (s : State) (op : StateOp) : (s.exec op).bctx = s.bctx := by
  cases op with
  | burn amount =>
    cases amount with
    | none => rfl
    | some v =>
      simp only [exec, State.burn]
      split <;> rfl
  | revertToSnapshot id => exact s.revertToSnapshot_bctx id
  | _ => rfl

namespace DeepCopies

def view (s : State) : Accounts × Scalars := (s.toStore.world, s.toStore.extra)

def toCopying (d : DeepCopies) : UndoLog.Copying Accounts Scalars :=
  ⟨d.current.toStore.world, d.current.toStore.extra, d.copies.map view⟩

theorem toCopying_exec (d : DeepCopies) (op : StateOp) : (d.exec op).toCopying = d.toCopying.exec op.toOp := by
  cases op with
  | burn amount =>
    cases amount with
    | none => rfl
    | some v =>
      simp only [exec, State.exec, State.burn, StateOp.toOp, UndoLog.Copying.exec, toCopying]
      split <;> rfl
  | snapshot => simp [exec, toCopying, StateOp.toOp, UndoLog.Copying.exec, view, State.copy, State.toStore]
  | revertToSnapshot id =>
    simp only [exec, toCopying, StateOp.toOp, UndoLog.Copying.exec, List.getElem?_map]
    cases d.copies[id]? with
    | none => rfl
    | some c => simp [view, List.map_take]
  | _ => rfl

/-- No state kept has savepoints or a journal of its own. -/
structure Plain (b : BlockContext) (d : DeepCopies) : Prop where
  current : d.current.copy = d.current ∧ d.current.bctx = b
  copies : ∀ c ∈ d.copies, c.copy = c ∧ c.bctx = b

theorem Plain.exec {b : BlockContext} {d : DeepCopies} (h : d.Plain b) (op : StateOp) : (d.exec op).Plain b := by
  have hc : ∀ a acc, (d.current.set a acc).copy = d.current.set a acc ∧ (d.current.set a acc).bctx = b := by
    intro a acc
    refine ⟨?_, h.current.2⟩
    rw [← h.current.1]
    rfl
  cases op with
  | addBalance addr | subBalance addr | setNonce addr | setStorage addr | setCode addr =>
    exact ⟨hc addr _, h.copies⟩
  | burn amount =>
    refine ⟨⟨?_, (d.current.exec_bctx (.burn amount)).trans h.current.2⟩, h.copies⟩
    cases amount with
    | none => exact h.current.1
    | some v =>
      simp only [DeepCopies.exec, State.exec, State.burn]
      split
      · exact h.current.1
      · rw [← h.current.1]; rfl
  | addLog log =>
    refine ⟨⟨?_, h.current.2⟩, h.copies⟩
    simp only [DeepCopies.exec, State.exec]
    rw [← h.current.1]
    rfl
  | snapshot =>
    refine ⟨h.current, fun c hm => ?_⟩
    rcases List.mem_append.1 hm with hm | hm
    · exact h.copies c hm
    · rw [List.mem_singleton.1 hm]
      exact ⟨rfl, h.current.2⟩
  | revertToSnapshot id =>
    simp only [DeepCopies.exec]
    split
    · exact h
    · rename_i c hid
      exact ⟨h.copies c (List.mem_of_getElem? hid), fun a ha => h.copies a (List.mem_of_mem_take ha)⟩
  | discardSnapshots => exact ⟨h.current, by simp [DeepCopies.exec]⟩

theorem Plain.run {b : BlockContext} {d : DeepCopies} (h : d.Plain b) (ops : List StateOp) :
    (ops.foldl DeepCopies.exec d).Plain b := by
  induction ops generalizing d with
  | nil => exact h
  | cons op ops ih => exact ih (h.exec op)

end DeepCopies

theorem State.toStore_run (s : State) (ops : List StateOp) :
    (ops.foldl State.exec s).toStore = (ops.map StateOp.toOp).foldl (UndoLog.Store.exec savepoints) s.toStore ∧
      (ops.foldl State.exec s).bctx = s.bctx := by
  induction ops generalizing s with
  | nil => exact ⟨rfl, rfl⟩
  | cons op ops ih =>
    obtain ⟨h1, h2⟩ := ih (s.exec op)
    exact ⟨by rw [List.foldl_cons, h1, s.toStore_exec]; rfl, h2.trans (s.exec_bctx op)⟩

theorem DeepCopies.toCopying_run (d : DeepCopies) (ops : List StateOp) :
    (ops.foldl DeepCopies.exec d).toCopying = (ops.map StateOp.toOp).foldl UndoLog.Copying.exec d.toCopying := by
  induction ops generalizing d with
  | nil => rfl
  | cons op ops ih => rw [List.foldl_cons, ih, d.toCopying_exec]; rfl

theorem DeepCopies.eq_copy_of_view {s c : State} (hc : c.copy = c) (hb : c.bctx = s.bctx) (hv : view c = view s) :
    s.copy = c := by
  simp only [view, State.toStore, Prod.mk.injEq] at hv
  obtain ⟨⟨ha, ht⟩, hl, hn⟩ := hv
  rw [← hc]
  simp only [State.copy, ha, ht, hl, hn, hb]

/-- **Savepoints equal deep copies.** Start from a state without savepoints and run any operations: the
state agrees with the one that copies itself at every snapshot, in its accounts, touched set, logs and
burn total and in the number of live savepoints, and reverting to any live savepoint gives the copy
taken when its id was returned, with the savepoints below it as they were. -/
theorem run_eq_deepCopies (s : State) (hs : s.snapshots = []) (ops : List StateOp) :
    let t := ops.foldl State.exec s
    let d := ops.foldl DeepCopies.exec ⟨s.copy, []⟩
    t.copy = d.current ∧ t.snapshots.length = d.copies.length ∧
      ∀ (id : ℕ) (c : State), d.copies[id]? = some c →
        (t.revertToSnapshot id).copy = c ∧ (t.revertToSnapshot id).snapshots.length = id := by
  intro t d
  have hinit : DeepCopies.Plain s.bctx ⟨s.copy, []⟩ := ⟨⟨rfl, rfl⟩, by simp⟩
  have hplain : d.Plain s.bctx := hinit.run ops
  have hbctx : t.bctx = s.bctx := (s.toStore_run ops).2
  -- the undo-log store simulates the copying store from the start, where no mark is live
  have hstart : UndoLog.Simulates savepoints s.toStore (DeepCopies.toCopying ⟨s.copy, []⟩) :=
    ⟨[], UndoLog.Live.of_no_marks (by simp [State.toStore, hs]), rfl⟩
  have hlawful : ∀ op ∈ ops.map StateOp.toOp, op.Lawful savepoints := by
    rintro _ hop
    obtain ⟨op, -, rfl⟩ := List.mem_map.1 hop
    exact op.toOp_lawful
  have hrun := hstart.run _ hlawful
  rw [← (s.toStore_run ops).1, ← DeepCopies.toCopying_run] at hrun
  obtain ⟨cs, hlive, heq⟩ := hrun
  simp only [DeepCopies.toCopying, UndoLog.Copying.mk.injEq] at heq
  obtain ⟨hw, hx, hcs⟩ := heq
  have hlen : d.copies.length = cs.length := by simpa using congrArg List.length hcs
  refine ⟨DeepCopies.eq_copy_of_view hplain.current.1 (hplain.current.2.trans hbctx.symm) (Prod.ext hw hx), ?_, ?_⟩
  · rw [hlen, ← hlive.depth]
    simp [State.toStore, t]
  · intro id c hid
    obtain ⟨hcc, hcb⟩ := hplain.copies c (List.mem_of_getElem? hid)
    have hv : (cs[id]?).map (fun b => (b.world, b.extra)) = some (DeepCopies.view c) := by
      rw [← List.getElem?_map, ← hcs, List.getElem?_map, hid]
      rfl
    obtain ⟨b, hb, hbv⟩ := Option.map_eq_some_iff.1 hv
    have hr : (t.revertToSnapshot id).toStore = b := (t.toStore_revertToSnapshot id).trans (hlive.revert_eq hb)
    refine ⟨DeepCopies.eq_copy_of_view hcc ?_ ?_, ?_⟩
    · rw [hcb, State.revertToSnapshot_bctx, hbctx]
    · rw [← hbv, ← hr]
      rfl
    · have := hlive.level id b hb
      rw [← hr] at this
      simpa [State.toStore] using this

/-- Two nested savepoints over one account, the outer one reverted to after a write in each. -/
theorem run_eq_deepCopies_nested :
    let ops := [.addBalance 1 5, .snapshot, .subBalance 1 5, .snapshot, .setNonce 1 7, .revertToSnapshot 0]
    State.new.snapshots = [] ∧ (ops.foldl State.exec State.new).copy =
      (ops.foldl DeepCopies.exec ⟨State.new.copy, []⟩).current :=
  ⟨rfl, (run_eq_deepCopies State.new rfl _).1⟩

end Lxs
