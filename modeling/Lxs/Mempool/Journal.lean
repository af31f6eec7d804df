import Mathlib.Data.List.TakeWhile
import Lxs.Mempool.Admission
import Lxs.State.Transactions

/-!
# The journal of local transactions

`mempool/journal.go`: transactions submitted at this node are appended to a file and replayed at the next start. The file
is rewritten only when a local transaction is mined; lines of transactions that were evicted or demoted stay until then,
and are replayed without looking at the state. The length of a line is that of its JSON, which is not modelled; a file is
given with the orders in which the pool is iterated while its lines are replayed.

## Main results

* `Mempool.locals_survive` — **a restart keeps what was submitted, in runs in which nothing that was submitted comes back
  into the pool unrecorded, when the lines of the file fit**;
* `Mempool.reinjected_lost` — a submitted transaction that was mined and taken back by a reorg is lost.
-/

namespace Lxs

open Std Lib

namespace Mempool

variable [Crypto]

/-! ### Replaying -/

/-- The buffer of the scanner: a line and its newline fit into it. -/
def maxLine : ℕ := 8388608

def replay (m : Mempool) (chainID : UInt64) : List (Transaction × MapOrder) → Option (Mempool × ℕ)
  | [] => some (m, 0)
  | (tx, o) :: lines =>
    match m.addLocal tx chainID o with
    | none => none
    | some (m, .error _) => replay m chainID lines
    | some (m, .ok _) => (replay m chainID lines).map fun (m, n) => (m, n + 1)

/-- The scanner stops at a line that is too long. While the lines are replayed the file is not open, and nothing is
appended to it. -/
def enableJournal (m : Mempool) (chainID : UInt64) (lineLen : Transaction → ℕ) (file : List (Transaction × MapOrder)) :
    Option (Mempool × ℕ) :=
  (replay { m with journal := none } chainID (file.takeWhile fun line => lineLen line.1 < maxLine)).map
    fun (m, n) => ({ m with journal := some [] }.rewriteJournal, n)

/-! ### The life of a process -/

/-- A pool, and the hashes of all that was given to `addLocal`, whatever the answer was. -/
structure Life where
  pool : Mempool
  submitted : List Hash

inductive LifeOp
  | addLocal (tx : Transaction) (o : MapOrder)
  | add (tx : Transaction) (o : MapOrder)
  | remove (txs : List Transaction)
  | demote (s : State)
  | reinject (txs : List (Transaction × MapOrder))

def Life.exec (chainID : UInt64) (l : Life) : LifeOp → Except Unit Life
  | .addLocal tx o => (outcome (l.pool.addLocal tx chainID o)).map fun m => ⟨m, tx.hash :: l.submitted⟩
  | .add tx o => (outcome (l.pool.add tx chainID true o)).map fun m => { l with pool := m }
  | .remove txs => .ok { l with pool := l.pool.remove txs }
  | .demote s => .ok { l with pool := (l.pool.demote s).1 }
  | .reinject txs => (outcome (l.pool.reinject chainID txs)).map fun m => { l with pool := m }

def Life.start (m : Mempool) : Life := ⟨m, m.local.toList⟩

/-- The calls after which what was submitted and is pending is in the set of local transactions: what is submitted is not
already pending without being in it, and what was submitted does not come back by gossip or by a reorg once it has left
it. (A local transaction was priced above the floor.) -/
def Life.Recorded (l : Life) : LifeOp → Prop
  | .addLocal tx _ => tx.hash ∈ l.pool.all → tx.hash ∈ l.pool.local
  | .add tx _ => tx.hash ∈ l.submitted → tx.hash ∈ l.pool.local
  | .remove _ => True
  | .demote _ => True
  | .reinject txs => ∀ line ∈ txs, line.1.hash ∈ l.submitted →
      line.1.hash ∈ l.pool.local ∧ l.pool.isUnderpriced line.1 = false

/-- Lines that all fit into a new pool: none is too long for the scanner, none takes the place of another, and there are
not too many of them for an account or for the pool. -/
structure Fits (lineLen : Transaction → ℕ) (maxSize : ℤ) (lines : List Transaction) : Prop where
  short : ∀ tx ∈ lines, lineLen tx < maxLine
  places : ∀ x ∈ lines, ∀ y ∈ lines, x.sender = y.sender → x.nonce = y.nonce → x.hash = y.hash
  accounts : ∀ a, ((lines.filter fun tx => tx.sender = .ok a).map Transaction.nonce).toFinset.card ≤ maxPerAccount
  total : ((lines.map Transaction.hash).toFinset.card : ℤ) ≤ maxSize

/-! ### What the calls leave alone -/

/-- All but the indexes is the same. -/
structure Frame (m m' : Mempool) : Prop where
  maxSize : m'.maxSize = m.maxSize
  minGasPrice : m'.minGasPrice = m.minGasPrice
  «local» : m'.local = m.local
  journal : m'.journal = m.journal

omit [Crypto] in
theorem Frame.refl (m : Mempool) : Frame m m := ⟨rfl, rfl, rfl, rfl⟩

omit [Crypto] in
theorem Frame.trans {m₁ m₂ m₃ : Mempool} (h : Frame m₁ m₂) (h' : Frame m₂ m₃) : Frame m₁ m₃ :=
  ⟨h'.maxSize.trans h.maxSize, h'.minGasPrice.trans h.minGasPrice, h'.local.trans h.local, h'.journal.trans h.journal⟩

variable {m m' : Mempool}

omit [Crypto] in
theorem Frame.isUnderpriced (h : Frame m m') (tx : Transaction) :
    m'.isUnderpriced tx = m.isUnderpriced tx := by rw [Mempool.isUnderpriced, h.minGasPrice, Mempool.isUnderpriced]

variable {tx : Transaction} {chainID : UInt64} {o : MapOrder}

theorem add_all {enforceFloor : Bool}
    {r : Except PoolError Unit} (h : m.add tx chainID enforceFloor o = some (m', r)) : Frame m m' ∧
      (r = .ok () → tx.sanityCheck chainID = .ok () ∧ (enforceFloor && m.isUnderpriced tx) = false ∧ tx.hash ∉ m.all) ∧
      ∀ (k : Hash) (t : Transaction), m'.all[k]? = some t → m.all[k]? = some t ∨ r = .ok () ∧ k = tx.hash ∧ t = tx := by
  cases add_some h with
  | check => exact ⟨.refl m, fun h => (by cases h), fun _ _ => .inl⟩
  | underpriced => exact ⟨.refl m, fun h => (by cases h), fun _ _ => .inl⟩
  | known => exact ⟨.refl m, fun h => (by cases h), fun _ _ => .inl⟩
  | taken hsane hfloor hnew _ htaken =>
    cases htaken with
    | nonceUsed => exact ⟨⟨rfl, rfl, rfl, rfl⟩, fun h => (by cases h), fun _ _ => .inl⟩
    | accountLimit => exact ⟨⟨rfl, rfl, rfl, rfl⟩, fun h => (by cases h), fun _ _ => .inl⟩
    | refused => exact ⟨⟨rfl, rfl, rfl, rfl⟩, fun h => (by cases h), fun _ _ => .inl⟩
    | placed =>
      refine ⟨⟨rfl, rfl, rfl, rfl⟩, fun _ => ⟨hsane, hfloor, hnew⟩, fun k t ht => ?_⟩
      simp only [written, ExtTreeMap.getElem?_insert, LawfulEqCmp.compare_eq_iff_eq] at ht
      split at ht
      case isTrue hk => exact .inr ⟨rfl, hk.symm, (Option.some.inj ht).symm⟩
      case isFalse => exact .inl ht
    | swapped =>
      refine ⟨⟨rfl, rfl, rfl, rfl⟩, fun _ => ⟨hsane, hfloor, hnew⟩, fun k t ht => ?_⟩
      simp only [written, Mempool.dropLocked, ExtTreeMap.getElem?_insert, ExtTreeMap.getElem?_erase,
        LawfulEqCmp.compare_eq_iff_eq] at ht
      split at ht
      case isTrue hk => exact .inr ⟨rfl, hk.symm, (Option.some.inj ht).symm⟩
      case isFalse =>
        split at ht
        · cases ht
        · exact .inl ht

theorem reinject_all (txs : List (Transaction × MapOrder)) : ∀ {m m' : Mempool} {n : ℕ},
    m.reinject chainID txs = some (m', n) → Frame m m' ∧
      ∀ (k : Hash) (t : Transaction), m'.all[k]? = some t →
        m.all[k]? = some t ∨ k = t.hash ∧ t.sanityCheck chainID = .ok () ∧ ∃ o, (t, o) ∈ txs := by
  induction txs with
  | nil =>
    intro m m' n h
    cases h
    exact ⟨.refl m, fun _ _ => .inl⟩
  | cons line txs ih =>
    obtain ⟨tx, o⟩ := line
    intro m m' n h
    rw [Mempool.reinject] at h
    cases hadd : m.add tx chainID false o with
    | none =>
      rw [hadd] at h
      cases h
    | some res =>
      obtain ⟨m₁, r⟩ := res
      obtain ⟨hframe₁, hok, hall₁⟩ := add_all hadd
      obtain ⟨n', hrest⟩ : ∃ n', m₁.reinject chainID txs = some (m', n') := by
        rw [hadd] at h
        cases r with
        | error e => exact ⟨n, h⟩
        | ok u =>
          obtain ⟨⟨m₂, n'⟩, hre, heq⟩ := Option.map_eq_some_iff.1 h
          cases heq
          exact ⟨n', hre⟩
      obtain ⟨hframe, hall⟩ := ih hrest
      refine ⟨hframe₁.trans hframe, fun k t ht => ?_⟩
      rcases hall k t ht with ht | ⟨hk, hsane, o', hmem⟩
      · rcases hall₁ k t ht with ht | ⟨hr, hk, rfl⟩
        · exact .inl ht
        · exact .inr ⟨hk, (hok hr).1, o, List.mem_cons_self⟩
      · exact .inr ⟨hk, hsane, o', List.mem_cons_of_mem _ hmem⟩

/-! ### What a life keeps -/

def Admits (m : Mempool) (chainID : UInt64) (tx : Transaction) : Prop :=
  tx.sanityCheck chainID = .ok () ∧ m.isUnderpriced tx = false

theorem Frame.admits (h : Frame m m') :
    m'.Admits chainID tx ↔ m.Admits chainID tx := by rw [Admits, h.isUnderpriced, Admits]

/-- Every line can be admitted again, every local transaction has a line, and what was submitted and is pending is
local. -/
structure Life.Kept (chainID : UInt64) (floor : Option ℤ) (l : Life) (lines : List Transaction) : Prop where
  floor : l.pool.minGasPrice = floor
  journal : l.pool.journal = some lines
  admits : ∀ tx ∈ lines, l.pool.Admits chainID tx
  listed : ∀ h ∈ l.pool.local, ∃ tx ∈ lines, tx.hash = h
  pending : ∀ (h : Hash) (tx : Transaction), l.pool.all[h]? = some tx →
    tx.hash = h ∧ tx.sanityCheck chainID = .ok () ∧ (h ∈ l.pool.local → l.pool.isUnderpriced tx = false)
  recorded : ∀ h ∈ l.submitted, h ∈ l.pool.all → h ∈ l.pool.local
  submitted : ∀ h ∈ l.pool.local, h ∈ l.submitted

omit [Crypto] in
theorem mem_stillLocal (m : Mempool) (k : Hash) : k ∈ m.local.filter (· ∈ m.all) ↔ k ∈ m.local ∧ k ∈ m.all := by
  rw [← ExtTreeSet.mem_toList, ExtTreeSet.toList_filter, List.mem_filter, ExtTreeSet.mem_toList, decide_eq_true_eq]

namespace Life.Kept

variable {chainID : UInt64} {floor : Option ℤ} {l : Life} {lines : List Transaction}

theorem of_frame (h : l.Kept chainID floor lines) (hframe : Frame l.pool m)
    (hall : ∀ (k : Hash) (t : Transaction), m.all[k]? = some t → l.pool.all[k]? = some t ∨
      (k = t.hash ∧ t.sanityCheck chainID = .ok () ∧ (k ∈ l.submitted → k ∈ l.pool.local) ∧
        (k ∈ l.pool.local → l.pool.isUnderpriced t = false))) : Life.Kept chainID floor { l with pool := m } lines where
  floor := hframe.minGasPrice.trans h.floor
  journal := hframe.journal.trans h.journal
  admits tx htx := hframe.admits.2 (h.admits tx htx)
  listed k hk := h.listed k (hframe.local ▸ hk)
  pending k t ht := by
    dsimp only
    rw [hframe.local, hframe.isUnderpriced]
    rcases hall k t ht with ht | ⟨hk, hsane, -, hpriced⟩
    · exact h.pending k t ht
    · exact ⟨hk.symm, hsane, hpriced⟩
  recorded k hk hmem := by
    dsimp only
    rw [hframe.local]
    obtain ⟨t, ht⟩ := Option.isSome_iff_exists.1 (ExtTreeMap.mem_iff_isSome_getElem?.1 hmem)
    rcases hall k t ht with ht | ⟨-, -, hlocal, -⟩
    · exact h.recorded k hk (ExtTreeMap.mem_iff_isSome_getElem?.2 (by rw [ht]; rfl))
    · exact hlocal hk
  submitted k hk := h.submitted k (hframe.local ▸ hk)

theorem add (h : l.Kept chainID floor lines) {o : MapOrder} {r : Except PoolError Unit}
    (hadd : l.pool.add tx chainID true o = some (m, r)) (hrec : tx.hash ∈ l.submitted → tx.hash ∈ l.pool.local) :
    Life.Kept chainID floor { l with pool := m } lines := by
  obtain ⟨hframe, hok, hall⟩ := add_all hadd
  refine h.of_frame hframe fun k t ht => (hall k t ht).imp id ?_
  rintro ⟨hr, rfl, rfl⟩
  obtain ⟨hsane, hfloor, -⟩ := hok hr
  exact ⟨rfl, hsane, hrec, fun _ => by simpa using hfloor⟩

theorem reinject (h : l.Kept chainID floor lines) {txs : List (Transaction × MapOrder)} {n : ℕ}
    (hre : l.pool.reinject chainID txs = some (m, n)) (hrec : l.Recorded (.reinject txs)) :
    Life.Kept chainID floor { l with pool := m } lines := by
  obtain ⟨hframe, hall⟩ := reinject_all txs hre
  refine h.of_frame hframe fun k t ht => (hall k t ht).imp id ?_
  rintro ⟨rfl, hsane, o, hmem⟩
  exact ⟨rfl, hsane, fun hk => (hrec _ hmem hk).1, fun hk => (hrec _ hmem (h.submitted _ hk)).2⟩

theorem demote (h : l.Kept chainID floor lines) (s : State) : Life.Kept chainID floor { l with pool := (l.pool.demote s).1 } lines :=
  h.of_frame ⟨rfl, rfl, rfl, rfl⟩ fun _ _ ht => .inl ((getElem?_foldl_erase _ _ _ _).1 ht).1

theorem submit (h : l.Kept chainID floor lines) {k : Hash} (hk : k ∈ l.pool.all → k ∈ l.pool.local) :
    Life.Kept chainID floor { l with submitted := k :: l.submitted } lines where
  floor := h.floor
  journal := h.journal
  admits := h.admits
  listed := h.listed
  pending := h.pending
  recorded k' hk' hmem := by
    rcases List.mem_cons.1 hk' with rfl | hk'
    · exact hk hmem
    · exact h.recorded k' hk' hmem
  submitted k' hk' := List.mem_cons_of_mem _ (h.submitted k' hk')

theorem note (h : l.Kept chainID floor lines) (hframe : Frame l.pool m)
    (hadmits : l.pool.Admits chainID tx) (hnew : tx.hash ∉ l.pool.all)
    (hall : ∀ (k : Hash) (t : Transaction), m.all[k]? = some t → l.pool.all[k]? = some t ∨ k = tx.hash ∧ t = tx) :
    Life.Kept chainID floor ⟨{ m with «local» := m.local.insert tx.hash, journal := m.journal.map (· ++ [tx]) },
      tx.hash :: l.submitted⟩ (lines ++ [tx]) where
  floor := hframe.minGasPrice.trans h.floor
  journal := by simp only [hframe.journal, h.journal, Option.map_some]
  admits t ht := by
    refine hframe.admits.2 ?_
    rcases List.mem_append.1 ht with ht | ht
    · exact h.admits t ht
    · rw [List.mem_singleton.1 ht]
      exact hadmits
  listed k hk := by
    rcases ExtTreeSet.mem_insert.1 hk with hk | hk
    · exact ⟨tx, by simp, LawfulEqCmp.compare_eq_iff_eq.1 hk⟩
    · obtain ⟨t, ht, hh⟩ := h.listed k (hframe.local ▸ hk)
      exact ⟨t, List.mem_append_left _ ht, hh⟩
  pending k t ht := by
    rcases hall k t ht with ht | ⟨rfl, rfl⟩
    · obtain ⟨hh, hsane, hpriced⟩ := h.pending k t ht
      refine ⟨hh, hsane, fun hk => ?_⟩
      rcases ExtTreeSet.mem_insert.1 hk with hk | hk
      · rw [LawfulEqCmp.compare_eq_iff_eq.1 hk] at hnew
        exact absurd (ExtTreeMap.mem_iff_isSome_getElem?.2 (by rw [ht]; rfl)) hnew
      · exact (hframe.isUnderpriced t).trans (hpriced (hframe.local ▸ hk))
    · exact ⟨rfl, hadmits.1, fun _ => (hframe.isUnderpriced t).trans hadmits.2⟩
  recorded k hk hmem := by
    refine ExtTreeSet.mem_insert.2 ?_
    obtain ⟨t, ht⟩ := Option.isSome_iff_exists.1 (ExtTreeMap.mem_iff_isSome_getElem?.1 hmem)
    rcases hall k t ht with ht | ⟨rfl, -⟩
    · rcases List.mem_cons.1 hk with rfl | hk
      · exact .inl (LawfulEqCmp.compare_eq_iff_eq.2 rfl)
      · rw [hframe.local]
        exact .inr (h.recorded k hk (ExtTreeMap.mem_iff_isSome_getElem?.2 (by rw [ht]; rfl)))
    · exact .inl (LawfulEqCmp.compare_eq_iff_eq.2 rfl)
  submitted k hk := by
    rcases ExtTreeSet.mem_insert.1 hk with hk | hk
    · exact LawfulEqCmp.compare_eq_iff_eq.1 hk ▸ List.mem_cons_self
    · exact List.mem_cons_of_mem _ (h.submitted k (hframe.local ▸ hk))

theorem addLocal (h : l.Kept chainID floor lines) {o : MapOrder} {r : Except PoolError Unit}
    (hadd : l.pool.addLocal tx chainID o = some (m, r)) (hrec : tx.hash ∈ l.pool.all → tx.hash ∈ l.pool.local) :
    ∃ lines', Life.Kept chainID floor ⟨m, tx.hash :: l.submitted⟩ lines' := by
  rw [Mempool.addLocal] at hadd
  cases hr : l.pool.add tx chainID true o with
  | none =>
    rw [hr] at hadd
    cases hadd
  | some res =>
  obtain ⟨m₁, r₁⟩ := res
  obtain ⟨hframe, hok, hall⟩ := add_all hr
  rw [hr] at hadd
  cases r₁ with
  | error e =>
    cases hadd
    have hold : ∀ (k : Hash) (t : Transaction), m.all[k]? = some t → l.pool.all[k]? = some t := fun k t ht =>
      (hall k t ht).resolve_right fun hnew => by cases hnew.1
    refine ⟨lines, (h.of_frame hframe fun k t ht => .inl (hold k t ht)).submit fun hmem => ?_⟩
    obtain ⟨t, ht⟩ := Option.isSome_iff_exists.1 (ExtTreeMap.mem_iff_isSome_getElem?.1 hmem)
    exact hframe.local ▸ hrec (ExtTreeMap.mem_iff_isSome_getElem?.2 (by rw [hold _ t ht]; rfl))
  | ok u =>
    cases hadd
    obtain ⟨hsane, hfloor, hnew⟩ := hok rfl
    exact ⟨_, h.note hframe ⟨hsane, by simpa using hfloor⟩ hnew fun k t ht => (hall k t ht).imp id And.right⟩

theorem of_rewrite (hfloor : l.pool.minGasPrice = floor) (hjournal : l.pool.journal = some lines)
    (hpending : ∀ (h : Hash) (tx : Transaction), l.pool.all[h]? = some tx →
      tx.hash = h ∧ tx.sanityCheck chainID = .ok () ∧ (h ∈ l.pool.local → l.pool.isUnderpriced tx = false))
    (hrecorded : ∀ h ∈ l.submitted, h ∈ l.pool.all → h ∈ l.pool.local)
    (hsubmitted : ∀ h ∈ l.pool.local, h ∈ l.pool.all → h ∈ l.submitted) :
    ∃ lines', Life.Kept chainID floor { l with pool := l.pool.rewriteJournal } lines' := by
  have hlocal := mem_stillLocal l.pool
  refine ⟨l.pool.local.toList.filterMap (l.pool.all[·]?), ?_⟩
  rw [Mempool.rewriteJournal, hjournal]
  constructor
  case floor => exact hfloor
  case journal => rfl
  case admits =>
    intro tx htx
    obtain ⟨k, hk, ht⟩ := List.mem_filterMap.1 htx
    obtain ⟨-, hsane, hpriced⟩ := hpending k tx ht
    exact ⟨hsane, hpriced (ExtTreeSet.mem_toList.1 hk)⟩
  case listed =>
    intro k hk
    obtain ⟨hk, hmem⟩ := (hlocal k).1 hk
    obtain ⟨t, ht⟩ := Option.isSome_iff_exists.1 (ExtTreeMap.mem_iff_isSome_getElem?.1 hmem)
    exact ⟨t, List.mem_filterMap.2 ⟨k, ExtTreeSet.mem_toList.2 hk, ht⟩, (hpending k t ht).1⟩
  case pending =>
    intro k t ht
    obtain ⟨hh, hsane, hpriced⟩ := hpending k t ht
    exact ⟨hh, hsane, fun hk => hpriced ((hlocal k).1 hk).1⟩
  case recorded => exact fun k hk hmem => (hlocal k).2 ⟨hrecorded k hk hmem, hmem⟩
  case submitted => exact fun k hk => hsubmitted k ((hlocal k).1 hk).1 ((hlocal k).1 hk).2

theorem removeOne (h : l.Kept chainID floor lines) (tx : Transaction) :
    Life.Kept chainID floor { l with pool := l.pool.removeOne tx } lines := by
  have hall (k : Hash) (t : Transaction) : (l.pool.removeOne tx).all[k]? = some t → l.pool.all[k]? = some t ∧ tx.hash ≠ k := by
    intro ht
    simp only [Mempool.removeOne, Mempool.dropLocked, ExtTreeMap.getElem?_erase, LawfulEqCmp.compare_eq_iff_eq] at ht
    split at ht
    case isTrue => cases ht
    case isFalse hne => exact ⟨ht, hne⟩
  have hlocal (k : Hash) : k ∈ (l.pool.removeOne tx).local ↔ tx.hash ≠ k ∧ k ∈ l.pool.local := by
    simp only [Mempool.removeOne, ExtTreeSet.mem_erase, ne_eq, LawfulEqCmp.compare_eq_iff_eq]
  constructor
  case floor => exact h.floor
  case journal => exact h.journal
  case admits => exact h.admits
  case listed => exact fun k hk => h.listed k ((hlocal k).1 hk).2
  case pending =>
    intro k t ht
    obtain ⟨hh, hsane, hpriced⟩ := h.pending k t (hall k t ht).1
    exact ⟨hh, hsane, fun hk => hpriced ((hlocal k).1 hk).2⟩
  case recorded =>
    intro k hk hmem
    obtain ⟨t, ht⟩ := Option.isSome_iff_exists.1 (ExtTreeMap.mem_iff_isSome_getElem?.1 hmem)
    obtain ⟨ht, hne⟩ := hall k t ht
    exact (hlocal k).2 ⟨hne, h.recorded k hk (ExtTreeMap.mem_iff_isSome_getElem?.2 (by rw [ht]; rfl))⟩
  case submitted => exact fun k hk => h.submitted k ((hlocal k).1 hk).2

theorem remove (h : l.Kept chainID floor lines) (txs : List Transaction) :
    ∃ lines', Life.Kept chainID floor { l with pool := l.pool.remove txs } lines' := by
  have hfold : Life.Kept chainID floor { l with pool := txs.foldl Mempool.removeOne l.pool } lines := by
    induction txs generalizing l with
    | nil => exact h
    | cons tx txs ih => exact ih (h.removeOne tx)
  rw [Mempool.remove]
  split
  · exact of_rewrite hfold.floor hfold.journal hfold.pending hfold.recorded fun k hk _ => hfold.submitted k hk
  · exact ⟨lines, hfold⟩

end Life.Kept

variable {floor : Option ℤ}

/-- **A call that meets the condition keeps the journal in step.** -/
theorem Life.Kept.exec {l l' : Life} {lines : List Transaction} (h : l.Kept chainID floor lines) {op : LifeOp}
    (hrec : l.Recorded op) (hexec : l.exec chainID op = .ok l') : ∃ lines', l'.Kept chainID floor lines' := by
  cases op with
  | addLocal tx o =>
    cases hadd : l.pool.addLocal tx chainID o with
    | none =>
      rw [Life.exec, hadd] at hexec
      cases hexec
    | some res =>
      rw [Life.exec, hadd] at hexec
      cases hexec
      exact h.addLocal hadd hrec
  | add tx o =>
    cases hadd : l.pool.add tx chainID true o with
    | none =>
      rw [Life.exec, hadd] at hexec
      cases hexec
    | some res =>
      rw [Life.exec, hadd] at hexec
      cases hexec
      exact ⟨lines, h.add hadd hrec⟩
  | reinject txs =>
    cases hre : l.pool.reinject chainID txs with
    | none =>
      rw [Life.exec, hre] at hexec
      cases hexec
    | some res =>
      rw [Life.exec, hre] at hexec
      cases hexec
      exact ⟨lines, h.reinject hre hrec⟩
  | remove txs =>
    cases hexec
    exact h.remove txs
  | demote s =>
    cases hexec
    exact ⟨lines, h.demote s⟩

/-! ### What a start finds -/

def Vetted (chainID : UInt64) (floor : Option ℤ) (m : Mempool) : Prop :=
  m.minGasPrice = floor ∧ ∀ (h : Hash) (tx : Transaction), m.all[h]? = some tx → tx.hash = h ∧ m.Admits chainID tx

theorem Vetted.addLocal (h : m.Vetted chainID floor) {r : Except PoolError Unit} (hadd : m.addLocal tx chainID o = some (m', r)) : m'.Vetted chainID floor := by
  rw [Mempool.addLocal] at hadd
  cases hr : m.add tx chainID true o with
  | none =>
    rw [hr] at hadd
    cases hadd
  | some res =>
  obtain ⟨m₁, r₁⟩ := res
  obtain ⟨hframe, hok, hall⟩ := add_all hr
  have h₁ : m₁.Vetted chainID floor := by
    refine ⟨hframe.minGasPrice.trans h.1, fun k t ht => ?_⟩
    rcases hall k t ht with ht | ⟨hok', rfl, rfl⟩
    · exact ⟨(h.2 k t ht).1, hframe.admits.2 (h.2 k t ht).2⟩
    · obtain ⟨hsane, hfloor, -⟩ := hok hok'
      exact ⟨rfl, hframe.admits.2 ⟨hsane, by simpa using hfloor⟩⟩
  rw [hr] at hadd
  cases r₁ with
  | error e =>
    cases hadd
    exact h₁
  | ok u =>
    cases hadd
    exact h₁

theorem Vetted.replay (lines : List (Transaction × MapOrder)) :
    ∀ {m m' : Mempool} {n : ℕ}, m.Vetted chainID floor → m.replay chainID lines = some (m', n) → m'.Vetted chainID floor := by
  induction lines with
  | nil =>
    intro m m' n h hre
    cases hre
    exact h
  | cons line lines ih =>
    obtain ⟨tx, o⟩ := line
    intro m m' n h hre
    rw [Mempool.replay] at hre
    split at hre
    · cases hre
    next hadd => exact ih (h.addLocal hadd) hre
    next hadd =>
      obtain ⟨⟨m₂, n'⟩, hrest, heq⟩ := Option.map_eq_some_iff.1 hre
      cases heq
      exact ih (h.addLocal hadd) hrest

def fresh (maxSize : ℤ) (floor : Option ℤ) : Mempool := (new maxSize).setMinGasPrice floor

variable {maxSize : ℤ} {lineLen : Transaction → ℕ}

theorem Life.kept_start
    {file : List (Transaction × MapOrder)} {m : Mempool} {n : ℕ}
    (h : (fresh maxSize floor).enableJournal chainID lineLen file = some (m, n)) :
    ∃ lines, (Life.start m).Kept chainID floor lines := by
  obtain ⟨⟨m₁, n₁⟩, hre, heq⟩ := Option.map_eq_some_iff.1 h
  cases heq
  have hvetted : m₁.Vetted chainID floor := Vetted.replay _ ⟨rfl, fun k t ht => by simp [fresh, new, setMinGasPrice] at ht⟩ hre
  have hlocal := mem_stillLocal m₁
  refine Life.Kept.of_rewrite (l := ⟨{ m₁ with journal := some [] }, _⟩) hvetted.1 rfl ?_ ?_ ?_
  · exact fun k t ht => ⟨(hvetted.2 k t ht).1, (hvetted.2 k t ht).2.1, fun _ => (hvetted.2 k t ht).2.2⟩
  · exact fun k hk _ => ((hlocal k).1 (ExtTreeSet.mem_toList.1 hk)).1
  · exact fun k hk hmem => ExtTreeSet.mem_toList.2 ((hlocal k).2 ⟨hk, hmem⟩)

/-! ### Replaying lines that fit -/

theorem addLocal_of_add
    (h : m.add tx chainID true o = some (m', .ok ())) : m.addLocal tx chainID o =
      some ({ m' with «local» := m'.local.insert tx.hash, journal := m'.journal.map (· ++ [tx]) }, .ok ()) := by
  simp only [Mempool.addLocal, h]

/-- The pool after some lines have been replayed, all of them admitted. -/
structure Replayed (maxSize : ℤ) (floor : Option ℤ) (past : List Transaction) (m : Mempool) : Prop where
  maxSize : m.maxSize = maxSize
  floor : m.minGasPrice = floor
  mem_all : ∀ k, k ∈ m.all ↔ ∃ tx ∈ past, tx.hash = k
  account : ∀ a, ∀ n ∈ m.account a, ∃ tx ∈ past, tx.sender = .ok a ∧ tx.nonce = n

theorem Replayed.addLocal
    {lines past : List Transaction} {m : Mempool} (h : Replayed maxSize floor past m) (hfits : Fits lineLen maxSize lines)
    (hpast : ∀ x ∈ past, x ∈ lines) (htx : tx ∈ lines) (hadmits : m.Admits chainID tx) (o : MapOrder) :
    ∃ m' r, m.addLocal tx chainID o = some (m', r) ∧ Replayed maxSize floor (past ++ [tx]) m' := by
  obtain ⟨hsane, hpriced⟩ := hadmits
  obtain ⟨sender, price, amount, hgood⟩ := tx.sane_of_sanityCheck hsane
  by_cases hmem : tx.hash ∈ m.all
  · -- the line is there twice
    refine ⟨m, .error .alreadyKnown, ?_, h.maxSize, h.floor, fun k => ?_, fun a n hn => ?_⟩
    · simp only [Mempool.addLocal, Mempool.add, hsane, hgood.sender, addLocked, hpriced, Bool.and_false, Bool.false_eq_true,
        if_false, hmem, if_true]
    · rw [h.mem_all]
      constructor
      · rintro ⟨x, hx, rfl⟩
        exact ⟨x, List.mem_append_left _ hx, rfl⟩
      · rintro ⟨x, hx, rfl⟩
        rcases List.mem_append.1 hx with hx | hx
        · exact ⟨x, hx, rfl⟩
        · rw [List.mem_singleton.1 hx]
          exact (h.mem_all _).1 hmem
    · obtain ⟨x, hx, hslot⟩ := h.account a n hn
      exact ⟨x, List.mem_append_left _ hx, hslot⟩
  · have hfree : tx.nonce ∉ m.account sender := by
      intro hn
      obtain ⟨x, hx, hs, hnonce⟩ := h.account sender _ hn
      have hhash := hfits.places x (hpast x hx) tx htx (hs.trans hgood.sender.symm) hnonce
      exact hmem ((h.mem_all _).2 ⟨x, hx, hhash⟩)
    have hcap : (m.account sender).size < maxPerAccount := by
      refine Nat.lt_of_lt_of_le (FinMap.size_lt_card (fun n hn => ?_) hfree ?_) (hfits.accounts sender)
      · obtain ⟨x, hx, hs, rfl⟩ := h.account sender n hn
        exact List.mem_toFinset.2 (List.mem_map_of_mem (List.mem_filter.2 ⟨hpast x hx, by simpa using hs⟩))
      · exact List.mem_toFinset.2 (List.mem_map_of_mem (List.mem_filter.2 ⟨htx, by simpa using hgood.sender⟩))
    have hroom : (m.all.size : ℤ) < m.maxSize := by
      have hlt : m.all.size < (lines.map Transaction.hash).toFinset.card := by
        refine FinMap.size_lt_card (fun k hk => ?_) hmem (List.mem_toFinset.2 (List.mem_map_of_mem htx))
        obtain ⟨x, hx, rfl⟩ := (h.mem_all k).1 hk
        exact List.mem_toFinset.2 (List.mem_map_of_mem (hpast x hx))
      have := hfits.total
      rw [h.maxSize]
      omega
    have hfloor : (true && m.isUnderpriced tx) = false := by rw [hpriced, Bool.and_false]
    have hadd := add_of_room hsane hgood.sender hfloor hmem hfree hcap hroom o
    refine ⟨_, _, addLocal_of_add hadd, h.maxSize, h.floor, fun k => ?_, fun a n hn => ?_⟩
    · have hk : k ∈ m.all.insert tx.hash tx ↔ tx.hash = k ∨ k ∈ m.all := by
        rw [ExtTreeMap.mem_insert, LawfulEqCmp.compare_eq_iff_eq]
      refine hk.trans ?_
      rw [h.mem_all]
      simp only [List.mem_append, List.mem_singleton, or_and_right, exists_or, exists_eq_left]
      exact or_comm
    · have hn' : n ∈ ((m.openAccount sender).written tx sender).account a := hn
      rw [account_written, account_openAccount, account_openAccount] at hn'
      split at hn'
      case isTrue ha =>
        rw [ExtTreeMap.mem_insert, LawfulEqCmp.compare_eq_iff_eq] at hn'
        rcases hn' with rfl | hn'
        · exact ⟨tx, by simp, ha ▸ hgood.sender, rfl⟩
        · obtain ⟨x, hx, hslot⟩ := h.account sender n hn'
          exact ⟨x, List.mem_append_left _ hx, ha ▸ hslot⟩
      case isFalse =>
        obtain ⟨x, hx, hslot⟩ := h.account a n hn'
        exact ⟨x, List.mem_append_left _ hx, hslot⟩

theorem Replayed.replay
    {lines : List Transaction} (hfits : Fits lineLen maxSize lines) {pool : Mempool} (hfloor : pool.minGasPrice = floor)
    (hadmits : ∀ tx ∈ lines, pool.Admits chainID tx) (rest : List (Transaction × MapOrder)) :
    ∀ {m : Mempool} {past : List Transaction}, Replayed maxSize floor past m → (∀ x ∈ past, x ∈ lines) →
      (∀ x ∈ rest.map Prod.fst, x ∈ lines) →
      ∃ m' n, m.replay chainID rest = some (m', n) ∧ Replayed maxSize floor (past ++ rest.map Prod.fst) m' := by
  induction rest with
  | nil =>
    intro m past h _ _
    exact ⟨m, 0, rfl, by rwa [List.map_nil, List.append_nil]⟩
  | cons line rest ih =>
    obtain ⟨tx, o⟩ := line
    intro m past h hpast hrest
    have htx : tx ∈ lines := hrest tx List.mem_cons_self
    have hadm : m.Admits chainID tx := by
      have := hadmits tx htx
      rwa [Admits, Mempool.isUnderpriced, hfloor, ← h.floor] at this
    obtain ⟨m₁, r, hadd, h₁⟩ := h.addLocal hfits hpast htx hadm o
    have hpast₁ : ∀ x ∈ past ++ [tx], x ∈ lines := by
      intro x hx
      rcases List.mem_append.1 hx with hx | hx
      · exact hpast x hx
      · rwa [List.mem_singleton.1 hx]
    obtain ⟨m₂, n, hre, h₂⟩ := ih h₁ hpast₁ fun x hx => hrest x (List.mem_cons_of_mem _ hx)
    rw [List.append_assoc, List.singleton_append] at h₂
    cases r with
    | error e => exact ⟨m₂, n, by rw [Mempool.replay, hadd]; exact hre, h₂⟩
    | ok u => exact ⟨m₂, n + 1, by rw [Mempool.replay, hadd]; simp only [hre, Option.map_some], h₂⟩

/-! ### Restarts -/

/-- **A restart keeps what was submitted.** A process starts with any file and takes any calls that meet the condition;
its lines fit into a new pool. Then the next start, with the lines in any order, has every transaction that was submitted
and is still pending. -/
theorem locals_survive {chainID : UInt64} {lineLen : Transaction → ℕ} {maxSize : ℤ} {floor : Option ℤ}
    {file file' : List (Transaction × MapOrder)} {start : Mempool} {n : ℕ} {ops : List LifeOp} {l : Life} {lines : List Transaction}
    (hstart : (fresh maxSize floor).enableJournal chainID lineLen file = some (start, n))
    (hrun : Run.run (Life.exec chainID) (Life.start start) ops = .ok l)
    (hmeets : Run.Meets (Life.exec chainID) Life.Recorded (Life.start start) ops)
    (hjournal : l.pool.journal = some lines) (hfits : Fits lineLen maxSize lines)
    (hfile : ∀ tx, tx ∈ file'.map Prod.fst ↔ tx ∈ lines) :
    ∃ m n', (fresh maxSize floor).enableJournal chainID lineLen file' = some (m, n') ∧
      ∀ h ∈ l.submitted, h ∈ l.pool.all → h ∈ m.all := by
  obtain ⟨lines', hkept⟩ : ∃ lines', l.Kept chainID floor lines' :=
    Run.Meets.preserves (I := fun l => ∃ lines', l.Kept chainID floor lines')
      (fun op _ _ h hrec hexec => h.choose_spec.exec hrec hexec) hmeets (Life.kept_start hstart) hrun
  rw [hkept.journal] at hjournal
  cases hjournal
  have hread : (file'.takeWhile fun line => lineLen line.1 < maxLine) = file' := by
    rw [List.takeWhile_eq_self_iff]
    intro line hline
    exact decide_eq_true (hfits.short line.1 ((hfile line.1).1 (List.mem_map_of_mem hline)))
  have hnew : Replayed maxSize floor [] { fresh maxSize floor with journal := none } :=
    ⟨rfl, rfl, fun k => by simp [fresh, new, setMinGasPrice], fun a k hk => by simp [fresh, new, setMinGasPrice, account] at hk⟩
  obtain ⟨m, n', hre, hreplayed⟩ := Replayed.replay hfits hkept.floor hkept.admits file' hnew (fun _ h => absurd h List.not_mem_nil)
    fun x hx => (hfile x).1 hx
  refine ⟨_, n', by rw [enableJournal, hread, hre]; rfl, fun h hs hmem => ?_⟩
  obtain ⟨tx, htx, rfl⟩ := hkept.listed h (hkept.recorded h hs hmem)
  exact (hreplayed.mem_all _).2 ⟨tx, (hfile tx).2 htx, rfl⟩

/-- A pool of two places started without a file, then with one transaction that was submitted, then with two. -/
def emptyStart : Mempool := { new 2 with journal := some [] }
def submittedPool : Mempool :=
  { onePool with «local» := (∅ : ExtTreeSet Hash).insert (@Transaction.hash admissionCrypto firstTx), journal := some [firstTx] }
def twoSubmitted : Mempool :=
  { twoPool with
    «local» := submittedPool.local.insert (@Transaction.hash admissionCrypto secondTx), journal := some [firstTx, secondTx] }

omit [Crypto] in
theorem enableJournal_empty (lineLen : Transaction → ℕ) :
    @enableJournal admissionCrypto (fresh 2 none) 1 lineLen [] = some (emptyStart, 0) := by
  have hstart : (@rewriteJournal emptyStart) = emptyStart := by decide +kernel
  rw [← hstart]
  rfl

omit [Crypto] in
theorem exec_submit : @Life.exec admissionCrypto 1 (Life.start emptyStart) (.addLocal firstTx .sorted) =
    .ok ⟨submittedPool, [@Transaction.hash admissionCrypto firstTx]⟩ := by
  have hadd : @addLocal admissionCrypto emptyStart firstTx 1 .sorted = some (submittedPool, .ok ()) := by decide +kernel
  have hlocal : emptyStart.local.toList = [] := by decide +kernel
  simp only [Life.exec, Life.start, hadd, hlocal, outcome, Except.map]

omit [Crypto] in
theorem exec_submit_second :
    @Life.exec admissionCrypto 1 ⟨submittedPool, [@Transaction.hash admissionCrypto firstTx]⟩ (.addLocal secondTx .sorted) =
      .ok ⟨twoSubmitted, [@Transaction.hash admissionCrypto secondTx, @Transaction.hash admissionCrypto firstTx]⟩ := by
  have hadd : @addLocal admissionCrypto submittedPool secondTx 1 .sorted = some (twoSubmitted, .ok ()) := by decide +kernel
  simp only [Life.exec, hadd, outcome, Except.map]

omit [Crypto] in
/-- The lines come in the other order. -/
theorem locals_survive_two : ∃ m n,
    @enableJournal admissionCrypto (fresh 2 none) 1 (fun _ => 500) [(secondTx, .sorted), (firstTx, .sorted)] = some (m, n) ∧
      @Transaction.hash admissionCrypto firstTx ∈ m.all ∧ @Transaction.hash admissionCrypto secondTx ∈ m.all := by
  have hrun : Run.run (@Life.exec admissionCrypto 1) (Life.start emptyStart)
      [.addLocal firstTx .sorted, .addLocal secondTx .sorted] =
      .ok ⟨twoSubmitted, [@Transaction.hash admissionCrypto secondTx, @Transaction.hash admissionCrypto firstTx]⟩ := by
    simp only [Run.run, exec_submit, exec_submit_second]
  have hmeets : Run.Meets (@Life.exec admissionCrypto 1) (@Life.Recorded admissionCrypto) (Life.start emptyStart)
      [.addLocal firstTx .sorted, .addLocal secondTx .sorted] := by
    refine ⟨fun hmem => absurd hmem (by decide +kernel), ?_⟩
    rw [exec_submit]
    refine ⟨fun hmem => absurd hmem (by decide +kernel), ?_⟩
    split <;> trivial
  have hfits : @Fits admissionCrypto (fun _ => 500) 2 [firstTx, secondTx] := by
    refine @Fits.mk admissionCrypto _ _ _ (fun _ _ => by decide) ?_ (fun a => ?_) ?_
    · intro x hx y hy _ hnonce
      simp only [List.mem_cons, List.not_mem_nil, or_false] at hx hy
      rcases hx with rfl | rfl <;> rcases hy with rfl | rfl <;> first | exact absurd hnonce (by decide) | rfl
    · refine (List.toFinset_card_le _).trans ?_
      rw [List.length_map]
      exact (List.length_filter_le ..).trans (by decide)
    · exact Int.ofNat_le.2 (List.toFinset_card_le _)
  obtain ⟨m, n, hre, hall⟩ := @locals_survive admissionCrypto _ _ _ _ _ [(secondTx, .sorted), (firstTx, .sorted)] _ _ _ _ _
    (enableJournal_empty fun _ => 500) hrun hmeets rfl hfits fun tx => (List.Perm.swap firstTx secondTx []).mem_iff
  exact ⟨m, n, hre, hall _ (by simp) (by decide +kernel), hall _ (by simp) (by decide +kernel)⟩

omit [Crypto] in
/-- A transaction is submitted, mined, and taken back by a reorg: it is pending again and its nonce is the committed one,
but the file is empty, and so is the next pool. -/
theorem reinjected_lost : @enableJournal admissionCrypto (fresh 2 none) 1 (fun _ => 500) [] = some (emptyStart, 0) ∧
    ∃ l, Run.run (@Life.exec admissionCrypto 1) (Life.start emptyStart)
        [.addLocal firstTx .sorted, .remove [firstTx], .reinject [(firstTx, .sorted)]] = .ok l ∧
      @Transaction.hash admissionCrypto firstTx ∈ l.submitted ∧ l.pool.all[@Transaction.hash admissionCrypto firstTx]? = some firstTx ∧
      State.new.nonce senderAddr ≤ firstTx.nonce ∧ l.pool.journal = some [] ∧
      @Transaction.hash admissionCrypto firstTx ∉ emptyStart.all := by
  have hremove : @remove admissionCrypto submittedPool [firstTx] = emptyStart := by decide +kernel
  have hback : @reinject admissionCrypto emptyStart 1 [(firstTx, .sorted)] = some ({ onePool with journal := some [] }, 1) := by
    decide +kernel
  refine ⟨enableJournal_empty fun _ => 500, ⟨{ onePool with journal := some [] }, [@Transaction.hash admissionCrypto firstTx]⟩, ?_,
    List.mem_cons_self, by decide +kernel, by decide +kernel, rfl, by decide +kernel⟩
  rw [Run.run, exec_submit]
  simp only [Run.run, Life.exec, hremove, hback, outcome, Except.map]

end Mempool

end Lxs
