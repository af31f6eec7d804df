import Lxs.Core.Blockchain
import Lxs.Mempool.Admission

/-!
# The reorg hook of the mempool

`core/wiring.go`: when the chain moves to another branch, the transactions of the dropped blocks go back into the pool and
those of the added blocks leave it. A removal takes the transaction itself out of the index by hash, but whatever is in
its place out of the index by account.

* `Mempool.reorgHook_iff`: **the hook leaves the pool right exactly when no dropped transaction that it took back lost its
  place to a different added one.**
-/

set_option linter.unusedSectionVars false

namespace Lxs

open Std Lib Lib.Index

variable [Crypto]

/-! ### The hook -/

/-- One call of `Reinject` for each block; `order tx` is the order in which the pool is iterated when `tx` is added. -/
def Mempool.reinjectBlocks (m : Mempool) (chainID : UInt64) (order : Transaction → MapOrder) : List Block → Option Mempool
  | [] => some m
  | b :: blocks =>
    match m.reinject chainID (b.txs.map fun tx => (tx, order tx)) with
    | none => none
    | some (m', _) => m'.reinjectBlocks chainID order blocks

def Mempool.reorgHook (m : Mempool) (chainID : UInt64) (order : Transaction → MapOrder) (r : Reorg) : Option Mempool :=
  (m.reinjectBlocks chainID order r.dropped).map fun m' => r.added.foldl (fun m b => m.remove b.txs) m'

def Reorg.droppedTxs (r : Reorg) : List Transaction := r.dropped.flatMap Block.txs

def Reorg.addedTxs (r : Reorg) : List Transaction := r.added.flatMap Block.txs

namespace Mempool

variable {m m' : Mempool} {tx t : Transaction}

/-! ### What removing does to the indexes -/

def at? (m : Mempool) (k : Address × UInt64) : Option Transaction := (m.account k.1)[k.2]?

theorem all_rewriteJournal (m : Mempool) : m.rewriteJournal.all = m.all := by
  unfold rewriteJournal
  split <;> rfl

theorem byAcct_rewriteJournal (m : Mempool) : m.rewriteJournal.byAcct = m.byAcct := by
  unfold rewriteJournal
  split <;> rfl

theorem at?_dropLocked (m : Mempool) (tx : Transaction) (k : Address × UInt64) :
    (m.dropLocked tx).at? k = if slot tx = some k then none else m.at? k := by
  unfold at?
  cases hs : tx.sender with
  | error e =>
    have hslot : slot tx = none := by rw [slot, hs]
    rw [account_dropLocked_error hs, hslot, if_neg (by simp)]
  | ok sender =>
    rw [account_dropLocked hs, slot_ok hs]
    by_cases hk : sender = k.1
    · rw [if_pos hk, ExtTreeMap.getElem?_erase, hk]
      by_cases hn : tx.nonce = k.2
      · rw [if_pos (by rw [LawfulEqCmp.compare_eq_iff_eq, hn]), if_pos (by rw [hn])]
      · rw [if_neg (by rwa [LawfulEqCmp.compare_eq_iff_eq]), if_neg fun h => hn (congrArg Prod.snd (Option.some.inj h))]
    · rw [if_neg hk, if_neg fun h => hk (congrArg Prod.fst (Option.some.inj h))]

theorem remove_indexes (txs : List Transaction) : ∀ m : Mempool,
    (∀ h : Hash, (m.remove txs).all[h]? = if h ∈ txs.map Transaction.hash then none else m.all[h]?) ∧
      ∀ k, (m.remove txs).at? k = if some k ∈ txs.map slot then none else m.at? k := by
  have hfold : ∀ m : Mempool,
      (∀ h : Hash, (txs.foldl removeOne m).all[h]? = if h ∈ txs.map Transaction.hash then none else m.all[h]?) ∧
        ∀ k, (txs.foldl removeOne m).at? k = if some k ∈ txs.map slot then none else m.at? k := by
    induction txs with
    | nil => intro m; exact ⟨fun h => by simp, fun k => by simp⟩
    | cons tx txs ih =>
      intro m
      obtain ⟨hall, hat⟩ := ih (m.removeOne tx)
      refine ⟨fun h => ?_, fun k => ?_⟩
      · rw [List.foldl_cons, hall, removeOne, dropLocked]
        simp only [ExtTreeMap.getElem?_erase, LawfulEqCmp.compare_eq_iff_eq, List.map_cons, List.mem_cons]
        by_cases h1 : h ∈ txs.map Transaction.hash
        · rw [if_pos h1, if_pos (.inr h1)]
        · by_cases h2 : tx.hash = h
          · rw [if_neg h1, if_pos h2, if_pos (.inl h2.symm)]
          · rw [if_neg h1, if_neg h2, if_neg (not_or.2 ⟨fun h3 => h2 h3.symm, h1⟩)]
      · have hone : (m.removeOne tx).at? k = if slot tx = some k then none else m.at? k := at?_dropLocked m tx k
        rw [List.foldl_cons, hat, hone, List.map_cons]
        by_cases h1 : some k ∈ txs.map slot
        · rw [if_pos h1, if_pos (List.mem_cons_of_mem _ h1)]
        · by_cases h2 : slot tx = some k
          · rw [if_neg h1, if_pos h2, if_pos (List.mem_cons.2 (.inl h2.symm))]
          · rw [if_neg h1, if_neg h2, if_neg (by rw [List.mem_cons, not_or]; exact ⟨fun h3 => h2 h3.symm, h1⟩)]
  intro m
  unfold remove
  dsimp only
  split
  · obtain ⟨hall, hat⟩ := hfold m
    refine ⟨fun h => by rw [all_rewriteJournal, hall], fun k => ?_⟩
    rw [← hat k, at?, at?, account, account, byAcct_rewriteJournal]
  · exact hfold m

theorem removeBlocks_indexes (blocks : List Block) (m : Mempool) :
    (∀ h : Hash, (blocks.foldl (fun m b => m.remove b.txs) m).all[h]? =
      if h ∈ (blocks.flatMap Block.txs).map Transaction.hash then none else m.all[h]?) ∧
    ∀ k, (blocks.foldl (fun m b => m.remove b.txs) m).at? k =
      if some k ∈ (blocks.flatMap Block.txs).map slot then none else m.at? k := by
  induction blocks generalizing m with
  | nil => exact ⟨fun h => by simp, fun k => by simp⟩
  | cons b blocks ih =>
    obtain ⟨hall, hat⟩ := ih (m.remove b.txs)
    obtain ⟨hall', hat'⟩ := remove_indexes b.txs m
    refine ⟨fun h => ?_, fun k => ?_⟩
    · rw [List.foldl_cons, hall, hall', List.flatMap_cons, List.map_append, ← ite_or]
      simp only [List.mem_append, or_comm]
    · rw [List.foldl_cons, hat, hat', List.flatMap_cons, List.map_append, ← ite_or]
      simp only [List.mem_append, or_comm]

/-! ### What reinjecting does to them -/

/-- Room for transactions, in the pool and in the accounts of their senders. -/
structure Room (m : Mempool) (txs : List Transaction) : Prop where
  size_le : (m.all.size + txs.length : ℤ) ≤ m.maxSize
  account_le : ∀ a, (m.account a).size + txs.countP (fun tx => (slot tx).map Prod.fst = some a) ≤ maxPerAccount

theorem add_taken {sender : Address} {chainID : UInt64} (hsane : tx.sanityCheck chainID = .ok ())
    (hs : tx.sender = .ok sender) (htaken : m.at? (sender, tx.nonce) = some t) (o : MapOrder) :
    ∃ m' e, m.add tx chainID false o = some (m', .error e) ∧ m'.all = m.all ∧ m'.maxSize = m.maxSize ∧
      ∀ a, m'.account a = m.account a := by
  rw [add, hsane, hs]
  dsimp only
  rw [addLocked, if_neg (by simp)]
  split
  · exact ⟨m, _, rfl, rfl, rfl, fun _ => rfl⟩
  · have hmem : tx.nonce ∈ (m.openAccount sender).account sender := by
      rw [account_openAccount, ExtTreeMap.mem_iff_isSome_getElem?]
      exact Option.isSome_of_eq_some htaken
    rw [takeIn, if_pos hmem]
    exact ⟨m.openAccount sender, _, rfl, rfl, rfl, account_openAccount m sender⟩

theorem add_free {sender : Address} {chainID : UInt64} (hsane : tx.sanityCheck chainID = .ok ())
    (hs : tx.sender = .ok sender) (hfree : m.at? (sender, tx.nonce) = none) (hnew : m.all[tx.hash]? = none)
    (hroom : (m.all.size : ℤ) < m.maxSize) (hcap : (m.account sender).size < maxPerAccount) (o : MapOrder) :
    ∃ m', m.add tx chainID false o = some (m', .ok ()) ∧ m'.all = m.all.insert tx.hash tx ∧ m'.maxSize = m.maxSize ∧
      ∀ a, m'.account a = if sender = a then (m.account sender).insert tx.nonce tx else m.account a := by
  have hnot : tx.hash ∉ m.all := by
    rw [ExtTreeMap.mem_iff_isSome_getElem?, hnew]
    simp
  have hnonce : tx.nonce ∉ m.account sender := by
    rw [ExtTreeMap.mem_iff_isSome_getElem?]
    unfold at? at hfree
    rw [hfree]
    simp
  refine ⟨_, add_of_room hsane hs rfl hnot hnonce hcap hroom o, rfl, rfl, fun a => ?_⟩
  rw [account_written, account_openAccount, account_openAccount]

theorem evictsOwn_of_room (hroom : (m.all.size : ℤ) < m.maxSize) (tx : Transaction) (chainID : UInt64) (enforceFloor : Bool)
    (o : MapOrder) : m.evictsOwn tx chainID enforceFloor o = false := by
  have htakes : ∀ sender, m.takesOwn tx sender o = false := by
    intro sender
    unfold takesOwn
    split
    · rfl
    · simp [Int.not_le.2 hroom]
  unfold evictsOwn
  split
  · rw [htakes, Bool.and_false]
  · rfl

/-- The pool `m` is `m₀` after the transactions `txs` were taken back: each of them is at its place, unless the place was
taken. -/
structure Reinjected (m₀ : Mempool) (txs : List Transaction) (m : Mempool) : Prop where
  sound : m.Sound
  maxSize : m.maxSize = m₀.maxSize
  at_iff : ∀ k t, m.at? k = some t ↔ m₀.at? k = some t ∨ m₀.at? k = none ∧ t ∈ txs ∧ slot t = some k
  size_le : m.all.size ≤ m₀.all.size + txs.length
  account_le : ∀ a, (m.account a).size ≤ (m₀.account a).size + txs.countP (fun tx => (slot tx).map Prod.fst = some a)

theorem Sound.at_of_hash (h : m.Sound) (ht : m.all[t.hash]? = some t) : ∃ k, slot t = some k ∧ m.at? k = some t := by
  obtain ⟨-, sender, hs, hentry⟩ := h.found ht
  exact ⟨(sender, t.nonce), slot_ok hs, hentry⟩

theorem Sound.hash_of_at (h : m.Sound) {k : Address × UInt64} (ht : m.at? k = some t) :
    slot t = some k ∧ m.all[t.hash]? = some t := by
  obtain ⟨hs, hn, hall⟩ := h.entry ht
  exact ⟨by rw [slot_ok hs, hn], hall⟩

section Reinjection

variable {m₀ : Mempool} {txs : List Transaction} {chainID : UInt64} {k : Address × UInt64}

theorem countP_snoc (hslot : slot tx = some k) (a : Address) :
    (txs ++ [tx]).countP (fun tx => (slot tx).map Prod.fst = some a) =
      txs.countP (fun tx => (slot tx).map Prod.fst = some a) + if k.1 = a then 1 else 0 := by
  rw [List.countP_append, List.countP_singleton, hslot]
  simp

theorem Reinjected.taken (h : Reinjected m₀ txs m) (hslot : slot tx = some k) (hat : m.at? k = some t)
    (hplaces : ∀ t ∈ txs, slot t = slot tx → t = tx) (hsound : m'.Sound) (hall : m'.all = m.all)
    (hmax : m'.maxSize = m.maxSize) (hacct : ∀ a, m'.account a = m.account a) : Reinjected m₀ (txs ++ [tx]) m' := by
  have hat' : ∀ k, m'.at? k = m.at? k := fun k => by rw [at?, hacct, at?]
  refine ⟨hsound, hmax.trans h.maxSize, fun k' t' => ?_, ?_, fun a => ?_⟩
  · rw [hat', h.at_iff]
    constructor
    · rintro (h0 | ⟨h0, hmem, hk⟩)
      · exact .inl h0
      · exact .inr ⟨h0, List.mem_append_left _ hmem, hk⟩
    · rintro (h0 | ⟨h0, hmem, hk⟩)
      · exact .inl h0
      · rcases List.mem_append.1 hmem with hmem | hmem
        · exact .inr ⟨h0, hmem, hk⟩
        · obtain rfl := List.mem_singleton.1 hmem
          rw [hslot] at hk
          cases hk
          -- the place was free at first, so what is there now was taken back
          rcases (h.at_iff _ _).1 hat with h1 | ⟨-, hmem', hk'⟩
          · rw [h0] at h1
            cases h1
          · obtain rfl := hplaces t hmem' (by rw [hk', hslot])
            exact .inr ⟨h0, hmem', hk'⟩
  · rw [hall, List.length_append]
    exact h.size_le.trans (by omega)
  · rw [hacct, countP_snoc hslot]
    exact (h.account_le a).trans (by omega)

theorem Reinjected.free (h : Reinjected m₀ txs m) (hslot : slot tx = some k) (hat : m.at? k = none)
    (hplaces : ∀ t ∈ txs, slot t = slot tx → t = tx) (hsound : m'.Sound) (hall : m'.all = m.all.insert tx.hash tx)
    (hmax : m'.maxSize = m.maxSize)
    (hacct : ∀ a, m'.account a = if k.1 = a then (m.account k.1).insert k.2 tx else m.account a) :
    Reinjected m₀ (txs ++ [tx]) m' := by
  have hat' : ∀ k', m'.at? k' = if k = k' then some tx else m.at? k' := by
    intro k'
    rw [at?, hacct]
    by_cases hk : k.1 = k'.1
    · rw [if_pos hk, ExtTreeMap.getElem?_insert, hk]
      simp only [LawfulEqCmp.compare_eq_iff_eq, Prod.ext_iff, hk, true_and]
      rfl
    · rw [if_neg hk, if_neg fun he => hk (congrArg Prod.fst he)]
      rfl
  have hfree₀ : m₀.at? k = none := by
    cases h0 : m₀.at? k with
    | none => rfl
    | some t =>
      rw [(h.at_iff _ t).2 (.inl h0)] at hat
      cases hat
  refine ⟨hsound, hmax.trans h.maxSize, fun k' t' => ?_, ?_, fun a => ?_⟩
  · rw [hat']
    split_ifs with hk
    · subst hk
      constructor
      · rintro ⟨rfl⟩
        exact .inr ⟨hfree₀, by simp, hslot⟩
      · rintro (h0 | ⟨-, hmem, hk⟩)
        · rw [hfree₀] at h0
          cases h0
        · rcases List.mem_append.1 hmem with hmem | hmem
          · rw [hplaces t' hmem (by rw [hk, hslot])]
          · rw [List.mem_singleton.1 hmem]
    · rw [h.at_iff, List.mem_append]
      constructor
      · rintro (h0 | ⟨h0, hmem, hk'⟩)
        · exact .inl h0
        · exact .inr ⟨h0, .inl hmem, hk'⟩
      · rintro (h0 | ⟨h0, hmem | hmem, hk'⟩)
        · exact .inl h0
        · exact .inr ⟨h0, hmem, hk'⟩
        · rw [List.mem_singleton.1 hmem, hslot] at hk'
          exact absurd (Option.some.inj hk') hk
  · rw [hall, List.length_append]
    have := ExtTreeMap.size_insert_le (t := m.all) (k := tx.hash) (v := tx)
    have := h.size_le
    simp only [List.length_singleton]
    omega
  · rw [hacct, countP_snoc hslot]
    split_ifs with ha
    · subst ha
      have := ExtTreeMap.size_insert_le (t := m.account k.1) (k := k.2) (v := tx)
      have := h.account_le k.1
      omega
    · exact h.account_le a

theorem Reinjected.add (h : Reinjected m₀ txs m) (hsane : tx.sanityCheck chainID = .ok ())
    (hplaces : ∀ t ∈ txs, slot t = slot tx → t = tx) (hhash : ∀ t, m.all[t.hash]? = some t → t.hash = tx.hash → t = tx)
    (hroom : m₀.Room (txs ++ [tx])) (o : MapOrder) :
    ∃ m' r, m.add tx chainID false o = some (m', r) ∧ Reinjected m₀ (txs ++ [tx]) m' := by
  obtain ⟨sender, price, amount, hs⟩ := Transaction.sane_of_sanityCheck hsane
  have hs := hs.sender
  have hslot := slot_ok hs
  have hsize : (m.all.size : ℤ) < m.maxSize := by
    have := hroom.size_le
    have := h.size_le
    simp only [List.length_append, List.length_singleton] at *
    rw [h.maxSize]
    omega
  obtain ⟨m', r, hadd, -, hsound⟩ := h.sound.add (evictsOwn_of_room hsize tx chainID false o)
  refine ⟨m', r, hadd, ?_⟩
  cases hat : m.at? (sender, tx.nonce) with
  | some t =>
    obtain ⟨m'', e, hadd', hall, hmax, hacct⟩ := add_taken hsane hs hat o
    rw [hadd] at hadd'
    cases hadd'
    exact h.taken hslot hat hplaces hsound hall hmax hacct
  | none =>
    have hnew : m.all[tx.hash]? = none := by
      cases hold : m.all[tx.hash]? with
      | none => rfl
      | some t =>
        have hth := (h.sound.found hold).1
        obtain rfl := hhash t (by rw [hth, hold]) hth
        obtain ⟨k, hk, hk'⟩ := h.sound.at_of_hash hold
        rw [hslot] at hk
        cases hk
        rw [hat] at hk'
        cases hk'
    have hcap : (m.account sender).size < maxPerAccount := by
      have := h.account_le sender
      have := hroom.account_le sender
      rw [countP_snoc hslot, if_pos rfl] at this
      omega
    obtain ⟨m'', hadd', hall, hmax, hacct⟩ := add_free hsane hs hat hnew hsize hcap o
    rw [hadd] at hadd'
    cases hadd'
    exact h.free hslot hat hplaces hsound hall hmax hacct

theorem Room.left (rest : List Transaction) (h : m.Room (txs ++ rest)) : m.Room txs where
  size_le := by
    have := h.size_le
    rw [List.length_append] at this
    push_cast at this
    omega
  account_le a := by
    have := h.account_le a
    rw [List.countP_append] at this
    omega

/-- What a sound pool can take back: checked transactions of different places, for which there is room; nothing else has
one of their hashes. -/
structure Returnable (m : Mempool) (chainID : UInt64) (txs : List Transaction) : Prop where
  sound : m.Sound
  room : m.Room txs
  sane : ∀ tx ∈ txs, tx.sanityCheck chainID = .ok ()
  places : ∀ t ∈ txs, ∀ t' ∈ txs, slot t = slot t' → t = t'
  hashes : ∀ t ∈ txs, ∀ t', m.all[t'.hash]? = some t' ∨ t' ∈ txs → t'.hash = t.hash → t' = t

theorem Reinjected.origin (h : Reinjected m₀ txs m) (h₀ : m₀.Sound) (ht : m.all[t.hash]? = some t) :
    m₀.all[t.hash]? = some t ∨ t ∈ txs := by
  obtain ⟨k, -, hk⟩ := h.sound.at_of_hash ht
  rcases (h.at_iff k t).1 hk with h0 | ⟨-, hmem, -⟩
  · exact .inl (h₀.hash_of_at h0).2
  · exact .inr hmem

theorem Reinjected.reinject {all : List Transaction} (hret : Returnable m₀ chainID all) (order : Transaction → MapOrder)
    {rest : List Transaction} : ∀ {txs more : List Transaction} {m : Mempool}, txs ++ rest ++ more = all →
      Reinjected m₀ txs m → ∃ m' n, m.reinject chainID (rest.map fun tx => (tx, order tx)) = some (m', n) ∧
        Reinjected m₀ (txs ++ rest) m' := by
  induction rest with
  | nil => exact fun _ h => ⟨_, 0, rfl, by rwa [List.append_nil]⟩
  | cons tx rest ih =>
    intro txs more m hall h
    have hall' : txs ++ [tx] ++ rest ++ more = all := by rw [← hall]; simp
    have hpast : ∀ t ∈ txs, t ∈ all := by
      intro t ht
      rw [← hall, List.append_assoc]
      exact List.mem_append_left _ ht
    have hmem : tx ∈ all := by rw [← hall]; simp
    obtain ⟨m₁, r, hadd, h₁⟩ := h.add (hret.sane tx hmem) (fun t ht => hret.places t (hpast t ht) tx hmem)
      (fun t ht => hret.hashes tx hmem t ((h.origin hret.sound ht).imp_right (hpast t)))
      (Room.left (rest ++ more) (by rw [← List.append_assoc, hall']; exact hret.room)) (order tx)
    obtain ⟨m', n, hre, h'⟩ := ih hall' h₁
    rw [List.append_assoc] at h'
    cases r with
    | error e => exact ⟨m', n, by simp only [List.map_cons, Mempool.reinject, hadd, hre], h'⟩
    | ok _ => exact ⟨m', n + 1, by simp only [List.map_cons, Mempool.reinject, hadd, hre, Option.map_some], h'⟩

theorem Reinjected.blocks {all : List Transaction} (hret : Returnable m₀ chainID all) (order : Transaction → MapOrder)
    {blocks : List Block} : ∀ {txs : List Transaction} {m : Mempool}, txs ++ blocks.flatMap Block.txs = all →
      Reinjected m₀ txs m → ∃ m', m.reinjectBlocks chainID order blocks = some m' ∧ Reinjected m₀ all m' := by
  induction blocks with
  | nil =>
    intro txs m hall h
    rw [List.flatMap_nil, List.append_nil] at hall
    exact ⟨m, rfl, hall ▸ h⟩
  | cons b blocks ih =>
    intro txs m hall h
    rw [List.flatMap_cons, ← List.append_assoc] at hall
    obtain ⟨m₁, n, hre, h₁⟩ := h.reinject hret order hall
    obtain ⟨m', hblocks, h'⟩ := ih hall h₁
    exact ⟨m', by simp only [Mempool.reinjectBlocks, hre, hblocks], h'⟩

theorem reinjected_nil (h : m.Sound) : Reinjected m [] m :=
  ⟨h, rfl, fun k t => by simp, by simp, fun a => by simp⟩

end Reinjection

/-! ### The pool after the hook -/

def ByHash (m : Mempool) (t : Transaction) : Prop := m.all[t.hash]? = some t

def ByPlace (m : Mempool) (t : Transaction) : Prop := ∃ k, slot t = some k ∧ m.at? k = some t

theorem Sound.byHash_iff (h : m.Sound) : m.ByHash t ↔ m.ByPlace t := by
  constructor
  · exact fun ht => h.at_of_hash ht
  · rintro ⟨k, -, hk⟩
    exact (h.hash_of_at hk).2

/-- A pool with consistent indexes and room, and a reorg of checked transactions; the dropped ones have different places,
and all that are involved have different hashes. -/
structure Hookable (m : Mempool) (chainID : UInt64) (r : Reorg) : Prop where
  dropped : m.Returnable chainID r.droppedTxs
  added_hashes : ∀ a ∈ r.addedTxs, ∀ t, m.ByHash t ∨ t ∈ r.droppedTxs → t.hash = a.hash → t = a

structure HookRight (m m' : Mempool) (r : Reorg) : Prop where
  added_gone : ∀ t ∈ r.addedTxs, ¬m'.ByHash t ∧ ¬m'.ByPlace t
  dropped_back : ∀ t ∈ r.droppedTxs, (∀ a ∈ r.addedTxs, slot a ≠ slot t) → (∀ k, slot t = some k → m.at? k = none) →
    m'.ByHash t ∧ m'.ByPlace t
  rivals_gone : ∀ t ∈ r.droppedTxs, ∀ a ∈ r.addedTxs, slot a = slot t → a ≠ t → ¬m'.ByHash t ∧ ¬m'.ByPlace t
  others_kept : ∀ t, m.ByHash t → (∀ a ∈ r.addedTxs, slot a ≠ slot t) → m'.ByHash t ∧ m'.ByPlace t

/-- A dropped transaction whose place a different added one has taken is itself added too, or its place was taken by
another one in the pool. -/
def NoRivalBack (m : Mempool) (r : Reorg) : Prop :=
  ∀ t ∈ r.droppedTxs, ∀ a ∈ r.addedTxs, slot a = slot t → a ≠ t →
    t ∈ r.addedTxs ∨ ∃ k u, slot t = some k ∧ m.at? k = some u ∧ u ≠ t

section Hook

variable {m₁ : Mempool} {r : Reorg} {chainID : UInt64}

theorem Reinjected.byHash_iff (h : Reinjected m r.droppedTxs m₁) (hm : m.Sound) : m₁.ByHash t ↔
    m.ByHash t ∨ t ∈ r.droppedTxs ∧ ∃ k, slot t = some k ∧ m.at? k = none := by
  rw [h.sound.byHash_iff, hm.byHash_iff]
  constructor
  · rintro ⟨k, hk, hat⟩
    rcases (h.at_iff k t).1 hat with h0 | ⟨h0, hmem, -⟩
    · exact .inl ⟨k, hk, h0⟩
    · exact .inr ⟨hmem, k, hk, h0⟩
  · rintro (⟨k, hk, h0⟩ | ⟨hmem, k, hk, h0⟩)
    · exact ⟨k, hk, (h.at_iff k t).2 (.inl h0)⟩
    · exact ⟨k, hk, (h.at_iff k t).2 (.inr ⟨h0, hmem, hk⟩)⟩

theorem stays (hkook : m.Hookable chainID r) (h : Reinjected m r.droppedTxs m₁)
    (hall : ∀ h : Hash, m'.all[h]? = if h ∈ r.addedTxs.map Transaction.hash then none else m₁.all[h]?)
    (hat : ∀ k, m'.at? k = if some k ∈ r.addedTxs.map slot then none else m₁.at? k) (ht : m₁.ByHash t)
    (hplace : ∀ a ∈ r.addedTxs, slot a ≠ slot t) : m'.ByHash t ∧ m'.ByPlace t := by
  obtain ⟨k, hk, hkt⟩ := h.sound.byHash_iff.1 ht
  constructor
  · unfold ByHash
    rw [hall, if_neg, ht]
    intro hmem
    obtain ⟨a, ha, heq⟩ := List.mem_map.1 hmem
    have horigin : m.ByHash t ∨ t ∈ r.droppedTxs := h.origin hkook.dropped.sound ht
    rw [hkook.added_hashes a ha t horigin heq.symm] at hplace
    exact hplace a ha rfl
  · refine ⟨k, hk, ?_⟩
    rw [hat, if_neg, hkt]
    intro hmem
    obtain ⟨a, ha, heq⟩ := List.mem_map.1 hmem
    exact hplace a ha (heq.trans hk.symm)

/-- **The hook leaves the pool right exactly when no rival came back.** -/
theorem reorgHook_iff (hhook : m.Hookable chainID r) (order : Transaction → MapOrder) :
    ∃ m', m.reorgHook chainID order r = some m' ∧ (HookRight m m' r ↔ m.NoRivalBack r) := by
  have hsound := hhook.dropped.sound
  obtain ⟨m₁, hblocks, h⟩ := (reinjected_nil hsound).blocks hhook.dropped order (List.nil_append _)
  refine ⟨r.added.foldl (fun m b => m.remove b.txs) m₁, by rw [reorgHook, hblocks]; rfl, ?_⟩
  obtain ⟨hall, hat⟩ := removeBlocks_indexes r.added m₁
  generalize r.added.foldl (fun m b => m.remove b.txs) m₁ = m' at hall hat
  change ∀ h : Hash, m'.all[h]? = if h ∈ r.addedTxs.map Transaction.hash then none else m₁.all[h]? at hall
  change ∀ k, m'.at? k = if some k ∈ r.addedTxs.map slot then none else m₁.at? k at hat
  have hplace : ∀ t k, slot t = some k → some k ∈ r.addedTxs.map slot → ¬m'.ByPlace t := by
    rintro t k hk hmem ⟨k', hk', hkt⟩
    rw [hk] at hk'
    cases hk'
    rw [hat, if_pos hmem] at hkt
    cases hkt
  -- what is left under its hash was there between the loops, and is not added
  have hleft : ∀ t, m'.ByHash t ↔ m₁.ByHash t ∧ t.hash ∉ r.addedTxs.map Transaction.hash := by
    intro t
    unfold ByHash
    rw [hall]
    split_ifs with hmem
    · exact iff_of_false (fun h => by cases h) fun h => h.2 hmem
    · exact (and_iff_left hmem).symm
  have hadded : ∀ t ∈ r.addedTxs, t.hash ∈ r.addedTxs.map Transaction.hash := fun t ht => List.mem_map_of_mem ht
  have hrival : ∀ t ∈ r.droppedTxs, ¬m'.ByHash t ↔ t ∈ r.addedTxs ∨ ∃ k u, slot t = some k ∧ m.at? k = some u ∧ u ≠ t := by
    intro t ht
    obtain ⟨sender, price, amount, hs⟩ := Transaction.sane_of_sanityCheck (hhook.dropped.sane t ht)
    have hslot := slot_ok hs.sender
    have hmem : t.hash ∈ r.addedTxs.map Transaction.hash ↔ t ∈ r.addedTxs := by
      refine ⟨fun hmem => ?_, hadded t⟩
      obtain ⟨a, ha, heq⟩ := List.mem_map.1 hmem
      rwa [hhook.added_hashes a ha t (.inr ht) heq.symm]
    have hother : ¬m₁.ByHash t ↔ ∃ k u, slot t = some k ∧ m.at? k = some u ∧ u ≠ t := by
      rw [h.byHash_iff hsound, hsound.byHash_iff, hslot]
      unfold ByPlace
      cases hu : m.at? (sender, t.nonce) with
      | none => simp [hslot, hu, ht]
      | some u => simp [hslot, hu]
    rw [hleft, not_and_or, not_not, hmem, hother, or_comm]
  constructor
  · intro hright t ht a ha hslot hne
    exact (hrival t ht).1 (hright.rivals_gone t ht a ha hslot hne).1
  · intro hno
    refine ⟨fun t ht => ⟨fun hin => ((hleft t).1 hin).2 (hadded t ht), ?_⟩, fun t ht hnone hfree => ?_,
      fun t ht a ha hslot hne => ⟨(hrival t ht).2 (hno t ht a ha hslot hne), ?_⟩, fun t ht hnone => ?_⟩
    · rintro ⟨k, hk, hkt⟩
      exact hplace t k hk (List.mem_map.2 ⟨t, ht, hk⟩) ⟨k, hk, hkt⟩
    · obtain ⟨sender, price, amount, hs⟩ := Transaction.sane_of_sanityCheck (hhook.dropped.sane t ht)
      have hslot := slot_ok hs.sender
      exact stays hhook h hall hat ((h.byHash_iff hsound).2 (.inr ⟨ht, _, hslot, hfree _ hslot⟩)) hnone
    · rintro ⟨k, hk, hkt⟩
      exact hplace t k hk (List.mem_map.2 ⟨a, ha, hslot.trans hk⟩) ⟨k, hk, hkt⟩
    · exact stays hhook h hall hat ((h.byHash_iff hsound).2 (.inl ht)) hnone

end Hook

/-! Reorgs of one account's transactions: in the first a transaction is on both branches, in the second the added branch
has its rival. -/

def bodyOnly (txs : List Transaction) : Block := ⟨⟨0, 1, 1, 0, 0, 0, 0, 0, 1, 1, 0⟩, txs⟩

def sharedReorg : Reorg := ⟨0, [bodyOnly [firstTx], bodyOnly [secondTx]], [bodyOnly [firstTx]]⟩

def rivalReorg : Reorg := ⟨0, [bodyOnly [firstTx]], [bodyOnly [rivalTx]]⟩

omit [Crypto] in
theorem hookable_new {r : Reorg} (hlen : r.droppedTxs.length ≤ 10)
    (hsane : ∀ tx ∈ r.droppedTxs, @Transaction.sanityCheck poolCrypto tx 1 = .ok ())
    (hplaces : ∀ t ∈ r.droppedTxs, ∀ t' ∈ r.droppedTxs, @slot poolCrypto t = @slot poolCrypto t' → t = t')
    (hhashes : ∀ t ∈ r.droppedTxs ++ r.addedTxs, ∀ t' ∈ r.droppedTxs,
      @Transaction.hash poolCrypto t' = @Transaction.hash poolCrypto t → t' = t) :
    @Hookable poolCrypto (new 10) 1 r := by
  let _ : Crypto := poolCrypto
  have hempty : ∀ h : Hash, (new 10).all[h]? = none := fun h => by simp [new]
  refine ⟨⟨@sound_new poolCrypto _ (by decide), ⟨?_, fun a => ?_⟩, hsane, hplaces, ?_⟩, ?_⟩
  · simp only [new, ExtTreeMap.size_empty]
    omega
  · have hcount : r.droppedTxs.countP (fun tx => (@slot poolCrypto tx).map Prod.fst = some a) ≤ r.droppedTxs.length :=
      List.countP_le_length
    simp only [account, new, ExtTreeMap.getElem?_empty, Option.getD_none, ExtTreeMap.size_empty, maxPerAccount]
    omega
  · rintro t ht t' (h0 | ht')
    · rw [hempty] at h0
      cases h0
    · exact hhashes t (List.mem_append_left _ ht) t' ht'
  · rintro a ha t (h0 | ht)
    · unfold ByHash at h0
      rw [hempty] at h0
      cases h0
    · exact hhashes a (List.mem_append_right _ ha) t ht

omit [Crypto] in
theorem reorgHook_iff_shared : @Hookable poolCrypto (new 10) 1 sharedReorg ∧ @NoRivalBack poolCrypto (new 10) sharedReorg ∧
    ∃ m', @reorgHook poolCrypto (new 10) 1 (fun _ => .sorted) sharedReorg = some m' ∧
      @HookRight poolCrypto (new 10) m' sharedReorg := by
  have hhook : @Hookable poolCrypto (new 10) 1 sharedReorg :=
    hookable_new (by decide) (by decide +kernel) (by decide +kernel) (by decide +kernel)
  have hno : @NoRivalBack poolCrypto (new 10) sharedReorg := by
    have hsame : ∀ t ∈ sharedReorg.droppedTxs, ∀ a ∈ sharedReorg.addedTxs,
        @slot poolCrypto a = @slot poolCrypto t → a = t := by decide +kernel
    exact fun t ht a ha hslot hne => absurd (hsame t ht a ha hslot) hne
  obtain ⟨m', hm', hiff⟩ := @reorgHook_iff poolCrypto _ _ _ hhook fun _ => .sorted
  exact ⟨hhook, hno, m', hm', hiff.2 hno⟩

omit [Crypto] in
/-- **A dropped transaction stays in the index by hash** after a different transaction with its sender and nonce was added;
in the index by account it is not. -/
theorem rival_left_by_hash : @Hookable poolCrypto (new 10) 1 rivalReorg ∧
    ∃ m', @reorgHook poolCrypto (new 10) 1 (fun _ => .sorted) rivalReorg = some m' ∧
      @ByHash poolCrypto m' firstTx ∧ m'.byAcct = ∅ ∧ ¬@HookRight poolCrypto (new 10) m' rivalReorg := by
  have hhook : @Hookable poolCrypto (new 10) 1 rivalReorg :=
    hookable_new (by decide) (by decide +kernel) (by decide +kernel) (by decide +kernel)
  have hrun : (@reorgHook poolCrypto (new 10) 1 (fun _ => .sorted) rivalReorg).map
      (fun m' => (m'.all[@Transaction.hash poolCrypto firstTx]?, m'.byAcct)) = some (some firstTx, ∅) := by decide +kernel
  obtain ⟨m', hm', heq⟩ := Option.map_eq_some_iff.1 hrun
  obtain ⟨hleft, hacct⟩ := Prod.mk.inj heq
  refine ⟨hhook, m', hm', hleft, hacct, fun hright => ?_⟩
  exact (@HookRight.rivals_gone poolCrypto _ _ _ hright firstTx (by decide) rivalTx (by decide) (by decide +kernel) (by decide)).1 hleft

end Mempool

end Lxs
