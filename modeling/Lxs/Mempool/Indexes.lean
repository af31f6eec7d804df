import Lxs.Lib.Index
import Lxs.Lib.Run
import Lxs.Mempool.Mempool

/-!
# The indexes of the mempool

The pool is one set of transactions under two indexes, by hash and by account and nonce. Every operation keeps both in
step, save two: an eviction that takes the newcomer's own account away, and the removal of a mined transaction whose
place in the pool belongs to a competitor.

* `Mempool.Sound m` — both indexes hold one set, within the bounds of the pool;
* `Mempool.pool_sound` — **every run whose steps avoid the two keeps the pool sound and never panics**;
* `Mempool.pool_unsound` — a run of each kind that does not.
-/

namespace Lxs

open Std Lib Lib.Index

namespace Mempool

/-! ### What each operation does to an account -/

theorem account_insert (m : Mempool) (all : ExtTreeMap Hash Transaction) (sender a : Address) (c : Queue) :
    Mempool.account { m with all := all, byAcct := m.byAcct.insert sender c } a =
      if sender = a then c else m.account a := by
  simp only [account, ExtTreeMap.getElem?_insert, LawfulEqCmp.compare_eq_iff_eq]
  split <;> rfl

theorem account_openAccount (m : Mempool) (sender a : Address) : (m.openAccount sender).account a = m.account a := by
  rw [openAccount, account_insert]
  split
  case isTrue h => rw [h]
  case isFalse => rfl

theorem getElem?_dropEntry_ne (b : ExtTreeMap Address Queue) {a a' : Address} (n : UInt64)
    (h : a ≠ a') : (dropEntry b a n)[a']? = b[a']? := by
  rw [dropEntry]
  split
  · rfl
  · dsimp only
    split
    · rw [ExtTreeMap.getElem?_erase, if_neg (by rwa [LawfulEqCmp.compare_eq_iff_eq])]
    · rw [ExtTreeMap.getElem?_insert, if_neg (by rwa [LawfulEqCmp.compare_eq_iff_eq])]

theorem getElem?_dropEntry_self (b : ExtTreeMap Address Queue) (a : Address) (n : UInt64) :
    (dropEntry b a n)[a]? = (b[a]?).bind fun c : Queue =>
      if (c.erase n).isEmpty then none else some (c.erase n) := by
  rw [dropEntry]
  split
  case h_1 hb => rw [hb, Option.bind_none]
  case h_2 c hb =>
    rw [hb, Option.bind_some]
    dsimp only
    split
    · rw [ExtTreeMap.getElem?_erase, if_pos (by rw [LawfulEqCmp.compare_eq_iff_eq])]
    · rw [ExtTreeMap.getElem?_insert, if_pos (by rw [LawfulEqCmp.compare_eq_iff_eq])]

theorem getD_dropEntry (b : ExtTreeMap Address Queue) (a a' : Address) (n : UInt64) :
    ((dropEntry b a n)[a']?).getD ∅ = if a = a' then ExtTreeMap.erase ((b[a]?).getD ∅) n else (b[a']?).getD ∅ := by
  by_cases h : a = a'
  · subst h
    rw [if_pos rfl, getElem?_dropEntry_self]
    cases hb : b[a]? with
    | none => simp
    | some c =>
      rw [Option.bind_some, Option.getD_some]
      split
      case isTrue he => rw [Option.getD_none, ExtTreeMap.isEmpty_iff.1 he]
      case isFalse => rw [Option.getD_some]
  · rw [if_neg h, getElem?_dropEntry_ne b n h]

/-! ### What is chosen -/

theorem foldl_choose_mem (p : Transaction → Transaction → Bool) (txs : List Transaction) (t : Transaction) :
    txs.foldl (fun best tx => if p tx best then tx else best) t ∈ t :: txs := by
  induction txs generalizing t with
  | nil => exact List.mem_singleton.2 rfl
  | cons tx txs ih =>
    rw [List.foldl_cons]
    split
    · exact List.mem_cons_of_mem _ (ih tx)
    · rcases List.mem_cons.1 (ih t) with h | h
      · rw [h]
        exact List.mem_cons_self
      · exact List.mem_cons_of_mem _ (List.mem_cons_of_mem _ h)

variable {tx : Transaction}

theorem lowestPriced_mem {l : List Transaction} (h : lowestPriced l = some tx) : tx ∈ l := by
  cases l with
  | nil => cases h
  | cons t txs =>
    have := foldl_choose_mem (fun tx min => tx.price < min.price) txs t
    simp only [decide_eq_true_eq] at this
    cases h
    exact this

theorem tail_mem {q : Queue} (h : tail q = some tx) : ∃ n : UInt64, q[n]? = some tx := by
  have hmem : tx ∈ q.toList.map Prod.snd := by
    rw [tail] at h
    split at h
    · cases h
    case h_2 t txs hl =>
      have := foldl_choose_mem (fun tx tail => tail.nonce < tx.nonce) txs t
      simp only [decide_eq_true_eq] at this
      cases h
      rwa [hl]
  obtain ⟨⟨n, t⟩, hkv, rfl⟩ := List.mem_map.1 hmem
  exact ⟨n, ExtTreeMap.mem_toList_iff_getElem?_eq_some.1 hkv⟩

theorem tail_eq_none {c : Queue} (h : tail c = none) : c = ∅ := by
  rw [tail] at h
  split at h
  case h_1 hl => exact ExtTreeMap.toList_eq_nil_iff.1 (List.map_eq_nil_iff.1 hl)
  case h_2 => cases h

theorem exists_of_mem_order {o : MapOrder} {m : ExtTreeMap Hash Transaction} (h : tx ∈ o.order m) :
    ∃ k : Hash, m[k]? = some tx := by
  obtain ⟨⟨k, t⟩, hkv, rfl⟩ := List.mem_map.1 ((o.perm m).mem_iff.1 h)
  exact ⟨k, ExtTreeMap.mem_toList_iff_getElem?_eq_some.1 hkv⟩

section Soundness

variable [Crypto]

def slot (tx : Transaction) : Option (Address × UInt64) :=
  match tx.sender with
  | .error _ => none
  | .ok sender => some (sender, tx.nonce)

/-- Both indexes hold one set of transactions, which keeps the bounds of the pool. -/
structure Sound (m : Mempool) : Prop where
  indexes : ∃ S : Set Transaction, Holds (fun tx => some tx.hash) (fun h => m.all[h]?) S ∧
    Holds slot (fun k : Address × UInt64 => (m.account k.1)[k.2]?) S
  size_le : (m.all.size : ℤ) ≤ m.maxSize
  account_le : ∀ a, (m.account a).size ≤ maxPerAccount

variable {m : Mempool} {sender : Address}

theorem account_dropLocked (hs : tx.sender = .ok sender) (a : Address) :
    (m.dropLocked tx).account a = if sender = a then (m.account sender).erase tx.nonce else m.account a := by
  simp only [account, dropLocked, hs, getD_dropEntry]

theorem account_dropLocked_error {e : TxCheckError} (hs : tx.sender = .error e)
    (a : Address) : (m.dropLocked tx).account a = m.account a := by
  simp only [account, dropLocked, hs]

variable {c : Queue}

theorem store_eq
    (hc : m.byAcct[sender]? = some c) :
    m.store tx sender = some { m with
      all := m.all.insert tx.hash tx, byAcct := m.byAcct.insert sender ((m.account sender).insert tx.nonce tx) } := by
  rw [store, hc]
  simp only [account, hc, Option.getD_some]

theorem slot_ok (hs : tx.sender = .ok sender) :
    slot tx = some (sender, tx.nonce) := by
  simp only [slot, hs]

theorem sender_of_slot {k : Address × UInt64} (h : slot tx = some k) :
    tx.sender = .ok k.1 ∧ tx.nonce = k.2 := by
  rw [slot] at h
  split at h
  · cases h
  case h_2 sender hs =>
    cases h
    exact ⟨hs, rfl⟩

/-! ### Dropping -/

/-- No other transaction of the pool has the hash or the place of `tx`. -/
def removable (m : Mempool) (tx : Transaction) : Bool :=
  (m.all[tx.hash]?).all (· = tx) &&
    match tx.sender with
    | .error _ => true
    | .ok sender => ((m.account sender)[tx.nonce]?).all (· = tx)

theorem removable_iff :
    m.removable tx = true ↔ (∀ t, m.all[tx.hash]? = some t → t = tx) ∧
      ∀ sender, tx.sender = .ok sender → ∀ t, (m.account sender)[tx.nonce]? = some t → t = tx := by
  simp only [removable, Bool.and_eq_true, Option.all_eq_true, decide_eq_true_eq]
  refine and_congr_right fun _ => ?_
  cases hs : tx.sender with
  | error e => simp
  | ok sender =>
    simp only [Option.all_eq_true, decide_eq_true_eq]
    exact ⟨fun h a ha => by cases ha; exact h, fun h => h sender rfl⟩

variable {n : UInt64}

theorem Sound.entry (h : m.Sound) {a : Address}
    (ht : (m.account a)[n]? = some tx) : tx.sender = .ok a ∧ tx.nonce = n ∧ m.all[tx.hash]? = some tx := by
  obtain ⟨S, hall, hacct⟩ := h.indexes
  obtain ⟨hmem, hkey⟩ := hacct.mem (k := (a, n)) ht
  obtain ⟨hs, hn⟩ := sender_of_slot hkey
  exact ⟨hs, hn, hall.get_of_key hmem rfl⟩

theorem Sound.found (h : m.Sound) {k : Hash} (ht : m.all[k]? = some tx) :
    tx.hash = k ∧ ∃ sender, tx.sender = .ok sender ∧ (m.account sender)[tx.nonce]? = some tx := by
  obtain ⟨S, hall, hacct⟩ := h.indexes
  obtain ⟨hmem, hkey⟩ := hall.mem ht
  obtain ⟨⟨a, n⟩, hslot, hget⟩ := hacct.get hmem
  obtain ⟨hs, hn⟩ := sender_of_slot hslot
  refine ⟨Option.some.inj hkey, a, hs, ?_⟩
  rw [hn]
  exact hget

theorem Sound.removable_entry (h : m.Sound) {a : Address}
    (ht : (m.account a)[n]? = some tx) : m.removable tx = true := by
  obtain ⟨hs, rfl, hall⟩ := h.entry ht
  refine removable_iff.2 ⟨fun t h' => ?_, fun sender hs' t h' => ?_⟩
  · rw [hall] at h'
    exact (Option.some.inj h').symm
  · rw [hs] at hs'
    cases hs'
    rw [ht] at h'
    exact (Option.some.inj h').symm

omit [Crypto] in
theorem compare_nonce_iff {k : Address × UInt64} (hk : sender = k.1) : compare n k.2 = .eq ↔ (sender, n) = k := by
  rw [LawfulEqCmp.compare_eq_iff_eq, Prod.ext_iff]
  exact (and_iff_right hk).symm

theorem Sound.dropLocked (h : m.Sound) (hr : m.removable tx = true) :
    (m.dropLocked tx).Sound := by
  obtain ⟨S, hall, hacct⟩ := h.indexes
  obtain ⟨hown, hplace⟩ := removable_iff.1 hr
  have hall' : Holds (fun tx => some tx.hash) (fun k => (m.dropLocked tx).all[k]?) (S \ {tx}) := by
    refine hall.erase (t := tx) rfl hown fun k => ?_
    simp only [Mempool.dropLocked, ExtTreeMap.getElem?_erase, LawfulEqCmp.compare_eq_iff_eq]
  refine ⟨⟨S \ {tx}, hall', ?_⟩, ?_, fun a => ?_⟩
  · cases hs : tx.sender with
    | ok sender =>
      refine hacct.erase (slot_ok hs) (hplace sender hs) fun k => ?_
      rw [account_dropLocked hs]
      by_cases hk : sender = k.1
      · rw [if_pos hk, ExtTreeMap.getElem?_erase, if_congr (compare_nonce_iff hk) rfl rfl, hk]
      · rw [if_neg hk, if_neg fun he => hk (congrArg Prod.fst he)]
    | error e =>
      -- a transaction without a sender is in no sound pool
      have hnot : tx ∉ S := by
        intro hmem
        obtain ⟨k, hk, -⟩ := hacct.get hmem
        rw [(sender_of_slot hk).1] at hs
        cases hs
      rw [Set.sdiff_singleton_eq_self hnot]
      exact hacct.congr fun k => by rw [account_dropLocked_error hs]
  · have := ExtTreeMap.size_erase_le (t := m.all) (k := tx.hash)
    have := h.size_le
    simp only [Mempool.dropLocked]
    omega
  · cases hs : tx.sender with
    | ok sender =>
      rw [account_dropLocked hs]
      split
      · exact ExtTreeMap.size_erase_le.trans (h.account_le sender)
      · exact h.account_le a
    | error e =>
      rw [account_dropLocked_error hs]
      exact h.account_le a

theorem size_dropLocked_lt (h : m.Sound) {tx t : Transaction} (ht : m.all[tx.hash]? = some t) :
    ((m.dropLocked tx).all.size : ℤ) < (m.dropLocked tx).maxSize := by
  obtain ⟨hmem, hpos⟩ := FinMap.contains_of_getElem? ht
  have := h.size_le
  simp only [Mempool.dropLocked, ExtTreeMap.size_erase, hmem, if_true]
  omega

theorem dropLocked_leaves_room {t : Transaction} {sender victim : Address}
    (ht : t.sender = .ok victim) (hfree : (m.account sender)[n]? = none) (hcap : (m.account sender).size < maxPerAccount) :
    ((m.dropLocked t).account sender)[n]? = none ∧ ((m.dropLocked t).account sender).size < maxPerAccount := by
  rw [account_dropLocked ht]
  split
  case isTrue hv =>
    subst hv
    exact ⟨by rw [ExtTreeMap.getElem?_erase, hfree, ite_self], Nat.lt_of_le_of_lt ExtTreeMap.size_erase_le hcap⟩
  case isFalse => exact ⟨hfree, hcap⟩

/-! ### Adding -/

theorem Sound.store (h : m.Sound)
    (hs : tx.sender = .ok sender) (hc : m.byAcct[sender]? = some c) (hnew : m.all[tx.hash]? = none)
    (hfree : (m.account sender)[tx.nonce]? = none) (hroom : (m.all.size : ℤ) < m.maxSize)
    (hcap : (m.account sender).size < maxPerAccount) :
    ∃ m', m.store tx sender = some m' ∧ m'.maxSize = m.maxSize ∧ m'.Sound := by
  obtain ⟨S, hall, hacct⟩ := h.indexes
  refine ⟨_, store_eq hc, rfl, ⟨insert tx S, ?_, ?_⟩, ?_, fun a => ?_⟩
  · refine hall.insert (t := tx) rfl hnew fun k => ?_
    simp only [ExtTreeMap.getElem?_insert, LawfulEqCmp.compare_eq_iff_eq]
  · refine hacct.insert (slot_ok hs) hfree fun k => ?_
    rw [account_insert]
    by_cases hk : sender = k.1
    · rw [if_pos hk, ExtTreeMap.getElem?_insert, if_congr (compare_nonce_iff hk) rfl rfl, hk]
    · rw [if_neg hk, if_neg fun he => hk (congrArg Prod.fst he)]
  · have := ExtTreeMap.size_insert_le (t := m.all) (k := tx.hash) (v := tx)
    dsimp only
    omega
  · rw [account_insert]
    split
    · exact ExtTreeMap.size_insert_le.trans hcap
    · exact h.account_le a

theorem Sound.openAccount (h : m.Sound) (sender : Address) : (m.openAccount sender).Sound where
  indexes := by
    obtain ⟨S, hall, hacct⟩ := h.indexes
    exact ⟨S, hall, hacct.congr fun k => by rw [account_openAccount]⟩
  size_le := h.size_le
  account_le a := by
    rw [account_openAccount]
    exact h.account_le a

/-- What eviction does in a sound pool: it refuses the newcomer, or drops a queued transaction of the account of the
cheapest one. -/
theorem Sound.evict_cases (h : m.Sound) (tx : Transaction) (o : MapOrder) :
    m.evict tx o = some (.error .poolFull) ∨
      ∃ cheapest t victim, m.evict tx o = some (.ok (m.dropLocked t)) ∧ lowestPriced (o.order m.all) = some cheapest ∧
        cheapest.price < tx.price ∧ cheapest.sender = .ok victim ∧ (m.account victim)[t.nonce]? = some t := by
  rw [evict]
  split
  case h_1 => exact .inl rfl
  case h_2 cheapest hlow =>
    obtain ⟨k, hk⟩ := exists_of_mem_order (lowestPriced_mem hlow)
    obtain ⟨-, victim, hv, hentry⟩ := h.found hk
    split
    case isTrue => exact .inl rfl
    case isFalse hprice =>
      rw [hv]
      dsimp only
      split
      case h_1 hnone => exact absurd hentry (by rw [tail_eq_none hnone]; simp)
      case h_2 t ht =>
        obtain ⟨n, hn⟩ := tail_mem ht
        obtain ⟨-, rfl, -⟩ := h.entry hn
        exact .inr ⟨cheapest, t, victim, rfl, hlow, Int.not_le.1 hprice, hv, hn⟩

/-- `tx` has a free place, the pool is full, and the cheapest transaction, which `tx` outbids, is the only one that its
sender has queued. -/
def takesOwn (m : Mempool) (tx : Transaction) (sender : Address) (o : MapOrder) : Bool :=
  match lowestPriced (o.order m.all) with
  | none => false
  | some cheapest =>
    tx.nonce ∉ m.account sender && m.maxSize ≤ m.all.size && cheapest.price < tx.price &&
      cheapest.sender = .ok sender && (m.account sender).size = 1

/-- `add` gets past its checks and evicts the only queued transaction of the account it then writes into. -/
def evictsOwn (m : Mempool) (tx : Transaction) (chainID : UInt64) (enforceFloor : Bool) (o : MapOrder) : Bool :=
  match tx.sanityCheck chainID, tx.sender with
  | .ok _, .ok sender => !(enforceFloor && m.isUnderpriced tx) && tx.hash ∉ m.all && m.takesOwn tx sender o
  | _, _ => false

theorem byAcct_dropLocked_some {t : Transaction} {sender victim : Address}
    (hc : m.byAcct[sender]? = some c) (ht : t.sender = .ok victim) (hentry : (m.account victim)[t.nonce]? = some t)
    (hmore : victim = sender → (m.account sender).size ≠ 1) : ∃ c', (m.dropLocked t).byAcct[sender]? = some c' := by
  simp only [Mempool.dropLocked, ht]
  by_cases hv : victim = sender
  · subst hv
    have hacct : m.account victim = c := by rw [account, hc, Option.getD_some]
    rw [hacct] at hentry hmore
    rw [getElem?_dropEntry_self, hc, Option.bind_some, if_neg]
    · exact ⟨_, rfl⟩
    · intro hempty
      have hsize := ExtTreeMap.eq_empty_iff_size_eq_zero.1 (ExtTreeMap.isEmpty_iff.1 hempty)
      obtain ⟨hmem, hpos⟩ := FinMap.contains_of_getElem? hentry
      rw [ExtTreeMap.size_erase, if_pos hmem] at hsize
      have := hmore rfl
      omega
  · exact ⟨c, by rw [getElem?_dropEntry_ne _ _ hv, hc]⟩

variable {o : MapOrder}

theorem Sound.takeIn (h : m.Sound)
    (hs : tx.sender = .ok sender) (hc : m.byAcct[sender]? = some c) (hnew : m.all[tx.hash]? = none)
    (hown : m.takesOwn tx sender o = false) :
    ∃ m' r, m.takeIn tx sender o = some (m', r) ∧ m'.maxSize = m.maxSize ∧ m'.Sound := by
  rw [Mempool.takeIn]
  split
  · exact ⟨_, _, rfl, rfl, h⟩
  case isFalse hnonce =>
  have hfree := FinMap.getElem?_of_not_mem hnonce
  split
  · exact ⟨_, _, rfl, rfl, h⟩
  case isFalse hcap =>
  have hcap := Nat.not_le.1 hcap
  split
  case isFalse hroom =>
    obtain ⟨m', hst, hm', hsound⟩ := h.store hs hc hnew hfree (Int.not_le.1 hroom) hcap
    exact ⟨m', _, by rw [hst]; rfl, hm', hsound⟩
  case isTrue hfull =>
    obtain hev | ⟨cheapest, t, victim, hev, hlow, hprice, hcs, hentry⟩ := h.evict_cases tx o
    · rw [hev]
      exact ⟨_, _, rfl, rfl, h⟩
    · rw [hev]
      obtain ⟨htv, -, hin⟩ := h.entry hentry
      have hmore : victim = sender → (m.account sender).size ≠ 1 := by
        rintro rfl hone
        simp [takesOwn, hlow, hnonce, hfull, hprice, hcs, hone] at hown
      obtain ⟨c', hc'⟩ := byAcct_dropLocked_some hc htv hentry hmore
      obtain ⟨hfree', hcap'⟩ := dropLocked_leaves_room htv hfree hcap
      have hroom : ((m.dropLocked t).all.size : ℤ) < (m.dropLocked t).maxSize := size_dropLocked_lt h hin
      have hnew' : (m.dropLocked t).all[tx.hash]? = none := by
        simp only [Mempool.dropLocked, ExtTreeMap.getElem?_erase, hnew, ite_self]
      obtain ⟨m', hst, hm', hsound⟩ :=
        (h.dropLocked (h.removable_entry hentry)).store hs hc' hnew' hfree' hroom hcap'
      exact ⟨m', _, by dsimp only; rw [hst]; rfl, hm', hsound⟩

theorem Sound.addLocked (h : m.Sound) (hs : tx.sender = .ok sender) {enforceFloor : Bool}
    (hown : (!(enforceFloor && m.isUnderpriced tx) && tx.hash ∉ m.all && m.takesOwn tx sender o) = false) :
    ∃ m' r, m.addLocked tx sender enforceFloor o = some (m', r) ∧ m'.maxSize = m.maxSize ∧ m'.Sound := by
  rw [Mempool.addLocked]
  split
  · exact ⟨_, _, rfl, rfl, h⟩
  case isFalse hfloor =>
  split
  · exact ⟨_, _, rfl, rfl, h⟩
  case isFalse hnew =>
  have hown' : (m.openAccount sender).takesOwn tx sender o = false := by
    rw [Bool.eq_false_iff.2 hfloor, decide_eq_true hnew, Bool.not_false, Bool.true_and, Bool.true_and] at hown
    rw [← hown, takesOwn, takesOwn]
    simp only [account_openAccount]
    rfl
  exact (h.openAccount sender).takeIn hs ExtTreeMap.getElem?_insert_self (FinMap.getElem?_of_not_mem hnew) hown'

theorem Sound.add (h : m.Sound) {chainID : UInt64} {enforceFloor : Bool}
    (hown : m.evictsOwn tx chainID enforceFloor o = false) :
    ∃ m' r, m.add tx chainID enforceFloor o = some (m', r) ∧ m'.maxSize = m.maxSize ∧ m'.Sound := by
  rw [Mempool.add]
  split
  · exact ⟨_, _, rfl, rfl, h⟩
  case h_2 hsane =>
  split
  · exact ⟨_, _, rfl, rfl, h⟩
  case h_2 sender hs =>
    rw [evictsOwn, hsane, hs] at hown
    exact h.addLocked hs hown

/-- Every transaction of a reinjection is added in a pool where it does not evict its own account. -/
def reinjectable (m : Mempool) (chainID : UInt64) : List (Transaction × MapOrder) → Bool
  | [] => true
  | (tx, o) :: txs =>
    !m.evictsOwn tx chainID false o &&
      match m.add tx chainID false o with
      | none => true
      | some (m', _) => m'.reinjectable chainID txs

theorem Sound.reinject (h : m.Sound) {chainID : UInt64} {txs : List (Transaction × MapOrder)}
    (hown : m.reinjectable chainID txs = true) :
    ∃ m' n, m.reinject chainID txs = some (m', n) ∧ m'.maxSize = m.maxSize ∧ m'.Sound := by
  induction txs generalizing m with
  | nil => exact ⟨m, 0, rfl, rfl, h⟩
  | cons p txs ih =>
    obtain ⟨tx, o⟩ := p
    simp only [reinjectable, Bool.and_eq_true, Bool.not_eq_true'] at hown
    obtain ⟨m₁, r, hadd, hmax, h₁⟩ := h.add hown.1
    obtain ⟨-, hrest⟩ := hown
    rw [hadd] at hrest
    obtain ⟨m', n, hre, hmax', h'⟩ := ih h₁ hrest
    cases r with
    | error e => exact ⟨m', n, by simp only [Mempool.reinject, hadd, hre], hmax'.trans hmax, h'⟩
    | ok _ => exact ⟨m', n + 1, by simp only [Mempool.reinject, hadd, hre, Option.map_some], hmax'.trans hmax, h'⟩

/-! ### Removing -/

theorem Sound.of_eq {m m' : Mempool} (h : m.Sound) (hall : m'.all = m.all) (hacct : m'.byAcct = m.byAcct)
    (hmax : m'.maxSize = m.maxSize) : m'.Sound := by
  have hq : ∀ a, m'.account a = m.account a := fun a => by rw [account, account, hacct]
  obtain ⟨S, hS, hS'⟩ := h.indexes
  refine ⟨⟨S, by rwa [hall], hS'.congr fun k => by rw [hq]⟩, by rw [hall, hmax]; exact h.size_le, fun a => ?_⟩
  rw [hq]
  exact h.account_le a

theorem removable_dropLocked (t : Transaction) (h : m.removable tx = true) :
    (m.dropLocked t).removable tx = true := by
  obtain ⟨hhash, hplace⟩ := removable_iff.1 h
  refine removable_iff.2 ⟨fun t' ht' => hhash t' ?_, fun sender hs t' ht' => hplace sender hs t' ?_⟩
  · simp only [Mempool.dropLocked, ExtTreeMap.getElem?_erase] at ht'
    split at ht'
    · cases ht'
    · exact ht'
  · cases hst : t.sender with
    | error e => rwa [account_dropLocked_error hst] at ht'
    | ok victim =>
      rw [account_dropLocked hst] at ht'
      split at ht'
      case isFalse => exact ht'
      case isTrue hv =>
        rw [ExtTreeMap.getElem?_erase] at ht'
        split at ht'
        · cases ht'
        · rwa [hv] at ht'

theorem Sound.removeOne (h : m.Sound) (hr : m.removable tx = true) :
    (m.removeOne tx).Sound := (h.dropLocked hr).of_eq rfl rfl rfl

theorem Sound.remove (h : m.Sound) {txs : List Transaction} (hr : ∀ tx ∈ txs, m.removable tx = true) :
    (m.remove txs).maxSize = m.maxSize ∧ (m.remove txs).Sound := by
  have hfold : (txs.foldl Mempool.removeOne m).maxSize = m.maxSize ∧ (txs.foldl Mempool.removeOne m).Sound := by
    induction txs generalizing m with
    | nil => exact ⟨rfl, h⟩
    | cons tx txs ih =>
      have hrest : ∀ t ∈ txs, (m.removeOne tx).removable t = true := fun t ht =>
        removable_dropLocked tx (hr t (List.mem_cons_of_mem _ ht))
      exact ih (h.removeOne (hr tx List.mem_cons_self)) hrest
  rw [Mempool.remove]
  split
  · rw [rewriteJournal]
    split
    · exact hfold
    · exact ⟨hfold.1, hfold.2.of_eq rfl rfl rfl⟩
  · exact hfold

def Stale (s : State) (tx : Transaction) : Prop := ∃ sender, tx.sender = .ok sender ∧ tx.nonce < s.nonce sender

theorem mem_stales (h : m.Sound) {s : State} :
    tx ∈ m.stales s ↔ m.all[tx.hash]? = some tx ∧ Stale s tx := by
  constructor
  · intro hmem
    obtain ⟨⟨a, c⟩, hc, ht⟩ := List.mem_flatMap.1 hmem
    obtain ⟨⟨n, t⟩, hf, rfl⟩ := List.mem_map.1 ht
    obtain ⟨hn, hlt⟩ := List.mem_filter.1 hf
    have hentry : (m.account a)[n]? = some t := by
      rw [account, ExtTreeMap.mem_toList_iff_getElem?_eq_some.1 hc, Option.getD_some]
      exact ExtTreeMap.mem_toList_iff_getElem?_eq_some.1 hn
    obtain ⟨hs, rfl, hall⟩ := h.entry hentry
    exact ⟨hall, a, hs, of_decide_eq_true hlt⟩
  · rintro ⟨hall, a, hs, hlt⟩
    obtain ⟨-, a', hs', hentry⟩ := h.found hall
    rw [hs] at hs'
    cases hs'
    cases hb : m.byAcct[a]? with
    | none => simp [account, hb] at hentry
    | some c =>
      rw [account, hb, Option.getD_some] at hentry
      refine List.mem_flatMap.2 ⟨(a, c), ExtTreeMap.mem_toList_iff_getElem?_eq_some.2 hb, List.mem_map.2 ⟨(tx.nonce, tx), ?_, rfl⟩⟩
      exact List.mem_filter.2 ⟨ExtTreeMap.mem_toList_iff_getElem?_eq_some.2 hentry, decide_eq_true hlt⟩

theorem getElem?_foldl_erase (txs : List Transaction) (all : ExtTreeMap Hash Transaction) (k : Hash) (tx : Transaction) :
    (txs.foldl (fun all tx => all.erase tx.hash) all)[k]? = some tx ↔ all[k]? = some tx ∧ ∀ t ∈ txs, t.hash ≠ k := by
  induction txs generalizing all with
  | nil => simp
  | cons t txs ih =>
    rw [List.foldl_cons, ih, ExtTreeMap.getElem?_erase]
    by_cases hk : t.hash = k
    · simp [hk]
    · simp [hk]

theorem size_foldl_erase_le (txs : List Transaction) (all : ExtTreeMap Hash Transaction) :
    (txs.foldl (fun all tx => all.erase tx.hash) all).size ≤ all.size := by
  induction txs generalizing all with
  | nil => exact Nat.le_refl _
  | cons t txs ih => exact (ih _).trans ExtTreeMap.size_erase_le

theorem account_demote (m : Mempool) (s : State) (a : Address) : (m.demote s).1.account a = live s a (m.account a) := by
  simp only [account, demote, ExtTreeMap.getElem?_filterMap']
  cases m.byAcct[a]? with
  | none => exact (ExtTreeMap.ext_getElem? fun n => by simp [live]).symm
  | some c =>
    rw [Option.bind_some, Option.getD_some]
    split
    case isTrue he => rw [Option.getD_none, ExtTreeMap.isEmpty_iff.1 he]
    case isFalse => rw [Option.getD_some]

theorem Sound.demote (h : m.Sound) (s : State) : (m.demote s).1.Sound := by
  obtain ⟨S, hall, hacct⟩ := h.indexes
  refine ⟨⟨S ∩ {tx | ¬Stale s tx}, hall.restrict fun k tx => ?_, hacct.restrict fun k tx => ?_⟩, ?_, fun a => ?_⟩
  · rw [Mempool.demote, getElem?_foldl_erase]
    refine and_congr_right fun hk => ?_
    obtain ⟨rfl, -⟩ := h.found hk
    constructor
    · intro hne hstale
      exact hne tx ((mem_stales h).2 ⟨hk, hstale⟩) rfl
    · intro hfresh t ht heq
      obtain ⟨ht, hstale⟩ := (mem_stales h).1 ht
      rw [heq, hk] at ht
      cases ht
      exact hfresh hstale
  · rw [account_demote, live, ExtTreeMap.getElem?_filter', Option.filter_eq_some_iff]
    refine and_congr_right fun hk => ?_
    obtain ⟨hs, hn, -⟩ := h.entry hk
    rw [Bool.not_eq_true', decide_eq_false_iff_not]
    refine not_congr ⟨fun hlt => ⟨k.1, hs, hn ▸ hlt⟩, ?_⟩
    rintro ⟨a, ha, hlt⟩
    rw [hs] at ha
    cases ha
    exact hn ▸ hlt
  · have := size_foldl_erase_le (m.stales s) m.all
    have := h.size_le
    simp only [Mempool.demote]
    omega
  · rw [account_demote]
    exact ExtTreeMap.size_filter_le_size.trans (h.account_le a)

end Soundness

/-! ### Runs -/

inductive PoolOp
  | add (tx : Transaction) (chainID : UInt64) (o : MapOrder)
  | addLocal (tx : Transaction) (chainID : UInt64) (o : MapOrder)
  | remove (txs : List Transaction)
  | reinject (txs : List (Transaction × MapOrder)) (chainID : UInt64)
  | demote (s : State)
  | setMinGasPrice (p : Option ℤ)

def outcome {α : Type} : Option (Mempool × α) → Except Unit Mempool
  | none => .error ()
  | some (m, _) => .ok m

section Runs

variable [Crypto]

def exec (m : Mempool) : PoolOp → Except Unit Mempool
  | .add tx chainID o => outcome (m.add tx chainID true o)
  | .addLocal tx chainID o => outcome (m.addLocal tx chainID o)
  | .remove txs => .ok (m.remove txs)
  | .reinject txs chainID => outcome (m.reinject chainID txs)
  | .demote s => .ok (m.demote s).1
  | .setMinGasPrice p => .ok (m.setMinGasPrice p)

/-- The calls that keep the indexes in step: no newcomer evicts its own account, and what is removed shares neither its
hash nor its place with another transaction of the pool. -/
def safe (m : Mempool) : PoolOp → Bool
  | .add tx chainID o => !m.evictsOwn tx chainID true o
  | .addLocal tx chainID o => !m.evictsOwn tx chainID true o
  | .remove txs => txs.all m.removable
  | .reinject txs chainID => m.reinjectable chainID txs
  | .demote _ => true
  | .setMinGasPrice _ => true

theorem Sound.addLocal {m : Mempool} (h : m.Sound) {tx : Transaction} {o : MapOrder} {chainID : UInt64}
    (hown : m.evictsOwn tx chainID true o = false) : ∃ m' r, m.addLocal tx chainID o = some (m', r) ∧ m'.maxSize = m.maxSize ∧ m'.Sound := by
  obtain ⟨m₁, r, hadd, hmax, h₁⟩ := h.add hown
  cases r with
  | error e => exact ⟨m₁, .error e, by simp only [Mempool.addLocal, hadd], hmax, h₁⟩
  | ok _ =>
    refine ⟨{ m₁ with «local» := m₁.local.insert tx.hash, journal := m₁.journal.map (· ++ [tx]) }, .ok (), ?_, hmax, ?_⟩
    · simp only [Mempool.addLocal, hadd]
    · exact h₁.of_eq rfl rfl rfl

theorem Sound.exec {m : Mempool} (h : m.Sound) {op : PoolOp} (hsafe : m.safe op = true) :
    ∃ m', m.exec op = .ok m' ∧ m'.maxSize = m.maxSize ∧ m'.Sound := by
  cases op with
  | add tx chainID o =>
    obtain ⟨m', r, hadd, hmax, h'⟩ := h.add (by simpa [safe] using hsafe)
    exact ⟨m', by simp only [Mempool.exec, hadd, outcome], hmax, h'⟩
  | addLocal tx chainID o =>
    obtain ⟨m', r, hadd, hmax, h'⟩ := h.addLocal (by simpa [safe] using hsafe)
    exact ⟨m', by simp only [Mempool.exec, hadd, outcome], hmax, h'⟩
  | remove txs =>
    obtain ⟨hmax, h'⟩ := h.remove (List.all_eq_true.1 hsafe)
    exact ⟨m.remove txs, rfl, hmax, h'⟩
  | reinject txs chainID =>
    obtain ⟨m', n, hre, hmax, h'⟩ := h.reinject hsafe
    exact ⟨m', by simp only [Mempool.exec, hre, outcome], hmax, h'⟩
  | demote s => exact ⟨_, rfl, rfl, h.demote s⟩
  | setMinGasPrice p => exact ⟨_, rfl, rfl, h.of_eq rfl rfl rfl⟩

theorem sound_new {maxSize : ℤ} (h : 1 ≤ maxSize) : (new maxSize).Sound where
  indexes := ⟨∅, holds_empty fun k => by simp [new], holds_empty fun k => by simp [account, new]⟩
  size_le := by
    simp only [new, ExtTreeMap.size_empty]
    omega
  account_le a := by simp [account, new]

/-- **The two indexes stay in step.** -/
theorem pool_sound {maxSize : ℤ} (hpos : 1 ≤ maxSize) {ops : List PoolOp}
    (hsafe : Run.Meets exec (fun m op => m.safe op = true) (new maxSize) ops) :
    ∃ m, Run.run exec (new maxSize) ops = .ok m ∧ m.maxSize = maxSize ∧ m.Sound := by
  have hstep : ∀ (past : List PoolOp) (op : PoolOp) (m : Mempool), op ∈ ops → (m.maxSize = maxSize ∧ m.Sound) →
      m.safe op = true → ∃ m', m.exec op = .ok m' ∧ (m'.maxSize = maxSize ∧ m'.Sound) := by
    intro past op m _ h hs
    obtain ⟨m', hexec, hmax, h'⟩ := h.2.exec hs
    exact ⟨m', hexec, hmax.trans h.1, h'⟩
  exact Run.run_induction hstep hsafe [] ⟨rfl, sound_new hpos⟩

end Runs

/-! Three transactions of one account: two in a row, and a rival of the first. -/

def firstSig : Bytes :=
  beBytes 65 0x1c352bbf4a4cdd12564f93fa332ce333301d9ad40271f8107181340aef25be59d56269399f797c1baba08182412a76834f406a52da8d9050551207fdf2fa25cfe9

def secondSig : Bytes :=
  beBytes 65 0x1c421f5fc9a21065445c96fdb91c0c1e2f2431741c72713b4b99ddcb316f31e9fc06ff20e7c958d841830cd5c3ad36f7a9a7b4f4f7df0a6ecc859d4ff0dde65273

def rivalSig : Bytes :=
  beBytes 65 0x1c2fa2104d6b38d11b0230010559879124e42ab8dfeff5ff29dc9cdadd4ecacc3f7ee0f1279e6a662b71d83ba56c4a08e3279ec0ed5a1d86c179420365dc20331a

def firstTx : Transaction := ⟨0, 1, 0, some 0xbeef, some 0, 21000, some 1, [], firstSig⟩
def secondTx : Transaction := ⟨0, 1, 1, some 0xbeef, some 0, 21000, some 2, [], secondSig⟩
def rivalTx : Transaction := ⟨0, 1, 0, some 0xbeef, some 0, 21000, some 2, [], rivalSig⟩

def poolTxs : List (Transaction × Hash × Hash) :=
  [(firstTx, 0xb83286a0bbf4a89585cc56745764074429d2242c1abefaadc2897315a70fe357,
    0xa3a7910212c6cd82a39eb805e73cfd572190263e90661f2fbc69561d6656aa00),
   (secondTx, 0x57cd7421ab92305ce6836117c6ad2a65455b9930b8744a47e1a71381a2992be6,
    0x591dc185cb660fe11c5284f586193710ca7c2955c0470073dc645b545e453ccb),
   (rivalTx, 0x36939a41d0565ccc383d5ad7611f3b51a5951e89a09239a6ca47633c85c4fd4c,
    0xd609f58a49f52b54b1482c0af52ec6209f4e4e4963fb11341518dda86af40dc2)]

@[reducible]
def poolCrypto : Crypto := signedCrypto poolTxs []

theorem pool_sound_twoMined :
    Run.Meets (@exec poolCrypto) (fun m op => @safe poolCrypto m op = true) (new 2)
        [.add firstTx 1 .sorted, .addLocal secondTx 1 .sorted, .add rivalTx 1 .sorted, .remove [firstTx, secondTx]] ∧
      ∃ m, Run.run (@exec poolCrypto) (new 2)
          [.add firstTx 1 .sorted, .addLocal secondTx 1 .sorted, .add rivalTx 1 .sorted, .remove [firstTx, secondTx]] =
        .ok m ∧ m.maxSize = 2 ∧ @Sound poolCrypto m := by
  have hsafe : Run.Meets (@exec poolCrypto) (fun m op => @safe poolCrypto m op = true) (new 2)
      [.add firstTx 1 .sorted, .addLocal secondTx 1 .sorted, .add rivalTx 1 .sorted, .remove [firstTx, secondTx]] := by
    decide +kernel
  exact ⟨hsafe, @pool_sound poolCrypto 2 (by decide) _ hsafe⟩

/-- A pool of one place that holds the first transaction panics on the second, which outbids it: the eviction deletes
the account the second is then written into. And a pool that holds the first transaction keeps it under its hash only,
when its rival was mined. -/
theorem pool_unsound :
    Run.run (@exec poolCrypto) (new 1) [.add firstTx 1 .sorted, .add secondTx 1 .sorted] = .error () ∧
      ∃ m, Run.run (@exec poolCrypto) (new 2) [.add firstTx 1 .sorted, .remove [rivalTx]] = .ok m ∧
        m.all[@Transaction.hash poolCrypto firstTx]? = some firstTx ∧ m.byAcct = ∅ ∧ ¬@Sound poolCrypto m := by
  refine ⟨by decide +kernel, { new 2 with all := (∅ : ExtTreeMap Hash Transaction).insert (@Transaction.hash poolCrypto firstTx) firstTx },
    by decide +kernel, by decide +kernel, rfl, fun h => ?_⟩
  obtain ⟨-, sender, -, hentry⟩ := @Sound.found firstTx poolCrypto _ h (@Transaction.hash poolCrypto firstTx) (by decide +kernel)
  simp [account, new] at hentry

end Mempool

end Lxs
