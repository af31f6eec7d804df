import Lxs.Mempool.Indexes

/-!
# Admission to the mempool

What a call of `add` does, said once (`Mempool.Added`), and what follows for the calls that refuse and for the calls that
evict.

* `Mempool.refused_unchanged_iff` — calls that all refuse leave the pool as it was, exactly when none of them comes from
  an account the pool does not know after passing the checks before the account is made;
* `Mempool.add_gapless_iff` — an accepted transaction leaves no gap in the nonces of an account, exactly when it does
  not evict the tail of its own account.
-/

namespace Lxs

open Std Lib Lib.Index

namespace Mempool

variable [Crypto]

/-! ### What a call does -/

def written (m : Mempool) (tx : Transaction) (sender : Address) : Mempool :=
  { m with all := m.all.insert tx.hash tx, byAcct := m.byAcct.insert sender ((m.account sender).insert tx.nonce tx) }

/-- What the part of `add` from the account on does to the pool `m` with the account made. -/
inductive Taken (m : Mempool) (tx : Transaction) (sender : Address) (o : MapOrder) : Mempool → Except PoolError Unit → Prop
  | nonceUsed : tx.nonce ∈ m.account sender → Taken m tx sender o m (.error .nonceUsed)
  | accountLimit : tx.nonce ∉ m.account sender → maxPerAccount ≤ (m.account sender).size →
      Taken m tx sender o m (.error .accountLimit)
  | refused : tx.nonce ∉ m.account sender → (m.account sender).size < maxPerAccount → m.maxSize ≤ m.all.size →
      m.evict tx o = some (.error .poolFull) → Taken m tx sender o m (.error .poolFull)
  | placed : tx.nonce ∉ m.account sender → (m.account sender).size < maxPerAccount → m.all.size < m.maxSize →
      Taken m tx sender o (m.written tx sender) (.ok ())
  | swapped {cheapest t : Transaction} {victim : Address} : tx.nonce ∉ m.account sender →
      (m.account sender).size < maxPerAccount → m.maxSize ≤ m.all.size → lowestPriced (o.order m.all) = some cheapest →
      cheapest.price < tx.price → cheapest.sender = .ok victim → tail (m.account victim) = some t →
      (m.dropLocked t).byAcct[sender]?.isSome → Taken m tx sender o ((m.dropLocked t).written tx sender) (.ok ())

/-- What `add` does: the checks before the account is made leave the pool alone. -/
inductive Added (m : Mempool) (tx : Transaction) (chainID : UInt64) (enforceFloor : Bool) (o : MapOrder) :
    Mempool → Except PoolError Unit → Prop
  | check {e : TxCheckError} : tx.sanityCheck chainID = .error e → Added m tx chainID enforceFloor o m (.error (.check e))
  | underpriced : tx.sanityCheck chainID = .ok () → (enforceFloor && m.isUnderpriced tx) = true →
      Added m tx chainID enforceFloor o m (.error .underpriced)
  | known : tx.sanityCheck chainID = .ok () → (enforceFloor && m.isUnderpriced tx) = false → tx.hash ∈ m.all →
      Added m tx chainID enforceFloor o m (.error .alreadyKnown)
  | taken {sender : Address} {m' : Mempool} {r : Except PoolError Unit} : tx.sanityCheck chainID = .ok () →
      (enforceFloor && m.isUnderpriced tx) = false → tx.hash ∉ m.all → tx.sender = .ok sender →
      Taken (m.openAccount sender) tx sender o m' r → Added m tx chainID enforceFloor o m' r

variable {m m' : Mempool} {tx : Transaction} {sender : Address}

theorem store_some (h : m.store tx sender = some m') :
    m.byAcct[sender]?.isSome ∧ m' = m.written tx sender := by
  cases hc : m.byAcct[sender]? with
  | none =>
    rw [store, hc] at h
    cases h
  | some c =>
    rw [store_eq hc] at h
    exact ⟨rfl, (Option.some.inj h).symm⟩

variable {o : MapOrder}

theorem evict_some {r : Except PoolError Mempool}
    (h : m.evict tx o = some r) :
    r = .error .poolFull ∨ ∃ cheapest t victim, r = .ok (m.dropLocked t) ∧ lowestPriced (o.order m.all) = some cheapest ∧
      cheapest.price < tx.price ∧ cheapest.sender = .ok victim ∧ tail (m.account victim) = some t := by
  rw [evict] at h
  split at h
  case h_1 => exact .inl (Option.some.inj h).symm
  case h_2 cheapest hlow =>
    split at h
    case isTrue => exact .inl (Option.some.inj h).symm
    case isFalse hprice =>
      split at h
      case h_1 => exact .inl (Option.some.inj h).symm
      case h_2 victim hv =>
        split at h
        case h_1 => cases h
        case h_2 t ht => exact .inr ⟨cheapest, t, victim, (Option.some.inj h).symm, hlow, Int.not_le.1 hprice, hv, ht⟩

theorem takeIn_some {r : Except PoolError Unit}
    (h : m.takeIn tx sender o = some (m', r)) : Taken m tx sender o m' r := by
  rw [takeIn] at h
  split at h
  case isTrue hused =>
    cases h
    exact .nonceUsed hused
  case isFalse hfree =>
  split at h
  case isTrue hcap =>
    cases h
    exact .accountLimit hfree hcap
  case isFalse hcap =>
  have hcap := Nat.not_le.1 hcap
  split at h
  case isTrue hfull =>
    split at h
    case h_1 => cases h
    case h_2 e hev =>
      cases h
      obtain he | ⟨_, _, _, he, -⟩ := evict_some hev
      · cases he
        exact .refused hfree hcap hfull hev
      · cases he
    case h_3 m₁ hev =>
      obtain he | ⟨cheapest, t, victim, he, hlow, hprice, hv, ht⟩ := evict_some hev
      · cases he
      cases he
      obtain ⟨m₂, hst, hm₂⟩ := Option.map_eq_some_iff.1 h
      cases hm₂
      obtain ⟨hacct, rfl⟩ := store_some hst
      exact .swapped hfree hcap hfull hlow hprice hv ht hacct
  case isFalse hroom =>
    obtain ⟨m₂, hst, hm₂⟩ := Option.map_eq_some_iff.1 h
    cases hm₂
    obtain ⟨-, rfl⟩ := store_some hst
    exact .placed hfree hcap (Int.not_le.1 hroom)

variable {chainID : UInt64} {enforceFloor : Bool}

theorem add_some
    {r : Except PoolError Unit} (h : m.add tx chainID enforceFloor o = some (m', r)) :
    Added m tx chainID enforceFloor o m' r := by
  rw [add] at h
  split at h
  case h_1 e hsane =>
    cases h
    exact .check hsane
  case h_2 hsane =>
    split at h
    case h_1 e hs =>
      -- a transaction that passes the stateless check has a sender
      simp only [Transaction.sanityCheck, hs] at hsane
      split_ifs at hsane
      cases hsane
    case h_2 sender hs =>
      rw [addLocked] at h
      split at h
      case isTrue hfloor =>
        cases h
        exact .underpriced hsane hfloor
      case isFalse hfloor =>
        rw [Bool.not_eq_true] at hfloor
        split at h
        case isTrue hknown =>
          cases h
          exact .known hsane hfloor hknown
        case isFalse hnew => exact .taken hsane hfloor hnew hs (takeIn_some h)

theorem add_of_room
    (hsane : tx.sanityCheck chainID = .ok ()) (hs : tx.sender = .ok sender)
    (hfloor : (enforceFloor && m.isUnderpriced tx) = false) (hnew : tx.hash ∉ m.all) (hfree : tx.nonce ∉ m.account sender)
    (hcap : (m.account sender).size < maxPerAccount) (hroom : (m.all.size : ℤ) < m.maxSize) (o : MapOrder) :
    m.add tx chainID enforceFloor o = some ((m.openAccount sender).written tx sender, .ok ()) := by
  have hopen : (m.openAccount sender).byAcct[sender]? = some (m.account sender) := ExtTreeMap.getElem?_insert_self
  have hroom' : ¬(m.openAccount sender).maxSize ≤ ((m.openAccount sender).all.size : ℤ) := Int.not_le.2 hroom
  rw [add, hsane, hs]
  dsimp only
  rw [addLocked, if_neg (by simp [hfloor]), if_neg hnew, takeIn, account_openAccount, if_neg hfree,
    if_neg (Nat.not_le.2 hcap), if_neg hroom', store_eq hopen]
  rw [written, account_openAccount]
  rfl

/-! ### Refusals -/

/-- A call that makes an account: it passes the checks before, and the pool has no entry for the sender. -/
def opens (m : Mempool) (tx : Transaction) (chainID : UInt64) : Bool :=
  match tx.sanityCheck chainID, tx.sender with
  | .ok _, .ok sender => !m.isUnderpriced tx && tx.hash ∉ m.all && sender ∉ m.byAcct
  | _, _ => false

omit [Crypto] in
theorem openAccount_of_mem (h : sender ∈ m.byAcct) : m.openAccount sender = m := by
  obtain ⟨q, hq⟩ := Option.isSome_iff_exists.1 (ExtTreeMap.mem_iff_isSome_getElem?.1 h)
  have hsame : m.byAcct.insert sender (m.account sender) = m.byAcct := by
    refine ExtTreeMap.ext_getElem? fun a => ?_
    rw [ExtTreeMap.getElem?_insert, account, hq]
    split
    case isTrue ha => rw [← LawfulEqCmp.compare_eq_iff_eq.1 ha, hq, Option.getD_some]
    case isFalse => rfl
  rw [openAccount, hsame]

theorem add_openAccount (hs : tx.sender = .ok sender)
    (h : (m.openAccount sender).add tx chainID enforceFloor o = some (m', .ok ())) :
    m.add tx chainID enforceFloor o = some (m', .ok ()) := by
  have hopen : (m.openAccount sender).openAccount sender = m.openAccount sender :=
    openAccount_of_mem ExtTreeMap.mem_insert_self
  rw [add] at h ⊢
  split at h
  case h_1 => cases h
  rw [hs] at h ⊢
  dsimp only at h ⊢
  rw [addLocked] at h ⊢
  split at h
  case isTrue => cases h
  case isFalse hfloor =>
  split at h
  case isTrue => cases h
  case isFalse hnew =>
  have hfloor' : ¬(enforceFloor && m.isUnderpriced tx) = true := hfloor
  have hnew' : tx.hash ∉ m.all := hnew
  rw [if_neg hfloor', if_neg hnew']
  rwa [hopen] at h

theorem Added.eq_of_error
    {e : PoolError} (h : Added m tx chainID enforceFloor o m' (.error e)) (hs : tx.sender = .ok sender) :
    m' = m ∨ m' = m.openAccount sender := by
  cases h with
  | check => exact .inl rfl
  | underpriced => exact .inl rfl
  | known => exact .inl rfl
  | taken _ _ _ hs' htaken =>
    rw [hs'] at hs
    cases hs
    right
    cases htaken <;> rfl

theorem Added.refused {e : PoolError}
    (h : Added m tx chainID true o m' (.error e)) :
    if m.opens tx chainID then ∃ sender, sender ∉ m.byAcct ∧ m' = m.openAccount sender else m' = m := by
  cases h with
  | check hsane => simp [opens, hsane]
  | underpriced hsane hfloor =>
    rw [Bool.true_and] at hfloor
    cases hs : tx.sender <;> simp [opens, hsane, hs, hfloor]
  | known hsane _ hknown => cases hs : tx.sender <;> simp [opens, hsane, hs, hknown]
  | @taken sender _ _ hsane hfloor hnew hs htaken =>
    rw [Bool.true_and] at hfloor
    have hopened : m' = m.openAccount sender := by cases htaken <;> rfl
    by_cases hmem : sender ∈ m.byAcct
    · simpa [opens, hsane, hs, hmem] using hopened.trans (openAccount_of_mem hmem)
    · simpa [opens, hsane, hs, hmem, hfloor, hnew] using ⟨sender, hmem, hopened⟩

/-- Calls of `Add` that all return an error, and the pool after them. -/
inductive Refused : Mempool → List (Transaction × UInt64 × MapOrder) → Mempool → Prop
  | nil (m : Mempool) : Refused m [] m
  | cons {m m₁ m' : Mempool} {tx : Transaction} {chainID : UInt64} {o : MapOrder} {e : PoolError}
      {calls : List (Transaction × UInt64 × MapOrder)} : m.add tx chainID true o = some (m₁, .error e) →
      Refused m₁ calls m' → Refused m ((tx, chainID, o) :: calls) m'

omit [Crypto] in
theorem mem_byAcct_openAccount {sender a : Address} (h : a ∈ m.byAcct) : a ∈ (m.openAccount sender).byAcct :=
  ExtTreeMap.mem_insert.2 (.inr h)

theorem Refused.grows {calls : List (Transaction × UInt64 × MapOrder)} (h : Refused m calls m') :
    m'.all = m.all ∧ m'.local = m.local ∧ m'.maxSize = m.maxSize ∧ ∀ a ∈ m.byAcct, a ∈ m'.byAcct := by
  induction h with
  | nil m => exact ⟨rfl, rfl, rfl, fun _ h => h⟩
  | @cons m m₁ m' tx chainID o e calls hadd _ ih =>
    obtain ⟨hall, hlocal, hmax, hmem⟩ := ih
    have hstep := (add_some hadd).refused
    split at hstep
    · obtain ⟨sender, -, rfl⟩ := hstep
      exact ⟨hall, hlocal, hmax, fun a ha => hmem a (mem_byAcct_openAccount ha)⟩
    · subst hstep
      exact ⟨hall, hlocal, hmax, hmem⟩

def Tidy (m : Mempool) : Prop := ∀ (a : Address) (q : Queue), m.byAcct[a]? = some q → q ≠ ∅

theorem Sound.size_byAcct_le (h : m.Sound) (ht : m.Tidy) : m.byAcct.size ≤ m.all.size := by
  let senders := m.all.toList.filterMap fun kv => kv.2.sender.toOption
  have hsub : m.byAcct.toList.map Prod.fst ⊆ senders := by
    intro a ha
    obtain ⟨⟨a, q⟩, hq, rfl⟩ := List.mem_map.1 ha
    have hq' := ExtTreeMap.mem_toList_iff_getElem?_eq_some.1 hq
    cases htail : tail q with
    | none => exact absurd (tail_eq_none htail) (ht a q hq')
    | some tx =>
      obtain ⟨n, hn⟩ := tail_mem htail
      have hentry : (m.account a)[n]? = some tx := by rwa [account, hq', Option.getD_some]
      obtain ⟨hs, -, hall⟩ := h.entry hentry
      exact List.mem_filterMap.2 ⟨(tx.hash, tx), ExtTreeMap.mem_toList_iff_getElem?_eq_some.2 hall, by rw [hs]; rfl⟩
  calc m.byAcct.size = (m.byAcct.toList.map Prod.fst).length := by rw [List.length_map, ExtTreeMap.length_toList]
    _ ≤ senders.length := (List.subperm_of_subset (FinMap.nodup_keys m.byAcct) hsub).length_le
    _ ≤ m.all.toList.length := List.length_filterMap_le ..
    _ = m.all.size := ExtTreeMap.length_toList

/-- **What refused transactions leave behind.** Calls that all refuse leave the maps of the pool as they were exactly when
none of them makes an account; the accounts of a pool in order are then within its size. -/
theorem refused_unchanged_iff {m m' : Mempool} {calls : List (Transaction × UInt64 × MapOrder)} (h : Refused m calls m') :
    ((m'.all = m.all ∧ m'.byAcct = m.byAcct ∧ m'.local = m.local) ↔ ∀ c ∈ calls, m.opens c.1 c.2.1 = false) ∧
      (m.Sound → m.Tidy → (∀ c ∈ calls, m.opens c.1 c.2.1 = false) →
        (m'.all.size : ℤ) ≤ m'.maxSize ∧ (m'.byAcct.size : ℤ) ≤ m'.maxSize) := by
  have hiff : (m'.all = m.all ∧ m'.byAcct = m.byAcct ∧ m'.local = m.local) ↔
      ∀ c ∈ calls, m.opens c.1 c.2.1 = false := by
    induction h with
    | nil m => simp
    | @cons m m₁ m' tx chainID o e calls hadd hrest ih =>
      have hstep := (add_some hadd).refused
      rw [List.forall_mem_cons]
      split at hstep
      case isTrue hopens =>
        -- the new account is still there at the end
        obtain ⟨sender, hnew, rfl⟩ := hstep
        have hin := hrest.grows.2.2.2 sender (ExtTreeMap.mem_insert.2 (.inl (by simp)))
        refine iff_of_false (fun hsame => hnew ?_) (by simp [hopens])
        rwa [hsame.2.1] at hin
      case isFalse hopens =>
        subst hstep
        rw [ih]
        simp [hopens]
  refine ⟨hiff, fun hsound htidy hcalls => ?_⟩
  obtain ⟨hall, hacct, -⟩ := hiff.2 hcalls
  have hle := hsound.size_byAcct_le htidy
  have := hsound.size_le
  rw [hall, hacct, h.grows.2.2.1]
  omega

/-! ### Gaps -/

def Gapless (q : Queue) : Prop := ∀ i j k : UInt64, i ∈ q → j ∈ q → i ≤ k → k ≤ j → k ∈ q

def Continues (q : Queue) (n : UInt64) : Prop := q = ∅ ∨ ∃ k ∈ q, n.toNat = k.toNat + 1 ∧ ∀ j ∈ q, j ≤ k

variable {q : Queue} {n : UInt64}

omit [Crypto] in
theorem Gapless.insert (h : Gapless q) (hc : Continues q n) (tx : Transaction) :
    Gapless (q.insert n tx) := by
  intro i j k hi hj hik hkj
  simp only [ExtTreeMap.mem_insert, LawfulEqCmp.compare_eq_iff_eq, UInt64.le_iff_toNat_le] at hi hj hik hkj ⊢
  rcases hc with rfl | ⟨top, htop, hnext, hmax⟩
  · simp only [ExtTreeMap.not_mem_empty, or_false] at hi hj
    subst hi hj
    exact .inl (UInt64.toNat_inj.1 (by omega))
  · by_cases hk : k = n
    · exact .inl hk.symm
    -- everything below the new nonce is between `i` and the old top
    · have hk' : k.toNat ≠ n.toNat := fun heq => hk (UInt64.toNat_inj.1 heq)
      have hle : k.toNat ≤ top.toNat := by
        rcases hj with rfl | hj
        · omega
        · exact hkj.trans (UInt64.le_iff_toNat_le.1 (hmax j hj))
      rcases hi with rfl | hi
      · omega
      · exact .inr (h i top k hi htop (UInt64.le_iff_toNat_le.2 hik) (UInt64.le_iff_toNat_le.2 hle))

omit [Crypto] in
theorem Gapless.erase (h : Gapless q) (hmax : ∀ j ∈ q, j ≤ n) : Gapless (q.erase n) := by
  intro i j k hi hj hik hkj
  simp only [ExtTreeMap.mem_erase, Ne, LawfulEqCmp.compare_eq_iff_eq, UInt64.le_iff_toNat_le] at hi hj hik hkj ⊢
  have hj' := UInt64.le_iff_toNat_le.1 (hmax j hj.2)
  refine ⟨fun heq => hj.1 (UInt64.toNat_inj.1 ?_), h i j k hi.2 hj.2 hik hkj⟩
  subst heq
  omega

omit [Crypto] in
theorem le_foldl_tail (txs : List Transaction) : ∀ t : Transaction,
    (∀ x ∈ t :: txs, x.nonce ≤ (txs.foldl (fun tail tx => if tail.nonce < tx.nonce then tx else tail) t).nonce) := by
  induction txs with
  | nil => simp
  | cons y txs ih =>
    intro t x hx
    rw [List.foldl_cons]
    have hstep : ∀ z, z = t ∨ z = y → z.nonce ≤ (if t.nonce < y.nonce then y else t).nonce := by
      intro z hz
      simp only [UInt64.lt_iff_toNat_lt, UInt64.le_iff_toNat_le]
      rcases hz with rfl | rfl <;> split <;> omega
    rcases List.mem_cons.1 hx with rfl | hx
    · exact UInt64.le_trans (hstep x (.inl rfl)) (ih _ _ (List.mem_cons_self ..))
    rcases List.mem_cons.1 hx with rfl | hx
    · exact UInt64.le_trans (hstep x (.inr rfl)) (ih _ _ (List.mem_cons_self ..))
    · exact ih _ x (List.mem_cons_of_mem _ hx)

theorem Sound.le_tail (h : m.Sound) {a : Address} {t : Transaction} (ht : tail (m.account a) = some t) :
    (m.account a)[t.nonce]? = some t ∧ ∀ j ∈ m.account a, j ≤ t.nonce := by
  obtain ⟨n, hn⟩ := tail_mem ht
  obtain ⟨-, rfl, -⟩ := h.entry hn
  refine ⟨hn, fun j hj => ?_⟩
  obtain ⟨tx, htx⟩ := Option.isSome_iff_exists.1 (ExtTreeMap.mem_iff_isSome_getElem?.1 hj)
  obtain ⟨-, rfl, -⟩ := h.entry htx
  have hmem : tx ∈ (m.account a).toList.map Prod.snd :=
    List.mem_map.2 ⟨(tx.nonce, tx), ExtTreeMap.mem_toList_iff_getElem?_eq_some.2 htx, rfl⟩
  rw [tail] at ht
  split at ht
  case h_1 => cases ht
  case h_2 y ys hys =>
    cases ht
    rw [hys] at hmem
    exact le_foldl_tail ys y tx hmem

theorem account_written (m : Mempool) (tx : Transaction) (sender a : Address) :
    (m.written tx sender).account a = if sender = a then (m.account sender).insert tx.nonce tx else m.account a :=
  account_insert ..

/-- The pool is full, and its cheapest transaction belongs to the sender of `tx`. -/
def cheapestOwn (m : Mempool) (tx : Transaction) (o : MapOrder) : Bool :=
  m.maxSize ≤ m.all.size && (lowestPriced (o.order m.all)).any (·.sender = tx.sender)

theorem gapless_written (h : ∀ a, Gapless (m.account a))
    (hc : Continues (m.account sender) tx.nonce) (a : Address) : Gapless ((m.written tx sender).account a) := by
  rw [account_written]
  split
  · exact (h sender).insert hc tx
  · exact h a

theorem Sound.gapless_dropLocked (h : m.Sound) (hgap : ∀ a, Gapless (m.account a)) {t : Transaction}
    {victim : Address} (ht : tail (m.account victim) = some t) (a : Address) : Gapless ((m.dropLocked t).account a) := by
  obtain ⟨hentry, hmax⟩ := h.le_tail ht
  rw [account_dropLocked (h.entry hentry).1]
  split
  · exact (hgap victim).erase hmax
  · exact hgap a

theorem Sound.not_gapless_own (h : m.Sound) {tx t : Transaction}
    (hc : Continues (m.account sender) tx.nonce) (ht : tail (m.account sender) = some t)
    (hleft : (m.dropLocked t).byAcct[sender]?.isSome) : ¬Gapless (((m.dropLocked t).written tx sender).account sender) := by
  obtain ⟨hentry, hmax⟩ := h.le_tail ht
  have hs := (h.entry hentry).1
  have hin : t.nonce ∈ m.account sender := ExtTreeMap.mem_iff_isSome_getElem?.2 (by rw [hentry]; rfl)
  -- the account is not deleted, so a lower nonce is left
  obtain ⟨j, hj⟩ : ∃ j, j ∈ (m.account sender).erase t.nonce := by
    obtain ⟨c, hc'⟩ := Option.isSome_iff_exists.1 hleft
    simp only [Mempool.dropLocked, hs, getElem?_dropEntry_self] at hc'
    obtain ⟨q, hq, hq'⟩ := Option.bind_eq_some_iff.1 hc'
    split_ifs at hq' with hempty
    have hacct : m.account sender = q := by rw [account, hq, Option.getD_some]
    rw [hacct]
    by_contra hnone
    push Not at hnone
    exact hempty (ExtTreeMap.isEmpty_iff.2 (ExtTreeMap.eq_empty_iff_forall_not_mem.2 hnone))
  rw [ExtTreeMap.mem_erase, Ne, LawfulEqCmp.compare_eq_iff_eq] at hj
  have hnext : tx.nonce.toNat = t.nonce.toNat + 1 := by
    rcases hc with hempty | ⟨top, htop, hnext, htmax⟩
    · rw [hempty] at hin
      exact absurd hin ExtTreeMap.not_mem_empty
    · have h₁ := UInt64.le_iff_toNat_le.1 (hmax top htop)
      have h₂ := UInt64.le_iff_toNat_le.1 (htmax t.nonce hin)
      omega
  intro hgap
  rw [account_written, if_pos rfl, account_dropLocked hs, if_pos rfl] at hgap
  have hmem := hgap j tx.nonce t.nonce (by simp [hj]) (by simp) (hmax j hj.2) (UInt64.le_iff_toNat_le.2 (by omega))
  simp only [ExtTreeMap.mem_insert, ExtTreeMap.mem_erase, Ne, LawfulEqCmp.compare_eq_iff_eq, not_true_eq_false, false_and,
    or_false] at hmem
  rw [hmem] at hnext
  omega

/-- **Eviction opens a gap exactly in the newcomer's own account.** -/
theorem add_gapless_iff {m m' : Mempool} (h : m.Sound) (hgap : ∀ a, Gapless (m.account a)) {tx : Transaction}
    {sender : Address} (hs : tx.sender = .ok sender) (hc : Continues (m.account sender) tx.nonce) {chainID : UInt64}
    {enforceFloor : Bool} {o : MapOrder} (hadd : m.add tx chainID enforceFloor o = some (m', .ok ())) :
    (∀ a, Gapless (m'.account a)) ↔ m.cheapestOwn tx o = false := by
  cases add_some hadd with
  | @taken sender' _ _ _ _ _ hs' htaken =>
    rw [hs] at hs'
    cases hs'
    have hopen := h.openAccount sender
    have hgap' : ∀ a, Gapless ((m.openAccount sender).account a) := fun a => by rw [account_openAccount]; exact hgap a
    have hc' : Continues ((m.openAccount sender).account sender) tx.nonce := by rwa [account_openAccount]
    cases htaken with
    | placed _ _ hroom =>
      refine iff_of_true (gapless_written hgap' hc') ?_
      rw [cheapestOwn, decide_eq_false (by exact Int.not_le.2 hroom), Bool.false_and]
    | @swapped cheapest t victim _ _ hfull hlow _ hv ht hleft =>
      have hown : m.cheapestOwn tx o = decide (victim = sender) := by
        have hfull' : m.maxSize ≤ m.all.size := hfull
        have hlow' : lowestPriced (o.order m.all) = some cheapest := hlow
        simp [cheapestOwn, hfull', hlow', hv, hs]
      rw [hown, decide_eq_false_iff_not]
      by_cases hsame : victim = sender
      · subst hsame
        exact iff_of_false (fun hall => hopen.not_gapless_own hc' ht hleft (hall victim)) (by simp)
      · refine iff_of_true (gapless_written (hopen.gapless_dropLocked hgap' ht) ?_) hsame
        obtain ⟨hentry, -⟩ := hopen.le_tail ht
        rwa [account_dropLocked (hopen.entry hentry).1, if_neg hsame]

/-! Four transactions of one account, the third continuing the first two and the dear one a rival of the first, and a
transaction of another account that asks for almost all the gas there is. -/

def thirdSig : Bytes :=
  beBytes 65 0x1be8b2761c54a1ff5a81334420cf6bbe217633fefb5036f002fcfb4d2b5e9555512071fe999f1d8e73b66daed5332bb651be3ac824b3d11cb2bb95d66aa7049ff8

def dearSig : Bytes :=
  beBytes 65 0x1b89928dc41575c5533476c5f59511674021cfe67d2ab29b19d5c8d10fd186cdc36d51e2c17a0f693ed388995eb99bbe4d8844d419520c2d81344cf5f406db8d8f

def giantSig : Bytes :=
  beBytes 65 0x1beda394738537dc218436f29947cb2b900b44423b13a21cdb35381a0ff00363420079bef2637495201f58a7f8bc19b2469bb0d7378b10e6988bf618d45868039f

def otherKey : ℕ :=
  0xc6047f9441ed7d6d3045406e95c07cd85c778e4b8cef3ca7abac09b95c709ee51ae168fea63dc339a3c58419466ceaeef7f632653266d0e1236431a950cfe52a

def thirdTx : Transaction := ⟨0, 1, 2, some 0xbeef, some 0, 21000, some 3, [], thirdSig⟩
def dearTx : Transaction := ⟨0, 1, 0, some 0xbeef, some 0, 21000, some 9, [], dearSig⟩
def giantTx : Transaction := ⟨0, 1, 0, some 0xbeef, some 0, 18446744073709530616, some 5, [], giantSig⟩

def admissionTxs : List (Transaction × Hash × Hash) :=
  poolTxs ++
    [(thirdTx, 0x8a28ee6f055fa3e81465d4d9234e48900c12a4767cd1e14acd3e8c4dce51639f,
      0x229905301037a187f435227ea6337cca8013b838cfbcda3179798edad715df52),
     (dearTx, 0xe688de496a1d3e58a7499178d8f026baea33deb396208730e9b4a9f8625d2232,
      0x0059274e3af8c2e4284cbb1f995375e2fa3246d18c2ecb371607e2ce81499e0b)]

@[reducible]
def admissionCrypto : Crypto :=
  tableCrypto
    (signedDigests admissionTxs ++
      [digestRow 78 giantTx.nativeMessage 0xaa277634ad89332b36bc9d7d6d6c03fdd50f99e65547518c281a3bd2cdbf2524,
       digestRow 105 (hashBytes 0xaa277634ad89332b36bc9d7d6d6c03fdd50f99e65547518c281a3bd2cdbf2524 ++ encBytes giantSig)
        0x78ae1b3983c351b3b6f6e75162e4c0fe7e8d8db9d4f6403a16af43398655c42e,
       ((64, otherKey), 0xeedf1a9c68b3f4a8b1a1032b2b5ad5c4795c026514f8317c7a215e218dccd6cf)])
    (signedKeys admissionTxs ++
      [((bytesToNat giantSig, 0xaa277634ad89332b36bc9d7d6d6c03fdd50f99e65547518c281a3bd2cdbf2524), 4 :: beBytes 64 otherKey)])

def otherAddr : Address := 0x2b5ad5c4795c026514f8317c7a215e218dccd6cf

def dearPool : Mempool := @written admissionCrypto ((new 1).openAccount senderAddr) dearTx senderAddr

omit [Crypto] in
theorem refused_unchanged_iff_sender : @Refused admissionCrypto dearPool [(secondTx, 1, .sorted)] dearPool ∧
    ((dearPool.all = dearPool.all ∧ dearPool.byAcct = dearPool.byAcct ∧ dearPool.local = dearPool.local) ↔
      ∀ c ∈ [(secondTx, (1 : UInt64), MapOrder.sorted)], @opens admissionCrypto dearPool c.1 c.2.1 = false) ∧
    (@Sound admissionCrypto dearPool → dearPool.Tidy →
      (∀ c ∈ [(secondTx, (1 : UInt64), MapOrder.sorted)], @opens admissionCrypto dearPool c.1 c.2.1 = false) →
      (dearPool.all.size : ℤ) ≤ dearPool.maxSize ∧ (dearPool.byAcct.size : ℤ) ≤ dearPool.maxSize) := by
  have hrefused : @Refused admissionCrypto dearPool [(secondTx, 1, .sorted)] dearPool :=
    @Refused.cons admissionCrypto _ _ _ _ _ _ .poolFull _ (by decide +kernel) (@Refused.nil admissionCrypto _)
  exact ⟨hrefused, @refused_unchanged_iff admissionCrypto _ _ _ hrefused⟩

omit [Crypto] in
/-- A pool of one place that a transaction of another account cannot enter has two accounts afterwards. -/
theorem refused_leaves_account : @add admissionCrypto (new 1) dearTx 1 true .sorted = some (dearPool, .ok ()) ∧
    @Refused admissionCrypto dearPool [(giantTx, 1, .sorted)] (dearPool.openAccount otherAddr) ∧
    dearPool.byAcct.size = 1 ∧ (dearPool.openAccount otherAddr).byAcct.size = 2 :=
  ⟨by decide +kernel, @Refused.cons admissionCrypto _ _ _ _ _ _ .poolFull _ (by decide +kernel) (@Refused.nil admissionCrypto _), by decide +kernel, by decide +kernel⟩

omit [Crypto] in
theorem continues_insert (hq : ∀ j ∈ q, j ≤ n) (tx : Transaction) {k : UInt64}
    (hk : k.toNat = n.toNat + 1) : Continues (q.insert n tx) k := by
  refine .inr ⟨n, by simp, hk, fun j hj => ?_⟩
  rw [ExtTreeMap.mem_insert, LawfulEqCmp.compare_eq_iff_eq] at hj
  rcases hj with rfl | hj
  · exact UInt64.le_refl _
  · exact hq j hj

def onePool : Mempool := @written admissionCrypto ((new 2).openAccount senderAddr) firstTx senderAddr
def twoPool : Mempool := @written admissionCrypto (onePool.openAccount senderAddr) secondTx senderAddr

omit [Crypto] in
theorem sound_twoPool : @Sound admissionCrypto twoPool := by
  have hfirst : @add admissionCrypto (new 2) firstTx 1 true .sorted = some (onePool, .ok ()) := by decide +kernel
  have hsecond : @add admissionCrypto onePool secondTx 1 true .sorted = some (twoPool, .ok ()) := by decide +kernel
  obtain ⟨m₁, r₁, h₁, -, hs₁⟩ := @Sound.add firstTx admissionCrypto _ .sorted (@sound_new admissionCrypto 2 (by decide))
    1 true (by decide +kernel)
  rw [hfirst] at h₁
  cases h₁
  obtain ⟨m₂, r₂, h₂, -, hs₂⟩ := @Sound.add secondTx admissionCrypto _ .sorted hs₁ 1 true (by decide +kernel)
  rw [hsecond] at h₂
  cases h₂
  exact hs₂

omit [Crypto] in
theorem gapless_twoPool (a : Address) : Gapless (twoPool.account a) := by
  have hempty : ∀ a, (new 2).account a = ∅ := fun _ => by simp [account, new]
  have hnew : ∀ a, Gapless (((new 2).openAccount senderAddr).account a) := by
    intro a i j k hi
    rw [account_openAccount, hempty] at hi
    exact absurd hi ExtTreeMap.not_mem_empty
  have hone : ∀ a, Gapless (onePool.account a) := @gapless_written admissionCrypto _ _ _ hnew (.inl (by
    rw [account_openAccount, hempty]))
  refine @gapless_written admissionCrypto _ _ _ (fun a => ?_) ?_ a
  · rw [account_openAccount]
    exact hone a
  · have hacct : (onePool.openAccount senderAddr).account senderAddr = (∅ : Queue).insert 0 firstTx := by decide +kernel
    rw [hacct]
    exact continues_insert (fun j hj => absurd hj ExtTreeMap.not_mem_empty) _ rfl

omit [Crypto] in
theorem continues_twoPool : Continues (twoPool.account senderAddr) thirdTx.nonce := by
  have hacct : twoPool.account senderAddr = ((∅ : Queue).insert 0 firstTx).insert 1 secondTx := by decide +kernel
  rw [hacct]
  refine continues_insert (fun j hj => ?_) _ rfl
  rw [ExtTreeMap.mem_insert, LawfulEqCmp.compare_eq_iff_eq] at hj
  rcases hj with rfl | hj
  · decide
  · exact absurd hj ExtTreeMap.not_mem_empty

omit [Crypto] in
theorem add_gapless_iff_other : ∃ m', @add admissionCrypto twoPool giantTx 1 true .sorted = some (m', .ok ()) ∧
    ((∀ a, Gapless (m'.account a)) ↔ @cheapestOwn admissionCrypto twoPool giantTx .sorted = false) := by
  have hadd : @add admissionCrypto twoPool giantTx 1 true .sorted =
      some (@written admissionCrypto (@dropLocked admissionCrypto (twoPool.openAccount otherAddr) secondTx) giantTx otherAddr,
        .ok ()) := by decide +kernel
  have hcont : Continues (twoPool.account otherAddr) giantTx.nonce := .inl (by decide +kernel)
  exact ⟨_, hadd, @add_gapless_iff admissionCrypto _ _ sound_twoPool gapless_twoPool _ otherAddr (by decide +kernel) hcont
    _ _ _ hadd⟩

omit [Crypto] in
/-- A full pool with the first two transactions of an account takes the third in place of the second. -/
theorem add_opens_gap : @Sound admissionCrypto twoPool ∧ (∀ a, Gapless (twoPool.account a)) ∧
    Continues (twoPool.account senderAddr) thirdTx.nonce ∧
    ∃ m', @add admissionCrypto twoPool thirdTx 1 true .sorted = some (m', .ok ()) ∧ ¬Gapless (m'.account senderAddr) := by
  have hadd : @add admissionCrypto twoPool thirdTx 1 true .sorted =
      some (@written admissionCrypto (@dropLocked admissionCrypto twoPool secondTx) thirdTx senderAddr, .ok ()) := by
    decide +kernel
  refine ⟨sound_twoPool, gapless_twoPool, continues_twoPool, _, hadd, fun hgap => ?_⟩
  exact absurd (hgap 0 2 1 (by decide +kernel) (by decide +kernel) (by decide) (by decide)) (by decide +kernel)

end Mempool

end Lxs
