import Lxs.P2p.Gossip

/-!
# The orphan queue

Five structures hold the parked blocks and what they cost: the buckets by parent, the order of the parents, the count,
the bytes and the share of each peer. The counters follow a weight of the entries (`Gossip.Ledger`), so that appending
an entry and taking a bucket away are the only two things to check.

* `Gossip.queue_accounted` — **after every sequence of calls the accounting is exact and within the bounds**;
* `Gossip.resolveOrphans_isSome` — resolving ends.
-/

namespace Lxs.P2p

open Std Lib Lib.Buckets

namespace Gossip

/-! ### The counters -/

def shareOf (p : PeerID) (e : OrphanEntry) : ℤ := if e.source = p then 1 else 0

structure Ledger (orphans : ExtTreeMap Hash (List OrphanEntry)) (byPeer : ExtTreeMap PeerID ℤ) (count bytes : ℤ) : Prop where
  count : count = total (fun _ => 1) orphans
  bytes : bytes = total OrphanEntry.size orphans
  share : ∀ p : PeerID, byPeer[p]?.getD 0 = total (shareOf p) orphans
  positive : ∀ (p : PeerID) (n : ℤ), byPeer[p]? = some n → 0 < n

theorem shareOf_nonneg (p : PeerID) (e : OrphanEntry) : 0 ≤ shareOf p e := by
  unfold shareOf
  split <;> decide

theorem sum_nonneg {w : OrphanEntry → ℤ} (hw : ∀ e, 0 ≤ w e) (l : List OrphanEntry) : 0 ≤ (l.map w).sum :=
  List.sum_nonneg fun x hx => by
    obtain ⟨e, -, rfl⟩ := List.mem_map.1 hx
    exact hw e

theorem refund_spec {byPeer : ExtTreeMap PeerID ℤ} {e : OrphanEntry} (hpos : ∀ (p : PeerID) (n : ℤ), byPeer[p]? = some n → 0 < n)
    (hshare : (1 : ℤ) ≤ byPeer[e.source]?.getD 0) :
    (∀ p : PeerID, (refund byPeer e)[p]?.getD 0 = byPeer[p]?.getD 0 - shareOf p e) ∧
      ∀ (p : PeerID) (n : ℤ), (refund byPeer e)[p]? = some n → 0 < n := by
  unfold refund shareOf
  dsimp only
  split
  case isTrue hzero =>
    refine ⟨fun p => ?_, fun p n hp => ?_⟩
    · simp only [ExtTreeMap.getElem?_erase, LawfulEqCmp.compare_eq_iff_eq]
      split
      case isTrue heq =>
        subst heq
        rw [Option.getD_none]
        omega
      case isFalse => omega
    · simp only [ExtTreeMap.getElem?_erase] at hp
      split_ifs at hp
      exact hpos p n hp
  case isFalse hleft =>
    refine ⟨fun p => ?_, fun p n hp => ?_⟩
    · simp only [ExtTreeMap.getElem?_insert, LawfulEqCmp.compare_eq_iff_eq]
      split
      case isTrue heq =>
        subst heq
        rw [Option.getD_some]
      case isFalse => omega
    · simp only [ExtTreeMap.getElem?_insert] at hp
      split_ifs at hp
      · cases hp
        omega
      · exact hpos p n hp

theorem foldl_refund (l : List OrphanEntry) : ∀ {byPeer : ExtTreeMap PeerID ℤ},
    (∀ (p : PeerID) (n : ℤ), byPeer[p]? = some n → 0 < n) →
    (∀ p : PeerID, (l.map (shareOf p)).sum ≤ byPeer[p]?.getD 0) →
    (∀ p : PeerID, (l.foldl refund byPeer)[p]?.getD 0 = byPeer[p]?.getD 0 - (l.map (shareOf p)).sum) ∧
      ∀ (p : PeerID) (n : ℤ), (l.foldl refund byPeer)[p]? = some n → 0 < n := by
  induction l with
  | nil => exact fun hpos _ => ⟨fun p => by simp, hpos⟩
  | cons e l ih =>
    intro byPeer hpos hle
    have hself := hle e.source
    rw [List.map_cons, List.sum_cons] at hself
    have hone : shareOf e.source e = 1 := if_pos rfl
    have hrest := sum_nonneg (shareOf_nonneg e.source) l
    have hleft : (1 : ℤ) ≤ byPeer[e.source]?.getD 0 := by omega
    obtain ⟨hget, hpos'⟩ := refund_spec hpos hleft
    have hle' : ∀ p : PeerID, (l.map (shareOf p)).sum ≤ (refund byPeer e)[p]?.getD 0 := by
      intro p
      have := hle p
      rw [List.map_cons, List.sum_cons] at this
      rw [hget]
      omega
    obtain ⟨hget', hpos''⟩ := ih hpos' hle'
    refine ⟨fun p => ?_, hpos''⟩
    rw [List.foldl_cons, hget', hget, List.map_cons, List.sum_cons]
    omega

theorem foldl_sub (w : OrphanEntry → ℤ) (l : List OrphanEntry) : ∀ n, l.foldl (fun n e => n - w e) n = n - (l.map w).sum := by
  induction l with
  | nil => simp
  | cons e l ih =>
    intro n
    rw [List.foldl_cons, ih, List.map_cons, List.sum_cons]
    omega

theorem sum_ones (l : List OrphanEntry) : (l.map fun _ => (1 : ℤ)).sum = l.length := by
  rw [List.map_const', List.sum_replicate, nsmul_eq_mul, mul_one]

section Ledger

variable {orphans : ExtTreeMap Hash (List OrphanEntry)} {byPeer : ExtTreeMap PeerID ℤ} {count bytes : ℤ}

theorem ledger_empty : Ledger ∅ ∅ 0 0 where
  count := by simp
  bytes := by simp
  share p := by simp
  positive p n h := by simp at h

theorem Ledger.erase (h : Ledger orphans byPeer count bytes) (k : Hash) :
    Ledger (orphans.erase k) ((bucket orphans k).foldl refund byPeer) (count - (bucket orphans k).length)
      (bytes - ((bucket orphans k).map OrphanEntry.size).sum) := by
  have hle : ∀ p : PeerID, ((bucket orphans k).map (shareOf p)).sum ≤ byPeer[p]?.getD 0 := by
    intro p
    have hrest := sum_nonneg (shareOf_nonneg p) (entries (orphans.erase k))
    have hsum := total_erase (shareOf p) orphans k
    rw [h.share p, ← hsum]
    exact le_add_of_nonneg_left hrest
  obtain ⟨hget, hpos⟩ := foldl_refund (bucket orphans k) h.positive hle
  refine ⟨?_, ?_, fun p => ?_, hpos⟩
  · rw [h.count, ← total_erase (fun _ => 1) orphans k, sum_ones]
    omega
  · rw [h.bytes, ← total_erase OrphanEntry.size orphans k]
    omega
  · rw [hget, h.share, ← total_erase (shareOf p) orphans k]
    omega

theorem Ledger.push (h : Ledger orphans byPeer count bytes) (k : Hash) (e : OrphanEntry) :
    Ledger (push orphans k e) (byPeer.insert e.source (byPeer[e.source]?.getD 0 + 1)) (count + 1) (bytes + e.size) where
  count := by rw [h.count, total_push]
  bytes := by rw [h.bytes, total_push]
  share p := by
    rw [total_push, ← h.share, shareOf]
    simp only [ExtTreeMap.getElem?_insert, LawfulEqCmp.compare_eq_iff_eq]
    split
    case isTrue heq => rw [← heq, Option.getD_some]
    case isFalse => rw [add_zero]
  positive p n hp := by
    have hnonneg : 0 ≤ byPeer[e.source]?.getD 0 := by
      rw [h.share]
      exact sum_nonneg (shareOf_nonneg _) _
    simp only [ExtTreeMap.getElem?_insert] at hp
    split_ifs at hp
    · cases hp
      omega
    · exact h.positive p n hp

end Ledger

/-! ### The queue -/

/-- The queue with its parents in the order `order`, whatever the field says. -/
structure Kept (g : Gossip) (order : List Hash) : Prop where
  ledger : Ledger g.orphans g.orphansByPeer g.orphanCount g.orphanBytes
  sized : ∀ e ∈ entries g.orphans, e.size = orphanBytesOf e.blk
  filed : ∀ h, ∀ e ∈ g.waiting h, e.blk.header.parentHash = h
  nonempty : ∀ h ∈ g.orphans, g.waiting h ≠ []
  nodup : order.Nodup
  mem_order : ∀ h, h ∈ order ↔ h ∈ g.orphans

variable {g : Gossip}

theorem waiting_of_not_mem {h : Hash} (hh : h ∉ g.orphans) : g.waiting h = [] := by
  rw [waiting, bucket, ExtTreeMap.getElem?_eq_none hh, Option.getD_none]

variable {order : List Hash}

theorem Kept.erase (hk : Kept g order) (h : Hash) {g' : Gossip}
    (horphans : g'.orphans = g.orphans.erase h) (hpeers : g'.orphansByPeer = (g.waiting h).foldl refund g.orphansByPeer)
    (hcount : g'.orphanCount = g.orphanCount - (g.waiting h).length)
    (hbytes : g'.orphanBytes = g.orphanBytes - ((g.waiting h).map OrphanEntry.size).sum) : Kept g' (order.erase h) where
  ledger := by
    rw [horphans, hpeers, hcount, hbytes]
    exact hk.ledger.erase h
  sized e he := by
    obtain ⟨k, hek⟩ := mem_entries.1 he
    rw [horphans, bucket_erase] at hek
    split_ifs at hek
    · exact absurd hek List.not_mem_nil
    · exact hk.sized e (mem_entries.2 ⟨k, hek⟩)
  filed k e he := by
    rw [waiting, horphans, bucket_erase] at he
    split_ifs at he
    · exact absurd he List.not_mem_nil
    · exact hk.filed k e he
  nonempty k hmem := by
    rw [horphans, ExtTreeMap.mem_erase, Ne, LawfulEqCmp.compare_eq_iff_eq] at hmem
    rw [waiting, horphans, bucket_erase, if_neg hmem.1]
    exact hk.nonempty k hmem.2
  nodup := hk.nodup.erase h
  mem_order k := by
    rw [hk.nodup.mem_erase_iff, hk.mem_order, horphans, ExtTreeMap.mem_erase, Ne, Ne, LawfulEqCmp.compare_eq_iff_eq, eq_comm]

theorem evict_kept {h : Hash} (hk : Kept g (h :: order)) : Kept (g.evict h) order := by
  have hcount := foldl_sub (fun _ => 1) (g.waiting h) g.orphanCount
  rw [sum_ones] at hcount
  have hkept : Kept (g.evict h) ((h :: order).erase h) :=
    hk.erase h rfl rfl hcount (foldl_sub OrphanEntry.size (g.waiting h) g.orphanBytes)
  rwa [List.erase_cons_head] at hkept

variable {g g' : Gossip}

theorem Kept.of_order (hk : Kept g order) (horphans : g'.orphans = g.orphans)
    (hpeers : g'.orphansByPeer = g.orphansByPeer) (hcount : g'.orphanCount = g.orphanCount)
    (hbytes : g'.orphanBytes = g.orphanBytes) : Kept g' order where
  ledger := by
    rw [horphans, hpeers, hcount, hbytes]
    exact hk.ledger
  sized := by
    rw [horphans]
    exact hk.sized
  filed := by
    simp only [waiting, horphans]
    exact hk.filed
  nonempty := by
    simp only [waiting, horphans]
    exact hk.nonempty
  nodup := hk.nodup
  mem_order := by
    rw [horphans]
    exact hk.mem_order

theorem orphanBytesOf_nonneg (b : Block) : 0 ≤ orphanBytesOf b := by
  have hgen : ∀ (txs : List Transaction) (n : ℤ), 0 ≤ n →
      0 ≤ txs.foldl (fun (n : ℤ) tx => n + (160 + tx.data.length)) n := by
    intro txs
    induction txs with
    | nil => exact fun n hn => hn
    | cons tx txs ih => exact fun n hn => ih (n + (160 + tx.data.length)) (by omega)
  exact hgen b.txs 256 (by decide)

/-- The queue of `g'` costs no more than that of `g`, with the same bounds. -/
structure Lower (g' g : Gossip) : Prop where
  maxOrphans : g'.maxOrphans = g.maxOrphans
  maxOrphansPerPeer : g'.maxOrphansPerPeer = g.maxOrphansPerPeer
  maxOrphanBytes : g'.maxOrphanBytes = g.maxOrphanBytes
  count : g'.orphanCount ≤ g.orphanCount
  bytes : g'.orphanBytes ≤ g.orphanBytes
  share : ∀ p, g'.byPeer p ≤ g.byPeer p

theorem Lower.refl (g : Gossip) : Lower g g := ⟨rfl, rfl, rfl, le_rfl, le_rfl, fun _ => le_rfl⟩

theorem Lower.trans {g₁ g₂ g₃ : Gossip} (h : Lower g₁ g₂) (h' : Lower g₂ g₃) : Lower g₁ g₃ :=
  ⟨h.maxOrphans.trans h'.maxOrphans, h.maxOrphansPerPeer.trans h'.maxOrphansPerPeer,
    h.maxOrphanBytes.trans h'.maxOrphanBytes, h.count.trans h'.count, h.bytes.trans h'.bytes,
    fun p => (h.share p).trans (h'.share p)⟩

theorem Kept.lower {order order' : List Hash} (hk : Kept g order) (hk' : Kept g' order')
    (h : Hash) (horphans : g'.orphans = g.orphans.erase h) (hmax : g'.maxOrphans = g.maxOrphans)
    (hper : g'.maxOrphansPerPeer = g.maxOrphansPerPeer) (hbytes : g'.maxOrphanBytes = g.maxOrphanBytes) : Lower g' g := by
  have hsize : 0 ≤ ((bucket g.orphans h).map OrphanEntry.size).sum := by
    refine List.sum_nonneg fun x hx => ?_
    obtain ⟨e, he, rfl⟩ := List.mem_map.1 hx
    rw [hk.sized e (mem_entries.2 ⟨h, he⟩)]
    exact orphanBytesOf_nonneg _
  refine ⟨hmax, hper, hbytes, ?_, ?_, fun p => ?_⟩
  · rw [hk.ledger.count, hk'.ledger.count, horphans, ← total_erase (fun _ => (1 : ℤ)) g.orphans h]
    exact le_add_of_nonneg_right (sum_nonneg (fun _ => zero_le_one) _)
  · rw [hk.ledger.bytes, hk'.ledger.bytes, horphans, ← total_erase OrphanEntry.size g.orphans h]
    exact le_add_of_nonneg_right hsize
  · rw [byPeer, byPeer, hk.ledger.share, hk'.ledger.share, horphans, ← total_erase (shareOf p) g.orphans h]
    exact le_add_of_nonneg_right (sum_nonneg (shareOf_nonneg p) _)

theorem makeRoom_spec (size : ℤ) (order : List Hash) : ∀ {g : Gossip}, Kept g order →
    Kept (g.makeRoom size order) (g.makeRoom size order).orphanOrder ∧ Lower (g.makeRoom size order) g ∧
      (g.makeRoom size order).penalties = g.penalties ∧
      ((g.makeRoom size order).orphanOrder = [] ∨ (g.makeRoom size order).orphanCount < g.maxOrphans ∧
        (g.makeRoom size order).orphanBytes + size ≤ g.maxOrphanBytes) := by
  induction order with
  | nil => exact fun hk => ⟨hk.of_order rfl rfl rfl rfl, ⟨rfl, rfl, rfl, le_rfl, le_rfl, fun _ => le_rfl⟩, rfl, .inl rfl⟩
  | cons oldest order ih =>
    intro g hk
    rw [makeRoom]
    split
    case isTrue =>
      have hev := evict_kept hk
      obtain ⟨hkept, hlower, hpen, hroom⟩ := ih hev
      exact ⟨hkept, hlower.trans (hk.lower hev oldest rfl rfl rfl rfl), hpen, hroom⟩
    case isFalse hroom =>
      push Not at hroom
      exact ⟨hk.of_order rfl rfl rfl rfl, ⟨rfl, rfl, rfl, le_rfl, le_rfl, fun _ => le_rfl⟩, rfl, .inr hroom⟩

theorem Kept.empty (hk : Kept g []) : g.orphanCount = 0 ∧ g.orphanBytes = 0 := by
  have hnone : g.orphans = ∅ := ExtTreeMap.eq_empty_iff_forall_not_mem.2 fun h hh => List.not_mem_nil ((hk.mem_order h).2 hh)
  rw [hk.ledger.count, hk.ledger.bytes, hnone, total_empty, total_empty]
  exact ⟨rfl, rfl⟩

theorem Kept.bytes_nonneg (hk : Kept g order) : 0 ≤ g.orphanBytes := by
  rw [hk.ledger.bytes, total]
  refine List.sum_nonneg fun x hx => ?_
  obtain ⟨e, he, rfl⟩ := List.mem_map.1 hx
  rw [hk.sized e he]
  exact orphanBytesOf_nonneg _

theorem Kept.makeRoom_lt (hk : Kept g g.orphanOrder) (size : ℤ) :
    (g.makeRoom size g.orphanOrder).maxOrphanBytes < (g.makeRoom size g.orphanOrder).orphanBytes + size ↔
      g.maxOrphanBytes < size := by
  obtain ⟨hkept, hlower, -, hroom⟩ := makeRoom_spec size g.orphanOrder hk
  have hnonneg := hkept.bytes_nonneg
  rw [hlower.maxOrphanBytes]
  rcases hroom with hempty | ⟨-, hfits⟩
  · rw [hempty] at hkept
    rw [hkept.empty.2, zero_add]
  · omega

theorem Kept.park (hk : Kept g g.orphanOrder) (blk : Block) (source : PeerID) :
    Kept (g.park blk source (orphanBytesOf blk)) (g.park blk source (orphanBytesOf blk)).orphanOrder where
  ledger := hk.ledger.push blk.header.parentHash ⟨blk, source, orphanBytesOf blk⟩
  sized e he := by
    obtain ⟨k, hek⟩ := mem_entries.1 he
    by_cases heq : blk.header.parentHash = k
    · subst heq
      simp only [Gossip.park, bucket_push_self, List.mem_append, List.mem_singleton] at hek
      rcases hek with hek | rfl
      · exact hk.sized e (mem_entries.2 ⟨_, hek⟩)
      · rfl
    · simp only [Gossip.park, bucket_push_ne _ heq] at hek
      exact hk.sized e (mem_entries.2 ⟨k, hek⟩)
  filed k e he := by
    by_cases heq : blk.header.parentHash = k
    · subst heq
      simp only [waiting, Gossip.park, bucket_push_self, List.mem_append, List.mem_singleton] at he
      rcases he with he | rfl
      · exact hk.filed _ e he
      · rfl
    · simp only [waiting, Gossip.park, bucket_push_ne _ heq] at he
      exact hk.filed k e he
  nonempty k hmem := by
    by_cases heq : blk.header.parentHash = k
    · subst heq
      simp [waiting, Gossip.park]
    · simp only [Gossip.park, push, ExtTreeMap.mem_insert, LawfulEqCmp.compare_eq_iff_eq, heq, false_or] at hmem
      simp only [waiting, Gossip.park, bucket_push_ne _ heq]
      exact hk.nonempty k hmem
  nodup := by
    simp only [Gossip.park]
    split
    case isTrue => exact hk.nodup
    case isFalse hnew =>
      refine List.nodup_append.2 ⟨hk.nodup, List.nodup_singleton _, fun a ha b hb heq => hnew ?_⟩
      rw [List.mem_singleton.1 hb] at heq
      exact heq ▸ (hk.mem_order a).1 ha
  mem_order k := by
    simp only [Gossip.park, push, ExtTreeMap.mem_insert, LawfulEqCmp.compare_eq_iff_eq]
    split
    case isTrue hmem =>
      rw [hk.mem_order]
      exact ⟨.inr, fun h => h.elim (fun heq => heq ▸ hmem) id⟩
    case isFalse =>
      rw [List.mem_append, List.mem_singleton, hk.mem_order, or_comm, eq_comm]

theorem Kept.takeWaiting (hk : Kept g g.orphanOrder) (h : Hash) :
    Kept (g.takeWaiting h).2 (g.takeWaiting h).2.orphanOrder ∧ Lower (g.takeWaiting h).2 g := by
  rw [Gossip.takeWaiting]
  split
  case isTrue => exact ⟨hk, .refl g⟩
  case isFalse =>
    have hkept : Kept (g.without h) (g.orphanOrder.erase h) :=
      hk.erase h rfl rfl rfl (foldl_sub OrphanEntry.size (g.waiting h) g.orphanBytes)
    exact ⟨hkept, hk.lower hkept h rfl rfl rfl rfl⟩

/-- The bounds of the queue. A negative budget of bytes admits nothing. -/
structure Within (g : Gossip) : Prop where
  count : g.orphanCount ≤ g.maxOrphans
  bytes : g.orphanBytes ≤ max g.maxOrphanBytes 0
  share : ∀ p, 0 < g.byPeer p → g.byPeer p ≤ g.maxOrphansPerPeer

theorem Within.lower (h : Within g) (hl : Lower g' g) : Within g' where
  count := by
    rw [hl.maxOrphans]
    exact hl.count.trans h.count
  bytes := by
    rw [hl.maxOrphanBytes]
    exact hl.bytes.trans h.bytes
  share p hp := by
    rw [hl.maxOrphansPerPeer]
    exact (hl.share p).trans (h.share p (hp.trans_le (hl.share p)))

structure Sound (g : Gossip) : Prop where
  kept : Kept g g.orphanOrder
  within : Within g
  maxOrphans : 1 ≤ g.maxOrphans

theorem Sound.takeWaiting (h : Sound g) (k : Hash) : Sound (g.takeWaiting k).2 := by
  obtain ⟨hkept, hlower⟩ := h.kept.takeWaiting k
  exact ⟨hkept, h.within.lower hlower, hlower.maxOrphans ▸ h.maxOrphans⟩

theorem Sound.of_eq (h : Sound g) (horphans : g'.orphans = g.orphans)
    (hpeers : g'.orphansByPeer = g.orphansByPeer) (hcount : g'.orphanCount = g.orphanCount)
    (hbytes : g'.orphanBytes = g.orphanBytes) (horder : g'.orphanOrder = g.orphanOrder)
    (hmax : g'.maxOrphans = g.maxOrphans) (hper : g'.maxOrphansPerPeer = g.maxOrphansPerPeer)
    (hmaxBytes : g'.maxOrphanBytes = g.maxOrphanBytes) : Sound g' where
  kept := horder ▸ h.kept.of_order horphans hpeers hcount hbytes
  within := by
    refine h.within.lower ⟨hmax, hper, hmaxBytes, hcount.le, hbytes.le, fun p => ?_⟩
    rw [byPeer, byPeer, hpeers]
  maxOrphans := hmax ▸ h.maxOrphans

theorem Sound.penalize (h : Sound g) (p : PeerID) : Sound (g.penalize p) :=
  h.of_eq rfl rfl rfl rfl rfl rfl rfl rfl

variable [Crypto]

theorem Sound.queueOrphan (h : Sound g) (blk : Block) (source : PeerID) : Sound (g.queueOrphan blk source) := by
  rw [Gossip.queueOrphan]
  split
  · exact h
  split
  · exact h.penalize source
  case isFalse hquota =>
  dsimp only
  obtain ⟨hkept, hlower, -, hroom⟩ := makeRoom_spec (orphanBytesOf blk) g.orphanOrder h.kept
  generalize g.makeRoom (orphanBytesOf blk) g.orphanOrder = g₁ at hkept hlower hroom
  have h₁ : Sound g₁ := ⟨hkept, h.within.lower hlower, hlower.maxOrphans ▸ h.maxOrphans⟩
  split
  · exact h₁.penalize source
  case isFalse hfits =>
    refine ⟨hkept.park blk source, ⟨?_, ?_, fun p hp => ?_⟩, h₁.maxOrphans⟩
    · have hlt : g₁.orphanCount < g₁.maxOrphans := by
        rw [hlower.maxOrphans]
        rcases hroom with hempty | ⟨hlt, -⟩
        · rw [hempty] at hkept
          have := hkept.empty.1
          have := h.maxOrphans
          omega
        · exact hlt
      exact hlt
    · exact le_max_of_le_left (Int.not_lt.1 hfits)
    · have hshare : (g₁.park blk source (orphanBytesOf blk)).byPeer p =
          if source = p then g₁.byPeer source + 1 else g₁.byPeer p := by
        simp only [byPeer, Gossip.park, ExtTreeMap.getElem?_insert, LawfulEqCmp.compare_eq_iff_eq]
        split <;> rfl
      show _ ≤ g₁.maxOrphansPerPeer
      rw [hshare] at hp ⊢
      split at hp
      case isTrue heq =>
        have hle := hlower.share source
        have hper := hlower.maxOrphansPerPeer
        rw [if_pos heq]
        omega
      case isFalse hne =>
        rw [if_neg hne]
        exact h₁.within.share p hp

theorem Sound.tryWaiting (clock : Hash → Int64) (waiting : List OrphanEntry) : ∀ {g : Gossip} {bc : Blockchain}, Sound g →
    Sound (Gossip.tryWaiting clock waiting g bc).2.1 := by
  induction waiting with
  | nil => exact fun h => h
  | cons e waiting ih =>
    intro g bc h
    rw [Gossip.tryWaiting]
    split
    · exact ih h
    · exact ih (h.penalize e.source)
    · exact ih (h.of_eq rfl rfl rfl rfl rfl rfl rfl rfl)

theorem Sound.resolveLoop (clock : Hash → Int64) (n : ℕ) : ∀ {queue : List Hash} {g g' : Gossip} {bc bc' : Blockchain},
    Sound g → Gossip.resolveLoop clock n queue g bc = some (g', bc') → Sound g' := by
  induction n with
  | zero =>
    intro queue g g' bc bc' h hloop
    cases queue with
    | nil =>
      cases hloop
      exact h
    | cons k queue => cases hloop
  | succ n ih =>
    intro queue g g' bc bc' h hloop
    cases queue with
    | nil =>
      cases hloop
      exact h
    | cons k queue => exact ih (Sound.tryWaiting clock _ (h.takeWaiting k)) hloop

/-! ### Resolving ends -/

theorem tryWaiting_spec (clock : Hash → Int64) (waiting : List OrphanEntry) : ∀ (g : Gossip) (bc : Blockchain),
    (tryWaiting clock waiting g bc).1.length ≤ waiting.length ∧ (tryWaiting clock waiting g bc).2.1.orphans = g.orphans := by
  induction waiting with
  | nil => exact fun _ _ => ⟨le_rfl, rfl⟩
  | cons e waiting ih =>
    intro g bc
    rw [tryWaiting]
    split
    · exact ⟨(ih _ _).1.trans (Nat.le_succ _), (ih _ _).2⟩
    · exact ⟨(ih _ _).1.trans (Nat.le_succ _), (ih _ _).2⟩
    · exact ⟨Nat.succ_le_succ (ih _ _).1, (ih _ _).2⟩

omit [Crypto] in
theorem length_takeWaiting (g : Gossip) (h : Hash) :
    (g.takeWaiting h).1.length + (entries (g.takeWaiting h).2.orphans).length = (entries g.orphans).length := by
  rw [takeWaiting]
  split
  · exact Nat.zero_add _
  · rw [Nat.add_comm]
    exact length_entries_erase g.orphans h

theorem resolveLoop_cons (clock : Hash → Int64) (n : ℕ) (h : Hash) (queue : List Hash) (g : Gossip) (bc : Blockchain) :
    resolveLoop clock (n + 1) (h :: queue) g bc =
      resolveLoop clock n (queue ++ (tryWaiting clock (g.takeWaiting h).1 (g.takeWaiting h).2 bc).1)
        (tryWaiting clock (g.takeWaiting h).1 (g.takeWaiting h).2 bc).2.1
        (tryWaiting clock (g.takeWaiting h).1 (g.takeWaiting h).2 bc).2.2 := rfl

theorem resolveLoop_isSome (clock : Hash → Int64) (n : ℕ) : ∀ (queue : List Hash) (g : Gossip) (bc : Blockchain),
    queue.length + (entries g.orphans).length ≤ n → (resolveLoop clock n queue g bc).isSome := by
  induction n with
  | zero =>
    intro queue g bc hle
    obtain rfl := List.length_eq_zero_iff.1 (Nat.le_zero.1 ((Nat.le_add_right _ _).trans hle))
    rfl
  | succ n ih =>
    intro queue g bc hle
    cases queue with
    | nil => rfl
    | cons k queue =>
      rw [resolveLoop_cons]
      refine ih _ _ _ ?_
      obtain ⟨hacc, horphans⟩ := tryWaiting_spec clock (g.takeWaiting k).1 (g.takeWaiting k).2 bc
      have htake := length_takeWaiting g k
      rw [horphans, List.length_append]
      rw [List.length_cons] at hle
      omega

theorem resolveOrphans_isSome (g : Gossip) (bc : Blockchain) (clock : Hash → Int64) (parent : Hash) :
    (g.resolveOrphans bc clock parent).isSome :=
  resolveLoop_isSome clock _ [parent] g bc (by rw [List.length_singleton, Nat.add_comm])

/-! ### Runs -/

/-- A call on the queue. `take` is one locked section of `resolveOrphans`: a resolution that other calls interleave with is
a sequence of these. -/
inductive QueueOp
  | queue (blk : Block) (source : PeerID)
  | resolve (bc : Blockchain) (clock : Hash → Int64) (parent : Hash)
  | take (h : Hash)

def exec (g : Gossip) : QueueOp → Except Unit Gossip
  | .queue blk source => .ok (g.queueOrphan blk source)
  | .resolve bc clock parent =>
    match g.resolveOrphans bc clock parent with
    | none => .error ()
    | some (g', _) => .ok g'
  | .take h => .ok (g.takeWaiting h).2

def limits (g : Gossip) : ℤ × ℤ × ℤ := (g.maxOrphans, g.maxOrphansPerPeer, g.maxOrphanBytes)

omit [Crypto] in
theorem limits_makeRoom (size : ℤ) (order : List Hash) : ∀ g : Gossip, (g.makeRoom size order).limits = g.limits := by
  induction order with
  | nil => exact fun _ => rfl
  | cons oldest order ih =>
    intro g
    rw [makeRoom]
    split
    · exact ih (g.evict oldest)
    · rfl

theorem limits_queueOrphan (g : Gossip) (blk : Block) (source : PeerID) : (g.queueOrphan blk source).limits = g.limits := by
  simp only [queueOrphan]
  split_ifs
  · rfl
  · rfl
  · exact limits_makeRoom _ _ g
  · exact limits_makeRoom _ _ g

omit [Crypto] in
theorem limits_takeWaiting (g : Gossip) (h : Hash) : (g.takeWaiting h).2.limits = g.limits := by
  rw [takeWaiting]
  split <;> rfl

theorem limits_tryWaiting (clock : Hash → Int64) (waiting : List OrphanEntry) : ∀ (g : Gossip) (bc : Blockchain),
    (tryWaiting clock waiting g bc).2.1.limits = g.limits := by
  induction waiting with
  | nil => exact fun _ _ => rfl
  | cons e waiting ih =>
    intro g bc
    rw [tryWaiting]
    split <;> exact ih _ _

theorem limits_resolveLoop (clock : Hash → Int64) (n : ℕ) : ∀ {queue : List Hash} {g g' : Gossip} {bc bc' : Blockchain},
    resolveLoop clock n queue g bc = some (g', bc') → g'.limits = g.limits := by
  induction n with
  | zero =>
    intro queue g g' bc bc' hloop
    cases queue <;> cases hloop
    rfl
  | succ n ih =>
    intro queue g g' bc bc' hloop
    cases queue with
    | nil =>
      cases hloop
      rfl
    | cons k queue =>
      rw [resolveLoop_cons] at hloop
      rw [ih hloop, limits_tryWaiting, limits_takeWaiting]

omit [Crypto] in
structure Accounted (g : Gossip) : Prop where
  count : g.orphanCount = (entries g.orphans).length
  bytes : g.orphanBytes = ((entries g.orphans).map fun e => orphanBytesOf e.blk).sum
  byPeer : ∀ p : PeerID, g.orphansByPeer[p]? =
    if (entries g.orphans).any (·.source = p) then some ((entries g.orphans).countP (·.source = p) : ℤ) else none
  filed : ∀ h, ∀ e ∈ g.waiting h, e.blk.header.parentHash = h
  order_nodup : g.orphanOrder.Nodup
  mem_order : ∀ h, h ∈ g.orphanOrder ↔ g.waiting h ≠ []
  count_le : g.orphanCount ≤ g.maxOrphans
  bytes_le : g.orphanBytes ≤ max g.maxOrphanBytes 0
  byPeer_le : ∀ (p : PeerID) (n : ℤ), g.orphansByPeer[p]? = some n → n ≤ g.maxOrphansPerPeer

omit [Crypto] in
theorem sum_shareOf (p : PeerID) (l : List OrphanEntry) : (l.map (shareOf p)).sum = (l.countP (·.source = p) : ℤ) := by
  induction l with
  | nil => rfl
  | cons e l ih =>
    rw [List.map_cons, List.sum_cons, ih, List.countP_cons, shareOf]
    by_cases hp : e.source = p
    · simp only [hp, decide_true, if_true, Nat.cast_add, Nat.cast_one]
      exact add_comm _ _
    · simp only [hp, decide_false, Bool.false_eq_true, if_false, zero_add, add_zero]

omit [Crypto] in
theorem Sound.accounted (h : Sound g) : Accounted g where
  count := by rw [h.kept.ledger.count, total, sum_ones]
  bytes := by rw [h.kept.ledger.bytes, total, List.map_congr_left h.kept.sized]
  byPeer p := by
    have hshare := h.kept.ledger.share p
    rw [total, sum_shareOf] at hshare
    cases hp : g.orphansByPeer[p]? with
    | none =>
      rw [hp, Option.getD_none] at hshare
      rw [if_neg]
      intro hany
      have := List.countP_pos_iff.2 (List.any_eq_true.1 hany)
      omega
    | some n =>
      rw [hp, Option.getD_some] at hshare
      have hpos := h.kept.ledger.positive p n hp
      rw [if_pos, hshare]
      exact List.any_eq_true.2 (List.countP_pos_iff.1 (by omega))
  filed := h.kept.filed
  order_nodup := h.kept.nodup
  mem_order k := by
    rw [h.kept.mem_order]
    refine ⟨h.kept.nonempty k, fun hne => ?_⟩
    by_contra hmem
    exact hne (waiting_of_not_mem hmem)
  count_le := h.within.count
  bytes_le := h.within.bytes
  byPeer_le p n hp := by
    have hby : g.byPeer p = n := by rw [Gossip.byPeer, hp, Option.getD_some]
    have := h.within.share p (hby ▸ h.kept.ledger.positive p n hp)
    rwa [hby] at this

theorem Sound.exec (h : Sound g) (op : QueueOp) :
    ∃ g', g.exec op = .ok g' ∧ Sound g' ∧ g'.limits = g.limits := by
  cases op with
  | queue blk source => exact ⟨_, rfl, h.queueOrphan blk source, limits_queueOrphan g blk source⟩
  | take k => exact ⟨_, rfl, h.takeWaiting k, limits_takeWaiting g k⟩
  | resolve bc clock parent =>
    obtain ⟨⟨g', bc'⟩, hres⟩ := Option.isSome_iff_exists.1 (resolveOrphans_isSome g bc clock parent)
    exact ⟨g', by simp only [Gossip.exec, hres], Sound.resolveLoop clock _ h hres, limits_resolveLoop clock _ hres⟩

omit [Crypto] in
theorem sound_newGossip {maxOrphans : ℤ} (hmax : 1 ≤ maxOrphans) (maxOrphansPerPeer maxOrphanBytes : ℤ) :
    Sound (newGossip maxOrphans maxOrphansPerPeer maxOrphanBytes) where
  kept :=
    { ledger := ledger_empty
      sized := fun e he => by simp [newGossip] at he
      filed := fun h e he => by simp [waiting, bucket, newGossip] at he
      nonempty := fun h hh => by simp [newGossip] at hh
      nodup := List.nodup_nil
      mem_order := fun h => by simp [newGossip] }
  within :=
    { count := by
        simp only [newGossip]
        omega
      bytes := le_max_right _ _
      share := fun p hp => by simp [byPeer, newGossip] at hp }
  maxOrphans := hmax

/-- **The accounting of the orphan queue is exact**, and within the bounds it was made with. -/
theorem queue_accounted {maxOrphans : ℤ} (hmax : 1 ≤ maxOrphans) (maxOrphansPerPeer maxOrphanBytes : ℤ) (ops : List QueueOp) :
    ∃ g, Run.run exec (newGossip maxOrphans maxOrphansPerPeer maxOrphanBytes) ops = .ok g ∧
      g.limits = (newGossip maxOrphans maxOrphansPerPeer maxOrphanBytes).limits ∧ Accounted g := by
  set start := newGossip maxOrphans maxOrphansPerPeer maxOrphanBytes with hstart
  have hstep : ∀ (_ : List QueueOp) (op : QueueOp) (g : Gossip), op ∈ ops →
      (Sound g ∧ g.limits = start.limits) → True → ∃ g', g.exec op = .ok g' ∧ Sound g' ∧ g'.limits = start.limits := by
    intro _ op g _ h _
    obtain ⟨g', hexec, hsound, hlimits⟩ := h.1.exec op
    exact ⟨g', hexec, hsound, hlimits.trans h.2⟩
  have hmeets : Run.Meets exec (fun _ _ => True) start ops := Run.meets_of_forall (fun _ _ => trivial) ops _
  have hinit : Sound start ∧ start.limits = start.limits := ⟨sound_newGossip hmax _ _, rfl⟩
  obtain ⟨g, hrun, hsound, hlimits⟩ :=
    Run.run_induction (I := fun _ g => Sound g ∧ g.limits = start.limits) hstep hmeets [] hinit
  exact ⟨g, hrun, hlimits, hsound.accounted⟩

def childOf (parent : Hash) : Block := ⟨⟨parent, 2, 2, 0, 0, 0, 0, 0, 1, 1, 0⟩, []⟩

omit [Crypto] in
/-- A queue of one: the second block evicts the first, and is taken out again. -/
theorem queue_accounted_one :
    (1 : ℤ) ≤ 1 ∧ ∃ g, Run.run (@exec (tableCrypto [] [])) (newGossip 1 0 0)
        [.queue (childOf 7) "alice", .queue (childOf 9) "bob", .take 9] = .ok g ∧
      g.limits = (1, 1, 33554432) ∧ Accounted g :=
  ⟨le_rfl, @queue_accounted (tableCrypto [] []) 1 le_rfl 0 0 _⟩

end Gossip

end Lxs.P2p
