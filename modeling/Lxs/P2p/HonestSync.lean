import Mathlib.Data.List.TakeWhile
import Lxs.P2p.Sync

/-!
# Syncing from an honest peer

An honest peer answers from one canonical chain of valid blocks. Its headers are consecutive blocks of that chain and link
to each other, its bodies are a first part of what was asked for, and the search for the common ancestor finds the height
after which the two chains part.
-/

set_option linter.unusedSectionVars false

namespace Lxs

open Std Lib

variable [Crypto] {g : Genesis} {B : Block → Prop} {bc : Blockchain} {l : List Block}

/-! ### Chains by height -/

theorem split_reverse {i : ℕ} {x : Block} (h : l.reverse[i]? = some x) :
    l = (l.reverse.drop (i + 1)).reverse ++ x :: (l.reverse.take i).reverse := by
  obtain ⟨hi, rfl⟩ := List.getElem?_eq_some_iff.1 h
  have hsplit := List.take_append_drop i l.reverse
  rw [List.drop_eq_getElem_cons hi] at hsplit
  rw [← List.reverse_inj]
  simpa using hsplit.symm

theorem Chain.getElem?_reverse {w : World} (h : Chain g l w) {i : ℕ} {x : Block} :
    l.reverse[i]? = some x ↔ x ∈ l ∧ x.height.toNat = i := by
  have hindex : ∀ {pre post : List Block} {y : Block}, l = pre ++ y :: post → y.height.toNat = post.length := by
    rintro pre post y rfl
    obtain ⟨v, hv⟩ := h.lower pre
    exact hv.height_eq
  constructor
  · intro hx
    obtain ⟨hi, -⟩ := List.getElem?_eq_some_iff.1 hx
    refine ⟨List.mem_reverse.1 (List.mem_of_getElem? hx), ?_⟩
    rw [hindex (split_reverse hx), List.length_reverse, List.length_take]
    exact Nat.min_eq_left hi.le
  · rintro ⟨hx, rfl⟩
    obtain ⟨pre, post, hl⟩ := List.append_of_mem hx
    rw [hindex hl, hl]
    simp

namespace Blockchain

theorem blockByHash_eq (hc : Coherent bc) (h : Hash) : bc.blockByHash h = bc.db.blocks[h]? := by
  unfold blockByHash
  cases hb : bc.db.blocks[h]? with
  | none => rw [blockLocked_none hc hb]; rfl
  | some b =>
    obtain ⟨bc', -, hr⟩ := blockLocked_some hc hb
    rw [hr]
    rfl

theorem blockByHeight_of_canonical (hc : Coherent bc) (hcanon : Canonical g bc l) (n : UInt64) :
    (bc.blockByHeight n).1 = l.reverse[n.toNat]? := by
  obtain ⟨w, hw⟩ := hcanon.chain
  obtain ⟨bc', -, hread⟩ := blockByHeight_eq hc n
  rw [hread]
  refine Option.ext fun x => ?_
  rw [hw.getElem?_reverse, Option.bind_eq_some_iff]
  constructor
  · rintro ⟨k, hk, hx⟩
    obtain ⟨b, hb, rfl, rfl⟩ := (hcanon.table _ _).1 hk
    rw [hcanon.stored b hb] at hx
    cases hx
    exact ⟨hb, rfl⟩
  · rintro ⟨hx, hn⟩
    exact ⟨x.hash, (hcanon.table _ _).2 ⟨x, hx, UInt64.toNat_inj.1 hn, rfl⟩, hcanon.stored x hx⟩

theorem Canonical.eq_of_blocks (hc : Coherent bc) (hcanon : Canonical g bc l) {m : List Block}
    (hm : (List.range (bc.head.height.toNat + 1)).map (fun i => (bc.blockByHeight (UInt64.ofNat i)).1) = m.map some) : l = m.reverse := by
  obtain ⟨w, hw⟩ := hcanon.chain
  obtain ⟨l, rfl⟩ := List.head?_eq_some_iff.1 hcanon.head
  have hlen := hw.height_eq
  have hbound := bc.head.height.toNat_lt
  rw [← List.reverse_eq_iff]
  refine List.map_injective_iff.2 (Option.some_injective _) ?_
  rw [← hm]
  refine List.ext_getElem? fun i => ?_
  rw [List.getElem?_map, List.getElem?_map]
  rcases Nat.lt_or_ge i (bc.head.height.toNat + 1) with hi | hi
  · rw [List.getElem?_range hi, Option.map_some, blockByHeight_of_canonical hc hcanon, UInt64.toNat_ofNat_of_lt' (show i < 2 ^ 64 by omega),
      List.getElem?_eq_getElem (by simpa [hlen] using hi)]
    rfl
  · rw [List.getElem?_eq_none (by simpa [← hlen] using hi), List.getElem?_eq_none (by simpa using hi)]
    rfl

end Blockchain

namespace P2p

open Blockchain

/-! ### Honest answers -/

/-- A peer that answers, if at all, from one canonical chain of valid blocks. -/
structure Honest (g : Genesis) (peer : Peer) (l : List Block) : Prop where
  answers : ∃ theirs, Coherent theirs ∧ Canonical g theirs l ∧
    ∀ req resp size, peer req = some (resp, size) → serve theirs req = .ok resp
  valid : Valid g l
  short : l.length < 2 ^ 63

/-- The blocks of a chain from a height on, as many as an answer has at most. -/
def batch (l : List Block) (start : ℕ) : List Block := (l.reverse.drop start).take maxHeadersPerRequest

theorem serveHeaders_eq (hc : Coherent bc) (hcanon : Canonical g bc l) (hshort : l.length < 2 ^ 63) (n : ℕ) :
    ∀ height : UInt64, serveHeaders bc n height = ((l.reverse.drop height.toNat).take n).map Block.header := by
  induction n with
  | zero => exact fun _ => by simp [serveHeaders]
  | succ n ih =>
    intro height
    unfold serveHeaders
    rw [blockByHeight_of_canonical hc hcanon]
    cases hx : l.reverse[height.toNat]? with
    | none =>
      rw [List.drop_eq_nil_of_le (List.getElem?_eq_none_iff.1 hx)]
      rfl
    | some x =>
      obtain ⟨hi, rfl⟩ := List.getElem?_eq_some_iff.1 hx
      rw [List.length_reverse] at hi
      have hnext : (height + 1).toNat = height.toNat + 1 := by
        rw [UInt64.toNat_add, show (1 : UInt64).toNat = 1 from rfl, Nat.mod_eq_of_lt (by omega)]
      dsimp only
      rw [ih, hnext, List.drop_eq_getElem_cons (i := height.toNat) (by rw [List.length_reverse]; exact hi)]
      rfl

variable {peer : Peer}

theorem Honest.answer (h : Honest g peer l) {req : SyncRequest} {resp : SyncResponse} (hok : request peer req = .ok resp) :
    ∃ theirs, Coherent theirs ∧ Canonical g theirs l ∧ serve theirs req = .ok resp := by
  obtain ⟨theirs, hc, hcanon, hserve⟩ := h.answers
  unfold request at hok
  cases hp : peer req with
  | none => rw [hp] at hok; cases hok
  | some a =>
    obtain ⟨resp', size⟩ := a
    rw [hp] at hok
    dsimp only at hok
    split_ifs at hok
    cases hok
    exact ⟨theirs, hc, hcanon, hserve req resp size hp⟩

theorem headersOf_map (hs : List Header) : headersOf (hs.map some) = .ok hs := by
  have h : (hs.map some).mapM id = some hs := by
    induction hs with
    | nil => rfl
    | cons x hs ih => simp [List.mapM_cons, ih]
  rw [headersOf, h]

theorem Honest.headers (h : Honest g peer l) {start : UInt64} {hs : List Header} (hok : getHeaders peer start = .ok hs) :
    hs = (batch l start.toNat).map Block.header := by
  unfold getHeaders at hok
  cases hr : request peer (.headers start (UInt64.ofNat maxHeadersPerRequest)) with
  | error e => rw [hr] at hok; cases hok
  | ok resp =>
    rw [hr] at hok
    dsimp only at hok
    split_ifs at hok
    obtain ⟨theirs, hc, hcanon, hserve⟩ := h.answer hr
    cases hserve
    rw [headersOf_map] at hok
    cases hok
    exact serveHeaders_eq hc hcanon h.short _ start

theorem Honest.headerAt (h : Honest g peer l) {height : UInt64} {hd : Header} (hok : getHeaderAt peer height = .ok hd) :
    ∃ x, l.reverse[height.toNat]? = some x ∧ hd = x.header := by
  unfold getHeaderAt at hok
  cases hr : request peer (.headers height 1) with
  | error e => rw [hr] at hok; cases hok
  | ok resp =>
    rw [hr] at hok
    obtain ⟨theirs, hc, hcanon, hserve⟩ := h.answer hr
    cases hserve
    rw [serveHeaders_eq hc hcanon h.short] at hok
    cases hx : l.reverse[height.toNat]? with
    | none =>
      rw [List.drop_eq_nil_of_le (List.getElem?_eq_none_iff.1 hx)] at hok
      cases hok
    | some x =>
      obtain ⟨hi, rfl⟩ := List.getElem?_eq_some_iff.1 hx
      rw [List.drop_eq_getElem_cons hi] at hok
      change (if _ then _ else _) = _ at hok
      split_ifs at hok
      cases hok
      exact ⟨_, rfl, rfl⟩

theorem batch_below {a : ℕ} {p : Block} (hp : l.reverse[a]? = some p) :
    (batch l (a + 1)).reverse ++ p :: (l.reverse.take a).reverse <:+ l := by
  have hbelow : (l.reverse.take (a + 1)).reverse = p :: (l.reverse.take a).reverse := by
    obtain ⟨hi, rfl⟩ := List.getElem?_eq_some_iff.1 hp
    rw [List.take_succ_eq_append_getElem hi, List.reverse_append]
    rfl
  have hsuf := (List.take_prefix (a + 1 + maxHeadersPerRequest) l.reverse).reverse
  rwa [List.reverse_reverse, List.take_add, List.reverse_append, hbelow] at hsuf

def timely (now : ℕ → Int64) : ℕ → List Block → Bool
  | _, [] => true
  | i, b :: bs => b.header.timestamp ≤ now i + maxFutureDriftMs && timely now (i + 1) bs

variable {bs : List Block}

/-- **The header check finds no fault with consecutive valid blocks**, but for the clock. -/
theorem checkHeaders_valid (hvalid : Valid g l) {now : ℕ → Int64} : ∀ {i : ℕ} {prev : Option Header} {p : Block}
    {m : List Block}, bs.reverse ++ p :: m <:+ l → (prev = none ∨ prev = some p.header) →
      checkHeaders now i prev (bs.map Block.header) = if timely now i bs then .ok () else .error .futureHeader := by
  induction bs with
  | nil => exact fun _ _ => rfl
  | cons b bs ih =>
    intro i prev p m hsuf hprev
    have hsuf' : bs.reverse ++ b :: p :: m <:+ l := by simpa using hsuf
    have hbp : b :: p :: m <:+ l := (List.suffix_append ..).trans hsuf'
    obtain ⟨hdiff, hpow⟩ := hvalid.worked b p m hbp
    have hchild : isChildOf b.header prev = true := by
      rcases hprev with rfl | rfl
      · rfl
      · obtain ⟨w, hw⟩ := (hvalid.of_suffix hbp).chain
        cases hw with
        | block _ hb => simp [isChildOf, hb.header.height, hb.header.parentHash]
    have hwork : verifyHeaderPoW b.header = true := by
      unfold verifyHeaderPoW
      rw [hpow, hdiff, Bool.and_true, Bool.not_eq_true', decide_eq_false_iff_not, UInt64.not_lt]
      exact minDifficulty_le_demandedDifficulty g p m
    rw [List.map_cons, checkHeaders, hchild, hwork, timely, ih hsuf' (.inr rfl)]
    simp only [Bool.not_true, Bool.false_eq_true, if_false]
    by_cases hts : now i + maxFutureDriftMs < b.header.timestamp
    · rw [if_pos hts, decide_eq_false (Int64.not_le.2 hts)]
      rfl
    · rw [if_neg hts, decide_eq_true (Int64.not_lt.1 hts), Bool.true_and]

/-! ### Bodies -/

theorem serveBodies_prefix (hc : Coherent bc) (hbs : Stored bc.db bs) : ∀ (approx : ℕ) (acc : List Block),
    ∃ k, serveBodies bc approx acc (bs.map Block.hash) = acc ++ bs.take k := by
  induction bs with
  | nil => exact fun approx acc => ⟨0, by simp [serveBodies]⟩
  | cons b bs ih =>
    intro approx acc
    rw [List.map_cons, serveBodies, blockByHash_eq hc, hbs b List.mem_cons_self]
    dsimp only
    split_ifs
    · exact ⟨0, by simp⟩
    · obtain ⟨k, hk⟩ := ih (fun x hx => hbs x (List.mem_cons_of_mem _ hx)) (approx + bodySize b) (acc ++ [b])
      exact ⟨k + 1, by rw [hk]; simp⟩

theorem collectBodies_ok (hB : HashesDiffer B) {want : List Hash} (hknown : ∀ b ∈ bs, B b) :
    ∀ got, (∀ b ∈ bs, b.hash ∈ want) → ∃ got', collectBodies want got (bs.map fun b => some b.toWire) = .ok got' ∧
      ∀ x, B x → got'[x.hash]? = if x ∈ bs then some x.toWire else got[x.hash]? := by
  induction bs with
  | nil => exact fun got _ => ⟨got, rfl, fun x _ => by simp⟩
  | cons b bs ih =>
    intro got hwant
    obtain ⟨got', hcollect, hget⟩ := ih (fun x hx => hknown x (List.mem_cons_of_mem _ hx)) (got.insert b.hash b.toWire)
      fun x hx => hwant x (List.mem_cons_of_mem _ hx)
    refine ⟨got', ?_, fun x hx => ?_⟩
    · have hmem : b.toWire.header.hash ∈ want := hwant b List.mem_cons_self
      rw [List.map_cons, collectBodies, if_neg (not_not.2 hmem)]
      exact hcollect
    · rw [hget x hx, getElem?_insert_hash]
      by_cases hxb : x = b
      · subst hxb
        simp
      · have hne : b.hash ≠ x.hash := fun heq => hxb (hB x b hx (hknown b List.mem_cons_self) heq.symm)
        simp [hxb, hne]

theorem orderBodies_append {got : ExtTreeMap Hash WireBlock} {front back : List Block}
    (hfront : ∀ b ∈ front, got[b.hash]? = some b.toWire) (hback : ∀ b ∈ back, got[b.hash]? = none) :
    orderBodies got ((front ++ back).map Block.hash) = front.map Block.toWire := by
  induction front with
  | nil =>
    cases back with
    | nil => rfl
    | cons b back => rw [List.nil_append, List.map_cons, orderBodies, hback b List.mem_cons_self]; rfl
  | cons b front ih =>
    rw [List.cons_append, List.map_cons, orderBodies, hfront b List.mem_cons_self]
    dsimp only
    rw [ih fun x hx => hfront x (List.mem_cons_of_mem _ hx)]
    rfl

theorem nodup_batch {w : World} (h : Chain g l w) (start : ℕ) : (batch l start).Nodup := by
  have hl : l.Nodup := by
    induction h with
    | genesis => exact List.nodup_singleton _
    | block hp hb ih =>
      refine List.nodup_cons.2 ⟨fun hmem => ?_, ih⟩
      exact Nat.lt_irrefl _ ((Chain.block hp hb).height_lt _ hmem)
  exact ((List.nodup_reverse.2 hl).sublist (List.drop_sublist ..)).sublist (List.take_sublist ..)

theorem mem_of_mem_batch {start : ℕ} {x : Block} (h : x ∈ batch l start) : x ∈ l :=
  List.mem_reverse.1 (List.mem_of_mem_drop (List.mem_of_mem_take h))

/-- **Bodies are a first part of the batch**, unless the answer fails. -/
theorem Honest.bodies (h : Honest g peer l) (hB : HashesDiffer B) (hl : ∀ x ∈ l, B x) (start : ℕ) :
    (∃ e, getBodies peer ((batch l start).map Block.header) = .error e ∧ e ≠ .bodyMismatch) ∨
      ∃ k, getBodies peer ((batch l start).map Block.header) = .ok (((batch l start).take k).map Block.toWire) := by
  obtain ⟨w, hw⟩ := h.valid.chain
  have hwant : ((batch l start).map Block.header).map Header.hash = (batch l start).map Block.hash := by
    rw [List.map_map]
    rfl
  unfold getBodies
  dsimp only
  rw [hwant]
  cases hr : request peer (.bodies ((batch l start).map Block.hash)) with
  | error e =>
    refine .inl ⟨e, rfl, fun he => ?_⟩
    unfold request at hr
    split at hr
    · cases hr
      cases he
    · split_ifs at hr
      cases hr
      cases he
  | ok resp =>
    refine .inr ?_
    obtain ⟨theirs, hc, hcanon, hserve⟩ := h.answer hr
    have hstored : Stored theirs.db (batch l start) := fun x hx => hcanon.stored x (mem_of_mem_batch hx)
    obtain ⟨k, hk⟩ := serveBodies_prefix hc hstored 0 []
    unfold serve at hserve
    dsimp only at hserve
    split_ifs at hserve
    cases hserve
    rw [hk, List.nil_append]
    have hfront : ∀ x ∈ (batch l start).take k, x ∈ batch l start := fun x hx => List.mem_of_mem_take hx
    obtain ⟨got, hgot, hget⟩ := collectBodies_ok hB (fun x hx => hl x (mem_of_mem_batch (hfront x hx))) ∅
      fun x hx => List.mem_map_of_mem (f := Block.hash) (hfront x hx)
    dsimp only
    rw [hgot]
    dsimp only
    refine ⟨k, ?_⟩
    have hnodup := nodup_batch hw start
    rw [← List.take_append_drop k (batch l start)] at hnodup
    conv_lhs => rw [← List.take_append_drop k (batch l start)]
    rw [orderBodies_append]
    · intro x hx
      rw [hget x (hl x (mem_of_mem_batch (hfront x hx))), if_pos hx]
    · intro x hx
      rw [hget x (hl x (mem_of_mem_batch (List.mem_of_mem_drop hx))), if_neg, ExtTreeMap.getElem?_empty]
      exact fun hx' => List.disjoint_of_nodup_append hnodup hx' hx

/-! ### Following the chain of a peer -/

theorem insertBodies_follows (hB : HashesDiffer B) (hvalid : Valid g l) (hl : ∀ x ∈ l, B x) {now : ℕ → Int64} :
    ∀ {bc : Blockchain} {p : Block} {m : List Block} {i newly : ℕ}, Node g B bc → Unbroken bc l → bs.reverse ++ p :: m <:+ l →
      Stored bc.db (p :: m) → (insertBodies now i newly bc (bs.map Block.toWire)).2 ≠ .faulty ∧
        Node g B (insertBodies now i newly bc (bs.map Block.toWire)).1 := by
  induction bs with
  | nil =>
    intro bc p m i newly h _ _ _
    exact ⟨nofun, h⟩
  | cons b bs ih =>
    intro bc p m i newly h hun hsuf hst
    have hsuf' : bs.reverse ++ b :: p :: m <:+ l := by simpa using hsuf
    have hbp : b :: p :: m <:+ l := (List.suffix_append ..).trans hsuf'
    have hatt : Attached g B bc b p m := ⟨hvalid.of_suffix hbp, fun x hx => hl x (hbp.subset hx), hst⟩
    have hdown : Unbroken bc (p :: m) := fun x y n hxy =>
      hun x y n (hxy.trans ((List.suffix_cons ..).trans hbp))
    have hnode : Node g B (bc.insert b.toWire (now i)).2 := by
      refine h.insert hB _ _ fun x hx _ => ?_
      rw [block?_toWire] at hx
      cases hx
      exact hl b (hbp.subset List.mem_cons_self)
    rw [List.map_cons, insertBodies]
    cases hins : bc.insert b.toWire (now i) with
    | mk r bc' =>
      rw [hins] at hnode
      cases r with
      | ok r =>
        have hok : (bc.insert b.toWire (now i)).1 = .ok r := by rw [hins]
        obtain ⟨hst', hun'⟩ := h.insert_next hB hvalid hl hbp hst hun hok
        rw [hins] at hst' hun'
        exact ih hnode hun' hsuf' hst'
      | error e =>
        have herr : (bc.insert b.toWire (now i)).1 = .error e := by rw [hins]
        rcases h.insert_error hB hatt hdown herr with ⟨rfl, hb⟩ | hdef
        · -- the block is stored already
          have hknown : b.toWire.header.hash ∈ bc.db.blocks :=
            ExtTreeMap.mem_iff_isSome_getElem?.2 (by rw [show b.toWire.header.hash = b.hash from rfl, hb]; rfl)
          rw [insert_of_known hknown] at hins
          cases hins
          refine ih h hun hsuf' fun x hx => ?_
          rcases List.mem_cons.1 hx with rfl | hx
          · exact hb
          · exact hst x hx
        · cases e with
          | futureBlock => exact ⟨nofun, hnode⟩
          | reorgTooDeep => exact ⟨nofun, hnode⟩
          | _ => cases hdef

/-! ### The common ancestor -/

omit [Crypto] in
theorem toNat_succ_of_lt {lo hi : UInt64} (h : lo.toNat < hi.toNat) : (lo + 1).toNat = lo.toNat + 1 := by
  have := hi.toNat_lt
  rw [UInt64.toNat_add, show (1 : UInt64).toNat = 1 from rfl, Nat.mod_eq_of_lt (by omega)]

omit [Crypto] in
theorem toNat_mid (lo hi : UInt64) : ((lo + hi) / 2).toNat = (lo.toNat + hi.toNat) % 2 ^ 64 / 2 := by
  rw [UInt64.toNat_div, UInt64.toNat_add]
  rfl

theorem searchAncestor_done (peer : Peer) (bc : Blockchain) {a n : ℕ} {lo hi : UInt64} (hlo : lo.toNat ≤ a) (hhi : a < hi.toNat)
    (hgap : hi.toNat ≤ lo.toNat + 1) (hn : 0 < n) : searchAncestor peer bc n lo hi = .ok (UInt64.ofNat a) := by
  obtain ⟨n, rfl⟩ := Nat.exists_eq_succ_of_ne_zero (Nat.ne_of_gt hn)
  unfold searchAncestor
  rw [if_neg]
  · rw [show a = lo.toNat by omega, UInt64.ofNat_toNat]
  · rw [UInt64.lt_iff_toNat_lt, toNat_succ_of_lt (Nat.lt_of_le_of_lt hlo hhi)]
    omega

/-- **Every step halves the interval**: with fuel for `k` steps and an interval of length at most `2 ^ k` the search fails
at a probe, or returns a height where the chains agree such that they do not at the next. -/
theorem searchAncestor_cases (peer : Peer) (bc : Blockchain) (k : ℕ) : ∀ (lo hi : UInt64), lo.toNat < hi.toNat → hi.toNat ≤ 2 ^ 63 →
    hi.toNat - lo.toNat ≤ 2 ^ k → ∀ n, k < n →
    (∃ mid e, lo.toNat < mid.toNat ∧ mid.toNat < hi.toNat ∧ agreesAt peer bc mid = .error e ∧
      searchAncestor peer bc n lo hi = .error e) ∨
    ∃ r, searchAncestor peer bc n lo hi = .ok r ∧ lo.toNat ≤ r.toNat ∧ r.toNat < hi.toNat ∧
      (r = lo ∨ agreesAt peer bc r = .ok true) ∧ (r + 1 = hi ∨ agreesAt peer bc (r + 1) = .ok false) := by
  have hend : ∀ {lo hi : UInt64} {n : ℕ}, lo.toNat < hi.toNat → hi.toNat ≤ lo.toNat + 1 → 0 < n →
      ∃ r, searchAncestor peer bc n lo hi = .ok r ∧ lo.toNat ≤ r.toNat ∧ r.toNat < hi.toNat ∧
        (r = lo ∨ agreesAt peer bc r = .ok true) ∧ (r + 1 = hi ∨ agreesAt peer bc (r + 1) = .ok false) := by
    intro lo hi n hlt hgap hn
    have hdone := searchAncestor_done peer bc le_rfl hlt hgap hn
    rw [UInt64.ofNat_toNat] at hdone
    exact ⟨lo, hdone, le_rfl, hlt, .inl rfl, .inl (UInt64.toNat_inj.1 (by rw [toNat_succ_of_lt hlt]; omega))⟩
  induction k with
  | zero => exact fun _ _ hlt _ hgap n hn => .inr (hend hlt (by omega) hn)
  | succ k ih =>
    intro lo hi hlt hsmall hgap n hn
    rcases Nat.lt_or_ge (lo.toNat + 1) hi.toNat with hmore | hdone
    · obtain ⟨n, rfl⟩ := Nat.exists_eq_succ_of_ne_zero (Nat.ne_of_gt (Nat.zero_lt_of_lt hn))
      have hmid : ((lo + hi) / 2).toNat = (lo.toNat + hi.toNat) / 2 := by
        rw [toNat_mid, Nat.mod_eq_of_lt (by omega)]
      rw [pow_succ] at hgap
      unfold searchAncestor
      rw [if_pos (by rw [UInt64.lt_iff_toNat_lt, toNat_succ_of_lt hlt]; exact hmore)]
      dsimp only
      cases hag : agreesAt peer bc ((lo + hi) / 2) with
      | error e => exact .inl ⟨_, e, by omega, by omega, hag, rfl⟩
      | ok v =>
        cases v with
        | true =>
          obtain ⟨mid, e, hlo, hhi, hfail, he⟩ | ⟨r, hr, hle, hlt', hsame, hnext⟩ :=
            ih ((lo + hi) / 2) hi (by omega) hsmall (by omega) n (by omega)
          · exact .inl ⟨mid, e, by omega, hhi, hfail, he⟩
          · exact .inr ⟨r, hr, by omega, hlt', .inr (hsame.elim (fun heq => heq ▸ hag) id), hnext⟩
        | false =>
          obtain ⟨mid, e, hlo, hhi, hfail, he⟩ | ⟨r, hr, hle, hlt', hsame, hnext⟩ :=
            ih lo ((lo + hi) / 2) (by omega) (by omega) (by omega) n (by omega)
          · exact .inl ⟨mid, e, hlo, by omega, hfail, he⟩
          · exact .inr ⟨r, hr, hle, by omega, hsame, .inr (hnext.elim (fun heq => heq ▸ hag) id)⟩
    · exact .inr (hend hlt hdone (by omega))

def searchFloor (bc : Blockchain) (head : UInt64) : UInt64 := if bc.retention < head then head - bc.retention else 0

omit [Crypto] in
theorem toNat_searchFloor (bc : Blockchain) (head : UInt64) :
    (searchFloor bc head).toNat = head.toNat - bc.retention.toNat := by
  unfold searchFloor
  split_ifs with hlt
  · exact UInt64.toNat_sub_of_le _ _ (UInt64.le_of_lt hlt)
  · rw [UInt64.not_lt, UInt64.le_iff_toNat_le] at hlt
    rw [Nat.sub_eq_zero_of_le hlt]
    rfl

theorem findCommonAncestor_eq (peer : Peer) (bc : Blockchain) (head : UInt64) : findCommonAncestor peer bc head =
    match agreesAt peer bc (searchFloor bc head) with
    | .error e => .error e
    | .ok false => .ok none
    | .ok true =>
      match searchAncestor peer bc (head.toNat - (searchFloor bc head).toNat + 1) (searchFloor bc head) head with
      | .error e => .error e
      | .ok anc => .ok (some anc) := rfl

/-- Two chains have one block at a height, and not at the next. -/
structure PartsAt (ours theirs : List Block) (a : ℕ) : Prop where
  same : ∃ x, ours.reverse[a]? = some x ∧ theirs.reverse[a]? = some x
  differ : ours.reverse[a + 1]? ≠ theirs.reverse[a + 1]?

section Ancestor

variable {ours : List Block} (h : Honest g peer l) (hB : HashesDiffer B) (hl : ∀ x ∈ l, B x) (hours : ∀ x ∈ ours, B x)
  (hc : Coherent bc) (hcanon : Canonical g bc ours)
include h hB hl hours hc hcanon

theorem agreesAt_ok {n : UInt64} {v : Bool} (hok : agreesAt peer bc n = .ok v) :
    ∃ x y, l.reverse[n.toNat]? = some x ∧ ours.reverse[n.toNat]? = some y ∧ (v = true ↔ x = y) := by
  unfold agreesAt at hok
  cases hat : getHeaderAt peer n with
  | error e => rw [hat] at hok; cases hok
  | ok hd =>
    obtain ⟨x, hx, rfl⟩ := h.headerAt hat
    rw [hat, blockByHeight_of_canonical hc hcanon] at hok
    cases hy : ours.reverse[n.toNat]? with
    | none => rw [hy] at hok; cases hok
    | some y =>
      rw [hy] at hok
      cases hok
      refine ⟨x, y, hx, rfl, ?_⟩
      rw [decide_eq_true_eq]
      have hxl := List.mem_reverse.1 (List.mem_of_getElem? hx)
      have hyo := List.mem_reverse.1 (List.mem_of_getElem? hy)
      exact ⟨fun heq => hB x y (hl x hxl) (hours y hyo) heq, fun heq => by rw [heq]; rfl⟩

/-- **The common ancestor** is where the chains part, inside the retained blocks. -/
theorem findCommonAncestor_ok {head anc : UInt64} (hhead : head.toNat < 2 ^ 63)
    (hdiffer : ours.reverse[head.toNat]? ≠ l.reverse[head.toNat]?) (hok : findCommonAncestor peer bc head = .ok (some anc)) :
    PartsAt ours l anc.toNat ∧ anc.toNat < head.toNat ∧ head.toNat ≤ anc.toNat + bc.retention.toNat := by
  have hfloor := toNat_searchFloor bc head
  have hsame : ∀ {n : UInt64}, agreesAt peer bc n = .ok true →
      ∃ x, ours.reverse[n.toNat]? = some x ∧ l.reverse[n.toNat]? = some x := by
    intro n hag
    obtain ⟨x, y, hx, hy, hv⟩ := agreesAt_ok h hB hl hours hc hcanon hag
    obtain rfl := hv.1 rfl
    exact ⟨x, hy, hx⟩
  rw [findCommonAncestor_eq] at hok
  split at hok
  · cases hok
  · cases hok
  case h_3 hag =>
  have hlt : (searchFloor bc head).toNat < head.toNat := by
    rcases Nat.lt_or_eq_of_le (show (searchFloor bc head).toNat ≤ head.toNat by omega) with hlt | heq
    · exact hlt
    · obtain ⟨x, hy, hx⟩ := hsame hag
      rw [heq] at hx hy
      exact absurd (hy.trans hx.symm) hdiffer
  split at hok
  · cases hok
  case h_2 r hs =>
  cases hok
  obtain ⟨-, e, -, -, -, he⟩ | ⟨r, hr, hle, hlt', hbelow, habove⟩ :=
    searchAncestor_cases peer bc _ _ _ hlt hhead.le Nat.lt_two_pow_self.le _ (Nat.lt_succ_self _)
  · rw [hs] at he
    cases he
  obtain rfl := Except.ok.inj (hs.symm.trans hr)
  refine ⟨⟨?_, ?_⟩, hlt', by omega⟩
  · rcases hbelow with heq | hag'
    · rw [heq]
      exact hsame hag
    · exact hsame hag'
  · rw [← toNat_succ_of_lt hlt']
    rcases habove with heq | hag'
    · rwa [heq]
    · obtain ⟨x, y, hx, hy, hv⟩ := agreesAt_ok h hB hl hours hc hcanon hag'
      intro heq
      rw [hx, hy] at heq
      exact absurd (hv.2 (Option.some.inj heq).symm) (by decide)

end Ancestor

end P2p

end Lxs
