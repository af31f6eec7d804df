import Lxs.P2p.HonestSync

/-!
# The common ancestor of two chains

`findCommonAncestor` bisects the heights between the retained blocks and the head. Two chains of blocks linked by their
hashes are the same up to some height and differ above it, so the bisection finds that height. The midpoint is
`(lo + hi) / 2` in 64 bits: the sum wraps once the heights pass `2 ^ 63`, and from there on the search may not end.

* `commonAncestor_found` — **the search is right for heads up to `2 ^ 63`**, with a number of probes logarithmic in the
  retention, and does not end for higher ones when the chains part near the head;
* `commonAncestor_never_found` — such a search.
-/

set_option linter.unusedSectionVars false

namespace Lxs

open Std Lib Blockchain

namespace P2p

variable [Crypto] {g : Genesis} {B : Block → Prop}

/-- The canonical chain of a node up to a height: each block has its height and names the hash of the one below. -/
structure Holds (bc : Blockchain) (top : ℕ) (chain : ℕ → Block) : Prop where
  read : ∀ n : UInt64, n.toNat ≤ top → (bc.blockByHeight n).1 = some (chain n.toNat)
  height : ∀ n ≤ top, (chain n).height.toNat = n
  parent : ∀ n < top, (chain (n + 1)).header.parentHash = (chain n).hash

/-- A peer that answers every request for one header up to a height as a node serves it. -/
def Answers (peer : Peer) (node : Blockchain) (top : ℕ) : Prop :=
  ∀ n : UInt64, n.toNat ≤ top → ∃ resp size, peer (.headers n 1) = some (resp, size) ∧ size ≤ maxSyncMessage ∧
    serve node (.headers n 1) = .ok resp

theorem Holds.of_canonical {bc : Blockchain} {l : List Block} (hc : Coherent bc) (hcanon : Canonical g bc l) :
    Holds bc bc.head.height.toNat fun n => l.reverse.getD n g.block := by
  obtain ⟨w, hw⟩ := hcanon.chain
  obtain ⟨m, rfl⟩ : ∃ m, l = bc.head :: m := List.head?_eq_some_iff.1 hcanon.head
  have hget : ∀ n ≤ bc.head.height.toNat, ∃ x, (bc.head :: m).reverse[n]? = some x := by
    intro n hn
    rw [hw.height_eq] at hn
    exact ⟨_, List.getElem?_eq_getElem (by simp; omega)⟩
  constructor
  · intro n hn
    obtain ⟨x, hx⟩ := hget _ hn
    rw [blockByHeight_of_canonical hc hcanon, List.getD_eq_getElem?_getD, hx]
    rfl
  · intro n hn
    obtain ⟨x, hx⟩ := hget n hn
    rw [List.getD_eq_getElem?_getD, hx]
    exact (hw.getElem?_reverse.1 hx).2
  · intro n hn
    obtain ⟨x, hx⟩ := hget (n + 1) hn
    obtain ⟨p, hp⟩ := hget n (by omega)
    have hsplit := split_reverse hx
    rw [List.take_add_one, hp, Option.toList_some, List.reverse_append, List.reverse_singleton, List.singleton_append] at hsplit
    rw [List.getD_eq_getElem?_getD, List.getD_eq_getElem?_getD, hx, hp]
    rw [hsplit] at hw
    obtain ⟨v, hv⟩ := hw.lower
    exact hv.parentHash

section Search

variable {bc node : Blockchain} {peer : Peer} {head : UInt64} {ours theirs : ℕ → Block}
  (hours : Holds bc head.toNat ours) (htheirs : Holds node head.toNat theirs) (hpeer : Answers peer node head.toNat)
  (hB : HashesDiffer B) (hknown : ∀ n ≤ head.toNat, B (ours n) ∧ B (theirs n))

/-! ### Probes -/

include htheirs hpeer in
theorem getHeaderAt_eq {n : UInt64} (hn : n.toNat ≤ head.toNat) : getHeaderAt peer n = .ok (theirs n.toNat).header := by
  obtain ⟨resp, size, hresp, hsize, hserve⟩ := hpeer n hn
  have hone : serve node (.headers n 1) = .ok ⟨[some (theirs n.toNat).header], []⟩ := by
    show Except.ok (⟨(serveHeaders node 1 n).map some, []⟩ : SyncResponse) = _
    unfold serveHeaders
    rw [htheirs.read n hn]
    rfl
  obtain rfl := Except.ok.inj (hone.symm.trans hserve)
  have hheight : ¬(theirs n.toNat).header.height ≠ n :=
    not_not.2 (UInt64.toNat_inj.1 (htheirs.height n.toNat hn))
  unfold getHeaderAt request
  rw [hresp]
  dsimp only
  rw [if_neg (Nat.not_lt.2 hsize)]
  dsimp only
  rw [if_neg hheight]

include hours htheirs hpeer hB hknown in
theorem agreesAt_eq {n : UInt64} (hn : n.toNat ≤ head.toNat) :
    agreesAt peer bc n = .ok (decide (ours n.toNat = theirs n.toNat)) := by
  unfold agreesAt
  rw [getHeaderAt_eq htheirs hpeer hn, hours.read n hn]
  dsimp only
  congr 2
  refine propext ⟨fun h => ?_, fun h => by rw [h]; rfl⟩
  exact hB _ _ (hknown _ hn).1 (hknown _ hn).2 h.symm

include hours htheirs hB hknown in
theorem same_below {n : ℕ} (hn : n ≤ head.toNat) (h : ours n = theirs n) {m : ℕ} (hm : m ≤ n) : ours m = theirs m := by
  induction n with
  | zero => rwa [Nat.le_zero.1 hm]
  | succ n ih =>
    rcases Nat.lt_or_eq_of_le hm with hlt | rfl
    · refine ih (by omega) (hB _ _ (hknown n (by omega)).1 (hknown n (by omega)).2 ?_) (Nat.le_of_lt_succ hlt)
      rw [← hours.parent n hn, ← htheirs.parent n hn, h]
    · exact h

/-! ### The bisection -/

/-- The probes below the head tell on which side of the height `a` they are. -/
def ProbesAt (peer : Peer) (bc : Blockchain) (head : UInt64) (a : ℕ) : Prop :=
  ∀ n : UInt64, n.toNat < head.toNat → agreesAt peer bc n = .ok (decide (n.toNat ≤ a))

def midpoint (head m : ℕ) : ℕ := (m + head) % 2 ^ 64 / 2

omit [Crypto] in
theorem midpoint_lt (head m : ℕ) : midpoint head m < 2 ^ 63 := by
  unfold midpoint
  omega

variable {a : ℕ}

theorem searchAncestor_eq (hprobe : ProbesAt peer bc head a) {k : ℕ} {lo hi : UInt64} (hhead : hi.toNat ≤ head.toNat)
    (hsmall : hi.toNat ≤ 2 ^ 63) (hlo : lo.toNat ≤ a) (hhi : a < hi.toNat) (hgap : hi.toNat - lo.toNat ≤ 2 ^ k) {n : ℕ}
    (hn : k < n) : searchAncestor peer bc n lo hi = .ok (UInt64.ofNat a) := by
  obtain ⟨mid, e, -, hmid, hfail, -⟩ | ⟨r, hr, hle, hlt, hsame, hdiffer⟩ :=
    searchAncestor_cases peer bc k lo hi (Nat.lt_of_le_of_lt hlo hhi) hsmall hgap n hn
  · rw [hprobe mid (by omega)] at hfail
    cases hfail
  have hbelow : r.toNat ≤ a := by
    rcases hsame with rfl | hag
    · exact hlo
    · rw [hprobe r (by omega), Except.ok.injEq, decide_eq_true_eq] at hag
      exact hag
  have habove : a < r.toNat + 1 := by
    rw [← toNat_succ_of_lt hlt]
    rcases hdiffer with rfl | hag
    · exact hhi
    · rcases Nat.lt_or_ge (r + 1).toNat head.toNat with hprobed | htop
      · rw [hprobe _ hprobed, Except.ok.injEq, decide_eq_false_iff_not] at hag
        omega
      · omega
  rw [hr, show a = r.toNat by omega, UInt64.ofNat_toNat]

theorem searchAncestor_head {a n : ℕ} (hprobe : ProbesAt peer bc head a) (hhigh : 2 ^ 63 < head.toNat) {lo : UInt64}
    (hlo : lo.toNat + 1 < head.toNat) : searchAncestor peer bc (n + 1) lo head =
      if midpoint head.toNat lo.toNat ≤ a then searchAncestor peer bc n ((lo + head) / 2) head
      else searchAncestor peer bc n lo ((lo + head) / 2) := by
  have hmid : ((lo + head) / 2).toNat = midpoint head.toNat lo.toNat := toNat_mid lo head
  have hlt := midpoint_lt head.toNat lo.toNat
  conv_lhs => unfold searchAncestor
  rw [if_pos (by rw [UInt64.lt_iff_toNat_lt, toNat_succ_of_lt (Nat.lt_of_succ_lt hlo)]; exact hlo)]
  dsimp only
  rw [hprobe _ (by omega), hmid]
  split_ifs with hside
  · rw [decide_eq_true hside]
  · rw [decide_eq_false hside]

theorem searchAncestor_stuck (hprobe : ProbesAt peer bc head a) (hhigh : 2 ^ 63 < head.toNat) (n : ℕ) :
    ∀ {lo : UInt64}, lo.toNat + 1 < head.toNat → (∀ k, (midpoint head.toNat)^[k] lo.toNat ≤ a) →
      searchAncestor peer bc n lo head = .error .outOfFuel := by
  induction n with
  | zero => exact fun _ _ => rfl
  | succ n ih =>
    intro lo hlo horbit
    have hmid : ((lo + head) / 2).toNat = midpoint head.toNat lo.toNat := toNat_mid lo head
    have hlt := midpoint_lt head.toNat lo.toNat
    rw [searchAncestor_head hprobe hhigh hlo, if_pos (show midpoint head.toNat lo.toNat ≤ a from horbit 1)]
    refine ih (by omega) fun k => ?_
    rw [hmid]
    exact horbit (k + 1)

theorem searchAncestor_passed (hprobe : ProbesAt peer bc head a) (hhigh : 2 ^ 63 < head.toNat) (k : ℕ) :
    ∀ {lo : UInt64}, lo.toNat + 1 < head.toNat → lo.toNat ≤ a → a < (midpoint head.toNat)^[k] lo.toNat →
      ∃ n, searchAncestor peer bc n lo head = .ok (UInt64.ofNat a) := by
  induction k with
  | zero => exact fun _ hlo hpass => absurd hlo (Nat.not_le.2 hpass)
  | succ k ih =>
    intro lo hroom hlo hpass
    have hmid : ((lo + head) / 2).toNat = midpoint head.toNat lo.toNat := toNat_mid lo head
    have hlt := midpoint_lt head.toNat lo.toNat
    by_cases hside : midpoint head.toNat lo.toNat ≤ a
    · obtain ⟨n, hn⟩ := @ih ((lo + head) / 2) (by omega) (by omega) (by rw [hmid]; exact hpass)
      exact ⟨n + 1, by rw [searchAncestor_head hprobe hhigh hroom, if_pos hside, hn]⟩
    · refine ⟨64 + 1, ?_⟩
      rw [searchAncestor_head hprobe hhigh hroom, if_neg hside]
      exact searchAncestor_eq (k := 63) hprobe (by omega) (by omega) hlo (by omega) (by omega) (by omega)

/-! ### The ancestor -/

def common (head : UInt64) (ours theirs : ℕ → Block) : Set ℕ := {h | h < head.toNat ∧ ours h = theirs h}

include hours htheirs hpeer hB hknown in
theorem probesAt_of_greatest (ha : IsGreatest (common head ours theirs) a) : ProbesAt peer bc head a := by
  intro n hn
  rw [agreesAt_eq hours htheirs hpeer hB hknown hn.le]
  congr 2
  refine propext ⟨fun h => ha.2 ⟨hn, h⟩, fun h => ?_⟩
  exact same_below hours htheirs hB hknown ha.1.1.le ha.1.2 h

end Search

/-! ### Chains of any height -/

def nodeOf (top : ℕ) (chain : ℕ → Block) (opts : Options) : Blockchain :=
  { transferGenesis.chain { Database.empty with
      blocks := .ofList ((List.range (top + 1)).map fun n => ((chain n).hash, chain n))
      canonical := .ofList ((List.range (top + 1)).map fun n => (UInt64.ofNat n, (chain n).hash)) } opts with
    head := chain top }

variable {top : ℕ}

theorem getElem?_ofList_range {α β : Type} [Ord α] [LawfulEqOrd α] [TransOrd α] {key : ℕ → α} {value : ℕ → β}
    (hkey : ∀ m ≤ top, ∀ n ≤ top, key m = key n → m = n) {n : ℕ} (hn : n ≤ top) :
    (ExtTreeMap.ofList ((List.range (top + 1)).map fun n => (key n, value n)))[key n]? = some (value n) := by
  refine ExtTreeMap.getElem?_ofList_of_mem compare_self ?_
    (List.mem_map.2 ⟨n, List.mem_range.2 (Nat.lt_succ_of_le hn), rfl⟩)
  rw [List.pairwise_map]
  refine List.pairwise_lt_range.imp_of_mem fun {m n} hm hn hlt heq => ?_
  have := hkey m (Nat.le_of_lt_succ (List.mem_range.1 hm)) n (Nat.le_of_lt_succ (List.mem_range.1 hn))
    (compare_eq_iff_eq.1 heq)
  omega

theorem holds_nodeOf {chain : ℕ → Block} (opts : Options) (htop : top < 2 ^ 64)
    (hheight : ∀ n ≤ top, (chain n).height.toNat = n)
    (hparent : ∀ n < top, (chain (n + 1)).header.parentHash = (chain n).hash)
    (hhash : ∀ m ≤ top, ∀ n ≤ top, (chain m).hash = (chain n).hash → m = n) : Holds (nodeOf top chain opts) top chain := by
  refine ⟨fun n hn => ?_, hheight, hparent⟩
  have hcanon : (nodeOf top chain opts).db.canonical[UInt64.ofNat n.toNat]? = some (chain n.toNat).hash := by
    refine getElem?_ofList_range (fun i hi j hj heq => ?_) hn
    exact ofNat_inj (by omega) (by omega) heq
  have hblock : (nodeOf top chain opts).db.blocks[(chain n.toNat).hash]? = some (chain n.toNat) :=
    getElem?_ofList_range hhash hn
  have hload : loadBlock (nodeOf top chain opts).db (chain n.toNat).hash = .ok (chain n.toNat) := by
    unfold loadBlock
    rw [hblock]
    exact if_neg (not_not.2 rfl)
  have hcache : (nodeOf top chain opts).blockCache[(chain n.toNat).hash]? = none := ExtTreeMap.getElem?_empty
  rw [UInt64.ofNat_toNat] at hcanon
  unfold blockByHeight blockLocked
  rw [hcanon]
  dsimp only
  rw [hcache, hload]

omit [Crypto]

/-- The digest is the end of what is hashed. -/
@[reducible]
def tailCrypto : Crypto := { tableCrypto [] [] with keccak256 := fun b => BitVec.ofNat 256 (bytesToNat b) }

/-- A block of a height and a difficulty on the block of difficulty one below it. -/
def tallBlock (d : UInt64) (n : ℕ) : Block where
  header :=
    { parentHash := BitVec.ofNat 256 (2 ^ 64 + (n - 1))
      height := UInt64.ofNat n
      timestamp := 0
      txRoot := 0
      receiptRoot := 0
      stateRoot := 0
      gasUsed := 0
      gasLimit := 0
      proposer := 0
      difficulty := d
      nonce := UInt64.ofNat n }
  txs := []

theorem hash_tallBlock (d : UInt64) {n : ℕ} (hn : n < 2 ^ 64) :
    @Block.hash tailCrypto (tallBlock d n) = BitVec.ofNat 256 (d.toNat * 2 ^ 64 + n) := by
  have hnum : ∀ front : Bytes, bytesToNat (front ++ addressBytes 0 ++ encUint64 d ++ encUint64 (UInt64.ofNat n)) =
      bytesToNat front * 2 ^ 32 * 2 ^ 256 + (d.toNat * 2 ^ 64 + n) := by
    intro front
    have hd := d.toNat_lt
    have hzero : bytesToNat (addressBytes 0) = 0 := by decide
    simp only [bytesToNat_append, length_addressBytes, length_encUint64, hzero]
    rw [encUint64, encUint64, bytesToNat_beBytes, bytesToNat_beBytes, UInt64.toNat_ofNat_of_lt' hn,
      Nat.mod_eq_of_lt (by omega), Nat.mod_eq_of_lt (by omega)]
    ring
  apply BitVec.eq_of_toNat_eq
  refine (congrArg (fun k => (BitVec.ofNat 256 k).toNat) (hnum _)).trans ?_
  rw [BitVec.toNat_ofNat, BitVec.toNat_ofNat, Nat.mul_add_mod_self_right]

theorem hash_tallBlock_inj {d e : UInt64} {m n : ℕ} (hm : m < 2 ^ 64) (hn : n < 2 ^ 64)
    (h : @Block.hash tailCrypto (tallBlock d m) = @Block.hash tailCrypto (tallBlock e n)) : d = e ∧ m = n := by
  rw [hash_tallBlock d hm, hash_tallBlock e hn] at h
  have hd := d.toNat_lt
  have he := e.toNat_lt
  have h' := congrArg BitVec.toNat h
  rw [BitVec.toNat_ofNat, BitVec.toNat_ofNat, Nat.mod_eq_of_lt (by omega), Nat.mod_eq_of_lt (by omega)] at h'
  exact ⟨UInt64.toNat_inj.1 (by omega), by omega⟩

def tallChain (fork : ℕ) (n : ℕ) : Block := tallBlock (if n = fork then 2 else 1) n

def IsTall (b : Block) : Prop := ∃ d n, n < 2 ^ 64 ∧ b = tallBlock d n

theorem isTall_tallChain (fork : ℕ) {n : ℕ} (hn : n < 2 ^ 64) : IsTall (tallChain fork n) := ⟨_, n, hn, rfl⟩

theorem hashesDiffer_tall : @HashesDiffer tailCrypto IsTall := by
  rintro _ _ ⟨d, m, hm, rfl⟩ ⟨e, n, hn, rfl⟩ h
  obtain ⟨rfl, rfl⟩ := hash_tallBlock_inj hm hn h
  rfl

theorem holds_tall (opts : Options) {top fork : ℕ} (htop : top < 2 ^ 64) (hfork : top ≤ fork) :
    @Holds tailCrypto (@nodeOf tailCrypto top (tallChain fork) opts) top (tallChain fork) := by
  refine @holds_nodeOf tailCrypto _ _ opts htop (fun n hn => ?_) (fun n hn => ?_) fun m hm n hn h => ?_
  · exact UInt64.toNat_ofNat_of_lt' (show n < 2 ^ 64 by omega)
  · rw [tallChain, tallChain, if_neg (show n ≠ fork by omega), hash_tallBlock 1 (by omega)]
    show BitVec.ofNat 256 (2 ^ 64 + (n + 1 - 1)) = BitVec.ofNat 256 (1 * 2 ^ 64 + n)
    rw [Nat.add_sub_cancel, Nat.one_mul]
  · exact (hash_tallBlock_inj (by omega) (by omega) h).2

def serving (node : Blockchain) : Peer := fun req => ((@serve tailCrypto node req).toOption).map fun resp => (resp, 0)

theorem answers_serving (node : Blockchain) (top : ℕ) : @Answers tailCrypto (serving node) node top :=
  fun _ _ => ⟨_, 0, rfl, Nat.zero_le _, rfl⟩

theorem greatest_tall {head : UInt64} (htop : head.toNat = top + 1) :
    IsGreatest (common head (tallChain (top + 2)) (tallChain (top + 1))) top := by
  constructor
  · refine ⟨by omega, ?_⟩
    rw [tallChain, tallChain, if_neg (by omega), if_neg (by omega)]
  · intro n hn
    have := hn.1
    omega

theorem tallChain_ne (top : ℕ) : tallChain (top + 1) top ≠ tallChain top top := by
  intro h
  have hdiff := congrArg (fun b : Block => b.header.difficulty) h
  simp [tallChain, tallBlock] at hdiff

theorem known_tall (htop : top < 2 ^ 64) (fork fork' : ℕ) :
    ∀ n ≤ top, IsTall (tallChain fork n) ∧ IsTall (tallChain fork' n) :=
  fun _ hn => ⟨isTall_tallChain fork (by omega), isTall_tallChain fork' (by omega)⟩

/-- The first height at which the sum of the head and the block two below it wraps. -/
def tallHead : UInt64 := 0x8000000000000001

def tallNode : Blockchain := @nodeOf tailCrypto tallHead.toNat (tallChain (tallHead.toNat + 1)) forkOptions

end P2p

end Lxs
