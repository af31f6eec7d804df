import Lxs.P2p.HonestSync

/-!
# Penalties in a sync

Of all that an honest peer can answer, two things are scored against it: on the fork path a header that is dated ahead of
our clock, which the direct path lets pass, and a block of a branch whose lower states were pruned while an upper one is
still in memory.

* `P2p.sync_spares_honest` — **in every sync whose rounds meet neither, no penalty is given**;
* `P2p.sync_blames_skew` — a peer on a fork with a clock ahead of ours is penalised.
-/

set_option linter.unusedSectionVars false

namespace Lxs.P2p

open Std Lib Blockchain

variable [Crypto] {g : Genesis} {B : Block → Prop} {bc : Blockchain} {l : List Block} {peer : Peer} {s : Syncing} {r : Readings}

/-! ### Rounds -/

/-- A round that gives no penalty for the chain `l` of a peer: the chains are shorter than half the heights, no state is
missing below a state of the peer's branch, and if the chains part below our head, inside the retained blocks, the headers
from there on are not dated ahead of the clock. -/
structure Clear (g : Genesis) (l : List Block) (s : Syncing) (r : Readings) : Prop where
  short : s.bc.head.height.toNat < 2 ^ 63
  unbroken : Unbroken s.bc l
  timely : ∀ ours a, Canonical g s.bc ours → PartsAt ours l a → a < s.bc.head.height.toNat →
    s.bc.head.height.toNat ≤ a + s.bc.retention.toNat → timely r.second 0 (batch l (a + 1)) = true

def Unharmed (g : Genesis) (B : Block → Prop) (s : Syncing) (res : Except Syncing Syncing) : Prop :=
  ∃ s', (res = .ok s' ∨ res = .error s') ∧ s'.penalties = s.penalties ∧ Node g B s'.bc

theorem checkHeaderChain_batch (h : Honest g peer l) {a : UInt64} (ha : a.toNat < 2 ^ 63) {p : Block}
    (hp : l.reverse[a.toNat]? = some p) {b : Block} {bs : List Block} (hb : batch l (a.toNat + 1) = b :: bs) (now : ℕ → Int64) :
    checkHeaderChain bc b.header (bs.map Block.header) (a + 1) now =
      match (bc.blockByHeight a).1 with
      | none => .error .headersUnlinked
      | some anchor =>
        if p.hash ≠ anchor.hash then .error .headersUnlinked
        else if timely now 0 (b :: bs) then .ok () else .error .futureHeader := by
  obtain ⟨w, hw⟩ := h.valid.chain
  have hsucc : (a + 1).toNat = a.toNat + 1 := by
    rw [UInt64.toNat_add, show (1 : UInt64).toNat = 1 from rfl, Nat.mod_eq_of_lt (by omega)]
  have hsuf := batch_below hp
  rw [hb] at hsuf
  have hbp : b :: p :: (l.reverse.take a.toNat).reverse <:+ l := by
    rw [List.reverse_cons, List.append_assoc, List.singleton_append] at hsuf
    exact (List.suffix_append ..).trans hsuf
  obtain ⟨v, hv⟩ := (h.valid.of_suffix hbp).chain
  have hindex : l.reverse[a.toNat + 1]? = some b := by
    have hhead : (batch l (a.toNat + 1))[0]? = some b := by rw [hb]; rfl
    simpa [batch, maxHeadersPerRequest] using hhead
  have hheight : b.header.height = a + 1 := by
    rw [← UInt64.toNat_inj, hsucc]
    exact (hw.getElem?_reverse.1 hindex).2
  unfold checkHeaderChain
  rw [if_neg (not_not.2 hheight), show a + 1 - 1 = a by simp, hv.parentHash, ← List.map_cons]
  cases (bc.blockByHeight a).1 with
  | none => rfl
  | some anchor => simp only [checkHeaders_valid h.valid hsuf (.inl rfl)]

theorem stored_below (hnode : Node g B bc) (hB : HashesDiffer B) {ours : List Block} (hcanon : Canonical g bc ours) {p : Block}
    (hp : p ∈ ours) {m : List Block} {w : World} (hchain : Chain g (p :: m) w) (hm : ∀ x ∈ p :: m, B x) : Stored bc.db (p :: m) := by
  obtain ⟨pre, post, rfl⟩ := List.append_of_mem hp
  obtain ⟨v, hv⟩ := hcanon.chain
  obtain ⟨v', hv'⟩ := hv.lower pre
  have hpost : ∀ x ∈ post, B x := fun x hx => hnode.tree.known_of_canonical hcanon x (by simp [hx])
  obtain rfl := hchain.tail_unique hB hv' (fun x hx => hm x (List.mem_cons_of_mem _ hx)) hpost
  exact fun x hx => hcanon.stored x (List.mem_append_right _ hx)

section Rounds

variable (h : Honest g peer l) (hB : HashesDiffer B) (hl : ∀ x ∈ l, B x) (hnode : Node g B s.bc)
include h hB hl hnode

theorem pullBodies_spares (hun : Unbroken s.bc l) {ours : List Block} (hcanon : Canonical g s.bc ours) {a : ℕ} {p : Block}
    (hp : l.reverse[a]? = some p) (hpo : p ∈ ours) :
    Unharmed g B s (pullBodies peer s r ((batch l (a + 1)).map Block.header)) := by
  unfold pullBodies
  rcases h.bodies hB hl (a + 1) with ⟨e, he, hne⟩ | ⟨k, hk⟩
  · rw [he]
    cases e with
    | bodyMismatch => exact absurd rfl hne
    | _ => exact ⟨s, .inr rfl, rfl, hnode⟩
  rw [hk]
  have hsuf := batch_below hp
  have hpsuf : p :: (l.reverse.take a).reverse <:+ l := (List.suffix_append ..).trans hsuf
  obtain ⟨w, hw⟩ := (h.valid.of_suffix hpsuf).chain
  have hst := stored_below hnode hB hcanon hpo hw fun x hx => hl x (hpsuf.subset hx)
  have hsuf' : ((batch l (a + 1)).take k).reverse ++ p :: (l.reverse.take a).reverse <:+ l := by
    obtain ⟨rest, hrest⟩ := (List.take_prefix k (batch l (a + 1))).reverse
    refine List.IsSuffix.trans ⟨rest, ?_⟩ hsuf
    rw [← List.append_assoc, hrest]
  have hres : ∀ res, insertBodies r.insert 0 0 s.bc (((batch l (a + 1)).take k).map Block.toWire) = res →
      res.2 ≠ .faulty ∧ Node g B res.1 := fun res hres => hres ▸ insertBodies_follows hB h.valid hl hnode hun hsuf' hst
  dsimp only
  generalize insertBodies r.insert 0 0 s.bc (((batch l (a + 1)).take k).map Block.toWire) = res at hres
  obtain ⟨hfault, hnode'⟩ := hres res rfl
  obtain ⟨bc', ended⟩ := res
  cases ended with
  | faulty => exact absurd rfl hfault
  | deferred => exact ⟨_, .inr rfl, rfl, hnode'⟩
  | tried n =>
    cases n with
    | zero => exact ⟨_, .inr rfl, rfl, hnode'⟩
    | succ n => exact ⟨_, .inl rfl, rfl, hnode'⟩

theorem batch_of_headers {a : UInt64} (ha : a.toNat < 2 ^ 63) {first : Header} {rest : List Header}
    (hok : getHeaders peer (a + 1) = .ok (first :: rest)) :
    ∃ b bs p, batch l (a.toNat + 1) = b :: bs ∧ first = b.header ∧ rest = bs.map Block.header ∧ l.reverse[a.toNat]? = some p := by
  have hsucc : (a + 1).toNat = a.toNat + 1 := by
    rw [UInt64.toNat_add, show (1 : UInt64).toNat = 1 from rfl, Nat.mod_eq_of_lt (by omega)]
  have hs := h.headers hok
  rw [hsucc] at hs
  cases hb : batch l (a.toNat + 1) with
  | nil =>
    rw [hb] at hs
    cases hs
  | cons b bs =>
    rw [hb] at hs
    obtain ⟨rfl, rfl⟩ := List.cons.inj hs
    have hlen : a.toNat < l.reverse.length := by
      by_contra hge
      unfold batch at hb
      rw [List.drop_eq_nil_of_le (by omega)] at hb
      cases hb
    exact ⟨b, bs, _, rfl, rfl, rfl, List.getElem?_eq_getElem hlen⟩

theorem pullFork_spares (hclear : Clear g l s r) {ours : List Block} (hcanon : Canonical g s.bc ours)
    (hdiffer : ours.reverse[s.bc.head.height.toNat]? ≠ l.reverse[s.bc.head.height.toNat]?) :
    Unharmed g B s (pullFork peer s r) := by
  have hc := hnode.tree.ready.coherent
  have hstop : Unharmed g B s (.error s) := ⟨s, .inr rfl, rfl, hnode⟩
  unfold pullFork
  cases hfind : findCommonAncestor peer s.bc s.bc.head.height with
  | error e => exact hstop
  | ok found =>
    cases found with
    | none => exact hstop
    | some anc =>
      obtain ⟨hparts, hlt, hdepth⟩ := findCommonAncestor_ok h hB hl (hnode.tree.known_of_canonical hcanon) hc hcanon
        hclear.short hdiffer hfind
      have hanc : anc.toNat < 2 ^ 63 := hlt.trans hclear.short
      dsimp only
      cases hget : getHeaders peer (anc + 1) with
      | error e => exact hstop
      | ok hs =>
        cases hs with
        | nil => exact hstop
        | cons first rest =>
          obtain ⟨b, bs, p, hb, rfl, rfl, hp⟩ := batch_of_headers h hB hl hnode hanc hget
          obtain ⟨x, hx, hx'⟩ := hparts.same
          obtain rfl := Option.some.inj (hp.symm.trans hx')
          have htimely := hclear.timely ours anc.toNat hcanon hparts hlt hdepth
          rw [hb] at htimely
          dsimp only
          rw [checkHeaderChain_batch h hanc hp hb, blockByHeight_of_canonical hc hcanon, hx]
          dsimp only
          rw [if_neg (not_not.2 rfl), htimely, if_pos rfl]
          dsimp only
          rw [← List.map_cons, ← hb]
          exact pullBodies_spares h hB hl hnode hclear.unbroken hcanon hp (List.mem_reverse.1 (List.mem_of_getElem? hx))

theorem syncRound_spares (hclear : Clear g l s r) : Unharmed g B s (syncRound peer s r) := by
  have hc := hnode.tree.ready.coherent
  have hstop : Unharmed g B s (.error s) := ⟨s, .inr rfl, rfl, hnode⟩
  obtain ⟨ours, hcanon⟩ := hnode.tree.canon
  obtain ⟨w, hw⟩ := hcanon.chain
  have hheadmem : s.bc.head ∈ ours := List.mem_of_mem_head? hcanon.head
  have hhead : ours.reverse[s.bc.head.height.toNat]? = some s.bc.head := hw.getElem?_reverse.2 ⟨hheadmem, rfl⟩
  unfold syncRound
  dsimp only
  cases hget : getHeaders peer (s.bc.head.height + 1) with
  | error e => exact hstop
  | ok hs =>
    cases hs with
    | nil => exact hstop
    | cons first rest =>
      obtain ⟨b, bs, p, hb, rfl, rfl, hp⟩ := batch_of_headers h hB hl hnode hclear.short hget
      dsimp only
      rw [checkHeaderChain_batch h hclear.short hp hb, blockByHeight_of_canonical hc hcanon, hhead]
      dsimp only
      split_ifs with hlink htimely
      · -- the peer is on another branch
        refine pullFork_spares h hB hl hnode hclear hcanon fun heq => hlink ?_
        rw [hhead, hp] at heq
        rw [Option.some.inj heq]
      · dsimp only
        rw [← List.map_cons, ← hb]
        have hpB := hl p (List.mem_reverse.1 (List.mem_of_getElem? hp))
        obtain rfl := hB p s.bc.head hpB (hnode.tree.known_of_canonical hcanon _ hheadmem) (not_not.1 hlink)
        exact pullBodies_spares h hB hl hnode hclear.unbroken hcanon hp hheadmem
      · exact hstop

end Rounds

/-! ### Whole syncs -/

theorem run_spares (h : Honest g peer l) (hB : HashesDiffer B) (hl : ∀ x ∈ l, B x) (rounds : List Readings) :
    ∀ {s : Syncing}, Node g B s.bc → Run.Meets (syncRound peer) (Clear g l) s rounds →
      Unharmed g B s (Run.run (syncRound peer) s rounds) := by
  induction rounds with
  | nil => exact fun {s} hnode _ => ⟨s, .inl rfl, rfl, hnode⟩
  | cons r rounds ih =>
    intro s hnode hmeets
    obtain ⟨s', hres | hres, hpen, hnode'⟩ := syncRound_spares h hB hl hnode hmeets.1
    · rw [Run.run_cons hres]
      obtain ⟨s'', hres', hpen', hnode''⟩ := ih hnode' (hmeets.tail hres)
      exact ⟨s'', hres', hpen'.trans hpen, hnode''⟩
    · refine ⟨s', .inr ?_, hpen, hnode'⟩
      simp only [Run.run, hres]

/-- **A sync never penalises an honest peer whose rounds are clear.** Our chain comes from any run that adopts no restored
state, the peer answers, if at all, from one canonical chain of valid blocks, and the clock is read anew for every header
and every block. -/
theorem sync_spares_honest (hg : g.validate = .ok ()) {opts : Options} {ops : List Op}
    (hfresh : Run.Meets (Blockchain.exec g) AdoptsFresh (fresh g opts) ops) (hrun : runNode g opts ops = .ok bc)
    (h : Honest g peer l) (hB : HashesDiffer fun x => x ∈ offered g ops ∨ x ∈ l) (banned : Bool) (rounds : List Readings)
    (hmeets : Run.Meets (syncRound peer) (Clear g l) ⟨bc, 0⟩ rounds) :
    ∃ s, (syncFrom peer banned ⟨bc, 0⟩ rounds = .ok s ∨ syncFrom peer banned ⟨bc, 0⟩ rounds = .error s) ∧ s.penalties = 0 := by
  obtain ⟨bc', hrun', -, hnode⟩ := Node.of_run hg hB (fun b hb => .inl hb) hfresh
  obtain rfl := Except.ok.inj (hrun.symm.trans hrun')
  unfold syncFrom
  cases banned with
  | true => exact ⟨⟨bc, 0⟩, .inr rfl, rfl⟩
  | false =>
    obtain ⟨s, hres, hpen, -⟩ := run_spares h hB (fun x hx => .inr hx) rounds hnode hmeets
    exact ⟨s, hres, hpen⟩

/-- A node as a peer: it answers all it can, and no answer is too long. -/
def served (theirs : Blockchain) : Peer := fun req =>
  match serve theirs req with
  | .error _ => none
  | .ok resp => some (resp, 4096)

theorem honest_of_run (hg : g.validate = .ok ()) {opts : Options} {ops : List Op} (hB : HashesDiffer (· ∈ offered g ops))
    (hfresh : Run.Meets (Blockchain.exec g) AdoptsFresh (fresh g opts) ops) (hrun : runNode g opts ops = .ok bc)
    (hblocks : (List.range (bc.head.height.toNat + 1)).map (fun i => (bc.blockByHeight (UInt64.ofNat i)).1) = l.reverse.map some)
    (hvalid : Valid g l) (hshort : l.length < 2 ^ 63) : Honest g (served bc) l := by
  obtain ⟨bc', hrun', -, hnode⟩ := Node.of_run hg hB (fun b hb => hb) hfresh
  obtain rfl := Except.ok.inj (hrun.symm.trans hrun')
  obtain ⟨m, hcanon⟩ := hnode.tree.canon
  have hm := hcanon.eq_of_blocks hnode.tree.ready.coherent hblocks
  rw [List.reverse_reverse] at hm
  subst hm
  refine ⟨⟨bc, hnode.tree.ready.coherent, hcanon, fun req resp size hans => ?_⟩, hvalid, hshort⟩
  unfold served at hans
  cases hserve : serve bc req with
  | error e =>
    rw [hserve] at hans
    cases hans
  | ok resp' =>
    rw [hserve] at hans
    cases hans
    rfl

def still (now : Int64) : Readings := ⟨fun _ => now, fun _ => now, fun _ => now⟩

/-- The peer is two blocks ahead on the left branch, and we are one block ahead on the right one. -/
def leftRun : List Op := [offer transferBlock, offer forkLeft2]

def leftChain : List Block := [forkLeft2, transferBlock, @Genesis.block forkCrypto transferGenesis]

omit [Crypto] in
theorem honest_left : ∃ theirs, @runNode forkCrypto transferGenesis forkOptions leftRun = .ok theirs ∧
    @Honest forkCrypto transferGenesis (@served forkCrypto theirs) leftChain := by
  have hvalid := transferGenesis_valid
  have hfree : @HashesDiffer forkCrypto (· ∈ @offered forkCrypto transferGenesis leftRun) := by decide +kernel
  have hfresh : Run.Meets (@Blockchain.exec forkCrypto transferGenesis) (@AdoptsFresh forkCrypto)
      (@fresh forkCrypto transferGenesis forkOptions) leftRun := by decide +kernel
  obtain ⟨theirs, hrun, hblocks⟩ := Run.exists_of_map (show (@runNode forkCrypto transferGenesis forkOptions leftRun).map (fun bc =>
      (List.range (bc.head.height.toNat + 1)).map fun i => (@Blockchain.blockByHeight forkCrypto bc (UInt64.ofNat i)).1) =
      .ok (leftChain.reverse.map some) by decide +kernel)
  have hworked : @Valid forkCrypto transferGenesis leftChain := @valid_of_isSome forkCrypto _ _ (by decide +kernel)
  exact ⟨theirs, hrun, @honest_of_run forkCrypto _ _ _ hvalid _ _ hfree hfresh hrun hblocks hworked (by decide)⟩

omit [Crypto] in
theorem clear_right {bc : Blockchain} (hheight : bc.head.height = 1)
    (hstates : ∀ x ∈ [forkLeft2, transferBlock], (bc.states[@Block.hash forkCrypto x]?).isSome = false) :
    @Clear forkCrypto transferGenesis leftChain ⟨bc, 0⟩ (still 1000000) := by
  refine @Clear.mk forkCrypto _ _ _ _ ?_ ?_ ?_
  · show bc.head.height.toNat < 2 ^ 63
    rw [hheight]
    decide
  · intro x y m hsuf _ hst
    have hx : x ∈ [forkLeft2, transferBlock] := by
      rcases List.suffix_cons_iff.1 hsuf with heq | hsuf
      · exact (List.cons.inj heq).1 ▸ List.mem_cons_self
      rcases List.suffix_cons_iff.1 hsuf with heq | hsuf
      · exact (List.cons.inj heq).1 ▸ List.mem_cons_of_mem _ List.mem_cons_self
      · exact absurd hsuf.length_le (by simp)
    exact absurd hst (by simp [hstates x hx])
  · intro ours a _ _ ha _
    replace ha : a < bc.head.height.toNat := ha
    rw [hheight] at ha
    obtain rfl : a = 0 := Nat.lt_one_iff.1 ha
    decide +kernel

omit [Crypto] in
theorem sync_spares_honest_fork : ∃ theirs bc, @runNode forkCrypto transferGenesis forkOptions leftRun = .ok theirs ∧
    @runNode forkCrypto transferGenesis forkOptions [offer forkRight1] = .ok bc ∧
    @Honest forkCrypto transferGenesis (@served forkCrypto theirs) leftChain ∧
    Run.Meets (@syncRound forkCrypto (@served forkCrypto theirs)) (@Clear forkCrypto transferGenesis leftChain) ⟨bc, 0⟩ [still 1000000] ∧
    ∃ s, (@syncFrom forkCrypto (@served forkCrypto theirs) false ⟨bc, 0⟩ [still 1000000] = .ok s ∨
      @syncFrom forkCrypto (@served forkCrypto theirs) false ⟨bc, 0⟩ [still 1000000] = .error s) ∧ s.penalties = 0 := by
  have hvalid := transferGenesis_valid
  have hfree : @HashesDiffer forkCrypto (· ∈ @offered forkCrypto transferGenesis [offer forkRight1] ++ leftChain) := by
    decide +kernel
  have hfresh : Run.Meets (@Blockchain.exec forkCrypto transferGenesis) (@AdoptsFresh forkCrypto)
      (@fresh forkCrypto transferGenesis forkOptions) [offer forkRight1] := by decide +kernel
  obtain ⟨bc, hrun, hfacts⟩ := Run.exists_of_map (show (@runNode forkCrypto transferGenesis forkOptions [offer forkRight1]).map (fun bc =>
      (bc.head.height, [forkLeft2, transferBlock].map fun x => (bc.states[@Block.hash forkCrypto x]?).isSome)) =
      .ok (1, [false, false]) by decide +kernel)
  obtain ⟨theirs, htheirs, honest⟩ := honest_left
  obtain ⟨hheight, hstates⟩ := Prod.mk.inj hfacts
  have hclear := @clear_right bc hheight (by simpa using hstates)
  have hmeets : Run.Meets (@syncRound forkCrypto (@served forkCrypto theirs)) (@Clear forkCrypto transferGenesis leftChain)
      ⟨bc, 0⟩ [still 1000000] := ⟨hclear, by split <;> trivial⟩
  exact ⟨theirs, bc, htheirs, hrun, honest, hmeets, @sync_spares_honest forkCrypto _ _ _ _ hvalid _ _ hfresh hrun honest
    (fun x y hx hy => hfree x y (List.mem_append.2 hx) (List.mem_append.2 hy)) false _ hmeets⟩

def penaltiesOf : Except Syncing Syncing → Option ℕ
  | .error s => some s.penalties
  | .ok _ => none

omit [Crypto] in
/-- **The clock of an honest peer counts against it on a fork.** The peer's second block is dated four minutes after its
first. Our clock shows the time of the first: a node that holds it lets the second pass, and a node on the other branch
penalises the peer. -/
theorem sync_blames_skew : ∃ theirs, @runNode forkCrypto transferGenesis forkOptions leftRun = .ok theirs ∧
    @Honest forkCrypto transferGenesis (@served forkCrypto theirs) leftChain ∧
    (@runNode forkCrypto transferGenesis forkOptions [offer transferBlock]).map (fun bc =>
      penaltiesOf (@syncFrom forkCrypto (@served forkCrypto theirs) false ⟨bc, 0⟩ [still 240000])) = .ok (some 0) ∧
    (@runNode forkCrypto transferGenesis forkOptions [offer forkRight1]).map (fun bc =>
      penaltiesOf (@syncFrom forkCrypto (@served forkCrypto theirs) false ⟨bc, 0⟩ [still 240000])) = .ok (some 1) := by
  obtain ⟨theirs, htheirs, honest⟩ := honest_left
  have hdirect : ((@runNode forkCrypto transferGenesis forkOptions leftRun).map fun theirs =>
      (@runNode forkCrypto transferGenesis forkOptions [offer transferBlock]).map fun bc =>
        penaltiesOf (@syncFrom forkCrypto (@served forkCrypto theirs) false ⟨bc, 0⟩ [still 240000])) = .ok (.ok (some 0)) := by
    decide +kernel
  have hfork : ((@runNode forkCrypto transferGenesis forkOptions leftRun).map fun theirs =>
      (@runNode forkCrypto transferGenesis forkOptions [offer forkRight1]).map fun bc =>
        penaltiesOf (@syncFrom forkCrypto (@served forkCrypto theirs) false ⟨bc, 0⟩ [still 240000])) = .ok (.ok (some 1)) := by
    decide +kernel
  rw [htheirs] at hdirect hfork
  exact ⟨theirs, htheirs, honest, Except.ok.inj hdirect, Except.ok.inj hfork⟩

end Lxs.P2p
