import Lxs.Pool.Runs

/-!
# The ledger of the mining pool

Where the money of found blocks is: in the record of a waiting block, in a balance, or paid out.

* `ledger_conserved`: **balances and payouts add up to the payouts of the blocks that were canonical when they matured**, each
  found block is credited at most once, and one that was not canonical never.
-/

set_option linter.unusedSectionVars false

namespace Lxs.Pool

open Std Lib Lib.FinMap Blockchain

/-! ### The trace -/

def wonIn (trace : List Event) : List FoundBlock :=
  trace.filterMap fun
    | .won fb => some fb
    | _ => none

def maturedIn (trace : List Event) : List FoundBlock :=
  trace.filterMap fun
    | .matured fb _ => some fb
    | _ => none

def orphanedIn (trace : List Event) : List FoundBlock :=
  trace.filterMap fun
    | .orphaned fb _ => some fb
    | _ => none

def owed (l : List FoundBlock) : ℤ := (l.map fun fb => sumOf id fb.payouts).sum

/-! ### Sums of balances -/

theorem sumOf_creditOne (balances : Payouts) (e : Address × ℤ) : sumOf id (creditOne balances e) = sumOf id balances + e.2 := by
  have hput := sumOf_put id balances e.1 (some ((balances[e.1]?).getD 0 + e.2))
  have helim : (balances[e.1]?).elim 0 id = (balances[e.1]?).getD 0 := by cases balances[e.1]? <;> rfl
  rw [helim] at hput
  have hinsert : put balances e.1 (some ((balances[e.1]?).getD 0 + e.2)) = creditOne balances e := rfl
  rw [hinsert] at hput
  simp only [Option.elim, id] at hput
  omega

theorem sumOf_credit (balances payouts : Payouts) : sumOf id (credit balances payouts) = sumOf id balances + sumOf id payouts := by
  have hfold : ∀ (l : List (Address × ℤ)) (b : Payouts), sumOf id (l.foldl creditOne b) = sumOf id b + (l.map Prod.snd).sum := by
    intro l
    induction l with
    | nil => intro b; simp
    | cons e l ih => intro b; rw [List.foldl_cons, ih, sumOf_creditOne, List.map_cons, List.sum_cons, add_assoc]
  exact hfold _ _

variable {balances : Payouts}

theorem sumOf_erase {a : Address} {v : ℤ} (h : balances[a]? = some v) :
    sumOf id (balances.erase a) = sumOf id balances - v := by
  have hput := sumOf_put id balances a none
  rw [h] at hput
  have herase : put balances a none = balances.erase a := rfl
  rw [herase] at hput
  simp only [Option.elim, id] at hput
  omega

/-! ### The books -/

/-- The parts of a ledger that are money. -/
structure Ledger.SameMoney (l l' : Ledger) : Prop where
  balances : l'.balances = l.balances
  pending : l'.pending = l.pending
  totalPaid : l'.totalPaid = l.totalPaid

/-- The ledger and the trace agree: the money, and what has become of each found block. -/
structure Books (l : Ledger) (trace : List Event) : Prop where
  conserved : sumOf id l.balances + l.totalPaid = owed (maturedIn trace)
  accounted : (wonIn trace).Perm (l.pending ++ (maturedIn trace ++ orphanedIn trace))
  canonical : ∀ fb k, .matured fb k ∈ trace → k = some fb.hash
  orphaned : ∀ fb k, .orphaned fb k ∈ trace → k ≠ some fb.hash

variable [Crypto] {g : Genesis} {cfg : Config} {wallet : Wallet} {n n' : Node} {l l' : Ledger} {trace : List Event}

theorem Books.congr (h : Books l trace) (hl : l.SameMoney l') : Books l' trace := by
  refine ⟨?_, ?_, h.canonical, h.orphaned⟩
  · rw [hl.balances, hl.totalPaid]
    exact h.conserved
  · rw [hl.pending]
    exact h.accounted

/-- Notes about shares, offered blocks and payouts do not concern the books. -/
def Event.IsOther : Event → Prop
  | .offered _ => True
  | .share _ _ => True
  | .paid _ _ _ => True
  | _ => False

theorem Books.note (h : Books l trace) {e : Event} (he : e.IsOther) : Books l (e :: trace) := by
  have hmem : ∀ {e' : Event}, ¬e'.IsOther → e' ∈ e :: trace → e' ∈ trace := by
    intro e' hne hmem
    rcases List.mem_cons.1 hmem with rfl | hmem
    · exact absurd he hne
    · exact hmem
  refine ⟨?_, ?_, fun fb k hm => h.canonical fb k (hmem id hm), fun fb k hm => h.orphaned fb k (hmem id hm)⟩
  · cases e <;> first | exact h.conserved | cases he
  · cases e <;> first | exact h.accounted | cases he

theorem Books.won (h : Books l trace) (fb : FoundBlock) (hl : l'.balances = l.balances) (hpaid : l'.totalPaid = l.totalPaid)
    (hpending : l'.pending = l.pending ++ [fb]) : Books l' (.won fb :: trace) := by
  have hmem : ∀ {e : Event}, e ≠ .won fb → e ∈ .won fb :: trace → e ∈ trace := by
    intro e hne hmem
    exact (List.mem_cons.1 hmem).resolve_left hne
  refine ⟨?_, ?_, fun fb' k hm => h.canonical fb' k (hmem (by simp) hm), fun fb' k hm => h.orphaned fb' k (hmem (by simp) hm)⟩
  · rw [hl, hpaid]
    exact h.conserved
  · show (fb :: wonIn trace).Perm (l'.pending ++ (maturedIn trace ++ orphanedIn trace))
    rw [hpending, List.append_assoc]
    exact (h.accounted.cons fb).trans List.perm_middle.symm

section Waiting

variable {fb : FoundBlock} {k : Option Hash} {pre post : List FoundBlock}

theorem perm_of_pending {won done : List FoundBlock} (h : won.Perm ((pre ++ fb :: post) ++ done)) :
    won.Perm ((pre ++ post) ++ fb :: done) := by
  refine h.trans (List.Perm.trans ?_ List.perm_middle.symm)
  rw [← List.cons_append]
  exact List.perm_middle.append_right done

theorem Books.matured (h : Books l trace) (hpending : l.pending = pre ++ fb :: post) (hk : k = some fb.hash) :
    Books { l with balances := credit l.balances fb.payouts, pending := pre ++ post } (.matured fb k :: trace) := by
  have hperm := h.accounted
  rw [hpending] at hperm
  refine ⟨?_, perm_of_pending hperm, fun fb' k' hm => ?_, fun fb' k' hm => ?_⟩
  · have hconserved := h.conserved
    show _ = owed (fb :: maturedIn trace)
    rw [sumOf_credit, owed, List.map_cons, List.sum_cons, ← owed, ← hconserved]
    show _ + _ + l.totalPaid = _
    omega
  · rcases List.mem_cons.1 hm with heq | hm
    · cases heq
      exact hk
    · exact h.canonical fb' k' hm
  · exact h.orphaned fb' k' ((List.mem_cons.1 hm).resolve_left (by simp))

theorem Books.givenUp (h : Books l trace) (hpending : l.pending = pre ++ fb :: post) (hk : k ≠ some fb.hash) :
    Books { l with pending := pre ++ post } (.orphaned fb k :: trace) := by
  have hperm := h.accounted
  rw [hpending] at hperm
  refine ⟨h.conserved, ?_, fun fb' k' hm => ?_, fun fb' k' hm => ?_⟩
  · show (wonIn trace).Perm ((pre ++ post) ++ (maturedIn trace ++ fb :: orphanedIn trace))
    exact (perm_of_pending hperm).trans (List.perm_middle.symm.append_left _)
  · exact h.canonical fb' k' ((List.mem_cons.1 hm).resolve_left (by simp))
  · rcases List.mem_cons.1 hm with heq | hm
    · cases heq
      exact hk
    · exact h.orphaned fb' k' hm

end Waiting

/-! ### The file -/

def Node.Saved (n : Node) : Prop := n.server.cfg.persists = true → (n.file.getD .empty).SameMoney n.server.ledger

theorem saved_saveLocked (n : Node) : n.saveLocked.Saved := by
  unfold Node.saveLocked Node.Saved
  split
  · exact fun _ => ⟨rfl, rfl, rfl⟩
  · rename_i hpersists
    exact fun h => absurd h hpersists

structure Node.Right (cfg : Config) (n : Node) : Prop where
  books : Books n.server.ledger n.trace
  saved : n.Saved
  cfg : n.server.cfg = cfg.fillDefaults

theorem Node.Right.save_if {changed : Bool} (h : n.Right cfg) (hfile : n'.file = n.file) (hcfg : n'.server.cfg = n.server.cfg)
    (hbooks : Books n'.server.ledger n'.trace) (hsame : changed = false → n.server.ledger.SameMoney n'.server.ledger) :
    Node.Right cfg (n'.saveIf changed) := by
  unfold Node.saveIf
  split
  · refine ⟨?_, saved_saveLocked n', ?_⟩
    · rw [server_saveLocked, trace_saveLocked]
      exact hbooks
    · rw [server_saveLocked, hcfg]
      exact h.cfg
  · rename_i hchanged
    obtain ⟨hb, hp, ht⟩ := hsame (by simpa using hchanged)
    refine ⟨hbooks, fun hpersists => ?_, hcfg.trans h.cfg⟩
    obtain ⟨hb', hp', ht'⟩ := h.saved (hcfg ▸ hpersists)
    rw [hfile]
    exact ⟨hb.trans hb', hp.trans hp', ht.trans ht'⟩

/-! ### The calls -/

theorem Node.Right.rebuilt (h : n.Right cfg) (hn : Rebuilt n n') : n'.Right cfg := by
  rw [hn.eq]
  exact ⟨h.books, h.saved, h.cfg⟩

theorem Node.Right.creditShare (h : n.Right cfg) (workID : Hash) (t : Template) (addr : Address) :
    (n.creditShare workID t addr).Right cfg :=
  ⟨(h.books.note (e := .share workID t.hdr.nonce) trivial).congr ⟨rfl, rfl, rfl⟩,
    fun hp => ⟨(h.saved hp).balances, (h.saved hp).pending, (h.saved hp).totalPaid⟩, h.cfg⟩

theorem Node.Right.handled (h : n.Right cfg) {coinbase : Address} {workID : Hash} {nonce : UInt64} {addr : Address}
    {nowMs : Int64} {order : Transaction → MapOrder} {b : Build} {r : Except ShareError Bool}
    (hn : Handled n coinbase workID nonce addr nowMs order b n' r) : n'.Right cfg := by
  cases hn with
  | refused => exact h
  | bad => exact ⟨h.books, h.saved, h.cfg⟩
  | credited => exact h.creditShare ..
  | @raced t _ _ _ _ _ =>
    have hshare := h.creditShare workID (t.tried nonce) addr
    exact ⟨hshare.books.note (e := .offered _) trivial, hshare.saved, hshare.cfg⟩
  | @won t _ _ _ _ _ _ _ _ hm =>
    have hshare := h.creditShare workID (t.tried nonce) addr
    refine Node.Right.rebuilt (n := Node.recordFound _ _) ?_ (rebuilt_rebuildLocked ..)
    rw [hm]
    refine ⟨?_, saved_saveLocked _, ?_⟩
    · rw [Node.recordFound, server_saveLocked, trace_saveLocked]
      exact (hshare.books.note (e := .offered _) trivial).won _ rfl rfl rfl
    · rw [Node.recordFound, server_saveLocked]
      exact hshare.cfg

variable {B : Block → Prop}

theorem canonical_hash {bc : Blockchain} (h : Tree g B bc) (height : UInt64) :
    ((bc.db.canonical[height]?).bind (bc.db.blocks[·]?)).map Block.hash = bc.db.canonical[height]? := by
  cases hk : bc.db.canonical[height]? with
  | none => rfl
  | some k =>
    obtain ⟨chain, hcanon⟩ := h.canon
    obtain ⟨b, hb, -, rfl⟩ := (hcanon.table height k).1 hk
    rw [Option.bind_some, hcanon.stored b hb, Option.map_some]

/-- The books in the middle of the loop over the waiting blocks, with those still to come. -/
structure MatureBooks (l : Ledger) (db : Database) (rest : List FoundBlock) (m : Maturing) : Prop where
  books : Books { l with balances := m.balances, pending := m.kept ++ rest } m.trace
  db : m.bc.db = db
  coherent : Coherent m.bc
  unchanged : m.changed = false → m.balances = l.balances ∧ m.kept ++ rest = l.pending

theorem MatureBooks.step {bc : Blockchain} (htree : Tree g B bc) {rest : List FoundBlock} {m : Maturing}
    {fb : FoundBlock} (h : MatureBooks l bc.db (fb :: rest) m) (confirmations headHeight : UInt64) :
    MatureBooks l bc.db rest (matureOne confirmations headHeight m fb) := by
  have hcanon := canonical_hash htree fb.height
  rw [← h.db] at hcanon
  rcases matureOne_cases confirmations headHeight h.coherent fb with heq | ⟨bc', hcached, ⟨hk, heq⟩ | ⟨hk, heq⟩⟩
  · rw [heq]
    refine ⟨?_, h.db, h.coherent, fun hchanged => ?_⟩
    · rw [List.append_assoc]
      exact h.books
    · rw [List.append_assoc]
      exact h.unchanged hchanged
  · rw [heq]
    exact ⟨h.books.matured rfl (hcanon ▸ hk), hcached.db.trans h.db, hcached.coherent h.coherent, fun hchanged => by cases hchanged⟩
  · rw [heq]
    exact ⟨h.books.givenUp rfl (hcanon ▸ hk), hcached.db.trans h.db, hcached.coherent h.coherent, fun hchanged => by cases hchanged⟩

theorem Node.Right.mature (h : n.Right cfg) (htree : Tree g B n.bc) (headHeight : UInt64) :
    (n.matureLocked headHeight).Right cfg := by
  have hloop : ∀ (rest : List FoundBlock) (m : Maturing), MatureBooks n.server.ledger n.bc.db rest m →
      MatureBooks n.server.ledger n.bc.db [] (rest.foldl (matureOne n.server.cfg.confirmations headHeight) m) := by
    intro rest
    induction rest with
    | nil => exact fun _ hm => hm
    | cons fb rest ih => exact fun m hm => ih _ (hm.step htree _ _)
  have hm : MatureBooks n.server.ledger n.bc.db [] (maturing n headHeight) := hloop n.server.ledger.pending _
    ⟨h.books.congr ⟨rfl, rfl, rfl⟩, rfl, htree.ready.coherent, fun _ => ⟨rfl, rfl⟩⟩
  rw [matureLocked_eq]
  refine h.save_if rfl rfl (hm.books.congr ⟨rfl, (List.append_nil _).symm, rfl⟩) fun hchanged => ?_
  obtain ⟨hb, hp⟩ := hm.unchanged hchanged
  rw [List.append_nil] at hp
  exact ⟨hb, hp, rfl⟩

/-- Entries of a range that are still to come: they are balances, each once. -/
structure Unpaid (entries : List (Address × ℤ)) (balances : Payouts) : Prop where
  due : ∀ e ∈ entries, balances[e.1]? = some e.2
  nodup : (entries.map Prod.fst).Nodup

variable {e : Address × ℤ} {entries : List (Address × ℤ)}

theorem Unpaid.rest (h : Unpaid (e :: entries) balances) :
    Unpaid entries balances :=
  ⟨fun e' he' => h.due e' (List.mem_cons_of_mem _ he'), (List.nodup_cons.1 h.nodup).2⟩

theorem Unpaid.erase (h : Unpaid (e :: entries) balances) :
    Unpaid entries (balances.erase e.1) := by
  obtain ⟨hnotin, hnodup⟩ := List.nodup_cons.1 h.nodup
  refine ⟨fun e' he' => ?_, hnodup⟩
  rw [ExtTreeMap.getElem?_erase, if_neg, h.rest.due e' he']
  intro heq
  exact hnotin (List.mem_map.2 ⟨e', he', (LawfulEqCmp.compare_eq_iff_eq.1 heq).symm⟩)

/-- The books in the middle of the loop over the balances, with those still to come. -/
structure PayBooks (l : Ledger) (entries : List (Address × ℤ)) (p : Paying) : Prop where
  books : Books { l with balances := p.balances, totalPaid := p.totalPaid } p.trace
  unpaid : Unpaid entries p.balances
  unchanged : p.changed = false → p.balances = l.balances ∧ p.totalPaid = l.totalPaid

theorem PayBooks.step {snap : State} {chainID : UInt64} {payoutMin : ℤ} {o : MapOrder} {p p' : Paying} (h : PayBooks l (e :: entries) p)
    (hpaid : Paid wallet snap chainID payoutMin o p e p') : PayBooks l entries p' := by
  cases hpaid with
  | stays => exact ⟨h.books, h.unpaid.rest, h.unchanged⟩
  | refused => exact ⟨h.books, h.unpaid.rest, h.unchanged⟩
  | out =>
    have hbooks : Books { l with balances := p.balances.erase e.1, totalPaid := p.totalPaid + e.2 } p.trace := by
      refine ⟨?_, h.books.accounted, h.books.canonical, h.books.orphaned⟩
      have hconserved := h.books.conserved
      dsimp only at hconserved ⊢
      rw [sumOf_erase (h.unpaid.due e List.mem_cons_self)]
      omega
    exact ⟨hbooks.note trivial, h.unpaid.erase, fun hchanged => by cases hchanged⟩

theorem Range.unpaid (r : Range) (m : Payouts) : Unpaid (r.order m) m := by
  refine ⟨fun e he => ?_, ?_⟩
  · exact ExtTreeMap.mem_toList_iff_getElem?_eq_some.1 ((r.perm m).mem_iff.1 he)
  · exact ((r.perm m).map Prod.fst).nodup_iff.2 (nodup_keys m)

theorem Node.Right.payout (h : n.Right cfg) {r : Range} {o : MapOrder} {p : Paying}
    (hp : n.startPayout wallet (r.order n.server.ledger.balances) o = some p) :
    Node.Right cfg ((afterPayout n p).saveIf p.changed) := by
  obtain ⟨snap, -, hall⟩ := startPayout_some hp
  have hpaid : PayBooks n.server.ledger [] p :=
    payAll_induction (I := PayBooks n.server.ledger) (fun _ _ _ _ hI hone => hI.step hone) hall
      ⟨h.books.congr ⟨rfl, rfl, rfl⟩, r.unpaid _, fun _ => ⟨rfl, rfl⟩⟩
  refine h.save_if rfl rfl (hpaid.books.congr ⟨rfl, rfl, rfl⟩) fun hchanged => ?_
  obtain ⟨hb, ht⟩ := hpaid.unchanged hchanged
  exact ⟨hb, rfl, ht⟩

theorem Node.Right.restart (h : n.Right cfg) (hpersists : cfg.persists = true) (bc : Blockchain) (mp : Mempool) :
    Node.Right cfg ⟨bc, mp, newServer cfg n.file, n.file, n.trace⟩ := by
  have hledger : (newServer cfg n.file).ledger = n.file.getD .empty := if_pos hpersists
  obtain ⟨hb, hp, ht⟩ := h.saved (by rw [h.cfg]; exact hpersists)
  refine ⟨?_, fun _ => ?_, rfl⟩
  · rw [hledger]
    exact h.books.congr ⟨hb.symm, hp.symm, ht.symm⟩
  · rw [hledger]
    exact ⟨rfl, rfl, rfl⟩

/-- The calls of the server, of other parts of the node and the ends of the process between them: not the crashes in a call. -/
def Op.IsCall : Op → Prop
  | .crash _ _ _ _ _ => False
  | _ => True

def Op.Persists (cfg : Config) : Op → Prop
  | .restart _ _ => cfg.persists = true
  | _ => True

theorem Node.Right.stepped (h : n.Right cfg) (htree : Tree g B n.bc) {op : Op} (hcall : op.IsCall)
    (hfile : op.Persists cfg) (hn : Stepped g cfg wallet n op n') : n'.Right cfg := by
  cases hn with
  | share hshare => exact h.handled hshare
  | mature headHeight => exact h.mature htree headHeight
  | payout hp => exact h.payout hp
  | refresh head b => exact h.rebuilt (rebuilt_refresh ..)
  | @insert w _ _ _ _ =>
    refine ⟨?_, h.saved, h.cfg⟩
    cases w.block? with
    | none => exact h.books
    | some b => exact h.books.note trivial
  | mempool => exact ⟨h.books, h.saved, h.cfg⟩
  | restart => exact h.restart hfile _ _
  | crash => cases hcall

/-! ### A block is found once

A template is built on the head, and once a block is found on it every template is dropped and the head is heavier than its
parent. Heads never get lighter, so no later template is built on that parent. -/

/-- The parents of found blocks are lighter than the head and than the parents of all templates, and no block was found
twice. -/
structure Rounds (g : Genesis) (B : Block → Prop) (n : Node) : Prop where
  head : ∀ b, B b → b.hash ∈ (wonIn n.trace).map FoundBlock.hash →
    weight g B b.header.parentHash < weight g B n.bc.head.hash
  template : ∀ (k : Hash) (t : Template), n.server.templates[k]? = some t → ∀ b, B b → b.hash ∈ (wonIn n.trace).map FoundBlock.hash →
    weight g B b.header.parentHash < weight g B t.hdr.parentHash
  nodup : ((wonIn n.trace).map FoundBlock.hash).Nodup

section Rounds

variable {B : Block → Prop} {ss : List State}

theorem Rounds.mono (h : Rounds g B n) (hwon : wonIn n'.trace = wonIn n.trace)
    (hhead : weight g B n.bc.head.hash ≤ weight g B n'.bc.head.hash)
    (htemplates : ∀ (k : Hash) (t' : Template), n'.server.templates[k]? = some t' →
      (∃ (k : Hash) (t : Template), n.server.templates[k]? = some t ∧ t'.hdr.parentHash = t.hdr.parentHash) ∨
        t'.hdr.parentHash = n.bc.head.hash) : Rounds g B n' := by
  refine ⟨fun b hb hmem => ?_, fun k t' ht' b hb hmem => ?_, by rw [hwon]; exact h.nodup⟩
  · rw [hwon] at hmem
    exact Nat.lt_of_lt_of_le (h.head b hb hmem) hhead
  · rw [hwon] at hmem
    rcases htemplates k t' ht' with ⟨k, t, ht, heq⟩ | heq
    · rw [heq]
      exact h.template k t ht b hb hmem
    · rw [heq]
      exact h.head b hb hmem

variable {coinbase : Address} {b : Build} {t : Template}

theorem rebuilt_template {headMoved : Bool} {k : Hash}
    (h : (n.rebuildLocked coinbase headMoved b).server.templates[k]? = some t) :
    (headMoved = false ∧ n.server.templates[k]? = some t) ∨ t.hdr.parentHash = n.bc.head.hash := by
  rcases getElem?_rebuildLocked h with hold | ⟨c, hc, -, rfl⟩
  · exact .inl hold
  · exact .inr (parentHash_buildUnsealed hc)

theorem template_insert {templates : ExtTreeMap Hash Template} {workID k : Hash} {t u t' : Template}
    (ht : templates[workID]? = some t) (hu : u.hdr.parentHash = t.hdr.parentHash)
    (h : (templates.insert workID u)[k]? = some t') :
    ∃ (k : Hash) (t : Template), templates[k]? = some t ∧ t'.hdr.parentHash = t.hdr.parentHash := by
  rw [ExtTreeMap.getElem?_insert] at h
  split at h
  · cases h
    exact ⟨workID, t, ht, hu⟩
  · exact ⟨k, t', h, rfl⟩

theorem Rounds.won (h : Rounds g B n) (hB : HashesDiffer B) {k : Hash} (ht : n.server.templates[k]? = some t)
    {blk : Block} (hblk : B blk) (hparent : blk.header.parentHash = t.hdr.parentHash) {fb : FoundBlock} (hfb : fb.hash = blk.hash)
    (htrace : wonIn n'.trace = fb :: wonIn n.trace) (hhead : weight g B n.bc.head.hash ≤ weight g B n'.bc.head.hash)
    (hheavier : weight g B blk.header.parentHash < weight g B n'.bc.head.hash)
    (htemplates : ∀ (k : Hash) (t' : Template), n'.server.templates[k]? = some t' → t'.hdr.parentHash = n'.bc.head.hash) :
    Rounds g B n' := by
  have hnew : ∀ b, B b → b.hash ∈ (wonIn n'.trace).map FoundBlock.hash →
      weight g B b.header.parentHash < weight g B n'.bc.head.hash := by
    intro b hb hmem
    rw [htrace, List.map_cons, List.mem_cons] at hmem
    rcases hmem with heq | hmem
    · obtain rfl := hB b blk hb hblk (heq.trans hfb)
      exact hheavier
    · exact Nat.lt_of_lt_of_le (h.head b hb hmem) hhead
  refine ⟨hnew, fun k t' ht' b hb hmem => ?_, ?_⟩
  · rw [htemplates k t' ht']
    exact hnew b hb hmem
  · rw [htrace, List.map_cons, List.nodup_cons, hfb]
    refine ⟨fun hmem => ?_, h.nodup⟩
    -- found before, its parent would be lighter than the parent of the template, which it is
    have hlt := h.template k t ht blk hblk hmem
    rw [hparent] at hlt
    exact absurd hlt (Nat.lt_irrefl _)

theorem Rounds.handled (h : Rounds g B n) (hnode : Blockchain.Node g B n.bc) (hB : HashesDiffer B)
    {workID : Hash} {nonce : UInt64} {addr : Address} {nowMs : Int64} {order : Transaction → MapOrder}
    {res : Except ShareError Bool} (hn : Handled n coinbase workID nonce addr nowMs order b n' res)
    (hoffered : ∀ b, .offered b ∈ n'.trace → B b) (hhead : weight g B n.bc.head.hash ≤ weight g B n'.bc.head.hash) :
    Rounds g B n' := by
  cases hn with
  | refused => exact h
  | @bad t ht => exact h.mono rfl le_rfl fun k t' ht' => .inl (template_insert (u := t.tried nonce) ht rfl ht')
  | @credited t ht _ =>
    exact h.mono rfl le_rfl fun k t' ht' => .inl (template_insert
      (u := { t.tried nonce with seen := t.seen.insert nonce }) ht rfl ht')
  | @raced t _ _ ht _ _ =>
    exact h.mono rfl hhead fun k t' ht' => .inl (template_insert
      (u := { t.tried nonce with seen := t.seen.insert nonce }) ht rfl ht')
  | @won t bc mp r m ht _ hinsert _ hm =>
    obtain ⟨htrace, hcached, htemplates⟩ := recordFound_rebuild m (foundBlock m.server (t.tried nonce)) coinbase b
    generalize Node.rebuildLocked _ coinbase true b = n' at *
    have hblk : B (t.tried nonce).block := by
      refine hoffered _ ?_
      rw [htrace, hm]
      exact List.mem_cons_of_mem _ List.mem_cons_self
    obtain ⟨hnode', hheavier⟩ := node_committed hnode hB hblk hinsert
    have hbc : m.bc = bc := by rw [hm]; rfl
    rw [← hbc] at hnode' hheavier
    have hhead' : n'.bc.head = m.bc.head := (hcached hnode'.tree.ready.coherent).head
    have hwon : wonIn n'.trace = foundBlock m.server (t.tried nonce) :: wonIn n.trace := by
      rw [htrace, hm]
      rfl
    refine h.won hB ht hblk rfl rfl hwon hhead ?_ fun k t' ht' => ?_
    · rw [hhead']
      exact hheavier
    · obtain ⟨c, hc, -, rfl⟩ := htemplates k t' ht'
      rw [hhead']
      exact parentHash_buildUnsealed hc

theorem trace_refresh (n : Node) (coinbase : Address) (head : Hash) (b : Build) : (n.refresh coinbase head b).trace = n.trace := by
  rw [(rebuilt_refresh n coinbase head b).eq]

theorem refreshed_template {head : Hash} {k : Hash}
    (h : (n.refresh coinbase head b).server.templates[k]? = some t) :
    n.server.templates[k]? = some t ∨ t.hdr.parentHash = n.bc.head.hash := by
  unfold Node.refresh at h
  split at h
  · exact (rebuilt_template h).imp_left And.right
  · split_ifs at h
    · exact (rebuilt_template h).imp_left And.right
    · exact (rebuilt_template h).imp_left And.right
    · exact .inl h

theorem Rounds.stepped (h : Rounds g B n) (hnode : Blockchain.Node g B n.bc) (hB : HashesDiffer B) {op : Op}
    (hcall : op.IsCall) (hn : Stepped g cfg wallet n op n') (hoffered : ∀ b, .offered b ∈ n'.trace → B b) : Rounds g B n' := by
  have hhead := weight_step hnode hB (hn.chain hnode.tree.ready).1 hoffered
  have hold : ∀ (k : Hash) (t' : Template), n.server.templates[k]? = some t' →
      (∃ (k : Hash) (t : Template), n.server.templates[k]? = some t ∧ t'.hdr.parentHash = t.hdr.parentHash) ∨
        t'.hdr.parentHash = n.bc.head.hash :=
    fun k t' ht' => .inl ⟨k, t', ht', rfl⟩
  cases hn with
  | share hshare => exact h.handled hnode hB hshare hoffered hhead
  | mature headHeight =>
    rw [matureLocked_eq] at hhead ⊢
    refine h.mono ?_ hhead fun k t' ht' => hold k t' ?_
    · rw [trace_saveIf]
      exact filterMap_mature _ _ (fun _ _ => rfl) (fun _ _ => rfl) _ hnode.tree.ready.coherent
    · rw [server_saveIf] at ht'
      exact ht'
  | payout hp =>
    obtain ⟨snap, -, hall⟩ := startPayout_some hp
    refine h.mono ?_ hhead fun k t' ht' => hold k t' ?_
    · rw [trace_saveIf]
      exact filterMap_payAll (fun _ _ _ => rfl) hall
    · rw [server_saveIf] at ht'
      exact ht'
  | refresh head b =>
    refine h.mono (by rw [trace_refresh]) hhead fun k t' ht' => ?_
    exact (refreshed_template ht').imp_left fun ht => ⟨k, t', ht, rfl⟩
  | @insert w _ _ _ _ =>
    refine h.mono ?_ hhead hold
    cases w.block? <;> rfl
  | mempool => exact h.mono rfl hhead hold
  | restart => exact h.mono rfl hhead fun k t' ht' => by cases ht'
  | crash => cases hcall

end Rounds

/-! ### Whole runs -/

theorem right_fresh (g : Genesis) (cfg : Config) (opts : Options) (mp : Mempool) : (freshNode g cfg opts mp).Right cfg := by
  have hledger : (newServer cfg none).ledger = .empty := by
    unfold newServer
    dsimp only
    split <;> rfl
  refine ⟨?_, fun _ => ?_, rfl⟩
  · show Books (newServer cfg none).ledger []
    rw [hledger]
    refine ⟨?_, .refl _, fun fb k hm => absurd hm List.not_mem_nil, fun fb k hm => absurd hm List.not_mem_nil⟩
    show sumOf id (∅ : Payouts) + 0 = 0
    rw [sumOf_empty, add_zero]
  · show (Ledger.empty).SameMoney (newServer cfg none).ledger
    rw [hledger]
    exact ⟨rfl, rfl, rfl⟩

theorem rounds_fresh (g : Genesis) (B : Block → Prop) (cfg : Config) (opts : Options) (mp : Mempool) :
    Rounds g B (freshNode g cfg opts mp) :=
  ⟨fun b _ hmem => absurd hmem List.not_mem_nil, fun k t ht => (by cases ht), List.nodup_nil⟩

variable {opts : Options} {mp : Mempool} {ops : List Op}

/-- **No money is lost or made, whatever the calls, the reorgs and the restarts**: the balances and what was paid are the
payouts of the blocks that were canonical when they matured; each of those was found by the pool and is credited once. -/
theorem ledger_conserved (hrun : runPool g cfg wallet opts mp ops = .ok n) (hnc : NoCollision g cfg wallet opts mp ops n)
    (hops : ∀ op ∈ ops, op.IsCall ∧ op.Persists cfg) :
    sumOf id n.server.ledger.balances + n.server.ledger.totalPaid = owed (maturedIn n.trace) ∧
    ((maturedIn n.trace).map FoundBlock.hash).Nodup ∧
    (∀ fb k, .matured fb k ∈ n.trace → .won fb ∈ n.trace ∧ k = some fb.hash) ∧
    (∀ fb k, .orphaned fb k ∈ n.trace → k ≠ some fb.hash) := by
  obtain ⟨-, hright, hrounds⟩ := runPool_induction (I := fun m => m.Right cfg ∧ Rounds g (· ∈ offeredIn g n.trace) m) hrun hnc
    ⟨right_fresh .., rounds_fresh ..⟩ (by
      rintro op m m' hop hm hm' htrace ⟨hright, hrounds⟩ hstep
      obtain ⟨hcall, hfile⟩ := hops op hop
      exact ⟨hright.stepped hm.node.tree hcall hfile hstep, hrounds.stepped hm.node hnc.hashes hcall hstep fun b hb =>
        mem_offeredIn (htrace.subset hb)⟩)
  have hbooks := hright.books
  have hsub : ∀ fb ∈ maturedIn n.trace, fb ∈ wonIn n.trace := fun fb hfb =>
    hbooks.accounted.mem_iff.2 (List.mem_append_right _ (List.mem_append_left _ hfb))
  refine ⟨hbooks.conserved, ?_, fun fb k hm => ⟨?_, hbooks.canonical fb k hm⟩, hbooks.orphaned⟩
  · -- a block that was found once is credited once
    have hnodup := (hbooks.accounted.map FoundBlock.hash).nodup_iff.1 hrounds.nodup
    rw [List.map_append, List.map_append] at hnodup
    exact (List.nodup_append.1 (List.nodup_append.1 hnodup).2.1).1
  · obtain ⟨e, he, hsome⟩ := List.mem_filterMap.1 (hsub fb (List.mem_filterMap.2 ⟨_, hm, rfl⟩))
    cases e with
    | won fb' =>
      cases hsome
      exact he
    | _ => cases hsome

def paidRun : List Op := twoFound ++ [.payout .sorted .sorted, .restart forkOptions (Mempool.new 1)]

omit [Crypto] in
theorem ledger_conserved_twoFound : ∃ n,
    @runPool miningCrypto transferGenesis miningCfg miningWallet forkOptions (Mempool.new 1) paidRun = .ok n ∧
    @NoCollision miningCrypto transferGenesis miningCfg miningWallet forkOptions (Mempool.new 1) paidRun n ∧
    n.server.ledger.totalPaid = miningPot ∧ owed (maturedIn n.trace) = miningPot ∧
    sumOf id n.server.ledger.balances + n.server.ledger.totalPaid = owed (maturedIn n.trace) ∧
    ((maturedIn n.trace).map FoundBlock.hash).Nodup ∧
    (∀ fb k, .matured fb k ∈ n.trace → .won fb ∈ n.trace ∧ k = some fb.hash) ∧
    (∀ fb k, .orphaned fb k ∈ n.trace → k ≠ some fb.hash) := by
  obtain ⟨n, hrun, hn⟩ := exists_ok (p := fun n => @decide (@HashesDiffer miningCrypto (· ∈ @offeredIn miningCrypto transferGenesis n.trace) ∧
      n.server.ledger.totalPaid = miningPot ∧ owed (maturedIn n.trace) = miningPot) inferInstance)
    (show ((@runPool miningCrypto transferGenesis miningCfg miningWallet forkOptions (Mempool.new 1) paidRun).toOption.any _) = true
      by decide +kernel)
  obtain ⟨hhashes, hpaid, howed⟩ := of_decide_eq_true hn
  have hnc : @NoCollision miningCrypto transferGenesis miningCfg miningWallet forkOptions (Mempool.new 1) paidRun n :=
    @NoCollision.mk miningCrypto _ _ _ _ _ _ _ hhashes (by decide +kernel)
  have hops : ∀ op ∈ paidRun, op.IsCall ∧ op.Persists miningCfg := by
    intro op hop
    simp only [paidRun, twoFound, mine, List.cons_append, List.nil_append, List.mem_cons, List.not_mem_nil, or_false] at hop
    rcases hop with rfl | rfl | rfl | rfl | rfl | rfl <;> first | exact ⟨True.intro, True.intro⟩ | exact ⟨True.intro, rfl⟩
  exact ⟨n, hrun, hnc, hpaid, howed, @ledger_conserved miningCrypto _ _ _ _ _ _ _ hrun hnc hops⟩

end Lxs.Pool
