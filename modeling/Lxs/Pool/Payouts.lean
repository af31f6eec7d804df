import Lxs.Core.Indexes
import Lxs.Mempool.Admission
import Lxs.Pool.Ledger

/-!
# Payouts and crashes

A payout leaves the process when it is added to the mempool, and leaves the ledger file when the loop over the balances is
done and the ledger saved.

* `payouts_within_credit`: **as long as no process ends between the two, the payouts to a worker that were mined are at most
  what was credited to it**, over all reorgs and restarts;
* `crash_pays_twice`: a worker is paid twice after a process has ended there.
-/

set_option linter.unusedSectionVars false

namespace Lxs.Pool

open Std Lib Lib.FinMap Blockchain

/-! ### The accounts of a worker -/

def paidIn (trace : List Event) : List (Address × ℤ × Transaction) :=
  trace.filterMap fun
    | .paid a v tx => some (a, v, tx)
    | _ => none

def paidTo (a : Address) (trace : List Event) : ℤ := (((paidIn trace).filter fun e => e.1 = a).map fun e => e.2.1).sum

def creditedTo (a : Address) (trace : List Event) : ℤ := ((maturedIn trace).map fun fb => (fb.payouts[a]?).getD 0).sum

/-- The value of the payouts to an address among the transactions of a chain. -/
def minedTo (a : Address) (trace : List Event) (l : List Block) : ℤ :=
  (((l.flatMap Block.txs).filter fun tx => decide (∃ e ∈ paidIn trace, e.1 = a ∧ e.2.2 = tx)).map fun tx => tx.value.getD 0).sum

def Valued (trace : List Event) : Prop := ∀ e ∈ paidIn trace, e.2.2.value = some e.2.1 ∧ 0 ≤ e.2.1

theorem minedTo_le (a : Address) {trace : List Event} (hvalued : Valued trace) {l : List Block}
    (hnodup : (l.flatMap Block.txs).Nodup) : minedTo a trace l ≤ paidTo a trace := by
  have hpaid : paidTo a trace = (((((paidIn trace).filter fun e => e.1 = a).map fun e => e.2.2)).map fun tx => tx.value.getD 0).sum := by
    rw [paidTo, List.map_map]
    refine congrArg List.sum (List.map_congr_left fun e he => ?_)
    rw [Function.comp_apply, (hvalued e (List.mem_filter.1 he).1).1, Option.getD_some]
  have hsub : ((l.flatMap Block.txs).filter fun tx => decide (∃ e ∈ paidIn trace, e.1 = a ∧ e.2.2 = tx)) ⊆
      ((paidIn trace).filter fun e => e.1 = a).map fun e => e.2.2 := by
    intro tx htx
    obtain ⟨-, hmem⟩ := List.mem_filter.1 htx
    obtain ⟨e, he, hea, rfl⟩ := of_decide_eq_true hmem
    exact List.mem_map.2 ⟨e, List.mem_filter.2 ⟨he, by simpa using hea⟩, rfl⟩
  obtain ⟨m, hperm, hm⟩ := (hnodup.filter _).subperm hsub
  rw [hpaid, minedTo, ← (hperm.map _).sum_eq]
  refine (hm.map _).sum_le_sum fun v hv => ?_
  obtain ⟨tx, htx, rfl⟩ := List.mem_map.1 hv
  obtain ⟨e, he, rfl⟩ := List.mem_map.1 htx
  obtain ⟨hvalue, hnonneg⟩ := hvalued e (List.mem_filter.1 he).1
  rw [hvalue]
  exact hnonneg

theorem le_minedTo {a : Address} {trace : List Event} (hvalued : Valued trace) {l : List Block} {txs : List Transaction}
    (hnodup : txs.Nodup) (htxs : ∀ tx ∈ txs, tx ∈ l.flatMap Block.txs ∧ ∃ e ∈ paidIn trace, e.1 = a ∧ e.2.2 = tx) :
    (txs.map fun tx => tx.value.getD 0).sum ≤ minedTo a trace l := by
  have hsub : txs ⊆ (l.flatMap Block.txs).filter fun tx => decide (∃ e ∈ paidIn trace, e.1 = a ∧ e.2.2 = tx) :=
    fun tx htx => List.mem_filter.2 ⟨(htxs tx htx).1, decide_eq_true (htxs tx htx).2⟩
  obtain ⟨m, hperm, hm⟩ := hnodup.subperm hsub
  rw [minedTo, ← (hperm.map _).sum_eq]
  refine (hm.map _).sum_le_sum fun v hv => ?_
  obtain ⟨tx, htx, rfl⟩ := List.mem_map.1 hv
  obtain ⟨e, he, -, rfl⟩ := of_decide_eq_true (List.mem_filter.1 htx).2
  obtain ⟨hvalue, hnonneg⟩ := hvalued e he
  rw [hvalue]
  exact hnonneg

/-! ### Pointwise balances -/

theorem getD_creditOne (balances : Payouts) (e : Address × ℤ) (a : Address) :
    ((creditOne balances e)[a]?).getD 0 = (balances[a]?).getD 0 + if e.1 = a then e.2 else 0 := by
  unfold creditOne
  rw [ExtTreeMap.getElem?_insert]
  split
  · rename_i heq
    obtain rfl := LawfulEqCmp.compare_eq_iff_eq.1 heq
    rw [if_pos rfl, Option.getD_some]
  · rename_i hne
    rw [if_neg fun h => hne (by rw [h, compare_self]), add_zero]

theorem sum_entries (m : Payouts) (a : Address) : (m.toList.map fun e => if e.1 = a then e.2 else 0).sum = (m[a]?).getD 0 := by
  have hvalue : (m.toList.map fun e => if e.1 = a then e.2 else 0) =
      (m.toList.map Prod.fst).map fun k => if k = a then (m[a]?).getD 0 else 0 := by
    rw [List.map_map]
    refine List.map_congr_left fun e he => ?_
    rw [Function.comp_apply]
    split
    · rename_i hea
      rw [← hea, ExtTreeMap.mem_toList_iff_getElem?_eq_some.1 he, Option.getD_some]
    · rfl
  rw [hvalue, ← List.sum_toFinset _ (nodup_keys m), Finset.sum_ite_eq']
  split
  · rfl
  · rename_i hnotin
    cases hv : m[a]? with
    | none => rfl
    | some v =>
      refine absurd (List.mem_toFinset.2 (List.mem_map.2 ⟨(a, v), ?_, rfl⟩)) hnotin
      exact ExtTreeMap.mem_toList_iff_getElem?_eq_some.2 hv

theorem getD_credit (balances payouts : Payouts) (a : Address) :
    ((credit balances payouts)[a]?).getD 0 = (balances[a]?).getD 0 + (payouts[a]?).getD 0 := by
  have hfold : ∀ (l : List (Address × ℤ)) (b : Payouts), ((l.foldl creditOne b)[a]?).getD 0 =
      (b[a]?).getD 0 + (l.map fun e => if e.1 = a then e.2 else 0).sum := by
    intro l
    induction l with
    | nil => intro b; simp
    | cons e l ih => intro b; rw [List.foldl_cons, ih, getD_creditOne, List.map_cons, List.sum_cons, add_assoc]
  rw [credit, hfold, sum_entries]

/-! ### What is owed -/

def Nonneg (m : Payouts) : Prop := ∀ (a : Address) (v : ℤ), m[a]? = some v → 0 ≤ v

theorem Nonneg.getD {m : Payouts} (h : Nonneg m) (a : Address) : 0 ≤ (m[a]?).getD 0 := by
  cases hv : m[a]? with
  | none => exact le_rfl
  | some v => exact h a v hv

theorem Nonneg.of_getD {m : Payouts} (h : ∀ a : Address, 0 ≤ (m[a]?).getD 0) : Nonneg m := by
  intro a v hv
  have hnonneg := h a
  rwa [hv] at hnonneg

theorem nonneg_pplnsLocked (windowFactor : UInt64) (ring : List Share) {pot : ℤ} (hpot : 0 ≤ pot) (blockDiff : UInt64) :
    Nonneg (pplnsLocked windowFactor ring pot blockDiff) := by
  obtain ⟨l, -, hsplits⟩ := exists_splits windowFactor ring hpot blockDiff
  intro a v hv
  rw [hsplits a] at hv
  split at hv
  · cases hv
  · cases hv
    exact Int.ediv_nonneg (mul_nonneg hpot (Int.natCast_nonneg _)) (Int.natCast_nonneg _)

/-- A ledger and a trace: what was paid and what is still owed is within the credit, and nothing is owed to the pool. -/
structure Owes (trace : List Event) (l : Ledger) : Prop where
  due : ∀ a, paidTo a trace + (l.balances[a]?).getD 0 ≤ creditedTo a trace
  balances : Nonneg l.balances
  pending : ∀ fb ∈ l.pending, Nonneg fb.payouts

namespace Owes

variable {trace trace' : List Event} {l l' : Ledger}

theorem congr (h : Owes trace l) (hpaid : paidIn trace' = paidIn trace) (hmatured : maturedIn trace' = maturedIn trace)
    (hbalances : l'.balances = l.balances) (hpending : l'.pending = l.pending) : Owes trace' l' := by
  refine ⟨fun a => ?_, hbalances ▸ h.balances, hpending ▸ h.pending⟩
  rw [paidTo, creditedTo, hpaid, hmatured, hbalances]
  exact h.due a

theorem empty (h : Owes trace l) : Owes trace .empty := by
  refine ⟨fun a => ?_, fun a v hv => (by cases hv), fun fb hfb => absurd hfb List.not_mem_nil⟩
  have hdue := h.due a
  have hnonneg := h.balances.getD a
  show paidTo a trace + 0 ≤ _
  omega

theorem credited (h : Owes trace l) {fb : FoundBlock} (hfb : Nonneg fb.payouts) (k : Option Hash) : Owes (.matured fb k :: trace) l := by
  refine ⟨fun a => ?_, h.balances, h.pending⟩
  have hdue := h.due a
  have hnonneg := hfb.getD a
  show paidTo a trace + _ ≤ (fb.payouts[a]?).getD 0 + creditedTo a trace
  omega

theorem matured {fb : FoundBlock} {kept rest : List FoundBlock} (h : Owes trace { l with pending := kept ++ fb :: rest })
    (k : Option Hash) :
    Owes (.matured fb k :: trace) { l with balances := credit l.balances fb.payouts, pending := kept ++ rest } := by
  have hfb : Nonneg fb.payouts := h.pending fb (List.mem_append_right _ List.mem_cons_self)
  refine ⟨fun a => ?_, .of_getD fun a => ?_, fun fb' hfb' => h.pending fb' ?_⟩
  · have hdue : paidTo a trace + (l.balances[a]?).getD 0 ≤ creditedTo a trace := h.due a
    show paidTo a trace + ((credit l.balances fb.payouts)[a]?).getD 0 ≤ (fb.payouts[a]?).getD 0 + creditedTo a trace
    rw [getD_credit]
    omega
  · show 0 ≤ ((credit l.balances fb.payouts)[a]?).getD 0
    rw [getD_credit]
    exact add_nonneg (h.balances.getD a) (hfb.getD a)
  · exact (List.append_sublist_append_left kept).2 (List.sublist_cons_self ..) |>.subset hfb'

theorem paid (h : Owes trace l) {e : Address × ℤ} (he : l.balances[e.1]? = some e.2) (tx : Transaction) (totalPaid : ℤ) :
    Owes (.paid e.1 e.2 tx :: trace) { l with balances := l.balances.erase e.1, totalPaid := totalPaid } := by
  have herase : ∀ a, ((l.balances.erase e.1)[a]?).getD 0 = if e.1 = a then 0 else (l.balances[a]?).getD 0 := by
    intro a
    rw [ExtTreeMap.getElem?_erase]
    by_cases hea : e.1 = a
    · rw [if_pos (by rw [hea, compare_self]), if_pos hea, Option.getD_none]
    · rw [if_neg fun heq => hea (LawfulEqCmp.compare_eq_iff_eq.1 heq), if_neg hea]
  refine ⟨fun a => ?_, .of_getD fun a => ?_, h.pending⟩
  · have hdue := h.due a
    have hpaid : paidTo a (.paid e.1 e.2 tx :: trace) = (if e.1 = a then e.2 else 0) + paidTo a trace := by
      show (((((e.1, e.2, tx) : Address × ℤ × Transaction) :: paidIn trace).filter fun e => e.1 = a).map fun e => e.2.1).sum = _
      rw [List.filter_cons]
      split_ifs with h₁ h₂ h₂
      · rfl
      · exact absurd (by simpa using h₁) h₂
      · exact absurd (by simpa using h₂) h₁
      · rw [zero_add]
        rfl
    rw [hpaid]
    show _ + ((l.balances.erase e.1)[a]?).getD 0 ≤ creditedTo a trace
    rw [herase]
    split_ifs with hea
    · rw [← hea, he, Option.getD_some] at hdue
      rw [← hea]
      omega
    · omega
  · show 0 ≤ ((l.balances.erase e.1)[a]?).getD 0
    rw [herase]
    split_ifs
    · exact le_rfl
    · exact h.balances.getD a

end Owes

/-! ### The steps -/

variable [Crypto] {g : Genesis} {cfg : Config} {wallet : Wallet} {n n' : Node}

/-- What is owed by the ledger, and by the file that would be read after a crash. -/
structure Node.Honest (cfg : Config) (n : Node) : Prop where
  ledger : Owes n.trace n.server.ledger
  file : Owes n.trace (n.file.getD .empty)
  fileless : cfg.persists = false → n.file = none
  cfg : n.server.cfg = cfg.fillDefaults
  valued : Valued n.trace

namespace Node.Honest

theorem congr (h : n.Honest cfg) (hpaid : paidIn n'.trace = paidIn n.trace) (hmatured : maturedIn n'.trace = maturedIn n.trace)
    (hbalances : n'.server.ledger.balances = n.server.ledger.balances)
    (hpending : n'.server.ledger.pending = n.server.ledger.pending) (hfile : n'.file = n.file)
    (hcfg : n'.server.cfg = n.server.cfg) : n'.Honest cfg := by
  refine ⟨h.ledger.congr hpaid hmatured hbalances hpending, ?_, ?_, hcfg.trans h.cfg, ?_⟩
  · rw [hfile]
    exact h.file.congr hpaid hmatured rfl rfl
  · rw [hfile]
    exact h.fileless
  · unfold Valued
    rw [hpaid]
    exact h.valued

theorem save (hledger : Owes n.trace n.server.ledger) (hfileless : cfg.persists = false → n.file = none)
    (hcfg : n.server.cfg = cfg.fillDefaults) (hvalued : Valued n.trace) : n.saveLocked.Honest cfg := by
  have hpersists : n.server.cfg.persists = cfg.persists := by rw [hcfg]; rfl
  unfold Node.saveLocked
  split
  · rename_i hp
    exact ⟨hledger, hledger, fun hno => absurd (hpersists ▸ hp) (by rw [hno]; simp), hcfg, hvalued⟩
  · rename_i hp
    refine ⟨hledger, ?_, hfileless, hcfg, hvalued⟩
    rw [hfileless (by rw [← hpersists]; simpa using hp)]
    exact hledger.empty

theorem rebuilt (h : n.Honest cfg) (hn : Rebuilt n n') : n'.Honest cfg := by
  rw [hn.eq]
  exact h.congr rfl rfl rfl rfl rfl rfl

theorem handled (h : n.Honest cfg) {coinbase : Address} {workID : Hash} {nonce : UInt64} {addr : Address} {nowMs : Int64}
    {order : Transaction → MapOrder} {b : Build} {res : Except ShareError Bool}
    (hn : Handled n coinbase workID nonce addr nowMs order b n' res) : n'.Honest cfg := by
  cases hn with
  | refused => exact h
  | bad => exact h.congr rfl rfl rfl rfl rfl rfl
  | credited => exact h.congr rfl rfl rfl rfl rfl rfl
  | raced => exact h.congr rfl rfl rfl rfl rfl rfl
  | @won t bc mp r m _ _ _ _ hm =>
    have hmid : m.Honest cfg := by
      rw [hm]
      exact h.congr rfl rfl rfl rfl rfl rfl
    refine rebuilt (n := m.recordFound _) (save ⟨hmid.ledger.due, hmid.ledger.balances, fun fb hfb => ?_⟩ hmid.fileless hmid.cfg
      hmid.valued) (rebuilt_rebuildLocked ..)
    rcases List.mem_append.1 hfb with hfb | hfb
    · exact hmid.ledger.pending fb hfb
    · rw [List.mem_singleton.1 hfb]
      exact nonneg_pplnsLocked _ _ (pot_nonneg ..) _

/-- What is owed in the middle of the loop over the waiting blocks, with those still to come. -/
structure Maturing (file l : Ledger) (rest : List FoundBlock) (m : Pool.Maturing) : Prop where
  ledger : Owes m.trace { l with balances := m.balances, pending := m.kept ++ rest }
  file : Owes m.trace file
  coherent : Coherent m.bc

theorem Maturing.step {file l : Ledger} {rest : List FoundBlock} {m : Pool.Maturing} {fb : FoundBlock}
    (h : Maturing file l (fb :: rest) m) (confirmations headHeight : UInt64) :
    Maturing file l rest (matureOne confirmations headHeight m fb) := by
  have hfb : Nonneg fb.payouts := h.ledger.pending fb (List.mem_append_right _ List.mem_cons_self)
  rcases matureOne_cases confirmations headHeight h.coherent fb with heq | ⟨bc', hcached, ⟨-, heq⟩ | ⟨-, heq⟩⟩ <;> rw [heq]
  · refine ⟨?_, h.file, h.coherent⟩
    rw [List.append_assoc]
    exact h.ledger
  · exact ⟨Owes.matured (l := { l with balances := m.balances }) h.ledger _, h.file.credited hfb _, hcached.coherent h.coherent⟩
  · refine ⟨⟨h.ledger.due, h.ledger.balances, fun fb' hfb' => h.ledger.pending fb' ?_⟩, h.file.congr rfl rfl rfl rfl,
      hcached.coherent h.coherent⟩
    exact (List.append_sublist_append_left m.kept).2 (List.sublist_cons_self ..) |>.subset hfb'

theorem mature (h : n.Honest cfg) (hc : Coherent n.bc) (headHeight : UInt64) : (n.matureLocked headHeight).Honest cfg := by
  have hloop : ∀ (rest : List FoundBlock) (m : Pool.Maturing), Maturing (n.file.getD .empty) n.server.ledger rest m →
      Maturing (n.file.getD .empty) n.server.ledger [] (rest.foldl (matureOne n.server.cfg.confirmations headHeight) m) := by
    intro rest
    induction rest with
    | nil => exact fun _ hm => hm
    | cons fb rest ih => exact fun m hm => ih _ (hm.step _ _)
  have hm : Maturing (n.file.getD .empty) n.server.ledger [] (maturing n headHeight) := hloop n.server.ledger.pending _
    ⟨h.ledger.congr rfl rfl rfl rfl, h.file, hc⟩
  have hledger : Owes (maturing n headHeight).trace (afterMature n (maturing n headHeight)).server.ledger :=
    hm.ledger.congr rfl rfl rfl (List.append_nil _).symm
  have hvalued : Valued (maturing n headHeight).trace := by
    have hpaid : paidIn (maturing n headHeight).trace = paidIn n.trace :=
      filterMap_mature _ _ (fun _ _ => rfl) (fun _ _ => rfl) _ hc
    unfold Valued
    rw [hpaid]
    exact h.valued
  rw [matureLocked_eq, Node.saveIf]
  split
  · exact save hledger h.fileless h.cfg hvalued
  · exact ⟨hledger, hm.file, h.fileless, h.cfg, hvalued⟩

/-- What is owed in the middle of the loop over the balances, with those still to come. -/
structure Paying (l : Ledger) (trace : List Event) (entries : List (Address × ℤ)) (p : Pool.Paying) : Prop where
  ledger : Owes p.trace { l with balances := p.balances, totalPaid := p.totalPaid }
  unpaid : Unpaid entries p.balances
  valued : Valued p.trace
  unchanged : p.changed = false → p.trace = trace

theorem Paying.step {snap : State} {chainID : UInt64} {payoutMin : ℤ} {o : MapOrder} {e : Address × ℤ} {entries : List (Address × ℤ)}
    {trace : List Event} {l : Ledger} {p p' : Pool.Paying} (h : Paying l trace (e :: entries) p)
    (hpaid : Paid wallet snap chainID payoutMin o p e p') : Paying l trace entries p' := by
  cases hpaid with
  | stays => exact ⟨h.ledger, h.unpaid.rest, h.valued, h.unchanged⟩
  | refused => exact ⟨h.ledger, h.unpaid.rest, h.valued, h.unchanged⟩
  | @out sig tx mp _ _ htx _ _ =>
    have hdue := h.unpaid.due e List.mem_cons_self
    refine ⟨h.ledger.paid hdue tx _, h.unpaid.erase, fun e' he' => ?_, fun hchanged => by cases hchanged⟩
    rcases List.mem_cons.1 he' with rfl | he'
    · exact ⟨by rw [htx]; rfl, h.ledger.balances e.1 e.2 hdue⟩
    · exact h.valued e' he'

theorem paying (h : n.Honest cfg) {r : Range} {o : MapOrder} {handled : ℕ} {p : Pool.Paying}
    (hp : n.startPayout wallet ((r.order n.server.ledger.balances).take handled) o = some p) :
    Paying n.server.ledger n.trace [] p := by
  obtain ⟨snap, -, hall⟩ := startPayout_some hp
  have hunpaid := r.unpaid n.server.ledger.balances
  refine payAll_induction (I := Paying n.server.ledger n.trace) (fun _ _ _ _ hI hone => hI.step hone) hall
    ⟨h.ledger.congr rfl rfl rfl rfl, ⟨fun e he => hunpaid.due e (List.mem_of_mem_take he), ?_⟩, h.valued, fun _ => rfl⟩
  exact hunpaid.nodup.sublist ((List.take_sublist ..).map _)

theorem payout (h : n.Honest cfg) {r : Range} {o : MapOrder} {p : Pool.Paying}
    (hp : n.startPayout wallet (r.order n.server.ledger.balances) o = some p) :
    ((afterPayout n p).saveIf p.changed).Honest cfg := by
  rw [← List.take_length (l := r.order n.server.ledger.balances)] at hp
  have hpaying := h.paying hp
  have hledger : Owes p.trace (afterPayout n p).server.ledger := hpaying.ledger.congr rfl rfl rfl rfl
  unfold Node.saveIf
  split
  · exact save hledger h.fileless h.cfg hpaying.valued
  · rename_i hchanged
    refine ⟨hledger, ?_, h.fileless, h.cfg, hpaying.valued⟩
    show Owes p.trace _
    rw [hpaying.unchanged (by simpa using hchanged)]
    exact h.file

theorem restart (h : n.Honest cfg) (bc : Blockchain) (mp : Mempool) : Node.Honest cfg ⟨bc, mp, newServer cfg n.file, n.file, n.trace⟩ := by
  refine ⟨?_, h.file, h.fileless, rfl, h.valued⟩
  show Owes n.trace (newServer cfg n.file).ledger
  unfold newServer
  dsimp only
  split
  · exact h.file
  · exact h.ledger.empty

end Node.Honest

/-! ### Crashes that release nothing -/

/-- The balance has reached the minimum, the wallet covers it and the mempool takes its payout. -/
def Node.releases (n : Node) (wallet : Wallet) (snap : State) (o : MapOrder) (e : Address × ℤ) : Bool :=
  !(e.2 < n.server.cfg.payoutMin.getD 0) &&
    (wallet.sign (payoutTx n.bc.chainID (Node.syncNonce n.server (snap.nonce wallet.address)) e.1 e.2)).any fun sig =>
      let tx := { payoutTx n.bc.chainID (Node.syncNonce n.server (snap.nonce wallet.address)) e.1 e.2 with sig := sig }
      (Mempool.checkState snap tx).any Except.isOk && (n.mp.add tx n.bc.chainID true o).any fun r => r.2.isOk

/-- A process with a ledger file does not end in the middle of a loop over the balances that has released a payout. -/
def Op.Quiet (cfg : Config) (wallet : Wallet) (n : Node) : Op → Prop
  | .crash r o handled _ _ => cfg.persists = true → ∀ snap, n.bc.stateSnapshot = some snap →
      ∀ e ∈ (r.order n.server.ledger.balances).take handled, n.releases wallet snap o e = false
  | _ => True

/-- A loop over balances that are not released leaves no trace: a refusal makes at most the account of the wallet. -/
theorem trace_of_not_releases {snap : State} {o : MapOrder} {entries : List (Address × ℤ)} {p : Paying}
    (hentries : ∀ e ∈ entries, n.releases wallet snap o e = false)
    (hall : payAll wallet snap n.bc.chainID (n.server.cfg.payoutMin.getD 0) o entries
      ⟨n.mp, n.server.ledger.balances, Node.syncNonce n.server (snap.nonce wallet.address), n.server.ledger.totalPaid, false,
        n.trace⟩ = some p) : p.trace = n.trace := by
  refine (payAll_induction (I := fun entries p => (∀ e ∈ entries, n.releases wallet snap o e = false) ∧
    p.nextNonce = Node.syncNonce n.server (snap.nonce wallet.address) ∧
    (p.mp = n.mp ∨ p.mp = n.mp.openAccount wallet.address) ∧ p.trace = n.trace) ?_ hall
    ⟨hentries, rfl, .inl rfl, rfl⟩).2.2.2
  rintro e entries p p' ⟨hquiet, hnonce, hmp, htrace⟩ hpaid
  have hrest : ∀ e ∈ entries, n.releases wallet snap o e = false := fun e he => hquiet e (List.mem_cons_of_mem _ he)
  cases hpaid with
  | stays => exact ⟨hrest, hnonce, hmp, htrace⟩
  | @refused sig tx mp err hsig htx hadd =>
    have hsender : tx.sender = .ok wallet.address := htx ▸ wallet.sender_sign _ sig hsig
    refine ⟨hrest, hnonce, ?_, htrace⟩
    have hopen : (n.mp.openAccount wallet.address).openAccount wallet.address = n.mp.openAccount wallet.address :=
      Mempool.openAccount_of_mem ExtTreeMap.mem_insert_self
    rcases (Mempool.add_some hadd).eq_of_error hsender with heq | heq <;> rcases hmp with hmp | hmp <;> rw [hmp] at heq
    · exact .inl heq
    · exact .inr heq
    · exact .inr heq
    · exact .inr (heq.trans hopen)
  | @out sig tx mp hmin hsig htx hstate hadd =>
    -- the balance is released from the node as it was
    have hsender : tx.sender = .ok wallet.address := htx ▸ wallet.sender_sign _ sig hsig
    have hadd' : n.mp.add tx n.bc.chainID true o = some (mp, .ok ()) := by
      rcases hmp with hmp | hmp <;> rw [hmp] at hadd
      · exact hadd
      · exact Mempool.add_openAccount hsender hadd
    have hreleases : n.releases wallet snap o e = true := by
      rw [htx] at hstate hadd'
      rw [hnonce] at hsig hstate hadd'
      simp [Node.releases, hmin, hsig, hstate, hadd', Except.isOk, Except.toBool]
    rw [hquiet e List.mem_cons_self] at hreleases
    cases hreleases

/-- **One step without a loss owes no more than was credited.** -/
theorem Node.Honest.stepped (h : n.Honest cfg) (hready : Ready g n.bc) {op : Op} (hquiet : op.Quiet cfg wallet n)
    (hn : Stepped g cfg wallet n op n') : n'.Honest cfg := by
  cases hn with
  | share hshare => exact h.handled hshare
  | mature headHeight => exact h.mature hready.coherent headHeight
  | payout hp => exact h.payout hp
  | refresh head b => exact h.rebuilt (rebuilt_refresh ..)
  | @insert w _ _ _ _ =>
    have hsame : paidIn ((w.block?).elim n.trace (.offered · :: n.trace)) = paidIn n.trace ∧
        maturedIn ((w.block?).elim n.trace (.offered · :: n.trace)) = maturedIn n.trace := by
      cases w.block? <;> exact ⟨rfl, rfl⟩
    exact h.congr hsame.1 hsame.2 rfl rfl rfl rfl
  | mempool => exact h.congr rfl rfl rfl rfl rfl rfl
  | restart => exact h.restart _ _
  | @crash r o handled opts mp p bc hp _ =>
    have hpaying := h.paying hp
    obtain ⟨snap, hsnap, hall⟩ := startPayout_some hp
    cases hpersists : cfg.persists with
    | true =>
      rw [trace_of_not_releases (hquiet hpersists snap hsnap) hall]
      exact h.restart bc mp
    | false =>
      -- nothing was saved, and nothing is owed after the crash
      have hnone := h.fileless hpersists
      refine Node.Honest.restart (n := afterPayout n p) ⟨hpaying.ledger.congr rfl rfl rfl rfl, ?_, h.fileless, h.cfg, hpaying.valued⟩
        bc mp
      show Owes p.trace (n.file.getD .empty)
      rw [hnone]
      exact hpaying.ledger.empty

/-! ### Whole runs -/

theorem honest_fresh (g : Genesis) (cfg : Config) (opts : Options) (mp : Mempool) : (freshNode g cfg opts mp).Honest cfg := by
  have hempty : Owes [] .empty := ⟨fun _ => le_rfl, fun a v hv => (by cases hv), fun fb hfb => absurd hfb List.not_mem_nil⟩
  have hledger : (newServer cfg none).ledger = .empty := by
    unfold newServer
    dsimp only
    split <;> rfl
  refine ⟨?_, hempty, fun _ => rfl, rfl, fun e he => absurd he List.not_mem_nil⟩
  show Owes [] (newServer cfg none).ledger
  rw [hledger]
  exact hempty

variable {opts : Options} {mp : Mempool} {ops : List Op}

theorem exists_canonical (hrun : runPool g cfg wallet opts mp ops = .ok n) (hnc : NoCollision g cfg wallet opts mp ops n) :
    ∃ l, Canonical g n.bc l ∧ ∀ b ∈ l, b ∈ offeredIn g n.trace := by
  obtain ⟨hground, -⟩ := runPool_induction (I := fun _ => True) hrun hnc trivial fun _ _ _ _ _ _ _ _ _ => trivial
  obtain ⟨l, hl⟩ := hground.node.tree.canon
  exact ⟨l, hl, hground.node.tree.known_of_canonical hl⟩

/-- **In a run where no process ends between the release of a payout and the saving of the ledger, the payouts mined to a worker
are within what was credited to it**: whatever other crashes, restarts, reorgs and transactions there are, as long as no nonce
of an account is used up. -/
theorem payouts_within_credit (hrun : runPool g cfg wallet opts mp ops = .ok n) (hnc : NoCollision g cfg wallet opts mp ops n)
    (hnonces : NoncesLast g (· ∈ offeredIn g n.trace))
    (hops : ∀ past op rest m, past ++ op :: rest = ops → runPool g cfg wallet opts mp past = .ok m → op.Quiet cfg wallet m) :
    ∃ l, Canonical g n.bc l ∧ ∀ a, minedTo a n.trace l ≤ creditedTo a n.trace := by
  have hhonest : n.Honest cfg := runPool_past hrun (honest_fresh ..) fun past op rest m m' heq hpast hm hI hstep =>
    hI.stepped hm (hops past op rest m heq hpast) hstep
  obtain ⟨l, hl, hoffered⟩ := exists_canonical hrun hnc
  refine ⟨l, hl, fun a => ?_⟩
  obtain ⟨w, hw⟩ := hl.chain
  have hmined := minedTo_le a hhonest.valued (hw.nodup_txs hoffered hnonces)
  have hdue := hhonest.ledger.due a
  have hnonneg := hhonest.ledger.balances.getD a
  omega

/-- The mempool asks for more than the price of a payout. -/
def raised : List Op := twoFound ++ [.mempool (.setMinGasPrice (some 2))]

/-- The process ends after the mempool has refused a payout; then the payout to the finder of the first block is mined. -/
def minedRun : List Op :=
  raised ++ [.crash .sorted .sorted 1 forkOptions (Mempool.new 1), .payout .sorted .sorted, .refresh 0 (buildAt 960000 0),
    mine 0x269a6e590f2673e3aea5c5028fe342633ed55919c66c35a48ac30d109a9d2a18 0xa3 1200000]

def firstPayout : Transaction := { payoutTx 1 0 0xa1 miningPot with sig := payout0Sig }

def secondPayout : Transaction := { payoutTx 1 1 0xa1 miningPot with sig := payout1Sig }

/-- The process ends after the payout was added to the mempool, where it waits. It is mined, the payout is made again by the
next process, and mined again. -/
def crashedRun : List Op :=
  twoFound ++ [.crash .sorted .sorted 1 forkOptions (@Mempool.written miningCrypto (Mempool.new 1) firstPayout (@miningWallet.address)),
    .refresh 0 (buildAt 960000 0), mine 0x269a6e590f2673e3aea5c5028fe342633ed55919c66c35a48ac30d109a9d2a18 0xa3 1200000,
    .payout .sorted .sorted, .refresh 0 (buildAt 1200001 5),
    mine 0x88e758fe3e6d0c05a8095fba049cf9d06b53cb3e1b75b1a7c40b6cc5162f0518 0xa3 1440000]

omit [Crypto] in
theorem payouts_within_credit_mined : ∃ n,
    @runPool miningCrypto transferGenesis miningCfg miningWallet forkOptions (Mempool.new 1) minedRun = .ok n ∧
    creditedTo 0xa1 n.trace = miningPot ∧ n.bc.db.txIndex[@Transaction.hash miningCrypto firstPayout]?.isSome = true ∧
    ∃ l, @Canonical miningCrypto transferGenesis n.bc l ∧ ∀ a, minedTo a n.trace l ≤ creditedTo a n.trace := by
  obtain ⟨n, hrun, hn⟩ := exists_ok (p := fun n => @decide (@HashesDiffer miningCrypto (· ∈ @offeredIn miningCrypto transferGenesis n.trace) ∧
      creditedTo 0xa1 n.trace = miningPot ∧ n.bc.db.txIndex[@Transaction.hash miningCrypto firstPayout]?.isSome = true ∧
      @plainRuns miningCrypto transferGenesis.treasury (@offeredIn miningCrypto transferGenesis n.trace) 3 transferGenesis.state
        (@Genesis.block miningCrypto transferGenesis).header = true) inferInstance)
    (show ((@runPool miningCrypto transferGenesis miningCfg miningWallet forkOptions (Mempool.new 1) minedRun).toOption.any _) = true
      by decide +kernel)
  obtain ⟨hhashes, hcredited, hmined, hplain⟩ := of_decide_eq_true hn
  have hnc : @NoCollision miningCrypto transferGenesis miningCfg miningWallet forkOptions (Mempool.new 1) minedRun n :=
    @NoCollision.mk miningCrypto _ _ _ _ _ _ _ hhashes (by decide +kernel)
  have hnonces : @NoncesLast miningCrypto transferGenesis (· ∈ @offeredIn miningCrypto transferGenesis n.trace) :=
    fun bs xs t hbs hbr => @below_of_plainRuns miningCrypto _ _ _ _ _ _ _ _ hplain hbr hbs
  have hrefused : (@runPool miningCrypto transferGenesis miningCfg miningWallet forkOptions (Mempool.new 1) raised).toOption.all
      (fun m => (@Blockchain.stateSnapshot miningCrypto m.bc).all fun snap => ((Range.sorted.order m.server.ledger.balances).take 1).all fun e =>
        !@Node.releases miningCrypto m miningWallet snap .sorted e) = true := by decide +kernel
  have hquiet : ∀ past op rest m, past ++ op :: rest = minedRun →
      @runPool miningCrypto transferGenesis miningCfg miningWallet forkOptions (Mempool.new 1) past = .ok m →
      @Op.Quiet miningCrypto miningCfg miningWallet m op := by
    intro past op rest m heq hpast
    obtain ⟨htake, hop⟩ := at_past heq
    have hi : past.length < 9 := (List.getElem?_eq_some_iff.1 hop).1
    generalize past.length = i at htake hop hi
    interval_cases i <;> obtain rfl := Option.some.inj hop <;> try exact True.intro
    -- the crash
    intro _ snap hsnap e he
    have hpast' : @runPool miningCrypto transferGenesis miningCfg miningWallet forkOptions (Mempool.new 1) raised = .ok m :=
      (show raised = past from htake) ▸ hpast
    rw [hpast', Except.toOption, Option.all_some, hsnap, Option.all_some, List.all_eq_true] at hrefused
    simpa using hrefused e he
  exact ⟨n, hrun, hcredited, hmined, @payouts_within_credit miningCrypto _ _ _ _ _ _ _ hrun hnc hnonces hquiet⟩

def minedAt (bc : Blockchain) (height : UInt64) (tx : Transaction) : Bool :=
  bc.db.canonical[height]?.any fun k => bc.db.blocks[k]?.any fun b => tx ∈ b.txs

theorem Canonical.mem_txs {bc : Blockchain} {l : List Block} (hl : Canonical g bc l) {height : UInt64} {tx : Transaction}
    (h : minedAt bc height tx = true) : tx ∈ l.flatMap Block.txs := by
  obtain ⟨k, hk, hb⟩ := (Option.any_eq_true _ _).1 h
  obtain ⟨b, hb, htx⟩ := (Option.any_eq_true _ _).1 hb
  obtain ⟨b', hb', -, rfl⟩ := (hl.table height k).1 hk
  rw [hl.stored b' hb'] at hb
  cases hb
  exact List.mem_flatMap.2 ⟨_, hb', of_decide_eq_true htx⟩

omit [Crypto] in
theorem crash_pays_twice : ∃ n l,
    @runPool miningCrypto transferGenesis miningCfg miningWallet forkOptions (Mempool.new 1) crashedRun = .ok n ∧
    @Canonical miningCrypto transferGenesis n.bc l ∧ creditedTo 0xa1 n.trace = miningPot ∧
    miningPot + miningPot ≤ minedTo 0xa1 n.trace l := by
  obtain ⟨n, hrun, hn⟩ := exists_ok (p := fun n => @decide (@HashesDiffer miningCrypto (· ∈ @offeredIn miningCrypto transferGenesis n.trace) ∧
      creditedTo 0xa1 n.trace = miningPot ∧ (∀ e ∈ paidIn n.trace, e.2.2.value = some e.2.1 ∧ 0 ≤ e.2.1) ∧
      (paidIn n.trace).map (fun e => (e.1, e.2.2)) = [(0xa1, secondPayout), (0xa1, firstPayout)] ∧
      minedAt n.bc 3 firstPayout = true ∧ minedAt n.bc 4 secondPayout = true) inferInstance)
    (show ((@runPool miningCrypto transferGenesis miningCfg miningWallet forkOptions (Mempool.new 1) crashedRun).toOption.any _) = true
      by decide +kernel)
  obtain ⟨hhashes, hcredited, hvalued, hpaid, hfirst, hsecond⟩ := of_decide_eq_true hn
  have hnc : @NoCollision miningCrypto transferGenesis miningCfg miningWallet forkOptions (Mempool.new 1) crashedRun n :=
    @NoCollision.mk miningCrypto _ _ _ _ _ _ _ hhashes (by decide +kernel)
  obtain ⟨l, hl, -⟩ := @exists_canonical miningCrypto _ _ _ _ _ _ _ hrun hnc
  refine ⟨n, l, hrun, hl, hcredited, ?_⟩
  have hreleased : ∀ tx ∈ [firstPayout, secondPayout], ∃ e ∈ paidIn n.trace, e.1 = 0xa1 ∧ e.2.2 = tx := by
    intro tx htx
    have hmem : ((0xa1 : Address), tx) ∈ (paidIn n.trace).map fun e => (e.1, e.2.2) := by
      rw [hpaid]
      simpa [or_comm] using htx
    obtain ⟨e, he, heq⟩ := List.mem_map.1 hmem
    exact ⟨e, he, (Prod.mk.inj heq).1, (Prod.mk.inj heq).2⟩
  have hdistinct : [firstPayout, secondPayout].Nodup := by decide +kernel
  refine le_minedTo hvalued hdistinct fun tx htx => ⟨?_, hreleased tx htx⟩
  rcases List.mem_pair.1 htx with rfl | rfl
  · exact @Canonical.mem_txs miningCrypto _ _ _ hl 3 _ hfirst
  · exact @Canonical.mem_txs miningCrypto _ _ _ hl 4 _ hsecond

end Lxs.Pool
