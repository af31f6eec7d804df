import Lxs.Pool.Runs

/-!
# Shares are credited once

The nonces that were credited are remembered in the template on which they were found, under the id of the template, the
hash of its header. A template that is built again has forgotten them.

* `shares_credited_once`: **in a run in which no template is built under an id that has credited shares, no nonce is
  credited twice on one id**;
* `share_credited_twice`: with a clock behind the parent the same header is built again, and its share credited again.
-/

set_option linter.unusedSectionVars false

namespace Lxs.Pool

open Std Lib Blockchain

def creditedIn (trace : List Event) : List (Hash × UInt64) :=
  trace.filterMap fun
    | .share workID nonce => some (workID, nonce)
    | _ => none

variable [Crypto] {g : Genesis} {cfg : Config} {wallet : Wallet} {n n' : Node}

/-! ### The condition -/

/-- What would be built now, from the head, the clock and the mempool, has an id without credited shares. -/
def Node.Novel (n : Node) (coinbase : Address) (b : Build) : Prop :=
  ∀ c, (n.bc.buildUnsealed n.mp coinbase b.nowMs b.order).1 = some c → ∀ nonce, (c.block.header.hash, nonce) ∉ creditedIn n.trace

/-- The node once a nonce was credited and committed as a block, before the next template is built. -/
def Node.afterCommit (n : Node) (workID : Hash) (nonce : UInt64) (addr : Address) (nowMs : Int64)
    (order : Transaction → MapOrder) : Option Node :=
  match n.server.templates[workID]? with
  | none => none
  | some t =>
    if !t.wins nonce then none
    else match n.bc.insert (t.tried nonce).block.toWire nowMs with
    | (.error _, _) => none
    | (.ok r, bc) => (hooked n.mp n.bc.chainID order (.ok r)).map fun mp =>
        Node.note { n.creditShare workID (t.tried nonce) addr with bc := bc, mp := mp.remove t.txs }
          (.offered (t.tried nonce).block)

/-- The test of `Node.refresh`: there is no template, the head has moved, or the interval is over. -/
def Node.rebuilds (n : Node) (head : Hash) (b : Build) : Bool :=
  (n.server.templates[n.server.current]?).all fun cur =>
    cur.parent ≠ head || n.server.cfg.refreshInterval ≤ b.mono - cur.built

/-- No template is built again: one is built by a refresh that rebuilds and by a share that becomes a block. -/
def Op.Novel (wallet : Wallet) (n : Node) : Op → Prop
  | .refresh head b => n.rebuilds head b = true → n.Novel wallet.address b
  | .share workID nonce addr nowMs order b =>
    ∀ m, n.afterCommit workID nonce addr nowMs order = some m → m.Novel wallet.address b
  | _ => True

instance Node.decidableNovel (n : Node) (coinbase : Address) (b : Build) : Decidable (n.Novel coinbase b) :=
  decidable_of_iff ((n.bc.buildUnsealed n.mp coinbase b.nowMs b.order).1.all fun c =>
    (creditedIn n.trace).all fun e => e.1 ≠ c.block.header.hash) (by
      simp only [Node.Novel, Option.all_eq_true, List.all_eq_true, decide_eq_true_eq, Prod.forall]
      exact forall₂_congr fun c _ => ⟨fun h nonce hmem => h _ nonce hmem rfl, fun h k nonce hmem hk => h nonce (hk ▸ hmem)⟩)

instance Op.decidableNovel (wallet : Wallet) (n : Node) : (op : Op) → Decidable (op.Novel wallet n)
  | .refresh head b => inferInstanceAs (Decidable (n.rebuilds head b = true → n.Novel wallet.address b))
  | .share workID nonce addr nowMs order b =>
    decidable_of_iff ((n.afterCommit workID nonce addr nowMs order).all fun m => decide (m.Novel wallet.address b)) (by
      simp only [Op.Novel, Option.all_eq_true, decide_eq_true_eq])
  | .mature _ | .payout _ _ | .insert _ _ _ | .mempool _ | .restart _ _ | .crash _ _ _ _ _ => inferInstanceAs (Decidable True)

/-! ### The templates remember -/

/-- The templates remember the nonces that were credited on them, and none was credited twice. -/
structure Seen (n : Node) : Prop where
  seen : ∀ (k : Hash) (t : Template), n.server.templates[k]? = some t → ∀ nonce, (k, nonce) ∈ creditedIn n.trace → nonce ∈ t.seen
  nodup : (creditedIn n.trace).Nodup

namespace Seen

theorem mono (h : Seen n) (htrace : creditedIn n'.trace = creditedIn n.trace)
    (htemplates : ∀ (k : Hash) (t : Template), n'.server.templates[k]? = some t → n.server.templates[k]? = some t ∨
      ∀ nonce, (k, nonce) ∉ creditedIn n.trace) : Seen n' := by
  refine ⟨fun k t ht nonce hmem => ?_, by rw [htrace]; exact h.nodup⟩
  rw [htrace] at hmem
  rcases htemplates k t ht with hold | hnone
  · exact h.seen k t hold nonce hmem
  · exact absurd hmem (hnone nonce)

variable {b : Build}

theorem rebuilt (h : Seen n) {coinbase : Address} {headMoved : Bool} (hnovel : n.Novel coinbase b) :
    Seen (n.rebuildLocked coinbase headMoved b) := by
  refine h.mono (by rw [(rebuilt_rebuildLocked n coinbase headMoved b).eq]) fun k t ht => ?_
  rcases getElem?_rebuildLocked ht with ⟨-, hold⟩ | ⟨c, hc, rfl, -⟩
  · exact .inl hold
  · exact .inr (hnovel c hc)

theorem refreshed (h : Seen n) {coinbase : Address} {head : Hash}
    (hnovel : n.rebuilds head b = true → n.Novel coinbase b) : Seen (n.refresh coinbase head b) := by
  unfold Node.rebuilds at hnovel
  unfold Node.refresh
  split
  · rename_i hcur
    exact h.rebuilt (hnovel (by rw [hcur]; rfl))
  · rename_i cur hcur
    rw [hcur] at hnovel
    split_ifs with hparent hinterval
    · exact h.rebuilt (hnovel (by simp [hparent]))
    · exact h.rebuilt (hnovel (by simp [hinterval]))
    · exact h

theorem credited (h : Seen n) {workID : Hash} {nonce : UInt64} {t : Template} (ht : n.server.templates[workID]? = some t)
    (hnew : nonce ∉ t.seen) (addr : Address) : Seen (n.creditShare workID (t.tried nonce) addr) := by
  have hcredited : creditedIn (n.creditShare workID (t.tried nonce) addr).trace = (workID, nonce) :: creditedIn n.trace := rfl
  refine ⟨fun k t' ht' nonce' hmem => ?_, ?_⟩
  · rw [hcredited, List.mem_cons, Prod.mk.injEq] at hmem
    change (n.server.templates.insert workID { t.tried nonce with seen := t.seen.insert nonce })[k]? = some t' at ht'
    rw [ExtTreeMap.getElem?_insert] at ht'
    split at ht'
    · rename_i hk
      obtain rfl := LawfulEqCmp.compare_eq_iff_eq.1 hk
      cases ht'
      rw [ExtTreeSet.mem_insert]
      rcases hmem with ⟨-, rfl⟩ | hmem
      · exact .inl compare_self
      · exact .inr (h.seen _ t ht nonce' hmem)
    · rename_i hk
      rcases hmem with ⟨rfl, -⟩ | hmem
      · exact absurd compare_self hk
      · exact h.seen k t' ht' nonce' hmem
  · rw [hcredited, List.nodup_cons]
    exact ⟨fun hmem => hnew (h.seen workID t ht nonce hmem), h.nodup⟩

theorem handled (h : Seen n) {workID : Hash} {nonce : UInt64} {addr : Address} {nowMs : Int64}
    {order : Transaction → MapOrder} {res : Except ShareError Bool}
    (hn : Handled n wallet.address workID nonce addr nowMs order b n' res)
    (hnovel : Op.Novel wallet n (.share workID nonce addr nowMs order b)) : Seen n' := by
  cases hn with
  | refused => exact h
  | @bad t ht =>
    refine ⟨fun k t' ht' nonce' hmem => ?_, h.nodup⟩
    change (n.server.templates.insert workID (t.tried nonce))[k]? = some t' at ht'
    rw [ExtTreeMap.getElem?_insert] at ht'
    split at ht'
    · rename_i hk
      obtain rfl := LawfulEqCmp.compare_eq_iff_eq.1 hk
      cases ht'
      exact h.seen _ t ht nonce' hmem
    · exact h.seen k t' ht' nonce' hmem
  | credited ht hseen => exact h.credited ht hseen addr
  | raced ht hseen => exact (h.credited ht hseen addr).mono rfl fun k t' ht' => .inl ht'
  | @won t bc mp r m ht hwins hinsert hmp hm =>
    have hseen : nonce ∉ t.seen := by
      simp only [Template.wins, Bool.and_eq_true, decide_eq_true_eq] at hwins
      exact hwins.1.1
    have hcommit : n.afterCommit workID nonce addr nowMs order = some m := by
      simp only [Node.afterCommit, ht, hwins, hinsert, hmp, Option.map_some, hm, Bool.not_true, Bool.false_eq_true, if_false]
    have hm' : Seen m := by
      rw [hm]
      exact (h.credited ht hseen addr).mono rfl fun k t' ht' => .inl ht'
    obtain ⟨htrace, -, htemplates⟩ := recordFound_rebuild m (foundBlock m.server (t.tried nonce)) wallet.address b
    refine hm'.mono (by rw [htrace]; rfl) fun k t' ht' => .inr ?_
    obtain ⟨c, hc, rfl, -⟩ := htemplates k t' ht'
    exact hnovel m hcommit c hc

/-- **One step that builds no template again credits no share again.** -/
theorem stepped (h : Seen n) (hready : Ready g n.bc) {op : Op} (hnovel : op.Novel wallet n) (hn : Stepped g cfg wallet n op n') :
    Seen n' := by
  cases hn with
  | share hshare => exact h.handled hshare hnovel
  | mature headHeight =>
    rw [matureLocked_eq]
    refine h.mono ?_ fun k t ht => .inl ?_
    · rw [trace_saveIf]
      exact filterMap_mature _ _ (fun _ _ => rfl) (fun _ _ => rfl) _ hready.coherent
    · rw [server_saveIf] at ht
      exact ht
  | payout hp =>
    obtain ⟨snap, -, hall⟩ := startPayout_some hp
    refine h.mono ?_ fun k t ht => .inl ?_
    · rw [trace_saveIf]
      exact filterMap_payAll (fun _ _ _ => rfl) hall
    · rw [server_saveIf] at ht
      exact ht
  | refresh head b => exact h.refreshed hnovel
  | @insert w _ _ _ _ =>
    refine h.mono ?_ fun k t ht => .inl ht
    cases w.block? <;> rfl
  | mempool => exact h.mono rfl fun k t ht => .inl ht
  | restart => exact h.mono rfl fun k t ht => by cases ht
  | crash hp =>
    obtain ⟨snap, -, hall⟩ := startPayout_some hp
    exact h.mono (filterMap_payAll (fun _ _ _ => rfl) hall) fun k t ht => by cases ht

end Seen

/-! ### Whole runs -/

variable {opts : Options} {mp : Mempool} {ops : List Op}

/-- **In a run whose steps build no template under an id with credited shares, no pair of id and nonce is credited twice.** -/
theorem shares_credited_once (hrun : runPool g cfg wallet opts mp ops = .ok n)
    (hops : ∀ past op rest m, past ++ op :: rest = ops → runPool g cfg wallet opts mp past = .ok m → op.Novel wallet m) :
    (creditedIn n.trace).Nodup := by
  have hseen : Seen (freshNode g cfg opts mp) := ⟨fun k t ht => (by cases ht), List.nodup_nil⟩
  exact (runPool_past hrun hseen fun past op rest m m' heq hpast hm hI hstep =>
    hI.stepped hm (hops past op rest m heq hpast) hstep).nodup

/-! A block of difficulty four, shares of difficulty one: nonce zero is a share. The clock is one millisecond behind the
genesis block. -/

def slowGenesis : Genesis := { transferGenesis with timestamp := 1000000, difficulty := 4 }

def slowCfg : Config := { miningCfg with shareDiffDivisor := 4 }

def slowID : Hash := 0x891e05b2c922452f691e11059977cb9e6318c19229915ee4450a770e318d2610

/-- A template and a share of it, a tick in the same nanosecond that builds nothing, and later a second template, at a time, and
a share of that. -/
def twoShares (later : Int64) (secondID : Hash) : List Op :=
  [.refresh 0 (buildAt 999999 0), mine slowID 0xa1 0,
   .refresh 0x49c85a6d9ac94afd5ba058c37827155684c1c1ff9849d2cf0a6806251781a89f (buildAt 999999 0),
   .refresh 0x49c85a6d9ac94afd5ba058c37827155684c1c1ff9849d2cf0a6806251781a89f (buildAt later 5), mine secondID 0xa1 0]

def aheadShares : List Op := twoShares 1000002 0x8698c0af82d42b3679f8779e96f5e6db117a55732af57eb6c52cacdeba35e94a

omit [Crypto] in
theorem shares_credited_once_ahead : ∃ n,
    @runPool miningCrypto slowGenesis slowCfg miningWallet forkOptions (Mempool.new 1) aheadShares = .ok n ∧
    (∀ past op rest m, past ++ op :: rest = aheadShares →
      @runPool miningCrypto slowGenesis slowCfg miningWallet forkOptions (Mempool.new 1) past = .ok m →
      @Op.Novel miningCrypto miningWallet m op) ∧
    (creditedIn n.trace).length = 2 ∧ (creditedIn n.trace).Nodup := by
  obtain ⟨n, hrun, hn⟩ := exists_ok (p := fun n => decide ((creditedIn n.trace).length = 2))
    (show ((@runPool miningCrypto slowGenesis slowCfg miningWallet forkOptions (Mempool.new 1) aheadShares).toOption.any _) = true
      by decide +kernel)
  have hops : ∀ i < 5, (@runPool miningCrypto slowGenesis slowCfg miningWallet forkOptions (Mempool.new 1)
      (aheadShares.take i)).toOption.all (fun m => (aheadShares[i]?).all fun op =>
        @decide (@Op.Novel miningCrypto miningWallet m op) (@Op.decidableNovel miningCrypto miningWallet m op)) = true := by
    decide +kernel
  have hnovel : ∀ past op rest m, past ++ op :: rest = aheadShares →
      @runPool miningCrypto slowGenesis slowCfg miningWallet forkOptions (Mempool.new 1) past = .ok m →
      @Op.Novel miningCrypto miningWallet m op := by
    intro past op rest m heq hpast
    obtain ⟨htake, hop⟩ := at_past heq
    have hnovel := hops past.length (List.getElem?_eq_some_iff.1 hop).1
    rw [htake, hpast, hop] at hnovel
    simpa [Except.toOption] using hnovel
  exact ⟨n, hrun, hnovel, of_decide_eq_true hn, @shares_credited_once miningCrypto _ _ _ _ _ _ _ hrun hnovel⟩

omit [Crypto] in
theorem share_credited_twice : ∃ n,
    @runPool miningCrypto slowGenesis slowCfg miningWallet forkOptions (Mempool.new 1) (twoShares 999999 slowID) = .ok n ∧
    creditedIn n.trace = [(slowID, 0), (slowID, 0)] := by
  obtain ⟨n, hrun, hn⟩ := exists_ok (p := fun n => decide (creditedIn n.trace = [(slowID, 0), (slowID, 0)]))
    (show ((@runPool miningCrypto slowGenesis slowCfg miningWallet forkOptions (Mempool.new 1)
      (twoShares 999999 slowID)).toOption.any _) = true by decide +kernel)
  exact ⟨n, hrun, of_decide_eq_true hn⟩

end Lxs.Pool
