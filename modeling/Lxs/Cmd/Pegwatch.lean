import Mathlib.Data.List.Sort
import Lxs.Contracts.Graduation

/-!
# The peg's relayer

`cmd/pegwatch`: one pass of `relay` over the events of a source chain, the two cursors and their file. The chains go on
while a pass runs, and every answer of an RPC endpoint is an input of the pass: a call may fail, and a transaction that the
endpoint accepts may be executed at any later time, fail then, or never be executed.

* `relay_spec`: what one pass leaves, and exactly when everything up to its cursor is marked.
* `never_skips`: **no event is skipped** in runs in which every transaction that a pass sends takes effect before the pass
  ends; a pass in which one does not leaves its event behind the cursor.
-/

namespace Lxs.Pegwatch

open Contracts

/-! ### The two chains -/

structure EthLog where
  blockNumber : ℕ
  event : Event
  deriving DecidableEq

/-- The last block, and the events of the peg's contract; those of the block under way are already in the list. -/
structure Chain where
  head : ℕ
  logs : List EthLog

def Chain.emit (c : Chain) (events : List Event) : Chain :=
  { c with logs := c.logs ++ events.map fun e => ⟨c.head + 1, e⟩ }

structure World where
  peg : Peg
  lxs : Chain
  base : Chain

/-- What happens on the chains: a transaction on a contract of the peg, or the end of a block. -/
inductive Tick
  | tx (op : Contracts.Op)
  | mineLxs
  | mineBase

def World.tick (w : World) : Tick → World
  | .tx op =>
    let p := w.peg.exec op
    { peg := p
      lxs := w.lxs.emit (p.vault.locks.drop w.peg.vault.locks.length)
      base := w.base.emit (p.token.redeems.drop w.peg.token.redeems.length) }
  | .mineLxs => { w with lxs := { w.lxs with head := w.lxs.head + 1 } }
  | .mineBase => { w with base := { w.base with head := w.base.head + 1 } }

def World.ticks (w : World) (ts : List Tick) : World := ts.foldl World.tick w

/-- `Locked` on LXS to `mint` on Base, or `Redeem` on Base to `release` on LXS. -/
inductive Direction
  | mint
  | release
  deriving DecidableEq

namespace Direction

def src : Direction → World → Chain
  | mint, w => w.lxs
  | release, w => w.base

/-- `mintedNonce` on Base, or `releasedNonce` on LXS. -/
def processed : Direction → World → ℕ → Bool
  | mint, w => w.peg.token.mintedNonce
  | release, w => w.peg.vault.releasedNonce

end Direction

/-! ### One pass -/

/-- What one event gets from the destination: the answer to the check of its nonce, `none` if the call fails, and whether a
transaction for it is accepted. -/
structure Reply where
  done : Option Bool
  accepted : Bool

/-- The answers a pass gets, and what the chains do from its start to its end. -/
structure Pass where
  head : Option ℕ
  logs : Option (List EthLog)
  reply : EthLog → Reply
  ticks : List Tick

/-- The check fails, or the transaction is not accepted: the pass stops here. -/
def Reply.Refused (r : Reply) : Prop := r.done = none ∨ r.done = some false ∧ r.accepted = false

/-- Just before the block of a log, so that it is retried. -/
def holdCursor (l : EthLog) (cursor : ℕ) : ℕ := if 0 < l.blockNumber then l.blockNumber - 1 else cursor

def relayLoop (reply : EthLog → Reply) (cursor safe : ℕ) : List EthLog → ℕ
  | [] => safe
  | l :: ls =>
    match (reply l).done with
    | none => holdCursor l cursor
    | some true => relayLoop reply cursor safe ls
    | some false => if !(reply l).accepted then holdCursor l cursor else relayLoop reply cursor safe ls

/-- The new cursor. The order in which the sort leaves the logs of one block does not matter to it. -/
def relay (confirmations cursor : ℕ) (p : Pass) : ℕ :=
  match p.head with
  | none => cursor
  | some head =>
    if head < confirmations then cursor
    else
      let safe := head - confirmations
      if safe ≤ cursor then cursor
      else
        match p.logs with
        | none => cursor
        | some logs => relayLoop p.reply cursor safe (logs.insertionSort fun a b => a.blockNumber ≤ b.blockNumber)

/-- Truthful answers, where there is one: a block number that the source has reached, its logs of the range in any order,
and `true` for a nonce only if it is marked. Marks stay, so it is still marked when the pass ends. -/
structure Answers (d : Direction) (confirmations cursor : ℕ) (p : Pass) (w : World) : Prop where
  head_le : ∀ h, p.head = some h → h ≤ (d.src w).head
  logs_perm : ∀ h logs, p.head = some h → p.logs = some logs →
    logs.Perm ((d.src w).logs.filter fun l => cursor < l.blockNumber ∧ l.blockNumber ≤ h - confirmations)
  done : ∀ logs, p.logs = some logs → ∀ l ∈ logs, (p.reply l).done = some true →
    d.processed (w.ticks p.ticks) l.event.nonce = true

/-- Every transaction that the destination accepts in a pass has taken effect when the pass ends, unless the pass stops at
an event of the same block or of an earlier one. -/
def Landed (d : Direction) (confirmations cursor : ℕ) (p : Pass) (w : World) : Prop :=
  ∀ h logs, p.head = some h → confirmations ≤ h → cursor < h - confirmations → p.logs = some logs →
    ∀ l ∈ logs, (p.reply l).done = some false → (p.reply l).accepted = true →
      d.processed (w.ticks p.ticks) l.event.nonce = true ∨ ∃ k ∈ logs, k.blockNumber ≤ l.blockNumber ∧ (p.reply k).Refused

/-! ### The daemon -/

/-- The chains, the cursors in memory, and those in the file. -/
structure Node where
  world : World
  cursor : Direction → ℕ
  saved : Direction → ℕ

/-- A tick of the chains, a pass, the save that follows (which may fail), and a restart; a file that cannot be read is as
none. A crash in the middle of a pass is the ticks so far and a restart. -/
inductive Op
  | tick (t : Tick)
  | relay (d : Direction) (p : Pass)
  | save (ok : Bool)
  | restart (readable : Bool)

def Node.exec (confirmations : ℕ) (n : Node) : Op → Node
  | .tick t => { n with world := n.world.tick t }
  | .relay d p =>
    { n with
      world := n.world.ticks p.ticks
      cursor := Function.update n.cursor d (Pegwatch.relay confirmations (n.cursor d) p) }
  | .save ok => if ok then { n with saved := n.cursor } else n
  | .restart readable => { n with cursor := if readable then n.saved else fun _ => 0 }

def start (p : Peg) : Node := ⟨⟨p, ⟨0, []⟩, ⟨0, []⟩⟩, fun _ => 0, fun _ => 0⟩

/-- The states of runs whose passes get truthful answers and meet the condition `C`. -/
inductive Reachable (C : Direction → ℕ → ℕ → Pass → World → Prop) (confirmations : ℕ) : Node → Prop
  | start {p : Peg} (self tokenOperator vaultOperator : Address) :
    deploy self tokenOperator vaultOperator = some p → Reachable C confirmations (start p)
  | step {n : Node} (op : Op) : Reachable C confirmations n →
    (∀ d p, op = .relay d p → Answers d confirmations (n.cursor d) p n.world ∧ C d confirmations (n.cursor d) p n.world) →
    Reachable C confirmations (n.exec confirmations op)

def Covers (w : World) (d : Direction) (cursor : ℕ) : Prop :=
  ∀ l ∈ (d.src w).logs, l.blockNumber ≤ cursor → d.processed w l.event.nonce = true

/-! ### The chains only go on -/

/-- What a transaction on the peg keeps: events stay, and so do marks. -/
structure Grows (p p' : Peg) : Prop where
  locks : p.vault.locks <+: p'.vault.locks
  redeems : p.token.redeems <+: p'.token.redeems
  minted : ∀ n, p.token.mintedNonce n = true → p'.token.mintedNonce n = true
  released : ∀ n, p.vault.releasedNonce n = true → p'.vault.releasedNonce n = true

theorem Grows.refl (p : Peg) : Grows p p := ⟨List.prefix_rfl, List.prefix_rfl, fun _ h => h, fun _ h => h⟩

theorem grows_message (p : Peg) (m : Message) : Grows p { p with vault := p.vault.message m } := by
  have hvault : p.vault.locks <+: (p.vault.message m).locks ∧
      ∀ n, p.vault.releasedNonce n = true → (p.vault.message m).releasedNonce n = true := by
    refine message_keeps (I := fun v => p.vault.locks <+: v.locks ∧
      ∀ n, p.vault.releasedNonce n = true → v.releasedNonce n = true) ?_ ?_ (fun _ _ _ _ hv => hv)
      ⟨List.prefix_rfl, fun _ h => h⟩
    · rintro v v' sender value ⟨hlocks, hreleased⟩ h
      obtain rfl := Peg.deposit_eq h
      exact ⟨hlocks.trans (List.prefix_append _ _), hreleased⟩
    · rintro v' sender nonce recipient amount inner ok - h
      obtain ⟨-, -, -, -, rfl⟩ := Peg.startRelease_some h
      exact ⟨List.prefix_rfl, fun n hn => Peg.update_true_of hn⟩
  exact ⟨hvault.1, List.prefix_rfl, fun _ h => h, hvault.2⟩

theorem grows_exec (p : Peg) (op : Contracts.Op) : Grows p (p.exec op) := by
  have hmoved : ∀ {r : Option WrappedLXS}, (∀ t', r = some t' → Peg.Moved p.token t') →
      Grows p { p with token := r.getD p.token } := by
    intro r hr
    cases r with
    | none => exact .refl p
    | some t' =>
      rw [Option.getD_some, (hr t' rfl).rest]
      exact ⟨List.prefix_rfl, List.prefix_rfl, fun _ h => h, fun _ h => h⟩
  cases op with
  | vault m => exact grows_message p m
  | mint sender nonce recipient amount =>
    rw [Peg.exec]
    cases hmint : p.token.mint sender nonce recipient amount with
    | none => exact .refl p
    | some t' =>
      obtain ⟨-, -, rfl⟩ := Peg.mint_some hmint
      exact ⟨List.prefix_rfl, List.prefix_rfl, fun n hn => Peg.update_true_of hn, fun _ h => h⟩
  | redeem sender amount =>
    rw [Peg.exec]
    cases hredeem : p.token.redeem sender amount with
    | none => exact .refl p
    | some t' =>
      obtain ⟨rest, supply, -, -, rfl⟩ := Peg.redeem_some hredeem
      exact ⟨List.prefix_rfl, List.prefix_append _ _, fun _ h => h, fun _ h => h⟩
  | transfer sender recipient value => exact hmoved fun _ h => Peg.moved_move h
  | transferFrom sender source recipient value => exact hmoved fun _ h => Peg.moved_transferFrom h
  | approve sender spender value => exact ⟨List.prefix_rfl, List.prefix_rfl, fun _ h => h, fun _ h => h⟩

/-- A later state of the chains: marks stay, and new events are in new blocks. -/
structure Later (w w' : World) : Prop where
  keeps : ∀ (d : Direction), ∀ l ∈ (d.src w).logs, l ∈ (d.src w').logs
  head : ∀ d : Direction, (d.src w).head ≤ (d.src w').head
  logs : ∀ (d : Direction), ∀ l ∈ (d.src w').logs, l ∈ (d.src w).logs ∨ (d.src w).head < l.blockNumber
  processed : ∀ (d : Direction) n, d.processed w n = true → d.processed w' n = true

variable {w w' w'' : World} {d : Direction} {confirmations cursor safe : ℕ}

theorem Later.refl (w : World) : Later w w := ⟨fun _ _ h => h, fun _ => le_rfl, fun _ _ h => .inl h, fun _ _ h => h⟩

theorem Later.trans (h : Later w w') (h' : Later w' w'') : Later w w'' where
  keeps d l hl := h'.keeps d l (h.keeps d l hl)
  head d := (h.head d).trans (h'.head d)
  logs d l hl := by
    rcases h'.logs d l hl with hl | hl
    · exact h.logs d l hl
    · exact .inr ((h.head d).trans_lt hl)
  processed d n hn := h'.processed d n (h.processed d n hn)

theorem mem_emit {c : Chain} {events : List Event} {l : EthLog} (h : l ∈ (c.emit events).logs) :
    l ∈ c.logs ∨ c.head < l.blockNumber := by
  rcases List.mem_append.1 h with h | h
  · exact .inl h
  · obtain ⟨e, -, rfl⟩ := List.mem_map.1 h
    exact .inr (Nat.lt_succ_self _)

theorem later_tick (w : World) (t : Tick) : Later w (w.tick t) := by
  cases t with
  | tx op =>
    have hgrows := grows_exec w.peg op
    refine ⟨?_, ?_, ?_, ?_⟩
    · rintro (_ | _) l hl <;> exact List.mem_append_left _ hl
    · rintro (_ | _) <;> exact le_rfl
    · rintro (_ | _) l hl <;> exact mem_emit hl
    · rintro (_ | _) n hn
      · exact hgrows.minted n hn
      · exact hgrows.released n hn
  | mineLxs =>
    refine ⟨fun d l hl => by cases d <;> exact hl, ?_, fun d l hl => .inl (by cases d <;> exact hl), fun d n hn => by cases d <;> exact hn⟩
    rintro (_ | _)
    · exact Nat.le_succ _
    · exact le_rfl
  | mineBase =>
    refine ⟨fun d l hl => by cases d <;> exact hl, ?_, fun d l hl => .inl (by cases d <;> exact hl), fun d n hn => by cases d <;> exact hn⟩
    rintro (_ | _)
    · exact le_rfl
    · exact Nat.le_succ _

theorem later_ticks (ts : List Tick) : ∀ w : World, Later w (w.ticks ts) := by
  induction ts with
  | nil => exact .refl
  | cons t ts ih => exact fun w => (later_tick w t).trans (ih (w.tick t))

theorem Later.covers (h : Later w w') (hle : cursor ≤ (d.src w).head) (hc : Covers w d cursor) : Covers w' d cursor := by
  intro l hl hb
  rcases h.logs d l hl with hl | hl
  · exact h.processed d _ (hc l hl hb)
  · omega

/-! ### What a pass leaves -/

/-- **The loop**, over logs sorted by block: a log is at or below the cursor it returns exactly if no log of its block or
of an earlier one is refused. -/
theorem relayLoop_spec (reply : EthLog → Reply) {ls : List EthLog} :
    ls.Pairwise (fun a b => a.blockNumber ≤ b.blockNumber) →
    (∀ l ∈ ls, cursor < l.blockNumber ∧ l.blockNumber ≤ safe) → cursor ≤ safe →
    cursor ≤ relayLoop reply cursor safe ls ∧ relayLoop reply cursor safe ls ≤ safe ∧
      ∀ b ≤ safe, b ≤ relayLoop reply cursor safe ls ↔ ∀ k ∈ ls, k.blockNumber ≤ b → ¬ (reply k).Refused := by
  induction ls with
  | nil =>
    intro _ _ hle
    exact ⟨hle, le_rfl, fun b hb => ⟨fun _ k hk => absurd hk List.not_mem_nil, fun _ => hb⟩⟩
  | cons l ls ih =>
    intro hsorted hrange hle
    obtain ⟨hfirst, hrest⟩ := List.pairwise_cons.1 hsorted
    obtain ⟨hlow, hhigh⟩ := hrange l (List.mem_cons_self ..)
    obtain ⟨hge, hsafe, hiff⟩ := ih hrest (fun k hk => hrange k (List.mem_cons_of_mem _ hk)) hle
    -- a refused log is the first of the list, and what is below its block is below every block of the list
    have hold : (reply l).Refused → cursor ≤ holdCursor l cursor ∧ holdCursor l cursor ≤ safe ∧
        ∀ b ≤ safe, b ≤ holdCursor l cursor ↔ ∀ k ∈ l :: ls, k.blockNumber ≤ b → ¬ (reply k).Refused := by
      intro hrefused
      rw [holdCursor, if_pos (by omega)]
      refine ⟨by omega, by omega, fun b _ => ⟨fun hb k hk hkb => ?_, fun hall => ?_⟩⟩
      · rcases List.mem_cons.1 hk with rfl | hk
        · omega
        · have := hfirst k hk
          omega
      · by_contra hb
        exact hall l (List.mem_cons_self ..) (by omega) hrefused
    have hpass : ¬ (reply l).Refused → cursor ≤ relayLoop reply cursor safe ls ∧ relayLoop reply cursor safe ls ≤ safe ∧
        ∀ b ≤ safe, b ≤ relayLoop reply cursor safe ls ↔
          ∀ k ∈ l :: ls, k.blockNumber ≤ b → ¬ (reply k).Refused := by
      intro hfine
      refine ⟨hge, hsafe, fun b hb => (hiff b hb).trans ?_⟩
      rw [List.forall_mem_cons]
      exact ⟨fun h => ⟨fun _ => hfine, h⟩, fun h => h.2⟩
    unfold relayLoop
    cases hdone : (reply l).done with
    | none => exact hold (.inl hdone)
    | some done =>
      cases done with
      | true => exact hpass (by rintro (h | ⟨h, -⟩) <;> simp [hdone] at h)
      | false =>
        cases haccepted : (reply l).accepted with
        | false => exact hold (.inr ⟨hdone, haccepted⟩)
        | true => exact hpass (by rintro (h | ⟨-, h⟩) <;> simp [hdone, haccepted] at h)

/-- **One pass** from a cursor up to which everything is marked: it keeps to what the chain has reached, and everything up
to its new cursor is marked when it ends exactly if the transactions it sent have landed. -/
theorem relay_spec {p : Pass} (ha : Answers d confirmations cursor p w) (hle : cursor ≤ (d.src w).head)
    (hc : Covers w d cursor) :
    relay confirmations cursor p ≤ (d.src w).head ∧
      (Covers (w.ticks p.ticks) d (relay confirmations cursor p) ↔ Landed d confirmations cursor p w) := by
  have hlater := later_ticks p.ticks w
  -- a pass that ends before its loop leaves the cursor, and sends nothing
  have hstay : relay confirmations cursor p = cursor → Landed d confirmations cursor p w →
      relay confirmations cursor p ≤ (d.src w).head ∧
        (Covers (w.ticks p.ticks) d (relay confirmations cursor p) ↔ Landed d confirmations cursor p w) := by
    intro heq hlanded
    rw [heq]
    exact ⟨hle, fun _ => hlanded, fun _ => hlater.covers hle hc⟩
  cases hhead : p.head with
  | none => exact hstay (by simp only [relay, hhead]) fun h _ hp => by simp [hhead] at hp
  | some head =>
    by_cases hdeep : head < confirmations
    · refine hstay (by simp only [relay, hhead, if_pos hdeep]) fun h _ hp hcf => ?_
      obtain rfl : head = h := Option.some.inj (hhead.symm.trans hp)
      omega
    by_cases hsafe : head - confirmations ≤ cursor
    · refine hstay (by simp only [relay, hhead, if_neg hdeep, if_pos hsafe]) fun h _ hp _ hlt => ?_
      obtain rfl : head = h := Option.some.inj (hhead.symm.trans hp)
      omega
    cases hlogs : p.logs with
    | none =>
      exact hstay (by simp only [relay, hhead, if_neg hdeep, if_neg hsafe, hlogs]) fun _ _ _ _ _ hp => by
        simp [hlogs] at hp
    | some logs =>
      have heq : relay confirmations cursor p = relayLoop p.reply cursor (head - confirmations)
          (logs.insertionSort fun a b => a.blockNumber ≤ b.blockNumber) := by
        simp only [relay, hhead, if_neg hdeep, if_neg hsafe, hlogs]
      have hmem : ∀ l, l ∈ logs ↔ l ∈ (d.src w).logs ∧ cursor < l.blockNumber ∧ l.blockNumber ≤ head - confirmations := by
        intro l
        rw [(ha.logs_perm head logs hhead hlogs).mem_iff, List.mem_filter, decide_eq_true_eq]
      have hsorted : (logs.insertionSort fun a b => a.blockNumber ≤ b.blockNumber).Pairwise
          fun a b => a.blockNumber ≤ b.blockNumber := by
        have : Std.Total fun (a b : EthLog) => a.blockNumber ≤ b.blockNumber := ⟨fun a b => Nat.le_total _ _⟩
        have : IsTrans EthLog fun a b => a.blockNumber ≤ b.blockNumber := ⟨fun _ _ _ => Nat.le_trans⟩
        exact List.pairwise_insertionSort _ logs
      obtain ⟨hge, htop, hiff⟩ := relayLoop_spec p.reply hsorted (fun l hl => ((hmem l).1 ((List.mem_insertionSort _).1 hl)).2) (by omega)
      rw [← heq] at hge htop hiff
      simp only [List.mem_insertionSort] at hiff
      have hreached := ha.head_le head hhead
      refine ⟨by omega, fun hcovers => ?_, fun hlanded l hl hb => ?_⟩
      · intro h logs' hp _ _ hp' l hl _ _
        obtain rfl : head = h := Option.some.inj (hhead.symm.trans hp)
        obtain rfl : logs = logs' := Option.some.inj (hlogs.symm.trans hp')
        obtain ⟨hsrc, -, hbound⟩ := (hmem l).1 hl
        by_cases hrefused : ∃ k ∈ logs, k.blockNumber ≤ l.blockNumber ∧ (p.reply k).Refused
        · exact .inr hrefused
        · refine .inl (hcovers l (hlater.keeps d l hsrc) ((hiff _ hbound).2 fun k hk hkb hr => ?_))
          exact hrefused ⟨k, hk, hkb, hr⟩
      · rcases hlater.logs d l hl with hsrc | hnew
        · by_cases hold : l.blockNumber ≤ cursor
          · exact hlater.processed d _ (hc l hsrc hold)
          · have hin : l ∈ logs := (hmem l).2 ⟨hsrc, by omega, by omega⟩
            have hfine := (hiff l.blockNumber (by omega)).1 hb
            have hself := hfine l hin le_rfl
            cases hdone : (p.reply l).done with
            | none => exact absurd (.inl hdone) hself
            | some done =>
              cases done with
              | true => exact ha.done logs hlogs l hin hdone
              | false =>
                have haccepted : (p.reply l).accepted = true := by
                  by_contra hno
                  exact hself (.inr ⟨hdone, by simpa using hno⟩)
                rcases hlanded head logs hhead (by omega) (by omega) hlogs l hin hdone haccepted with h | ⟨k, hk, hkb, hr⟩
                · exact h
                · exact absurd hr (hfine k hk hkb)
        · omega

/-! ### Runs -/

/-- A cursor that the chain has reached and up to which everything is marked. -/
structure Held (w : World) (d : Direction) (cursor : ℕ) : Prop where
  le_head : cursor ≤ (d.src w).head
  covers : Covers w d cursor

theorem Held.later (h : Held w d cursor) (hl : Later w w') : Held w' d cursor :=
  ⟨h.le_head.trans (hl.head d), hl.covers h.le_head h.covers⟩

/-- The cursors in memory, those in the file, and zero, where a restart without a file begins. -/
structure AllHeld (n : Node) : Prop where
  cursor : ∀ d, Held n.world d (n.cursor d)
  saved : ∀ d, Held n.world d (n.saved d)
  zero : ∀ d, Held n.world d 0

variable {n : Node}

theorem AllHeld.exec (hn : AllHeld n) {op : Op}
    (hop : ∀ d p, op = .relay d p → Answers d confirmations (n.cursor d) p n.world ∧
      Landed d confirmations (n.cursor d) p n.world) : AllHeld (n.exec confirmations op) := by
  cases op with
  | tick t =>
    have hl := later_tick n.world t
    exact ⟨fun d => (hn.cursor d).later hl, fun d => (hn.saved d).later hl, fun d => (hn.zero d).later hl⟩
  | relay d p =>
    obtain ⟨ha, hlanded⟩ := hop d p rfl
    have hl := later_ticks p.ticks n.world
    obtain ⟨hle, hiff⟩ := relay_spec ha (hn.cursor d).le_head (hn.cursor d).covers
    refine ⟨fun d' => ?_, fun d' => (hn.saved d').later hl, fun d' => (hn.zero d').later hl⟩
    by_cases hd : d' = d
    · subst hd
      simp only [Node.exec, Function.update_self]
      exact ⟨hle.trans (hl.head d'), hiff.2 hlanded⟩
    · simp only [Node.exec, Function.update_of_ne hd]
      exact (hn.cursor d').later hl
  | save ok =>
    cases ok with
    | false => exact hn
    | true => exact ⟨hn.cursor, hn.cursor, hn.zero⟩
  | restart readable =>
    cases readable with
    | false => exact ⟨hn.zero, hn.saved, hn.zero⟩
    | true => exact ⟨hn.saved, hn.saved, hn.zero⟩

theorem allHeld_start (p : Peg) : AllHeld (start p) := by
  have hzero : ∀ d, Held (start p).world d 0 := by
    rintro (_ | _) <;> exact ⟨le_rfl, fun l hl => absurd hl List.not_mem_nil⟩
  exact ⟨hzero, hzero, hzero⟩

theorem Reachable.allHeld (h : Reachable Landed confirmations n) : AllHeld n := by
  induction h with
  | start _ _ _ _ => exact allHeld_start _
  | step op _ hop ih => exact ih.exec hop

/-- **No event is skipped** in a run whose passes all meet the condition: every event up to a saved cursor is marked on the
other chain. From such a state, a pass that does not meet it leaves an unmarked event behind the cursor that is saved
next. -/
theorem never_skips (h : Reachable Landed confirmations n) :
    (∀ d, Covers n.world d (n.saved d)) ∧
      ∀ d p, Answers d confirmations (n.cursor d) p n.world → ¬ Landed d confirmations (n.cursor d) p n.world →
        ¬ Covers ((n.exec confirmations (.relay d p)).exec confirmations (.save true)).world d
          (((n.exec confirmations (.relay d p)).exec confirmations (.save true)).saved d) := by
  have hsafe := h.allHeld
  refine ⟨fun d => (hsafe.saved d).covers, fun d p ha hnot hcovers => hnot ?_⟩
  refine (relay_spec ha (hsafe.cursor d).le_head (hsafe.cursor d).covers).2.1 ?_
  simpa only [Node.exec, if_true, Function.update_self] using hcovers

/-! ### A transaction that is lost -/

def locked : Node := ((start Peg.freshPeg).exec 0 (.tick (.tx (.vault (.lock 7 10))))).exec 0 (.tick .mineLxs)

/-- The mint of the lock is accepted by the endpoint; `ticks` says what becomes of it. -/
def samplePass (ticks : List Tick) : Pass := ⟨some 1, some [⟨1, ⟨0, 7, 10⟩⟩], fun _ => ⟨some false, true⟩, ticks⟩

theorem reachable_locked (C : Direction → ℕ → ℕ → Pass → World → Prop) : Reachable C 0 locked :=
  .step _ (.step _ (.start 99 1 2 rfl) fun _ _ h => by cases h) fun _ _ h => by cases h

theorem answers_samplePass (ticks : List Tick) : Answers .mint 0 (locked.cursor .mint) (samplePass ticks) locked.world where
  head_le h hp := by
    cases hp
    decide
  logs_perm h logs hp hp' := by
    cases hp
    cases hp'
    decide
  done logs _ l _ hdone := by cases hdone

def mintTicks : List Tick := [.tx (.mint 1 0 7 10), .mineBase]

theorem landed_samplePass : Landed .mint 0 (locked.cursor .mint) (samplePass mintTicks) locked.world := by
  intro h logs hp _ _ hp' l hl _ _
  cases hp'
  obtain rfl := List.mem_singleton.1 hl
  exact .inl (by decide)

def minted : Node := (locked.exec 0 (.relay .mint (samplePass mintTicks))).exec 0 (.save true)

/-- The mint is executed before the pass ends. -/
theorem never_skips_minted : minted.saved .mint = 1 ∧ minted.world.lxs.logs = [⟨1, ⟨0, 7, 10⟩⟩] ∧
    Covers minted.world .mint (minted.saved .mint) := by
  have hrelay : Reachable Landed 0 (locked.exec 0 (.relay .mint (samplePass mintTicks))) :=
    .step _ (reachable_locked Landed) fun d p h => by
      cases h
      exact ⟨answers_samplePass _, landed_samplePass⟩
  have hsave : Reachable Landed 0 minted := .step (.save true) hrelay fun _ _ h => by cases h
  exact ⟨by decide, by decide, (never_skips hsave).1 .mint⟩

def skipped : Node := (locked.exec 0 (.relay .mint (samplePass []))).exec 0 (.save true)

/-- The endpoint accepts the mint and it is never executed: the saved cursor is past the lock, and its nonce is not
marked. -/
theorem skips_dropped : ∃ n, Reachable (fun _ _ _ _ _ => True) 0 n ∧
    (⟨1, ⟨0, 7, 10⟩⟩ : EthLog) ∈ n.world.lxs.logs ∧ 1 ≤ n.saved .mint ∧ n.world.peg.token.mintedNonce 0 = false := by
  have hrelay : Reachable (fun _ _ _ _ _ => True) 0 (locked.exec 0 (.relay .mint (samplePass []))) :=
    .step _ (reachable_locked _) fun d p h => by
      cases h
      exact ⟨answers_samplePass _, trivial⟩
  have hsave : Reachable (fun _ _ _ _ _ => True) 0 skipped := .step (.save true) hrelay fun _ _ h => by cases h
  exact ⟨skipped, hsave, by decide, by decide, by decide⟩

end Lxs.Pegwatch
