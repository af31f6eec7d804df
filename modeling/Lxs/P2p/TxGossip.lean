import Lxs.Core.Producer
import Lxs.Mempool.Admission
import Lxs.P2p.Gossip

/-!
# Transaction gossip

`p2p/txgossip.go`: inbound transactions and the gate before the mempool. The answers of the scorer and of the rate
limiter are arguments, and so is the pool at the time of the first, unlocked lookup.

## Main results

* `TxGossip.onTx_spares_iff` — **when the relayer of a sane transaction is not penalised**;
* `TxGossip.onTx_blames_crowd` — a relayer of the transactions of one account, in the order in which they arrived.
-/

namespace Lxs.P2p

open Std Lib

def maxTxMessage : ℕ := 131072

/-- A message on the wire: its length, and the transaction in it if it decodes to one. -/
structure TxMessage where
  size : ℕ
  tx : Option Transaction

structure TxStats where
  received : Int64
  duplicate : Int64
  accepted : Int64
  rejected : Int64
  dropped : Int64
  deriving DecidableEq

inductive TxGossipError
  | messageTooLarge (size : ℕ)
  | badEncoding
  | dropped (h : Hash) (e : PoolError)
  | rejected (h : Hash) (e : PoolError)
  deriving DecidableEq

structure TxGossip where
  pool : Mempool
  stats : TxStats
  /-- the peers penalised so far, the newest first -/
  penalties : List PeerID
  deriving DecidableEq

def isTransientReject : PoolError → Bool
  | .poolFull => true
  | .nonceUsed => true
  | .nonceStale => true
  | .cannotPay => true
  | .underpriced => true
  | _ => false

namespace TxGossip

def newTxGossip (pool : Mempool) : TxGossip := ⟨pool, ⟨0, 0, 0, 0, 0⟩, []⟩

def penalize (tg : TxGossip) (p : PeerID) : TxGossip :=
  { tg with stats := { tg.stats with rejected := tg.stats.rejected + 1 }, penalties := p :: tg.penalties }

def drop (tg : TxGossip) : TxGossip := { tg with stats := { tg.stats with dropped := tg.stats.dropped + 1 } }

variable [Crypto]

def accept (bc : Blockchain) (seen pool : Mempool) (tx : Transaction) (o : MapOrder) :
    Option (Mempool × Except PoolError Unit) :=
  if (seen.get tx.hash).isSome then some (pool, .error .alreadyKnown)
  else
    match tx.sanityCheck bc.chainID with
    | .error e => some (pool, .error (.check e))
    | .ok _ =>
      match bc.stateSnapshot with
      | none => none
      | some snapshot =>
        match Mempool.checkState snapshot tx with
        | none => none
        | some (.error e) => some (pool, .error e)
        | some (.ok _) => pool.add tx bc.chainID true o

def settle (tg : TxGossip) (source : PeerID) (h : Hash) : Except PoolError Unit → Except TxGossipError Unit × TxGossip
  | .ok _ => (.ok (), { tg with stats := { tg.stats with accepted := tg.stats.accepted + 1 } })
  | .error e =>
    if e = .alreadyKnown then (.ok (), { tg with stats := { tg.stats with duplicate := tg.stats.duplicate + 1 } })
    else if isTransientReject e then (.error (.dropped h e), tg.drop)
    else (.error (.rejected h e), tg.penalize source)

def onTx (tg : TxGossip) (bc : Blockchain) (seen : Mempool) (banned allowed : Bool) (source : PeerID) (msg : TxMessage)
    (o : MapOrder) : Option (Except TxGossipError Unit × TxGossip) :=
  if banned then some (.ok (), tg.drop)
  else if !allowed then some (.ok (), tg.drop)
  else
    let tg := { tg with stats := { tg.stats with received := tg.stats.received + 1 } }
    if maxTxMessage < msg.size then some (.error (.messageTooLarge msg.size), tg.penalize source)
    else
      match msg.tx with
      | none => some (.error .badEncoding, tg.penalize source)
      | some tx => (accept bc seen tg.pool tx o).map fun (pool, r) => settle { tg with pool := pool } source tx.hash r

/-! ### Whom a refusal is blamed on -/

/-- A transaction for which only the cap on its account is in the way: it is new, can be paid for, is priced above the
floor and has a nonce of its own, and its account has as many transactions in the pool as it may have. -/
structure Crowded (s : State) (seen pool : Mempool) (tx : Transaction) (sender : Address) : Prop where
  signed : tx.sender = .ok sender
  unseen : tx.hash ∉ seen.all
  nonce : s.nonce sender ≤ tx.nonce
  funds : ∃ cost, tx.cost = some cost ∧ cost ≤ s.balance sender
  priced : pool.isUnderpriced tx = false
  new : tx.hash ∉ pool.all
  free : tx.nonce ∉ pool.account sender
  full : maxPerAccount ≤ (pool.account sender).size

def Penalizes (tg : TxGossip) (bc : Blockchain) (seen : Mempool) (banned allowed : Bool) (source : PeerID) (msg : TxMessage)
    (o : MapOrder) : Prop :=
  ∃ r tg', tg.onTx bc seen banned allowed source msg o = some (r, tg') ∧ tg'.penalties = source :: tg.penalties

omit [Crypto] in
theorem settle_penalties (tg : TxGossip) (source : PeerID) (h : Hash) (r : Except PoolError Unit) :
    (tg.settle source h r).2.penalties = source :: tg.penalties ↔
      ∃ e, r = .error e ∧ e ≠ .alreadyKnown ∧ isTransientReject e = false := by
  cases r with
  | ok u => simp [settle]
  | error e =>
    rw [settle]
    split_ifs with hknown htransient <;> simp_all [drop, penalize]

variable {bc : Blockchain} {tx : Transaction}

theorem accept_eq_add {s : State} {seen : Mempool} {sender : Address} {cost : ℤ}
    (hsane : tx.sanityCheck bc.chainID = .ok ()) (hsnap : bc.stateSnapshot = some s) (hs : tx.sender = .ok sender)
    (hunseen : tx.hash ∉ seen.all) (hnonce : s.nonce sender ≤ tx.nonce) (hcost : tx.cost = some cost)
    (hfunds : cost ≤ s.balance sender) (pool : Mempool) (o : MapOrder) :
    accept bc seen pool tx o = pool.add tx bc.chainID true o := by
  have hget : (seen.get tx.hash).isSome = false := by
    rw [Mempool.get, ExtTreeMap.getElem?_eq_none hunseen]
    rfl
  have hstate : Mempool.checkState s tx = some (.ok ()) := by
    simp [Mempool.checkState, hs, UInt64.not_lt.2 hnonce, hcost, Int.not_lt.2 hfunds]
  simp only [accept, hget, hsane, hsnap, hstate, Bool.false_eq_true, if_false]

theorem accept_of_crowded {s : State} {seen pool : Mempool} {sender : Address}
    (hsane : tx.sanityCheck bc.chainID = .ok ()) (hsnap : bc.stateSnapshot = some s) (h : Crowded s seen pool tx sender)
    (o : MapOrder) : accept bc seen pool tx o = some (pool.openAccount sender, .error .accountLimit) := by
  obtain ⟨cost, hcost, hfunds⟩ := h.funds
  rw [accept_eq_add hsane hsnap h.signed h.unseen h.nonce hcost hfunds]
  simp only [Mempool.add, hsane, h.signed, Mempool.addLocked, h.priced, Bool.and_false, Bool.false_eq_true, h.new,
    Mempool.takeIn, Mempool.account_openAccount, h.free, h.full, if_true, if_false]

theorem crowded_of_accept {seen pool m' : Mempool} {o : MapOrder} {e : PoolError}
    (hsane : tx.sanityCheck bc.chainID = .ok ()) (h : accept bc seen pool tx o = some (m', .error e))
    (hknown : e ≠ .alreadyKnown) (htransient : isTransientReject e = false) :
    ∃ s sender, bc.stateSnapshot = some s ∧ Crowded s seen pool tx sender := by
  obtain ⟨sender, price, amount, htx⟩ := tx.sane_of_sanityCheck hsane
  rw [accept] at h
  split at h
  · cases h
    exact absurd rfl hknown
  next hunseen =>
  rw [hsane] at h
  dsimp only at h
  split at h
  · cases h
  next s hsnap =>
  have hcost : tx.cost = some (tx.gasLimit.toNat * price + amount) := by simp [Transaction.cost, htx.gasPrice, htx.value]
  simp only [Mempool.checkState, htx.sender, hcost, Option.map_some] at h
  split_ifs at h with hstale hpay
  · cases h
    cases htransient
  · cases h
    cases htransient
  · refine ⟨s, sender, hsnap, ?_⟩
    cases Mempool.add_some h with
    | check hbad =>
      rw [hsane] at hbad
      cases hbad
    | underpriced => cases htransient
    | known => exact absurd rfl hknown
    | taken _ hpriced hnew hsender htaken =>
      obtain rfl := Except.ok.inj (htx.sender.symm.trans hsender)
      cases htaken with
      | nonceUsed => cases htransient
      | refused => cases htransient
      | accountLimit hfree hfull =>
        rw [Mempool.account_openAccount] at hfree hfull
        refine ⟨htx.sender, fun hmem => hunseen ?_, UInt64.not_lt.1 hstale, ⟨_, hcost, Int.not_lt.1 hpay⟩, ?_, hnew, hfree, hfull⟩
        · exact ExtTreeMap.mem_iff_isSome_getElem?.1 hmem
        · simpa using hpriced

/-- **When the relayer of a sane transaction is not penalised.** -/
theorem onTx_spares_iff {tg : TxGossip} {bc : Blockchain} {msg : TxMessage} {tx : Transaction} (hsize : msg.size ≤ maxTxMessage)
    (htx : msg.tx = some tx) (hsane : tx.sanityCheck bc.chainID = .ok ()) (seen : Mempool) (banned allowed : Bool)
    (source : PeerID) (o : MapOrder) :
    ¬ tg.Penalizes bc seen banned allowed source msg o ↔ banned = true ∨ allowed = false ∨
      ∀ s sender, bc.stateSnapshot = some s → ¬ Crowded s seen tg.pool tx sender := by
  unfold Penalizes onTx
  cases banned with
  | true => simp [drop]
  | false =>
  cases allowed with
  | false => simp [drop]
  | true =>
    simp only [Bool.false_eq_true, Bool.not_true, if_false, Nat.not_lt.2 hsize, htx, false_or, reduceCtorEq]
    constructor
    · intro hspared s sender hsnap hcrowded
      refine hspared ⟨_, _, by rw [accept_of_crowded hsane hsnap hcrowded]; rfl, ?_⟩
      exact (settle_penalties _ source tx.hash _).2 ⟨.accountLimit, rfl, by decide, rfl⟩
    · rintro hnone ⟨r, tg', hon, hpen⟩
      obtain ⟨⟨pool, res⟩, hacc, hset⟩ := Option.map_eq_some_iff.1 hon
      have hset := congrArg Prod.snd hset
      dsimp only at hset
      rw [← hset] at hpen
      obtain ⟨e, rfl, hknown, htransient⟩ := (settle_penalties _ source tx.hash res).1 hpen
      obtain ⟨s, sender, hsnap, hcrowded⟩ := crowded_of_accept hsane hacc hknown htransient
      exact hnone s sender hsnap hcrowded

/-! ### An account with a backlog

One account sends 65 free transactions, and the one with the lowest nonce is relayed last. The primitives are replaced by
stand-ins that are easy to evaluate: a digest is the last byte, so that these transactions are told apart by the ends of
their signatures, and every signature is that of one account. -/

@[reducible]
def plainCrypto : Crypto where
  keccak256 b := BitVec.ofNat 256 (b.getLastD 0).toNat
  sha256 _ := []
  recoverCompact _ _ := some [4, 7]
  g1Add _ _ := none
  g1ScalarMult _ _ := none
  pairingCheck _ := none

def freeTx (nonce : UInt64) : Transaction :=
  ⟨0, 1, nonce, some 0xbeef, some 0, 21000, some 0, [], List.replicate 64 0 ++ [UInt8.ofNat (nonce.toNat + 1)]⟩

omit [Crypto] in
theorem hash_freeTx (nonce : UInt64) :
    @Transaction.hash plainCrypto (freeTx nonce) = BitVec.ofNat 256 (UInt8.ofNat (nonce.toNat + 1)).toNat := by
  unfold Transaction.hash
  rw [if_neg (by rintro ⟨h, -⟩; cases h)]
  simp only [freeTx, encBytes, ← List.append_assoc, keccak256, List.getLastD_concat]

omit [Crypto] in
theorem recoverAddress_zeros (digest : Hash) (x : UInt8) :
    @recoverAddress plainCrypto digest (List.replicate 64 0 ++ [x]) = .ok 7 := by
  have hx := x.toNat_lt
  have hs : bytesToNat (((List.replicate 64 0 ++ [x]).drop 33).take 32) = x.toNat := by
    simp [bytesToNat, List.replicate]
  have hlow : checkLowS (List.replicate 64 0 ++ [x]) = .ok () := by
    rw [checkLowS, if_neg (by simp [signatureLength]), hs, if_neg (by rw [halfOrder]; omega)]
  unfold recoverAddress recover
  rw [hlow]
  rfl

omit [Crypto] in
theorem sender_freeTx (nonce : UInt64) : @Transaction.sender plainCrypto (freeTx nonce) = .ok 7 := by
  unfold Transaction.sender
  rw [if_neg (by simp [freeTx, signatureLength]), freeTx, recoverAddress_zeros]

def freshChain : Blockchain := @Blockchain.fresh plainCrypto transferGenesis ⟨0, 4096⟩

omit [Crypto] in
theorem sanityCheck_freeTx (nonce : UInt64) :
    @Transaction.sanityCheck plainCrypto (freeTx nonce) freshChain.chainID = .ok () := by
  unfold Transaction.sanityCheck
  rw [sender_freeTx]
  rfl

omit [Crypto] in
theorem onTx_spares_iff_free : 400 ≤ maxTxMessage ∧
    @Transaction.sanityCheck plainCrypto (freeTx 0) freshChain.chainID = .ok () ∧
    (¬ @Penalizes plainCrypto (newTxGossip (.new 5000)) freshChain (.new 5000) false true "alice" ⟨400, some (freeTx 0)⟩ .sorted ↔
      false = true ∨ true = false ∨ ∀ s sender, @Blockchain.stateSnapshot plainCrypto freshChain = some s →
        ¬ @Crowded plainCrypto s (.new 5000) (.new 5000) (freeTx 0) sender) :=
  ⟨by decide, sanityCheck_freeTx 0,
    @onTx_spares_iff plainCrypto _ freshChain _ _ (by decide) rfl (sanityCheck_freeTx 0) _ false true "alice" .sorted⟩

omit [Crypto] in
theorem exists_snapshot : ∃ s, @Blockchain.stateSnapshot plainCrypto freshChain = some s ∧ s.nonce 7 = 0 ∧ s.balance 7 = 0 := by
  have hmap : (@Blockchain.stateSnapshot plainCrypto freshChain).map (fun s => (s.nonce 7, s.balance 7)) = some (0, 0) := by
    decide +kernel
  obtain ⟨s, hs, hpair⟩ := Option.map_eq_some_iff.1 hmap
  exact ⟨s, hs, Prod.mk.inj hpair⟩

def relay (tg : TxGossip) (tx : Transaction) : Option TxGossip :=
  (@onTx plainCrypto tg freshChain tg.pool false true "alice" ⟨400, some tx⟩ .sorted).map Prod.snd

omit [Crypto] in
theorem relay_of_accept {tg : TxGossip} {pool : Mempool}
    (h : @accept plainCrypto freshChain tg.pool tg.pool tx .sorted = some (pool, .ok ())) :
    ∃ tg', relay tg tx = some tg' ∧ tg'.pool = pool ∧ tg'.penalties = tg.penalties := by
  simp [relay, onTx, maxTxMessage, h, settle]

/-- The transactions from nonce 1 to nonce `n` are queued, and nobody was penalised. -/
structure Backlog (n : ℕ) (tg : TxGossip) : Prop where
  penalties : tg.penalties = []
  maxSize : tg.pool.maxSize = 5000
  floor : tg.pool.minGasPrice = none
  hashes : ∀ h ∈ tg.pool.all, 2 ≤ h.toNat ∧ h.toNat ≤ n + 1
  size_le : tg.pool.all.size ≤ n
  nonces : ∀ k ∈ tg.pool.account 7, 1 ≤ k.toNat ∧ k.toNat ≤ n
  size_account : (tg.pool.account 7).size = n

omit [Crypto] in
theorem backlog_zero : Backlog 0 (newTxGossip (.new 5000)) where
  penalties := rfl
  maxSize := rfl
  floor := rfl
  hashes _ hh := absurd hh ExtTreeMap.not_mem_empty
  size_le := le_rfl
  nonces _ hk := absurd hk ExtTreeMap.not_mem_empty
  size_account := rfl

omit [Crypto] in
theorem Backlog.relay {n : ℕ} {tg : TxGossip} (h : Backlog n tg) (hn : n < 64) :
    ∃ tg', TxGossip.relay tg (freeTx (UInt64.ofNat (n + 1))) = some tg' ∧ Backlog (n + 1) tg' := by
  obtain ⟨s, hsnap, hnonce, hbalance⟩ := exists_snapshot
  have hk : (UInt64.ofNat (n + 1)).toNat = n + 1 := by rw [UInt64.toNat_ofNat', Nat.mod_eq_of_lt (by omega)]
  set tx := freeTx (UInt64.ofNat (n + 1)) with htx
  have hhash : (@Transaction.hash plainCrypto tx).toNat = n + 2 := by
    rw [htx, hash_freeTx, hk, UInt8.toNat_ofNat', Nat.mod_eq_of_lt (by omega), BitVec.toNat_ofNat, Nat.mod_eq_of_lt (by omega)]
  have hnew : @Transaction.hash plainCrypto tx ∉ tg.pool.all := by
    intro hmem
    have := (h.hashes _ hmem).2
    omega
  have hfree : tx.nonce ∉ tg.pool.account 7 := by
    intro hmem
    have := (h.nonces _ hmem).2
    rw [htx, freeTx, hk] at this
    omega
  have hsane := sanityCheck_freeTx (UInt64.ofNat (n + 1))
  have hsender := sender_freeTx (UInt64.ofNat (n + 1))
  have hacc : @accept plainCrypto freshChain tg.pool tg.pool tx .sorted =
      some (@Mempool.written plainCrypto (tg.pool.openAccount 7) tx 7, .ok ()) := by
    rw [@accept_eq_add plainCrypto _ _ _ _ _ 0 hsane hsnap hsender hnew (hnonce ▸ UInt64.zero_le) rfl hbalance.ge]
    refine @Mempool.add_of_room plainCrypto _ _ _ _ _ hsane hsender ?_ hnew hfree ?_ ?_ _
    · rw [Mempool.isUnderpriced, h.floor]
      rfl
    · rw [h.size_account]
      exact hn
    · have := h.size_le
      rw [h.maxSize]
      omega
  obtain ⟨tg', hrelay, hpool, hpen⟩ := relay_of_accept hacc
  have haccount : tg'.pool.account 7 = (tg.pool.account 7).insert tx.nonce tx := by
    rw [hpool, @Mempool.account_written plainCrypto, if_pos rfl, Mempool.account_openAccount]
  refine ⟨tg', hrelay, ?_⟩
  constructor
  case penalties => rw [hpen, h.penalties]
  case maxSize =>
    rw [hpool]
    exact h.maxSize
  case floor =>
    rw [hpool]
    exact h.floor
  case hashes =>
    intro k hmem
    rw [hpool] at hmem
    unfold Mempool.written at hmem
    rw [ExtTreeMap.mem_insert, LawfulEqCmp.compare_eq_iff_eq] at hmem
    rcases hmem with rfl | hmem
    · omega
    · have := h.hashes k hmem
      omega
  case size_le =>
    rw [hpool]
    exact (ExtTreeMap.size_insert_le ..).trans (Nat.succ_le_succ h.size_le)
  case nonces =>
    intro k hmem
    rw [haccount, ExtTreeMap.mem_insert, LawfulEqCmp.compare_eq_iff_eq] at hmem
    rcases hmem with rfl | hmem
    · rw [htx, freeTx, hk]
      omega
    · have := h.nonces k hmem
      omega
  case size_account => rw [haccount, ExtTreeMap.size_insert, if_neg (by simpa using hfree), h.size_account]

omit [Crypto] in
theorem backlog_of_relays : ∀ n ≤ 64, ∃ tg,
    (List.range n).foldlM (fun tg k => relay tg (freeTx (UInt64.ofNat (k + 1)))) (newTxGossip (.new 5000)) = some tg ∧
      Backlog n tg := by
  intro n
  induction n with
  | zero => exact fun _ => ⟨_, rfl, backlog_zero⟩
  | succ n ih =>
    intro hn
    obtain ⟨tg, hrun, h⟩ := ih (Nat.le_of_succ_le hn)
    obtain ⟨tg', hrelay, h'⟩ := h.relay hn
    refine ⟨tg', ?_, h'⟩
    rw [List.range_succ, List.foldlM_append, hrun]
    simpa using hrelay

omit [Crypto] in
/-- A peer that relays the transactions of the account from nonce 1 to nonce 64, and then the one with nonce 0, which is
the only one that a block could take, is penalised for it. -/
theorem onTx_blames_crowd : @Transaction.sanityCheck plainCrypto (freeTx 0) freshChain.chainID = .ok () ∧
    ∃ tg, (List.range 64).foldlM (fun tg k => relay tg (freeTx (UInt64.ofNat (k + 1)))) (newTxGossip (.new 5000)) = some tg ∧
      tg.penalties = [] ∧ ∃ tg', relay tg (freeTx 0) = some tg' ∧ tg'.penalties = ["alice"] := by
  obtain ⟨tg, hrun, h⟩ := backlog_of_relays 64 le_rfl
  obtain ⟨s, hsnap, hnonce, hbalance⟩ := exists_snapshot
  have hhash : (@Transaction.hash plainCrypto (freeTx 0)).toNat = 1 := by
    rw [hash_freeTx]
    decide
  have hnew : @Transaction.hash plainCrypto (freeTx 0) ∉ tg.pool.all := by
    intro hmem
    have := (h.hashes _ hmem).1
    omega
  have hfree : (freeTx 0).nonce ∉ tg.pool.account 7 := by
    intro hmem
    have := (h.nonces _ hmem).1
    exact absurd this (by decide)
  have hnonce' : s.nonce 7 ≤ (freeTx 0).nonce := by
    rw [hnonce]
    exact UInt64.zero_le
  have hpriced : tg.pool.isUnderpriced (freeTx 0) = false := by rw [Mempool.isUnderpriced, h.floor]
  have hcrowded : @Crowded plainCrypto s tg.pool tg.pool (freeTx 0) 7 :=
    @Crowded.mk plainCrypto _ _ _ _ _ (sender_freeTx 0) hnew hnonce' ⟨0, rfl, hbalance.ge⟩ hpriced hnew hfree h.size_account.ge
  have hacc := @accept_of_crowded plainCrypto _ _ _ _ _ _ (sanityCheck_freeTx 0) hsnap hcrowded .sorted
  refine ⟨sanityCheck_freeTx 0, tg, hrun, h.penalties, ?_⟩
  simp [relay, onTx, maxTxMessage, hacc, settle, isTransientReject, penalize, h.penalties]

end TxGossip

end Lxs.P2p
