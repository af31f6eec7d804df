import Lxs.Mempool.Admission

/-!
# Selecting transactions for a block

`Pending` walks each account from its state nonce to the first gap, orders the accounts by the price of their first
executable transaction and takes transactions while their gas limits fit.

* `Mempool.pending_ne_nil_iff` — there is always a batch, exactly when no dearest first transaction exceeds the block;
* `Mempool.pending_selected_iff` — the batch keeps the gas limit and the order of the nonces, exactly when neither sum
  of 64 bits wraps on the way.
-/

namespace Lxs

open Std Lib Lib.Index

namespace Mempool

/-! ### The runs of the accounts -/

def executable (m : Mempool) (s : State) (a : Address) : Option Transaction := (m.account a)[s.nonce a]?

/-- The transactions of an account from its state nonce up to the first gap. -/
def accountRun (m : Mempool) (s : State) (a : Address) : List Transaction :=
  consecutive (m.account a) (m.account a).size (s.nonce a)

theorem consecutive_eq_nil_iff (q : Queue) (next : UInt64) : consecutive q q.size next = [] ↔ q[next]? = none := by
  cases hn : q[next]? with
  | none => cases q.size <;> simp [consecutive, hn]
  | some tx =>
    obtain ⟨n, hsize⟩ := Nat.exists_eq_succ_of_ne_zero (FinMap.contains_of_getElem? hn).2
    simp [hsize, consecutive, hn]

theorem head?_consecutive (q : Queue) (next : UInt64) : (consecutive q q.size next).head? = q[next]? := by
  cases hn : q[next]? with
  | none => rw [(consecutive_eq_nil_iff q next).2 hn, List.head?_nil]
  | some tx =>
    obtain ⟨n, hsize⟩ := Nat.exists_eq_succ_of_ne_zero (FinMap.contains_of_getElem? hn).2
    simp [hsize, consecutive, hn]

theorem head?_accountRun (m : Mempool) (s : State) (a : Address) : (m.accountRun s a).head? = m.executable s a :=
  head?_consecutive ..

variable {m : Mempool} {s : State}

theorem mem_groups {run : List Transaction} :
    run ∈ m.groups s ↔ ∃ a tx, m.executable s a = some tx ∧ run = m.accountRun s a := by
  simp only [groups, List.mem_filter, List.mem_map, Bool.not_eq_true', List.isEmpty_eq_false_iff]
  constructor
  · rintro ⟨⟨⟨a, q⟩, hq, rfl⟩, hne⟩
    have hacct : m.account a = q := by
      rw [account, ExtTreeMap.mem_toList_iff_getElem?_eq_some.1 hq, Option.getD_some]
    dsimp only at hne
    rw [Ne, consecutive_eq_nil_iff, ← Ne, Option.ne_none_iff_exists'] at hne
    obtain ⟨tx, htx⟩ := hne
    exact ⟨a, tx, by rw [executable, hacct, htx], by rw [accountRun, hacct]⟩
  · rintro ⟨a, tx, htx, rfl⟩
    cases hq : m.byAcct[a]? with
    | none => simp [executable, account, hq] at htx
    | some q =>
      have hacct : m.account a = q := by rw [account, hq, Option.getD_some]
      refine ⟨⟨(a, q), ExtTreeMap.mem_toList_iff_getElem?_eq_some.2 hq, by rw [accountRun, hacct]⟩, ?_⟩
      rw [accountRun, Ne, consecutive_eq_nil_iff]
      rw [executable] at htx
      rw [htx]
      exact Option.some_ne_none tx

theorem groupPrice_accountRun {a : Address} {tx : Transaction} (h : m.executable s a = some tx) :
    groupPrice (m.accountRun s a) = tx.price := by
  rw [groupPrice, head?_accountRun, h]
  rfl

/-! ### Progress -/

theorem fill_ne_nil_iff (gasLimit : UInt64) (l : List Transaction) :
    fill gasLimit 0 l ≠ [] ↔ ∃ tx, l.head? = some tx ∧ tx.gasLimit ≤ gasLimit := by
  cases l with
  | nil => simp [fill]
  | cons tx l =>
    rw [fill, UInt64.zero_add]
    split
    case isTrue h => simpa using h
    case isFalse h => simpa using h

theorem head?_offered (o : GroupOrder) {a : Address} {tx : Transaction}
    (h : m.executable s a = some tx) :
    ∃ b t, m.executable s b = some t ∧ (o.sort (m.groups s)).head? = some (m.accountRun s b) ∧
      (o.sort (m.groups s)).flatten.head? = some t ∧ ∀ c u, m.executable s c = some u → u.price ≤ t.price := by
  have hperm := o.perm (m.groups s)
  have hsorted := o.sorted (m.groups s)
  generalize o.sort (m.groups s) = l at hperm hsorted ⊢
  cases l with
  | nil => exact absurd (hperm.mem_iff.2 (mem_groups.2 ⟨a, tx, h, rfl⟩)) List.not_mem_nil
  | cons run l =>
    obtain ⟨b, t, ht, rfl⟩ := mem_groups.1 (hperm.mem_iff.1 (List.mem_cons_self ..))
    have hhead := head?_accountRun m s b
    rw [ht] at hhead
    refine ⟨b, t, ht, rfl, ?_, fun c u hu => ?_⟩
    · rw [List.flatten_cons, List.head?_append, hhead, Option.some_or]
    · rcases List.mem_cons.1 (hperm.mem_iff.2 (mem_groups.2 ⟨c, u, hu, rfl⟩)) with heq | hmem
      · rw [← head?_accountRun, heq, hhead] at hu
        cases hu
        exact le_rfl
      · have hle := List.rel_of_pairwise_cons hsorted hmem
        rwa [groupPrice_accountRun hu, groupPrice_accountRun ht] at hle

/-- The order that offers `run` before all others, where its price allows it. -/
def GroupOrder.first (run : List Transaction) : GroupOrder where
  sort l :=
    if run ∈ l ∧ ∀ r ∈ l, groupPrice r ≤ groupPrice run then run :: GroupOrder.byPrice.sort (l.erase run)
    else GroupOrder.byPrice.sort l
  perm l := by
    split
    case isTrue h => exact ((GroupOrder.byPrice.perm _).cons run).trans (List.perm_cons_erase h.1).symm
    case isFalse => exact GroupOrder.byPrice.perm l
  sorted l := by
    split
    case isTrue h =>
      refine List.pairwise_cons.2 ⟨fun r hr => h.2 r ?_, GroupOrder.byPrice.sorted _⟩
      exact List.mem_of_mem_erase ((GroupOrder.byPrice.perm _).mem_iff.1 hr)
    case isFalse => exact GroupOrder.byPrice.sorted l

/-- **One oversized transaction hides every other.** Where some account can execute a transaction, there is a batch
whatever order equal prices come in, exactly when each dearest first transaction fits into the block. -/
theorem pending_ne_nil_iff (m : Mempool) (s : State) (gasLimit : UInt64)
    (hsome : ∃ a tx, m.executable s a = some tx ∧ tx.gasLimit ≤ gasLimit) :
    (∀ o, m.pending s gasLimit o ≠ []) ↔
      ∀ a tx, m.executable s a = some tx → (∀ b t, m.executable s b = some t → t.price ≤ tx.price) →
        tx.gasLimit ≤ gasLimit := by
  obtain ⟨a₀, tx₀, h₀, -⟩ := hsome
  constructor
  · intro hne a tx htx hdear
    -- an order may offer the run of any dearest account first
    have hfirst : (GroupOrder.first (m.accountRun s a)).sort (m.groups s) =
        m.accountRun s a :: GroupOrder.byPrice.sort ((m.groups s).erase (m.accountRun s a)) := by
      refine if_pos ⟨mem_groups.2 ⟨a, tx, htx, rfl⟩, fun r hr => ?_⟩
      obtain ⟨b, t, ht, rfl⟩ := mem_groups.1 hr
      rw [groupPrice_accountRun ht, groupPrice_accountRun htx]
      exact hdear b t ht
    obtain ⟨t, ht, hfits⟩ := (fill_ne_nil_iff _ _).1 (hne (GroupOrder.first (m.accountRun s a)))
    rw [hfirst, List.flatten_cons, List.head?_append, head?_accountRun, htx, Option.some_or] at ht
    cases ht
    exact hfits
  · intro hfits o
    obtain ⟨b, t, ht, -, hhead, hdear⟩ := head?_offered o h₀
    exact (fill_ne_nil_iff _ _).2 ⟨t, hhead, hfits b t ht hdear⟩

/-! ### Gas -/

def gasSum (txs : List Transaction) : ℕ := (txs.map fun tx => tx.gasLimit.toNat).sum

@[simp]
theorem gasSum_nil : gasSum [] = 0 := rfl

@[simp]
theorem gasSum_cons (tx : Transaction) (txs : List Transaction) : gasSum (tx :: txs) = tx.gasLimit.toNat + gasSum txs := rfl

theorem fill_isPrefix (gasLimit : UInt64) (l : List Transaction) : ∀ gas, fill gasLimit gas l <+: l := by
  induction l with
  | nil => exact fun _ => List.prefix_refl []
  | cons tx l ih =>
    intro gas
    rw [fill]
    split
    · exact List.nil_prefix
    · exact List.prefix_cons_inj tx |>.2 (ih _)

/-- No sum of gas limits on the way to the first transaction that does not fit comes back below the limit. -/
def NoGasWrap (limit used : ℕ) (l : List Transaction) : Prop :=
  ∀ p t, p ++ [t] <+: l → used + gasSum p ≤ limit → limit < used + gasSum (p ++ [t]) →
    limit < (used + gasSum (p ++ [t])) % 2 ^ 64

theorem noGasWrap_nil (limit used : ℕ) : NoGasWrap limit used [] := by
  intro p t h
  simp at h

theorem noGasWrap_cons (limit used : ℕ) (tx : Transaction) (l : List Transaction) (hused : used ≤ limit) :
    NoGasWrap limit used (tx :: l) ↔
      (limit < used + tx.gasLimit.toNat → limit < (used + tx.gasLimit.toNat) % 2 ^ 64) ∧
        (used + tx.gasLimit.toNat ≤ limit → NoGasWrap limit (used + tx.gasLimit.toNat) l) := by
  constructor
  · intro h
    refine ⟨fun hlt => ?_, fun hle p t hp h₁ h₂ => ?_⟩
    · have := h [] tx (by simp) (by simpa using hused) (by simpa using hlt)
      simpa using this
    · have := h (tx :: p) t (by simpa using hp) (by rw [gasSum_cons]; omega)
        (by rw [List.cons_append, gasSum_cons]; omega)
      rwa [List.cons_append, gasSum_cons, ← Nat.add_assoc] at this
  · rintro ⟨hhead, htail⟩ p t hp h₁ h₂
    cases p with
    | nil =>
      obtain rfl : t = tx := by simpa using hp
      simpa using hhead (by simpa using h₂)
    | cons x p =>
      rw [List.cons_append, List.cons_prefix_cons] at hp
      obtain ⟨rfl, hp⟩ := hp
      rw [gasSum_cons] at h₁
      rw [List.cons_append, gasSum_cons, ← Nat.add_assoc] at h₂ ⊢
      exact htail (by omega) p t hp (by omega) h₂

theorem gasSum_fill_le_iff (gasLimit : UInt64) (l : List Transaction) : ∀ gas, gas ≤ gasLimit →
    (gas.toNat + gasSum (fill gasLimit gas l) ≤ gasLimit.toNat ↔ NoGasWrap gasLimit.toNat gas.toNat l) := by
  induction l with
  | nil => exact fun gas hgas => iff_of_true hgas (noGasWrap_nil _ _)
  | cons tx l ih =>
    intro gas hgas
    have hgas' : gas.toNat ≤ gasLimit.toNat := hgas
    have hadd : (gas + tx.gasLimit).toNat = (gas.toNat + tx.gasLimit.toNat) % 2 ^ 64 := UInt64.toNat_add ..
    have hlimit := gasLimit.toNat_lt
    rw [fill, noGasWrap_cons _ _ _ _ hgas']
    split
    case isTrue hover =>
      rw [UInt64.lt_iff_toNat_lt, hadd] at hover
      exact iff_of_true hgas' ⟨fun _ => hover, fun hle => absurd hover (by omega)⟩
    case isFalse hfits =>
      rw [UInt64.not_lt, UInt64.le_iff_toNat_le, hadd] at hfits
      rw [gasSum_cons, ← Nat.add_assoc]
      by_cases hwrap : gas.toNat + tx.gasLimit.toNat < 2 ^ 64
      · rw [Nat.mod_eq_of_lt hwrap] at hfits hadd ⊢
        rw [← hadd, ih _ (UInt64.le_iff_toNat_le.2 (by omega)), hadd]
        exact ⟨fun h => ⟨id, fun _ => h⟩, fun h => h.2 hfits⟩
      · exact iff_of_false (by omega) fun h => absurd (h.1 (by omega)) (by omega)

theorem prefix_fill_iff (gasLimit : UInt64) (l : List Transaction) : ∀ gas, gas ≤ gasLimit →
    NoGasWrap gasLimit.toNat gas.toNat l → ∀ q, q <+: l →
      (q <+: fill gasLimit gas l ↔ gas.toNat + gasSum q ≤ gasLimit.toNat) := by
  induction l with
  | nil =>
    intro gas hgas _ q hq
    obtain rfl := List.prefix_nil.1 hq
    exact iff_of_true List.nil_prefix hgas
  | cons tx l ih =>
    intro gas hgas hno q hq
    have hgas' : gas.toNat ≤ gasLimit.toNat := hgas
    cases q with
    | nil => exact iff_of_true List.nil_prefix hgas
    | cons x q =>
      obtain ⟨rfl, hrest⟩ := List.cons_prefix_cons.1 hq
      obtain ⟨hhead, htail⟩ := (noGasWrap_cons _ _ _ _ hgas').1 hno
      have hadd : (gas + x.gasLimit).toNat = (gas.toNat + x.gasLimit.toNat) % 2 ^ 64 := UInt64.toNat_add ..
      have hlimit := gasLimit.toNat_lt
      rw [fill, gasSum_cons, ← Nat.add_assoc]
      split
      case isTrue hover =>
        rw [UInt64.lt_iff_toNat_lt, hadd] at hover
        exact iff_of_false (by simp) (by omega)
      case isFalse hfits =>
        rw [UInt64.not_lt, UInt64.le_iff_toNat_le, hadd] at hfits
        have hle : gas.toNat + x.gasLimit.toNat ≤ gasLimit.toNat := by
          by_contra hlt
          exact absurd (hhead (by omega)) (by omega)
        rw [Nat.mod_eq_of_lt (by omega)] at hadd
        rw [List.cons_prefix_cons, and_iff_right rfl, ← hadd]
        exact ih _ (UInt64.le_iff_toNat_le.2 (by omega)) (by rw [hadd]; exact htail hle) q hrest

/-! ### Nonces -/

theorem consecutive_nonces {q : Queue} (hq : ∀ {n : UInt64} {tx : Transaction}, q[n]? = some tx → tx.nonce = n) (k : ℕ) :
    ∀ next, (consecutive q k next).map Transaction.nonce =
      (List.range (consecutive q k next).length).map fun i => next + UInt64.ofNat i := by
  induction k with
  | zero => exact fun _ => rfl
  | succ k ih =>
    intro next
    cases hn : q[next]? with
    | none => simp [consecutive, hn]
    | some tx =>
      simp only [consecutive, hn, List.map_cons, List.length_cons, List.range_succ_eq_map, List.map_map]
      refine congrArg₂ List.cons ((hq hn).trans (by simp)) ?_
      rw [ih]
      refine List.map_congr_left fun i _ => ?_
      simp only [Function.comp, Nat.succ_eq_add_one, UInt64.ofNat_add, UInt64.ofNat_one]
      ac_rfl

theorem length_consecutive_le (q : Queue) (k : ℕ) : ∀ next, (consecutive q k next).length ≤ k := by
  induction k with
  | zero => exact fun _ => le_rfl
  | succ k ih =>
    intro next
    rw [consecutive]
    split
    · exact Nat.zero_le _
    · exact Nat.succ_le_succ (ih _)

theorem consecutive_mem {q : Queue} (k : ℕ) : ∀ {next : UInt64} {tx : Transaction}, tx ∈ consecutive q k next →
    ∃ n : UInt64, q[n]? = some tx := by
  induction k with
  | zero => exact fun h => absurd h List.not_mem_nil
  | succ k ih =>
    intro next tx h
    rw [consecutive] at h
    split at h
    · exact absurd h List.not_mem_nil
    · rename_i t ht
      rcases List.mem_cons.1 h with rfl | h
      · exact ⟨next, ht⟩
      · exact ih h

section Keyed

variable [Crypto]

/-- Each queued transaction is under its sender and its nonce, and no account holds more than its share. -/
structure Keyed (m : Mempool) : Prop where
  entry : ∀ {a : Address} {n : UInt64} {tx : Transaction}, (m.account a)[n]? = some tx → tx.sender = .ok a ∧ tx.nonce = n
  size_le : ∀ a, (m.account a).size ≤ maxPerAccount

namespace Keyed

variable {m : Mempool} (h : m.Keyed)

include h

variable {a : Address}

theorem sender_of_mem {tx : Transaction} (ht : tx ∈ m.accountRun s a) : tx.sender = .ok a := by
  obtain ⟨n, hn⟩ := consecutive_mem _ ht
  exact (h.entry hn).1

theorem length_accountRun_le (s : State) (a : Address) : (m.accountRun s a).length ≤ maxPerAccount :=
  (length_consecutive_le _ _ _).trans (h.size_le a)

theorem filter_accountRun (s : State) (a b : Address) :
    ((m.accountRun s b).filter fun tx => tx.sender = .ok a) = if a = b then m.accountRun s b else [] := by
  split
  case isTrue heq =>
    subst heq
    exact List.filter_eq_self.2 fun tx ht => decide_eq_true (h.sender_of_mem ht)
  case isFalse hne =>
    refine List.filter_eq_nil_iff.2 fun tx ht hs => hne ?_
    have hs' := of_decide_eq_true hs
    rw [h.sender_of_mem ht] at hs'
    cases hs'
    rfl

theorem nodup_groups (s : State) : (m.groups s).Nodup := by
  rw [groups, List.filter_map]
  refine List.Nodup.map_on ?_ ((FinMap.nodup_keys m.byAcct).of_map.filter _)
  rintro ⟨a, p⟩ hp ⟨b, q⟩ hq heq
  obtain ⟨hpmem, hne⟩ := List.mem_filter.1 hp
  have hap := ExtTreeMap.mem_toList_iff_getElem?_eq_some.1 hpmem
  have hbq := ExtTreeMap.mem_toList_iff_getElem?_eq_some.1 (List.mem_of_mem_filter hq)
  have hacct : m.account a = p := by rw [account, hap, Option.getD_some]
  have hacct' : m.account b = q := by rw [account, hbq, Option.getD_some]
  dsimp only [Function.comp] at hne heq
  rw [Bool.not_eq_true', List.isEmpty_eq_false_iff] at hne
  obtain ⟨tx, ht⟩ := List.exists_mem_of_ne_nil _ hne
  have hrun : tx ∈ m.accountRun s a := by rwa [accountRun, hacct]
  have hrun' : tx ∈ m.accountRun s b := by rwa [accountRun, hacct', ← heq]
  have hsame := (h.sender_of_mem hrun).symm.trans (h.sender_of_mem hrun')
  cases hsame
  rw [hap] at hbq
  cases hbq
  rfl

theorem filter_offered (s : State) (o : GroupOrder) (a : Address) :
    ((o.sort (m.groups s)).flatten.filter fun tx => tx.sender = .ok a) = m.accountRun s a := by
  have hperm := o.perm (m.groups s)
  generalize o.sort (m.groups s) = l at hperm
  have hnodup : l.Nodup := hperm.nodup_iff.2 (h.nodup_groups s)
  have hmem : ∀ r ∈ l, ∃ b, r = m.accountRun s b := fun r hr => by
    obtain ⟨b, tx, -, hrun⟩ := mem_groups.1 (hperm.mem_iff.1 hr)
    exact ⟨b, hrun⟩
  -- the groups of other senders leave nothing
  have hother : ∀ l' : List (List Transaction), l' ⊆ l → m.accountRun s a ∉ l' →
      (l'.flatten.filter fun tx => tx.sender = .ok a) = [] := by
    intro l' hsub hnot
    rw [List.filter_flatten, List.flatten_eq_nil_iff]
    intro r hr
    obtain ⟨r', hr', rfl⟩ := List.mem_map.1 hr
    obtain ⟨b, rfl⟩ := hmem r' (hsub hr')
    rw [h.filter_accountRun, if_neg]
    rintro rfl
    exact hnot hr'
  by_cases hin : m.accountRun s a ∈ l
  · obtain ⟨l₁, l₂, rfl⟩ := List.append_of_mem hin
    have hdisj := List.nodup_append.1 hnodup
    have hnot₁ : m.accountRun s a ∉ l₁ := fun hx => hdisj.2.2 _ hx _ (List.mem_cons_self ..) rfl
    have hnot₂ : m.accountRun s a ∉ l₂ := (List.nodup_cons.1 hdisj.2.1).1
    rw [List.flatten_append, List.flatten_cons, List.filter_append, List.filter_append, h.filter_accountRun, if_pos rfl,
      hother l₁ (fun x hx => by simp [hx]) hnot₁, hother l₂ (fun x hx => by simp [hx]) hnot₂,
      List.nil_append, List.append_nil]
  · rw [hother l (List.Subset.refl l) hin]
    by_contra hne
    obtain ⟨tx, ht⟩ := Option.ne_none_iff_exists'.1 fun hnone => hne (List.head?_eq_none_iff.1 hnone).symm
    rw [head?_accountRun] at ht
    exact hin (hperm.mem_iff.2 (mem_groups.2 ⟨a, tx, ht, rfl⟩))

theorem sender_offered (s : State) (o : GroupOrder) : ∀ tx ∈ (o.sort (m.groups s)).flatten, ∃ a, tx.sender = .ok a := by
  intro tx htx
  obtain ⟨run, hrun, hmem⟩ := List.mem_flatten.1 htx
  obtain ⟨a, -, -, rfl⟩ := mem_groups.1 ((o.perm _).mem_iff.1 hrun)
  exact ⟨a, h.sender_of_mem hmem⟩

theorem nonces_of_prefix {q : List Transaction} (hq : q <+: m.accountRun s a) :
    q.map Transaction.nonce = (List.range q.length).map fun i => s.nonce a + UInt64.ofNat i := by
  have hown : ∀ {n : UInt64} {tx : Transaction}, (m.account a)[n]? = some tx → tx.nonce = n := fun hn => (h.entry hn).2
  have hall := consecutive_nonces hown (m.account a).size (s.nonce a)
  obtain ⟨rest, hrest⟩ := hq
  have hall' : (q ++ rest).map Transaction.nonce =
      (List.range (q ++ rest).length).map fun i => s.nonce a + UInt64.ofNat i := by rw [hrest]; exact hall
  have htake := congrArg (List.take q.length) hall'
  rwa [List.map_append, List.take_left' (List.length_map ..), ← List.map_take, List.take_range, List.length_append,
    Nat.min_eq_left (Nat.le_add_right ..)] at htake

theorem nonces_count_iff {q : List Transaction} (hq : q <+: m.accountRun s a) :
    (q.map fun tx => tx.nonce.toNat) = List.range' (s.nonce a).toNat q.length ↔ ∀ tx ∈ q, s.nonce a ≤ tx.nonce := by
  have hnonces := h.nonces_of_prefix hq
  have hlen : q.length < 2 ^ 64 :=
    Nat.lt_of_le_of_lt (hq.length_le.trans (h.length_accountRun_le s a)) (by decide)
  have hnat : (q.map fun tx => tx.nonce.toNat) =
      (List.range q.length).map fun i => (s.nonce a + UInt64.ofNat i).toNat := by
    have := congrArg (List.map UInt64.toNat) hnonces
    rwa [List.map_map, List.map_map] at this
  have hstep : ∀ i < q.length, (s.nonce a + UInt64.ofNat i).toNat = ((s.nonce a).toNat + i) % 2 ^ 64 := by
    intro i hi
    rw [UInt64.toNat_add, UInt64.toNat_ofNat', Nat.mod_eq_of_lt (hi.trans hlen)]
  have hbound := (s.nonce a).toNat_lt
  rw [hnat, List.range'_eq_map_range, List.map_inj_left]
  constructor
  · intro hcount tx ht
    have hmem : tx.nonce ∈ q.map Transaction.nonce := List.mem_map_of_mem ht
    rw [hnonces] at hmem
    obtain ⟨i, hi, hi'⟩ := List.mem_map.1 hmem
    have := hcount i hi
    rw [← hi', UInt64.le_iff_toNat_le]
    omega
  · intro hle i hi
    have hmem : s.nonce a + UInt64.ofNat i ∈ q.map Transaction.nonce := by
      rw [hnonces]
      exact List.mem_map_of_mem hi
    obtain ⟨tx, ht, htx⟩ := List.mem_map.1 hmem
    have := hle tx ht
    have hi' := List.mem_range.1 hi
    rw [htx, UInt64.le_iff_toNat_le, hstep i hi'] at this
    rw [hstep i hi']
    omega

theorem nodup_accountRun (s : State) (a : Address) : (m.accountRun s a).Nodup := by
  refine List.Nodup.of_map Transaction.nonce ?_
  rw [h.nonces_of_prefix (List.prefix_refl _)]
  refine List.Nodup.map_on (fun i hi j hj hij => ?_) List.nodup_range
  have hlen := h.length_accountRun_le s a
  rw [maxPerAccount] at hlen
  have hij' := congrArg UInt64.toNat ((UInt64.add_right_inj _).1 hij)
  rw [List.mem_range] at hi hj
  rwa [UInt64.toNat_ofNat', UInt64.toNat_ofNat', Nat.mod_eq_of_lt (by omega), Nat.mod_eq_of_lt (by omega)] at hij'

end Keyed

/-! ### Runs keep the keys -/

theorem keyed_new (maxSize : ℤ) : (new maxSize).Keyed where
  entry h := by simp [account, new] at h
  size_le a := by simp [account, new]

variable {m m' : Mempool}

theorem Keyed.of_le (h : m.Keyed)
    (hentry : ∀ (a : Address) (n : UInt64) (tx : Transaction), (m'.account a)[n]? = some tx → (m.account a)[n]? = some tx)
    (hsize : ∀ a, (m'.account a).size ≤ (m.account a).size) : m'.Keyed where
  entry ht := h.entry (hentry _ _ _ ht)
  size_le a := (hsize a).trans (h.size_le a)

theorem Keyed.congr (h : m.Keyed) (hacct : ∀ a, m'.account a = m.account a) : m'.Keyed :=
  h.of_le (fun a n tx ht => by rwa [hacct] at ht) fun a => (congrArg ExtTreeMap.size (hacct a)).le

theorem Keyed.dropLocked (h : m.Keyed) (t : Transaction) : (m.dropLocked t).Keyed := by
  cases hs : t.sender with
  | error e => exact h.congr (account_dropLocked_error hs)
  | ok sender =>
    refine h.of_le (fun a n tx ht => ?_) fun a => ?_
    · rw [account_dropLocked hs] at ht
      split at ht
      case isTrue ha =>
        rw [ExtTreeMap.getElem?_erase] at ht
        split_ifs at ht
        rwa [← ha]
      case isFalse => exact ht
    · rw [account_dropLocked hs]
      split
      case isTrue ha =>
        rw [← ha]
        exact ExtTreeMap.size_erase_le
      case isFalse => exact le_rfl

variable {tx : Transaction}

theorem Keyed.written (h : m.Keyed) {sender : Address} (hs : tx.sender = .ok sender)
    (hcap : (m.account sender).size < maxPerAccount) : (m.written tx sender).Keyed where
  entry {a n t} ht := by
    rw [account_written] at ht
    split at ht
    case isTrue ha =>
      simp only [ExtTreeMap.getElem?_insert, LawfulEqCmp.compare_eq_iff_eq] at ht
      split_ifs at ht with hn
      · cases ht
        exact ⟨ha ▸ hs, hn⟩
      · exact ha ▸ h.entry ht
    case isFalse => exact h.entry ht
  size_le a := by
    rw [account_written]
    split
    · exact ExtTreeMap.size_insert_le.trans hcap
    · exact h.size_le a

theorem Keyed.taken (h : m.Keyed) {sender : Address} (hs : tx.sender = .ok sender)
    {o : MapOrder} {r : Except PoolError Unit} (ht : Taken m tx sender o m' r) : m'.Keyed := by
  cases ht with
  | nonceUsed => exact h
  | accountLimit => exact h
  | refused => exact h
  | placed _ hcap => exact h.written hs hcap
  | @swapped _ t _ _ hcap =>
    refine (h.dropLocked t).written hs (Nat.lt_of_le_of_lt ?_ hcap)
    cases ht : t.sender with
    | error e => rw [account_dropLocked_error ht]
    | ok victim =>
      rw [account_dropLocked ht]
      split
      case isTrue hv =>
        rw [hv]
        exact ExtTreeMap.size_erase_le
      case isFalse => exact le_rfl

theorem Keyed.add (h : m.Keyed) {chainID : UInt64} {enforceFloor : Bool}
    {o : MapOrder} {r : Except PoolError Unit} (hadd : m.add tx chainID enforceFloor o = some (m', r)) : m'.Keyed := by
  cases add_some hadd with
  | check => exact h
  | underpriced => exact h
  | known => exact h
  | taken _ _ _ hs ht => exact (h.congr (account_openAccount m _)).taken hs ht

theorem Keyed.reinject {chainID : UInt64} {txs : List (Transaction × MapOrder)} : ∀ {m m' : Mempool} {n : ℕ}, m.Keyed →
    m.reinject chainID txs = some (m', n) → m'.Keyed := by
  induction txs with
  | nil =>
    intro m m' n h hre
    cases hre
    exact h
  | cons p txs ih =>
    intro m m' n h hre
    obtain ⟨tx, o⟩ := p
    rw [Mempool.reinject] at hre
    split at hre
    · cases hre
    · rename_i hadd
      exact ih (h.add hadd) hre
    · rename_i hadd
      obtain ⟨⟨m₁, k⟩, hrest, heq⟩ := Option.map_eq_some_iff.1 hre
      cases heq
      exact ih (h.add hadd) hrest

theorem Keyed.remove (h : m.Keyed) (txs : List Transaction) : (m.remove txs).Keyed := by
  have hfold : ∀ (txs : List Transaction) (m : Mempool), m.Keyed → (txs.foldl removeOne m).Keyed := by
    intro txs
    induction txs with
    | nil => exact fun _ h => h
    | cons tx txs ih => exact fun m h => ih _ ((h.dropLocked tx).congr fun _ => rfl)
  rw [Mempool.remove]
  split
  · refine (hfold txs m h).congr fun a => ?_
    rw [rewriteJournal]
    split <;> rfl
  · exact hfold txs m h

theorem Keyed.demote (h : m.Keyed) (s : State) : (m.demote s).1.Keyed := by
  refine h.of_le (fun a n tx ht => ?_) fun a => ?_
  · rw [account_demote, live, ExtTreeMap.getElem?_filter'] at ht
    exact (Option.filter_eq_some_iff.1 ht).1
  · rw [account_demote]
    exact ExtTreeMap.size_filter_le_size

theorem Keyed.exec (h : m.Keyed) {op : PoolOp} (hexec : m.exec op = .ok m') : m'.Keyed := by
  have houtcome : ∀ {α : Type} {x : Option (Mempool × α)}, outcome x = .ok m' → ∃ r, x = some (m', r) := by
    intro α x hx
    cases x with
    | none => cases hx
    | some p =>
      cases hx
      exact ⟨p.2, rfl⟩
  cases op with
  | add tx chainID o =>
    obtain ⟨r, hadd⟩ := houtcome hexec
    exact h.add hadd
  | addLocal tx chainID o =>
    obtain ⟨r, hadd⟩ := houtcome hexec
    rw [addLocal] at hadd
    split at hadd
    · rename_i hadd'
      cases hadd
      exact (h.add hadd').congr fun _ => rfl
    · exact h.add hadd
  | remove txs =>
    cases hexec
    exact h.remove txs
  | reinject txs chainID =>
    obtain ⟨n, hre⟩ := houtcome hexec
    exact h.reinject hre
  | demote s =>
    cases hexec
    exact h.demote s
  | setMinGasPrice p =>
    cases hexec
    exact h.congr fun _ => rfl

theorem keyed_of_run {maxSize : ℤ} {ops : List PoolOp} (h : Run.run exec (new maxSize) ops = .ok m) :
    m.Keyed := by
  have hstep : ∀ (past : List PoolOp) (op : PoolOp) (rest : List PoolOp) (m m' : Mempool), past ++ op :: rest = ops →
      m.Keyed → m.exec op = .ok m' → m'.Keyed := fun _ _ _ _ _ _ h hexec => h.exec hexec
  exact Run.run_preserves (I := fun _ m => m.Keyed) hstep (keyed_new maxSize) h

/-! ### The batch -/

/-- What a batch must be: its gas limits fit, the transactions of each sender count up from its state nonce, and none
appears twice. -/
structure Selected (s : State) (gasLimit : UInt64) (out : List Transaction) : Prop where
  gas : gasSum out ≤ gasLimit.toNat
  nonces : ∀ a, ((out.filter fun tx => tx.sender = .ok a).map fun tx => tx.nonce.toNat) =
    List.range' (s.nonce a).toNat (out.filter fun tx => tx.sender = .ok a).length
  nodup : out.Nodup

/-- No sum of 64 bits wraps while the offered transactions are taken: neither the gas of the first that does not fit, nor
the nonce of one that does. -/
structure NoWrap (s : State) (gasLimit : UInt64) (offered : List Transaction) : Prop where
  gas : NoGasWrap gasLimit.toNat 0 offered
  nonce : ∀ p t a, p ++ [t] <+: offered → gasSum (p ++ [t]) ≤ gasLimit.toNat → t.sender = .ok a → s.nonce a ≤ t.nonce

/-- **The batch keeps the gas limit and the nonces exactly when no sum wraps.** -/
theorem pending_selected_iff {maxSize : ℤ} {ops : List PoolOp} {m : Mempool}
    (hrun : Run.run exec (new maxSize) ops = .ok m) (s : State) (gasLimit : UInt64) (o : GroupOrder) :
    Selected s gasLimit (m.pending s gasLimit o) ↔ NoWrap s gasLimit (o.sort (m.groups s)).flatten := by
  have hkeyed := keyed_of_run hrun
  have hgas := gasSum_fill_le_iff gasLimit (o.sort (m.groups s)).flatten 0 (UInt64.zero_le)
  have hfill := prefix_fill_iff gasLimit (o.sort (m.groups s)).flatten 0 (UInt64.zero_le)
  have hpre := fill_isPrefix gasLimit (o.sort (m.groups s)).flatten 0
  have hfilter := hkeyed.filter_offered s o
  have hsender := hkeyed.sender_offered s o
  simp only [pending]
  rw [UInt64.toNat_zero] at hgas hfill
  simp only [Nat.zero_add] at hgas hfill
  generalize (o.sort (m.groups s)).flatten = offered at *
  generalize fill gasLimit 0 offered = out at *
  -- the transactions of a sender in the batch are the first of its run
  have hown : ∀ a, (out.filter fun tx => tx.sender = .ok a) <+: m.accountRun s a := fun a => hfilter a ▸ hpre.filter _
  constructor
  · intro hsel
    refine ⟨hgas.1 hsel.gas, fun p t a hp hfits hs => ?_⟩
    have hin := (hfill (hgas.1 hsel.gas) _ hp).2 hfits
    refine (hkeyed.nonces_count_iff (hown a)).1 (hsel.nonces a) t (List.mem_filter.2 ⟨hin.subset (by simp), ?_⟩)
    exact decide_eq_true hs
  · intro hno
    refine ⟨hgas.2 hno.gas, fun a => (hkeyed.nonces_count_iff (hown a)).2 fun t ht => ?_, ?_⟩
    · obtain ⟨hmem, hs⟩ := List.mem_filter.1 ht
      obtain ⟨p, rest, hout⟩ := List.append_of_mem hmem
      have hin : p ++ [t] <+: out := ⟨rest, by rw [hout]; simp⟩
      exact hno.nonce p t a (hin.trans hpre) ((hfill hno.gas _ (hin.trans hpre)).1 hin) (of_decide_eq_true hs)
    · refine List.nodup_iff_count_le_one.2 fun t => ?_
      rcases Nat.eq_zero_or_pos (out.count t) with hzero | hpos
      · omega
      -- each transaction of the batch is in the run of its sender, which has none twice
      have hmem : t ∈ offered := hpre.subset (List.count_pos_iff.1 hpos)
      obtain ⟨a, hs⟩ := hsender t hmem
      rw [← List.count_filter (p := fun tx => decide (tx.sender = .ok a)) (by simp [hs])]
      exact List.nodup_iff_count_le_one.1 ((hown a).sublist.nodup (hkeyed.nodup_accountRun s a)) t

end Keyed

/-! The first transaction below the giant one, and a dear one above it. -/

theorem executable_cases {t₁ t₂ : Transaction} (hgroups : m.groups s = [[t₁], [t₂]]) {a : Address} {tx : Transaction}
    (h : m.executable s a = some tx) : tx = t₁ ∨ tx = t₂ := by
  have hmem := mem_groups.2 ⟨a, tx, h, rfl⟩
  have hrun := head?_accountRun m s a
  rw [h] at hrun
  rw [hgroups] at hmem
  rcases List.mem_cons.1 hmem with heq | hmem
  · rw [heq] at hrun
    exact .inl (Option.some.inj hrun).symm
  · rw [List.mem_singleton.1 hmem] at hrun
    exact .inr (Option.some.inj hrun).symm

def hiddenPool : Mempool := @written admissionCrypto (onePool.openAccount otherAddr) giantTx otherAddr

def wrappedPool : Mempool :=
  @written admissionCrypto ((@written admissionCrypto ((new 2).openAccount senderAddr) dearTx senderAddr).openAccount otherAddr)
    giantTx otherAddr

/-- The dear transaction keeps the giant one from hiding the batch. -/
theorem pending_ne_nil_iff_dear : (∃ a tx, wrappedPool.executable State.new a = some tx ∧ tx.gasLimit ≤ 30000000) ∧
    ((∀ o, wrappedPool.pending State.new 30000000 o ≠ []) ↔
      ∀ a tx, wrappedPool.executable State.new a = some tx →
        (∀ b t, wrappedPool.executable State.new b = some t → t.price ≤ tx.price) → tx.gasLimit ≤ 30000000) ∧
    ∀ o, wrappedPool.pending State.new 30000000 o ≠ [] := by
  have hdear : wrappedPool.executable State.new senderAddr = some dearTx := by decide +kernel
  have hgroups : wrappedPool.groups State.new = [[giantTx], [dearTx]] := by decide +kernel
  have hsome : ∃ a tx, wrappedPool.executable State.new a = some tx ∧ tx.gasLimit ≤ 30000000 :=
    ⟨senderAddr, dearTx, hdear, by decide⟩
  have hiff := pending_ne_nil_iff _ _ _ hsome
  refine ⟨hsome, hiff, hiff.2 fun a tx htx hmax => ?_⟩
  rcases executable_cases hgroups htx with rfl | rfl
  · exact absurd (hmax _ _ hdear) (by decide)
  · decide

/-- The giant transaction keeps the first one out of a block of thirty million gas, in every order. -/
theorem pending_nil_of_giant :
    Run.run (@exec admissionCrypto) (new 2) [.add firstTx 1 .sorted, .add giantTx 1 .sorted] = .ok hiddenPool ∧
      hiddenPool.executable State.new senderAddr = some firstTx ∧ firstTx.gasLimit ≤ 30000000 ∧
      ∀ o, hiddenPool.pending State.new 30000000 o = [] := by
  refine ⟨by decide +kernel, by decide +kernel, by decide, fun o => ?_⟩
  have hgiant : hiddenPool.executable State.new otherAddr = some giantTx := by decide +kernel
  have hgroups : hiddenPool.groups State.new = [[giantTx], [firstTx]] := by decide +kernel
  obtain ⟨b, t, ht, -, hhead, hdear⟩ := head?_offered o hgiant
  have hprice := hdear otherAddr giantTx hgiant
  by_contra hne
  obtain ⟨t', ht', hfits⟩ := (fill_ne_nil_iff _ _).1 hne
  rw [hhead] at ht'
  cases ht'
  rcases executable_cases hgroups ht with rfl | rfl
  · exact absurd hfits (by decide)
  · exact absurd hprice (by decide)

theorem pending_selected_iff_two :
    Run.run (@exec admissionCrypto) (new 2) [.add firstTx 1 .sorted, .add secondTx 1 .sorted] = .ok twoPool ∧
      twoPool.pending State.new 30000000 .byPrice = [firstTx, secondTx] ∧
      (@Selected admissionCrypto State.new 30000000 (twoPool.pending State.new 30000000 .byPrice) ↔
        @NoWrap admissionCrypto State.new 30000000 (GroupOrder.byPrice.sort (twoPool.groups State.new)).flatten) := by
  have hrun : Run.run (@exec admissionCrypto) (new 2) [.add firstTx 1 .sorted, .add secondTx 1 .sorted] = .ok twoPool := by
    decide +kernel
  exact ⟨hrun, by decide +kernel, @pending_selected_iff admissionCrypto _ _ _ hrun _ _ _⟩

/-- The gas limits of the two add up to `2 ^ 64`, which is zero. -/
theorem pending_over_limit :
    Run.run (@exec admissionCrypto) (new 2) [.add dearTx 1 .sorted, .add giantTx 1 .sorted] = .ok wrappedPool ∧
      wrappedPool.pending State.new 30000000 .byPrice = [dearTx, giantTx] ∧ 30000000 < gasSum [dearTx, giantTx] :=
  ⟨by decide +kernel, by decide +kernel, by decide⟩

end Mempool

end Lxs
