import Lxs.Core.Blockchain

/-!
# Reading the block tree

The methods that read blocks change nothing but the cache, and what they return is a function of the database. Walking
down from two stored blocks finds the branches from their common ancestor.
-/

set_option linter.unusedSectionVars false

namespace Lxs

open Std Lib

namespace Blockchain

variable [Crypto] {bc bc' : Blockchain}

/-! ### The cache -/

/-- Blocks are stored under their hash, and the cache holds stored blocks. -/
structure Coherent (bc : Blockchain) : Prop where
  hash : ∀ (h : Hash) (b : Block), bc.db.blocks[h]? = some b → b.hash = h
  cache : ∀ (h : Hash) (b : Block), bc.blockCache[h]? = some b → bc.db.blocks[h]? = some b

/-- The chain `bc'` is `bc` with more stored blocks in the cache. -/
structure Cached (bc bc' : Blockchain) : Prop where
  eq : bc' = { bc with blockCache := bc'.blockCache }
  le : ∀ (h : Hash) (b : Block), bc.blockCache[h]? = some b → bc'.blockCache[h]? = some b
  stored : ∀ (h : Hash) (b : Block), bc'.blockCache[h]? = some b → bc.blockCache[h]? = some b ∨ bc.db.blocks[h]? = some b

namespace Cached

theorem refl (bc : Blockchain) : Cached bc bc := ⟨rfl, fun _ _ => id, fun _ _ => .inl⟩

theorem db (h : Cached bc bc') : bc'.db = bc.db := by rw [h.eq]
theorem states (h : Cached bc bc') : bc'.states = bc.states := by rw [h.eq]
theorem head (h : Cached bc bc') : bc'.head = bc.head := by rw [h.eq]
theorem retention (h : Cached bc bc') : bc'.retention = bc.retention := by rw [h.eq]
theorem gcInterval (h : Cached bc bc') : bc'.gcInterval = bc.gcInterval := by rw [h.eq]
theorem genesis (h : Cached bc bc') : bc'.genesis = bc.genesis := by rw [h.eq]
theorem genesisDifficulty (h : Cached bc bc') : bc'.genesisDifficulty = bc.genesisDifficulty := by rw [h.eq]
theorem chainID (h : Cached bc bc') : bc'.chainID = bc.chainID := by rw [h.eq]
theorem treasury (h : Cached bc bc') : bc'.treasury = bc.treasury := by rw [h.eq]

theorem trans {bc'' : Blockchain} (h₁ : Cached bc bc') (h₂ : Cached bc' bc'') : Cached bc bc'' := by
  refine ⟨?_, fun h b hb => h₂.le h b (h₁.le h b hb), fun h b hb => ?_⟩
  · have h := h₂.eq
    rw [h₁.eq] at h
    exact h
  · rcases h₂.stored h b hb with hb | hb
    · exact h₁.stored h b hb
    · exact .inr (h₁.db ▸ hb)

theorem coherent (h : Cached bc bc') (hc : Coherent bc) : Coherent bc' := by
  refine ⟨fun k b hb => hc.hash k b (h.db ▸ hb), fun k b hb => ?_⟩
  rw [h.db]
  exact (h.stored k b hb).elim (hc.cache k b) id

theorem coherent_before (h : Cached bc bc') (hc : Coherent bc') : Coherent bc :=
  ⟨fun k b hb => hc.hash k b (h.db.symm ▸ hb), fun k b hb => h.db ▸ hc.cache k b (h.le k b hb)⟩

end Cached

variable {b : Block}

theorem blockLocked_some (hc : Coherent bc) {h : Hash} (hb : bc.db.blocks[h]? = some b) :
    ∃ bc', Cached bc bc' ∧ bc.blockLocked h = (.ok b, bc') := by
  unfold blockLocked
  cases hcache : bc.blockCache[h]? with
  | some b' =>
    have := hc.cache h b' hcache
    rw [hb] at this
    cases this
    exact ⟨bc, .refl bc, rfl⟩
  | none =>
    have hload : loadBlock bc.db h = .ok b := by
      unfold loadBlock
      rw [hb]
      dsimp only
      rw [if_neg (not_not.2 (hc.hash h b hb))]
    rw [hload]
    refine ⟨_, ⟨rfl, fun k c hk => ?_, fun k c hk => ?_⟩, rfl⟩
    · dsimp only
      rw [ExtTreeMap.getElem?_insert]
      split
      · rename_i he
        rw [LawfulEqCmp.compare_eq_iff_eq] at he
        rw [← he, hcache] at hk
        cases hk
      · exact hk
    · dsimp only at hk
      rw [ExtTreeMap.getElem?_insert] at hk
      split at hk
      · rename_i he
        rw [LawfulEqCmp.compare_eq_iff_eq] at he
        cases hk
        exact .inr (he ▸ hb)
      · exact .inl hk

theorem blockLocked_none (hc : Coherent bc) {h : Hash} (hb : bc.db.blocks[h]? = none) :
    bc.blockLocked h = (.error .notFound, bc) := by
  have hcache : bc.blockCache[h]? = none := by
    cases hk : bc.blockCache[h]? with
    | none => rfl
    | some b => rw [hc.cache h b hk] at hb; cases hb
  have hload : loadBlock bc.db h = .error .notFound := by
    unfold loadBlock
    rw [hb]
  unfold blockLocked
  rw [hcache, hload]

theorem blockByHeight_eq (hc : Coherent bc) (height : UInt64) : ∃ bc', Cached bc bc' ∧
    bc.blockByHeight height = ((bc.db.canonical[height]?).bind (bc.db.blocks[·]?), bc') := by
  unfold blockByHeight
  cases hcanon : bc.db.canonical[height]? with
  | none => exact ⟨bc, .refl bc, rfl⟩
  | some k =>
    cases hb : bc.db.blocks[k]? with
    | none => exact ⟨bc, .refl bc, by simp [blockLocked_none hc hb, hb]⟩
    | some b =>
      obtain ⟨bc', h, hr⟩ := blockLocked_some hc hb
      exact ⟨bc', h, by simp [hr, hb]⟩

theorem parentOf_some (hc : Coherent bc) {b p : Block} (hp : bc.db.blocks[b.header.parentHash]? = some p) :
    ∃ bc', Cached bc bc' ∧ bc.parentOf b = (.ok p, bc') := by
  obtain ⟨bc', hbc', hr⟩ := blockLocked_some hc hp
  unfold parentOf
  rw [hr]
  exact ⟨bc', hbc', rfl⟩

theorem parentOf_none (hc : Coherent bc) (hp : bc.db.blocks[b.header.parentHash]? = none) :
    bc.parentOf b = (.error (.unknownParent b.header.parentHash), bc) := by
  unfold parentOf
  rw [blockLocked_none hc hp]

/-! ### The required difficulty -/

/-- The `n` headers before `cur` that the database has, in front of a window. -/
def headersBack (db : Database) : ℕ → Header → List Header → Option (List Header)
  | 0, _, window => some window
  | n + 1, cur, window =>
    match db.blocks[cur.parentHash]? with
    | none => none
    | some b => headersBack db n b.header (b.header :: window)

theorem windowBack_eq (n : ℕ) : ∀ {bc : Blockchain}, Coherent bc → ∀ (cur : Header) (window : List Header),
    ∃ bc', Cached bc bc' ∧ windowBack n bc cur window = (headersBack bc.db n cur window, bc') := by
  induction n with
  | zero => exact fun {bc} _ _ _ => ⟨bc, .refl bc, rfl⟩
  | succ n ih =>
    intro bc hc cur window
    unfold windowBack headersBack
    cases hb : bc.db.blocks[cur.parentHash]? with
    | none =>
      rw [blockLocked_none hc hb]
      exact ⟨bc, .refl bc, rfl⟩
    | some b =>
      obtain ⟨bc₁, h₁, hr⟩ := blockLocked_some hc hb
      obtain ⟨bc₂, h₂, hr'⟩ := ih (h₁.coherent hc) b.header (b.header :: window)
      rw [hr, ← h₁.db]
      exact ⟨bc₂, h₁.trans h₂, hr'⟩

/-- The difficulty a child of `parent` must have, as the database determines it. -/
def derivedDifficulty (db : Database) (genesisDifficulty : UInt64) (parent : Header) : UInt64 :=
  if windowLength parent.height < 2 then genesisDifficulty
  else ((headersBack db (windowLength parent.height).toNat parent [parent]).map lwmaDifficulty).getD genesisDifficulty

/-- **The required difficulty is a function of the database.** -/
theorem requiredDifficulty_eq (hc : Coherent bc) (parent : Header) :
    ∃ bc', Cached bc bc' ∧ bc.requiredDifficulty parent = (derivedDifficulty bc.db bc.genesisDifficulty parent, bc') := by
  unfold requiredDifficulty derivedDifficulty
  dsimp only
  split_ifs with hw
  · exact ⟨bc, .refl bc, rfl⟩
  · obtain ⟨bc', h, hr⟩ := windowBack_eq (windowLength parent.height).toNat hc parent [parent]
    rw [hr]
    cases headersBack bc.db (windowLength parent.height).toNat parent [parent] with
    | none => exact ⟨bc', h, rfl⟩
    | some window => exact ⟨bc', h, rfl⟩

/-! ### Walking down -/

/-- The ancestry of a block down to the genesis, the newest first: what the database has under the hash of a parent is
that parent. -/
inductive Ancestry (g : Genesis) (db : Database) : List Block → Prop
  | genesis : Ancestry g db [g.block]
  | block {b p l} : Ancestry g db (p :: l) → b.header.parentHash = p.hash → b.height.toNat = p.height.toNat + 1 →
      (∀ q, db.blocks[p.hash]? = some q → q = p) → Ancestry g db (b :: p :: l)

variable {g : Genesis}

variable {db : Database} {l : List Block}

theorem Ancestry.eq_genesis (h : Ancestry g db (b :: l)) (h0 : b.height = 0) :
    b = g.block ∧ l = [] := by
  cases h with
  | genesis => exact ⟨rfl, rfl⟩
  | block _ _ hh _ =>
    rw [h0] at hh
    exact absurd hh.symm (Nat.succ_ne_zero _)

theorem Ancestry.parentOf (h : Ancestry g bc.db (b :: l)) (hc : Coherent bc)
    (h0 : b.height ≠ 0) : ∃ p l', l = p :: l' ∧ b.height.toNat = p.height.toNat + 1 ∧ Ancestry g bc.db (p :: l') ∧
      ((∃ e, bc.parentOf b = (.error e, bc) ∧ bc.db.blocks[p.hash]? = none) ∨
        ∃ bc', Cached bc bc' ∧ bc.parentOf b = (.ok p, bc') ∧ bc.db.blocks[p.hash]? = some p) := by
  cases h with
  | genesis => exact absurd rfl h0
  | @block _ p l' hp hlink hh hq =>
    refine ⟨p, l', rfl, hh, hp, ?_⟩
    cases hb : bc.db.blocks[p.hash]? with
    | none => exact .inl ⟨_, parentOf_none hc (hlink ▸ hb), rfl⟩
    | some q =>
      obtain rfl := hq q hb
      obtain ⟨bc', h', hr⟩ := parentOf_some hc (b := b) (hlink ▸ hb)
      exact .inr ⟨bc', h', hr, rfl⟩

def Stored (db : Database) (l : List Block) : Prop := ∀ b ∈ l, db.blocks[b.hash]? = some b

theorem mem_of_mem_post {a x y : Block} {l pre post : List Block} (hl : a :: l = pre ++ x :: post) (hy : y ∈ post) : y ∈ l := by
  cases pre with
  | nil => cases hl; exact hy
  | cons _ pre => cases hl; exact List.mem_append_right _ (List.mem_cons_of_mem _ hy)

theorem stored_cons_tail {p x : Block} {pre post l : List Block} (hl : p :: l = pre ++ x :: post)
    (hp : db.blocks[p.hash]? = some p) (h : Stored db (pre ++ [x]).tail) : Stored db (pre ++ [x]) := by
  cases pre with
  | nil =>
    cases hl
    intro b hb
    rwa [List.mem_singleton.1 hb]
  | cons p' pre =>
    cases hl
    intro b hb
    rcases List.mem_cons.1 hb with rfl | hb
    · exact hp
    · exact h b hb

/-- **Walking down to a height.** Only the cache changes; a walk that ends has passed stored blocks down to the height;
and it ends if all ancestors are stored and the bound is the height of the block. -/
theorem walkDown_spec (height : UInt64) (n : ℕ) : ∀ {bc : Blockchain} {a : Block} {l : List Block}, Coherent bc →
    Ancestry g bc.db (a :: l) → ∀ passed, ∃ r bc', walkDown height n bc a passed = (r, bc') ∧ Cached bc bc' ∧
      (∀ x ps, r = .ok (x, ps) → ∃ pre post, a :: l = pre ++ x :: post ∧ ps = pre.reverse ++ passed ∧
        x.height.toNat = min a.height.toNat height.toNat ∧ Ancestry g bc.db (x :: post) ∧
        Stored bc.db ((pre ++ [x]).tail)) ∧
      (Stored bc.db l → a.height.toNat < n → ∃ y, r = .ok y) := by
  induction n with
  | zero =>
    intro bc a l _ _ passed
    exact ⟨_, bc, rfl, .refl bc, (fun _ _ h => by cases h), fun _ h => absurd h (Nat.not_lt_zero _)⟩
  | succ n ih =>
    intro bc a l hc ha passed
    unfold walkDown
    split
    · rename_i hlt
      have hlt' := UInt64.lt_iff_toNat_lt.1 hlt
      have h0 : a.height ≠ 0 := by
        rintro h0
        rw [h0] at hlt'
        exact absurd hlt' (Nat.not_lt_zero _)
      obtain ⟨p, l', rfl, hh, hp, ⟨e, hr, hnone⟩ | ⟨bc₁, h₁, hr, hsome⟩⟩ := ha.parentOf hc h0
      · rw [hr]
        refine ⟨_, bc, rfl, .refl bc, (fun _ _ h => by cases h), fun hst _ => ?_⟩
        rw [hst p (List.mem_cons_self ..)] at hnone
        cases hnone
      · rw [hr]
        obtain ⟨r, bc₂, hw, h₂, hok, hdone⟩ := ih (h₁.coherent hc) (h₁.db.symm ▸ hp) (a :: passed)
        refine ⟨r, bc₂, hw, h₁.trans h₂, fun x ps hx => ?_, fun hst hn => ?_⟩
        · obtain ⟨pre, post, hl, hps, hx, hanc, hstored⟩ := hok x ps hx
          rw [h₁.db] at hanc hstored
          refine ⟨a :: pre, post, by rw [hl]; rfl, by simp [hps], by omega, hanc, ?_⟩
          exact stored_cons_tail hl hsome hstored
        · refine hdone ?_ (by omega)
          rw [h₁.db]
          exact fun b hb => hst b (List.mem_cons_of_mem _ hb)
    · rename_i hle
      have hle' := UInt64.le_iff_toNat_le.1 (UInt64.not_lt.1 hle)
      refine ⟨_, bc, rfl, .refl bc, ?_, fun _ _ => ⟨_, rfl⟩⟩
      rintro x ps ⟨⟩
      exact ⟨[], l, rfl, rfl, by omega, ha, fun _ hb => absurd hb List.not_mem_nil⟩

theorem Ancestry.height_lt (h : Ancestry g db (b :: l)) :
    ∀ y ∈ l, y.height.toNat < b.height.toNat := by
  induction l generalizing b with
  | nil => exact fun _ hy => absurd hy List.not_mem_nil
  | cons p l ih =>
    cases h with
    | block hp _ hh _ =>
      intro y hy
      rcases List.mem_cons.1 hy with rfl | hy
      · omega
      · have := ih hp y hy
        omega

theorem Ancestry.le_height (h : Ancestry g db (b :: l)) {y : Block}
    (hy : y ∈ b :: l) : y.height.toNat ≤ b.height.toNat := by
  rcases List.mem_cons.1 hy with rfl | hy
  · exact le_rfl
  · exact (h.height_lt y hy).le

theorem Ancestry.height_gt {x : Block} {pre post : List Block} (h : Ancestry g db (pre ++ x :: post)) :
    ∀ y ∈ pre, x.height.toNat < y.height.toNat := by
  induction pre with
  | nil => exact fun _ hy => absurd hy List.not_mem_nil
  | cons b pre ih =>
    intro y hy
    rcases List.mem_cons.1 hy with rfl | hy
    · exact h.height_lt x (List.mem_append_right _ (List.mem_cons_self ..))
    · refine ih ?_ y hy
      obtain ⟨p, l, hl⟩ : ∃ p l, pre ++ x :: post = p :: l := by cases pre <;> exact ⟨_, _, rfl⟩
      rw [List.cons_append, hl] at h
      rw [hl]
      cases h with
      | block hp _ _ _ => exact hp

/-- **Walking down together.** From two blocks of one height the walk ends, if at all, at the first pair with one hash;
what it passed on the side of `b` is not an ancestor of `a`. -/
theorem walkTogether_spec (n : ℕ) : ∀ {bc : Blockchain} {a b : Block} {la lb : List Block}, Coherent bc →
    Ancestry g bc.db (a :: la) → Ancestry g bc.db (b :: lb) → a.height.toNat = b.height.toNat → ∀ dropped added,
    ∃ r bc', walkTogether n bc a b dropped added = (r, bc') ∧ Cached bc bc' ∧
      (∀ x, r = .ok x → ∃ preA preB c c' postA postB, a :: la = preA ++ c :: postA ∧ b :: lb = preB ++ c' :: postB ∧
        c.hash = c'.hash ∧ x = ⟨c.hash, preA.reverse ++ dropped, preB.reverse ++ added⟩ ∧
        Stored bc.db ((preB ++ [c']).tail) ∧ ∀ y ∈ preB, y ∉ a :: la) ∧
      (Stored bc.db la → Stored bc.db lb → a.height.toNat < n → ∃ x, r = .ok x) := by
  induction n with
  | zero =>
    intro bc a b la lb _ _ _ _ dropped added
    exact ⟨_, bc, rfl, .refl bc, (fun _ h => by cases h), fun _ _ h => absurd h (Nat.not_lt_zero _)⟩
  | succ n ih =>
    intro bc a b la lb hc ha hb hheight dropped added
    unfold walkTogether
    split_ifs with heq h0
    · refine ⟨_, bc, rfl, .refl bc, ?_, fun _ _ _ => ⟨_, rfl⟩⟩
      rintro x ⟨⟩
      exact ⟨[], [], a, b, la, lb, rfl, rfl, heq, rfl, fun _ h => absurd h List.not_mem_nil,
        fun _ h => absurd h List.not_mem_nil⟩
    · -- two blocks of height zero are the genesis
      obtain ⟨rfl, -⟩ := ha.eq_genesis h0
      have hb0 : b.height = 0 := UInt64.toNat_inj.1 (hheight.symm.trans (congrArg UInt64.toNat h0))
      obtain ⟨rfl, -⟩ := hb.eq_genesis hb0
      exact absurd rfl heq
    · have hb0 : b.height ≠ 0 := fun hb0 => h0 (UInt64.toNat_inj.1 (hheight.trans (congrArg UInt64.toNat hb0)))
      have hnotin : b ∉ a :: la := by
        intro hm
        rcases List.mem_cons.1 hm with rfl | hm
        · exact heq rfl
        · have := ha.height_lt b hm
          omega
      obtain ⟨pa, la', rfl, hha, hpa, ⟨e, hr, hnone⟩ | ⟨bc₁, h₁, hr, hsomeA⟩⟩ := ha.parentOf hc h0
      · rw [hr]
        refine ⟨_, bc, rfl, .refl bc, (fun _ h => by cases h), fun hst _ _ => ?_⟩
        rw [hst pa (List.mem_cons_self ..)] at hnone
        cases hnone
      rw [hr]
      dsimp only
      rw [← h₁.db] at hb
      obtain ⟨pb, lb', rfl, hhb, hpb, ⟨e, hr', hnone⟩ | ⟨bc₂, h₂, hr', hsomeB⟩⟩ := hb.parentOf (h₁.coherent hc) hb0
      · rw [hr']
        refine ⟨_, bc₁, rfl, h₁, (fun _ h => by cases h), fun _ hst _ => ?_⟩
        rw [h₁.db, hst pb (List.mem_cons_self ..)] at hnone
        cases hnone
      rw [hr']
      have hdb : bc₂.db = bc.db := h₂.db.trans h₁.db
      obtain ⟨r, bc₃, hw, h₃, hok, hdone⟩ := ih (h₂.coherent (h₁.coherent hc)) (hdb.symm ▸ hpa) (h₂.db.symm ▸ hpb)
        (by omega) (a :: dropped) (b :: added)
      rw [h₁.db] at hsomeB
      rw [hdb] at hok hdone
      refine ⟨r, bc₃, hw, h₁.trans (h₂.trans h₃), fun x hx => ?_, fun hstA hstB hn => ?_⟩
      · obtain ⟨preA, preB, c, c', postA, postB, hla, hlb, hcc, rfl, hstored, hdisj⟩ := hok x hx
        refine ⟨a :: preA, b :: preB, c, c', postA, postB, by rw [hla]; rfl, by rw [hlb]; rfl, hcc, by simp,
          stored_cons_tail hlb hsomeB hstored, fun y hy => ?_⟩
        rcases List.mem_cons.1 hy with rfl | hy
        · exact hnotin
        · intro hm
          rcases List.mem_cons.1 hm with rfl | hm
          · -- blocks below `b` are lower than `a`
            have : y ∈ pb :: lb' := by rw [hlb]; exact List.mem_append_left _ hy
            have := hb.height_lt y this
            omega
          · exact hdisj y hy hm
      · exact hdone (fun y hy => hstA y (List.mem_cons_of_mem _ hy)) (fun y hy => hstB y (List.mem_cons_of_mem _ hy))
          (by omega)

/-- What `findFork` returns: the branches above two blocks with one hash, the second of them stored but for its tip and
off the ancestry of the old head. -/
structure Forks (db : Database) (oldChain newChain : List Block) (r : Reorg) (c c' : Block) (post post' : List Block) :
    Prop where
  dropped : oldChain = r.dropped.reverse ++ c :: post
  added : newChain = r.added.reverse ++ c' :: post'
  hash : c.hash = c'.hash
  ancestor : r.commonAncestor = c.hash
  stored : Stored db ((r.added.reverse ++ [c']).tail)
  off : ∀ y ∈ r.added, y ∉ oldChain

/-- **The fork search.** Only the cache changes; a search that ends returns the branches; and it ends if all ancestors
are stored. -/
theorem findFork_spec {a b : Block} {la lb : List Block} (hc : Coherent bc) (ha : Ancestry g bc.db (a :: la))
    (hb : Ancestry g bc.db (b :: lb)) : ∃ r bc', bc.findFork a b = (r, bc') ∧ Cached bc bc' ∧
      (∀ x, r = .ok x → ∃ c c' post post', Forks bc.db (a :: la) (b :: lb) x c c' post post') ∧
      (Stored bc.db la → Stored bc.db lb → ∃ x, r = .ok x) := by
  unfold findFork
  obtain ⟨r₁, bc₁, hw₁, h₁, hok₁, hdone₁⟩ := walkDown_spec b.height (a.height.toNat + 1) hc ha []
  rw [hw₁]
  cases r₁ with
  | error e =>
    refine ⟨_, bc₁, rfl, h₁, (fun _ h => by cases h), fun hst _ => ?_⟩
    obtain ⟨y, hy⟩ := hdone₁ hst (Nat.lt_succ_self _)
    cases hy
  | ok y =>
  obtain ⟨a', ps⟩ := y
  obtain ⟨pre₁, post₁, hl₁, rfl, hx₁, hanc₁, -⟩ := hok₁ a' ps rfl
  rw [← h₁.db] at hb hanc₁
  obtain ⟨r₂, bc₂, hw₂, h₂, hok₂, hdone₂⟩ := walkDown_spec a'.height (b.height.toNat + 1) (h₁.coherent hc) hb []
  dsimp only
  rw [hw₂]
  cases r₂ with
  | error e =>
    refine ⟨_, bc₂, rfl, h₁.trans h₂, (fun _ h => by cases h), fun _ hst => ?_⟩
    obtain ⟨y, hy⟩ := hdone₂ (h₁.db.symm ▸ hst) (Nat.lt_succ_self _)
    cases hy
  | ok y =>
  obtain ⟨b', ps⟩ := y
  obtain ⟨pre₂, post₂, hl₂, rfl, hx₂, hanc₂, hst₂⟩ := hok₂ b' ps rfl
  rw [← h₂.db] at hanc₁ hanc₂
  obtain ⟨r, bc₃, hw₃, h₃, hok₃, hdone₃⟩ := walkTogether_spec (a'.height.toNat + 1) (h₂.coherent (h₁.coherent hc)) hanc₁
    hanc₂ (by omega) (pre₁.reverse ++ []) (pre₂.reverse ++ [])
  have hdb : bc₂.db = bc.db := h₂.db.trans h₁.db
  rw [hdb] at hok₃ hdone₃ hanc₂
  rw [h₁.db] at hb hst₂
  refine ⟨r, bc₃, hw₃, h₁.trans (h₂.trans h₃), fun x hx => ?_, fun hstA hstB => hdone₃ ?_ ?_ (Nat.lt_succ_self _)⟩
  · obtain ⟨preA, preB, c, c', postA, postB, hla, hlb, hcc, rfl, hstored, hdisj⟩ := hok₃ x hx
    refine ⟨c, c', postA, postB, ?_, ?_, hcc, rfl, ?_, ?_⟩
    · simp [hl₁, hla]
    · simp [hl₂, hlb]
    · have htail : ((preB.reverse ++ (pre₂.reverse ++ [])).reverse ++ [c']).tail = (pre₂ ++ (preB ++ [c'])).tail := by simp
      show Stored bc.db (((preB.reverse ++ (pre₂.reverse ++ [])).reverse ++ [c']).tail)
      rw [htail]
      -- the first block of the second walk is stored unless it is the tip itself
      cases pre₂ with
      | nil => exact hstored
      | cons q pre₂ =>
        intro y hy
        rcases List.mem_append.1 hy with hy | hy
        · exact hst₂ y (List.mem_append_left _ hy)
        · exact stored_cons_tail hlb (hst₂ b' (by simp)) hstored y hy
    · intro y hy hm
      rw [show (⟨c.hash, preA.reverse ++ (pre₁.reverse ++ []), preB.reverse ++ (pre₂.reverse ++ [])⟩ : Reorg).added =
        preB.reverse ++ (pre₂.reverse ++ []) from rfl] at hy
      simp only [List.append_nil, List.mem_append, List.mem_reverse] at hy
      have hya := ha.le_height hm
      rcases hy with hy | hy
      · -- below the second walk: too low for the first walk, and off the rest of the old chain
        have hyb : y ∈ b' :: post₂ := by rw [hlb]; exact List.mem_append_left _ hy
        have hyb := hanc₂.le_height hyb
        rw [hl₁] at hm ha
        rcases List.mem_append.1 hm with hm | hm
        · have := ha.height_gt y hm
          omega
        · exact hdisj y hy hm
      · -- on the second walk: higher than the old head
        have hyb : y ∈ b :: lb := by rw [hl₂]; exact List.mem_append_left _ hy
        have hyb := hb.le_height hyb
        rw [hl₂] at hb
        have := hb.height_gt y hy
        omega
  · exact fun y hy => hstA y (mem_of_mem_post hl₁ hy)
  · exact fun y hy => hstB y (mem_of_mem_post hl₂ hy)

end Blockchain

end Lxs
