import Mathlib.Tactic

/-!
# Savepoints by an undo log

A store whose world is changed by writes. While a mark is live every write leaves an entry from which
it can be undone; a mark remembers the length of the journal and saves the rest of the store by
value. The abstract counterpart copies the whole store at every mark. `Extends b s` says that `s` was
reached from `b` without going below the marks of `b`, and it is all a revert needs.
-/

namespace Lxs.Lib.UndoLog

variable {W E X K : Type}

/-- How writes are taken back: an entry undoes one write of the world, and the extra part is saved
by value. `Grows` is what the extra part may do between a mark and the revert to it. -/
structure Discipline (W E X K : Type) where
  undo : E → W → W
  save : X → K
  restore : K → X → X
  Grows : X → X → Prop
  grows_refl : ∀ x, Grows x x
  grows_trans : ∀ {x y z}, Grows x y → Grows y z → Grows x z
  restore_save : ∀ {x y}, Grows x y → restore (save x) y = x

@[ext]
structure Store (W E X K : Type) where
  world : W
  extra : X
  journal : List E
  marks : List (ℕ × K)

namespace Store

/-- A write is journaled only while a mark is live. -/
def write (s : Store W E X K) (e : E) (w : W) : Store W E X K :=
  { s with world := w, journal := if s.marks.isEmpty then s.journal else s.journal ++ [e] }

def update (s : Store W E X K) (x : X) : Store W E X K := { s with extra := x }

variable (d : Discipline W E X K)

def mark (s : Store W E X K) : Store W E X K :=
  { s with marks := s.marks ++ [(s.journal.length, d.save s.extra)] }

/-- The entries past the mark are undone newest first, and the mark goes with all marks above it. -/
def revert (s : Store W E X K) (id : ℕ) : Store W E X K :=
  match s.marks[id]? with
  | none => s
  | some (n, k) =>
    { world := (s.journal.drop n).foldr d.undo s.world
      extra := d.restore k s.extra
      journal := s.journal.take n
      marks := s.marks.take id }

def discard (s : Store W E X K) : Store W E X K := { s with journal := [], marks := [] }

end Store

/-! ### Extensions -/

variable {d : Discipline W E X K} {b s : Store W E X K}

/-- The store `s` still holds everything that is needed to come back to `b`. -/
structure Extends (d : Discipline W E X K) (b s : Store W E X K) : Prop where
  marks : b.marks <+: s.marks
  journal : b.journal <+: s.journal
  world : (s.journal.drop b.journal.length).foldr d.undo s.world = b.world
  extra : d.Grows b.extra s.extra

namespace Extends

theorem refl (b : Store W E X K) : Extends d b b where
  marks := List.prefix_rfl
  journal := List.prefix_rfl
  world := by rw [List.drop_length, List.foldr_nil]
  extra := d.grows_refl _

theorem write (h : Extends d b s) (hs : s.marks ≠ []) {e : E} {w : W} (hu : d.undo e w = s.world) :
    Extends d b (s.write e w) := by
  have hj : (s.write e w).journal = s.journal ++ [e] := by
    simp [Store.write, hs]
  refine ⟨h.marks, hj ▸ h.journal.trans (List.prefix_append _ _), ?_, h.extra⟩
  rw [hj, List.drop_append_of_le_length h.journal.length_le, List.foldr_append]
  simpa [Store.write, hu] using h.world

theorem update (h : Extends d b s) {x : X} (hx : d.Grows s.extra x) : Extends d b (s.update x) :=
  ⟨h.marks, h.journal, h.world, d.grows_trans h.extra hx⟩

theorem mark (h : Extends d b s) : Extends d b (s.mark d) :=
  ⟨h.marks.trans (List.prefix_append _ _), h.journal, h.world, h.extra⟩

theorem marks_ne_nil (h : Extends d (b.mark d) s) : s.marks ≠ [] := by
  intro hn
  have := h.marks.length_le
  simp [Store.mark, hn] at this

end Extends

/-- **Reverting to a mark restores the store as it was before the mark.** -/
theorem revert_of_extends (h : Extends d (b.mark d) s) : s.revert d b.marks.length = b := by
  obtain ⟨ms, hm⟩ := h.marks
  have hg : s.marks[b.marks.length]? = some (b.journal.length, d.save b.extra) := by
    rw [← hm]
    simp [Store.mark]
  have hj : b.journal <+: s.journal := h.journal
  unfold Store.revert
  rw [hg]
  refine Store.ext h.world (d.restore_save h.extra) (List.prefix_iff_eq_take.1 hj).symm ?_
  rw [← hm]
  simp [Store.mark]

/-! ### Two stores side by side -/

/-- Two stores that went the same way from `b` and from `b'`: their worlds are related by `V`, the entries journaled
since by `F`, and the marks set since stand at the same places. -/
structure Beside (V : W → W → Prop) (F : E → E → Prop) (b b' s t : Store W E X K) : Prop where
  world : V s.world t.world
  journal : ∃ l l', s.journal = b.journal ++ l ∧ t.journal = b'.journal ++ l' ∧ List.Forall₂ F l l'
  marks : ∃ m m', s.marks = b.marks ++ m ∧ t.marks = b'.marks ++ m' ∧ List.Forall₂
    (fun x y => ∃ k, x.1 = b.journal.length + k ∧ y.1 = b'.journal.length + k) m m'

namespace Beside

variable {V : W → W → Prop} {F : E → E → Prop} {b' s' t t' : Store W E X K}

theorem refl (h : V b.world b'.world) : Beside V F b b' b b' :=
  ⟨h, ⟨[], [], by simp, by simp, .nil⟩, ⟨[], [], by simp, by simp, .nil⟩⟩

theorem write (h : Beside V F b b' s t) (hb : b.marks ≠ []) (hb' : b'.marks ≠ []) {e e' : E} {w w' : W} (he : F e e')
    (hw : V w w') : Beside V F b b' (s.write e w) (t.write e' w') := by
  obtain ⟨l, l', hs, ht, hl⟩ := h.journal
  obtain ⟨m, m', hms, hmt, -⟩ := h.marks
  refine ⟨hw, ⟨l ++ [e], l' ++ [e'], ?_, ?_, List.rel_append hl (.cons he .nil)⟩, h.marks⟩
  · simp [Store.write, hs, hms, hb]
  · simp [Store.write, ht, hmt, hb']

theorem update (h : Beside V F b b' s t) (x x' : X) : Beside V F b b' (s.update x) (t.update x') :=
  ⟨h.world, h.journal, h.marks⟩

theorem mark (h : Beside V F b b' s t) : Beside V F b b' (s.mark d) (t.mark d) := by
  obtain ⟨l, l', hs, ht, hl⟩ := h.journal
  obtain ⟨m, m', hms, hmt, hm⟩ := h.marks
  refine ⟨h.world, h.journal, m ++ [(s.journal.length, d.save s.extra)], m' ++ [(t.journal.length, d.save t.extra)], ?_, ?_,
    List.rel_append hm (.cons ⟨l.length, ?_, ?_⟩ .nil)⟩
  · rw [Store.mark, hms, List.append_assoc]
  · rw [Store.mark, hmt, List.append_assoc]
  · rw [hs, List.length_append]
  · rw [ht, List.length_append, hl.length_eq]

theorem foldr_undo (hundo : ∀ {e e' : E} {w w' : W}, F e e' → V w w' → V (d.undo e w) (d.undo e' w')) {l l' : List E}
    (hl : List.Forall₂ F l l') {w w' : W} (h : V w w') : V (l.foldr d.undo w) (l'.foldr d.undo w') := by
  induction hl with
  | nil => exact h
  | cons he _ ih => exact hundo he ih

/-- **Stores side by side are reverted side by side**, to the marks that came next at an earlier point. -/
theorem revert (hundo : ∀ {e e' : E} {w w' : W}, F e e' → V w w' → V (d.undo e w) (d.undo e' w'))
    (h : Beside V F b b' s t) (h' : Beside V F b b' s' t') :
    Beside V F b b' (s'.revert d s.marks.length) (t'.revert d t.marks.length) := by
  obtain ⟨m, m', hms, hmt, hm⟩ := h.marks
  obtain ⟨l₁, l₁', hs₁, ht₁, hl₁⟩ := h'.journal
  obtain ⟨m₁, m₁', hms₁, hmt₁, hm₁⟩ := h'.marks
  have hlen : m'.length = m.length := hm.length_eq.symm
  have hlen₁ : m₁'.length = m₁.length := hm₁.length_eq.symm
  have hget : ∀ p q : List (ℕ × K), (p ++ q)[p.length + m.length]? = q[m.length]? := by
    intro p q
    rw [List.getElem?_append_right (Nat.le_add_right _ _), Nat.add_sub_cancel_left]
  unfold Store.revert
  rw [hms, hmt, hms₁, hmt₁, List.length_append, List.length_append, hlen, hget, hget]
  by_cases hlt : m.length < m₁.length
  · have hlt' : m.length < m₁'.length := hlen₁ ▸ hlt
    obtain ⟨k, hk, hk'⟩ := List.Forall₂.get hm₁ hlt hlt'
    rw [List.getElem?_eq_getElem hlt, List.getElem?_eq_getElem hlt']
    simp only [List.get_eq_getElem] at hk hk'
    dsimp only
    rw [hk, hk', hs₁, ht₁]
    refine ⟨?_, ⟨l₁.take k, l₁'.take k, ?_, ?_, List.forall₂_take k hl₁⟩, ⟨m₁.take m.length, m₁'.take m.length, ?_, ?_,
      List.forall₂_take _ hm₁⟩⟩
    · rw [List.drop_length_add_append, List.drop_length_add_append]
      exact foldr_undo hundo (List.forall₂_drop k hl₁) h'.world
    · exact List.take_length_add_append _
    · exact List.take_length_add_append _
    · exact List.take_length_add_append _
    · exact List.take_length_add_append _
  · rw [List.getElem?_eq_none (Nat.le_of_not_lt hlt), List.getElem?_eq_none (hlen₁ ▸ Nat.le_of_not_lt hlt)]
    exact h'

end Beside

/-! ### The stores to which the live marks lead back -/

/-- The list `cs` holds, for every live mark of `s`, the store as it was when the mark was set. -/
structure Live (d : Discipline W E X K) (cs : List (Store W E X K)) (s : Store W E X K) : Prop where
  nested : cs.Pairwise fun b l => Extends d (b.mark d) l
  reach : ∀ c ∈ cs, Extends d (c.mark d) s
  level : ∀ (i : ℕ) (c : Store W E X K), cs[i]? = some c → c.marks.length = i
  depth : s.marks.length = cs.length

namespace Live

variable {cs : List (Store W E X K)}

theorem of_no_marks (h : s.marks = []) : Live d [] s :=
  ⟨.nil, by simp, by simp, by simp [h]⟩

theorem write (h : Live d cs s) {e : E} {w : W} (hu : d.undo e w = s.world) : Live d cs (s.write e w) :=
  ⟨h.nested, fun c hc => (h.reach c hc).write (h.reach c hc).marks_ne_nil hu, h.level, h.depth⟩

theorem update (h : Live d cs s) {x : X} (hx : d.Grows s.extra x) : Live d cs (s.update x) :=
  ⟨h.nested, fun c hc => (h.reach c hc).update hx, h.level, h.depth⟩

theorem mark (h : Live d cs s) : Live d (cs ++ [s]) (s.mark d) where
  nested := List.pairwise_append.2 ⟨h.nested, List.pairwise_singleton _ _, by simpa using h.reach⟩
  reach c hc := by
    rcases List.mem_append.1 hc with hc | hc
    · exact (h.reach c hc).mark
    · exact List.mem_singleton.1 hc ▸ Extends.refl _
  level i c hi := by
    rcases lt_trichotomy i cs.length with hlt | rfl | hgt
    · exact h.level i c (by rwa [List.getElem?_append_left hlt] at hi)
    · have : s = c := by simpa using hi
      exact this ▸ h.depth
    · have : cs.length + 1 ≤ i := hgt
      simp [List.getElem?_eq_none (l := cs ++ [s]) (by simpa using this)] at hi
  depth := by simp [Store.mark, h.depth]

theorem revert_eq (h : Live d cs s) {id : ℕ} {c : Store W E X K} (hc : cs[id]? = some c) :
    s.revert d id = c := by
  rw [← h.level id c hc]
  exact revert_of_extends (h.reach c (List.mem_of_getElem? hc))

theorem revert (h : Live d cs s) {id : ℕ} {c : Store W E X K} (hc : cs[id]? = some c) :
    Live d (cs.take id) (s.revert d id) := by
  rw [h.revert_eq hc]
  have hlt : id < cs.length := (List.getElem?_eq_some_iff.1 hc).1
  refine ⟨h.nested.sublist (List.take_sublist _ _), fun a ha => ?_, fun i a hi => ?_, ?_⟩
  · obtain ⟨i, hi, rfl⟩ := List.mem_take_iff_getElem.1 ha
    obtain ⟨_, rfl⟩ := List.getElem?_eq_some_iff.1 hc
    exact List.pairwise_iff_getElem.1 h.nested i id _ hlt (by omega)
  · rw [List.getElem?_take] at hi
    split at hi
    · exact h.level i a hi
    · cases hi
  · rw [h.level id c hc, List.length_take, Nat.min_eq_left hlt.le]

theorem discard : Live d [] s.discard := of_no_marks rfl

end Live

/-! ### The copying store -/

/-- The store that copies itself at every mark. -/
structure Copying (W X : Type) where
  world : W
  extra : X
  copies : List (W × X)

/-- The operations on a store; a write also says how it is undone. -/
inductive Op (W E X : Type)
  | write (f : W → E × W)
  | update (g : X → X)
  | mark
  | revert (id : ℕ)
  | discard

def Op.Lawful (d : Discipline W E X K) : Op W E X → Prop
  | write f => ∀ w, d.undo (f w).1 (f w).2 = w
  | update g => ∀ x, d.Grows x (g x)
  | mark | revert _ | discard => True

def Store.exec (d : Discipline W E X K) (s : Store W E X K) : Op W E X → Store W E X K
  | .write f => s.write (f s.world).1 (f s.world).2
  | .update g => s.update (g s.extra)
  | .mark => s.mark d
  | .revert id => s.revert d id
  | .discard => s.discard

def Copying.exec (c : Copying W X) : Op W E X → Copying W X
  | .write f => { c with world := (f c.world).2 }
  | .update g => { c with extra := g c.extra }
  | .mark => { c with copies := c.copies ++ [(c.world, c.extra)] }
  | .revert id =>
    match c.copies[id]? with
    | none => c
    | some (w, x) => ⟨w, x, c.copies.take id⟩
  | .discard => { c with copies := [] }

/-- The store behaves as the copying store `c` does. -/
def Simulates (d : Discipline W E X K) (s : Store W E X K) (c : Copying W X) : Prop :=
  ∃ cs, Live d cs s ∧ c = ⟨s.world, s.extra, cs.map fun b => (b.world, b.extra)⟩

theorem Simulates.exec {c : Copying W X} (h : Simulates d s c) {op : Op W E X} (ho : op.Lawful d) :
    Simulates d (s.exec d op) (c.exec op) := by
  obtain ⟨cs, hl, rfl⟩ := h
  cases op with
  | write f => exact ⟨cs, hl.write (ho s.world), rfl⟩
  | update g => exact ⟨cs, hl.update (ho s.extra), rfl⟩
  | mark => exact ⟨cs ++ [s], hl.mark, by simp [Store.exec, Copying.exec, Store.mark]⟩
  | discard => exact ⟨[], Live.discard, rfl⟩
  | revert id =>
    cases hc : cs[id]? with
    | none =>
      have hm : s.marks[id]? = none := by
        rw [List.getElem?_eq_none_iff] at hc ⊢
        rw [hl.depth]
        exact hc
      have hs : s.exec d (.revert id) = s := by simp [Store.exec, Store.revert, hm]
      rw [hs]
      exact ⟨cs, hl, by simp [Copying.exec, hc]⟩
    | some b =>
      refine ⟨cs.take id, hl.revert hc, ?_⟩
      simp [Copying.exec, hc, Store.exec, hl.revert_eq hc, List.map_take]

/-- **Savepoints by an undo log behave as copies of the whole store**, along every run. -/
theorem Simulates.run {c : Copying W X} (h : Simulates d s c) (ops : List (Op W E X))
    (ho : ∀ op ∈ ops, op.Lawful d) :
    Simulates d (ops.foldl (Store.exec d) s) (ops.foldl Copying.exec c) := by
  induction ops generalizing s c with
  | nil => exact h
  | cons op ops ih =>
    exact ih (h.exec (ho op List.mem_cons_self)) fun o hm => ho o (List.mem_cons_of_mem _ hm)

end Lxs.Lib.UndoLog
