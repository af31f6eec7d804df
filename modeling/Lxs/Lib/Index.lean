import Mathlib.Tactic

/-!
# Indexes

A set of values looked up by a key each value has: what inserting, erasing and filtering do to it. A store with several
indexes is consistent when all of them hold one set.
-/

namespace Lxs.Lib.Index

variable {K T : Type} [DecidableEq K]

/-- The lookup `f` holds exactly the values of `S`, each under its own key. -/
structure Holds (key : T → Option K) (f : K → Option T) (S : Set T) : Prop where
  mem : ∀ {k : K} {t : T}, f k = some t → t ∈ S ∧ key t = some k
  get : ∀ {t : T}, t ∈ S → ∃ k, key t = some k ∧ f k = some t

variable {key : T → Option K} {f g : K → Option T} {S : Set T}

omit [DecidableEq K] in
theorem holds_empty (hf : ∀ k, f k = none) : Holds key f ∅ where
  mem h := by
    rw [hf] at h
    cases h
  get h := h.elim

omit [DecidableEq K] in
theorem Holds.congr (h : Holds key f S) (hg : ∀ k, g k = f k) : Holds key g S := by
  rwa [show g = f from funext hg]

omit [DecidableEq K] in
theorem Holds.get_of_key (h : Holds key f S) {t : T} {k : K} (ht : t ∈ S) (hk : key t = some k) : f k = some t := by
  obtain ⟨k', hk', hf⟩ := h.get ht
  rw [hk] at hk'
  cases hk'
  exact hf

theorem Holds.insert (h : Holds key f S) {k : K} {t : T} (hk : key t = some k) (hfree : f k = none)
    (hg : ∀ k', g k' = if k = k' then some t else f k') : Holds key g (insert t S) where
  mem := by
    intro k' t' ht'
    rw [hg] at ht'
    split at ht'
    case isTrue heq =>
      cases ht'
      exact ⟨.inl rfl, heq ▸ hk⟩
    case isFalse =>
      obtain ⟨hmem, hkey⟩ := h.mem ht'
      exact ⟨.inr hmem, hkey⟩
  get := by
    rintro t' (rfl | ht')
    · exact ⟨k, hk, by rw [hg, if_pos rfl]⟩
    · obtain ⟨k', hk', hf⟩ := h.get ht'
      have hne : k ≠ k' := by
        rintro rfl
        rw [hfree] at hf
        cases hf
      exact ⟨k', hk', by rw [hg, if_neg hne, hf]⟩

theorem Holds.erase (h : Holds key f S) {k : K} {t : T} (hk : key t = some k) (hown : ∀ t', f k = some t' → t' = t)
    (hg : ∀ k', g k' = if k = k' then none else f k') : Holds key g (S \ {t}) where
  mem := by
    intro k' t' ht'
    rw [hg] at ht'
    split at ht'
    case isTrue => cases ht'
    case isFalse hne =>
      obtain ⟨hmem, hkey⟩ := h.mem ht'
      refine ⟨⟨hmem, ?_⟩, hkey⟩
      rintro rfl
      rw [hk] at hkey
      cases hkey
      exact hne rfl
  get := by
    rintro t' ⟨hmem, hne⟩
    obtain ⟨k', hk', hf⟩ := h.get hmem
    have hkk : k ≠ k' := by
      rintro rfl
      exact hne (hown t' hf)
    exact ⟨k', hk', by rw [hg, if_neg hkk, hf]⟩

omit [DecidableEq K] in
theorem Holds.restrict (h : Holds key f S) {D : Set T}
    (hg : ∀ k t, g k = some t ↔ f k = some t ∧ t ∈ D) : Holds key g (S ∩ D) where
  mem := by
    intro k t ht
    obtain ⟨hf, hD⟩ := (hg k t).1 ht
    obtain ⟨hmem, hkey⟩ := h.mem hf
    exact ⟨⟨hmem, hD⟩, hkey⟩
  get := by
    rintro t ⟨hmem, hD⟩
    obtain ⟨k, hk, hf⟩ := h.get hmem
    exact ⟨k, hk, (hg k t).2 ⟨hf, hD⟩⟩

end Lxs.Lib.Index
