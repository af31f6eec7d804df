import Mathlib.Tactic
import Mathlib.Algebra.BigOperators.Group.Finset.Basic

/-!
# Finite maps

Facts about `Std.ExtTreeMap` under a lawful order of the keys: a point-wise "write", where `none`
deletes the key, lists of such writes, and the sum of a quantity over all values of a map.
-/

namespace Lxs.Lib.FinMap

open Std

variable {α β γ : Type} [Ord α] [TransOrd α] [LawfulEqOrd α]

/-! ### Lookups -/

omit [LawfulEqOrd α] in
theorem getElem?_of_not_mem {m : ExtTreeMap α β} {k : α} (h : k ∉ m) : m[k]? = none := by
  rwa [ExtTreeMap.mem_iff_isSome_getElem?, Bool.not_eq_true, Option.isSome_eq_false_iff, Option.isNone_iff_eq_none] at h

omit [LawfulEqOrd α] in
theorem contains_of_getElem? {m : ExtTreeMap α β} {k : α} {v : β} (h : m[k]? = some v) :
    m.contains k = true ∧ m.size ≠ 0 := by
  refine ⟨by rw [ExtTreeMap.contains_iff_mem, ExtTreeMap.mem_iff_isSome_getElem?, h]; rfl, fun h0 => ?_⟩
  rw [ExtTreeMap.eq_empty_iff_size_eq_zero.2 h0] at h
  simp at h

theorem toList_inj {m n : ExtTreeMap α β} (h : m.toList = n.toList) : m = n := by
  refine ExtTreeMap.ext_getElem? fun k => Option.ext fun v => ?_
  rw [← ExtTreeMap.mem_toList_iff_getElem?_eq_some, h, ExtTreeMap.mem_toList_iff_getElem?_eq_some]

theorem size_lt_card [DecidableEq α] {m : ExtTreeMap α β} {s : Finset α} (hsub : ∀ k ∈ m, k ∈ s) {k : α} (hk : k ∉ m)
    (hks : k ∈ s) : m.size < s.card := by
  have hkeys : m.keys.toFinset ⊂ s := by
    refine Finset.ssubset_iff_of_subset ?_ |>.2 ⟨k, hks, ?_⟩
    · exact fun x hx => hsub x (ExtTreeMap.mem_keys.1 (List.mem_toFinset.1 hx))
    · exact fun hx => hk (ExtTreeMap.mem_keys.1 (List.mem_toFinset.1 hx))
  have hcard := Finset.card_lt_card hkeys
  rwa [List.toFinset_card_of_nodup ExtTreeMap.nodup_keys, ExtTreeMap.length_keys] at hcard

/-! ### Writes -/

/-- Write `some v` or delete with `none`. -/
def put (m : ExtTreeMap α β) (k : α) : Option β → ExtTreeMap α β
  | some v => m.insert k v
  | none => m.erase k

theorem getElem?_put [DecidableEq α] (m : ExtTreeMap α β) (k a : α) (o : Option β) :
    (put m k o)[a]? = if k = a then o else m[a]? := by
  cases o with
  | some v => simp only [put, ExtTreeMap.getElem?_insert, LawfulEqCmp.compare_eq_iff_eq]
  | none => simp only [put, ExtTreeMap.getElem?_erase, LawfulEqCmp.compare_eq_iff_eq]

@[simp]
theorem getElem?_put_self (m : ExtTreeMap α β) (k : α) (o : Option β) : (put m k o)[k]? = o := by
  classical
  rw [getElem?_put, if_pos rfl]

theorem getElem?_put_ne (m : ExtTreeMap α β) {k a : α} (o : Option β) (h : k ≠ a) :
    (put m k o)[a]? = m[a]? := by
  classical
  rw [getElem?_put, if_neg h]

def putAll (m : ExtTreeMap α β) (ws : List (α × Option β)) : ExtTreeMap α β :=
  ws.foldl (fun m w => put m w.1 w.2) m

omit [LawfulEqOrd α] in
@[simp]
theorem putAll_nil (m : ExtTreeMap α β) : putAll m [] = m := rfl

omit [LawfulEqOrd α] in
@[simp]
theorem putAll_cons (m : ExtTreeMap α β) (w : α × Option β) (ws : List (α × Option β)) :
    putAll m (w :: ws) = putAll (put m w.1 w.2) ws := rfl

theorem getElem?_putAll [DecidableEq α] (f : α → Option β) :
    ∀ (ws : List (α × Option β)) (m : ExtTreeMap α β) (a : α), (∀ w ∈ ws, w.2 = f w.1) →
      (putAll m ws)[a]? = if a ∈ ws.map Prod.fst then f a else m[a]?
  | [], m, a, _ => by simp
  | w :: ws, m, a, h => by
    have ih := getElem?_putAll f ws (put m w.1 w.2) a fun v hv => h v (List.mem_cons_of_mem _ hv)
    have hw : w.2 = f w.1 := h w List.mem_cons_self
    simp only [putAll_cons, ih, getElem?_put, List.map_cons, List.mem_cons]
    by_cases ha : a ∈ ws.map Prod.fst
    · rw [if_pos ha, if_pos (Or.inr ha)]
    · by_cases he : w.1 = a
      · rw [if_neg ha, if_pos he, if_pos (Or.inl he.symm), hw, he]
      · rw [if_neg ha, if_neg he, if_neg (by rintro (h1 | h1) <;> [exact he h1.symm; exact ha h1])]

theorem putAll_eq_of_covers [DecidableEq α] {m n : ExtTreeMap α β} {ws : List (α × Option β)}
    (hv : ∀ w ∈ ws, w.2 = n[w.1]?) (hc : ∀ a, a ∉ ws.map Prod.fst → m[a]? = n[a]?) :
    putAll m ws = n := by
  refine ExtTreeMap.ext_getElem? fun a => ?_
  rw [getElem?_putAll (fun a => n[a]?) ws m a hv]
  split
  · rfl
  · exact hc a ‹_›

/-! ### Sums over the values -/

section Sum

variable {M : Type} [AddCommMonoid M] (f : β → M)

def sumOf (m : ExtTreeMap α β) : M := (m.toList.map fun p => f p.2).sum

omit [LawfulEqOrd α] in
theorem nodup_keys (m : ExtTreeMap α β) : (m.toList.map Prod.fst).Nodup := by
  rw [ExtTreeMap.map_fst_toList_eq_keys]
  exact ExtTreeMap.nodup_keys

theorem sumOf_eq_sum [DecidableEq α] (m : ExtTreeMap α β) {s : Finset α}
    (hs : ∀ k v, m[k]? = some v → k ∈ s) : sumOf f m = ∑ k ∈ s, (m[k]?).elim 0 f := by
  have hnd : m.toList.Nodup := (nodup_keys m).of_map
  have hsub : (m.toList.map Prod.fst).toFinset ⊆ s := by
    intro k hk
    obtain ⟨⟨k', v⟩, hm, rfl⟩ := List.mem_map.1 (List.mem_toFinset.1 hk)
    exact hs _ _ (ExtTreeMap.mem_toList_iff_getElem?_eq_some.1 hm)
  rw [← Finset.sum_subset hsub, List.sum_toFinset _ (nodup_keys m), List.map_map, sumOf]
  · congr 1
    refine List.map_congr_left fun p hp => ?_
    have := ExtTreeMap.mem_toList_iff_getElem?_eq_some.1 hp
    simp only [Function.comp, this, Option.elim]
  · intro k _ hk
    cases hv : m[k]? with
    | none => rfl
    | some v =>
      refine absurd (List.mem_toFinset.2 (List.mem_map.2 ⟨(k, v), ?_, rfl⟩)) hk
      exact ExtTreeMap.mem_toList_iff_getElem?_eq_some.2 hv

omit [LawfulEqOrd α] in
@[simp]
theorem sumOf_empty : sumOf f (∅ : ExtTreeMap α β) = 0 := by
  rw [sumOf, ExtTreeMap.toList_eq_nil_iff.2 rfl, List.map_nil, List.sum_nil]

theorem sumOf_put (m : ExtTreeMap α β) (k : α) (o : Option β) :
    sumOf f (put m k o) + (m[k]?).elim 0 f = sumOf f m + o.elim 0 f := by
  classical
  let s : Finset α := insert k (m.toList.map Prod.fst).toFinset
  have hm : ∀ a v, m[a]? = some v → a ∈ s := fun a v h =>
    Finset.mem_insert_of_mem (List.mem_toFinset.2 (List.mem_map.2
      ⟨(a, v), ExtTreeMap.mem_toList_iff_getElem?_eq_some.2 h, rfl⟩))
  have hp : ∀ a v, (put m k o)[a]? = some v → a ∈ s := by
    intro a v h
    by_cases ha : k = a
    · exact ha ▸ Finset.mem_insert_self k _
    · rw [getElem?_put_ne m o ha] at h
      exact hm a v h
  have hk : k ∈ s := Finset.mem_insert_self _ _
  rw [sumOf_eq_sum f _ hp, sumOf_eq_sum f _ hm, ← Finset.add_sum_erase s _ hk, ← Finset.add_sum_erase s _ hk,
    getElem?_put_self]
  have : ∑ a ∈ s.erase k, ((put m k o)[a]?).elim 0 f = ∑ a ∈ s.erase k, (m[a]?).elim 0 f := by
    refine Finset.sum_congr rfl fun a ha => ?_
    rw [getElem?_put_ne m o (Finset.ne_of_mem_erase ha).symm]
  rw [this]
  abel

end Sum

end Lxs.Lib.FinMap
