import Lxs.Lib.FinMap

/-!
# Buckets

A finite map of lists. What a weight adds up to over all entries changes by one entry when one is appended to its
bucket, and by a bucket when a bucket goes: counters that follow these two stay exact.
-/

namespace Lxs.Lib.Buckets

open Std FinMap

variable {K E M : Type} [Ord K] [TransOrd K] [LawfulEqOrd K]

def bucket (m : ExtTreeMap K (List E)) (k : K) : List E := m[k]?.getD []

def push (m : ExtTreeMap K (List E)) (k : K) (e : E) : ExtTreeMap K (List E) := m.insert k (bucket m k ++ [e])

def entries (m : ExtTreeMap K (List E)) : List E := m.toList.flatMap Prod.snd

omit [LawfulEqOrd K] in
@[simp]
theorem entries_empty : entries (∅ : ExtTreeMap K (List E)) = [] := by
  rw [entries, ExtTreeMap.toList_eq_nil_iff.2 rfl, List.flatMap_nil]

theorem mem_entries {m : ExtTreeMap K (List E)} {e : E} : e ∈ entries m ↔ ∃ k, e ∈ bucket m k := by
  constructor
  · intro h
    obtain ⟨⟨k, l⟩, hkl, he⟩ := List.mem_flatMap.1 h
    exact ⟨k, by rwa [bucket, ExtTreeMap.mem_toList_iff_getElem?_eq_some.1 hkl, Option.getD_some]⟩
  · rintro ⟨k, he⟩
    cases hk : m[k]? with
    | none => simp [bucket, hk] at he
    | some l =>
      rw [bucket, hk, Option.getD_some] at he
      exact List.mem_flatMap.2 ⟨(k, l), ExtTreeMap.mem_toList_iff_getElem?_eq_some.2 hk, he⟩

@[simp]
theorem bucket_push_self (m : ExtTreeMap K (List E)) (k : K) (e : E) : bucket (push m k e) k = bucket m k ++ [e] := by
  simp [bucket, push]

theorem bucket_push_ne (m : ExtTreeMap K (List E)) {k a : K} (h : k ≠ a) (e : E) : bucket (push m k e) a = bucket m a := by
  rw [bucket, push, ExtTreeMap.getElem?_insert, if_neg (by rwa [LawfulEqCmp.compare_eq_iff_eq]), bucket]

theorem bucket_erase [DecidableEq K] (m : ExtTreeMap K (List E)) (k a : K) :
    bucket (m.erase k) a = if k = a then [] else bucket m a := by
  simp only [bucket, ExtTreeMap.getElem?_erase, LawfulEqCmp.compare_eq_iff_eq]
  split <;> rfl

section Total

variable [AddCommMonoid M] (w : E → M)

def total (m : ExtTreeMap K (List E)) : M := ((entries m).map w).sum

omit [LawfulEqOrd K] in
theorem total_eq_sumOf (m : ExtTreeMap K (List E)) : total w m = sumOf (fun l : List E => (l.map w).sum) m := by
  rw [total, entries, sumOf]
  induction m.toList with
  | nil => rfl
  | cons p l ih => rw [List.flatMap_cons, List.map_append, List.sum_append, List.map_cons, List.sum_cons, ih]

omit [LawfulEqOrd K] in
@[simp]
theorem total_empty : total w (∅ : ExtTreeMap K (List E)) = 0 := by
  rw [total, entries_empty, List.map_nil, List.sum_nil]

omit [LawfulEqOrd K] in
theorem elim_bucket (m : ExtTreeMap K (List E)) (k : K) :
    (m[k]?).elim 0 (fun l : List E => (l.map w).sum) = ((bucket m k).map w).sum := by
  rw [bucket]
  cases m[k]? <;> rfl

theorem total_erase (m : ExtTreeMap K (List E)) (k : K) :
    total w (m.erase k) + ((bucket m k).map w).sum = total w m := by
  have h := sumOf_put (fun l : List E => (l.map w).sum) m k none
  rwa [elim_bucket, Option.elim_none, add_zero, ← total_eq_sumOf, ← total_eq_sumOf] at h

end Total

theorem length_entries_erase (m : ExtTreeMap K (List E)) (k : K) :
    (entries (m.erase k)).length + (bucket m k).length = (entries m).length := by
  have h := total_erase (fun _ : E => 1) m k
  simpa only [total, List.map_const', List.sum_replicate, smul_eq_mul, mul_one] using h

theorem total_push [AddCancelCommMonoid M] (w : E → M) (m : ExtTreeMap K (List E)) (k : K) (e : E) :
    total w (push m k e) = total w m + w e := by
  have h := sumOf_put (fun l : List E => (l.map w).sum) m k (some (bucket m k ++ [e]))
  rw [elim_bucket, Option.elim_some, List.map_append, List.sum_append, ← total_eq_sumOf, ← total_eq_sumOf,
    List.map_singleton, List.sum_singleton, add_comm _ (w e), ← add_assoc] at h
  exact add_right_cancel h

end Lxs.Lib.Buckets
