import Mathlib.Tactic

/-!
# Numbered messages that are delivered at most once

One side numbers the messages it sends, the other side marks the numbers it has acted on. What is still pending is the
amount of the messages whose number is not marked: sending adds to it, delivering takes away from it.
-/

namespace Lxs.Lib.Outbox

variable {α : Type} (number amount : α → ℕ)

def pending (sent : List α) (done : ℕ → Bool) : ℕ := ((sent.filter fun m => !done (number m)).map amount).sum

/-- Messages carry the numbers below `next`, each once, and nothing else is marked. -/
structure Numbered (sent : List α) (done : ℕ → Bool) (next : ℕ) : Prop where
  nodup : (sent.map number).Nodup
  sent_lt : ∀ m ∈ sent, number m < next
  done_lt : ∀ n, done n = true → n < next

variable {number} {sent : List α} {done : ℕ → Bool} {next : ℕ}

theorem numbered_nil : Numbered number [] (fun _ => false) 0 :=
  ⟨List.nodup_nil, fun _ hm => absurd hm List.not_mem_nil, fun _ h => by cases h⟩

theorem Numbered.send (amount : α → ℕ) (h : Numbered number sent done next) {m : α} (hm : number m = next) :
    Numbered number (sent ++ [m]) done (next + 1) ∧
      pending number amount (sent ++ [m]) done = pending number amount sent done + amount m := by
  have hnew : done (number m) = false := by
    cases hd : done (number m) with
    | false => rfl
    | true =>
      have := h.done_lt _ hd
      omega
  refine ⟨⟨?_, ?_, fun n hn => (h.done_lt n hn).trans (Nat.lt_succ_self _)⟩, ?_⟩
  · rw [List.map_append, List.map_singleton]
    refine List.nodup_append.2 ⟨h.nodup, List.nodup_singleton _, ?_⟩
    intro n hn k hk heq
    obtain ⟨m', hm', rfl⟩ := List.mem_map.1 hn
    have := h.sent_lt m' hm'
    rw [List.mem_singleton.1 hk] at heq
    omega
  · intro m' hm'
    rcases List.mem_append.1 hm' with hm' | hm'
    · exact (h.sent_lt m' hm').trans (Nat.lt_succ_self _)
    · rw [List.mem_singleton.1 hm']
      omega
  · simp [pending, List.filter_append, hnew]

theorem pending_of_not_mem (amount : α → ℕ) (done : ℕ → Bool) {n : ℕ} (hn : n ∉ sent.map number) :
    pending number amount sent (Function.update done n true) = pending number amount sent done := by
  unfold pending
  congr 2
  refine List.filter_congr fun m hm => ?_
  rw [Function.update_of_ne]
  rintro rfl
  exact hn (List.mem_map_of_mem hm)

theorem Numbered.deliver (amount : α → ℕ) (h : Numbered number sent done next) {m : α} (hm : m ∈ sent)
    (hnew : done (number m) = false) :
    Numbered number sent (Function.update done (number m) true) next ∧
      pending number amount sent done = pending number amount sent (Function.update done (number m) true) + amount m := by
  refine ⟨⟨h.nodup, h.sent_lt, fun n hn => ?_⟩, ?_⟩
  · by_cases heq : n = number m
    · rw [heq]
      exact h.sent_lt m hm
    · rw [Function.update_of_ne heq] at hn
      exact h.done_lt n hn
  -- the list is split at the message; its number is not on either side
  obtain ⟨before, after, rfl⟩ := List.append_of_mem hm
  have hnodup := h.nodup
  rw [List.map_append, List.map_cons] at hnodup
  have hmid := List.nodup_middle.1 hnodup
  have hout := List.nodup_cons.1 hmid
  rw [List.mem_append, not_or] at hout
  have hb := pending_of_not_mem amount done hout.1.1
  have ha := pending_of_not_mem amount done hout.1.2
  unfold pending at hb ha ⊢
  simp only [List.filter_append, List.filter_cons, hnew, Function.update_self, Bool.not_false, Bool.not_true, if_true,
    Bool.false_eq_true, if_false, List.map_append, List.map_cons, List.sum_append, List.sum_cons, hb, ha]
  ring

end Lxs.Lib.Outbox
