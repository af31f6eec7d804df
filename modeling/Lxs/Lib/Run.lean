import Mathlib.Tactic

/-!
# Runs

A machine takes one step for each operation of a list and stops at the first step that fails. What holds at the start
and is preserved by every step holds at the end of every run; the invariant may speak of the operations so far, and the
steps may have to meet a condition on the state they start from.
-/

namespace Lxs.Lib.Run

variable {σ ε op : Type} (exec : σ → op → Except ε σ)

def run : σ → List op → Except ε σ
  | s, [] => .ok s
  | s, o :: ops =>
    match exec s o with
    | .error e => .error e
    | .ok s' => run s' ops

/-- Every step of the run meets the condition `C` in the state it starts from. -/
def Meets (C : σ → op → Prop) : σ → List op → Prop
  | _, [] => True
  | s, o :: ops =>
    C s o ∧
      match exec s o with
      | .error _ => True
      | .ok s' => Meets C s' ops

instance decidableMeets {C : σ → op → Prop} [∀ s o, Decidable (C s o)] :
    ∀ (ops : List op) (s : σ), Decidable (Meets exec C s ops)
  | [], _ => isTrue trivial
  | o :: ops, s =>
    @instDecidableAnd _ _ _
      (match exec s o with
      | .error _ => isTrue trivial
      | .ok s' => decidableMeets ops s')

theorem exists_of_map {α β : Type} {x : Except ε α} {f : α → β} {b : β} (h : x.map f = .ok b) : ∃ a, x = .ok a ∧ f a = b := by
  cases x with
  | error e => cases h
  | ok a => exact ⟨a, rfl, Except.ok.inj h⟩

variable {exec}

theorem run_cons {s s' : σ} {o : op} (h : exec s o = .ok s') (ops : List op) : run exec s (o :: ops) = run exec s' ops := by
  simp only [run, h]

theorem Meets.tail {C : σ → op → Prop} {s s' : σ} {o : op} {ops : List op} (hm : Meets exec C s (o :: ops))
    (h : exec s o = .ok s') : Meets exec C s' ops := by
  have := hm.2
  rwa [h] at this

theorem meets_of_forall {C : σ → op → Prop} (h : ∀ s o, C s o) : ∀ (ops : List op) (s : σ), Meets exec C s ops
  | [], _ => trivial
  | o :: ops, s => by
    refine ⟨h s o, ?_⟩
    cases exec s o with
    | error e => trivial
    | ok s' => exact meets_of_forall h ops s'

/-- **The rule for runs**, at each position of the list of operations. If every step that meets its condition succeeds
and takes the invariant of the operations so far to the invariant of one more, then a run whose steps all meet the
condition succeeds with the invariant. -/
theorem run_induction_at {I : List op → σ → Prop} {C : σ → op → Prop} {ops : List op} {s : σ}
    (hstep : ∀ past o rest s, past ++ o :: rest = ops → I past s → C s o → ∃ s', exec s o = .ok s' ∧ I (past ++ [o]) s')
    (hm : Meets exec C s ops) (hs : I [] s) : ∃ s', run exec s ops = .ok s' ∧ I ops s' := by
  have hgen : ∀ (rest past : List op) (s : σ), past ++ rest = ops → Meets exec C s rest → I past s →
      ∃ s', run exec s rest = .ok s' ∧ I ops s' := by
    intro rest
    induction rest with
    | nil =>
      intro past s heq _ hI
      exact ⟨s, rfl, by rwa [← heq, List.append_nil]⟩
    | cons o rest ih =>
      intro past s heq hm hI
      obtain ⟨s₁, hs₁, hI₁⟩ := hstep past o rest s heq hI hm.1
      rw [run_cons hs₁]
      exact ih (past ++ [o]) s₁ (by rw [List.append_assoc]; exact heq) (hm.tail hs₁) hI₁
  exact hgen ops [] s rfl hm hs

theorem run_induction {I : List op → σ → Prop} {C : σ → op → Prop} {ops : List op} {s : σ}
    (hstep : ∀ past o s, o ∈ ops → I past s → C s o → ∃ s', exec s o = .ok s' ∧ I (past ++ [o]) s')
    (hm : Meets exec C s ops) (past : List op) (hs : I past s) : ∃ s', run exec s ops = .ok s' ∧ I (past ++ ops) s' := by
  refine run_induction_at (I := fun more => I (past ++ more)) (fun more o rest s heq hI hC => ?_) hm (by rwa [List.append_nil])
  obtain ⟨s', hs', hI'⟩ := hstep (past ++ more) o s (heq ▸ by simp) hI hC
  exact ⟨s', hs', by rwa [List.append_assoc] at hI'⟩

theorem run_append {s s' : σ} {past : List op} (h : run exec s past = .ok s') (ops : List op) :
    run exec s (past ++ ops) = run exec s' ops := by
  induction past generalizing s with
  | nil =>
    cases h
    rfl
  | cons o past ih =>
    cases ho : exec s o with
    | error e => simp only [run, ho] at h; cases h
    | ok s₁ =>
      rw [run_cons ho] at h
      rw [List.cons_append, run_cons ho]
      exact ih h

theorem run_preserves {I : List op → σ → Prop} {ops : List op} {s s' : σ}
    (hstep : ∀ past o rest s s', past ++ o :: rest = ops → I past s → exec s o = .ok s' → I (past ++ [o]) s')
    (hs : I [] s) (h : run exec s ops = .ok s') : I ops s' := by
  have hgen : ∀ (rest past : List op) (s : σ), past ++ rest = ops → I past s → run exec s rest = .ok s' → I ops s' := by
    intro rest
    induction rest with
    | nil =>
      intro past s heq hI hrun
      cases hrun
      rwa [← heq, List.append_nil]
    | cons o rest ih =>
      intro past s heq hI hrun
      cases ho : exec s o with
      | error e => simp only [run, ho] at hrun; cases hrun
      | ok s₁ =>
        rw [run_cons ho] at hrun
        exact ih (past ++ [o]) s₁ (by rw [List.append_assoc]; exact heq) (hstep past o rest s s₁ heq hI ho) hrun
  exact hgen ops [] s rfl hs h

theorem Meets.preserves {I : σ → Prop} {C : σ → op → Prop} (hstep : ∀ o s s', I s → C s o → exec s o = .ok s' → I s') :
    ∀ {ops : List op} {s s' : σ}, Meets exec C s ops → I s → run exec s ops = .ok s' → I s'
  | [], _, _, _, hs, h => by
    cases h
    exact hs
  | o :: ops, s, s', hm, hs, h => by
    cases ho : exec s o with
    | error e => simp only [run, ho] at h; cases h
    | ok s₁ =>
      rw [run_cons ho] at h
      exact Meets.preserves hstep (hm.tail ho) (hstep o s s₁ hs hm.1 ho) h

end Lxs.Lib.Run
