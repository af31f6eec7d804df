import Mathlib.Tactic

/-!
# Programs that act alike on mirrored states

Programs over a state that may stop with an exception, and a map `E` of the states: `Mirror E f x y s` says that from
`E s` the program `y` does what `x` does from `s`, with its result under `f` and its state under `E`.
-/

namespace Lxs.Lib

variable {σ ε α α' β β' : Type} {E : σ → σ} {s : σ}

def Mirror (E : σ → σ) (f : α → α') (x : StateT σ (Except ε) α) (y : StateT σ (Except ε) α') (s : σ) : Prop :=
  y (E s) = (x s).map fun r => (f r.1, E r.2)

namespace Mirror

variable {f : α → α'} {g : β → β'} {x : StateT σ (Except ε) α} {y : StateT σ (Except ε) α'}

theorem pure (a : α) : Mirror (ε := ε) E f (Pure.pure a) (Pure.pure (f a)) s := rfl

theorem throw (e : ε) :
    Mirror E f (MonadExcept.throw e : StateT σ (Except ε) α) (MonadExcept.throw e : StateT σ (Except ε) α') s := rfl

theorem bind (hx : Mirror E f x y s) {k : α → StateT σ (Except ε) β} {k' : α' → StateT σ (Except ε) β'}
    (hk : ∀ a t, x s = .ok (a, t) → Mirror E g (k a) (k' (f a)) t) : Mirror E g (x >>= k) (y >>= k') s := by
  show (y (E s) >>= fun p => k' p.1 p.2) = (x s >>= fun p => k p.1 p.2).map _
  unfold Mirror at hx
  cases hr : x s with
  | error e =>
    rw [hr] at hx
    rw [hx]
    rfl
  | ok p =>
    rw [hr] at hx
    rw [hx]
    exact hk p.1 p.2 hr

theorem of_get {k : σ → StateT σ (Except ε) β} {k' : σ → StateT σ (Except ε) β'} (h : Mirror E g (k s) (k' (E s)) s) :
    Mirror E g (get >>= k) (get >>= k') s := h

theorem modify {u u' : σ → σ} (h : u' (E s) = E (u s)) :
    Mirror (ε := ε) E id (modify u : StateT σ (Except ε) PUnit) (modify u') s := by
  show Except.ok ((), u' (E s)) = Except.ok ((), E (u s))
  rw [h]

theorem modify_bind {u u' : σ → σ} {k : PUnit → StateT σ (Except ε) β} {k' : PUnit → StateT σ (Except ε) β'}
    (h : u' (E s) = E (u s)) (hk : Mirror E g (k ()) (k' ()) (u s)) : 
    Mirror E g (MonadState.modifyGet (fun s => (⟨⟩, u s)) >>= k) (MonadState.modifyGet (fun s => (⟨⟩, u' s)) >>= k') s :=
  (modify h).bind fun a t hr => by
    cases hr
    exact hk

theorem ite_congr {c c' : Prop} [Decidable c] [Decidable c'] {x' : StateT σ (Except ε) α} {y' : StateT σ (Except ε) α'}
    (hc : c ↔ c') (hx : c → Mirror E f x y s) (hy : ¬c → Mirror E f x' y' s) :
    Mirror E f (if c then x else x') (if c' then y else y') s := by
  by_cases h : c
  · rw [if_pos h, if_pos (hc.1 h)]
    exact hx h
  · rw [if_neg h, if_neg fun h' => h (hc.2 h')]
    exact hy h

theorem ite {c : Prop} [Decidable c] {x' : StateT σ (Except ε) α} {y' : StateT σ (Except ε) α'}
    (hx : c → Mirror E f x y s) (hy : ¬c → Mirror E f x' y' s) : Mirror E f (if c then x else x') (if c then y else y') s :=
  ite_congr Iff.rfl hx hy

end Mirror

end Lxs.Lib
