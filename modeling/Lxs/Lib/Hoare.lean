import Mathlib.Tactic

/-!
# Triples for state and exceptions

Partial programs over a state that may stop with an exception: `Triple P x Q E` says that from a state
in `P` the program ends in `Q` with its result, or stops with an exception in `E`.
-/

namespace Lxs.Lib.Hoare

variable {σ ε α β : Type} {P : σ → Prop} {E : ε → Prop}

def Triple (P : σ → Prop) (x : StateT σ (Except ε) α) (Q : α → σ → Prop) (E : ε → Prop) : Prop :=
  ∀ s, P s → match x s with
    | .ok (a, s') => Q a s'
    | .error e => E e

namespace Triple

variable {x : StateT σ (Except ε) α} {Q Q' : α → σ → Prop}

theorem ok (h : Triple P x Q E) {s s' : σ} {a : α} (hp : P s) (hx : x s = .ok (a, s')) : Q a s' := by
  have := h s hp
  rwa [hx] at this

theorem error (h : Triple P x Q E) {s : σ} {e : ε} (hp : P s) (hx : x s = .error e) : E e := by
  have := h s hp
  rwa [hx] at this

theorem pure {a : α} (h : ∀ s, P s → Q a s) : Triple P (Pure.pure a) Q E := fun s hp => h s hp

theorem throw {e : ε} (h : E e) : Triple P (throw e : StateT σ (Except ε) α) Q E := fun _ _ => h

theorem bind {f : α → StateT σ (Except ε) β} {R : β → σ → Prop} (hx : Triple P x Q E)
    (hf : ∀ a, Triple (Q a) (f a) R E) : Triple P (x >>= f) R E := by
  intro s hp
  have h := hx s hp
  show match (x s >>= fun p => f p.1 p.2) with
    | .ok (a, s') => R a s'
    | .error e => E e
  cases hr : x s with
  | error e => rw [hr] at h; exact h
  | ok p => rw [hr] at h; exact hf p.1 p.2 h

theorem of_get {f : σ → StateT σ (Except ε) α} (h : ∀ s, P s → Triple (fun t => t = s) (f s) Q E) :
    Triple P (MonadState.get >>= f) Q E :=
  fun s hp => h s hp s rfl

theorem modify {f : σ → σ} {R : Unit → σ → Prop} (h : ∀ s, P s → R () (f s)) :
    Triple P (modify f : StateT σ (Except ε) PUnit) R E :=
  fun s hp => h s hp

theorem ite {c : Prop} [Decidable c] {y : StateT σ (Except ε) α} (hx : c → Triple P x Q E)
    (hy : ¬c → Triple P y Q E) : Triple P (if c then x else y) Q E := by
  split
  · exact hx ‹_›
  · exact hy ‹_›

theorem conseq {P' : σ → Prop} (h : Triple P' x Q' E) (hp : ∀ s, P s → P' s) (hq : ∀ a s, Q' a s → Q a s) :
    Triple P x Q E := by
  intro s hs
  have := h s (hp s hs)
  cases hr : x s with
  | error e => rw [hr] at this; exact this
  | ok p => rw [hr] at this; exact hq _ _ this

theorem post (h : Triple P x Q' E) (hq : ∀ a s, Q' a s → Q a s) : Triple P x Q E :=
  h.conseq (fun _ hs => hs) hq

theorem pre {P' : σ → Prop} (h : Triple P' x Q E) (hp : ∀ s, P s → P' s) : Triple P x Q E :=
  h.conseq hp fun _ _ hs => hs

end Triple

end Lxs.Lib.Hoare
