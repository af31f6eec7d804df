import Mathlib.Tactic

/-!
# Calls that wait for other code

A state that is changed by calls, some of which hand control to other code before they end. What that code does is any
sequence of further calls, so the machine keeps a stack of the calls that wait, each with the state to go back to if it
fails. Code outside may also make several calls and undo them together.

* `Reaches.keeps`: what every step keeps holds in every moment of a run, and in every state that a failure goes back to.
* `Reaches.told`: a view of the state that only waiting calls change, such as locks, is told by the stack.
-/

namespace Lxs.Lib.CallStack

/-- Calls that end at once, calls that start and finish, and what is remembered of a call that waits. -/
structure System (σ : Type) where
  Act : Type
  Call : Type
  Pending : Type
  act : σ → Act → Option σ
  start : σ → Call → Option (σ × Pending)
  finish : σ → Pending → Option σ

/-- The current state, and the calls that wait; `none` is a call of code outside. -/
structure State {σ : Type} (S : System σ) where
  world : σ
  stack : List (σ × Option S.Pending)

inductive Op {σ : Type} (S : System σ)
  | act (a : S.Act)
  | call (c : S.Call)
  | enter
  | leave (ok : Bool)

variable {σ : Type} {S : System σ}

/-- A call that fails leaves the state as it was when it began. -/
def State.exec (m : State S) : Op S → State S
  | .act a => { m with world := (S.act m.world a).getD m.world }
  | .call c =>
    match S.start m.world c with
    | none => m
    | some (w, p) => ⟨w, (m.world, some p) :: m.stack⟩
  | .enter => ⟨m.world, (m.world, none) :: m.stack⟩
  | .leave ok =>
    match m.stack with
    | [] => m
    | (before, pending) :: rest =>
      if ok then
        match pending with
        | none => ⟨m.world, rest⟩
        | some p => ⟨(S.finish m.world p).getD before, rest⟩
      else ⟨before, rest⟩

/-- The moments of runs from the states of `Init`. Every state on the way is within `Bound`. -/
inductive Reaches (S : System σ) (Init Bound : σ → Prop) : State S → Prop
  | start {w : σ} : Init w → Reaches S Init Bound ⟨w, []⟩
  | step {m : State S} (op : Op S) : Reaches S Init Bound m → Bound (m.exec op).world → Reaches S Init Bound (m.exec op)

variable {Init Bound : σ → Prop} {m : State S}

/-- One step: the state is new only where a call ended at once, started or finished. -/
theorem State.exec_keeps {I : σ → Prop} {op : Op S} (h : I m.world ∧ ∀ f ∈ m.stack, I f.1)
    (hact : ∀ w' a, op = .act a → S.act m.world a = some w' → w' = (m.exec op).world → I w')
    (hstart : ∀ w' c p, S.start m.world c = some (w', p) → w' = (m.exec op).world → I w')
    (hfinish : ∀ w' p, S.finish m.world p = some w' → w' = (m.exec op).world → I w') :
    I (m.exec op).world ∧ ∀ f ∈ (m.exec op).stack, I f.1 := by
  obtain ⟨hworld, hstack⟩ := h
  cases op with
  | act a =>
    refine ⟨?_, hstack⟩
    dsimp only [State.exec] at hact ⊢
    cases ha : S.act m.world a with
    | none => exact hworld
    | some w' => exact hact w' a rfl ha (by rw [ha]; rfl)
  | call c =>
    dsimp only [State.exec] at hstart ⊢
    cases hc : S.start m.world c with
    | none => exact ⟨hworld, hstack⟩
    | some r => exact ⟨hstart _ _ _ hc (by rw [hc]), List.forall_mem_cons.2 ⟨hworld, hstack⟩⟩
  | enter => exact ⟨hworld, List.forall_mem_cons.2 ⟨hworld, hstack⟩⟩
  | leave ok =>
    obtain ⟨w, stack⟩ := m
    cases stack with
    | nil => exact ⟨hworld, hstack⟩
    | cons f rest =>
      obtain ⟨before, pending⟩ := f
      obtain ⟨hbefore, hrest⟩ := List.forall_mem_cons.1 hstack
      cases ok with
      | false => exact ⟨hbefore, hrest⟩
      | true =>
        cases pending with
        | none => exact ⟨hworld, hrest⟩
        | some p =>
          refine ⟨?_, hrest⟩
          simp only [State.exec, if_true] at hfinish ⊢
          cases hf : S.finish w p with
          | none => exact hbefore
          | some w' => exact hfinish _ _ hf (by rw [hf])

/-- **What every step keeps, every moment keeps.** A step may assume that it ends within the bound. -/
theorem Reaches.keeps {I : σ → Prop} (h : Reaches S Init Bound m) (hinit : ∀ w, Init w → I w)
    (hact : ∀ w w' a, I w → Bound w' → S.act w a = some w' → I w')
    (hstart : ∀ w w' c p, I w → Bound w' → S.start w c = some (w', p) → I w')
    (hfinish : ∀ w w' p, I w → Bound w' → S.finish w p = some w' → I w') :
    I m.world ∧ ∀ f ∈ m.stack, I f.1 := by
  induction h with
  | start hw => exact ⟨hinit _ hw, fun f hf => absurd hf List.not_mem_nil⟩
  | step op _ hbound ih =>
    refine State.exec_keeps ih (fun w' a _ ha hw => ?_) (fun w' c p hc hw => ?_) fun w' p hf hw => ?_
    · exact hact _ _ _ ih.1 (hw ▸ hbound) ha
    · exact hstart _ _ _ _ ih.1 (hw ▸ hbound) hc
    · exact hfinish _ _ _ ih.1 (hw ▸ hbound) hf

/-! ### What the stack tells -/

variable {ν : Type} (view : σ → ν) (during : S.Pending → ν → ν) (free : S.Pending → ν → Prop)

/-- The view is what the waiting calls have made of it, each from a state in which it was free to start. -/
def Told (base : ν) : ν → List (σ × Option S.Pending) → Prop
  | v, [] => v = base
  | v, (before, none) :: rest => v = view before ∧ Told base (view before) rest
  | v, (before, some p) :: rest => free p (view before) ∧ v = during p (view before) ∧ Told base (view before) rest

variable {view during free} {base : ν}

/-- **The stack tells the view**, if calls that end at once leave it, a call that starts changes it from where it was free
to, and the end of a call undoes the change. -/
theorem Reaches.told (h : Reaches S Init Bound m) (hinit : ∀ w, Init w → view w = base)
    (hact : ∀ w w' a, S.act w a = some w' → view w' = view w)
    (hstart : ∀ w w' c p, S.start w c = some (w', p) → free p (view w) ∧ view w' = during p (view w))
    (hfinish : ∀ w w' p v, free p v → view w = during p v → S.finish w p = some w' → view w' = v) :
    Told view during free base (view m.world) m.stack := by
  induction h with
  | start hw => exact hinit _ hw
  | @step m op _ _ ih =>
    cases op with
    | act a =>
      dsimp only [State.exec]
      cases ha : S.act m.world a with
      | none => exact ih
      | some w' =>
        rw [Option.getD_some, hact _ _ _ ha]
        exact ih
    | call c =>
      dsimp only [State.exec]
      cases hc : S.start m.world c with
      | none => exact ih
      | some r =>
        obtain ⟨hfree, hview⟩ := hstart _ _ _ _ hc
        exact ⟨hfree, hview, ih⟩
    | enter => exact ⟨rfl, ih⟩
    | leave ok =>
      obtain ⟨w, stack⟩ := m
      cases stack with
      | nil => exact ih
      | cons f rest =>
        obtain ⟨before, pending⟩ := f
        cases pending with
        | none =>
          obtain ⟨hview, hrest⟩ := ih
          cases ok with
          | false => exact hrest
          | true =>
            simp only [State.exec, if_true]
            rw [hview]
            exact hrest
        | some p =>
          obtain ⟨hfree, hview, hrest⟩ := ih
          cases ok with
          | false => exact hrest
          | true =>
            simp only [State.exec, if_true]
            cases hf : S.finish w p with
            | none => exact hrest
            | some w' =>
              rw [Option.getD_some, hfinish _ _ _ _ hfree hview hf]
              exact hrest

end Lxs.Lib.CallStack
