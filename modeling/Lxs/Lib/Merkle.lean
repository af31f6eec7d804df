import Mathlib.Tactic

/-!
# Hash trees

Binary trees hashed from the leaves up with one function on leaves and on pairs of hashes. Where that function has no
collision on what two trees put into it, equal hashes mean equal trees.
-/

namespace Lxs.Lib.Merkle

inductive HashTree (α : Type)
  | leaf (a : α)
  | node (l r : HashTree α)

namespace HashTree

variable {α H : Type}

def leaves : HashTree α → List α
  | leaf a => [a]
  | node l r => l.leaves ++ r.leaves

variable (hash : α ⊕ H × H → H)

def root : HashTree α → H
  | leaf a => hash (.inl a)
  | node l r => hash (.inr (l.root, r.root))

def top : HashTree α → α ⊕ H × H
  | leaf a => .inl a
  | node l r => .inr (l.root hash, r.root hash)

def inputs : HashTree α → Set (α ⊕ H × H)
  | leaf a => {.inl a}
  | node l r => insert (.inr (l.root hash, r.root hash)) (l.inputs ∪ r.inputs)

theorem root_eq (t : HashTree α) : t.root hash = hash (t.top hash) := by
  cases t <;> rfl

theorem top_mem (t : HashTree α) : t.top hash ∈ t.inputs hash := by
  cases t with
  | leaf a => rfl
  | node l r => exact .inl rfl

variable {hash}

theorem eq_of_root {t t' : HashTree α} (hinj : ∀ x ∈ t.inputs hash, ∀ y ∈ t'.inputs hash, hash x = hash y → x = y)
    (heq : t.root hash = t'.root hash) : t = t' := by
  induction t generalizing t' with
  | leaf a =>
    have htop := hinj _ (top_mem hash _) _ (top_mem hash t') ((root_eq hash _).symm.trans (heq.trans (root_eq hash t')))
    cases t' with
    | leaf b => cases htop; rfl
    | node l r => cases htop
  | node l r ihl ihr =>
    have htop := hinj _ (top_mem hash _) _ (top_mem hash t') ((root_eq hash _).symm.trans (heq.trans (root_eq hash t')))
    cases t' with
    | leaf b => cases htop
    | node l' r' =>
      obtain ⟨hl, hr⟩ := Prod.mk.inj (Sum.inr.inj htop)
      rw [ihl (fun x hx y hy => hinj x (.inr (.inl hx)) y (.inr (.inl hy))) hl,
        ihr (fun x hx y hy => hinj x (.inr (.inr hx)) y (.inr (.inr hy))) hr]

end HashTree

end Lxs.Lib.Merkle
