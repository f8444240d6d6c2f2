import Mathlib.Logic.Function.Basic

/-! A value that is overwritten, with all the values it has had. Versions are numbered
from zero, and what has once been a version stays one.
-/

set_option autoImplicit false

namespace MiniWaf

structure History (A : Type) where
  last : Nat
  version : Nat → A

namespace History

variable {A : Type}

def start (a : A) : History A := ⟨0, fun _ => a⟩

def current (h : History A) : A := h.version h.last

def push (h : History A) (a : A) : History A := ⟨h.last + 1, Function.update h.version (h.last + 1) a⟩

@[simp] theorem last_push (h : History A) (a : A) : (h.push a).last = h.last + 1 := rfl

@[simp] theorem current_push (h : History A) (a : A) : (h.push a).current = a := by simp [current, push]

theorem version_push {h : History A} (a : A) {k : Nat} (old : k ≤ h.last) : (h.push a).version k = h.version k :=
  Function.update_of_ne (by omega) _ _

theorem forall_push {h : History A} {a : A} {P : Nat → A → Prop} :
    (∀ k ≤ (h.push a).last, P k ((h.push a).version k)) ↔ (∀ k ≤ h.last, P k (h.version k)) ∧ P (h.last + 1) a := by
  constructor
  · intro all
    constructor
    · intro k old
      have here := all k (by rw [last_push]; omega)
      rwa [version_push a old] at here
    · have here := all (h.last + 1) (Nat.le_refl _)
      rwa [← last_push h a, ← current, current_push] at here
  · rintro ⟨old, new⟩ k bound
    rcases Nat.lt_or_ge h.last k with late | early
    · obtain rfl : k = h.last + 1 := by rw [last_push] at bound; omega
      rwa [← last_push h a, ← current, current_push]
    · rw [version_push a early]
      exact old k early

structure Extends (h later : History A) : Prop where
  last : h.last ≤ later.last
  version : ∀ k ≤ h.last, later.version k = h.version k

theorem extends_push (h : History A) (a : A) : h.Extends (h.push a) :=
  ⟨Nat.le_succ _, fun _ old => version_push a old⟩

end History

end MiniWaf
