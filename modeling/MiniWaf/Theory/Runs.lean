import Mathlib.Data.List.Chain

/-! Runs of a list: an element that joins belongs with the next one. A property that
all or none of a run have is one of its links.
-/

set_option autoImplicit false

namespace MiniWaf.Runs

variable {A : Type} (joins : A → Bool)

def runs : List A → List (List A)
  | [] => []
  | a :: rest =>
    if joins a then
      match runs rest with
      | run :: more => (a :: run) :: more
      | [] => [[a]]
    else [a] :: runs rest

/-- All of the run is kept, with nothing in between, or none of it. -/
def Whole (kept free : A → Prop) (run : List A) : Prop :=
  ((∀ a ∈ run, kept a) ∧ ∀ a ∈ run.tail, free a) ∨ ∀ a ∈ run, ¬ kept a

/-- Two neighbours are kept, with nothing in between, or both are not. -/
def Linked (kept free : A → Prop) (a b : A) : Prop := (kept a ∧ kept b ∧ free b) ∨ (¬ kept a ∧ ¬ kept b)

variable {joins} {kept free : A → Prop}

theorem runs_cons (a : A) (rest : List A) : ∃ run more, runs joins (a :: rest) = (a :: run) :: more := by
  rw [runs]
  split
  · split
    · exact ⟨_, _, rfl⟩
    · exact ⟨[], [], rfl⟩
  · exact ⟨[], _, rfl⟩

theorem flatten_runs (l : List A) : (runs joins l).flatten = l := by
  induction l with
  | nil => rfl
  | cons a rest ih =>
    rw [runs]
    split
    · split
      · rename_i run more shape
        rw [shape, List.flatten_cons] at ih
        rw [List.flatten_cons, List.cons_append, ih]
      · rename_i shape
        rw [shape, List.flatten_nil] at ih
        rw [← ih]
        rfl
    · rw [List.flatten_cons, ih]
      rfl

theorem whole_singleton (a : A) : Whole kept free [a] := by
  unfold Whole
  by_cases isKept : kept a
  · left
    simp [isKept]
  · right
    simp [isKept]

theorem whole_cons (a b : A) (run : List A) :
    Whole kept free (a :: b :: run) ↔ Linked kept free a b ∧ Whole kept free (b :: run) := by
  unfold Whole Linked
  simp only [List.tail_cons, List.forall_mem_cons]
  constructor
  · rintro (⟨⟨keptA, keptB, rest⟩, freeB, free⟩ | ⟨notA, notB, rest⟩)
    · exact ⟨.inl ⟨keptA, keptB, freeB⟩, .inl ⟨⟨keptB, rest⟩, free⟩⟩
    · exact ⟨.inr ⟨notA, notB⟩, .inr ⟨notB, rest⟩⟩
  · rintro ⟨⟨keptA, keptB, freeB⟩ | ⟨notA, notB⟩, ⟨⟨keptB', rest⟩, free⟩ | ⟨notB', rest⟩⟩
    · exact .inl ⟨⟨keptA, keptB, rest⟩, freeB, free⟩
    · exact absurd keptB notB'
    · exact absurd keptB' notB
    · exact .inr ⟨notA, notB, rest⟩

/-- Every run is whole exactly if every link holds. -/
theorem whole_runs_iff (l : List A) :
    (∀ run ∈ runs joins l, Whole kept free run) ↔ l.IsChain fun a b => joins a = true → Linked kept free a b := by
  induction l with
  | nil => simp [runs]
  | cons a rest ih =>
    cases rest with
    | nil =>
      have alone : runs joins [a] = [[a]] := by
        simp [runs]
      simp [alone, whole_singleton]
    | cons b rest =>
      rw [List.isChain_cons_cons, ← ih]
      obtain ⟨run, more, shape⟩ : ∃ run more, runs joins (b :: rest) = (b :: run) :: more := runs_cons b rest
      by_cases joined : joins a = true
      · have longer : runs joins (a :: b :: rest) = (a :: b :: run) :: more := by
          rw [runs, if_pos joined, shape]
        rw [longer, shape, List.forall_mem_cons, List.forall_mem_cons, whole_cons]
        simp only [joined, forall_const, and_assoc]
      · have apart : runs joins (a :: b :: rest) = [a] :: runs joins (b :: rest) := by
          rw [runs, if_neg joined]
        rw [apart, List.forall_mem_cons]
        simp only [joined, whole_singleton, true_and, false_implies, Bool.false_eq_true]

end MiniWaf.Runs
