import Mathlib.Data.List.Basic

/-! Scanners: a step reads a token or stops in front of it. Words that a scanner
reads as a whole, back into its first state, are told apart from what follows them.
-/

set_option autoImplicit false

namespace MiniWaf.Scanner

variable {State Token : Type} (step : State → Token → Option State)

/-- The state after reading all of a word; none where the scanner stops within it. -/
def run (state : State) : List Token → Option State
  | [] => some state
  | t :: rest => (step state t).bind fun next => run next rest

def left (state : State) : List Token → List Token
  | [] => []
  | t :: rest =>
    match step state t with
    | some next => left next rest
    | none => t :: rest

def Stops (state : State) (s : List Token) : Prop := ∀ t ∈ s.head?, step state t = none

variable {step} {state middle final : State}

theorem run_append {word more : List Token} (first : run step state word = some middle) :
    run step state (word ++ more) = run step middle more := by
  induction word generalizing state with
  | nil =>
    cases first
    rfl
  | cons t rest ih =>
    obtain ⟨next, here, there⟩ := Option.bind_eq_some_iff.mp first
    rw [List.cons_append, run, here, Option.bind_some, ih there]

theorem run_of_forall {word : List Token} (kept : ∀ t ∈ word, step state t = some state) :
    run step state word = some state := by
  induction word with
  | nil => rfl
  | cons t rest ih =>
    have first := kept t List.mem_cons_self
    rw [run, first, Option.bind_some, ih fun u member => kept u (List.mem_cons_of_mem t member)]

theorem run_flatMap {A : Type} {piece : A → List Token} {items : List A}
    (kept : ∀ a ∈ items, run step state (piece a) = some state) : run step state (items.flatMap piece) = some state := by
  induction items with
  | nil => rfl
  | cons a rest ih =>
    rw [List.flatMap_cons, run_append (kept a List.mem_cons_self)]
    exact ih fun b member => kept b (List.mem_cons_of_mem a member)

theorem left_append {word : List Token} (read : run step state word = some middle) (more : List Token) :
    left step state (word ++ more) = left step middle more := by
  induction word generalizing state with
  | nil =>
    cases read
    rfl
  | cons t rest ih =>
    obtain ⟨next, here, there⟩ := Option.bind_eq_some_iff.mp read
    rw [List.cons_append, left, here]
    exact ih there

theorem left_of_stops {s : List Token} (stops : Stops step state s) : left step state s = s := by
  cases s with
  | nil => rfl
  | cons t rest =>
    have here := stops t rfl
    rw [left, here]

/-- A text divides in one way into a word and what the scanner stops at. -/
theorem unique {first second s t : List Token} (readFirst : run step state first = some state)
    (readSecond : run step state second = some state) (stopsS : Stops step state s) (stopsT : Stops step state t)
    (same : first ++ s = second ++ t) : first = second ∧ s = t := by
  have sameLeft : s = t := by
    calc s = left step state (first ++ s) := by rw [left_append readFirst, left_of_stops stopsS]
      _ = left step state (second ++ t) := by rw [same]
      _ = t := by rw [left_append readSecond, left_of_stops stopsT]
  subst sameLeft
  exact ⟨List.append_cancel_right same, rfl⟩

end MiniWaf.Scanner
