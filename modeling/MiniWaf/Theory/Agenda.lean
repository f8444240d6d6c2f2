import Mathlib.Data.List.Induction

/-! Bounded agenda loops: choose an item from the state, act on it, and go on
unless the result is a stopping state or the bound is used up.

A run is determined by its items, so facts about runs are stated with the item
list and the state each prefix of it leaves.
-/

set_option autoImplicit false

namespace MiniWaf.Agenda

variable {State Item : Type} (choose : State → Option Item) (act : State → Item → State) (stop : State → Bool)

def loop : Nat → State → State
  | 0, s => s
  | n + 1, s =>
    match choose s with
    | none => s
    | some item => if stop (act s item) then act s item else loop n (act s item)

def items : Nat → State → List Item
  | 0, _ => []
  | n + 1, s =>
    match choose s with
    | none => []
    | some item => if stop (act s item) then [item] else item :: items n (act s item)

variable {choose act stop}

theorem length_items_le (n : Nat) (s : State) : (items choose act stop n s).length ≤ n := by
  induction n generalizing s with
  | zero => simp [items]
  | succ n ih =>
    rw [items]
    split
    · simp
    · split
      · simp
      · exact Nat.succ_le_succ (ih _)

/-- The loop's result is what its items leave. -/
theorem loop_eq_foldl (n : Nat) (s : State) :
    loop choose act stop n s = (items choose act stop n s).foldl act s := by
  induction n generalizing s with
  | zero => rfl
  | succ n ih =>
    rw [loop, items]
    split
    · rfl
    · split
      · rfl
      · exact ih _

theorem items_cons {n : Nat} {s : State} {first : Item} {rest : List Item}
    (split : items choose act stop n s = first :: rest) :
    choose s = some first ∧ ∃ m, rest = if stop (act s first) then [] else items choose act stop m (act s first) := by
  cases n with
  | zero => cases split
  | succ n =>
    rw [items] at split
    cases chosen : choose s with
    | none =>
      rw [chosen] at split
      cases split
    | some item =>
      rw [chosen] at split
      by_cases halt : stop (act s item) = true
      · simp only [if_pos halt] at split
        obtain ⟨rfl, rfl⟩ := List.cons.inj split
        exact ⟨rfl, n, (if_pos halt).symm⟩
      · simp only [if_neg halt] at split
        obtain ⟨rfl, rfl⟩ := List.cons.inj split
        exact ⟨rfl, n, (if_neg halt).symm⟩

theorem items_cons_of_ne_nil {n : Nat} {s : State} {first : Item} {rest : List Item}
    (split : items choose act stop n s = first :: rest) (more : rest ≠ []) :
    stop (act s first) = false ∧ ∃ m, items choose act stop m (act s first) = rest := by
  obtain ⟨-, m, same⟩ := items_cons split
  by_cases halt : stop (act s first) = true
  · rw [if_pos halt] at same
    exact absurd same more
  · rw [if_neg halt] at same
    exact ⟨Bool.eq_false_iff.mpr halt, m, same.symm⟩

theorem choose_of_split {n : Nat} {s : State} {before after : List Item} {item : Item}
    (split : items choose act stop n s = before ++ item :: after) :
    choose (before.foldl act s) = some item := by
  induction before generalizing n s with
  | nil => exact (items_cons split).1
  | cons first before ih =>
    obtain ⟨-, m, rest⟩ := items_cons_of_ne_nil split (by simp)
    exact ih rest

theorem not_stop_of_split {n : Nat} {s : State} {before after : List Item} {item : Item}
    (split : items choose act stop n s = before ++ item :: after) (more : after ≠ []) :
    stop ((before ++ [item]).foldl act s) = false := by
  induction before generalizing n s with
  | nil => exact (items_cons_of_ne_nil split more).1
  | cons first before ih =>
    obtain ⟨-, m, rest⟩ := items_cons_of_ne_nil split (by simp)
    exact ih rest

theorem stop_or_quiescent {n : Nat} {s : State} (short : (items choose act stop n s).length < n) :
    stop (loop choose act stop n s) = true ∨ choose (loop choose act stop n s) = none := by
  induction n generalizing s with
  | zero => simp at short
  | succ n ih =>
    rw [items] at short
    rw [loop]
    cases chosen : choose s with
    | none => exact Or.inr chosen
    | some first =>
      simp only [chosen] at short ⊢
      by_cases halt : stop (act s first) = true
      · rw [if_pos halt]
        exact Or.inl halt
      · rw [if_neg halt] at short ⊢
        exact ih (by simpa using short)

/-- The invariant rule: what every action preserves holds in the state each prefix leaves. -/
theorem invariant_items (I : State → Prop) {n : Nat} {s : State} (start : I s)
    (step : ∀ s item, I s → choose s = some item → I (act s item))
    {before after : List Item} (split : items choose act stop n s = before ++ after) :
    I (before.foldl act s) := by
  induction before using List.reverseRecOn generalizing after with
  | nil => exact start
  | append_singleton before item ih =>
    have here : items choose act stop n s = before ++ item :: after := by simpa using split
    rw [List.foldl_append]
    exact step _ item (ih here) (choose_of_split here)

theorem invariant_loop (I : State → Prop) (n : Nat) {s : State} (start : I s)
    (step : ∀ s item, I s → choose s = some item → I (act s item)) :
    I (loop choose act stop n s) := by
  rw [loop_eq_foldl]
  exact invariant_items I start step (List.append_nil _).symm

/-- A loop that chooses as another one wherever that one chooses nothing or something kept runs as that one does, if all
the items of its run are kept. -/
theorem loop_of_kept {choose' : State → Option Item} (keep : Item → Prop)
    (agree : ∀ s, (∀ item, choose s = some item → keep item) → choose' s = choose s) {n : Nat} {s : State}
    (kept : ∀ item ∈ items choose act stop n s, keep item) : loop choose' act stop n s = loop choose act stop n s := by
  induction n generalizing s with
  | zero => rfl
  | succ n ih =>
    rw [items] at kept
    cases chosen : choose s with
    | none =>
      have same : choose' s = none := (agree s (by simp [chosen])).trans chosen
      rw [loop, loop, chosen, same]
    | some item =>
      simp only [chosen] at kept
      have here : keep item := kept item (by split <;> exact List.mem_cons_self)
      have same : choose' s = some item := by
        refine (agree s fun other is => ?_).trans chosen
        rw [chosen, Option.some.injEq] at is
        exact is ▸ here
      rw [loop, loop, chosen, same]
      by_cases halt : stop (act s item) = true
      · simp only [if_pos halt]
      · rw [if_neg halt] at kept
        simp only [if_neg halt]
        exact ih fun other member => kept other (List.mem_cons_of_mem _ member)

theorem foldl_log {Entry : Type} (log : State → List Entry) (entry : Item → Entry)
    (step : ∀ s item, log (act s item) = log s ++ [entry item]) (s : State) (list : List Item) :
    log (list.foldl act s) = log s ++ list.map entry := by
  induction list generalizing s with
  | nil => simp
  | cons item rest ih => simp [ih, step]

-- One pass

/-- The items are gone through once, and each that is ready by then is acted on, until that stops the loop or the bound
is used up. -/
def pass (act : State → Item → State) (stop : State → Bool) (ready : State → Item → Bool) : Nat → List Item → State → State
  | _, [], s => s
  | 0, _ :: _, s => s
  | n + 1, item :: rest, s =>
    if ready s item then (if stop (act s item) then act s item else pass act stop ready n rest (act s item))
    else pass act stop ready (n + 1) rest s

section
variable {ready : State → Item → Bool} {list : List Item} {I : State → Prop}

theorem loop_eq_pass_from
    (keeps : ∀ s item, I s → item ∈ list → ready s item = true → I (act s item))
    (spends : ∀ s item, I s → item ∈ list → ready s item = true → ready (act s item) item = false)
    (frees : ∀ s item, I s → item ∈ list → ready s item = true → ∀ other ∈ list, ready (act s item) other = true →
      ready s other = true)
    (chooses : ∀ s, I s → choose s = list.find? (ready s)) {before after : List Item} (split : list = before ++ after)
    (n : Nat) {s : State} (start : I s) (passed : ∀ item ∈ before, ready s item = false) :
    loop choose act stop n s = pass act stop ready n after s := by
  induction after generalizing before n s with
  | nil =>
    have chosen : choose s = none := by
      rw [chooses s start, split, List.append_nil]
      exact List.find?_eq_none.mpr fun item member => by simp [passed item member]
    cases n with
    | zero => rfl
    | succ n => rw [loop, chosen, pass]
  | cons item rest ih =>
    have next : list = (before ++ [item]) ++ rest := by rw [split, List.append_assoc, List.singleton_append]
    have inList : item ∈ list := split ▸ List.mem_append_right _ List.mem_cons_self
    cases n with
    | zero => rfl
    | succ n =>
      by_cases turn : ready s item = true
      · have chosen : choose s = some item := by
          have skipped : before.find? (ready s) = none :=
            List.find?_eq_none.mpr fun other member => by simp [passed other member]
          rw [chooses s start, split, List.find?_append, skipped, Option.none_or, List.find?_cons_of_pos turn]
        rw [loop, chosen, pass, if_pos turn]
        dsimp only
        by_cases halt : stop (act s item) = true
        · rw [if_pos halt, if_pos halt]
        · rw [if_neg halt, if_neg halt]
          refine ih next n (keeps s item start inList turn) fun other member => ?_
          rcases List.mem_append.mp member with earlier | here
          · by_contra again
            have known : other ∈ list := split ▸ List.mem_append_left _ earlier
            have already := frees s item start inList turn other known (by simpa using again)
            rw [passed other earlier] at already
            cases already
          · rw [List.mem_singleton.mp here]
            exact spends s item start inList turn
      · rw [pass, if_neg turn]
        refine ih next (n + 1) start fun other member => ?_
        rcases List.mem_append.mp member with earlier | here
        · exact passed other earlier
        · rw [List.mem_singleton.mp here]
          exact Bool.eq_false_iff.mpr turn

/-- Where an act makes no item ready and its own no longer ready, the loop is one pass over the items. -/
theorem loop_eq_pass
    (keeps : ∀ s item, I s → item ∈ list → ready s item = true → I (act s item))
    (spends : ∀ s item, I s → item ∈ list → ready s item = true → ready (act s item) item = false)
    (frees : ∀ s item, I s → item ∈ list → ready s item = true → ∀ other ∈ list, ready (act s item) other = true →
      ready s other = true)
    (chooses : ∀ s, I s → choose s = list.find? (ready s)) (n : Nat) {s : State} (start : I s) :
    loop choose act stop n s = pass act stop ready n list s :=
  loop_eq_pass_from keeps spends frees chooses (List.nil_append list).symm n start (List.forall_mem_nil _)

end

end MiniWaf.Agenda
