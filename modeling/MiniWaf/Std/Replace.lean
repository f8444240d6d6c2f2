import MiniWaf.Std.Text

/-! `str::replace`: general patterns first, then those of two characters. -/

set_option autoImplicit false

namespace MiniWaf.Text

section
variable {pattern replacement : Text}

theorem replaceFrom_drop (pending : Nat) (s : Text) :
    replaceFrom pattern replacement pending s = replace pattern replacement (s.drop pending) := by
  induction pending generalizing s with
  | zero => rfl
  | succ pending ih =>
    cases s with
    | nil => rfl
    | cons c s => exact ih s

theorem replace_front (found : pattern ≠ []) (rest : Text) :
    replace pattern replacement (pattern ++ rest) = replacement ++ replace pattern replacement rest := by
  obtain ⟨c, more, rfl⟩ := List.exists_cons_of_ne_nil found
  have here : (c :: more).isPrefixOf (c :: (more ++ rest)) = true :=
    List.isPrefixOf_iff_prefix.mpr (List.prefix_append (c :: more) rest)
  have left : (more ++ rest).drop ((c :: more).length - 1) = rest := by simp
  rw [replace, List.cons_append, replaceFrom, if_pos here, replaceFrom_drop, left]

theorem replace_past {c : Char} {s : Text} (notHere : ¬ pattern <+: c :: s) :
    replace pattern replacement (c :: s) = c :: replace pattern replacement s := by
  have differs : pattern.isPrefixOf (c :: s) = false := by
    rw [Bool.eq_false_iff]
    exact fun here => notHere (List.isPrefixOf_iff_prefix.mp here)
  rw [replace, replaceFrom, differs, if_neg Bool.false_ne_true]
  rfl

/-- A text is empty, begins with the pattern, or with a character at which no pattern begins. -/
@[elab_as_elim]
theorem occurrences {motive : Text → Prop} (found : pattern ≠ []) (nil : motive [])
    (front : ∀ s, motive s → motive (pattern ++ s)) (past : ∀ c s, ¬ pattern <+: c :: s → motive s → motive (c :: s))
    (s : Text) : motive s := by
  induction length : s.length using Nat.strongRecOn generalizing s with
  | ind n ih =>
    cases s with
    | nil => exact nil
    | cons c s =>
      rw [List.length_cons] at length
      by_cases here : pattern <+: c :: s
      · obtain ⟨rest, whole⟩ := here
        rw [← whole]
        have positive := List.length_pos_of_ne_nil found
        have shorter : rest.length < n := by
          have sizes := congrArg List.length whole
          rw [List.length_append, List.length_cons] at sizes
          omega
        exact front rest (ih _ shorter rest rfl)
      · exact past c s here (ih _ (by omega) s rfl)

theorem replace_absent {s : Text} (absent : ¬ pattern <:+: s) :
    replace pattern replacement s = s := by
  induction s with
  | nil => rfl
  | cons c s ih =>
    rw [List.infix_cons_iff, not_or] at absent
    rw [replace_past absent.1, ih absent.2]

theorem mem_of_mem_replace {s : Text} {c : Char} (found : pattern ≠ []) (member : c ∈ replace pattern replacement s) :
    c ∈ replacement ∨ c ∈ s := by
  induction s using occurrences found with
  | nil => exact .inr member
  | front s ih =>
    rw [replace_front found] at member
    rcases List.mem_append.mp member with new | later
    · exact .inl new
    · exact (ih later).imp_right (List.mem_append_right _)
  | past d s notHere ih =>
    rw [replace_past notHere] at member
    rcases List.mem_cons.mp member with same | later
    · exact .inr (same ▸ List.mem_cons_self)
    · exact (ih later).imp_right (List.mem_cons_of_mem _)

theorem length_replace (found : pattern ≠ []) (shorter : replacement.length < pattern.length) (s : Text) :
    (replace pattern replacement s).length ≤ s.length ∧
      (pattern <:+: s → (replace pattern replacement s).length < s.length) := by
  induction s using occurrences found with
  | nil => exact ⟨Nat.le_refl _, fun inside => absurd (List.infix_nil.mp inside) found⟩
  | front s ih =>
    rw [replace_front found, List.length_append, List.length_append]
    omega
  | past c s notHere ih =>
    rw [replace_past notHere, List.length_cons, List.length_cons]
    refine ⟨by omega, ?_⟩
    intro inside
    have later := ih.2 ((List.infix_cons_iff.mp inside).resolve_left notHere)
    omega

end

-- Runs of one character

section
variable {d x e : Char}

theorem cons_prefix_run {c : Char} {needle rest : Text} (other : c ≠ d) (k : Nat) :
    c :: needle <+: List.replicate k d ++ rest ↔ k = 0 ∧ c :: needle <+: rest := by
  cases k with
  | zero => simp
  | succ k =>
    simp only [Nat.succ_ne_zero, false_and, iff_false]
    intro front
    rw [List.replicate_succ, List.cons_append, List.cons_prefix_cons] at front
    exact other front.1

theorem run_prefix_run (notEnd : e ≠ d) (notRun : x ≠ d) (n k : Nat) (rest : Text) :
    List.replicate n d ++ [e] <+: List.replicate k d ++ x :: rest ↔ n = k ∧ e = x := by
  induction n generalizing k with
  | zero =>
    rw [List.replicate_zero, List.nil_append, cons_prefix_run notEnd, List.cons_prefix_cons, eq_comm (a := 0)]
    simp
  | succ n ih =>
    cases k with
    | zero =>
      rw [List.replicate_succ, List.cons_append, List.replicate_zero, List.nil_append, List.cons_prefix_cons]
      simp [Ne.symm notRun]
    | succ k =>
      rw [List.replicate_succ, List.cons_append, List.replicate_succ, List.cons_append, List.cons_prefix_cons, ih]
      simp

theorem run_infix_run (notEnd : e ≠ d) (notRun : x ≠ d) (n k : Nat) (rest : Text) :
    List.replicate n d ++ [e] <:+: List.replicate k d ++ x :: rest ↔
      n ≤ k ∧ e = x ∨ List.replicate n d ++ [e] <:+: rest := by
  induction k with
  | zero =>
    have front := run_prefix_run notEnd notRun n 0 rest
    rw [List.replicate_zero, List.nil_append] at front ⊢
    rw [List.infix_cons_iff, front, Nat.le_zero]
  | succ k ih =>
    have front := run_prefix_run notEnd notRun n (k + 1) rest
    rw [List.replicate_succ, List.cons_append] at front ⊢
    rw [List.infix_cons_iff, front, ih, ← or_assoc, ← or_and_right]
    have cases : n = k + 1 ∨ n ≤ k ↔ n ≤ k + 1 := by omega
    rw [cases]

theorem run_not_within (notEnd : e ≠ d) (n k : Nat) : ¬ List.replicate n d ++ [e] <:+: List.replicate k d := by
  intro inside
  have member := inside.subset (List.mem_append_right _ (List.mem_singleton_self e))
  exact notEnd (List.eq_of_mem_replicate member)

@[elab_as_elim]
theorem runs {motive : Text → Prop} (d : Char) (run : ∀ k, motive (List.replicate k d))
    (ended : ∀ k x rest, x ≠ d → motive rest → motive (List.replicate k d ++ x :: rest)) (s : Text) : motive s := by
  have general : ∀ k, motive (List.replicate k d ++ s) := by
    induction s with
    | nil =>
      intro k
      rw [List.append_nil]
      exact run k
    | cons c s ih =>
      intro k
      by_cases same : c = d
      · have longer := ih (k + 1)
        rw [List.replicate_succ', List.append_assoc] at longer
        rw [same]
        exact longer
      · exact ended k c s same (ih 0)
  exact general 0

/-- A run of `d` before `e` loses two of them. -/
theorem replace_run (notEnd : e ≠ d) (notRun : x ≠ d) (k : Nat) (rest : Text) :
    replace [d, d, e] [e] (List.replicate k d ++ x :: rest) =
      List.replicate (if e = x ∧ 2 ≤ k then k - 2 else k) d ++ x :: replace [d, d, e] [e] rest := by
  have front (j : Nat) : [d, d, e] <+: List.replicate j d ++ x :: rest ↔ 2 = j ∧ e = x :=
    run_prefix_run notEnd notRun 2 j rest
  induction k with
  | zero =>
    have past : ¬ [d, d, e] <+: x :: rest := fun here => by simpa using (front 0).mp here
    simp [replace_past past]
  | succ k ih =>
    rw [List.replicate_succ, List.cons_append]
    by_cases here : 2 = k + 1 ∧ e = x
    · obtain ⟨two, rfl⟩ := here
      obtain rfl : k = 1 := by omega
      have front : replace [d, d, e] [e] ([d, d, e] ++ rest) = [e] ++ replace [d, d, e] [e] rest :=
        replace_front (by simp) rest
      simpa using front
    · have past : ¬ [d, d, e] <+: d :: (List.replicate k d ++ x :: rest) := fun found => here ((front (k + 1)).mp found)
      rw [replace_past past, ih]
      by_cases ends : e = x
      · have notTwo : k ≠ 1 := fun one => here ⟨by omega, ends⟩
        by_cases two : 2 ≤ k
        · have number : k + 1 - 2 = k - 2 + 1 := by omega
          rw [if_pos ⟨ends, two⟩, if_pos ⟨ends, by omega⟩, number, List.replicate_succ, List.cons_append]
        · obtain rfl : k = 0 := by omega
          simp
      · rw [if_neg (fun both => ends both.1), if_neg (fun both => ends both.1), List.replicate_succ, List.cons_append]

theorem replace_only_run (notEnd : e ≠ d) (k : Nat) : replace [d, d, e] [e] (List.replicate k d) = List.replicate k d :=
  replace_absent (run_not_within notEnd 2 k)

theorem run_infix_replace {f : Char} (notEnd : e ≠ d) (other : f ≠ d) {n : Nat} (two : 2 ≤ n) (s : Text) :
    List.replicate n d ++ [f] <:+: replace [d, d, e] [e] s ↔
      List.replicate (if f = e then n + 2 else n) d ++ [f] <:+: s := by
  induction s using runs d with
  | run k =>
    rw [replace_only_run notEnd]
    exact iff_of_false (run_not_within other n k) (run_not_within other _ k)
  | ended k x rest notRun ih =>
    rw [replace_run notEnd notRun, run_infix_run other notRun, run_infix_run other notRun, ih]
    by_cases here : f = x
    · subst here
      by_cases ends : f = e
      · subst ends
        by_cases long : 2 ≤ k
        · have same : n ≤ k - 2 ↔ n + 2 ≤ k := by omega
          simp [long, same]
        · have short : ¬ n ≤ k ∧ ¬ n + 2 ≤ k := by omega
          simp [long, short]
      · simp [ends, Ne.symm ends]
    · simp [here]

end

section
variable {a b : Char} {replacement : Text}

@[simp] theorem replace_nil : replace [a, b] replacement [] = [] := rfl

theorem replace_pair (s : Text) :
    replace [a, b] replacement (a :: b :: s) = replacement ++ replace [a, b] replacement s :=
  replace_front (List.cons_ne_nil a [b]) s

@[elab_as_elim]
theorem pairs {motive : Text → Prop} (a b : Char) (nil : motive []) (pair : ∀ s, motive s → motive (a :: b :: s))
    (skip : ∀ c s, ¬ [a, b] <+: c :: s → motive s → motive (c :: s)) (s : Text) : motive s := by
  induction s using occurrences (List.cons_ne_nil a [b]) with
  | nil => exact nil
  | front s ih => exact pair s ih
  | past c s notHere ih => exact skip c s notHere ih

theorem replace_append {block rest : Text} (inside : ¬ [a, b] <:+: block)
    (across : block.getLast? = some a → rest.head? ≠ some b) :
    replace [a, b] replacement (block ++ rest) = block ++ replace [a, b] replacement rest := by
  induction block with
  | nil => rfl
  | cons c block ih =>
    have notHere : ¬ [a, b] <+: c :: (block ++ rest) := by
      rintro ⟨more, whole⟩
      simp only [List.cons_append, List.nil_append, List.cons.injEq] at whole
      obtain ⟨rfl, tail⟩ := whole
      cases block with
      | nil => exact across rfl (by rw [← List.nil_append rest, ← tail]; rfl)
      | cons d block =>
        obtain ⟨rfl, -⟩ := List.cons.inj tail
        exact inside ⟨[], block, rfl⟩
    rw [List.cons_append, replace_past notHere, ih]
    · rfl
    · exact fun within => inside (within.trans (List.suffix_cons c block).isInfix)
    · intro last
      apply across
      rw [List.getLast?_cons, last]
      rfl

theorem replace_concat {c : Char} (ne : c ≠ b) (s : Text) :
    replace [a, b] replacement (s ++ [c]) = replace [a, b] replacement s ++ [c] := by
  induction s using pairs a b with
  | nil =>
    apply replace_past
    rintro ⟨more, whole⟩
    simp at whole
  | pair s ih => rw [List.cons_append, List.cons_append, replace_pair, replace_pair, ih, List.append_assoc]
  | skip d s notHere ih =>
    have still : ¬ [a, b] <+: d :: (s ++ [c]) := by
      rintro ⟨more, whole⟩
      simp only [List.cons_append, List.nil_append, List.cons.injEq] at whole
      obtain ⟨rfl, tail⟩ := whole
      cases s with
      | nil => exact ne (List.cons.inj tail).1.symm
      | cons e s => exact notHere ⟨s, by rw [(List.cons.inj tail).1]; rfl⟩
    rw [List.cons_append, replace_past still, replace_past notHere, ih]
    rfl

theorem length_replace_le (short : replacement.length ≤ 2) (s : Text) :
    (replace [a, b] replacement s).length ≤ s.length := by
  induction s using pairs a b with
  | nil => exact Nat.le_refl _
  | pair s ih =>
    rw [replace_pair, List.length_append, List.length_cons, List.length_cons]
    omega
  | skip c s notHere ih =>
    rw [replace_past notHere, List.length_cons, List.length_cons]
    omega

theorem length_replace_lt (shorter : replacement.length < 2) {s : Text} (found : [a, b] <:+: s) :
    (replace [a, b] replacement s).length < s.length :=
  (length_replace (List.cons_ne_nil a [b]) shorter s).2 found

/-- A replacement that weighs what the pair weighs keeps the weight of the text. -/
theorem countP_replace {p : Char → Bool} (balanced : replacement.countP p = [a, b].countP p) (s : Text) :
    (replace [a, b] replacement s).countP p = s.countP p := by
  induction s using pairs a b with
  | nil => rfl
  | pair s ih =>
    have split : a :: b :: s = [a, b] ++ s := rfl
    rw [replace_pair, split, List.countP_append, List.countP_append, balanced, ih]
  | skip c s notHere ih => rw [replace_past notHere, List.countP_cons, List.countP_cons, ih]

theorem head_flatMap {w : Char → Text} {s : Text} {c : Char} (head : (s.flatMap w).head? = some c) :
    ∃ d ∈ s, (w d).head? = some c := by
  induction s with
  | nil => cases head
  | cons d s ih =>
    rw [List.flatMap_cons] at head
    cases block : w d with
    | nil =>
      rw [block, List.nil_append] at head
      obtain ⟨e, member, found⟩ := ih head
      exact ⟨e, List.mem_cons_of_mem d member, found⟩
    | cons e rest =>
      rw [block] at head
      exact ⟨d, List.mem_cons_self, by rw [block]; exact head⟩

theorem replace_flatMap {w : Char → Text} {d : Char} (coded : w d = [a, b]) {s : Text}
    (inside : ∀ c ∈ s, c ≠ d → ¬ [a, b] <:+: w c)
    (across : ∀ c ∈ s, c ≠ d → (w c).getLast? = some a → ∀ e ∈ s, (w e).head? ≠ some b) :
    replace [a, b] replacement (s.flatMap w) = s.flatMap fun c => if c = d then replacement else w c := by
  have general : ∀ t, t ⊆ s → replace [a, b] replacement (t.flatMap w) =
      t.flatMap fun c => if c = d then replacement else w c := by
    intro t
    induction t with
    | nil => exact fun _ => rfl
    | cons c t ih =>
      intro sub
      rw [List.cons_subset] at sub
      rw [List.flatMap_cons, List.flatMap_cons, ← ih sub.2]
      by_cases same : c = d
      · subst same
        rw [coded, if_pos rfl]
        exact replace_pair _
      · rw [if_neg same]
        apply replace_append (inside c sub.1 same)
        intro last head
        obtain ⟨e, member, found⟩ := head_flatMap head
        exact across c sub.1 same last e (sub.2 member) found
  exact general s (List.Subset.refl s)

end

end MiniWaf.Text
