import Mathlib.Data.List.Basic
import Mathlib.Data.List.Infix

/-! Parsing expressions: each reads a prefix of the token list or fails, choice
is ordered and repetition is greedy, so nothing is ever taken back.

A parsing expression is a state transformer over `Option`, and its readings are
equations `p s = some (a, rest)`.
-/

set_option autoImplicit false

namespace MiniWaf

abbrev Peg (Token : Type) := StateT (List Token) Option

namespace Peg

variable {Token A B : Type}

def one (inClass : Token → Bool) : Peg Token Token := fun s =>
  match s with
  | [] => none
  | c :: rest => if inClass c then some (c, rest) else none

def word [DecidableEq Token] (w : List Token) : Peg Token Unit := fun s =>
  if w.isPrefixOf s then some ((), s.drop w.length) else none

def opt (p : Peg Token A) : Peg Token (Option A) := fun s =>
  match p s with
  | some (a, rest) => some (some a, rest)
  | none => some (none, s)

def butNot (p : Peg Token A) : Peg Token Unit := fun s =>
  match p s with
  | some _ => none
  | none => some ((), s)

def endOfInput : Peg Token Unit := fun s =>
  match s with
  | [] => some ((), [])
  | _ :: _ => none

/-- Repetition within a budget; it ends where the item fails or reads nothing. -/
def manyFrom (p : Peg Token A) : Nat → List Token → List A × List Token
  | 0, s => ([], s)
  | budget + 1, s =>
    match p s with
    | none => ([], s)
    | some (a, rest) =>
      if rest.length < s.length then
        let (items, left) := manyFrom p budget rest
        (a :: items, left)
      else ([], s)

def many (p : Peg Token A) : Peg Token (List A) := fun s => some (manyFrom p s.length s)

section Sequence
variable {p : Peg Token A} {s rest : List Token} {a : A}

theorem bind_of_some (f : A → Peg Token B) (first : p s = some (a, rest)) : (p >>= f) s = f a rest := by
  simp [bind, StateT.bind, first]

theorem bind_of_none (f : A → Peg Token B) (first : p s = none) : (p >>= f) s = none := by
  simp [bind, StateT.bind, first]

@[simp] theorem pure_run (b : B) (s : List Token) : (pure b : Peg Token B) s = some (b, s) := rfl

theorem map_of_some (f : A → B) (first : p s = some (a, rest)) : (f <$> p) s = some (f a, rest) := by
  simp [Functor.map, StateT.map, first]

theorem map_of_none (f : A → B) (first : p s = none) : (f <$> p) s = none := by
  simp [Functor.map, StateT.map, first]

theorem choice_of_some (q : Peg Token A) (first : p s = some (a, rest)) : (p <|> q) s = some (a, rest) := by
  change (p s <|> q s) = _
  rw [first]
  rfl

theorem choice_of_none (q : Peg Token A) (first : p s = none) : (p <|> q) s = q s := by
  change (p s <|> q s) = _
  rw [first]
  rfl

theorem opt_of_some (first : p s = some (a, rest)) : opt p s = some (some a, rest) := by
  simp [opt, first]

theorem opt_of_none (first : p s = none) : opt p s = some (none, s) := by
  simp [opt, first]

theorem butNot_of_none (first : p s = none) : butNot p s = some ((), s) := by
  simp [butNot, first]

theorem butNot_of_some (first : p s = some (a, rest)) : butNot p s = none := by
  simp [butNot, first]

end Sequence

section Words
variable {inClass : Token → Bool} {c : Token} {rest : List Token}

theorem one_of_mem (member : inClass c = true) : one inClass (c :: rest) = some (c, rest) := by
  simp [one, member]

theorem one_of_not_mem (other : inClass c = false) : one inClass (c :: rest) = none := by
  simp [one, other]

@[simp] theorem one_nil : one inClass ([] : List Token) = none := rfl

variable [DecidableEq Token]

@[simp] theorem word_append (w rest : List Token) : word w (w ++ rest) = some ((), rest) := by
  simp [word]

theorem word_single (c : Token) (rest : List Token) : word [c] (c :: rest) = some ((), rest) := word_append [c] rest

theorem word_of_not_start {w s : List Token} (differs : ¬ w <+: s) : word w s = none := by
  simp [word, differs]

theorem word_of_head_ne {w s : List Token} {c d : Token} (differs : c ≠ d) : word (c :: w) (d :: s) = none := by
  simp [word, differs]

theorem eq_append_of_word {w s rest : List Token} (read : word w s = some ((), rest)) : s = w ++ rest := by
  unfold word at read
  split at read
  · rename_i isPrefix
    obtain ⟨tail, rfl⟩ := List.isPrefixOf_iff_prefix.mp isPrefix
    simp only [List.drop_left, Option.some.injEq, Prod.mk.injEq, true_and] at read
    rw [read]
  · cases read

end Words

def Consuming (p : Peg Token A) : Prop := ∀ s a rest, p s = some (a, rest) → rest.length < s.length

def NonIncreasing (p : Peg Token A) : Prop := ∀ s a rest, p s = some (a, rest) → rest.length ≤ s.length

section Repetition
variable {p : Peg Token A}

theorem manyFrom_congr {first second : Nat} {s : List Token} (enough : s.length ≤ first) (also : s.length ≤ second) :
    manyFrom p first s = manyFrom p second s := by
  induction first generalizing second s with
  | zero =>
    cases second with
    | zero => rfl
    | succ second =>
      have empty : s = [] := List.eq_nil_of_length_eq_zero (Nat.le_zero.mp enough)
      subst empty
      rw [manyFrom, manyFrom]
      split <;> simp
  | succ first ih =>
    cases second with
    | zero =>
      have empty : s = [] := List.eq_nil_of_length_eq_zero (Nat.le_zero.mp also)
      subst empty
      rw [manyFrom, manyFrom]
      split <;> simp
    | succ second =>
      rw [manyFrom, manyFrom]
      split
      · rfl
      · rename_i a rest _
        split
        · rename_i shorter
          have same : manyFrom p first rest = manyFrom p second rest := ih (by omega) (by omega)
          rw [same]
        · rfl

theorem many_of_none {s : List Token} (ends : p s = none) : many p s = some ([], s) := by
  unfold many
  cases s with
  | nil => rfl
  | cons c s => simp [manyFrom, ends]

theorem many_of_some {s rest left : List Token} {a : A} {items : List A} (read : p s = some (a, rest))
    (shorter : rest.length < s.length) (more : many p rest = some (items, left)) :
    many p s = some (a :: items, left) := by
  cases s with
  | nil => simp at shorter
  | cons c s =>
    have budget : rest.length ≤ s.length := Nat.lt_succ_iff.mp shorter
    have same := manyFrom_congr (p := p) budget (Nat.le_refl rest.length)
    simp only [many, Option.some.injEq] at more
    simp only [many, List.length_cons, manyFrom, read, same, more]
    rw [if_pos (Nat.lt_succ_of_le budget)]

theorem none_of_many (consuming : Consuming p) {s left : List Token} {items : List A} (read : many p s = some (items, left)) : p left = none := by
  have general : ∀ n s, s.length ≤ n → p (manyFrom p n s).2 = none := by
    intro n
    induction n with
    | zero =>
      intro s short
      have empty : s = [] := List.eq_nil_of_length_eq_zero (Nat.le_zero.mp short)
      subst empty
      rw [manyFrom]
      cases item : p [] with
      | none => rfl
      | some result => exact absurd (consuming [] result.1 result.2 item) (by simp)
    | succ n ih =>
      intro s short
      rw [manyFrom]
      cases item : p s with
      | none => exact item
      | some result =>
        have shorter := consuming s result.1 result.2 item
        simp only [shorter, if_true]
        exact ih _ (by omega)
  have here := general s.length s (Nat.le_refl _)
  simp only [many, Option.some.injEq] at read
  rwa [read] at here

end Repetition

section Progress
variable {p : Peg Token A}

theorem Consuming.nonIncreasing (consuming : Consuming p) : NonIncreasing p :=
  fun s a rest read => Nat.le_of_lt (consuming s a rest read)

theorem exists_of_bind {f : A → Peg Token B} {s rest : List Token} {b : B} (read : (p >>= f) s = some (b, rest)) :
    ∃ a middle, p s = some (a, middle) ∧ f a middle = some (b, rest) := by
  simp only [bind, StateT.bind, Option.bind_eq_some_iff] at read
  obtain ⟨⟨a, middle⟩, first, second⟩ := read
  exact ⟨a, middle, first, second⟩

theorem exists_of_map {f : A → B} {s rest : List Token} {b : B} (read : (f <$> p) s = some (b, rest)) :
    ∃ a, p s = some (a, rest) ∧ f a = b := by
  simp only [Functor.map, StateT.map, Option.bind_eq_bind, Option.bind_eq_some_iff] at read
  obtain ⟨⟨a, middle⟩, first, second⟩ := read
  simp only [pure, Option.some.injEq, Prod.mk.injEq] at second
  obtain ⟨mapped, rfl⟩ := second
  exact ⟨a, first, mapped⟩

theorem choice_eq_some {q : Peg Token A} {s rest : List Token} {a : A} (read : (p <|> q) s = some (a, rest)) :
    p s = some (a, rest) ∨ p s = none ∧ q s = some (a, rest) := by
  cases here : p s with
  | some result =>
    rw [choice_of_some q here] at read
    exact Or.inl read
  | none =>
    rw [choice_of_none q here] at read
    exact Or.inr ⟨rfl, read⟩

theorem none_of_bind_pure {f : A → B} {s : List Token} (fails : (p >>= fun a => pure (f a)) s = none) : p s = none := by
  cases here : p s with
  | none => rfl
  | some result =>
    rw [bind_of_some _ here] at fails
    cases fails

theorem NonIncreasing.bind {f : A → Peg Token B} (first : NonIncreasing p) (second : ∀ a, NonIncreasing (f a)) :
    NonIncreasing (p >>= f) := by
  intro s b rest read
  obtain ⟨a, middle, here, there⟩ := exists_of_bind read
  exact (second a middle b rest there).trans (first s a middle here)

theorem Consuming.bind {f : A → Peg Token B} (first : Consuming p) (second : ∀ a, NonIncreasing (f a)) :
    Consuming (p >>= f) := by
  intro s b rest read
  obtain ⟨a, middle, here, there⟩ := exists_of_bind read
  exact (second a middle b rest there).trans_lt (first s a middle here)

theorem Consuming.map (f : A → B) (consuming : Consuming p) : Consuming (f <$> p) := by
  intro s b rest read
  obtain ⟨a, here, -⟩ := exists_of_map read
  exact consuming s a rest here

theorem NonIncreasing.pure (b : B) : NonIncreasing (pure b : Peg Token B) := by
  intro s b' rest read
  cases read
  exact Nat.le_refl _

theorem Consuming.choice {q : Peg Token A} (first : Consuming p) (second : Consuming q) : Consuming (p <|> q) := by
  intro s a rest read
  obtain here | ⟨-, here⟩ := choice_eq_some read
  · exact first s a rest here
  · exact second s a rest here

theorem NonIncreasing.choice {q : Peg Token A} (first : NonIncreasing p) (second : NonIncreasing q) :
    NonIncreasing (p <|> q) := by
  intro s a rest read
  obtain here | ⟨-, here⟩ := choice_eq_some read
  · exact first s a rest here
  · exact second s a rest here

theorem NonIncreasing.opt (nonIncreasing : NonIncreasing p) : NonIncreasing (opt p) := by
  intro s a rest read
  cases here : p s with
  | some result =>
    have taken : p.opt s = some (some result.1, result.2) := opt_of_some here
    rw [taken] at read
    cases read
    exact nonIncreasing s _ _ here
  | none =>
    rw [opt_of_none here] at read
    cases read
    exact Nat.le_refl _

theorem NonIncreasing.butNot : NonIncreasing (butNot p) := by
  intro s a rest read
  cases here : p s with
  | some result =>
    have refused : p.butNot s = none := butNot_of_some here
    rw [refused] at read
    cases read
  | none =>
    rw [butNot_of_none here] at read
    cases read
    exact Nat.le_refl _

theorem NonIncreasing.many : NonIncreasing (many p) := by
  have general : ∀ n s, (manyFrom p n s).2.length ≤ s.length := by
    intro n
    induction n with
    | zero => exact fun s => Nat.le_refl _
    | succ n ih =>
      intro s
      rw [manyFrom]
      split
      · exact Nat.le_refl _
      · split
        · rename_i shorter
          exact (ih _).trans (Nat.le_of_lt shorter)
        · exact Nat.le_refl _
  intro s items rest read
  have bound := general s.length s
  simp only [Peg.many, Option.some.injEq] at read
  rwa [read] at bound

theorem Consuming.one (inClass : Token → Bool) : Consuming (one inClass) := by
  intro s a rest read
  cases s with
  | nil => cases read
  | cons c s =>
    simp only [Peg.one] at read
    split at read
    · cases read
      simp
    · cases read

theorem NonIncreasing.endOfInput : NonIncreasing (endOfInput : Peg Token Unit) := by
  intro s a rest read
  cases s with
  | nil => cases read; exact Nat.le_refl _
  | cons c s => cases read

variable [DecidableEq Token]

theorem NonIncreasing.word (w : List Token) : NonIncreasing (word w) := by
  intro s a rest read
  simp [eq_append_of_word read]

theorem Consuming.word {w : List Token} (nonempty : w ≠ []) : Consuming (word w) := by
  intro s a rest read
  have positive := List.length_pos_iff.mpr nonempty
  simp [eq_append_of_word read, positive]

end Progress

def Outside (inClass : Token → Bool) (rest : List Token) : Prop := ∀ c ∈ rest.head?, inClass c = false

theorem one_of_outside {inClass : Token → Bool} {rest : List Token} (outside : Outside inClass rest) :
    one inClass rest = none := by
  cases rest with
  | nil => rfl
  | cons c rest => exact one_of_not_mem (outside c rfl)

theorem many_one {inClass : Token → Bool} {run rest : List Token} (all : ∀ c ∈ run, inClass c = true)
    (outside : Outside inClass rest) : many (one inClass) (run ++ rest) = some (run, rest) := by
  induction run with
  | nil => exact many_of_none (one_of_outside outside)
  | cons c run ih =>
    refine many_of_some (one_of_mem (all c (by simp))) (by simp) (ih fun d member => all d (by simp [member]))

theorem one_eq_some {inClass : Token → Bool} {s rest : List Token} {c : Token} (read : one inClass s = some (c, rest)) :
    s = c :: rest ∧ inClass c = true := by
  cases s with
  | nil => cases read
  | cons d s =>
    simp only [one] at read
    split at read
    · rename_i member
      cases read
      exact ⟨rfl, member⟩
    · cases read

/-- A run of tokens of a class is the front of what was given, and it is maximal. -/
theorem many_one_eq_some {inClass : Token → Bool} {s run rest : List Token}
    (read : many (one inClass) s = some (run, rest)) : s = run ++ rest ∧ Outside inClass rest := by
  have split : ∀ n s, s = (manyFrom (one inClass) n s).1 ++ (manyFrom (one inClass) n s).2 := by
    intro n
    induction n with
    | zero => exact fun s => rfl
    | succ n ih =>
      intro s
      rw [manyFrom]
      cases here : one inClass s with
      | none => rfl
      | some result =>
        obtain ⟨rfl, -⟩ := one_eq_some here
        simp only [List.length_cons, Nat.lt_add_one, if_true, List.cons_append]
        rw [← ih]
  have stopped := none_of_many (Consuming.one inClass) read
  have front := split s.length s
  simp only [many, Option.some.injEq] at read
  rw [read] at front
  refine ⟨front, fun c head => ?_⟩
  obtain ⟨more, rfl⟩ : ∃ more, rest = c :: more := by
    cases rest with
    | nil => cases head
    | cons d more => cases head; exact ⟨more, rfl⟩
  rw [← Bool.not_eq_true]
  intro member
  rw [one_of_mem member] at stopped
  cases stopped

-- What every reading yields

/-- Whatever the parser reads, its value has the property. -/
structure Ensures (p : Peg Token A) (post : A → Prop) : Prop where
  value : ∀ s a rest, p s = some (a, rest) → post a

namespace Ensures

variable {p : Peg Token A} {post : A → Prop}

theorem trivial : Ensures p fun _ => True := ⟨fun _ _ _ _ => True.intro⟩

theorem pure {a : A} (holds : post a) : Ensures (pure a : Peg Token A) post := by
  constructor
  intro s b rest read
  cases read
  exact holds

theorem failure : Ensures (failure : Peg Token A) post := by
  constructor
  intro s a rest read
  cases read

theorem bind {f : A → Peg Token B} {after : B → Prop} (first : Ensures p post)
    (second : ∀ a, post a → Ensures (f a) after) : Ensures (p >>= f) after := by
  constructor
  intro s b rest read
  obtain ⟨a, middle, here, there⟩ := exists_of_bind read
  exact (second a (first.value s a middle here)).value middle b rest there

theorem next {f : A → Peg Token B} {after : B → Prop} (second : ∀ a, Ensures (f a) after) :
    Ensures (p >>= f) after :=
  bind trivial fun a _ => second a

theorem choice {q : Peg Token A} (first : Ensures p post) (second : Ensures q post) : Ensures (p <|> q) post := by
  constructor
  intro s a rest read
  obtain here | ⟨-, here⟩ := choice_eq_some read
  · exact first.value s a rest here
  · exact second.value s a rest here

theorem opt (ensures : Ensures p post) : Ensures (opt p) fun value => ∀ a ∈ value, post a := by
  constructor
  intro s value rest read a member
  cases here : p s with
  | some result =>
    have taken : p.opt s = some (some result.1, result.2) := opt_of_some here
    rw [taken] at read
    cases read
    cases member
    exact ensures.value s _ _ here
  | none =>
    rw [opt_of_none here] at read
    cases read
    cases member

theorem many (ensures : Ensures p post) : Ensures (many p) fun items => ∀ a ∈ items, post a := by
  have general : ∀ n s, ∀ a ∈ (manyFrom p n s).1, post a := by
    intro n
    induction n with
    | zero =>
      intro s a member
      cases member
    | succ n ih =>
      intro s a member
      rw [manyFrom] at member
      split at member
      · cases member
      · rename_i first rest here
        split at member
        · rcases List.mem_cons.mp member with rfl | later
          · exact ensures.value s _ _ here
          · exact ih rest a later
        · cases member
  constructor
  intro s items rest read
  have all := general s.length s
  simp only [Peg.many, Option.some.injEq] at read
  rwa [read] at all

theorem one (inClass : Token → Bool) : Ensures (one inClass) fun c => inClass c = true :=
  ⟨fun _ _ _ read => (one_eq_some read).2⟩

end Ensures

end Peg

end MiniWaf
