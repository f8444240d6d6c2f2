import Mathlib.Data.List.Basic
import Mathlib.Data.List.TakeWhile

/-! References in a text. They are looked for from left to right, and each is replaced by
another; where a reference stays one in its new form, the text around it stays as it is.
-/

set_option autoImplicit false

namespace MiniWaf

-- The longest prefix with a property

section
variable {A : Type}

def longest (p : List A → Bool) : List A → Option (List A)
  | [] => if p [] then some [] else none
  | c :: rest =>
    match longest (fun t => p (c :: t)) rest with
    | some t => some (c :: t)
    | none => if p [] then some [] else none

theorem longest_some {p : List A → Bool} {word found : List A} (here : longest p word = some found) :
    found <+: word ∧ p found = true := by
  induction word generalizing p found with
  | nil =>
    rw [longest] at here
    split at here
    · rename_i holds
      cases here
      exact ⟨List.nil_prefix, holds⟩
    · cases here
  | cons c rest ih =>
    rw [longest] at here
    split at here
    · rename_i t later
      cases here
      obtain ⟨front, holds⟩ := ih later
      exact ⟨List.cons_prefix_cons.mpr ⟨rfl, front⟩, holds⟩
    · split at here
      · rename_i holds
        cases here
        exact ⟨List.nil_prefix, holds⟩
      · cases here

/-- What is longest stays so where the property is the same of it and of everything longer. -/
theorem longest_congr {p q : List A → Bool} {word found : List A} (here : longest p word = some found)
    (same : ∀ t, found.length ≤ t.length → q t = p t) : longest q word = some found := by
  induction word generalizing p q found with
  | nil =>
    rw [longest] at here ⊢
    split at here
    · rename_i holds
      cases here
      rw [same [] (Nat.le_refl _), if_pos holds]
    · cases here
  | cons c rest ih =>
    rw [longest] at here ⊢
    split at here
    · rename_i t later
      cases here
      rw [ih later fun u long => same (c :: u) (Nat.succ_le_succ long)]
    · rename_i nothing
      split at here
      · rename_i holds
        cases here
        have everywhere : q = p := funext fun t => same t (Nat.zero_le _)
        rw [everywhere, nothing, if_pos holds]
      · cases here

theorem longest_append (front : List A) {p : List A → Bool} {word found : List A}
    (here : longest (fun t => p (front ++ t)) word = some found) : longest p (front ++ word) = some (front ++ found) := by
  induction front generalizing p with
  | nil => exact here
  | cons c front ih => rw [List.cons_append, longest, ih here, List.cons_append]

end

-- Texts up to a mark

section
variable {A : Type} [DecidableEq A] {mark : A}

def upTo (mark : A) (s : List A) : List A := s.takeWhile (· ≠ mark)

theorem takeWhile_upTo {p : A → Bool} (other : p mark = false) (s : List A) : (upTo mark s).takeWhile p = s.takeWhile p := by
  induction s with
  | nil => rfl
  | cons c s ih =>
    by_cases here : c = mark
    · subst here
      simp [upTo, other]
    · rw [upTo, List.takeWhile_cons_of_pos (by simpa using here), List.takeWhile_cons, List.takeWhile_cons, ← upTo, ih]

theorem dropWhile_upTo {p : A → Bool} (other : p mark = false) (s : List A) :
    (upTo mark s).dropWhile p = upTo mark (s.dropWhile p) := by
  induction s with
  | nil => rfl
  | cons c s ih =>
    by_cases here : c = mark
    · subst here
      simp [upTo, other]
    · rw [upTo, List.takeWhile_cons_of_pos (by simpa using here), List.dropWhile_cons, List.dropWhile_cons, ← upTo, ih]
      split
      · rfl
      · rw [upTo, upTo, List.takeWhile_cons_of_pos (by simpa using here)]

theorem upTo_append {front : List A} (unmarked : mark ∉ front) (s : List A) : upTo mark (front ++ s) = front ++ upTo mark s := by
  apply List.takeWhile_append_of_pos
  rintro c member
  rw [decide_eq_true_eq]
  rintro rfl
  exact unmarked member

theorem upTo_congr (front : List A) {s t : List A} (same : upTo mark s = upTo mark t) :
    upTo mark (front ++ s) = upTo mark (front ++ t) := by
  simp only [upTo] at same ⊢
  rw [List.takeWhile_append, List.takeWhile_append, same]

end

/-- References begin with a mark, and what is behind the next mark does not matter to them. -/
structure Recogniser (A R : Type) [DecidableEq A] where
  mark : A
  recognise : List A → Option R
  shown : R → List A
  marked : ∀ r, (shown r).head? = some mark
  shows : ∀ {s r}, recognise s = some r → shown r <+: s
  near : ∀ s, recognise (mark :: s) = recognise (mark :: upTo mark s)

namespace Recogniser

variable {A R : Type} [DecidableEq A] (x : Recogniser A R)

def piecesFrom : (pending : Nat) → List A → List (A ⊕ R)
  | _, [] => []
  | pending + 1, _ :: s => piecesFrom pending s
  | 0, c :: s =>
    match x.recognise (c :: s) with
    | some r => .inr r :: piecesFrom ((x.shown r).length - 1) s
    | none => .inl c :: piecesFrom 0 s

def pieces (s : List A) : List (A ⊕ R) := x.piecesFrom 0 s

/-- All references are replaced, from left to right. -/
def replaceAll (f : R → List A) (s : List A) : List A := (x.pieces s).flatMap (Sum.elim (fun c => [c]) f)

theorem shown_cons (r : R) : ∃ rest, x.shown r = x.mark :: rest := by
  have head := x.marked r
  cases shown : x.shown r with
  | nil =>
    rw [shown] at head
    cases head
  | cons c rest =>
    rw [shown, List.head?_cons, Option.some.injEq] at head
    exact ⟨rest, by rw [head]⟩

theorem piecesFrom_drop (pending : Nat) (s : List A) : x.piecesFrom pending s = x.pieces (s.drop pending) := by
  induction s generalizing pending with
  | nil => cases pending <;> rfl
  | cons c s ih =>
    cases pending with
    | zero => rfl
    | succ pending => exact ih pending

variable {x}

theorem pieces_reference {r : R} {s : List A} (here : x.recognise (x.shown r ++ s) = some r) :
    x.pieces (x.shown r ++ s) = .inr r :: x.pieces s := by
  obtain ⟨rest, shown⟩ := x.shown_cons r
  have left : (rest ++ s).drop ((x.shown r).length - 1) = s := by simp [shown]
  rw [shown, List.cons_append] at here ⊢
  rw [pieces, piecesFrom, here]
  dsimp only
  rw [piecesFrom_drop, left]

theorem pieces_letter {c : A} {s : List A} (none : x.recognise (c :: s) = none) : x.pieces (c :: s) = .inl c :: x.pieces s := by
  rw [pieces, piecesFrom, none]
  rfl

variable (x) in
@[elab_as_elim]
theorem byPieces {motive : List A → Prop} (nil : motive [])
    (reference : ∀ r s, x.recognise (x.shown r ++ s) = some r → motive s → motive (x.shown r ++ s))
    (letter : ∀ c s, x.recognise (c :: s) = none → motive s → motive (c :: s)) (s : List A) : motive s := by
  induction length : s.length using Nat.strongRecOn generalizing s with
  | ind n ih =>
    cases s with
    | nil => exact nil
    | cons c s =>
      rw [List.length_cons] at length
      cases here : x.recognise (c :: s) with
      | none => exact letter c s here (ih _ (by omega) s rfl)
      | some r =>
        obtain ⟨rest, whole⟩ := x.shows here
        rw [← whole] at here ⊢
        obtain ⟨more, shown⟩ := x.shown_cons r
        have sizes := congrArg List.length whole
        rw [List.length_append, shown, List.length_cons, List.length_cons] at sizes
        exact reference r rest here (ih rest.length (by omega) rest rfl)

theorem replaceAll_reference (f : R → List A) {r : R} {s : List A} (here : x.recognise (x.shown r ++ s) = some r) :
    x.replaceAll f (x.shown r ++ s) = f r ++ x.replaceAll f s := by
  rw [replaceAll, pieces_reference here]
  rfl

theorem replaceAll_letter (f : R → List A) {c : A} {s : List A} (none : x.recognise (c :: s) = none) :
    x.replaceAll f (c :: s) = c :: x.replaceAll f s := by
  rw [replaceAll, pieces_letter none]
  rfl

theorem upTo_replaceAll {f : R → List A} (marked : ∀ r, (f r).head? = some x.mark) (s : List A) :
    upTo x.mark (x.replaceAll f s) = upTo x.mark s := by
  have empty {r : R} {t : List A} (g : R → List A) (head : (g r).head? = some x.mark) : upTo x.mark (g r ++ t) = [] := by
    cases shown : g r with
    | nil =>
      rw [shown] at head
      cases head
    | cons c rest =>
      rw [shown, List.head?_cons, Option.some.injEq] at head
      simp [upTo, head]
  induction s using x.byPieces with
  | nil => rfl
  | reference r s here _ => rw [replaceAll_reference f here, empty f (marked r), empty x.shown (x.marked r)]
  | letter c s none ih =>
    rw [replaceAll_letter f none, upTo, upTo, List.takeWhile_cons, List.takeWhile_cons, ← upTo, ← upTo, ih]

theorem recognise_unmarked {c : A} {s : List A} (other : c ≠ x.mark) : x.recognise (c :: s) = none := by
  cases here : x.recognise (c :: s) with
  | none => rfl
  | some r =>
    obtain ⟨rest, shown⟩ := x.shown_cons r
    have front := x.shows here
    rw [shown, List.cons_prefix_cons] at front
    exact absurd front.1.symm other

theorem recognise_congr {c : A} {s t : List A} (same : upTo x.mark s = upTo x.mark t) :
    x.recognise (c :: s) = x.recognise (c :: t) := by
  by_cases here : c = x.mark
  · rw [here, x.near, same, ← x.near]
  · rw [recognise_unmarked here, recognise_unmarked here]

variable {f : R → R} (keeps : ∀ r s, x.recognise (x.shown r ++ s) = some r → x.recognise (x.shown (f r) ++ s) = some (f r))
include keeps

/-- The rewritten text has the same letters around the rewritten references, and no other references. -/
theorem pieces_replaceAll (s : List A) :
    x.pieces (x.replaceAll (fun r => x.shown (f r)) s) = (x.pieces s).map (Sum.map id f) := by
  have ahead := upTo_replaceAll (x := x) (f := fun r => x.shown (f r)) fun r => x.marked (f r)
  induction s using x.byPieces with
  | nil => rfl
  | reference r s here ih =>
    have kept : x.recognise (x.shown (f r) ++ x.replaceAll (fun r => x.shown (f r)) s) = some (f r) := by
      have before := keeps r s here
      obtain ⟨rest, shown⟩ := x.shown_cons (f r)
      rw [shown, List.cons_append] at before ⊢
      rw [← before]
      exact recognise_congr (upTo_congr rest (ahead s))
    rw [replaceAll_reference _ here, pieces_reference kept, ih, pieces_reference here]
    rfl
  | letter c s none ih =>
    have still : x.recognise (c :: x.replaceAll (fun r => x.shown (f r)) s) = Option.none := by
      rw [recognise_congr (ahead s)]
      exact none
    rw [replaceAll_letter _ none, pieces_letter still, ih, pieces_letter none]
    rfl

/-- Where a rewritten reference is not rewritten again, nor is the text. -/
theorem replaceAll_idem (once : ∀ r, f (f r) = f r) (s : List A) :
    x.replaceAll (fun r => x.shown (f r)) (x.replaceAll (fun r => x.shown (f r)) s) =
      x.replaceAll (fun r => x.shown (f r)) s := by
  rw [replaceAll, pieces_replaceAll keeps, List.flatMap_map, replaceAll]
  refine List.flatMap_congr fun piece _ => ?_
  cases piece with
  | inl c => rfl
  | inr r => exact congrArg x.shown (once r)

end Recogniser

end MiniWaf
