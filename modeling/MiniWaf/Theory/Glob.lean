import Mathlib.Data.List.Infix

/-! Glob patterns over an arbitrary alphabet: what they match, and a greedy search
that decides patterns of literal parts between stars.
-/

set_option autoImplicit false

namespace MiniWaf.Glob

variable {A : Type}

inductive Piece (A : Type) where
  | item (a : A)
  | one
  | star
  deriving DecidableEq, Repr

/-- The text is what the pieces stand for, one after the other. -/
def Matches : List (Piece A) → List A → Prop
  | [], text => text = []
  | .item a :: pieces, text => ∃ rest, text = a :: rest ∧ Matches pieces rest
  | .one :: pieces, text => ∃ a rest, text = a :: rest ∧ Matches pieces rest
  | .star :: pieces, text => ∃ front rest, text = front ++ rest ∧ Matches pieces rest

def Piece.Takes : Piece A → List A → Prop
  | .item a, segment => segment = [a]
  | .one, segment => segment.length = 1
  | .star, _ => True

/-- The text divides into segments, one for each piece. -/
theorem matches_iff_segments {pieces : List (Piece A)} {text : List A} :
    Matches pieces text ↔ ∃ segments, List.Forall₂ Piece.Takes pieces segments ∧ segments.flatten = text := by
  induction pieces generalizing text with
  | nil =>
    constructor
    · rintro rfl
      exact ⟨[], .nil, rfl⟩
    · rintro ⟨segments, taken, rfl⟩
      cases taken
      rfl
  | cons piece pieces ih =>
    have division : (∃ segments, List.Forall₂ Piece.Takes (piece :: pieces) segments ∧ segments.flatten = text) ↔
        ∃ segment rest, text = segment ++ rest ∧ piece.Takes segment ∧ Matches pieces rest := by
      constructor
      · rintro ⟨segments, taken, rfl⟩
        cases taken with
        | @cons _ segment _ segments first others => exact ⟨segment, segments.flatten, rfl, first, ih.mpr ⟨segments, others, rfl⟩⟩
      · rintro ⟨segment, rest, rfl, first, tail⟩
        obtain ⟨segments, others, rfl⟩ := ih.mp tail
        exact ⟨segment :: segments, .cons first others, rfl⟩
    rw [division]
    cases piece with
    | item a =>
      constructor
      · rintro ⟨rest, rfl, tail⟩
        exact ⟨[a], rest, rfl, rfl, tail⟩
      · rintro ⟨_, rest, rfl, rfl, tail⟩
        exact ⟨rest, rfl, tail⟩
    | one =>
      constructor
      · rintro ⟨a, rest, rfl, tail⟩
        exact ⟨[a], rest, rfl, rfl, tail⟩
      · rintro ⟨segment, rest, rfl, single, tail⟩
        obtain ⟨a, rfl⟩ := List.length_eq_one_iff.mp single
        exact ⟨a, rest, rfl, tail⟩
    | star =>
      constructor
      · rintro ⟨front, rest, rfl, tail⟩
        exact ⟨front, rest, rfl, True.intro, tail⟩
      · rintro ⟨front, rest, rfl, -, tail⟩
        exact ⟨front, rest, rfl, tail⟩

theorem matches_append {first second : List (Piece A)} {text : List A} :
    Matches (first ++ second) text ↔ ∃ front rest, text = front ++ rest ∧ Matches first front ∧ Matches second rest := by
  induction first generalizing text with
  | nil =>
    constructor
    · exact fun whole => ⟨[], text, rfl, rfl, whole⟩
    · rintro ⟨front, rest, rfl, rfl, whole⟩
      exact whole
  | cons piece first ih =>
    cases piece with
    | item a =>
      simp only [List.cons_append, Matches, ih]
      constructor
      · rintro ⟨_, rfl, front, rest, rfl, left, right⟩
        exact ⟨a :: front, rest, rfl, ⟨front, rfl, left⟩, right⟩
      · rintro ⟨_, rest, rfl, ⟨front, rfl, left⟩, right⟩
        exact ⟨front ++ rest, rfl, front, rest, rfl, left, right⟩
    | one =>
      simp only [List.cons_append, Matches, ih]
      constructor
      · rintro ⟨a, _, rfl, front, rest, rfl, left, right⟩
        exact ⟨a :: front, rest, rfl, ⟨a, front, rfl, left⟩, right⟩
      · rintro ⟨_, rest, rfl, ⟨a, front, rfl, left⟩, right⟩
        exact ⟨a, front ++ rest, rfl, front, rest, rfl, left, right⟩
    | star =>
      simp only [List.cons_append, Matches, ih]
      constructor
      · rintro ⟨skipped, _, rfl, front, rest, rfl, left, right⟩
        exact ⟨skipped ++ front, rest, by simp, ⟨skipped, front, rfl, left⟩, right⟩
      · rintro ⟨_, rest, rfl, ⟨skipped, front, rfl, left⟩, right⟩
        exact ⟨skipped, front ++ rest, by simp, front, rest, rfl, left, right⟩

theorem matches_items {part text : List A} : Matches (part.map Piece.item) text ↔ text = part := by
  induction part generalizing text with
  | nil => rfl
  | cons a part ih =>
    simp only [List.map_cons, Matches, ih]
    constructor
    · rintro ⟨_, rfl, rfl⟩
      rfl
    · rintro rfl
      exact ⟨part, rfl, rfl⟩

theorem matches_star (text : List A) : Matches [Piece.star] text := ⟨text, [], by simp, rfl⟩

theorem matches_star_nil {pieces : List (Piece A)} :
    Matches (.star :: pieces) [] ↔ Matches pieces [] := by
  constructor
  · rintro ⟨front, rest, whole, tail⟩
    obtain ⟨-, rfl⟩ := List.append_eq_nil_iff.mp whole.symm
    exact tail
  · exact fun tail => ⟨[], [], rfl, tail⟩

theorem matches_star_cons {pieces : List (Piece A)} {c : A} {text : List A} :
    Matches (.star :: pieces) (c :: text) ↔
      Matches pieces (c :: text) ∨ Matches (.star :: pieces) text := by
  constructor
  · rintro ⟨front, rest, whole, tail⟩
    cases front with
    | nil => exact .inl (whole ▸ tail)
    | cons d front => exact .inr ⟨front, rest, (List.cons.inj whole).2, tail⟩
  · rintro (tail | ⟨front, rest, rfl, tail⟩)
    · exact ⟨[], c :: text, rfl, tail⟩
    · exact ⟨c :: front, rest, rfl, tail⟩

theorem matches_prefix_star {part text : List A} : Matches (part.map Piece.item ++ [.star]) text ↔ part <+: text := by
  rw [matches_append]
  constructor
  · rintro ⟨front, rest, rfl, same, -⟩
    rw [matches_items.mp same]
    exact List.prefix_append part rest
  · rintro ⟨rest, rfl⟩
    exact ⟨part, rest, rfl, matches_items.mpr rfl, matches_star rest⟩

theorem matches_concat_star {pieces : List (Piece A)} {text : List A} :
    Matches (pieces ++ [.star]) text ↔ ∃ front, front <+: text ∧ Matches pieces front := by
  rw [matches_append]
  constructor
  · rintro ⟨front, rest, rfl, left, -⟩
    exact ⟨front, List.prefix_append front rest, left⟩
  · rintro ⟨front, ⟨rest, rfl⟩, left⟩
    exact ⟨front, rest, rfl, left, matches_star rest⟩

theorem matches_star_star {pieces : List (Piece A)} {text : List A} :
    Matches (pieces ++ [.star] ++ [.star]) text ↔ Matches (pieces ++ [.star]) text := by
  rw [List.append_assoc, matches_append, matches_append]
  constructor
  · rintro ⟨front, rest, rfl, left, -⟩
    exact ⟨front, rest, rfl, left, matches_star rest⟩
  · rintro ⟨front, rest, rfl, left, -⟩
    exact ⟨front, rest, rfl, left, [], rest, rfl, matches_star rest⟩

variable [DecidableEq A]

def after (part : List A) : List A → Option (List A)
  | [] => if part = [] then some [] else none
  | a :: rest => if part.isPrefixOf (a :: rest) then some ((a :: rest).drop part.length) else after part rest

/-- Finds the parts in order, each at its first occurrence. -/
def greedy : List (List A) → List A → Bool
  | [], _ => true
  | part :: parts, text =>
    match after part text with
    | some rest => greedy parts rest
    | none => false

def starred (parts : List (List A)) : List (Piece A) := parts.flatMap fun part => .star :: part.map .item

omit [DecidableEq A] in
theorem matches_starred_cons {part : List A} {parts : List (List A)} {text : List A} :
    Matches (starred (part :: parts) ++ [.star]) text ↔
      ∃ front rest, text = front ++ (part ++ rest) ∧ Matches (starred parts ++ [.star]) rest := by
  have shape : starred (part :: parts) ++ [.star] = .star :: (part.map .item ++ (starred parts ++ [.star])) := by
    simp [starred]
  rw [shape, Matches]
  simp only [matches_append, matches_items]
  constructor
  · rintro ⟨front, _, rfl, _, rest, rfl, rfl, tail⟩
    exact ⟨front, rest, rfl, tail⟩
  · rintro ⟨front, rest, rfl, tail⟩
    exact ⟨front, part ++ rest, rfl, part, rest, rfl, rfl, tail⟩

omit [DecidableEq A] in
/-- What a star leads can also be found further to the left. -/
theorem matches_starred_suffix {parts : List (List A)} {text longer : List A} (suffix : text <:+ longer)
    (found : Matches (starred parts ++ [.star]) text) : Matches (starred parts ++ [.star]) longer := by
  obtain ⟨more, rfl⟩ := suffix
  cases parts with
  | nil => exact matches_star _
  | cons part parts =>
    obtain ⟨front, rest, rfl, tail⟩ := matches_starred_cons.mp found
    exact matches_starred_cons.mpr ⟨more ++ front, rest, by simp, tail⟩

theorem after_some {part text rest : List A} (found : after part text = some rest) :
    (∃ front, text = front ++ (part ++ rest)) ∧
      ∀ front rest', text = front ++ (part ++ rest') → rest' <:+ rest := by
  induction text with
  | nil =>
    rw [after] at found
    split at found
    · rename_i empty
      subst empty
      obtain rfl := Option.some.inj found
      refine ⟨⟨[], rfl⟩, ?_⟩
      intro front rest' whole
      obtain ⟨-, rfl⟩ := List.append_eq_nil_iff.mp whole.symm
      exact List.suffix_rfl
    · cases found
  | cons a text ih =>
    rw [after] at found
    split at found
    · rename_i here
      obtain ⟨left, whole⟩ := List.isPrefixOf_iff_prefix.mp here
      obtain rfl := Option.some.inj found
      rw [← whole, List.drop_left]
      refine ⟨⟨[], rfl⟩, ?_⟩
      intro front rest' other
      have length := congrArg List.length other
      simp only [List.length_append] at length
      have inside : rest' <:+ part ++ left := ⟨front ++ part, by simp [other]⟩
      exact List.suffix_of_suffix_length_le inside (List.suffix_append part left) (by omega)
    · rename_i notHere
      obtain ⟨⟨front, whole⟩, first⟩ := ih found
      refine ⟨⟨a :: front, by rw [whole]; rfl⟩, ?_⟩
      intro front' rest' other
      cases front' with
      | nil =>
        exact absurd (List.isPrefixOf_iff_prefix.mpr ⟨rest', other.symm⟩) notHere
      | cons b front' => exact first front' rest' (List.cons.inj other).2

theorem after_none {part text : List A} (absent : after part text = none) (front rest : List A) :
    text ≠ front ++ (part ++ rest) := by
  induction text generalizing front with
  | nil =>
    rw [after] at absent
    split at absent
    · cases absent
    · rename_i nonempty
      intro whole
      obtain ⟨-, both⟩ := List.append_eq_nil_iff.mp whole.symm
      exact nonempty (List.append_eq_nil_iff.mp both).1
  | cons a text ih =>
    rw [after] at absent
    split at absent
    · cases absent
    · rename_i notHere
      intro whole
      cases front with
      | nil => exact notHere (List.isPrefixOf_iff_prefix.mpr ⟨rest, whole.symm⟩)
      | cons b front => exact ih absent front (List.cons.inj whole).2

/-- The greedy search decides the pattern: taking the first occurrence loses nothing. -/
theorem greedy_iff {parts : List (List A)} {text : List A} :
    greedy parts text = true ↔ Matches (starred parts ++ [.star]) text := by
  induction parts generalizing text with
  | nil => exact ⟨fun _ => matches_star text, fun _ => rfl⟩
  | cons part parts ih =>
    rw [matches_starred_cons, greedy]
    cases found : after part text with
    | none =>
      constructor
      · exact fun impossible => nomatch impossible
      · rintro ⟨front, rest, whole, -⟩
        exact absurd whole (after_none found front rest)
    | some rest =>
      obtain ⟨⟨front, whole⟩, first⟩ := after_some found
      rw [ih]
      constructor
      · exact fun tail => ⟨front, rest, whole, tail⟩
      · rintro ⟨front', rest', whole', tail⟩
        exact matches_starred_suffix (first front' rest' whole') tail

end MiniWaf.Glob
