import MiniWaf.Optimized.Condition

/-! What the optimised engine's glob accepts. Its last part is searched for like the
others and not held against the end of the text.
-/

set_option autoImplicit false

namespace MiniWaf.Optimized

def starOf (c : Char) : Glob.Piece Char := if c = '*' then .star else .item c

theorem split_pieces (pattern : Text) :
    ∃ first parts, Text.split '*' pattern = first :: parts ∧ pattern.map starOf = first.map .item ++ Glob.starred parts := by
  induction pattern with
  | nil => exact ⟨[], [], rfl, rfl⟩
  | cons c pattern ih =>
    obtain ⟨first, parts, split, shape⟩ := ih
    by_cases star : c = '*'
    · subst star
      refine ⟨[], first :: parts, by rw [Text.split, if_pos rfl, split], ?_⟩
      rw [List.map_cons, shape]
      rfl
    · refine ⟨c :: first, parts, by rw [Text.split, if_neg star, split], ?_⟩
      rw [List.map_cons, shape, starOf, if_neg star]
      rfl

/-- The glob behaves as if its pattern ended in a star. -/
theorem globMatch_iff_open (pattern text : String) :
    globMatch pattern text = true ↔ Glob.Matches (pattern.toList.map starOf ++ [.star]) text.toList := by
  obtain ⟨first, parts, split, shape⟩ := split_pieces pattern.toList
  rw [globMatch, split, shape, List.append_assoc, Glob.matches_append]
  simp only [Glob.matches_items, Bool.and_eq_true, List.isPrefixOf_iff_prefix, Glob.greedy_iff]
  constructor
  · rintro ⟨⟨rest, whole⟩, tail⟩
    rw [← whole, List.drop_left] at tail
    exact ⟨first, rest, whole.symm, rfl, tail⟩
  · rintro ⟨_, rest, whole, rfl, tail⟩
    rw [whole, List.drop_left]
    exact ⟨List.prefix_append _ _, tail⟩

def Takes (c : Char) (segment : Text) : Prop := if c = '*' then True else segment = [c]

/-- The whole text divides into segments the pattern's characters take. -/
def Covers (pattern text : Text) : Prop := ∃ segments, List.Forall₂ Takes pattern segments ∧ segments.flatten = text

theorem covers_iff (pattern text : Text) : Covers pattern text ↔ Glob.Matches (pattern.map starOf) text := by
  have taken : ∀ c segment, (starOf c).Takes segment ↔ Takes c segment := by
    intro c segment
    by_cases star : c = '*'
    · subst star
      exact Iff.rfl
    · rw [starOf, Takes, if_neg star, if_neg star]
      rfl
  rw [Glob.matches_iff_segments, Covers]
  simp only [List.forall₂_map_left_iff, taken]

theorem globMatch_iff_begins (pattern text : String) :
    globMatch pattern text = true ↔ ∃ front, front <+: text.toList ∧ Covers pattern.toList front := by
  rw [globMatch_iff_open, Glob.matches_concat_star]
  simp only [covers_iff]

theorem covers_of_star {pattern : Text} (endsInStar : ['*'] <:+ pattern) {front text : Text} (begins : front <+: text)
    (covers : Covers pattern front) : Covers pattern text := by
  obtain ⟨before, rfl⟩ := endsInStar
  rw [covers_iff, List.map_append] at covers ⊢
  exact Glob.matches_star_star.mp (Glob.matches_concat_star.mpr ⟨front, begins, covers⟩)

theorem covers_filter (pattern : Text) : Covers pattern (pattern.filter (· ≠ '*')) := by
  induction pattern with
  | nil => exact ⟨[], .nil, rfl⟩
  | cons c pattern ih =>
    obtain ⟨segments, taken, flat⟩ := ih
    by_cases star : c = '*'
    · refine ⟨[] :: segments, .cons ?_ taken, ?_⟩
      · simp [Takes, star]
      · simp [star, flat]
    · refine ⟨[c] :: segments, .cons ?_ taken, ?_⟩
      · simp [Takes, star]
      · simp [star, flat]

theorem last_of_covers {pattern : Text} {c : Char} (notStar : c ≠ '*') {text : Text}
    (covers : Covers (pattern ++ [c]) text) : [c] <:+ text := by
  rw [covers_iff, List.map_append, Glob.matches_append] at covers
  obtain ⟨front, rest, rfl, -, last⟩ := covers
  have item : [c].map starOf = [c].map .item := by simp [starOf, notStar]
  rw [item, Glob.matches_items] at last
  exact ⟨front, by rw [last]⟩

theorem exists_beyond {pattern : Text} (closed : ¬ ['*'] <:+ pattern) :
    ∃ front d, Covers pattern front ∧ ¬ Covers pattern (front ++ [d]) := by
  induction pattern using List.reverseRecOn with
  | nil =>
    refine ⟨[], 'a', covers_filter [], ?_⟩
    rintro ⟨segments, taken, flat⟩
    cases taken
    cases flat
  | append_singleton pattern c _ =>
    have notStar : c ≠ '*' := fun same => closed ⟨pattern, by rw [same]⟩
    obtain ⟨d, other⟩ : ∃ d, d ≠ c := by
      by_cases same : c = 'a'
      · exact ⟨'b', by rw [same]; decide⟩
      · exact ⟨'a', Ne.symm same⟩
    refine ⟨_, d, covers_filter (pattern ++ [c]), ?_⟩
    intro covers
    have ends := last_of_covers notStar covers
    obtain impossible | ⟨before, same, -⟩ := List.suffix_concat_iff.mp ends
    · cases impossible
    · have lasts := congrArg List.getLast? same
      rw [List.getLast?_concat, List.getLast?_singleton, Option.some.injEq] at lasts
      exact other lasts.symm

/-- The glob accepts whole texts except where the pattern covers a beginning of the text and does not cover the
text; a pattern is read as it should be on all texts exactly if it ends in a star. -/
theorem glob_whole_iff (pattern : String) :
    (∀ text : String, (globMatch pattern text = true ↔ Covers pattern.toList text.toList) ↔
      (['*'] <:+ pattern.toList ∨ Covers pattern.toList text.toList ∨
        ∀ front, front <+: text.toList → ¬ Covers pattern.toList front)) ∧
      ((∀ text : String, globMatch pattern text = true ↔ Covers pattern.toList text.toList) ↔
        ['*'] <:+ pattern.toList) := by
  constructor
  · intro text
    rw [globMatch_iff_begins]
    constructor
    · intro whole
      by_cases covers : Covers pattern.toList text.toList
      · exact .inr (.inl covers)
      · exact .inr (.inr fun front begins coversFront => covers (whole.mp ⟨front, begins, coversFront⟩))
    · intro condition
      constructor
      · rintro ⟨front, begins, coversFront⟩
        obtain endsInStar | covers | none := condition
        · exact covers_of_star endsInStar begins coversFront
        · exact covers
        · exact absurd coversFront (none front begins)
      · exact fun covers => ⟨text.toList, List.prefix_refl _, covers⟩
  · constructor
    · intro whole
      by_contra closed
      obtain ⟨front, d, coversFront, beyond⟩ := exists_beyond closed
      have accepted : globMatch pattern (String.ofList (front ++ [d])) = true := by
        rw [globMatch_iff_begins, String.toList_ofList]
        exact ⟨front, List.prefix_append front [d], coversFront⟩
      have covers := (whole _).mp accepted
      rw [String.toList_ofList] at covers
      exact beyond covers
    · intro endsInStar text
      rw [globMatch_iff_begins]
      constructor
      · rintro ⟨front, begins, coversFront⟩
        exact covers_of_star endsInStar begins coversFront
      · exact fun covers => ⟨text.toList, List.prefix_refl _, covers⟩

theorem glob_overruns :
    globMatch "/admin" "/administrator" = true ∧ ¬ Covers "/admin".toList "/administrator".toList := by
  refine ⟨by decide +kernel, ?_⟩
  intro covers
  have split : Covers ("/admi".toList ++ ['n']) "/administrator".toList := covers
  have ends := last_of_covers (by decide) split
  revert ends
  decide

end MiniWaf.Optimized
