import Mathlib.Data.List.Basic
import Mathlib.Data.List.Infix

/-! Strings as sequences of characters, with the operations of Rust's `str`
that the program uses.

A Rust `String` is a sequence of Unicode scalar values, so text under
construction or under a parser is a `List Char`; finished values are `String`.
-/

set_option autoImplicit false

namespace MiniWaf

abbrev Text := List Char

namespace Text

/-- `str::trim_matches(c)`: every leading and every trailing `c` goes. -/
def trimMatches (c : Char) (s : Text) : Text :=
  ((s.dropWhile (· == c)).reverse.dropWhile (· == c)).reverse

/-- `char::is_whitespace`: the Unicode property White_Space. -/
def isWhitespace (c : Char) : Bool :=
  let n := c.toNat
  (0x09 ≤ n && n ≤ 0x0D) || n == 0x20 || n == 0x85 || n == 0xA0 || n == 0x1680 ||
    (0x2000 ≤ n && n ≤ 0x200A) || n == 0x2028 || n == 0x2029 || n == 0x202F || n == 0x205F || n == 0x3000

/-- `str::trim`. -/
def trim (s : Text) : Text :=
  ((s.dropWhile isWhitespace).reverse.dropWhile isWhitespace).reverse

def replaceFrom (pattern replacement : Text) : Nat → Text → Text
  | _, [] => []
  | pending + 1, _ :: rest => replaceFrom pattern replacement pending rest
  | 0, c :: rest =>
    if pattern.isPrefixOf (c :: rest) then
      replacement ++ replaceFrom pattern replacement (pattern.length - 1) rest
    else c :: replaceFrom pattern replacement 0 rest

/-- `str::replace` for a non-empty pattern. -/
def replace (pattern replacement s : Text) : Text := replaceFrom pattern replacement 0 s

/-- `str::split_once` at a character. -/
def splitOnce (c : Char) : Text → Option (Text × Text)
  | [] => none
  | d :: rest => if d = c then some ([], rest) else (splitOnce c rest).map fun (l, r) => (d :: l, r)

/-- `str::split` at a character. -/
def split (c : Char) : Text → List Text
  | [] => [[]]
  | d :: rest =>
    if d = c then [] :: split c rest
    else
      match split c rest with
      | first :: more => (d :: first) :: more
      | [] => [[d]]

/-- `str::strip_suffix`. -/
def stripSuffix (suffix s : Text) : Option Text :=
  if suffix.isSuffixOf s then some (s.take (s.length - suffix.length)) else none

def containsText (needle : Text) : Text → Bool
  | [] => needle.isEmpty
  | c :: rest => needle.isPrefixOf (c :: rest) || containsText needle rest

/-- `[_]::join` on strings. -/
def join (separator : Text) : List Text → Text
  | [] => []
  | [t] => t
  | t :: rest => t ++ separator ++ join separator rest

@[simp] theorem join_nil (separator : Text) : join separator [] = [] := rfl

@[simp] theorem join_singleton (separator t : Text) : join separator [t] = t := rfl

@[simp] theorem join_cons_cons (separator t u : Text) (rest : List Text) :
    join separator (t :: u :: rest) = t ++ separator ++ join separator (u :: rest) := rfl

theorem join_cons (separator t : Text) (rest : List Text) :
    join separator (t :: rest) = t ++ rest.flatMap fun u => separator ++ u := by
  induction rest generalizing t with
  | nil => simp
  | cons u rest ih => rw [join_cons_cons, ih u]; simp

theorem containsText_iff (needle s : Text) : containsText needle s = true ↔ needle <:+: s := by
  induction s with
  | nil => cases needle <;> simp [containsText]
  | cons c rest ih =>
    rw [containsText, Bool.or_eq_true, List.isPrefixOf_iff_prefix, ih]
    exact List.infix_cons_iff.symm

theorem infix_of_infix_append {A : Type} {a : A} {needle block rest : List A} (absent : a ∉ block)
    (inside : a :: needle <:+: block ++ rest) : a :: needle <:+: rest := by
  induction block with
  | nil => exact inside
  | cons b block ih =>
    rw [List.mem_cons, not_or] at absent
    rw [List.cons_append, List.infix_cons_iff] at inside
    rcases inside with front | later
    · exact absurd (List.cons_prefix_cons.mp front).1 absent.1
    · exact ih absent.2 later

theorem splitOnce_append {c : Char} {front : Text} (absent : c ∉ front) (rest : Text) :
    splitOnce c (front ++ c :: rest) = some (front, rest) := by
  induction front with
  | nil => rw [List.nil_append, splitOnce, if_pos rfl]
  | cons d front ih =>
    rw [List.mem_cons, not_or] at absent
    rw [List.cons_append, splitOnce, if_neg (Ne.symm absent.1), ih absent.2]
    rfl

theorem split_of_not_mem {c : Char} {s : Text} (absent : c ∉ s) : split c s = [s] := by
  induction s with
  | nil => rfl
  | cons d s ih =>
    rw [List.mem_cons, not_or] at absent
    rw [split, if_neg (Ne.symm absent.1), ih absent.2]

theorem split_append {c : Char} {front : Text} (absent : c ∉ front) (rest : Text) :
    split c (front ++ c :: rest) = front :: split c rest := by
  induction front with
  | nil => rw [List.nil_append, split, if_pos rfl]
  | cons d front ih =>
    rw [List.mem_cons, not_or] at absent
    rw [List.cons_append, split, if_neg (Ne.symm absent.1), ih absent.2]

/-- Pieces without the separator are what their join splits into. -/
theorem split_join {c : Char} {pieces : List Text} (some : pieces ≠ []) (absent : ∀ p ∈ pieces, c ∉ p) :
    split c (join [c] pieces) = pieces := by
  induction pieces with
  | nil => exact absurd rfl some
  | cons p rest ih =>
    obtain ⟨here, later⟩ := List.forall_mem_cons.mp absent
    cases rest with
    | nil => exact split_of_not_mem here
    | cons q rest =>
      rw [join_cons_cons, List.append_assoc, List.singleton_append, split_append here, ih (List.cons_ne_nil q rest) later]

theorem splitOnce_some {c : Char} {s front rest : Text} (split : splitOnce c s = some (front, rest)) :
    c ∉ front ∧ s = front ++ c :: rest := by
  induction s generalizing front with
  | nil => cases split
  | cons d s ih =>
    rw [splitOnce] at split
    by_cases here : d = c
    · rw [if_pos here] at split
      cases split
      exact ⟨List.not_mem_nil, by rw [here]; rfl⟩
    · rw [if_neg here] at split
      obtain ⟨⟨left, right⟩, inner, same⟩ := Option.map_eq_some_iff.mp split
      cases same
      obtain ⟨absent, rfl⟩ := ih inner
      exact ⟨by simp [absent, Ne.symm here], rfl⟩

theorem splitOnce_none {c : Char} {s : Text} (whole : splitOnce c s = none) : c ∉ s := by
  induction s with
  | nil => exact List.not_mem_nil
  | cons d s ih =>
    rw [splitOnce] at whole
    by_cases here : d = c
    · rw [if_pos here] at whole
      cases whole
    · rw [if_neg here, Option.map_eq_none_iff] at whole
      simp [ih whole, Ne.symm here]

theorem stripSuffix_eq_some (suffix s front : Text) :
    stripSuffix suffix s = some front ↔ s = front ++ suffix := by
  unfold stripSuffix
  split
  · rename_i isSuffix
    obtain ⟨other, rfl⟩ := List.isSuffixOf_iff_suffix.mp isSuffix
    simp
  · rename_i notSuffix
    constructor
    · intro impossible
      cases impossible
    · rintro rfl
      exact absurd (List.isSuffixOf_iff_suffix.mpr (List.suffix_append _ _)) notSuffix

theorem replace_of_not_mem {c : Char} {pattern replacement s : Text} (absent : c ∉ s) :
    replace (c :: pattern) replacement s = s := by
  unfold replace
  induction s with
  | nil => rfl
  | cons d s ih =>
    rw [List.mem_cons, not_or] at absent
    have differs : (c :: pattern).isPrefixOf (d :: s) = false := by
      rw [List.isPrefixOf, beq_false_of_ne absent.1, Bool.false_and]
    rw [replaceFrom, differs, if_neg Bool.false_ne_true, ih absent.2]

theorem replace_char (c d : Char) (s : Text) : replace [c] [d] s = s.map fun e => if e = c then d else e := by
  unfold replace
  induction s with
  | nil => rfl
  | cons e s ih =>
    by_cases same : e = c
    · subst same
      have here : [e].isPrefixOf (e :: s) = true := by simp
      rw [replaceFrom, if_pos here, List.map_cons, if_pos rfl, ← ih]
      rfl
    · have differs : [c].isPrefixOf (e :: s) = false := by
        rw [List.isPrefixOf, beq_false_of_ne (Ne.symm same), Bool.false_and]
      rw [replaceFrom, differs, if_neg Bool.false_ne_true, List.map_cons, if_neg same, ih]

theorem dropWhile_of_head {c : Char} {s : Text} (front : s.head? ≠ some c) : s.dropWhile (· == c) = s := by
  cases s with
  | nil => rfl
  | cons d s =>
    have other : d ≠ c := fun same => front (by rw [same, List.head?_cons])
    rw [List.dropWhile_cons_of_neg]
    simpa using other

theorem trimMatches_cons (c : Char) (s : Text) : trimMatches c (c :: s) = trimMatches c s := by
  rw [trimMatches, trimMatches, List.dropWhile_cons, if_pos (by simp)]

theorem trimMatches_concat (c : Char) (s : Text) : trimMatches c (s ++ [c]) = trimMatches c s := by
  have single : [c].dropWhile (· == c) = [] := by simp
  rw [trimMatches, trimMatches, List.dropWhile_append]
  split
  · rename_i empty
    rw [List.isEmpty_iff] at empty
    rw [empty, single]
  · rw [List.reverse_append, List.reverse_singleton, List.singleton_append, List.dropWhile_cons, if_pos (by simp)]

theorem trimMatches_of_ends {c : Char} {s : Text} (front : s.head? ≠ some c) (back : s.getLast? ≠ some c) :
    trimMatches c s = s := by
  have backward : s.reverse.head? ≠ some c := by rwa [List.head?_reverse]
  rw [trimMatches, dropWhile_of_head front, dropWhile_of_head backward, List.reverse_reverse]

theorem trimMatches_quoted {c : Char} {s : Text} (absent : c ∉ s) : trimMatches c (c :: s ++ [c]) = s := by
  rw [List.cons_append, trimMatches_cons, trimMatches_concat]
  apply trimMatches_of_ends
  · exact fun front => absent (List.mem_of_mem_head? front)
  · exact fun back => absent (List.mem_of_getLast? back)

end Text

-- Predicates that agree on a list

theorem all_eq_of_mem {A : Type} {items : List A} {p q : A → Bool} (same : ∀ a ∈ items, p a = q a) :
    items.all p = items.all q := by
  induction items with
  | nil => rfl
  | cons a rest ih =>
    rw [List.all_cons, List.all_cons, same a List.mem_cons_self, ih fun b later => same b (List.mem_cons_of_mem a later)]

theorem any_eq_of_mem {A : Type} {items : List A} {p q : A → Bool} (same : ∀ a ∈ items, p a = q a) :
    items.any p = items.any q := by
  induction items with
  | nil => rfl
  | cons a rest ih =>
    rw [List.any_cons, List.any_cons, same a List.mem_cons_self, ih fun b later => same b (List.mem_cons_of_mem a later)]

end MiniWaf
