import MiniWaf.Crs.Parser

/-! Quoted tokens of a directive. A backslash escapes the character after it, and a token
ends at the first quote that is not escaped.
-/

set_option autoImplicit false

namespace MiniWaf.Crs

/-- A text read from the left without meeting a quote that is not escaped, and whether it ends inside an escape. -/
inductive Scanned : (inEscape : Bool) → Text → Prop where
  | nil : Scanned false []
  | char {inEscape : Bool} {c : Char} {rest : Text} : c ≠ '"' → c ≠ '\\' → Scanned inEscape rest →
      Scanned inEscape (c :: rest)
  | escape {inEscape : Bool} {c : Char} {rest : Text} : Scanned inEscape rest → Scanned inEscape ('\\' :: c :: rest)
  | cut : Scanned true ['\\']

-- One character

theorem scanQuoted_char {c : Char} (notQuote : c ≠ '"') (notEscape : c ≠ '\\') (rest : Text) :
    scanQuoted false (c :: rest) = (scanQuoted false rest).map fun (inner, left) => (c :: inner, left) := by
  rw [scanQuoted, if_neg fun quote => notQuote quote.1, decide_eq_false notEscape, Bool.false_and]

theorem scanQuoted_backslash (rest : Text) :
    scanQuoted false ('\\' :: rest) = (scanQuoted true rest).map fun (inner, left) => ('\\' :: inner, left) := by
  rw [scanQuoted, if_neg fun quote => absurd quote.1 (by decide)]
  rfl

theorem scanQuoted_escaped (c : Char) (rest : Text) :
    scanQuoted true (c :: rest) = (scanQuoted false rest).map fun (inner, left) => (c :: inner, left) := by
  rw [scanQuoted, if_neg fun quote => Bool.noConfusion quote.2, Bool.not_true, Bool.and_false]

theorem scanQuoted_quote (rest : Text) : scanQuoted false ('"' :: rest) = some ([], rest) := by
  rw [scanQuoted, if_pos ⟨rfl, rfl⟩]

-- Tokens

theorem scanQuoted_complete {inEscape : Bool} {w : Text} (body : Scanned inEscape w) (ends : inEscape = false)
    (rest : Text) : scanQuoted false (w ++ '"' :: rest) = some (w, rest) := by
  induction body with
  | nil => exact scanQuoted_quote rest
  | char notQuote notEscape _ ih =>
    rw [List.cons_append, scanQuoted_char notQuote notEscape, ih ends]
    rfl
  | escape _ ih =>
    rw [List.cons_append, List.cons_append, scanQuoted_backslash, scanQuoted_escaped, ih ends]
    rfl
  | cut => cases ends

theorem scanQuoted_open {inEscape : Bool} {t : Text} (body : Scanned inEscape t) : scanQuoted false t = none := by
  induction body with
  | nil => rfl
  | char notQuote notEscape _ ih =>
    rw [scanQuoted_char notQuote notEscape, ih]
    rfl
  | escape _ ih =>
    rw [scanQuoted_backslash, scanQuoted_escaped, ih]
    rfl
  | cut => rfl

def unread (prevBs : Bool) (s : Text) : Text := if prevBs then '\\' :: s else s

theorem scanQuoted_sound {prevBs : Bool} {s w rest : Text} (found : scanQuoted prevBs s = some (w, rest)) :
    s = w ++ '"' :: rest ∧ Scanned false (unread prevBs w) := by
  induction s generalizing prevBs w with
  | nil => cases found
  | cons c s ih =>
    cases prevBs with
    | true =>
      rw [scanQuoted_escaped] at found
      obtain ⟨⟨inner, left⟩, later, same⟩ := Option.map_eq_some_iff.mp found
      cases same
      obtain ⟨rfl, body⟩ := ih later
      exact ⟨rfl, .escape body⟩
    | false =>
      by_cases quote : c = '"'
      · subst quote
        rw [scanQuoted_quote] at found
        cases found
        exact ⟨rfl, .nil⟩
      by_cases escape : c = '\\'
      · subst escape
        rw [scanQuoted_backslash] at found
        obtain ⟨⟨inner, left⟩, later, same⟩ := Option.map_eq_some_iff.mp found
        cases same
        obtain ⟨rfl, body⟩ := ih later
        exact ⟨rfl, body⟩
      · rw [scanQuoted_char quote escape] at found
        obtain ⟨⟨inner, left⟩, later, same⟩ := Option.map_eq_some_iff.mp found
        cases same
        obtain ⟨rfl, body⟩ := ih later
        exact ⟨rfl, .char quote escape body⟩

/-- A token is what is read up to its quote, and no more. -/
theorem scanQuoted_iff {s w rest : Text} :
    scanQuoted false s = some (w, rest) ↔ Scanned false w ∧ s = w ++ '"' :: rest := by
  constructor
  · intro found
    obtain ⟨shape, body⟩ := scanQuoted_sound found
    exact ⟨body, shape⟩
  · rintro ⟨body, rfl⟩
    exact scanQuoted_complete body rfl rest

theorem scanned_of_none {prevBs : Bool} {s : Text} (found : scanQuoted prevBs s = none) :
    ∃ inEscape, Scanned inEscape (unread prevBs s) := by
  induction s generalizing prevBs with
  | nil =>
    cases prevBs with
    | true => exact ⟨true, .cut⟩
    | false => exact ⟨false, .nil⟩
  | cons c s ih =>
    cases prevBs with
    | true =>
      rw [scanQuoted_escaped, Option.map_eq_none_iff] at found
      obtain ⟨inEscape, body⟩ := ih found
      exact ⟨inEscape, .escape body⟩
    | false =>
      by_cases quote : c = '"'
      · subst quote
        rw [scanQuoted_quote] at found
        cases found
      by_cases escape : c = '\\'
      · subst escape
        rw [scanQuoted_backslash, Option.map_eq_none_iff] at found
        exact ih found
      · rw [scanQuoted_char quote escape, Option.map_eq_none_iff] at found
        obtain ⟨inEscape, body⟩ := ih found
        exact ⟨inEscape, .char quote escape body⟩

theorem scanQuoted_none_iff {s : Text} : scanQuoted false s = none ↔ ∃ inEscape, Scanned inEscape s := by
  constructor
  · exact scanned_of_none
  · rintro ⟨inEscape, body⟩
    exact scanQuoted_open body

-- White space in front

theorem parseDquoted_quoted {white : Text} (blank : white.all Text.isWhitespace = true) (rest : Text) :
    parseDquoted (white ++ '"' :: rest) = scanQuoted false rest := by
  have start : Text.trimStart (white ++ '"' :: rest) = '"' :: rest := by
    rw [Text.trimStart, Text.dropWhile_of_white blank]
    rfl
  rw [parseDquoted, start]
  rfl

theorem parseDquoted_sound {s w rest : Text} (found : parseDquoted s = some (w, rest)) :
    ∃ white, s = white ++ '"' :: (w ++ '"' :: rest) := by
  have whole : s.takeWhile Text.isWhitespace ++ Text.trimStart s = s := List.takeWhile_append_dropWhile
  rw [parseDquoted] at found
  cases start : Text.trimStart s with
  | nil =>
    rw [start] at found
    cases found
  | cons c inner =>
    rw [start] at found whole
    by_cases quote : c = '"'
    · subst quote
      obtain ⟨-, rfl⟩ := scanQuoted_iff.mp found
      exact ⟨_, whole.symm⟩
    · simp [quote] at found

/-- A quoted text is cut at its own quote whatever follows, and one that is not closed is no token. -/
theorem parseDquoted_cuts (white : Text) (blank : white.all Text.isWhitespace = true) :
    (∀ w rest, Scanned false w → parseDquoted (white ++ '"' :: (w ++ '"' :: rest)) = some (w, rest)) ∧
      ∀ t inEscape, Scanned inEscape t → parseDquoted (white ++ '"' :: t) = none := by
  constructor
  · intro w rest body
    rw [parseDquoted_quoted blank, scanQuoted_iff]
    exact ⟨body, rfl⟩
  · intro t inEscape body
    rw [parseDquoted_quoted blank, scanQuoted_none_iff]
    exact ⟨inEscape, body⟩

/-- An escaped quote and an escaped backslash before the end of an operator. -/
theorem parseDquoted_cuts_operator :
    parseDquoted "  \"@rx \\\"\\\\\" \"id:1\"".toList = some ("@rx \\\"\\\\".toList, " \"id:1\"".toList) ∧
      parseDquoted "  \"@rx \\\\\\\"".toList = none := by
  obtain ⟨closed, unclosed⟩ := parseDquoted_cuts [' ', ' '] rfl
  have start {inEscape : Bool} {rest : Text} (scanned : Scanned inEscape rest) :
      Scanned inEscape ('@' :: 'r' :: 'x' :: ' ' :: rest) :=
    .char (by decide) (by decide) (.char (by decide) (by decide) (.char (by decide) (by decide)
      (.char (by decide) (by decide) scanned)))
  exact ⟨closed _ _ (start (.escape (.escape .nil))), unclosed _ false (start (.escape (.escape .nil)))⟩

end MiniWaf.Crs
