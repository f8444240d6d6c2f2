import MiniWaf.Std.Decimal

/-! Lines and words of texts, as Rust's `str` cuts them. -/

set_option autoImplicit false

namespace MiniWaf.Text

/-- `str::lines`: a carriage return goes with the newline after it, and a last line that is empty is none. -/
def lines (s : Text) : List Text :=
  let parts := split '\n' s
  parts.dropLast.map (fun line => (stripSuffix ['\r'] line).getD line) ++ parts.getLast?.toList.filter (· ≠ [])

/-- `str::trim_start`. -/
def trimStart (s : Text) : Text := s.dropWhile isWhitespace

/-- `str::split_whitespace`, with the word that is being read. -/
def wordsFrom : (word : Text) → Text → List Text
  | word, [] => if word = [] then [] else [word]
  | word, c :: rest =>
    if isWhitespace c then (if word = [] then wordsFrom [] rest else word :: wordsFrom [] rest)
    else wordsFrom (word ++ [c]) rest

def words (s : Text) : List Text := wordsFrom [] s

/-- The text before the first white space and the text from there, if there is any. -/
def splitSpace (s : Text) : Option (Text × Text) :=
  let rest := s.dropWhile fun c => !isWhitespace c
  if rest = [] then none else some (s.takeWhile fun c => !isWhitespace c, rest)

/-- `str::rsplit_once` at a character. -/
def rsplitOnce (c : Char) (s : Text) : Option (Text × Text) :=
  (splitOnce c s.reverse).map fun (back, front) => (front.reverse, back.reverse)

/-- `str::strip_prefix`. -/
def stripStart (start s : Text) : Option Text :=
  if start.isPrefixOf s then some (s.drop start.length) else none

/-- `str::trim_start_matches` of a non-empty text; `limit` bounds the number of repetitions. -/
def trimStartMatchesFrom (start : Text) : (limit : Nat) → Text → Text
  | 0, s => s
  | limit + 1, s =>
    match stripStart start s with
    | some rest => trimStartMatchesFrom start limit rest
    | none => s

def trimStartMatches (start s : Text) : Text := trimStartMatchesFrom start s.length s

/-- `str::parse` of an unsigned type: a leading plus is allowed, and `bound` is out of range. -/
def parseUnsigned (bound : Nat) (s : Text) : Option Nat :=
  let digits := match s with
    | '+' :: digits => digits
    | digits => digits
  (parseNat digits).filter (· < bound)

def parseU32 (s : Text) : Option UInt32 := (parseUnsigned (2 ^ 32) s).map UInt32.ofNat

theorem parseUnsigned_ofNat {bound n : Nat} (small : n < bound) : parseUnsigned bound (ofNat n) = some n := by
  have unsigned : parseUnsigned bound (ofNat n) = (parseNat (ofNat n)).filter (· < bound) := by
    rw [parseUnsigned]
    intro rest plus
    have digit : '+'.isDigit = true := isDigit_of_mem_ofNat (n := n) (plus ▸ List.mem_cons_self)
    cases digit
  rw [unsigned, parseNat_ofNat]
  exact Option.filter_some_pos (decide_eq_true small)

theorem parseU32_ofNat (n : UInt32) : parseU32 (ofNat n.toNat) = some n := by
  rw [parseU32, parseUnsigned_ofNat n.toNat_lt, Option.map_some, UInt32.ofNat_toNat]

-- Pieces

theorem exists_split (c : Char) (s : Text) : ∃ piece more, split c s = piece :: more := by
  cases s with
  | nil => exact ⟨[], [], rfl⟩
  | cons d rest =>
    rw [split]
    by_cases here : d = c
    · rw [if_pos here]
      exact ⟨[], split c rest, rfl⟩
    · rw [if_neg here]
      split
      · exact ⟨_, _, rfl⟩
      · exact ⟨_, _, rfl⟩

theorem split_cons_self (c : Char) (rest : Text) : split c (c :: rest) = [] :: split c rest := by
  rw [split, if_pos rfl]

theorem split_cons_of_ne {c d : Char} (other : d ≠ c) {rest piece : Text} {more : List Text}
    (pieces : split c rest = piece :: more) : split c (d :: rest) = (d :: piece) :: more := by
  rw [split, if_neg other, pieces]

theorem rsplitOnce_append {c : Char} {back : Text} (absent : c ∉ back) (front : Text) :
    rsplitOnce c (front ++ c :: back) = some (front, back) := by
  have backward : c ∉ back.reverse := by rwa [List.mem_reverse]
  have shape : (front ++ c :: back).reverse = back.reverse ++ c :: front.reverse := by simp
  rw [rsplitOnce, shape, splitOnce_append backward, Option.map_some]
  exact congrArg some (Prod.ext (List.reverse_reverse front) (List.reverse_reverse back))

theorem rsplitOnce_some {c : Char} {s front back : Text} (split : rsplitOnce c s = some (front, back)) :
    c ∉ back ∧ s = front ++ c :: back := by
  obtain ⟨⟨later, before⟩, found, same⟩ := Option.map_eq_some_iff.mp split
  cases same
  obtain ⟨absent, shape⟩ := splitOnce_some found
  constructor
  · rwa [List.mem_reverse]
  · have forward := congrArg List.reverse shape
    simpa using forward

theorem rsplitOnce_none {c : Char} {s : Text} (whole : rsplitOnce c s = none) : c ∉ s := by
  rw [rsplitOnce, Option.map_eq_none_iff] at whole
  have absent := splitOnce_none whole
  rwa [List.mem_reverse] at absent

theorem splitSpace_some {s word rest : Text} (found : splitSpace s = some (word, rest)) : s = word ++ rest := by
  have whole : (s.takeWhile fun c => !isWhitespace c) ++ (s.dropWhile fun c => !isWhitespace c) = s :=
    List.takeWhile_append_dropWhile
  rw [splitSpace] at found
  by_cases none : (s.dropWhile fun c => !isWhitespace c) = []
  · rw [if_pos none] at found
    cases found
  · rw [if_neg none] at found
    cases found
    exact whole.symm

theorem exists_trimStart (s : Text) : ∃ white, s = white ++ trimStart s :=
  ⟨s.takeWhile isWhitespace, List.takeWhile_append_dropWhile.symm⟩

theorem stripStart_append (start rest : Text) : stripStart start (start ++ rest) = some rest := by
  rw [stripStart, if_pos (List.isPrefixOf_iff_prefix.mpr (List.prefix_append _ _)), List.drop_left]

theorem stripStart_of_not {start s : Text} (other : ¬ start <+: s) : stripStart start s = none :=
  if_neg fun found => other (List.isPrefixOf_iff_prefix.mp found)

theorem stripStart_some {start s rest : Text} (found : stripStart start s = some rest) : s = start ++ rest := by
  by_cases front : start <+: s
  · obtain ⟨more, rfl⟩ := front
    rw [stripStart_append] at found
    rw [Option.some.inj found]
  · rw [stripStart_of_not front] at found
    cases found

theorem trimStartMatchesFrom_limit {start : Text} (nonempty : start ≠ []) {limit other : Nat} {s : Text}
    (enough : s.length ≤ limit) (too : s.length ≤ other) :
    trimStartMatchesFrom start limit s = trimStartMatchesFrom start other s := by
  have size := List.length_pos_of_ne_nil nonempty
  induction limit generalizing other s with
  | zero =>
    have empty : s = [] := List.eq_nil_of_length_eq_zero (Nat.le_zero.mp enough)
    subst empty
    cases other with
    | zero => rfl
    | succ other =>
      rw [trimStartMatchesFrom, trimStartMatchesFrom,
        stripStart_of_not fun front => nonempty (List.prefix_nil.mp front)]
  | succ limit ih =>
    rw [trimStartMatchesFrom]
    cases found : stripStart start s with
    | none =>
      cases other with
      | zero => rfl
      | succ other => rw [trimStartMatchesFrom, found]
    | some rest =>
      have shape := congrArg List.length (stripStart_some found)
      rw [List.length_append] at shape
      cases other with
      | zero => omega
      | succ other =>
        rw [trimStartMatchesFrom, found]
        exact ih (by omega) (by omega)

theorem trimStartMatches_append {start : Text} (nonempty : start ≠ []) (rest : Text) :
    trimStartMatches start (start ++ rest) = trimStartMatches start rest := by
  have size := List.length_pos_of_ne_nil nonempty
  obtain ⟨limit, enough⟩ : ∃ limit, (start ++ rest).length = limit + 1 :=
    ⟨start.length + rest.length - 1, by rw [List.length_append]; omega⟩
  have room : rest.length ≤ limit := by
    rw [List.length_append] at enough
    omega
  rw [trimStartMatches, enough, trimStartMatchesFrom, stripStart_append]
  exact trimStartMatchesFrom_limit nonempty room (Nat.le_refl _)

theorem trimStartMatches_of_not {start s : Text} (other : ¬ start <+: s) : trimStartMatches start s = s := by
  rw [trimStartMatches]
  cases s with
  | nil => rfl
  | cons c s => rw [List.length_cons, trimStartMatchesFrom, stripStart_of_not other]

def Tight (s : Text) : Prop := ∀ c, s.head? = some c ∨ s.getLast? = some c → isWhitespace c = false

theorem tight_iff (s : Text) :
    (s.head?.toList ++ s.getLast?.toList).all (fun c => !isWhitespace c) = true ↔ Tight s := by
  simp only [List.all_eq_true, List.mem_append, Option.mem_toList, Bool.not_eq_true', Tight]

instance : DecidablePred Tight := fun s => decidable_of_iff _ (tight_iff s)

theorem dropWhile_of_tight {s : Text} (tight : ∀ c, s.head? = some c → isWhitespace c = false) :
    s.dropWhile isWhitespace = s := by
  cases s with
  | nil => rfl
  | cons c s => rw [List.dropWhile_cons, if_neg (by rw [tight c rfl]; decide)]

theorem dropWhile_of_white {s : Text} (white : s.all isWhitespace = true) (rest : Text) :
    (s ++ rest).dropWhile isWhitespace = rest.dropWhile isWhitespace :=
  List.dropWhile_append_of_pos fun c member => List.all_eq_true.mp white c member

theorem exists_trim (s : Text) : ∃ before after : Text, before.all isWhitespace = true ∧
    after.all isWhitespace = true ∧ s = before ++ (trim s ++ after) := by
  refine ⟨s.takeWhile isWhitespace, ((s.dropWhile isWhitespace).reverse.takeWhile isWhitespace).reverse,
    List.all_takeWhile, ?_, ?_⟩
  · rw [List.all_reverse]
    exact List.all_takeWhile
  · rw [trim, ← List.reverse_append, List.takeWhile_append_dropWhile, List.reverse_reverse,
      List.takeWhile_append_dropWhile]

theorem not_mem_of_white {white : Text} (all : white.all isWhitespace = true) {c : Char}
    (black : isWhitespace c = false) : c ∉ white := by
  intro member
  rw [List.all_eq_true.mp all c member] at black
  cases black

theorem mem_trim {c : Char} {s : Text} (member : c ∈ s) (black : isWhitespace c = false) : c ∈ trim s := by
  obtain ⟨before, after, front, back, shape⟩ := exists_trim s
  rw [shape, List.mem_append, List.mem_append] at member
  rcases member with inFront | inside | inBack
  · exact absurd inFront (not_mem_of_white front black)
  · exact inside
  · exact absurd inBack (not_mem_of_white back black)

/-- White space around a text is trimmed, and no more. -/
theorem trim_padded {before body after : Text} (front : before.all isWhitespace = true)
    (back : after.all isWhitespace = true) (tight : Tight body) : trim (before ++ (body ++ after)) = body := by
  have backward : after.reverse.all isWhitespace = true := by rwa [List.all_reverse]
  rw [trim, dropWhile_of_white front]
  cases body with
  | nil =>
    have gone := dropWhile_of_white back []
    rw [List.append_nil] at gone
    rw [List.nil_append, gone]
    rfl
  | cons c rest =>
    have first : isWhitespace c = false := tight c (.inl rfl)
    rw [List.cons_append, List.dropWhile_cons, if_neg (by rw [first]; decide), ← List.cons_append, List.reverse_append,
      dropWhile_of_white backward, dropWhile_of_tight, List.reverse_reverse]
    intro d last
    rw [List.head?_reverse] at last
    exact tight d (.inr last)

theorem trim_of_tight {s : Text} (tight : Tight s) : trim s = s := by
  have padded : trim ([] ++ (s ++ [])) = s := trim_padded rfl rfl tight
  rwa [List.nil_append, List.append_nil] at padded

theorem tight_append {front back : Text} (begins : ∃ c, front.head? = some c ∧ isWhitespace c = false)
    (ends : ∃ c, back.getLast? = some c ∧ isWhitespace c = false) : Tight (front ++ back) := by
  obtain ⟨c, head, black⟩ := begins
  obtain ⟨d, last, solid⟩ := ends
  rintro e (first | final)
  · rw [List.head?_append, head, Option.some_or, Option.some.injEq] at first
    exact first ▸ black
  · rw [List.getLast?_append, last, Option.some_or, Option.some.injEq] at final
    exact final ▸ solid

-- Pieces of a text

theorem lines_cons {line : Text} (unbroken : '\n' ∉ line) (rest : Text) :
    lines (line ++ '\n' :: rest) = (stripSuffix ['\r'] line).getD line :: lines rest := by
  obtain ⟨first, more, parts⟩ := exists_split '\n' rest
  rw [lines, split_append unbroken, lines, parts]
  rfl

theorem tight_trim (s : Text) : Tight (trim s) := by
  have front : ∀ c, (s.dropWhile isWhitespace).head? = some c → isWhitespace c = false := by
    intro c head
    have shown := List.head?_dropWhile_not isWhitespace s
    rw [head] at shown
    exact shown
  intro c ends
  rcases ends with head | last
  · refine front c ?_
    have start : trim s <+: s.dropWhile isWhitespace := by
      have tail := List.dropWhile_suffix isWhitespace (l := (s.dropWhile isWhitespace).reverse)
      have turned := List.reverse_prefix.mpr tail
      rwa [List.reverse_reverse] at turned
    obtain ⟨more, whole⟩ := start
    rw [← whole, List.head?_append, head]
    rfl
  · rw [trim, List.getLast?_reverse] at last
    have shown := List.head?_dropWhile_not isWhitespace (s.dropWhile isWhitespace).reverse
    rw [last] at shown
    exact shown

def Solid (s : Text) : Prop := s.all (fun c => !isWhitespace c) = true

theorem Solid.tight {s : Text} (solid : Solid s) : Tight s := by
  intro c ends
  have member : c ∈ s := ends.elim List.mem_of_mem_head? List.mem_of_mem_getLast?
  simpa using List.all_eq_true.mp solid c member

theorem splitSpace_append {word : Text} (solid : Solid word) {c : Char} (white : isWhitespace c = true) (rest : Text) :
    splitSpace (word ++ c :: rest) = some (word, c :: rest) := by
  have past : ∀ d ∈ word, (!isWhitespace d) = true := List.all_eq_true.mp solid
  have dropped : (c :: rest).dropWhile (fun d => !isWhitespace d) = c :: rest := by simp [white]
  have taken : (c :: rest).takeWhile (fun d => !isWhitespace d) = [] := by simp [white]
  rw [splitSpace, List.dropWhile_append_of_pos past, List.takeWhile_append_of_pos past, dropped, taken, List.append_nil]
  exact if_neg (List.cons_ne_nil c rest)

theorem splitSpace_solid {word : Text} (solid : Solid word) : splitSpace word = none := by
  rw [splitSpace]
  have gone : (word ++ []).dropWhile (fun c => !isWhitespace c) = [] :=
    List.dropWhile_append_of_pos (List.all_eq_true.mp solid)
  rw [List.append_nil] at gone
  exact if_pos gone

inductive Spaced : List Text → Text → Prop where
  | nil : Spaced [] []
  | one {word : Text} : word ≠ [] → Solid word → Spaced [word] word
  | more {word white rest : Text} {words : List Text} : word ≠ [] → Solid word → white ≠ [] →
      white.all isWhitespace = true → Spaced words rest → Spaced (word :: words) (word ++ (white ++ rest))

theorem wordsFrom_solid {chars : Text} (solid : Solid chars) (word rest : Text) :
    wordsFrom word (chars ++ rest) = wordsFrom (word ++ chars) rest := by
  induction chars generalizing word with
  | nil => rw [List.nil_append, List.append_nil]
  | cons c chars ih =>
    rw [Solid, List.all_cons, Bool.and_eq_true, Bool.not_eq_true'] at solid
    rw [List.cons_append, wordsFrom, solid.1, if_neg Bool.false_ne_true, ih solid.2, List.append_assoc]
    rfl

theorem wordsFrom_white {white : Text} (blank : white.all isWhitespace = true) (rest : Text) :
    wordsFrom [] (white ++ rest) = wordsFrom [] rest := by
  induction white with
  | nil => rfl
  | cons c white ih =>
    rw [List.all_cons, Bool.and_eq_true] at blank
    rw [List.cons_append, wordsFrom, if_pos blank.1, if_pos rfl, ih blank.2]

theorem words_spaced {words : List Text} {text : Text} (spaced : Spaced words text) : Text.words text = words := by
  rw [Text.words]
  induction spaced with
  | nil => rfl
  | one some solid =>
    rename_i word
    have read := wordsFrom_solid solid [] []
    rw [List.append_nil, List.nil_append, wordsFrom, if_neg some] at read
    exact read
  | more some solid gap blank _ ih =>
    rename_i word white rest words
    obtain ⟨c, white, rfl⟩ := List.exists_cons_of_ne_nil gap
    rw [List.all_cons, Bool.and_eq_true] at blank
    rw [wordsFrom_solid solid, List.nil_append, List.cons_append, wordsFrom, if_pos blank.1, if_neg some,
      wordsFrom_white blank.2, ih]

end MiniWaf.Text
