import MiniWaf.Grl.Shape
import MiniWaf.Std.Replace

/-! String literals on their way from the converter to the engine. The converter
has two ways to write a string, the parser one way to read it.
-/

set_option autoImplicit false

namespace MiniWaf.Grl

open Peg

/-- The text is one string token, with nothing left over, that reads as the string. -/
structure Survives (text : Text) (s : String) : Prop where
  token : string text = some (text, [])
  value : unquote text = s

-- Tokens

theorem quoteItem_cases {s rest item : Text} (read : quoteItem s = some (item, rest)) :
    (item = ['\\', '"'] ∧ s = '\\' :: '"' :: rest) ∨
      ∃ c, c ≠ '"' ∧ item = [c] ∧ s = c :: rest ∧ ¬ ['\\', '"'] <+: s := by
  cases s with
  | nil => cases read
  | cons c s =>
    by_cases isQuote : c = '"'
    · subst isQuote
      rw [quoteItem_quote] at read
      cases read
    · by_cases isPair : ['\\', '"'] <+: c :: s
      · obtain ⟨tail, whole⟩ := isPair
        have shape : '\\' :: '"' :: tail = c :: s := whole
        rw [← shape, quoteItem_pair] at read
        cases read
        exact .inl ⟨rfl, shape.symm⟩
      · rw [quoteItem_single isQuote isPair] at read
        cases read
        exact .inr ⟨c, isQuote, rfl, rfl, isPair⟩

theorem consuming_quoteItem : Consuming quoteItem := by
  intro s item rest read
  obtain ⟨-, rfl⟩ | ⟨c, -, -, rfl, -⟩ := quoteItem_cases read
  · simp only [List.length_cons]
    omega
  · simp

theorem closes_of_many {s more : Text} {items : List Text} (read : many quoteItem s = some (items, '"' :: more)) :
    closes items.flatten = true ∧ s = items.flatten ++ '"' :: more := by
  induction length : s.length using Nat.strongRecOn generalizing s items with
  | ind n ih =>
    cases first : quoteItem s with
    | none =>
      rw [many_of_none first] at read
      cases read
      exact ⟨rfl, rfl⟩
    | some result =>
      obtain ⟨item, rest⟩ := result
      have shorter := consuming_quoteItem s item rest first
      obtain ⟨later, left, readRest⟩ : ∃ later left, many quoteItem rest = some (later, left) := ⟨_, _, rfl⟩
      rw [many_of_some first shorter readRest] at read
      cases read
      obtain ⟨closed, whole⟩ := ih rest.length (by omega) readRest rfl
      obtain ⟨rfl, rfl⟩ | ⟨c, notQuote, rfl, rfl, notPair⟩ := quoteItem_cases first
      · exact ⟨closed, by rw [whole]; rfl⟩
      · refine ⟨?_, by rw [whole]; rfl⟩
        rw [List.flatten_cons, List.singleton_append, closes]
        · exact closed
        · exact notQuote
        · rintro tail rfl inner
          exact notPair ⟨tail ++ '"' :: more, by rw [whole, inner]; rfl⟩
        · rintro rfl inner
          exact notPair ⟨more, by rw [whole, inner]; rfl⟩

/-- A text between quotes is one token exactly if its body closes. -/
theorem string_quoted_iff (body : Text) : string (quoted body) = some (quoted body, []) ↔ closes body = true := by
  constructor
  · intro read
    have shape : quoted body = ['"'] ++ (body ++ ['"']) := by simp [quoted]
    rw [string, shape, bind_of_some _ (word_append _ _)] at read
    obtain ⟨inner, middle, readInner, read⟩ := exists_of_bind read
    obtain ⟨_, left, readQuote, read⟩ := exists_of_bind read
    have front := eq_append_of_word readQuote
    rw [pure_run, Option.some.injEq, Prod.mk.injEq] at read
    obtain ⟨same, rfl⟩ := read
    have sameBody : inner = body := by
      have tails := (List.cons.inj same).2
      exact List.append_cancel_right tails
    rw [innerStr_eq] at readInner
    obtain ⟨items, readItems, flat⟩ := exists_of_map readInner
    rw [front] at readItems
    rw [← sameBody, ← flat]
    exact (closes_of_many readItems).1
  · intro closed
    have run := string_run closed []
    rwa [List.append_nil] at run

-- Values

/-- Code words of which only that of the quote holds a quote, behind a backslash. -/
structure Code (w : Char → Text) : Prop where
  quote : w '"' = ['\\', '"']
  clear : ∀ c, c ≠ '"' → '"' ∉ w c
  nonempty : ∀ c, w c ≠ []

def unquoted (w : Char → Text) (c : Char) : Text := if c = '"' then ['"'] else w c

variable {w : Char → Text}

theorem Code.head (code : Code w) (s : Text) : (s.flatMap w).head? ≠ some '"' := by
  intro head
  obtain ⟨c, -, found⟩ := Text.head_flatMap head
  by_cases isQuote : c = '"'
  · rw [isQuote, code.quote] at found
    cases found
  · exact code.clear c isQuote (List.mem_of_mem_head? found)

theorem Code.last (code : Code w) {s : Text} (notQuote : s.getLast? ≠ some '"') : (s.flatMap w).getLast? ≠ some '"' := by
  induction s using List.reverseRecOn with
  | nil => exact notQuote
  | append_singleton s c _ =>
    rw [List.getLast?_concat] at notQuote
    have other : c ≠ '"' := fun same => notQuote (congrArg some same)
    rw [List.flatMap_append, List.flatMap_singleton, List.getLast?_append_of_ne_nil _ (code.nonempty c)]
    exact fun last => code.clear c other (List.mem_of_getLast? last)

theorem Code.undo_quotes (code : Code w) (s : Text) :
    Text.replace ['\\', '"'] ['"'] (s.flatMap w) = s.flatMap (unquoted w) := by
  apply Text.replace_flatMap code.quote
  · intro c _ notQuote inside
    exact code.clear c notQuote (inside.subset (by simp))
  · intro c _ _ _ e _ head
    exact code.head [e] (by rwa [List.flatMap_singleton])

theorem Code.unquote_eq (code : Code w) {s : Text} (notQuote : s.getLast? ≠ some '"') :
    (unquote (quoted (s.flatMap w))).toList =
      Text.replace ['\\', 't'] ['\t'] (Text.replace ['\\', 'n'] ['\n'] (s.flatMap (unquoted w))) := by
  rw [unquote, quoted, List.cons_append, Text.trimMatches_cons, Text.trimMatches_concat,
    Text.trimMatches_of_ends (code.head s) (code.last notQuote), code.undo_quotes, String.toList_ofList]

/-- A quote at the end goes with the quotes around the text, and its backslash stays. -/
theorem Code.unquote_ne (code : Code w) (s : Text) :
    unquote (quoted ((s ++ ['"']).flatMap w)) ≠ String.ofList (s ++ ['"']) := by
  intro same
  have ends := congrArg (fun v : String => v.toList.getLast?) same
  have front : (s.flatMap w ++ ['\\']).head? ≠ some '"' := by
    cases shape : s.flatMap w with
    | nil => decide
    | cons c rest =>
      have head := code.head s
      rwa [shape] at head
  have back : (s.flatMap w ++ ['\\']).getLast? ≠ some '"' := by
    rw [List.getLast?_concat]
    decide
  have body : (s ++ ['"']).flatMap w = s.flatMap w ++ ['\\'] ++ ['"'] := by
    rw [List.flatMap_append, List.flatMap_singleton, code.quote, List.append_assoc]
    rfl
  simp only [unquote, quoted, body, List.cons_append, Text.trimMatches_cons, Text.trimMatches_concat] at ends
  rw [Text.trimMatches_of_ends front back, Text.replace_concat (by decide), Text.replace_concat (by decide),
    Text.replace_concat (by decide), String.toList_ofList, String.toList_ofList, List.getLast?_concat,
    List.getLast?_concat] at ends
  cases ends

theorem survives_quoted_iff (body : Text) (s : String) :
    Survives (quoted body) s ↔ closes body = true ∧ unquote (quoted body) = s := by
  constructor
  · rintro ⟨token, value⟩
    exact ⟨(string_quoted_iff body).mp token, value⟩
  · rintro ⟨closed, value⟩
    exact ⟨(string_quoted_iff body).mpr closed, value⟩

theorem eq_of_last_quote {s : String} (last : s.toList.getLast? = some '"') : ∃ t, s = String.ofList (t ++ ['"']) := by
  obtain ⟨t, shape⟩ := List.getLast?_eq_some_iff.mp last
  exact ⟨t, by rw [← shape, String.ofList_toList]⟩

-- `grl_string_literal`

theorem code_escape : Code fun c => if c = '"' then ['\\', '"'] else [c] where
  quote := rfl
  clear c notQuote := by simpa [notQuote] using Ne.symm notQuote
  nonempty c := by split <;> simp

theorem closes_backslash (t : Text) : closes (t ++ ['\\']) = false := by
  fun_induction closes t with
  | case1 => rfl
  | case2 rest => rfl
  | case3 rest ih => exact ih
  | case4 => rfl
  | case5 c rest notQuote notPair notLast ih =>
    rw [List.cons_append, closes]
    · exact ih
    · exact notQuote
    · intro tail same inner
      cases rest with
      | nil => cases inner
      | cons d rest =>
        obtain ⟨rfl, rfl⟩ := List.cons.inj inner
        exact notPair rest same rfl
    · intro _ inner
      cases rest <;> cases inner

theorem closes_escape_iff (s : String) : closes (escapeQuotes s) = true ↔ s.toList.getLast? ≠ some '\\' := by
  unfold escapeQuotes
  constructor
  · intro closed last
    obtain ⟨t, shape⟩ := List.getLast?_eq_some_iff.mp last
    rw [shape, List.flatMap_append, List.flatMap_singleton, if_neg (by decide), closes_backslash] at closed
    cases closed
  · generalize s.toList = t
    intro notBackslash
    induction t with
    | nil => rfl
    | cons c t ih =>
      rw [List.getLast?_cons] at notBackslash
      have tail : t.getLast? ≠ some '\\' := by
        intro last
        rw [last] at notBackslash
        exact notBackslash rfl
      rw [List.flatMap_cons]
      by_cases isQuote : c = '"'
      · subst isQuote
        exact ih tail
      · rw [if_neg isQuote, List.singleton_append, closes]
        · exact ih tail
        · exact isQuote
        · intro rest _ inner
          have head := code_escape.head t
          rw [inner] at head
          exact head rfl
        · rintro rfl inner
          have empty : t = [] := by
            cases t with
            | nil => rfl
            | cons d t =>
              rw [List.flatMap_cons, List.append_eq_nil_iff] at inner
              exact absurd inner.1 (code_escape.nonempty d)
          rw [empty] at notBackslash
          exact notBackslash rfl

/-- What `grl_string_literal` gets through: no backslash in front of an `n` or a `t` or at the end, no quote at the end. -/
structure EscapeSafe (s : String) : Prop where
  quote : s.toList.getLast? ≠ some '"'
  backslash : s.toList.getLast? ≠ some '\\'
  newline : ¬ ['\\', 'n'] <:+: s.toList
  tab : ¬ ['\\', 't'] <:+: s.toList

theorem unquote_escape_iff {s : String} (notQuote : s.toList.getLast? ≠ some '"') :
    unquote (quoted (escapeQuotes s)) = s ↔ ¬ ['\\', 'n'] <:+: s.toList ∧ ¬ ['\\', 't'] <:+: s.toList := by
  have plain : s.toList.flatMap (unquoted fun c => if c = '"' then ['\\', '"'] else [c]) = s.toList := by
    have single : (unquoted fun c => if c = '"' then ['\\', '"'] else [c]) = fun c => [c] := by
      funext c
      by_cases isQuote : c = '"' <;> simp [unquoted, isQuote]
    rw [single]
    simp
  have read := code_escape.unquote_eq notQuote
  rw [plain] at read
  rw [← String.toList_inj, escapeQuotes, read]
  constructor
  · intro same
    have sizes := congrArg List.length same
    constructor
    · intro newline
      have less : (Text.replace ['\\', 'n'] ['\n'] s.toList).length < s.toList.length :=
        Text.length_replace_lt (by decide) newline
      have more : (Text.replace ['\\', 't'] ['\t'] (Text.replace ['\\', 'n'] ['\n'] s.toList)).length ≤
          (Text.replace ['\\', 'n'] ['\n'] s.toList).length := Text.length_replace_le (by decide) _
      omega
    · intro tab
      by_cases newline : ['\\', 'n'] <:+: s.toList
      · have less : (Text.replace ['\\', 'n'] ['\n'] s.toList).length < s.toList.length :=
          Text.length_replace_lt (by decide) newline
        have more : (Text.replace ['\\', 't'] ['\t'] (Text.replace ['\\', 'n'] ['\n'] s.toList)).length ≤
            (Text.replace ['\\', 'n'] ['\n'] s.toList).length := Text.length_replace_le (by decide) _
        omega
      · rw [Text.replace_absent newline] at sizes
        have less : (Text.replace ['\\', 't'] ['\t'] s.toList).length < s.toList.length :=
          Text.length_replace_lt (by decide) tab
        omega
  · rintro ⟨newline, tab⟩
    rw [Text.replace_absent newline, Text.replace_absent tab]

theorem escape_survives_iff (s : String) : Survives (grlStringLiteral s) s ↔ EscapeSafe s := by
  have text : grlStringLiteral s = quoted (escapeQuotes s) := rfl
  rw [text, survives_quoted_iff, closes_escape_iff]
  constructor
  · rintro ⟨backslash, value⟩
    have quote : s.toList.getLast? ≠ some '"' := by
      intro last
      obtain ⟨t, rfl⟩ := eq_of_last_quote last
      rw [escapeQuotes, String.toList_ofList] at value
      exact code_escape.unquote_ne t value
    obtain ⟨newline, tab⟩ := (unquote_escape_iff quote).mp value
    exact ⟨quote, backslash, newline, tab⟩
  · intro safe
    exact ⟨safe.backslash, (unquote_escape_iff safe.quote).mpr ⟨safe.newline, safe.tab⟩⟩

-- `Debug`

variable {platform : Platform}

theorem unicodeEscape_clear (c : Char) : '"' ∉ Platform.unicodeEscape c := by
  unfold Platform.unicodeEscape
  intro member
  simp only [List.mem_append, List.mem_cons, List.not_mem_nil, or_false] at member
  obtain (isFront | isOpening | isDigit) | isClosing := member
  · revert isFront
    decide
  · revert isOpening
    decide
  · obtain ⟨d, small, digit⟩ := Platform.hexDigit_of_mem _ _ isDigit
    have other : ∀ d < 16, '"' ≠ Nat.digitChar d := by decide
    exact other d small digit
  · revert isClosing
    decide

theorem code_debug : Code platform.debugChar where
  quote := rfl
  clear c notQuote := by
    unfold Platform.debugChar
    repeat' split
    all_goals first
      | exact unicodeEscape_clear c
      | simp [Ne.symm notQuote]
  nonempty c := by
    unfold Platform.debugChar Platform.unicodeEscape
    repeat' split
    all_goals simp

def weighs (c : Char) : Bool := c = '\\' || c = '\n' || c = '\t'

/-- The characters that `Debug` writes as themselves, or in a way the reader takes back. -/
def Restored (platform : Platform) (c : Char) : Prop :=
  platform.debugChar c = [c] ∨ c = '"' ∨ c = '\n' ∨ c = '\t'

theorem weight_unicodeEscape (c : Char) : 0 < (Platform.unicodeEscape c).countP weighs := by
  have front : "\\u".toList.countP weighs = 1 := by decide
  rw [Platform.unicodeEscape, List.countP_append, List.countP_append, front]
  omega

theorem weight_of_lost {c : Char} (lost : ¬ Restored platform c) :
    [c].countP weighs < (platform.debugChar c).countP weighs := by
  unfold Restored at lost
  simp only [not_or] at lost
  obtain ⟨escaped, notQuote, notNewline, notTab⟩ := lost
  by_cases backslash : c = '\\'
  · subst backslash
    exact (by decide : 1 < 2)
  · have light : [c].countP weighs = 0 := by simp [weighs, backslash, notNewline, notTab]
    rw [light]
    unfold Platform.debugChar at escaped ⊢
    simp only [if_neg notTab, if_neg notNewline, if_neg notQuote, if_neg backslash] at escaped ⊢
    repeat' split
    all_goals first
      | exact weight_unicodeEscape c
      | decide
      | simp_all

theorem weight_of_restored {c : Char} (restored : Restored platform c) :
    (unquoted platform.debugChar c).countP weighs = [c].countP weighs := by
  unfold unquoted
  split
  case isTrue isQuote => rw [isQuote]
  case isFalse notQuote =>
    obtain plain | isQuote | rfl | rfl := restored
    · rw [plain]
    · exact absurd isQuote notQuote
    · rfl
    · rfl

/-- What the reader takes back weighs what the string weighs only if nothing is lost. -/
theorem weight_flatMap (s : Text) : s.countP weighs ≤ (s.flatMap (unquoted platform.debugChar)).countP weighs ∧
    (s.countP weighs = (s.flatMap (unquoted platform.debugChar)).countP weighs → ∀ c ∈ s, Restored platform c) := by
  induction s with
  | nil => exact ⟨Nat.le_refl _, fun _ => by simp⟩
  | cons c s ih =>
    have split : c :: s = [c] ++ s := rfl
    rw [split, List.countP_append, List.flatMap_append, List.flatMap_singleton, List.countP_append]
    by_cases restored : Restored platform c
    · rw [weight_of_restored restored]
      constructor
      · omega
      · intro same d member
        obtain isHead | inTail := List.mem_cons.mp member
        · rw [isHead]
          exact restored
        · exact ih.2 (by omega) d inTail
    · have heavier := weight_of_lost restored
      have notQuote : c ≠ '"' := fun isQuote => restored (.inr (.inl isQuote))
      have block : unquoted platform.debugChar c = platform.debugChar c := if_neg notQuote
      rw [block]
      constructor
      · omega
      · intro same
        omega

theorem weight_unquote {s : Text} (notQuote : s.getLast? ≠ some '"') :
    (unquote (quoted (s.flatMap platform.debugChar))).toList.countP weighs =
      (s.flatMap (unquoted platform.debugChar)).countP weighs := by
  rw [code_debug.unquote_eq notQuote, Text.countP_replace (by decide), Text.countP_replace (by decide)]

theorem debugChar_of_restored {c : Char} (restored : Restored platform c) (notQuote : c ≠ '"') (notNewline : c ≠ '\n')
    (notTab : c ≠ '\t') : platform.debugChar c = [c] ∧ c ≠ '\\' := by
  have plain : platform.debugChar c = [c] := by
    obtain plain | isQuote | isNewline | isTab := restored
    · exact plain
    · exact absurd isQuote notQuote
    · exact absurd isNewline notNewline
    · exact absurd isTab notTab
  refine ⟨plain, ?_⟩
  rintro rfl
  have pair : platform.debugChar '\\' = ['\\', '\\'] := rfl
  rw [pair] at plain
  cases plain

theorem closes_debug {s : Text} (restored : ∀ c ∈ s, Restored platform c) :
    closes (s.flatMap platform.debugChar) = true := by
  induction s with
  | nil => rfl
  | cons c s ih =>
    have rest := ih fun d member => restored d (List.mem_cons_of_mem c member)
    rw [List.flatMap_cons]
    by_cases isQuote : c = '"'
    · subst isQuote
      exact rest
    by_cases isNewline : c = '\n'
    · subst isNewline
      exact rest
    by_cases isTab : c = '\t'
    · subst isTab
      exact rest
    obtain ⟨plain, notBackslash⟩ := debugChar_of_restored (restored c List.mem_cons_self) isQuote isNewline isTab
    rw [plain, List.singleton_append, closes]
    · exact rest
    · exact isQuote
    · exact fun _ isBackslash _ => notBackslash isBackslash
    · exact fun isBackslash _ => notBackslash isBackslash

theorem unquoted_of_restored {c : Char} (restored : Restored platform c) :
    (unquoted platform.debugChar c = [c] ∧ c ≠ '\\') ∨
      (c = '\n' ∧ unquoted platform.debugChar c = ['\\', 'n']) ∨
      (c = '\t' ∧ unquoted platform.debugChar c = ['\\', 't']) := by
  unfold unquoted
  by_cases isQuote : c = '"'
  · subst isQuote
    exact .inl ⟨rfl, by decide⟩
  by_cases isNewline : c = '\n'
  · subst isNewline
    exact .inr (.inl ⟨rfl, rfl⟩)
  by_cases isTab : c = '\t'
  · subst isTab
    exact .inr (.inr ⟨rfl, rfl⟩)
  rw [if_neg isQuote]
  exact .inl (debugChar_of_restored restored isQuote isNewline isTab)

/-- The reader takes a newline and a tab back after the quotes. -/
theorem undo_whitespace {s : Text} (restored : ∀ c ∈ s, Restored platform c) :
    Text.replace ['\\', 't'] ['\t'] (Text.replace ['\\', 'n'] ['\n'] (s.flatMap (unquoted platform.debugChar))) = s := by
  have newlines : Text.replace ['\\', 'n'] ['\n'] (s.flatMap (unquoted platform.debugChar)) =
      s.flatMap fun c => if c = '\n' then ['\n'] else unquoted platform.debugChar c := by
    apply Text.replace_flatMap rfl
    · intro c member notNewline
      obtain ⟨plain, -⟩ | ⟨isNewline, -⟩ | ⟨-, tab⟩ := unquoted_of_restored (restored c member)
      · rw [plain]
        exact fun inside => absurd inside.length_le (by simp)
      · exact absurd isNewline notNewline
      · rw [tab]
        decide
    · intro c member notNewline last
      obtain ⟨plain, notBackslash⟩ | ⟨isNewline, -⟩ | ⟨-, tab⟩ := unquoted_of_restored (restored c member)
      · rw [plain] at last
        exact absurd (Option.some.inj last) notBackslash
      · exact absurd isNewline notNewline
      · rw [tab] at last
        cases last
  have tabs : Text.replace ['\\', 't'] ['\t']
      (s.flatMap fun c => if c = '\n' then ['\n'] else unquoted platform.debugChar c) =
      s.flatMap fun c => if c = '\t' then ['\t'] else if c = '\n' then ['\n'] else unquoted platform.debugChar c := by
    apply Text.replace_flatMap rfl
    · intro c member notTab inside
      obtain ⟨plain, -⟩ | ⟨isNewline, -⟩ | ⟨isTab, -⟩ := unquoted_of_restored (restored c member)
      · have short := inside.length_le
        rw [plain] at short
        split at short <;> simp at short
      · rw [if_pos isNewline] at inside
        exact absurd inside.length_le (by simp)
      · exact notTab isTab
    · intro c member notTab last
      obtain ⟨plain, notBackslash⟩ | ⟨isNewline, -⟩ | ⟨isTab, -⟩ := unquoted_of_restored (restored c member)
      · rw [plain] at last
        split at last
        · cases last
        · exact absurd (Option.some.inj last) notBackslash
      · rw [if_pos isNewline] at last
        cases last
      · exact absurd isTab notTab
  rw [newlines, tabs, List.flatMap_congr (g := fun c => [c])]
  · simp
  · intro c member
    obtain ⟨plain, -⟩ | ⟨rfl, -⟩ | ⟨rfl, -⟩ := unquoted_of_restored (restored c member)
    · rw [plain]
      by_cases isTab : c = '\t'
      · rw [if_pos isTab, isTab]
      by_cases isNewline : c = '\n'
      · rw [if_neg isTab, if_pos isNewline, isNewline]
      · rw [if_neg isTab, if_neg isNewline]
    · rfl
    · rfl

/-- What `Debug` quoting gets through: no quote at the end, and no character that it writes in a way the reader
does not take back, such as a backslash. -/
structure DebugSafe (platform : Platform) (s : String) : Prop where
  quote : s.toList.getLast? ≠ some '"'
  restored : ∀ c ∈ s.toList, Restored platform c

theorem debug_survives_iff (s : String) : Survives (platform.debug s) s ↔ DebugSafe platform s := by
  have text : platform.debug s = quoted (s.toList.flatMap platform.debugChar) := rfl
  rw [text, survives_quoted_iff]
  constructor
  · rintro ⟨-, value⟩
    have quote : s.toList.getLast? ≠ some '"' := by
      intro last
      obtain ⟨t, rfl⟩ := eq_of_last_quote last
      rw [String.toList_ofList] at value
      exact code_debug.unquote_ne t value
    have weight : (unquote (quoted (s.toList.flatMap platform.debugChar))).toList.countP weighs =
        (s.toList.flatMap (unquoted platform.debugChar)).countP weighs := weight_unquote quote
    rw [value] at weight
    exact ⟨quote, (weight_flatMap s.toList).2 weight⟩
  · rintro ⟨quote, restored⟩
    have value := code_debug.unquote_eq (w := platform.debugChar) quote
    rw [undo_whitespace restored] at value
    exact ⟨closes_debug restored, String.toList_inj.mp value⟩

/-- A string literal reads back as the string exactly if the string is safe for the quoting. -/
theorem literals_survive_iff (platform : Platform) (s : String) :
    (Survives (platform.debug s) s ↔ DebugSafe platform s) ∧ (Survives (grlStringLiteral s) s ↔ EscapeSafe s) :=
  ⟨debug_survives_iff s, escape_survives_iff s⟩

/-- `{:?}` doubles the backslash of a regex operand and the reader leaves it doubled; without the doubling the
reader takes the regex for a newline for the newline itself. -/
theorem literals_lost :
    ¬ Survives (Platform.plain.debug "\\d") "\\d" ∧ ¬ Survives (grlStringLiteral "\\n") "\\n" := by
  constructor
  · rintro ⟨-, value⟩
    revert value
    decide +kernel
  · rintro ⟨-, value⟩
    revert value
    decide +kernel

end MiniWaf.Grl
