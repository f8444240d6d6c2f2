import MiniWaf.Grl.Parser
import MiniWaf.Std.Decimal

/-! Readings of whitespace, comments and atoms. -/

set_option autoImplicit false

namespace MiniWaf.Grl

open Peg

-- Implicit whitespace

def skipped (s : Text) : Text := (manyFrom (whitespace <|> comment) s.length s).2

theorem skip_run (s : Text) : skip s = some ((), skipped s) := rfl

theorem bind_skip {A : Type} (f : Unit → Rule A) (s : Text) : (skip >>= f) s = f () (skipped s) :=
  bind_of_some f (skip_run s)

theorem skipped_of_none {s : Text} (ends : (whitespace <|> comment) s = none) : skipped s = s := by
  have stop := many_of_none ends
  simp only [many, Option.some.injEq] at stop
  simp [skipped, stop]

theorem skipped_of_some {s rest : Text} (read : (whitespace <|> comment) s = some ((), rest))
    (shorter : rest.length < s.length) : skipped s = skipped rest := by
  have step : many (whitespace <|> comment) s =
      some (() :: (manyFrom (whitespace <|> comment) rest.length rest).1, skipped rest) :=
    many_of_some read shorter rfl
  simp only [many, Option.some.injEq] at step
  simp [skipped, step]

theorem whitespace_cons {c : Char} (blank : c ∈ [' ', '\t', '\r', '\n']) (s : Text) :
    whitespace (c :: s) = some ((), s) := by
  refine map_of_some _ (one_of_mem ?_)
  simpa [or_assoc] using blank

theorem whitespace_none {c : Char} (solid : c ∉ [' ', '\t', '\r', '\n']) (s : Text) : whitespace (c :: s) = none := by
  refine map_of_none _ (one_of_not_mem ?_)
  simp only [List.mem_cons, List.not_mem_nil, or_false, not_or] at solid
  simp [solid]

@[simp] theorem skipped_nil : skipped [] = [] := rfl

theorem skipped_blank {c : Char} (blank : c ∈ [' ', '\t', '\r', '\n']) (s : Text) : skipped (c :: s) = skipped s :=
  skipped_of_some (choice_of_some _ (whitespace_cons blank s)) (by simp)

@[simp] theorem skipped_space (s : Text) : skipped (' ' :: s) = skipped s := skipped_blank (by simp) s

@[simp] theorem skipped_newline (s : Text) : skipped ('\n' :: s) = skipped s := skipped_blank (by simp) s

theorem comment_none {c : Char} (ne : c ≠ '/') (s : Text) : comment (c :: s) = none := by
  have line : lineComment (c :: s) = none := bind_of_none _ (word_of_head_ne ne.symm)
  have block : blockComment (c :: s) = none := bind_of_none _ (word_of_head_ne ne.symm)
  exact (choice_of_none _ line).trans block

theorem skipped_cons {c : Char} (solid : c ∉ [' ', '\t', '\r', '\n', '/']) (s : Text) : skipped (c :: s) = c :: s := by
  simp only [List.mem_cons, List.not_mem_nil, or_false, not_or] at solid
  refine skipped_of_none ((choice_of_none _ (whitespace_none ?_ s)).trans (comment_none solid.2.2.2.2 s))
  simp [solid]

theorem many_until_close {body : Text} (closed : ¬ ['*', '/'] <:+: body) (rest : Text) :
    many (butNot (word ['*', '/']) >>= fun _ => one fun _ => true) (body ++ ['*', '/'] ++ rest) =
      some (body, ['*', '/'] ++ rest) := by
  induction body with
  | nil =>
    exact many_of_none (bind_of_none _ (butNot_of_some (word_append ['*', '/'] rest)))
  | cons c body ih =>
    have open_ : word ['*', '/'] (c :: body ++ ['*', '/'] ++ rest) = none := by
      refine word_of_not_start fun isPrefix => closed ?_
      obtain ⟨tail, same⟩ := isPrefix
      cases body with
      | nil => simp at same
      | cons d body =>
        simp only [List.cons_append, List.cons.injEq] at same
        obtain ⟨rfl, rfl, -⟩ := same
        exact ⟨[], body, rfl⟩
    refine many_of_some ?_ (by simp) (ih fun inside => closed (inside.trans (List.suffix_cons _ _).isInfix))
    exact (bind_of_some _ (butNot_of_none open_)).trans (one_of_mem rfl)

/-- A block comment whose text does not close it early is skipped. -/
theorem skipped_block {body : Text} (closed : ¬ ['*', '/'] <:+: body) (rest : Text) :
    skipped (['/', '*'] ++ body ++ ['*', '/'] ++ rest) = skipped rest := by
  have notBlank : whitespace (['/', '*'] ++ body ++ ['*', '/'] ++ rest) = none := whitespace_none (by simp) _
  have notLine : lineComment (['/', '*'] ++ body ++ ['*', '/'] ++ rest) = none := by
    refine bind_of_none _ (word_of_not_start ?_)
    simp
  have block : blockComment (['/', '*'] ++ body ++ ['*', '/'] ++ rest) = some ((), rest) := by
    have opened : word ['/', '*'] (['/', '*'] ++ body ++ ['*', '/'] ++ rest) =
        some ((), body ++ ['*', '/'] ++ rest) := by simpa using word_append ['/', '*'] (body ++ ['*', '/'] ++ rest)
    rw [blockComment, bind_of_some _ opened, bind_of_some _ (many_until_close closed rest)]
    exact word_append _ _
  refine skipped_of_some ((choice_of_none _ notBlank).trans ((choice_of_none _ notLine).trans block)) ?_
  simp
  omega

theorem consuming_blank : Consuming (whitespace <|> comment) := by
  refine .choice (.map _ (.one _)) (.choice ?_ ?_)
  · exact .bind (.word (by simp)) fun _ => .bind .many fun _ => .pure _
  · exact .bind (.word (by simp)) fun _ => .bind .many fun _ => .word _

@[simp] theorem skipped_skipped (s : Text) : skipped (skipped s) = skipped s := by
  have run : many (whitespace <|> comment) s =
      some ((manyFrom (whitespace <|> comment) s.length s).1, skipped s) := rfl
  exact skipped_of_none (none_of_many consuming_blank run)

theorem length_skipped_le (s : Text) : (skipped s).length ≤ s.length :=
  NonIncreasing.many s _ _ rfl

-- Identifiers

def IsIdent (w : Text) : Prop := ∃ c more, w = c :: more ∧ identStart c = true ∧ ∀ d ∈ more, identPart d = true

instance (w : Text) : Decidable (IsIdent w) :=
  match w with
  | [] => isFalse (by rintro ⟨c, more, same, -⟩; cases same)
  | c :: more => decidable_of_iff (identStart c = true ∧ more.all identPart = true) <| by
      rw [List.all_eq_true]
      exact ⟨fun ok => ⟨c, more, rfl, ok⟩, by rintro ⟨c, more, same, ok⟩; cases same; exact ok⟩

theorem identPart_of_identStart {c : Char} (start : identStart c = true) : identPart c = true := by
  simp only [identStart, identPart, Char.isAlphanum, Bool.or_eq_true] at start ⊢
  tauto

theorem ident_run {w rest : Text} (isIdent : IsIdent w) (outside : Outside identPart rest) :
    ident (w ++ rest) = some (w, rest) := by
  obtain ⟨c, more, rfl, start, parts⟩ := isIdent
  rw [ident, List.cons_append, bind_of_some _ (one_of_mem start), bind_of_some _ (many_one parts outside)]
  rfl

theorem ident_none {c : Char} (other : identStart c = false) (s : Text) : ident (c :: s) = none :=
  bind_of_none _ (one_of_not_mem other)

-- Strings

/-- A body that stands between quotes as one token: every quote in it follows a backslash, and
it does not end in one. -/
def closes : Text → Bool
  | [] => true
  | '"' :: _ => false
  | '\\' :: '"' :: rest => closes rest
  | ['\\'] => false
  | _ :: rest => closes rest

def quoteItem : Rule Text := do
  butNot (word ['"'])
  (do word ['\\', '"']; pure ['\\', '"']) <|> (do let c ← one fun _ => true; pure [c])

theorem innerStr_eq : innerStr = List.flatten <$> many quoteItem := rfl

theorem quoteItem_quote (rest : Text) : quoteItem ('"' :: rest) = none :=
  bind_of_none _ (butNot_of_some (word_append ['"'] rest))

theorem quoteItem_pair (rest : Text) : quoteItem ('\\' :: '"' :: rest) = some (['\\', '"'], rest) := by
  refine (bind_of_some _ (butNot_of_none (word_of_head_ne (by decide)))).trans (choice_of_some _ ?_)
  exact bind_of_some _ (word_append ['\\', '"'] rest)

theorem quoteItem_single {c : Char} {rest : Text} (notQuote : c ≠ '"')
    (notPair : ¬ ['\\', '"'] <+: c :: rest) : quoteItem (c :: rest) = some ([c], rest) := by
  refine (bind_of_some _ (butNot_of_none (word_of_head_ne notQuote.symm))).trans ?_
  refine (choice_of_none _ (bind_of_none _ (word_of_not_start notPair))).trans ?_
  exact bind_of_some _ (one_of_mem rfl)

theorem many_quoteItem {body : Text} (ok : closes body = true) (rest : Text) :
    ∃ items, many quoteItem (body ++ '"' :: rest) = some (items, '"' :: rest) ∧ items.flatten = body := by
  fun_induction closes body with
  | case1 => exact ⟨[], many_of_none (quoteItem_quote rest), rfl⟩
  | case2 => cases ok
  | case3 more ih =>
    obtain ⟨items, read, flat⟩ := ih ok
    have shorter : (more ++ '"' :: rest).length < ('\\' :: '"' :: (more ++ '"' :: rest)).length := by
      simp only [List.length_cons]
      omega
    exact ⟨_ :: items, many_of_some (quoteItem_pair _) shorter read, by simp [flat]⟩
  | case4 => cases ok
  | case5 c more notQuote notPair notLast ih =>
    obtain ⟨items, read, flat⟩ := ih ok
    refine ⟨_ :: items, many_of_some (quoteItem_single notQuote ?_) (by simp) read, by simp [flat]⟩
    rintro ⟨tail, same⟩
    cases more with
    | nil =>
      simp only [List.cons_append, List.nil_append, List.cons.injEq] at same
      exact notLast same.1.symm rfl
    | cons d more =>
      simp only [List.cons_append, List.cons.injEq] at same
      exact notPair more same.1.symm (by rw [← (List.cons.inj same.2).1])

def quoted (body : Text) : Text := '"' :: body ++ ['"']

theorem string_run {body : Text} (ok : closes body = true) (rest : Text) :
    string (quoted body ++ rest) = some (quoted body, rest) := by
  obtain ⟨items, read, flat⟩ := many_quoteItem ok rest
  have inner : innerStr (body ++ '"' :: rest) = some (body, '"' :: rest) := by
    rw [innerStr_eq, map_of_some _ read, flat]
  have shape : quoted body ++ rest = ['"'] ++ (body ++ '"' :: rest) := by simp [quoted]
  rw [string, shape, bind_of_some _ (word_append _ _), bind_of_some _ inner]
  exact bind_of_some _ (word_append ['"'] rest)

theorem closes_of_plain {body : Text} (noQuote : '"' ∉ body) (noBackslash : '\\' ∉ body) : closes body = true := by
  induction body with
  | nil => rfl
  | cons c body ih =>
    rw [List.mem_cons, not_or] at noQuote noBackslash
    rw [closes]
    · exact ih noQuote.2 noBackslash.2
    · exact fun same => noQuote.1 same.symm
    · exact fun rest same => absurd same.symm noBackslash.1
    · exact fun same => absurd same.symm noBackslash.1

theorem unquote_of_plain {s : String} (noQuote : '"' ∉ s.toList) (noBackslash : '\\' ∉ s.toList) :
    unquote (quoted s.toList) = s := by
  rw [unquote, quoted, Text.trimMatches_quoted noQuote]
  simp only [Text.replace_of_not_mem noBackslash, String.ofList_toList]

theorem string_none {c : Char} (notQuote : c ≠ '"') (s : Text) : string (c :: s) = none :=
  bind_of_none _ (word_of_head_ne notQuote.symm)

-- Numbers

theorem digits_ofNat (n : Nat) {rest : Text} (outside : Outside Char.isDigit rest) :
    digits (Text.ofNat n ++ rest) = some (Text.ofNat n, rest) := by
  obtain ⟨c, more, shape, first⟩ := Text.ofNat_eq_cons n
  have all : ∀ d ∈ more, d.isDigit = true := fun d member =>
    Text.isDigit_of_mem_ofNat (n := n) (by rw [shape]; exact List.mem_cons_of_mem _ member)
  rw [shape, digits, List.cons_append, bind_of_some _ (one_of_mem first), bind_of_some _ (many_one all outside)]
  rfl

theorem minus_none {c : Char} (ne : c ≠ '-') (s : Text) : minus (c :: s) = some ([], c :: s) :=
  choice_of_none _ (bind_of_none _ (word_of_head_ne ne.symm))

theorem signed_ofInt (i : Int) {rest : Text} (outside : Outside Char.isDigit rest) :
    ∃ sign whole, sign ++ whole = Text.ofInt i ∧ minus (Text.ofInt i ++ rest) = some (sign, whole ++ rest) ∧
      digits (whole ++ rest) = some (whole, rest) := by
  cases i with
  | ofNat n =>
    refine ⟨[], Text.ofNat n, rfl, ?_, digits_ofNat n outside⟩
    obtain ⟨c, more, shape, first⟩ := Text.ofNat_eq_cons n
    have ne : c ≠ '-' := by rintro rfl; simp at first
    rw [Text.ofInt, shape]
    exact minus_none ne _
  | negSucc n =>
    refine ⟨['-'], Text.ofNat (n + 1), rfl, ?_, digits_ofNat (n + 1) outside⟩
    exact choice_of_some _ (bind_of_some _ (word_append ['-'] _))

theorem integer_ofInt (i : Int) {rest : Text} (outside : Outside Char.isDigit rest) :
    integer (Text.ofInt i ++ rest) = some (Text.ofInt i, rest) := by
  obtain ⟨sign, whole, same, signed, run⟩ := signed_ofInt i outside
  rw [integer, bind_of_some _ signed, bind_of_some _ run, ← same]
  rfl

theorem float_ofInt (i : Int) {rest : Text} (outside : Outside (fun c => c.isDigit || c = '.') rest) :
    float (Text.ofInt i ++ rest) = none := by
  have noDigit : Outside Char.isDigit rest := fun c head => by
    have both := outside c head
    simp only [Bool.or_eq_false_iff] at both
    exact both.1
  obtain ⟨sign, whole, -, signed, run⟩ := signed_ofInt i noDigit
  rw [float, bind_of_some _ signed, bind_of_some _ run]
  refine bind_of_none _ ?_
  cases rest with
  | nil => exact word_of_not_start (by simp)
  | cons c rest =>
    have both := outside c rfl
    simp only [Bool.or_eq_false_iff, decide_eq_false_iff_not] at both
    exact word_of_head_ne (Ne.symm both.2)

theorem digits_none {c : Char} (other : c.isDigit = false) (s : Text) : digits (c :: s) = none :=
  bind_of_none _ (one_of_not_mem other)

theorem number_none {c : Char} (ne : c ≠ '-') (other : c.isDigit = false) (s : Text) :
    float (c :: s) = none ∧ integer (c :: s) = none := by
  constructor
  · rw [float, bind_of_some _ (minus_none ne s)]
    exact bind_of_none _ (digits_none other s)
  · rw [integer, bind_of_some _ (minus_none ne s)]
    exact bind_of_none _ (digits_none other s)

-- Keywords and literals

theorem keyword_continues {keyword w rest left : Text} (letters : keyword.all identPart = true)
    (isIdent : IsIdent w) (differs : w ≠ keyword) (outside : Outside identPart rest)
    (read : word keyword (w ++ rest) = some ((), left)) : butNot (one identPart) left = none := by
  obtain ⟨c, more, rfl, start, parts⟩ := isIdent
  rcases List.append_eq_append_iff.mp (eq_append_of_word read) with ⟨tail, same, split⟩ | ⟨tail, same, split⟩
  · cases tail with
    | nil => exact absurd (by simpa using same.symm) differs
    | cons d tail =>
      have continues := outside d (by simp [split])
      rw [List.all_eq_true.mp letters d (by simp [same])] at continues
      cases continues
  · cases tail with
    | nil => exact absurd (by simpa using same) differs
    | cons d tail =>
      have member : d ∈ c :: more := by simp [same]
      have continues : identPart d = true := by
        rcases List.mem_cons.mp member with rfl | inside
        · exact identPart_of_identStart start
        · exact parts d inside
      rw [split, List.cons_append]
      exact butNot_of_some (one_of_mem continues)

theorem boolLit_run (b : Bool) {rest : Text} (outside : Outside identPart rest) :
    boolLit ((if b then "true".toList else "false".toList) ++ rest) = some (b, rest) := by
  cases b with
  | true =>
    refine (bind_of_some _ (choice_of_some _ (bind_of_some _ (word_append "true".toList rest)))).trans ?_
    exact bind_of_some _ (butNot_of_none (one_of_outside outside))
  | false =>
    have notTrue : word "true".toList ("false".toList ++ rest) = none := word_of_not_start (by simp)
    refine (bind_of_some _ ((choice_of_none _ (bind_of_none _ notTrue)).trans
      (bind_of_some _ (word_append "false".toList rest)))).trans ?_
    exact bind_of_some _ (butNot_of_none (one_of_outside outside))

theorem boolLit_none {s : Text}
    (fails : ∀ keyword ∈ ["true".toList, "false".toList], ∀ left, word keyword s = some ((), left) →
      butNot (one identPart) left = none) : boolLit s = none := by
  cases first : word "true".toList s with
  | some result =>
    refine (bind_of_some _ (choice_of_some _ (bind_of_some _ first))).trans ?_
    exact bind_of_none _ (fails _ (by simp) result.2 first)
  | none =>
    cases second : word "false".toList s with
    | some result =>
      refine (bind_of_some _ ((choice_of_none _ (bind_of_none _ first)).trans (bind_of_some _ second))).trans ?_
      exact bind_of_none _ (fails _ (by simp) result.2 second)
    | none =>
      exact bind_of_none _ ((choice_of_none _ (bind_of_none _ first)).trans (bind_of_none _ second))

theorem nullLit_none {s : Text}
    (fails : ∀ left, word "null".toList s = some ((), left) → butNot (one identPart) left = none) :
    nullLit s = none := by
  cases first : word "null".toList s with
  | some result => exact (bind_of_some _ first).trans (fails result.2 first)
  | none => exact bind_of_none _ first

def keywords : List Text := ["true".toList, "false".toList, "null".toList]

section
variable {s rest : Text}

theorem literal_of_string {body : Text} (ok : closes body = true) (rest : Text) :
    literal (quoted body ++ rest) = some (.str (unquote (quoted body)), rest) :=
  choice_of_some _ (bind_of_some _ (string_run ok rest))

theorem literal_of_not_string_number (notString : string s = none) (notFloat : float s = none)
    (notInteger : integer s = none) :
    literal s = ((do let b ← boolLit; pure (.bool b)) <|> (do nullLit; pure .null) : Rule Value) s :=
  (choice_of_none _ (bind_of_none _ notString)).trans
    ((choice_of_none _ (bind_of_none _ notFloat)).trans (choice_of_none _ (bind_of_none _ notInteger)))

theorem literal_of_bool (b : Bool) (outside : Outside identPart rest) :
    literal ((if b then "true".toList else "false".toList) ++ rest) = some (.bool b, rest) := by
  have head : ∃ c more, (if b then "true".toList else "false".toList) ++ rest = c :: more ∧
      c ≠ '"' ∧ c ≠ '-' ∧ c.isDigit = false := by
    cases b <;> exact ⟨_, _, rfl, by decide, by decide, by decide⟩
  obtain ⟨c, more, shape, notQuote, notMinus, notDigit⟩ := head
  have numbers := number_none notMinus notDigit more
  rw [shape, literal_of_not_string_number (string_none notQuote more) numbers.1 numbers.2, ← shape]
  exact choice_of_some _ (bind_of_some _ (boolLit_run b outside))

theorem literal_of_null (outside : Outside identPart rest) :
    literal ("null".toList ++ rest) = some (.null, rest) := by
  have numbers := number_none (c := 'n') (by decide) (by decide) ("ull".toList ++ rest)
  refine (literal_of_not_string_number (string_none (by decide) _) numbers.1 numbers.2).trans ?_
  have notBool : boolLit ("null".toList ++ rest) = none := by
    refine boolLit_none fun keyword member left read => ?_
    have starts := eq_append_of_word read
    rcases List.mem_pair.mp member with rfl | rfl <;> simp at starts
  refine (choice_of_none _ (bind_of_none _ notBool)).trans ?_
  exact bind_of_some _ ((bind_of_some _ (word_append "null".toList rest)).trans
    (butNot_of_none (one_of_outside outside)))

theorem literal_of_int (i : Int64) (outside : Outside (fun c => c.isDigit || c = '.') rest) :
    literal (Text.ofInt i.toInt ++ rest) = some (.int i, rest) := by
  have head : ∃ c more, Text.ofInt i.toInt ++ rest = c :: more ∧ c ≠ '"' := by
    cases i.toInt with
    | ofNat n =>
      obtain ⟨c, more, shape, digit⟩ := Text.ofNat_eq_cons n
      refine ⟨c, more ++ rest, by simp [Text.ofInt, shape], ?_⟩
      rintro rfl
      simp at digit
    | negSucc n => exact ⟨'-', Text.ofNat (n + 1) ++ rest, rfl, by decide⟩
  obtain ⟨c, more, shape, notQuote⟩ := head
  have noDigit : Outside Char.isDigit rest := fun d member => by
    have both := outside d member
    simp only [Bool.or_eq_false_iff] at both
    exact both.1
  have notString : string (Text.ofInt i.toInt ++ rest) = none := by
    rw [shape]
    exact string_none notQuote more
  refine (choice_of_none _ (bind_of_none _ notString)).trans
    ((choice_of_none _ (bind_of_none _ (float_ofInt i.toInt outside))).trans (choice_of_some _ ?_))
  rw [bind_of_some _ (integer_ofInt i.toInt noDigit), Text.parseI64_ofInt]
  rfl

theorem literal_none_of_head {c : Char} (other : c ∉ ['"', '-', 't', 'f', 'n']) (notDigit : c.isDigit = false) :
    literal (c :: s) = none := by
  simp only [List.mem_cons, List.not_mem_nil, or_false, not_or] at other
  have numbers := number_none other.2.1 notDigit s
  rw [literal_of_not_string_number (string_none other.1 s) numbers.1 numbers.2]
  have notBool : boolLit (c :: s) = none := by
    refine boolLit_none fun keyword member left read => ?_
    have starts := eq_append_of_word read
    rcases List.mem_pair.mp member with rfl | rfl <;> simp [other] at starts
  have notNull : nullLit (c :: s) = none := by
    refine nullLit_none fun left read => ?_
    have starts := eq_append_of_word read
    simp [other] at starts
  exact (choice_of_none _ (bind_of_none _ notBool)).trans (bind_of_none _ notNull)

theorem not_isDigit_of_isAlpha {c : Char} (letter : c.isAlpha = true) : c.isDigit = false := by
  change (decide (c.val ≥ 65 ∧ c.val ≤ 90) || (decide (c.val ≥ 97) && decide (c.val ≤ 122))) = true at letter
  change (decide (c.val ≥ 48) && decide (c.val ≤ 57)) = false
  simp only [Bool.or_eq_true, Bool.and_eq_true, decide_eq_true_eq, Bool.and_eq_false_iff, decide_eq_false_iff_not,
    ge_iff_le, UInt32.le_iff_toNat_le, UInt32.reduceToNat] at letter ⊢
  omega

theorem literal_none_of_ident {w : Text} (isIdent : IsIdent w) (free : w ∉ keywords)
    (outside : Outside identPart rest) : literal (w ++ rest) = none := by
  simp only [keywords, List.mem_cons, List.not_mem_nil, or_false, not_or] at free
  have notBool : boolLit (w ++ rest) = none := by
    refine boolLit_none fun keyword member left read => ?_
    rcases List.mem_pair.mp member with rfl | rfl
    · exact keyword_continues (by decide) isIdent free.1 outside read
    · exact keyword_continues (by decide) isIdent free.2.1 outside read
  have notNull : nullLit (w ++ rest) = none :=
    nullLit_none fun left read => keyword_continues (by decide) isIdent free.2.2 outside read
  have tail : ((do let b ← boolLit; pure (.bool b)) <|> (do nullLit; pure .null) : Rule Value) (w ++ rest) = none :=
    (choice_of_none _ (bind_of_none _ notBool)).trans (bind_of_none _ notNull)
  obtain ⟨c, more, rfl, start, -⟩ := isIdent
  have notQuote : c ≠ '"' := by rintro rfl; simp [identStart] at start
  have notMinus : c ≠ '-' := by rintro rfl; simp [identStart] at start
  have notDigit : c.isDigit = false := by
    simp only [identStart, Bool.or_eq_true, decide_eq_true_eq] at start
    rcases start with letter | rfl
    · exact not_isDigit_of_isAlpha letter
    · decide
  have numbers := number_none notMinus notDigit (more ++ rest)
  exact (literal_of_not_string_number (string_none notQuote _) numbers.1 numbers.2).trans tail

end

end MiniWaf.Grl
