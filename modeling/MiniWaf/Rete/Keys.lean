import MiniWaf.Grl.Names
import MiniWaf.Theory.Scanner

/-! The keys under which leaves are shared. A printed expression divides in one way
into its parts, so well named expressions without a quote in an index key print
alike exactly if they differ in literals and paths of one text.
-/

set_option autoImplicit false

namespace MiniWaf.Grl

def PathSeg.quoted : PathSeg → Bool
  | .field _ => false
  | .index key => '"' ∈ key.toList

def Path.quoted (p : Path) : Bool := p.segments.any PathSeg.quoted

namespace Expr

def quoted (e : Expr) : Bool := e.paths.any Path.quoted

def isAtom : Expr → Bool
  | .literal _ => true
  | .path _ => true
  | .call .. => false
  | .binary .. => false
  | .unary .. => false

end Expr

variable (platform : Platform)

mutual
def alike : Expr → Expr → Bool
  | .call name args, .call name' args' => name == name' && alikeAll args args'
  | .binary op left right, .binary op' left' right' => op == op' && (alike left left' && alike right right')
  | .unary .not e, .unary .not e' => alike e e'
  | a, b => a.isAtom && b.isAtom && printExpr platform a == printExpr platform b

def alikeAll : List Expr → List Expr → Bool
  | [], [] => true
  | a :: as, b :: bs => alike a b && alikeAll as bs
  | _, _ => false
end

variable {platform}

theorem alike_of_atoms {a b : Expr} (first : a.isAtom = true) (second : b.isAtom = true)
    (same : printExpr platform a = printExpr platform b) : alike platform a b = true := by
  cases a <;> cases b <;> simp_all [alike, Expr.isAtom]

theorem alikeAll_print {args : List Expr}
    (each : ∀ a ∈ args, ∀ b, alike platform a b = true → printExpr platform a = printExpr platform b) :
    ∀ {others : List Expr}, alikeAll platform args others = true → printArgs platform args = printArgs platform others := by
  induction args with
  | nil =>
    intro others related
    cases others with
    | nil => rfl
    | cons b others => cases related
  | cons a args ih =>
    intro others related
    cases others with
    | nil => cases related
    | cons b others =>
      rw [alikeAll, Bool.and_eq_true] at related
      have first := each a List.mem_cons_self b related.1
      have rest := ih (fun a' member => each a' (List.mem_cons_of_mem a member)) related.2
      rw [printArgs, printArgs, first, rest]

theorem print_of_alike {a b : Expr} (related : alike platform a b = true) :
    printExpr platform a = printExpr platform b := by
  induction a generalizing b with
  | literal v => cases b <;> simp_all [alike, Expr.isAtom]
  | path p => cases b <;> simp_all [alike, Expr.isAtom]
  | call name args ih =>
    cases b with
    | call name' args' =>
      rw [alike, Bool.and_eq_true, beq_iff_eq] at related
      have sameArgs := alikeAll_print ih related.2
      rw [printExpr, printExpr, related.1, sameArgs]
    | _ => cases related
  | binary op left right ihL ihR =>
    cases b with
    | binary op' left' right' =>
      rw [alike, Bool.and_eq_true, Bool.and_eq_true, beq_iff_eq] at related
      obtain ⟨sameOp, relatedL, relatedR⟩ := related
      rw [printExpr, printExpr, sameOp, ihL relatedL, ihR relatedR]
    | _ => cases related
  | unary op e ih =>
    cases op
    cases b with
    | unary op' e' =>
      cases op'
      rw [alike] at related
      rw [printExpr, printExpr, ih related]
    | _ => cases related

-- Words: the part of an atom or of a call's name that stands in front of a separator

inductive Mode where
  | plain
  | bracket
  | key
  | string
  | escape
  deriving DecidableEq, Repr

/-- Reads one character of an atom's text; a separator ends it. -/
def scan : Mode → Char → Option Mode
  | .plain, c =>
    if c ∈ [' ', ',', '(', ')', '!'] then none
    else some (if c = '"' then .string else if c = '[' then .bracket else .plain)
  | .bracket, _ => some .key
  | .key, c => some (if c = '"' then .plain else .key)
  | .string, c => some (if c = '"' then .plain else if c = '\\' then .escape else .string)
  | .escape, _ => some .string

def letter (c : Char) : Bool := identPart c || c = '-' || c = '.'

theorem scan_letter {c : Char} (isLetter : letter c = true) : scan .plain c = some .plain := by
  have apart : ∀ d ∈ [' ', ',', '(', ')', '!', '"', '['], c ≠ d := by
    intro d member same
    have noLetter : [' ', ',', '(', ')', '!', '"', '['].any letter = false := by decide
    exact List.any_eq_false.mp noLetter d member (same ▸ isLetter)
  simp only [List.forall_mem_cons] at apart
  simp [scan, apart]

theorem run_letters {w : Text} (letters : ∀ c ∈ w, letter c = true) : Scanner.run scan .plain w = some .plain :=
  Scanner.run_of_forall fun c member => scan_letter (letters c member)

theorem IsIdent.letters {w : Text} (isIdent : IsIdent w) : ∀ c ∈ w, letter c = true := by
  obtain ⟨c, more, rfl, start, parts⟩ := isIdent
  intro d member
  rcases List.mem_cons.mp member with rfl | member
  · simp [letter, identPart_of_identStart start]
  · simp [letter, parts d member]

theorem letter_of_isDigit {c : Char} (digit : c.isDigit = true) : letter c = true := by
  simp [letter, identPart, Char.isAlphanum, digit]

theorem ofNat_letters (n : Nat) : ∀ c ∈ Text.ofNat n, letter c = true :=
  fun _ member => letter_of_isDigit (Text.isDigit_of_mem_ofNat member)

theorem ofInt_letters (i : Int) : ∀ c ∈ Text.ofInt i, letter c = true := by
  cases i with
  | ofNat n => exact ofNat_letters n
  | negSucc n => exact List.forall_mem_cons.mpr ⟨by decide, ofNat_letters (n + 1)⟩

theorem display_letters (f : F64) : ∀ c ∈ f.display, letter c = true := by
  have sign : ∀ c ∈ (if f.negative then ['-'] else [] : Text), letter c = true := by
    split <;> exact List.all_eq_true.mp rfl
  have zeros : ∀ n, ∀ c ∈ List.replicate n '0', letter c = true := by
    intro n c member
    rw [List.eq_of_mem_replicate member]
    decide
  simp only [F64.display]
  generalize (if f.negative = true then ['-'] else [] : Text) = minus at sign ⊢
  split
  · exact List.all_eq_true.mp rfl
  split
  · exact List.forall_mem_append.mpr ⟨sign, List.all_eq_true.mp rfl⟩
  split
  · exact List.forall_mem_append.mpr ⟨sign, List.all_eq_true.mp rfl⟩
  split
  · exact List.forall_mem_append.mpr ⟨List.forall_mem_append.mpr ⟨sign, ofNat_letters _⟩, zeros _⟩
  · have padded : ∀ n, ∀ c ∈ List.replicate n '0' ++ Text.ofNat f.shortest.1, letter c = true :=
      fun n => List.forall_mem_append.mpr ⟨zeros n, ofNat_letters _⟩
    refine List.forall_mem_append.mpr ⟨List.forall_mem_append.mpr ⟨List.forall_mem_append.mpr ⟨sign, ?_⟩, List.all_eq_true.mp rfl⟩, ?_⟩
    · exact fun c member => padded _ c (List.mem_of_mem_take member)
    · exact fun c member => padded _ c (List.mem_of_mem_drop member)

theorem ofInt_ne_nil (i : Int) : Text.ofInt i ≠ [] := by
  cases i with
  | ofNat n => exact Text.ofNat_ne_nil n
  | negSucc n => exact List.cons_ne_nil _ _

theorem display_ne_nil (f : F64) : f.display ≠ [] := by
  simp only [F64.display]
  generalize (if f.negative = true then ['-'] else [] : Text) = minus
  split
  · decide
  split
  · simp
  split
  · simp
  split
  · simp [Text.ofNat_ne_nil]
  · simp

-- Strings

theorem scan_string {c : Char} (notQuote : c ≠ '"') (notBackslash : c ≠ '\\') : scan .string c = some .string := by
  simp [scan, notQuote, notBackslash]

theorem run_unicodeEscape (c : Char) : Scanner.run scan .string (Platform.unicodeEscape c) = some .string := by
  have digits : Scanner.run scan .string (Nat.toDigits 16 c.toNat) = some .string := by
    apply Scanner.run_of_forall
    intro d member
    obtain ⟨value, bound, rfl⟩ := Platform.hexDigit_of_mem _ d member
    have plain : ∀ n < 16, n.digitChar ≠ '"' ∧ n.digitChar ≠ '\\' := by decide
    exact scan_string (plain value bound).1 (plain value bound).2
  have front : Scanner.run scan .string "\\u".toList = some .string := rfl
  unfold Platform.unicodeEscape
  rw [List.append_assoc, Scanner.run_append front, List.cons_append, Scanner.run]
  exact (Scanner.run_append digits).trans rfl

theorem run_debugChar (c : Char) : Scanner.run scan .string (platform.debugChar c) = some .string := by
  unfold Platform.debugChar
  split
  · rfl
  split
  · rfl
  split
  · rfl
  split
  · rfl
  split
  · rfl
  split
  · rfl
  rename_i notQuote notBackslash
  have itself : Scanner.run scan .string [c] = some .string :=
    Scanner.run_of_forall fun d member => List.mem_singleton.mp member ▸ scan_string notQuote notBackslash
  split
  · split
    · exact itself
    · exact run_unicodeEscape c
  · split
    · exact run_unicodeEscape c
    · exact itself

theorem run_debug (s : String) : Scanner.run scan .plain (platform.debug s) = some .plain := by
  have body : Scanner.run scan .string (platform.debugBody s) = some .string :=
    Scanner.run_flatMap fun c _ => run_debugChar c
  unfold Platform.debug
  rw [List.cons_append, Scanner.run]
  exact (Scanner.run_append body).trans rfl

-- Paths

theorem run_index {key : String} (free : (PathSeg.index key).quoted = false) (first : Bool) :
    Scanner.run scan .plain ((PathSeg.index key).display first) = some .plain := by
  have notQuote : '"' ∉ key.toList := by simpa [PathSeg.quoted] using free
  have inside : Scanner.run scan .key key.toList = some .key := by
    apply Scanner.run_of_forall
    intro c member
    have ne : c ≠ '"' := fun same => notQuote (same ▸ member)
    simp [scan, ne]
  have opening : Scanner.run scan .plain "[\"".toList = some .key := rfl
  rw [PathSeg.display, List.append_assoc, Scanner.run_append opening, Scanner.run_append inside]
  rfl

theorem run_pathSeg {seg : PathSeg} (named : seg.Named) (free : seg.quoted = false) (first : Bool) :
    Scanner.run scan .plain (seg.display first) = some .plain := by
  cases seg with
  | field name =>
    have dot : ∀ c ∈ (if first then [] else ['.'] : Text), letter c = true := by
      cases first <;> exact List.all_eq_true.mp rfl
    exact run_letters (List.forall_mem_append.mpr ⟨dot, IsIdent.letters named⟩)
  | index key => exact run_index free first

theorem run_path {p : Path} (named : p.Named) (free : p.quoted = false) :
    Scanner.run scan .plain p.display = some .plain := by
  obtain ⟨name, rest, shape⟩ := named.first
  have segments : ∀ seg ∈ p.segments, ∀ first, Scanner.run scan .plain (seg.display first) = some .plain := by
    intro seg member
    have unquoted := Bool.eq_false_iff.mpr (List.any_eq_false.mp free seg member)
    exact run_pathSeg (named.segments seg member) unquoted
  rw [shape, List.forall_mem_cons] at segments
  unfold Path.display
  rw [shape]
  exact (Scanner.run_append (segments.1 true)).trans (Scanner.run_flatMap fun seg member => segments.2 seg member false)

theorem pathDisplay_ne_nil {p : Path} (named : p.Named) : p.display ≠ [] := by
  obtain ⟨name, rest, shape⟩ := named.first
  have isIdent : IsIdent name.toList := named.segments (.field name) (shape ▸ List.mem_cons_self)
  obtain ⟨c, more, spelled, -, -⟩ := isIdent
  simp [Path.display, shape, PathSeg.display, spelled]

-- Expressions

/-- Well named, and no index key holds a quote. -/
structure Regular (e : Expr) : Prop where
  named : e.Named
  free : e.quoted = false

theorem Regular.path {p : Path} (regular : Regular (.path p)) : p.Named ∧ p.quoted = false := by
  have free := regular.free
  rw [Expr.quoted, Expr.paths, List.any_cons, List.any_nil, Bool.or_false] at free
  exact ⟨(Expr.named_path p).mp regular.named, free⟩

theorem Regular.call {name : String} {args : List Expr} (regular : Regular (.call name args)) :
    IsIdent name.toList ∧ ∀ a ∈ args, Regular a := by
  obtain ⟨isIdent, named⟩ := (Expr.named_call name args).mp regular.named
  have free := regular.free
  rw [Expr.quoted, Expr.paths, Expr.pathsAll_eq, List.any_flatMap, List.any_eq_false] at free
  exact ⟨isIdent, fun a member => ⟨named a member, Bool.eq_false_iff.mpr (free a member)⟩⟩

theorem Regular.binary {op : BinOp} {left right : Expr} (regular : Regular (.binary op left right)) :
    Regular left ∧ Regular right := by
  obtain ⟨namedL, namedR⟩ := (Expr.named_binary op left right).mp regular.named
  have free := regular.free
  rw [Expr.quoted, Expr.paths, List.any_append, Bool.or_eq_false_iff] at free
  exact ⟨⟨namedL, free.1⟩, ⟨namedR, free.2⟩⟩

theorem Regular.unary {op : UnaryOp} {e : Expr} (regular : Regular (.unary op e)) : Regular e :=
  ⟨(Expr.named_unary op e).mp regular.named, regular.free⟩

variable (platform) in
def Expr.word : Expr → Text
  | .literal v => fmtValue platform v
  | .path p => p.display
  | .call name _ => name.toList
  | .binary .. => []
  | .unary .. => []

variable (platform) in
def Expr.tail : Expr → Text
  | .literal _ => []
  | .path _ => []
  | .call _ args => '(' :: Text.join [','] (printArgs platform args) ++ [')']
  | .binary op left right => '(' :: printExpr platform left ++ ' ' :: binSym op ++ ' ' :: printExpr platform right ++ [')']
  | .unary _ e => '(' :: '!' :: printExpr platform e ++ [')']

theorem printExpr_eq (e : Expr) : printExpr platform e = e.word platform ++ e.tail platform := by
  cases e with
  | literal v => simp [printExpr, Expr.word, Expr.tail]
  | path p => simp [printExpr, Expr.word, Expr.tail]
  | call name args => simp [printExpr, Expr.word, Expr.tail]
  | binary op left right => simp [printExpr, Expr.word, Expr.tail]
  | unary op e =>
    cases op
    simp [printExpr, Expr.word, Expr.tail]

theorem run_word {e : Expr} (regular : Regular e) : Scanner.run scan .plain (e.word platform) = some .plain := by
  cases e with
  | literal v =>
    cases v with
    | null => rfl
    | bool b => cases b <;> rfl
    | int i => exact run_letters (ofInt_letters i.toInt)
    | float f => exact run_letters (display_letters f)
    | str s => exact run_debug s
  | path p => exact run_path regular.path.1 regular.path.2
  | call name args => exact run_letters regular.call.1.letters
  | binary op left right => rfl
  | unary op e => rfl

theorem word_ne_nil_of_atom {e : Expr} (regular : Regular e) (atom : e.isAtom = true) : e.word platform ≠ [] := by
  cases e with
  | literal v =>
    cases v with
    | null => exact List.cons_ne_nil _ _
    | bool b => cases b <;> exact List.cons_ne_nil _ _
    | int i => exact ofInt_ne_nil i.toInt
    | float f => exact display_ne_nil f
    | str s => exact List.cons_ne_nil _ _
  | path p => exact pathDisplay_ne_nil regular.path.1
  | _ => cases atom

def Ended (s : Text) : Prop := ∀ c ∈ s.head?, c ∈ [' ', ',', ')']

theorem ended_cons {c : Char} (separator : c ∈ [' ', ',', ')']) (s : Text) : Ended (c :: s) := by
  intro d head
  cases head
  exact separator

theorem stops_tail (e : Expr) {s : Text} (ended : Ended s) : Scanner.Stops scan .plain (e.tail platform ++ s) := by
  have opening : ∀ s, Scanner.Stops scan .plain ('(' :: s) := by
    intro s c head
    cases head
    rfl
  have separators : ∀ c ∈ [' ', ',', ')'], scan .plain c = none := by simp [scan]
  cases e with
  | literal v => exact fun c head => separators c (ended c head)
  | path p => exact fun c head => separators c (ended c head)
  | call name args => exact opening _
  | binary op left right => exact opening _
  | unary op e => exact opening _

theorem words_unique {a b : Expr} (regularA : Regular a) (regularB : Regular b) {s t : Text} (endedS : Ended s)
    (endedT : Ended t) (same : printExpr platform a ++ s = printExpr platform b ++ t) :
    a.word platform = b.word platform ∧ a.tail platform ++ s = b.tail platform ++ t := by
  rw [printExpr_eq, printExpr_eq, List.append_assoc, List.append_assoc] at same
  exact Scanner.unique (run_word regularA) (run_word regularB) (stops_tail a endedS) (stops_tail b endedT) same

theorem atom_unique {a b : Expr} (atom : a.isAtom = true) (regularA : Regular a) (regularB : Regular b) {s t : Text}
    (endedS : Ended s) (endedT : Ended t) (same : printExpr platform a ++ s = printExpr platform b ++ t) :
    b.isAtom = true ∧ alike platform a b = true ∧ s = t := by
  obtain ⟨words, tails⟩ := words_unique regularA regularB endedS endedT same
  have noTail : a.tail platform = [] := by
    cases a <;> first | rfl | cases atom
  rw [noTail, List.nil_append] at tails
  have notOpening : ∀ rest, s ≠ '(' :: rest := by
    rintro rest rfl
    exact absurd (endedS '(' rfl) (by decide)
  have atomB : b.isAtom = true := by
    cases b with
    | literal v => rfl
    | path p => rfl
    | call name args => exact absurd tails (notOpening _)
    | binary op left right => exact absurd words (word_ne_nil_of_atom regularA atom)
    | unary op e => exact absurd words (word_ne_nil_of_atom regularA atom)
  have noTailB : b.tail platform = [] := by
    cases b <;> first | rfl | cases atomB
  rw [noTailB, List.nil_append] at tails
  refine ⟨atomB, alike_of_atoms atom atomB ?_, tails⟩
  rw [printExpr_eq, printExpr_eq, noTail, noTailB, words]

theorem print_ne_cons {b : Expr} (regular : Regular b) {c : Char} (separator : c ∈ [')', '!']) {x y : Text}
    (endedY : Ended y) : c :: x ≠ printExpr platform b ++ y := by
  intro same
  have separators : ∀ d ∈ [')', '!'], scan .plain d = none ∧ d ≠ '(' := by simp [scan]
  obtain ⟨stops, notOpening⟩ := separators c separator
  have stopsX : Scanner.Stops scan .plain (c :: x) := by
    intro d head
    cases head
    exact stops
  rw [printExpr_eq, List.append_assoc] at same
  have noWord : Scanner.run scan .plain [] = some .plain := rfl
  obtain ⟨words, tails⟩ := Scanner.unique noWord (run_word regular) stopsX (stops_tail b endedY) same
  cases b with
  | literal v => exact word_ne_nil_of_atom regular rfl words.symm
  | path p => exact word_ne_nil_of_atom regular rfl words.symm
  | call name args =>
    obtain ⟨first, more, spelled, -, -⟩ := regular.call.1
    rw [Expr.word, spelled] at words
    cases words
  | binary op left right => exact notOpening (List.cons.inj tails).1
  | unary op e => exact notOpening (List.cons.inj tails).1

theorem binSym_reads (op : BinOp) :
    (cmpOp <|> addOp <|> mulOp <|> (do Peg.word ['&', '&']; pure .and) <|> (do Peg.word ['|', '|']; pure .or) : Rule BinOp)
      (binSym op) = some (op, []) := by
  cases op <;> rfl

theorem binSym_unique {op op' : BinOp} {s t : Text} (same : binSym op ++ ' ' :: s = binSym op' ++ ' ' :: t) :
    op = op' ∧ s = t := by
  let untilBlank (_ : Unit) (c : Char) : Option Unit := if c = ' ' then none else some ()
  have read : ∀ op, Scanner.run untilBlank () (binSym op) = some () := by
    intro op
    cases op <;> rfl
  have stops : ∀ s, Scanner.Stops untilBlank () (' ' :: s) := by
    intro s c head
    cases head
    rfl
  obtain ⟨symbols, rest⟩ := Scanner.unique (read op) (read op') (stops s) (stops t) same
  have reads := binSym_reads op
  rw [symbols, binSym_reads op'] at reads
  cases reads
  exact ⟨rfl, (List.cons.inj rest).2⟩

/-- The expression is told apart from all others by any text that begins with it. -/
def Unique (platform : Platform) (a : Expr) : Prop :=
  ∀ {b : Expr} {s t : Text}, Regular a → Regular b → Ended s → Ended t →
    printExpr platform a ++ s = printExpr platform b ++ t → alike platform a b = true ∧ s = t

def moreArgs (platform : Platform) (args : List Expr) : Text := args.flatMap fun a => ',' :: printExpr platform a

theorem join_args (a : Expr) (args : List Expr) :
    Text.join [','] (printArgs platform (a :: args)) = printExpr platform a ++ moreArgs platform args := by
  rw [printArgs, printArgs_eq_map, Text.join_cons, List.flatMap_map]
  rfl

theorem ended_moreArgs (args : List Expr) (s : Text) : Ended (moreArgs platform args ++ ')' :: s) := by
  cases args with
  | nil => exact ended_cons (by decide) s
  | cons a args => exact ended_cons (c := ',') (by decide) _

theorem moreArgs_unique {args : List Expr} (each : ∀ a ∈ args, Unique platform a) (regularA : ∀ a ∈ args, Regular a) :
    ∀ {others : List Expr} {s t : Text}, (∀ b ∈ others, Regular b) →
      moreArgs platform args ++ ')' :: s = moreArgs platform others ++ ')' :: t →
      alikeAll platform args others = true ∧ s = t := by
  induction args with
  | nil =>
    intro others s t _ same
    cases others with
    | nil => exact ⟨rfl, (List.cons.inj same).2⟩
    | cons b others => exact absurd (List.cons.inj same).1 (by decide)
  | cons a args ih =>
    intro others s t regularB same
    cases others with
    | nil => exact absurd (List.cons.inj same).1 (by decide)
    | cons b others =>
      rw [List.forall_mem_cons] at each regularA regularB
      simp only [moreArgs, List.flatMap_cons, List.cons_append, List.append_assoc, List.cons.injEq, true_and] at same
      obtain ⟨first, rest⟩ := each.1 regularA.1 regularB.1 (ended_moreArgs args s) (ended_moreArgs others t) same
      obtain ⟨more, left⟩ := ih each.2 regularA.2 regularB.2 rest
      exact ⟨by rw [alikeAll, first, more]; rfl, left⟩

theorem args_unique {args others : List Expr} (each : ∀ a ∈ args, Unique platform a)
    (regularA : ∀ a ∈ args, Regular a) (regularB : ∀ b ∈ others, Regular b) {s t : Text}
    (same : Text.join [','] (printArgs platform args) ++ ')' :: s = Text.join [','] (printArgs platform others) ++ ')' :: t) :
    alikeAll platform args others = true ∧ s = t := by
  cases args with
  | nil =>
    cases others with
    | nil => exact ⟨rfl, (List.cons.inj same).2⟩
    | cons b others =>
      rw [join_args, List.append_assoc] at same
      exact absurd same (print_ne_cons (regularB b List.mem_cons_self) (by decide) (ended_moreArgs others t))
  | cons a args =>
    cases others with
    | nil =>
      rw [join_args, List.append_assoc] at same
      exact absurd same.symm (print_ne_cons (regularA a List.mem_cons_self) (by decide) (ended_moreArgs args s))
    | cons b others =>
      rw [List.forall_mem_cons] at each regularA regularB
      rw [join_args, join_args, List.append_assoc, List.append_assoc] at same
      obtain ⟨first, rest⟩ := each.1 regularA.1 regularB.1 (ended_moreArgs args s) (ended_moreArgs others t) same
      obtain ⟨more, left⟩ := moreArgs_unique each.2 regularA.2 regularB.2 rest
      exact ⟨by rw [alikeAll, first, more]; rfl, left⟩

theorem unique (a : Expr) : Unique platform a := by
  induction a with
  | literal v =>
    intro b s t regularA regularB endedS endedT same
    exact (atom_unique rfl regularA regularB endedS endedT same).2
  | path p =>
    intro b s t regularA regularB endedS endedT same
    exact (atom_unique rfl regularA regularB endedS endedT same).2
  | call name args ih =>
    intro b s t regularA regularB endedS endedT same
    obtain ⟨words, tails⟩ := words_unique regularA regularB endedS endedT same
    cases b with
    | call name' args' =>
      simp only [Expr.tail, List.cons_append, List.append_assoc, List.cons.injEq, true_and, List.nil_append] at tails
      obtain ⟨related, left⟩ := args_unique ih regularA.call.2 regularB.call.2 tails
      have sameName : name = name' := String.toList_inj.mp words
      rw [alike, sameName, related]
      exact ⟨by simp, left⟩
    | literal v => cases (atom_unique rfl regularB regularA endedT endedS same.symm).1
    | path p => cases (atom_unique rfl regularB regularA endedT endedS same.symm).1
    | _ =>
      obtain ⟨first, more, spelled, -, -⟩ := regularA.call.1
      simp [Expr.word, spelled] at words
  | binary op left right ihL ihR =>
    intro b s t regularA regularB endedS endedT same
    obtain ⟨words, tails⟩ := words_unique regularA regularB endedS endedT same
    cases b with
    | binary op' left' right' =>
      simp only [Expr.tail, List.cons_append, List.append_assoc, List.cons.injEq, true_and, List.nil_append] at tails
      obtain ⟨relatedL, afterL⟩ := ihL regularA.binary.1 regularB.binary.1 (ended_cons (by decide) _)
        (ended_cons (by decide) _) tails
      obtain ⟨sameOp, afterOp⟩ := binSym_unique (List.cons.inj afterL).2
      obtain ⟨relatedR, afterR⟩ := ihR regularA.binary.2 regularB.binary.2 (ended_cons (by decide) _)
        (ended_cons (by decide) _) afterOp
      rw [alike, sameOp, relatedL, relatedR]
      exact ⟨by simp, (List.cons.inj afterR).2⟩
    | unary op' e =>
      simp only [Expr.tail, List.cons_append, List.append_assoc, List.cons.injEq, true_and, List.nil_append] at tails
      exact absurd tails.symm (print_ne_cons regularA.binary.1 (by decide) (ended_cons (by decide) _))
    | literal v => cases (atom_unique rfl regularB regularA endedT endedS same.symm).1
    | path p => cases (atom_unique rfl regularB regularA endedT endedS same.symm).1
    | call name args =>
      obtain ⟨first, more, spelled, -, -⟩ := regularB.call.1
      simp [Expr.word, spelled] at words
  | unary op e ih =>
    intro b s t regularA regularB endedS endedT same
    obtain ⟨words, tails⟩ := words_unique regularA regularB endedS endedT same
    cases op
    cases b with
    | unary op' e' =>
      cases op'
      simp only [Expr.tail, List.cons_append, List.append_assoc, List.cons.injEq, true_and, List.nil_append] at tails
      obtain ⟨related, left⟩ := ih regularA.unary regularB.unary (ended_cons (by decide) _) (ended_cons (by decide) _) tails
      rw [alike]
      exact ⟨related, (List.cons.inj left).2⟩
    | binary op' left right =>
      simp only [Expr.tail, List.cons_append, List.append_assoc, List.cons.injEq, true_and, List.nil_append] at tails
      exact absurd tails (print_ne_cons regularB.binary.1 (by decide) (ended_cons (by decide) _))
    | literal v => cases (atom_unique rfl regularB regularA endedT endedS same.symm).1
    | path p => cases (atom_unique rfl regularB regularA endedT endedS same.symm).1
    | call name args =>
      obtain ⟨first, more, spelled, -, -⟩ := regularB.call.1
      simp [Expr.word, spelled] at words

/-- Regular expressions share a key exactly if they are equal up to literals and paths with one text. -/
theorem print_eq_iff {a b : Expr} (regularA : Regular a) (regularB : Regular b) :
    printExpr platform a = printExpr platform b ↔ alike platform a b = true := by
  constructor
  · intro same
    have nothing : Ended [] := fun _ head => absurd head (by simp)
    exact (unique a regularA regularB nothing nothing (congrArg (· ++ []) same)).1
  · exact print_of_alike

end MiniWaf.Grl
