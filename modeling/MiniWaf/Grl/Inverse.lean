import MiniWaf.Grl.Names
import MiniWaf.Grl.Rules

/-! Parsing inverts printing: the canonical text of an expression reads back as
that expression, with one pair of brackets for every operator and none to spare.
-/

set_option autoImplicit false

namespace MiniWaf.Grl

open Peg

-- Expressions whose text needs no escapes

/-- No float, and in strings nothing but printable ASCII without quotes and backslashes. -/
def Value.plain : Value → Bool
  | .float _ => false
  | .str s => s.toList.all Platform.plainChar
  | _ => true

def PathSeg.plain : PathSeg → Bool
  | .field _ => true
  | .index key => key.toList.all Platform.plainChar

namespace Expr

mutual
def plain : Expr → Bool
  | .literal v => v.plain
  | .path p => p.segments.all PathSeg.plain
  | .call _ args => plainAll args
  | .binary _ left right => plain left && plain right
  | .unary _ e => plain e

def plainAll : List Expr → Bool
  | [] => true
  | a :: rest => plain a && plainAll rest
end

theorem plainAll_eq (args : List Expr) : plainAll args = args.all plain := by
  induction args with
  | nil => rfl
  | cons a rest ih => rw [plainAll, List.all_cons, ih]

end Expr

theorem not_mem_of_plain {s : Text} (ordinary : s.all Platform.plainChar = true) : '"' ∉ s ∧ '\\' ∉ s := by
  constructor
  · intro member
    have kept := List.all_eq_true.mp ordinary _ member
    cases kept
  · intro member
    have kept := List.all_eq_true.mp ordinary _ member
    cases kept

theorem quoted_of_plain {s : String} (ordinary : s.toList.all Platform.plainChar = true) :
    closes s.toList = true ∧ unquote (quoted s.toList) = s := by
  obtain ⟨noQuote, noBackslash⟩ := not_mem_of_plain ordinary
  exact ⟨closes_of_plain noQuote noBackslash, unquote_of_plain noQuote noBackslash⟩

-- One operator between two operands

theorem readsAt_binary (op : BinOp) {l r : Text} {left right : Expr} (first : ReadsAt primary [] l left)
    (second : ReadsAt primary [] r right) :
    ReadsAt orExpr orStops (l ++ ' ' :: (binSym op ++ ' ' :: r)) (.binary op left right) := by
  have factors : ReadsAt mulExpr mulStops l left ∧ ReadsAt mulExpr mulStops r right :=
    ⟨(first.mono (List.nil_subset _)).mul, (second.mono (List.nil_subset _)).mul⟩
  have terms : ReadsAt addExpr addStops l left ∧ ReadsAt addExpr addStops r right :=
    ⟨(factors.1.mono (by decide)).add, (factors.2.mono (by decide)).add⟩
  have conjuncts : ReadsAt notExpr cmpStops l left ∧ ReadsAt notExpr cmpStops r right :=
    ⟨first.primary_cmp.not, second.primary_cmp.not⟩
  have disjuncts : ReadsAt andExpr andStops l left ∧ ReadsAt andExpr andStops r right :=
    ⟨(conjuncts.1.mono (by decide)).and, (conjuncts.2.mono (by decide)).and⟩
  have compared (comparison : op ∈ [BinOp.eq, .neq, .lt, .lte, .gt, .gte]) :
      ReadsAt orExpr orStops (l ++ ' ' :: (binSym op ++ ' ' :: r)) (.binary op left right) := by
    have shape : l ++ ' ' :: (binSym op ++ ' ' :: r) = l ++ [' '] ++ binSym op ++ [' '] ++ r := by simp
    rw [shape]
    exact (ReadsAt.compare comparison terms.1 terms.2).not.not_or
  cases op with
  | or => exact readsAt_operator (fun _ => rfl) (by decide) (by decide) orOp_none disjuncts.1 disjuncts.2
  | and =>
    have joined : ReadsAt andExpr andStops (l ++ ' ' :: (binSym .and ++ ' ' :: r)) (.binary .and left right) :=
      readsAt_operator (fun _ => rfl) (by decide) (by decide) andOp_none conjuncts.1 conjuncts.2
    exact (joined.mono (by decide)).or
  | add =>
    exact ReadsAt.add_or (readsAt_operator (fun _ => rfl) (by decide) (by decide) addOp_none factors.1 factors.2)
  | sub =>
    exact ReadsAt.add_or (readsAt_operator (fun _ => rfl) (by decide) (by decide) addOp_none factors.1 factors.2)
  | mul => exact ReadsAt.mul_or (readsAt_operator (fun _ => rfl) (by decide) (by decide) mulOp_none first second)
  | div => exact ReadsAt.mul_or (readsAt_operator (fun _ => rfl) (by decide) (by decide) mulOp_none first second)
  | eq => exact compared (by decide)
  | neq => exact compared (by decide)
  | lt => exact compared (by decide)
  | lte => exact compared (by decide)
  | gt => exact compared (by decide)
  | gte => exact compared (by decide)

-- The printed text

variable {platform : Platform}

theorem debug_of_plain {s : String} (ordinary : s.toList.all Platform.plainChar = true) :
    platform.debug s = quoted s.toList := by
  rw [Platform.debug, platform.debugBody_of_plain ordinary, quoted]

theorem fmtValue_reads {v : Value} (plain : v.plain = true) : ReadsAt primary [] (fmtValue platform v) (.literal v) := by
  cases v with
  | null => exact readsAt_null
  | bool b => exact readsAt_bool b
  | int i => exact readsAt_int i
  | float f => cases plain
  | str s =>
    obtain ⟨ok, same⟩ := quoted_of_plain plain
    have read := readsAt_string ok
    rw [same] at read
    rw [fmtValue, debug_of_plain plain]
    exact read

theorem segText_display {seg : PathSeg} (named : seg.Named) (plain : seg.plain = true) :
    SegText (seg.display false) seg := by
  cases seg with
  | field name =>
    have text := SegText.field named
    rwa [String.ofList_toList] at text
  | index key =>
    obtain ⟨ok, same⟩ := quoted_of_plain plain
    have text := SegText.index ok
    have shape : '[' :: quoted key.toList ++ [']'] = PathSeg.display false (.index key) := by
      simp [quoted, PathSeg.display]
    rwa [same, shape] at text

theorem display_reads {w : Text} {segs : List PathSeg} (isIdent : IsIdent w) (free : w ∉ keywords)
    (named : ∀ seg ∈ segs, seg.Named) (plain : ∀ seg ∈ segs, seg.plain = true) :
    ReadsAt primary [] (Path.display ⟨.field (String.ofList w) :: segs⟩) (.path ⟨.field (String.ofList w) :: segs⟩) := by
  have texts : List.Forall₂ SegText (segs.map (PathSeg.display false)) segs := by
    rw [List.forall₂_map_left_iff, List.forall₂_same]
    exact fun seg member => segText_display (named seg member) (plain seg member)
  have shape : Path.display ⟨.field (String.ofList w) :: segs⟩ = w ++ (segs.map (PathSeg.display false)).flatten := by
    change [] ++ (String.ofList w).toList ++ segs.flatMap (PathSeg.display false) = _
    rw [List.nil_append, String.toList_ofList, List.flatMap_def]
  rw [shape]
  exact readsAt_path isIdent free texts

/-- The text of an expression is a primary expression: every operator stands between brackets. -/
theorem printExpr_reads {e : Expr} (written : Written e) (plain : e.plain = true) :
    ReadsAt primary [] (printExpr platform e) e := by
  induction written with
  | literal v => exact fmtValue_reads plain
  | path isIdent free named =>
    rw [Expr.plain, List.all_cons, Bool.and_eq_true] at plain
    exact display_reads isIdent free named (List.all_eq_true.mp plain.2)
  | @call w args isIdent free _ ih =>
    rw [Expr.plain, Expr.plainAll_eq] at plain
    have all : AllRead (printArgs platform args) args := by
      rw [printArgs_eq_map, AllRead, List.forall₂_map_left_iff, List.forall₂_same]
      exact fun a member => (ih a member (List.all_eq_true.mp plain a member)).primary_or
    have call : ReadsAt primary [] (callText w [] (printArgs platform args)) (.call (String.ofList w) args) :=
      readsAt_call (fun _ => rfl) isIdent free all
    rw [printExpr, String.toList_ofList]
    exact call
  | @binary op left right _ _ readsLeft readsRight =>
    rw [Expr.plain, Bool.and_eq_true] at plain
    have shape : printExpr platform (.binary op left right) =
        '(' :: (printExpr platform left ++ ' ' :: (binSym op ++ ' ' :: printExpr platform right)) ++ [')'] := by
      simp [printExpr]
    rw [shape]
    exact readsAt_group (readsAt_binary op (readsLeft plain.1) (readsRight plain.2))
  | negated _ ih => exact readsAt_group (ih plain).primary_cmp.negated.not_or

-- The rule around a condition

def whenRule (when : Text) : Text :=
  "rule ".toList ++ (quoted ['n'] ++ (" \x7b when ".toList ++ (when ++ " then allow(); \x7d".toList)))

def whenAst (e : Expr) : RuleAst := ⟨"n", 0, e, [.call ⟨"allow", []⟩]⟩

theorem allow_reads : ReadsStmt "allow();".toList (.call ⟨"allow", []⟩) := by
  have call : ReadsStmt (callText "allow".toList [] [] ++ [';']) (.call ⟨String.ofList "allow".toList, []⟩) :=
    readsStmt_call (fun _ => rfl) (by decide) .nil
  exact call

def whenTail (rest : Text) : Text := ' ' :: ("then".toList ++ ' ' :: ("allow();".toList ++ ' ' :: '\x7d' :: rest))

theorem whenRule_append (when rest : Text) : whenRule when ++ rest =
    "rule".toList ++ ' ' :: (quoted ['n'] ++ ' ' :: '\x7b' :: ' ' :: ("when".toList ++ ' ' :: (when ++ whenTail rest))) := by
  simp only [whenRule, whenTail, List.append_assoc]
  rfl

theorem readsRule_when {t : Text} {e : Expr} (condition : ReadsAt orExpr orStops t e) :
    ReadsRule (whenRule t) (whenAst e) := by
  have ruleSolid : Solid "rule ".toList := ⟨_, _, rfl, by decide⟩
  have whenSolid : Solid "when".toList := ⟨_, _, rfl, by decide⟩
  have thenSolid : Solid "then".toList := ⟨_, _, rfl, by decide⟩
  refine ⟨ruleSolid.append _, fun depth rest bound => ?_⟩
  have lengths : t.length < depth ∧ "allow();".toList.length ≤ depth := by
    have stmt : "allow();".toList.length = 8 := rfl
    have tail : " then allow(); \x7d".toList.length = 16 := rfl
    simp only [whenRule, quoted, List.length_append, tail] at bound
    omega
  have noSalience (s : Text) : opt (do word "salience".toList; skip; integer : Rule Text) ('\x7b' :: s) =
      some (none, '\x7b' :: s) := opt_of_none (bind_of_none _ (word_of_head_ne (by decide)))
  have conditionReads : Reads (expression depth) (t ++ whenTail rest) e (whenTail rest) :=
    condition.expression lengths.1 (ends_space (by decide) (by decide) _)
  have noMore : Items (statement depth) (' ' :: '\x7d' :: rest) [] (' ' :: '\x7d' :: rest) := by
    refine .done ?_
    rw [skipped_space, skipped_cons (by decide)]
    exact statement_none depth rest
  obtain ⟨left, more, same, -⟩ := rep_items noMore
  rw [whenRule_append, ruleDef, bind_of_some _ (word_append _ _), bind_skip, skipped_space, (quoted_solid _).skipped,
    bind_of_some _ (string_run (by decide) _), bind_skip, skipped_space, skipped_cons (by decide),
    bind_of_some _ (noSalience _), bind_skip, skipped_cons (by decide), bind_of_some _ (word_single _ _), bind_skip,
    skipped_space, whenSolid.skipped, bind_of_some _ (word_append _ _), bind_skip, skipped_space,
    condition.solid.skipped]
  refine (conditionReads.bind_skip _).trans ?_
  rw [whenTail, skipped_space, thenSolid.skipped, bind_of_some _ (word_append _ _), bind_skip, skipped_space,
    allow_reads.solid.skipped, bind_of_some _ (allow_reads.reads depth _ lengths.2), bind_skip, bind_of_some _ more,
    bind_skip, same, skipped_space, skipped_cons (by decide), bind_of_some _ (word_single _ _)]
  rfl

theorem parse_whenRule {t : Text} {e : Expr} (condition : ReadsAt orExpr orStops t e) :
    parse (whenRule t) = some [whenAst e] := by
  have alone : fileText [] [whenRule t] = whenRule t := by simp [fileText]
  rw [← alone]
  exact parse_fileText (fun _ => rfl) (.cons (readsRule_when condition) .nil)

/-- An expression that the parser reads somewhere: a condition, an assigned value or an argument. -/
def Produced (e : Expr) : Prop := ∃ depth s rest, expression depth s = some (e, rest)

theorem produced_of_parse {src : Text} {rules : List RuleAst} (parsed : parse src = some rules) :
    ∀ r ∈ rules, Produced r.when := by
  have ensures (depth : Nat) : Ensures (expression depth) Produced := ⟨fun s _ rest read => ⟨depth, s, rest, read⟩⟩
  exact when_of_parse ensures parsed

theorem Produced.written {e : Expr} (produced : Produced e) : Written e := by
  obtain ⟨depth, s, rest, read⟩ := produced
  exact (ensures_expression depth).value s e rest read

theorem parse_printExpr {e : Expr} (written : Written e) (plain : e.plain = true) :
    parse (whenRule (printExpr platform e)) = some [whenAst e] :=
  parse_whenRule (printExpr_reads written plain).primary_or

/-- The printed text of a plain expression parses to it and to nothing else, so no two of them share a text. -/
theorem parse_inverts_print {e : Expr} (produced : Produced e) (plain : e.plain = true) :
    parse (whenRule (printExpr platform e)) = some [whenAst e] ∧
      ∀ e', Produced e' → e'.plain = true → printExpr platform e' = printExpr platform e → e' = e := by
  have parsed : parse (whenRule (printExpr platform e)) = some [whenAst e] := parse_printExpr produced.written plain
  refine ⟨parsed, ?_⟩
  intro e' produced' plain' same
  have parsed' : parse (whenRule (printExpr platform e')) = some [whenAst e'] :=
    parse_printExpr produced'.written plain'
  rw [same, parsed] at parsed'
  cases parsed'
  rfl

def mixed : Expr :=
  .binary .sub
    (.binary .div (.literal (.int 7)) (.path ⟨[.field "Request", .field "Headers", .index "a b"]⟩))
    (.unary .not (.call "f" [.literal (.int (-5)), .literal (.bool true)]))

theorem parse_inverts_print_mixed :
    parse (whenRule (printExpr .plain mixed)) = some [whenAst mixed] ∧
      ∀ e', Produced e' → e'.plain = true → printExpr .plain e' = printExpr .plain mixed → e' = mixed := by
  have produced : Produced mixed :=
    ⟨3, "7/Request.Headers[ \"a b\" ] - (! f(-5, true)) // note".toList, [], by decide +kernel⟩
  exact parse_inverts_print produced (by decide)

end MiniWaf.Grl
