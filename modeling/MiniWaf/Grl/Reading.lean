import Mathlib.Data.List.Forall2
import MiniWaf.Grl.Printer
import MiniWaf.Grl.Tokens

/-! Readings of expressions, level by level. A text is read whatever follows it,
as long as nothing there continues a token or an operator chain.
-/

set_option autoImplicit false

namespace MiniWaf.Grl

open Peg

/-- `p` reads the front of `s` up to `rest`, give or take implicit whitespace. -/
def Reads {A : Type} (p : Rule A) (s : Text) (a : A) (rest : Text) : Prop :=
  ∃ left, p s = some (a, left) ∧ skipped left = skipped rest ∧ left.length ≤ rest.length

section
variable {A B : Type} {p : Rule A} {s rest : Text} {a : A}

theorem Reads.of_eq (read : p s = some (a, rest)) : Reads p s a rest := ⟨rest, read, rfl, Nat.le_refl _⟩

theorem Reads.of_skipped (read : p s = some (a, skipped rest)) : Reads p s a rest :=
  ⟨skipped rest, read, skipped_skipped rest, length_skipped_le rest⟩

theorem Reads.bind_skip (reads : Reads p s a rest) (f : A → Rule B) :
    (p >>= fun a => skip >>= fun _ => f a) s = f a (skipped rest) := by
  obtain ⟨left, read, same, -⟩ := reads
  rw [bind_of_some _ read, Grl.bind_skip, same]

theorem Reads.map (reads : Reads p s a rest) (f : A → B) : Reads (p >>= fun a => pure (f a)) s (f a) rest := by
  obtain ⟨left, read, same, bound⟩ := reads
  exact ⟨left, bind_of_some _ read, same, bound⟩

theorem Reads.choice_left (reads : Reads p s a rest) (q : Rule A) : Reads (p <|> q) s a rest := by
  obtain ⟨left, read, same, bound⟩ := reads
  exact ⟨left, choice_of_some q read, same, bound⟩

theorem Reads.choice_right {q : Rule A} (fails : q s = none) (reads : Reads p s a rest) : Reads (q <|> p) s a rest := by
  obtain ⟨left, read, same, bound⟩ := reads
  exact ⟨left, (choice_of_none p fails).trans read, same, bound⟩

end

/-- Nothing in `rest` continues an operand or is one of the stops. -/
structure Ends (stops : List Char) (rest : Text) : Prop where
  token : Outside identPart rest
  next : Outside (· ∈ '.' :: '[' :: '(' :: stops) (skipped rest)

theorem Ends.mono {fewer stops : List Char} (subset : fewer ⊆ stops) {rest : Text} (ends : Ends stops rest) :
    Ends fewer rest := by
  refine ⟨ends.token, fun c head => ?_⟩
  have outside := ends.next c head
  simp only [List.mem_cons, decide_eq_false_iff_not, not_or] at outside ⊢
  exact ⟨outside.1, outside.2.1, outside.2.2.1, fun member => outside.2.2.2 (subset member)⟩

theorem ends_of_skipped {stops : List Char} {rest more : Text} {c : Char} (token : Outside identPart rest)
    (next : skipped rest = c :: more) (other : c ∉ '.' :: '[' :: '(' :: stops) : Ends stops rest := by
  refine ⟨token, fun d head => ?_⟩
  rw [next] at head
  simp only [List.head?_cons, Option.mem_def, Option.some.injEq] at head
  subst head
  simpa using other

theorem ends_cons {stops : List Char} {c : Char} (outside : identPart c = false)
    (solid : c ∉ [' ', '\t', '\r', '\n', '/']) (other : c ∉ '.' :: '[' :: '(' :: stops) (rest : Text) :
    Ends stops (c :: rest) :=
  ends_of_skipped (fun d head => by cases head; exact outside) (skipped_cons solid rest) other

theorem ends_space {stops : List Char} {c : Char} (solid : c ∉ [' ', '\t', '\r', '\n', '/'])
    (other : c ∉ '.' :: '[' :: '(' :: stops) (rest : Text) : Ends stops (' ' :: c :: rest) :=
  ends_of_skipped (fun d head => by cases head; rfl) (by rw [skipped_space, skipped_cons solid]) other

def mulStops : List Char := ['*', '/']
def addStops : List Char := ['+', '-'] ++ mulStops
def cmpStops : List Char := ['=', '!', '<', '>'] ++ addStops
def andStops : List Char := '&' :: cmpStops
def orStops : List Char := '|' :: andStops

def Solid (t : Text) : Prop := ∃ c more, t = c :: more ∧ c ∉ [' ', '\t', '\r', '\n', '/']

theorem Solid.append {t : Text} (solid : Solid t) (more : Text) : Solid (t ++ more) := by
  obtain ⟨c, rest, rfl, ok⟩ := solid
  exact ⟨c, rest ++ more, rfl, ok⟩

theorem Solid.skipped {t : Text} (solid : Solid t) (rest : Text) : skipped (t ++ rest) = t ++ rest := by
  obtain ⟨c, more, rfl, ok⟩ := solid
  exact skipped_cons ok _

/-- At a level of the grammar, a text is read as an expression wherever the stops do not follow it;
the brackets it may contain need no more depth than it has characters. -/
structure ReadsAt (level : Rule Expr → Rule Expr) (stops : List Char) (t : Text) (e : Expr) : Prop where
  solid : Solid t
  reads : ∀ depth rest, t.length ≤ depth → Ends stops rest → Reads (level (expression depth)) (t ++ rest) e rest

theorem ReadsAt.mono {level : Rule Expr → Rule Expr} {fewer stops : List Char} {t : Text} {e : Expr}
    (readsAt : ReadsAt level fewer t e) (subset : fewer ⊆ stops) : ReadsAt level stops t e :=
  ⟨readsAt.solid, fun depth rest bound ends => readsAt.reads depth rest bound (ends.mono subset)⟩

-- Repetition

section
variable {A : Type} {item : Rule A}

inductive Items (item : Rule A) : Text → List A → Text → Prop where
  | done {s : Text} : item (skipped s) = none → Items item s [] s
  | step {s next rest : Text} {a : A} {items : List A} : Reads item (skipped s) a next →
      next.length < (skipped s).length → Items item next items rest → Items item s (a :: items) rest

theorem many_items {s rest left : Text} {items : List A} (run : Items item s items rest)
    (same : skipped left = skipped s) (bound : left.length ≤ s.length) :
    ∃ last, many (skip >>= fun _ => item) left = some (items, last) ∧
      skipped last = skipped rest ∧ last.length ≤ rest.length := by
  induction run generalizing left with
  | @done s fails =>
    refine ⟨left, many_of_none ?_, same, bound⟩
    rw [bind_skip, same]
    exact fails
  | @step s next rest a items first shorter _ ih =>
    obtain ⟨middle, read, sameNext, boundNext⟩ := first
    obtain ⟨last, more, sameLast, boundLast⟩ := ih sameNext boundNext
    refine ⟨last, many_of_some (by rw [bind_skip, same]; exact read) ?_ more, sameLast, boundLast⟩
    have blanks := length_skipped_le left
    rw [same] at blanks
    omega

theorem rep_items {s rest : Text} {items : List A} (run : Items item s items rest) :
    Reads (rep item) (skipped s) items rest := by
  cases run with
  | done fails =>
    refine Reads.of_skipped ?_
    exact choice_of_none _ (bind_of_none _ fails)
  | step first shorter run =>
    obtain ⟨left, read, same, bound⟩ := first
    obtain ⟨last, more, sameLast, boundLast⟩ := many_items run same bound
    refine ⟨last, choice_of_some _ ?_, sameLast, boundLast⟩
    rw [bind_of_some _ read, bind_of_some _ more]
    rfl

end

-- Operator chains

section
variable {op : Rule BinOp} {operand : Rule Expr}

def chainItem (op : Rule BinOp) (operand : Rule Expr) : Rule (BinOp × Expr) := do
  let op ← op
  skip
  let right ← operand
  pure (op, right)

theorem chainItem_none {s : Text} (fails : op s = none) : chainItem op operand s = none := bind_of_none _ fails

theorem chainItem_reads {s afterOp next : Text} {o : BinOp} {e : Expr} (first : op s = some (o, afterOp))
    (second : Reads operand (skipped afterOp) e next) : Reads (chainItem op operand) s (o, e) next := by
  obtain ⟨left, read, same, bound⟩ := second
  refine ⟨left, ?_, same, bound⟩
  rw [chainItem, bind_of_some _ first, bind_skip, bind_of_some _ read]
  rfl

theorem leftAssoc_items {s middle rest : Text} {e : Expr} {items : List (BinOp × Expr)}
    (first : Reads operand s e middle) (run : Items (chainItem op operand) middle items rest) :
    Reads (leftAssoc op operand) s (items.foldl (fun left next => .binary next.1 left next.2) e) rest := by
  obtain ⟨left, read, same, bound⟩ := rep_items run
  refine ⟨left, (first.bind_skip _).trans ?_, same, bound⟩
  exact bind_of_some _ read

theorem leftAssoc_single {s rest : Text} {e : Expr} (first : Reads operand s e rest) (fails : op (skipped rest) = none) :
    Reads (leftAssoc op operand) s e rest := leftAssoc_items first (.done (chainItem_none fails))

end

-- Levels

section
variable {stops : List Char} {rest : Text}

theorem word_none_of_ends {w : Text} {c : Char} (ends : Ends stops rest) (stop : c ∈ stops) :
    word (c :: w) (skipped rest) = none := by
  cases shape : skipped rest with
  | nil => exact word_of_not_start (by simp)
  | cons d more =>
    have outside := ends.next d (by simp [shape])
    refine word_of_head_ne fun same => ?_
    subst same
    simp [stop] at outside

theorem mulOp_none (ends : Ends mulStops rest) : mulOp (skipped rest) = none :=
  (choice_of_none _ (bind_of_none _ (word_none_of_ends ends (by decide)))).trans
    (bind_of_none _ (word_none_of_ends ends (by decide)))

theorem addOp_none (ends : Ends addStops rest) : addOp (skipped rest) = none :=
  (choice_of_none _ (bind_of_none _ (word_none_of_ends ends (by decide)))).trans
    (bind_of_none _ (word_none_of_ends ends (by decide)))

theorem cmpOp_none (ends : Ends cmpStops rest) : cmpOp (skipped rest) = none := by
  have fails : ∀ (c : Char) (w : Text) (o : BinOp), c ∈ cmpStops →
      (do word (c :: w); pure o : Rule BinOp) (skipped rest) = none :=
    fun c w o stop => bind_of_none _ (word_none_of_ends ends stop)
  exact (choice_of_none _ (fails '=' ['='] .eq (by decide))).trans
    ((choice_of_none _ (fails '!' ['='] .neq (by decide))).trans
    ((choice_of_none _ (fails '<' ['='] .lte (by decide))).trans
    ((choice_of_none _ (fails '>' ['='] .gte (by decide))).trans
    ((choice_of_none _ (fails '<' [] .lt (by decide))).trans (fails '>' [] .gt (by decide))))))

theorem andOp_none (ends : Ends andStops rest) : (do word ['&', '&']; pure .and : Rule BinOp) (skipped rest) = none :=
  bind_of_none _ (word_none_of_ends ends (by decide))

theorem orOp_none (ends : Ends orStops rest) : (do word ['|', '|']; pure .or : Rule BinOp) (skipped rest) = none :=
  bind_of_none _ (word_none_of_ends ends (by decide))

end

section
variable {t : Text} {e : Expr}

theorem ReadsAt.mul (readsAt : ReadsAt primary mulStops t e) : ReadsAt mulExpr mulStops t e :=
  ⟨readsAt.solid, fun depth rest bound ends =>
    leftAssoc_single (readsAt.reads depth rest bound ends) (mulOp_none ends)⟩

theorem ReadsAt.add (readsAt : ReadsAt mulExpr addStops t e) : ReadsAt addExpr addStops t e :=
  ⟨readsAt.solid, fun depth rest bound ends =>
    leftAssoc_single (readsAt.reads depth rest bound ends) (addOp_none ends)⟩

theorem ReadsAt.cmp (readsAt : ReadsAt addExpr cmpStops t e) : ReadsAt cmpExpr cmpStops t e := by
  refine ⟨readsAt.solid, fun depth rest bound ends => Reads.of_skipped ?_⟩
  refine ((readsAt.reads depth rest bound ends).bind_skip _).trans ?_
  rw [bind_of_some _ (opt_of_none (bind_of_none _ (cmpOp_none ends)))]
  rfl

/-- A comparison never starts with the negation mark. -/
theorem cmpExpr_none (expression : Rule Expr) (s : Text) : cmpExpr expression ('!' :: s) = none := by
  have notIdent : ident ('!' :: s) = none := ident_none (by decide) s
  have atom : primary expression ('!' :: s) = none :=
    (choice_of_none _ (bind_of_none _ (literal_none_of_head (by decide) (by decide)))).trans
      ((choice_of_none _ (bind_of_none _ (bind_of_none _ notIdent))).trans
        ((choice_of_none _ (bind_of_none _ (bind_of_none _ notIdent))).trans
          (bind_of_none _ (word_of_head_ne (by decide)))))
  exact bind_of_none _ (bind_of_none _ (bind_of_none _ atom))

theorem ReadsAt.not (readsAt : ReadsAt cmpExpr cmpStops t e) : ReadsAt notExpr cmpStops t e := by
  refine ⟨readsAt.solid, fun depth rest bound ends => ?_⟩
  obtain ⟨left, read, same, length⟩ := readsAt.reads depth rest bound ends
  refine ⟨left, ?_, same, length⟩
  have unnegated : word ['!'] (t ++ rest) = none := by
    obtain ⟨c, more, rfl, -⟩ := readsAt.solid
    refine word_of_head_ne ?_
    rintro rfl
    rw [List.cons_append, cmpExpr_none] at read
    cases read
  rw [notExpr, bind_of_some _ (opt_of_none unnegated), bind_skip, readsAt.solid.skipped, bind_of_some _ read]
  rfl

theorem ReadsAt.negated (readsAt : ReadsAt cmpExpr cmpStops t e) :
    ReadsAt notExpr cmpStops ('!' :: t) (.unary .not e) := by
  refine ⟨⟨'!', t, rfl, by decide⟩, fun depth rest bound ends => ?_⟩
  obtain ⟨left, read, same, length⟩ := readsAt.reads depth rest (by simp at bound; omega) ends
  refine ⟨left, ?_, same, length⟩
  have mark : opt (word ['!']) ('!' :: t ++ rest) = some (some (), t ++ rest) := opt_of_some (word_append ['!'] _)
  rw [notExpr, bind_of_some _ mark, bind_skip, readsAt.solid.skipped, bind_of_some _ read]
  rfl

theorem ReadsAt.and (readsAt : ReadsAt notExpr andStops t e) : ReadsAt andExpr andStops t e :=
  ⟨readsAt.solid, fun depth rest bound ends =>
    leftAssoc_single (readsAt.reads depth rest bound ends) (andOp_none ends)⟩

theorem ReadsAt.or (readsAt : ReadsAt andExpr orStops t e) : ReadsAt orExpr orStops t e :=
  ⟨readsAt.solid, fun depth rest bound ends =>
    leftAssoc_single (readsAt.reads depth rest bound ends) (orOp_none ends)⟩

theorem ReadsAt.primary_cmp (readsAt : ReadsAt primary [] t e) : ReadsAt cmpExpr cmpStops t e :=
  ((((readsAt.mono (by simp)).mul.mono (by decide)).add.mono (by decide))).cmp

theorem ReadsAt.primary_or (readsAt : ReadsAt primary [] t e) : ReadsAt orExpr orStops t e :=
  ((readsAt.primary_cmp.not.mono (by decide)).and.mono (by decide)).or

theorem ReadsAt.not_or (readsAt : ReadsAt notExpr cmpStops t e) : ReadsAt orExpr orStops t e :=
  ((readsAt.mono (by decide)).and.mono (by decide)).or

theorem ReadsAt.add_or (readsAt : ReadsAt addExpr addStops t e) : ReadsAt orExpr orStops t e :=
  (readsAt.mono (by decide)).cmp.not.not_or

theorem ReadsAt.mul_or (readsAt : ReadsAt mulExpr mulStops t e) : ReadsAt orExpr orStops t e :=
  (readsAt.mono (by decide)).add.add_or

/-- Bracketed text reads as a whole expression once there is one level of depth left. -/
theorem ReadsAt.expression (readsAt : ReadsAt orExpr orStops t e) {depth : Nat} {rest : Text}
    (bound : t.length < depth) (ends : Ends orStops rest) : Reads (expression depth) (t ++ rest) e rest := by
  cases depth with
  | zero => simp at bound
  | succ depth => exact readsAt.reads depth rest (by omega) ends

end

/-- In front of a blank, no whitespace and no comment begins with the text. -/
def Stands (w : Text) : Prop := ∀ rest, skipped (w ++ ' ' :: rest) = w ++ ' ' :: rest

theorem Solid.stands {w : Text} (solid : Solid w) : Stands w := fun rest => solid.skipped (' ' :: rest)

theorem skipped_operator {w : Text} (stands : Stands w) (rest : Text) :
    skipped ([' '] ++ w ++ [' '] ++ rest) = w ++ [' '] ++ rest := by
  rw [List.append_assoc, List.append_assoc, List.singleton_append, skipped_space, List.append_assoc]
  exact stands rest

theorem slash_stands : Stands ['/'] := by
  intro s
  have notBlank : whitespace ('/' :: ' ' :: s) = none := whitespace_none (by decide) _
  have notLine : lineComment ('/' :: ' ' :: s) = none := bind_of_none _ (word_of_not_start (by simp))
  have notBlock : blockComment ('/' :: ' ' :: s) = none := bind_of_none _ (word_of_not_start (by simp))
  exact skipped_of_none ((choice_of_none _ notBlank).trans ((choice_of_none _ notLine).trans notBlock))

theorem binSym_stands (op : BinOp) : Stands (binSym op) := by
  cases op
  case div => exact slash_stands
  all_goals exact Solid.stands ⟨_, _, rfl, by decide⟩

theorem binSym_ends {op : BinOp} {stops : List Char}
    (other : (binSym op).head?.all (· ∉ '.' :: '[' :: '(' :: stops) = true) (rest : Text) :
    Ends stops ([' '] ++ binSym op ++ [' '] ++ rest) := by
  have next := skipped_operator (binSym_stands op) rest
  obtain ⟨c, w, symbol⟩ : ∃ c w, binSym op = c :: w := by cases op <;> exact ⟨_, _, rfl⟩
  rw [symbol] at next other ⊢
  exact ends_of_skipped (fun d head => by cases head; rfl) next (of_decide_eq_true other)

theorem chainItem_infix {op : Rule BinOp} {operand : Rule Expr} {w t rest : Text} {o : BinOp} {e : Expr} (stands : Stands w)
    (solidOperand : Solid t) (opReads : ∀ s, op (w ++ ' ' :: s) = some (o, ' ' :: s))
    (operandReads : Reads operand (t ++ rest) e rest) :
    Reads (chainItem op operand) (skipped ([' '] ++ w ++ [' '] ++ (t ++ rest))) (o, e) rest := by
  rw [skipped_operator stands, List.append_assoc]
  refine chainItem_reads (opReads _) ?_
  change Reads operand (skipped (' ' :: (t ++ rest))) e rest
  rwa [skipped_space, solidOperand.skipped]

theorem cmpOp_run {op : BinOp} (comparison : op ∈ [BinOp.eq, .neq, .lt, .lte, .gt, .gte]) (s : Text) :
    cmpOp (binSym op ++ ' ' :: s) = some (op, ' ' :: s) := by
  simp only [List.mem_cons, List.not_mem_nil, or_false] at comparison
  rcases comparison with rfl | rfl | rfl | rfl | rfl | rfl <;> rfl

theorem ReadsAt.compare {op : BinOp} (comparison : op ∈ [BinOp.eq, .neq, .lt, .lte, .gt, .gte]) {l r : Text}
    {left right : Expr} (readsLeft : ReadsAt addExpr addStops l left) (readsRight : ReadsAt addExpr addStops r right) :
    ReadsAt cmpExpr cmpStops (l ++ [' '] ++ binSym op ++ [' '] ++ r) (.binary op left right) := by
  have other : (binSym op).head?.all (· ∉ '.' :: '[' :: '(' :: addStops) = true := by
    simp only [List.mem_cons, List.not_mem_nil, or_false] at comparison
    rcases comparison with rfl | rfl | rfl | rfl | rfl | rfl <;> decide
  refine ⟨?_, fun depth rest bound ends => ?_⟩
  · obtain ⟨c, more, rfl, ok⟩ := readsLeft.solid
    exact ⟨c, _, rfl, ok⟩
  · simp only [List.length_append] at bound
    have first := readsLeft.reads depth ([' '] ++ binSym op ++ [' '] ++ (r ++ rest)) (by omega) (binSym_ends other _)
    have second := readsRight.reads depth rest (by omega) (ends.mono (by decide))
    obtain ⟨last, read, same, length⟩ :=
      chainItem_infix (binSym_stands op) readsRight.solid (cmpOp_run comparison) second
    refine ⟨last, ?_, same, length⟩
    have shape : l ++ [' '] ++ binSym op ++ [' '] ++ r ++ rest = l ++ ([' '] ++ binSym op ++ [' '] ++ (r ++ rest)) := by
      simp
    rw [shape]
    exact (first.bind_skip _).trans (bind_of_some _ (opt_of_some read))

-- Primary expressions

theorem IsIdent.solid {w : Text} (isIdent : IsIdent w) : Solid w := by
  obtain ⟨c, more, rfl, start, -⟩ := isIdent
  refine ⟨c, more, rfl, ?_⟩
  intro member
  simp only [List.mem_cons, List.not_mem_nil, or_false] at member
  rcases member with rfl | rfl | rfl | rfl | rfl <;> simp [identStart] at start

theorem quoted_solid (body : Text) : Solid (quoted body) := ⟨'"', body ++ ['"'], rfl, by decide⟩

theorem readsAt_string {body : Text} (ok : closes body = true) :
    ReadsAt primary [] (quoted body) (.literal (.str (unquote (quoted body)))) :=
  ⟨quoted_solid body, fun _ rest _ _ =>
    (Reads.of_eq (bind_of_some _ (literal_of_string ok rest))).choice_left _⟩

theorem readsAt_bool (b : Bool) :
    ReadsAt primary [] (if b then "true".toList else "false".toList) (.literal (.bool b)) := by
  refine ⟨?_, fun depth rest _ ends => ?_⟩
  · cases b <;> exact ⟨_, _, rfl, by decide⟩
  · exact (Reads.of_eq (bind_of_some _ (literal_of_bool b ends.token))).choice_left _

theorem readsAt_null : ReadsAt primary [] "null".toList (.literal .null) :=
  ⟨⟨_, _, rfl, by decide⟩, fun _ _ _ ends =>
    (Reads.of_eq (bind_of_some _ (literal_of_null ends.token))).choice_left _⟩

theorem Ends.not_number {stops : List Char} {rest : Text} (ends : Ends stops rest) :
    Outside (fun c => c.isDigit || c = '.') rest := by
  intro c head
  have part := ends.token c head
  have notDigit : c.isDigit = false := by
    simp only [identPart, Char.isAlphanum, Bool.or_eq_false_iff] at part
    exact part.1.2
  have notPoint : c ≠ '.' := by
    rintro rfl
    obtain ⟨more, rfl⟩ : ∃ more, rest = '.' :: more := by
      cases rest with
      | nil => cases head
      | cons d more => cases head; exact ⟨more, rfl⟩
    have next := ends.next '.' (by rw [skipped_cons (by decide)]; rfl)
    simp at next
  simp [notDigit, notPoint]

theorem ofInt_solid (i : Int) : Solid (Text.ofInt i) := by
  cases i with
  | ofNat n =>
    obtain ⟨c, more, shape, digit⟩ := Text.ofNat_eq_cons n
    refine ⟨c, more, shape, fun member => ?_⟩
    simp only [List.mem_cons, List.not_mem_nil, or_false] at member
    rcases member with rfl | rfl | rfl | rfl | rfl <;> simp at digit
  | negSucc n => exact ⟨'-', _, rfl, by decide⟩

theorem readsAt_int (i : Int64) : ReadsAt primary [] (Text.ofInt i.toInt) (.literal (.int i)) :=
  ⟨ofInt_solid _, fun _ _ _ ends =>
    (Reads.of_eq (bind_of_some _ (literal_of_int i ends.not_number))).choice_left _⟩

inductive SegText : Text → PathSeg → Prop where
  | field {w : Text} : IsIdent w → SegText ('.' :: w) (.field (String.ofList w))
  | index {body : Text} : closes body = true →
      SegText ('[' :: quoted body ++ [']']) (.index (unquote (quoted body)))

theorem pathSeg_run {t rest : Text} {seg : PathSeg} (segText : SegText t seg) (outside : Outside identPart rest) :
    pathSeg (t ++ rest) = some (seg, rest) := by
  cases segText with
  | @field w isIdent =>
    refine choice_of_some _ ((bind_of_some _ (word_append ['.'] (w ++ rest))).trans ?_)
    rw [bind_skip, isIdent.solid.skipped, bind_of_some _ (ident_run isIdent outside)]
    rfl
  | @index body ok =>
    have notField : word ['.'] ('[' :: quoted body ++ [']'] ++ rest) = none := word_of_head_ne (by decide)
    refine (choice_of_none _ (bind_of_none _ notField)).trans ?_
    have shape : '[' :: quoted body ++ [']'] ++ rest = ['['] ++ (quoted body ++ (']' :: rest)) := by simp
    rw [shape, bind_of_some _ (word_append _ _), bind_skip, (quoted_solid body).skipped,
      bind_of_some _ (string_run ok _), bind_skip, skipped_cons (by decide)]
    exact bind_of_some _ (word_append [']'] rest)

theorem pathSeg_none {s : Text} (outside : Outside (· ∈ ['.', '[']) s) : pathSeg s = none := by
  cases s with
  | nil => rfl
  | cons c s =>
    have other := outside c rfl
    simp only [List.mem_cons, List.not_mem_nil, or_false, decide_eq_false_iff_not, not_or] at other
    exact (choice_of_none _ (bind_of_none _ (word_of_head_ne (Ne.symm other.1)))).trans
      (bind_of_none _ (word_of_head_ne (Ne.symm other.2)))

theorem SegText.head {t : Text} {seg : PathSeg} (segText : SegText t seg) :
    ∃ c more, t = c :: more ∧ (c = '.' ∨ c = '[') := by
  cases segText with
  | field => exact ⟨_, _, rfl, Or.inl rfl⟩
  | index => exact ⟨_, _, rfl, Or.inr rfl⟩

theorem segments_front {texts : List Text} {segs : List PathSeg} (segTexts : List.Forall₂ SegText texts segs)
    {rest : Text} (ends : Ends [] rest) :
    Outside identPart (texts.flatten ++ rest) ∧ Outside (· = '(') (skipped (texts.flatten ++ rest)) := by
  cases segTexts with
  | nil =>
    refine ⟨ends.token, fun c head => ?_⟩
    have other := ends.next c head
    simp only [List.mem_cons, decide_eq_false_iff_not, not_or] at other
    simpa using other.2.2.1
  | @cons t seg texts segs segText _ =>
    obtain ⟨c, more, rfl, which⟩ := segText.head
    have solid : c ∉ [' ', '\t', '\r', '\n', '/'] := by rcases which with rfl | rfl <;> decide
    refine ⟨fun d head => ?_, fun d head => ?_⟩
    · cases head
      rcases which with rfl | rfl <;> rfl
    · rw [List.flatten_cons, List.cons_append, List.cons_append, skipped_cons solid] at head
      cases head
      rcases which with rfl | rfl <;> rfl

theorem segments_items {texts : List Text} {segs : List PathSeg} (segTexts : List.Forall₂ SegText texts segs)
    {rest : Text} (ends : Ends [] rest) : Items pathSeg (texts.flatten ++ rest) segs rest := by
  induction segTexts with
  | nil =>
    refine .done (pathSeg_none fun c head => ?_)
    have other := ends.next c head
    simp only [List.mem_cons, decide_eq_false_iff_not, not_or] at other
    simp [other.1, other.2.1]
  | @cons t seg texts segs segText segTexts ih =>
    obtain ⟨c, more, shape, which⟩ := segText.head
    have solid : Solid t := ⟨c, more, shape, by rcases which with rfl | rfl <;> decide⟩
    have front := (segments_front segTexts ends).1
    rw [List.flatten_cons, List.append_assoc]
    refine @Items.step _ pathSeg _ (texts.flatten ++ rest) _ _ _ ?_ ?_ ih
    · rw [solid.skipped]
      exact Reads.of_eq (pathSeg_run segText front)
    · rw [solid.skipped, shape]
      simp only [List.cons_append, List.length_append, List.length_cons]
      omega

theorem path_reads {w : Text} (isIdent : IsIdent w) {texts : List Text} {segs : List PathSeg}
    (segTexts : List.Forall₂ SegText texts segs) {rest : Text} (ends : Ends [] rest) :
    Reads path (w ++ texts.flatten ++ rest) ⟨.field (String.ofList w) :: segs⟩ rest := by
  obtain ⟨left, read, same, bound⟩ := rep_items (segments_items segTexts ends)
  refine ⟨left, ?_, same, bound⟩
  rw [List.append_assoc, path, bind_of_some _ (ident_run isIdent (segments_front segTexts ends).1), bind_skip,
    bind_of_some _ read]
  rfl

theorem readsAt_path {w : Text} (isIdent : IsIdent w) (free : w ∉ keywords) {texts : List Text} {segs : List PathSeg}
    (segTexts : List.Forall₂ SegText texts segs) :
    ReadsAt primary [] (w ++ texts.flatten) (.path ⟨.field (String.ofList w) :: segs⟩) := by
  refine ⟨?_, fun depth rest _ ends => ?_⟩
  · exact isIdent.solid.append _
  · obtain ⟨front, noCall⟩ := segments_front segTexts ends
    have notLiteral : literal (w ++ texts.flatten ++ rest) = none := by
      rw [List.append_assoc]
      exact literal_none_of_ident isIdent free front
    have notCall : callExpr (expression depth) (w ++ texts.flatten ++ rest) = none := by
      rw [List.append_assoc, callExpr, bind_of_some _ (ident_run isIdent front), bind_skip]
      refine bind_of_none _ ?_
      cases shape : skipped (texts.flatten ++ rest) with
      | nil => rfl
      | cons c more =>
        have other := noCall c (by simp [shape])
        exact word_of_head_ne (Ne.symm (by simpa using other))
    refine Reads.choice_right (bind_of_none _ notLiteral) (Reads.choice_right (bind_of_none _ notCall) ?_)
    exact ((path_reads isIdent segTexts ends).map _).choice_left _

theorem ident_none_of_bracket {c : Char} (bracket : c ∈ ['(', ')']) (s : Text) :
    literal (c :: s) = none ∧ ident (c :: s) = none := by
  simp only [List.mem_cons, List.not_mem_nil, or_false] at bracket
  rcases bracket with rfl | rfl <;>
    exact ⟨literal_none_of_head (by decide) (by decide), ident_none (by decide) s⟩

/-- At a bracket, a primary expression can only be a group. -/
theorem primary_bracket (expression : Rule Expr) {c : Char} (bracket : c ∈ ['(', ')']) (s : Text) :
    primary expression (c :: s) =
      (do word ['(']; skip; let e ← expression; skip; word [')']; pure e : Rule Expr) (c :: s) := by
  obtain ⟨notLiteral, notIdent⟩ := ident_none_of_bracket bracket s
  exact (choice_of_none _ (bind_of_none _ notLiteral)).trans
    ((choice_of_none _ (bind_of_none _ (bind_of_none _ notIdent))).trans
      (choice_of_none _ (bind_of_none _ (bind_of_none _ notIdent))))

theorem readsAt_group {t : Text} {e : Expr} (readsAt : ReadsAt orExpr orStops t e) :
    ReadsAt primary [] ('(' :: t ++ [')']) e := by
  refine ⟨⟨'(', _, rfl, by decide⟩, fun depth rest bound _ => Reads.of_eq ?_⟩
  have inner : Reads (expression depth) (t ++ ')' :: rest) e (')' :: rest) :=
    readsAt.expression (by simp at bound; omega) (ends_cons (by decide) (by decide) (by decide) rest)
  have shape : '(' :: t ++ [')'] ++ rest = '(' :: (t ++ ')' :: rest) := by simp
  rw [shape, primary_bracket _ (by simp), bind_of_some _ (word_single _ _), bind_skip, readsAt.solid.skipped]
  refine (inner.bind_skip _).trans ?_
  rw [skipped_cons (by decide)]
  exact bind_of_some _ (word_append [')'] rest)

theorem expression_none (depth : Nat) (s : Text) : expression depth (')' :: s) = none := by
  cases depth with
  | zero => rfl
  | succ depth =>
    have atom : primary (expression depth) (')' :: s) = none :=
      (primary_bracket _ (by simp) _).trans (bind_of_none _ (word_of_head_ne (by decide)))
    have sum : addExpr (expression depth) (')' :: s) = none := bind_of_none _ (bind_of_none _ atom)
    have negation : notExpr (expression depth) (')' :: s) = none := by
      rw [notExpr, bind_of_some _ (opt_of_none (word_of_head_ne (by decide))), bind_skip,
        skipped_cons (by decide)]
      exact bind_of_none _ (bind_of_none _ sum)
    exact bind_of_none _ (bind_of_none _ negation)

-- Calls

def nextArg (expression : Rule Expr) : Rule Expr := do
  word [',']
  skip
  expression

abbrev AllRead (texts : List Text) (exprs : List Expr) : Prop := List.Forall₂ (ReadsAt orExpr orStops) texts exprs

theorem ends_args (blank : Text) (texts : List Text) (rest : Text) :
    Ends orStops ((texts.flatMap fun t => ',' :: blank ++ t) ++ ')' :: rest) := by
  cases texts with
  | nil => exact ends_cons (by decide) (by decide) (by decide) _
  | cons t texts =>
    rw [List.flatMap_cons, List.append_assoc, List.cons_append, List.cons_append]
    exact ends_cons (by decide) (by decide) (by decide) _

theorem args_items {blank : Text} (blanks : ∀ s, skipped (blank ++ s) = skipped s) {texts : List Text}
    {exprs : List Expr} (all : AllRead texts exprs) (depth : Nat)
    (bound : (texts.flatMap fun t => ',' :: blank ++ t).length ≤ depth) (rest : Text) :
    Items (nextArg (expression depth)) ((texts.flatMap fun t => ',' :: blank ++ t) ++ ')' :: rest) exprs
      (')' :: rest) := by
  induction all with
  | nil =>
    refine .done ?_
    rw [List.flatMap_nil, List.nil_append, skipped_cons (by decide)]
    exact bind_of_none _ (word_of_head_ne (by decide))
  | @cons t e texts exprs readsAt all ih =>
    rw [List.flatMap_cons, List.length_append] at bound
    have front : ∀ s, skipped ((',' :: blank ++ t) ++ s) = [','] ++ (blank ++ t ++ s) := by
      intro s
      rw [List.cons_append, List.cons_append, skipped_cons (by decide)]
      simp
    rw [List.flatMap_cons, List.append_assoc]
    refine .step ?_ ?_ (ih (by omega))
    · rw [front]
      have deep : t.length < depth := by
        simp at bound
        omega
      obtain ⟨left, read, same, length⟩ := readsAt.expression deep (ends_args blank texts rest)
      refine ⟨left, ?_, same, length⟩
      rw [nextArg, bind_of_some _ (word_append _ _), bind_skip, List.append_assoc, blanks, readsAt.solid.skipped]
      exact read
    · rw [front]
      simp
      omega

def argTexts (blank : Text) (texts : List Text) : Text := Text.join (',' :: blank) texts

theorem argTexts_cons (blank t : Text) (texts : List Text) :
    argTexts blank (t :: texts) = t ++ texts.flatMap fun t => ',' :: blank ++ t := Text.join_cons _ _ _

theorem argList_reads {blank : Text} (blanks : ∀ s, skipped (blank ++ s) = skipped s) {t : Text} {e : Expr}
    {texts : List Text} {exprs : List Expr} (first : ReadsAt orExpr orStops t e) (all : AllRead texts exprs)
    (depth : Nat) (bound : (argTexts blank (t :: texts)).length < depth) (rest : Text) :
    Reads (argList (expression depth)) (argTexts blank (t :: texts) ++ ')' :: rest) (e :: exprs) (')' :: rest) := by
  rw [argTexts_cons, List.length_append] at bound
  rw [argTexts_cons, List.append_assoc]
  have run := args_items blanks all depth (by omega) rest
  obtain ⟨left, read, same, length⟩ := rep_items run
  refine ⟨left, ?_, same, length⟩
  refine ((first.expression (by omega) (ends_args blank texts rest)).bind_skip _).trans ?_
  exact bind_of_some _ read

def callText (name blank : Text) (texts : List Text) : Text := name ++ '(' :: argTexts blank texts ++ [')']

theorem callText_solid {name : Text} (isIdent : IsIdent name) (blank : Text) (texts : List Text) :
    Solid (callText name blank texts) := by
  rw [callText, List.append_assoc]
  exact isIdent.solid.append _

theorem callExpr_run {blank name : Text} (blanks : ∀ s, skipped (blank ++ s) = skipped s) (isIdent : IsIdent name)
    {texts : List Text} {exprs : List Expr} (all : AllRead texts exprs) {depth : Nat}
    (bound : (callText name blank texts).length ≤ depth) (rest : Text) :
    callExpr (expression depth) (callText name blank texts ++ rest) =
      some (⟨String.ofList name, exprs⟩, rest) := by
  have shape : callText name blank texts ++ rest = name ++ ('(' :: (argTexts blank texts ++ ')' :: rest)) := by
    simp [callText]
  have outside : Outside identPart ('(' :: (argTexts blank texts ++ ')' :: rest)) := fun c head => by
    cases head
    rfl
  rw [shape, callExpr, bind_of_some _ (ident_run isIdent outside), bind_skip, skipped_cons (by decide),
    bind_of_some _ (word_single _ _), bind_skip]
  cases all with
  | nil =>
    have noArgs : argList (expression depth) (')' :: rest) = none := bind_of_none _ (expression_none depth rest)
    rw [argTexts, Text.join_nil, List.nil_append, skipped_cons (by decide), bind_of_some _ (opt_of_none noArgs),
      bind_skip, skipped_cons (by decide)]
    exact bind_of_some _ (word_append [')'] rest)
  | @cons t e texts exprs first all =>
    have solid : Solid (argTexts blank (t :: texts)) := by
      obtain ⟨c, more, rfl, ok⟩ := first.solid
      exact ⟨c, _, argTexts_cons _ _ _, ok⟩
    simp only [callText, List.length_append, List.length_cons] at bound
    obtain ⟨left, read, same, -⟩ := argList_reads blanks first all depth (by omega) rest
    rw [solid.skipped, bind_of_some _ (opt_of_some read), bind_skip, same, skipped_cons (by decide)]
    exact bind_of_some _ (word_append [')'] rest)

theorem readsAt_call {blank name : Text} (blanks : ∀ s, skipped (blank ++ s) = skipped s) (isIdent : IsIdent name)
    (free : name ∉ keywords) {texts : List Text} {exprs : List Expr} (all : AllRead texts exprs) :
    ReadsAt primary [] (callText name blank texts) (.call (String.ofList name) exprs) := by
  refine ⟨?_, fun depth rest bound _ => ?_⟩
  · exact callText_solid isIdent blank texts
  · have notLiteral : literal (callText name blank texts ++ rest) = none := by
      have shape : callText name blank texts ++ rest = name ++ ('(' :: (argTexts blank texts ++ ')' :: rest)) := by
        simp [callText]
      rw [shape]
      exact literal_none_of_ident isIdent free fun c head => by cases head; rfl
    refine Reads.choice_right (bind_of_none _ notLiteral) (Reads.choice_left ?_ _)
    exact Reads.of_eq (bind_of_some _ (callExpr_run blanks isIdent all bound rest))

-- Comments after an operand, and joined conditions

/-- What is skipped after an operand belongs to the whitespace of the operator chain. -/
theorem readsAt_note {t tail : Text} {e : Expr} (readsAt : ReadsAt primary [] t e)
    (blank : ∀ s, skipped (tail ++ s) = skipped s) (gap : ∃ more, tail = ' ' :: more) :
    ReadsAt mulExpr mulStops (t ++ tail) e := by
  refine ⟨?_, fun depth rest bound ends => ?_⟩
  · exact readsAt.solid.append _
  · rw [List.length_append] at bound
    have afterTail : Ends mulStops (tail ++ rest) := by
      refine ⟨fun c head => ?_, by rw [blank]; exact ends.next⟩
      obtain ⟨more, rfl⟩ := gap
      cases head
      rfl
    have fails : mulOp (skipped (tail ++ rest)) = none := mulOp_none afterTail
    have first := readsAt.reads depth (tail ++ rest) (by omega) (afterTail.mono (by simp))
    rw [List.append_assoc]
    refine Reads.of_skipped ((first.bind_skip _).trans ?_)
    rw [bind_of_some _ (choice_of_none _ (bind_of_none _ (bind_of_none _ fails))), blank]
    rfl

section
variable {level : Rule Expr → Rule Expr} {stops : List Char} {op : Rule BinOp} {w : Text} {o : BinOp}

theorem ends_join (between : ∀ s, Ends stops ([' '] ++ w ++ [' '] ++ s)) (texts : List Text) {rest : Text}
    (ends : Ends stops rest) : Ends stops ((texts.flatMap fun t => [' '] ++ w ++ [' '] ++ t) ++ rest) := by
  cases texts with
  | nil => exact ends
  | cons t texts =>
    rw [List.flatMap_cons, List.append_assoc, List.append_assoc]
    exact between _

theorem join_items (stands : Stands w) (opReads : ∀ s, op (w ++ ' ' :: s) = some (o, ' ' :: s))
    (between : ∀ s, Ends stops ([' '] ++ w ++ [' '] ++ s)) {texts : List Text} {exprs : List Expr}
    (all : List.Forall₂ (ReadsAt level stops) texts exprs) (depth : Nat)
    (bound : (texts.flatMap fun t => [' '] ++ w ++ [' '] ++ t).length ≤ depth) {rest : Text} (ends : Ends stops rest)
    (fails : chainItem op (level (expression depth)) (skipped rest) = none) :
    Items (chainItem op (level (expression depth))) ((texts.flatMap fun t => [' '] ++ w ++ [' '] ++ t) ++ rest)
      (exprs.map (Prod.mk o)) rest := by
  induction all with
  | nil => exact .done fails
  | @cons t e texts exprs readsAt all ih =>
    rw [List.flatMap_cons, List.length_append, List.length_append] at bound
    have after : Ends stops ((texts.flatMap fun t => [' '] ++ w ++ [' '] ++ t) ++ rest) := ends_join between texts ends
    rw [List.flatMap_cons, List.append_assoc, List.append_assoc, List.map_cons]
    refine .step ?_ ?_ (ih (by omega))
    · exact chainItem_infix stands readsAt.solid opReads (readsAt.reads depth _ (by omega) after)
    · rw [skipped_operator stands]
      simp only [List.length_append, List.length_cons]
      omega

theorem readsAt_join (stands : Stands w) (opReads : ∀ s, op (w ++ ' ' :: s) = some (o, ' ' :: s))
    (between : ∀ s, Ends stops ([' '] ++ w ++ [' '] ++ s)) {after : List Char} (subset : stops ⊆ after)
    (fails : ∀ {rest}, Ends after rest → op (skipped rest) = none) {t : Text} {e : Expr} {texts : List Text}
    {exprs : List Expr} (first : ReadsAt level stops t e) (all : List.Forall₂ (ReadsAt level stops) texts exprs) :
    ReadsAt (fun expression => leftAssoc op (level expression)) after
      (Text.join ([' '] ++ w ++ [' ']) (t :: texts)) (exprs.foldl (Expr.binary o) e) := by
  rw [Text.join_cons]
  refine ⟨?_, fun depth rest bound ends => ?_⟩
  · exact first.solid.append _
  · rw [List.length_append] at bound
    have run := join_items stands opReads between all depth (by omega) (ends.mono subset)
      (chainItem_none (fails ends))
    have front : Ends stops ((texts.flatMap fun t => [' '] ++ w ++ [' '] ++ t) ++ rest) :=
      ends_join between texts (ends.mono subset)
    have whole := leftAssoc_items (first.reads depth _ (by omega) front) run
    rw [List.foldl_map] at whole
    rwa [List.append_assoc]

end

section
variable {level : Rule Expr → Rule Expr} {stops after : List Char} {op : Rule BinOp} {o : BinOp}

theorem readsAt_operator (opReads : ∀ s, op (binSym o ++ ' ' :: s) = some (o, ' ' :: s))
    (other : (binSym o).head?.all (· ∉ '.' :: '[' :: '(' :: stops) = true) (subset : stops ⊆ after)
    (fails : ∀ {rest}, Ends after rest → op (skipped rest) = none) {l r : Text} {left right : Expr}
    (first : ReadsAt level stops l left) (second : ReadsAt level stops r right) :
    ReadsAt (fun expression => leftAssoc op (level expression)) after (l ++ ' ' :: (binSym o ++ ' ' :: r))
      (.binary o left right) := by
  have shape : l ++ ' ' :: (binSym o ++ ' ' :: r) = Text.join ([' '] ++ binSym o ++ [' ']) [l, r] := by simp
  rw [shape]
  exact readsAt_join (binSym_stands o) opReads (binSym_ends other) subset fails first (.cons second .nil)

end

theorem readsAt_conjunction {t : Text} {e : Expr} {texts : List Text} {exprs : List Expr}
    (first : ReadsAt notExpr cmpStops t e) (all : List.Forall₂ (ReadsAt notExpr cmpStops) texts exprs) :
    ReadsAt andExpr andStops (Text.join " && ".toList (t :: texts)) (exprs.foldl (Expr.binary .and) e) :=
  readsAt_join (Solid.stands ⟨'&', ['&'], rfl, by decide⟩) (fun _ => rfl)
    (fun s => ends_space (by decide) (by decide) _) (by decide) andOp_none first all

theorem readsAt_disjunction {t : Text} {e : Expr} {texts : List Text} {exprs : List Expr}
    (first : ReadsAt notExpr cmpStops t e) (all : List.Forall₂ (ReadsAt notExpr cmpStops) texts exprs) :
    ReadsAt orExpr orStops (Text.join " || ".toList (t :: texts)) (exprs.foldl (Expr.binary .or) e) := by
  have conjuncts : List.Forall₂ (ReadsAt andExpr andStops) texts exprs :=
    all.imp fun _ _ readsAt => (readsAt.mono (by decide)).and
  exact readsAt_join (Solid.stands ⟨'|', ['|'], rfl, by decide⟩) (fun _ => rfl)
    (fun s => ends_space (by decide) (by decide) _) (by decide) orOp_none (first.mono (by decide)).and conjuncts

end MiniWaf.Grl
