import MiniWaf.Grl.Conversion

/-! Texts the parser turns down: an empty list of conditions leaves a pair of
brackets with nothing between them, and no reading gets past it.
-/

set_option autoImplicit false

namespace MiniWaf.Grl

open Peg

/-- At a level of the grammar, nothing is read where the text begins. -/
structure FailsAt (level : Rule Expr → Rule Expr) (t : Text) : Prop where
  solid : Solid t
  fails : ∀ depth rest, t.length ≤ depth → level (expression depth) (t ++ rest) = none

/-- If anything is read where the text begins, one of the marks is left in front. -/
def StuckAt (level : Rule Expr → Rule Expr) (marks : List Char) (t : Text) : Prop :=
  ∀ depth rest e left, t.length ≤ depth → level (expression depth) (t ++ rest) = some (e, left) →
    ∃ c more, skipped left = c :: more ∧ c ∈ marks

section
variable {t : Text}

theorem FailsAt.append {level : Rule Expr → Rule Expr} (failsAt : FailsAt level t) (more : Text) :
    FailsAt level (t ++ more) := by
  refine ⟨failsAt.solid.append more, fun depth rest bound => ?_⟩
  rw [List.append_assoc]
  exact failsAt.fails depth _ (by rw [List.length_append] at bound; omega)

theorem FailsAt.stuck {level : Rule Expr → Rule Expr} (failsAt : FailsAt level t) (marks : List Char) :
    StuckAt level marks t := by
  intro depth rest e left bound read
  rw [failsAt.fails depth rest bound] at read
  cases read

theorem FailsAt.cmp (failsAt : FailsAt primary t) : FailsAt cmpExpr t :=
  ⟨failsAt.solid, fun depth rest bound =>
    bind_of_none _ (bind_of_none _ (bind_of_none _ (failsAt.fails depth rest bound)))⟩

theorem FailsAt.not (failsAt : FailsAt cmpExpr t) (bracket : ∃ more, t = '(' :: more) : FailsAt notExpr t := by
  refine ⟨failsAt.solid, fun depth rest bound => ?_⟩
  have unnegated : word ['!'] (t ++ rest) = none := by
    obtain ⟨more, rfl⟩ := bracket
    exact word_of_head_ne (by decide)
  rw [notExpr, bind_of_some _ (opt_of_none unnegated), bind_skip, failsAt.solid.skipped]
  exact bind_of_none _ (failsAt.fails depth rest bound)

theorem FailsAt.chain {level : Rule Expr → Rule Expr} (failsAt : FailsAt level t) (op : Rule BinOp) :
    FailsAt (fun expression => leftAssoc op (level expression)) t :=
  ⟨failsAt.solid, fun depth rest bound => bind_of_none _ (failsAt.fails depth rest bound)⟩

theorem FailsAt.and (failsAt : FailsAt notExpr t) : FailsAt andExpr t := failsAt.chain _

theorem FailsAt.or (failsAt : FailsAt notExpr t) : FailsAt orExpr t := failsAt.and.chain _

theorem StuckAt.or (stuck : StuckAt andExpr ['&'] t) : StuckAt orExpr ['&'] t := by
  intro depth rest e left bound read
  obtain ⟨first, middle, firstRead, read⟩ := exists_of_bind read
  obtain ⟨c, more, shape, mark⟩ := stuck depth rest first middle bound firstRead
  obtain rfl := List.mem_singleton.mp mark
  have fails : (do word ['|', '|']; pure .or : Rule BinOp) (skipped middle) = none := by
    rw [shape]
    exact bind_of_none _ (word_of_head_ne (by decide))
  have chain := rep_items (.done (chainItem_none fails) : Items (chainItem _ (andExpr (expression depth))) middle [] middle)
  obtain ⟨last, chainRead, same, -⟩ := chain
  rw [bind_skip] at read
  rw [chainItem] at chainRead
  rw [bind_of_some _ chainRead] at read
  cases read
  exact ⟨'&', more, same.trans shape, by simp⟩

theorem failsAt_group (nonempty : Solid t) (stuck : StuckAt orExpr ['&', '|'] t) :
    FailsAt primary ('(' :: t ++ [')']) := by
  refine ⟨⟨'(', _, rfl, by decide⟩, fun depth rest bound => ?_⟩
  have shape : '(' :: t ++ [')'] ++ rest = '(' :: (t ++ ')' :: rest) := by simp
  rw [shape, primary_bracket _ (by simp), bind_of_some _ (word_single _ _), bind_skip, nonempty.skipped]
  cases depth with
  | zero => rfl
  | succ depth =>
    cases read : expression (depth + 1) (t ++ ')' :: rest) with
    | none => exact bind_of_none _ read
    | some result =>
      obtain ⟨c, more, shape, mark⟩ := stuck depth _ result.1 result.2 (by simp at bound; omega) read
      rw [bind_of_some _ read, bind_skip, shape]
      refine bind_of_none _ (word_of_head_ne ?_)
      rintro rfl
      simp at mark

theorem failsAt_empty : FailsAt primary ['(', ')'] := by
  refine ⟨⟨'(', _, rfl, by decide⟩, fun depth rest _ => ?_⟩
  rw [List.cons_append, primary_bracket _ (by simp), bind_of_some _ (word_single _ _), bind_skip, List.cons_append,
    skipped_cons (by decide)]
  exact bind_of_none _ (expression_none depth _)

theorem FailsAt.negated (failsAt : FailsAt cmpExpr t) : FailsAt notExpr ('!' :: t) := by
  refine ⟨⟨'!', t, rfl, by decide⟩, fun depth rest bound => ?_⟩
  have mark : opt (word ['!']) ('!' :: t ++ rest) = some (some (), t ++ rest) := opt_of_some (word_append ['!'] _)
  rw [notExpr, bind_of_some _ mark, bind_skip, failsAt.solid.skipped]
  exact bind_of_none _ (failsAt.fails depth rest (by simp at bound; omega))

end

section
variable {level : Rule Expr → Rule Expr} {stops : List Char} {op : Rule BinOp} {w : Text} {o : BinOp}

theorem stuckAt_join (solid : Solid w) (opReads : ∀ s, op (w ++ ' ' :: s) = some (o, ' ' :: s))
    (between : ∀ s, Ends stops ([' '] ++ w ++ [' '] ++ s)) {texts : List Text} {exprs : List Expr}
    (all : List.Forall₂ (ReadsAt level stops) texts exprs) {t : Text} (failsAt : FailsAt level t) (more : List Text)
    {marks : List Char} (marked : ∃ c tail, w = c :: tail ∧ c ∈ marks) :
    StuckAt (fun expression => leftAssoc op (level expression)) marks
      (Text.join ([' '] ++ w ++ [' ']) (texts ++ t :: more)) := by
  have rejected : ∀ depth s, t.length ≤ depth →
      chainItem op (level (expression depth)) (skipped ([' '] ++ w ++ [' '] ++ (t ++ s))) = none := by
    intro depth s bound
    rw [skipped_operator solid.stands, List.append_assoc, chainItem, List.singleton_append, bind_of_some _ (opReads _),
      bind_skip, skipped_space, failsAt.solid.skipped]
    exact bind_of_none _ (failsAt.fails depth s bound)
  cases all with
  | nil =>
    rw [List.nil_append, Text.join_cons]
    exact ((failsAt.chain op).append _).stuck marks
  | @cons u e texts exprs first all =>
    change StuckAt _ marks (Text.join _ (u :: (texts ++ t :: more)))
    rw [Text.join_cons, List.flatMap_append, List.flatMap_cons]
    intro depth rest result left bound read
    simp only [List.length_append] at bound
    let after := t ++ ((more.flatMap fun t => [' '] ++ w ++ [' '] ++ t) ++ rest)
    have shape : u ++ ((texts.flatMap fun t => [' '] ++ w ++ [' '] ++ t) ++
        ([' '] ++ w ++ [' '] ++ t ++ more.flatMap fun t => [' '] ++ w ++ [' '] ++ t)) ++ rest =
        u ++ ((texts.flatMap fun t => [' '] ++ w ++ [' '] ++ t) ++ ([' '] ++ w ++ [' '] ++ after)) := by
      simp [after]
    have run := join_items solid.stands opReads between all depth (by omega) (between after)
      (rejected depth _ (by omega))
    have front : Ends stops ((texts.flatMap fun t => [' '] ++ w ++ [' '] ++ t) ++ ([' '] ++ w ++ [' '] ++ after)) :=
      ends_join between texts (between after)
    obtain ⟨last, whole, same, -⟩ := leftAssoc_items (first.reads depth _ (by omega) front) run
    rw [shape] at read
    have matched := whole.symm.trans read
    simp only [Option.some.injEq, Prod.mk.injEq] at matched
    obtain ⟨-, rfl⟩ := matched
    obtain ⟨c, tail, rfl, mark⟩ := marked
    rw [skipped_operator solid.stands] at same
    exact ⟨c, _, same, mark⟩

end

-- Conditions with an empty list

section
variable (platform : Platform)

mutual
def Shape.closed : Shape → Bool
  | .equals left right => left.clean platform && right.clean platform
  | .call _ arg more => arg.clean platform && more.all (·.clean platform)
  | .always _ => true
  | .never note => !Text.containsText ['*', '/'] note
  | .all parts => closedAll parts
  | .any parts => closedAll parts
  | .negate part => closed part

def Shape.closedAll : List Shape → Bool
  | [] => true
  | part :: rest => closed part && closedAll rest
end

def RuleShape.closed (r : RuleShape) : Bool :=
  r.name.clean platform && r.guard.all (·.closed platform) && r.condition.closed platform &&
    r.calls.all fun c => c.2.all (·.clean platform)

end

section
variable {platform : Platform}

theorem failsAt_brackets {inner : Text} (failsAt : FailsAt primary ('(' :: inner ++ [')'])) :
    FailsAt notExpr ('(' :: inner ++ [')']) := failsAt.cmp.not ⟨_, rfl⟩

theorem solid_join {sep : Text} {texts : List Text} {exprs : List Expr}
    (all : List.Forall₂ (ReadsAt notExpr cmpStops) texts exprs) {t : Text} (failsAt : FailsAt notExpr t)
    {more : List Text} : Solid (Text.join sep (texts ++ t :: more)) := by
  cases all with
  | nil =>
    rw [List.nil_append, Text.join_cons]
    exact failsAt.solid.append _
  | cons first _ =>
    rw [List.cons_append, Text.join_cons]
    exact first.solid.append _

theorem stuckAt_conjunction {texts : List Text} {exprs : List Expr}
    (all : List.Forall₂ (ReadsAt notExpr cmpStops) texts exprs) {t : Text} (failsAt : FailsAt notExpr t)
    (more : List Text) : StuckAt orExpr ['&', '|'] (Text.join " && ".toList (texts ++ t :: more)) := by
  have chain : StuckAt andExpr ['&'] (Text.join ([' '] ++ ['&', '&'] ++ [' ']) (texts ++ t :: more)) :=
    stuckAt_join ⟨'&', ['&'], rfl, by decide⟩ (fun _ => rfl) (fun s => ends_space (by decide) (by decide) _) all
      failsAt more ⟨'&', ['&'], rfl, by decide⟩
  intro depth rest e left bound read
  obtain ⟨c, tail, shape, mark⟩ := chain.or depth rest e left bound read
  exact ⟨c, tail, shape, List.mem_cons.mpr (Or.inl (List.mem_singleton.mp mark))⟩

theorem stuckAt_disjunction {texts : List Text} {exprs : List Expr}
    (all : List.Forall₂ (ReadsAt notExpr cmpStops) texts exprs) {t : Text} (failsAt : FailsAt notExpr t)
    (more : List Text) : StuckAt orExpr ['&', '|'] (Text.join " || ".toList (texts ++ t :: more)) :=
  stuckAt_join (w := ['|', '|']) ⟨'|', ['|'], rfl, by decide⟩ (fun _ => rfl)
    (fun s => ends_space (by decide) (by decide) _) (all.imp fun _ _ readsAt => (readsAt.mono (by decide)).and)
    failsAt.and more ⟨'|', ['|'], rfl, by decide⟩

mutual
/-- A condition whose strings are tokens is read or turned down, by whether a list in it is empty. -/
theorem Shape.fails : (s : Shape) → s.closed platform = true → s.clean platform = false →
    FailsAt notExpr (s.text platform)
  | .equals left right, closed, unclean => by
    rw [Shape.closed] at closed
    rw [Shape.clean, closed] at unclean
    cases unclean
  | .call fn arg more, closed, unclean => by
    rw [Shape.closed] at closed
    rw [Shape.clean, closed] at unclean
    cases unclean
  | .always b, _, unclean => by cases unclean
  | .never note, closed, unclean => by
    rw [Shape.closed] at closed
    rw [Shape.clean, closed] at unclean
    cases unclean
  | .all [], _, _ => failsAt_brackets failsAt_empty
  | .any [], _, _ => failsAt_brackets failsAt_empty
  | .all (part :: rest), closed, unclean => by
    obtain ⟨before, exprs, t, after, split, all, failsAt⟩ := Shape.failsAll (part :: rest) closed unclean
    rw [Shape.text, split]
    exact failsAt_brackets (failsAt_group (solid_join all failsAt) (stuckAt_conjunction all failsAt after))
  | .any (part :: rest), closed, unclean => by
    obtain ⟨before, exprs, t, after, split, all, failsAt⟩ := Shape.failsAll (part :: rest) closed unclean
    rw [Shape.text, split]
    exact failsAt_brackets (failsAt_group (solid_join all failsAt) (stuckAt_disjunction all failsAt after))
  | .negate part, closed, unclean => by
    have inner := Shape.fails part closed unclean
    exact (failsAt_group inner.solid (inner.or.stuck _)).cmp.negated

theorem Shape.failsAll : (parts : List Shape) → Shape.closedAll platform parts = true →
    Shape.cleanAll platform parts = false → ∃ before exprs t after, Shape.texts platform parts = before ++ t :: after ∧
      List.Forall₂ (ReadsAt notExpr cmpStops) before exprs ∧ FailsAt notExpr t
  | [], _, unclean => by cases unclean
  | part :: rest, closed, unclean => by
    rw [Shape.closedAll, Bool.and_eq_true] at closed
    cases clean : part.clean platform with
    | false => exact ⟨[], [], _, _, rfl, .nil, Shape.fails part closed.1 clean⟩
    | true =>
      rw [Shape.cleanAll, clean, Bool.true_and] at unclean
      obtain ⟨before, exprs, t, after, split, all, failsAt⟩ := Shape.failsAll rest closed.2 unclean
      exact ⟨_ :: before, _ :: exprs, t, after, congrArg _ split, .cons (Shape.reads part clean) all, failsAt⟩
end

theorem RuleShape.stuckAt_when {r : RuleShape} (closed : r.closed platform = true) (unclean : r.clean platform = false) :
    Solid (r.whenText platform) ∧ StuckAt orExpr ['&', '|'] (r.whenText platform) := by
  simp only [RuleShape.closed, Bool.and_eq_true] at closed
  obtain ⟨⟨⟨nameOk, guardClosed⟩, conditionClosed⟩, callsOk⟩ := closed
  rw [RuleShape.clean, nameOk, callsOk, Bool.true_and, Bool.and_true] at unclean
  cases guarded : r.guard with
  | none =>
    rw [guarded, Option.all_none, Bool.true_and] at unclean
    have failsAt := Shape.fails r.condition conditionClosed unclean
    rw [RuleShape.whenText, guarded]
    exact ⟨failsAt.solid, failsAt.or.stuck _⟩
  | some g =>
    rw [guarded, Option.all_some] at unclean guardClosed
    rw [RuleShape.whenText, guarded]
    cases guardClean : g.clean platform with
    | false =>
      have failsAt := Shape.fails g guardClosed guardClean
      have group := failsAt_brackets (failsAt_group failsAt.solid (failsAt.or.stuck _))
      exact ⟨solid_join .nil group, stuckAt_conjunction .nil group _⟩
    | true =>
      rw [guardClean, Bool.true_and] at unclean
      have failsAt := Shape.fails r.condition conditionClosed unclean
      have group := failsAt_brackets (failsAt_group failsAt.solid (failsAt.or.stuck _))
      have first := (readsAt_group (Shape.reads g guardClean).not_or).primary_cmp.not
      exact ⟨solid_join (.cons first .nil) group, stuckAt_conjunction (.cons first .nil) group []⟩

theorem ruleDef_none {name : Text} (ok : closes name = true) (salience : Int32) {when : Text} (solid : Solid when)
    (stuck : StuckAt orExpr ['&', '|'] when) (stmts : List Text) (depth : Nat) (rest : Text)
    (bound : (ruleText name salience.toInt when stmts).length ≤ depth) :
    ruleDef depth (ruleText name salience.toInt when stmts ++ rest) = none := by
  have salienceSolid : Solid "salience".toList := ⟨_, _, rfl, by decide⟩
  have whenSolid : Solid "when".toList := ⟨_, _, rfl, by decide⟩
  have length : when.length < depth := by
    simp only [ruleText, quoted, List.length_append, List.length_cons] at bound
    omega
  rw [ruleText_append, ruleDef, bind_of_some _ (word_append _ _), bind_skip, skipped_space,
    (quoted_solid name).skipped, bind_of_some _ (string_run ok _), bind_skip, skipped_space,
    salienceSolid.skipped, bind_of_some _ (salience_run salience _), bind_skip, skipped_space,
    skipped_cons (by decide), bind_of_some _ (word_single _ _), bind_skip, skipped_newline, skipped_space,
    skipped_space, skipped_space, skipped_space, whenSolid.skipped, bind_of_some _ (word_append _ _), bind_skip,
    skipped_space, solid.skipped]
  cases depth with
  | zero => omega
  | succ depth =>
    cases read : expression (depth + 1) (when ++ ruleTail stmts rest) with
    | none => exact bind_of_none _ read
    | some result =>
      obtain ⟨c, more, shape, mark⟩ := stuck depth _ result.1 result.2 (by omega) read
      rw [bind_of_some _ read, bind_skip, shape]
      simp only [List.mem_cons, List.not_mem_nil, or_false] at mark
      rcases mark with rfl | rfl <;> exact bind_of_none _ (word_of_head_ne (by decide))

end

end MiniWaf.Grl
