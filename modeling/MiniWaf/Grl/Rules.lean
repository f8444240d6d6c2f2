import MiniWaf.Grl.Reading

/-! Readings of statements, rules and source files. -/

set_option autoImplicit false

namespace MiniWaf.Grl

open Peg

-- Statements

structure ReadsStmt (t : Text) (s : Stmt) : Prop where
  solid : Solid t
  reads : ∀ depth rest, t.length ≤ depth → statement depth (t ++ rest) = some (s, rest)

theorem assignment_none_of_call {name : Text} (isIdent : IsIdent name) (depth : Nat) (rest : Text) :
    assignment depth (name ++ '(' :: rest) = none := by
  have target : Reads path (name ++ '(' :: rest) ⟨[.field (String.ofList name)]⟩ ('(' :: rest) := by
    refine Reads.of_skipped ?_
    rw [path, bind_of_some _ (ident_run isIdent fun c head => by cases head; rfl), bind_skip]
    have noSegment : pathSeg (skipped ('(' :: rest)) = none := by
      rw [skipped_cons (by decide)]
      exact pathSeg_none fun c head => by cases head; decide
    rw [bind_of_some _ (choice_of_none _ (bind_of_none _ noSegment))]
    rfl
  refine (target.bind_skip _).trans ?_
  rw [skipped_cons (by decide)]
  exact bind_of_none _ (word_of_head_ne (by decide))

theorem readsStmt_call {blank name : Text} (blanks : ∀ s, skipped (blank ++ s) = skipped s) (isIdent : IsIdent name)
    {texts : List Text} {exprs : List Expr} (all : AllRead texts exprs) :
    ReadsStmt (callText name blank texts ++ [';']) (.call ⟨String.ofList name, exprs⟩) := by
  refine ⟨?_, fun depth rest bound => ?_⟩
  · exact (callText_solid isIdent blank texts).append _
  · have shape : callText name blank texts ++ [';'] ++ rest = callText name blank texts ++ (';' :: rest) := by simp
    have notAssignment : assignment depth (callText name blank texts ++ (';' :: rest)) = none := by
      have front : callText name blank texts ++ (';' :: rest) =
          name ++ '(' :: (argTexts blank texts ++ ')' :: ';' :: rest) := by simp [callText]
      rw [front]
      exact assignment_none_of_call isIdent depth _
    have read : callStmt depth (callText name blank texts ++ (';' :: rest)) =
        some (.call ⟨String.ofList name, exprs⟩, ';' :: rest) :=
      bind_of_some _ (callExpr_run blanks isIdent all (by simp at bound; omega) _)
    rw [shape, statement, bind_of_some _ ((choice_of_none _ notAssignment).trans read), bind_skip,
      skipped_cons (by decide)]
    exact bind_of_some _ (word_single ';' rest)

theorem readsStmt_assign {w : Text} (isIdent : IsIdent w) {texts : List Text} {segs : List PathSeg}
    (segTexts : List.Forall₂ SegText texts segs) {t : Text} {e : Expr} (readsAt : ReadsAt orExpr orStops t e) :
    ReadsStmt (w ++ texts.flatten ++ [' ', '=', ' '] ++ t ++ [';'])
      (.assign ⟨.field (String.ofList w) :: segs⟩ e) := by
  refine ⟨?_, fun depth rest bound => ?_⟩
  · exact (((isIdent.solid.append _).append _).append _).append _
  · have shape : w ++ texts.flatten ++ [' ', '=', ' '] ++ t ++ [';'] ++ rest =
        w ++ texts.flatten ++ (' ' :: '=' :: ' ' :: (t ++ ';' :: rest)) := by simp
    have target : Reads path (w ++ texts.flatten ++ (' ' :: '=' :: ' ' :: (t ++ ';' :: rest)))
        ⟨.field (String.ofList w) :: segs⟩ (' ' :: '=' :: ' ' :: (t ++ ';' :: rest)) :=
      path_reads isIdent segTexts (ends_space (by decide) (by decide) _)
    have value : Reads (expression depth) (t ++ ';' :: rest) e (';' :: rest) :=
      readsAt.expression (by simp at bound; omega) (ends_cons (by decide) (by decide) (by decide) rest)
    have read : Reads (assignment depth) (w ++ texts.flatten ++ (' ' :: '=' :: ' ' :: (t ++ ';' :: rest)))
        (.assign ⟨.field (String.ofList w) :: segs⟩ e) (';' :: rest) := by
      obtain ⟨left, inner, same, length⟩ := value
      refine ⟨left, (target.bind_skip _).trans ?_, same, length⟩
      rw [skipped_space, skipped_cons (by decide), bind_of_some _ (word_single _ _), bind_skip, skipped_space,
        readsAt.solid.skipped, bind_of_some _ inner]
      rfl
    rw [shape]
    refine ((read.choice_left (callStmt depth)).bind_skip _).trans ?_
    rw [skipped_cons (by decide)]
    exact bind_of_some _ (word_single ';' rest)

-- Rules

def stmtLine (t : Text) : Text := ' ' :: ' ' :: ' ' :: ' ' :: (t ++ ['\n'])

def ruleText (name : Text) (salience : Int) (when : Text) (stmts : List Text) : Text :=
  "rule ".toList ++ (quoted name ++ (" salience ".toList ++ (Text.ofInt salience ++ (" \x7b\n    when ".toList ++
    (when ++ ("\n    then\n".toList ++ (stmts.flatMap stmtLine ++ ['\x7d'])))))))

theorem statement_none (depth : Nat) (rest : Text) : statement depth ('\x7d' :: rest) = none := by
  have noIdent : ident ('\x7d' :: rest) = none := ident_none (by decide) rest
  have noAssignment : assignment depth ('\x7d' :: rest) = none := bind_of_none _ (bind_of_none _ noIdent)
  have noCall : callStmt depth ('\x7d' :: rest) = none := bind_of_none _ (bind_of_none _ noIdent)
  exact bind_of_none _ ((choice_of_none _ noAssignment).trans noCall)

theorem skipped_line (t rest : Text) : skipped (stmtLine t ++ rest) = skipped (t ++ '\n' :: rest) := by
  have line : t ++ '\n' :: rest = (t ++ ['\n']) ++ rest := by simp
  rw [line]
  exact (skipped_space _).trans ((skipped_space _).trans ((skipped_space _).trans (skipped_space _)))

theorem length_stmtLine (t : Text) : (stmtLine t).length = t.length + 5 := by
  simp [stmtLine]

theorem stmts_items {texts : List Text} {stmts : List Stmt} (all : List.Forall₂ ReadsStmt texts stmts) {depth : Nat}
    (bound : (texts.flatMap stmtLine).length ≤ depth) (rest : Text) :
    Items (statement depth) ('\n' :: (texts.flatMap stmtLine ++ '\x7d' :: rest)) stmts ('\n' :: '\x7d' :: rest) := by
  induction all with
  | nil =>
    refine .done ?_
    rw [List.flatMap_nil, List.nil_append, skipped_newline, skipped_cons (by decide)]
    exact statement_none depth rest
  | @cons t s texts stmts readsStmt all ih =>
    rw [List.flatMap_cons, List.length_append, length_stmtLine] at bound
    rw [List.flatMap_cons, List.append_assoc]
    refine .step ?_ ?_ (ih (by omega))
    · rw [skipped_newline, skipped_line, readsStmt.solid.skipped]
      exact Reads.of_eq (readsStmt.reads depth _ (by omega))
    · rw [skipped_newline, skipped_line, readsStmt.solid.skipped]
      obtain ⟨c, more, rfl, -⟩ := readsStmt.solid
      simp only [List.length_append, List.length_cons]
      omega

structure ReadsRule (t : Text) (r : RuleAst) : Prop where
  solid : Solid t
  reads : ∀ depth rest, t.length ≤ depth → ruleDef depth (t ++ rest) = some (r, rest)

theorem salience_run (i : Int32) (rest : Text) :
    opt (do word "salience".toList; skip; integer : Rule Text)
        ("salience".toList ++ ' ' :: (Text.ofInt i.toInt ++ ' ' :: rest)) =
      some (some (Text.ofInt i.toInt), ' ' :: rest) := by
  have digits : integer (Text.ofInt i.toInt ++ ' ' :: rest) = some (Text.ofInt i.toInt, ' ' :: rest) :=
    integer_ofInt i.toInt fun c head => by cases head; rfl
  refine opt_of_some ?_
  rw [bind_of_some _ (word_append _ _), bind_skip, skipped_space, (ofInt_solid _).skipped]
  exact digits

def ruleTail (stmts : List Text) (rest : Text) : Text :=
  '\n' :: ' ' :: ' ' :: ' ' :: ' ' :: ("then".toList ++ '\n' :: (stmts.flatMap stmtLine ++ '\x7d' :: rest))

theorem ruleText_append (name : Text) (salience : Int) (when : Text) (stmts : List Text) (rest : Text) :
    ruleText name salience when stmts ++ rest =
      "rule".toList ++ ' ' :: (quoted name ++ ' ' :: ("salience".toList ++ ' ' :: (Text.ofInt salience ++
        ' ' :: '\x7b' :: '\n' :: ' ' :: ' ' :: ' ' :: ' ' :: ("when".toList ++ ' ' :: (when ++
          ruleTail stmts rest))))) := by
  simp only [ruleText, ruleTail, List.append_assoc]
  rfl

theorem skipped_ruleTail (stmts : List Text) (rest : Text) : skipped (ruleTail stmts rest) =
    "then".toList ++ '\n' :: (stmts.flatMap stmtLine ++ '\x7d' :: rest) := by
  have solid : Solid "then".toList := ⟨_, _, rfl, by decide⟩
  rw [ruleTail, skipped_newline, skipped_space, skipped_space, skipped_space, skipped_space, solid.skipped]

theorem readsRule_of_parts {name : Text} (ok : closes name = true) (salience : Int32) {when : Text} {e : Expr}
    (condition : ReadsAt orExpr orStops when e) {t : Text} {s : Stmt} {texts : List Text} {stmts : List Stmt}
    (first : ReadsStmt t s) (all : List.Forall₂ ReadsStmt texts stmts) :
    ReadsRule (ruleText name salience.toInt when (t :: texts)) ⟨unquote (quoted name), salience, e, s :: stmts⟩ := by
  have ruleSolid : Solid "rule ".toList := ⟨_, _, rfl, by decide⟩
  have salienceSolid : Solid "salience".toList := ⟨_, _, rfl, by decide⟩
  have whenSolid : Solid "when".toList := ⟨_, _, rfl, by decide⟩
  refine ⟨ruleSolid.append _, fun depth rest bound => ?_⟩
  have lengths : when.length < depth ∧ t.length ≤ depth ∧ (texts.flatMap stmtLine).length ≤ depth := by
    simp only [ruleText, quoted, List.length_append, List.flatMap_cons, length_stmtLine] at bound
    omega
  have conditionReads : Reads (expression depth) (when ++ ruleTail (t :: texts) rest) e (ruleTail (t :: texts) rest) :=
    condition.expression lengths.1
      (ends_of_skipped (fun c head => by cases head; rfl) (skipped_ruleTail _ rest) (by decide))
  have firstReads := first.reads depth ('\n' :: (texts.flatMap stmtLine ++ '\x7d' :: rest)) lengths.2.1
  obtain ⟨left, more, same, -⟩ := rep_items (stmts_items all lengths.2.2 rest)
  rw [ruleText_append, ruleDef, bind_of_some _ (word_append _ _), bind_skip, skipped_space,
    (quoted_solid name).skipped, bind_of_some _ (string_run ok _), bind_skip, skipped_space,
    salienceSolid.skipped, bind_of_some _ (salience_run salience _), bind_skip, skipped_space,
    skipped_cons (by decide), bind_of_some _ (word_single _ _), bind_skip, skipped_newline, skipped_space,
    skipped_space, skipped_space, skipped_space, whenSolid.skipped, bind_of_some _ (word_append _ _), bind_skip,
    skipped_space, condition.solid.skipped]
  refine (conditionReads.bind_skip _).trans ?_
  rw [skipped_ruleTail, bind_of_some _ (word_append _ _), bind_skip, skipped_newline, List.flatMap_cons,
    List.append_assoc, skipped_line, first.solid.skipped, bind_of_some _ firstReads, bind_skip,
    bind_of_some _ more, bind_skip, same, skipped_newline, skipped_cons (by decide),
    bind_of_some _ (word_single _ _), Option.bind_some, Text.parseI32_ofInt]
  rfl

-- Source files

def fileText (gap : Text) (texts : List Text) : Text := texts.flatMap fun t => t ++ gap

theorem rules_items {gap : Text} (blank : ∀ s, skipped (gap ++ s) = skipped s) {texts : List Text}
    {rules : List RuleAst} (all : List.Forall₂ ReadsRule texts rules) (depth : Nat)
    (bound : (fileText gap texts).length ≤ depth) {ending : Text} (fails : ruleDef depth (skipped ending) = none)
    {s : Text} (front : skipped s = skipped (fileText gap texts ++ ending)) :
    ∃ left, Items (ruleDef depth) s rules left ∧ skipped left = skipped ending := by
  induction all generalizing s with
  | nil =>
    refine ⟨s, .done ?_, front⟩
    rw [front]
    exact fails
  | @cons t r texts rules readsRule all ih =>
    have shape : fileText gap (t :: texts) ++ ending = t ++ (gap ++ (fileText gap texts ++ ending)) := by
      simp [fileText]
    have length : (fileText gap (t :: texts)).length = t.length + gap.length + (fileText gap texts).length := by
      simp [fileText, Nat.add_assoc]
    rw [shape, readsRule.solid.skipped] at front
    obtain ⟨left, run, ended⟩ := ih (by omega) (blank (fileText gap texts ++ ending))
    refine ⟨left, .step ?_ ?_ run, ended⟩
    · rw [front]
      exact Reads.of_eq (readsRule.reads depth _ (by omega))
    · rw [front]
      obtain ⟨c, more, rfl, -⟩ := readsRule.solid
      simp only [List.length_append, List.length_cons]
      omega

/-- A file of readable rules parses to exactly those rules, in order. -/
theorem parse_fileText {gap : Text} (blank : ∀ s, skipped (gap ++ s) = skipped s) {texts : List Text}
    {rules : List RuleAst} (all : List.Forall₂ ReadsRule texts rules) : parse (fileText gap texts) = some rules := by
  have fails : ruleDef ((fileText gap texts).length + 1) (skipped []) = none :=
    bind_of_none _ (word_of_not_start (by simp))
  obtain ⟨left, run, ended⟩ := rules_items blank all _ (by omega) fails (s := fileText gap texts) (by rw [List.append_nil])
  obtain ⟨last, read, same, -⟩ := rep_items run
  have whole : file ((fileText gap texts).length + 1) (fileText gap texts) = some (rules, []) := by
    rw [file, bind_skip, bind_of_some _ read, bind_skip, same, ended]
    rfl
  simp only [parse, StateT.run, whole, Option.map_some]

/-- One text that is no rule makes the whole file unreadable, whatever follows it. -/
theorem parse_fileText_none {gap : Text} (blank : ∀ s, skipped (gap ++ s) = skipped s) {texts : List Text}
    {rules : List RuleAst} (all : List.Forall₂ ReadsRule texts rules) {bad : Text} (solid : Solid bad)
    (fails : ∀ depth rest, bad.length ≤ depth → ruleDef depth (bad ++ rest) = none) (more : Text) :
    parse (fileText gap texts ++ (bad ++ more)) = none := by
  have length : (fileText gap texts ++ (bad ++ more)).length =
      (fileText gap texts).length + (bad.length + more.length) := by
    rw [List.length_append, List.length_append]
  obtain ⟨left, run, ended⟩ := rules_items blank all ((fileText gap texts ++ (bad ++ more)).length + 1) (by omega)
    (by rw [solid.skipped]; exact fails _ more (by omega)) rfl
  obtain ⟨last, read, same, -⟩ := rep_items run
  have whole : file ((fileText gap texts ++ (bad ++ more)).length + 1) (fileText gap texts ++ (bad ++ more)) = none := by
    rw [file, bind_skip, bind_of_some _ read, bind_skip, same, ended, solid.skipped]
    obtain ⟨c, tail, rfl, -⟩ := solid
    rfl
  simp only [parse, StateT.run, whole, Option.map_none]

end MiniWaf.Grl
