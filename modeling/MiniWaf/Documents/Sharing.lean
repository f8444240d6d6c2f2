import MiniWaf.Grl.Observed
import MiniWaf.Rete.FastPath
import MiniWaf.Rete.Keys
import MiniWaf.Rete.OnePass
import MiniWaf.Std.Debug

/-! Converted conditions never share an alpha node by mistake: their leaves print
alike only if they are the same, so the engine over them does what the rules say.
-/

set_option autoImplicit false

namespace MiniWaf.Documents

open Grl Rete Yaml

variable (platform : Platform)

-- Leaves

inductive IsLeaf : Expr → Prop where
  | equals (left : Operand) (right : Quoted) : IsLeaf ((Shape.equals left right).expr platform)
  | call (fn : Name) (arg : Operand) (more : Option Quoted) : IsLeaf ((Shape.call fn arg more).expr platform)

variable {platform}

theorem leaves_join {op : BinOp} (grouped : ∀ l r, leaves (.binary op l r) = leaves l ++ leaves r) {parts : List Expr}
    (nonempty : parts ≠ []) : leaves (joinExprs op parts) = parts.flatMap leaves := by
  cases parts with
  | nil => exact absurd rfl nonempty
  | cons e rest =>
    clear nonempty
    rw [joinExprs]
    induction rest generalizing e with
    | nil => simp
    | cons next rest ih =>
      rw [List.foldl_cons, ih, List.flatMap_cons, grouped, List.flatMap_cons, List.flatMap_cons, List.append_assoc]

theorem leaves_and (l r : Expr) : leaves (.binary .and l r) = leaves l ++ leaves r := by rw [leaves]

theorem leaves_or (l r : Expr) : leaves (.binary .or l r) = leaves l ++ leaves r := by rw [leaves]

mutual
theorem isLeaf_of_shape : (s : Shape) → s.clean platform = true → ∀ leaf ∈ leaves (s.expr platform), IsLeaf platform leaf
  | .equals left right, _, leaf, member => by
    rw [Shape.expr, leaves, List.mem_singleton] at member
    · exact member ▸ .equals left right
    all_goals simp
  | .call fn arg more, _, leaf, member => by
    rw [Shape.expr, leaves, List.mem_singleton] at member
    · have call : IsLeaf platform ((Shape.call fn arg more).expr platform) := .call fn arg more
      rw [Shape.expr] at call
      exact member ▸ call
    all_goals simp
  | .always b, _, leaf, member => by simp [Shape.expr, leaves] at member
  | .never _, _, leaf, member => by simp [Shape.expr, leaves] at member
  | .all parts, ok, leaf, member => by
    rw [Shape.clean, Bool.and_eq_true, Bool.not_eq_true'] at ok
    rw [Shape.expr, leaves_join leaves_and (Shape.exprs_ne_nil ok.1)] at member
    exact isLeaf_of_shapes parts ok.2 leaf member
  | .any parts, ok, leaf, member => by
    rw [Shape.clean, Bool.and_eq_true, Bool.not_eq_true'] at ok
    rw [Shape.expr, leaves_join leaves_or (Shape.exprs_ne_nil ok.1)] at member
    exact isLeaf_of_shapes parts ok.2 leaf member
  | .negate part, ok, leaf, member => by
    rw [Shape.expr, leaves] at member
    exact isLeaf_of_shape part ok leaf member

theorem isLeaf_of_shapes : (parts : List Shape) → Shape.cleanAll platform parts = true →
    ∀ leaf ∈ (Shape.exprs platform parts).flatMap leaves, IsLeaf platform leaf
  | [], _, leaf, member => by simp [Shape.exprs] at member
  | part :: rest, ok, leaf, member => by
    rw [Shape.cleanAll, Bool.and_eq_true] at ok
    rw [Shape.exprs, List.flatMap_cons, List.mem_append] at member
    rcases member with here | later
    · exact isLeaf_of_shape part ok.1 leaf here
    · exact isLeaf_of_shapes rest ok.2 leaf later
end

theorem isLeaf_of_rule {r : RuleShape} (clean : r.clean platform = true) :
    ∀ leaf ∈ leaves (r.whenExpr platform), IsLeaf platform leaf := by
  simp only [RuleShape.clean, Bool.and_eq_true] at clean
  obtain ⟨⟨⟨-, guardOk⟩, conditionOk⟩, -⟩ := clean
  intro leaf member
  unfold RuleShape.whenExpr at member
  split at member
  · rename_i g guarded
    rw [guarded] at guardOk
    rw [leaves_and, List.mem_append] at member
    rcases member with inGuard | inCondition
    · exact isLeaf_of_shape g guardOk leaf inGuard
    · exact isLeaf_of_shape r.condition conditionOk leaf inCondition
  · exact isLeaf_of_shape r.condition conditionOk leaf member

-- Their texts

namespace Operand

variable (platform) in
def shown (o : Operand) : Text := "Request".toList ++ (o.segments platform).flatMap (·.display false)

theorem print_eq (o : Operand) : printExpr platform (o.expr platform) = shown platform o := by
  rw [Grl.Operand.expr, printExpr, Path.display]
  rfl

theorem shown_field (name : Name) : shown platform (.field name) = "Request".toList ++ '.' :: name.word.toList :=
  congrArg (fun t => "Request".toList ++ t) (List.append_nil _)

theorem shown_header (name : Quoted) : shown platform (.header name) =
    "Request".toList ++ '.' :: ("Headers".toList ++ ("[\"".toList ++ (name.read platform).toList ++ "\"]".toList)) :=
  congrArg (fun t => "Request".toList ++ '.' :: ("Headers".toList ++ t)) (List.append_nil _)

theorem free_of_word (name : Name) {c : Char} (noLetter : letter c = false) : c ∉ name.word.toList := by
  intro member
  have isLetter := name.isIdent.letters c member
  rw [noLetter] at isLetter
  cases isLetter

theorem expr_of_shown {o o' : Operand} (same : shown platform o = shown platform o') :
    o.expr platform = o'.expr platform := by
  have apart (name : Name) {t u : Text}
      (fields : name.word.toList = "Headers".toList ++ ("[\"".toList ++ t ++ u)) : False := by
    have bracket : '[' ∈ name.word.toList := by
      rw [fields, List.append_assoc]
      exact List.mem_append_right _ List.mem_cons_self
    exact free_of_word name rfl bracket
  have longer {t : Text} (empty : "Request".toList = "Request".toList ++ t) : t = [] := List.self_eq_append_right.mp empty
  cases o with
  | request =>
    cases o' with
    | request => rfl
    | field name =>
      rw [shown_field] at same
      cases longer same
    | header key =>
      rw [shown_header] at same
      cases longer same
  | field name =>
    cases o' with
    | request =>
      rw [shown_field] at same
      cases longer same.symm
    | field other =>
      rw [shown_field, shown_field, List.append_cancel_left_eq] at same
      have words : name.word = other.word := String.toList_inj.mp (List.cons.inj same).2
      rw [Grl.Operand.expr, Grl.Operand.expr, Grl.Operand.segments, Grl.Operand.segments, words]
    | header key =>
      rw [shown_field, shown_header, List.append_cancel_left_eq] at same
      exact (apart name (List.cons.inj same).2).elim
  | header key =>
    cases o' with
    | request =>
      rw [shown_header] at same
      cases longer same.symm
    | field name =>
      rw [shown_field, shown_header, List.append_cancel_left_eq] at same
      exact (apart name (List.cons.inj same).2.symm).elim
    | header other =>
      rw [shown_header, shown_header, List.append_cancel_left_eq] at same
      have index := List.append_cancel_left (List.cons.inj same).2
      have keys : key.read platform = other.read platform :=
        String.toList_inj.mp (List.append_cancel_left (List.append_cancel_right index))
      rw [Grl.Operand.expr, Grl.Operand.expr, Grl.Operand.segments, Grl.Operand.segments, keys]

theorem shown_no_string {o : Operand} {front : Text} : shown platform o ≠ front ++ ['"'] := by
  intro same
  have quote : '"' ∈ shown platform o := same ▸ List.mem_append_right _ (List.mem_singleton_self _)
  have request : '"' ∉ "Request".toList := by decide
  cases o with
  | request => exact request quote
  | field name =>
    rw [shown_field, List.mem_append, List.mem_cons] at quote
    rcases quote with inRequest | isDot | inWord
    · exact request inRequest
    · cases isDot
    · exact free_of_word name rfl inWord
  | header key =>
    have closing : "\"]".toList = ['"'] ++ [']'] := rfl
    have ended : shown platform (.header key) =
        "Request".toList ++ '.' :: ("Headers".toList ++ ("[\"".toList ++ (key.read platform).toList ++ ['"'])) ++ [']'] := by
      rw [shown_header, closing]
      simp only [List.append_assoc, List.cons_append]
    cases List.append_inj_right' (ended.symm.trans same) rfl

end Operand

open Operand

theorem print_equals (left : Operand) (right : Quoted) : printExpr platform ((Shape.equals left right).expr platform) =
    '(' :: shown platform left ++ ' ' :: "==".toList ++ ' ' :: platform.debug (right.read platform) ++ [')'] := by
  rw [Shape.expr, printExpr, print_eq, printExpr]
  rfl

theorem print_call_none (fn : Name) (arg : Operand) : printExpr platform ((Shape.call fn arg none).expr platform) =
    fn.word.toList ++ '(' :: (shown platform arg ++ [')']) := by
  rw [Shape.expr, printExpr, printArgs, print_eq, List.append_assoc]
  rfl

theorem print_call_some (fn : Name) (arg : Operand) (more : Quoted) :
    printExpr platform ((Shape.call fn arg (some more)).expr platform) =
      fn.word.toList ++ '(' :: (shown platform arg ++ ',' :: platform.debug (more.read platform) ++ [')']) := by
  have joined : Text.join [','] (printArgs platform [arg.expr platform, .literal (.str (more.read platform))]) =
      shown platform arg ++ ',' :: platform.debug (more.read platform) := by
    rw [printArgs, printArgs, print_eq, printExpr]
    simp [Text.join, printArgs, fmtValue]
  exact (congrArg (fun t => fn.word.toList ++ '(' :: t ++ [')']) joined).trans (List.append_assoc _ _ _)

theorem leaf_unique {a b : Expr} (first : IsLeaf platform a) (second : IsLeaf platform b)
    (same : printExpr platform a = printExpr platform b) : a = b := by
  have mixed (left : Operand) (right : Quoted) (fn : Name) (arg : Operand) (more : Option Quoted)
      (same : printExpr platform ((Shape.equals left right).expr platform) =
        printExpr platform ((Shape.call fn arg more).expr platform)) : False := by
    obtain ⟨c, rest, word, -, -⟩ := fn.isIdent
    have opens : '(' = c := by
      cases more with
      | none =>
        rw [print_equals, print_call_none, word] at same
        exact (List.cons.inj same).1
      | some more =>
        rw [print_equals, print_call_some, word] at same
        exact (List.cons.inj same).1
    exact free_of_word fn rfl (by rw [word, opens]; exact List.mem_cons_self : '(' ∈ fn.word.toList)
  have named {fn fn' : Name} {s t : Text} (same : fn.word.toList ++ '(' :: s = fn'.word.toList ++ '(' :: t) :
      fn.word = fn'.word ∧ s = t := by
    have split := congrArg (Text.splitOnce '(') same
    rw [Text.splitOnce_append (free_of_word fn rfl), Text.splitOnce_append (free_of_word fn' rfl), Option.some.injEq,
      Prod.mk.injEq] at split
    exact ⟨String.toList_inj.mp split.1, split.2⟩
  have bare {arg arg' : Operand} {q : Quoted} (same : shown platform arg ++ [')'] =
      shown platform arg' ++ ',' :: platform.debug (q.read platform) ++ [')']) : False := by
    have ended : shown platform arg' ++ ',' :: platform.debug (q.read platform) =
        (shown platform arg' ++ ',' :: '"' :: platform.debugBody (q.read platform)) ++ ['"'] :=
      (List.append_assoc (shown platform arg') (',' :: '"' :: platform.debugBody (q.read platform)) ['"']).symm
    exact shown_no_string ((List.append_cancel_right same).trans ended)
  cases first with
  | equals left right =>
    cases second with
    | equals left' right' =>
      rw [print_equals, print_equals] at same
      obtain ⟨operands, values⟩ := Platform.string_unique (by decide) (List.append_cancel_right same)
      have operands := expr_of_shown (List.cons.inj (List.append_cancel_right operands)).2
      rw [Shape.expr, Shape.expr, operands, values]
    | call fn arg more => exact (mixed left right fn arg more same).elim
  | call fn arg more =>
    cases second with
    | equals left right => exact (mixed left right fn arg more same.symm).elim
    | call fn' arg' more' =>
      cases more with
      | none =>
        cases more' with
        | none =>
          rw [print_call_none, print_call_none] at same
          obtain ⟨names, rest⟩ := named same
          have args := expr_of_shown (List.append_cancel_right rest)
          rw [Shape.expr, Shape.expr, names, args]
        | some more' =>
          rw [print_call_none, print_call_some] at same
          exact (bare (named same).2).elim
      | some more =>
        cases more' with
        | none =>
          rw [print_call_none, print_call_some] at same
          exact (bare (named same).2.symm).elim
        | some more' =>
          rw [print_call_some, print_call_some] at same
          obtain ⟨names, rest⟩ := named same
          obtain ⟨args, values⟩ := Platform.string_unique (by decide) (List.append_cancel_right rest)
          have args := expr_of_shown args
          rw [Shape.expr, Shape.expr, names, args]
          simp [values]

-- The engine over a document

theorem leaf_of_rules {shapes : List RuleShape} (clean : ∀ r ∈ shapes, r.clean platform = true) :
    ∀ leaf ∈ ruleLeaves (shapes.map (RuleShape.ast platform)), IsLeaf platform leaf := by
  intro leaf member
  obtain ⟨r, inRules, inLeaves⟩ := List.mem_flatMap.mp member
  obtain ⟨shape, inShapes, rfl⟩ := List.mem_map.mp inRules
  exact isLeaf_of_rule (clean shape inShapes) leaf inLeaves

/-- Converted leaves share a node only with themselves. -/
theorem leavesAgree_of_shapes {shapes : List RuleShape} (clean : ∀ r ∈ shapes, r.clean platform = true)
    (registry : FunctionRegistry) (fact : RequestContext) :
    LeavesAgree platform (shapes.map (RuleShape.ast platform)) registry fact := by
  intro wm _ _ a inA b inB same
  rw [leaf_unique (leaf_of_rules clean a inA) (leaf_of_rules clean b inB) same]

theorem alphaTruth_eq_truth {wm : WorkingMemory} (builtIn : wm.registry.fns "matches" = none) (e : Expr) :
    alphaTruth platform wm e = truth platform wm e := by
  rw [alphaTruth]
  cases shape : Network.compileAlpha platform e with
  | none => rfl
  | some compiled =>
    obtain ⟨haystack, pat, re, rfl, valid, rfl⟩ := compileAlpha_some shape
    rw [evalAlpha_regex rfl, truth_matches_call, builtIn]
    dsimp only
    rw [Platform.isMatch, valid]

theorem holds_eq_truth {wm : WorkingMemory} (builtIn : wm.registry.fns "matches" = none) (r : RuleAst) :
    holds platform wm r = truth platform wm r.when := by
  rw [holds, condition_congr fun leaf _ => alphaTruth_eq_truth builtIn leaf, condition_truth]

variable (platform) in
/-- The firing loop without a network: each cycle evaluates the conditions of the rules as they stand. -/
def runPlainly (rules : List RuleAst) (cycles : Nat) (st : FireState) : FireState :=
  Agenda.loop (fun st => (agenda rules).find? fun r => truth platform st.wm r.when && r.name ∉ st.fired)
    (fireRule platform) stopped cycles st

theorem interpret_eq_runPlainly {registry : FunctionRegistry} (builtIn : registry.fns "matches" = none)
    (rules : List RuleAst) (cycles : Nat) (fact : RequestContext) :
    interpret platform rules cycles ⟨.new fact registry, []⟩ = runPlainly platform rules cycles ⟨.new fact registry, []⟩ := by
  rw [interpret, runPlainly]
  refine Agenda.loop_congr (Over fact registry) (fun r s => r = s) ?_ ?_ (fun _ r about => about.fireRule r) cycles ⟨rfl, rfl⟩
  · intro st about
    have same : selectRule platform (agenda rules) st =
        (agenda rules).find? fun r => truth platform st.wm r.when && r.name ∉ st.fired := by
      rw [selectRule]
      exact List.find?_congr fun r _ => by rw [holds_eq_truth (about.2 ▸ builtIn)]
    rw [same]
    cases (agenda rules).find? fun r => truth platform st.wm r.when && r.name ∉ st.fired with
    | none => exact .none
    | some r => exact .some rfl
  · rintro st r _ rfl
    rfl

/-- No two conditions of a document share a node, and the engine does what its rules say. -/
theorem document_runs_plainly {doc : Yaml} {items : List Yaml} (sequence : doc.asSequence = some items)
    (clean : ∀ r ∈ okRules items, r.clean platform = true) :
    ∃ rules, documentRules platform doc = some rules ∧
      (∀ a ∈ ruleLeaves rules, ∀ b ∈ ruleLeaves rules, printExpr platform a = printExpr platform b → a = b) ∧
      ∀ (engine : Engine) (fact : RequestContext), engine.network = Network.compile platform rules →
        engine.registry.fns "matches" = none →
        engine.fire platform fact = (runPlainly platform rules maxCycles ⟨.new fact engine.registry, []⟩).wm.outcome := by
  refine ⟨_, documentRules_eq sequence clean, fun a inA b inB => ?_, fun engine fact compiled builtIn => ?_⟩
  · exact leaf_unique (leaf_of_rules clean a inA) (leaf_of_rules clean b inB)
  · have run := finalState_eq_interpret engine compiled (leavesAgree_of_shapes clean engine.registry fact)
    rw [Engine.fire, run, Engine.initial, interpret_eq_runPlainly builtIn]

def adminItem (id action : String) : Yaml :=
  .record [("id", .string id), ("action", .string action),
    ("condition", .record [("type", .string "path_exact"), ("value", .string "/admin")])]

theorem document_runs_plainly_twins :
    ∃ rules, documentRules .plain (.sequence [adminItem "stop" "block", adminItem "note" "log"]) = some rules ∧
      (∀ a ∈ ruleLeaves rules, ∀ b ∈ ruleLeaves rules, printExpr .plain a = printExpr .plain b → a = b) ∧
      ∀ (engine : Engine) (fact : RequestContext), engine.network = Network.compile .plain rules →
        engine.registry.fns "matches" = none →
        engine.fire .plain fact = (runPlainly .plain rules maxCycles ⟨.new fact engine.registry, []⟩).wm.outcome :=
  document_runs_plainly rfl (by decide +kernel)

/-- Both rules read one node. -/
example : ((documentRules .plain (.sequence [adminItem "stop" "block", adminItem "note" "log"])).map fun rules =>
    (Network.compile .plain rules).alphas.length) = some 1 := by decide +kernel

end MiniWaf.Documents
