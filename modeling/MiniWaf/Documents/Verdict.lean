import MiniWaf.Documents.Routing
import MiniWaf.Documents.Sharing
import MiniWaf.Pipeline.Inbound
import MiniWaf.State.Reload

/-! The decision of a directory of YAML rules, read off its items: a list by salience,
gone through once.
-/

set_option autoImplicit false

namespace MiniWaf

open Grl Rete Yaml

-- What a condition asks of a request

namespace Grl

section
variable (platform : Platform) (ctx : RequestContext) (registry : FunctionRegistry)

def Operand.seen (o : Operand) : Value := resolve platform ⟨.field "Request" :: o.segments platform⟩ ctx

mutual
def Shape.meets : Shape → Bool
  | .equals left right => (left.seen platform ctx).asStr == right.read platform
  | .call fn arg more =>
    (registry.call platform fn.word ctx
      (arg.seen platform ctx :: more.toList.map fun q => .str (q.read platform))).asBool
  | .always b => b
  | .never _ => false
  | .all parts => meetsAll parts
  | .any parts => meetsAny parts
  | .negate part => !meets part

def Shape.meetsAll : List Shape → Bool
  | [] => true
  | part :: rest => meets part && meetsAll rest

def Shape.meetsAny : List Shape → Bool
  | [] => false
  | part :: rest => meets part || meetsAny rest
end

def RuleShape.meets (r : RuleShape) : Bool :=
  r.guard.all (·.meets platform ctx registry) && r.condition.meets platform ctx registry

end

variable {platform : Platform} {ctx : RequestContext} {registry : FunctionRegistry}

theorem truth_joinExprs_and {wm : WorkingMemory} {parts : List Expr} (nonempty : parts ≠ []) :
    truth platform wm (joinExprs .and parts) = parts.all (truth platform wm) := by
  cases parts with
  | nil => exact absurd rfl nonempty
  | cons e rest =>
    clear nonempty
    rw [joinExprs]
    induction rest generalizing e with
    | nil => simp
    | cons next rest ih => rw [List.foldl_cons, ih, List.all_cons, truth_and, List.all_cons, List.all_cons, Bool.and_assoc]

theorem truth_joinExprs_or {wm : WorkingMemory} {parts : List Expr} (nonempty : parts ≠ []) :
    truth platform wm (joinExprs .or parts) = parts.any (truth platform wm) := by
  cases parts with
  | nil => exact absurd rfl nonempty
  | cons e rest =>
    clear nonempty
    rw [joinExprs]
    induction rest generalizing e with
    | nil => simp
    | cons next rest ih => rw [List.foldl_cons, ih, List.any_cons, truth_or, List.any_cons, List.any_cons, Bool.or_assoc]

mutual
theorem truth_shape : (s : Shape) → s.clean platform = true →
    truth platform (.new ctx registry) (s.expr platform) = s.meets platform ctx registry
  | .equals left right, _ => by
    have operand : evalExpr platform (.new ctx registry) (left.expr platform) = left.seen platform ctx := by
      rw [Operand.expr, evalExpr]
      rfl
    rw [Shape.expr, truth_eq, operand, evalExpr, valueEq_str, Shape.meets]
  | .call fn arg more, _ => by
    have operand : evalExpr platform (.new ctx registry) (arg.expr platform) = arg.seen platform ctx := by
      rw [Operand.expr, evalExpr]
      rfl
    have literals : (more.toList.map fun q => Expr.literal (.str (q.read platform))).map
        (evalExpr platform (.new ctx registry)) = more.toList.map fun q => .str (q.read platform) := by
      rw [List.map_map]
      exact List.map_congr_left fun q _ => by rw [Function.comp_apply, evalExpr]
    rw [Shape.expr, truth, evalExpr, evalArgs_eq_map, List.map_cons, operand, literals, Shape.meets]
    rfl
  | .always b, _ => by rw [Shape.expr, truth_bool, Shape.meets]
  | .never _, _ => by rw [Shape.expr, truth_bool, Shape.meets]
  | .all parts, ok => by
    rw [Shape.clean, Bool.and_eq_true, Bool.not_eq_true'] at ok
    rw [Shape.expr, truth_joinExprs_and (Shape.exprs_ne_nil ok.1), Shape.meets]
    exact (truth_shapes parts ok.2).1
  | .any parts, ok => by
    rw [Shape.clean, Bool.and_eq_true, Bool.not_eq_true'] at ok
    rw [Shape.expr, truth_joinExprs_or (Shape.exprs_ne_nil ok.1), Shape.meets]
    exact (truth_shapes parts ok.2).2
  | .negate part, ok => by rw [Shape.expr, truth_not, truth_shape part ok, Shape.meets]

theorem truth_shapes : (parts : List Shape) → Shape.cleanAll platform parts = true →
    (Shape.exprs platform parts).all (truth platform (.new ctx registry)) = Shape.meetsAll platform ctx registry parts ∧
      (Shape.exprs platform parts).any (truth platform (.new ctx registry)) = Shape.meetsAny platform ctx registry parts
  | [], _ => ⟨rfl, rfl⟩
  | part :: rest, ok => by
    rw [Shape.cleanAll, Bool.and_eq_true] at ok
    have here := truth_shape part ok.1
    obtain ⟨all, any⟩ := truth_shapes rest ok.2
    rw [Shape.exprs, List.all_cons, List.any_cons, here, all, any, Shape.meetsAll, Shape.meetsAny]
    exact ⟨rfl, rfl⟩
end

theorem truth_rule {r : RuleShape} (clean : r.clean platform = true) :
    truth platform (.new ctx registry) (r.whenExpr platform) = r.meets platform ctx registry := by
  simp only [RuleShape.clean, Bool.and_eq_true] at clean
  obtain ⟨⟨⟨-, guardOk⟩, conditionOk⟩, -⟩ := clean
  unfold RuleShape.whenExpr RuleShape.meets
  split
  · rename_i g guarded
    rw [guarded] at guardOk ⊢
    rw [truth_and, truth_shape g guardOk, truth_shape r.condition conditionOk]
    rfl
  · rename_i open_
    rw [open_, truth_shape r.condition conditionOk]
    rfl

end Grl

namespace Documents

-- The decision list

structure Tally where
  taken : List String
  challenged : Bool
  limited : Bool
  deriving DecidableEq, Repr

namespace Tally

def start : Tally := ⟨[], false, false⟩

/-- The decision if nothing blocks: a challenge comes before a rate limit. -/
def decision (t : Tally) : Decision :=
  if t.challenged then .challenge .jsChallenge else if t.limited then .rateLimit 60 else .allow

def take (t : Tally) (id : String) : Tally := { t with taken := t.taken ++ [id] }

def ends (t : Tally) (action id : String) : Option Decision :=
  match action with
  | "block" => some (.block id)
  | "allow" => some t.decision
  | _ => none

def after (t : Tally) (action : String) : Tally :=
  match action with
  | "challenge" => { t with challenged := true }
  | "rate_limit" => { t with limited := true }
  | _ => t

theorem taken_after (t : Tally) (action : String) : (t.after action).taken = t.taken := by
  unfold after
  split <;> rfl

end Tally

def itemId (v : Yaml) : String := ((v.get "id").bind asStr).getD ""

/-- The items are gone through once, as long as the bound lasts: the first block or allow ends it, and of two items
with one id the first counts. -/
def verdict (meets : Yaml → Bool) : Nat → Tally → List Yaml → List String × Decision
  | _, t, [] => (t.taken, t.decision)
  | 0, t, _ :: _ => (t.taken, t.decision)
  | n + 1, t, v :: rest =>
    if meets v && itemId v ∉ t.taken then
      let t := t.take (itemId v)
      match t.ends (ruleAction v) (itemId v) with
      | some decision => (t.taken, decision)
      | none => verdict meets n (t.after (ruleAction v)) rest
    else verdict meets (n + 1) t rest

theorem verdict_skip {meets : Yaml → Bool} {t : Tally} {v : Yaml} (skips : ¬ (meets v && decide (itemId v ∉ t.taken)) = true)
    (n : Nat) (rest : List Yaml) : verdict meets n t (v :: rest) = verdict meets n t rest := by
  cases n with
  | zero => cases rest <;> rfl
  | succ n => rw [verdict, if_neg skips]

section
variable (platform : Platform)

def itemMeets (ctx : RequestContext) (registry : FunctionRegistry) (v : Yaml) : Bool :=
  (ruleShape v).toOption.any fun r => r.meets platform ctx registry

def itemOrder (v w : Yaml) : Prop := ruleSalience w ≤ ruleSalience v

instance : DecidableRel itemOrder := fun v w => inferInstanceAs (Decidable (ruleSalience w ≤ ruleSalience v))

/-- The items that convert, in the order they are tried. -/
def orderedItems (items : List Yaml) : List Yaml := (okItems platform items).insertionSort itemOrder

end

variable {platform : Platform} {ctx : RequestContext} {registry : FunctionRegistry}

-- What firing a converted rule does

def actOn (action id : String) (o : Outcome) : Outcome :=
  match action with
  | "block" => { o with blockReason := some id }
  | "challenge" => { o with challenge := some .js }
  | "rate_limit" => { o with rateLimitSecs := some 60 }
  | "allow" => { o with allow := true }
  | _ => o

structure Onward (st st' : FireState) : Prop where
  fired : st'.fired = st.fired
  outcome : ∃ logs, st'.wm.outcome = { st.wm.outcome with logMessages := logs }

theorem onward_risk (st : FireState) (delta : Int64) : Onward st (runStmt platform st (riskStmt delta)) :=
  ⟨rfl, st.wm.outcome.logMessages, rfl⟩

theorem runStmt_log (st : FireState) (q : Quoted) :
    Onward st (runStmt platform st (callStmtOf platform (.log, some (.string q)))) :=
  ⟨rfl, _, rfl⟩

theorem Onward.trans {first second third : FireState} (one : Onward first second) (two : Onward second third) :
    Onward first third := by
  obtain ⟨logs, same⟩ := one.outcome
  obtain ⟨more, again⟩ := two.outcome
  exact ⟨two.fired.trans one.fired, more, by rw [again, same]⟩

theorem onward_routes (st : FireState) (upstream : Option String) :
    Onward st (runStmts platform st ((upstream.toList.map routeCall).map (callStmtOf platform))) := by
  cases upstream with
  | none => exact ⟨rfl, st.wm.outcome.logMessages, rfl⟩
  | some backend =>
    have step : Onward st (runStmt platform st (callStmtOf platform (routeCall backend))) := runStmt_log st _
    exact step

theorem runStmt_action (st : FireState) (action id : String) (kept : (⟨.debug, id⟩ : Quoted).read platform = id) :
    (runStmt platform st (callStmtOf platform (actionCall action id))).fired = st.fired ∧
      ∃ logs, (runStmt platform st (callStmtOf platform (actionCall action id))).wm.outcome =
        { actOn action id st.wm.outcome with logMessages := logs } := by
  have word : (⟨.verbatim, "js"⟩ : Quoted).read platform = "js" := rfl
  unfold actionCall
  split
  · refine ⟨rfl, st.wm.outcome.logMessages, ?_⟩
    simp [runStmt, runAction, callStmtOf, Name.block, Arg.expr, evalArgs, evalExpr, firstText, Value.asStr, kept,
      FireState.mapOutcome, actOn]
  · refine ⟨rfl, st.wm.outcome.logMessages, ?_⟩
    simp [runStmt, runAction, callStmtOf, Name.challenge, Arg.expr, evalArgs, evalExpr, firstText, Value.asStr, word,
      FireState.mapOutcome, actOn]
  · refine ⟨rfl, st.wm.outcome.logMessages, ?_⟩
    simp [runStmt, runAction, callStmtOf, Name.rateLimit, Arg.expr, evalArgs, evalExpr, Value.asInt, FireState.mapOutcome, actOn]
    rfl
  · exact ⟨rfl, st.wm.outcome.logMessages, rfl⟩
  · exact ⟨rfl, _, rfl⟩
  · rw [actOn.eq_5 _ _ _ (by assumption) (by assumption) (by assumption) (by assumption)]
    exact ⟨rfl, _, rfl⟩

theorem actOn_logs (action id : String) (o : Outcome) (logs : List String) :
    ∃ more, actOn action id { o with logMessages := logs } = { actOn action id o with logMessages := more } := by
  refine ⟨logs, ?_⟩
  unfold actOn
  split <;> rfl

section
variable {v : Yaml} {r : RuleShape} (converts : ruleShape v = .ok r) (kept : r.keepsId platform = true)
include converts

theorem itemId_eq : itemId v = r.id := by
  rw [itemId, (ofItem converts).id]
  rfl

include kept

theorem name_eq : (r.ast platform).name = itemId v := by
  rw [itemId_eq converts]
  exact of_decide_eq_true kept

theorem fireRule_item (st : FireState) : (fireRule platform st (r.ast platform)).fired = itemId v :: st.fired ∧
    ∃ logs, (fireRule platform st (r.ast platform)).wm.outcome =
      { actOn (ruleAction v) (itemId v)
          { st.wm.outcome with matchedRules := st.wm.outcome.matchedRules ++ [itemId v] } with logMessages := logs } := by
  have named := name_eq converts kept
  rw [← named]
  let recorded := st.record ⟨(r.ast platform).name, r.salience, .true, r.stmts platform⟩
  let routed := runStmts platform (runStmts platform recorded (if r.delta = 0 then [] else [riskStmt r.delta]))
    (((ruleUpstream v).toList.map routeCall).map (callStmtOf platform))
  have statements : fireRule platform st (r.ast platform) =
      runStmt platform routed (callStmtOf platform (actionCall (ruleAction v) r.id)) := by
    have whole : (r.ast platform).then_ = (if r.delta = 0 then [] else [riskStmt r.delta]) ++
        (((ruleUpstream v).toList.map routeCall).map (callStmtOf platform) ++
          [callStmtOf platform (actionCall (ruleAction v) r.id)]) := by
      change r.stmts platform = _
      rw [RuleShape.stmts, (ofItem converts).calls, List.map_append]
      rfl
    rw [fireRule, fireTerminal, runStmts, whole, List.foldl_append, List.foldl_append]
    rfl
  have risk : Onward recorded (runStmts platform recorded (if r.delta = 0 then [] else [riskStmt r.delta])) := by
    split
    · exact ⟨rfl, recorded.wm.outcome.logMessages, rfl⟩
    · exact onward_risk recorded r.delta
  have onward : Onward recorded routed := risk.trans (onward_routes _ _)
  obtain ⟨sameFired, logs, acted⟩ := runStmt_action routed (ruleAction v) r.id (of_decide_eq_true kept)
  obtain ⟨before, same⟩ := onward.outcome
  obtain ⟨more, apart⟩ := actOn_logs (ruleAction v) r.id recorded.wm.outcome before
  rw [statements]
  refine ⟨sameFired.trans onward.fired, logs, ?_⟩
  rw [acted, same, apart, named, itemId_eq converts]
  have name : (r.ast platform).name = r.id := named.trans (itemId_eq converts)
  simp only [recorded, FireState.record, FireState.mapOutcome, name]

end

-- The pass over the rules is the list

/-- The tally tells the outcome of a run that goes on. -/
structure Shows (t : Tally) (st : FireState) : Prop where
  fired : ∀ name, name ∈ st.fired ↔ name ∈ t.taken
  matched : st.wm.outcome.matchedRules = t.taken
  unblocked : st.wm.outcome.blockReason = none
  going : st.wm.outcome.allow = false
  challenge : st.wm.outcome.challenge = if t.challenged then some .js else none
  limit : st.wm.outcome.rateLimitSecs = if t.limited then some 60 else none

theorem shows_start (fact : RequestContext) (registry : FunctionRegistry) : Shows .start ⟨.new fact registry, []⟩ :=
  ⟨fun _ => Iff.rfl, rfl, rfl, rfl, rfl, rfl⟩

theorem Shows.decision {t : Tally} {st : FireState} (shows : Shows t st) :
    outcomeToDecision st.wm.outcome = t.decision := by
  rw [outcomeToDecision, shows.unblocked, shows.challenge, shows.limit, Tally.decision]
  cases t.challenged <;> cases t.limited <;> rfl

def Written (platform : Platform) (v : Yaml) (rule : RuleAst) : Prop :=
  ∃ r, ruleShape v = .ok r ∧ r.clean platform = true ∧ r.keepsId platform = true ∧ rule = r.ast platform

theorem Written.name {v : Yaml} {rule : RuleAst} (written : Written platform v rule) : rule.name = itemId v := by
  obtain ⟨r, converts, -, kept, rfl⟩ := written
  exact name_eq converts kept

theorem Written.firesOn {v : Yaml} {rule : RuleAst} (written : Written platform v rule)
    (builtIn : registry.fns "matches" = none) {t : Tally} {st : FireState} (shows : Shows t st) :
    firesOn platform ctx registry st rule = (itemMeets platform ctx registry v && decide (itemId v ∉ t.taken)) := by
  have name := written.name
  obtain ⟨r, converts, clean, kept, rfl⟩ := written
  have condition : truth platform (.new ctx registry) (r.ast platform).when = r.meets platform ctx registry :=
    truth_rule clean
  rw [Rete.firesOn, holds_eq_truth builtIn, condition, itemMeets, converts, name]
  simp only [Except.toOption, Option.any_some, shows.fired]

theorem action_cases (action : String) : action = "block" ∨ action = "challenge" ∨ action = "rate_limit" ∨
    action = "allow" ∨ action ≠ "block" ∧ action ≠ "challenge" ∧ action ≠ "rate_limit" ∧ action ≠ "allow" := by
  by_cases block : action = "block"
  · exact .inl block
  by_cases challenge : action = "challenge"
  · exact .inr (.inl challenge)
  by_cases limit : action = "rate_limit"
  · exact .inr (.inr (.inl limit))
  by_cases allow : action = "allow"
  · exact .inr (.inr (.inr (.inl allow)))
  · exact .inr (.inr (.inr (.inr ⟨block, challenge, limit, allow⟩)))

structure Acted (st st' : FireState) (action id : String) : Prop where
  fired : st'.fired = id :: st.fired
  outcome : ∃ logs, st'.wm.outcome =
    { actOn action id { st.wm.outcome with matchedRules := st.wm.outcome.matchedRules ++ [id] } with logMessages := logs }

theorem Written.acted {v : Yaml} {rule : RuleAst} (written : Written platform v rule) (st : FireState) :
    Acted st (fireRule platform st rule) (ruleAction v) (itemId v) := by
  obtain ⟨r, converts, -, kept, rfl⟩ := written
  obtain ⟨fired, outcome⟩ := fireRule_item converts kept st
  exact ⟨fired, outcome⟩

theorem Shows.goOn {t t' : Tally} {st st' : FireState} {id : String} (shows : Shows t st)
    (taken : t'.taken = t.taken ++ [id]) (fired : st'.fired = id :: st.fired)
    (matched : st'.wm.outcome.matchedRules = st.wm.outcome.matchedRules ++ [id])
    (unblocked : st'.wm.outcome.blockReason = none) (going : st'.wm.outcome.allow = false)
    (challenge : st'.wm.outcome.challenge = if t'.challenged then some .js else none)
    (limit : st'.wm.outcome.rateLimitSecs = if t'.limited then some 60 else none) :
    stopped st' = false ∧ Shows t' st' := by
  refine ⟨by rw [stopped, unblocked, going]; rfl, fun name => ?_, ?_, unblocked, going, challenge, limit⟩
  · rw [fired, taken, List.mem_cons, shows.fired, List.mem_append, List.mem_singleton, or_comm]
  · rw [matched, taken, shows.matched]

/-- The step lemma: a rule ends the run as its action ends the list, or both go on. -/
theorem Shows.act {t : Tally} {st st' : FireState} {action id : String} (shows : Shows t st)
    (acted : Acted st st' action id) :
    (∀ d, (t.take id).ends action id = some d → stopped st' = true ∧
      st'.wm.outcome.matchedRules = (t.take id).taken ∧ outcomeToDecision st'.wm.outcome = d) ∧
    ((t.take id).ends action id = none → stopped st' = false ∧ Shows ((t.take id).after action) st') := by
  obtain ⟨fired, logs, outcome⟩ := acted
  have matched : st.wm.outcome.matchedRules ++ [id] = (t.take id).taken := by rw [shows.matched, Tally.take]
  obtain rfl | rfl | rfl | rfl | ⟨notBlock, notChallenge, notLimit, notAllow⟩ := action_cases action
  · refine ⟨fun d decided => ?_, fun goes => by cases goes⟩
    cases decided
    rw [stopped, outcome]
    exact ⟨rfl, matched, rfl⟩
  · refine ⟨fun d decided => (by cases decided), fun _ => shows.goOn rfl fired ?_ ?_ ?_ ?_ ?_⟩ <;> rw [outcome]
    · rfl
    · exact shows.unblocked
    · exact shows.going
    · rfl
    · exact shows.limit
  · refine ⟨fun d decided => (by cases decided), fun _ => shows.goOn rfl fired ?_ ?_ ?_ ?_ ?_⟩ <;> rw [outcome]
    · rfl
    · exact shows.unblocked
    · exact shows.going
    · exact shows.challenge
    · rfl
  · refine ⟨fun d decided => ?_, fun goes => by cases goes⟩
    cases decided
    rw [stopped, outcome]
    exact ⟨Bool.or_true _, matched, shows.decision⟩
  · rw [actOn.eq_5 _ _ _ notBlock notChallenge notLimit notAllow] at outcome
    rw [Tally.ends.eq_3 _ _ _ notBlock notAllow, Tally.after.eq_3 _ _ notChallenge notLimit]
    refine ⟨fun d decided => (by cases decided), fun _ => shows.goOn rfl fired ?_ ?_ ?_ ?_ ?_⟩ <;> rw [outcome]
    · exact shows.unblocked
    · exact shows.going
    · exact shows.challenge
    · exact shows.limit

/-- The engine's pass over the rules is the list over the items. -/
theorem pass_verdict (builtIn : registry.fns "matches" = none) {items : List Yaml} {rules : List RuleAst}
    (written : List.Forall₂ (Written platform) items rules) (n : Nat) {t : Tally} {st : FireState} (shows : Shows t st) :
    let last := Agenda.pass (fireRule platform) stopped (Rete.firesOn platform ctx registry) n rules st
    (last.wm.outcome.matchedRules, outcomeToDecision last.wm.outcome) =
      verdict (itemMeets platform ctx registry) n t items := by
  induction written generalizing n t st with
  | nil =>
    rw [Agenda.pass, verdict]
    exact Prod.ext shows.matched shows.decision
  | @cons v rule items rules first rest ih =>
    cases n with
    | zero =>
      rw [Agenda.pass, verdict]
      exact Prod.ext shows.matched shows.decision
    | succ n =>
      rw [Agenda.pass, verdict, first.firesOn builtIn shows]
      by_cases turn : (itemMeets platform ctx registry v && decide (itemId v ∉ t.taken)) = true
      · rw [if_pos turn, if_pos turn]
        obtain ⟨halts, goes⟩ := shows.act (first.acted st)
        dsimp only
        cases ended : (t.take (itemId v)).ends (ruleAction v) (itemId v) with
        | some d =>
          obtain ⟨stops, matched, decided⟩ := halts d ended
          rw [if_pos stops]
          exact Prod.ext matched decided
        | none =>
          obtain ⟨continues, next⟩ := goes ended
          rw [if_neg (by simp [continues])]
          exact ih n next
      · rw [if_neg turn, if_neg turn]
        exact ih (n + 1) shows

-- A directory of documents

def fileItems (readYaml : Text → Option Yaml) (file : DirFile) : List Yaml :=
  if file.isFile = true ∧ (file.extension = some "yaml" ∨ file.extension = some "yml") then
    ((file.text.bind readYaml).bind asSequence).getD []
  else []

/-- The rules of the items, and nothing else: no file is written in the rule language, and every rule comes through the
conversion whole. -/
structure Plainly (platform : Platform) (readYaml : Text → Option Yaml) (files : List DirFile) : Prop where
  yaml : ∀ file ∈ files, file.isFile = true → file.extension ≠ some "grl"
  clean : ∀ file ∈ files, ∀ r ∈ okRules (fileItems readYaml file), r.clean platform = true ∧ r.keepsId platform = true

variable {readYaml : Text → Option Yaml}

theorem fileRules_eq {file : DirFile} (notGrl : file.isFile = true → file.extension ≠ some "grl")
    (clean : ∀ r ∈ okRules (fileItems readYaml file), r.clean platform = true) :
    fileRules platform readYaml file = (okRules (fileItems readYaml file)).map (RuleShape.ast platform) := by
  rw [fileRules]
  by_cases isFile : file.isFile = true
  · rw [if_pos isFile]
    by_cases yaml : file.extension = some "yaml" ∨ file.extension = some "yml"
    · have source (text : Text) : grlSource platform readYaml file text =
          (readYaml text).bind fun doc => (yamlToGrl platform doc).toOption := by
        rcases yaml with yaml | yml
        · rw [grlSource, yaml]
          rfl
        · rw [grlSource, yml]
          rfl
      rw [fileItems, if_pos ⟨isFile, yaml⟩] at clean ⊢
      cases content : file.text with
      | none => rfl
      | some text =>
        rw [content, Option.bind_some] at clean
        rw [Option.bind_some, Option.bind_some, source]
        cases document : readYaml text with
        | none => rfl
        | some doc =>
          rw [document, Option.bind_some] at clean
          rw [Option.bind_some, Option.bind_some]
          cases sequence : doc.asSequence with
          | none =>
            rw [yamlToGrl, sequence]
            rfl
          | some items =>
            rw [sequence] at clean
            obtain ⟨written, converted, parsed⟩ := parse_document sequence clean
            rw [converted]
            exact congrArg (fun rules : Option (List RuleAst) => rules.getD []) parsed
    · have other (text : Text) : grlSource platform readYaml file text = none := by
        have notGrl := notGrl isFile
        rw [grlSource]
        cases extension : file.extension with
        | none => rfl
        | some word =>
          rw [extension] at yaml notGrl
          simp only [Option.some.injEq, not_or] at yaml
          simp only [ne_eq, Option.some.injEq] at notGrl
          simp [yaml]
      rw [fileItems, if_neg fun both => yaml both.2]
      cases file.text with
      | none => rfl
      | some text =>
        rw [Option.bind_some, other]
        rfl
  · rw [if_neg isFile, fileItems, if_neg fun both => isFile both.1]
    rfl

theorem load_documents {dir : RulesDir} {files : List DirFile} (present : dir.present = true)
    (listed : dir.listing = some (files.map some)) (plainly : Plainly platform readYaml files) :
    loadGrlFromDir platform readYaml dir =
      some ((okRules (files.flatMap (fileItems readYaml))).map (RuleShape.ast platform)) := by
  have all (list : List DirFile) : (list.map some).mapM id = some list := by
    induction list with
    | nil => rfl
    | cons file list ih =>
      rw [List.map_cons, List.mapM_cons, ih]
      rfl
  have each : files.flatMap (fileRules platform readYaml) =
      (okRules (files.flatMap (fileItems readYaml))).map (RuleShape.ast platform) := by
    rw [okRules, List.filterMap_flatMap, List.map_flatMap]
    refine List.flatMap_congr fun file member => ?_
    exact fileRules_eq (plainly.yaml file member) fun r inRules => (plainly.clean file member r inRules).1
  rw [loadGrlFromDir, if_pos present, listed, Option.bind_some, all, Option.map_some, each]

-- The decision

theorem targets_of_rule (r : RuleShape) : (r.ast platform).targets ⊆ [riskPath] := by
  intro p member
  obtain ⟨s, inStmts, assigned⟩ := List.mem_flatMap.mp member
  rw [RuleShape.ast, RuleShape.stmts, List.mem_append] at inStmts
  rcases inStmts with risk | call
  · split at risk
    · cases risk
    · rw [List.mem_singleton.mp risk] at assigned
      exact assigned
  · obtain ⟨c, -, rfl⟩ := List.mem_map.mp call
    cases assigned

variable (platform) in
/-- Converted rules set the risk score only, and none reads it. -/
theorem settled_of_items (items : List Yaml) : Settled ((okRules items).map (RuleShape.ast platform)) := by
  intro rule inRules other inOthers p assigned read
  obtain ⟨r, -, rfl⟩ := List.mem_map.mp inRules
  obtain ⟨s, inShapes, rfl⟩ := List.mem_map.mp inOthers
  obtain ⟨v, -, converts⟩ := List.mem_filterMap.mp inShapes
  rw [List.mem_singleton.mp (targets_of_rule r assigned)] at read
  exact riskPath_unread (ruleShape_of_toOption converts) read

theorem written_agenda {items : List Yaml}
    (clean : ∀ r ∈ okRules items, r.clean platform = true ∧ r.keepsId platform = true) :
    List.Forall₂ (Written platform) (orderedItems platform items)
      (agenda ((okRules items).map (RuleShape.ast platform))) := by
  have written : List.Forall₂ (Written platform) (okItems platform items)
      ((okRules items).map (RuleShape.ast platform)) := by
    rw [List.forall₂_map_right_iff]
    have converted : List.Forall₂ (fun v r => ruleShape v = .ok r) (okItems platform items) (okRules items) :=
      okItems_rules items
    have both := (List.forall₂_and_left _ _).mpr ⟨clean, converted.flip⟩
    refine both.flip.imp fun v r ⟨⟨isClean, kept⟩, converts⟩ => ?_
    exact ⟨r, converts, isClean, kept, rfl⟩
  refine StableSort.forall₂_insertionSort ?_ written
  rintro v w rule other ⟨r, convertsV, -, -, rfl⟩ ⟨s, convertsW, -, -, rfl⟩
  change ruleSalience w ≤ ruleSalience v ↔ s.salience ≤ r.salience
  rw [(ofItem convertsV).salience, (ofItem convertsW).salience]

theorem fire_verdict {items : List Yaml} {engine : Engine}
    (compiled : engine.network = .compile platform ((okRules items).map (RuleShape.ast platform)))
    (builtIn : engine.registry.fns "matches" = none)
    (clean : ∀ r ∈ okRules items, r.clean platform = true ∧ r.keepsId platform = true) (ctx : RequestContext) :
    ((engine.fire platform ctx).matchedRules, outcomeToDecision (engine.fire platform ctx)) =
      verdict (itemMeets platform ctx engine.registry) maxCycles .start (orderedItems platform items) := by
  have agree : LeavesAgree platform ((okRules items).map (RuleShape.ast platform)) engine.registry ctx :=
    leavesAgree_of_shapes (fun r member => (clean r member).1) _ _
  have run := finalState_eq_interpret engine compiled agree
  rw [Engine.initial, interpret_one_pass (settled_of_items platform items)] at run
  rw [Engine.fire, run]
  exact pass_verdict builtIn (written_agenda clean) maxCycles (shows_start ctx engine.registry)

theorem builtIn_published (config : PluginConfig) (dir : RulesDir) :
    (initEngine platform readYaml config dir).registry.fns "matches" = none := by
  have foreign : "matches" ∉ config.functions := fun known => by
    have names := config.functions_sub known
    simp at names
  rw [initEngine, init_registry, register_other foreign]
  rfl

variable (platform) in
/-- The engine decides a request, and names its first match, as the list of items does. -/
structure FollowsItems (engine : Engine) (items : List Yaml) (ctx : RequestContext) : Prop where
  decision : (runInbound platform engine ctx).2 =
    (verdict (itemMeets platform ctx engine.registry) maxCycles .start (orderedItems platform items)).2
  matched : (runInbound platform engine ctx).1.matchedRuleId =
    (verdict (itemMeets platform ctx engine.registry) maxCycles .start
      (orderedItems platform items)).1.head?.or ctx.matchedRuleId

theorem followsItems {items : List Yaml} {engine : Engine}
    (compiled : engine.network = .compile platform ((okRules items).map (RuleShape.ast platform)))
    (builtIn : engine.registry.fns "matches" = none)
    (clean : ∀ r ∈ okRules items, r.clean platform = true ∧ r.keepsId platform = true) (ctx : RequestContext) :
    FollowsItems platform engine items ctx := by
  have whole := fire_verdict compiled builtIn clean ctx
  refine ⟨congrArg Prod.snd whole, ?_⟩
  rw [← whole, runInbound, absorb]
  cases matched : (engine.fire platform ctx).matchedRules.head? with
  | none =>
    dsimp only
    split <;> rfl
  | some id =>
    dsimp only
    split <;> rfl

/-- The items of a directory that holds YAML rules only. -/
structure DirItems (platform : Platform) (readYaml : Text → Option Yaml) (dir : RulesDir) (items : List Yaml) : Prop where
  present : dir.present = true
  files : ∃ files, dir.listing = some (files.map some) ∧ Plainly platform readYaml files ∧
    items = files.flatMap (fileItems readYaml)

section
variable {dir : RulesDir} {items : List Yaml} (holds : DirItems platform readYaml dir items)
include holds

theorem DirItems.load :
    loadGrlFromDir platform readYaml dir = some ((okRules items).map (RuleShape.ast platform)) := by
  obtain ⟨files, listed, plainly, rfl⟩ := holds.files
  exact load_documents holds.present listed plainly

theorem DirItems.clean : ∀ r ∈ okRules items, r.clean platform = true ∧ r.keepsId platform = true := by
  obtain ⟨files, -, plainly, rfl⟩ := holds.files
  intro r member
  rw [okRules, List.filterMap_flatMap, List.mem_flatMap] at member
  obtain ⟨file, inFiles, inRules⟩ := member
  exact plainly.clean file inFiles r inRules

theorem DirItems.started (config : PluginConfig) (ctx : RequestContext) :
    FollowsItems platform (initEngine platform readYaml config dir) items ctx := by
  refine followsItems ?_ (builtIn_published config dir) holds.clean ctx
  rw [initEngine, holds.load, installAll_network]
  rfl

omit holds in
theorem followsItems_compiled {asts : List RuleAst} (loaded : asts = (okRules items).map (RuleShape.ast platform))
    (clean : ∀ r ∈ okRules items, r.clean platform = true ∧ r.keepsId platform = true) (ctx : RequestContext) :
    FollowsItems platform (.new platform (.compile platform asts)) items ctx := by
  rw [loaded]
  exact followsItems rfl rfl clean ctx

theorem DirItems.reloaded (store : RuleStore) (ctx : RequestContext) :
    FollowsItems platform (watcherReload platform readYaml dir store).engine items ctx := by
  rw [watcherReload, holds.load]
  exact followsItems_compiled rfl holds.clean ctx

end

/-- Over a directory of YAML rules, the engine the program starts with and the one the watcher publishes both decide as
the list of the directory's items does. -/
theorem inbound_verdict (platform : Platform) (readYaml : Text → Option Yaml) {dir : RulesDir} {files : List DirFile}
    (present : dir.present = true) (listed : dir.listing = some (files.map some))
    (plainly : Plainly platform readYaml files) (config : PluginConfig) (store : RuleStore) (ctx : RequestContext) :
    FollowsItems platform (initEngine platform readYaml config dir) (files.flatMap (fileItems readYaml)) ctx ∧
      FollowsItems platform (watcherReload platform readYaml dir store).engine (files.flatMap (fileItems readYaml)) ctx := by
  have holds : DirItems platform readYaml dir (files.flatMap (fileItems readYaml)) := ⟨present, files, listed, plainly, rfl⟩
  exact ⟨holds.started config ctx, holds.reloaded store ctx⟩

def adminFiles : List DirFile :=
  [⟨true, some "yaml", some "first".toList⟩, ⟨true, some "txt", some "second".toList⟩]

def adminDocument (text : Text) : Option Yaml :=
  if text = "first".toList then
    some (.sequence [.record [("id", .string "all"), ("action", .string "challenge"),
      ("condition", .record [("type", .string "path_wildcard"), ("pattern", .string "/**")])], adminItem "stop" "block"])
  else none

theorem inbound_verdict_admin :
    FollowsItems .plain (initEngine .plain adminDocument localBlacklist ⟨true, some (adminFiles.map some)⟩)
        (adminFiles.flatMap (fileItems adminDocument)) (.bare "GET" "/admin") ∧
      FollowsItems .plain
        (watcherReload .plain adminDocument ⟨true, some (adminFiles.map some)⟩ ⟨.new .plain .new⟩).engine
        (adminFiles.flatMap (fileItems adminDocument)) (.bare "GET" "/admin") := by
  refine inbound_verdict .plain adminDocument rfl rfl ⟨?_, ?_⟩ localBlacklist ⟨.new .plain .new⟩ (.bare "GET" "/admin")
  · decide
  · decide +kernel

/-- The challenge comes first, and the block wins. -/
example : verdict (itemMeets .plain (.bare "GET" "/admin") .new) maxCycles .start
    (orderedItems .plain (adminFiles.flatMap (fileItems adminDocument))) = (["all", "stop"], .block "stop") := by
  decide +kernel

end Documents

end MiniWaf
