import MiniWaf.Plain.Condition

/-! Rule evaluation of the plain YAML engine: the first rule that applies wins. -/

set_option autoImplicit false

namespace MiniWaf.Plain

structure RuleMatch where
  ruleId : String
  description : String
  action : Action
  riskScoreDelta : Int8
  source : String
  deriving DecidableEq, Repr

def RuleMatch.ofRule (rule : Rule) : RuleMatch :=
  ⟨rule.id, rule.description, rule.action, rule.riskScoreDelta, rule.source⟩

section
variable (platform : Platform)

/-- The rule's tier, if it has one, is `global` or the request's. -/
def tierApplies (tier : Option String) (ctx : RequestContext) : Bool :=
  match tier with
  | none => true
  | some tier =>
    let tierLower := platform.toLowercase tier
    tierLower == "global" || tierLower == platform.toLowercase ctx.tier.debugName

def evaluateRules (rules : List Rule) (ctx : RequestContext) (skipRules : List String) : Option RuleMatch :=
  match rules with
  | [] => none
  | rule :: rest =>
    if !rule.enabled then evaluateRules rest ctx skipRules
    else if skipRules.contains rule.id then evaluateRules rest ctx skipRules
    else if !tierApplies platform rule.tier ctx then evaluateRules rest ctx skipRules
    else if evalNode platform rule.condition ctx then
      -- a `log` match is recorded, and evaluation goes on
      if rule.action = .log then evaluateRules rest ctx skipRules else some (.ofRule rule)
    else evaluateRules rest ctx skipRules

def evaluate (ruleset : RuleSet) (ctx : RequestContext) (skipRules : List String) : Option RuleMatch :=
  evaluateRules platform ruleset.rules ctx skipRules

/-- The rule is enabled, not skipped, of the request's tier, met by the request and not a `log` rule. -/
def selects (ctx : RequestContext) (skipRules : List String) (rule : Rule) : Bool :=
  rule.enabled && !skipRules.contains rule.id && tierApplies platform rule.tier ctx &&
    evalNode platform rule.condition ctx && rule.action ≠ .log

theorem evaluateRules_cons (rule : Rule) (rest : List Rule) (ctx : RequestContext) (skipRules : List String) :
    evaluateRules platform (rule :: rest) ctx skipRules =
      if selects platform ctx skipRules rule then some (.ofRule rule) else evaluateRules platform rest ctx skipRules := by
  rw [evaluateRules, selects]
  cases rule.enabled with
  | false => simp
  | true =>
    cases skipRules.contains rule.id with
    | true => simp
    | false =>
      cases tierApplies platform rule.tier ctx with
      | false => simp
      | true => cases evalNode platform rule.condition ctx <;> by_cases acts : rule.action = .log <;> simp [acts]

theorem evaluateRules_eq (rules : List Rule) (ctx : RequestContext) (skipRules : List String) :
    evaluateRules platform rules ctx skipRules =
      (rules.find? (selects platform ctx skipRules)).map RuleMatch.ofRule := by
  induction rules with
  | nil => rfl
  | cons rule rest ih =>
    rw [evaluateRules_cons, ih, List.find?_cons]
    cases selects platform ctx skipRules rule <;> rfl

end

end MiniWaf.Plain
