import MiniWaf.Rete.Interpreter

/-! How far the decision depends on the order in which the rule files are listed. -/

set_option autoImplicit false

namespace MiniWaf.Rete

open Grl

variable {platform : Platform}

/-- Listings that order the rules of each salience alike give one agenda. -/
theorem agenda_congr {rules rules' : List RuleAst}
    (ties : ∀ s : Int32, rules.filter (·.salience = s) = rules'.filter (·.salience = s)) : agenda rules = agenda rules' := by
  apply StableSort.insertionSort_congr
  intro r
  have classOf : StableSort.tied ruleOrder r = fun other => decide (other.salience = r.salience) := by
    funext other
    exact tied_ruleOrder r other
  rw [classOf]
  exact ties r.salience

theorem finalState_of_perm {rules rules' : List RuleAst} (perm : rules.Perm rules')
    (ties : ∀ s : Int32, rules.filter (·.salience = s) = rules'.filter (·.salience = s)) {registry : FunctionRegistry}
    {plugins : List Plugin} {fact : RequestContext} (agree : LeavesAgree platform rules registry fact) :
    Engine.finalState platform ⟨Network.compile platform rules, registry, plugins⟩ fact =
      Engine.finalState platform ⟨Network.compile platform rules', registry, plugins⟩ fact := by
  have agree' : LeavesAgree platform rules' registry fact := agree.mono perm.symm.subset
  have first := finalState_eq_interpret ⟨Network.compile platform rules, registry, plugins⟩ rfl agree
  have second := finalState_eq_interpret ⟨Network.compile platform rules', registry, plugins⟩ rfl agree'
  rw [first, second, interpret, interpret, agenda_congr ties]
  rfl

def pathIs (path : String) : Expr := .binary .eq (.path ⟨[.field "Request", .field "Path"]⟩) (.literal (.str path))

def blockAdmin : RuleAst := ⟨"admin", 10, pathIs "/admin", [.call ⟨"block", [.literal (.str "admin")]⟩]⟩

def allowAll : RuleAst := ⟨"all", 5, .literal (.bool true), [.call ⟨"allow", []⟩]⟩

def tiedRules : List RuleAst :=
  [⟨"b", 0, .literal (.bool true), [.call ⟨"block", []⟩]⟩, ⟨"a", 0, .literal (.bool true), [.call ⟨"allow", []⟩]⟩]

/-- `0 == -0.0` with an integer and with a float: one text, two truth values. -/
def alikeRules : List RuleAst :=
  let minusZero : Expr := .literal (.float ⟨0x8000000000000000⟩)
  [⟨"i", 1, .binary .eq (.literal (.int 0)) minusZero, [.call ⟨"block", []⟩]⟩,
    ⟨"f", 0, .binary .eq (.literal (.float ⟨0⟩)) minusZero, []⟩]

def decisionOf (rules : List RuleAst) : Decision :=
  outcomeToDecision (Engine.fire .plain ⟨Network.compile .plain rules, .new, []⟩ (.bare "GET" "/"))

end MiniWaf.Rete
