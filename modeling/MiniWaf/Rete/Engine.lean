import MiniWaf.Rete.Eval

/-! Plugins, the engine, the action runner and the firing loop. -/

set_option autoImplicit false

namespace MiniWaf.Rete

open Grl

/-- The `Plugin` trait: startup registration and per-request enrichment. -/
structure Plugin where
  name : String
  register : FunctionRegistry → FunctionRegistry
  enrich : RequestContext → RequestContext

/-- Maximum number of fire-cycles per request. -/
def maxCycles : Nat := 16

structure Engine where
  network : Network
  registry : FunctionRegistry
  plugins : List Plugin

variable (platform : Platform)

namespace Engine

def new (network : Network) : Engine := ⟨network, registerContextDefaults platform .new, []⟩

def install (engine : Engine) (plugin : Plugin) : Engine :=
  { engine with
    registry := plugin.register engine.registry
    plugins := engine.plugins ++ [plugin] }

def enrich (engine : Engine) (ctx : RequestContext) : RequestContext :=
  engine.plugins.foldl (fun ctx p => p.enrich ctx) ctx

end Engine

/-- What the firing loop carries: the working memory and `fired_at_least_once`,
the names of the rules that fired or were retracted. -/
structure FireState where
  wm : WorkingMemory
  fired : List String

namespace FireState

def mapOutcome (st : FireState) (f : Outcome → Outcome) : FireState :=
  { st with wm := { st.wm with outcome := f st.wm.outcome } }

def record (st : FireState) (term : Terminal) : FireState :=
  { st with fired := term.ruleName :: st.fired }.mapOutcome
    fun o => { o with matchedRules := o.matchedRules ++ [term.ruleName] }

end FireState

def firstText (args : List Value) : String := (args.head?.map Value.asStr).getD ""

def runAction (st : FireState) (call : CallExpr) : FireState :=
  let args := evalArgs platform st.wm call.args
  match call.name with
  | "block" => st.mapOutcome fun o => { o with blockReason := some (firstText args) }
  | "allow" => st.mapOutcome fun o => { o with allow := true }
  | "challenge" =>
    let kind := firstText args
    st.mapOutcome fun o => { o with challenge := some (if kind = "pow" then .pow else .js) }
  | "rate_limit" =>
    let secs := (args.head?.map fun v => v.asInt.toUInt64).getD 60
    st.mapOutcome fun o => { o with rateLimitSecs := some secs }
  | "log" => st.mapOutcome fun o => { o with logMessages := o.logMessages ++ [firstText args] }
  | "retract" => { st with fired := firstText args :: st.fired }
  | other => st.mapOutcome fun o => { o with logMessages := o.logMessages ++ ["unknown action: " ++ other] }

def runStmt (st : FireState) : Stmt → FireState
  | .assign target value => { st with wm := st.wm.writePath target (evalExpr platform st.wm value) }
  | .call c => runAction platform st c

def runStmts (st : FireState) (actions : List Stmt) : FireState := actions.foldl (runStmt platform) st

/-- Truth values of all alpha nodes against the current overlay. -/
def alphaValues (network : Network) (wm : WorkingMemory) : List Bool :=
  network.alphas.map (evalAlpha platform wm)

/-- The first terminal in salience order whose guard holds and whose name is not taken. -/
def selectTerminal (network : Network) (st : FireState) : Option Terminal :=
  let alphas := alphaValues platform network st.wm
  network.terminals.find? fun term => term.guard.eval alphas && term.ruleName ∉ st.fired

def fireTerminal (st : FireState) (term : Terminal) : FireState :=
  runStmts platform (st.record term) term.actions

def stopped (st : FireState) : Bool := st.wm.outcome.blockReason.isSome || st.wm.outcome.allow

/-- The cycles that are left; each fires one rule and restarts the scan. -/
def fireLoop (network : Network) : Nat → FireState → FireState
  | 0, st => st
  | cycles + 1, st =>
    match selectTerminal platform network st with
    | none => st
    | some term =>
      let st := fireTerminal platform st term
      if stopped st then st else fireLoop network cycles st

namespace Engine

def initial (engine : Engine) (fact : RequestContext) : FireState := ⟨.new fact engine.registry, []⟩

/-- The state in which the firing loop stops. -/
def finalState (engine : Engine) (fact : RequestContext) : FireState :=
  fireLoop platform engine.network maxCycles (engine.initial fact)

def fire (engine : Engine) (fact : RequestContext) : Outcome := (engine.finalState platform fact).wm.outcome

end Engine

/-- Block wins; then challenge; then rate-limit; otherwise allow. -/
def outcomeToDecision (o : Outcome) : Decision :=
  match o.blockReason with
  | some reason => .block reason
  | none =>
    match o.challenge with
    | some .js => .challenge .jsChallenge
    | some .pow => .challenge .proofOfWork
    | none =>
      match o.rateLimitSecs with
      | some secs => .rateLimit secs
      | none => .allow

end MiniWaf.Rete
