import MiniWaf.Rete.Engine

/-! The inbound pipeline: one run of the installed engine, and what is handed over
to the request context.
-/

set_option autoImplicit false

namespace MiniWaf

open Grl Rete

/-- `score.clamp(0, MAX as i64) as u32`. -/
def clampScore (score : Int64) : RiskScore :=
  (min (max score 0) (Int64.ofInt RiskScore.max.toNat)).toUInt64.toUInt32

/-- `score as i64`. -/
def RequestContext.score (ctx : RequestContext) : Int64 := Int64.ofInt ctx.riskScore.toNat

def shiftScore (ctx : RequestContext) (delta : Int64) : RiskScore := clampScore (ctx.score + delta)

def riskScorePath : Path := ⟨[.field "Request", .field "RiskScore"]⟩

def riskReading (platform : Platform) (wm : WorkingMemory) : Int64 :=
  (wm.readPath platform riskScorePath).asInt

/-- The hand-over from the outcome to the context: the first match, and a non-zero delta. -/
def absorb (ctx : RequestContext) (outcome : Outcome) : RequestContext :=
  let ctx := match outcome.matchedRules.head? with
    | some ruleId => { ctx with matchedRuleId := some ruleId }
    | none => ctx
  if outcome.riskDelta ≠ 0 then { ctx with riskScore := shiftScore ctx outcome.riskDelta } else ctx

def runInbound (platform : Platform) (engine : Engine) (ctx : RequestContext) : RequestContext × Decision :=
  let outcome := engine.fire platform ctx
  (absorb ctx outcome, outcomeToDecision outcome)

theorem absorb_riskScore (ctx : RequestContext) (outcome : Outcome) : (absorb ctx outcome).riskScore =
    if outcome.riskDelta ≠ 0 then shiftScore ctx outcome.riskDelta else ctx.riskScore := by
  by_cases delta : outcome.riskDelta = 0
  · cases first : outcome.matchedRules.head? <;> simp [absorb, delta, first]
  · cases first : outcome.matchedRules.head? <;> simp [absorb, delta, first, shiftScore, RequestContext.score]

theorem runInbound_riskScore (platform : Platform) (engine : Engine) (ctx : RequestContext) :
    (runInbound platform engine ctx).1.riskScore =
      if (engine.fire platform ctx).riskDelta ≠ 0 then shiftScore ctx (engine.fire platform ctx).riskDelta
      else ctx.riskScore :=
  absorb_riskScore ctx _

end MiniWaf
