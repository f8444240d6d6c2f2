import MiniWaf.Std.AssocMap
import MiniWaf.Std.Platform

/-! The request every rule is evaluated against, and the shared types of `waf-types`. -/

set_option autoImplicit false

namespace MiniWaf

inductive Tier where
  | critical
  | high
  | medium
  | catchAll
  deriving DecidableEq, Repr

/-- `format!("{:?}", tier)`. -/
def Tier.debugName : Tier → String
  | .critical => "Critical"
  | .high => "High"
  | .medium => "Medium"
  | .catchAll => "CatchAll"

/-- The name serde gives the tier (`rename_all = "snake_case"`). -/
def Tier.serdeName : Tier → String
  | .critical => "critical"
  | .high => "high"
  | .medium => "medium"
  | .catchAll => "catch_all"

inductive ChallengeKind where
  | jsChallenge
  | proofOfWork
  deriving DecidableEq, Repr

inductive Decision where
  | allow
  | block (reason : String)
  | challenge (kind : ChallengeKind)
  | rateLimit (retryAfterSecs : UInt64)
  deriving DecidableEq, Repr

abbrev RiskScore := UInt32

def RiskScore.max : RiskScore := 100

/-- Built once per request by the proxy and threaded through every check. -/
structure RequestContext where
  requestId : String
  arrivedAtMs : Int64
  method : String
  path : String
  query : Option String
  tier : Tier
  clientIp : String
  xffHeader : Option String
  headers : AssocMap String String
  body : Option (List UInt8)
  sessionId : Option String
  deviceFp : Option String
  riskScore : RiskScore
  matchedRuleId : Option String
  extensions : AssocMap String String

namespace RequestContext

def headerCount (ctx : RequestContext) : Int64 := Int64.ofInt ctx.headers.size

def hasHeader (platform : Platform) (ctx : RequestContext) (name : String) : Bool :=
  ctx.headers.containsKey (platform.toLowercase name)

def isPathUnder (ctx : RequestContext) (above : String) : Bool :=
  above.toList.isPrefixOf ctx.path.toList

def bare (method path : String) : RequestContext where
  requestId := "test"
  arrivedAtMs := 0
  method := method
  path := path
  query := none
  tier := .catchAll
  clientIp := "127.0.0.1"
  xffHeader := none
  headers := .empty
  body := none
  sessionId := none
  deviceFp := none
  riskScore := 0
  matchedRuleId := none
  extensions := .empty

end RequestContext

end MiniWaf
