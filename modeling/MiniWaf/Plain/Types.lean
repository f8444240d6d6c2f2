import MiniWaf.Context
import MiniWaf.Std.Net
import MiniWaf.Std.Utf8

/-! Rules of the plain YAML engine, the request they are evaluated against, and
how their conditions are evaluated.
-/

set_option autoImplicit false

namespace MiniWaf.Plain

inductive Action where
  | allow
  | block
  | challenge
  | rateLimit
  | log
  deriving DecidableEq, Repr

inductive Field where
  | ip
  | path
  | header
  | payload
  | cookie
  | method
  | contentType
  | sessionId
  | deviceFp
  deriving DecidableEq, Repr

inductive MatchType where
  | exact
  | wildcard
  | regex
  | cidr
  | presence
  | absence
  deriving DecidableEq, Repr

structure ConditionLeaf where
  field : Field
  matchType : MatchType
  value : String
  headerName : Option String
  cookieName : Option String
  caseSensitive : Bool
  negate : Bool
  deriving DecidableEq, Repr

inductive ConditionNode where
  | and (children : List ConditionNode)
  | or (children : List ConditionNode)
  | leaf (leaf : ConditionLeaf)

structure ResponseConfig where
  status : UInt16
  body : Option String
  headers : Option (AssocMap String String)

inductive RateLimitScope where
  | perIp
  | perSession
  | perApiKey
  deriving DecidableEq, Repr

structure RateLimitRule where
  scope : RateLimitScope
  windowSeconds : UInt64
  maxRequests : UInt64
  burstTokens : UInt64
  onBreach : String
  deriving DecidableEq, Repr

inductive ChallengeType where
  | js
  | pow
  deriving DecidableEq, Repr

structure ChallengeRule where
  challengeType : ChallengeType
  powDifficulty : Option UInt8
  deriving DecidableEq, Repr

structure RuleRaw where
  id : String
  description : String
  enabled : Bool
  priority : UInt32
  condition : ConditionNode
  action : Action
  riskScoreDelta : Int8
  response : Option ResponseConfig
  rateLimit : Option RateLimitRule
  challenge : Option ChallengeRule
  tier : Option String
  source : Option String

structure Rule where
  id : String
  source : String
  description : String
  enabled : Bool
  priority : UInt32
  condition : ConditionNode
  action : Action
  riskScoreDelta : Int8
  response : Option ResponseConfig
  rateLimit : Option RateLimitRule
  challenge : Option ChallengeRule
  tier : Option String

/-- Rules in ascending order of priority. -/
structure RuleSet where
  rules : List Rule

structure RequestContext where
  ip : String
  path : String
  method : String
  headers : AssocMap String String
  payload : List UInt8
  cookies : AssocMap String String
  tier : Tier
  sessionId : String
  deviceFp : String
  contentType : Option String

namespace ConditionNode

mutual
theorem byNodes {P : ConditionNode → Prop} (and : ∀ children, (∀ c ∈ children, P c) → P (.and children))
    (or : ∀ children, (∀ c ∈ children, P c) → P (.or children)) (leaf : ∀ l, P (.leaf l)) : (c : ConditionNode) → P c
  | .and children => and children (allByNodes and or leaf children)
  | .or children => or children (allByNodes and or leaf children)
  | .leaf l => leaf l

theorem allByNodes {P : ConditionNode → Prop} (and : ∀ children, (∀ c ∈ children, P c) → P (.and children))
    (or : ∀ children, (∀ c ∈ children, P c) → P (.or children)) (leaf : ∀ l, P (.leaf l)) :
    (children : List ConditionNode) → ∀ c ∈ children, P c
  | [], _, member => nomatch member
  | head :: rest, c, member => by
    rcases List.mem_cons.mp member with same | later
    · exact same ▸ byNodes and or leaf head
    · exact allByNodes and or leaf rest c later
end

mutual
def leaves : ConditionNode → List ConditionLeaf
  | .and children => leavesOf children
  | .or children => leavesOf children
  | .leaf l => [l]

def leavesOf : List ConditionNode → List ConditionLeaf
  | [] => []
  | c :: rest => leaves c ++ leavesOf rest
end

theorem leavesOf_eq_flatMap (children : List ConditionNode) : leavesOf children = children.flatMap leaves := by
  induction children with
  | nil => rfl
  | cons c rest ih => rw [leavesOf, ih, List.flatMap_cons]

mutual
def holds (truth : ConditionLeaf → Bool) : ConditionNode → Bool
  | .and children => holdsAll truth children
  | .or children => holdsAny truth children
  | .leaf l => truth l

def holdsAll (truth : ConditionLeaf → Bool) : List ConditionNode → Bool
  | [] => true
  | c :: rest => holds truth c && holdsAll truth rest

def holdsAny (truth : ConditionLeaf → Bool) : List ConditionNode → Bool
  | [] => false
  | c :: rest => holds truth c || holdsAny truth rest
end

theorem holdsAll_eq (truth : ConditionLeaf → Bool) (children : List ConditionNode) :
    holdsAll truth children = children.all (holds truth) := by
  induction children with
  | nil => rfl
  | cons c rest ih => rw [holdsAll, ih, List.all_cons]

theorem holdsAny_eq (truth : ConditionLeaf → Bool) (children : List ConditionNode) :
    holdsAny truth children = children.any (holds truth) := by
  induction children with
  | nil => rfl
  | cons c rest ih => rw [holdsAny, ih, List.any_cons]

theorem holds_congr {first second : ConditionLeaf → Bool} (node : ConditionNode)
    (same : ∀ leaf ∈ node.leaves, first leaf = second leaf) : node.holds first = node.holds second := by
  induction node using byNodes with
  | and children ih =>
    rw [leaves, leavesOf_eq_flatMap] at same
    rw [holds, holds, holdsAll_eq, holdsAll_eq]
    exact all_eq_of_mem fun c member => ih c member fun leaf inNode => same leaf (List.mem_flatMap.mpr ⟨c, member, inNode⟩)
  | or children ih =>
    rw [leaves, leavesOf_eq_flatMap] at same
    rw [holds, holds, holdsAny_eq, holdsAny_eq]
    exact any_eq_of_mem fun c member => ih c member fun leaf inNode => same leaf (List.mem_flatMap.mpr ⟨c, member, inNode⟩)
  | leaf l => exact same l (List.mem_singleton_self l)

end ConditionNode

end MiniWaf.Plain
