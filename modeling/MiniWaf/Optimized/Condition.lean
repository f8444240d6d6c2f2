import MiniWaf.Plain.Types
import MiniWaf.Theory.Glob

/-! Condition evaluator of the optimised YAML engine, with its regexes taken from a
cache that the loader fills. Rules have the types of the plain engine; only leaves
carry a key into the cache.
-/

set_option autoImplicit false

namespace MiniWaf.Optimized

open Plain (Field MatchType)

structure ConditionLeaf extends Plain.ConditionLeaf where
  /-- Key into the compiled regexes, filled in by the loader. -/
  compiledRegexKey : Option String

inductive ConditionNode where
  | and (nodes : List ConditionNode)
  | or (nodes : List ConditionNode)
  | leaf (leaf : ConditionLeaf)

/-- Compiled regexes by key; a regex is represented by its `is_match`. -/
abbrev RegexCache := AssocMap String (String → Bool)

/-- The first part leads the text, and each other part is found after the one before it. -/
def globMatch (pattern text : String) : Bool :=
  match Text.split '*' pattern.toList with
  | [] => text.isEmpty
  | first :: parts => first.isPrefixOf text.toList && Glob.greedy parts (text.toList.drop first.length)

section
variable (ipNet : IpNetParser)

def cidrMatch (cidr ip : String) : Bool :=
  match IpAddr.parse ip.toList with
  | some ipAddr =>
    match ipNet cidr with
    | some contains => contains ipAddr
    | none => false
  | none => false

def matchValue (pattern value : String) (matchType : MatchType) (compiledRegexes : RegexCache)
    (regexKey : Option String) : Bool :=
  match matchType with
  | .exact => value == pattern
  | .wildcard => globMatch pattern value
  | .regex =>
    match regexKey with
    | some key =>
      match compiledRegexes.get key with
      | some re => re value
      | none => false
    | none => false
  | .cidr => cidrMatch ipNet pattern value
  | .presence => !value.isEmpty
  | .absence => value.isEmpty

def subject (leaf : Plain.ConditionLeaf) (ctx : Plain.RequestContext) : Option String :=
  match leaf.field with
  | .ip => some ctx.ip
  | .path => some ctx.path
  | .method => some ctx.method
  | .header => leaf.headerName.bind ctx.headers.get
  | .payload => some (String.ofList (Text.fromUtf8Lossy ctx.payload))
  | .cookie => leaf.cookieName.bind ctx.cookies.get
  | .contentType => ctx.contentType
  | .sessionId => some ctx.sessionId
  | .deviceFp => some ctx.deviceFp

def evalLeaf (leaf : ConditionLeaf) (ctx : Plain.RequestContext) (compiledRegexes : RegexCache) : Bool :=
  let found := match subject leaf.toConditionLeaf ctx with
    | some value => matchValue ipNet leaf.value value leaf.matchType compiledRegexes leaf.compiledRegexKey
    | none => false
  if leaf.negate then !found else found

mutual
def eval (node : ConditionNode) (ctx : Plain.RequestContext) (compiledRegexes : RegexCache) : Bool :=
  match node with
  | .and nodes => evalAll nodes ctx compiledRegexes
  | .or nodes => evalAny nodes ctx compiledRegexes
  | .leaf leaf => evalLeaf ipNet leaf ctx compiledRegexes

def evalAll (nodes : List ConditionNode) (ctx : Plain.RequestContext) (compiledRegexes : RegexCache) : Bool :=
  match nodes with
  | [] => true
  | n :: rest => eval n ctx compiledRegexes && evalAll rest ctx compiledRegexes

def evalAny (nodes : List ConditionNode) (ctx : Plain.RequestContext) (compiledRegexes : RegexCache) : Bool :=
  match nodes with
  | [] => false
  | n :: rest => eval n ctx compiledRegexes || evalAny rest ctx compiledRegexes
end

@[simp] theorem evalAll_eq (nodes : List ConditionNode) (ctx : Plain.RequestContext) (compiledRegexes : RegexCache) :
    evalAll ipNet nodes ctx compiledRegexes = nodes.all (eval ipNet · ctx compiledRegexes) := by
  induction nodes with
  | nil => rfl
  | cons n rest ih => rw [evalAll, ih, List.all_cons]

@[simp] theorem evalAny_eq (nodes : List ConditionNode) (ctx : Plain.RequestContext) (compiledRegexes : RegexCache) :
    evalAny ipNet nodes ctx compiledRegexes = nodes.any (eval ipNet · ctx compiledRegexes) := by
  induction nodes with
  | nil => rfl
  | cons n rest ih => rw [evalAny, ih, List.any_cons]

end

end MiniWaf.Optimized
