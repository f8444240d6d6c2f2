import MiniWaf.Std.Decimal
import MiniWaf.Std.Platform
import MiniWaf.Yaml

/-! The converter from YAML rules to source text of the rule language. It walks
the raw YAML value; an `Except` error is the text of the `anyhow` error.
-/

set_option autoImplicit false

namespace MiniWaf.Grl

open Yaml

def strOrEmpty (key : String) (entries : List (Yaml × Yaml)) : String := (strAt key entries).getD ""

def grlStringLiteral (s : String) : Text :=
  ('"' :: s.toList.flatMap fun c => if c = '"' then ['\\', '"'] else [c]) ++ ['"']

def regexMeta : Text := ".+*?^$\x7b\x7d()|[]\\".toList

def regexEscape (s : Text) : Text := s.flatMap fun c => if c ∈ regexMeta then ['\\', c] else [c]

section
variable (platform : Platform)

def pathMatchGrl (p : String) : Text :=
  if p = "/**" ∨ p = "**" then "true".toList
  else
    match Text.stripSuffix "/*".toList p.toList with
    | some pre => "matches(Request.Path, \"^".toList ++ regexEscape pre ++ "/[^/]+$\")".toList
    | none =>
      match Text.stripSuffix "/**".toList p.toList with
      | some pre => "starts_with(Request.Path, ".toList ++ platform.debug (String.ofList (pre ++ ['/'])) ++ [')']
      | none => "Request.Path == ".toList ++ platform.debug p

def fieldMatchToGrl (field matchType value : String) : Text :=
  match field, matchType with
  | "ip", "exact" => "Request.ClientIp == ".toList ++ grlStringLiteral value
  | "ip", "cidr" => "contains(Request.ClientIp, ".toList ++ grlStringLiteral value ++ [')']
  | "path", "exact" => "Request.Path == ".toList ++ grlStringLiteral value
  | "path", "wildcard" => pathMatchGrl platform value
  | "path", "regex" => "matches(Request.Path, ".toList ++ grlStringLiteral value ++ [')']
  | "method", "exact" => "Request.Method == ".toList ++ grlStringLiteral value
  | "method", "regex" => "matches(Request.Method, ".toList ++ grlStringLiteral value ++ [')']
  | "header", "exact" =>
    match Text.splitOnce ':' value.toList with
    | some (name, val) =>
      "Request.Headers[".toList ++ grlStringLiteral (String.ofList name) ++ "] == ".toList ++
        grlStringLiteral (String.ofList (Text.trim val))
    | none => "has_header(Request, ".toList ++ grlStringLiteral value ++ [')']
  | "header", "regex" =>
    match Text.splitOnce ':' value.toList with
    | some (name, pattern) =>
      "matches(Request.Headers[".toList ++ grlStringLiteral (String.ofList (Text.trim name)) ++ "], ".toList ++
        grlStringLiteral (String.ofList (Text.trim pattern)) ++ [')']
    | none => "false /* invalid header regex: ".toList ++ value.toList ++ " */".toList
  | "payload", "regex" => "matches(Request.Body, ".toList ++ grlStringLiteral value ++ [')']
  | "payload", "contains" => "contains(Request.Body, ".toList ++ grlStringLiteral value ++ [')']
  | "cookie", "exact" =>
    match Text.splitOnce '=' value.toList with
    | some (name, val) =>
      "contains(Request.Headers[\"Cookie\"], ".toList ++
        grlStringLiteral (String.ofList (Text.trim name ++ '=' :: Text.trim val)) ++ [')']
    | none => "false /* invalid cookie: ".toList ++ value.toList ++ " */".toList
  | f, m => "false /* unknown field/match: ".toList ++ f.toList ++ '/' :: m.toList ++ " */".toList

def newLeafToGrl (entries : List (Yaml × Yaml)) : Except String Text :=
  match strAt "field" entries with
  | none => .error "missing field"
  | some field =>
    match strAt "match" entries with
    | none => .error "missing match"
    | some matchType => .ok (fieldMatchToGrl platform field matchType (strOrEmpty "value" entries))

/-- `format!("({})", parts.join(sep))`. -/
def joinParts (sep : Text) (parts : List Text) : Text := '(' :: Text.join sep parts ++ [')']

mutual
def newCondToGrl : Yaml → Except String Text
  | .mapping entries =>
    match newPartsAt "and" entries with
    | some parts => parts.map (joinParts " && ".toList)
    | none =>
      match newPartsAt "or" entries with
      | some parts => parts.map (joinParts " || ".toList)
      | none => newLeafToGrl platform entries
  | .tagged _ c => newCondToGrl c
  | _ => .error "not a map"

def newPartsAt (key : String) : List (Yaml × Yaml) → Option (Except String (List Text))
  | [] => none
  | (k, v) :: rest => if isKey key k then newPartsOf v else newPartsAt key rest

def newPartsOf : Yaml → Option (Except String (List Text))
  | .sequence items => some (newParts items)
  | .tagged _ v => newPartsOf v
  | _ => none

/-- The first error stops the collection. -/
def newParts : List Yaml → Except String (List Text)
  | [] => .ok []
  | c :: rest => do
    let part ← newCondToGrl c
    let parts ← newParts rest
    pure (part :: parts)
end

/-- Legacy leaves, by their `type`. -/
def legacyLeafToGrl (kind : String) (entries : List (Yaml × Yaml)) : Text :=
  match kind with
  | "ip_exact" => "Request.ClientIp == ".toList ++ platform.debug (strOrEmpty "value" entries)
  | "ip_in_blacklist" => "ip_in_blacklist(Request.ClientIp)".toList
  | "ip_in_whitelist" => "ip_in_whitelist(Request.ClientIp)".toList
  | "path_exact" => "Request.Path == ".toList ++ platform.debug (strOrEmpty "value" entries)
  | "path_wildcard" => pathMatchGrl platform (strOrEmpty "pattern" entries)
  | "path_regex" => "matches(Request.Path, ".toList ++ platform.debug (strOrEmpty "pattern" entries) ++ [')']
  | "header_exact" =>
    "Request.Headers[".toList ++ platform.debug (strOrEmpty "name" entries) ++ "] == ".toList ++
      platform.debug (strOrEmpty "value" entries)
  | "header_regex" =>
    "matches(Request.Headers[".toList ++ platform.debug (strOrEmpty "name" entries) ++ "], ".toList ++
      platform.debug (strOrEmpty "pattern" entries) ++ [')']
  | "payload_regex" =>
    let p := platform.debug (strOrEmpty "pattern" entries)
    "(matches(Request.Body, ".toList ++ p ++ ") || matches(Request.Query, ".toList ++ p ++ "))".toList
  | "cookie_exact" =>
    let needle := strOrEmpty "name" entries ++ "=" ++ strOrEmpty "value" entries
    "contains(Request.Headers[\"Cookie\"], ".toList ++ platform.debug needle ++ [')']
  | "rate_limit_exceeded" => "false".toList
  | "sqli_pattern" => "(contains_sqli(Request.Query) || contains_sqli(Request.Body))".toList
  | "xss_pattern" => "(contains_xss(Request.Query) || contains_xss(Request.Body))".toList
  | "path_traversal_pattern" => "contains_path_traversal(Request.Path)".toList
  | "ssrf_pattern" =>
    "(contains(Request.Query, \"http://\") || ".toList ++ "contains(Request.Query, \"file://\") || ".toList ++
      "contains(Request.Query, \"169.254.169.254\"))".toList
  | "header_injection_pattern" =>
    "(contains_header_injection(Request.Path) || ".toList ++ "contains_header_injection(Request.Query))".toList
  | other => "false /* unknown condition: ".toList ++ other.toList ++ " */".toList

mutual
/-- The new format is tried first, then the legacy one by its `type`. -/
def condToGrl : Yaml → Except String Text
  | .mapping entries =>
    match newCondToGrl platform (.mapping entries) with
    | .ok grl => .ok grl
    | .error _ =>
      match strAt "type" entries with
      | none => .error "condition missing type and not field/match/value"
      | some "and" => (partsAt "conditions" entries).map (joinParts " && ".toList)
      | some "or" => (partsAt "conditions" entries).map (joinParts " || ".toList)
      | some "not" => (innerAt "condition" entries).map fun inner => "!(".toList ++ inner ++ [')']
      | some kind => .ok (legacyLeafToGrl platform kind entries)
  | .tagged _ c => condToGrl c
  | _ => .error "condition must be a map"

def partsAt (key : String) : List (Yaml × Yaml) → Except String (List Text)
  | [] => .error "expected list of conditions"
  | (k, v) :: rest => if isKey key k then partsOf v else partsAt key rest

def partsOf : Yaml → Except String (List Text)
  | .sequence items => parts items
  | .tagged _ v => partsOf v
  | _ => .error "expected list of conditions"

def parts : List Yaml → Except String (List Text)
  | [] => .ok []
  | c :: rest => do
    let part ← condToGrl c
    let more ← parts rest
    pure (part :: more)

def innerAt (key : String) : List (Yaml × Yaml) → Except String Text
  | [] => .error "not: missing condition"
  | (k, v) :: rest => if isKey key k then condToGrl v else innerAt key rest
end

def scopeToGrl (scope : Option Yaml) : Option Text :=
  match scope with
  | none => none
  | some scope =>
    match scope.asStr with
    | some s => if s = "global" then none else some ("Request.Tier == ".toList ++ platform.debug s)
    | none =>
      match scope.asMapping with
      | none => none
      | some map =>
        match strAt "type" map with
        | some "global" => none
        | some "tier" => (strAt "tier" map).map fun tier => "Request.Tier == ".toList ++ platform.debug tier
        | some "route_pattern" => (strAt "pattern" map).map (pathMatchGrl platform)
        | some "ip" => (strAt "ip" map).map fun ip => "Request.ClientIp == ".toList ++ platform.debug ip
        | _ => none

/-- `Ord::clamp` on `i64`. -/
def clamp (low high i : Int64) : Int64 := if i < low then low else if high < i then high else i

/-- `1000 - priority`; routing rules stay within 1..150. The cast to `i32` keeps the low bits. -/
def salienceOf (priority : Int64) (routing : Bool) : Int32 :=
  if routing then (clamp 1 150 (1000 - priority)).toInt32 else (1000 - priority).toInt32

def actionStmt (action : String) (id : String) : Text :=
  match action with
  | "block" => "    block(".toList ++ platform.debug id ++ ");\n".toList
  | "challenge" => "    challenge(\"js\");\n".toList
  | "rate_limit" => "    rate_limit(60);\n".toList
  | "allow" => "    allow();\n".toList
  | "log" => "    log(".toList ++ platform.debug id ++ ");\n".toList
  | other => "    log(\"unknown_action:".toList ++ other.toList ++ "\");\n".toList

def rulePriority (v : Yaml) : Int64 := (((v.get "priority").bind asU64).getD 500).toInt64

def ruleUpstream (v : Yaml) : Option String := (v.get "upstream_backend").bind asStr

def ruleSalience (v : Yaml) : Int32 := salienceOf (rulePriority v) (ruleUpstream v).isSome

/-- The condition, under the scope's guard. -/
def ruleWhen (scopeGuard : Option Text) (condGrl : Text) : Text :=
  match scopeGuard with
  | some s => ['('] ++ s ++ ") && (".toList ++ condGrl ++ [')']
  | none => condGrl

def ruleThen (delta : Int64) (upstream : Option String) (action : String) (id : String) : Text :=
  (if delta = 0 then [] else
    "    Request.RiskScore = Request.RiskScore + ".toList ++ Text.ofInt delta.toInt ++ ";\n".toList) ++
  (match upstream with
    | some backend => "    log(\"route:".toList ++ backend.toList ++ "\");\n".toList
    | none => []) ++
  actionStmt platform action id

def ruleToGrl (v : Yaml) : Except String Text :=
  match (v.get "id").bind asStr with
  | none => .error "missing id"
  | some id =>
    let action := ((v.get "action").bind asStr).getD "log"
    let delta := ((v.get "risk_score_delta").bind asI64).getD 0
    let scopeGuard := scopeToGrl platform (v.get "scope")
    match v.get "condition" with
    | none => .error "missing condition"
    | some condition =>
      (condToGrl platform condition).map fun condGrl =>
        "rule ".toList ++ platform.debug id ++ " salience ".toList ++ Text.ofInt (ruleSalience v).toInt ++
          " \x7b\n    when ".toList ++ ruleWhen scopeGuard condGrl ++ "\n    then\n".toList ++
          ruleThen platform delta (ruleUpstream v) action id ++ "\x7d\n".toList

/-- A whole document; items that do not convert are skipped. -/
def yamlToGrl (doc : Yaml) : Except String Text :=
  match doc.asSequence with
  | none => .error "yaml rules: top-level must be a sequence"
  | some seq => .ok (seq.flatMap fun item =>
      match ruleToGrl platform item with
      | .ok s => s ++ ['\n']
      | .error _ => [])

end

end MiniWaf.Grl
