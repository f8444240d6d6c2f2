import MiniWaf.Rules.Rule

/-! Scopes of YAML rules: what they ask of a request, how they are written, and
where the guard the converter makes of them says the same.
-/

set_option autoImplicit false

namespace MiniWaf.Documents

open Grl Rete Rules Yaml

inductive RuleScope where
  | global
  | tier (t : Tier)
  | routePattern (pattern : String)
  | ip (addr : String)
  | session (id : String)
  | deviceFingerprint (fp : String)
  deriving DecidableEq, Repr

/-- What `^pre/[^/]+$` is meant to match: one more segment after the prefix. -/
def oneSegment (pre : Text) (path : String) : Bool :=
  (pre ++ ['/']).isPrefixOf path.toList && path.toList.drop (pre.length + 1) ≠ [] &&
    '/' ∉ path.toList.drop (pre.length + 1)

/-- The paths a route pattern stands for. -/
def pathMatches (pattern path : String) : Bool :=
  if pattern = "/**" ∨ pattern = "**" then true
  else
    match Text.stripSuffix "/*".toList pattern.toList with
    | some pre => oneSegment pre path
    | none =>
      match Text.stripSuffix "/**".toList pattern.toList with
      | some pre => (pre ++ ['/']).isPrefixOf path.toList
      | none => path == pattern

namespace RuleScope

def Holds (ctx : RequestContext) : RuleScope → Prop
  | global => True
  | tier t => ctx.tier = t
  | routePattern pattern => pathMatches pattern ctx.path = true
  | ip addr => ctx.clientIp = addr
  | session id => ctx.sessionId = some id
  | deviceFingerprint fp => ctx.deviceFp = some fp

def kind : RuleScope → String
  | global => "global"
  | tier _ => "tier"
  | routePattern _ => "route_pattern"
  | ip _ => "ip"
  | session _ => "session"
  | deviceFingerprint _ => "device_fingerprint"

def value : RuleScope → String
  | global => ""
  | tier t => t.serdeName
  | routePattern s | ip s | session s | deviceFingerprint s => s

def field : RuleScope → Option String
  | tier _ => some "tier"
  | routePattern _ => some "pattern"
  | ip _ => some "ip"
  | _ => none

end RuleScope

/-- A scope is written as a map with a `type`, or the way serde writes the enum. -/
inductive Spelling where
  | typed
  | serde
  deriving DecidableEq, Repr

def Spelled (scope : RuleScope) (y : Yaml) : Spelling → Prop
  | .typed => ∃ entries, y.asMapping = some entries ∧ strAt "type" entries = some scope.kind ∧
      ∀ key, scope.field = some key → strAt key entries = some scope.value
  | .serde => y = if scope = .global then .string scope.kind else .tagged scope.kind (.string scope.value)

/-- The tier as `Request.Tier` reads it: the Rust name in lower case, not the serde name. -/
def tierWord : Tier → String
  | .critical => "critical"
  | .high => "high"
  | .medium => "medium"
  | .catchAll => "catchall"

/-- Where the guard says what the scope says. -/
def Guarded (ctx : RequestContext) : Spelling → RuleScope → Prop
  | _, .global => True
  | _, .tier t => t = .catchAll → ctx.tier ≠ .catchAll
  | .typed, .routePattern pattern => pathMatches pattern (urlDecode ctx.path) = pathMatches pattern ctx.path
  | .typed, .ip _ => True
  -- no guard is written: the scope has to hold anyway
  | .typed, scope => scope.Holds ctx
  -- the value is compared with the tier, and `global` drops the guard
  | .serde, scope =>
    if scope.value = "global" then scope.Holds ctx else (scope.Holds ctx ↔ tierWord ctx.tier = scope.value)

section
variable (platform : Platform)

def globPattern (pre : Text) : String := String.ofList ('^' :: regexEscape pre ++ "/[^/]+$".toList)

/-- The `regex` crate matches these patterns as documented. -/
def GlobRegex : Prop := ∀ pre path, platform.isMatch (globPattern pre) path = oneSegment pre path

/-- What the rule language reads where a string was written with `{:?}`. -/
def reread (s : String) : String := (⟨.debug, s⟩ : Quoted).read platform

/-- The scope's string survives quoting, in the forms the converter writes it in. -/
def Survives : RuleScope → Prop
  | .global | .tier _ => True
  | .routePattern p => reread platform p = p ∧
      (∀ pre, Text.stripSuffix "/*".toList p.toList = some pre →
        (⟨.verbatim, globPattern pre⟩ : Quoted).read platform = globPattern pre) ∧
      ∀ pre, Text.stripSuffix "/**".toList p.toList = some pre →
        reread platform (String.ofList (pre ++ ['/'])) = String.ofList (pre ++ ['/'])
  | .ip s | .session s | .deviceFingerprint s => reread platform s = s

end

def unescape : Text → Text
  | '\\' :: c :: rest => c :: unescape rest
  | c :: rest => c :: unescape rest
  | [] => []

-- A rule without its scope

def unscoped : Yaml → Yaml
  | .mapping entries => .mapping (entries.filter fun e => !isKey "scope" e.1)
  | .tagged tag v => .tagged tag (unscoped v)
  | v => v

theorem lookup_unscoped (key : String) (ne : key ≠ "scope") (entries : List (Yaml × Yaml)) :
    lookup key (entries.filter fun e => !isKey "scope" e.1) = lookup key entries := by
  rw [lookup, lookup, List.find?_filter]
  congr 2
  funext e
  cases e.1 with
  | string s =>
    by_cases same : s = key
    · subst same
      simp [isKey, ne]
    · simp [isKey, same]
  | _ => rfl

theorem get_unscoped (key : String) (ne : key ≠ "scope") (v : Yaml) : (unscoped v).get key = v.get key := by
  fun_induction unscoped v with
  | case1 entries => exact lookup_unscoped key ne entries
  | case2 tag v ih => exact ih
  | case3 other notMapping notTagged => rfl

theorem scope_unscoped (v : Yaml) : (unscoped v).get "scope" = none := by
  fun_induction unscoped v with
  | case1 entries =>
    change lookup "scope" _ = none
    rw [lookup, List.find?_filter, List.find?_eq_none.mpr]
    · rfl
    · intro e _
      simp
  | case2 tag v ih => exact ih
  | case3 other notMapping notTagged =>
    cases other with
    | mapping entries => exact absurd rfl (notMapping entries)
    | tagged tag v => exact absurd rfl (notTagged tag v)
    | _ => rfl

theorem ruleShape_unscoped {v : Yaml} {r : RuleShape} (converts : ruleShape v = .ok r) :
    ruleShape (unscoped v) = .ok { r with guard := none } := by
  have item := ofItem converts
  obtain ⟨c, at_condition, shape⟩ := item.condition
  have salience : ruleSalience (unscoped v) = ruleSalience v := by
    rw [ruleSalience, ruleSalience, rulePriority, rulePriority, ruleUpstream, ruleUpstream,
      get_unscoped "priority" (by decide), get_unscoped "upstream_backend" (by decide)]
  have upstream : ruleUpstream (unscoped v) = ruleUpstream v := by
    rw [ruleUpstream, ruleUpstream, get_unscoped "upstream_backend" (by decide)]
  unfold ruleShape
  rw [get_unscoped "id" (by decide), get_unscoped "condition" (by decide), get_unscoped "risk_score_delta" (by decide),
    get_unscoped "action" (by decide), scope_unscoped, salience, upstream, item.id, at_condition]
  simp only [shape]
  rw [← item.salience, ← item.delta, ← item.calls]
  rfl

-- What a guard says

section
variable {platform : Platform} {ctx : RequestContext} {registry : FunctionRegistry}

variable (platform) in
theorem toLowercase_debugName (t : Tier) : platform.toLowercase t.debugName = tierWord t := by
  cases t <;> rfl

theorem truth_tier (s : String) :
    truth platform (.new ctx registry) ((fieldEquals .tier ⟨.debug, s⟩).expr platform) =
      (tierWord ctx.tier == reread platform s) := by
  rw [← toLowercase_debugName platform]
  rfl

theorem truth_clientIp (s : String) :
    truth platform (.new ctx registry) ((fieldEquals .clientIp ⟨.debug, s⟩).expr platform) =
      (ctx.clientIp == reread platform s) := rfl

theorem truth_pathCall {fn : Name} (builtIn : registry.fns fn.word = none) (q : Quoted) :
    truth platform (.new ctx registry) ((fieldCall fn .path q).expr platform) =
      (dispatch platform fn.word [.str (urlDecode ctx.path), .str (q.read platform)]).asBool :=
  truth_call builtIn (.field .path) q

/-- A glob pattern whose strings read back says what it stands for. -/
theorem truth_pathShape (globs : GlobRegex platform) {pattern : String}
    (reads : ∀ q ∈ strings (pathShape pattern), q.read platform = q.value)
    (matchesBuiltIn : registry.fns "matches" = none) (startsBuiltIn : registry.fns "starts_with" = none) :
    truth platform (.new ctx registry) ((pathShape pattern).expr platform) = pathMatches pattern (urlDecode ctx.path) := by
  unfold pathShape at reads ⊢
  unfold pathMatches
  by_cases everything : pattern = "/**" ∨ pattern = "**"
  · rw [if_pos everything, if_pos everything]
    rfl
  · rw [if_neg everything] at reads
    rw [if_neg everything, if_neg everything]
    cases one : Text.stripSuffix "/*".toList pattern.toList with
    | some pre =>
      have called : truth platform (.new ctx registry)
          ((fieldCall .matches_ .path ⟨.verbatim, globPattern pre⟩).expr platform) = _ :=
        truth_pathCall matchesBuiltIn _
      simp only [one] at reads
      rw [reads ⟨.verbatim, globPattern pre⟩ List.mem_cons_self] at called
      exact called.trans (globs pre (urlDecode ctx.path))
    | none =>
      cases all : Text.stripSuffix "/**".toList pattern.toList with
      | some pre =>
        have called : truth platform (.new ctx registry)
            ((fieldCall .startsWith .path ⟨.debug, String.ofList (pre ++ ['/'])⟩).expr platform) = _ :=
          truth_pathCall startsBuiltIn _
        simp only [one, all] at reads
        rw [reads ⟨.debug, String.ofList (pre ++ ['/'])⟩ List.mem_cons_self] at called
        refine called.trans ?_
        change (String.ofList (pre ++ ['/'])).toList.isPrefixOf _ = _
        rw [String.toList_ofList]
        rfl
      | none =>
        simp only [one, all] at reads
        have equal : truth platform (.new ctx registry) ((fieldEquals .path ⟨.debug, pattern⟩).expr platform) =
            (urlDecode ctx.path == (⟨.debug, pattern⟩ : Quoted).read platform) := rfl
        rw [reads ⟨.debug, pattern⟩ List.mem_cons_self] at equal
        exact equal

theorem truth_path (globs : GlobRegex platform) {pattern : String} (survives : Survives platform (.routePattern pattern))
    (matchesBuiltIn : registry.fns "matches" = none) (startsBuiltIn : registry.fns "starts_with" = none) :
    truth platform (.new ctx registry) ((pathShape pattern).expr platform) = pathMatches pattern (urlDecode ctx.path) := by
  obtain ⟨whole, segment, below⟩ := survives
  apply truth_pathShape globs ?_ matchesBuiltIn startsBuiltIn
  unfold pathShape
  by_cases everything : pattern = "/**" ∨ pattern = "**"
  · rw [if_pos everything]
    exact fun _ member => nomatch member
  · rw [if_neg everything]
    intro q member
    cases one : Text.stripSuffix "/*".toList pattern.toList with
    | some pre =>
      rw [one] at member
      obtain rfl := List.mem_singleton.mp member
      exact segment pre one
    | none =>
      rw [one] at member
      cases all : Text.stripSuffix "/**".toList pattern.toList with
      | some pre =>
        rw [all] at member
        obtain rfl := List.mem_singleton.mp member
        exact below pre all
      | none =>
        rw [all] at member
        obtain rfl := List.mem_singleton.mp member
        exact whole

def guardTruth (platform : Platform) (wm : WorkingMemory) : Option Shape → Bool
  | some g => truth platform wm (g.expr platform)
  | none => true

theorem truth_when (wm : WorkingMemory) (r : RuleShape) :
    truth platform wm (r.whenExpr platform) =
      (guardTruth platform wm r.guard && truth platform wm (r.condition.expr platform)) := by
  rw [RuleShape.whenExpr]
  cases r.guard with
  | none => rfl
  | some g => exact truth_and platform wm _ _

theorem asStr_of_asMapping : {y : Yaml} → {entries : List (Yaml × Yaml)} → y.asMapping = some entries → y.asStr = none
  | .mapping _, _, _ => rfl
  | .tagged _ y, _, isMap => asStr_of_asMapping (y := y) isMap
  | .null, _, isMap => nomatch isMap
  | .bool _, _, isMap => nomatch isMap
  | .number _, _, isMap => nomatch isMap
  | .string _, _, isMap => nomatch isMap
  | .sequence _, _, isMap => nomatch isMap

theorem guard_typed {scope : RuleScope} {y : Yaml} (spelled : Spelled scope y .typed) :
    scopeShape (some y) = match scope with
      | .tier t => some (fieldEquals .tier ⟨.debug, t.serdeName⟩)
      | .routePattern p => some (pathShape p)
      | .ip s => some (fieldEquals .clientIp ⟨.debug, s⟩)
      | _ => none := by
  obtain ⟨entries, isMap, kind, field⟩ := spelled
  simp only [scopeShape, asStr_of_asMapping isMap, isMap, kind]
  cases scope with
  | global => rfl
  | tier t =>
    have value := field "tier" rfl
    simp [RuleScope.kind, value, RuleScope.value]
  | routePattern p =>
    have value := field "pattern" rfl
    simp [RuleScope.kind, value, RuleScope.value]
  | ip s =>
    have value := field "ip" rfl
    simp [RuleScope.kind, value, RuleScope.value]
  | session s => rfl
  | deviceFingerprint s => rfl

theorem guard_serde {scope : RuleScope} {y : Yaml} (spelled : Spelled scope y .serde) :
    scopeShape (some y) = if scope = .global ∨ scope.value = "global" then none
      else some (fieldEquals .tier ⟨.debug, scope.value⟩) := by
  rw [Spelled] at spelled
  subst spelled
  by_cases whole : scope = .global
  · subst whole
    rfl
  · rw [if_neg whole]
    simp only [whole, false_or]
    rfl

variable (platform) in
theorem reread_serdeName (t : Tier) : reread platform t.serdeName = t.serdeName := by
  have ordinary : t.serdeName.toList.all Platform.plainChar = true := by
    cases t <;> decide +kernel
  exact (Quoted.plain_debug fun c member => platform.debugChar_of_plain (List.all_eq_true.mp ordinary c member)).2

theorem tier_agrees (t : Tier) :
    (guardTruth platform (.new ctx registry) (some (fieldEquals .tier ⟨.debug, t.serdeName⟩)) = true ↔ ctx.tier = t) ↔
      (t = .catchAll → ctx.tier ≠ .catchAll) := by
  rw [guardTruth, truth_tier, reread_serdeName, beq_iff_eq]
  cases t <;> cases ctx.tier <;> simp [tierWord, Tier.serdeName]

theorem untouched_agrees (scope : RuleScope) :
    (guardTruth platform (.new ctx registry) none = true ↔ scope.Holds ctx) ↔ scope.Holds ctx := by
  simp [guardTruth]

theorem compared_agrees {scope : RuleScope} (other : scope ≠ .global) (kept : reread platform scope.value = scope.value) :
    (guardTruth platform (.new ctx registry) (if scope = .global ∨ scope.value = "global" then none
        else some (fieldEquals .tier ⟨.debug, scope.value⟩)) = true ↔ scope.Holds ctx) ↔
      if scope.value = "global" then scope.Holds ctx else (scope.Holds ctx ↔ tierWord ctx.tier = scope.value) := by
  simp only [other, false_or]
  by_cases word : scope.value = "global"
  · rw [if_pos word, if_pos word]
    exact untouched_agrees scope
  · rw [if_neg word, if_neg word, guardTruth, truth_tier, kept, beq_iff_eq]
    exact iff_comm

theorem guard_agrees (globs : GlobRegex platform) {scope : RuleScope} (survives : Survives platform scope)
    (matchesBuiltIn : registry.fns "matches" = none) (startsBuiltIn : registry.fns "starts_with" = none)
    {spelling : Spelling} {y : Yaml} (spelled : Spelled scope y spelling) :
    (guardTruth platform (.new ctx registry) (scopeShape (some y)) = true ↔ scope.Holds ctx) ↔
      Guarded ctx spelling scope := by
  cases spelling with
  | typed =>
    rw [guard_typed spelled]
    cases scope with
    | global => simp [guardTruth, Guarded, RuleScope.Holds]
    | tier t => exact tier_agrees t
    | routePattern p =>
      rw [guardTruth, truth_path globs survives matchesBuiltIn startsBuiltIn, RuleScope.Holds, Guarded]
      exact Bool.eq_iff_iff.symm
    | ip s =>
      have kept : reread platform s = s := survives
      rw [guardTruth, truth_clientIp, kept]
      simp [RuleScope.Holds, Guarded]
    | session s => exact untouched_agrees _
    | deviceFingerprint s => exact untouched_agrees _
  | serde =>
    rw [guard_serde spelled]
    cases scope with
    | global => simp [guardTruth, Guarded, RuleScope.Holds]
    | tier t =>
      have named : ¬ (RuleScope.tier t = .global ∨ (RuleScope.tier t).value = "global") := by
        cases t <;> decide
      rw [if_neg named]
      exact tier_agrees t
    | routePattern s => exact compared_agrees (by simp) survives.1
    | ip s => exact compared_agrees (by simp) survives
    | session s => exact compared_agrees (by simp) survives
    | deviceFingerprint s => exact compared_agrees (by simp) survives

theorem parse_rule {v : Yaml} {r : RuleShape} (converts : ruleShape v = .ok r) (clean : r.clean platform = true) :
    ∃ text, ruleToGrl platform v = .ok text ∧ parse text = some [r.ast platform] := by
  have reads := RuleShape.reads clean (ofItem converts).calls_ne_nil
  refine ⟨r.text platform ++ ['\n'], by rw [ruleToGrl_eq, converts]; rfl, ?_⟩
  have blank : ∀ s, skipped (['\n'] ++ s) = skipped s := skipped_newline
  have file := parse_fileText blank (.cons reads .nil)
  rwa [fileText, List.flatMap_cons, List.flatMap_nil, List.append_nil] at file

/-- A rule is evaluated as its scope and its condition say, wherever the condition
fails or the guard says what the scope says. -/
theorem scope_respected (globs : GlobRegex platform) {v y : Yaml} {text : Text}
    (converts : ruleToGrl platform v = .ok text) (clean : ∀ r, ruleShape v = .ok r → r.clean platform = true)
    {scope : RuleScope} (survives : Survives platform scope) {spelling : Spelling} (inScope : v.get "scope" = some y)
    (spelled : Spelled scope y spelling) :
    ∃ rule alone bare, parse text = some [rule] ∧ ruleToGrl platform (unscoped v) = .ok alone ∧
      parse alone = some [bare] ∧ ∀ (ctx : RequestContext) (registry : FunctionRegistry),
        registry.fns "matches" = none → registry.fns "starts_with" = none →
          ((truth platform (.new ctx registry) rule.when = true ↔
              scope.Holds ctx ∧ truth platform (.new ctx registry) bare.when = true) ↔
            Guarded ctx spelling scope ∨ truth platform (.new ctx registry) bare.when = false) := by
  rw [ruleToGrl_eq] at converts
  cases shape : ruleShape v with
  | error message => rw [shape] at converts; cases converts
  | ok r =>
    have ok := clean r shape
    have bareOk : ({ r with guard := none } : RuleShape).clean platform = true := by
      simp only [RuleShape.clean, Bool.and_eq_true] at ok ⊢
      exact ⟨⟨⟨ok.1.1.1, rfl⟩, ok.1.2⟩, ok.2⟩
    obtain ⟨written, wholeText, parsed⟩ := parse_rule shape ok
    obtain ⟨alone, aloneText, parsedAlone⟩ := parse_rule (ruleShape_unscoped shape) bareOk
    rw [ruleToGrl_eq, shape] at wholeText
    obtain rfl : written = text := Except.ok.inj (wholeText.symm.trans (shape ▸ converts))
    refine ⟨_, alone, _, parsed, aloneText, parsedAlone, fun ctx registry matchesBuiltIn startsBuiltIn => ?_⟩
    have agrees : (guardTruth platform (.new ctx registry) (scopeShape (some y)) = true ↔ scope.Holds ctx) ↔
        Guarded ctx spelling scope := guard_agrees globs survives matchesBuiltIn startsBuiltIn spelled
    change ((truth platform (.new ctx registry) (r.whenExpr platform) = true ↔ scope.Holds ctx ∧
      truth platform (.new ctx registry) (r.condition.expr platform) = true) ↔ Guarded ctx spelling scope ∨
      truth platform (.new ctx registry) (r.condition.expr platform) = false)
    rw [truth_when, (ofItem shape).guard, inScope, ← agrees, Bool.and_eq_true]
    cases truth platform (.new ctx registry) (r.condition.expr platform) with
    | false => simp
    | true => simp

end

def globPlatform : Platform where
  regexNew pattern :=
    match pattern.toList with
    | '^' :: body => (Text.stripSuffix "/[^/]+$".toList body).map fun pre => oneSegment (unescape pre)
    | _ => none
  unicodeLower := id
  unicodeUpper := id
  debugEscaped := fun _ => false

theorem unescape_regexEscape (s : Text) : unescape (regexEscape s) = s := by
  induction s with
  | nil => rfl
  | cons c s ih =>
    rw [regexEscape, List.flatMap_cons]
    by_cases special : c ∈ regexMeta
    · rw [if_pos special]
      exact congrArg (List.cons c) ih
    · have notBackslash : c ≠ '\\' := by
        rintro rfl
        exact special (by decide)
      rw [if_neg special, List.singleton_append, unescape]
      · exact congrArg (List.cons c) ih
      · exact fun _ _ same _ => notBackslash same

theorem globPlatform_globs : GlobRegex globPlatform := by
  intro pre path
  have compiled : globPlatform.regexNew (globPattern pre) = some (oneSegment pre) := by
    have front : Text.stripSuffix "/[^/]+$".toList (regexEscape pre ++ "/[^/]+$".toList) = some (regexEscape pre) :=
      (Text.stripSuffix_eq_some _ _ _).mpr rfl
    simp only [globPlatform, globPattern, String.toList_ofList, List.cons_append, front, Option.map_some,
      unescape_regexEscape]
  rw [Platform.isMatch, compiled]

def scopedRule (scope : Yaml) : Yaml :=
  .record [("id", .string "r"), ("scope", scope),
    ("condition", .record [("type", .string "path_exact"), ("value", .string "/")]), ("action", .string "block")]

def apiScope : Yaml := .record [("type", .string "route_pattern"), ("pattern", .string "/api/*")]

theorem scope_respected_api :
    ∃ rule alone bare, parse (((ruleToGrl globPlatform (scopedRule apiScope)).toOption).getD []) = some [rule] ∧
      ruleToGrl globPlatform (unscoped (scopedRule apiScope)) = .ok alone ∧ parse alone = some [bare] ∧
      ∀ (ctx : RequestContext) (registry : FunctionRegistry),
        registry.fns "matches" = none → registry.fns "starts_with" = none →
          ((truth globPlatform (.new ctx registry) rule.when = true ↔
              (RuleScope.routePattern "/api/*").Holds ctx ∧ truth globPlatform (.new ctx registry) bare.when = true) ↔
            Guarded ctx .typed (.routePattern "/api/*") ∨ truth globPlatform (.new ctx registry) bare.when = false) := by
  have one : ∀ pre, Text.stripSuffix "/*".toList "/api/*".toList = some pre → pre = "/api".toList := by
    intro pre stripped
    exact (Option.some.inj ((by decide +kernel : Text.stripSuffix "/*".toList "/api/*".toList =
      some "/api".toList).symm.trans stripped)).symm
  have none : ∀ pre, Text.stripSuffix "/**".toList "/api/*".toList ≠ some pre := by
    intro pre stripped
    exact nomatch (by decide +kernel : Text.stripSuffix "/**".toList "/api/*".toList = none).symm.trans stripped
  refine scope_respected globPlatform_globs (v := scopedRule apiScope) (y := apiScope) rfl ?_ ?_ rfl ?_
  · intro r shape
    obtain rfl := Except.ok.inj shape
    decide +kernel
  · refine ⟨by decide +kernel, fun pre stripped => ?_, fun pre stripped => absurd stripped (none pre)⟩
    rw [one pre stripped]
    decide +kernel
  · exact ⟨_, rfl, rfl, fun key wanted => by cases wanted; rfl⟩

def scopedTruth (scope : Yaml) : Option (List Bool) :=
  (documentRules .plain (.sequence [scopedRule scope])).map
    (List.map fun r => truth .plain (.new (.bare "GET" "/") .new) r.when)

/-- A session scope is lost, a catch-all tier is never met, and a serde scope is compared with the tier. -/
theorem scope_lost :
    (¬ (RuleScope.session "abc").Holds (.bare "GET" "/") ∧
      scopedTruth (.record [("type", .string "session"), ("session", .string "abc")]) = some [true]) ∧
    ((RuleScope.tier .catchAll).Holds (.bare "GET" "/") ∧
      scopedTruth (.record [("type", .string "tier"), ("tier", .string "catch_all")]) = some [false]) ∧
    (RuleScope.ip "127.0.0.1").Holds (.bare "GET" "/") ∧
      scopedTruth (.tagged "ip" (.string "127.0.0.1")) = some [false] := by
  refine ⟨⟨(fun holds => nomatch holds), by decide +kernel⟩, ⟨rfl, by decide +kernel⟩, rfl, by decide +kernel⟩

end MiniWaf.Documents
