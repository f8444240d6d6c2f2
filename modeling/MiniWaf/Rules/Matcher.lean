import MiniWaf.Rules.Rule

/-! The matcher evaluates typed conditions directly, beside the rule engine's reading
of the text they are converted to.
-/

set_option autoImplicit false

namespace MiniWaf.Rules.Matcher

open Grl Rete

-- Detection regexes; `Regex::new` of these is unwrapped, so they are valid

def sqliRegex : String :=
  r"(?i)(\b(union\s+select|select\s+\S+\s+from|insert\s+into|update\s+\S+\s+set|delete\s+from|drop\s+(table|database)|exec(ute)?\s*\(|cast\s*\(|convert\s*\(|declare\s+@)\b|'(\s*(or|and)\s+'?\d|--)|/\*.*\*/|;\s*(drop|select|insert|update|delete|create)\b)"

def xssRegex : String :=
  r#"(?i)(<\s*script[\s>]|javascript\s*:|on\w+\s*=\s*['"\w]|<\s*(iframe|object|embed|svg|math)[\s/>]|expression\s*\(|vbscript\s*:)"#

def ptRegex : String := r"(\.\./|\.\.\\|%2e%2e%2f|%2e%2e/|\.\.%2f|%252e%252e|%c0%ae|%c1%9c)"

def ssrfRegex : String :=
  r"(?i)https?://(localhost|127\.\d+\.\d+\.\d+|0\.0\.0\.0|10\.\d+\.\d+\.\d+|172\.(1[6-9]|2\d|3[01])\.\d+\.\d+|192\.168\.\d+\.\d+|169\.254\.\d+\.\d+|::1)|file://|dict://|gopher://|sftp://"

def hiRegex : String := r"[\r\n]"

def escapedChars : Text := ".+()[]\x7b\x7d^$|\\".toList

def wildcardRegex (pattern : String) : String :=
  String.ofList ('^' :: (pattern.toList.flatMap fun ch =>
    if ch = '*' then ['.', '*'] else if ch = '?' then ['.'] else if ch ∈ escapedChars then ['\\', ch] else [ch]) ++ ['$'])

/-- A part of the `Cookie` header is the cookie of this name and value. -/
def isPair (name value : String) (part : Text) : Bool :=
  match Text.splitOnce '=' (Text.trim part) with
  | some (k, v) => Text.trim k == name.toList && Text.trim v == value.toList
  | none => false

def checkCookie (headers : AssocMap String String) (name value : String) : Bool :=
  match headers.get "cookie" with
  | some cookies => (Text.split ';' cookies.toList).any (isPair name value)
  | none => false

/-- `std::str::from_utf8(b).ok()` of the body, if there is one. -/
def utf8Body (ctx : RequestContext) : Option String := (ctx.body.bind Text.fromUtf8).map String.ofList

/-- Header values come in the order of the map. -/
def buildHaystack (ctx : RequestContext) : String :=
  String.ofList (Text.join [' '] (([ctx.path] ++ ctx.query.toList ++ ctx.headers.entries.map Prod.snd ++
    (utf8Body ctx).toList).map String.toList))

section
variable (platform : Platform)

mutual
def evaluate (condition : Condition) (ctx : RequestContext) : Bool :=
  match condition with
  | .ipExact value => ctx.clientIp == value
  | .ipInBlacklist | .ipInWhitelist => false
  | .pathExact value => ctx.path == value
  | .pathWildcard pattern => platform.isMatch (wildcardRegex pattern) ctx.path
  | .pathRegex pattern => platform.isMatch pattern ctx.path
  | .headerExact name value => ((ctx.headers.get (platform.toLowercase name)).map (· == value)).getD false
  | .headerRegex name pattern =>
    ((ctx.headers.get (platform.toLowercase name)).map (platform.isMatch pattern)).getD false
  | .payloadRegex pattern => ((utf8Body ctx).map (platform.isMatch pattern)).getD false
  | .cookieExact name value => checkCookie ctx.headers name value
  | .rateLimitExceeded => false
  | .sqliPattern => platform.isMatch sqliRegex (buildHaystack ctx)
  | .xssPattern => platform.isMatch xssRegex (buildHaystack ctx)
  | .pathTraversalPattern => platform.isMatch ptRegex (platform.toLowercase ctx.path)
  | .ssrfPattern => platform.isMatch ssrfRegex (buildHaystack ctx)
  | .headerInjectionPattern => ctx.headers.entries.any fun e => platform.isMatch hiRegex e.2
  | .and conds => evaluateAll conds ctx
  | .or conds => evaluateAny conds ctx
  | .not cond => !evaluate cond ctx

def evaluateAll (conds : List Condition) (ctx : RequestContext) : Bool :=
  match conds with
  | [] => true
  | c :: rest => evaluate c ctx && evaluateAll rest ctx

def evaluateAny (conds : List Condition) (ctx : RequestContext) : Bool :=
  match conds with
  | [] => false
  | c :: rest => evaluate c ctx || evaluateAny rest ctx
end

theorem evaluateAll_eq (conds : List Condition) (ctx : RequestContext) :
    evaluateAll platform conds ctx = conds.all (evaluate platform · ctx) := by
  induction conds with
  | nil => rfl
  | cons c rest ih => rw [evaluateAll, ih, List.all_cons]

theorem evaluateAny_eq (conds : List Condition) (ctx : RequestContext) :
    evaluateAny platform conds ctx = conds.any (evaluate platform · ctx) := by
  induction conds with
  | nil => rfl
  | cons c rest ih => rw [evaluateAny, ih, List.any_cons]

theorem evaluate_eq_holds (c : Condition) (ctx : RequestContext) :
    evaluate platform c ctx = c.holds (evaluate platform · ctx) := by
  induction c using Condition.byParts with
  | leaf c isLeaf => rw [Condition.holds_of_isLeaf _ isLeaf]
  | and cs ih =>
    rw [evaluate, evaluateAll_eq, Condition.holds, Condition.holdsAll_eq]
    exact all_eq_of_mem ih
  | or cs ih =>
    rw [evaluate, evaluateAny_eq, Condition.holds, Condition.holdsAny_eq]
    exact any_eq_of_mem ih
  | not c ih => rw [evaluate, Condition.holds, ih]

-- The rule engine's reading of the leaves that compare texts

def comparesText : Condition → Bool
  | .ipExact _ | .pathExact _ | .pathRegex _ | .headerExact _ _ | .headerRegex _ _ | .payloadRegex _
  | .cookieExact _ _ => true
  | _ => false

/-- The text of a header; one that is absent is empty. -/
def headerText (ctx : RequestContext) (name : String) : String :=
  (ctx.headers.get (platform.toLowercase name)).getD ""

def queryText (ctx : RequestContext) : String := formDecode (ctx.query.getD "")

/-- What the converted leaf asks: headers may be absent, a payload may be in the query, and a cookie
is a part of the header's text. -/
def reading (ctx : RequestContext) : Condition → Bool
  | .ipExact value => ctx.clientIp == value
  | .pathExact value => ctx.path == value
  | .pathRegex pattern => platform.isMatch pattern ctx.path
  | .headerExact name value => headerText platform ctx name == value
  | .headerRegex name pattern => platform.isMatch pattern (headerText platform ctx name)
  | .payloadRegex pattern =>
    platform.isMatch pattern (bodyText ctx.body) || platform.isMatch pattern (queryText ctx)
  | .cookieExact name value =>
    Text.containsText (name ++ "=" ++ value).toList (headerText platform ctx "Cookie").toList
  | _ => false

def Agreed (ctx : RequestContext) : Condition → Prop
  | .headerExact name value => ctx.headers.get (platform.toLowercase name) = none → value ≠ ""
  | .headerRegex name pattern =>
    ctx.headers.get (platform.toLowercase name) = none → platform.isMatch pattern "" = false
  | .payloadRegex pattern =>
    match ctx.body with
    | some bytes =>
      platform.isMatch pattern (queryText ctx) = true →
        platform.isMatch pattern (String.ofList (Text.fromUtf8Lossy bytes)) = true
    | none => platform.isMatch pattern "" = false ∧ platform.isMatch pattern (queryText ctx) = false
  | .cookieExact name value =>
    checkCookie ctx.headers name value = true ↔
      (name ++ "=" ++ value).toList <:+: (headerText platform ctx "Cookie").toList
  | _ => True

end

section
variable {platform : Platform} {ctx : RequestContext} {registry : FunctionRegistry}

/-- On a body that is absent or UTF-8, the matcher says of a leaf what the converted leaf asks exactly
where the two agree. -/
theorem evaluate_eq_reading_iff (utf8 : ∀ bytes, ctx.body = some bytes → ∃ t, bytes = Text.utf8 t) {leaf : Condition}
    (texts : comparesText leaf = true) :
    evaluate platform leaf ctx = reading platform ctx leaf ↔ Agreed platform ctx leaf := by
  cases leaf with
  | ipExact value => exact iff_of_true rfl trivial
  | pathExact value => exact iff_of_true rfl trivial
  | pathRegex pattern => exact iff_of_true rfl trivial
  | headerExact name value =>
    rw [evaluate, reading, Agreed, headerText]
    cases ctx.headers.get (platform.toLowercase name) with
    | none =>
      by_cases empty : value = ""
      · simp [empty]
      · simp [empty, Ne.symm empty]
    | some held => simp
  | headerRegex name pattern =>
    rw [evaluate, reading, Agreed, headerText]
    cases ctx.headers.get (platform.toLowercase name) with
    | none => cases matched : platform.isMatch pattern "" <;> simp [matched]
    | some held => simp
  | payloadRegex pattern =>
    rw [evaluate, reading, Agreed, utf8Body]
    cases body : ctx.body with
    | none =>
      change (false = (platform.isMatch pattern "" || _)) ↔ _
      cases platform.isMatch pattern "" <;> cases platform.isMatch pattern (queryText ctx) <;> simp
    | some bytes =>
      obtain ⟨t, rfl⟩ := utf8 bytes body
      have decoded : Text.fromUtf8 (Text.utf8 t) = some t := (Text.fromUtf8_eq_some _ t).mpr rfl
      simp only [bodyText, Option.bind_some, decoded, Option.map_some, Option.getD_some, Text.fromUtf8Lossy_utf8]
      cases platform.isMatch pattern (String.ofList t) <;> cases platform.isMatch pattern (queryText ctx) <;> simp
  | cookieExact name value =>
    rw [evaluate, reading, Agreed, Bool.eq_iff_iff, Text.containsText_iff]
  | _ => cases texts

theorem truth_leaf (lower : LowerKeys platform ctx.headers) (unescaped : '%' ∉ ctx.path.toList)
    (matchesBuiltIn : registry.fns "matches" = none) (containsBuiltIn : registry.fns "contains" = none)
    {leaf : Condition} (texts : comparesText leaf = true) (kept : Kept platform leaf.shape) :
    truth platform (.new ctx registry) (leaf.shape.expr platform) = reading platform ctx leaf := by
  have header : ∀ name, findHeader platform ctx.headers name = headerText platform ctx name := findHeader_of_lower lower
  cases leaf with
  | ipExact value =>
    have reads := kept.reads ⟨.debug, value⟩ (by simp [Condition.shape, fieldEquals, strings, operandStrings])
    change (ctx.clientIp == (⟨.debug, value⟩ : Quoted).read platform) = _
    rw [reads]
    rfl
  | pathExact value =>
    have reads := kept.reads ⟨.debug, value⟩ (by simp [Condition.shape, fieldEquals, strings, operandStrings])
    change (urlDecode ctx.path == (⟨.debug, value⟩ : Quoted).read platform) = _
    rw [reads, urlDecode_of_none unescaped]
    rfl
  | pathRegex pattern =>
    have reads := kept.reads ⟨.debug, pattern⟩ (by simp [Condition.shape, fieldCall, strings, operandStrings])
    rw [Condition.shape, fieldCall, truth_matches matchesBuiltIn, reads]
    change platform.isMatch pattern (urlDecode ctx.path) = _
    rw [urlDecode_of_none unescaped]
    rfl
  | headerExact name value =>
    have named := kept.reads ⟨.debug, name⟩ (by simp [Condition.shape, strings, operandStrings])
    have reads := kept.reads ⟨.debug, value⟩ (by simp [Condition.shape, strings, operandStrings])
    change (findHeader platform ctx.headers ((⟨.debug, name⟩ : Quoted).read platform) ==
      (⟨.debug, value⟩ : Quoted).read platform) = _
    rw [named, reads, header]
    rfl
  | headerRegex name pattern =>
    have named := kept.reads ⟨.debug, name⟩ (by simp [Condition.shape, strings, operandStrings])
    have reads := kept.reads ⟨.debug, pattern⟩ (by simp [Condition.shape, strings, operandStrings])
    rw [Condition.shape, truth_matches matchesBuiltIn, reads]
    change platform.isMatch pattern (findHeader platform ctx.headers ((⟨.debug, name⟩ : Quoted).read platform)) = _
    rw [named, header]
    rfl
  | payloadRegex pattern =>
    have reads := kept.reads ⟨.debug, pattern⟩ (by simp [Condition.shape, fieldCall, strings, stringsOf, operandStrings])
    have tried : ∀ field, truth platform (.new ctx registry) ((fieldCall .matches_ field ⟨.debug, pattern⟩).expr platform) =
        platform.isMatch pattern (evalExpr platform (.new ctx registry) ((Operand.field field).expr platform)).asStr := by
      intro field
      rw [fieldCall, truth_matches matchesBuiltIn, reads]
    rw [Condition.shape, truth_any (by simp)]
    simp only [List.any_cons, List.any_nil, Bool.or_false, tried]
    rfl
  | cookieExact name value =>
    have reads := kept.reads ⟨.debug, name ++ "=" ++ value⟩ (by simp [Condition.shape, strings, operandStrings])
    have cookie : (⟨.verbatim, "Cookie"⟩ : Quoted).read platform = "Cookie" := rfl
    rw [Condition.shape, truth_contains containsBuiltIn, reads]
    change Text.containsText (name ++ "=" ++ value).toList (findHeader platform ctx.headers _).toList = _
    rw [cookie, header]
    rfl
  | _ => cases texts

/-- A condition on texts is converted to its reading, and the matcher says the same where each leaf is agreed. -/
theorem legacy_agrees (lower : LowerKeys platform ctx.headers) (unescaped : '%' ∉ ctx.path.toList)
    (utf8 : ∀ bytes, ctx.body = some bytes → ∃ t, bytes = Text.utf8 t)
    (matchesBuiltIn : registry.fns "matches" = none) (containsBuiltIn : registry.fns "contains" = none)
    {c : Condition} (texts : ∀ leaf ∈ c.leaves, comparesText leaf = true) (kept : Kept platform c.shape) :
    ∃ e, conditionExpr platform c.yaml = some e ∧
      truth platform (.new ctx registry) e = c.holds (reading platform ctx) ∧
      ((∀ leaf ∈ c.leaves, Agreed platform ctx leaf) → evaluate platform c ctx = truth platform (.new ctx registry) e) ∧
      (c.isLeaf = true → (evaluate platform c ctx = truth platform (.new ctx registry) e ↔ Agreed platform ctx c)) := by
  have converted : truth platform (.new ctx registry) (c.shape.expr platform) = c.holds (reading platform ctx) := by
    rw [← truth_shape kept]
    apply Condition.holds_congr
    intro leaf member
    exact truth_leaf lower unescaped matchesBuiltIn containsBuiltIn (texts leaf member) (kept_leaves kept leaf member)
  refine ⟨c.shape.expr platform, conditionExpr_eq (Condition.condShape_yaml c) kept.clean, converted, ?_, ?_⟩
  · intro agreed
    rw [converted, evaluate_eq_holds]
    apply Condition.holds_congr
    intro leaf member
    exact (evaluate_eq_reading_iff utf8 (texts leaf member)).mpr (agreed leaf member)
  · intro isLeaf
    have itself : c ∈ c.leaves := by
      rw [Condition.leaves_of_isLeaf isLeaf]
      exact List.mem_singleton_self c
    rw [converted, Condition.holds_of_isLeaf _ isLeaf]
    exact evaluate_eq_reading_iff utf8 (texts c itself)

end

def cookieRequest : RequestContext :=
  { RequestContext.bare "GET" "/login" with headers := ⟨[("cookie", "theme=dark; xsid=abcd")], by decide⟩ }

def cookieCondition (value : String) : Condition := .and [.ipExact "127.0.0.1", .not (.cookieExact "sid" value)]

theorem legacy_agrees_cookie :
    ∃ e, conditionExpr .plain (cookieCondition "none").yaml = some e ∧
      truth .plain (.new cookieRequest .new) e = (cookieCondition "none").holds (reading .plain cookieRequest) ∧
      evaluate .plain (cookieCondition "none") cookieRequest = truth .plain (.new cookieRequest .new) e := by
  have lower : LowerKeys .plain cookieRequest.headers := by
    unfold LowerKeys
    decide +kernel
  have texts : ∀ leaf ∈ (cookieCondition "none").leaves, comparesText leaf = true := by
    intro leaf member
    rcases List.mem_pair.mp member with rfl | rfl <;> rfl
  have kept : Kept .plain (cookieCondition "none").shape := by
    constructor <;> decide +kernel
  obtain ⟨e, converts, read, agrees, -⟩ : ∃ e, conditionExpr .plain (cookieCondition "none").yaml = some e ∧
      truth .plain (.new cookieRequest .new) e = (cookieCondition "none").holds (reading .plain cookieRequest) ∧
      (_ → _ = truth .plain _ e) ∧ _ :=
    legacy_agrees lower (by decide +kernel) (fun _ absent => nomatch absent) rfl rfl texts kept
  refine ⟨e, converts, read, agrees ?_⟩
  intro leaf member
  rcases List.mem_pair.mp member with rfl | rfl
  · trivial
  · rw [Agreed, ← Text.containsText_iff]
    decide +kernel

def convertedTruth (condition : Condition) (ctx : RequestContext) : Option Bool :=
  (conditionExpr .plain condition.yaml).map (truth .plain (.new ctx .new))

/-- A cookie is found inside another one, and a header that is absent equals the empty text. -/
theorem legacy_disagrees :
    (LowerKeys .plain cookieRequest.headers ∧ '%' ∉ cookieRequest.path.toList ∧ cookieRequest.body = none) ∧
      (evaluate .plain (cookieCondition "abc") cookieRequest = true ∧
        convertedTruth (cookieCondition "abc") cookieRequest = some false) ∧
      evaluate .plain (.headerExact "x-api-key" "") cookieRequest = false ∧
        convertedTruth (.headerExact "x-api-key" "") cookieRequest = some true := by
  refine ⟨⟨?_, by decide +kernel, rfl⟩, ⟨by decide +kernel, by decide +kernel⟩, by decide +kernel, by decide +kernel⟩
  unfold LowerKeys
  decide +kernel

end MiniWaf.Rules.Matcher
