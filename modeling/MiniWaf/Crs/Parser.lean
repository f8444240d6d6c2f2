import MiniWaf.Crs.Types
import MiniWaf.Std.Words

/-! Parser of the CRS rule files: lines are joined, and each `SecRule` and `SecMarker`
is read on its own. Rules that do not parse are dropped.
-/

set_option autoImplicit false

namespace MiniWaf.Crs

-- Tokens

/-- Up to the first quote that no backslash escapes. -/
def scanQuoted : (prevBs : Bool) → Text → Option (Text × Text)
  | _, [] => none
  | prevBs, c :: rest =>
    if c = '"' ∧ prevBs = false then some ([], rest)
    else (scanQuoted (c = '\\' && !prevBs) rest).map fun (inner, left) => (c :: inner, left)

def parseDquoted (s : Text) : Option (Text × Text) :=
  match Text.trimStart s with
  | '"' :: inner => scanQuoted false inner
  | _ => none

def splitActionsFrom : (inSq : Bool) → (cur : Text) → Text → List Text
  | _, cur, [] => if cur = [] then [] else [cur]
  | inSq, cur, c :: rest =>
    if c = '\'' then splitActionsFrom (!inSq) (cur ++ [c]) rest
    else if c = ',' ∧ inSq = false then cur :: splitActionsFrom inSq [] rest
    else splitActionsFrom inSq (cur ++ [c]) rest

def splitActions (s : Text) : List Text := splitActionsFrom false [] s

def unquote (s : Text) : Text :=
  let s := Text.trim s
  let quotedBy (c : Char) : Bool := s.head? = some c && s.getLast? = some c
  if 2 ≤ s.length ∧ (quotedBy '\'' || quotedBy '"') = true then s.tail.dropLast else s

-- Targets

def parseOneTarget (tok : Text) : Option CrsTarget :=
  match Text.stripStart "&TX:".toList tok with
  | some rest => some (.txCount (String.ofList rest))
  | none =>
    match Text.stripStart "&REQUEST_HEADERS:".toList tok with
    | some rest => some (.requestHeadersCount (String.ofList rest))
    | none =>
      if tok = "&ARGS".toList then some .argsCount
      else if tok.head? = some '&' then none
      else
        match Text.splitOnce ':' tok with
        | some (col, sub) =>
          match String.ofList col with
          | "REQUEST_HEADERS" => some (.requestHeaders (some (String.ofList sub)))
          | "TX" => some (.tx (String.ofList sub))
          | _ => none
        | none =>
          match String.ofList tok with
          | "ARGS" => some .args
          | "ARGS_NAMES" => some .argsNames
          | "REQUEST_COOKIES" => some .requestCookies
          | "REQUEST_COOKIES_NAMES" => some .requestCookiesNames
          | "REQUEST_HEADERS" => some (.requestHeaders none)
          | "REQUEST_URI" => some .requestUri
          | "REQUEST_URI_RAW" => some .requestUriRaw
          | "REQUEST_FILENAME" => some .requestFilename
          | "REQUEST_BASENAME" => some .requestBasename
          | "REQUEST_METHOD" => some .requestMethod
          | "REQUEST_BODY" => some .requestBody
          | "REQUEST_LINE" => some .requestLine
          | "QUERY_STRING" => some .queryString
          | "REMOTE_ADDR" => some .remoteAddr
          | _ => none

def parseTargets (s : Text) : List CrsTarget := (Text.split '|' s).filterMap fun tok => parseOneTarget (Text.trim tok)

section
variable (platform : Platform)

def lowercase (t : Text) : String := platform.toLowercase (String.ofList t)

-- Actions

structure RawActions where
  id : UInt32
  phase : UInt8
  skipAfter : Option String
  setvars : List SetVarOp
  tags : List String
  severity : Option String
  isNolog : Bool
  isBlock : Bool
  isChain : Bool
  isCapture : Bool
  isMultiMatch : Bool
  transforms : List CrsTransform
  deriving DecidableEq, Repr

def RawActions.default : RawActions := ⟨0, 2, none, [], [], none, false, false, false, false, false, []⟩

def RawActions.intoCrsActions (ra : RawActions) : CrsActions where
  skipAfter := ra.skipAfter
  setvars := ra.setvars
  tags := ra.tags
  severity := ra.severity
  isNolog := ra.isNolog
  defaultAction := if ra.isBlock then .block else .pass
  isChain := ra.isChain
  isCapture := ra.isCapture
  isMultiMatch := ra.isMultiMatch

def parseTransform (name : String) : Option CrsTransform :=
  match name with
  | "lowercase" => some .lowercase
  | "urldecodeuni" => some .urlDecodeUni
  | "removenulls" => some .removeNulls
  | "utf8tounicode" => some .utf8ToUnicode
  | "compresswhitespace" => some .compressWhitespace
  | "normalizepath" | "normalizepathwin" => some .normalizePath
  | "htmlentitydecode" => some .htmlEntityDecode
  | "jsdecode" => some .jsDecode
  | "cssdecode" => some .cssDecode
  | "base64decode" => some .base64Decode
  | "trim" => some .trim
  | "removewhitespace" => some .removeWhitespace
  | "replacecomments" => some .replaceComments
  | "length" => some .length
  | "escapeseqdecode" => some .escapeSeqDecode
  | _ => none

/-- The variable between `%{tx.` and `}`, in lower case. -/
def txRef (s : Text) : Option String :=
  ((Text.stripStart "%\x7btx.".toList s).bind (Text.stripSuffix ['\x7d'])).map (lowercase platform)

def parseSetvar (s : Text) : Option SetVarOp :=
  match Text.splitOnce '=' s with
  | none => none
  | some (varFull, rhsStr) =>
    let var := lowercase platform (Text.trimStartMatches "tx.".toList varFull)
    if var.isEmpty then none
    else
      let (op, rhsS) := match rhsStr with
        | '+' :: rest => (VarOp.incrBy, rest)
        | '-' :: rest => (VarOp.decrBy, rest)
        | rest => (VarOp.assign, rest)
      match txRef platform rhsS with
      | some inner => some ⟨var, op, .txRef inner⟩
      | none => (Text.parseI64 rhsS).map fun n => ⟨var, op, .int n⟩

def keyedAction (ra : RawActions) (key rest : Text) : RawActions :=
  let val := unquote rest
  match lowercase platform key with
  | "id" => { ra with id := (Text.parseU32 val).getD 0 }
  | "phase" => { ra with phase := (Text.parseU8 val).getD 2 }
  | "tag" => { ra with tags := ra.tags ++ [String.ofList val] }
  | "severity" => { ra with severity := some (String.ofList val) }
  | "skipafter" => { ra with skipAfter := some (String.ofList val) }
  | "setvar" =>
    match parseSetvar platform (Text.trimMatches '\'' (Text.trim rest)) with
    | some sv => { ra with setvars := ra.setvars ++ [sv] }
    | none => ra
  | "t" =>
    match lowercase platform val with
    | "none" => { ra with transforms := [] }
    | name =>
      match parseTransform name with
      | some tf => { ra with transforms := ra.transforms ++ [tf] }
      | none => ra
  | _ => ra

def parseAction (ra : RawActions) (token : Text) : RawActions :=
  let token := Text.trim token
  if token = [] then ra
  else
    match Text.splitOnce ':' token with
    | some (key, rest) => keyedAction platform ra key rest
    | none =>
      match lowercase platform token with
      | "block" | "deny" => { ra with isBlock := true }
      | "pass" => { ra with isBlock := false }
      | "chain" => { ra with isChain := true }
      | "nolog" => { ra with isNolog := true }
      | "capture" => { ra with isCapture := true }
      | "multimatch" => { ra with isMultiMatch := true }
      | _ => ra

def parseActions (s : Text) : RawActions := (splitActions s).foldl (parseAction platform) .default

-- Operators

variable (ipNet : IpNetParser)

/-- The network of all bits of an address. -/
def single (addr : IpAddr) : IpAddr → Bool := fun other => other == addr

def parseIpnet (s : Text) : Option (IpAddr → Bool) :=
  match ipNet (String.ofList s) with
  | some net => some net
  | none => (IpAddr.parse s).map single

def comparison (ref : String → CrsOperator) (number : Int64 → CrsOperator) (args : Text) : Option CrsOperator :=
  match txRef platform args with
  | some var => some (ref var)
  | none => (Text.parseI64 args).map number

def operatorOf (name : String) (args : Text) : Option CrsOperator :=
  match name with
  | "detectsqli" => some .detectSQLi
  | "detectxss" => some .detectXSS
  | "validateurlencoding" => some .validateUrlEncoding
  | "validateutf8encoding" => some .validateUtf8Encoding
  | "rx" => (platform.regexNew (String.ofList args)).map .rx
  | "pm" => some (.pm ((Text.words args).map String.ofList))
  | "pmfromfile" => some (.pmFromFile (String.ofList (Text.trim args)))
  | "eq" => comparison platform .eqTxRef .eq args
  | "lt" => comparison platform .ltTxRef .lt args
  | "le" => comparison platform .leTxRef .le args
  | "gt" => comparison platform .gtTxRef .gt args
  | "ge" => comparison platform .geTxRef .ge args
  | "contains" => some (.contains (lowercase platform args))
  | "streq" => some (.streq (String.ofList args))
  | "beginswith" => some (.beginsWith (String.ofList args))
  | "endswith" => some (.endsWith (String.ofList args))
  | "within" => some (.within ((Text.words args).map String.ofList))
  | "ipmatch" => some (.ipMatch ((Text.split ',' args).filterMap fun p => parseIpnet ipNet (Text.trim p)))
  | _ => none

def parseOperator (s : Text) : Option (Bool × CrsOperator) :=
  let (negate, s) := match s with
    | '!' :: rest => (true, Text.trimStart rest)
    | s => (false, s)
  match s with
  | '@' :: body =>
    let (name, args) := match Text.splitSpace body with
      | some (name, rest) => (name, Text.trim rest)
      | none => (body, [])
    (operatorOf platform ipNet (lowercase platform name) args).map fun op => (negate, op)
  | _ => none

-- Directives

def secRuleParts (rest : Text) : Option (Text × Text × Text) := do
  let (targets, rest) ← Text.splitSpace rest
  let (op, rest) ← parseDquoted (Text.trimStart rest)
  let (actions, _) ← parseDquoted (Text.trimStart rest)
  pure (targets, op, actions)

def parseSecrule (rest : Text) : Option SecRule := do
  let (targets, op, actions) ← secRuleParts rest
  let (negateOp, operator) ← parseOperator platform ipNet (Text.trim op)
  let raw := parseActions platform actions
  pure ⟨raw.id, raw.phase, parseTargets targets, operator, negateOp, raw.transforms, raw.intoCrsActions⟩

/-- The rough check for `chain`: it looks at what is between the last two quotes. -/
def hasChainAction (rest : Text) : Bool :=
  match Text.rsplitOnce '"' rest with
  | none => false
  | some (front, _) =>
    match Text.rsplitOnce '"' front with
    | none => false
    | some (_, actions) => (Text.split ',' actions).any fun tok => (Text.trim tok).map Char.toLower == "chain".toList

def joinFrom : (current : Text) → List Text → List Text
  | current, [] => if Text.trim current = [] then [] else [Text.trim current]
  | current, line :: rest =>
    match Text.stripSuffix ['\\'] line with
    | some front => joinFrom (current ++ front ++ [' ']) rest
    | none =>
      let trimmed := Text.trim (current ++ line)
      if trimmed = [] then joinFrom [] rest else trimmed :: joinFrom [] rest

def joinContinuations (src : Text) : List Text := joinFrom [] (Text.lines src)

inductive Directive where
  | rule (rest : Text)
  | marker (name : Text)
  deriving DecidableEq, Repr

def directive (line : Text) : Option Directive :=
  let t := Text.trim line
  if t = [] ∨ t.head? = some '#' then none
  else
    match Text.stripStart "SecRule".toList t with
    | some (c :: rest) =>
      if Text.isWhitespace c then some (.rule (Text.trimStart (c :: rest))) else none
    | _ =>
      (Text.stripStart "SecMarker".toList t).map fun rest => .marker (Text.trim (Text.trimMatches '"' (Text.trim rest)))

/-- One turn of the loop, from the number of chain members still to be skipped. -/
def step (skip : Nat) : Directive → Nat × List RuleItem
  | .rule rest =>
    if 0 < skip then (if hasChainAction rest then skip - 1 + 1 else skip - 1, [])
    else
      match parseSecrule platform ipNet rest with
      | some rule => (skip, [.rule rule])
      | none => (if hasChainAction rest then 1 else skip, [])
  | .marker name => (0, if name = [] then [] else [.marker (String.ofList name)])

def parseFrom (skip : Nat) : List Directive → List RuleItem
  | [] => []
  | d :: rest => (step platform ipNet skip d).2 ++ parseFrom (step platform ipNet skip d).1 rest

def parseConf (src : Text) : List RuleItem :=
  parseFrom platform ipNet 0 ((joinContinuations src).filterMap directive)

end

end MiniWaf.Crs
