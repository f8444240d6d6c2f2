import MiniWaf.Crs.Parser
import MiniWaf.Crs.Tx
import MiniWaf.Rete.WorkingMemory

/-! The texts that a target of a CRS rule stands for in a request. -/

set_option autoImplicit false

namespace MiniWaf.Crs

/-- Percent escapes decoded after `+` is read as a space. -/
def pctDecode (s : Text) : Text :=
  Text.fromUtf8Lossy (Rete.percentDecode (Text.utf8 (Text.replace ['+'] [' '] s)))

-- Forms

def formCount (s : Text) : Nat := if s = [] then 0 else (Text.split '&' s).length

/-- The value of a pair: what is after the first `=`, or the whole of it. -/
def pairValue (pair : Text) : Text :=
  match Text.splitOnce '=' pair with
  | some (_, value) => value
  | none => pair

def pairName (pair : Text) : Text := (Text.split '=' pair).head?.getD pair

def formValues (s : Text) : List Text :=
  if s = [] then [] else (Text.split '&' s).map fun pair => pctDecode (pairValue pair)

def formNames (s : Text) : List Text :=
  if s = [] then [] else (Text.split '&' s).map fun pair => pctDecode (pairName pair)

section
variable (platform : Platform)

def isFormBody (ctx : RequestContext) : Bool :=
  ctx.headers.entries.any fun e => platform.toLowercase e.1 == "content-type" &&
    Text.containsText "application/x-www-form-urlencoded".toList (platform.toLowercase e.2).toList

def formBody (ctx : RequestContext) : Option Text :=
  ctx.body.bind fun body => if isFormBody platform ctx then Text.fromUtf8 body else none

-- Cookies

def cookiePair (pair : Text) : Option (Text × Text) :=
  let pair := Text.trim pair
  let (k, v) := match Text.splitOnce '=' pair with
    | some (k, v) => (Text.trim k, Text.trim v)
    | none => (Text.trim pair, [])
  if k = [] then none else some (k, v)

def cookiePairs (ctx : RequestContext) : List (Text × Text) :=
  let header := ((ctx.headers.entries.find? fun e => platform.toLowercase e.1 == "cookie").map Prod.snd).getD ""
  (Text.split ';' header.toList).filterMap cookiePair

def cookieValues (ctx : RequestContext) : List Text := (cookiePairs platform ctx).map Prod.snd

def cookieNames (ctx : RequestContext) : List Text := (cookiePairs platform ctx).map Prod.fst

-- Targets

def buildUri (ctx : RequestContext) : Text :=
  match ctx.query with
  | some q => if q.isEmpty then ctx.path.toList else ctx.path.toList ++ '?' :: q.toList
  | none => ctx.path.toList

def headersNamed (ctx : RequestContext) (name : String) : List (String × String) :=
  ctx.headers.entries.filter fun e => platform.toLowercase e.1 == platform.toLowercase name

def extractValues (target : CrsTarget) (ctx : RequestContext) (tx : TxState) : List Text :=
  match target with
  | .args => formValues (ctx.query.getD "").toList ++ ((formBody platform ctx).map formValues).getD []
  | .argsNames => formNames (ctx.query.getD "").toList ++ ((formBody platform ctx).map formNames).getD []
  | .requestCookies => cookieValues platform ctx
  | .requestCookiesNames => cookieNames platform ctx
  | .requestHeaders none => ctx.headers.entries.map fun e => e.2.toList
  | .requestHeaders (some name) => (headersNamed platform ctx name).map fun e => e.2.toList
  | .requestUri => [buildUri ctx]
  | .requestUriRaw => [buildUri ctx]
  | .requestFilename => [ctx.path.toList]
  | .requestBasename => [(Text.split '/' ctx.path.toList).getLast?.getD []]
  | .requestMethod => [ctx.method.toList]
  | .requestBody => [((ctx.body.map Text.fromUtf8Lossy).getD [])]
  | .requestLine => [ctx.method.toList ++ ' ' :: buildUri ctx ++ " HTTP/1.1".toList]
  | .queryString => [(ctx.query.getD "").toList]
  | .remoteAddr => [ctx.clientIp.toList]
  | .tx var => if var.toList.head? = some '/' then [] else [Text.ofInt (tx.get platform var).toInt]
  | .txCount var => [Text.ofInt (if tx.get platform var ≠ 0 then 1 else 0)]
  | .requestHeadersCount name => [Text.ofNat (headersNamed platform ctx name).length]
  | .argsCount =>
    [Text.ofNat (formCount (ctx.query.getD "").toList + ((formBody platform ctx).map formCount).getD 0)]

end

end MiniWaf.Crs
