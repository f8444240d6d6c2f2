import MiniWaf.Std.Net
import MiniWaf.Std.Platform

/-! Directives of the CRS rule files, as the parser hands them on. -/

set_option autoImplicit false

namespace MiniWaf.Crs

/-- Request variables a rule looks at. -/
inductive CrsTarget where
  | args
  | argsNames
  | requestCookies
  | requestCookiesNames
  /-- All headers, or a specific one. -/
  | requestHeaders (name : Option String)
  | requestUri
  | requestUriRaw
  | requestFilename
  | requestBasename
  | requestMethod
  | requestBody
  | requestLine
  | queryString
  | remoteAddr
  | tx (name : String)
  | txCount (name : String)
  | requestHeadersCount (name : String)
  | argsCount
  deriving DecidableEq, Repr

/-- Operators, with a regex represented by its `is_match`, an automaton by its phrases
and a network by its `contains`. -/
inductive CrsOperator where
  | rx (re : String → Bool)
  | pm (phrases : List String)
  | pmFromFile (file : String)
  | detectSQLi
  | detectXSS
  | lt (n : Int64)
  | le (n : Int64)
  | gt (n : Int64)
  | ge (n : Int64)
  | eq (n : Int64)
  | gtTxRef (var : String)
  | geTxRef (var : String)
  | ltTxRef (var : String)
  | leTxRef (var : String)
  | eqTxRef (var : String)
  | contains (needle : String)
  | streq (value : String)
  | within (values : List String)
  | beginsWith (value : String)
  | endsWith (value : String)
  | ipMatch (nets : List (IpAddr → Bool))
  | validateUrlEncoding
  | validateUtf8Encoding

inductive CrsTransform where
  | lowercase
  | urlDecodeUni
  | removeNulls
  | utf8ToUnicode
  | compressWhitespace
  | normalizePath
  | htmlEntityDecode
  | jsDecode
  | cssDecode
  | base64Decode
  | trim
  | removeWhitespace
  | replaceComments
  | length
  | escapeSeqDecode
  deriving DecidableEq, Repr

inductive DefaultAction where
  | block
  | pass
  deriving DecidableEq, Repr

inductive VarOp where
  | assign
  | incrBy
  | decrBy
  deriving DecidableEq, Repr

inductive SetVarRhs where
  | int (n : Int64)
  | txRef (var : String)
  deriving DecidableEq, Repr

structure SetVarOp where
  var : String
  op : VarOp
  rhs : SetVarRhs
  deriving DecidableEq, Repr

structure CrsActions where
  skipAfter : Option String
  setvars : List SetVarOp
  tags : List String
  severity : Option String
  isNolog : Bool
  defaultAction : DefaultAction
  isChain : Bool
  isCapture : Bool
  isMultiMatch : Bool
  deriving DecidableEq, Repr

structure SecRule where
  id : UInt32
  phase : UInt8
  targets : List CrsTarget
  operator : CrsOperator
  negateOp : Bool
  transforms : List CrsTransform
  actions : CrsActions

/-- Rules of which all must match; the id is the head's, and tags are collected from all. -/
structure ChainRule where
  head : SecRule
  members : List SecRule

inductive RuleItem where
  | rule (rule : SecRule)
  | chain (chain : ChainRule)
  | marker (name : String)

end MiniWaf.Crs
