import MiniWaf.Grl.Ast
import MiniWaf.Std.Platform

/-! Built-in functions of the rule language, dispatched by name. -/

set_option autoImplicit false

namespace MiniWaf.Grl

def sqliPattern : String :=
  r"(?ix)
          (?:'\s*or\s*'?\d+'?\s*=\s*'?\d+)
        | (?:--\s)
        | (?:\bunion\b\s+\bselect\b)
        | (?:\bdrop\s+table\b)
        | (?:\bselect\b\s+\*\s+\bfrom\b)
        | (?:\bor\b\s+\d+\s*=\s*\d+)
        | (?:;\s*--)
        | (?:\bxp_cmdshell\b)
        | (?:\bsleep\s*\(\s*\d+\s*\))
        "

def xssPattern : String :=
  r"(?ix)
          <\s*script[^>]*>
        | javascript\s*:
        | on(?:error|load|click|mouseover)\s*=
        | <\s*img[^>]*\bonerror\b
        | <\s*svg[^>]*on\w+
        | document\.cookie
        "

def traversalPattern : String := r"(?:\.\./|\.\.\\|%2e%2e%2f|%2e%2e/|\.\.%2f)"

def cmdPattern : String :=
  r"(?ix)
          (?:[;&|`]\s*(?:cat|ls|whoami|id|uname|wget|curl|nc|bash|sh)\b)
        | (?:\$\([^)]*\))
        | (?:`[^`]*`)
        "

def headerPattern : String := r"(?:\r\n|\n\r|\r|\n)"

def argStr (args : List Value) (i : Nat) : String := (args[i]?.map Value.asStr).getD ""

variable (platform : Platform)

/-- The static detectors unwrap `Regex::new`; their patterns are valid. -/
def detectSqli (s : String) : Bool := platform.isMatch sqliPattern s

def detectXss (s : String) : Bool := platform.isMatch xssPattern s

def detectPathTraversal (s : String) : Bool := platform.isMatch traversalPattern s

def detectCmdInjection (s : String) : Bool := platform.isMatch cmdPattern s

def detectHeaderInjection (s : String) : Bool := platform.isMatch headerPattern s

def fnMatches (args : List Value) : Value := .bool (platform.isMatch (argStr args 1) (argStr args 0))

def fnContains (args : List Value) : Value :=
  .bool (Text.containsText (argStr args 1).toList (argStr args 0).toList)

def fnStartsWith (args : List Value) : Value :=
  .bool ((argStr args 1).toList.isPrefixOf (argStr args 0).toList)

def fnEndsWith (args : List Value) : Value :=
  .bool ((argStr args 1).toList.isSuffixOf (argStr args 0).toList)

def dispatch (name : String) (args : List Value) : Value :=
  match name with
  | "matches" => fnMatches platform args
  | "contains" => fnContains args
  | "starts_with" => fnStartsWith args
  | "ends_with" => fnEndsWith args
  | "lower" => .str (platform.toLowercase (argStr args 0))
  | "upper" => .str (platform.toUppercase (argStr args 0))
  | "len" => .int (Int64.ofInt (argStr args 0).toList.length)
  | "contains_sqli" => .bool (detectSqli platform (argStr args 0))
  | "contains_xss" => .bool (detectXss platform (argStr args 0))
  | "contains_path_traversal" => .bool (detectPathTraversal platform (argStr args 0))
  | "contains_cmd_injection" => .bool (detectCmdInjection platform (argStr args 0))
  | "contains_header_injection" => .bool (detectHeaderInjection platform (argStr args 0))
  | _ => .null

end MiniWaf.Grl
