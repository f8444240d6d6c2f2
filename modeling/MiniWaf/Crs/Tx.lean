import MiniWaf.Crs.Types
import MiniWaf.Std.AssocMap

/-! The `TX` variables of a request: numbers that the rules add to, and texts. -/

set_option autoImplicit false

namespace MiniWaf.Crs

structure TxState where
  vars : AssocMap String Int64
  strVars : AssocMap String String

namespace TxState

/-- The numbers of CRS v4 at paranoia level 2. -/
def defaults : List (String × Int64) :=
  [("critical_anomaly_score", 5), ("error_anomaly_score", 4), ("warning_anomaly_score", 3), ("notice_anomaly_score", 2),
    ("detection_paranoia_level", 2), ("blocking_paranoia_level", 2), ("inbound_anomaly_score_threshold", 5),
    ("outbound_anomaly_score_threshold", 4), ("inbound_anomaly_score_pl1", 0), ("inbound_anomaly_score_pl2", 0),
    ("inbound_anomaly_score_pl3", 0), ("inbound_anomaly_score_pl4", 0), ("sql_injection_score", 0), ("xss_score", 0),
    ("lfi_score", 0), ("rce_score", 0), ("http_violation_score", 0), ("php_injection_score", 0), ("rbl_score", 0),
    ("session_score", 0), ("arg_name_length", 100), ("arg_length", 400), ("total_arg_length", 64000),
    ("max_num_args", 255), ("crs_setup_version", 400), ("crs_validate_utf8_encoding", 1)]

def contentTypes : String :=
  "application/x-www-form-urlencoded|multipart/form-data|multipart/related|text/xml|application/xml|" ++
    "application/soap+xml|application/json|application/cloudevents+json|application/cloudevents-batch+json"

def new : TxState where
  vars := defaults.foldl (fun vars e => vars.insert e.1 e.2) .empty
  strVars := (AssocMap.empty.insert "allowed_methods" "GET HEAD POST OPTIONS").insert "allowed_request_content_type" contentTypes

section
variable (platform : Platform)

/-- The value of a variable, without regard to case; 0 if there is none. -/
def get (tx : TxState) (var : String) : Int64 := (tx.vars.get (platform.toLowercase var)).getD 0

def getStr (tx : TxState) (var : String) : String := (tx.strVars.get (platform.toLowercase var)).getD ""

def rhsValue (tx : TxState) : SetVarRhs → Int64
  | .int n => n
  | .txRef var => tx.get platform var

def apply (tx : TxState) (op : SetVarOp) : TxState :=
  let rhs := tx.rhsValue platform op.rhs
  let key := platform.toLowercase op.var
  let entry := (tx.vars.get key).getD 0
  { tx with
    vars := tx.vars.insert key
      (match op.op with
      | .assign => rhs
      | .incrBy => entry + rhs
      | .decrBy => entry - rhs) }

def inboundScore (tx : TxState) : Int64 :=
  tx.get platform "inbound_anomaly_score_pl1" + tx.get platform "inbound_anomaly_score_pl2" +
    tx.get platform "inbound_anomaly_score_pl3" + tx.get platform "inbound_anomaly_score_pl4"

end

end TxState

end MiniWaf.Crs
