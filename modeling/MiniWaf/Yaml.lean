import MiniWaf.Std.F64

/-! YAML values as `serde_yaml` hands them to the program, and the accessors used
on them. All accessors look through tags.
-/

set_option autoImplicit false

namespace MiniWaf

/-- `serde_yaml::Number`: non-negative integers, negative integers and floats are kept apart. -/
inductive YamlNumber where
  | posInt (n : UInt64)
  | negInt (n : Int64)
  | float (f : F64)
  deriving DecidableEq, Repr

inductive Yaml where
  | null
  | bool (b : Bool)
  | number (n : YamlNumber)
  | string (s : String)
  | sequence (items : List Yaml)
  | mapping (entries : List (Yaml × Yaml))
  | tagged (tag : String) (value : Yaml)
  deriving Repr, Inhabited

namespace Yaml

def asStr : Yaml → Option String
  | .string s => some s
  | .tagged _ v => asStr v
  | _ => none

def asU64 : Yaml → Option UInt64
  | .number (.posInt n) => some n
  | .tagged _ v => asU64 v
  | _ => none

def asI64 : Yaml → Option Int64
  | .number (.posInt n) => if n.toNat < 2 ^ 63 then some n.toInt64 else none
  | .number (.negInt n) => some n
  | .tagged _ v => asI64 v
  | _ => none

def asSequence : Yaml → Option (List Yaml)
  | .sequence items => some items
  | .tagged _ v => asSequence v
  | _ => none

def asMapping : Yaml → Option (List (Yaml × Yaml))
  | .mapping entries => some entries
  | .tagged _ v => asMapping v
  | _ => none

def isKey (key : String) : Yaml → Bool
  | .string s => s = key
  | _ => false

def lookup (key : String) (entries : List (Yaml × Yaml)) : Option Yaml :=
  (entries.find? fun e => isKey key e.1).map Prod.snd

/-- `Value::get` with a string key. -/
def get (v : Yaml) (key : String) : Option Yaml := v.asMapping.bind (lookup key)

/-- `map.get(key).and_then(|x| x.as_str())`. -/
def strAt (key : String) (entries : List (Yaml × Yaml)) : Option String := (lookup key entries).bind asStr

def record (fields : List (String × Yaml)) : Yaml := .mapping (fields.map fun f => (.string f.1, f.2))

end Yaml

end MiniWaf
