import MiniWaf.Rete.Network
import MiniWaf.Rete.WorkingMemory

/-! Expression evaluator. Integer arithmetic wraps, as `i64` does in a release build. -/

set_option autoImplicit false

namespace MiniWaf.Rete

open Grl

def valueEq (a b : Value) : Bool :=
  match a, b with
  | .null, .null => true
  | .bool x, .bool y => x == y
  | .int x, .int y => x == y
  | .float x, .float y => x.eq y
  | .str x, .str y => x == y
  | _, _ => a.asStr == b.asStr

def valueAdd (lv rv : Value) : Value :=
  match lv, rv with
  | .str a, b => .str (a ++ b.asStr)
  | a, .str b => .str (a.asStr ++ b)
  | _, _ => .int (lv.asInt + rv.asInt)

/-- The operators that evaluate both operands; `&&` and `||` are not among them. -/
def binaryValue (op : BinOp) (lv rv : Value) : Value :=
  match op with
  | .eq => .bool (valueEq lv rv)
  | .neq => .bool (!valueEq lv rv)
  | .lt => .bool (lv.asInt < rv.asInt)
  | .lte => .bool (lv.asInt ≤ rv.asInt)
  | .gt => .bool (lv.asInt > rv.asInt)
  | .gte => .bool (lv.asInt ≥ rv.asInt)
  | .add => valueAdd lv rv
  | .sub => .int (lv.asInt - rv.asInt)
  | .mul => .int (lv.asInt * rv.asInt)
  | .div => .int (lv.asInt / max rv.asInt 1)
  | .and | .or => .null

variable (platform : Platform)

mutual
def evalExpr (wm : WorkingMemory) : Expr → Value
  | .literal v => v
  | .path p => wm.readPath platform p
  | .call name args => wm.registry.call platform name wm.fact (evalArgs wm args)
  | .unary .not e => .bool (!(evalExpr wm e).asBool)
  | .binary .and l r => .bool ((evalExpr wm l).asBool && (evalExpr wm r).asBool)
  | .binary .or l r => .bool ((evalExpr wm l).asBool || (evalExpr wm r).asBool)
  | .binary op l r => binaryValue op (evalExpr wm l) (evalExpr wm r)

def evalArgs (wm : WorkingMemory) : List Expr → List Value
  | [] => []
  | a :: rest => evalExpr wm a :: evalArgs wm rest
end

theorem evalArgs_eq_map (wm : WorkingMemory) (args : List Expr) :
    evalArgs platform wm args = args.map (evalExpr platform wm) := by
  induction args with
  | nil => rfl
  | cons a rest ih => simp [evalArgs, ih]

def truth (wm : WorkingMemory) (e : Expr) : Bool := (evalExpr platform wm e).asBool

/-- Evaluate an alpha node, through its precompiled regex when there is one. -/
def evalAlpha (wm : WorkingMemory) (node : AlphaNode) : Bool :=
  match node.compiled with
  | some (.matchesRegex haystack re) =>
    match evalExpr platform wm haystack with
    | .str s => re s
    | v => re v.asStr
  | none => (evalExpr platform wm node.expr).asBool

section
variable (wm : WorkingMemory)

@[simp] theorem truth_and (l r : Expr) :
    truth platform wm (.binary .and l r) = (truth platform wm l && truth platform wm r) := by
  simp [truth, evalExpr]

@[simp] theorem truth_or (l r : Expr) :
    truth platform wm (.binary .or l r) = (truth platform wm l || truth platform wm r) := by
  simp [truth, evalExpr]

@[simp] theorem truth_not (e : Expr) : truth platform wm (.unary .not e) = !truth platform wm e := by
  simp [truth, evalExpr]

@[simp] theorem truth_bool (b : Bool) : truth platform wm (.literal (.bool b)) = b := by
  simp [truth, evalExpr]

theorem truth_eq (l r : Expr) :
    truth platform wm (.binary .eq l r) = valueEq (evalExpr platform wm l) (evalExpr platform wm r) := by
  simp [truth, evalExpr, binaryValue]

end

end MiniWaf.Rete
