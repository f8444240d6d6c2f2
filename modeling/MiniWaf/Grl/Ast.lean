import MiniWaf.Std.F64

/-! Typed syntax of the rule language. -/

set_option autoImplicit false

namespace MiniWaf.Grl

inductive Value where
  | null
  | bool (b : Bool)
  | int (i : Int64)
  | float (f : F64)
  | str (s : String)
  deriving DecidableEq, Repr, Inhabited

namespace Value

def asBool : Value → Bool
  | .bool b => b
  | .null => false
  | .int i => i ≠ 0
  | .float f => !f.isZero
  | .str s => s ≠ ""

def asInt : Value → Int64
  | .int i => i
  | .float f => f.toI64
  | .bool b => if b then 1 else 0
  | .str s => (Text.parseI64 s.toList).getD 0
  | .null => 0

def asStr : Value → String
  | .str s => s
  | .int i => String.ofList (Text.ofInt i.toInt)
  | .float f => String.ofList f.display
  | .bool b => if b then "true" else "false"
  | .null => ""

@[simp] theorem asBool_bool (b : Bool) : (Value.bool b).asBool = b := rfl

end Value

inductive PathSeg where
  | field (name : String)
  | index (key : String)
  deriving DecidableEq, Repr

/-- `Request.Path` or `Request.Headers["X-Forwarded-For"]`. -/
structure Path where
  segments : List PathSeg
  deriving DecidableEq, Repr

inductive BinOp where
  | and | or
  | eq | neq | lt | lte | gt | gte
  | add | sub | mul | div
  deriving DecidableEq, Repr

inductive UnaryOp where
  | not
  deriving DecidableEq, Repr

/-- `Expr::Call` carries its `CallExpr` fields directly. -/
inductive Expr where
  | literal (value : Value)
  | path (path : Path)
  | call (name : String) (args : List Expr)
  | binary (op : BinOp) (left right : Expr)
  | unary (op : UnaryOp) (expr : Expr)
  deriving Repr, Inhabited

structure CallExpr where
  name : String
  args : List Expr
  deriving Repr

inductive Stmt where
  | assign (target : Path) (value : Expr)
  | call (call : CallExpr)
  deriving Repr

structure RuleAst where
  name : String
  salience : Int32
  when : Expr
  then_ : List Stmt
  deriving Repr

namespace Expr

/-- Induction over expressions with a hypothesis for every call argument. -/
@[elab_as_elim, induction_eliminator]
theorem ind {motive : Expr → Prop}
    (literal : ∀ value, motive (.literal value))
    (path : ∀ p, motive (.path p))
    (call : ∀ name args, (∀ a ∈ args, motive a) → motive (.call name args))
    (binary : ∀ op left right, motive left → motive right → motive (.binary op left right))
    (unary : ∀ op expr, motive expr → motive (.unary op expr)) :
    ∀ e, motive e :=
  @Expr.rec motive (fun args => ∀ a ∈ args, motive a) literal path call binary unary
    (fun _ member => nomatch member)
    (fun _ _ first rest _ member => by
      rcases List.mem_cons.mp member with rfl | member
      · exact first
      · exact rest _ member)

mutual
def decEq : (a b : Expr) → Decidable (a = b)
  | .literal v, .literal w => if h : v = w then isTrue (h ▸ rfl) else isFalse (by simpa using h)
  | .path p, .path q => if h : p = q then isTrue (h ▸ rfl) else isFalse (by simpa using h)
  | .call f as, .call g bs =>
    match decEqList as bs with
    | isTrue h => if h' : f = g then isTrue (by rw [h, h']) else isFalse (by simp [h'])
    | isFalse h => isFalse (by simp [h])
  | .binary op l r, .binary op' l' r' =>
    match decEq l l', decEq r r' with
    | isTrue h, isTrue h' => if k : op = op' then isTrue (by rw [h, h', k]) else isFalse (by simp [k])
    | isFalse h, _ => isFalse (by simp [h])
    | _, isFalse h => isFalse (by simp [h])
  | .unary op e, .unary op' e' =>
    match decEq e e' with
    | isTrue h => isTrue (by cases op; cases op'; rw [h])
    | isFalse h => isFalse (by simp [h])
  | .literal _, .path _ | .literal _, .call .. | .literal _, .binary .. | .literal _, .unary ..
  | .path _, .literal _ | .path _, .call .. | .path _, .binary .. | .path _, .unary ..
  | .call .., .literal _ | .call .., .path _ | .call .., .binary .. | .call .., .unary ..
  | .binary .., .literal _ | .binary .., .path _ | .binary .., .call .. | .binary .., .unary ..
  | .unary .., .literal _ | .unary .., .path _ | .unary .., .call .. | .unary .., .binary .. =>
    isFalse (by simp)

def decEqList : (as bs : List Expr) → Decidable (as = bs)
  | [], [] => isTrue rfl
  | a :: as, b :: bs =>
    match decEq a b, decEqList as bs with
    | isTrue h, isTrue h' => isTrue (by rw [h, h'])
    | isFalse h, _ => isFalse (by simp [h])
    | _, isFalse h => isFalse (by simp [h])
  | [], _ :: _ | _ :: _, [] => isFalse (by simp)
end

instance : DecidableEq Expr := decEq

end Expr

deriving instance DecidableEq for CallExpr, Stmt, RuleAst

end MiniWaf.Grl
