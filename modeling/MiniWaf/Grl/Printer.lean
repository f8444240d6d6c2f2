import MiniWaf.Grl.Ast
import MiniWaf.Std.Platform

/-! Canonical text of expressions, the key under which the network shares leaves. -/

set_option autoImplicit false

namespace MiniWaf.Grl

/-- `Display for Path`: an index key stands between quotes as it is. -/
def PathSeg.display (first : Bool) : PathSeg → Text
  | .field name => (if first then [] else ['.']) ++ name.toList
  | .index key => "[\"".toList ++ key.toList ++ "\"]".toList

def Path.display (p : Path) : Text :=
  match p.segments with
  | [] => []
  | s :: rest => s.display true ++ rest.flatMap (·.display false)

def binSym : BinOp → Text
  | .and => "&&".toList
  | .or => "||".toList
  | .eq => "==".toList
  | .neq => "!=".toList
  | .lt => "<".toList
  | .lte => "<=".toList
  | .gt => ">".toList
  | .gte => ">=".toList
  | .add => "+".toList
  | .sub => "-".toList
  | .mul => "*".toList
  | .div => "/".toList

variable (platform : Platform)

def fmtValue : Value → Text
  | .null => "null".toList
  | .bool b => if b then "true".toList else "false".toList
  | .int i => Text.ofInt i.toInt
  | .float f => f.display
  | .str s => platform.debug s

mutual
def printExpr : Expr → Text
  | .literal v => fmtValue platform v
  | .path p => p.display
  | .call name args => name.toList ++ '(' :: Text.join [','] (printArgs args) ++ [')']
  | .unary .not e => '(' :: '!' :: printExpr e ++ [')']
  | .binary op l r => '(' :: printExpr l ++ ' ' :: binSym op ++ ' ' :: printExpr r ++ [')']

def printArgs : List Expr → List Text
  | [] => []
  | a :: rest => printExpr a :: printArgs rest
end

theorem printArgs_eq_map (args : List Expr) : printArgs platform args = args.map (printExpr platform) := by
  induction args with
  | nil => rfl
  | cons a rest ih => simp [printArgs, ih]

end MiniWaf.Grl
