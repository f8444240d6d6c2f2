import MiniWaf.Grl.Ast
import MiniWaf.Theory.Peg

/-! The rule language's grammar and its parser. Rules with implicit whitespace
put `skip` between the parts of a sequence and between repetitions; the atoms
do not.
-/

set_option autoImplicit false

namespace MiniWaf.Grl

open Peg

abbrev Rule := Peg Char

def whitespace : Rule Unit := (fun _ => ()) <$> one fun c => c = ' ' || c = '\t' || c = '\r' || c = '\n'

def lineComment : Rule Unit := do
  word ['/', '/']
  let _ ← many (one fun c => c ≠ '\n')

def blockComment : Rule Unit := do
  word ['/', '*']
  let _ ← many do
    butNot (word ['*', '/'])
    one fun _ => true
  word ['*', '/']

def comment : Rule Unit := lineComment <|> blockComment

/-- What stands implicitly between the parts of a non-atomic rule. -/
def skip : Rule Unit := (fun _ => ()) <$> many (whitespace <|> comment)

def rep {A : Type} (item : Rule A) : Rule (List A) :=
  (do
    let first ← item
    let more ← many (do skip; item)
    pure (first :: more)) <|> pure []

-- Atoms

def identStart (c : Char) : Bool := c.isAlpha || c = '_'

def identPart (c : Char) : Bool := c.isAlphanum || c = '_'

def ident : Rule Text := do
  let first ← one identStart
  let more ← many (one identPart)
  pure (first :: more)

/-- The characters of a string: `\"` as a pair, else anything but a quote. -/
def innerStr : Rule Text := List.flatten <$> many do
  butNot (word ['"'])
  (do word ['\\', '"']; pure ['\\', '"']) <|> (do let c ← one fun _ => true; pure [c])

def string : Rule Text := do
  word ['"']
  let body ← innerStr
  word ['"']
  pure ('"' :: body ++ ['"'])

def digits : Rule Text := do
  let first ← one Char.isDigit
  let more ← many (one Char.isDigit)
  pure (first :: more)

def minus : Rule Text := (do word ['-']; pure ['-']) <|> pure []

def integer : Rule Text := do
  let sign ← minus
  let whole ← digits
  pure (sign ++ whole)

def float : Rule Text := do
  let sign ← minus
  let whole ← digits
  word ['.']
  let fraction ← digits
  pure (sign ++ whole ++ '.' :: fraction)

def boolLit : Rule Bool := do
  let value ← (do word "true".toList; pure true) <|> (do word "false".toList; pure false)
  butNot (one identPart)
  pure value

def nullLit : Rule Unit := do
  word "null".toList
  butNot (one identPart)

/-- Outer quotes go, all of them; then the three escapes the language knows are undone. -/
def unquote (s : Text) : String :=
  let trimmed := Text.trimMatches '"' s
  String.ofList (Text.replace ['\\', 't'] ['\t'] (Text.replace ['\\', 'n'] ['\n']
    (Text.replace ['\\', '"'] ['"'] trimmed)))

def literal : Rule Value :=
  (do let s ← string; pure (.str (unquote s))) <|>
  (do let f ← float; pure (.float ((F64.parse f).getD ⟨0⟩))) <|>
  (do let i ← integer; pure (.int ((Text.parseI64 i).getD 0))) <|>
  (do let b ← boolLit; pure (.bool b)) <|>
  (do nullLit; pure .null)

def pathSeg : Rule PathSeg :=
  (do
    word ['.']
    skip
    let name ← ident
    pure (.field (String.ofList name))) <|>
  (do
    word ['[']
    skip
    let key ← string
    skip
    word [']']
    pure (.index (unquote key)))

def path : Rule Path := do
  let first ← ident
  skip
  let more ← rep pathSeg
  pure ⟨.field (String.ofList first) :: more⟩

-- Expressions; each level is given the parser of the expressions inside it

section
variable (expression : Rule Expr)

def argList : Rule (List Expr) := do
  let first ← expression
  skip
  let more ← rep do
    word [',']
    skip
    expression
  pure (first :: more)

def callExpr : Rule CallExpr := do
  let name ← ident
  skip
  word ['(']
  skip
  let args ← opt (argList expression)
  skip
  word [')']
  pure ⟨String.ofList name, args.getD []⟩

def primary : Rule Expr :=
  (do let v ← literal; pure (.literal v)) <|>
  (do let c ← callExpr expression; pure (.call c.name c.args)) <|>
  (do let p ← path; pure (.path p)) <|>
  (do
    word ['(']
    skip
    let e ← expression
    skip
    word [')']
    pure e)

/-- `operand (op operand)*`, grouped to the left. -/
def leftAssoc (op : Rule BinOp) (operand : Rule Expr) : Rule Expr := do
  let first ← operand
  skip
  let more ← rep do
    let op ← op
    skip
    let right ← operand
    pure (op, right)
  pure (more.foldl (fun left next => .binary next.1 left next.2) first)

def mulOp : Rule BinOp := (do word ['*']; pure .mul) <|> (do word ['/']; pure .div)

def mulExpr : Rule Expr := leftAssoc mulOp (primary expression)

def addOp : Rule BinOp := (do word ['+']; pure .add) <|> (do word ['-']; pure .sub)

def addExpr : Rule Expr := leftAssoc addOp (mulExpr expression)

def cmpOp : Rule BinOp :=
  (do word ['=', '=']; pure .eq) <|>
  (do word ['!', '=']; pure .neq) <|>
  (do word ['<', '=']; pure .lte) <|>
  (do word ['>', '=']; pure .gte) <|>
  (do word ['<']; pure .lt) <|>
  (do word ['>']; pure .gt)

def cmpExpr : Rule Expr := do
  let left ← addExpr expression
  skip
  let right ← opt do
    let op ← cmpOp
    skip
    let right ← addExpr expression
    pure (op, right)
  match right with
  | some (op, right) => pure (.binary op left right)
  | none => pure left

def notExpr : Rule Expr := do
  let negated ← opt (word ['!'])
  skip
  let e ← cmpExpr expression
  pure (if negated.isSome then .unary .not e else e)

def andExpr : Rule Expr := leftAssoc (do word ['&', '&']; pure .and) (notExpr expression)

def orExpr : Rule Expr := leftAssoc (do word ['|', '|']; pure .or) (andExpr expression)

end

def expression : Nat → Rule Expr
  | 0 => failure
  | depth + 1 => orExpr (expression depth)

-- Statements and rules

section
variable (depth : Nat)

def assignment : Rule Stmt := do
  let target ← path
  skip
  word ['=']
  skip
  let value ← expression depth
  pure (.assign target value)

def callStmt : Rule Stmt := do
  let call ← callExpr (expression depth)
  pure (.call call)

def statement : Rule Stmt := do
  let stmt ← assignment depth <|> callStmt depth
  skip
  word [';']
  pure stmt

def ruleDef : Rule RuleAst := do
  word "rule".toList
  skip
  let name ← string
  skip
  let salience ← opt do
    word "salience".toList
    skip
    integer
  skip
  word ['\x7b']
  skip
  word "when".toList
  skip
  let when ← expression depth
  skip
  word "then".toList
  skip
  let first ← statement depth
  skip
  let more ← rep (statement depth)
  skip
  word ['\x7d']
  pure {
    name := unquote name
    salience := ((salience.bind Text.parseI32).getD 0)
    when := when
    then_ := first :: more }

def file : Rule (List RuleAst) := do
  skip
  let rules ← rep (ruleDef depth)
  skip
  endOfInput
  pure rules

end

/-- Parse a source file; its length bounds the nesting of brackets in it. -/
def parse (src : Text) : Option (List RuleAst) := ((file (src.length + 1)).run src).map Prod.fst

end MiniWaf.Grl
