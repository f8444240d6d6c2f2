import Mathlib.Data.List.Sort
import MiniWaf.Grl.Printer

/-! The compiled network: hash-consed alpha nodes, boolean guards over their
indices, and one terminal per rule in salience order.
-/

set_option autoImplicit false

namespace MiniWaf.Rete

open Grl

abbrev AlphaId := Nat

/-- Leaves with a regex known at compile time; the regex is compiled once. -/
inductive CompiledAlpha where
  | matchesRegex (haystack : Expr) (re : String → Bool)

structure AlphaNode where
  id : AlphaId
  expr : Expr
  key : Text
  compiled : Option CompiledAlpha

inductive Guard where
  | true
  | false
  | alpha (id : AlphaId)
  | and (parts : List Guard)
  | or (parts : List Guard)
  | not (part : Guard)

namespace Guard

mutual
/-- Evaluate against precomputed alpha truth values; an index out of range is false. -/
def eval (alphas : List Bool) : Guard → Bool
  | .true => Bool.true
  | .false => Bool.false
  | .alpha id => alphas.getD id Bool.false
  | .and parts => evalAll alphas parts
  | .or parts => evalAny alphas parts
  | .not part => !eval alphas part

def evalAll (alphas : List Bool) : List Guard → Bool
  | [] => Bool.true
  | g :: rest => eval alphas g && evalAll alphas rest

def evalAny (alphas : List Bool) : List Guard → Bool
  | [] => Bool.false
  | g :: rest => eval alphas g || evalAny alphas rest
end

variable (alphas : List Bool)

@[simp] theorem evalAll_append (first rest : List Guard) :
    evalAll alphas (first ++ rest) = (evalAll alphas first && evalAll alphas rest) := by
  induction first with
  | nil => simp [evalAll]
  | cons g first ih => simp [evalAll, ih, Bool.and_assoc]

@[simp] theorem evalAny_append (first rest : List Guard) :
    evalAny alphas (first ++ rest) = (evalAny alphas first || evalAny alphas rest) := by
  induction first with
  | nil => simp [evalAny]
  | cons g first ih => simp [evalAny, ih, Bool.or_assoc]

end Guard

def mergeAnd : Guard → Guard → Guard
  | .and a, .and b => .and (a ++ b)
  | .and a, b => .and (a ++ [b])
  | a, .and b => .and (a :: b)
  | a, b => .and [a, b]

def mergeOr : Guard → Guard → Guard
  | .or a, .or b => .or (a ++ b)
  | .or a, b => .or (a ++ [b])
  | a, .or b => .or (a :: b)
  | a, b => .or [a, b]

theorem eval_mergeAnd (alphas : List Bool) (l r : Guard) :
    (mergeAnd l r).eval alphas = (l.eval alphas && r.eval alphas) := by
  cases l <;> cases r <;> simp [mergeAnd, Guard.eval, Guard.evalAll]

theorem eval_mergeOr (alphas : List Bool) (l r : Guard) :
    (mergeOr l r).eval alphas = (l.eval alphas || r.eval alphas) := by
  cases l <;> cases r <;> simp [mergeOr, Guard.eval, Guard.evalAny]

structure Terminal where
  ruleName : String
  salience : Int32
  guard : Guard
  actions : List Stmt

structure Network where
  alphas : List AlphaNode
  terminals : List Terminal
  alphaIndex : Text → Option AlphaId

namespace Network

def new : Network := ⟨[], [], fun _ => none⟩

variable (platform : Platform)

def compileAlpha (expr : Expr) : Option CompiledAlpha :=
  match expr with
  | .call "matches" [haystack, .literal (.str pat)] =>
    (platform.regexNew pat).map fun re => .matchesRegex haystack re
  | _ => none

def internAlpha (net : Network) (expr : Expr) : Network × AlphaId :=
  let key := printExpr platform expr
  match net.alphaIndex key with
  | some id => (net, id)
  | none =>
    let id := net.alphas.length
    let node := ⟨id, expr, key, compileAlpha platform expr⟩
    ({ net with
        alphas := net.alphas ++ [node]
        alphaIndex := Function.update net.alphaIndex key (some id) }, id)

/-- `&&`, `||` and `!` become guard combinators; everything else is a leaf. -/
def compileGuard (net : Network) : Expr → Network × Guard
  | .binary .and left right =>
    let (net, l) := compileGuard net left
    let (net, r) := compileGuard net right
    (net, mergeAnd l r)
  | .binary .or left right =>
    let (net, l) := compileGuard net left
    let (net, r) := compileGuard net right
    (net, mergeOr l r)
  | .unary .not expr =>
    let (net, g) := compileGuard net expr
    (net, .not g)
  | .literal (.bool true) => (net, .true)
  | .literal (.bool false) => (net, .false)
  | other =>
    let (net, id) := internAlpha platform net other
    (net, .alpha id)

def addRule (net : Network) (r : RuleAst) : Network :=
  let (net, guard) := compileGuard platform net r.when
  { net with terminals := net.terminals ++ [⟨r.name, r.salience, guard, r.then_⟩] }

/-- The engine iterates in this order: `sort_by(|a, b| b.salience.cmp(&a.salience))`, a stable sort. -/
def precedes (a b : Terminal) : Prop := b.salience ≤ a.salience

instance : DecidableRel precedes := fun a b => inferInstanceAs (Decidable (b.salience ≤ a.salience))

def addRules (rules : List RuleAst) : Network := rules.foldl (addRule platform) new

def compile (rules : List RuleAst) : Network :=
  let net := addRules platform rules
  { net with terminals := net.terminals.insertionSort precedes }

end Network

end MiniWaf.Rete
