import MiniWaf.Grl.Converter
import MiniWaf.Grl.Rules

/-! What the converter writes, apart from how it writes it: conditions and rules
as trees with a text and an expression each. A clean tree's text reads back as
its expression.
-/

set_option autoImplicit false

namespace MiniWaf.Grl

structure Name where
  word : String
  isIdent : IsIdent word.toList
  free : word.toList ∉ keywords

inductive Style where
  | debug
  | escaped
  | verbatim
  deriving DecidableEq, Repr

structure Quoted where
  style : Style
  value : String
  deriving DecidableEq, Repr

inductive Operand where
  | field (name : Name)
  | header (name : Quoted)
  | request

inductive Shape where
  | equals (left : Operand) (right : Quoted)
  | call (fn : Name) (arg : Operand) (more : Option Quoted)
  | always (b : Bool)
  | never (note : Text)
  | all (parts : List Shape)
  | any (parts : List Shape)
  | negate (part : Shape)

section
variable (platform : Platform)

def escapeQuotes (s : String) : Text := s.toList.flatMap fun c => if c = '"' then ['\\', '"'] else [c]

namespace Quoted

def body (q : Quoted) : Text :=
  match q.style with
  | .debug => platform.debugBody q.value
  | .escaped => escapeQuotes q.value
  | .verbatim => q.value.toList

def text (q : Quoted) : Text := quoted (q.body platform)

/-- The string the parser makes of it. -/
def read (q : Quoted) : String := unquote (q.text platform)

def clean (q : Quoted) : Bool := closes (q.body platform)

end Quoted

namespace Operand

def segmentTexts : Operand → List Text
  | .field name => ['.' :: name.word.toList]
  | .header name => ['.' :: "Headers".toList, '[' :: name.text platform ++ [']']]
  | .request => []

def text (o : Operand) : Text := "Request".toList ++ (o.segmentTexts platform).flatten

def segments : Operand → List PathSeg
  | .field name => [.field name.word]
  | .header name => [.field "Headers", .index (name.read platform)]
  | .request => []

def expr (o : Operand) : Expr := .path ⟨.field "Request" :: o.segments platform⟩

def clean : Operand → Bool
  | .header name => name.clean platform
  | _ => true

end Operand

/-- Left-grouped conjunction or disjunction; there is no expression without parts. -/
def joinExprs (op : BinOp) : List Expr → Expr
  | [] => .literal .null
  | e :: rest => rest.foldl (.binary op) e

namespace Shape

mutual
def text : Shape → Text
  | .equals left right => left.text platform ++ [' '] ++ binSym .eq ++ [' '] ++ right.text platform
  | .call fn arg more => callText fn.word.toList [' '] (arg.text platform :: more.toList.map (·.text platform))
  | .always b => if b then "true".toList else "false".toList
  | .never note => "false".toList ++ ' ' :: (['/', '*'] ++ note ++ ['*', '/'])
  | .all parts => joinParts " && ".toList (texts parts)
  | .any parts => joinParts " || ".toList (texts parts)
  | .negate part => '!' :: '(' :: text part ++ [')']

def texts : List Shape → List Text
  | [] => []
  | part :: rest => text part :: texts rest
end

mutual
def expr : Shape → Expr
  | .equals left right => .binary .eq (left.expr platform) (.literal (.str (right.read platform)))
  | .call fn arg more =>
    .call fn.word (arg.expr platform :: more.toList.map fun q => .literal (.str (q.read platform)))
  | .always b => .literal (.bool b)
  | .never _ => .literal (.bool false)
  | .all parts => joinExprs .and (exprs parts)
  | .any parts => joinExprs .or (exprs parts)
  | .negate part => .unary .not (expr part)

def exprs : List Shape → List Expr
  | [] => []
  | part :: rest => expr part :: exprs rest
end

mutual
/-- Every string is one token, no comment ends early and no list is empty. -/
def clean : Shape → Bool
  | .equals left right => left.clean platform && right.clean platform
  | .call _ arg more => arg.clean platform && more.all (·.clean platform)
  | .always _ => true
  | .never note => !Text.containsText ['*', '/'] note
  | .all parts => !parts.isEmpty && cleanAll parts
  | .any parts => !parts.isEmpty && cleanAll parts
  | .negate part => clean part

def cleanAll : List Shape → Bool
  | [] => true
  | part :: rest => clean part && cleanAll rest
end

end Shape

end

section
variable {platform : Platform}

theorem Quoted.plain {q : Quoted} (written : q.body platform = q.value.toList) (noQuote : '"' ∉ q.value.toList)
    (noBackslash : '\\' ∉ q.value.toList) : q.clean platform = true ∧ q.read platform = q.value := by
  constructor
  · rw [Quoted.clean, written]
    exact closes_of_plain noQuote noBackslash
  · rw [Quoted.read, Quoted.text, written]
    exact unquote_of_plain noQuote noBackslash

theorem Quoted.plain_debug {s : String} (spelled : ∀ c ∈ s.toList, platform.debugChar c = [c]) :
    (⟨.debug, s⟩ : Quoted).clean platform = true ∧ (⟨.debug, s⟩ : Quoted).read platform = s := by
  apply Quoted.plain
  · change platform.debugBody s = s.toList
    rw [Platform.debugBody, List.flatMap_congr spelled]
    simp
  · intro member
    have same : ['\\', '"'] = ['"'] := spelled _ member
    cases same
  · intro member
    have same : ['\\', '\\'] = ['\\'] := spelled _ member
    cases same

theorem Operand.text_field (name : Name) :
    (Operand.field name).text platform = "Request".toList ++ '.' :: name.word.toList :=
  congrArg (fun t => "Request".toList ++ t) (List.append_nil _)

theorem Operand.text_header (name : Quoted) : (Operand.header name).text platform =
    "Request".toList ++ ('.' :: "Headers".toList ++ ('[' :: name.text platform ++ [']'])) :=
  congrArg (fun t => "Request".toList ++ ('.' :: "Headers".toList ++ t)) (List.append_nil _)

theorem Operand.text_request : Operand.request.text platform = "Request".toList := List.append_nil _

theorem Shape.text_equals (left : Operand) (right : Quoted) : (Shape.equals left right).text platform =
    left.text platform ++ [' '] ++ ['=', '='] ++ [' '] ++ right.text platform := rfl

theorem Shape.text_call_none (fn : Name) (arg : Operand) : (Shape.call fn arg none).text platform =
    fn.word.toList ++ '(' :: arg.text platform ++ [')'] := rfl

theorem Shape.text_call_some (fn : Name) (arg : Operand) (more : Quoted) :
    (Shape.call fn arg (some more)).text platform =
      fn.word.toList ++ '(' :: (arg.text platform ++ [',', ' '] ++ more.text platform) ++ [')'] := rfl

theorem Shape.text_never (note : Text) : (Shape.never note).text platform =
    "false".toList ++ ' ' :: (['/', '*'] ++ note ++ ['*', '/']) := rfl

theorem Quoted.reads {q : Quoted} (ok : q.clean platform = true) :
    ReadsAt primary [] (q.text platform) (.literal (.str (q.read platform))) := readsAt_string ok

theorem Operand.reads {o : Operand} (ok : o.clean platform = true) :
    ReadsAt primary [] (o.text platform) (o.expr platform) := by
  have isIdent : IsIdent "Request".toList := by decide
  have headers : SegText ('.' :: "Headers".toList) (.field "Headers") := .field (w := "Headers".toList) (by decide)
  have segTexts : List.Forall₂ SegText (o.segmentTexts platform) (o.segments platform) := by
    cases o with
    | field name =>
      have field := SegText.field name.isIdent
      rw [String.ofList_toList] at field
      exact .cons field .nil
    | header name => exact .cons headers (.cons (.index ok) .nil)
    | request => exact .nil
  exact readsAt_path isIdent (by decide) segTexts

theorem skipped_blank_one (s : Text) : skipped ([' '] ++ s) = skipped s := skipped_space s

theorem callReads {arg : Operand} {more : Option Quoted} (argOk : arg.clean platform = true)
    (moreOk : more.all (·.clean platform) = true) :
    AllRead (arg.text platform :: more.toList.map (·.text platform))
      (arg.expr platform :: more.toList.map fun q => .literal (.str (q.read platform))) := by
  refine .cons (Operand.reads argOk).primary_or ?_
  cases more with
  | none => exact .nil
  | some q => exact .cons (Quoted.reads moreOk).primary_or .nil

theorem joinReads {sep : Text} {op : BinOp}
    (joined : ∀ {t : Text} {e : Expr} {texts : List Text} {exprs : List Expr}, ReadsAt notExpr cmpStops t e →
      List.Forall₂ (ReadsAt notExpr cmpStops) texts exprs →
        ReadsAt orExpr orStops (Text.join sep (t :: texts)) (exprs.foldl (Expr.binary op) e))
    {texts : List Text} {exprs : List Expr} (all : List.Forall₂ (ReadsAt notExpr cmpStops) texts exprs)
    (nonempty : exprs ≠ []) : ReadsAt notExpr cmpStops (joinParts sep texts) (joinExprs op exprs) := by
  cases all with
  | nil => exact absurd rfl nonempty
  | cons first all => exact (readsAt_group (joined first all)).primary_cmp.not

theorem joinReads_and {texts : List Text} {exprs : List Expr}
    (all : List.Forall₂ (ReadsAt notExpr cmpStops) texts exprs) (nonempty : exprs ≠ []) :
    ReadsAt notExpr cmpStops (joinParts " && ".toList texts) (joinExprs .and exprs) :=
  joinReads (fun first all => ((readsAt_conjunction first all).mono (by decide)).or) all nonempty

theorem joinReads_or {texts : List Text} {exprs : List Expr}
    (all : List.Forall₂ (ReadsAt notExpr cmpStops) texts exprs) (nonempty : exprs ≠ []) :
    ReadsAt notExpr cmpStops (joinParts " || ".toList texts) (joinExprs .or exprs) :=
  joinReads readsAt_disjunction all nonempty

theorem Shape.exprs_ne_nil {parts : List Shape} (nonempty : parts.isEmpty = false) : exprs platform parts ≠ [] := by
  cases parts with
  | nil => cases nonempty
  | cons part rest => simp [exprs]

mutual
/-- A clean condition reads back as its expression. -/
theorem Shape.reads : (s : Shape) → s.clean platform = true →
    ReadsAt notExpr cmpStops (s.text platform) (s.expr platform)
  | .equals left right, ok => by
    rw [Shape.clean, Bool.and_eq_true] at ok
    have l : ReadsAt mulExpr addStops (left.text platform) (left.expr platform) :=
      ((Operand.reads ok.1).mono (List.nil_subset _)).mul.mono (by decide)
    have r : ReadsAt mulExpr addStops (right.text platform) (.literal (.str (right.read platform))) :=
      ((Quoted.reads ok.2).mono (List.nil_subset _)).mul.mono (by decide)
    exact (ReadsAt.compare (by decide) l.add r.add).not
  | .call fn arg more, ok => by
    rw [Shape.clean, Bool.and_eq_true] at ok
    have call := readsAt_call skipped_blank_one fn.isIdent fn.free (callReads ok.1 ok.2)
    rw [String.ofList_toList] at call
    exact call.primary_cmp.not
  | .always b, _ => (readsAt_bool b).primary_cmp.not
  | .never note, ok => by
    have closed : ¬ ['*', '/'] <:+: note := by
      rw [Shape.clean, Bool.not_eq_true', ← Bool.not_eq_true, Text.containsText_iff] at ok
      exact ok
    have blank : ∀ s, skipped (' ' :: (['/', '*'] ++ note ++ ['*', '/']) ++ s) = skipped s := by
      intro s
      rw [List.cons_append, skipped_space]
      exact skipped_block closed s
    have commented := readsAt_note (readsAt_bool false) blank ⟨_, rfl⟩
    exact ((commented.mono (by decide)).add.mono (by decide)).cmp.not
  | .all parts, ok => by
    rw [Shape.clean, Bool.and_eq_true, Bool.not_eq_true'] at ok
    exact joinReads_and (Shape.readsAll parts ok.2) (Shape.exprs_ne_nil ok.1)
  | .any parts, ok => by
    rw [Shape.clean, Bool.and_eq_true, Bool.not_eq_true'] at ok
    exact joinReads_or (Shape.readsAll parts ok.2) (Shape.exprs_ne_nil ok.1)
  | .negate part, ok => by
    have inner := (Shape.reads part ok).not_or
    exact (readsAt_group inner).primary_cmp.negated

theorem Shape.readsAll : (parts : List Shape) → Shape.cleanAll platform parts = true →
    List.Forall₂ (ReadsAt notExpr cmpStops) (Shape.texts platform parts) (Shape.exprs platform parts)
  | [], _ => .nil
  | part :: rest, ok => by
    rw [Shape.cleanAll, Bool.and_eq_true] at ok
    exact .cons (Shape.reads part ok.1) (Shape.readsAll rest ok.2)
end

end

-- Rules

inductive Arg where
  | string (q : Quoted)
  | int (i : Int64)
  deriving DecidableEq, Repr

structure RuleShape where
  id : String
  salience : Int32
  guard : Option Shape
  condition : Shape
  delta : Int64
  /-- The calls after the risk assignment: the route's, if any, and the action's. -/
  calls : List (Name × Option Arg)

section
variable (platform : Platform)

namespace Arg

def text : Arg → Text
  | .string q => q.text platform
  | .int i => Text.ofInt i.toInt

def expr : Arg → Expr
  | .string q => .literal (.str (q.read platform))
  | .int i => .literal (.int i)

def clean : Arg → Bool
  | .string q => q.clean platform
  | .int _ => true

end Arg

def callStmtText (call : Name × Option Arg) : Text :=
  callText call.1.word.toList [' '] (call.2.toList.map (·.text platform)) ++ [';']

def callStmtOf (call : Name × Option Arg) : Stmt := .call ⟨call.1.word, call.2.toList.map (·.expr platform)⟩

def riskPath : Path := ⟨[.field "Request", .field "RiskScore"]⟩

def riskText (delta : Int64) : Text :=
  "Request.RiskScore".toList ++ [' ', '=', ' '] ++
    ("Request.RiskScore".toList ++ [' ', '+', ' '] ++ Text.ofInt delta.toInt) ++ [';']

def riskStmt (delta : Int64) : Stmt := .assign riskPath (.binary .add (.path riskPath) (.literal (.int delta)))

namespace RuleShape
variable (r : RuleShape)

def name : Quoted := ⟨.debug, r.id⟩

def whenText : Text :=
  match r.guard with
  | some g => Text.join " && ".toList ['(' :: g.text platform ++ [')'], '(' :: r.condition.text platform ++ [')']]
  | none => r.condition.text platform

def whenExpr : Expr :=
  match r.guard with
  | some g => .binary .and (g.expr platform) (r.condition.expr platform)
  | none => r.condition.expr platform

def stmtTexts : List Text :=
  (if r.delta = 0 then [] else [riskText r.delta]) ++ r.calls.map (callStmtText platform)

def stmts : List Stmt := (if r.delta = 0 then [] else [riskStmt r.delta]) ++ r.calls.map (callStmtOf platform)

def text : Text := ruleText (r.name.body platform) r.salience.toInt (r.whenText platform) (r.stmtTexts platform)

def ast : RuleAst := ⟨r.name.read platform, r.salience, r.whenExpr platform, r.stmts platform⟩

def clean : Bool :=
  r.name.clean platform && r.guard.all (·.clean platform) && r.condition.clean platform &&
    r.calls.all fun c => c.2.all (·.clean platform)

/-- The id survives quoting and unquoting. -/
def keepsId : Bool := decide (r.name.read platform = r.id)

end RuleShape

end

section
variable {platform : Platform}

theorem riskText_eq (delta : Int64) : riskText delta = "Request.RiskScore".toList ++ [' ', '=', ' '] ++
    ("Request.RiskScore".toList ++ [' ', '+', ' '] ++ Text.ofInt delta.toInt) ++ [';'] := rfl

theorem Arg.reads {a : Arg} (ok : a.clean platform = true) : ReadsAt orExpr orStops (a.text platform) (a.expr platform) := by
  cases a with
  | string q => exact (Quoted.reads ok).primary_or
  | int i => exact (readsAt_int i).primary_or

theorem callStmt_reads {call : Name × Option Arg} (ok : call.2.all (·.clean platform) = true) :
    ReadsStmt (callStmtText platform call) (callStmtOf platform call) := by
  obtain ⟨fn, arg⟩ := call
  have all : AllRead (arg.toList.map (·.text platform)) (arg.toList.map (·.expr platform)) := by
    cases arg with
    | none => exact .nil
    | some a => exact .cons (Arg.reads ok) .nil
  have read := readsStmt_call skipped_blank_one fn.isIdent all
  rw [String.ofList_toList] at read
  exact read

theorem riskPath_segTexts : List.Forall₂ SegText ['.' :: "RiskScore".toList] [.field "RiskScore"] :=
  .cons (.field (w := "RiskScore".toList) (by decide)) .nil

theorem risk_reads (delta : Int64) : ReadsStmt (riskText delta) (riskStmt delta) := by
  have isIdent : IsIdent "Request".toList := by decide
  have score := readsAt_path isIdent (by decide) riskPath_segTexts
  have left : ReadsAt mulExpr mulStops "Request.RiskScore".toList (.path riskPath) :=
    (score.mono (List.nil_subset _)).mul
  have right : ReadsAt mulExpr mulStops (Text.ofInt delta.toInt) (.literal (.int delta)) :=
    ((readsAt_int delta).mono (List.nil_subset _)).mul
  have sum : ReadsAt addExpr addStops ("Request.RiskScore".toList ++ ' ' :: (binSym .add ++ ' ' :: Text.ofInt delta.toInt))
      (.binary .add (.path riskPath) (.literal (.int delta))) :=
    readsAt_operator (fun _ => rfl) (by decide) (by decide) addOp_none left right
  exact readsStmt_assign isIdent riskPath_segTexts sum.add_or

theorem RuleShape.when_reads {r : RuleShape} (guardOk : r.guard.all (·.clean platform) = true)
    (conditionOk : r.condition.clean platform = true) :
    ReadsAt orExpr orStops (r.whenText platform) (r.whenExpr platform) := by
  have condition := Shape.reads r.condition conditionOk
  cases guarded : r.guard with
  | none =>
    rw [whenText, whenExpr, guarded]
    exact condition.not_or
  | some g =>
    rw [guarded] at guardOk
    rw [whenText, whenExpr, guarded]
    have left := (readsAt_group (Shape.reads g guardOk).not_or).primary_cmp.not
    have right := (readsAt_group condition.not_or).primary_cmp.not
    exact ((readsAt_conjunction left (.cons right .nil)).mono (by decide)).or

theorem RuleShape.stmts_read {r : RuleShape} (ok : (r.calls.all fun c => c.2.all (·.clean platform)) = true) :
    List.Forall₂ ReadsStmt (r.stmtTexts platform) (r.stmts platform) := by
  have calls : List.Forall₂ ReadsStmt (r.calls.map (callStmtText platform)) (r.calls.map (callStmtOf platform)) := by
    rw [List.forall₂_map_left_iff, List.forall₂_map_right_iff, List.forall₂_same]
    exact fun call member => callStmt_reads (List.all_eq_true.mp ok call member)
  refine List.rel_append ?_ calls
  split
  · exact .nil
  · exact .cons (risk_reads r.delta) .nil

/-- A clean rule reads back as itself. -/
theorem RuleShape.reads {r : RuleShape} (ok : r.clean platform = true) (acts : r.calls ≠ []) :
    ReadsRule (r.text platform) (r.ast platform) := by
  simp only [RuleShape.clean, Bool.and_eq_true] at ok
  obtain ⟨⟨⟨nameOk, guardOk⟩, conditionOk⟩, callsOk⟩ := ok
  have stmts := RuleShape.stmts_read callsOk
  have nonempty : r.stmtTexts platform ≠ [] := by
    simp [stmtTexts, acts]
  rw [text, ast]
  cases texts : r.stmtTexts platform with
  | nil => exact absurd texts nonempty
  | cons t more =>
    rw [texts] at stmts
    cases asts : r.stmts platform with
    | nil => rw [asts] at stmts; cases stmts
    | cons s rest =>
      rw [asts] at stmts
      cases stmts with
      | cons first all =>
        exact readsRule_of_parts nameOk r.salience (RuleShape.when_reads guardOk conditionOk) first all

end

end MiniWaf.Grl
