import MiniWaf.Grl.Tokens
import MiniWaf.Rete.Coincidence

/-! What the parser puts into an expression: every field and every function is
named by an identifier, a path begins with a field, and neither a path nor a
call begins with a word that reads as a literal.
-/

set_option autoImplicit false

namespace MiniWaf.Grl

open Peg

def PathSeg.Named : PathSeg → Prop
  | .field name => IsIdent name.toList
  | .index _ => True

structure Path.Named (p : Path) : Prop where
  first : ∃ name rest, p.segments = .field name :: rest
  segments : ∀ seg ∈ p.segments, seg.Named

structure Expr.Named (e : Expr) : Prop where
  paths : ∀ p ∈ e.paths, p.Named
  functions : ∀ f ∈ e.functions, IsIdent f.toList

namespace Expr

theorem named_literal (v : Value) : (literal v).Named :=
  ⟨fun _ member => absurd member List.not_mem_nil, fun _ member => absurd member List.not_mem_nil⟩

theorem named_path (p : Path) : (path p).Named ↔ p.Named := by
  constructor
  · intro named
    exact named.paths p List.mem_cons_self
  · intro named
    refine ⟨?_, fun _ member => absurd member List.not_mem_nil⟩
    intro q member
    rw [paths, List.mem_singleton] at member
    exact member ▸ named

theorem named_call (name : String) (args : List Expr) :
    (call name args).Named ↔ IsIdent name.toList ∧ ∀ a ∈ args, a.Named := by
  constructor
  · rintro ⟨inPaths, inFunctions⟩
    rw [paths, pathsAll_eq] at inPaths
    rw [functions, functionsAll_eq] at inFunctions
    refine ⟨inFunctions name List.mem_cons_self, ?_⟩
    intro a member
    refine ⟨?_, ?_⟩
    · exact fun p inA => inPaths p (List.mem_flatMap.mpr ⟨a, member, inA⟩)
    · exact fun f inA => inFunctions f (List.mem_cons_of_mem _ (List.mem_flatMap.mpr ⟨a, member, inA⟩))
  · rintro ⟨isIdent, named⟩
    refine ⟨?_, ?_⟩
    · intro p member
      rw [paths, pathsAll_eq] at member
      obtain ⟨a, inArgs, inA⟩ := List.mem_flatMap.mp member
      exact (named a inArgs).paths p inA
    · intro f member
      rw [functions, functionsAll_eq] at member
      rcases List.mem_cons.mp member with rfl | member
      · exact isIdent
      · obtain ⟨a, inArgs, inA⟩ := List.mem_flatMap.mp member
        exact (named a inArgs).functions f inA

theorem named_binary (op : BinOp) (left right : Expr) :
    (binary op left right).Named ↔ left.Named ∧ right.Named := by
  constructor
  · rintro ⟨inPaths, inFunctions⟩
    rw [paths, List.forall_mem_append] at inPaths
    rw [functions, List.forall_mem_append] at inFunctions
    exact ⟨⟨inPaths.1, inFunctions.1⟩, ⟨inPaths.2, inFunctions.2⟩⟩
  · rintro ⟨first, second⟩
    refine ⟨?_, ?_⟩
    · rw [paths, List.forall_mem_append]
      exact ⟨first.paths, second.paths⟩
    · rw [functions, List.forall_mem_append]
      exact ⟨first.functions, second.functions⟩

theorem named_unary (op : UnaryOp) (e : Expr) : (unary op e).Named ↔ e.Named :=
  ⟨fun named => ⟨named.paths, named.functions⟩, fun named => ⟨named.paths, named.functions⟩⟩

end Expr

inductive Written : Expr → Prop where
  | literal (v : Value) : Written (.literal v)
  | path {w : Text} {segs : List PathSeg} : IsIdent w → w ∉ keywords → (∀ seg ∈ segs, seg.Named) →
      Written (.path ⟨.field (String.ofList w) :: segs⟩)
  | call {w : Text} {args : List Expr} : IsIdent w → w ∉ keywords → (∀ a ∈ args, Written a) →
      Written (.call (String.ofList w) args)
  | binary {op : BinOp} {left right : Expr} : Written left → Written right → Written (.binary op left right)
  | negated {e : Expr} : Written e → Written (.unary .not e)

theorem named_field {w : Text} (isIdent : IsIdent w) : (PathSeg.field (String.ofList w)).Named := by
  rw [PathSeg.Named, String.toList_ofList]
  exact isIdent

theorem Written.named {e : Expr} (written : Written e) : e.Named := by
  induction written with
  | literal v => exact Expr.named_literal v
  | path isIdent _ segs =>
    exact (Expr.named_path _).mpr ⟨⟨_, _, rfl⟩, List.forall_mem_cons.mpr ⟨named_field isIdent, segs⟩⟩
  | call isIdent _ _ args =>
    refine (Expr.named_call _ _).mpr ⟨?_, args⟩
    rw [String.toList_ofList]
    exact isIdent
  | binary _ _ left right => exact (Expr.named_binary _ _ _).mpr ⟨left, right⟩
  | negated _ inner => exact (Expr.named_unary .not _).mpr inner

-- The grammar, rule by rule

theorem ident_eq_some {s w rest : Text} (read : ident s = some (w, rest)) :
    s = w ++ rest ∧ IsIdent w ∧ Outside identPart rest := by
  obtain ⟨c, middle, first, read⟩ := exists_of_bind read
  obtain ⟨more, left, second, read⟩ := exists_of_bind read
  cases read
  obtain ⟨rfl, start⟩ := one_eq_some first
  obtain ⟨rfl, outside⟩ := many_one_eq_some second
  exact ⟨rfl, ⟨c, more, rfl, start, (Ensures.many (Ensures.one _)).value _ _ _ second⟩, outside⟩

theorem free_of_ident {s w rest : Text} (notLiteral : literal s = none) (read : ident s = some (w, rest)) :
    w ∉ keywords := by
  obtain ⟨rfl, -, outside⟩ := ident_eq_some read
  intro keyword
  simp only [keywords, List.mem_cons, List.not_mem_nil, or_false] at keyword
  have reads : ∃ v, literal (w ++ rest) = some (v, rest) := by
    rcases keyword with rfl | rfl | rfl
    · exact ⟨_, literal_of_bool true outside⟩
    · exact ⟨_, literal_of_bool false outside⟩
    · exact ⟨_, literal_of_null outside⟩
  obtain ⟨v, reads⟩ := reads
  rw [notLiteral] at reads
  cases reads

theorem value_of_ident {A : Type} (post : A → Prop) {f : Text → Rule A}
    (ensures : ∀ w, IsIdent w → w ∉ keywords → Ensures (f w) post) {s rest : Text} {a : A}
    (notLiteral : literal s = none) (read : (ident >>= f) s = some (a, rest)) : post a := by
  obtain ⟨w, middle, first, second⟩ := exists_of_bind read
  exact (ensures w (ident_eq_some first).2.1 (free_of_ident notLiteral first)).value middle a rest second

theorem ensures_ident : Ensures ident IsIdent := ⟨fun _ _ _ read => (ident_eq_some read).2.1⟩

theorem ensures_pathSeg : Ensures pathSeg PathSeg.Named := by
  unfold pathSeg
  apply Ensures.choice
  · apply Ensures.next
    intro _
    apply Ensures.next
    intro _
    apply Ensures.bind ensures_ident
    intro w isIdent
    exact .pure (named_field isIdent)
  · apply Ensures.next
    intro _
    apply Ensures.next
    intro _
    apply Ensures.next
    intro key
    apply Ensures.next
    intro _
    apply Ensures.next
    intro _
    exact .pure True.intro

theorem ensures_rep {A : Type} {item : Rule A} {post : A → Prop} (ensures : Ensures item post) :
    Ensures (rep item) fun items => ∀ a ∈ items, post a := by
  unfold Grl.rep
  apply Ensures.choice
  · apply Ensures.bind ensures
    intro first ok
    apply Ensures.bind (Ensures.next fun _ => ensures).many
    intro more all
    exact .pure (List.forall_mem_cons.mpr ⟨ok, all⟩)
  · exact .pure fun _ member => absurd member List.not_mem_nil

theorem path_written {s rest : Text} {p : Path} (notLiteral : literal s = none) (read : path s = some (p, rest)) :
    Written (.path p) := by
  refine value_of_ident (fun p => Written (.path p)) ?_ notLiteral read
  intro w isIdent free
  apply Ensures.next
  intro _
  apply Ensures.bind (ensures_rep ensures_pathSeg)
  intro segs named
  exact .pure (.path isIdent free named)

section
variable {inner : Rule Expr} (ensures : Ensures inner Written)
include ensures

theorem ensures_argList : Ensures (argList inner) fun args => ∀ a ∈ args, Written a := by
  unfold argList
  apply Ensures.bind ensures
  intro first written
  apply Ensures.next
  intro _
  apply Ensures.bind (ensures_rep (Ensures.next fun _ => Ensures.next fun _ => ensures))
  intro more all
  exact .pure (List.forall_mem_cons.mpr ⟨written, all⟩)

theorem call_written {s rest : Text} {c : CallExpr} (notLiteral : literal s = none)
    (read : callExpr inner s = some (c, rest)) : Written (.call c.name c.args) := by
  refine value_of_ident (fun c => Written (.call c.name c.args)) ?_ notLiteral read
  intro w isIdent free
  iterate 3
    apply Ensures.next
    intro _
  apply Ensures.bind (Ensures.opt (ensures_argList ensures))
  intro args all
  iterate 2
    apply Ensures.next
    intro _
  refine .pure (.call isIdent free ?_)
  cases args with
  | none => exact fun _ member => absurd member List.not_mem_nil
  | some args => exact all args rfl

theorem ensures_group : Ensures (do word ['(']; skip; let e ← inner; skip; word [')']; pure e) Written := by
  iterate 2
    apply Ensures.next
    intro _
  apply Ensures.bind ensures
  intro e written
  iterate 2
    apply Ensures.next
    intro _
  exact .pure written

theorem ensures_primary : Ensures (primary inner) Written := by
  constructor
  intro s e rest read
  obtain read | ⟨fails, read⟩ := choice_eq_some read
  · obtain ⟨v, _, -, result⟩ := exists_of_bind read
    cases result
    exact .literal v
  have notLiteral : literal s = none := none_of_bind_pure fails
  obtain read | ⟨-, read⟩ := choice_eq_some read
  · obtain ⟨c, _, called, result⟩ := exists_of_bind read
    cases result
    exact call_written ensures notLiteral called
  obtain read | ⟨-, read⟩ := choice_eq_some read
  · obtain ⟨p, _, named, result⟩ := exists_of_bind read
    cases result
    exact path_written notLiteral named
  · exact (ensures_group ensures).value s e rest read

theorem ensures_operation (op : Rule BinOp) :
    Ensures (do let op ← op; skip; let right ← inner; pure (op, right)) fun next => Written next.2 := by
  iterate 2
    apply Ensures.next
    intro _
  apply Ensures.bind ensures
  intro right written
  exact .pure written

theorem ensures_leftAssoc (op : Rule BinOp) : Ensures (leftAssoc op inner) Written := by
  unfold leftAssoc
  apply Ensures.bind ensures
  intro first written
  apply Ensures.next
  intro _
  apply Ensures.bind (ensures_rep (ensures_operation ensures op))
  intro more all
  apply Ensures.pure
  induction more generalizing first with
  | nil => exact written
  | cons next more ih =>
    obtain ⟨ok, rest⟩ := List.forall_mem_cons.mp all
    exact ih _ (.binary written ok) rest

theorem ensures_cmpExpr : Ensures (cmpExpr inner) Written := by
  have operand : Ensures (addExpr inner) Written := ensures_leftAssoc (ensures_leftAssoc (ensures_primary ensures) _) _
  unfold cmpExpr
  apply Ensures.bind operand
  intro left written
  apply Ensures.next
  intro _
  apply Ensures.bind (Ensures.opt (ensures_operation operand cmpOp))
  intro right all
  cases right with
  | none => exact .pure written
  | some next => exact .pure (.binary written (all next rfl))

theorem ensures_notExpr : Ensures (notExpr inner) Written := by
  unfold notExpr
  apply Ensures.next
  intro negated
  apply Ensures.next
  intro _
  apply Ensures.bind (ensures_cmpExpr ensures)
  intro e written
  apply Ensures.pure
  split
  · exact .negated written
  · exact written

end

theorem ensures_expression (depth : Nat) : Ensures (expression depth) Written := by
  induction depth with
  | zero => exact Ensures.failure
  | succ depth ih => exact ensures_leftAssoc (ensures_leftAssoc (ensures_notExpr ih) _) _

section
variable {post : Expr → Prop} (ensures : ∀ depth, Ensures (expression depth) post)
include ensures

theorem ensures_ruleDef (depth : Nat) : Ensures (ruleDef depth) fun r => post r.when := by
  unfold ruleDef
  iterate 10
    apply Ensures.next
    intro _
  apply Ensures.bind (ensures depth)
  intro when holds
  iterate 8
    apply Ensures.next
    intro _
  exact .pure holds

/-- What is true of every expression that is read is true of the conditions of parsed rules. -/
theorem when_of_parse {src : Text} {rules : List RuleAst} (parsed : parse src = some rules) :
    ∀ r ∈ rules, post r.when := by
  have file : Ensures (file (src.length + 1)) fun rules => ∀ r ∈ rules, post r.when := by
    unfold Grl.file
    apply Ensures.next
    intro _
    apply Ensures.bind (ensures_rep (ensures_ruleDef ensures _))
    intro rules all
    iterate 2
      apply Ensures.next
      intro _
    exact .pure all
  obtain ⟨⟨read, rest⟩, run, rfl⟩ := Option.map_eq_some_iff.mp parsed
  exact file.value src read rest run

end

theorem named_of_parse {src : Text} {rules : List RuleAst} (parsed : parse src = some rules) :
    ∀ r ∈ rules, r.when.Named :=
  fun r member => (when_of_parse ensures_expression parsed r member).named

end MiniWaf.Grl
