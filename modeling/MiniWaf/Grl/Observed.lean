import MiniWaf.Grl.Conversion
import MiniWaf.Rete.Coincidence

/-! What converted conditions look at: every condition is built from a few kinds of
leaves, and none of them reads the risk score.
-/

set_option autoImplicit false

namespace MiniWaf.Grl

open Yaml

-- Conditions by their kind

structure Compositional (P : Shape → Prop) : Prop where
  field : ∀ field matchType value, P (fieldMatchShape field matchType value)
  legacy : ∀ kind entries, P (legacyLeafShape kind entries)
  all : ∀ parts, (∀ part ∈ parts, P part) → P (.all parts)
  any : ∀ parts, (∀ part ∈ parts, P part) → P (.any parts)
  negate : ∀ part, P part → P (.negate part)

variable {P : Shape → Prop}

theorem Compositional.newLeaf (rule : Compositional P) {entries : List (Yaml × Yaml)} {s : Shape}
    (converts : newLeafShape entries = .ok s) : P s := by
  unfold newLeafShape at converts
  split at converts
  · cases converts
  · split at converts
    · cases converts
    · cases converts
      exact rule.field _ _ _

theorem Compositional.all_of_map (rule : Compositional P) {parts : Except String (List Shape)} {s : Shape}
    (each : ∀ found, parts = .ok found → ∀ part ∈ found, P part) (converts : parts.map Shape.all = .ok s) : P s := by
  cases parts with
  | error message => cases converts
  | ok found =>
    cases converts
    exact rule.all found (each found rfl)

theorem Compositional.any_of_map (rule : Compositional P) {parts : Except String (List Shape)} {s : Shape}
    (each : ∀ found, parts = .ok found → ∀ part ∈ found, P part) (converts : parts.map Shape.any = .ok s) : P s := by
  cases parts with
  | error message => cases converts
  | ok found =>
    cases converts
    exact rule.any found (each found rfl)

theorem each_of_cons {head : Except String Shape} {tail : Except String (List Shape)} {found : List Shape}
    (converts : (do let part ← head; let more ← tail; pure (part :: more)) = .ok found)
    (first : ∀ s, head = .ok s → P s) (rest : ∀ found, tail = .ok found → ∀ part ∈ found, P part) :
    ∀ part ∈ found, P part := by
  cases head with
  | error message => cases converts
  | ok s =>
    cases tail with
    | error message => cases converts
    | ok more =>
      cases converts
      exact List.forall_mem_cons.mpr ⟨first s rfl, rest more rfl⟩

mutual
theorem newCond_each (rule : Compositional P) : (c : Yaml) → ∀ s, newCondShape c = .ok s → P s
  | .mapping entries, s, converts => by
    rw [newCondShape] at converts
    cases ands : newShapesAt "and" entries with
    | some parts =>
      rw [ands] at converts
      exact rule.all_of_map (newShapesAt_each rule "and" entries parts ands) converts
    | none =>
      rw [ands] at converts
      cases ors : newShapesAt "or" entries with
      | some parts =>
        rw [ors] at converts
        exact rule.any_of_map (newShapesAt_each rule "or" entries parts ors) converts
      | none =>
        rw [ors] at converts
        exact rule.newLeaf converts
  | .tagged _ c, s, converts => newCond_each rule c s (by rwa [newCondShape] at converts)
  | .null, _, converts => by cases converts
  | .bool _, _, converts => by cases converts
  | .number _, _, converts => by cases converts
  | .string _, _, converts => by cases converts
  | .sequence _, _, converts => by cases converts

theorem newShapesAt_each (rule : Compositional P) (key : String) : (entries : List (Yaml × Yaml)) → ∀ parts,
    newShapesAt key entries = some parts → ∀ found, parts = .ok found → ∀ part ∈ found, P part
  | [], _, converts => by cases converts
  | (k, v) :: rest, parts, converts => by
    rw [newShapesAt] at converts
    split at converts
    · exact newShapesOf_each rule v parts converts
    · exact newShapesAt_each rule key rest parts converts

theorem newShapesOf_each (rule : Compositional P) : (v : Yaml) → ∀ parts, newShapesOf v = some parts →
    ∀ found, parts = .ok found → ∀ part ∈ found, P part
  | .sequence items, parts, converts => by
    rw [newShapesOf, Option.some.injEq] at converts
    exact fun found same => newShapes_each rule items found (converts.trans same)
  | .tagged _ v, parts, converts => newShapesOf_each rule v parts (by rwa [newShapesOf] at converts)
  | .null, _, converts => by cases converts
  | .bool _, _, converts => by cases converts
  | .number _, _, converts => by cases converts
  | .string _, _, converts => by cases converts
  | .mapping _, _, converts => by cases converts

theorem newShapes_each (rule : Compositional P) : (items : List Yaml) → ∀ found, newShapes items = .ok found →
    ∀ part ∈ found, P part
  | [], found, converts => by
    cases converts
    exact List.forall_mem_nil _
  | c :: rest, found, converts => by
    rw [newShapes] at converts
    exact each_of_cons converts (newCond_each rule c) (newShapes_each rule rest)
end

mutual
theorem cond_each (rule : Compositional P) : (c : Yaml) → ∀ s, condShape c = .ok s → P s
  | .mapping entries, s, converts => by
    rw [condShape] at converts
    cases new : newCondShape (.mapping entries) with
    | ok shape =>
      rw [new] at converts
      cases converts
      exact newCond_each rule (.mapping entries) _ new
    | error message =>
      rw [new] at converts
      dsimp only at converts
      generalize strAt "type" entries = kind at converts
      obtain rfl | rfl | rfl | rfl | ⟨leaf, rfl, notAnd, notOr, notNot⟩ := kind_cases kind
      · cases converts
      · exact rule.all_of_map (shapesAt_each rule "conditions" entries) converts
      · exact rule.any_of_map (shapesAt_each rule "conditions" entries) converts
      · cases inner : innerShapeAt "condition" entries with
        | error message =>
          rw [inner] at converts
          cases converts
        | ok shape =>
          rw [inner] at converts
          cases converts
          exact rule.negate shape (innerShapeAt_each rule "condition" entries shape inner)
      · simp only [Except.ok.injEq] at converts
        exact converts ▸ rule.legacy leaf entries
  | .tagged _ c, s, converts => cond_each rule c s (by rwa [condShape] at converts)
  | .null, _, converts => by cases converts
  | .bool _, _, converts => by cases converts
  | .number _, _, converts => by cases converts
  | .string _, _, converts => by cases converts
  | .sequence _, _, converts => by cases converts

theorem shapesAt_each (rule : Compositional P) (key : String) : (entries : List (Yaml × Yaml)) → ∀ found,
    shapesAt key entries = .ok found → ∀ part ∈ found, P part
  | [], _, converts => by cases converts
  | (k, v) :: rest, found, converts => by
    rw [shapesAt] at converts
    split at converts
    · exact shapesOf_each rule v found converts
    · exact shapesAt_each rule key rest found converts

theorem shapesOf_each (rule : Compositional P) : (v : Yaml) → ∀ found, shapesOf v = .ok found →
    ∀ part ∈ found, P part
  | .sequence items, found, converts => shapes_each rule items found (by rwa [shapesOf] at converts)
  | .tagged _ v, found, converts => shapesOf_each rule v found (by rwa [shapesOf] at converts)
  | .null, _, converts => by cases converts
  | .bool _, _, converts => by cases converts
  | .number _, _, converts => by cases converts
  | .string _, _, converts => by cases converts
  | .mapping _, _, converts => by cases converts

theorem shapes_each (rule : Compositional P) : (items : List Yaml) → ∀ found, shapes items = .ok found →
    ∀ part ∈ found, P part
  | [], found, converts => by
    cases converts
    exact List.forall_mem_nil _
  | c :: rest, found, converts => by
    rw [shapes] at converts
    exact each_of_cons converts (cond_each rule c) (shapes_each rule rest)

theorem innerShapeAt_each (rule : Compositional P) (key : String) : (entries : List (Yaml × Yaml)) → ∀ s,
    innerShapeAt key entries = .ok s → P s
  | [], _, converts => by cases converts
  | (k, v) :: rest, s, converts => by
    rw [innerShapeAt] at converts
    split at converts
    · exact cond_each rule v s converts
    · exact innerShapeAt_each rule key rest s converts
end

-- The risk score

section
variable (platform : Platform)

def Unscored (s : Shape) : Prop := riskPath ∉ (s.expr platform).paths

variable {platform}

theorem paths_joinExprs (op : BinOp) (parts : List Expr) : (joinExprs op parts).paths = parts.flatMap Expr.paths := by
  cases parts with
  | nil => rfl
  | cons e rest =>
    rw [joinExprs]
    induction rest generalizing e with
    | nil => simp
    | cons next rest ih =>
      rw [List.foldl_cons, ih, List.flatMap_cons, Expr.paths, List.flatMap_cons, List.flatMap_cons, List.append_assoc]

theorem exprs_eq_map (parts : List Shape) : Shape.exprs platform parts = parts.map (Shape.expr platform) := by
  induction parts with
  | nil => rfl
  | cons part rest ih => rw [Shape.exprs, ih, List.map_cons]

theorem unscored_join {op : BinOp} {parts : List Shape} (each : ∀ part ∈ parts, Unscored platform part) :
    riskPath ∉ (joinExprs op (Shape.exprs platform parts)).paths := by
  rw [paths_joinExprs, exprs_eq_map, List.flatMap_map, List.mem_flatMap]
  rintro ⟨part, member, reads⟩
  exact each part member reads

def Operand.unscored : Operand → Bool
  | .field name => name.word ≠ "RiskScore"
  | .header _ => true
  | .request => true

theorem Operand.not_scored {o : Operand} (other : o.unscored = true) : o.expr platform ≠ .path riskPath := by
  intro same
  cases o with
  | field name =>
    simp only [Operand.expr, Operand.segments, riskPath, Expr.path.injEq, Path.mk.injEq, List.cons.injEq,
      PathSeg.field.injEq, and_true, true_and] at same
    simp [Operand.unscored, same] at other
  | header name => simp [Operand.expr, Operand.segments, riskPath] at same
  | request => simp [Operand.expr, Operand.segments, riskPath] at same

theorem Operand.paths_unscored {o : Operand} (other : o.unscored = true) : riskPath ∉ (o.expr platform).paths := by
  have apart : o.expr platform ≠ .path riskPath := o.not_scored other
  rw [Operand.expr] at apart ⊢
  rw [Expr.paths, List.mem_singleton]
  exact fun same => apart (same ▸ rfl)

theorem unscored_equals {left : Operand} (right : Quoted) (other : left.unscored = true) :
    Unscored platform (.equals left right) := by
  rw [Unscored, Shape.expr, Expr.paths, Expr.paths, List.append_nil]
  exact left.paths_unscored other

theorem unscored_call (fn : Name) {arg : Operand} (more : Option Quoted) (other : arg.unscored = true) :
    Unscored platform (.call fn arg more) := by
  rw [Unscored, Shape.expr, Expr.paths, Expr.pathsAll_eq, List.flatMap_cons, List.mem_append, not_or]
  refine ⟨arg.paths_unscored other, ?_⟩
  cases more with
  | none => exact List.not_mem_nil
  | some q => exact List.not_mem_nil

theorem unscored_note (before : String) (value : Text) : Unscored platform (note before value) := List.not_mem_nil

theorem unscored_pathShape (p : String) : Unscored platform (pathShape p) := by
  unfold pathShape
  split
  · exact List.not_mem_nil
  · split
    · exact unscored_call _ _ rfl
    · split
      · exact unscored_call _ _ rfl
      · exact unscored_equals _ rfl

theorem unscored_fieldMatch (field matchType value : String) :
    Unscored platform (fieldMatchShape field matchType value) := by
  unfold fieldMatchShape
  split
  case h_4 => exact unscored_pathShape value
  case h_8 =>
    split
    · exact unscored_equals _ rfl
    · exact unscored_call _ _ rfl
  case h_9 | h_12 =>
    split
    · exact unscored_call _ _ rfl
    · exact unscored_note _ _
  case h_13 => exact unscored_note _ _
  case h_1 | h_3 | h_6 => exact unscored_equals _ rfl
  all_goals exact unscored_call _ _ rfl

theorem unscored_any {parts : List Shape} (each : ∀ part ∈ parts, Unscored platform part) :
    Unscored platform (.any parts) := by
  rw [Unscored, Shape.expr]
  exact unscored_join each

theorem unscored_legacyLeaf (kind : String) (entries : List (Yaml × Yaml)) :
    Unscored platform (legacyLeafShape kind entries) := by
  unfold legacyLeafShape
  split
  case h_5 => exact unscored_pathShape _
  case h_1 | h_4 | h_7 => exact unscored_equals _ rfl
  case h_2 | h_3 | h_6 | h_8 | h_10 | h_14 => exact unscored_call _ _ rfl
  case h_11 => exact List.not_mem_nil
  case h_17 => exact unscored_note _ _
  case h_15 =>
    refine unscored_any fun part member => ?_
    simp only [List.mem_cons, List.not_mem_nil, or_false] at member
    rcases member with rfl | rfl | rfl <;> exact unscored_call _ _ rfl
  all_goals
    refine unscored_any fun part member => ?_
    simp only [List.mem_cons, List.not_mem_nil, or_false] at member
    rcases member with rfl | rfl <;> exact unscored_call _ _ rfl

variable (platform) in
theorem unscored_compositional : Compositional (Unscored platform) where
  field := unscored_fieldMatch
  legacy := unscored_legacyLeaf
  all parts each := by
    rw [Unscored, Shape.expr]
    exact unscored_join each
  any _ := unscored_any
  negate part other := by
    rw [Unscored, Shape.expr, Expr.paths]
    exact other

theorem unscored_scope {scope : Option Yaml} {s : Shape} (guarded : scopeShape scope = some s) : Unscored platform s := by
  unfold scopeShape at guarded
  repeat' split at guarded
  all_goals try cases guarded
  · exact unscored_equals _ rfl
  · obtain ⟨tier, -, rfl⟩ := Option.map_eq_some_iff.mp guarded
    exact unscored_equals _ rfl
  · obtain ⟨pattern, -, rfl⟩ := Option.map_eq_some_iff.mp guarded
    exact unscored_pathShape pattern
  · obtain ⟨ip, -, rfl⟩ := Option.map_eq_some_iff.mp guarded
    exact unscored_equals _ rfl

/-- No converted rule looks at the risk score, the only path converted rules set. -/
theorem riskPath_unread {v : Yaml} {r : RuleShape} (converts : ruleShape v = .ok r) :
    riskPath ∉ (r.whenExpr platform).paths := by
  obtain ⟨c, -, shape⟩ := (ofItem converts).condition
  have condition : Unscored platform r.condition := cond_each (unscored_compositional platform) c _ shape
  have guarded := (ofItem converts).guard
  unfold RuleShape.whenExpr
  split
  · rename_i g found
    rw [Expr.paths, List.mem_append, not_or]
    exact ⟨unscored_scope (guarded.symm.trans found), condition⟩
  · exact condition

end

end MiniWaf.Grl
