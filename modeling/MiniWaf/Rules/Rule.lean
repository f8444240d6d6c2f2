import MiniWaf.Grl.Conversion
import MiniWaf.Rete.Eval

/-! Typed conditions of YAML rules, the YAML they are written as, and the expression
the converter and the parser make of that.
-/

set_option autoImplicit false

namespace MiniWaf.Rules

open Grl Rete Yaml

/-- Condition tree that must evaluate to `true` for the rule to fire. -/
inductive Condition where
  | ipExact (value : String)
  | ipInBlacklist
  | ipInWhitelist
  | pathExact (value : String)
  | pathWildcard (pattern : String)
  | pathRegex (pattern : String)
  | headerExact (name value : String)
  | headerRegex (name pattern : String)
  | payloadRegex (pattern : String)
  | cookieExact (name value : String)
  | rateLimitExceeded
  | sqliPattern
  | xssPattern
  | pathTraversalPattern
  | ssrfPattern
  | headerInjectionPattern
  | and (conditions : List Condition)
  | or (conditions : List Condition)
  | not (condition : Condition)

namespace Condition

def isLeaf : Condition → Bool
  | .and _ | .or _ | .not _ => false
  | _ => true

mutual
theorem byParts {P : Condition → Prop} (leaf : ∀ c : Condition, c.isLeaf = true → P c)
    (and : ∀ cs, (∀ c ∈ cs, P c) → P (.and cs)) (or : ∀ cs, (∀ c ∈ cs, P c) → P (.or cs))
    (not : ∀ c, P c → P (.not c)) : (c : Condition) → P c
  | .and cs => and cs (allByParts leaf and or not cs)
  | .or cs => or cs (allByParts leaf and or not cs)
  | .not c => not c (byParts leaf and or not c)
  | .ipExact _ | .ipInBlacklist | .ipInWhitelist | .pathExact _ | .pathWildcard _ | .pathRegex _ | .headerExact _ _
  | .headerRegex _ _ | .payloadRegex _ | .cookieExact _ _ | .rateLimitExceeded | .sqliPattern | .xssPattern
  | .pathTraversalPattern | .ssrfPattern | .headerInjectionPattern => leaf _ rfl

theorem allByParts {P : Condition → Prop} (leaf : ∀ c : Condition, c.isLeaf = true → P c)
    (and : ∀ cs, (∀ c ∈ cs, P c) → P (.and cs)) (or : ∀ cs, (∀ c ∈ cs, P c) → P (.or cs))
    (not : ∀ c, P c → P (.not c)) : (cs : List Condition) → ∀ c ∈ cs, P c
  | [], _, member => nomatch member
  | head :: rest, c, member => by
    rcases List.mem_cons.mp member with same | later
    · exact same ▸ byParts leaf and or not head
    · exact allByParts leaf and or not rest c later
end

mutual
def yaml : Condition → Yaml
  | .ipExact value => .record [("type", .string "ip_exact"), ("value", .string value)]
  | .ipInBlacklist => .record [("type", .string "ip_in_blacklist")]
  | .ipInWhitelist => .record [("type", .string "ip_in_whitelist")]
  | .pathExact value => .record [("type", .string "path_exact"), ("value", .string value)]
  | .pathWildcard pattern => .record [("type", .string "path_wildcard"), ("pattern", .string pattern)]
  | .pathRegex pattern => .record [("type", .string "path_regex"), ("pattern", .string pattern)]
  | .headerExact name value =>
    .record [("type", .string "header_exact"), ("name", .string name), ("value", .string value)]
  | .headerRegex name pattern =>
    .record [("type", .string "header_regex"), ("name", .string name), ("pattern", .string pattern)]
  | .payloadRegex pattern => .record [("type", .string "payload_regex"), ("pattern", .string pattern)]
  | .cookieExact name value =>
    .record [("type", .string "cookie_exact"), ("name", .string name), ("value", .string value)]
  | .rateLimitExceeded => .record [("type", .string "rate_limit_exceeded")]
  | .sqliPattern => .record [("type", .string "sqli_pattern")]
  | .xssPattern => .record [("type", .string "xss_pattern")]
  | .pathTraversalPattern => .record [("type", .string "path_traversal_pattern")]
  | .ssrfPattern => .record [("type", .string "ssrf_pattern")]
  | .headerInjectionPattern => .record [("type", .string "header_injection_pattern")]
  | .and cs => .record [("type", .string "and"), ("conditions", .sequence (yamls cs))]
  | .or cs => .record [("type", .string "or"), ("conditions", .sequence (yamls cs))]
  | .not c => .record [("type", .string "not"), ("condition", c.yaml)]

def yamls : List Condition → List Yaml
  | [] => []
  | c :: rest => c.yaml :: yamls rest
end

mutual
def shape : Condition → Shape
  | .ipExact value => fieldEquals .clientIp ⟨.debug, value⟩
  | .ipInBlacklist => .call .ipInBlacklist (.field .clientIp) none
  | .ipInWhitelist => .call .ipInWhitelist (.field .clientIp) none
  | .pathExact value => fieldEquals .path ⟨.debug, value⟩
  | .pathWildcard pattern => pathShape pattern
  | .pathRegex pattern => fieldCall .matches_ .path ⟨.debug, pattern⟩
  | .headerExact name value => .equals (.header ⟨.debug, name⟩) ⟨.debug, value⟩
  | .headerRegex name pattern => .call .matches_ (.header ⟨.debug, name⟩) (some ⟨.debug, pattern⟩)
  | .payloadRegex pattern => .any [fieldCall .matches_ .body ⟨.debug, pattern⟩, fieldCall .matches_ .query ⟨.debug, pattern⟩]
  | .cookieExact name value => .call .contains (.header ⟨.verbatim, "Cookie"⟩) (some ⟨.debug, name ++ "=" ++ value⟩)
  | .rateLimitExceeded => .always false
  | .sqliPattern => legacyLeafShape "sqli_pattern" []
  | .xssPattern => legacyLeafShape "xss_pattern" []
  | .pathTraversalPattern => legacyLeafShape "path_traversal_pattern" []
  | .ssrfPattern => legacyLeafShape "ssrf_pattern" []
  | .headerInjectionPattern => legacyLeafShape "header_injection_pattern" []
  | .and cs => .all (shapes cs)
  | .or cs => .any (shapes cs)
  | .not c => .negate c.shape

def shapes : List Condition → List Shape
  | [] => []
  | c :: rest => c.shape :: shapes rest
end

theorem shapes_eq_map (cs : List Condition) : shapes cs = cs.map shape := by
  induction cs with
  | nil => rfl
  | cons c rest ih => exact congrArg _ ih

theorem shapes_yamls {cs : List Condition} (converts : ∀ c ∈ cs, condShape c.yaml = .ok c.shape) :
    Grl.shapes (yamls cs) = .ok (shapes cs) := by
  induction cs with
  | nil => rfl
  | cons c rest ih =>
    rw [yamls, Grl.shapes, converts c List.mem_cons_self, ih fun d later => converts d (List.mem_cons_of_mem c later)]
    rfl

theorem condShape_yaml (c : Condition) : condShape c.yaml = .ok c.shape := by
  induction c using byParts with
  | leaf c isLeaf => cases c <;> first | rfl | cases isLeaf
  | and cs ih => exact congrArg (Except.map Shape.all) (shapes_yamls ih)
  | or cs ih => exact congrArg (Except.map Shape.any) (shapes_yamls ih)
  | not c ih => exact congrArg (Except.map Shape.negate) ih

mutual
def leaves : Condition → List Condition
  | .and cs => leavesOf cs
  | .or cs => leavesOf cs
  | .not c => leaves c
  | c => [c]

def leavesOf : List Condition → List Condition
  | [] => []
  | c :: rest => leaves c ++ leavesOf rest
end

mutual
def holds (leaf : Condition → Bool) : Condition → Bool
  | .and cs => holdsAll leaf cs
  | .or cs => holdsAny leaf cs
  | .not c => !holds leaf c
  | c => leaf c

def holdsAll (leaf : Condition → Bool) : List Condition → Bool
  | [] => true
  | c :: rest => holds leaf c && holdsAll leaf rest

def holdsAny (leaf : Condition → Bool) : List Condition → Bool
  | [] => false
  | c :: rest => holds leaf c || holdsAny leaf rest
end

theorem leavesOf_eq_flatMap (cs : List Condition) : leavesOf cs = cs.flatMap leaves := by
  induction cs with
  | nil => rfl
  | cons c rest ih => rw [leavesOf, ih, List.flatMap_cons]

theorem leaves_of_isLeaf {c : Condition} (isLeaf : c.isLeaf = true) : c.leaves = [c] := by
  cases c <;> first | rfl | cases isLeaf

theorem holdsAll_eq (leaf : Condition → Bool) (cs : List Condition) : holdsAll leaf cs = cs.all (holds leaf) := by
  induction cs with
  | nil => rfl
  | cons c rest ih => rw [holdsAll, ih, List.all_cons]

theorem holdsAny_eq (leaf : Condition → Bool) (cs : List Condition) : holdsAny leaf cs = cs.any (holds leaf) := by
  induction cs with
  | nil => rfl
  | cons c rest ih => rw [holdsAny, ih, List.any_cons]

theorem holds_of_isLeaf (leaf : Condition → Bool) {c : Condition} (isLeaf : c.isLeaf = true) :
    holds leaf c = leaf c := by
  cases c <;> first | rfl | cases isLeaf

theorem holds_congr {first second : Condition → Bool} (c : Condition)
    (same : ∀ leaf ∈ c.leaves, first leaf = second leaf) : c.holds first = c.holds second := by
  induction c using byParts with
  | leaf c isLeaf =>
    rw [holds_of_isLeaf first isLeaf, holds_of_isLeaf second isLeaf]
    apply same
    rw [leaves_of_isLeaf isLeaf]
    exact List.mem_singleton_self c
  | and cs ih =>
    rw [leaves, leavesOf_eq_flatMap] at same
    rw [holds, holds, holdsAll_eq, holdsAll_eq]
    exact all_eq_of_mem fun c member => ih c member fun leaf inPart => same leaf (List.mem_flatMap.mpr ⟨c, member, inPart⟩)
  | or cs ih =>
    rw [leaves, leavesOf_eq_flatMap] at same
    rw [holds, holds, holdsAny_eq, holdsAny_eq]
    exact any_eq_of_mem fun c member => ih c member fun leaf inPart => same leaf (List.mem_flatMap.mpr ⟨c, member, inPart⟩)
  | not c ih =>
    rw [holds, holds, ih same]

end Condition

-- Conditions that survive being written and read

mutual
def strings : Shape → List Quoted
  | .equals left right => operandStrings left ++ [right]
  | .call _ arg more => operandStrings arg ++ more.toList
  | .always _ | .never _ => []
  | .all parts | .any parts => stringsOf parts
  | .negate part => strings part

def stringsOf : List Shape → List Quoted
  | [] => []
  | part :: rest => strings part ++ stringsOf rest

def operandStrings : Operand → List Quoted
  | .header name => [name]
  | .field _ | .request => []
end

section
variable (platform : Platform)

/-- The condition parses, and every string in it reads back as itself. -/
structure Kept (s : Shape) : Prop where
  clean : s.clean platform = true
  reads : ∀ q ∈ strings s, q.read platform = q.value

def inRule (condition : Yaml) : Yaml :=
  .record [("id", .string "r"), ("condition", condition), ("action", .string "allow")]

def conditionExpr (condition : Yaml) : Option Expr :=
  match documentRules platform (.sequence [inRule condition]) with
  | some [rule] => some rule.when
  | _ => none

end

section
variable {platform : Platform}

theorem kept_parts {parts : List Shape} (clean : Shape.cleanAll platform parts = true)
    (reads : ∀ q ∈ stringsOf parts, q.read platform = q.value) : ∀ s ∈ parts, Kept platform s := by
  induction parts with
  | nil => simp
  | cons part rest ih =>
    rw [Shape.cleanAll, Bool.and_eq_true] at clean
    intro s member
    rcases List.mem_cons.mp member with rfl | later
    · exact ⟨clean.1, fun q inPart => reads q (List.mem_append_left _ inPart)⟩
    · exact ih clean.2 (fun q inRest => reads q (List.mem_append_right _ inRest)) s later

theorem Kept.all_parts {parts : List Shape} (kept : Kept platform (.all parts)) :
    parts ≠ [] ∧ ∀ s ∈ parts, Kept platform s := by
  have clean := kept.clean
  rw [Shape.clean, Bool.and_eq_true, Bool.not_eq_true', List.isEmpty_eq_false_iff] at clean
  exact ⟨clean.1, kept_parts clean.2 kept.reads⟩

theorem Kept.any_parts {parts : List Shape} (kept : Kept platform (.any parts)) :
    parts ≠ [] ∧ ∀ s ∈ parts, Kept platform s := by
  have clean := kept.clean
  rw [Shape.clean, Bool.and_eq_true, Bool.not_eq_true', List.isEmpty_eq_false_iff] at clean
  exact ⟨clean.1, kept_parts clean.2 kept.reads⟩

theorem Kept.part {s : Shape} (kept : Kept platform (.negate s)) : Kept platform s := ⟨kept.clean, kept.reads⟩

theorem exprs_eq_map (parts : List Shape) : Shape.exprs platform parts = parts.map (Shape.expr platform) := by
  induction parts with
  | nil => rfl
  | cons part rest ih => exact congrArg _ ih

theorem ruleShape_inRule {condition : Yaml} {s : Shape} (converts : condShape condition = .ok s) :
    ∃ r : RuleShape, ruleShape (inRule condition) = .ok r ∧ r.id = "r" ∧ r.guard = none ∧ r.condition = s ∧
      r.calls = [(.allow, none)] := by
  have whole : ruleShape (inRule condition) = (condShape condition).map fun c =>
    ⟨"r", ruleSalience (inRule condition), none, c, 0, [(.allow, none)]⟩ := rfl
  rw [converts] at whole
  exact ⟨_, whole, rfl, rfl, rfl, rfl⟩

/-- A clean condition comes back as its expression. -/
theorem conditionExpr_eq {condition : Yaml} {s : Shape} (converts : condShape condition = .ok s)
    (clean : s.clean platform = true) : conditionExpr platform condition = some (s.expr platform) := by
  obtain ⟨r, shape, id, guard, body, calls⟩ := ruleShape_inRule converts
  have rules : okRules [inRule condition] = [r] := by
    rw [okRules_cons, shape]
    rfl
  have read : documentRules platform (.sequence [inRule condition]) = _ := documentRules_eq rfl (by
    intro r' member
    rw [rules, List.mem_singleton] at member
    subst member
    have name : r'.name.clean platform = true := by
      rw [RuleShape.name, id]
      rfl
    rw [RuleShape.clean, name, guard, body, clean, calls]
    rfl)
  rw [conditionExpr, read, rules]
  change some (r.whenExpr platform) = _
  rw [RuleShape.whenExpr, guard, body]

variable {wm : WorkingMemory}

theorem truth_foldl (exprs : List Expr) : (first : Expr) →
    truth platform wm (exprs.foldl (.binary .and) first) = (truth platform wm first && exprs.all (truth platform wm)) ∧
      truth platform wm (exprs.foldl (.binary .or) first) = (truth platform wm first || exprs.any (truth platform wm)) := by
  induction exprs with
  | nil => simp
  | cons e rest ih =>
    intro first
    constructor
    · rw [List.foldl_cons, (ih _).1, truth_and, List.all_cons, Bool.and_assoc]
    · rw [List.foldl_cons, (ih _).2, truth_or, List.any_cons, Bool.or_assoc]

theorem truth_all {parts : List Shape} (nonempty : parts ≠ []) :
    truth platform wm ((Shape.all parts).expr platform) = parts.all fun s => truth platform wm (s.expr platform) := by
  cases parts with
  | nil => exact absurd rfl nonempty
  | cons first rest =>
    change truth platform wm ((Shape.exprs platform rest).foldl (.binary .and) (first.expr platform)) = _
    rw [(truth_foldl _ _).1, exprs_eq_map, List.all_map, List.all_cons]
    rfl

theorem truth_any {parts : List Shape} (nonempty : parts ≠ []) :
    truth platform wm ((Shape.any parts).expr platform) = parts.any fun s => truth platform wm (s.expr platform) := by
  cases parts with
  | nil => exact absurd rfl nonempty
  | cons first rest =>
    change truth platform wm ((Shape.exprs platform rest).foldl (.binary .or) (first.expr platform)) = _
    rw [(truth_foldl _ _).2, exprs_eq_map, List.any_map, List.any_cons]
    rfl

theorem truth_conjunction {A : Type} {items : List A} {shapeOf : A → Shape} {verdict : A → Bool}
    (kept : Kept platform (.all (items.map shapeOf)))
    (each : ∀ a ∈ items, Kept platform (shapeOf a) → verdict a = truth platform wm ((shapeOf a).expr platform)) :
    items.all verdict = truth platform wm ((Shape.all (items.map shapeOf)).expr platform) := by
  obtain ⟨nonempty, parts⟩ := kept.all_parts
  rw [truth_all nonempty, List.all_map]
  exact all_eq_of_mem fun a member => each a member (parts _ (List.mem_map_of_mem member))

theorem truth_disjunction {A : Type} {items : List A} {shapeOf : A → Shape} {verdict : A → Bool}
    (kept : Kept platform (.any (items.map shapeOf)))
    (each : ∀ a ∈ items, Kept platform (shapeOf a) → verdict a = truth platform wm ((shapeOf a).expr platform)) :
    items.any verdict = truth platform wm ((Shape.any (items.map shapeOf)).expr platform) := by
  obtain ⟨nonempty, parts⟩ := kept.any_parts
  rw [truth_any nonempty, List.any_map]
  exact any_eq_of_mem fun a member => each a member (parts _ (List.mem_map_of_mem member))

theorem truth_negate (s : Shape) :
    truth platform wm ((Shape.negate s).expr platform) = !truth platform wm (s.expr platform) :=
  truth_not platform wm (s.expr platform)

theorem truth_call {fn : Name} (builtIn : wm.registry.fns fn.word = none) (arg : Operand) (q : Quoted) :
    truth platform wm ((Shape.call fn arg (some q)).expr platform) =
      (dispatch platform fn.word [evalExpr platform wm (arg.expr platform), .str (q.read platform)]).asBool := by
  have call : ∀ args, wm.registry.call platform fn.word wm.fact args = dispatch platform fn.word args := by
    intro args
    rw [FunctionRegistry.call, builtIn]
  exact congrArg Value.asBool (call _)

theorem truth_matches (builtIn : wm.registry.fns "matches" = none) (arg : Operand) (q : Quoted) :
    truth platform wm ((Shape.call .matches_ arg (some q)).expr platform) =
      platform.isMatch (q.read platform) (evalExpr platform wm (arg.expr platform)).asStr :=
  truth_call builtIn arg q

theorem truth_contains (builtIn : wm.registry.fns "contains" = none) (arg : Operand) (q : Quoted) :
    truth platform wm ((Shape.call .contains arg (some q)).expr platform) =
      Text.containsText (q.read platform).toList (evalExpr platform wm (arg.expr platform)).asStr.toList :=
  truth_call builtIn arg q

/-- A condition that survives is true as its leaves, written on their own, are. -/
theorem truth_shape {c : Condition} (kept : Kept platform c.shape) :
    c.holds (fun leaf => truth platform wm (leaf.shape.expr platform)) = truth platform wm (c.shape.expr platform) := by
  induction c using Condition.byParts with
  | leaf c isLeaf => rw [Condition.holds_of_isLeaf _ isLeaf]
  | and cs ih =>
    have whole : (Condition.and cs).shape = .all (cs.map Condition.shape) := by
      rw [Condition.shape, Condition.shapes_eq_map]
    rw [whole] at kept ⊢
    rw [Condition.holds, Condition.holdsAll_eq]
    exact truth_conjunction kept ih
  | or cs ih =>
    have whole : (Condition.or cs).shape = .any (cs.map Condition.shape) := by
      rw [Condition.shape, Condition.shapes_eq_map]
    rw [whole] at kept ⊢
    rw [Condition.holds, Condition.holdsAny_eq]
    exact truth_disjunction kept ih
  | not c ih =>
    rw [Condition.holds, ih kept.part]
    exact (truth_negate c.shape).symm

theorem kept_leaves {c : Condition} (kept : Kept platform c.shape) : ∀ leaf ∈ c.leaves, Kept platform leaf.shape := by
  induction c using Condition.byParts with
  | leaf c isLeaf =>
    intro leaf member
    rw [Condition.leaves_of_isLeaf isLeaf, List.mem_singleton] at member
    exact member ▸ kept
  | and cs ih =>
    intro leaf member
    rw [Condition.leaves, Condition.leavesOf_eq_flatMap] at member
    obtain ⟨c, inParts, inPart⟩ := List.mem_flatMap.mp member
    rw [Condition.shape, Condition.shapes_eq_map] at kept
    exact ih c inParts (kept.all_parts.2 _ (List.mem_map_of_mem inParts)) leaf inPart
  | or cs ih =>
    intro leaf member
    rw [Condition.leaves, Condition.leavesOf_eq_flatMap] at member
    obtain ⟨c, inParts, inPart⟩ := List.mem_flatMap.mp member
    rw [Condition.shape, Condition.shapes_eq_map] at kept
    exact ih c inParts (kept.any_parts.2 _ (List.mem_map_of_mem inParts)) leaf inPart
  | not c ih => exact ih kept.part

end

end MiniWaf.Rules
