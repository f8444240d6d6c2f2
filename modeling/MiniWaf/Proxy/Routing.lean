import MiniWaf.Documents.Scope

/-! Upstream selection: the proxy's own reading of path conditions, beside the
rule engine's reading of the same condition.
-/

set_option autoImplicit false

namespace MiniWaf.Proxy

open Grl Rete Rules Documents

def inDirectory (directory : Text) (path : String) : Bool := (directory ++ ['/']).isPrefixOf path.toList

/-- Glob-style path matching: `/**` is everything, `/prefix/*` a directory and what is below. -/
def wildcardMatches (pattern path : String) : Bool :=
  if pattern = "/**" ∨ pattern = "/*" then true
  else
    match Text.stripSuffix "/*".toList pattern.toList with
    | some pre => path == String.ofList pre || inDirectory pre path
    | none => pattern == path

mutual
def pathConditionMatches (condition : Condition) (path : String) : Bool :=
  match condition with
  | .pathExact value => value == path
  | .pathWildcard pattern => wildcardMatches pattern path
  | .and conditions => allMatch conditions path
  | .or conditions => anyMatch conditions path
  | _ => false

def allMatch (conditions : List Condition) (path : String) : Bool :=
  match conditions with
  | [] => true
  | c :: rest => pathConditionMatches c path && allMatch rest path

def anyMatch (conditions : List Condition) (path : String) : Bool :=
  match conditions with
  | [] => false
  | c :: rest => pathConditionMatches c path || anyMatch rest path
end

structure RoutingRule where
  condition : Condition
  upstreamBackend : Option String

/-- The backend of the first rule that has one and whose condition matches, or the default. -/
def resolveUpstream (rules : List RoutingRule) (backends : AssocMap String String) (upstream path : String) : String :=
  match rules with
  | [] => upstream
  | rule :: rest =>
    match rule.upstreamBackend with
    | none => resolveUpstream rest backends upstream path
    | some backendName =>
      if pathConditionMatches rule.condition path then
        match backends.get backendName with
        | some url => url
        | none => resolveUpstream rest backends upstream path
      else resolveUpstream rest backends upstream path

@[simp] theorem allMatch_eq (conditions : List Condition) (path : String) :
    allMatch conditions path = conditions.all (pathConditionMatches · path) := by
  induction conditions with
  | nil => rfl
  | cons c rest ih => rw [allMatch, ih, List.all_cons]

@[simp] theorem anyMatch_eq (conditions : List Condition) (path : String) :
    anyMatch conditions path = conditions.any (pathConditionMatches · path) := by
  induction conditions with
  | nil => rfl
  | cons c rest ih => rw [anyMatch, ih, List.any_cons]

-- The two readings of a pattern

/-- Both readings of the pattern give one answer at this path. -/
def SharedAt (pattern path : String) : Prop :=
  if pattern = "/**" then True
  else if pattern = "**" then path = "**"
  else if pattern = "/*" then oneSegment [] path = true
  else
    match Text.stripSuffix "/*".toList pattern.toList with
    -- the directory itself and what is deeper in it are for routing only
    | some pre => (path = String.ofList pre ∨ inDirectory pre path = true) → oneSegment pre path = true
    | none =>
      match Text.stripSuffix "/**".toList pattern.toList with
      -- for routing the pattern is a name like any other
      | some pre => inDirectory pre path = true → path = pattern
      | none => True

theorem stripSuffix_of_double (pre : Text) : Text.stripSuffix "/*".toList (pre ++ "/**".toList) = none := by
  apply Option.eq_none_iff_forall_ne_some.mpr
  intro front stripped
  have same := (Text.stripSuffix_eq_some _ _ _).mp stripped
  have ends := congrArg (List.take 2 ∘ List.reverse) same
  simp at ends

theorem oneSegment_inDirectory {pre : Text} {path : String} (segment : oneSegment pre path = true) :
    inDirectory pre path = true := by
  rw [oneSegment, Bool.and_eq_true, Bool.and_eq_true] at segment
  exact segment.1.1

theorem wildcardMatches_eq_iff (pattern path : String) :
    wildcardMatches pattern path = pathMatches pattern path ↔ SharedAt pattern path := by
  unfold wildcardMatches pathMatches SharedAt
  by_cases all : pattern = "/**"
  · simp [all]
  · by_cases double : pattern = "**"
    · subst double
      have none : Text.stripSuffix "/*".toList "**".toList = none := by decide
      simp only [none, String.reduceEq, or_self, or_true, if_true, if_false, beq_iff_eq]
      exact eq_comm
    · by_cases single : pattern = "/*"
      · subst single
        have whole : Text.stripSuffix "/*".toList "/*".toList = some [] := by decide
        simp only [whole, String.reduceEq, or_false, or_true, if_true, if_false]
        exact eq_comm
      · simp only [all, double, single, or_self, if_false]
        cases one : Text.stripSuffix "/*".toList pattern.toList with
        | some pre =>
          rw [Bool.eq_iff_iff, Bool.or_eq_true, beq_iff_eq]
          exact ⟨fun same => same.mp, fun only => ⟨only, fun segment => .inr (oneSegment_inDirectory segment)⟩⟩
        | none =>
          cases below : Text.stripSuffix "/**".toList pattern.toList with
          | none => simp [eq_comm]
          | some pre =>
            rw [Bool.eq_iff_iff, beq_iff_eq]
            constructor
            · exact fun same inside => (same.mpr inside).symm
            · intro only
              refine ⟨?_, fun inside => (only inside).symm⟩
              rintro rfl
              have spelled := (Text.stripSuffix_eq_some _ _ _).mp below
              rw [List.isPrefixOf_iff_prefix, spelled]
              exact ⟨['*', '*'], by simp⟩

/-- The rule engine reads `/**` under a named directory as what is in the directory. -/
theorem pathMatches_below {pre : Text} (named : pre ≠ []) (path : String) :
    pathMatches (String.ofList (pre ++ "/**".toList)) path = inDirectory pre path := by
  have longer : ∀ word : String, word.toList.length ≤ 3 → String.ofList (pre ++ "/**".toList) ≠ word := by
    rintro word short rfl
    have positive := List.length_pos_iff.mpr named
    rw [String.toList_ofList, List.length_append] at short
    change pre.length + 3 ≤ 3 at short
    omega
  have single : Text.stripSuffix "/*".toList (pre ++ "/**".toList) = none := stripSuffix_of_double pre
  have below : Text.stripSuffix "/**".toList (pre ++ "/**".toList) = some pre := (Text.stripSuffix_eq_some _ _ _).mpr rfl
  have spelled : (String.ofList (pre ++ "/**".toList)).toList = pre ++ "/**".toList := String.toList_ofList
  unfold pathMatches
  rw [if_neg (not_or.mpr ⟨longer _ (by decide), longer _ (by decide)⟩), spelled, single, below]
  rfl

inductive Shared (path : String) : Condition → Prop where
  | pathExact (value : String) : Shared path (.pathExact value)
  | pathWildcard {pattern : String} (sharedAt : SharedAt pattern path) : Shared path (.pathWildcard pattern)
  | rateLimitExceeded : Shared path .rateLimitExceeded
  | and {cs : List Condition} (all : ∀ c ∈ cs, Shared path c) : Shared path (.and cs)
  | or {cs : List Condition} (all : ∀ c ∈ cs, Shared path c) : Shared path (.or cs)

def routedPattern (pattern : String) : Condition :=
  if pattern = "/**" ∨ pattern = "/*" then .pathWildcard "/**"
  else
    match Text.stripSuffix "/*".toList pattern.toList with
    | some pre => .or [.pathExact (String.ofList pre), .pathWildcard (String.ofList (pre ++ "/**".toList))]
    | none => .pathExact pattern

mutual
/-- The condition as routing reads it: a regex or a negation is never met. -/
def routed : Condition → Condition
  | .pathExact value => .pathExact value
  | .pathWildcard pattern => routedPattern pattern
  | .and cs => .and (routeds cs)
  | .or cs => .or (routeds cs)
  | _ => .rateLimitExceeded

def routeds : List Condition → List Condition
  | [] => []
  | c :: rest => routed c :: routeds rest
end

theorem routeds_eq_map (cs : List Condition) : routeds cs = cs.map routed := by
  induction cs with
  | nil => rfl
  | cons c rest ih => exact congrArg _ ih

section
variable {platform : Platform} {ctx : RequestContext} {registry : FunctionRegistry}

theorem truth_pathExact {value : String} (kept : Kept platform (Condition.pathExact value).shape)
    (unescaped : '%' ∉ ctx.path.toList) :
    truth platform (.new ctx registry) ((Condition.pathExact value).shape.expr platform) = (value == ctx.path) := by
  have reads : (⟨.debug, value⟩ : Quoted).read platform = value := kept.reads ⟨.debug, value⟩ List.mem_cons_self
  have equal : truth platform (.new ctx registry) ((fieldEquals .path ⟨.debug, value⟩).expr platform) =
      (urlDecode ctx.path == (⟨.debug, value⟩ : Quoted).read platform) := rfl
  rw [reads, urlDecode_of_none unescaped] at equal
  exact equal.trans (Bool.eq_iff_iff.mpr (by rw [beq_iff_eq, beq_iff_eq, eq_comm]))

theorem truth_pathWildcard (globs : GlobRegex platform) {pattern : String}
    (kept : Kept platform (Condition.pathWildcard pattern).shape) (matchesBuiltIn : registry.fns "matches" = none)
    (startsBuiltIn : registry.fns "starts_with" = none) (unescaped : '%' ∉ ctx.path.toList) :
    truth platform (.new ctx registry) ((Condition.pathWildcard pattern).shape.expr platform) =
      pathMatches pattern ctx.path :=
  (truth_pathShape globs kept.reads matchesBuiltIn startsBuiltIn).trans (by rw [urlDecode_of_none unescaped])

theorem matches_of_parts (read : Condition → Condition) (Covered : Condition → Prop) {wm : WorkingMemory}
    (readAnd : ∀ cs, read (.and cs) = .and (cs.map read)) (readOr : ∀ cs, read (.or cs) = .or (cs.map read))
    (coveredAnd : ∀ cs, Covered (.and cs) → ∀ c ∈ cs, Covered c)
    (coveredOr : ∀ cs, Covered (.or cs) → ∀ c ∈ cs, Covered c)
    (leaf : ∀ c : Condition, c.isLeaf = true → Covered c → Kept platform (read c).shape →
      pathConditionMatches c ctx.path = truth platform wm ((read c).shape.expr platform))
    (negation : ∀ c, Covered (.not c) → Kept platform (read (.not c)).shape →
      truth platform wm ((read (.not c)).shape.expr platform) = false) (c : Condition) (covered : Covered c)
    (kept : Kept platform (read c).shape) :
    pathConditionMatches c ctx.path = truth platform wm ((read c).shape.expr platform) := by
  induction c using Condition.byParts with
  | leaf c isLeaf => exact leaf c isLeaf covered kept
  | and cs ih =>
    have whole : (read (.and cs)).shape = .all (cs.map fun c => (read c).shape) := by
      rw [readAnd, Condition.shape, Condition.shapes_eq_map, List.map_map]
      rfl
    rw [whole] at kept ⊢
    rw [pathConditionMatches, allMatch_eq]
    exact truth_conjunction kept fun c member => ih c member (coveredAnd cs covered c member)
  | or cs ih =>
    have whole : (read (.or cs)).shape = .any (cs.map fun c => (read c).shape) := by
      rw [readOr, Condition.shape, Condition.shapes_eq_map, List.map_map]
      rfl
    rw [whole] at kept ⊢
    rw [pathConditionMatches, anyMatch_eq]
    exact truth_disjunction kept fun c member => ih c member (coveredOr cs covered c member)
  | not c _ => exact (negation c covered kept).symm

theorem matches_of_shared (globs : GlobRegex platform) (matchesBuiltIn : registry.fns "matches" = none)
    (startsBuiltIn : registry.fns "starts_with" = none) (unescaped : '%' ∉ ctx.path.toList) {c : Condition}
    (shared : Shared ctx.path c) (kept : Kept platform c.shape) :
    pathConditionMatches c ctx.path = truth platform (.new ctx registry) (c.shape.expr platform) := by
  apply matches_of_parts id (Shared ctx.path)
  · simp
  · simp
  · intro cs shared
    cases shared with
    | and all => exact all
  · intro cs shared
    cases shared with
    | or all => exact all
  · intro c isLeaf shared kept
    cases shared with
    | pathExact value => exact (truth_pathExact kept unescaped).symm
    | pathWildcard sharedAt =>
      exact ((wildcardMatches_eq_iff _ _).mpr sharedAt).trans
        (truth_pathWildcard globs kept matchesBuiltIn startsBuiltIn unescaped).symm
    | rateLimitExceeded => rfl
    | and _ => cases isLeaf
    | or _ => cases isLeaf
  · intro c shared
    cases shared
  · exact shared
  · exact kept

theorem matches_routedPattern (globs : GlobRegex platform) (matchesBuiltIn : registry.fns "matches" = none)
    (startsBuiltIn : registry.fns "starts_with" = none) (unescaped : '%' ∉ ctx.path.toList) {pattern : String}
    (kept : Kept platform (routedPattern pattern).shape) :
    wildcardMatches pattern ctx.path =
      truth platform (.new ctx registry) ((routedPattern pattern).shape.expr platform) := by
  unfold wildcardMatches
  unfold routedPattern at kept ⊢
  by_cases everything : pattern = "/**" ∨ pattern = "/*"
  · rw [if_pos everything, if_pos everything]
    rfl
  · rw [if_neg everything] at kept
    rw [if_neg everything, if_neg everything]
    cases one : Text.stripSuffix "/*".toList pattern.toList with
    | some pre =>
      simp only [one] at kept ⊢
      have named : pre ≠ [] := by
        rintro rfl
        have spelled := (Text.stripSuffix_eq_some _ _ _).mp one
        exact everything (.inr (String.toList_inj.mp spelled))
      obtain ⟨-, parts⟩ := kept.any_parts
      have itself : truth platform (.new ctx registry) _ = _ := truth_pathExact (parts _ List.mem_cons_self) unescaped
      have below := truth_pathWildcard globs (parts _ (List.mem_cons_of_mem _ List.mem_cons_self)) matchesBuiltIn
        startsBuiltIn unescaped
      rw [pathMatches_below named] at below
      have either : truth platform (.new ctx registry) (((Condition.or [.pathExact (String.ofList pre),
        .pathWildcard (String.ofList (pre ++ "/**".toList))]).shape).expr platform) = _ := truth_or platform _ _ _
      rw [either, itself, below, BEq.comm]
    | none =>
      simp only [one] at kept
      exact (truth_pathExact kept unescaped).symm

theorem matches_routed (globs : GlobRegex platform) (matchesBuiltIn : registry.fns "matches" = none)
    (startsBuiltIn : registry.fns "starts_with" = none) (unescaped : '%' ∉ ctx.path.toList) (c : Condition)
    (kept : Kept platform (routed c).shape) :
    pathConditionMatches c ctx.path = truth platform (.new ctx registry) ((routed c).shape.expr platform) := by
  apply matches_of_parts routed fun _ => True
  · intro cs
    rw [routed, routeds_eq_map]
  · intro cs
    rw [routed, routeds_eq_map]
  · simp
  · simp
  · intro c isLeaf _ kept
    cases c with
    | pathExact value => exact (truth_pathExact kept unescaped).symm
    | pathWildcard pattern => exact matches_routedPattern globs matchesBuiltIn startsBuiltIn unescaped kept
    | and cs => cases isLeaf
    | or cs => cases isLeaf
    | not c => cases isLeaf
    | _ => rfl
  · intro c _ _
    rfl
  · trivial
  · exact kept

/-- Routing reads a condition as the rule engine reads its routed form; the two agree on a condition
whose patterns they share at the path, and on a single pattern only then. -/
theorem routing_agrees (globs : GlobRegex platform) :
    (∀ c : Condition, Kept platform c.shape → ∃ e, conditionExpr platform c.yaml = some e ∧
      ∀ (ctx : RequestContext) (registry : FunctionRegistry), registry.fns "matches" = none →
        registry.fns "starts_with" = none → '%' ∉ ctx.path.toList → Shared ctx.path c →
          pathConditionMatches c ctx.path = truth platform (.new ctx registry) e) ∧
    (∀ pattern : String, Kept platform (pathShape pattern) →
      ∃ e, conditionExpr platform (Condition.pathWildcard pattern).yaml = some e ∧
        ∀ (ctx : RequestContext) (registry : FunctionRegistry), registry.fns "matches" = none →
          registry.fns "starts_with" = none → '%' ∉ ctx.path.toList →
            (pathConditionMatches (.pathWildcard pattern) ctx.path = truth platform (.new ctx registry) e ↔
              SharedAt pattern ctx.path)) ∧
    ∀ c : Condition, Kept platform (routed c).shape → ∃ e, conditionExpr platform (routed c).yaml = some e ∧
      ∀ (ctx : RequestContext) (registry : FunctionRegistry), registry.fns "matches" = none →
        registry.fns "starts_with" = none → '%' ∉ ctx.path.toList →
          pathConditionMatches c ctx.path = truth platform (.new ctx registry) e := by
  constructor
  · intro c kept
    refine ⟨_, conditionExpr_eq (Condition.condShape_yaml c) kept.clean, ?_⟩
    intro ctx registry matchesBuiltIn startsBuiltIn unescaped shared
    exact matches_of_shared globs matchesBuiltIn startsBuiltIn unescaped shared kept
  · constructor
    · intro pattern kept
      refine ⟨_, conditionExpr_eq (Condition.condShape_yaml (.pathWildcard pattern)) kept.clean, ?_⟩
      intro ctx registry matchesBuiltIn startsBuiltIn unescaped
      rw [truth_pathWildcard globs kept matchesBuiltIn startsBuiltIn unescaped]
      exact wildcardMatches_eq_iff pattern ctx.path
    · intro c kept
      refine ⟨_, conditionExpr_eq (Condition.condShape_yaml (routed c)) kept.clean, ?_⟩
      intro ctx registry matchesBuiltIn startsBuiltIn unescaped
      exact matches_routed globs matchesBuiltIn startsBuiltIn unescaped c kept

end

def apiCondition : Condition := .and [.pathExact "/api/v1", .or [.pathWildcard "/api/*", .pathExact "/x"]]

theorem routing_agrees_api :
    (∃ e, conditionExpr globPlatform apiCondition.yaml = some e ∧
      pathConditionMatches apiCondition "/api/v1" = truth globPlatform (.new (.bare "GET" "/api/v1") .new) e) ∧
    (∃ e, conditionExpr globPlatform (Condition.pathWildcard "/api/*").yaml = some e ∧
      (pathConditionMatches (.pathWildcard "/api/*") "/api" = truth globPlatform (.new (.bare "GET" "/api") .new) e ↔
        SharedAt "/api/*" "/api")) ∧
    ∃ e, conditionExpr globPlatform (routed (.not apiCondition)).yaml = some e ∧
      pathConditionMatches (.not apiCondition) "/x" = truth globPlatform (.new (.bare "GET" "/x") .new) e := by
  obtain ⟨whole, single, always⟩ := routing_agrees globPlatform_globs
  have segment : SharedAt "/api/*" "/api/v1" := by
    have stripped : Text.stripSuffix "/*".toList "/api/*".toList = some "/api".toList := by decide +kernel
    unfold SharedAt
    simp only [stripped, String.reduceEq, if_false]
    exact fun _ => by decide +kernel
  have shared : Shared "/api/v1" apiCondition := by
    apply Shared.and
    intro c member
    rcases List.mem_cons.mp member with rfl | member
    · exact .pathExact _
    · rw [List.mem_singleton.mp member]
      apply Shared.or
      intro c member
      rcases List.mem_cons.mp member with rfl | member
      · exact .pathWildcard segment
      · rw [List.mem_singleton.mp member]
        exact .pathExact _
  obtain ⟨e, read, agrees⟩ := whole apiCondition ⟨by decide +kernel, by decide +kernel⟩
  obtain ⟨e', read', agrees'⟩ := single "/api/*" ⟨by decide +kernel, by decide +kernel⟩
  obtain ⟨e'', read'', agrees''⟩ := always (.not apiCondition) ⟨by decide +kernel, by decide +kernel⟩
  constructor
  · exact ⟨e, read, agrees (.bare "GET" "/api/v1") .new rfl rfl (by decide) shared⟩
  · constructor
    · exact ⟨e', read', agrees' (.bare "GET" "/api") .new rfl rfl (by decide)⟩
    · exact ⟨e'', read'', agrees'' (.bare "GET" "/x") .new rfl rfl (by decide)⟩

def verdicts (platform : Platform) (c : Condition) (path : String) : Bool × Option Bool :=
  (pathConditionMatches c path,
    (conditionExpr platform c.yaml).map fun e => truth platform (.new (.bare "GET" path) .new) e)

/-- Deeper segments are in `/api/*` for routing only, `/static/**` and negations are met by rules only. -/
theorem routing_disagrees :
    verdicts globPlatform (.pathWildcard "/api/*") "/api/v1/users" = (true, some false) ∧
      verdicts .plain (.pathWildcard "/static/**") "/static/app.js" = (false, some true) ∧
        verdicts .plain (.not (.pathExact "/login")) "/" = (false, some true) := by
  refine ⟨by decide +kernel, by decide +kernel, by decide +kernel⟩

end MiniWaf.Proxy
