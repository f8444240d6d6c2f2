import MiniWaf.Documents.Scope
import MiniWaf.Plain.Loader

/-! Conditions of the plain YAML engine as the converter writes them for the rule
engine: what each converted leaf asks, and where that is what the plain engine asks.
-/

set_option autoImplicit false

namespace MiniWaf.Plain

open Grl Rete Rules Documents Yaml

def Field.serdeName : Field → String
  | ip => "ip"
  | path => "path"
  | header => "header"
  | payload => "payload"
  | cookie => "cookie"
  | method => "method"
  | contentType => "content_type"
  | sessionId => "session_id"
  | deviceFp => "device_fp"

def MatchType.serdeName : MatchType → String
  | exact => "exact"
  | wildcard => "wildcard"
  | regex => "regex"
  | cidr => "cidr"
  | presence => "presence"
  | absence => "absence"

def optionYaml : Option String → Yaml
  | some s => .string s
  | none => .null

namespace ConditionLeaf

def yaml (leaf : ConditionLeaf) : Yaml :=
  .record [("field", .string leaf.field.serdeName), ("match", .string leaf.matchType.serdeName),
    ("value", .string leaf.value), ("header_name", optionYaml leaf.headerName),
    ("cookie_name", optionYaml leaf.cookieName), ("case_sensitive", .bool leaf.caseSensitive),
    ("negate", .bool leaf.negate)]

/-- What the converter makes of it: it reads no more than the field, the match and the value. -/
def shape (leaf : ConditionLeaf) : Shape := fieldMatchShape leaf.field.serdeName leaf.matchType.serdeName leaf.value

end ConditionLeaf

namespace ConditionNode

mutual
def yaml : ConditionNode → Yaml
  | .and children => .record [("and", .sequence (yamls children))]
  | .or children => .record [("or", .sequence (yamls children))]
  | .leaf l => l.yaml

def yamls : List ConditionNode → List Yaml
  | [] => []
  | c :: rest => c.yaml :: yamls rest
end

mutual
def shape : ConditionNode → Shape
  | .and children => .all (shapes children)
  | .or children => .any (shapes children)
  | .leaf l => l.shape

def shapes : List ConditionNode → List Shape
  | [] => []
  | c :: rest => c.shape :: shapes rest
end

theorem shapes_eq_map (children : List ConditionNode) : shapes children = children.map shape := by
  induction children with
  | nil => rfl
  | cons c rest ih => exact congrArg _ ih

theorem newShapes_yamls {children : List ConditionNode}
    (converts : ∀ c ∈ children, newCondShape c.yaml = .ok c.shape) :
    newShapes (yamls children) = .ok (shapes children) := by
  induction children with
  | nil => rfl
  | cons c rest ih =>
    rw [yamls, newShapes, converts c List.mem_cons_self, ih fun d later => converts d (List.mem_cons_of_mem c later)]
    rfl

theorem newCondShape_yaml (node : ConditionNode) : newCondShape node.yaml = .ok node.shape := by
  induction node using byNodes with
  | and children ih => exact congrArg (Except.map Shape.all) (newShapes_yamls ih)
  | or children ih => exact congrArg (Except.map Shape.any) (newShapes_yamls ih)
  | leaf l => rfl

theorem condShape_of_new {entries : List (Yaml × Yaml)} {s : Shape}
    (converts : newCondShape (.mapping entries) = .ok s) : condShape (.mapping entries) = .ok s := by
  rw [condShape, converts]

theorem condShape_yaml (node : ConditionNode) : condShape node.yaml = .ok node.shape := by
  have converts := newCondShape_yaml node
  cases node with
  | and children => exact condShape_of_new converts
  | or children => exact condShape_of_new converts
  | leaf l => exact condShape_of_new converts

end ConditionNode

section
variable (platform : Platform)

/-- What a converted leaf asks. A header or a cookie is named in the value, and looked up as text. -/
def converted (leaf : ConditionLeaf) (ctx : MiniWaf.RequestContext) : Bool :=
  match leaf.field, leaf.matchType with
  | .ip, .exact => ctx.clientIp == leaf.value
  | .ip, .cidr => Text.containsText leaf.value.toList ctx.clientIp.toList
  | .path, .exact => ctx.path == leaf.value
  | .path, .wildcard => pathMatches leaf.value ctx.path
  | .path, .regex => platform.isMatch leaf.value ctx.path
  | .method, .exact => ctx.method == leaf.value
  | .method, .regex => platform.isMatch leaf.value ctx.method
  | .header, .exact =>
    match Text.splitOnce ':' leaf.value.toList with
    | some (name, val) => findHeader platform ctx.headers (String.ofList name) == String.ofList (Text.trim val)
    | none => false
  | .header, .regex =>
    match Text.splitOnce ':' leaf.value.toList with
    | some (name, pattern) =>
      platform.isMatch (String.ofList (Text.trim pattern))
        (findHeader platform ctx.headers (String.ofList (Text.trim name)))
    | none => false
  | .payload, .regex => platform.isMatch leaf.value (bodyText ctx.body)
  | .cookie, .exact =>
    match Text.splitOnce '=' leaf.value.toList with
    | some (name, val) =>
      Text.containsText (Text.trim name ++ '=' :: Text.trim val) (findHeader platform ctx.headers "Cookie").toList
    | none => false
  | _, _ => false

/-- The converter knows the leaf: it writes no placeholder, and a header leaf names its header. -/
structure Known (leaf : ConditionLeaf) : Prop where
  written : ∀ note, leaf.shape ≠ .never note
  named : leaf.field = .header → Text.splitOnce ':' leaf.value.toList ≠ none

structure SameRequest (ctx : RequestContext) (fact : MiniWaf.RequestContext) : Prop where
  ip : fact.clientIp = ctx.ip
  path : fact.path = ctx.path
  method : fact.method = ctx.method
  headers : fact.headers = ctx.headers
  body : fact.body.getD [] = ctx.payload

def NoWildcard (t : Text) : Prop := '*' ∉ t ∧ '?' ∉ t

def GlobShared (pattern path : String) : Prop :=
  if pattern = "/**" then ['/'] <+: path.toList
  else if pattern = "**" then True
  else
    match Text.stripSuffix "/*".toList pattern.toList with
    -- for the glob the star goes on through further segments
    | some pre => NoWildcard pre ∧ (pre ++ ['/'] <+: path.toList → oneSegment pre path = true)
    | none =>
      match Text.stripSuffix "/**".toList pattern.toList with
      | some pre => NoWildcard pre
      | none => NoWildcard pattern.toList

/-- The leaf's comparison, with case, and the converted one come out alike. -/
def Alike (ctx : RequestContext) (leaf : ConditionLeaf) : Prop :=
  match leaf.field, leaf.matchType with
  | .ip, .cidr => cidrContains leaf.value ctx.ip = true ↔ leaf.value.toList <:+: ctx.ip.toList
  | .path, .wildcard => GlobShared leaf.value ctx.path
  | .header, .exact => ∀ name val, Text.splitOnce ':' leaf.value.toList = some (name, val) →
      (subjectText leaf ctx = leaf.value ↔
        findHeader platform ctx.headers (String.ofList name) = String.ofList (Text.trim val))
  | .header, .regex => ∀ name pattern, Text.splitOnce ':' leaf.value.toList = some (name, pattern) →
      platform.isMatch leaf.value (subjectText leaf ctx) =
        platform.isMatch (String.ofList (Text.trim pattern))
          (findHeader platform ctx.headers (String.ofList (Text.trim name)))
  | .cookie, .exact => ∀ name val, Text.splitOnce '=' leaf.value.toList = some (name, val) →
      (subjectText leaf ctx = leaf.value ↔
        Text.trim name ++ '=' :: Text.trim val <:+: (findHeader platform ctx.headers "Cookie").toList)
  | _, _ => True

/-- Both engines ask the same by the leaf: what the converter does not write, decides nothing. -/
structure Agreed (ctx : RequestContext) (leaf : ConditionLeaf) : Prop where
  plainly : leaf.negate = false
  caseless : matchValue platform (subjectText leaf ctx) leaf =
    matchValue platform (subjectText leaf ctx) { leaf with caseSensitive := true }
  alike : Alike platform ctx leaf

end

-- Path patterns

theorem map_pieceOf {t : Text} (plain : NoWildcard t) : t.map pieceOf = t.map .item := by
  apply List.map_congr_left
  intro c member
  exact pieceOf_item (fun same => plain.1 (same ▸ member)) (fun same => plain.2 (same ▸ member))

theorem matchRecursive_under {pre : Text} (plain : NoWildcard pre) (path : Text) :
    (matchRecursive (pre ++ "/*".toList) path = true ↔ pre ++ ['/'] <+: path) ∧
      (matchRecursive (pre ++ "/**".toList) path = true ↔ pre ++ ['/'] <+: path) := by
  have directory : (pre ++ "/*".toList).map pieceOf = (pre ++ ['/']).map .item ++ [.star] := by
    rw [List.map_append, map_pieceOf plain, List.map_append, List.append_assoc]
    rfl
  have double : (pre ++ "/**".toList).map pieceOf = (pre ++ ['/']).map .item ++ [.star] ++ [.star] := by
    have longer : pre ++ "/**".toList = pre ++ "/*".toList ++ ['*'] := by
      rw [List.append_assoc]
      rfl
    rw [longer, List.map_append, directory]
    rfl
  rw [matchRecursive_iff, matchRecursive_iff, directory, double, Glob.matches_star_star, Glob.matches_prefix_star]
  exact ⟨Iff.rfl, Iff.rfl⟩

theorem oneSegment_under {pre : Text} {path : String} (segment : oneSegment pre path = true) :
    pre ++ ['/'] <+: path.toList := by
  rw [oneSegment, Bool.and_eq_true, Bool.and_eq_true, List.isPrefixOf_iff_prefix] at segment
  exact segment.1.1

theorem glob_shared {pattern path : String} (shared : GlobShared pattern path) :
    matchRecursive pattern.toList path.toList = pathMatches pattern path := by
  unfold GlobShared at shared
  unfold pathMatches
  rw [Bool.eq_iff_iff]
  by_cases all : pattern = "/**"
  · subst all
    rw [if_pos rfl] at shared
    rw [if_pos (.inl rfl)]
    have none : NoWildcard [] := by simp [NoWildcard]
    exact iff_of_true ((matchRecursive_under none path.toList).2.mpr shared) rfl
  · by_cases double : pattern = "**"
    · subst double
      rw [if_pos (.inr rfl)]
      refine iff_of_true ?_ rfl
      rw [matchRecursive_iff]
      exact ⟨[], path.toList, rfl, Glob.matches_star _⟩
    · rw [if_neg all, if_neg double] at shared
      rw [if_neg (not_or.mpr ⟨all, double⟩)]
      cases one : Text.stripSuffix "/*".toList pattern.toList with
      | some pre =>
        simp only [one] at shared
        rw [(Text.stripSuffix_eq_some _ _ _).mp one, (matchRecursive_under shared.1 _).1]
        exact ⟨shared.2, oneSegment_under⟩
      | none =>
        simp only [one] at shared
        cases below : Text.stripSuffix "/**".toList pattern.toList with
        | some pre =>
          simp only [below] at shared
          rw [(Text.stripSuffix_eq_some _ _ _).mp below, (matchRecursive_under shared _).2]
          exact List.isPrefixOf_iff_prefix.symm
        | none =>
          simp only [below] at shared
          rw [matchRecursive_iff, map_pieceOf shared, Glob.matches_items, beq_iff_eq]
          exact String.toList_inj

-- Leaves

theorem shape_unnamed_cookie {value : String} {headerName cookieName : Option String} {caseSensitive negate : Bool}
    (unnamed : Text.splitOnce '=' value.toList = none) :
    ConditionLeaf.shape ⟨.cookie, .exact, value, headerName, cookieName, caseSensitive, negate⟩ =
      note "invalid cookie: " value.toList := by
  change (match Text.splitOnce '=' value.toList with | some (name, val) => _ | none => _) = _
  rw [unnamed]

section
variable {platform : Platform} {ctx : RequestContext} {fact : MiniWaf.RequestContext} {registry : FunctionRegistry}

theorem truth_leaf (globs : GlobRegex platform) (unescaped : '%' ∉ fact.path.toList)
    (matchesBuiltIn : registry.fns "matches" = none) (containsBuiltIn : registry.fns "contains" = none)
    (startsBuiltIn : registry.fns "starts_with" = none) {leaf : ConditionLeaf} (known : Known leaf)
    (kept : Kept platform leaf.shape) :
    truth platform (.new fact registry) (leaf.shape.expr platform) = converted platform leaf fact := by
  have decoded : urlDecode fact.path = fact.path := urlDecode_of_none unescaped
  obtain ⟨field, matchType, value, headerName, cookieName, caseSensitive, negate⟩ := leaf
  obtain ⟨written, named⟩ := known
  obtain ⟨-, reads⟩ := kept
  cases field with
  | ip =>
    cases matchType with
    | exact =>
      have same := reads ⟨.escaped, value⟩ (List.mem_singleton_self _)
      change (fact.clientIp == (⟨.escaped, value⟩ : Quoted).read platform) = _
      rw [same]
      rfl
    | cidr =>
      have same := reads ⟨.escaped, value⟩ (List.mem_singleton_self _)
      refine (truth_contains containsBuiltIn (.field .clientIp) ⟨.escaped, value⟩).trans ?_
      rw [same]
      rfl
    | _ => exact absurd rfl (written _)
  | path =>
    cases matchType with
    | exact =>
      have same := reads ⟨.escaped, value⟩ (List.mem_singleton_self _)
      change (urlDecode fact.path == (⟨.escaped, value⟩ : Quoted).read platform) = _
      rw [same, decoded]
      rfl
    | wildcard =>
      refine (truth_pathShape globs reads matchesBuiltIn startsBuiltIn).trans ?_
      rw [decoded]
      rfl
    | regex =>
      have same := reads ⟨.escaped, value⟩ (List.mem_singleton_self _)
      refine (truth_matches matchesBuiltIn (.field .path) ⟨.escaped, value⟩).trans ?_
      change platform.isMatch _ (urlDecode fact.path) = _
      rw [same, decoded]
      rfl
    | _ => exact absurd rfl (written _)
  | method =>
    cases matchType with
    | exact =>
      have same := reads ⟨.escaped, value⟩ (List.mem_singleton_self _)
      change (fact.method == (⟨.escaped, value⟩ : Quoted).read platform) = _
      rw [same]
      rfl
    | regex =>
      have same := reads ⟨.escaped, value⟩ (List.mem_singleton_self _)
      refine (truth_matches matchesBuiltIn (.field .method) ⟨.escaped, value⟩).trans ?_
      rw [same]
      rfl
    | _ => exact absurd rfl (written _)
  | payload =>
    cases matchType with
    | regex =>
      have same := reads ⟨.escaped, value⟩ (List.mem_singleton_self _)
      refine (truth_matches matchesBuiltIn (.field .body) ⟨.escaped, value⟩).trans ?_
      rw [same]
      rfl
    | _ => exact absurd rfl (written _)
  | header =>
    obtain ⟨⟨name, rest⟩, split⟩ := Option.ne_none_iff_exists'.mp (named rfl)
    cases matchType with
    | exact =>
      have shape : ConditionLeaf.shape ⟨.header, .exact, value, headerName, cookieName, caseSensitive, negate⟩ =
          .equals (.header ⟨.escaped, String.ofList name⟩) ⟨.escaped, String.ofList (Text.trim rest)⟩ := by
        change (match Text.splitOnce ':' value.toList with | some (name, val) => _ | none => _) = _
        rw [split]
      rw [shape] at reads ⊢
      have held := reads ⟨.escaped, String.ofList name⟩ List.mem_cons_self
      have same := reads ⟨.escaped, String.ofList (Text.trim rest)⟩ (List.mem_cons_of_mem _ List.mem_cons_self)
      change (findHeader platform fact.headers ((⟨.escaped, String.ofList name⟩ : Quoted).read platform) ==
        (⟨.escaped, String.ofList (Text.trim rest)⟩ : Quoted).read platform) = _
      rw [held, same]
      simp only [converted, split]
    | regex =>
      have shape : ConditionLeaf.shape ⟨.header, .regex, value, headerName, cookieName, caseSensitive, negate⟩ =
          .call .matches_ (.header ⟨.escaped, String.ofList (Text.trim name)⟩)
            (some ⟨.escaped, String.ofList (Text.trim rest)⟩) := by
        change (match Text.splitOnce ':' value.toList with | some (name, pattern) => _ | none => _) = _
        rw [split]
      rw [shape] at reads ⊢
      have held := reads ⟨.escaped, String.ofList (Text.trim name)⟩ List.mem_cons_self
      have same := reads ⟨.escaped, String.ofList (Text.trim rest)⟩ (List.mem_cons_of_mem _ List.mem_cons_self)
      rw [truth_matches matchesBuiltIn, same]
      change platform.isMatch _ (findHeader platform fact.headers
        ((⟨.escaped, String.ofList (Text.trim name)⟩ : Quoted).read platform)) = _
      rw [held]
      simp only [converted, split]
    | _ => exact absurd rfl (written _)
  | cookie =>
    cases matchType with
    | exact =>
      cases split : Text.splitOnce '=' value.toList with
      | none =>
        exact absurd (shape_unnamed_cookie split) (written _)
      | some parts =>
        obtain ⟨name, rest⟩ := parts
        have shape : ConditionLeaf.shape ⟨.cookie, .exact, value, headerName, cookieName, caseSensitive, negate⟩ =
            .call .contains (.header ⟨.verbatim, "Cookie"⟩)
              (some ⟨.escaped, String.ofList (Text.trim name ++ '=' :: Text.trim rest)⟩) := by
          change (match Text.splitOnce '=' value.toList with | some (name, val) => _ | none => _) = _
          rw [split]
        rw [shape] at reads ⊢
        have same := reads ⟨.escaped, String.ofList (Text.trim name ++ '=' :: Text.trim rest)⟩
          (List.mem_cons_of_mem _ List.mem_cons_self)
        rw [truth_contains containsBuiltIn, same]
        change Text.containsText (String.ofList _).toList (findHeader platform fact.headers "Cookie").toList = _
        rw [String.toList_ofList]
        simp only [converted, split]
    | _ => exact absurd rfl (written _)
  | _ => cases matchType <;> exact absurd rfl (written _)

theorem bodyText_eq (body : Option (List UInt8)) :
    bodyText body = String.ofList (Text.fromUtf8Lossy (body.getD [])) := by
  cases body <;> rfl

theorem matchValue_of_alike (same : SameRequest ctx fact) (utf8 : ∃ t, ctx.payload = Text.utf8 t) {leaf : ConditionLeaf}
    (known : Known leaf) (alike : Alike platform ctx leaf) :
    matchValue platform (subjectText leaf ctx) { leaf with caseSensitive := true } = converted platform leaf fact := by
  obtain ⟨field, matchType, value, headerName, cookieName, caseSensitive, negate⟩ := leaf
  obtain ⟨written, named⟩ := known
  cases field with
  | ip =>
    cases matchType with
    | exact => exact congrArg (· == value) same.ip.symm
    | cidr =>
      change cidrContains value ctx.ip = Text.containsText value.toList fact.clientIp.toList
      rw [same.ip, Bool.eq_iff_iff, Text.containsText_iff]
      exact alike
    | _ => exact absurd rfl (written _)
  | path =>
    cases matchType with
    | exact => exact congrArg (· == value) same.path.symm
    | wildcard =>
      change matchRecursive value.toList ctx.path.toList = pathMatches value fact.path
      rw [same.path]
      exact glob_shared alike
    | regex => exact congrArg (platform.isMatch value) same.path.symm
    | _ => exact absurd rfl (written _)
  | method =>
    cases matchType with
    | exact => exact congrArg (· == value) same.method.symm
    | regex => exact congrArg (platform.isMatch value) same.method.symm
    | _ => exact absurd rfl (written _)
  | payload =>
    cases matchType with
    | regex =>
      obtain ⟨t, bytes⟩ := utf8
      change platform.isMatch value (utf8OrEmpty ctx.payload) = platform.isMatch value (bodyText fact.body)
      rw [bodyText_eq, same.body, bytes, utf8OrEmpty_utf8, Text.fromUtf8Lossy_utf8]
    | _ => exact absurd rfl (written _)
  | header =>
    obtain ⟨⟨name, rest⟩, split⟩ := Option.ne_none_iff_exists'.mp (named rfl)
    cases matchType with
    | exact =>
      change (_ == value) = _
      simp only [converted, split, same.headers]
      rw [Bool.eq_iff_iff, beq_iff_eq, beq_iff_eq]
      exact alike name rest split
    | regex =>
      change platform.isMatch value _ = _
      simp only [converted, split, same.headers]
      exact alike name rest split
    | _ => exact absurd rfl (written _)
  | cookie =>
    cases matchType with
    | exact =>
      change (_ == value) = _
      cases split : Text.splitOnce '=' value.toList with
      | none =>
        exact absurd (shape_unnamed_cookie split) (written _)
      | some parts =>
        obtain ⟨name, rest⟩ := parts
        simp only [converted, split, same.headers]
        rw [Bool.eq_iff_iff, beq_iff_eq, Text.containsText_iff]
        exact alike name rest split
    | _ => exact absurd rfl (written _)
  | _ => cases matchType <;> exact absurd rfl (written _)

/-- The plain engine says of a leaf what the converted one asks, unless a negation or a difference in case gets lost, or
both at once. -/
theorem evalLeaf_eq_iff (same : SameRequest ctx fact) (utf8 : ∃ t, ctx.payload = Text.utf8 t) {leaf : ConditionLeaf}
    (known : Known leaf) (alike : Alike platform ctx leaf) :
    evalLeaf platform leaf ctx = converted platform leaf fact ↔
      (leaf.negate = false ↔ matchValue platform (subjectText leaf ctx) leaf =
        matchValue platform (subjectText leaf ctx) { leaf with caseSensitive := true }) := by
  rw [evalLeaf_eq platform fun _ => utf8, ← matchValue_of_alike same utf8 known alike]
  cases leaf.negate with
  | false => simp
  | true => simp [Bool.eq_not]

theorem evalLeaf_of_agreed (same : SameRequest ctx fact) (utf8 : ∃ t, ctx.payload = Text.utf8 t) {leaf : ConditionLeaf}
    (known : Known leaf) (agreed : Agreed platform ctx leaf) :
    evalLeaf platform leaf ctx = converted platform leaf fact :=
  (evalLeaf_eq_iff same utf8 known agreed.alike).mpr ⟨fun _ => agreed.caseless, fun _ => agreed.plainly⟩

-- Conditions

theorem truth_shape {wm : WorkingMemory} {node : ConditionNode} (kept : Kept platform node.shape) :
    (node.holds fun leaf => truth platform wm (leaf.shape.expr platform)) =
      truth platform wm (node.shape.expr platform) := by
  induction node using ConditionNode.byNodes with
  | and children ih =>
    have whole : (ConditionNode.and children).shape = .all (children.map ConditionNode.shape) := by
      rw [ConditionNode.shape, ConditionNode.shapes_eq_map]
    rw [whole] at kept ⊢
    rw [ConditionNode.holds, ConditionNode.holdsAll_eq]
    exact truth_conjunction kept ih
  | or children ih =>
    have whole : (ConditionNode.or children).shape = .any (children.map ConditionNode.shape) := by
      rw [ConditionNode.shape, ConditionNode.shapes_eq_map]
    rw [whole] at kept ⊢
    rw [ConditionNode.holds, ConditionNode.holdsAny_eq]
    exact truth_disjunction kept ih
  | leaf l => rfl

theorem kept_leaves {node : ConditionNode} (kept : Kept platform node.shape) :
    ∀ leaf ∈ node.leaves, Kept platform leaf.shape := by
  induction node using ConditionNode.byNodes with
  | and children ih =>
    intro leaf member
    rw [ConditionNode.leaves, ConditionNode.leavesOf_eq_flatMap] at member
    obtain ⟨c, inNodes, inNode⟩ := List.mem_flatMap.mp member
    rw [ConditionNode.shape, ConditionNode.shapes_eq_map] at kept
    exact ih c inNodes (kept.all_parts.2 _ (List.mem_map_of_mem inNodes)) leaf inNode
  | or children ih =>
    intro leaf member
    rw [ConditionNode.leaves, ConditionNode.leavesOf_eq_flatMap] at member
    obtain ⟨c, inNodes, inNode⟩ := List.mem_flatMap.mp member
    rw [ConditionNode.shape, ConditionNode.shapes_eq_map] at kept
    exact ih c inNodes (kept.any_parts.2 _ (List.mem_map_of_mem inNodes)) leaf inNode
  | leaf l =>
    intro leaf member
    obtain rfl := List.mem_singleton.mp member
    exact kept

/-- A condition of leaves that the converter knows becomes its reading, and the plain engine says the same where
each leaf is agreed. Of a single leaf whose comparison comes out alike it says the same exactly if neither a negation
nor a difference in case gets lost, or both do. -/
theorem conversion_agrees (globs : GlobRegex platform) (matchesBuiltIn : registry.fns "matches" = none)
    (containsBuiltIn : registry.fns "contains" = none) (startsBuiltIn : registry.fns "starts_with" = none)
    (same : SameRequest ctx fact) (unescaped : '%' ∉ fact.path.toList) (utf8 : ∃ t, ctx.payload = Text.utf8 t)
    {node : ConditionNode} (known : ∀ leaf ∈ node.leaves, Known leaf) (kept : Kept platform node.shape) :
    ∃ e, conditionExpr platform node.yaml = some e ∧
      truth platform (.new fact registry) e = node.holds (converted platform · fact) ∧
      ((∀ leaf ∈ node.leaves, Agreed platform ctx leaf) →
        evalNode platform node ctx = truth platform (.new fact registry) e) ∧
      ∀ leaf, node = .leaf leaf → Alike platform ctx leaf →
        (evalNode platform node ctx = truth platform (.new fact registry) e ↔
          (leaf.negate = false ↔ matchValue platform (subjectText leaf ctx) leaf =
            matchValue platform (subjectText leaf ctx) { leaf with caseSensitive := true })) := by
  have reading : truth platform (.new fact registry) (node.shape.expr platform) =
      node.holds (converted platform · fact) := by
    rw [← truth_shape kept]
    apply ConditionNode.holds_congr
    intro leaf member
    exact truth_leaf globs unescaped matchesBuiltIn containsBuiltIn startsBuiltIn (known leaf member)
      (kept_leaves kept leaf member)
  refine ⟨node.shape.expr platform, conditionExpr_eq node.condShape_yaml kept.clean, reading, ?_, ?_⟩
  · intro agreed
    rw [reading, evalNode_eq_holds]
    apply ConditionNode.holds_congr
    intro leaf member
    exact evalLeaf_of_agreed same utf8 (known leaf member) (agreed leaf member)
  · rintro leaf rfl alike
    rw [reading]
    exact evalLeaf_eq_iff same utf8 (known leaf (List.mem_singleton_self leaf)) alike

end

def pathFact (path : String) : MiniWaf.RequestContext :=
  { MiniWaf.RequestContext.bare "GET" path with clientIp := "10.0.0.1" }

theorem pathFact_same (path : String) : SameRequest (pathRequest path) (pathFact path) := ⟨rfl, rfl, rfl, rfl, rfl⟩

def pathLeaf (matchType : MatchType) (value : String) : ConditionLeaf := ⟨.path, matchType, value, none, none, true, false⟩

def apiCondition : ConditionNode :=
  .and [.leaf (pathLeaf .wildcard "/api/*"),
    .or [.leaf ⟨.ip, .exact, "10.0.0.1", none, none, true, false⟩, .leaf (pathLeaf .exact "/api/status")]]

theorem equals_ne_never (left : Operand) (right : Quoted) (note : Text) : Shape.equals left right ≠ .never note := by
  intro same
  cases same

theorem pathShape_ne_never (p : String) (note : Text) : pathShape p ≠ .never note := by
  unfold pathShape
  intro same
  split at same
  · cases same
  · split at same
    · cases same
    · split at same <;> cases same

theorem known_of_field {leaf : ConditionLeaf} (written : ∀ note, leaf.shape ≠ .never note)
    (notHeader : leaf.field ≠ .header) : Known leaf := ⟨written, fun isHeader => absurd isHeader notHeader⟩

theorem conversion_agrees_api :
    ∃ e, conditionExpr globPlatform apiCondition.yaml = some e ∧
      truth globPlatform (.new (pathFact "/api/users") .new) e =
        apiCondition.holds (converted globPlatform · (pathFact "/api/users")) ∧
      evalNode globPlatform apiCondition (pathRequest "/api/users") =
        truth globPlatform (.new (pathFact "/api/users") .new) e := by
  have leaves : ∀ leaf ∈ apiCondition.leaves, leaf = pathLeaf .wildcard "/api/*" ∨
      leaf = ⟨.ip, .exact, "10.0.0.1", none, none, true, false⟩ ∨ leaf = pathLeaf .exact "/api/status" := by
    simp [apiCondition, ConditionNode.leaves, ConditionNode.leavesOf]
  have plain : NoWildcard "/api".toList := by
    constructor <;> decide +kernel
  have shared : GlobShared "/api/*" "/api/users" := by
    have one : Text.stripSuffix "/*".toList "/api/*".toList = some "/api".toList := by decide +kernel
    have segment : oneSegment "/api".toList "/api/users" = true := by decide +kernel
    rw [GlobShared, if_neg (by decide), if_neg (by decide), one]
    exact ⟨plain, fun _ => segment⟩
  have known : ∀ leaf ∈ apiCondition.leaves, Known leaf := by
    intro leaf member
    rcases leaves leaf member with rfl | rfl | rfl
    · exact known_of_field (pathShape_ne_never "/api/*") (by decide)
    · exact known_of_field (equals_ne_never _ _) (by decide)
    · exact known_of_field (equals_ne_never _ _) (by decide)
  have kept : Kept globPlatform apiCondition.shape := by
    constructor <;> decide +kernel
  obtain ⟨e, converts, reading, agrees, -⟩ : ∃ e, conditionExpr globPlatform apiCondition.yaml = some e ∧
      truth globPlatform (.new (pathFact "/api/users") .new) e =
        apiCondition.holds (converted globPlatform · (pathFact "/api/users")) ∧
      (_ → _ = truth globPlatform _ e) ∧ _ :=
    conversion_agrees globPlatform_globs rfl rfl rfl (pathFact_same "/api/users") (by decide +kernel) ⟨[], rfl⟩
      known kept
  refine ⟨e, converts, reading, agrees ?_⟩
  intro leaf member
  rcases leaves leaf member with rfl | rfl | rfl
  · exact ⟨rfl, rfl, shared⟩
  · exact ⟨rfl, rfl, trivial⟩
  · exact ⟨rfl, rfl, trivial⟩

def convertedTruth (node : ConditionNode) (fact : MiniWaf.RequestContext) : Option Bool :=
  (conditionExpr .plain node.yaml).map (truth .plain (.new fact .new))

/-- The converter drops a negation, and the case of letters it should not mind. -/
theorem conversion_disagrees :
    (∀ leaf : ConditionLeaf, leaf.field = .path → leaf.matchType = .exact → Known leaf) ∧
      SameRequest (pathRequest "/admin") (pathFact "/admin") ∧
      (evalNode .plain (.leaf { pathLeaf .exact "/home" with negate := true }) (pathRequest "/admin") = true ∧
        convertedTruth (.leaf { pathLeaf .exact "/home" with negate := true }) (pathFact "/admin") = some false) ∧
      evalNode .plain (.leaf { pathLeaf .exact "/ADMIN" with caseSensitive := false }) (pathRequest "/admin") = true ∧
        convertedTruth (.leaf { pathLeaf .exact "/ADMIN" with caseSensitive := false }) (pathFact "/admin") = some false := by
  refine ⟨?_, pathFact_same "/admin", ⟨by decide +kernel, by decide +kernel⟩, by decide +kernel, by decide +kernel⟩
  rintro ⟨field, matchType, value, headerName, cookieName, caseSensitive, negate⟩ rfl rfl
  have notHeader : Field.path ≠ .header := by decide
  exact known_of_field (equals_ne_never _ _) notHeader

end MiniWaf.Plain
