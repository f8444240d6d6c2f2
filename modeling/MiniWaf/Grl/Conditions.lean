import MiniWaf.Grl.Shape

/-! The conditions the converter writes: each of its functions on conditions is the
text of a function into shapes.
-/

set_option autoImplicit false

namespace MiniWaf.Grl

open Yaml

namespace Name

def clientIp : Name := ⟨"ClientIp", by decide, by decide⟩
def path : Name := ⟨"Path", by decide, by decide⟩
def method : Name := ⟨"Method", by decide, by decide⟩
def tier : Name := ⟨"Tier", by decide, by decide⟩
def query : Name := ⟨"Query", by decide, by decide⟩
def body : Name := ⟨"Body", by decide, by decide⟩

def matches_ : Name := ⟨"matches", by decide, by decide⟩
def contains : Name := ⟨"contains", by decide, by decide⟩
def startsWith : Name := ⟨"starts_with", by decide, by decide⟩
def hasHeader : Name := ⟨"has_header", by decide, by decide⟩
def ipInBlacklist : Name := ⟨"ip_in_blacklist", by decide, by decide⟩
def ipInWhitelist : Name := ⟨"ip_in_whitelist", by decide, by decide⟩
def containsSqli : Name := ⟨"contains_sqli", by decide, by decide⟩
def containsXss : Name := ⟨"contains_xss", by decide, by decide⟩
def containsPathTraversal : Name := ⟨"contains_path_traversal", by decide, by decide⟩
def containsHeaderInjection : Name := ⟨"contains_header_injection", by decide, by decide⟩

def block : Name := ⟨"block", by decide, by decide⟩
def challenge : Name := ⟨"challenge", by decide, by decide⟩
def rateLimit : Name := ⟨"rate_limit", by decide, by decide⟩
def allow : Name := ⟨"allow", by decide, by decide⟩
def log : Name := ⟨"log", by decide, by decide⟩

end Name

def fieldEquals (field : Name) (right : Quoted) : Shape := .equals (.field field) right

def fieldCall (fn field : Name) (value : Quoted) : Shape := .call fn (.field field) (some value)

def pathShape (p : String) : Shape :=
  if p = "/**" ∨ p = "**" then .always true
  else
    match Text.stripSuffix "/*".toList p.toList with
    | some pre =>
      fieldCall .matches_ .path ⟨.verbatim, String.ofList ('^' :: regexEscape pre ++ "/[^/]+$".toList)⟩
    | none =>
      match Text.stripSuffix "/**".toList p.toList with
      | some pre => fieldCall .startsWith .path ⟨.debug, String.ofList (pre ++ ['/'])⟩
      | none => fieldEquals .path ⟨.debug, p⟩

def note (before : String) (value : Text) : Shape := .never (' ' :: (before.toList ++ value ++ [' ']))

def fieldMatchShape (field matchType value : String) : Shape :=
  match field, matchType with
  | "ip", "exact" => fieldEquals .clientIp ⟨.escaped, value⟩
  | "ip", "cidr" => fieldCall .contains .clientIp ⟨.escaped, value⟩
  | "path", "exact" => fieldEquals .path ⟨.escaped, value⟩
  | "path", "wildcard" => pathShape value
  | "path", "regex" => fieldCall .matches_ .path ⟨.escaped, value⟩
  | "method", "exact" => fieldEquals .method ⟨.escaped, value⟩
  | "method", "regex" => fieldCall .matches_ .method ⟨.escaped, value⟩
  | "header", "exact" =>
    match Text.splitOnce ':' value.toList with
    | some (name, val) =>
      .equals (.header ⟨.escaped, String.ofList name⟩) ⟨.escaped, String.ofList (Text.trim val)⟩
    | none => .call .hasHeader .request (some ⟨.escaped, value⟩)
  | "header", "regex" =>
    match Text.splitOnce ':' value.toList with
    | some (name, pattern) =>
      .call .matches_ (.header ⟨.escaped, String.ofList (Text.trim name)⟩)
        (some ⟨.escaped, String.ofList (Text.trim pattern)⟩)
    | none => note "invalid header regex: " value.toList
  | "payload", "regex" => fieldCall .matches_ .body ⟨.escaped, value⟩
  | "payload", "contains" => fieldCall .contains .body ⟨.escaped, value⟩
  | "cookie", "exact" =>
    match Text.splitOnce '=' value.toList with
    | some (name, val) =>
      .call .contains (.header ⟨.verbatim, "Cookie"⟩)
        (some ⟨.escaped, String.ofList (Text.trim name ++ '=' :: Text.trim val)⟩)
    | none => note "invalid cookie: " value.toList
  | f, m => note "unknown field/match: " (f.toList ++ '/' :: m.toList)

def newLeafShape (entries : List (Yaml × Yaml)) : Except String Shape :=
  match strAt "field" entries with
  | none => .error "missing field"
  | some field =>
    match strAt "match" entries with
    | none => .error "missing match"
    | some matchType => .ok (fieldMatchShape field matchType (strOrEmpty "value" entries))

mutual
def newCondShape : Yaml → Except String Shape
  | .mapping entries =>
    match newShapesAt "and" entries with
    | some parts => parts.map .all
    | none =>
      match newShapesAt "or" entries with
      | some parts => parts.map .any
      | none => newLeafShape entries
  | .tagged _ c => newCondShape c
  | _ => .error "not a map"

def newShapesAt (key : String) : List (Yaml × Yaml) → Option (Except String (List Shape))
  | [] => none
  | (k, v) :: rest => if isKey key k then newShapesOf v else newShapesAt key rest

def newShapesOf : Yaml → Option (Except String (List Shape))
  | .sequence items => some (newShapes items)
  | .tagged _ v => newShapesOf v
  | _ => none

def newShapes : List Yaml → Except String (List Shape)
  | [] => .ok []
  | c :: rest => do
    let part ← newCondShape c
    let parts ← newShapes rest
    pure (part :: parts)
end

def legacyLeafShape (kind : String) (entries : List (Yaml × Yaml)) : Shape :=
  match kind with
  | "ip_exact" => fieldEquals .clientIp ⟨.debug, strOrEmpty "value" entries⟩
  | "ip_in_blacklist" => .call .ipInBlacklist (.field .clientIp) none
  | "ip_in_whitelist" => .call .ipInWhitelist (.field .clientIp) none
  | "path_exact" => fieldEquals .path ⟨.debug, strOrEmpty "value" entries⟩
  | "path_wildcard" => pathShape (strOrEmpty "pattern" entries)
  | "path_regex" => fieldCall .matches_ .path ⟨.debug, strOrEmpty "pattern" entries⟩
  | "header_exact" =>
    .equals (.header ⟨.debug, strOrEmpty "name" entries⟩) ⟨.debug, strOrEmpty "value" entries⟩
  | "header_regex" =>
    .call .matches_ (.header ⟨.debug, strOrEmpty "name" entries⟩) (some ⟨.debug, strOrEmpty "pattern" entries⟩)
  | "payload_regex" =>
    let p : Quoted := ⟨.debug, strOrEmpty "pattern" entries⟩
    .any [fieldCall .matches_ .body p, fieldCall .matches_ .query p]
  | "cookie_exact" =>
    .call .contains (.header ⟨.verbatim, "Cookie"⟩)
      (some ⟨.debug, strOrEmpty "name" entries ++ "=" ++ strOrEmpty "value" entries⟩)
  | "rate_limit_exceeded" => .always false
  | "sqli_pattern" => .any [.call .containsSqli (.field .query) none, .call .containsSqli (.field .body) none]
  | "xss_pattern" => .any [.call .containsXss (.field .query) none, .call .containsXss (.field .body) none]
  | "path_traversal_pattern" => .call .containsPathTraversal (.field .path) none
  | "ssrf_pattern" =>
    .any [fieldCall .contains .query ⟨.verbatim, "http://"⟩, fieldCall .contains .query ⟨.verbatim, "file://"⟩,
      fieldCall .contains .query ⟨.verbatim, "169.254.169.254"⟩]
  | "header_injection_pattern" =>
    .any [.call .containsHeaderInjection (.field .path) none, .call .containsHeaderInjection (.field .query) none]
  | other => note "unknown condition: " other.toList

mutual
def condShape : Yaml → Except String Shape
  | .mapping entries =>
    match newCondShape (.mapping entries) with
    | .ok shape => .ok shape
    | .error _ =>
      match strAt "type" entries with
      | none => .error "condition missing type and not field/match/value"
      | some "and" => (shapesAt "conditions" entries).map .all
      | some "or" => (shapesAt "conditions" entries).map .any
      | some "not" => (innerShapeAt "condition" entries).map .negate
      | some kind => .ok (legacyLeafShape kind entries)
  | .tagged _ c => condShape c
  | _ => .error "condition must be a map"

def shapesAt (key : String) : List (Yaml × Yaml) → Except String (List Shape)
  | [] => .error "expected list of conditions"
  | (k, v) :: rest => if isKey key k then shapesOf v else shapesAt key rest

def shapesOf : Yaml → Except String (List Shape)
  | .sequence items => shapes items
  | .tagged _ v => shapesOf v
  | _ => .error "expected list of conditions"

def shapes : List Yaml → Except String (List Shape)
  | [] => .ok []
  | c :: rest => do
    let part ← condShape c
    let more ← shapes rest
    pure (part :: more)

def innerShapeAt (key : String) : List (Yaml × Yaml) → Except String Shape
  | [] => .error "not: missing condition"
  | (k, v) :: rest => if isKey key k then condShape v else innerShapeAt key rest
end

section
variable {platform : Platform}

theorem debug_eq (s : String) : platform.debug s = (⟨.debug, s⟩ : Quoted).text platform := rfl

theorem text_verbatim (s : String) : (⟨.verbatim, s⟩ : Quoted).text platform = '"' :: s.toList ++ ['"'] := rfl

theorem grlStringLiteral_eq (s : String) : grlStringLiteral s = (⟨.escaped, s⟩ : Quoted).text platform := rfl

theorem text_fieldEquals (field : Name) (right : Quoted) : (fieldEquals field right).text platform =
    "Request".toList ++ '.' :: field.word.toList ++ [' ', '=', '=', ' '] ++ right.text platform := by
  rw [fieldEquals, Shape.text_equals, Operand.text_field]
  simp

theorem text_fieldCall (fn field : Name) (value : Quoted) : (fieldCall fn field value).text platform =
    fn.word.toList ++ '(' :: ("Request".toList ++ '.' :: field.word.toList ++ [',', ' '] ++ value.text platform) ++
      [')'] := by
  rw [fieldCall, Shape.text_call_some, Operand.text_field]

theorem pathMatchGrl_eq (p : String) : pathMatchGrl platform p = (pathShape p).text platform := by
  rw [pathMatchGrl, pathShape]
  by_cases everything : p = "/**" ∨ p = "**"
  · rw [if_pos everything, if_pos everything]
    rfl
  · rw [if_neg everything, if_neg everything]
    cases Text.stripSuffix "/*".toList p.toList with
    | some pre =>
      simp only [text_fieldCall]
      simp [Name.matches_, Name.path, Quoted.text, Quoted.body, quoted]
    | none =>
      cases Text.stripSuffix "/**".toList p.toList with
      | some pre =>
        simp only [text_fieldCall, debug_eq]
        simp [Name.startsWith, Name.path]
      | none =>
        simp only [text_fieldEquals, debug_eq]
        simp [Name.path]

theorem text_note (before : String) (value : Text) : (note before value).text platform =
    "false".toList ++ ' ' :: '/' :: '*' :: ' ' :: (before.toList ++ value ++ [' ', '*', '/']) := by
  rw [note, Shape.text_never]
  simp

theorem text_header_equals (name value : Quoted) : (Shape.equals (.header name) value).text platform =
    "Request".toList ++ ('.' :: "Headers".toList ++ ('[' :: name.text platform ++ [']', ' ', '=', '=', ' '])) ++
      value.text platform := by
  rw [Shape.text_equals, Operand.text_header]
  simp

theorem text_header_call (fn : Name) (name value : Quoted) :
    (Shape.call fn (.header name) (some value)).text platform =
      fn.word.toList ++ '(' :: ("Request".toList ++ ('.' :: "Headers".toList ++ ('[' :: name.text platform ++
        [']', ',', ' '])) ++ value.text platform) ++ [')'] := by
  rw [Shape.text_call_some, Operand.text_header]
  simp

theorem fieldMatchToGrl_eq (field matchType value : String) :
    fieldMatchToGrl platform field matchType value = (fieldMatchShape field matchType value).text platform := by
  have literal : ∀ s, grlStringLiteral s = (⟨.escaped, s⟩ : Quoted).text platform := grlStringLiteral_eq
  unfold fieldMatchToGrl
  split
  case h_8 =>
    simp only [fieldMatchShape]
    cases Text.splitOnce ':' value.toList with
    | some parts =>
      simp only [text_header_equals, literal]
      simp
    | none =>
      simp only [Shape.text_call_some, Operand.text_request, literal]
      simp [Name.hasHeader]
  case h_9 =>
    simp only [fieldMatchShape]
    cases Text.splitOnce ':' value.toList with
    | some parts =>
      simp only [text_header_call, literal]
      simp [Name.matches_]
    | none =>
      simp only [text_note]
      simp
  case h_12 =>
    simp only [fieldMatchShape]
    cases Text.splitOnce '=' value.toList with
    | some parts =>
      simp only [text_header_call, text_verbatim, literal]
      simp [Name.contains]
    | none =>
      simp only [text_note]
      simp
  case h_4 => exact pathMatchGrl_eq value
  case h_13 =>
    rw [fieldMatchShape.eq_13 _ _ _ (by assumption) (by assumption) (by assumption) (by assumption) (by assumption)
      (by assumption) (by assumption) (by assumption) (by assumption) (by assumption) (by assumption) (by assumption)]
    simp only [text_note]
    simp
  all_goals
    simp only [fieldMatchShape, text_fieldEquals, text_fieldCall, literal]
    simp [Name.clientIp, Name.path, Name.method, Name.body, Name.matches_, Name.contains]

theorem newLeafToGrl_eq (entries : List (Yaml × Yaml)) :
    newLeafToGrl platform entries = (newLeafShape entries).map (Shape.text platform) := by
  unfold newLeafToGrl newLeafShape
  cases strAt "field" entries with
  | none => rfl
  | some field =>
    cases strAt "match" entries with
    | none => rfl
    | some matchType => exact congrArg Except.ok (fieldMatchToGrl_eq _ _ _)

theorem text_any_pair (first second : Shape) : (Shape.any [first, second]).text platform =
    '(' :: (first.text platform ++ [' ', '|', '|', ' '] ++ second.text platform) ++ [')'] := rfl

theorem text_field_call (fn field : Name) : (Shape.call fn (.field field) none).text platform =
    fn.word.toList ++ '(' :: ("Request".toList ++ '.' :: field.word.toList) ++ [')'] := by
  rw [Shape.text_call_none, Operand.text_field]

theorem legacyLeafToGrl_eq (kind : String) (entries : List (Yaml × Yaml)) :
    legacyLeafToGrl platform kind entries = (legacyLeafShape kind entries).text platform := by
  have literal : ∀ s, platform.debug s = (⟨.debug, s⟩ : Quoted).text platform := debug_eq
  unfold legacyLeafToGrl
  split
  case h_5 => exact pathMatchGrl_eq _
  case h_7 =>
    simp only [legacyLeafShape, text_header_equals, literal]
    simp
  case h_8 =>
    simp only [legacyLeafShape, text_header_call, literal]
    simp [Name.matches_]
  case h_9 =>
    simp only [legacyLeafShape, text_any_pair, text_fieldCall, literal]
    simp [Name.matches_, Name.body, Name.query]
  case h_10 =>
    simp only [legacyLeafShape, text_header_call, text_verbatim, literal]
    simp [Name.contains]
  case h_11 => rfl
  case h_15 =>
    have triple : ∀ a b c : Shape, (Shape.any [a, b, c]).text platform = '(' :: (a.text platform ++
      [' ', '|', '|', ' '] ++ (b.text platform ++ [' ', '|', '|', ' '] ++ c.text platform)) ++ [')'] :=
      fun _ _ _ => rfl
    simp only [legacyLeafShape, triple, text_fieldCall, text_verbatim]
    simp [Name.contains, Name.query]
  case h_17 =>
    rw [legacyLeafShape.eq_17 _ _ (by assumption) (by assumption) (by assumption) (by assumption) (by assumption)
      (by assumption) (by assumption) (by assumption) (by assumption) (by assumption) (by assumption) (by assumption)
      (by assumption) (by assumption) (by assumption) (by assumption)]
    simp only [text_note]
    simp
  all_goals
    simp only [legacyLeafShape, text_fieldEquals, text_fieldCall, text_any_pair, text_field_call, literal]
    simp [Name.clientIp, Name.path, Name.query, Name.body, Name.matches_, Name.ipInBlacklist, Name.ipInWhitelist,
      Name.containsSqli, Name.containsXss, Name.containsPathTraversal, Name.containsHeaderInjection]

theorem map_all (parts : Except String (List Shape)) :
    (parts.map (Shape.texts platform)).map (joinParts " && ".toList) = (parts.map Shape.all).map (Shape.text platform) := by
  cases parts <;> rfl

theorem map_any (parts : Except String (List Shape)) :
    (parts.map (Shape.texts platform)).map (joinParts " || ".toList) = (parts.map Shape.any).map (Shape.text platform) := by
  cases parts <;> rfl

theorem map_cons (head : Except String Shape) (tail : Except String (List Shape)) :
    (do let part ← head.map (Shape.text platform); let more ← tail.map (Shape.texts platform); pure (part :: more)) =
      (do let part ← head; let more ← tail; pure (part :: more) : Except String (List Shape)).map
        (Shape.texts platform) := by
  cases head <;> cases tail <;> rfl

mutual
theorem newCondToGrl_eq : (c : Yaml) → newCondToGrl platform c = (newCondShape c).map (Shape.text platform)
  | .mapping entries => by
    rw [newCondToGrl, newCondShape, newPartsAt_eq "and" entries, newPartsAt_eq "or" entries]
    cases newShapesAt "and" entries with
    | some parts => exact map_all parts
    | none =>
      cases newShapesAt "or" entries with
      | some parts => exact map_any parts
      | none => exact newLeafToGrl_eq entries
  | .tagged _ c => newCondToGrl_eq c
  | .null => rfl
  | .bool _ => rfl
  | .number _ => rfl
  | .string _ => rfl
  | .sequence _ => rfl

theorem newPartsAt_eq (key : String) : (entries : List (Yaml × Yaml)) →
    newPartsAt platform key entries = (newShapesAt key entries).map (Except.map (Shape.texts platform))
  | [] => rfl
  | (k, v) :: rest => by
    rw [newPartsAt, newShapesAt]
    split
    · exact newPartsOf_eq v
    · exact newPartsAt_eq key rest

theorem newPartsOf_eq : (v : Yaml) →
    newPartsOf platform v = (newShapesOf v).map (Except.map (Shape.texts platform))
  | .sequence items => congrArg some (newParts_eq items)
  | .tagged _ v => newPartsOf_eq v
  | .null => rfl
  | .bool _ => rfl
  | .number _ => rfl
  | .string _ => rfl
  | .mapping _ => rfl

theorem newParts_eq : (items : List Yaml) →
    newParts platform items = (newShapes items).map (Shape.texts platform)
  | [] => rfl
  | c :: rest => by
    rw [newParts, newShapes, newCondToGrl_eq c, newParts_eq rest]
    exact map_cons _ _
end

theorem kind_cases (kind : Option String) : kind = none ∨ kind = some "and" ∨ kind = some "or" ∨ kind = some "not" ∨
    ∃ leaf, kind = some leaf ∧ leaf ≠ "and" ∧ leaf ≠ "or" ∧ leaf ≠ "not" := by
  cases kind with
  | none => exact Or.inl rfl
  | some kind =>
    by_cases isAnd : kind = "and"
    · simp [isAnd]
    · by_cases isOr : kind = "or"
      · simp [isOr]
      · by_cases isNot : kind = "not"
        · simp [isNot]
        · simp [isAnd, isOr, isNot]

mutual
theorem condToGrl_eq : (c : Yaml) → condToGrl platform c = (condShape c).map (Shape.text platform)
  | .mapping entries => by
    rw [condToGrl, condShape, newCondToGrl_eq]
    cases newCondShape (.mapping entries) with
    | ok shape => rfl
    | error message =>
      generalize strAt "type" entries = kind
      rw [partsAt_eq "conditions" entries, innerAt_eq "condition" entries]
      dsimp only [Except.map]
      obtain rfl | rfl | rfl | rfl | ⟨leaf, rfl, notAnd, notOr, notNot⟩ := kind_cases kind
      · rfl
      · exact map_all _
      · exact map_any _
      · cases innerShapeAt "condition" entries <;> rfl
      · simp only [legacyLeafToGrl_eq]
  | .tagged _ c => condToGrl_eq c
  | .null => rfl
  | .bool _ => rfl
  | .number _ => rfl
  | .string _ => rfl
  | .sequence _ => rfl

theorem partsAt_eq (key : String) : (entries : List (Yaml × Yaml)) →
    partsAt platform key entries = (shapesAt key entries).map (Shape.texts platform)
  | [] => rfl
  | (k, v) :: rest => by
    rw [partsAt, shapesAt]
    split
    · exact partsOf_eq v
    · exact partsAt_eq key rest

theorem partsOf_eq : (v : Yaml) → partsOf platform v = (shapesOf v).map (Shape.texts platform)
  | .sequence items => parts_eq items
  | .tagged _ v => partsOf_eq v
  | .null => rfl
  | .bool _ => rfl
  | .number _ => rfl
  | .string _ => rfl
  | .mapping _ => rfl

theorem parts_eq : (items : List Yaml) → parts platform items = (shapes items).map (Shape.texts platform)
  | [] => rfl
  | c :: rest => by
    rw [parts, shapes, condToGrl_eq c, parts_eq rest]
    exact map_cons _ _

theorem innerAt_eq (key : String) : (entries : List (Yaml × Yaml)) →
    innerAt platform key entries = (innerShapeAt key entries).map (Shape.text platform)
  | [] => rfl
  | (k, v) :: rest => by
    rw [innerAt, innerShapeAt]
    split
    · exact condToGrl_eq v
    · exact innerAt_eq key rest
end

end

end MiniWaf.Grl
