import MiniWaf.Grl.Conditions

/-! The rules and documents the converter writes, and what the parser makes of them. -/

set_option autoImplicit false

namespace MiniWaf.Grl

open Yaml

def scopeShape (scope : Option Yaml) : Option Shape :=
  match scope with
  | none => none
  | some scope =>
    match scope.asStr with
    | some s => if s = "global" then none else some (fieldEquals .tier ⟨.debug, s⟩)
    | none =>
      match scope.asMapping with
      | none => none
      | some map =>
        match strAt "type" map with
        | some "global" => none
        | some "tier" => (strAt "tier" map).map fun tier => fieldEquals .tier ⟨.debug, tier⟩
        | some "route_pattern" => (strAt "pattern" map).map pathShape
        | some "ip" => (strAt "ip" map).map fun ip => fieldEquals .clientIp ⟨.debug, ip⟩
        | _ => none

def actionCall (action : String) (id : String) : Name × Option Arg :=
  match action with
  | "block" => (.block, some (.string ⟨.debug, id⟩))
  | "challenge" => (.challenge, some (.string ⟨.verbatim, "js"⟩))
  | "rate_limit" => (.rateLimit, some (.int 60))
  | "allow" => (.allow, none)
  | "log" => (.log, some (.string ⟨.debug, id⟩))
  | other => (.log, some (.string ⟨.verbatim, "unknown_action:" ++ other⟩))

def routeCall (backend : String) : Name × Option Arg := (.log, some (.string ⟨.verbatim, "route:" ++ backend⟩))

def ruleShape (v : Yaml) : Except String RuleShape :=
  match (v.get "id").bind asStr with
  | none => .error "missing id"
  | some id =>
    match v.get "condition" with
    | none => .error "missing condition"
    | some condition =>
      (condShape condition).map fun condition =>
        { id
          salience := ruleSalience v
          guard := scopeShape (v.get "scope")
          condition
          delta := ((v.get "risk_score_delta").bind asI64).getD 0
          calls := (ruleUpstream v).toList.map routeCall ++
            [actionCall (((v.get "action").bind asStr).getD "log") id] }

section
variable {platform : Platform}

theorem scopeToGrl_eq (scope : Option Yaml) :
    scopeToGrl platform scope = (scopeShape scope).map (Shape.text platform) := by
  have tierText : ∀ s, "Request.Tier == ".toList ++ platform.debug s =
      (fieldEquals .tier ⟨.debug, s⟩).text platform := by
    intro s
    rw [text_fieldEquals, debug_eq]
    simp [Name.tier]
  have ipText : ∀ s, "Request.ClientIp == ".toList ++ platform.debug s =
      (fieldEquals .clientIp ⟨.debug, s⟩).text platform := by
    intro s
    rw [text_fieldEquals, debug_eq]
    simp [Name.clientIp]
  unfold scopeToGrl scopeShape
  cases scope with
  | none => rfl
  | some scope =>
    dsimp only
    cases scope.asStr with
    | some s =>
      dsimp only
      split
      · rfl
      · rw [tierText]
        rfl
    | none =>
      dsimp only
      cases scope.asMapping with
      | none => rfl
      | some map =>
        dsimp only
        generalize strAt "type" map = kind
        split
        case h_1 => rfl
        case h_2 =>
          simp only [tierText, Option.map_map]
          rfl
        case h_3 =>
          simp only [Option.map_map, Function.comp_def]
          exact congrArg (fun f => Option.map f (strAt "pattern" map)) (funext pathMatchGrl_eq)
        case h_4 =>
          simp only [ipText, Option.map_map]
          rfl
        case h_5 => simp_all

theorem stmtLine_call_none (fn : Name) :
    stmtLine (callStmtText platform (fn, none)) =
      ' ' :: ' ' :: ' ' :: ' ' :: (fn.word.toList ++ ['(', ')', ';', '\n']) := by
  simp [stmtLine, callStmtText, callText, argTexts]

theorem stmtLine_call_some (fn : Name) (arg : Arg) :
    stmtLine (callStmtText platform (fn, some arg)) =
      ' ' :: ' ' :: ' ' :: ' ' :: (fn.word.toList ++ '(' :: (arg.text platform ++ [')', ';', '\n'])) := by
  simp [stmtLine, callStmtText, callText, argTexts]

theorem text_string_debug (s : String) : (Arg.string ⟨.debug, s⟩).text platform = platform.debug s := rfl

theorem text_string_verbatim (s : String) :
    (Arg.string ⟨.verbatim, s⟩).text platform = '"' :: s.toList ++ ['"'] := rfl

theorem actionStmt_eq (action id : String) :
    actionStmt platform action id = stmtLine (callStmtText platform (actionCall action id)) := by
  unfold actionStmt
  split
  case h_3 =>
    rw [actionCall, stmtLine_call_some]
    rfl
  case h_4 =>
    rw [actionCall, stmtLine_call_none]
    rfl
  case h_6 =>
    rw [actionCall.eq_6 _ _ (by assumption) (by assumption) (by assumption) (by assumption) (by assumption),
      stmtLine_call_some, text_string_verbatim]
    simp [Name.log]
  all_goals
    simp only [actionCall, stmtLine_call_some, text_string_debug, text_string_verbatim]
    simp [Name.block, Name.challenge, Name.log]

theorem routeStmt_eq (backend : String) : "    log(\"route:".toList ++ backend.toList ++ "\");\n".toList =
    stmtLine (callStmtText platform (routeCall backend)) := by
  rw [routeCall, stmtLine_call_some, text_string_verbatim]
  simp [Name.log]

theorem riskStmt_eq (delta : Int64) :
    "    Request.RiskScore = Request.RiskScore + ".toList ++ Text.ofInt delta.toInt ++ ";\n".toList =
      stmtLine (riskText delta) := by
  rw [riskText_eq]
  simp [stmtLine]

theorem ruleWhen_eq (r : RuleShape) :
    ruleWhen (r.guard.map (Shape.text platform)) (r.condition.text platform) = r.whenText platform := by
  rw [RuleShape.whenText]
  cases r.guard with
  | none => rfl
  | some g =>
    change ['('] ++ g.text platform ++ ") && (".toList ++ r.condition.text platform ++ [')'] = _
    simp

theorem ruleThen_eq (delta : Int64) (upstream : Option String) (action id : String) :
    ruleThen platform delta upstream action id =
      ((if delta = 0 then [] else [riskText delta]) ++
        (upstream.toList.map routeCall ++ [actionCall action id]).map (callStmtText platform)).flatMap stmtLine := by
  unfold ruleThen
  rw [List.flatMap_append, List.map_append, List.flatMap_append, ← List.append_assoc, actionStmt_eq]
  congr 1
  · congr 1
    · split
      · rfl
      · rw [riskStmt_eq]
        simp
    · cases upstream with
      | none => rfl
      | some backend =>
        dsimp only
        have route : _ = stmtLine (callStmtText platform (routeCall backend)) := routeStmt_eq backend
        rw [route]
        simp
  · simp

theorem ruleToGrl_eq (v : Yaml) :
    ruleToGrl platform v = (ruleShape v).map fun r => r.text platform ++ ['\n'] := by
  unfold ruleToGrl ruleShape
  cases (v.get "id").bind asStr with
  | none => rfl
  | some id =>
    dsimp only
    cases v.get "condition" with
    | none => rfl
    | some condition =>
      dsimp only
      rw [condToGrl_eq, scopeToGrl_eq]
      cases condShape condition with
      | error message => rfl
      | ok shape =>
        refine congrArg Except.ok ?_
        let action := ((v.get "action").bind asStr).getD "log"
        let r : RuleShape :=
          { id
            salience := ruleSalience v
            guard := scopeShape (v.get "scope")
            condition := shape
            delta := ((v.get "risk_score_delta").bind asI64).getD 0
            calls := (ruleUpstream v).toList.map routeCall ++ [actionCall action id] }
        have closing : "\x7d\n".toList = ['\x7d'] ++ ['\n'] := rfl
        have whole : r.text platform = ruleText (platform.debugBody id) (ruleSalience v).toInt
            (ruleWhen (r.guard.map (Shape.text platform)) (r.condition.text platform)) (r.stmtTexts platform) := by
          rw [ruleWhen_eq]
          rfl
        have named : platform.debug id = quoted (platform.debugBody id) := rfl
        have statements : ruleThen platform r.delta (ruleUpstream v) action id =
          (r.stmtTexts platform).flatMap stmtLine := ruleThen_eq _ _ _ _
        change _ = r.text platform ++ ['\n']
        rw [whole, ruleText, ← statements, closing, named]
        simp only [List.append_assoc]
        rfl

end

-- Documents

def okRules (items : List Yaml) : List RuleShape := items.filterMap fun v => (ruleShape v).toOption

def okItems (platform : Platform) (items : List Yaml) : List Yaml :=
  items.filter fun v => (ruleToGrl platform v).toOption.isSome

section
variable {platform : Platform}

theorem okRules_cons (v : Yaml) (rest : List Yaml) :
    okRules (v :: rest) = (ruleShape v).toOption.toList ++ okRules rest := by
  rw [okRules, List.filterMap_cons]
  cases ruleShape v <;> rfl

theorem itemsText_eq (items : List Yaml) :
    (items.flatMap fun item => match ruleToGrl platform item with
      | .ok s => s ++ ['\n']
      | .error _ => []) = fileText ['\n', '\n'] ((okRules items).map (RuleShape.text platform)) := by
  induction items with
  | nil => rfl
  | cons v rest ih =>
    rw [List.flatMap_cons, ih, ruleToGrl_eq, okRules_cons, List.map_append, fileText, fileText, List.flatMap_append]
    congr 1
    cases ruleShape v with
    | error message => rfl
    | ok r =>
      change (r.text platform ++ ['\n']) ++ ['\n'] = (r.text platform ++ ['\n', '\n']) ++ []
      simp

theorem yamlToGrl_eq {doc : Yaml} {items : List Yaml} (sequence : doc.asSequence = some items) :
    yamlToGrl platform doc =
      .ok (fileText ['\n', '\n'] ((okRules items).map (RuleShape.text platform))) := by
  rw [yamlToGrl, sequence]
  exact congrArg Except.ok (itemsText_eq items)

structure OfItem (v : Yaml) (r : RuleShape) : Prop where
  id : (v.get "id").bind asStr = some r.id
  salience : r.salience = ruleSalience v
  guard : r.guard = scopeShape (v.get "scope")
  condition : ∃ c, v.get "condition" = some c ∧ condShape c = .ok r.condition
  delta : r.delta = ((v.get "risk_score_delta").bind asI64).getD 0
  calls : r.calls = (ruleUpstream v).toList.map routeCall ++
    [actionCall (((v.get "action").bind asStr).getD "log") r.id]

theorem ofItem {v : Yaml} {r : RuleShape} (converts : ruleShape v = .ok r) : OfItem v r := by
  unfold ruleShape at converts
  split at converts
  · cases converts
  · rename_i id found
    split at converts
    · cases converts
    · rename_i condition at_condition
      cases shape : condShape condition with
      | error message => rw [shape] at converts; cases converts
      | ok s =>
        rw [shape] at converts
        cases converts
        exact ⟨found, rfl, rfl, ⟨condition, at_condition, shape⟩, rfl, rfl⟩

theorem OfItem.calls_ne_nil {v : Yaml} {r : RuleShape} (ofItem : OfItem v r) : r.calls ≠ [] := by
  rw [ofItem.calls]
  simp

theorem ruleShape_of_toOption {v : Yaml} {r : RuleShape} (converts : (ruleShape v).toOption = some r) :
    ruleShape v = .ok r := by
  cases found : ruleShape v with
  | error message => rw [found] at converts; cases converts
  | ok other => rw [found] at converts; cases converts; rfl

theorem okItems_rules (items : List Yaml) :
    List.Forall₂ (fun v r => ruleShape v = .ok r) (okItems platform items) (okRules items) := by
  induction items with
  | nil => exact .nil
  | cons v rest ih =>
    rw [okRules_cons, okItems, List.filter_cons, ruleToGrl_eq]
    cases shape : ruleShape v with
    | error message => exact ih
    | ok r => exact .cons shape ih

def documentRules (platform : Platform) (doc : Yaml) : Option (List RuleAst) :=
  match yamlToGrl platform doc with
  | .ok text => parse text
  | .error _ => none

/-- A document whose rules are clean parses to exactly those rules. -/
theorem parse_document {doc : Yaml} {items : List Yaml} (sequence : doc.asSequence = some items)
    (clean : ∀ r ∈ okRules items, r.clean platform = true) :
    ∃ text, yamlToGrl platform doc = .ok text ∧
      parse text = some ((okRules items).map (RuleShape.ast platform)) := by
  have blank : ∀ s, skipped (['\n', '\n'] ++ s) = skipped s :=
    fun s => (skipped_newline _).trans (skipped_newline _)
  have reads : List.Forall₂ ReadsRule ((okRules items).map (RuleShape.text platform))
      ((okRules items).map (RuleShape.ast platform)) := by
    rw [List.forall₂_map_left_iff, List.forall₂_map_right_iff, List.forall₂_same]
    intro r member
    obtain ⟨v, -, converts⟩ := List.mem_filterMap.mp member
    exact RuleShape.reads (clean r member) (ofItem (ruleShape_of_toOption converts)).calls_ne_nil
  exact ⟨_, yamlToGrl_eq sequence, parse_fileText blank reads⟩

theorem documentRules_eq {doc : Yaml} {items : List Yaml} (sequence : doc.asSequence = some items)
    (clean : ∀ r ∈ okRules items, r.clean platform = true) :
    documentRules platform doc = some ((okRules items).map (RuleShape.ast platform)) := by
  obtain ⟨text, converted, parsed⟩ := parse_document sequence clean
  rw [documentRules, converted]
  exact parsed

theorem okRules_of_item {items : List Yaml} {i : Nat} {v : Yaml} (found : (okItems platform items)[i]? = some v) :
    ∃ r, (okRules items)[i]? = some r ∧ ruleShape v = .ok r := by
  have rules : List.Forall₂ (fun v r => ruleShape v = .ok r) (okItems platform items) (okRules items) :=
    okItems_rules items
  obtain ⟨bound, rfl⟩ := List.getElem?_eq_some_iff.mp found
  have bound' := rules.length_eq ▸ bound
  exact ⟨_, List.getElem?_eq_getElem bound', List.Forall₂.get rules bound bound'⟩

end

end MiniWaf.Grl
