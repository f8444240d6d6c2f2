import MiniWaf.Documents.Priority
import MiniWaf.Rete.Conflicts

/-! Routing rules and detection rules of one document. -/

set_option autoImplicit false

namespace MiniWaf.Documents

open Grl Rete Yaml

variable {platform : Platform} {doc : Yaml} {items : List Yaml}

/-- Every detection rule runs before every routing rule. -/
def DetectionFirst (platform : Platform) (items : List Yaml) (rules : List RuleAst) : Prop :=
  ∀ (i j : Nat) (v w : Yaml), (okItems platform items)[i]? = some v → (okItems platform items)[j]? = some w →
    ruleUpstream v = none → ruleUpstream w ≠ none → RunsBefore platform rules i j

/-- Each detection priority stays ahead of the clamped routing one, or wraps around. -/
def ClampSeparates (platform : Platform) (items : List Yaml) : Prop :=
  ∀ (i j : Nat) (v w : Yaml), (okItems platform items)[i]? = some v → (okItems platform items)[j]? = some w →
    ruleUpstream v = none → ruleUpstream w ≠ none → ∀ p q, rulePriority v = ofPriority p → rulePriority w = ofPriority q →
      lastPriority < p.toNat ∨ max 1 (min 150 (1000 - (q.toNat : Int))) < 1000 - (p.toNat : Int) ∨
        max 1 (min 150 (1000 - (q.toNat : Int))) = 1000 - (p.toNat : Int) ∧ i < j

def ruleAction (v : Yaml) : String := ((v.get "action").bind asStr).getD "log"

structure FromItem (platform : Platform) (items : List Yaml) (rules : List RuleAst) (i : Nat) (v : Yaml)
    (term : Terminal) : Prop where
  item : (okItems platform items)[i]? = some v
  terminal : (Network.addRules platform rules).terminals[i]? = some term

/-- Where a routing rule fires, no detection rule that blocks is left to match. -/
def RoutesLast (platform : Platform) (items : List Yaml) (rules : List RuleAst) : Prop :=
  ∀ (engine : Engine) (fact : RequestContext) (earlier later : List Terminal) (term : Terminal),
    engine.network = Network.compile platform rules →
    engine.firedTerminals platform fact = earlier ++ term :: later →
    ∀ j w, FromItem platform items rules j w term → ruleUpstream w ≠ none →
    ∀ i v other, FromItem platform items rules i v other → ruleUpstream v = none → ruleAction v = "block" →
      other.guard.eval (alphaValues platform engine.network (engine.stateAfter platform fact earlier).wm) = false

def SmallPriorities (platform : Platform) (items : List Yaml) : Prop :=
  ∀ v ∈ okItems platform items, ∃ p, rulePriority v = ofPriority p

theorem detectionFirst_iff (small : SmallPriorities platform items) :
    DetectionFirst platform items ((okRules items).map (RuleShape.ast platform)) ↔ ClampSeparates platform items := by
  have ne : ∀ {i j : Nat} {v w : Yaml}, (okItems platform items)[i]? = some v →
      (okItems platform items)[j]? = some w → ruleUpstream v = none → ruleUpstream w ≠ none → i ≠ j := by
    rintro i _ v w at_i at_j detects routes rfl
    have same : v = w := Option.some.inj (at_i.symm.trans at_j)
    exact routes (same ▸ detects)
  constructor
  · intro first i j v w at_i at_j detects routes p q priorityV priorityW
    have before := first i j v w at_i at_j detects routes
    rw [runsBefore_items at_i at_j (ne at_i at_j detects routes), ruleSalience_detection detects priorityV,
      ruleSalience_routing routes priorityW] at before
    split at before <;> omega
  · intro apart i j v w at_i at_j detects routes
    obtain ⟨p, priorityV⟩ := small v (List.mem_of_getElem? at_i)
    obtain ⟨q, priorityW⟩ := small w (List.mem_of_getElem? at_j)
    have separated := apart i j v w at_i at_j detects routes p q priorityV priorityW
    have bound := p.toNat_lt
    rw [runsBefore_items at_i at_j (ne at_i at_j detects routes), ruleSalience_detection detects priorityV,
      ruleSalience_routing routes priorityW]
    split <;> omega

/-- The action of a converted rule is one of the engine's, and never a retraction. -/
theorem actionCall_name (action id : String) : (actionCall action id).1.word ≠ "retract" := by
  unfold actionCall
  split <;> simp [Name.block, Name.challenge, Name.rateLimit, Name.allow, Name.log]

theorem quiet_of_item {v : Yaml} {r : RuleShape} (converts : ruleShape v = .ok r) : Quiet (r.stmts platform) := by
  intro c member
  rw [RuleShape.stmts, (ofItem converts).calls] at member
  rcases List.mem_append.mp member with risk | call
  · split at risk
    · simp at risk
    · simp [riskStmt] at risk
  · obtain ⟨⟨fn, arg⟩, inCalls, same⟩ := List.mem_map.mp call
    cases same
    rcases List.mem_append.mp inCalls with route | action
    · obtain ⟨backend, -, same⟩ := List.mem_map.mp route
      cases same
      simp [Name.log]
    · have chosen := List.mem_singleton.mp action
      have name := actionCall_name (((v.get "action").bind asStr).getD "log") r.id
      rwa [← chosen] at name

theorem blocks_of_item {v : Yaml} {r : RuleShape} (converts : ruleShape v = .ok r) (block : ruleAction v = "block") :
    ∃ c, Stmt.call c ∈ r.stmts platform ∧ c.name = "block" := by
  refine ⟨_, List.mem_append_right _ (List.mem_map_of_mem (a := actionCall (ruleAction v) r.id) ?_), ?_⟩
  · rw [(ofItem converts).calls]
    exact List.mem_append_right _ (List.mem_singleton_self _)
  · rw [block]
    rfl

section
variable {rules : List RuleAst}

theorem carries_of_fired {engine : Engine} (compiled : engine.network = Network.compile platform rules)
    {fact : RequestContext} {term : Terminal} (fired : term ∈ engine.firedTerminals platform fact) :
    ∃ (k : Nat) (r : RuleAst), rules[k]? = some r ∧ (Network.addRules platform rules).terminals[k]? = some term ∧
      term.actions = r.then_ := by
  have member := Engine.mem_terminals_of_fired fired
  rw [compiled] at member
  obtain ⟨k, at_k⟩ := List.getElem?_of_mem ((compile_perm rules).mem_iff.mp member)
  have terminals := rules_terminals platform rules
  obtain ⟨bound, rfl⟩ := List.getElem?_eq_some_iff.mp at_k
  have bound' := terminals.length_eq.symm ▸ bound
  exact ⟨k, _, List.getElem?_eq_getElem bound', at_k, (List.Forall₂.get terminals bound' bound).actions⟩

theorem position_unique (distinct : (rules.map (·.name)).Nodup) {i j : Nat} {a b : Terminal}
    (first : (Network.addRules platform rules).terminals[i]? = some a)
    (second : (Network.addRules platform rules).terminals[j]? = some b) (same : a.ruleName = b.ruleName) : i = j := by
  rw [← addRules_names platform] at distinct
  refine (List.getElem?_inj (by simpa using (List.getElem?_eq_some_iff.mp first).1) distinct).mp ?_
  rw [List.getElem?_map, List.getElem?_map, first, second]
  exact congrArg some same

end

theorem routesLast_of_detectionFirst
    (first : DetectionFirst platform items ((okRules items).map (RuleShape.ast platform)))
    (distinct : (((okRules items).map (RuleShape.ast platform)).map (·.name)).Nodup) :
    RoutesLast platform items ((okRules items).map (RuleShape.ast platform)) := by
  intro engine fact earlier later term compiled split j w fromJ routes i v other fromI detects block
  obtain ⟨-, -, above, below, position, passed⟩ :=
    selectTerminal_some platform (engine.selected_of_split platform fact split)
  rw [compiled] at position
  obtain ⟨k, at_k, ahead⟩ := mem_above_of_runsBefore position
  have same : k = j := position_unique distinct at_k fromJ.terminal rfl
  subst same
  have inAbove := ahead i other fromI.terminal (first i k v w fromI.item fromJ.item detects routes)
  refine (passed other inAbove).resolve_right fun taken => ?_
  -- the name is free: nothing retracts, and a block that fired would have ended the run
  have inFired : ∀ t ∈ earlier, t ∈ engine.firedTerminals platform fact := by
    intro t member
    rw [split]
    exact List.mem_append_left _ member
  have quiet : ∀ t ∈ earlier, Quiet t.actions := by
    intro t member
    obtain ⟨m, r, at_m, -, sameActions⟩ := carries_of_fired compiled (inFired t member)
    obtain ⟨shape, inRules, rfl⟩ := List.mem_map.mp (List.mem_of_getElem? at_m)
    obtain ⟨item, -, converts⟩ := List.mem_filterMap.mp inRules
    rw [sameActions]
    exact quiet_of_item (ruleShape_of_toOption converts)
  rw [engine.mem_stateAfter_fired, retractedByAll_of_quiet platform _ quiet] at taken
  obtain ⟨t, inEarlier, sameName⟩ := List.mem_map.mp (taken.resolve_right (by simp))
  obtain ⟨m, r, at_m, terminal_m, sameActions⟩ := carries_of_fired compiled (inFired t inEarlier)
  have same : m = i := position_unique distinct terminal_m fromI.terminal sameName
  subst same
  obtain ⟨shape, at_shape, converts⟩ := okRules_of_item fromI.item
  obtain rfl : shape.ast platform = r := by
    rw [List.getElem?_map, at_shape] at at_m
    exact Option.some.inj at_m
  have blocks : t.Blocks := by
    rw [Terminal.Blocks, sameActions]
    exact blocks_of_item converts block
  obtain ⟨before, after, splitEarlier⟩ := List.append_of_mem inEarlier
  have halted : stopped (engine.stateAfter platform fact (before ++ [t])) = true := by
    rw [stopped, Engine.stateAfter, List.foldl_append, List.foldl_cons, List.foldl_nil,
      blockReason_of_blocks platform _ blocks]
    rfl
  rw [splitEarlier, List.append_assoc, List.cons_append] at split
  have last := Engine.halted_last split halted
  simp at last

theorem detection_before_routing (sequence : doc.asSequence = some items)
    (clean : ∀ r ∈ okRules items, r.clean platform = true) (small : SmallPriorities platform items) :
    ∃ rules, documentRules platform doc = some rules ∧ rules.length = (okItems platform items).length ∧
      (DetectionFirst platform items rules ↔ ClampSeparates platform items) ∧
      (ClampSeparates platform items → (rules.map (·.name)).Nodup → RoutesLast platform items rules) := by
  refine ⟨_, documentRules_eq sequence clean, ?_, detectionFirst_iff small, fun apart distinct => ?_⟩
  · rw [List.length_map]
    exact (okItems_rules items).length_eq.symm
  · exact routesLast_of_detectionFirst ((detectionFirst_iff small).mpr apart) distinct

def pathRule (id : String) (priority : UInt64) (action : String) (backend : List (String × Yaml)) : Yaml :=
  .record ([("id", .string id), ("priority", .number (.posInt priority)), ("action", .string action),
    ("condition", .record [("type", .string "path_exact"), ("value", .string "/admin")])] ++ backend)

def mixedItems (priority : UInt64) : List Yaml :=
  [pathRule "stop" priority "block" [], pathRule "route" 500 "allow" [("upstream_backend", .string "main")]]

theorem detection_before_routing_near :
    ∃ rules, documentRules .plain (.sequence (mixedItems 100)) = some rules ∧
      rules.length = (okItems .plain (mixedItems 100)).length ∧
      (DetectionFirst .plain (mixedItems 100) rules ↔ ClampSeparates .plain (mixedItems 100)) ∧
      (ClampSeparates .plain (mixedItems 100) → (rules.map (·.name)).Nodup → RoutesLast .plain (mixedItems 100) rules) :=
  detection_before_routing rfl (by decide +kernel) (by
    have converted : okItems .plain (mixedItems 100) = mixedItems 100 := by rfl
    intro v member
    rw [converted, mixedItems, List.mem_cons, List.mem_singleton] at member
    rcases member with rfl | rfl
    · exact ⟨100, by decide +kernel⟩
    · exact ⟨500, by decide +kernel⟩)

/-- A block rule of priority 900 comes after the clamped route, which lets the request through. -/
theorem route_overtakes_block :
    ∃ rules, documentRules .plain (.sequence (mixedItems 900)) = some rules ∧
      ¬ DetectionFirst .plain (mixedItems 900) rules ∧
      let engine := Engine.new .plain (Network.compile .plain rules)
      let outcome := engine.fire .plain (.bare "GET" "/admin")
      engine.network.terminals.map (fun t => (t.ruleName, t.salience)) = [("route", 150), ("stop", 100)] ∧
        outcome.matchedRules = ["route"] ∧ outcome.allow = true ∧ outcomeToDecision outcome = .allow := by
  refine ⟨_, documentRules_eq rfl (by decide +kernel), ?_, by decide +kernel⟩
  intro first
  have converted : okItems .plain (mixedItems 900) = mixedItems 900 := by rfl
  have at_0 : (okItems .plain (mixedItems 900))[0]? = some (pathRule "stop" 900 "block" []) := by
    rw [converted]
    rfl
  have at_1 : (okItems .plain (mixedItems 900))[1]? =
      some (pathRule "route" 500 "allow" [("upstream_backend", .string "main")]) := by
    rw [converted]
    rfl
  have before := first 0 1 _ _ at_0 at_1 (by decide +kernel) (by decide +kernel)
  rw [runsBefore_items at_0 at_1 (by decide)] at before
  revert before
  decide +kernel

end MiniWaf.Documents
