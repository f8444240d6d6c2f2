import MiniWaf.Plain.Evaluator
import MiniWaf.Std.SortUnstable

/-! Compilation of raw rules: validation, defaults and the sort by priority. -/

set_option autoImplicit false

namespace MiniWaf.Plain

inductive RuleError where
  | validationError (id reason : String)
  | duplicateId (id : String)
  | regexError (id : String)
  deriving DecidableEq, Repr

section
variable (platform : Platform)

mutual
/-- The first pattern that does not compile is an error. -/
def validateConditionRegexes (ruleId : String) : ConditionNode → Except RuleError Unit
  | .and children => validateAll ruleId children
  | .or children => validateAll ruleId children
  | .leaf leaf =>
    if leaf.matchType = .regex then
      match platform.regexNew leaf.value with
      | some _ => .ok ()
      | none => .error (.regexError ruleId)
    else .ok ()

def validateAll (ruleId : String) : List ConditionNode → Except RuleError Unit
  | [] => .ok ()
  | child :: rest => do
    validateConditionRegexes ruleId child
    validateAll ruleId rest
end

def rangeReason (delta : Int8) : String :=
  "risk_score_delta " ++ String.ofList (Text.ofInt delta.toInt) ++ " out of range [-100, 100]"

def compileRule (r : RuleRaw) : Rule where
  id := r.id
  source := r.source.getD "system"
  description := r.description
  enabled := r.enabled
  priority := r.priority
  condition := r.condition
  action := r.action
  riskScoreDelta := r.riskScoreDelta
  response := r.response
  rateLimit := r.rateLimit
  challenge := r.challenge
  tier := r.tier

def compileLoop (seenIds : List String) (rules : List Rule) : List RuleRaw → Except RuleError (List Rule)
  | [] => .ok rules
  | r :: rest =>
    if seenIds.contains r.id then .error (.duplicateId r.id)
    else if r.riskScoreDelta < -100 ∨ 100 < r.riskScoreDelta then
      .error (.validationError r.id (rangeReason r.riskScoreDelta))
    else if r.priority = 0 then .error (.validationError r.id "priority must be >= 1")
    else
      match validateConditionRegexes platform r.id r.condition with
      | .error e => .error e
      | .ok () => compileLoop (r.id :: seenIds) (rules ++ [compileRule r]) rest

def compile (order : SortUnstable Rule.priority) (raw : List RuleRaw) : Except RuleError RuleSet :=
  (compileLoop platform [] [] raw).map fun rules => ⟨order.sort rules⟩

def PatternsValid (condition : ConditionNode) : Prop :=
  ∀ leaf ∈ condition.leaves, leaf.matchType = .regex → (platform.regexNew leaf.value).isSome = true

structure RawValid (r : RuleRaw) : Prop where
  delta : -100 ≤ r.riskScoreDelta ∧ r.riskScoreDelta ≤ 100
  priority : 1 ≤ r.priority
  patterns : PatternsValid platform r.condition

/-- What `compile` asks of the whole list. -/
structure Compilable (raw : List RuleRaw) : Prop where
  ids : (raw.map RuleRaw.id).Nodup
  each : ∀ r ∈ raw, RawValid platform r

/-- What `evaluate` asks of a rule to pick it. -/
structure Applies (ctx : RequestContext) (skipRules : List String) (r : RuleRaw) : Prop where
  enabled : r.enabled = true
  unskipped : r.id ∉ skipRules
  tier : tierApplies platform r.tier ctx = true
  condition : evalNode platform r.condition ctx = true
  action : r.action ≠ .log

theorem validateAll_eq_ok (ruleId : String) {children : List ConditionNode}
    (each : ∀ c ∈ children, (validateConditionRegexes platform ruleId c = .ok () ↔ PatternsValid platform c)) :
    validateAll platform ruleId children = .ok () ↔ ∀ c ∈ children, PatternsValid platform c := by
  induction children with
  | nil => simp [validateAll]
  | cons child rest ih =>
    rw [validateAll, List.forall_mem_cons, ← each child List.mem_cons_self,
      ← ih fun c later => each c (List.mem_cons_of_mem child later)]
    cases validateConditionRegexes platform ruleId child with
    | error e => simp [bind, Except.bind]
    | ok u => simp [bind, Except.bind]

theorem patternsValid_of_leaves {children : List ConditionNode} :
    (∀ leaf ∈ ConditionNode.leavesOf children, leaf.matchType = .regex → (platform.regexNew leaf.value).isSome = true) ↔
      ∀ c ∈ children, PatternsValid platform c := by
  rw [ConditionNode.leavesOf_eq_flatMap]
  simp only [PatternsValid, List.mem_flatMap]
  constructor
  · exact fun all c member leaf inLeaves => all leaf ⟨c, member, inLeaves⟩
  · rintro all leaf ⟨c, member, inLeaves⟩
    exact all c member leaf inLeaves

theorem validateConditionRegexes_eq_ok (ruleId : String) (condition : ConditionNode) :
    validateConditionRegexes platform ruleId condition = .ok () ↔ PatternsValid platform condition := by
  induction condition using ConditionNode.byNodes with
  | and children ih =>
    rw [validateConditionRegexes, validateAll_eq_ok platform ruleId ih]
    exact (patternsValid_of_leaves platform).symm
  | or children ih =>
    rw [validateConditionRegexes, validateAll_eq_ok platform ruleId ih]
    exact (patternsValid_of_leaves platform).symm
  | leaf l =>
    rw [validateConditionRegexes]
    simp only [PatternsValid, ConditionNode.leaves, List.mem_singleton, forall_eq]
    split
    · rename_i isRegex
      cases found : platform.regexNew l.value <;> simp [isRegex]
    · rename_i notRegex
      simp [notRegex]

theorem rangeCheck (delta : Int8) : ¬ (delta < -100 ∨ 100 < delta) ↔ -100 ≤ delta ∧ delta ≤ 100 := by
  rw [not_or, Int8.not_lt, Int8.not_lt]

theorem priorityCheck (priority : UInt32) : priority ≠ 0 ↔ 1 ≤ priority := by
  rw [UInt32.le_iff_toNat_le, ← UInt32.toNat_inj.ne, UInt32.toNat_zero, UInt32.toNat_one]
  omega

theorem compileLoop_cons (r : RuleRaw) (rest : List RuleRaw) (seenIds : List String) (rules compiled : List Rule) :
    compileLoop platform seenIds rules (r :: rest) = .ok compiled ↔
      (r.id ∉ seenIds ∧ RawValid platform r) ∧
        compileLoop platform (r.id :: seenIds) (rules ++ [compileRule r]) rest = .ok compiled := by
  rw [compileLoop]
  split
  · rename_i seen
    simp [List.contains_iff_mem.mp seen]
  · rename_i fresh
    split
    · rename_i outside
      constructor
      · exact fun impossible => nomatch impossible
      · exact fun valid => absurd outside ((rangeCheck _).mpr valid.1.2.delta)
    · rename_i inside
      split
      · rename_i zero
        constructor
        · exact fun impossible => nomatch impossible
        · exact fun valid => absurd zero ((priorityCheck _).mpr valid.1.2.priority)
      · rename_i positive
        have checked := validateConditionRegexes_eq_ok platform r.id r.condition
        cases validated : validateConditionRegexes platform r.id r.condition with
        | error e =>
          constructor
          · exact fun impossible => nomatch impossible
          · exact fun valid => nomatch validated.symm.trans (checked.mpr valid.1.2.patterns)
        | ok u =>
          have fresh' : r.id ∉ seenIds := by
            simpa using fresh
          have valid : RawValid platform r :=
            ⟨(rangeCheck _).mp inside, (priorityCheck _).mp positive, checked.mp validated⟩
          exact ⟨fun goes => ⟨⟨fresh', valid⟩, goes⟩, fun goes => goes.2⟩

/-- The loop goes through exactly on a valid list with fresh ids, and compiles it in order. -/
theorem compileLoop_eq_ok (raw : List RuleRaw) (compiled : List Rule) : (seenIds : List String) → (rules : List Rule) →
    (compileLoop platform seenIds rules raw = .ok compiled ↔
      Compilable platform raw ∧ (∀ r ∈ raw, r.id ∉ seenIds) ∧ compiled = rules ++ raw.map compileRule) := by
  induction raw with
  | nil =>
    intro seenIds rules
    have empty : Compilable platform [] := ⟨List.nodup_nil, by simp⟩
    simp [compileLoop, empty, eq_comm]
  | cons r rest ih =>
    intro seenIds rules
    rw [compileLoop_cons, ih (r.id :: seenIds) (rules ++ [compileRule r])]
    constructor
    · rintro ⟨⟨fresh, valid⟩, compilable, unseen, rfl⟩
      refine ⟨⟨?_, ?_⟩, ?_, by simp⟩
      · rw [List.map_cons, List.nodup_cons]
        refine ⟨?_, compilable.ids⟩
        intro member
        obtain ⟨other, inRest, same⟩ := List.mem_map.mp member
        exact unseen other inRest (same ▸ List.mem_cons_self)
      · exact List.forall_mem_cons.mpr ⟨valid, compilable.each⟩
      · exact List.forall_mem_cons.mpr ⟨fresh, fun other inRest seen => unseen other inRest (List.mem_cons_of_mem _ seen)⟩
    · rintro ⟨compilable, unseen, rfl⟩
      have ids := compilable.ids
      rw [List.map_cons, List.nodup_cons] at ids
      obtain ⟨valid, each⟩ := List.forall_mem_cons.mp compilable.each
      obtain ⟨fresh, later⟩ := List.forall_mem_cons.mp unseen
      refine ⟨⟨fresh, valid⟩, ⟨ids.2, each⟩, ?_, by simp⟩
      intro other inRest seen
      rcases List.mem_cons.mp seen with same | seen
      · exact ids.1 (same ▸ List.mem_map_of_mem inRest)
      · exact later other inRest seen

theorem compile_eq_ok {order : SortUnstable Rule.priority} {raw : List RuleRaw} {ruleset : RuleSet} :
    compile platform order raw = .ok ruleset ↔
      Compilable platform raw ∧ ruleset = ⟨order.sort (raw.map compileRule)⟩ := by
  rw [compile]
  have loop := fun compiled => compileLoop_eq_ok platform raw compiled [] []
  simp only [List.not_mem_nil, not_false_eq_true, implies_true, true_and, List.nil_append] at loop
  cases ran : compileLoop platform [] [] raw with
  | error e =>
    constructor
    · exact fun impossible => nomatch impossible
    · exact fun valid => nomatch ran.symm.trans ((loop _).mpr ⟨valid.1, rfl⟩)
  | ok compiled =>
    obtain ⟨compilable, rfl⟩ := (loop compiled).mp ran
    constructor
    · exact fun built => ⟨compilable, (Except.ok.inj built).symm⟩
    · exact fun valid => congrArg Except.ok valid.2.symm

theorem find?_least {A : Type} {le : A → A → Prop} (refl : ∀ a, le a a) {p : A → Bool} {l : List A}
    (ascending : l.Pairwise le) {a : A} (found : l.find? p = some a) : ∀ b ∈ l, p b = true → le a b := by
  obtain ⟨-, front, back, rfl, before⟩ := List.find?_eq_some_iff_append.mp found
  intro b member hit
  rcases List.mem_append.mp member with early | later
  · have missed := before b early
    rw [hit] at missed
    cases missed
  · rcases List.mem_cons.mp later with rfl | later
    · exact refl b
    · exact (List.pairwise_cons.mp (List.pairwise_append.mp ascending).2.1).1 b later

theorem selects_compileRule (ctx : RequestContext) (skipRules : List String) (r : RuleRaw) :
    selects platform ctx skipRules (compileRule r) = true ↔ Applies platform ctx skipRules r := by
  simp only [selects, compileRule, Bool.and_eq_true, Bool.not_eq_true', List.contains_eq_mem, decide_eq_false_iff_not]
  constructor
  · rintro ⟨⟨⟨⟨enabled, unskipped⟩, tier⟩, condition⟩, action⟩
    exact ⟨enabled, unskipped, tier, condition, of_decide_eq_true action⟩
  · rintro ⟨enabled, unskipped, tier, condition, action⟩
    exact ⟨⟨⟨⟨enabled, unskipped⟩, tier⟩, condition⟩, decide_eq_true action⟩

theorem mem_sort_compileRule (order : SortUnstable Rule.priority) (raw : List RuleRaw) (rule : Rule) :
    rule ∈ order.sort (raw.map compileRule) ↔ ∃ r ∈ raw, compileRule r = rule := by
  rw [(order.perm _).mem_iff, List.mem_map]

/-- Raw rules compile exactly if they are valid, and evaluation then picks a rule of least priority among
those that apply. -/
theorem compile_then_evaluate (order : SortUnstable Rule.priority) (raw : List RuleRaw) :
    ((∃ ruleset, compile platform order raw = .ok ruleset) ↔ Compilable platform raw) ∧
      ∀ ruleset, compile platform order raw = .ok ruleset → ∀ (ctx : RequestContext) (skipRules : List String),
        (evaluate platform ruleset ctx skipRules = none ↔ ∀ r ∈ raw, ¬ Applies platform ctx skipRules r) ∧
          ∀ found, evaluate platform ruleset ctx skipRules = some found →
            ∃ r ∈ raw, Applies platform ctx skipRules r ∧ found = .ofRule (compileRule r) ∧
              ∀ other ∈ raw, Applies platform ctx skipRules other → r.priority ≤ other.priority := by
  constructor
  · constructor
    · rintro ⟨ruleset, compiled⟩
      exact ((compile_eq_ok platform).mp compiled).1
    · exact fun compilable => ⟨_, (compile_eq_ok platform).mpr ⟨compilable, rfl⟩⟩
  · intro ruleset compiled ctx skipRules
    obtain ⟨-, rfl⟩ := (compile_eq_ok platform).mp compiled
    have member := mem_sort_compileRule order raw
    have chosen := selects_compileRule platform ctx skipRules
    rw [evaluate, evaluateRules_eq]
    constructor
    · rw [Option.map_eq_none_iff, List.find?_eq_none]
      constructor
      · intro none r inRaw applies
        exact none _ ((member _).mpr ⟨r, inRaw, rfl⟩) ((chosen r).mpr applies)
      · intro none rule inSorted selected
        obtain ⟨r, inRaw, rfl⟩ := (member rule).mp inSorted
        exact none r inRaw ((chosen r).mp selected)
    · intro found evaluated
      obtain ⟨rule, first, rfl⟩ := Option.map_eq_some_iff.mp evaluated
      obtain ⟨r, inRaw, rfl⟩ := (member rule).mp (List.mem_of_find?_eq_some first)
      refine ⟨r, inRaw, (chosen r).mp (List.find?_some first), rfl, ?_⟩
      intro other otherInRaw applies
      have least := find?_least (fun rule : Rule => UInt32.le_refl rule.priority) (order.sorted _) first
      exact least _ ((member _).mpr ⟨other, otherInRaw, rfl⟩) ((chosen other).mpr applies)

end

def pathRule (id : String) (priority : UInt32) (action : Action) (path : String) : RuleRaw where
  id
  description := ""
  enabled := true
  priority
  condition := .leaf ⟨.path, .exact, path, none, none, true, false⟩
  action
  riskScoreDelta := 5
  response := none
  rateLimit := none
  challenge := none
  tier := none
  source := none

def pathRequest (path : String) : RequestContext where
  ip := "10.0.0.1"
  path
  method := "GET"
  headers := .empty
  payload := []
  cookies := .empty
  tier := .catchAll
  sessionId := ""
  deviceFp := ""
  contentType := none

def twoRules : List RuleRaw := [pathRule "late" 20 .block "/login", pathRule "early" 10 .allow "/login"]

theorem compile_then_evaluate_two : ∃ ruleset, compile .plain (insertionOrder Rule.priority) twoRules = .ok ruleset ∧
    ∃ found, evaluate .plain ruleset (pathRequest "/login") [] = some found ∧
      ∃ r ∈ twoRules, Applies .plain (pathRequest "/login") [] r ∧ found = .ofRule (compileRule r) ∧
        ∀ other ∈ twoRules, Applies .plain (pathRequest "/login") [] other → r.priority ≤ other.priority := by
  obtain ⟨ruleset, compiled⟩ : ∃ ruleset, compile .plain (insertionOrder Rule.priority) twoRules = .ok ruleset := ⟨_, rfl⟩
  obtain ⟨-, choice⟩ := (compile_then_evaluate .plain (insertionOrder Rule.priority) twoRules).2 ruleset compiled (pathRequest "/login") []
  have found : (evaluate .plain ruleset (pathRequest "/login") []).isSome = true := by
    rw [((compile_eq_ok .plain).mp compiled).2]
    decide +kernel
  obtain ⟨found, evaluated⟩ := Option.isSome_iff_exists.mp found
  exact ⟨ruleset, compiled, found, evaluated, choice found evaluated⟩

end MiniWaf.Plain
