import MiniWaf.Optimized.Condition

/-! Loading and evaluation of the optimised YAML engine: validation, the regex cache,
the keys into it, and the scan for the first rule that is met.
-/

set_option autoImplicit false

namespace MiniWaf.Optimized

open Plain (RuleRaw Action ResponseConfig RateLimitRule ChallengeRule)

structure Rule where
  id : String
  source : String
  description : String
  enabled : Bool
  priority : UInt32
  condition : ConditionNode
  action : Action
  riskScoreDelta : Int8
  response : Option ResponseConfig
  rateLimit : Option RateLimitRule
  challenge : Option ChallengeRule
  tier : Option String

structure RuleSet where
  rules : List Rule
  compiledRegexes : RegexCache

def validateRuleStructure (raw : RuleRaw) : Except String Unit :=
  if raw.id.isEmpty then .error "Rule must have an id"
  else if raw.priority = 0 then .error "Rule priority must be > 0"
  else .ok ()

mutual
/-- Every regex pattern becomes its own key. -/
def collectRegexPatterns (node : Plain.ConditionNode) (patternToKey : AssocMap String String) : AssocMap String String :=
  match node with
  | .and nodes => collectAll nodes patternToKey
  | .or nodes => collectAll nodes patternToKey
  | .leaf leaf => if leaf.matchType = .regex then patternToKey.insert leaf.value leaf.value else patternToKey

def collectAll (nodes : List Plain.ConditionNode) (patternToKey : AssocMap String String) : AssocMap String String :=
  match nodes with
  | [] => patternToKey
  | n :: rest => collectAll rest (collectRegexPatterns n patternToKey)
end

def leafWithKey (patternToKey : AssocMap String String) (leaf : Plain.ConditionLeaf) : ConditionLeaf where
  toConditionLeaf := leaf
  compiledRegexKey := if leaf.matchType = .regex then patternToKey.get leaf.value else none

mutual
def populateRegexKeys (patternToKey : AssocMap String String) : Plain.ConditionNode → ConditionNode
  | .and nodes => .and (populateAll patternToKey nodes)
  | .or nodes => .or (populateAll patternToKey nodes)
  | .leaf leaf => .leaf (leafWithKey patternToKey leaf)

def populateAll (patternToKey : AssocMap String String) : List Plain.ConditionNode → List ConditionNode
  | [] => []
  | n :: rest => populateRegexKeys patternToKey n :: populateAll patternToKey rest
end

theorem populateAll_eq_map (patternToKey : AssocMap String String) (nodes : List Plain.ConditionNode) :
    populateAll patternToKey nodes = nodes.map (populateRegexKeys patternToKey) := by
  induction nodes with
  | nil => rfl
  | cons n rest ih => exact congrArg _ ih

section
variable (platform : Platform)

/-- Compiles the collected patterns; one that does not compile fails the load. -/
def compileRegexes : List (String × String) → RegexCache → Except String RegexCache
  | [], cache => .ok cache
  | (pattern, key) :: rest, cache =>
    if cache.containsKey key then compileRegexes rest cache
    else
      match platform.regexNew pattern with
      | some re => compileRegexes rest (cache.insert key re)
      | none => .error ("Invalid regex pattern: " ++ pattern)

def compileRule (patternToKey : AssocMap String String) (raw : RuleRaw × String) : Rule where
  id := raw.1.id
  source := raw.2
  description := raw.1.description
  enabled := raw.1.enabled
  priority := raw.1.priority
  condition := populateRegexKeys patternToKey raw.1.condition
  action := raw.1.action
  riskScoreDelta := raw.1.riskScoreDelta
  response := raw.1.response
  rateLimit := raw.1.rateLimit
  challenge := raw.1.challenge
  tier := raw.1.tier

def patternsOf (allRules : List (RuleRaw × String)) : AssocMap String String :=
  allRules.foldl (fun patternToKey raw => collectRegexPatterns raw.1.condition patternToKey) .empty

/-- `RuleLoader::load_from_path` on the rules read, each with the file it is from. -/
def compileRules (allRules : List (RuleRaw × String)) : Except String RuleSet := do
  allRules.forM fun raw => validateRuleStructure raw.1
  let patternToKey := patternsOf allRules
  let cache ← compileRegexes platform patternToKey.entries .empty
  pure ⟨(allRules.map (compileRule patternToKey)).insertionSort fun a b => a.priority ≤ b.priority, cache⟩

end

-- The cache holds the regex of every pattern, under the pattern

def SelfKeyed (patternToKey : AssocMap String String) : Prop := ∀ e ∈ patternToKey.entries, e.2 = e.1

def Extends (before after : AssocMap String String) : Prop :=
  ∀ pattern, (before.get pattern).isSome = true → (after.get pattern).isSome = true

structure Collected (leaves : List Plain.ConditionLeaf) (before after : AssocMap String String) : Prop where
  selfKeyed : SelfKeyed before → SelfKeyed after
  extends_ : Extends before after
  patterns : ∀ leaf ∈ leaves, leaf.matchType = .regex → (after.get leaf.value).isSome = true

theorem Collected.nil (m : AssocMap String String) : Collected [] m m := ⟨id, fun _ => id, by simp⟩

theorem Collected.append {first second : List Plain.ConditionLeaf} {a b c : AssocMap String String}
    (left : Collected first a b) (right : Collected second b c) : Collected (first ++ second) a c where
  selfKeyed := right.selfKeyed ∘ left.selfKeyed
  extends_ := fun pattern known => right.extends_ pattern (left.extends_ pattern known)
  patterns := by
    intro leaf member isRegex
    rcases List.mem_append.mp member with early | late
    · exact right.extends_ _ (left.patterns leaf early isRegex)
    · exact right.patterns leaf late isRegex

theorem collected_insert (pattern : String) (m : AssocMap String String) (selfKeyed : SelfKeyed m) :
    SelfKeyed (m.insert pattern pattern) := by
  intro e member
  rcases AssocMap.mem_insertEntry member with rfl | old
  · rfl
  · exact selfKeyed e old

theorem isSome_get_insert (m : AssocMap String String) (pattern other : String) :
    ((m.insert pattern pattern).get other).isSome = (decide (other = pattern) || (m.get other).isSome) := by
  by_cases same : other = pattern
  · subst same
    simp
  · simp [same]

theorem collected_leaf (leaf : Plain.ConditionLeaf) (m : AssocMap String String) :
    Collected [leaf] m (collectRegexPatterns (.leaf leaf) m) := by
  rw [collectRegexPatterns]
  split
  · refine ⟨collected_insert leaf.value m, ?_, ?_⟩
    · intro pattern known
      rw [isSome_get_insert, known, Bool.or_true]
    · intro other member _
      obtain rfl := List.mem_singleton.mp member
      rw [isSome_get_insert, decide_eq_true rfl, Bool.true_or]
  · rename_i notRegex
    refine ⟨id, fun _ => id, ?_⟩
    intro other member isRegex
    obtain rfl := List.mem_singleton.mp member
    exact absurd isRegex notRegex

theorem collected_all {nodes : List Plain.ConditionNode}
    (each : ∀ n ∈ nodes, ∀ m, Collected n.leaves m (collectRegexPatterns n m)) :
    ∀ m, Collected (Plain.ConditionNode.leavesOf nodes) m (collectAll nodes m) := by
  induction nodes with
  | nil => exact Collected.nil
  | cons n rest ih =>
    intro m
    exact (each n List.mem_cons_self m).append (ih (fun other later => each other (List.mem_cons_of_mem n later)) _)

theorem collected (node : Plain.ConditionNode) : ∀ m, Collected node.leaves m (collectRegexPatterns node m) := by
  induction node using Plain.ConditionNode.byNodes with
  | and nodes ih => exact collected_all ih
  | or nodes ih => exact collected_all ih
  | leaf l => exact collected_leaf l

theorem collected_patternsOf (allRules : List (RuleRaw × String)) :
    Collected (allRules.flatMap fun raw => raw.1.condition.leaves) .empty (patternsOf allRules) := by
  have run : ∀ m, Collected (allRules.flatMap fun raw => raw.1.condition.leaves) m
      (allRules.foldl (fun patternToKey raw => collectRegexPatterns raw.1.condition patternToKey) m) := by
    induction allRules with
    | nil => exact Collected.nil
    | cons raw rest ih => exact fun m => (collected raw.1.condition m).append (ih _)
  exact run .empty

section
variable {platform : Platform}

def Sound (platform : Platform) (cache : RegexCache) : Prop :=
  ∀ key re, cache.get key = some re → platform.regexNew key = some re

theorem sound_insert {cache : RegexCache} (sound : Sound platform cache) {key : String} {re : String → Bool}
    (isRegex : platform.regexNew key = some re) : Sound platform (cache.insert key re) := by
  intro other re' found
  by_cases same : other = key
  · subst same
    rw [AssocMap.get_insert_self] at found
    exact Option.some.inj found ▸ isRegex
  · rw [AssocMap.get_insert_of_ne _ _ _ _ same] at found
    exact sound other re' found

theorem compileRegexes_ok {entries : List (String × String)} {result : RegexCache} : ∀ {cache : RegexCache},
    (∀ e ∈ entries, e.2 = e.1) → Sound platform cache → compileRegexes platform entries cache = .ok result →
      Sound platform result ∧ (∀ key, (cache.get key).isSome = true → (result.get key).isSome = true) ∧
        ∀ e ∈ entries, (result.get e.2).isSome = true := by
  induction entries with
  | nil =>
    intro cache _ sound compiled
    obtain rfl := Except.ok.inj compiled
    exact ⟨sound, fun _ => id, by simp⟩
  | cons e rest ih =>
    intro cache selfKeyed sound compiled
    obtain ⟨pattern, key⟩ := e
    obtain ⟨same, later⟩ := List.forall_mem_cons.mp selfKeyed
    rw [compileRegexes] at compiled
    split at compiled
    · rename_i known
      rw [AssocMap.containsKey_eq] at known
      obtain ⟨sound', kept, rest'⟩ := ih later sound compiled
      exact ⟨sound', kept, List.forall_mem_cons.mpr ⟨kept key known, rest'⟩⟩
    · split at compiled
      · rename_i re isRegex
        have same' : key = pattern := same
        obtain ⟨sound', kept, rest'⟩ := ih later (sound_insert sound (same' ▸ isRegex)) compiled
        refine ⟨sound', ?_, List.forall_mem_cons.mpr ⟨kept key (by simp), rest'⟩⟩
        intro other known
        apply kept
        by_cases here : other = key
        · simp [here]
        · rwa [AssocMap.get_insert_of_ne _ _ _ _ here]
      · cases compiled

structure Cached (platform : Platform) (patternToKey : AssocMap String String) (cache : RegexCache)
    (leaf : Plain.ConditionLeaf) : Prop where
  key : patternToKey.get leaf.value = some leaf.value
  regex : ∃ re, platform.regexNew leaf.value = some re ∧ cache.get leaf.value = some re

theorem compileRules_eq_ok {allRules : List (RuleRaw × String)} {ruleset : RuleSet}
    (loaded : compileRules platform allRules = .ok ruleset) :
    ruleset.rules = (allRules.map (compileRule (patternsOf allRules))).insertionSort
        (fun a b => a.priority ≤ b.priority) ∧
      ∀ raw ∈ allRules, ∀ leaf ∈ raw.1.condition.leaves, leaf.matchType = .regex →
        Cached platform (patternsOf allRules) ruleset.compiledRegexes leaf := by
  unfold compileRules at loaded
  cases valid : allRules.forM fun raw => validateRuleStructure raw.1 with
  | error message => rw [valid] at loaded; cases loaded
  | ok u =>
    rw [valid] at loaded
    cases compiled : compileRegexes platform (patternsOf allRules).entries .empty with
    | error message =>
      simp only [compiled] at loaded
      cases loaded
    | ok cache =>
      simp only [compiled] at loaded
      cases loaded
      refine ⟨rfl, ?_⟩
      intro raw inRules leaf inLeaves isRegex
      have collected := collected_patternsOf allRules
      have selfKeyed : SelfKeyed (patternsOf allRules) := collected.selfKeyed (by simp [SelfKeyed, AssocMap.empty])
      obtain ⟨key, found⟩ := Option.isSome_iff_exists.mp
        (collected.patterns leaf (List.mem_flatMap.mpr ⟨raw, inRules, inLeaves⟩) isRegex)
      have entry := AssocMap.mem_entries_of_get found
      have same : key = leaf.value := selfKeyed _ entry
      subst same
      obtain ⟨sound, -, cached⟩ := compileRegexes_ok selfKeyed (by simp [Sound]) compiled
      obtain ⟨re, held⟩ := Option.isSome_iff_exists.mp (cached _ entry)
      exact ⟨found, re, sound _ _ held, held⟩

end

structure MatchResult where
  ruleId : String
  description : String
  deriving DecidableEq, Repr

section
variable (ipNet : IpNetParser)

def evaluateRules (rules : List Rule) (compiledRegexes : RegexCache) (ctx : Plain.RequestContext) : Option MatchResult :=
  match rules with
  | [] => none
  | rule :: rest =>
    if !rule.enabled then evaluateRules rest compiledRegexes ctx
    else if eval ipNet rule.condition ctx compiledRegexes then some ⟨rule.id, rule.description⟩
    else evaluateRules rest compiledRegexes ctx

/-- `RuleEvaluator::evaluate`; the list of rules to skip is not used. -/
def evaluate (ruleset : RuleSet) (ctx : Plain.RequestContext) (_skipRules : List String) : Option MatchResult :=
  evaluateRules ipNet ruleset.rules ruleset.compiledRegexes ctx

theorem evaluateRules_eq (rules : List Rule) (compiledRegexes : RegexCache) (ctx : Plain.RequestContext) :
    evaluateRules ipNet rules compiledRegexes ctx =
      (rules.find? fun rule => rule.enabled && eval ipNet rule.condition ctx compiledRegexes).map fun rule =>
        ⟨rule.id, rule.description⟩ := by
  induction rules with
  | nil => rfl
  | cons rule rest ih =>
    rw [evaluateRules, ih, List.find?_cons]
    cases rule.enabled <;> cases eval ipNet rule.condition ctx compiledRegexes <;> rfl

end

end MiniWaf.Optimized
