import MiniWaf.Optimized.Loader
import MiniWaf.Plain.Loader
import MiniWaf.Std.Words

/-! The rule engine of `optimized_rule/`, whose leaves hold keys into one table of
compiled regexes, beside the one of `rule/`, which compiles a pattern at each
comparison. A leaf without its key is the other engine's leaf.
-/

set_option autoImplicit false

namespace MiniWaf.SharedCache

open Plain (Action ResponseConfig RateLimitRule ChallengeRule RuleError leafPattern)
open Optimized (ConditionLeaf ConditionNode RegexCache Rule RuleSet)

structure RuleRaw where
  id : String
  description : String
  enabled : Bool
  priority : UInt32
  condition : ConditionNode
  action : Action
  riskScoreDelta : Int8
  response : Option ResponseConfig
  rateLimit : Option RateLimitRule
  challenge : Option ChallengeRule
  tier : Option String
  source : Option String

structure RequestContext where
  ip : String
  path : String
  method : String
  /-- `http::HeaderMap`: names in lower case, each with the bytes of its first value. -/
  headers : AssocMap String (List UInt8)
  payload : List UInt8
  cookies : AssocMap String String
  tier : Tier
  sessionId : String
  deviceFp : String
  contentType : Option String

/-- `HeaderMap::get`, for which the case of a name is nothing. -/
def header (headers : AssocMap String (List UInt8)) (name : String) : Option (List UInt8) :=
  headers.get (String.ofList (name.toList.map Char.toLower))

/-- `HeaderValue::to_str`: visible ASCII and tabs. -/
def toStr (value : List UInt8) : Option String :=
  if value.all fun b => (32 ≤ b && b < 127) || b == 9 then
    some (String.ofList (value.map fun b => Char.ofNat b.toNat))
  else none

/-- The matcher of a glob by its text and by whether case is nothing to it, if the text is one. -/
abbrev Globset := String → Bool → Option (String → Bool)

section
variable (globset : Globset)

def matchValueWith (regex : String → Bool) (subject : String) (leaf : Plain.ConditionLeaf) : Bool :=
  match leaf.matchType with
  | .exact => if leaf.caseSensitive then subject == leaf.value else Plain.eqIgnoreAsciiCase subject leaf.value
  | .wildcard => ((globset leaf.value (!leaf.caseSensitive)).map fun g => g subject).getD false
  | .regex => regex subject
  | .cidr => Plain.cidrContains leaf.value subject
  | .presence => !subject.isEmpty
  | .absence => subject.isEmpty

def evalLeafWith (matchValue : String → Bool) (leaf : Plain.ConditionLeaf) (ctx : RequestContext) : Bool :=
  let result := match leaf.field with
    | .ip => matchValue ctx.ip
    | .path => matchValue ctx.path
    | .method => matchValue ctx.method
    | .sessionId => matchValue ctx.sessionId
    | .deviceFp => matchValue ctx.deviceFp
    | .contentType => matchValue (ctx.contentType.getD "")
    | .header =>
      let value := ((header ctx.headers (leaf.headerName.getD "")).bind toStr).getD ""
      match leaf.matchType with
      | .presence => !value.isEmpty
      | .absence => value.isEmpty
      | _ => matchValue value
    | .cookie =>
      let value := (ctx.cookies.get (leaf.cookieName.getD "")).getD ""
      match leaf.matchType with
      | .presence => !value.isEmpty
      | .absence => value.isEmpty
      | _ => matchValue value
    | .payload =>
      match leaf.matchType with
      | .presence => !ctx.payload.isEmpty
      | .absence => ctx.payload.isEmpty
      | _ => matchValue (Plain.utf8OrEmpty ctx.payload)
  if leaf.negate then !result else result

/-- `match_value` of `optimized_rule/`; a leaf whose key leads nowhere does not match. -/
def matchValue (subject : String) (leaf : ConditionLeaf) (compiledRegexes : RegexCache) : Bool :=
  matchValueWith globset (fun subject =>
    match leaf.compiledRegexKey with
    | some cacheKey =>
      match compiledRegexes.get cacheKey with
      | some re => re subject
      | none => false
    | none => false) subject leaf.toConditionLeaf

def evalLeaf (leaf : ConditionLeaf) (ctx : RequestContext) (compiledRegexes : RegexCache) : Bool :=
  evalLeafWith (matchValue globset · leaf compiledRegexes) leaf.toConditionLeaf ctx

mutual
def evalNode (node : ConditionNode) (ctx : RequestContext) (compiledRegexes : RegexCache) : Bool :=
  match node with
  | .and children => evalAll children ctx compiledRegexes
  | .or children => evalAny children ctx compiledRegexes
  | .leaf leaf => evalLeaf globset leaf ctx compiledRegexes

def evalAll (children : List ConditionNode) (ctx : RequestContext) (compiledRegexes : RegexCache) : Bool :=
  match children with
  | [] => true
  | c :: rest => evalNode c ctx compiledRegexes && evalAll rest ctx compiledRegexes

def evalAny (children : List ConditionNode) (ctx : RequestContext) (compiledRegexes : RegexCache) : Bool :=
  match children with
  | [] => false
  | c :: rest => evalNode c ctx compiledRegexes || evalAny rest ctx compiledRegexes
end

section
variable (platform : Platform)

/-- `match_value` of `rule/`, which compiles the pattern afresh. -/
def freshMatchValue (subject : String) (leaf : Plain.ConditionLeaf) : Bool :=
  matchValueWith globset (platform.isMatch (leafPattern leaf)) subject leaf

def freshEvalLeaf (leaf : Plain.ConditionLeaf) (ctx : RequestContext) : Bool :=
  evalLeafWith (freshMatchValue globset platform · leaf) leaf ctx

def freshEvalNode (node : Plain.ConditionNode) (ctx : RequestContext) : Bool :=
  node.holds fun leaf => freshEvalLeaf globset platform leaf ctx

end

end

-- Trees with keys

mutual
def plain : ConditionNode → Plain.ConditionNode
  | .and children => .and (plainAll children)
  | .or children => .or (plainAll children)
  | .leaf leaf => .leaf leaf.toConditionLeaf

def plainAll : List ConditionNode → List Plain.ConditionNode
  | [] => []
  | c :: rest => plain c :: plainAll rest
end

mutual
def leaves : ConditionNode → List ConditionLeaf
  | .and children => leavesOf children
  | .or children => leavesOf children
  | .leaf leaf => [leaf]

def leavesOf : List ConditionNode → List ConditionLeaf
  | [] => []
  | c :: rest => leaves c ++ leavesOf rest
end

mutual
theorem byNodes {P : ConditionNode → Prop} {Q : List ConditionNode → Prop} (and : ∀ children, Q children → P (.and children))
    (or : ∀ children, Q children → P (.or children)) (leaf : ∀ l, P (.leaf l)) (nil : Q [])
    (cons : ∀ c rest, P c → Q rest → Q (c :: rest)) : (node : ConditionNode) → P node
  | .and children => and children (allByNodes and or leaf nil cons children)
  | .or children => or children (allByNodes and or leaf nil cons children)
  | .leaf l => leaf l

theorem allByNodes {P : ConditionNode → Prop} {Q : List ConditionNode → Prop}
    (and : ∀ children, Q children → P (.and children)) (or : ∀ children, Q children → P (.or children))
    (leaf : ∀ l, P (.leaf l)) (nil : Q []) (cons : ∀ c rest, P c → Q rest → Q (c :: rest)) :
    (children : List ConditionNode) → Q children
  | [] => nil
  | c :: rest => cons c rest (byNodes and or leaf nil cons c) (allByNodes and or leaf nil cons rest)
end

-- Loading

structure Caches where
  regexCache : AssocMap String String
  compiledRegexes : RegexCache

/-- The key of a regex, from the number of those before it. -/
def keyOf (n : Nat) : String := "regex_" ++ String.ofList (Text.ofNat n)

section
variable (platform : Platform)

def collectPattern (ruleId pattern : String) (caches : Caches) : Except RuleError Caches :=
  if caches.regexCache.containsKey pattern then .ok caches
  else
    match platform.regexNew pattern with
    | none => .error (.regexError ruleId)
    | some compiled =>
      let cacheKey := keyOf caches.compiledRegexes.size
      .ok ⟨caches.regexCache.insert pattern cacheKey, caches.compiledRegexes.insert cacheKey compiled⟩

mutual
def collectRegexPatterns (ruleId : String) (node : ConditionNode) (caches : Caches) : Except RuleError Caches :=
  match node with
  | .and children => collectAll ruleId children caches
  | .or children => collectAll ruleId children caches
  | .leaf leaf =>
    if leaf.matchType = .regex then collectPattern platform ruleId (leafPattern leaf.toConditionLeaf) caches
    else .ok caches

def collectAll (ruleId : String) (children : List ConditionNode) (caches : Caches) : Except RuleError Caches :=
  match children with
  | [] => .ok caches
  | c :: rest => collectRegexPatterns ruleId c caches >>= collectAll ruleId rest
end

def collectRules : List RuleRaw → Caches → Except RuleError Caches
  | [], caches => .ok caches
  | r :: rest, caches => collectRegexPatterns platform r.id r.condition caches >>= collectRules rest

end

def validateRules (seenIds : List String) : List RuleRaw → Except RuleError Unit
  | [] => .ok ()
  | r :: rest =>
    if seenIds.contains r.id then .error (.duplicateId r.id)
    else if r.riskScoreDelta < -100 ∨ 100 < r.riskScoreDelta then
      .error (.validationError r.id (Plain.rangeReason r.riskScoreDelta))
    else if r.priority = 0 then .error (.validationError r.id "priority must be >= 1")
    else validateRules (r.id :: seenIds) rest

def notFoundReason (pattern : String) : String := "Regex pattern not found in cache: " ++ pattern

def populateLeaf (ruleId : String) (regexCache : AssocMap String String) (leaf : ConditionLeaf) :
    Except RuleError ConditionLeaf :=
  if leaf.matchType = .regex then
    match regexCache.get (leafPattern leaf.toConditionLeaf) with
    | some cacheKey => .ok { leaf with compiledRegexKey := some cacheKey }
    | none => .error (.validationError ruleId (notFoundReason (leafPattern leaf.toConditionLeaf)))
  else .ok leaf

mutual
def populateRegexKeys (ruleId : String) (regexCache : AssocMap String String) :
    ConditionNode → Except RuleError ConditionNode
  | .and children => (populateAll ruleId regexCache children).map .and
  | .or children => (populateAll ruleId regexCache children).map .or
  | .leaf leaf => (populateLeaf ruleId regexCache leaf).map .leaf

def populateAll (ruleId : String) (regexCache : AssocMap String String) :
    List ConditionNode → Except RuleError (List ConditionNode)
  | [] => .ok []
  | c :: rest => do
    let first ← populateRegexKeys ruleId regexCache c
    let others ← populateAll ruleId regexCache rest
    pure (first :: others)
end

/-- The second pass of `compile`. -/
def populateRules (regexCache : AssocMap String String) : List RuleRaw → Except RuleError (List RuleRaw)
  | [] => .ok []
  | r :: rest => do
    let condition ← populateRegexKeys r.id regexCache r.condition
    let others ← populateRules regexCache rest
    pure ({ r with condition } :: others)

def compileRule (r : RuleRaw) : Rule where
  id := r.id
  source := r.source.getD "system"
  description := r.description
  enabled := r.enabled
  priority := r.priority
  condition := r.condition
  action := r.action
  riskScoreDelta := r.riskScoreDelta
  response := r.response
  rateLimit := r.rateLimit
  challenge := r.challenge
  tier := r.tier

def compile (platform : Platform) (order : SortUnstable Rule.priority) (raw : List RuleRaw) : Except RuleError RuleSet := do
  let caches ← collectRules platform raw ⟨.empty, .empty⟩
  validateRules [] raw
  let populated ← populateRules caches.regexCache raw
  pure ⟨order.sort (populated.map compileRule), caches.compiledRegexes⟩

theorem exists_of_bind_eq_ok {E A B : Type} {x : Except E A} {f : A → Except E B} {b : B} (done : (x >>= f) = .ok b) :
    ∃ a, x = .ok a ∧ f a = .ok b := by
  cases x with
  | error e => cases done
  | ok a => exact ⟨a, rfl, done⟩

theorem exists_of_map_eq_ok {E A B : Type} {x : Except E A} {f : A → B} {b : B} (done : x.map f = .ok b) :
    ∃ a, x = .ok a ∧ f a = b := by
  cases x with
  | error e => cases done
  | ok a => exact ⟨a, rfl, Except.ok.inj done⟩

-- Keys are numbers, each below the size of the table

theorem keyOf_injective {m n : Nat} (same : keyOf m = keyOf n) : m = n := by
  have digits : Text.ofNat m = Text.ofNat n := by
    have texts := congrArg String.toList same
    unfold keyOf at texts
    simp only [String.toList_append, String.toList_ofList] at texts
    exact List.append_cancel_left texts
  have numbers := congrArg Text.digitsValue digits
  rwa [Text.digitsValue_ofNat, Text.digitsValue_ofNat] at numbers

section
variable {platform : Platform}

/-- The key of a pattern leads to its regex, and no key is one to come. -/
structure WellKeyed (platform : Platform) (caches : Caches) : Prop where
  regexes : ∀ pattern key, caches.regexCache.get pattern = some key →
    ∃ re, platform.regexNew pattern = some re ∧ caches.compiledRegexes.get key = some re
  numbered : ∀ key re, caches.compiledRegexes.get key = some re → ∃ n < caches.compiledRegexes.size, key = keyOf n

theorem wellKeyed_empty : WellKeyed platform ⟨.empty, .empty⟩ := by
  constructor <;> simp

theorem WellKeyed.fresh {caches : Caches} (keyed : WellKeyed platform caches) :
    caches.compiledRegexes.get (keyOf caches.compiledRegexes.size) = none := by
  cases found : caches.compiledRegexes.get (keyOf caches.compiledRegexes.size) with
  | none => rfl
  | some re =>
    obtain ⟨n, small, same⟩ := keyed.numbered _ re found
    exact absurd (keyOf_injective same) (by omega)

theorem WellKeyed.insert {caches : Caches} (keyed : WellKeyed platform caches) {pattern : String} {compiled : String → Bool}
    (isRegex : platform.regexNew pattern = some compiled) :
    WellKeyed platform ⟨caches.regexCache.insert pattern (keyOf caches.compiledRegexes.size),
      caches.compiledRegexes.insert (keyOf caches.compiledRegexes.size) compiled⟩ where
  regexes := by
    intro other key found
    by_cases same : other = pattern
    · subst same
      rw [AssocMap.get_insert_self] at found
      obtain rfl := Option.some.inj found
      exact ⟨compiled, isRegex, AssocMap.get_insert_self _ _ _⟩
    · rw [AssocMap.get_insert_of_ne _ _ _ _ same] at found
      obtain ⟨re, known, held⟩ := keyed.regexes other key found
      have old : key ≠ keyOf caches.compiledRegexes.size := by
        rintro rfl
        rw [keyed.fresh] at held
        cases held
      exact ⟨re, known, by rw [AssocMap.get_insert_of_ne _ _ _ _ old, held]⟩
  numbered := by
    intro key re found
    rw [AssocMap.size_insert_of_fresh _ _ keyed.fresh]
    by_cases same : key = keyOf caches.compiledRegexes.size
    · exact ⟨_, Nat.lt_succ_self _, same⟩
    · rw [AssocMap.get_insert_of_ne _ _ _ _ same] at found
      obtain ⟨n, small, numbered⟩ := keyed.numbered key re found
      exact ⟨n, Nat.lt_succ_of_lt small, numbered⟩

def Keeps (platform : Platform) (pass : Caches → Except RuleError Caches) : Prop :=
  ∀ caches after, WellKeyed platform caches → pass caches = .ok after → WellKeyed platform after

theorem keeps_ok : Keeps platform .ok := by
  intro caches after keyed done
  exact Except.ok.inj done ▸ keyed

theorem Keeps.andThen {first second : Caches → Except RuleError Caches} (left : Keeps platform first)
    (right : Keeps platform second) : Keeps platform fun caches => first caches >>= second := by
  intro caches after keyed done
  obtain ⟨between, here, there⟩ := exists_of_bind_eq_ok done
  exact right between after (left caches between keyed here) there

theorem collectPattern_cases {ruleId pattern : String} {caches after : Caches}
    (done : collectPattern platform ruleId pattern caches = .ok after) :
    (caches.regexCache.containsKey pattern = true ∧ after = caches) ∨
      ∃ compiled, platform.regexNew pattern = some compiled ∧
        after = ⟨caches.regexCache.insert pattern (keyOf caches.compiledRegexes.size),
          caches.compiledRegexes.insert (keyOf caches.compiledRegexes.size) compiled⟩ := by
  unfold collectPattern at done
  cases known : caches.regexCache.containsKey pattern with
  | true =>
    rw [known, if_pos rfl] at done
    exact .inl ⟨rfl, (Except.ok.inj done).symm⟩
  | false =>
    rw [known, if_neg Bool.false_ne_true] at done
    cases isRegex : platform.regexNew pattern with
    | none =>
      rw [isRegex] at done
      cases done
    | some compiled =>
      rw [isRegex] at done
      exact .inr ⟨compiled, rfl, (Except.ok.inj done).symm⟩

theorem keeps_collectPattern (ruleId pattern : String) : Keeps platform (collectPattern platform ruleId pattern) := by
  intro caches after keyed done
  obtain ⟨-, rfl⟩ | ⟨compiled, isRegex, rfl⟩ := collectPattern_cases done
  · exact keyed
  · exact keyed.insert isRegex

theorem keeps_collect (ruleId : String) (node : ConditionNode) :
    Keeps platform (collectRegexPatterns platform ruleId node) := by
  induction node using byNodes (Q := fun children => Keeps platform (collectAll platform ruleId children)) with
  | and children ih => exact ih
  | or children ih => exact ih
  | leaf l =>
    intro caches after keyed done
    rw [collectRegexPatterns] at done
    by_cases isRegex : l.matchType = .regex
    · rw [if_pos isRegex] at done
      exact keeps_collectPattern ruleId _ caches after keyed done
    · rw [if_neg isRegex] at done
      exact keeps_ok caches after keyed done
  | nil => exact keeps_ok
  | cons c rest first later => exact first.andThen later

theorem keeps_collectRules (raw : List RuleRaw) : Keeps platform (collectRules platform raw) := by
  induction raw with
  | nil => exact keeps_ok
  | cons r rest ih => exact (keeps_collect r.id r.condition).andThen ih

end

-- The second pass fills in the keys and changes nothing else

/-- A regex leaf has the key of its pattern. -/
def HasKey (regexCache : AssocMap String String) (leaf : ConditionLeaf) : Prop :=
  leaf.matchType = .regex →
    ∃ key, leaf.compiledRegexKey = some key ∧ regexCache.get (leafPattern leaf.toConditionLeaf) = some key

section
variable {ruleId : String} {regexCache : AssocMap String String}

theorem populateLeaf_eq_ok {leaf after : ConditionLeaf} (done : populateLeaf ruleId regexCache leaf = .ok after) :
    after.toConditionLeaf = leaf.toConditionLeaf ∧ HasKey regexCache after := by
  unfold populateLeaf at done
  by_cases isRegex : leaf.matchType = .regex
  · rw [if_pos isRegex] at done
    cases found : regexCache.get (leafPattern leaf.toConditionLeaf) with
    | none =>
      rw [found] at done
      cases done
    | some key =>
      rw [found] at done
      obtain rfl := Except.ok.inj done
      exact ⟨rfl, fun _ => ⟨key, rfl, found⟩⟩
  · rw [if_neg isRegex] at done
    obtain rfl := Except.ok.inj done
    exact ⟨rfl, fun regex => absurd regex isRegex⟩

theorem populateRegexKeys_eq_ok (node : ConditionNode) : ∀ after, populateRegexKeys ruleId regexCache node = .ok after →
    plain after = plain node ∧ ∀ leaf ∈ leaves after, HasKey regexCache leaf := by
  induction node using byNodes (Q := fun children => ∀ after, populateAll ruleId regexCache children = .ok after →
      plainAll after = plainAll children ∧ ∀ leaf ∈ leavesOf after, HasKey regexCache leaf) with
  | and children ih =>
    intro after done
    obtain ⟨filled, here, rfl⟩ := exists_of_map_eq_ok done
    obtain ⟨same, keys⟩ := ih filled here
    exact ⟨congrArg Plain.ConditionNode.and same, keys⟩
  | or children ih =>
    intro after done
    obtain ⟨filled, here, rfl⟩ := exists_of_map_eq_ok done
    obtain ⟨same, keys⟩ := ih filled here
    exact ⟨congrArg Plain.ConditionNode.or same, keys⟩
  | leaf l =>
    intro after done
    obtain ⟨filled, here, rfl⟩ := exists_of_map_eq_ok done
    obtain ⟨same, key⟩ := populateLeaf_eq_ok here
    refine ⟨congrArg Plain.ConditionNode.leaf same, ?_⟩
    intro leaf member
    exact List.mem_singleton.mp member ▸ key
  | nil after done =>
    obtain rfl := Except.ok.inj done
    exact ⟨rfl, fun leaf member => absurd member List.not_mem_nil⟩
  | cons c rest first later after done =>
    obtain ⟨head, here, done⟩ := exists_of_bind_eq_ok done
    obtain ⟨tail, there, done⟩ := exists_of_bind_eq_ok done
    obtain rfl := Except.ok.inj done
    obtain ⟨sameHead, headKeys⟩ := first head here
    obtain ⟨sameTail, tailKeys⟩ := later tail there
    refine ⟨by rw [plainAll, plainAll, sameHead, sameTail], ?_⟩
    intro leaf member
    rcases List.mem_append.mp member with inHead | inTail
    · exact headKeys leaf inHead
    · exact tailKeys leaf inTail

theorem populateRules_eq_ok {raw : List RuleRaw} : ∀ {after : List RuleRaw}, populateRules regexCache raw = .ok after →
    ∀ filled ∈ after, ∃ r ∈ raw, populateRegexKeys r.id regexCache r.condition = .ok filled.condition ∧
      filled = { r with condition := filled.condition } := by
  induction raw with
  | nil =>
    intro after done filled member
    rw [← Except.ok.inj done] at member
    cases member
  | cons r rest ih =>
    intro after done filled member
    obtain ⟨condition, here, done⟩ := exists_of_bind_eq_ok done
    obtain ⟨others, there, done⟩ := exists_of_bind_eq_ok done
    rw [← Except.ok.inj done] at member
    rcases List.mem_cons.mp member with rfl | later
    · exact ⟨r, List.mem_cons_self, here, rfl⟩
    · obtain ⟨r', inRest, found⟩ := ih there filled later
      exact ⟨r', List.mem_cons_of_mem r inRest, found⟩

end

-- Every pattern that the second pass looks for has a key

def Supplies (pass : Caches → Except RuleError Caches) (needed : List ConditionLeaf) : Prop :=
  ∀ caches after, pass caches = .ok after →
    (∀ pattern, caches.regexCache.containsKey pattern = true → after.regexCache.containsKey pattern = true) ∧
    ∀ leaf ∈ needed, leaf.matchType = .regex → after.regexCache.containsKey (leafPattern leaf.toConditionLeaf) = true

section
variable {platform : Platform}

theorem supplies_ok : Supplies .ok [] := by
  intro caches after done
  obtain rfl := Except.ok.inj done
  exact ⟨fun _ known => known, fun leaf member => absurd member List.not_mem_nil⟩

theorem Supplies.andThen {first second : Caches → Except RuleError Caches} {early late : List ConditionLeaf}
    (left : Supplies first early) (right : Supplies second late) :
    Supplies (fun caches => first caches >>= second) (early ++ late) := by
  intro caches after done
  obtain ⟨between, here, there⟩ := exists_of_bind_eq_ok done
  obtain ⟨kept, supplied⟩ := left caches between here
  obtain ⟨kept', supplied'⟩ := right between after there
  refine ⟨fun pattern known => kept' pattern (kept pattern known), ?_⟩
  intro leaf member isRegex
  rcases List.mem_append.mp member with inEarly | inLate
  · exact kept' _ (supplied leaf inEarly isRegex)
  · exact supplied' leaf inLate isRegex

theorem collectPattern_eq_ok {ruleId pattern : String} {caches after : Caches}
    (done : collectPattern platform ruleId pattern caches = .ok after) :
    (∀ other, caches.regexCache.containsKey other = true → after.regexCache.containsKey other = true) ∧
      after.regexCache.containsKey pattern = true := by
  obtain ⟨known, rfl⟩ | ⟨compiled, -, rfl⟩ := collectPattern_cases done
  · exact ⟨fun _ => id, known⟩
  · refine ⟨?_, by simp [AssocMap.containsKey_eq]⟩
    intro other held
    rw [AssocMap.containsKey_eq] at held ⊢
    by_cases same : other = pattern
    · simp [same]
    · rwa [AssocMap.get_insert_of_ne _ _ _ _ same]

theorem supplies_collect (ruleId : String) (node : ConditionNode) :
    Supplies (collectRegexPatterns platform ruleId node) (leaves node) := by
  induction node using byNodes (Q := fun children => Supplies (collectAll platform ruleId children)
      (leavesOf children)) with
  | and children ih => exact ih
  | or children ih => exact ih
  | leaf l =>
    intro caches after done
    rw [collectRegexPatterns] at done
    by_cases isRegex : l.matchType = .regex
    · rw [if_pos isRegex] at done
      obtain ⟨kept, supplied⟩ := collectPattern_eq_ok done
      refine ⟨kept, fun leaf member _ => ?_⟩
      rwa [List.mem_singleton.mp member]
    · rw [if_neg isRegex] at done
      obtain rfl := Except.ok.inj done
      refine ⟨fun _ => id, fun leaf member regex => ?_⟩
      rw [List.mem_singleton.mp member] at regex
      exact absurd regex isRegex
  | nil => exact supplies_ok
  | cons c rest first later => exact first.andThen later

theorem supplies_collectRules (raw : List RuleRaw) :
    Supplies (collectRules platform raw) (raw.flatMap fun r => leaves r.condition) := by
  induction raw with
  | nil => exact supplies_ok
  | cons r rest ih => exact (supplies_collect r.id r.condition).andThen ih

theorem populateRegexKeys_of_supplied {regexCache : AssocMap String String} (ruleId : String) (node : ConditionNode) :
    (∀ leaf ∈ leaves node, leaf.matchType = .regex →
        regexCache.containsKey (leafPattern leaf.toConditionLeaf) = true) →
      ∃ after, populateRegexKeys ruleId regexCache node = .ok after := by
  induction node using byNodes (Q := fun children => (∀ leaf ∈ leavesOf children, leaf.matchType = .regex →
      regexCache.containsKey (leafPattern leaf.toConditionLeaf) = true) →
        ∃ after, populateAll ruleId regexCache children = .ok after) with
  | and children ih =>
    intro supplied
    obtain ⟨after, done⟩ := ih supplied
    exact ⟨.and after, by rw [populateRegexKeys, done]; rfl⟩
  | or children ih =>
    intro supplied
    obtain ⟨after, done⟩ := ih supplied
    exact ⟨.or after, by rw [populateRegexKeys, done]; rfl⟩
  | leaf l =>
    intro supplied
    rw [populateRegexKeys, populateLeaf]
    by_cases isRegex : l.matchType = .regex
    · have known := supplied l (List.mem_singleton_self l) isRegex
      rw [AssocMap.containsKey_eq] at known
      obtain ⟨key, found⟩ := Option.isSome_iff_exists.mp known
      rw [if_pos isRegex, found]
      exact ⟨_, rfl⟩
    · rw [if_neg isRegex]
      exact ⟨_, rfl⟩
  | nil supplied => exact ⟨[], rfl⟩
  | cons c rest first later supplied =>
    obtain ⟨head, here⟩ := first fun leaf member => supplied leaf (List.mem_append_left _ member)
    obtain ⟨tail, there⟩ := later fun leaf member => supplied leaf (List.mem_append_right _ member)
    exact ⟨head :: tail, by rw [populateAll, here, there]; rfl⟩

theorem populateRules_of_supplied {regexCache : AssocMap String String} {raw : List RuleRaw}
    (supplied : ∀ leaf ∈ raw.flatMap fun r => leaves r.condition, leaf.matchType = .regex →
      regexCache.containsKey (leafPattern leaf.toConditionLeaf) = true) :
    ∃ populated, populateRules regexCache raw = .ok populated := by
  induction raw with
  | nil => exact ⟨[], rfl⟩
  | cons r rest ih =>
    obtain ⟨condition, here⟩ := populateRegexKeys_of_supplied r.id r.condition
      fun leaf member => supplied leaf (List.mem_append_left _ member)
    obtain ⟨others, there⟩ := ih fun leaf member => supplied leaf (List.mem_append_right _ member)
    exact ⟨{ r with condition } :: others, by rw [populateRules, here, there]; rfl⟩

/-- The second pass finds every pattern that it looks for, so that the first pass and the checks alone decide
whether a rule set compiles. -/
theorem second_pass_succeeds {raw : List RuleRaw} {caches after : Caches}
    (collected : collectRules platform raw caches = .ok after) :
    ∃ populated, populateRules after.regexCache raw = .ok populated :=
  populateRules_of_supplied (supplies_collectRules raw caches after collected).2

end

-- Evaluation

section
variable {globset : Globset} {platform : Platform} {compiledRegexes : RegexCache}

def Served (platform : Platform) (compiledRegexes : RegexCache) (leaf : ConditionLeaf) : Prop :=
  leaf.matchType = .regex → ∃ key re, leaf.compiledRegexKey = some key ∧ compiledRegexes.get key = some re ∧
    platform.regexNew (leafPattern leaf.toConditionLeaf) = some re

theorem HasKey.served {caches : Caches} (keyed : WellKeyed platform caches) {leaf : ConditionLeaf}
    (hasKey : HasKey caches.regexCache leaf) : Served platform caches.compiledRegexes leaf := by
  intro isRegex
  obtain ⟨key, filled, found⟩ := hasKey isRegex
  obtain ⟨re, known, held⟩ := keyed.regexes _ key found
  exact ⟨key, re, filled, held, known⟩

theorem matchValue_of_served {leaf : ConditionLeaf} (served : Served platform compiledRegexes leaf) (subject : String) :
    matchValue globset subject leaf compiledRegexes = freshMatchValue globset platform subject leaf.toConditionLeaf := by
  unfold matchValue freshMatchValue matchValueWith
  cases kind : leaf.matchType with
  | regex =>
    obtain ⟨key, re, filled, held, known⟩ := served kind
    simp only [filled, held, Platform.isMatch, known]
  | _ => rfl

theorem evalLeaf_of_served {leaf : ConditionLeaf} (served : Served platform compiledRegexes leaf) (ctx : RequestContext) :
    evalLeaf globset leaf ctx compiledRegexes = freshEvalLeaf globset platform leaf.toConditionLeaf ctx := by
  have same : (fun subject => matchValue globset subject leaf compiledRegexes) =
      fun subject => freshMatchValue globset platform subject leaf.toConditionLeaf :=
    funext (matchValue_of_served served)
  rw [evalLeaf, same, freshEvalLeaf]

/-- Conditions whose regex leaves lead to their regexes have one value in both engines. -/
theorem evalNode_of_served (ctx : RequestContext) (node : ConditionNode) :
    (∀ leaf ∈ leaves node, Served platform compiledRegexes leaf) →
      evalNode globset node ctx compiledRegexes = freshEvalNode globset platform (plain node) ctx := by
  induction node using byNodes (Q := fun children => (∀ leaf ∈ leavesOf children, Served platform compiledRegexes leaf) →
      evalAll globset children ctx compiledRegexes =
          Plain.ConditionNode.holdsAll (freshEvalLeaf globset platform · ctx) (plainAll children) ∧
        evalAny globset children ctx compiledRegexes =
          Plain.ConditionNode.holdsAny (freshEvalLeaf globset platform · ctx) (plainAll children)) with
  | and children ih => exact fun served => (ih served).1
  | or children ih => exact fun served => (ih served).2
  | leaf l => exact fun served => evalLeaf_of_served (served l (List.mem_singleton_self l)) ctx
  | nil served => exact ⟨rfl, rfl⟩
  | cons c rest first later served =>
    have head := first fun leaf member => served leaf (List.mem_append_left _ member)
    obtain ⟨all, any⟩ := later fun leaf member => served leaf (List.mem_append_right _ member)
    exact ⟨congrArg₂ and head all, congrArg₂ or head any⟩

end

/-- In a rule set that compiles every condition is a raw rule's, and the table of regexes is nothing to its value or to
that of its leaves. -/
theorem shared_cache_invisible (globset : Globset) {platform : Platform} {order : SortUnstable Rule.priority} {raw : List RuleRaw}
    {ruleset : RuleSet} (loaded : compile platform order raw = .ok ruleset) :
    ∀ rule ∈ ruleset.rules,
      (∃ r ∈ raw, rule.id = r.id ∧ plain rule.condition = plain r.condition) ∧
      ∀ ctx,
        (∀ leaf ∈ leaves rule.condition, evalLeaf globset leaf ctx ruleset.compiledRegexes =
          freshEvalLeaf globset platform leaf.toConditionLeaf ctx) ∧
        evalNode globset rule.condition ctx ruleset.compiledRegexes =
          freshEvalNode globset platform (plain rule.condition) ctx := by
  obtain ⟨caches, collected, loaded⟩ := exists_of_bind_eq_ok loaded
  obtain ⟨_, _, loaded⟩ := exists_of_bind_eq_ok loaded
  obtain ⟨populated, filled, loaded⟩ := exists_of_bind_eq_ok loaded
  obtain rfl := Except.ok.inj loaded
  have keyed : WellKeyed platform caches := keeps_collectRules raw _ caches wellKeyed_empty collected
  intro rule member
  obtain ⟨r', inPopulated, rfl⟩ := List.mem_map.mp ((order.perm _).mem_iff.mp member)
  obtain ⟨r, inRaw, done, same⟩ := populateRules_eq_ok filled r' inPopulated
  obtain ⟨sameCondition, keys⟩ := populateRegexKeys_eq_ok r.condition r'.condition done
  have served : ∀ leaf ∈ leaves r'.condition, Served platform caches.compiledRegexes leaf :=
    fun leaf inLeaves => (keys leaf inLeaves).served keyed
  have sameId : r'.id = r.id := by rw [same]
  refine ⟨⟨r, inRaw, sameId, sameCondition⟩, fun ctx => ⟨?_, evalNode_of_served ctx _ served⟩⟩
  intro leaf inLeaves
  exact evalLeaf_of_served (served leaf inLeaves) ctx

def payloadLeaf (value : String) (caseSensitive : Bool) : ConditionNode :=
  .leaf ⟨⟨.payload, .regex, value, none, none, caseSensitive, false⟩, none⟩

def payloadRule (id : String) (priority : UInt32) (condition : ConditionNode) : RuleRaw where
  id
  description := ""
  enabled := true
  priority
  condition
  action := .block
  riskScoreDelta := 50
  response := none
  rateLimit := none
  challenge := none
  tier := none
  source := none

def sharedRules : List RuleRaw :=
  [payloadRule "late" 20 (.or [payloadLeaf "select" false, payloadLeaf "union" true]),
    payloadRule "early" 10 (.and [payloadLeaf "(?i)select" true, payloadLeaf "select" true])]

def literalPlatform : Platform :=
  { Platform.plain with
    regexNew := fun pattern => some fun hay =>
      match Text.stripStart "(?i)".toList pattern.toList with
      | some rest => Text.containsText (rest.map Char.toLower) (hay.toList.map Char.toLower)
      | none => Text.containsText pattern.toList hay.toList }

theorem shared_cache_invisible_shared :
    ∃ ruleset, compile literalPlatform (insertionOrder Rule.priority) sharedRules = .ok ruleset ∧
      ∀ rule ∈ ruleset.rules,
        (∃ r ∈ sharedRules, rule.id = r.id ∧ plain rule.condition = plain r.condition) ∧
        ∀ ctx,
          (∀ leaf ∈ leaves rule.condition, evalLeaf (fun _ _ => none) leaf ctx ruleset.compiledRegexes =
            freshEvalLeaf (fun _ _ => none) literalPlatform leaf.toConditionLeaf ctx) ∧
          evalNode (fun _ _ => none) rule.condition ctx ruleset.compiledRegexes =
            freshEvalNode (fun _ _ => none) literalPlatform (plain rule.condition) ctx := by
  obtain ⟨ruleset, loaded⟩ : ∃ ruleset, compile literalPlatform (insertionOrder Rule.priority) sharedRules = .ok ruleset := ⟨_, rfl⟩
  exact ⟨ruleset, loaded, shared_cache_invisible (fun _ _ => none) loaded⟩

end MiniWaf.SharedCache
