import Mathlib.Data.List.Find
import MiniWaf.Optimized.Glob
import MiniWaf.Optimized.Loader
import MiniWaf.Plain.Loader
import MiniWaf.Theory.Simulation

/-! The two YAML engines side by side: which leaves they read alike, and from there
when they pick the same rule.
-/

set_option autoImplicit false

namespace MiniWaf.Optimized

open Plain (RuleRaw MatchType pieceOf pieceOf_item matchRecursive_iff)

def inBlock (net : IpAddr) (n : Nat) (a : IpAddr) : Bool :=
  match net, a with
  | .v4 x, .v4 y => x >>> (32 - n) == y >>> (32 - n)
  | .v6 x, .v6 y => x >>> (128 - n) == y >>> (128 - n)
  | _, _ => false

def addressBits : IpAddr → Nat
  | .v4 _ => 32
  | .v6 _ => 128

/-- An address, a slash and a decimal prefix length that fits. -/
structure IsBlock (cidr : Text) (net : IpAddr) (n : Nat) : Prop where
  spelled : ∃ addr, '/' ∉ addr ∧ IpAddr.parse addr = some net ∧ cidr = addr ++ '/' :: Text.ofNat n
  fits : n ≤ addressBits net

/-- The `ipnet` crate reads blocks as documented. -/
def BlockParser (ipNet : IpNetParser) : Prop :=
  ∀ cidr net n, IsBlock cidr net n → ∃ contains, ipNet (String.ofList cidr) = some contains ∧
    ∀ a, contains a = inBlock net n a

section
variable (platform : Platform)

structure ValueShared (leaf : Plain.ConditionLeaf) (value : String) : Prop where
  /-- The case of letters, which the optimised engine always minds, decides nothing. -/
  caseless : Plain.matchValue platform value leaf = Plain.matchValue platform value { leaf with caseSensitive := true }
  -- the optimised engine knows no `?`, and lets anything follow the last part
  glob : leaf.matchType = .wildcard → '?' ∉ leaf.value.toList ∧ ['*'] <:+ leaf.value.toList
  block : leaf.matchType = .cidr → ∃ net n, IsBlock leaf.value.toList net n

/-- Both engines read the leaf alike at this request. -/
def LeafShared (ctx : Plain.RequestContext) (leaf : Plain.ConditionLeaf) : Prop :=
  match subject leaf ctx with
  | some value => ValueShared platform leaf value ∧ (leaf.field = .payload → ctx.payload = Text.utf8 value.toList)
  -- the plain engine compares the text it has, mostly the empty one; the optimised one says no
  | none => Plain.matchValue platform (Plain.subjectText leaf ctx) leaf = false

/-- The plain engine gets to the rule: it is enabled, and no enabled rule before it is picked. -/
def Considered (ctx : Plain.RequestContext) (skipRules : List String) (allRules : List (RuleRaw × String))
    (raw : RuleRaw × String) : Prop :=
  Agenda.Reaches (fun raw => raw.1.enabled) (fun raw => Plain.selects platform ctx skipRules (Plain.compileRule raw.1))
    allRules raw

/-- If the rule is met it may also be picked. -/
def Pickable (ctx : Plain.RequestContext) (skipRules : List String) (r : RuleRaw) : Prop :=
  Plain.evalNode platform r.condition ctx = true →
    r.id ∉ skipRules ∧ Plain.tierApplies platform r.tier ctx = true ∧ r.action ≠ .log

end

theorem leafShared_of_subject {platform : Platform} {ctx : Plain.RequestContext} {leaf : Plain.ConditionLeaf}
    {value : String} (found : subject leaf ctx = some value) (same : ValueShared platform leaf value)
    (notPayload : leaf.field ≠ .payload) : LeafShared platform ctx leaf := by
  unfold LeafShared
  rw [found]
  exact ⟨same, fun isPayload => absurd isPayload notPayload⟩

-- Globs

theorem globMatch_iff {pattern text : String} (noOne : '?' ∉ pattern.toList) :
    globMatch pattern text = true ↔ Glob.Matches (pattern.toList.map pieceOf ++ [.star]) text.toList := by
  have same : pattern.toList.map pieceOf = pattern.toList.map starOf := by
    apply List.map_congr_left
    intro c member
    by_cases star : c = '*'
    · rw [star]
      rfl
    · have notOne : c ≠ '?' := fun isOne => noOne (isOne ▸ member)
      rw [pieceOf_item star notOne, starOf, if_neg star]
  rw [globMatch_iff_open, same]

/-- On a pattern that ends in a star, and has no `?`, the two globs agree. -/
theorem glob_agrees {pattern text : String} (noOne : '?' ∉ pattern.toList) (open_ : ['*'] <:+ pattern.toList) :
    Plain.matchRecursive pattern.toList text.toList = globMatch pattern text := by
  rw [Bool.eq_iff_iff, matchRecursive_iff, globMatch_iff noOne]
  obtain ⟨front, ends⟩ := open_
  rw [← ends, List.map_append]
  exact Glob.matches_star_star.symm

-- Addresses

theorem small_of_fits {net : IpAddr} {n : Nat} (fits : n ≤ addressBits net) : n < 256 := by
  cases net <;> simp only [addressBits] at fits <;> omega

theorem shift_all {width : Nat} (x y : BitVec width) : (x >>> (width - 0) == y >>> (width - 0)) = true := by
  rw [beq_iff_eq, Nat.sub_zero, BitVec.ushiftRight_eq_zero (Nat.le_refl _), BitVec.ushiftRight_eq_zero (Nat.le_refl _)]

/-- The plain engine's mask, with its shortcut for length 0, compares the leading bits. -/
theorem masked_eq {width : Nat} (bits : UInt8) (x y : BitVec width) :
    (if bits = 0 then true else x &&& Plain.networkMask width bits == y &&& Plain.networkMask width bits) =
      (x >>> (width - min bits.toNat width) == y >>> (width - min bits.toNat width)) := by
  by_cases zero : bits = 0
  · have none : min bits.toNat width = 0 := by
      rw [zero]
      exact Nat.zero_min width
    rw [if_pos zero, none, shift_all]
  · rw [if_neg zero, Plain.networkMask, Bool.eq_iff_iff, beq_iff_eq, beq_iff_eq]
    exact mask_eq_iff x y _

theorem block_eq {width n : Nat} (small : n < 256) (fits : n ≤ width) (x y : BitVec width) :
    (if UInt8.ofNat n = 0 then true else
        x &&& Plain.networkMask width (UInt8.ofNat n) == y &&& Plain.networkMask width (UInt8.ofNat n)) =
      (x >>> (width - n) == y >>> (width - n)) := by
  have number : min (UInt8.ofNat n).toNat width = n := by
    rw [Text.toNat_byte small, Nat.min_eq_left fits]
  rw [masked_eq, number]

theorem cidr_agrees {ipNet : IpNetParser} (blocks : BlockParser ipNet) {cidr : String} {net : IpAddr} {n : Nat}
    (isBlock : IsBlock cidr.toList net n) (ip : String) : Plain.cidrContains cidr ip = cidrMatch ipNet cidr ip := by
  obtain ⟨contains, parsed, inside⟩ := blocks _ net n isBlock
  obtain ⟨⟨addr, noSlash, isNet, spelled⟩, fits⟩ := isBlock
  have small := small_of_fits fits
  rw [String.ofList_toList] at parsed
  unfold Plain.cidrContains cidrMatch
  rw [parsed, spelled, Text.splitOnce_append noSlash]
  simp only [Text.parseU8_ofNat small, isNet, Option.getD_some]
  cases IpAddr.parse ip.toList with
  | none => rfl
  | some a =>
    simp only [inside]
    cases net with
    | v4 x =>
      cases a with
      | v4 y => exact block_eq small fits x y
      | v6 y => rfl
    | v6 x =>
      cases a with
      | v4 y => rfl
      | v6 y => exact block_eq small fits x y

-- Leaves

section
variable {platform : Platform} {ipNet : IpNetParser}

theorem matchValue_agrees (blocks : BlockParser ipNet) {patternToKey : AssocMap String String} {cache : RegexCache}
    {leaf : Plain.ConditionLeaf} {value : String} (shared : ValueShared platform leaf value)
    (cached : leaf.matchType = .regex → Cached platform patternToKey cache leaf) :
    matchValue ipNet leaf.value value leaf.matchType cache (leafWithKey patternToKey leaf).compiledRegexKey =
      Plain.matchValue platform value leaf := by
  rw [shared.caseless]
  unfold matchValue Plain.matchValue
  cases kind : leaf.matchType with
  | exact => rfl
  | wildcard =>
    obtain ⟨noOne, ends⟩ := shared.glob kind
    exact (glob_agrees noOne ends).symm
  | regex =>
    obtain ⟨key, re, isRegex, held⟩ := cached kind
    have filled : (leafWithKey patternToKey leaf).compiledRegexKey = some leaf.value := (if_pos kind).trans key
    have pattern : Plain.leafPattern { leaf with caseSensitive := true } = leaf.value := rfl
    simp only [kind] at pattern
    simp only [filled, held, pattern, Platform.isMatch, isRegex]
  | cidr =>
    obtain ⟨net, n, isBlock⟩ := shared.block kind
    exact (cidr_agrees blocks isBlock value).symm
  | presence => rfl
  | absence => rfl

theorem subjectText_of_subject {leaf : Plain.ConditionLeaf} {ctx : Plain.RequestContext} {value : String}
    (found : subject leaf ctx = some value) (valid : leaf.field = .payload → ctx.payload = Text.utf8 value.toList) :
    Plain.subjectText leaf ctx = value := by
  unfold subject at found
  unfold Plain.subjectText
  cases field : leaf.field with
  | header =>
    simp only [field] at found ⊢
    obtain ⟨name, named, held⟩ := Option.bind_eq_some_iff.mp found
    rw [named, Option.getD_some, held, Option.getD_some]
  | cookie =>
    simp only [field] at found ⊢
    obtain ⟨name, named, held⟩ := Option.bind_eq_some_iff.mp found
    rw [named, Option.getD_some, held, Option.getD_some]
  | payload =>
    simp only
    rw [valid field, Plain.utf8OrEmpty_utf8, String.ofList_toList]
  | contentType =>
    simp only [field] at found ⊢
    rw [found, Option.getD_some]
  | _ =>
    simp only [field] at found ⊢
    exact Option.some.inj found

theorem leaf_agrees (blocks : BlockParser ipNet) {patternToKey : AssocMap String String} {cache : RegexCache}
    {ctx : Plain.RequestContext} {leaf : Plain.ConditionLeaf} (shared : LeafShared platform ctx leaf)
    (cached : leaf.matchType = .regex → Cached platform patternToKey cache leaf) :
    evalLeaf ipNet (leafWithKey patternToKey leaf) ctx cache = Plain.evalLeaf platform leaf ctx := by
  unfold LeafShared at shared
  unfold evalLeaf
  cases found : subject leaf ctx with
  | some value =>
    simp only [found] at shared
    obtain ⟨same, valid⟩ := shared
    rw [Plain.evalLeaf_eq platform fun isPayload => ⟨_, valid isPayload⟩, subjectText_of_subject found valid,
      ← matchValue_agrees blocks same cached]
    simp only [leafWithKey, found]
  | none =>
    simp only [found] at shared
    have notPayload : leaf.field ≠ .payload := by
      intro isPayload
      simp [subject, isPayload] at found
    rw [Plain.evalLeaf_eq platform fun isPayload => absurd isPayload notPayload, shared]
    simp only [leafWithKey, found]

theorem eval_populateRegexKeys (patternToKey : AssocMap String String) (cache : RegexCache) (ctx : Plain.RequestContext)
    (node : Plain.ConditionNode) :
    eval ipNet (populateRegexKeys patternToKey node) ctx cache =
      node.holds fun leaf => evalLeaf ipNet (leafWithKey patternToKey leaf) ctx cache := by
  induction node using Plain.ConditionNode.byNodes with
  | and nodes ih =>
    rw [populateRegexKeys, populateAll_eq_map, eval, evalAll_eq, List.all_map, Plain.ConditionNode.holds,
      Plain.ConditionNode.holdsAll_eq]
    exact all_eq_of_mem ih
  | or nodes ih =>
    rw [populateRegexKeys, populateAll_eq_map, eval, evalAny_eq, List.any_map, Plain.ConditionNode.holds,
      Plain.ConditionNode.holdsAny_eq]
    exact any_eq_of_mem ih
  | leaf l => rfl

/-- Conditions whose leaves are shared have one value in both engines. -/
theorem condition_agrees (blocks : BlockParser ipNet) {patternToKey : AssocMap String String} {cache : RegexCache}
    {ctx : Plain.RequestContext} (node : Plain.ConditionNode)
    (shared : ∀ leaf ∈ node.leaves, LeafShared platform ctx leaf)
    (cached : ∀ leaf ∈ node.leaves, leaf.matchType = .regex → Cached platform patternToKey cache leaf) :
    eval ipNet (populateRegexKeys patternToKey node) ctx cache = Plain.evalNode platform node ctx := by
  rw [eval_populateRegexKeys, Plain.evalNode_eq_holds]
  apply Plain.ConditionNode.holds_congr
  intro leaf member
  exact leaf_agrees blocks (shared leaf member) (cached leaf member)

-- Rule lists

theorem sorted_rules {patternToKey : AssocMap String String} {allRules : List (RuleRaw × String)}
    (sorted : allRules.Pairwise fun a b => a.1.priority ≤ b.1.priority) :
    ((allRules.map (compileRule patternToKey)).insertionSort fun a b => a.priority ≤ b.priority) =
      allRules.map (compileRule patternToKey) := by
  apply List.Pairwise.insertionSort_eq
  rw [List.pairwise_map]
  exact sorted

/-- The plain engine picks the enabled rules it meets, unless one of them may not be picked. -/
theorem selects_eq_iff {ctx : Plain.RequestContext} {skipRules : List String} {r : RuleRaw}
    (enabled : r.enabled = true) :
    Plain.selects platform ctx skipRules (Plain.compileRule r) = Plain.evalNode platform r.condition ctx ↔
      Pickable platform ctx skipRules r := by
  unfold Plain.selects Plain.compileRule Pickable
  rw [enabled]
  cases Plain.evalNode platform r.condition ctx with
  | false => simp
  | true => simp [and_assoc]

end

theorem evaluate_ruleId {platform : Platform} {ipNet : IpNetParser} {allRules : List (RuleRaw × String)}
    {ruleset : RuleSet} (loaded : compileRules platform allRules = .ok ruleset)
    (sorted : allRules.Pairwise fun a b => a.1.priority ≤ b.1.priority) (ctx : Plain.RequestContext) (skipRules : List String) :
    (evaluate ipNet ruleset ctx skipRules).map MatchResult.ruleId = (allRules.find? fun raw => raw.1.enabled &&
      eval ipNet (populateRegexKeys (patternsOf allRules) raw.1.condition) ctx ruleset.compiledRegexes).map
        fun raw => raw.1.id := by
  rw [evaluate, evaluateRules_eq, (compileRules_eq_ok loaded).1, sorted_rules sorted, List.find?_map, Option.map_map,
    Option.map_map]
  rfl

theorem plain_ruleId (platform : Platform) (allRules : List (RuleRaw × String)) (ctx : Plain.RequestContext)
    (skipRules : List String) :
    (Plain.evaluate platform ⟨allRules.map fun raw => Plain.compileRule raw.1⟩ ctx skipRules).map Plain.RuleMatch.ruleId =
      (allRules.find? fun raw => raw.1.enabled && Plain.selects platform ctx skipRules (Plain.compileRule raw.1)).map
        fun raw => raw.1.id := by
  have enabled : ∀ raw : RuleRaw × String,
      (raw.1.enabled && Plain.selects platform ctx skipRules (Plain.compileRule raw.1)) =
        Plain.selects platform ctx skipRules (Plain.compileRule raw.1) := by
    intro raw
    unfold Plain.selects Plain.compileRule
    cases raw.1.enabled <;> rfl
  simp only [enabled]
  rw [Plain.evaluate, Plain.evaluateRules_eq, List.find?_map, Option.map_map, Option.map_map]
  rfl

def slashBlocks : IpNetParser := fun cidr =>
  match Text.splitOnce '/' cidr.toList with
  | none => none
  | some (addr, bits) =>
    match IpAddr.parse addr, Text.parseU8 bits with
    | some net, some n => if n.toNat ≤ addressBits net then some (inBlock net n.toNat) else none
    | _, _ => none

theorem slashBlocks_reads : BlockParser slashBlocks := by
  rintro cidr net n ⟨⟨addr, noSlash, isNet, rfl⟩, fits⟩
  have small := small_of_fits fits
  refine ⟨inBlock net n, ?_, fun a => rfl⟩
  unfold slashBlocks
  rw [String.toList_ofList, Text.splitOnce_append noSlash]
  simp only [isNet, Text.parseU8_ofNat small, Text.toNat_byte small]
  exact if_pos fits

def blockRule (id : String) (priority : UInt32) (action : Plain.Action) (path cidr : String) : RuleRaw :=
  { Plain.pathRule id priority action path with
    condition := .and [.leaf ⟨.path, .wildcard, path, none, none, true, false⟩,
      .or [.leaf ⟨.ip, .cidr, cidr, none, none, true, false⟩]] }

def sharedRules : List (RuleRaw × String) :=
  [(Plain.pathRule "health" 10 .allow "/health", "base.yaml"),
    (blockRule "inside" 20 .block "/admin/*" "10.0.0.0/8", "base.yaml")]

end MiniWaf.Optimized
