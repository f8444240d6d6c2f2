import MiniWaf.Documents.Verdict
import MiniWaf.Plain.Conversion

/-! One rule file in both engines. The plain engine stops at the first rule that is met; the
rule engine fires what the plain one picks when it is asked again, each time past the rules
it has picked before.
-/

set_option autoImplicit false

namespace MiniWaf.Plain

open Grl Rete Rules Documents Yaml

def Action.serdeName : Action → String
  | allow => "allow"
  | block => "block"
  | challenge => "challenge"
  | rateLimit => "rate_limit"
  | log => "log"

/-- Both loaders read the rule from the item. Scopes and upstreams are fields of the converter's only. -/
structure ReadAs (v : Yaml) (r : RuleRaw) : Prop where
  id : (v.get "id").bind asStr = some r.id
  priority : (v.get "priority").bind asU64 = some r.priority.toUInt64
  action : (v.get "action").bind asStr = some r.action.serdeName
  condition : v.get "condition" = some r.condition.yaml
  unscoped : v.get "scope" = none
  local_ : v.get "upstream_backend" = none

namespace ReadAs

variable {v : Yaml} {r : RuleRaw}

theorem itemId_eq (read : ReadAs v r) : itemId v = r.id := by
  rw [itemId, read.id]
  rfl

theorem ruleAction_eq (read : ReadAs v r) : ruleAction v = r.action.serdeName := by
  rw [ruleAction, read.action]
  rfl

theorem converts (read : ReadAs v r) : ∃ shape, ruleShape v = .ok shape ∧ shape.guard = none ∧
    shape.condition = r.condition.shape := by
  rw [ruleShape, read.id]
  dsimp only
  rw [read.condition]
  dsimp only
  rw [r.condition.condShape_yaml]
  refine ⟨_, rfl, ?_, rfl⟩
  rw [read.unscoped]
  rfl

theorem salience (read : ReadAs v r) (inRange : r.priority.toNat ≤ lastPriority) :
    (ruleSalience v).toInt = 1000 - (r.priority.toNat : Int) := by
  have detects : ruleUpstream v = none := by rw [ruleUpstream, read.local_, Option.bind_none]
  have priority : rulePriority v = ofPriority r.priority := by
    rw [rulePriority, read.priority]
    rfl
  rw [ruleSalience_detection detects priority, if_pos inRange]

end ReadAs

-- Asking again

/-- What the plain engine picks and decides when it is asked again, past each rule that only challenges or limits. -/
def askAgain (evaluate : List String → Option RuleMatch) : Nat → Tally → List String × Decision
  | 0, t => (t.taken, t.decision)
  | n + 1, t =>
    match evaluate t.taken with
    | none => (t.taken, t.decision)
    | some found =>
      let t := t.take found.ruleId
      match t.ends found.action.serdeName found.ruleId with
      | some decision => (t.taken, decision)
      | none => askAgain evaluate n (t.after found.action.serdeName)

section
variable (platform : Platform) (ctx : RequestContext)

structure SameRule (meets : Yaml → Bool) (v : Yaml) (rule : Rule) : Prop where
  id : itemId v = rule.id
  action : ruleAction v = rule.action.serdeName
  meets : meets v = evalNode platform rule.condition ctx
  enabled : rule.enabled = true
  tier : tierApplies platform rule.tier ctx = true

variable {platform ctx}

theorem SameRule.selects_eq {meets : Yaml → Bool} {v : Yaml} {rule : Rule} (same : SameRule platform ctx meets v rule)
    (skipRules : List String) :
    selects platform ctx skipRules rule = (!skipRules.contains rule.id && meets v && decide (rule.action ≠ .log)) := by
  rw [selects, same.enabled, same.tier, ← same.meets, Bool.true_and, Bool.and_true]

def kept (keep : String → Bool) (t : Tally) : Tally := { t with taken := t.taken.filter keep }

theorem kept_after (keep : String → Bool) (t : Tally) (action : String) :
    kept keep (t.after action) = (kept keep t).after action := by
  unfold Tally.after
  split <;> rfl

theorem kept_take {keep : String → Bool} {id : String} (keeps : keep id = true) (t : Tally) :
    kept keep (t.take id) = (kept keep t).take id := by
  simp [kept, Tally.take, keeps]

theorem kept_drop {keep : String → Bool} {id : String} (drops : keep id = false) (t : Tally) :
    kept keep (t.take id) = kept keep t := by
  simp [kept, Tally.take, drops]

theorem kept_ends (keep : String → Bool) (t : Tally) (action id : String) :
    (kept keep t).ends action id = t.ends action id := rfl

theorem evaluateRules_past {front back : List Rule} {skipRules : List String}
    (past : ∀ rule ∈ front, selects platform ctx skipRules rule = false) :
    evaluateRules platform (front ++ back) ctx skipRules = evaluateRules platform back ctx skipRules := by
  have nothing : front.find? (selects platform ctx skipRules) = none := by
    rw [List.find?_eq_none]
    intro rule member
    rw [past rule member]
    exact Bool.false_ne_true
  rw [evaluateRules_eq, evaluateRules_eq, List.find?_append, nothing, Option.none_or]

theorem selects_later {rule : Rule} {skipRules : List String} (id : String)
    (past : selects platform ctx skipRules rule = false) : selects platform ctx (skipRules ++ [id]) rule = false := by
  simp only [selects, List.contains_eq_mem, List.mem_append] at past ⊢
  by_cases seen : rule.id ∈ skipRules
  · simp [seen]
  · simp only [seen, decide_false, Bool.not_false, Bool.and_true] at past
    by_cases here : rule.id ∈ [id]
    · simp [here]
    · simp only [seen, here, or_self, decide_false, Bool.not_false, Bool.and_true]
      exact past

/-- The run lemma: what is left of the list is gone through as the plain engine is asked, the rules before it being
past for both. -/
theorem askAgain_verdict {meets : Yaml → Bool} {keep : String → Bool} {items : List Yaml} {back : List Rule}
    (same : List.Forall₂ (SameRule platform ctx meets) items back)
    (keeps : ∀ rule ∈ back, keep rule.id = decide (rule.action ≠ .log)) (distinct : (back.map Rule.id).Nodup)
    {n m : Nat} (enough : items.countP meets ≤ n) (asks : back.length ≤ m) {front : List Rule} {t : Tally}
    (past : ∀ rule ∈ front, selects platform ctx (kept keep t).taken rule = false)
    (unseen : ∀ rule ∈ back, rule.id ∉ t.taken) :
    ((verdict meets n t items).1.filter keep, (verdict meets n t items).2) =
      askAgain (evaluateRules platform (front ++ back) ctx) m (kept keep t) := by
  induction same generalizing n m front t with
  | nil =>
    rw [verdict]
    cases m with
    | zero => rfl
    | succ m =>
      rw [askAgain, evaluateRules_past past]
      rfl
  | @cons v rule items back here rest ih =>
    rw [List.map_cons, List.nodup_cons] at distinct
    obtain ⟨keepsHere, keepsRest⟩ := List.forall_mem_cons.mp keeps
    obtain ⟨unseenHere, unseenRest⟩ := List.forall_mem_cons.mp unseen
    have shift : front ++ rule :: back = (front ++ [rule]) ++ back := by simp
    have others (id : String) (fromHere : id = rule.id) : ∀ other ∈ back, other.id ∉ (t.take id).taken := by
      intro other member
      rw [Tally.take, List.mem_append, List.mem_singleton, not_or]
      refine ⟨unseenRest other member, fun clash => distinct.1 ?_⟩
      exact List.mem_map.mpr ⟨other, member, clash.trans fromHere⟩
    by_cases met : meets v = true
    · rw [List.countP_cons_of_pos met] at enough
      obtain ⟨n, rfl⟩ : ∃ k, n = k + 1 := ⟨n - 1, by omega⟩
      have turn : (meets v && decide (itemId v ∉ t.taken)) = true := by
        rw [met, here.id, Bool.true_and, decide_eq_true_eq]
        exact unseenHere
      rw [verdict, if_pos turn, here.id, here.action]
      by_cases logs : rule.action = .log
      · -- the plain engine passes over it, and it leaves no trace but its id
        have drops : keep rule.id = false := by rw [keepsHere, logs]; rfl
        rw [logs]
        have skipped : selects platform ctx (kept keep (t.take rule.id)).taken rule = false := by
          rw [here.selects_eq, logs]
          simp
        have resumed : (t.take rule.id).after "log" = t.take rule.id := rfl
        dsimp only [Action.serdeName, Tally.ends]
        rw [resumed, shift, ← kept_drop drops t]
        refine ih keepsRest distinct.2 (by omega) (Nat.le_of_succ_le asks) (List.forall_mem_append.mpr ⟨?_, ?_⟩)
          (others rule.id rfl)
        · rw [kept_drop drops]
          exact past
        · exact List.forall_mem_singleton.mpr skipped
      · have keepsIt : keep rule.id = true := by rw [keepsHere, decide_eq_true logs]
        obtain ⟨m, rfl⟩ : ∃ k, m = k + 1 := ⟨m - 1, by rw [List.length_cons] at asks; omega⟩
        have unkept : rule.id ∉ (kept keep t).taken := fun seen => unseenHere (List.mem_of_mem_filter seen)
        have picked : selects platform ctx (kept keep t).taken rule = true := by
          rw [here.selects_eq, met, decide_eq_true logs]
          simpa using unkept
        rw [askAgain, evaluateRules_past past, evaluateRules_cons, if_pos picked]
        simp only [RuleMatch.ofRule]
        rw [← kept_take keepsIt, kept_ends]
        cases (t.take rule.id).ends rule.action.serdeName rule.id with
        | some decision => rfl
        | none =>
          dsimp only
          rw [← kept_after, shift]
          have later : ∀ other ∈ front ++ [rule],
              selects platform ctx (kept keep ((t.take rule.id).after rule.action.serdeName)).taken other = false := by
            rw [kept_after, Tally.taken_after, kept_take keepsIt, Tally.take]
            refine List.forall_mem_append.mpr ⟨fun other member => selects_later rule.id (past other member), ?_⟩
            refine List.forall_mem_singleton.mpr ?_
            rw [here.selects_eq]
            simp
          refine ih keepsRest distinct.2 (by omega) (Nat.le_of_succ_le_succ asks) later ?_
          rw [Tally.taken_after]
          exact others rule.id rfl
    · have turn : ¬ (meets v && decide (itemId v ∉ t.taken)) = true := by simp [met]
      rw [verdict_skip turn, shift]
      rw [List.countP_cons_of_neg met] at enough
      refine ih keepsRest distinct.2 enough (Nat.le_of_succ_le asks) (List.forall_mem_append.mpr ⟨past, ?_⟩) unseenRest
      refine List.forall_mem_singleton.mpr ?_
      simp [here.selects_eq, met]

theorem countP_same {meets : Yaml → Bool} {items : List Yaml} {rules : List Rule}
    (same : List.Forall₂ (SameRule platform ctx meets) items rules) :
    items.countP meets = rules.countP fun rule => evalNode platform rule.condition ctx := by
  induction same with
  | nil => rfl
  | cons here _ ih => rw [List.countP_cons, List.countP_cons, ih, here.meets]

-- A rule file

variable (platform ctx) in
/-- Both engines take the rule alike at this request: nothing decides in it that only one of them reads. -/
structure Common (v : Yaml) (r : RuleRaw) : Prop where
  read : ReadAs v r
  inRange : r.priority.toNat ≤ lastPriority
  enabled : r.enabled = true
  tier : tierApplies platform r.tier ctx = true
  kept : Kept platform r.condition.shape
  known : ∀ leaf ∈ r.condition.leaves, Known leaf
  agreed : ∀ leaf ∈ r.condition.leaves, Agreed platform ctx leaf

variable {fact : MiniWaf.RequestContext} {registry : FunctionRegistry}

theorem Common.sameRule (globs : GlobRegex platform) (matchesBuiltIn : registry.fns "matches" = none)
    (containsBuiltIn : registry.fns "contains" = none) (startsBuiltIn : registry.fns "starts_with" = none)
    (same : SameRequest ctx fact) (unescaped : '%' ∉ fact.path.toList) (utf8 : ∃ t, ctx.payload = Text.utf8 t)
    {v : Yaml} {r : RuleRaw} (common : Common platform ctx v r) :
    SameRule platform ctx (itemMeets platform fact registry) v (compileRule r) := by
  refine ⟨common.read.itemId_eq, common.read.ruleAction_eq, ?_, common.enabled, common.tier⟩
  obtain ⟨shape, converts, unguarded, condition⟩ := common.read.converts
  have meets : itemMeets platform fact registry v = shape.meets platform fact registry := by
    rw [itemMeets, converts]
    rfl
  rw [meets, RuleShape.meets, unguarded, condition, ← Grl.truth_shape _ common.kept.clean]
  have reading : truth platform (.new fact registry) (r.condition.shape.expr platform) =
      r.condition.holds (converted platform · fact) := by
    rw [← truth_shape common.kept]
    apply ConditionNode.holds_congr
    intro leaf member
    exact truth_leaf globs unescaped matchesBuiltIn containsBuiltIn startsBuiltIn (common.known leaf member)
      (kept_leaves common.kept leaf member)
  rw [reading]
  change r.condition.holds _ = evalNode platform r.condition ctx
  rw [evalNode_eq_holds]
  apply ConditionNode.holds_congr
  intro leaf member
  exact (evalLeaf_of_agreed same utf8 (common.known leaf member) (common.agreed leaf member)).symm

theorem Common.order {v w : Yaml} {r s : RuleRaw} (first : Common platform ctx v r) (second : Common platform ctx w s) :
    itemOrder v w ↔ r.priority ≤ s.priority := by
  rw [itemOrder, Int32.le_iff_toInt_le, first.read.salience first.inRange, second.read.salience second.inRange,
    UInt32.le_iff_toNat_le]
  omega

theorem okItems_common {items : List Yaml} {raw : List RuleRaw}
    (common : List.Forall₂ (Common platform ctx) items raw) : okItems platform items = items := by
  induction common with
  | nil => rfl
  | @cons v r items raw here _ ih =>
    obtain ⟨shape, converts, -⟩ := here.read.converts
    have written : (ruleToGrl platform v).toOption.isSome = true := by
      rw [ruleToGrl_eq, converts]
      rfl
    rw [okItems] at ih ⊢
    rw [List.filter_cons, if_pos written, ih]

theorem sort_compileRule (order : SortUnstable Rule.priority) {raw : List RuleRaw}
    (distinct : (raw.map RuleRaw.priority).Nodup) :
    order.sort (raw.map compileRule) = (raw.insertionSort fun r s => r.priority ≤ s.priority).map compileRule := by
  have keys : ((raw.map compileRule).map Rule.priority).Nodup := by
    rw [List.map_map]
    exact distinct
  rw [order.sort_of_distinct keys]
  exact (List.map_insertionSort (fun r s : RuleRaw => r.priority ≤ s.priority)
    (fun a b : Rule => a.priority ≤ b.priority) compileRule raw fun _ _ _ _ => Iff.rfl).symm

def acts (raw : List RuleRaw) (id : String) : Bool := raw.any fun r => r.id == id && decide (r.action ≠ .log)

theorem acts_of_mem {raw : List RuleRaw} (ids : (raw.map RuleRaw.id).Nodup) {r : RuleRaw} (member : r ∈ raw) :
    acts raw r.id = decide (r.action ≠ .log) := by
  rw [Bool.eq_iff_iff, acts, List.any_eq_true, decide_eq_true_eq]
  constructor
  · rintro ⟨s, inRaw, both⟩
    rw [Bool.and_eq_true, beq_iff_eq, decide_eq_true_eq] at both
    exact List.inj_on_of_nodup_map ids inRaw member both.1 ▸ both.2
  · intro acting
    exact ⟨r, member, by rw [Bool.and_eq_true, beq_iff_eq, decide_eq_true_eq]; exact ⟨rfl, acting⟩⟩

/-- Over one file, the rule engine fires the rules the plain engine picks when it is asked again and again, in this
order, and log rules besides; and it decides as these picks do. -/
theorem fires_as_asked (globs : GlobRegex platform) {doc : Yaml} {items : List Yaml} {rules : List RuleAst}
    (sequence : doc.asSequence = some items) (converted : documentRules platform doc = some rules)
    (clean : ∀ r ∈ okRules items, r.clean platform = true ∧ r.keepsId platform = true) {engine : Engine}
    (network : engine.network = .compile platform rules) (matchesBuiltIn : engine.registry.fns "matches" = none)
    (containsBuiltIn : engine.registry.fns "contains" = none) (startsBuiltIn : engine.registry.fns "starts_with" = none)
    {order : SortUnstable Rule.priority} {raw : List RuleRaw} {ruleset : RuleSet}
    (loaded : compile platform order raw = .ok ruleset)
    (distinct : (raw.map RuleRaw.priority).Nodup) (same : SameRequest ctx fact) (unescaped : '%' ∉ fact.path.toList)
    (utf8 : ∃ t, ctx.payload = Text.utf8 t) (common : List.Forall₂ (Common platform ctx) items raw)
    (few : raw.countP (fun r => evalNode platform r.condition ctx) ≤ maxCycles) :
    ((engine.fire platform fact).matchedRules.filter (acts raw), outcomeToDecision (engine.fire platform fact)) =
      askAgain (evaluate platform ruleset ctx) raw.length .start := by
  obtain ⟨⟨ids, -⟩, rfl⟩ := (compile_eq_ok platform).mp loaded
  have compiled : engine.network = .compile platform ((okRules items).map (RuleShape.ast platform)) := by
    rw [network, ← Option.some.inj (converted.symm.trans (documentRules_eq sequence fun r member => (clean r member).1))]
  obtain ⟨matched, decided⟩ := Prod.mk.inj (fire_verdict compiled matchesBuiltIn clean fact)
  let sorted := raw.insertionSort fun r s => r.priority ≤ s.priority
  have perm : sorted.Perm raw := List.perm_insertionSort _ raw
  have related : List.Forall₂ (SameRule platform ctx (itemMeets platform fact engine.registry))
      (orderedItems platform items) (sorted.map compileRule) := by
    rw [orderedItems, okItems_common common, List.forall₂_map_right_iff]
    refine (StableSort.forall₂_insertionSort ?_ common).imp fun v r both =>
      both.sameRule globs matchesBuiltIn containsBuiltIn startsBuiltIn same unescaped utf8
    exact fun v w r s first second => first.order second
  have keeps : ∀ rule ∈ sorted.map compileRule, acts raw rule.id = decide (rule.action ≠ .log) := by
    intro rule member
    obtain ⟨r, inSorted, rfl⟩ := List.mem_map.mp member
    exact acts_of_mem ids (perm.mem_iff.mp inSorted)
  have sortedIds : ((sorted.map compileRule).map Rule.id).Nodup := by
    rw [List.map_map]
    exact (perm.map RuleRaw.id).nodup_iff.mpr ids
  have enough : (orderedItems platform items).countP (itemMeets platform fact engine.registry) ≤ maxCycles := by
    rw [countP_same related, List.countP_map, perm.countP_eq]
    exact few
  have asks : (sorted.map compileRule).length ≤ raw.length := by rw [List.length_map, perm.length_eq]
  have past : ∀ rule ∈ ([] : List Rule), selects platform ctx (kept (acts raw) .start).taken rule = false :=
    List.forall_mem_nil _
  rw [matched, decided, sort_compileRule order distinct]
  exact askAgain_verdict related keeps sortedIds enough asks past fun _ _ => List.not_mem_nil

end

def RuleRaw.yaml (r : RuleRaw) : Yaml :=
  .record [("id", .string r.id), ("priority", .number (.posInt r.priority.toUInt64)), ("condition", r.condition.yaml),
    ("action", .string r.action.serdeName)]

theorem readAs_yaml (r : RuleRaw) : ReadAs r.yaml r := ⟨rfl, rfl, rfl, rfl, rfl, rfl⟩

theorem common_login (id : String) (priority : UInt32) (action : Action) (inRange : priority.toNat ≤ lastPriority) :
    Common globPlatform (pathRequest "/login") (pathRule id priority action "/login").yaml
      (pathRule id priority action "/login") := by
  have leaf : ∀ leaf ∈ (pathRule id priority action "/login").condition.leaves, leaf = pathLeaf .exact "/login" :=
    fun _ member => List.mem_singleton.mp member
  refine ⟨readAs_yaml _, inRange, rfl, rfl, ?_, fun l member => ?_, fun l member => ?_⟩
  · change Kept globPlatform (ConditionNode.leaf (pathLeaf .exact "/login")).shape
    constructor <;> decide +kernel
  · rw [leaf l member]
    exact known_of_field (equals_ne_never _ _) (by decide)
  · rw [leaf l member]
    exact ⟨rfl, rfl, trivial⟩

def loginRules : List RuleRaw :=
  [pathRule "stop" 20 .block "/login", pathRule "prove" 10 .challenge "/login", pathRule "note" 1 .log "/login"]

theorem fires_as_asked_login : ∃ rules ruleset,
    documentRules globPlatform (.sequence (loginRules.map RuleRaw.yaml)) = some rules ∧
      compile globPlatform (insertionOrder Rule.priority) loginRules = .ok ruleset ∧
      let outcome := (Engine.new globPlatform (.compile globPlatform rules)).fire globPlatform (pathFact "/login")
      (outcome.matchedRules.filter (acts loginRules), outcomeToDecision outcome) =
        askAgain (evaluate globPlatform ruleset (pathRequest "/login")) 3 .start := by
  have clean : ∀ r ∈ okRules (loginRules.map RuleRaw.yaml), r.clean globPlatform = true ∧ r.keepsId globPlatform = true := by
    decide +kernel
  have converted : documentRules globPlatform (.sequence (loginRules.map RuleRaw.yaml)) = some _ :=
    documentRules_eq rfl fun r member => (clean r member).1
  obtain ⟨ruleset, loaded⟩ : ∃ ruleset,
      compile globPlatform (insertionOrder Rule.priority) loginRules = .ok ruleset := ⟨_, rfl⟩
  have common : List.Forall₂ (Common globPlatform (pathRequest "/login")) (loginRules.map RuleRaw.yaml) loginRules := by
    exact .cons (common_login "stop" 20 .block (by decide)) (.cons (common_login "prove" 10 .challenge (by decide))
      (.cons (common_login "note" 1 .log (by decide)) .nil))
  refine ⟨_, ruleset, converted, loaded, ?_⟩
  exact fires_as_asked globPlatform_globs rfl converted clean rfl rfl rfl rfl loaded (by decide) (pathFact_same "/login")
    (by decide +kernel) ⟨[], rfl⟩ common (Nat.le_trans List.countP_le_length (by decide))

/-- The challenge is picked first, and the block decides. -/
example : (compile .plain (insertionOrder Rule.priority) loginRules).toOption.map (fun ruleset =>
    askAgain (evaluate .plain ruleset (pathRequest "/login")) 3 .start) = some (["prove", "stop"], .block "stop") := by
  decide +kernel

end MiniWaf.Plain
