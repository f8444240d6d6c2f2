import MiniWaf.Grl.Failing

/-! What survives the way from a YAML document through the rule language. -/

set_option autoImplicit false

namespace MiniWaf.Documents

open Grl Yaml

def itemStmts (v : Yaml) : Nat :=
  (if ((v.get "risk_score_delta").bind asI64).getD 0 = 0 then 0 else 1) + (ruleUpstream v).toList.length + 1

/-- A parsed rule carries an item: its id, its salience and no statement too many. -/
def Carries (v : Yaml) (r : RuleAst) : Prop :=
  (v.get "id").bind asStr = some r.name ∧ r.salience = ruleSalience v ∧ r.then_.length = itemStmts v

def Faithful (platform : Platform) (items : List Yaml) (rules : List RuleAst) : Prop :=
  List.Forall₂ Carries (okItems platform items) rules

variable {platform : Platform} {doc : Yaml} {items : List Yaml}

theorem carries_iff {v : Yaml} {r : RuleShape} (converts : ruleShape v = .ok r) :
    Carries v (r.ast platform) ↔ r.keepsId platform = true := by
  have item := ofItem converts
  have length : (r.stmts platform).length = itemStmts v := by
    rw [RuleShape.stmts, item.calls, itemStmts, ← item.delta]
    split <;> simp [Nat.add_comm]
  rw [Carries, item.id, RuleShape.keepsId, decide_eq_true_eq, Option.some.injEq]
  exact ⟨fun carried => carried.1.symm, fun same => ⟨same.symm, item.salience, length⟩⟩

theorem faithful_iff : Faithful platform items ((okRules items).map (RuleShape.ast platform)) ↔
    ∀ r ∈ okRules items, r.keepsId platform = true := by
  have converted : List.Forall₂ (fun v r => ruleShape v = .ok r) (okItems platform items) (okRules items) :=
    okItems_rules items
  rw [Faithful, List.forall₂_map_right_iff]
  generalize okItems platform items = given, okRules items = shapes at converted
  induction converted with
  | nil => simp
  | cons converts _ ih =>
    rw [List.forall₂_cons, List.forall_mem_cons]
    exact and_congr (carries_iff converts) ih

/-- An empty list in one rule drops every rule of the file. -/
theorem parse_none_of_unclean (closed : ∀ r ∈ okRules items, r.closed platform = true) {bad : RuleShape}
    (member : bad ∈ okRules items) (unclean : bad.clean platform = false) :
    parse (fileText ['\n', '\n'] ((okRules items).map (RuleShape.text platform))) = none := by
  have blank : ∀ s, skipped (['\n', '\n'] ++ s) = skipped s :=
    fun s => (skipped_newline _).trans (skipped_newline _)
  -- the rules before the first one that is not read
  cases first : (okRules items).find? fun r => !r.clean platform with
  | none =>
    have kept := List.find?_eq_none.mp first bad member
    simp [unclean] at kept
  | some worst =>
    obtain ⟨stops, before, after, split, passed⟩ := List.find?_eq_some_iff_append.mp first
    rw [Bool.not_eq_true'] at stops
    have inRules : worst ∈ okRules items := by
      rw [split]
      simp
    have worstClosed := closed worst inRules
    obtain ⟨solidWhen, stuck⟩ := RuleShape.stuckAt_when worstClosed stops
    have named : worst.name.clean platform = true := by
      simp only [RuleShape.closed, Bool.and_eq_true] at worstClosed
      exact worstClosed.1.1.1
    have reads : List.Forall₂ ReadsRule (before.map (RuleShape.text platform)) (before.map (RuleShape.ast platform)) := by
      rw [List.forall₂_map_left_iff, List.forall₂_map_right_iff, List.forall₂_same]
      intro r inBefore
      have clean : r.clean platform = true := by simpa using passed r inBefore
      obtain ⟨v, -, converts⟩ := List.mem_filterMap.mp (split ▸ List.mem_append_left _ inBefore : r ∈ okRules items)
      exact RuleShape.reads clean (ofItem (ruleShape_of_toOption converts)).calls_ne_nil
    have text : fileText ['\n', '\n'] ((okRules items).map (RuleShape.text platform)) =
        fileText ['\n', '\n'] (before.map (RuleShape.text platform)) ++
          (worst.text platform ++ (['\n', '\n'] ++ fileText ['\n', '\n'] (after.map (RuleShape.text platform)))) := by
      rw [split]
      simp [fileText]
    rw [text]
    have solid : Solid (worst.text platform) := by
      have word : Solid "rule ".toList := ⟨_, _, rfl, by decide⟩
      exact word.append _
    exact parse_fileText_none blank reads solid (fun depth rest bound =>
      ruleDef_none named worst.salience solidWhen stuck (worst.stmtTexts platform) depth rest bound) _

theorem conversion_faithful (sequence : doc.asSequence = some items)
    (closed : ∀ r ∈ okRules items, r.closed platform = true) :
    ∃ text, yamlToGrl platform doc = .ok text ∧
      ((∃ rules, parse text = some rules ∧ Faithful platform items rules) ↔
        ∀ r ∈ okRules items, r.clean platform = true ∧ r.keepsId platform = true) := by
  refine ⟨_, yamlToGrl_eq sequence, ?_, fun kept => ?_⟩
  · rintro ⟨rules, parsed, faithful⟩
    have clean : ∀ r ∈ okRules items, r.clean platform = true := by
      intro r member
      by_contra unclean
      rw [parse_none_of_unclean closed member (by simpa using unclean)] at parsed
      cases parsed
    obtain ⟨text, converted, reparsed⟩ := parse_document sequence clean
    rw [yamlToGrl_eq sequence] at converted
    cases converted
    obtain rfl := Option.some.inj (reparsed.symm.trans parsed)
    exact fun r member => ⟨clean r member, faithful_iff.mp faithful r member⟩
  · obtain ⟨text, converted, parsed⟩ := parse_document sequence fun r member => (kept r member).1
    rw [yamlToGrl_eq sequence] at converted
    cases converted
    exact ⟨_, parsed, faithful_iff.mpr fun r member => (kept r member).2⟩

def ruleItem (id : String) (condition : List (String × Yaml)) (more : List (String × Yaml)) : Yaml :=
  .record ([("id", .string id), ("condition", .record condition)] ++ more)

def detector : Yaml := ruleItem "good" [("type", .string "sqli_pattern")] []

def nestedItems : List Yaml :=
  [detector, ruleItem "say \"hi\"" [("and", .sequence [.record [("field", .string "path"),
    ("match", .string "exact"), ("value", .string "/a\"b")]])] []]

theorem conversion_faithful_nested :
    ∃ text, yamlToGrl .plain (.sequence nestedItems) = .ok text ∧
      ((∃ rules, parse text = some rules ∧ Faithful .plain nestedItems rules) ↔
        ∀ r ∈ okRules nestedItems, r.clean .plain = true ∧ r.keepsId .plain = true) :=
  conversion_faithful rfl (by decide +kernel)

def emptyListItems : List Yaml := [detector, ruleItem "odd" [("and", .sequence [])] []]

def injectingItems : List Yaml :=
  [ruleItem "way" [("type", .string "sqli_pattern")] [("upstream_backend", .string "main\"); allow(); log(\"x")]]

/-- An empty list makes the file unreadable, and a backend can bring statements of its own. -/
theorem odd_rules_corrupt :
    ((okItems .plain emptyListItems).length = 2 ∧ (yamlToGrl .plain (.sequence emptyListItems)).toOption.isSome = true ∧
      documentRules .plain (.sequence emptyListItems) = none) ∧
    (okItems .plain injectingItems).map itemStmts = [2] ∧
      (documentRules .plain (.sequence injectingItems)).map (List.map fun r => r.then_.length) = some [4] := by
  decide +kernel

end MiniWaf.Documents
