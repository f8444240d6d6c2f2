import MiniWaf.Grl.Conversion
import MiniWaf.Rete.Order

/-! Priorities of YAML rules and the order of the terminals they become. -/

set_option autoImplicit false

namespace MiniWaf.Documents

open Grl Rete Yaml

/-- The last priority whose salience fits in an `i32`; the cast wraps from the next one on. -/
def lastPriority : Nat := 2147484648

def ofPriority (p : UInt32) : Int64 := p.toUInt64.toInt64

theorem ofPriority_toInt (p : UInt32) : (ofPriority p).toInt = p.toNat := by
  have bound := p.toNat_lt
  rw [ofPriority, Int64.toInt, UInt64.toBitVec_toInt64]
  simp [BitVec.toInt]
  omega

theorem distance_toInt (p : UInt32) : (1000 - ofPriority p).toInt = 1000 - (p.toNat : Int) := by
  have bound := p.toNat_lt
  have thousand : (1000 : Int64).toInt = 1000 := by decide
  rw [Int64.toInt_sub, ofPriority_toInt, thousand]
  refine Int.bmod_eq_of_le ?_ ?_ <;> omega

theorem salienceOf_detection (p : UInt32) : (salienceOf (ofPriority p) false).toInt =
    if p.toNat ≤ lastPriority then 1000 - (p.toNat : Int) else 1000 - (p.toNat : Int) + 4294967296 := by
  have bound := p.toNat_lt
  simp only [salienceOf, Bool.false_eq_true, if_false, Int64.toInt_toInt32, distance_toInt]
  by_cases fits : p.toNat ≤ lastPriority
  · rw [if_pos fits]
    rw [lastPriority] at fits
    refine Int.bmod_eq_of_le ?_ ?_ <;> omega
  · rw [if_neg fits, Int.bmod_def]
    rw [lastPriority] at fits
    omega

theorem salienceOf_routing (p : UInt32) :
    (salienceOf (ofPriority p) true).toInt = max 1 (min 150 (1000 - (p.toNat : Int))) := by
  have one : (1 : Int64).toInt = 1 := by decide
  have most : (150 : Int64).toInt = 150 := by decide
  have clamped : (clamp 1 150 (1000 - ofPriority p)).toInt = max 1 (min 150 (1000 - (p.toNat : Int))) := by
    rw [clamp]
    simp only [Int64.lt_iff_toInt_lt, distance_toInt, one, most]
    split
    · rw [one]
      omega
    · split
      · rw [most]
        omega
      · rw [distance_toInt]
        omega
  simp only [salienceOf, if_true, Int64.toInt_toInt32, clamped]
  refine Int.bmod_eq_of_le ?_ ?_ <;> omega

variable {platform : Platform} {doc : Yaml} {items : List Yaml}

theorem ruleAt {i : Nat} {v : Yaml} (found : (okItems platform items)[i]? = some v) :
    ∃ r : RuleAst, ((okRules items).map (RuleShape.ast platform))[i]? = some r ∧ r.salience = ruleSalience v := by
  obtain ⟨r, at_i, shape⟩ := okRules_of_item found
  exact ⟨r.ast platform, by rw [List.getElem?_map, at_i]; rfl, (ofItem shape).salience⟩

theorem runsBefore_items {i j : Nat} {v w : Yaml} (first : (okItems platform items)[i]? = some v)
    (second : (okItems platform items)[j]? = some w) (ne : i ≠ j) :
    RunsBefore platform ((okRules items).map (RuleShape.ast platform)) i j ↔
      (ruleSalience w).toInt < (ruleSalience v).toInt ∨ (ruleSalience w).toInt = (ruleSalience v).toInt ∧ i < j := by
  obtain ⟨r, at_i, salienceR⟩ := ruleAt first
  obtain ⟨s, at_j, salienceS⟩ := ruleAt second
  rw [runsBefore_iff at_i at_j ne, salienceR, salienceS, Int32.lt_iff_toInt_lt, Int32.toInt_inj]

theorem ne_of_priority_lt {i j : Nat} {v w : Yaml} (first : (okItems platform items)[i]? = some v)
    (second : (okItems platform items)[j]? = some w) {p q : UInt32} (priorityV : rulePriority v = ofPriority p)
    (priorityW : rulePriority w = ofPriority q) (lt : p < q) : i ≠ j := by
  rintro rfl
  have same : v = w := Option.some.inj (first.symm.trans second)
  subst same
  have equal := congrArg Int64.toInt (priorityV.symm.trans priorityW)
  rw [ofPriority_toInt, ofPriority_toInt] at equal
  rw [UInt32.lt_iff_toNat_lt] at lt
  omega

-- Detection rules among themselves

/-- A smaller priority runs first, and the document order decides between equal ones. -/
def PriorityOrdered (platform : Platform) (items : List Yaml) (rules : List RuleAst) : Prop :=
  ∀ i j v w, (okItems platform items)[i]? = some v → (okItems platform items)[j]? = some w →
    ruleUpstream v = none → ruleUpstream w = none → ∀ p q, rulePriority v = ofPriority p → rulePriority w = ofPriority q →
      (p < q → RunsBefore platform rules i j) ∧ (p = q → i < j → RunsBefore platform rules i j)

/-- No two detection priorities lie on either side of the last one that fits. -/
def PrioritiesFit (platform : Platform) (items : List Yaml) : Prop :=
  ∀ v ∈ okItems platform items, ∀ w ∈ okItems platform items, ruleUpstream v = none → ruleUpstream w = none →
    ∀ p q, rulePriority v = ofPriority p → rulePriority w = ofPriority q → p < q →
      q.toNat ≤ lastPriority ∨ lastPriority < p.toNat

theorem ruleSalience_detection {v : Yaml} (detects : ruleUpstream v = none) {p : UInt32}
    (priority : rulePriority v = ofPriority p) : (ruleSalience v).toInt =
      if p.toNat ≤ lastPriority then 1000 - (p.toNat : Int) else 1000 - (p.toNat : Int) + 4294967296 := by
  rw [ruleSalience, detects, priority]
  exact salienceOf_detection p

theorem ruleSalience_routing {v : Yaml} (routes : ruleUpstream v ≠ none) {p : UInt32}
    (priority : rulePriority v = ofPriority p) :
    (ruleSalience v).toInt = max 1 (min 150 (1000 - (p.toNat : Int))) := by
  rw [ruleSalience, Option.isSome_iff_ne_none.mpr routes, priority]
  exact salienceOf_routing p

theorem priority_order (sequence : doc.asSequence = some items)
    (clean : ∀ r ∈ okRules items, r.clean platform = true) :
    ∃ rules, documentRules platform doc = some rules ∧ rules.length = (okItems platform items).length ∧
      (PriorityOrdered platform items rules ↔ PrioritiesFit platform items) := by
  refine ⟨_, documentRules_eq sequence clean, ?_, ?_, ?_⟩
  · rw [List.length_map]
    exact (okItems_rules items).length_eq.symm
  · intro ordered v inV w inW detectsV detectsW p q priorityV priorityW lt
    obtain ⟨i, at_i⟩ := List.getElem?_of_mem inV
    obtain ⟨j, at_j⟩ := List.getElem?_of_mem inW
    have before := (ordered i j v w at_i at_j detectsV detectsW p q priorityV priorityW).1 lt
    have ne := ne_of_priority_lt at_i at_j priorityV priorityW lt
    rw [runsBefore_items at_i at_j ne, ruleSalience_detection detectsV priorityV,
      ruleSalience_detection detectsW priorityW] at before
    have boundQ := q.toNat_lt
    rw [UInt32.lt_iff_toNat_lt] at lt
    rw [lastPriority] at *
    split at before <;> split at before <;> omega
  · intro fit i j v w at_i at_j detectsV detectsW p q priorityV priorityW
    have salienceV := ruleSalience_detection detectsV priorityV
    have salienceW := ruleSalience_detection detectsW priorityW
    refine ⟨fun lt => ?_, fun same before => ?_⟩
    · have apart := fit v (List.mem_of_getElem? at_i) w (List.mem_of_getElem? at_j) detectsV detectsW p q priorityV
        priorityW lt
      have ne := ne_of_priority_lt at_i at_j priorityV priorityW lt
      rw [runsBefore_items at_i at_j ne, salienceV, salienceW]
      have boundP := p.toNat_lt
      rw [UInt32.lt_iff_toNat_lt] at lt
      split <;> split <;> omega
    · subst same
      rw [runsBefore_items at_i at_j (by omega), salienceV, salienceW]
      exact Or.inr ⟨rfl, before⟩

def logRule (id : String) (priority : UInt64) : Yaml :=
  .record [("id", .string id), ("priority", .number (.posInt priority)),
    ("condition", .record [("type", .string "sqli_pattern")])]

/-- Two rules within the range of the cast. -/
theorem priority_order_near :
    ∃ rules, documentRules .plain (.sequence [logRule "late" 20, logRule "early" 10]) = some rules ∧
      rules.length = (okItems .plain [logRule "late" 20, logRule "early" 10]).length ∧
      (PriorityOrdered .plain [logRule "late" 20, logRule "early" 10] rules ↔
        PrioritiesFit .plain [logRule "late" 20, logRule "early" 10]) :=
  priority_order rfl (by decide +kernel)

/-- Priority 2147484649 wraps to the largest salience and overtakes priority 1. -/
theorem large_priority_first :
    ∃ rules, documentRules .plain (.sequence [logRule "near" 1, logRule "far" 2147484649]) = some rules ∧
      ¬ PriorityOrdered .plain [logRule "near" 1, logRule "far" 2147484649] rules ∧
      (Network.compile .plain rules).terminals.map (fun t => (t.ruleName, t.salience)) =
        [("far", 2147483647), ("near", 999)] := by
  refine ⟨_, documentRules_eq rfl (by decide +kernel), ?_, by decide +kernel⟩
  intro ordered
  have converted : okItems .plain [logRule "near" 1, logRule "far" 2147484649] =
      [logRule "near" 1, logRule "far" 2147484649] := by rfl
  have first : (okItems .plain [logRule "near" 1, logRule "far" 2147484649])[0]? = some (logRule "near" 1) := by
    rw [converted]
    rfl
  have second : (okItems .plain [logRule "near" 1, logRule "far" 2147484649])[1]? = some (logRule "far" 2147484649) := by
    rw [converted]
    rfl
  have before := (ordered 0 1 _ _ first second (by decide +kernel) (by decide +kernel) 1 2147484649
    (by decide +kernel) (by decide +kernel)).1 (by decide)
  rw [runsBefore_items first second (by decide)] at before
  revert before
  decide +kernel

end MiniWaf.Documents
