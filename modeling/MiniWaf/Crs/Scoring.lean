import MiniWaf.Crs.Operator
import MiniWaf.Crs.Setvar
import Mathlib.Algebra.BigOperators.Group.List.Basic

/-! Anomaly scores: what the matched rules add up to, in whatever order they matched. -/

set_option autoImplicit false

namespace MiniWaf.Crs

section
variable (platform : Platform)

def TxState.applyAll (tx : TxState) (ops : List SetVarOp) : TxState := ops.foldl (TxState.apply platform) tx

/-- Operations that only add and subtract, by amounts that none of them changes. -/
structure Scoring (ops : List SetVarOp) : Prop where
  adds : ∀ op ∈ ops, op.op ≠ .assign
  steady : ∀ op ∈ ops, ∀ var, op.rhs = .txRef var → ∀ other ∈ ops,
    platform.toLowercase other.var ≠ platform.toLowercase var

def points (tx : TxState) (key : String) (op : SetVarOp) : Int :=
  if platform.toLowercase op.var = key then op.op.result 0 (tx.rhsValue platform op.rhs).toInt else 0

def score (tx : TxState) (var : String) (ops : List SetVarOp) : Int :=
  (tx.get platform var).toInt + (ops.map (points platform tx (platform.toLowercase var))).sum

end

variable {platform : Platform} {tx : TxState} {op : SetVarOp} {ops : List SetVarOp}

theorem apply_result {kind : VarOp} (adds : kind ≠ .assign) (old rhs : Int64) :
    kind.apply old rhs = Int64.ofInt (old.toInt + kind.result 0 rhs.toInt) := by
  cases kind with
  | assign => exact absurd rfl adds
  | incrBy => rw [VarOp.apply, VarOp.result, Int64.ofInt_add, Int.zero_add, Int64.ofInt_toInt, Int64.ofInt_toInt]
  | decrBy =>
    rw [VarOp.apply, VarOp.result, Int.zero_sub, ← Int.sub_eq_add_neg, Int64.ofInt_sub, Int64.ofInt_toInt, Int64.ofInt_toInt]

theorem get_apply (adds : op.op ≠ .assign) (var : String) : (tx.apply platform op).get platform var =
    Int64.ofInt ((tx.get platform var).toInt + points platform tx (platform.toLowercase var) op) := by
  rw [TxState.get, apply_vars, points]
  by_cases here : platform.toLowercase op.var = platform.toLowercase var
  · rw [if_pos here, ← here, AssocMap.get_insert_self, Option.getD_some, apply_result adds, TxState.get, TxState.get, here]
  · rw [if_neg here, AssocMap.get_insert_of_ne _ _ _ _ (Ne.symm here), Int.add_zero, Int64.ofInt_toInt]
    rfl

theorem get_apply_other {var : String} (other : platform.toLowercase op.var ≠ platform.toLowercase var) :
    (tx.apply platform op).get platform var = tx.get platform var := by
  rw [TxState.get, apply_vars, AssocMap.get_insert_of_ne _ _ _ _ (Ne.symm other)]
  rfl

theorem get_applyAll_other {var : String} (other : ∀ op ∈ ops, platform.toLowercase op.var ≠ platform.toLowercase var) :
    (tx.applyAll platform ops).get platform var = tx.get platform var := by
  induction ops generalizing tx with
  | nil => rfl
  | cons op rest ih =>
    rw [List.forall_mem_cons] at other
    exact (ih other.2).trans (get_apply_other other.1)

theorem Scoring.tail (scoring : Scoring platform (op :: ops)) : Scoring platform ops :=
  ⟨fun o member => scoring.adds o (List.mem_cons_of_mem _ member), fun o member var same other inOps =>
    scoring.steady o (List.mem_cons_of_mem _ member) var same other (List.mem_cons_of_mem _ inOps)⟩

theorem points_apply (scoring : Scoring platform (op :: ops)) (key : String) {other : SetVarOp} (member : other ∈ ops) :
    points platform (tx.apply platform op) key other = points platform tx key other := by
  have amount : (tx.apply platform op).rhsValue platform other.rhs = tx.rhsValue platform other.rhs := by
    cases rhs : other.rhs with
    | int n => rfl
    | txRef var =>
      have apart := scoring.steady other (List.mem_cons_of_mem _ member) var rhs op List.mem_cons_self
      exact get_apply_other apart
  rw [points, points, amount]

/-- The run lemma: a variable ends as its score, modulo the width of the numbers. -/
theorem get_applyAll (scoring : Scoring platform ops) (var : String) :
    (tx.applyAll platform ops).get platform var = Int64.ofInt (score platform tx var ops) := by
  induction ops generalizing tx with
  | nil => rw [score, List.map_nil, List.sum_nil, Int.add_zero, Int64.ofInt_toInt]; rfl
  | cons op rest ih =>
    have same : rest.map (points platform (tx.apply platform op) (platform.toLowercase var)) =
        rest.map (points platform tx (platform.toLowercase var)) :=
      List.map_congr_left fun other member => points_apply scoring _ member
    have first : (tx.apply platform op).get platform var =
        Int64.ofInt ((tx.get platform var).toInt + points platform tx (platform.toLowercase var) op) :=
      get_apply (scoring.adds op List.mem_cons_self) var
    rw [TxState.applyAll, List.foldl_cons]
    refine (ih scoring.tail).trans ?_
    rw [score, score, first, same, List.map_cons, List.sum_cons, Int64.ofInt_add, Int64.ofInt_toInt, ← Int64.ofInt_add,
      Int.add_assoc]

theorem score_perm {others : List SetVarOp} (perm : ops.Perm others) (var : String) :
    score platform tx var ops = score platform tx var others := by
  rw [score, score, (perm.map _).sum_eq]

theorem Scoring.perm {others : List SetVarOp} (scoring : Scoring platform ops) (perm : ops.Perm others) :
    Scoring platform others :=
  ⟨fun op member => scoring.adds op (perm.mem_iff.mpr member), fun op member var same other inOthers =>
    scoring.steady op (perm.mem_iff.mpr member) var same other (perm.mem_iff.mpr inOthers)⟩

/-- In whatever order the rules matched, a score ends as its start with the points, and a rule that compares it with its
threshold matches exactly if the points reach the threshold. -/
theorem threshold_rule_iff (platform : Platform) (automata : DataAutomata) (ctx : RequestContext) (tx : TxState)
    {ops matched : List SetVarOp} (scoring : Scoring platform ops) (order : ops.Perm matched) (var limit : String) :
    (tx.applyAll platform matched).get platform var = Int64.ofInt (score platform tx var ops) ∧
    (var.toList.head? ≠ some '/' → (∀ op ∈ ops, platform.toLowercase op.var ≠ platform.toLowercase limit) →
      FitsI64 (score platform tx var ops) →
      (((extractValues platform (.tx var) ctx (tx.applyAll platform matched)).any fun value =>
          matchOperator platform automata (tx.applyAll platform matched) value (.geTxRef limit)) = true ↔
        (tx.get platform limit).toInt ≤ score platform tx var ops)) := by
  have total : (tx.applyAll platform matched).get platform var = Int64.ofInt (score platform tx var ops) := by
    rw [get_applyAll (scoring.perm order), score_perm order]
  refine ⟨total, fun plain kept fits => ?_⟩
  have threshold : (tx.applyAll platform matched).get platform limit = tx.get platform limit :=
    get_applyAll_other fun op member => kept op (order.mem_iff.mpr member)
  rw [extractValues, if_neg plain, List.any_cons, List.any_nil, Bool.or_false, matchOperator, numberIs_ofInt, threshold,
    total, decide_eq_true_eq, Int64.le_iff_toInt_le, toInt_ofI64 fits]

def matchedPair : List SetVarOp :=
  [⟨"inbound_anomaly_score_pl1", .incrBy, .txRef "critical_anomaly_score"⟩,
    ⟨"INBOUND_anomaly_score_pl1", .incrBy, .txRef "notice_anomaly_score"⟩]

theorem threshold_rule_iff_pair :
    (TxState.new.applyAll .plain matchedPair.reverse).get .plain "inbound_anomaly_score_pl1" =
        Int64.ofInt (score .plain .new "inbound_anomaly_score_pl1" matchedPair) ∧
      (((extractValues .plain (.tx "inbound_anomaly_score_pl1") (.bare "GET" "/")
          (TxState.new.applyAll .plain matchedPair.reverse)).any fun value =>
          matchOperator .plain .empty (TxState.new.applyAll .plain matchedPair.reverse) value
            (.geTxRef "inbound_anomaly_score_threshold")) = true ↔
        (TxState.new.get .plain "inbound_anomaly_score_threshold").toInt ≤
          score .plain .new "inbound_anomaly_score_pl1" matchedPair) := by
  have scoring : Scoring .plain matchedPair := by
    refine ⟨by decide, ?_⟩
    intro op member var same other inPair
    simp only [matchedPair, List.mem_cons, List.not_mem_nil, or_false] at member inPair
    rcases member with rfl | rfl <;> rcases inPair with rfl | rfl <;> cases same <;> decide
  obtain ⟨total, reaches⟩ := threshold_rule_iff .plain .empty (.bare "GET" "/") .new scoring (List.reverse_perm _).symm
    "inbound_anomaly_score_pl1" "inbound_anomaly_score_threshold"
  exact ⟨total, reaches (by decide) (by decide) (by decide +kernel)⟩

/-- Five points and two, against a threshold of five. -/
example : score .plain .new "inbound_anomaly_score_pl1" matchedPair = 7 := by decide +kernel

end MiniWaf.Crs
