import MiniWaf.Pipeline.Inbound
import MiniWaf.Rete.ListingOrder

/-! Rules that only log. A run over a rule list with such rules put in fires the
rules of the list as before, with log firings in between.
-/

set_option autoImplicit false

namespace MiniWaf.Rete

open Grl

def OnlyLogs (r : RuleAst) : Prop := ∀ s ∈ r.then_, ∃ args, s = .call ⟨"log", args⟩

def Outcome.silent (o : Outcome) : Outcome := { o with logMessages := [], matchedRules := [] }

/-- The second state differs from the first by records and by names that are hidden. -/
structure Quieter (hidden : String → Prop) (s t : FireState) : Prop where
  wm : t.wm = { s.wm with outcome := t.wm.outcome }
  outcome : t.wm.outcome.silent = s.wm.outcome.silent
  fired : ∀ name, ¬ hidden name → (name ∈ t.fired ↔ name ∈ s.fired)

variable {platform : Platform}

-- Conditions and arguments do not read the outcome

theorem evalExpr_outcome (wm : WorkingMemory) (o : Outcome) (e : Expr) :
    evalExpr platform { wm with outcome := o } e = evalExpr platform wm e := by
  induction e with
  | literal value => simp [evalExpr]
  | path p => simp [evalExpr, WorkingMemory.readPath]
  | call name args ih =>
    have sameArgs : args.map (evalExpr platform { wm with outcome := o }) = args.map (evalExpr platform wm) :=
      List.map_congr_left ih
    simp only [evalExpr, evalArgs_eq_map, sameArgs]
  | binary op left right ihL ihR => cases op <;> simp [evalExpr, ihL, ihR]
  | unary op expr ih =>
    cases op
    simp [evalExpr, ih]

theorem evalArgs_outcome (wm : WorkingMemory) (o : Outcome) (args : List Expr) :
    evalArgs platform { wm with outcome := o } args = evalArgs platform wm args := by
  rw [evalArgs_eq_map, evalArgs_eq_map]
  exact List.map_congr_left fun e _ => evalExpr_outcome wm o e

theorem alphaTruth_outcome (wm : WorkingMemory) (o : Outcome) (e : Expr) :
    alphaTruth platform { wm with outcome := o } e = alphaTruth platform wm e := by
  simp only [alphaTruth, evalAlpha, evalExpr_outcome]

theorem holds_outcome (wm : WorkingMemory) (o : Outcome) (r : RuleAst) :
    holds platform { wm with outcome := o } r = holds platform wm r := by
  have sameLeaves : alphaTruth platform { wm with outcome := o } = alphaTruth platform wm :=
    funext (alphaTruth_outcome wm o)
  rw [holds, holds, sameLeaves]

-- One statement, one firing

namespace Quieter

variable {hidden : String → Prop} {s t : FireState}

theorem mapOutcome (related : Quieter hidden s t) {f : Outcome → Outcome}
    (uniform : ∀ o p, o.silent = p.silent → (f o).silent = (f p).silent) :
    Quieter hidden (s.mapOutcome f) (t.mapOutcome f) where
  wm := by
    rw [FireState.mapOutcome, FireState.mapOutcome, related.wm]
  outcome := uniform _ _ related.outcome
  fired := related.fired

theorem record_only (related : Quieter hidden s t) {f : Outcome → Outcome} (records : ∀ o, (f o).silent = o.silent) :
    Quieter hidden s (t.mapOutcome f) where
  wm := by
    rw [FireState.mapOutcome, related.wm]
  outcome := (records _).trans related.outcome
  fired := related.fired

theorem holds_eq (related : Quieter hidden s t) (r : RuleAst) : holds platform t.wm r = holds platform s.wm r := by
  rw [related.wm, holds_outcome]

theorem riskReading_eq (related : Quieter hidden s t) : riskReading platform t.wm = riskReading platform s.wm := by
  rw [related.wm]
  rfl

theorem stopped_eq (related : Quieter hidden s t) : stopped s = stopped t := by
  have blocks := congrArg Outcome.blockReason related.outcome
  have allows := congrArg Outcome.allow related.outcome
  simp only [Outcome.silent] at blocks allows
  rw [stopped, stopped, blocks, allows]

theorem free_eq (related : Quieter hidden s t) {name : String} (shown : ¬ hidden name) :
    decide (name ∉ t.fired) = decide (name ∉ s.fired) := by
  rw [decide_eq_decide, related.fired name shown]

theorem runStmt (related : Quieter hidden s t) (stmt : Stmt) :
    Quieter hidden (runStmt platform s stmt) (runStmt platform t stmt) := by
  cases stmt with
  | assign target value =>
    have sameValue : evalExpr platform t.wm value = evalExpr platform s.wm value := by rw [related.wm, evalExpr_outcome]
    constructor
    · simp only [Rete.runStmt, sameValue, WorkingMemory.writePath]
      rw [related.wm]
    · exact related.outcome
    · exact related.fired
  | call c =>
    have sameArgs : evalArgs platform t.wm c.args = evalArgs platform s.wm c.args := by rw [related.wm, evalArgs_outcome]
    simp only [Rete.runStmt, runAction, sameArgs]
    split
    case h_6 =>
      refine ⟨related.wm, related.outcome, fun name shown => ?_⟩
      simp only [List.mem_cons, related.fired name shown]
    all_goals
      apply related.mapOutcome
      intro o p same
      simp only [Outcome.silent, Outcome.mk.injEq] at same ⊢
      simp [same]

theorem runStmts (related : Quieter hidden s t) (actions : List Stmt) :
    Quieter hidden (runStmts platform s actions) (runStmts platform t actions) := by
  induction actions generalizing s t with
  | nil => exact related
  | cons stmt rest ih => exact ih (related.runStmt stmt)

theorem fireRule (related : Quieter hidden s t) (r : RuleAst) :
    Quieter hidden (fireRule platform s r) (fireRule platform t r) := by
  apply Quieter.runStmts
  constructor
  · simp only [FireState.record, FireState.mapOutcome]
    rw [related.wm]
  · exact related.outcome
  · intro name shown
    simp only [FireState.record, FireState.mapOutcome, List.mem_cons, related.fired name shown]

/-- Log statements change nothing but the records. -/
theorem log_only (related : Quieter hidden s t) {actions : List Stmt}
    (logs : ∀ stmt ∈ actions, ∃ args, stmt = .call ⟨"log", args⟩) :
    Quieter hidden s (Rete.runStmts platform t actions) := by
  induction actions generalizing t with
  | nil => exact related
  | cons stmt rest ih =>
    obtain ⟨args, rfl⟩ := logs stmt List.mem_cons_self
    refine ih ?_ fun later member => logs later (List.mem_cons_of_mem _ member)
    have logged : Rete.runStmt platform t (.call ⟨"log", args⟩) = t.mapOutcome fun o =>
        { o with logMessages := o.logMessages ++ [firstText (evalArgs platform t.wm args)] } := rfl
    rw [logged]
    exact related.record_only fun _ => rfl

/-- A log rule with a hidden name fires unseen. -/
theorem fire_unseen (related : Quieter hidden s t) {r : RuleAst} (onlyLogs : OnlyLogs r) (covered : hidden r.name) :
    Quieter hidden s (Rete.fireRule platform t r) := by
  refine Quieter.log_only ?_ onlyLogs
  constructor
  · simp only [FireState.record, FireState.mapOutcome]
    rw [related.wm]
  · exact related.outcome
  · intro name shown
    have other : name ≠ r.name := fun same => shown (same ▸ covered)
    simp only [FireState.record, FireState.mapOutcome, List.mem_cons, other, false_or, related.fired name shown]

end Quieter

-- The agenda without the inserted rules

section
variable {rules logs more : List RuleAst}

theorem filter_of_inserted (kept : rules.Sublist more) (perm : more.Perm (rules ++ logs))
    (fresh : ∀ r ∈ logs, r.name ∉ rules.map (·.name)) :
    more.filter (fun r => r.name ∉ logs.map (·.name)) = rules := by
  have shown : rules.filter (fun r => r.name ∉ logs.map (·.name)) = rules := by
    rw [List.filter_eq_self]
    intro r member
    simp only [decide_eq_true_eq, List.mem_map, not_exists, not_and]
    exact fun log inLogs same => fresh log inLogs (same ▸ List.mem_map_of_mem member)
  have gone : logs.filter (fun r => r.name ∉ logs.map (·.name)) = [] := by
    rw [List.filter_eq_nil_iff]
    intro r member
    simpa using ⟨r, member, rfl⟩
  have inside := kept.filter fun r => r.name ∉ logs.map (·.name)
  rw [shown] at inside
  refine (inside.eq_of_length ?_).symm
  have counted := (perm.filter fun r => r.name ∉ logs.map (·.name)).length_eq
  rw [List.filter_append, shown, gone, List.append_nil] at counted
  exact counted.symm

theorem agenda_of_inserted (kept : rules.Sublist more) (perm : more.Perm (rules ++ logs))
    (fresh : ∀ r ∈ logs, r.name ∉ rules.map (·.name)) :
    agenda rules = (agenda more).filter fun r => r.name ∉ logs.map (·.name) := by
  rw [agenda, agenda, StableSort.filter_insertionSort, filter_of_inserted kept perm fresh]

theorem simulates_of_inserted (kept : rules.Sublist more) (perm : more.Perm (rules ++ logs))
    (onlyLogs : ∀ r ∈ logs, OnlyLogs r) (fresh : ∀ r ∈ logs, r.name ∉ rules.map (·.name)) :
    Agenda.Simulates (selectRule platform (agenda rules)) (fireRule platform) stopped
      (selectRule platform (agenda more)) (fireRule platform) stopped (Quieter (· ∈ logs.map (·.name))) where
  stops := fun _ _ related => related.stopped_eq
  quiescent := by
    intro s t related quiet
    rw [selectRule, List.find?_eq_none] at quiet ⊢
    intro r member
    rw [agenda_of_inserted kept perm fresh, List.mem_filter, decide_eq_true_eq] at member
    rw [← related.holds_eq, ← related.free_eq member.2]
    exact quiet r member.1
  step := by
    intro s t r related chosen
    by_cases inserted : r.name ∈ logs.map (·.name)
    · left
      have inMore : r ∈ more := (List.mem_insertionSort _).mp (List.mem_of_find?_eq_some chosen)
      rcases List.mem_append.mp (perm.mem_iff.mp inMore) with inRules | inLogs
      · obtain ⟨log, inLogs, sameName⟩ := List.mem_map.mp inserted
        exact absurd (List.mem_map_of_mem inRules) (sameName ▸ fresh log inLogs)
      · exact related.fire_unseen (onlyLogs r inLogs) inserted
    · right
      refine ⟨r, ?_, related.fireRule r⟩
      rw [selectRule, agenda_of_inserted kept perm fresh, List.find?_filter]
      obtain ⟨matching, above, below, position, passed⟩ := List.find?_eq_some_iff_append.mp chosen
      refine List.find?_eq_some_iff_append.mpr ⟨?_, above, below, position, ?_⟩
      · rw [← related.holds_eq, ← related.free_eq inserted]
        simpa [inserted] using matching
      · intro other member
        have skipped := passed other member
        by_cases shown : other.name ∈ logs.map (·.name)
        · simp [shown]
        · rw [← related.holds_eq, ← related.free_eq shown]
          simpa [shown] using skipped

theorem interpret_quieter (kept : rules.Sublist more) (perm : more.Perm (rules ++ logs))
    (onlyLogs : ∀ r ∈ logs, OnlyLogs r) (fresh : ∀ r ∈ logs, r.name ∉ rules.map (·.name)) (cycles : Nat) {s t : FireState}
    (related : Quieter (· ∈ logs.map (·.name)) s t) (running : stopped s = false)
    (ended : stopped (interpret platform more cycles t) = true ∨
      selectRule platform (agenda more) (interpret platform more cycles t) = none) :
    Quieter (· ∈ logs.map (·.name)) (interpret platform rules cycles s) (interpret platform more cycles t) :=
  (simulates_of_inserted kept perm onlyLogs fresh).loop (Nat.le_refl cycles) related running ended

end

/-- The firing loop was not cut off: it stopped on a block or an allow, or nothing was left to fire. -/
def Completed (platform : Platform) (engine : Engine) (fact : RequestContext) : Prop :=
  stopped (engine.finalState platform fact) = true ∨
    selectTerminal platform engine.network (engine.finalState platform fact) = none

theorem completed_of_short {engine : Engine} {fact : RequestContext}
    (short : (engine.fire platform fact).matchedRules.length < 16) : Completed platform engine fact := by
  rw [engine.matchedRules_eq, List.length_map] at short
  have ended := Agenda.stop_or_quiescent short
  rwa [← fireLoop_eq_loop] at ended

theorem completed_of_small {engine : Engine} {fact : RequestContext} (small : engine.network.terminals.length ≤ 16) :
    Completed platform engine fact := by
  by_cases halted : stopped (engine.finalState platform fact) = true
  · exact Or.inl halted
  · right
    rw [stopped, Bool.or_eq_true, not_or] at halted
    have unblocked : (engine.fire platform fact).blockReason = none := Option.not_isSome_iff_eq_none.mp halted.1
    have unallowed : (engine.fire platform fact).allow = false := Bool.eq_false_iff.mpr halted.2
    rw [selectTerminal, List.find?_eq_none]
    intro term member
    rw [Bool.and_eq_true, decide_eq_true_eq]
    rintro ⟨enabled, free⟩
    have taken := nothingMissed_of_small small unblocked unallowed term member enabled
    rw [engine.matchedRules_eq, ← engine.mem_stateAfter_fired, ← engine.finalState_eq_stateAfter] at taken
    exact free taken

def logRule (name : String) (salience : Int32) (condition : Expr) : RuleAst :=
  ⟨name, salience, condition, [.call ⟨"log", [.literal (.str name)]⟩]⟩

def blockRule (condition : Expr) : RuleAst := ⟨"deny", 0, condition, [.call ⟨"block", []⟩]⟩

def watchedRules : List RuleAst :=
  ["a", "b", "c", "d", "e", "f", "g", "h", "i", "j", "k", "l", "m", "n", "o", "p"].map
      (fun name => logRule name 1 (.literal (.bool true))) ++ [blockRule (.literal (.bool true))]

def floatZero : Expr := .binary .eq (.literal (.float ⟨0⟩)) (.literal (.float ⟨0x8000000000000000⟩))

def intZero : Expr := .binary .eq (.literal (.int 0)) (.literal (.float ⟨0x8000000000000000⟩))

end MiniWaf.Rete
