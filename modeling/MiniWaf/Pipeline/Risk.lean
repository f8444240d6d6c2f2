import MiniWaf.Grl.Conversion
import MiniWaf.Pipeline.Inbound
import MiniWaf.Rete.Conflicts

/-! What becomes of the score the rules assign. Assignments stay in the overlay;
nothing carries them over to the outcome's delta.
-/

set_option autoImplicit false

namespace MiniWaf

open Grl Rete

variable (platform : Platform)

/-- The delta accounts for the change of `Request.RiskScore` since the start. -/
def Accounted (start : Int64) (st : FireState) : Prop := st.wm.outcome.riskDelta = riskReading platform st.wm - start

/-- If the statement assigns `Request.RiskScore`, it assigns what that reads as already. -/
def KeepsScore (st : FireState) : Stmt → Prop
  | .assign target value =>
    target = riskScorePath → (evalExpr platform st.wm value).asInt = riskReading platform st.wm
  | .call _ => True

-- The statements a run executes, each with the state it finds

def executedIn (st : FireState) : List Stmt → List (FireState × Stmt)
  | [] => []
  | s :: rest => (st, s) :: executedIn (runStmt platform st s) rest

def executedBy (st : FireState) : List Terminal → List (FireState × Stmt)
  | [] => []
  | term :: rest => executedIn platform (st.record term) term.actions ++ executedBy (fireTerminal platform st term) rest

def executed (engine : Engine) (ctx : RequestContext) : List (FireState × Stmt) :=
  executedBy platform (engine.initial ctx) (engine.firedTerminals platform ctx)

def Chained (start : Int64) : List (FireState × Stmt) → Prop
  | [] => True
  | (st, s) :: rest => riskReading platform st.wm = start ∧ Chained (riskReading platform (runStmt platform st s).wm) rest

variable {platform}

theorem riskReading_assign (st : FireState) (target : Path) (value : Expr) :
    riskReading platform (runStmt platform st (.assign target value)).wm =
      if target = riskScorePath then (evalExpr platform st.wm value).asInt else riskReading platform st.wm := by
  by_cases same : target = riskScorePath
  · subst same
    simp [riskReading, runStmt, WorkingMemory.writePath, WorkingMemory.readPath]
  · have other : riskScorePath ≠ target := fun h => same h.symm
    simp [riskReading, runStmt, WorkingMemory.writePath, WorkingMemory.readPath, same, Function.update_of_ne other]

theorem riskReading_call (st : FireState) (c : CallExpr) :
    riskReading platform (runStmt platform st (.call c)).wm = riskReading platform st.wm := by
  obtain ⟨target, value, same, -⟩ | ⟨name, -, same⟩ | ⟨-, -, f, -, same⟩ := runStmt_cases platform st (.call c)
  · cases same
  · rw [same]
  · rw [same]
    rfl

theorem keepsScore_iff (st : FireState) (s : Stmt) :
    KeepsScore platform st s ↔ riskReading platform (runStmt platform st s).wm = riskReading platform st.wm := by
  cases s with
  | assign target value =>
    rw [KeepsScore, riskReading_assign]
    by_cases same : target = riskScorePath <;> simp [same]
  | call c => simp [KeepsScore, riskReading_call]

theorem executedIn_chained {st : FireState} {actions : List Stmt} {more : List (FireState × Stmt)}
    (rest : Chained platform (riskReading platform (runStmts platform st actions).wm) more) :
    Chained platform (riskReading platform st.wm) (executedIn platform st actions ++ more) := by
  induction actions generalizing st with
  | nil => exact rest
  | cons s actions ih => exact ⟨rfl, ih rest⟩

theorem executedBy_chained (st : FireState) (terms : List Terminal) :
    Chained platform (riskReading platform st.wm) (executedBy platform st terms) := by
  induction terms generalizing st with
  | nil => trivial
  | cons term rest ih =>
    have next : Chained platform (riskReading platform (runStmts platform (st.record term) term.actions).wm)
        (executedBy platform (fireTerminal platform st term) rest) := ih _
    exact executedIn_chained next

/-- Along a run the score stays at its start exactly when every statement keeps it. -/
theorem Chained.constant_iff {start : Int64} {run : List (FireState × Stmt)} (chained : Chained platform start run) :
    (∀ p ∈ run, riskReading platform (runStmt platform p.1 p.2).wm = start) ↔ ∀ p ∈ run, KeepsScore platform p.1 p.2 := by
  induction run generalizing start with
  | nil => simp
  | cons p rest ih =>
    obtain ⟨st, s⟩ := p
    obtain ⟨found, chained⟩ := chained
    simp only [List.forall_mem_cons, keepsScore_iff, found]
    refine and_congr_right fun kept => ?_
    rw [kept] at chained
    simpa only [keepsScore_iff] using ih chained

/-- What the fired terminals' statements and the matches preserve holds wherever a statement is run. -/
theorem executedBy_invariant (I : FireState → Prop) {st : FireState} {terms : List Terminal} (start : I st)
    (record : ∀ st term, I st → I (st.record term))
    (step : ∀ st term s, term ∈ terms → s ∈ term.actions → I st → I (runStmt platform st s)) :
    ∀ p ∈ executedBy platform st terms, I p.1 := by
  have inside : ∀ actions st, I st → (∀ s ∈ actions, ∀ st, I st → I (runStmt platform st s)) →
      (∀ p ∈ executedIn platform st actions, I p.1) ∧ I (runStmts platform st actions) := by
    intro actions
    induction actions with
    | nil => exact fun st here _ => ⟨fun _ member => absurd member List.not_mem_nil, here⟩
    | cons s rest ih =>
      intro st here keeps
      obtain ⟨later, final⟩ := ih _ (keeps s List.mem_cons_self st here) fun s member =>
        keeps s (List.mem_cons_of_mem _ member)
      exact ⟨List.forall_mem_cons.mpr ⟨here, later⟩, final⟩
  induction terms generalizing st with
  | nil => exact fun p member => nomatch member
  | cons term rest ih =>
    obtain ⟨first, next⟩ := inside term.actions _ (record st term start) fun s member st =>
      step st term s List.mem_cons_self member
    intro p member
    rcases List.mem_append.mp member with here | later
    · exact first p here
    · exact ih next (fun st other s inRest => step st other s (List.mem_cons_of_mem _ inRest)) p later

theorem riskReading_foldl {st : FireState} {terms : List Terminal}
    (keeps : ∀ p ∈ executedBy platform st terms, KeepsScore platform p.1 p.2) :
    riskReading platform (terms.foldl (fireTerminal platform) st).wm = riskReading platform st.wm := by
  have inside : ∀ actions st, (∀ p ∈ executedIn platform st actions, KeepsScore platform p.1 p.2) →
      riskReading platform (runStmts platform st actions).wm = riskReading platform st.wm := by
    intro actions
    induction actions with
    | nil => exact fun _ _ => rfl
    | cons s rest ih =>
      intro st keeps
      obtain ⟨here, later⟩ := List.forall_mem_cons.mp keeps
      exact (ih _ later).trans ((keepsScore_iff st s).mp here)
  induction terms generalizing st with
  | nil => rfl
  | cons term rest ih =>
    have first := inside term.actions (st.record term) fun p member => keeps p (List.mem_append_left _ member)
    have later := ih fun p member => keeps p (List.mem_append_right _ member)
    exact later.trans first

-- The delta never leaves zero

theorem executed_riskDelta (engine : Engine) (ctx : RequestContext) :
    ∀ p ∈ executed platform engine ctx, p.1.wm.outcome.riskDelta = 0 :=
  executedBy_invariant (fun st => st.wm.outcome.riskDelta = 0) rfl (fun _ _ zero => zero)
    fun st _ s _ _ zero => (runStmt_riskDelta platform st s).trans zero

variable (platform) in
theorem fire_riskDelta (engine : Engine) (ctx : RequestContext) : (engine.fire platform ctx).riskDelta = 0 := by
  rw [Engine.fire, engine.finalState_eq_stateAfter, Engine.stateAfter]
  generalize engine.firedTerminals platform ctx = terms
  have start : (engine.initial ctx).wm.outcome.riskDelta = 0 := rfl
  generalize engine.initial ctx = st at start
  induction terms generalizing st with
  | nil => exact start
  | cons term rest ih => exact ih _ ((fireTerminal_riskDelta platform st term).trans start)

theorem accounted_iff {st : FireState} (zero : st.wm.outcome.riskDelta = 0) (start : Int64) :
    Accounted platform start st ↔ riskReading platform st.wm = start := by
  rw [Accounted, zero, eq_comm, Int64.sub_eq_iff_eq_add, Int64.zero_add]

theorem clampScore_score {ctx : RequestContext} (bounded : ctx.riskScore ≤ RiskScore.max) :
    clampScore ctx.score = ctx.riskScore := by
  have small : ctx.riskScore.toNat < 101 := by
    have := UInt32.le_iff_toNat_le.mp bounded
    have hundred : RiskScore.max.toNat = 100 := rfl
    omega
  have table : ∀ n < 101, clampScore (Int64.ofInt (n : Nat)) = UInt32.ofNat n := by decide +kernel
  rw [RequestContext.score, table _ small, UInt32.ofNat_toNat]

-- Rules converted from YAML assign the score only to add their delta

theorem executedIn_stmts (st : FireState) (actions : List Stmt) : (executedIn platform st actions).map Prod.snd = actions := by
  induction actions generalizing st with
  | nil => rfl
  | cons s rest ih => rw [executedIn, List.map_cons, ih]

variable (platform) in
theorem executedBy_stmts (st : FireState) (terms : List Terminal) :
    (executedBy platform st terms).map Prod.snd = terms.flatMap (·.actions) := by
  induction terms generalizing st with
  | nil => rfl
  | cons term rest ih => rw [executedBy, List.map_append, executedIn_stmts, ih, List.flatMap_cons]

def IntScore (platform : Platform) (st : FireState) : Prop := ∃ i, st.wm.readPath platform riskScorePath = .int i

theorem mem_stmts {r : RuleShape} {s : Stmt} (member : s ∈ r.stmts platform) :
    (s = riskStmt r.delta ∧ r.delta ≠ 0) ∨ ∃ c, s = .call c := by
  rw [RuleShape.stmts, List.mem_append] at member
  rcases member with risk | call
  · by_cases zero : r.delta = 0
    · simp [zero] at risk
    · rw [if_neg zero, List.mem_singleton] at risk
      exact Or.inl ⟨risk, zero⟩
  · obtain ⟨c, -, rfl⟩ := List.mem_map.mp call
    exact Or.inr ⟨_, rfl⟩

theorem evalExpr_risk {st : FireState} {i : Int64} (found : st.wm.readPath platform riskScorePath = .int i) (delta : Int64) :
    evalExpr platform st.wm (.binary .add (.path riskPath) (.literal (.int delta))) = .int (i + delta) := by
  have same : st.wm.readPath platform riskPath = .int i := found
  simp [evalExpr, same, binaryValue, valueAdd, Value.asInt]

theorem IntScore.runStmt {st : FireState} (int : IntScore platform st) {r : RuleShape} {s : Stmt}
    (member : s ∈ r.stmts platform) : IntScore platform (runStmt platform st s) := by
  obtain ⟨i, found⟩ := int
  rcases mem_stmts member with ⟨rfl, -⟩ | ⟨c, rfl⟩
  · refine ⟨i + r.delta, ?_⟩
    have assigned : (Rete.runStmt platform st (riskStmt r.delta)).wm.readPath platform riskScorePath =
        evalExpr platform st.wm (.binary .add (.path riskPath) (.literal (.int r.delta))) := by
      simp [Rete.runStmt, riskStmt, WorkingMemory.writePath, WorkingMemory.readPath, riskScorePath, riskPath]
    rw [assigned, evalExpr_risk found]
  · refine ⟨i, ?_⟩
    obtain ⟨target, value, same, -⟩ | ⟨name, -, same⟩ | ⟨-, -, f, -, same⟩ := runStmt_cases platform st (.call c)
    · cases same
    · rw [same]
      exact found
    · rw [same]
      exact found

theorem keepsScore_risk {st : FireState} (int : IntScore platform st) (delta : Int64) :
    KeepsScore platform st (riskStmt delta) ↔ delta = 0 := by
  obtain ⟨i, found⟩ := int
  have start : riskReading platform st.wm = i := by rw [riskReading, found, Value.asInt]
  rw [riskStmt, KeepsScore, evalExpr_risk found, start, Value.asInt]
  constructor
  · intro keeps
    exact Int64.add_eq_left.mp (keeps rfl)
  · rintro rfl _
    exact Int64.add_zero i

theorem actions_of_compile {shapes : List RuleShape} {term : Terminal}
    (member : term ∈ (Network.compile platform (shapes.map (RuleShape.ast platform))).terminals) :
    ∃ r ∈ shapes, term.actions = r.stmts platform := by
  obtain ⟨rule, inRules, carries⟩ := rule_of_terminal platform _ member
  obtain ⟨r, inShapes, rfl⟩ := List.mem_map.mp inRules
  exact ⟨r, inShapes, carries.actions⟩

theorem keepsScore_shapes {engine : Engine} {ctx : RequestContext} {shapes : List RuleShape}
    (converted : engine.network = Network.compile platform (shapes.map (RuleShape.ast platform))) :
    (∀ p ∈ executed platform engine ctx, KeepsScore platform p.1 p.2) ↔
      ∀ term ∈ engine.firedTerminals platform ctx, ∀ r ∈ shapes, term.actions = r.stmts platform → r.delta = 0 := by
  have shaped : ∀ term ∈ engine.firedTerminals platform ctx, ∃ r ∈ shapes, term.actions = r.stmts platform :=
    fun term fired => actions_of_compile (converted ▸ Engine.mem_terminals_of_fired fired)
  have stmts := executedBy_stmts platform (engine.initial ctx) (engine.firedTerminals platform ctx)
  constructor
  · intro keeps term fired r _ same
    by_contra nonzero
    have inRun : riskStmt r.delta ∈ (executed platform engine ctx).map Prod.snd := by
      rw [executed, stmts]
      refine List.mem_flatMap.mpr ⟨term, fired, ?_⟩
      rw [same, RuleShape.stmts, if_neg nonzero]
      exact List.mem_cons_self
    obtain ⟨p, member, isRisk⟩ := List.mem_map.mp inRun
    have int : IntScore platform p.1 := by
      refine executedBy_invariant (IntScore platform) ⟨ctx.score, rfl⟩ (fun _ _ int => int) ?_ p member
      intro st other s otherFired inActions int
      obtain ⟨shape, -, otherSame⟩ := shaped other otherFired
      exact int.runStmt (otherSame ▸ inActions)
    have kept := keeps p member
    rw [isRisk, keepsScore_risk int] at kept
    exact nonzero kept
  · intro zero p member
    have inActions : p.2 ∈ (engine.firedTerminals platform ctx).flatMap (·.actions) := by
      rw [← stmts]
      exact List.mem_map_of_mem member
    obtain ⟨term, fired, inTerm⟩ := List.mem_flatMap.mp inActions
    obtain ⟨r, inShapes, same⟩ := shaped term fired
    rcases mem_stmts (same ▸ inTerm) with ⟨-, nonzero⟩ | ⟨c, isCall⟩
    · exact absurd (zero term fired r inShapes same) nonzero
    · rw [isCall]
      trivial

-- The hand-over

/-- What the delta of a run accounts for. The condition is on the assignments the run executes;
among rules from YAML it says that every fired rule has delta zero. -/
structure RiskAccounted (platform : Platform) (engine : Engine) (ctx : RequestContext) : Prop where
  everywhere : (∀ p ∈ executed platform engine ctx, Accounted platform ctx.score (runStmt platform p.1 p.2)) ↔
    ∀ p ∈ executed platform engine ctx, KeepsScore platform p.1 p.2
  handedOver : (∀ p ∈ executed platform engine ctx, KeepsScore platform p.1 p.2) →
    Accounted platform ctx.score (engine.finalState platform ctx) ∧
      (runInbound platform engine ctx).1.riskScore = clampScore (riskReading platform (engine.finalState platform ctx).wm)
  converted : ∀ shapes : List RuleShape,
    engine.network = Network.compile platform (shapes.map (RuleShape.ast platform)) →
      ((∀ p ∈ executed platform engine ctx, KeepsScore platform p.1 p.2) ↔
        ∀ term ∈ engine.firedTerminals platform ctx, ∀ r ∈ shapes, term.actions = r.stmts platform → r.delta = 0)

theorem risk_accounted (platform : Platform) (engine : Engine) (ctx : RequestContext)
    (bounded : ctx.riskScore ≤ RiskScore.max) : RiskAccounted platform engine ctx where
  everywhere := by
    have chained : Chained platform ctx.score (executed platform engine ctx) :=
      executedBy_chained (engine.initial ctx) (engine.firedTerminals platform ctx)
    rw [← chained.constant_iff]
    refine forall₂_congr fun p member => accounted_iff ?_ ctx.score
    rw [runStmt_riskDelta]
    exact executed_riskDelta engine ctx p member
  handedOver := by
    intro keeps
    have reading : riskReading platform (engine.finalState platform ctx).wm = ctx.score := by
      rw [engine.finalState_eq_stateAfter]
      exact riskReading_foldl keeps
    have zero := fire_riskDelta platform engine ctx
    refine ⟨(accounted_iff zero ctx.score).mpr reading, ?_⟩
    rw [runInbound_riskScore, zero, reading, clampScore_score bounded]
    rfl
  converted := fun _ compiled => keepsScore_shapes compiled

def addRisk (delta : Int64) : RuleShape := ⟨"risky", 0, none, .always true, delta, [(.log, none)]⟩

def riskEngine (delta : Int64) : Engine := .new .plain (.compile .plain [(addRisk delta).ast .plain])

theorem risk_accounted_log : RiskAccounted .plain (riskEngine 0) (.bare "GET" "/") :=
  risk_accounted .plain (riskEngine 0) (.bare "GET" "/") (by decide)

/-- The rule adds 80; the score reads as 80 when the loop stops, and stays 0 after the pipeline. -/
theorem risk_lost :
    (Engine.fire .plain (riskEngine 80) (.bare "GET" "/")).matchedRules = ["risky"] ∧
      riskReading .plain (Engine.finalState .plain (riskEngine 80) (.bare "GET" "/")).wm = 80 ∧
      (Engine.fire .plain (riskEngine 80) (.bare "GET" "/")).riskDelta = 0 ∧
      (runInbound .plain (riskEngine 80) (.bare "GET" "/")).1.riskScore = 0 ∧ clampScore 80 = 80 := by
  decide +kernel

end MiniWaf
