import MiniWaf.Rete.Engine
import MiniWaf.Theory.Agenda

/-! What one statement, one firing and a whole run of the loop can do. -/

set_option autoImplicit false

namespace MiniWaf.Rete

open Grl

/-- An outcome update of an action: it never takes back a block or an allow and
leaves the match list and the risk delta alone. -/
structure KeepsRun (f : Outcome → Outcome) : Prop where
  matchedRules : ∀ o, (f o).matchedRules = o.matchedRules
  riskDelta : ∀ o, (f o).riskDelta = o.riskDelta
  blocked : ∀ o, o.blockReason.isSome = true → (f o).blockReason.isSome = true
  allowed : ∀ o, o.allow = true → (f o).allow = true

variable (platform : Platform)

def retractOf (st : FireState) : Stmt → Option String
  | .call c => if c.name = "retract" then some (firstText (evalArgs platform st.wm c.args)) else none
  | .assign _ _ => none

/-- Everything a statement can do: assign in the overlay, retract a name, or update the outcome. -/
theorem runStmt_cases (st : FireState) (s : Stmt) :
    (∃ target value, s = .assign target value ∧
      runStmt platform st s = { st with wm := st.wm.writePath target (evalExpr platform st.wm value) }) ∨
    (∃ name, retractOf platform st s = some name ∧ runStmt platform st s = { st with fired := name :: st.fired }) ∨
    (retractOf platform st s = none ∧ (∀ target value, s ≠ .assign target value) ∧
      ∃ f, KeepsRun f ∧ runStmt platform st s = st.mapOutcome f) := by
  cases s with
  | assign target value => exact Or.inl ⟨target, value, rfl, rfl⟩
  | call c =>
    refine Or.inr ?_
    by_cases retracts : c.name = "retract"
    · refine Or.inl ⟨firstText (evalArgs platform st.wm c.args), ?_, ?_⟩
      · simp [retractOf, retracts]
      · simp [runStmt, runAction, retracts]
    · refine Or.inr ⟨by simp [retractOf, retracts], by simp, ?_⟩
      simp only [runStmt, runAction]
      -- one outcome update per action name; `retract` is excluded
      split
      case h_6 => contradiction
      all_goals
        refine ⟨_, ?_, rfl⟩
        constructor
        · exact fun _ => rfl
        · exact fun _ => rfl
        · exact fun _ kept => by first | exact kept | rfl
        · exact fun _ kept => by first | exact kept | rfl

def retractedNames (st : FireState) : List Stmt → List String
  | [] => []
  | s :: rest => (retractOf platform st s).toList ++ retractedNames (runStmt platform st s) rest

section
variable (st : FireState) (s : Stmt)

@[simp] theorem runStmt_fact : (runStmt platform st s).wm.fact = st.wm.fact := by
  obtain ⟨target, value, -, same⟩ | ⟨name, -, same⟩ | ⟨-, -, f, -, same⟩ := runStmt_cases platform st s <;>
    rw [same] <;> rfl

@[simp] theorem runStmt_registry : (runStmt platform st s).wm.registry = st.wm.registry := by
  obtain ⟨target, value, -, same⟩ | ⟨name, -, same⟩ | ⟨-, -, f, -, same⟩ := runStmt_cases platform st s <;>
    rw [same] <;> rfl

@[simp] theorem runStmt_matchedRules :
    (runStmt platform st s).wm.outcome.matchedRules = st.wm.outcome.matchedRules := by
  obtain ⟨target, value, -, same⟩ | ⟨name, -, same⟩ | ⟨-, -, f, keeps, same⟩ := runStmt_cases platform st s <;>
    rw [same]
  · rfl
  · exact keeps.matchedRules _

@[simp] theorem runStmt_riskDelta :
    (runStmt platform st s).wm.outcome.riskDelta = st.wm.outcome.riskDelta := by
  obtain ⟨target, value, -, same⟩ | ⟨name, -, same⟩ | ⟨-, -, f, keeps, same⟩ := runStmt_cases platform st s <;>
    rw [same]
  · rfl
  · exact keeps.riskDelta _

theorem mem_runStmt_fired (name : String) :
    name ∈ (runStmt platform st s).fired ↔ name ∈ st.fired ∨ retractOf platform st s = some name := by
  obtain ⟨target, value, rfl, same⟩ | ⟨other, found, same⟩ | ⟨none, -, f, -, same⟩ :=
    runStmt_cases platform st s <;> rw [same]
  · simp [retractOf]
  · simp [found, or_comm, eq_comm]
  · simp [none, FireState.mapOutcome]

theorem stopped_runStmt (halted : stopped st = true) : stopped (runStmt platform st s) = true := by
  simp only [stopped, Bool.or_eq_true] at halted ⊢
  obtain ⟨target, value, -, same⟩ | ⟨name, -, same⟩ | ⟨-, -, f, keeps, same⟩ := runStmt_cases platform st s <;>
    rw [same]
  · exact halted
  · exact halted
  · exact halted.imp (keeps.blocked _) (keeps.allowed _)

theorem blockReason_runStmt (blocked : st.wm.outcome.blockReason.isSome = true) :
    (runStmt platform st s).wm.outcome.blockReason.isSome = true := by
  obtain ⟨target, value, -, same⟩ | ⟨name, -, same⟩ | ⟨-, -, f, keeps, same⟩ := runStmt_cases platform st s <;>
    rw [same]
  · exact blocked
  · exact blocked
  · exact keeps.blocked _ blocked

end

theorem runStmts_induction (I : FireState → Prop) (step : ∀ st s, I st → I (runStmt platform st s))
    (st : FireState) (actions : List Stmt) (start : I st) : I (runStmts platform st actions) := by
  induction actions generalizing st with
  | nil => exact start
  | cons s rest ih => exact ih _ (step st s start)

@[simp] theorem runStmts_fact (st : FireState) (actions : List Stmt) :
    (runStmts platform st actions).wm.fact = st.wm.fact :=
  runStmts_induction platform (fun st' => st'.wm.fact = st.wm.fact) (fun _ _ same => by simpa using same) st actions rfl

@[simp] theorem runStmts_registry (st : FireState) (actions : List Stmt) :
    (runStmts platform st actions).wm.registry = st.wm.registry :=
  runStmts_induction platform (fun st' => st'.wm.registry = st.wm.registry) (fun _ _ same => by simpa using same)
    st actions rfl

@[simp] theorem runStmts_matchedRules (st : FireState) (actions : List Stmt) :
    (runStmts platform st actions).wm.outcome.matchedRules = st.wm.outcome.matchedRules :=
  runStmts_induction platform (fun st' => st'.wm.outcome.matchedRules = st.wm.outcome.matchedRules)
    (fun _ _ same => by simpa using same) st actions rfl

@[simp] theorem runStmts_riskDelta (st : FireState) (actions : List Stmt) :
    (runStmts platform st actions).wm.outcome.riskDelta = st.wm.outcome.riskDelta :=
  runStmts_induction platform (fun st' => st'.wm.outcome.riskDelta = st.wm.outcome.riskDelta)
    (fun _ _ same => by simpa using same) st actions rfl

theorem mem_runStmts_fired (st : FireState) (actions : List Stmt) (name : String) :
    name ∈ (runStmts platform st actions).fired ↔
      name ∈ st.fired ∨ name ∈ retractedNames platform st actions := by
  induction actions generalizing st with
  | nil => simp [runStmts, retractedNames]
  | cons s rest ih =>
    have unfolded : runStmts platform st (s :: rest) = runStmts platform (runStmt platform st s) rest := rfl
    rw [unfolded, ih, mem_runStmt_fired, retractedNames, List.mem_append, Option.mem_toList, or_assoc]

def retractedBy (st : FireState) (term : Terminal) : List String :=
  retractedNames platform (st.record term) term.actions

def retractedByAll (st : FireState) : List Terminal → List String
  | [] => []
  | term :: rest => retractedBy platform st term ++ retractedByAll (fireTerminal platform st term) rest

def Quiet (actions : List Stmt) : Prop := ∀ c, Stmt.call c ∈ actions → c.name ≠ "retract"

theorem retractedNames_of_quiet (st : FireState) {actions : List Stmt} (quiet : Quiet actions) :
    retractedNames platform st actions = [] := by
  induction actions generalizing st with
  | nil => rfl
  | cons s rest ih =>
    have none : retractOf platform st s = none := by
      cases s with
      | assign target value => rfl
      | call c => simp [retractOf, quiet c List.mem_cons_self]
    rw [retractedNames, none, ih _ fun c member => quiet c (List.mem_cons_of_mem _ member)]
    rfl

theorem retractedByAll_of_quiet (st : FireState) {terms : List Terminal} (quiet : ∀ term ∈ terms, Quiet term.actions) :
    retractedByAll platform st terms = [] := by
  induction terms generalizing st with
  | nil => rfl
  | cons term rest ih =>
    rw [retractedByAll, retractedBy, retractedNames_of_quiet platform _ (quiet term List.mem_cons_self),
      ih _ fun other member => quiet other (List.mem_cons_of_mem _ member)]
    rfl

@[simp] theorem fireTerminal_fact (st : FireState) (term : Terminal) :
    (fireTerminal platform st term).wm.fact = st.wm.fact := by
  rw [fireTerminal, runStmts_fact]
  rfl

@[simp] theorem fireTerminal_registry (st : FireState) (term : Terminal) :
    (fireTerminal platform st term).wm.registry = st.wm.registry := by
  rw [fireTerminal, runStmts_registry]
  rfl

@[simp] theorem fireTerminal_matchedRules (st : FireState) (term : Terminal) :
    (fireTerminal platform st term).wm.outcome.matchedRules =
      st.wm.outcome.matchedRules ++ [term.ruleName] := by
  rw [fireTerminal, runStmts_matchedRules]
  rfl

@[simp] theorem fireTerminal_riskDelta (st : FireState) (term : Terminal) :
    (fireTerminal platform st term).wm.outcome.riskDelta = st.wm.outcome.riskDelta := by
  rw [fireTerminal, runStmts_riskDelta]
  rfl

theorem mem_fireTerminal_fired (st : FireState) (term : Terminal) (name : String) :
    name ∈ (fireTerminal platform st term).fired ↔
      name = term.ruleName ∨ name ∈ st.fired ∨ name ∈ retractedBy platform st term := by
  rw [fireTerminal, mem_runStmts_fired]
  simp [FireState.record, FireState.mapOutcome, retractedBy, or_assoc]

theorem mem_foldl_fired (st : FireState) (terms : List Terminal) (name : String) :
    name ∈ (terms.foldl (fireTerminal platform) st).fired ↔
      name ∈ st.fired ∨ name ∈ terms.map (·.ruleName) ∨ name ∈ retractedByAll platform st terms := by
  induction terms generalizing st with
  | nil => simp [retractedByAll]
  | cons term rest ih =>
    rw [List.foldl_cons, ih, mem_fireTerminal_fired, retractedByAll, List.map_cons, List.mem_cons,
      List.mem_append]
    tauto

def Terminal.Blocks (term : Terminal) : Prop := ∃ c, Stmt.call c ∈ term.actions ∧ c.name = "block"

theorem blockReason_runStmts (st : FireState) (actions : List Stmt)
    (blocked : st.wm.outcome.blockReason.isSome = true) :
    (runStmts platform st actions).wm.outcome.blockReason.isSome = true :=
  runStmts_induction platform (fun st => st.wm.outcome.blockReason.isSome = true)
    (fun st s => blockReason_runStmt platform st s) st actions blocked

theorem blockReason_foldl (st : FireState) (terms : List Terminal)
    (blocked : st.wm.outcome.blockReason.isSome = true) :
    (terms.foldl (fireTerminal platform) st).wm.outcome.blockReason.isSome = true := by
  induction terms generalizing st with
  | nil => exact blocked
  | cons term rest ih => exact ih _ (blockReason_runStmts platform _ term.actions blocked)

theorem blockReason_of_blocks (st : FireState) {term : Terminal} (blocks : term.Blocks) :
    (fireTerminal platform st term).wm.outcome.blockReason.isSome = true := by
  obtain ⟨c, member, named⟩ := blocks
  obtain ⟨before, after, split⟩ := List.append_of_mem member
  have unfolded : fireTerminal platform st term =
      runStmts platform (runStmt platform (runStmts platform (st.record term) before) (.call c)) after := by
    rw [fireTerminal, split]
    simp [runStmts]
  rw [unfolded]
  refine blockReason_runStmts platform _ after ?_
  simp [runStmt, runAction, named, FireState.mapOutcome]

theorem selectTerminal_some {network : Network} {st : FireState} {term : Terminal}
    (selected : selectTerminal platform network st = some term) :
    term.guard.eval (alphaValues platform network st.wm) = true ∧ term.ruleName ∉ st.fired ∧
      ∃ above below, network.terminals = above ++ term :: below ∧ ∀ other ∈ above,
        other.guard.eval (alphaValues platform network st.wm) = false ∨ other.ruleName ∈ st.fired := by
  obtain ⟨matching, above, below, split, passed⟩ := List.find?_eq_some_iff_append.mp selected
  simp only [Bool.and_eq_true, decide_eq_true_eq] at matching
  refine ⟨matching.1, matching.2, above, below, split, ?_⟩
  intro other member
  have failed := passed other member
  simp only [Bool.not_and, Bool.or_eq_true, Bool.not_eq_true'] at failed
  simpa using failed

theorem selectTerminal_none {network : Network} {st : FireState}
    (quiescent : selectTerminal platform network st = none) {term : Terminal} (member : term ∈ network.terminals)
    (holds : term.guard.eval (alphaValues platform network st.wm) = true) : term.ruleName ∈ st.fired := by
  have failed := List.find?_eq_none.mp quiescent term member
  simpa [holds] using failed

theorem fireLoop_eq_loop (network : Network) (cycles : Nat) (st : FireState) :
    fireLoop platform network cycles st =
      Agenda.loop (selectTerminal platform network) (fireTerminal platform) stopped cycles st := by
  induction cycles generalizing st with
  | zero => rfl
  | succ cycles ih =>
    simp only [fireLoop, Agenda.loop, ih]
    cases selectTerminal platform network st <;> rfl

namespace Engine

variable (engine : Engine) (fact : RequestContext)

def firedTerminals : List Terminal :=
  Agenda.items (selectTerminal platform engine.network) (fireTerminal platform) stopped maxCycles (engine.initial fact)

def stateAfter (terms : List Terminal) : FireState := terms.foldl (fireTerminal platform) (engine.initial fact)

theorem finalState_eq_stateAfter :
    engine.finalState platform fact = engine.stateAfter platform fact (engine.firedTerminals platform fact) := by
  rw [finalState, fireLoop_eq_loop, Agenda.loop_eq_foldl]
  rfl

theorem stateAfter_matchedRules (terms : List Terminal) :
    (engine.stateAfter platform fact terms).wm.outcome.matchedRules = terms.map (·.ruleName) := by
  have log := Agenda.foldl_log (fun st : FireState => st.wm.outcome.matchedRules) Terminal.ruleName
    (fireTerminal_matchedRules platform) (engine.initial fact) terms
  simpa [stateAfter, initial, WorkingMemory.new, Outcome.default] using log

theorem matchedRules_eq :
    (engine.fire platform fact).matchedRules = (engine.firedTerminals platform fact).map (·.ruleName) := by
  rw [fire, finalState_eq_stateAfter, stateAfter_matchedRules]

theorem selected_of_split {earlier later : List Terminal} {term : Terminal}
    (split : engine.firedTerminals platform fact = earlier ++ term :: later) :
    selectTerminal platform engine.network (engine.stateAfter platform fact earlier) = some term :=
  Agenda.choose_of_split split

variable {platform engine fact} in
theorem mem_terminals_of_fired {term : Terminal} (fired : term ∈ engine.firedTerminals platform fact) :
    term ∈ engine.network.terminals := by
  obtain ⟨earlier, later, split⟩ := List.append_of_mem fired
  obtain ⟨-, -, above, below, position, -⟩ :=
    selectTerminal_some platform (engine.selected_of_split platform fact split)
  simp [position]

theorem mem_stateAfter_fired (terms : List Terminal) (name : String) :
    name ∈ (engine.stateAfter platform fact terms).fired ↔
      name ∈ terms.map (·.ruleName) ∨ name ∈ retractedByAll platform (engine.initial fact) terms := by
  rw [stateAfter, mem_foldl_fired]
  simp [initial]

/-- Names are taken once, whether by firing or by being retracted. -/
theorem firedTerminals_nodup : ((engine.firedTerminals platform fact).map (·.ruleName)).Nodup := by
  let Distinct (st : FireState) : Prop :=
    st.wm.outcome.matchedRules.Nodup ∧ ∀ name ∈ st.wm.outcome.matchedRules, name ∈ st.fired
  have step : ∀ st term, Distinct st → selectTerminal platform engine.network st = some term →
      Distinct (fireTerminal platform st term) := by
    intro st term ⟨distinct, taken⟩ selected
    have fresh := (selectTerminal_some platform selected).2.1
    refine ⟨?_, ?_⟩
    · rw [fireTerminal_matchedRules]
      exact distinct.append (List.nodup_singleton _)
        (List.disjoint_singleton.mpr fun member => fresh (taken _ member))
    · intro name member
      rw [fireTerminal_matchedRules, List.mem_append, List.mem_singleton] at member
      rw [mem_fireTerminal_fired]
      exact member.elim (fun old => Or.inr (Or.inl (taken name old))) Or.inl
  have final : Distinct (engine.finalState platform fact) := by
    rw [finalState, fireLoop_eq_loop]
    refine Agenda.invariant_loop Distinct maxCycles ?_ step
    simp [Distinct, initial, WorkingMemory.new, Outcome.default]
  have matched := engine.matchedRules_eq platform fact
  rw [← matched]
  exact final.1

theorem not_mem_later_of_fired {earlier later : List Terminal} {name : String}
    (split : engine.firedTerminals platform fact = earlier ++ later)
    (taken : name ∈ (engine.stateAfter platform fact earlier).fired) : name ∉ later.map (·.ruleName) := by
  intro member
  obtain ⟨term, inLater, rfl⟩ := List.mem_map.mp member
  obtain ⟨between, rest, rfl⟩ := List.append_of_mem inLater
  have selected : selectTerminal platform engine.network (engine.stateAfter platform fact (earlier ++ between)) =
      some term := engine.selected_of_split platform fact (by simpa using split)
  refine (selectTerminal_some platform selected).2.1 ?_
  rw [stateAfter, List.foldl_append, mem_foldl_fired]
  exact Or.inl taken

end Engine

end MiniWaf.Rete
