import MiniWaf.Rete.Firing
import MiniWaf.Theory.Simulation

/-! Runs of one network on two requests, each with its functions. The second run follows
the first where the conditions it tries and the statements it runs see no difference;
what no rule looks at may differ.
-/

set_option autoImplicit false

namespace MiniWaf.Rete

open Grl

def FireState.onto (fact' : RequestContext) (registry' : FunctionRegistry) (st : FireState) : FireState :=
  { st with wm := { st.wm with fact := fact', registry := registry' } }

variable (platform : Platform)

def guardHolds (network : Network) (wm : WorkingMemory) (term : Terminal) : Bool :=
  term.guard.eval (alphaValues platform network wm)

def SameValues (wm wm' : WorkingMemory) : Stmt → Prop
  | .assign _ value => evalExpr platform wm value = evalExpr platform wm' value
  | .call c => evalArgs platform wm c.args = evalArgs platform wm' c.args

/-- Run in turn, the statements compute the same on the other request. -/
def SameActions (fact' : RequestContext) (registry' : FunctionRegistry) : FireState → List Stmt → Prop
  | _, [] => True
  | st, s :: rest =>
    SameValues platform st.wm (st.onto fact' registry').wm s ∧ SameActions fact' registry' (runStmt platform st s) rest

instance (wm wm' : WorkingMemory) : (s : Stmt) → Decidable (SameValues platform wm wm' s)
  | .assign _ _ => inferInstanceAs (Decidable (_ = _))
  | .call _ => inferInstanceAs (Decidable (_ = _))

instance SameActions.decidable (fact' : RequestContext) (registry' : FunctionRegistry) : (st : FireState) →
    (actions : List Stmt) → Decidable (SameActions platform fact' registry' st actions)
  | _, [] => .isTrue trivial
  | st, s :: rest =>
    have := SameActions.decidable fact' registry' (runStmt platform st s) rest
    inferInstanceAs (Decidable (_ ∧ _))

namespace Engine

variable (engine : Engine) (fact : RequestContext)

def firedAtScans : List (List Terminal) :=
  Agenda.scans (selectTerminal platform engine.network) (fireTerminal platform) stopped maxCycles (engine.initial fact)

/-- The scan after these firings gets to the rule: its name is free, and no rule above it matches. -/
def Tries (fired : List Terminal) (term : Terminal) : Prop :=
  Agenda.Reaches (fun term => decide (term.ruleName ∉ (engine.stateAfter platform fact fired).fired))
    (guardHolds platform engine.network (engine.stateAfter platform fact fired).wm) engine.network.terminals term

variable (fact' : RequestContext) (registry' : FunctionRegistry)

/-- The conditions the run tries have the same truth on the other request. -/
def TriesAlike : Prop :=
  ∀ fired ∈ engine.firedAtScans platform fact, ∀ term, engine.Tries platform fact fired term →
    guardHolds platform engine.network (engine.stateAfter platform fact fired).wm term =
      guardHolds platform engine.network ((engine.stateAfter platform fact fired).onto fact' registry').wm term

/-- The statements of the rules that fire compute the same on the other request. -/
def ActsAlike : Prop :=
  ∀ fired ∈ engine.firedAtScans platform fact,
    ∀ term ∈ selectTerminal platform engine.network (engine.stateAfter platform fact fired),
      SameActions platform fact' registry' ((engine.stateAfter platform fact fired).record term) term.actions

instance : Decidable (ActsAlike platform engine fact fact' registry') :=
  inferInstanceAs (Decidable (∀ fired ∈ _, ∀ term ∈ selectTerminal platform engine.network _, _))

end Engine

variable {platform} {fact fact' : RequestContext} {registry' : FunctionRegistry}

-- One step

theorem runStmt_onto {st : FireState} {s : Stmt} (same : SameValues platform st.wm (st.onto fact' registry').wm s) :
    runStmt platform (st.onto fact' registry') s = (runStmt platform st s).onto fact' registry' := by
  cases s with
  | assign target value =>
    have sameValue : evalExpr platform st.wm value = evalExpr platform (st.onto fact' registry').wm value := same
    rw [runStmt, runStmt, ← sameValue]
    rfl
  | call c =>
    have sameArgs : evalArgs platform st.wm c.args = evalArgs platform (st.onto fact' registry').wm c.args := same
    simp only [runStmt, runAction, ← sameArgs]
    split <;> rfl

theorem runStmts_onto {st : FireState} {actions : List Stmt} (same : SameActions platform fact' registry' st actions) :
    runStmts platform (st.onto fact' registry') actions = (runStmts platform st actions).onto fact' registry' := by
  induction actions generalizing st with
  | nil => rfl
  | cons s rest ih =>
    obtain ⟨first, later⟩ := same
    have tail := ih later
    rw [← runStmt_onto first] at tail
    exact tail

theorem fireTerminal_onto {st : FireState} {term : Terminal}
    (same : SameActions platform fact' registry' (st.record term) term.actions) :
    fireTerminal platform (st.onto fact' registry') term = (fireTerminal platform st term).onto fact' registry' :=
  runStmts_onto same

/-- A scan selects alike on the other request exactly if the conditions it tries have the same truth there. -/
theorem selectTerminal_onto_iff (network : Network) (st : FireState) :
    selectTerminal platform network st = selectTerminal platform network (st.onto fact' registry') ↔
      ∀ term, Agenda.Reaches (fun term => decide (term.ruleName ∉ st.fired)) (guardHolds platform network st.wm)
        network.terminals term →
      guardHolds platform network st.wm term = guardHolds platform network (st.onto fact' registry').wm term := by
  have scan : ∀ st : FireState, selectTerminal platform network st =
      network.terminals.find? fun term =>
        decide (term.ruleName ∉ st.fired) && guardHolds platform network st.wm term := by
    intro st
    rw [selectTerminal]
    congr 1
    funext term
    exact Bool.and_comm _ _
  rw [scan, scan, ← Agenda.find?_eq_iff]
  rfl

-- The run

namespace Engine

variable {engine : Engine}

theorem triesAlike_of_all (alike : ∀ fired ∈ engine.firedAtScans platform fact, ∀ term ∈ engine.network.terminals,
    guardHolds platform engine.network (engine.stateAfter platform fact fired).wm term =
      guardHolds platform engine.network ((engine.stateAfter platform fact fired).onto fact' registry').wm term) :
    engine.TriesAlike platform fact fact' registry' :=
  fun fired scanned term tries => alike fired scanned term tries.mem

theorem ActsAlike.follows (acts : engine.ActsAlike platform fact fact' registry') :
    Agenda.Follows (selectTerminal platform engine.network) (fireTerminal platform) stopped (fireTerminal platform)
      (fun st other => other = st.onto fact' registry') maxCycles (engine.initial fact) := by
  intro fired scanned term chosen other same
  rw [same]
  exact fireTerminal_onto (acts fired scanned term chosen)

theorem stopped_onto (st other : FireState) (same : other = st.onto fact' registry') : stopped st = stopped other := by
  rw [same]
  rfl

/-- Where a run sees no difference to another request, it gives the outcome of that request. -/
theorem fire_onto (tries : engine.TriesAlike platform fact fact' registry')
    (acts : engine.ActsAlike platform fact fact' registry') (plugins' : List Plugin) :
    Engine.fire platform ⟨engine.network, registry', plugins'⟩ fact' = engine.fire platform fact := by
  have ends : Engine.finalState platform ⟨engine.network, registry', plugins'⟩ fact' =
      (engine.finalState platform fact).onto fact' registry' := by
    rw [finalState, finalState, fireLoop_eq_loop, fireLoop_eq_loop]
    apply Agenda.loop_related stopped_onto rfl ?_ acts.follows
    rintro fired scanned _ rfl
    exact ((selectTerminal_onto_iff engine.network _).mpr (tries fired scanned)).symm
  rw [fire, fire, ends]
  rfl

theorem firedTerminals_of_fire (distinct : (engine.network.terminals.map (·.ruleName)).Nodup) {plugins' : List Plugin}
    (same : Engine.fire platform ⟨engine.network, registry', plugins'⟩ fact' = engine.fire platform fact) :
    engine.firedTerminals platform fact =
      Engine.firedTerminals platform ⟨engine.network, registry', plugins'⟩ fact' := by
  have names := congrArg Outcome.matchedRules same
  rw [matchedRules_eq, matchedRules_eq] at names
  apply List.ext_getElem
  · simpa using (congrArg List.length names).symm
  · intro i inFirst inSecond
    have sameName := List.getElem_of_eq names.symm (by simpa using inFirst)
    rw [List.getElem_map, List.getElem_map] at sameName
    have known : ∀ term ∈ Engine.firedTerminals platform ⟨engine.network, registry', plugins'⟩ fact',
        term ∈ engine.network.terminals := fun term fired => (mem_terminals_of_fired fired :)
    exact List.inj_on_of_nodup_map distinct (mem_terminals_of_fired (List.getElem_mem inFirst))
      (known _ (List.getElem_mem inSecond)) sameName

/-- If the rules have names of their own and their actions see no difference, the outcome is the same only where
the conditions see none. -/
theorem triesAlike_of_fire (distinct : (engine.network.terminals.map (·.ruleName)).Nodup)
    (acts : engine.ActsAlike platform fact fact' registry') {plugins' : List Plugin}
    (same : Engine.fire platform ⟨engine.network, registry', plugins'⟩ fact' = engine.fire platform fact) :
    engine.TriesAlike platform fact fact' registry' := by
  intro fired scanned
  have fires := firedTerminals_of_fire distinct same
  have chosen := (Agenda.items_eq_iff stopped_onto rfl acts.follows).mp fires fired scanned
  have onto := acts.follows.scanned rfl scanned
  rw [onto] at chosen
  exact (selectTerminal_onto_iff engine.network _).mp chosen

end Engine

end MiniWaf.Rete
