import MiniWaf.Rete.Compilation
import MiniWaf.Rete.Firing

/-! Conflict resolution over whole runs: which rule fires at each cycle, what a
retraction rules out, when the loop halts, and what it leaves behind.
-/

set_option autoImplicit false

namespace MiniWaf.Rete

open Grl

variable (platform : Platform)

/-- Every firing is the first enabled terminal whose name is free, and nothing follows a halt. -/
structure ConflictsResolved (engine : Engine) (fact : RequestContext) : Prop where
  final : engine.finalState platform fact = engine.stateAfter platform fact (engine.firedTerminals platform fact)
  matched : (engine.fire platform fact).matchedRules = (engine.firedTerminals platform fact).map (·.ruleName)
  distinct : ((engine.firedTerminals platform fact).map (·.ruleName)).Nodup
  enabled : ∀ earlier term later, engine.firedTerminals platform fact = earlier ++ term :: later →
    term.guard.eval (alphaValues platform engine.network (engine.stateAfter platform fact earlier).wm) = true
  first : ∀ earlier term later, engine.firedTerminals platform fact = earlier ++ term :: later →
    ∃ above below, engine.network.terminals = above ++ term :: below ∧ ∀ other ∈ above,
      other.guard.eval (alphaValues platform engine.network (engine.stateAfter platform fact earlier).wm) = false ∨
        other.ruleName ∈ earlier.map (·.ruleName) ∨
        other.ruleName ∈ retractedByAll platform (engine.initial fact) earlier
  retracted : ∀ earlier term later, engine.firedTerminals platform fact = earlier ++ term :: later →
    ∀ name ∈ retractedBy platform (engine.stateAfter platform fact earlier) term, name ∉ later.map (·.ruleName)
  halts : ∀ earlier term later, engine.firedTerminals platform fact = earlier ++ term :: later →
    let outcome := (engine.stateAfter platform fact (earlier ++ [term])).wm.outcome
    (outcome.blockReason.isSome = true ∨ outcome.allow = true) → later = []
  bounded : (engine.firedTerminals platform fact).length ≤ 16

namespace Engine

variable {platform} {engine : Engine} {fact : RequestContext}

theorem halted_last {earlier later : List Terminal} {term : Terminal}
    (split : engine.firedTerminals platform fact = earlier ++ term :: later)
    (halted : stopped (engine.stateAfter platform fact (earlier ++ [term])) = true) : later = [] := by
  by_contra more
  have running := Agenda.not_stop_of_split split more
  rw [stateAfter] at halted
  rw [halted] at running
  cases running

theorem taken_of_retracted {earlier : List Terminal} {term : Terminal} {name : String}
    (retracts : name ∈ retractedBy platform (engine.stateAfter platform fact earlier) term) :
    name ∈ (engine.stateAfter platform fact (earlier ++ [term])).fired := by
  rw [stateAfter, List.foldl_append, List.foldl_cons, List.foldl_nil, mem_fireTerminal_fired]
  exact Or.inr (Or.inr retracts)

end Engine

theorem conflicts_resolved (engine : Engine) (fact : RequestContext) : ConflictsResolved platform engine fact where
  final := engine.finalState_eq_stateAfter platform fact
  matched := engine.matchedRules_eq platform fact
  distinct := engine.firedTerminals_nodup platform fact
  enabled := fun _ _ _ split => (selectTerminal_some platform (engine.selected_of_split platform fact split)).1
  first := by
    intro earlier term later split
    obtain ⟨-, -, above, below, position, passed⟩ :=
      selectTerminal_some platform (engine.selected_of_split platform fact split)
    refine ⟨above, below, position, fun other member => (passed other member).imp_right fun taken => ?_⟩
    exact (engine.mem_stateAfter_fired platform fact earlier _).mp taken
  retracted := by
    intro earlier term later split name retracts
    have after : engine.firedTerminals platform fact = (earlier ++ [term]) ++ later := by simpa using split
    exact engine.not_mem_later_of_fired platform fact after (Engine.taken_of_retracted retracts)
  halts := by
    intro earlier term later split _ halted
    refine Engine.halted_last split ?_
    simpa [stopped] using halted
  bounded := Agenda.length_items_le maxCycles (engine.initial fact)

/-- When the loop neither blocks nor allows, a terminal whose guard holds at the end has fired
or been retracted. -/
def NothingMissed (engine : Engine) (fact : RequestContext) : Prop :=
  (engine.fire platform fact).blockReason = none → (engine.fire platform fact).allow = false →
    ∀ term ∈ engine.network.terminals,
      term.guard.eval (alphaValues platform engine.network (engine.finalState platform fact).wm) = true →
        term.ruleName ∈ (engine.fire platform fact).matchedRules ∨
        term.ruleName ∈ retractedByAll platform (engine.initial fact) (engine.firedTerminals platform fact)

instance (engine : Engine) (fact : RequestContext) : Decidable (NothingMissed platform engine fact) :=
  inferInstanceAs (Decidable (_ → _ → ∀ term ∈ engine.network.terminals, _ → _))

section
variable {platform} {engine : Engine} {fact : RequestContext}

/-- A loop that stops before its last cycle has nothing left to fire. -/
theorem nothingMissed_of_short (short : (engine.firedTerminals platform fact).length < 16) :
    NothingMissed platform engine fact := by
  intro unblocked unallowed term member holds
  have running : stopped (engine.finalState platform fact) = false := by
    rw [Engine.fire] at unblocked unallowed
    simp [stopped, unblocked, unallowed]
  have ended := Agenda.stop_or_quiescent short
  rw [← fireLoop_eq_loop] at ended
  have quiescent : selectTerminal platform engine.network (engine.finalState platform fact) = none :=
    ended.resolve_left (by simpa [Engine.finalState] using running)
  have taken := selectTerminal_none platform quiescent member holds
  rw [engine.finalState_eq_stateAfter platform fact, engine.mem_stateAfter_fired] at taken
  rwa [engine.matchedRules_eq platform fact]

/-- Sixteen firings of distinct names leave no name of a small network out. -/
theorem nothingMissed_of_small (small : engine.network.terminals.length ≤ 16) :
    NothingMissed platform engine fact := by
  by_cases short : (engine.firedTerminals platform fact).length < 16
  · exact nothingMissed_of_short short
  · intro _ _ term member _
    left
    rw [engine.matchedRules_eq platform fact]
    have known : (engine.firedTerminals platform fact).map (·.ruleName) ⊆
        engine.network.terminals.map (·.ruleName) := by
      intro name fired
      obtain ⟨t, inFired, rfl⟩ := List.mem_map.mp fired
      exact List.mem_map_of_mem (Engine.mem_terminals_of_fired inFired)
    have subperm := List.subperm_of_subset (engine.firedTerminals_nodup platform fact) known
    have perm := subperm.perm_of_length_le (by
      rw [List.length_map, List.length_map]
      omega)
    exact perm.mem_iff.mpr (List.mem_map_of_mem member)

theorem blockReason_of_fired {term : Terminal} (fired : term ∈ engine.firedTerminals platform fact)
    (blocks : term.Blocks) : (engine.fire platform fact).blockReason.isSome = true := by
  obtain ⟨earlier, later, split⟩ := List.append_of_mem fired
  rw [Engine.fire, engine.finalState_eq_stateAfter, split, Engine.stateAfter, List.foldl_append, List.foldl_cons]
  exact blockReason_foldl platform _ later (blockReason_of_blocks platform _ blocks)

/-- Where nothing is missed, a block rule that holds at the end of a run that lets the request
through was retracted. -/
theorem retracted_of_blocks (distinct : (engine.network.terminals.map (·.ruleName)).Nodup)
    (nothingMissed : NothingMissed platform engine fact) (unblocked : (engine.fire platform fact).blockReason = none)
    (unallowed : (engine.fire platform fact).allow = false) {term : Terminal}
    (member : term ∈ engine.network.terminals) (blocks : term.Blocks)
    (holds : term.guard.eval (alphaValues platform engine.network (engine.finalState platform fact).wm) = true) :
    term.ruleName ∈ retractedByAll platform (engine.initial fact) (engine.firedTerminals platform fact) := by
  refine (nothingMissed unblocked unallowed term member holds).resolve_left fun matched => ?_
  rw [engine.matchedRules_eq platform fact] at matched
  obtain ⟨other, fired, sameName⟩ := List.mem_map.mp matched
  have same : other = term :=
    List.inj_on_of_nodup_map distinct (Engine.mem_terminals_of_fired fired) member sameName
  subst same
  have blocked := blockReason_of_fired fired blocks
  rw [unblocked] at blocked
  cases blocked

end

/-- No matching rule of a compiled rule set is missed unless sixteen rules fired out of more. -/
theorem no_rule_missed (rules : List RuleAst) (distinct : (rules.map (·.name)).Nodup) (engine : Engine)
    (compiled : engine.network = Network.compile platform rules) (fact : RequestContext)
    (bounded : (engine.fire platform fact).matchedRules.length < 16 ∨ rules.length ≤ 16) :
    NothingMissed platform engine fact ∧
      ((engine.fire platform fact).blockReason = none → (engine.fire platform fact).allow = false →
        ∀ term ∈ engine.network.terminals, term.Blocks →
          term.guard.eval (alphaValues platform engine.network (engine.finalState platform fact).wm) = true →
            term.ruleName ∈ retractedByAll platform (engine.initial fact) (engine.firedTerminals platform fact)) := by
  have nothingMissed : NothingMissed platform engine fact := by
    rcases bounded with short | small
    · rw [engine.matchedRules_eq, List.length_map] at short
      exact nothingMissed_of_short short
    · refine nothingMissed_of_small ?_
      rw [compiled, length_compile]
      exact small
  have names : (engine.network.terminals.map (·.ruleName)).Nodup := by
    rw [compiled]
    exact (compile_names platform rules).nodup_iff.mpr distinct
  exact ⟨nothingMissed, fun unblocked unallowed term member blocks holds =>
    retracted_of_blocks names nothingMissed unblocked unallowed member blocks holds⟩

def manyRules : List RuleAst :=
  ["a", "b", "c", "d", "e", "f", "g", "h", "i", "j", "k", "l", "m", "n", "o", "p"].map
      (fun name => ⟨name, 0, .literal (.bool true), [.call ⟨"log", []⟩]⟩) ++
    [⟨"q", 0, .literal (.bool true), [.call ⟨"block", []⟩]⟩]

/-- The first two of them. -/
theorem no_rule_missed_pair :
    let engine := Engine.new .plain (Network.compile .plain (manyRules.take 2))
    NothingMissed .plain engine (.bare "GET" "/") ∧
      ((engine.fire .plain (.bare "GET" "/")).blockReason = none →
        (engine.fire .plain (.bare "GET" "/")).allow = false →
        ∀ term ∈ engine.network.terminals, term.Blocks →
          term.guard.eval (alphaValues .plain engine.network (engine.finalState .plain (.bare "GET" "/")).wm) = true →
            term.ruleName ∈ retractedByAll .plain (engine.initial (.bare "GET" "/"))
              (engine.firedTerminals .plain (.bare "GET" "/"))) :=
  no_rule_missed .plain (manyRules.take 2) (by decide) _ rfl (.bare "GET" "/") (.inr (by decide))

/-- Sixteen log rules use up the cycles, and the block rule that holds is passed over. -/
theorem block_rule_missed :
    let engine := Engine.new .plain (Network.compile .plain manyRules)
    (manyRules.map (·.name)).Nodup ∧ ¬ NothingMissed .plain engine (.bare "GET" "/") ∧
      (∃ term ∈ engine.network.terminals, term.actions = [.call ⟨"block", []⟩] ∧ term.guard.eval [] = true) ∧
      outcomeToDecision (engine.fire .plain (.bare "GET" "/")) = .allow := by
  decide +kernel

end MiniWaf.Rete
