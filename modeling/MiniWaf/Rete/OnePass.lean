import MiniWaf.Rete.Coincidence
import MiniWaf.Rete.ListingOrder

/-! Rule lists that set nothing their conditions read: the firing loop over them is one
pass, and their conditions can be looked at on the request itself.
-/

set_option autoImplicit false

namespace MiniWaf

namespace Grl

def Stmt.targets : Stmt → List Path
  | .assign target _ => [target]
  | .call _ => []

def RuleAst.targets (r : RuleAst) : List Path := r.then_.flatMap Stmt.targets

end Grl

namespace Rete

open Grl

variable (platform : Platform)

/-- No rule assigns a path that a condition reads. -/
def Settled (rules : List RuleAst) : Prop := ∀ r ∈ rules, ∀ s ∈ rules, ∀ p ∈ r.targets, p ∉ s.when.paths

variable {platform}

-- Frames

theorem readPath_runStmt {st : FireState} {s : Stmt} {p : Path} (other : p ∉ s.targets) :
    (runStmt platform st s).wm.readPath platform p = st.wm.readPath platform p := by
  obtain ⟨target, value, rfl, same⟩ | ⟨name, -, same⟩ | ⟨-, -, f, -, same⟩ := runStmt_cases platform st s <;> rw [same]
  · rw [Stmt.targets, List.mem_singleton] at other
    simp only [WorkingMemory.readPath, WorkingMemory.writePath, Function.update_of_ne other]
  · rfl

theorem readPath_runStmts {st : FireState} {actions : List Stmt} {p : Path} (other : p ∉ actions.flatMap Stmt.targets) :
    (runStmts platform st actions).wm.readPath platform p = st.wm.readPath platform p := by
  induction actions generalizing st with
  | nil => rfl
  | cons s rest ih =>
    rw [List.flatMap_cons, List.mem_append, not_or] at other
    exact (ih other.2).trans (readPath_runStmt other.1)

theorem condition_congr {leaf leaf' : Expr → Bool} {e : Expr} (same : ∀ l ∈ leaves e, leaf l = leaf' l) :
    condition leaf e = condition leaf' e := by
  fun_induction leaves e with
  | case1 left right ihL ihR =>
    rw [condition, condition, ihL fun l member => same l (List.mem_append_left _ member),
      ihR fun l member => same l (List.mem_append_right _ member)]
  | case2 left right ihL ihR =>
    rw [condition, condition, ihL fun l member => same l (List.mem_append_left _ member),
      ihR fun l member => same l (List.mem_append_right _ member)]
  | case3 expr ih => rw [condition, condition, ih same]
  | case4 b => rfl
  | case5 other =>
    rw [condition, condition]
    · exact same other (List.mem_singleton_self _)
    all_goals assumption

/-- A rule's condition is not touched by a rule that assigns nothing it reads. -/
theorem holds_fireRule {st : FireState} {r s : RuleAst} (apart : ∀ p ∈ r.targets, p ∉ s.when.paths) :
    holds platform (fireRule platform st r).wm s = holds platform st.wm s := by
  have alike : Alike platform s.when.paths s.when.functions (fireRule platform st r).wm st.wm := by
    refine ⟨fun p reads => ?_, fun name _ args => ?_⟩
    · rw [fireRule, fireTerminal, readPath_runStmts fun assigned => apart p assigned reads]
      rfl
    · rw [fireRule, fireTerminal_fact, fireTerminal_registry]
  rw [holds, holds]
  apply condition_congr
  intro leaf member
  obtain ⟨paths, functions⟩ := leaf_names member
  exact alike.alphaTruth paths functions

-- One pass

variable (platform) in
/-- The rule's condition is true of the request, and its name is free. -/
def firesOn (fact : RequestContext) (registry : FunctionRegistry) (st : FireState) (r : RuleAst) : Bool :=
  holds platform (.new fact registry) r && r.name ∉ st.fired

theorem interpret_one_pass {rules : List RuleAst} (settled : Settled rules) (fact : RequestContext)
    (registry : FunctionRegistry) (cycles : Nat) : interpret platform rules cycles ⟨.new fact registry, []⟩ =
      Agenda.pass (fireRule platform) stopped (firesOn platform fact registry) cycles (agenda rules)
        ⟨.new fact registry, []⟩ := by
  have perm : (agenda rules).Perm rules := List.perm_insertionSort _ _
  have fired (st : FireState) (r : RuleAst) (name : String) (free : name ∉ (fireRule platform st r).fired) :
      name ≠ r.name ∧ name ∉ st.fired := by
    rw [fireRule, mem_fireTerminal_fired, not_or, not_or] at free
    exact ⟨free.1, free.2.1⟩
  refine Agenda.loop_eq_pass (I := fun st => ∀ s ∈ rules, holds platform st.wm s = holds platform (.new fact registry) s)
    ?_ ?_ ?_ ?_ cycles fun s _ => rfl
  · intro st r same member _ s inRules
    exact (holds_fireRule fun p assigned => settled r (perm.mem_iff.mp member) s inRules p assigned).trans (same s inRules)
  · intro st r _ _ _
    rw [firesOn, Bool.and_eq_false_iff, decide_eq_false_iff_not, not_not]
    exact .inr ((mem_fireTerminal_fired platform st _ r.name).mpr (.inl rfl))
  · intro st r _ _ _ s _ again
    rw [firesOn, Bool.and_eq_true, decide_eq_true_eq] at again ⊢
    exact ⟨again.1, (fired st r s.name again.2).2⟩
  · intro st same
    rw [selectRule]
    refine List.find?_congr fun s member => ?_
    rw [firesOn, same s (perm.mem_iff.mp member)]

def raiseAll : RuleAst :=
  ⟨"raise", 20, .literal (.bool true), [.assign ⟨[.field "Request", .field "RiskScore"]⟩ (.literal (.int 5))]⟩

end Rete

end MiniWaf
