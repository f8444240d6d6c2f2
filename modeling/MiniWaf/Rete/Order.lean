import MiniWaf.Rete.Firing
import MiniWaf.Rete.Compilation
import MiniWaf.Theory.StableSort

/-! The order of the compiled terminals, told by the positions of their rules. -/

set_option autoImplicit false

namespace MiniWaf.Rete

open Grl

instance : Std.Total Network.precedes := ⟨fun a b => Int32.le_total b.salience a.salience⟩

instance : IsTrans Terminal Network.precedes :=
  ⟨fun _ _ _ first second => Int32.le_trans second first⟩

variable (platform : Platform)

def RunsBefore (rules : List RuleAst) (i j : Nat) : Prop :=
  StableSort.Before Network.precedes (Network.addRules platform rules).terminals i j

variable {platform} {rules : List RuleAst}

theorem terminal_of_rule (platform : Platform) {i : Nat} {r : RuleAst} (found : rules[i]? = some r) :
    ∃ term, (Network.addRules platform rules).terminals[i]? = some term ∧
      TerminalOf platform (ruleLeaves rules) (Network.addRules platform rules) r term := by
  have terminals := rules_terminals platform rules
  obtain ⟨bound, rfl⟩ := List.getElem?_eq_some_iff.mp found
  have bound' := terminals.length_eq ▸ bound
  exact ⟨_, List.getElem?_eq_getElem bound', List.Forall₂.get terminals bound bound'⟩

/-- Higher salience first, and the order of the rules where salience ties. -/
theorem runsBefore_iff {i j : Nat} {r s : RuleAst} (first : rules[i]? = some r) (second : rules[j]? = some s)
    (ne : i ≠ j) :
    RunsBefore platform rules i j ↔ s.salience < r.salience ∨ s.salience = r.salience ∧ i < j := by
  obtain ⟨a, at_i, carriesR⟩ := terminal_of_rule platform first
  obtain ⟨b, at_j, carriesS⟩ := terminal_of_rule platform second
  rw [RunsBefore, StableSort.before_iff at_i at_j ne, Network.precedes, Network.precedes, carriesR.salience,
    carriesS.salience, Int32.le_iff_toInt_le, Int32.le_iff_toInt_le, Int32.lt_iff_toInt_lt, ← Int32.toInt_inj]
  omega

theorem mem_above_of_runsBefore {above below : List Terminal} {term : Terminal}
    (position : (Network.compile platform rules).terminals = above ++ term :: below) :
    ∃ j, (Network.addRules platform rules).terminals[j]? = some term ∧
      ∀ i other, (Network.addRules platform rules).terminals[i]? = some other →
        RunsBefore platform rules i j → other ∈ above :=
  StableSort.mem_front_of_before position

end MiniWaf.Rete
