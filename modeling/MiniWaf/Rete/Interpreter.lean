import MiniWaf.Rete.Conflicts
import MiniWaf.Theory.Simulation
import MiniWaf.Theory.StableSort

/-! The rule list read directly, with no network: rules in salience order, and at
each cycle the first one that holds and whose name is free. An engine over the
compiled network ends in the state this interpreter ends in.
-/

set_option autoImplicit false

namespace MiniWaf.Rete

open Grl

def ruleOrder (a b : RuleAst) : Prop := b.salience ≤ a.salience

instance : DecidableRel ruleOrder := fun a b => inferInstanceAs (Decidable (b.salience ≤ a.salience))

instance : Std.Total ruleOrder := ⟨fun a b => Int32.le_total b.salience a.salience⟩

instance : IsTrans RuleAst ruleOrder := ⟨fun _ _ _ first second => Int32.le_trans second first⟩

def agenda (rules : List RuleAst) : List RuleAst := rules.insertionSort ruleOrder

theorem tied_ruleOrder (a b : RuleAst) : StableSort.tied ruleOrder a b = decide (b.salience = a.salience) := by
  rw [StableSort.tied, decide_eq_decide, ruleOrder, ruleOrder]
  constructor
  · rintro ⟨below, above⟩
    exact Int32.le_antisymm below above
  · intro same
    rw [same]
    exact ⟨Int32.le_refl _, Int32.le_refl _⟩

variable (platform : Platform)

/-- Truth of a leaf, as its alpha node evaluates it. -/
def alphaTruth (wm : WorkingMemory) (e : Expr) : Bool :=
  evalAlpha platform wm ⟨0, e, printExpr platform e, Network.compileAlpha platform e⟩

def holds (wm : WorkingMemory) (r : RuleAst) : Bool := condition (alphaTruth platform wm) r.when

def selectRule (rules : List RuleAst) (st : FireState) : Option RuleAst :=
  rules.find? fun r => holds platform st.wm r && r.name ∉ st.fired

def fireRule (st : FireState) (r : RuleAst) : FireState :=
  fireTerminal platform st ⟨r.name, r.salience, .true, r.then_⟩

def interpret (rules : List RuleAst) (cycles : Nat) (st : FireState) : FireState :=
  Agenda.loop (selectRule platform (agenda rules)) (fireRule platform) stopped cycles st

/-- Leaf conditions of the rules that print alike are true together, whatever has been assigned. -/
def LeavesAgree (rules : List RuleAst) (registry : FunctionRegistry) (fact : RequestContext) : Prop :=
  ∀ wm : WorkingMemory, wm.fact = fact → wm.registry = registry →
    KeysAgree platform (ruleLeaves rules) (alphaTruth platform wm)

variable {platform}

theorem LeavesAgree.mono {rules more : List RuleAst} {registry : FunctionRegistry} {fact : RequestContext}
    (agree : LeavesAgree platform more registry fact) (sub : rules ⊆ more) : LeavesAgree platform rules registry fact := by
  intro wm sameFact sameRegistry a inA b inB sameKey
  have lift : ruleLeaves rules ⊆ ruleLeaves more := by
    intro leaf member
    obtain ⟨r, inRules, inLeaves⟩ := List.mem_flatMap.mp member
    exact List.mem_flatMap.mpr ⟨r, sub inRules, inLeaves⟩
  exact agree wm sameFact sameRegistry a (lift inA) b (lift inB) sameKey

theorem alphaValues_eq {net : Network} (wf : net.WellFormed platform) (wm : WorkingMemory) :
    alphaValues platform net wm = net.alphas.map fun a => alphaTruth platform wm a.expr := by
  refine List.map_congr_left fun node member => ?_
  obtain ⟨i, at_i⟩ := List.getElem?_of_mem member
  obtain ⟨-, -, compiled⟩ := wf.nodes i node at_i
  rw [alphaTruth, evalAlpha, evalAlpha, compiled]

/-- Terminals in the order they are tried are the rules in the order they are tried. -/
theorem compile_agenda (platform : Platform) (rules : List RuleAst) :
    List.Forall₂ (TerminalOf platform (ruleLeaves rules) (Network.addRules platform rules)) (agenda rules)
      (Network.compile platform rules).terminals := by
  refine StableSort.forall₂_insertionSort ?_ (rules_terminals platform rules)
  intro r s term other first second
  rw [ruleOrder, Network.precedes, first.salience, second.salience]

theorem select_related {rules : List RuleAst} {terms : List Terminal} {list : List Expr} {net : Network}
    (carried : List.Forall₂ (TerminalOf platform list net) rules terms) {st : FireState} {values : List Bool}
    (reads : ∀ r term, TerminalOf platform list net r term → term.guard.eval values = holds platform st.wm r) :
    Option.Rel (TerminalOf platform list net) (selectRule platform rules st)
      (terms.find? fun term => term.guard.eval values && term.ruleName ∉ st.fired) := by
  induction carried with
  | nil => exact .none
  | @cons r term rules terms carries rest ih =>
    rw [selectRule, List.find?_cons, List.find?_cons, reads r term carries, carries.ruleName]
    cases holds platform st.wm r && r.name ∉ st.fired with
    | true => exact .some carries
    | false => exact ih

/-- At every cycle on the request the network selects the terminal of the rule the interpreter selects. -/
theorem selectTerminal_related {rules : List RuleAst} {network : Network}
    (compiled : network = Network.compile platform rules) {registry : FunctionRegistry} {fact : RequestContext}
    (agree : LeavesAgree platform rules registry fact) {st : FireState} (sameFact : st.wm.fact = fact)
    (sameRegistry : st.wm.registry = registry) :
    Option.Rel (TerminalOf platform (ruleLeaves rules) (Network.addRules platform rules))
      (selectRule platform (agenda rules) st) (selectTerminal platform network st) := by
  rw [compiled]
  refine select_related (compile_agenda platform rules) fun r term carries => ?_
  refine carries.reads _ (agree st.wm sameFact sameRegistry) _ ?_
  rw [alphaValues_eq (wellFormed_compile platform rules)]
  exact List.prefix_refl _

def Over (fact : RequestContext) (registry : FunctionRegistry) (st : FireState) : Prop :=
  st.wm.fact = fact ∧ st.wm.registry = registry

theorem Over.fireRule {fact : RequestContext} {registry : FunctionRegistry} {st : FireState} (about : Over fact registry st)
    (r : RuleAst) : Over fact registry (fireRule platform st r) :=
  ⟨(fireTerminal_fact platform st _).trans about.1, (fireTerminal_registry platform st _).trans about.2⟩

theorem over_interpret {fact : RequestContext} {registry : FunctionRegistry} {rules : List RuleAst} (cycles : Nat)
    {st : FireState} (start : Over fact registry st) : Over fact registry (interpret platform rules cycles st) :=
  Agenda.invariant_loop (Over fact registry) cycles start fun _ r about _ => about.fireRule r

/-- The compiled engine runs as the interpreter of its rules. -/
theorem finalState_eq_interpret {rules : List RuleAst} (engine : Engine)
    (compiled : engine.network = Network.compile platform rules) {fact : RequestContext}
    (agree : LeavesAgree platform rules engine.registry fact) :
    engine.finalState platform fact = interpret platform rules maxCycles (engine.initial fact) := by
  have acts : ∀ st r term, TerminalOf platform (ruleLeaves rules) (Network.addRules platform rules) r term →
      fireRule platform st r = fireTerminal platform st term := by
    intro st r term carries
    rw [fireRule, fireTerminal, fireTerminal, FireState.record, FireState.record, carries.ruleName, carries.actions]
  rw [Engine.finalState, fireLoop_eq_loop, interpret]
  refine (Agenda.loop_congr (Over fact engine.registry) _ ?_ acts (fun _ r about => about.fireRule r) maxCycles ⟨rfl, rfl⟩).symm
  exact fun st about => selectTerminal_related compiled agree about.1 about.2

-- An engine with one rule

def blockWhen (condition : Expr) (reason : String) : RuleAst :=
  ⟨"block", 950, condition, [.call ⟨"block", [.literal (.str reason)]⟩]⟩

theorem fire_blockWhen {c : Expr} (reason : String) (single : leaves c = [c]) (plain : ∀ leaf, condition leaf c = leaf c)
    (registry : FunctionRegistry) (plugins : List Plugin) (ctx : RequestContext) :
    outcomeToDecision (Engine.fire platform ⟨.compile platform [blockWhen c reason], registry, plugins⟩ ctx) =
      if alphaTruth platform (.new ctx registry) c then .block reason else .allow := by
  let engine : Engine := ⟨.compile platform [blockWhen c reason], registry, plugins⟩
  have agree : LeavesAgree platform [blockWhen c reason] registry ctx := by
    intro wm _ _ a inA b inB _
    simp only [ruleLeaves, blockWhen, single, List.flatMap_cons, List.flatMap_nil, List.append_nil,
      List.mem_singleton] at inA inB
    rw [inA, inB]
  have run : engine.finalState platform ctx = interpret platform [blockWhen c reason] maxCycles (engine.initial ctx) :=
    finalState_eq_interpret engine rfl agree
  have alone : agenda [blockWhen c reason] = [blockWhen c reason] := rfl
  have holding : holds platform (engine.initial ctx).wm (blockWhen c reason) = alphaTruth platform (.new ctx registry) c := by
    rw [holds, blockWhen, plain]
    rfl
  change outcomeToDecision (engine.fire platform ctx) = _
  rw [Engine.fire, run, interpret, alone]
  cases truth : alphaTruth platform (.new ctx registry) c with
  | true =>
    have chosen : selectRule platform [blockWhen c reason] (engine.initial ctx) = some (blockWhen c reason) := by
      rw [selectRule, List.find?_cons_of_pos]
      rw [holding, truth]
      rfl
    rw [maxCycles, Agenda.loop_of_some _ chosen]
    rfl
  | false =>
    have chosen : selectRule platform [blockWhen c reason] (engine.initial ctx) = none := by
      rw [selectRule, List.find?_cons_of_neg, List.find?_nil]
      rw [holding, truth]
      simp
    rw [Agenda.loop_of_none _ chosen]
    rfl

end MiniWaf.Rete
