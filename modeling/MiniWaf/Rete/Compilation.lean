import MiniWaf.Rete.Eval
import MiniWaf.Theory.Interning

/-! Compilation of conditions: the alpha table is a hash-consing table of the
rules' leaves, and guards mean what their conditions mean wherever leaves that
share a key have one truth value.
-/

set_option autoImplicit false

namespace MiniWaf.Rete

open Grl

def leaves : Expr → List Expr
  | .binary .and left right => leaves left ++ leaves right
  | .binary .or left right => leaves left ++ leaves right
  | .unary .not expr => leaves expr
  | .literal (.bool _) => []
  | other => [other]

def ruleLeaves (rules : List RuleAst) : List Expr := rules.flatMap fun r => leaves r.when

def condition (leaf : Expr → Bool) : Expr → Bool
  | .binary .and left right => condition leaf left && condition leaf right
  | .binary .or left right => condition leaf left || condition leaf right
  | .unary .not expr => !condition leaf expr
  | .literal (.bool b) => b
  | other => leaf other

namespace Network

variable (platform : Platform)

def table (net : Network) : Interning.Table Expr Text := ⟨net.alphas.map (·.expr), net.alphaIndex⟩

structure WellFormed (net : Network) : Prop where
  table : net.table.WellFormed (printExpr platform)
  nodes : ∀ (i : Nat) (node : AlphaNode), net.alphas[i]? = some node →
    node.id = i ∧ node.key = printExpr platform node.expr ∧ node.compiled = compileAlpha platform node.expr

theorem wellFormed_new : WellFormed platform new :=
  ⟨Interning.Table.wellFormed_empty, fun _ _ found => by simp [new] at found⟩

variable {platform} {net : Network}

theorem internAlpha_of_some {expr : Expr} {id : AlphaId} (found : net.alphaIndex (printExpr platform expr) = some id) :
    internAlpha platform net expr = (net, id) := by
  simp [internAlpha, found]

theorem internAlpha_of_none {expr : Expr} (fresh : net.alphaIndex (printExpr platform expr) = none) :
    internAlpha platform net expr =
      ({ net with
          alphas := net.alphas ++
            [⟨net.alphas.length, expr, printExpr platform expr, compileAlpha platform expr⟩]
          alphaIndex := Function.update net.alphaIndex (printExpr platform expr) (some net.alphas.length) },
        net.alphas.length) := by
  simp [internAlpha, fresh]

theorem internAlpha_table (expr : Expr) :
    (internAlpha platform net expr).1.table = (net.table.intern (printExpr platform) expr).1 ∧
      (internAlpha platform net expr).2 = (net.table.intern (printExpr platform) expr).2 := by
  cases found : net.alphaIndex (printExpr platform expr) with
  | some id =>
    rw [internAlpha_of_some found]
    simp [Interning.Table.intern, table, found]
  | none =>
    rw [internAlpha_of_none found]
    simp [Interning.Table.intern, table, found]

@[simp] theorem internAlpha_terminals (expr : Expr) :
    (internAlpha platform net expr).1.terminals = net.terminals := by
  cases found : net.alphaIndex (printExpr platform expr) with
  | some id => rw [internAlpha_of_some found]
  | none => rw [internAlpha_of_none found]

theorem internAlpha_grows (expr : Expr) : net.alphas <+: (internAlpha platform net expr).1.alphas := by
  cases found : net.alphaIndex (printExpr platform expr) with
  | some id =>
    rw [internAlpha_of_some found]
  | none =>
    rw [internAlpha_of_none found]
    exact List.prefix_append _ _

theorem WellFormed.internAlpha (wf : WellFormed platform net) (expr : Expr) :
    WellFormed platform (internAlpha platform net expr).1 := by
  refine ⟨?_, ?_⟩
  · rw [(internAlpha_table expr).1]
    exact wf.table.intern expr
  · cases found : net.alphaIndex (printExpr platform expr) with
    | some id =>
      rw [internAlpha_of_some found]
      exact wf.nodes
    | none =>
      rw [internAlpha_of_none found]
      intro i node at_i
      by_cases old : i < net.alphas.length
      · exact wf.nodes i node (by rwa [List.getElem?_append_left old] at at_i)
      · have bound := (List.getElem?_eq_some_iff.mp at_i).1
        have last : i = net.alphas.length := by
          simp at bound
          omega
        subst last
        simp only [List.getElem?_concat_length, Option.some.injEq] at at_i
        subst at_i
        exact ⟨rfl, rfl, rfl⟩

end Network

variable (platform : Platform)

/-- Leaves of the list that share a key read alike. -/
def KeysAgree (list : List Expr) (leaf : Expr → Bool) : Prop :=
  ∀ a ∈ list, ∀ b ∈ list, printExpr platform a = printExpr platform b → leaf a = leaf b

def SharedAgree (list : List Expr) (wm : WorkingMemory) : Prop := KeysAgree platform list (truth platform wm)

def leafValues (net : Network) (wm : WorkingMemory) : List Bool := net.alphas.map fun a => truth platform wm a.expr

/-- What compiling one condition does to a network whose leaves come from `list`. -/
structure Compiled (list : List Expr) (net net' : Network) (g : Guard) (e : Expr) : Prop where
  wf : net'.WellFormed platform
  grows : net.alphas <+: net'.alphas
  within : ∀ node ∈ net'.alphas, node.expr ∈ list
  terminals : net'.terminals = net.terminals
  reads : ∀ leaf, KeysAgree platform list leaf →
    ∀ values, (net'.alphas.map fun a => leaf a.expr) <+: values → g.eval values = condition leaf e

structure TerminalOf (list : List Expr) (net : Network) (r : RuleAst) (term : Terminal) : Prop where
  ruleName : term.ruleName = r.name
  salience : term.salience = r.salience
  actions : term.actions = r.then_
  reads : ∀ leaf, KeysAgree platform list leaf →
    ∀ values, (net.alphas.map fun a => leaf a.expr) <+: values → term.guard.eval values = condition leaf r.when

variable {platform} {list : List Expr}

theorem condition_truth (wm : WorkingMemory) (e : Expr) :
    condition (truth platform wm) e = truth platform wm e := by
  fun_induction condition (truth platform wm) e with
  | case1 left right ihL ihR => rw [ihL, ihR, truth_and]
  | case2 left right ihL ihR => rw [ihL, ihR, truth_or]
  | case3 expr ih => rw [ih, truth_not]
  | case4 b => rw [truth_bool]
  | case5 other => rfl

/-- A terminal means its rule's condition. -/
theorem TerminalOf.sound {net : Network} {r : RuleAst} {term : Terminal} (carries : TerminalOf platform list net r term)
    (wm : WorkingMemory) (agree : SharedAgree platform list wm) (values : List Bool)
    (extends_ : leafValues platform net wm <+: values) : term.guard.eval values = truth platform wm r.when := by
  rw [carries.reads _ agree values extends_, condition_truth]

theorem internAlpha_compiled {net : Network} (wf : net.WellFormed platform)
    (within : ∀ node ∈ net.alphas, node.expr ∈ list) {e : Expr} (leaf : e ∈ list)
    (plain : ∀ leaf, condition leaf e = leaf e) :
    Compiled platform list net (net.internAlpha platform e).1 (.alpha (net.internAlpha platform e).2) e := by
  obtain ⟨sameTable, sameId⟩ := (Network.internAlpha_table e : _ ∧ (net.internAlpha platform e).2 = _)
  have exprs : (net.internAlpha platform e).1.alphas.map (·.expr) =
      (net.table.intern (printExpr platform) e).1.nodes := congrArg Interning.Table.nodes sameTable
  refine ⟨wf.internAlpha e, Network.internAlpha_grows e, ?_, Network.internAlpha_terminals e, ?_⟩
  · intro node member
    have inTable : node.expr ∈ (net.table.intern (printExpr platform) e).1.nodes :=
      exprs ▸ List.mem_map_of_mem member
    rcases Interning.Table.mem_intern inTable with old | rfl
    · obtain ⟨other, inNet, same⟩ := List.mem_map.mp old
      exact same ▸ within other inNet
    · exact leaf
  · intro leafTruth agree values extends_
    have lookup := wf.table.intern_value e leafTruth (by
      intro other member sameKey
      obtain ⟨node, inNet, rfl⟩ := List.mem_map.mp member
      exact agree _ (within node inNet) _ leaf sameKey)
    rw [← exprs, List.map_map, ← sameId] at lookup
    obtain ⟨more, rfl⟩ := extends_
    have bound := (List.getElem?_eq_some_iff.mp lookup).1
    have found : ((net.internAlpha platform e).1.alphas.map (fun a => leafTruth a.expr) ++ more)[
        (net.internAlpha platform e).2]? = some (leafTruth e) := (List.getElem?_append_left bound).trans lookup
    rw [Guard.eval, List.getD_eq_getElem?_getD, found, plain]
    rfl

theorem Compiled.merge {net netL netR : Network} {l r g : Guard} {left right e : Expr} {op : Bool → Bool → Bool}
    (first : Compiled platform list net netL l left) (second : Compiled platform list netL netR r right)
    (merged : ∀ values, g.eval values = op (l.eval values) (r.eval values))
    (connects : ∀ leaf, condition leaf e = op (condition leaf left) (condition leaf right)) :
    Compiled platform list net netR g e := by
  refine ⟨second.wf, first.grows.trans second.grows, second.within, second.terminals.trans first.terminals, ?_⟩
  intro leaf agree values extends_
  rw [merged, connects, second.reads leaf agree values extends_,
    first.reads leaf agree values ((second.grows.map _).trans extends_)]

theorem compileGuard_compiled {net : Network} (wf : net.WellFormed platform)
    (within : ∀ node ∈ net.alphas, node.expr ∈ list) {e : Expr} (known : ∀ leaf ∈ leaves e, leaf ∈ list) :
    Compiled platform list net (net.compileGuard platform e).1 (net.compileGuard platform e).2 e := by
  fun_induction Network.compileGuard platform net e with
  | case1 net left right netL l compiledL netR r compiledR ihL ihR =>
    rw [leaves] at known
    have first := ihL wf within fun leaf member => known leaf (List.mem_append_left _ member)
    rw [compiledL] at first
    have second := ihR first.wf first.within fun leaf member => known leaf (List.mem_append_right _ member)
    rw [compiledR] at second
    exact first.merge second (fun values => eval_mergeAnd values l r) fun _ => rfl
  | case2 net left right netL l compiledL netR r compiledR ihL ihR =>
    rw [leaves] at known
    have first := ihL wf within fun leaf member => known leaf (List.mem_append_left _ member)
    rw [compiledL] at first
    have second := ihR first.wf first.within fun leaf member => known leaf (List.mem_append_right _ member)
    rw [compiledR] at second
    exact first.merge second (fun values => eval_mergeOr values l r) fun _ => rfl
  | case3 net expr net' g compiled ih =>
    rw [leaves] at known
    have inner := ih wf within known
    rw [compiled] at inner
    refine ⟨inner.wf, inner.grows, inner.within, inner.terminals, ?_⟩
    intro leaf agree values extends_
    rw [Guard.eval, condition, inner.reads leaf agree values extends_]
  | case4 net =>
    exact ⟨wf, List.prefix_refl _, within, rfl, fun leaf _ values _ => by simp [Guard.eval, condition]⟩
  | case5 net =>
    exact ⟨wf, List.prefix_refl _, within, rfl, fun leaf _ values _ => by simp [Guard.eval, condition]⟩
  | case6 net other notAnd notOr notNot notTrue notFalse net' id interned =>
    have single : leaves other = [other] := by
      rw [leaves]
      · exact notAnd
      · exact notOr
      · exact notNot
      · rintro (_ | _) same
        · exact notFalse same
        · exact notTrue same
    have plain : ∀ leaf, condition leaf other = leaf other := by
      intro leaf
      rw [condition]
      · exact notAnd
      · exact notOr
      · exact notNot
      · rintro (_ | _) same
        · exact notFalse same
        · exact notTrue same
    have compiled := internAlpha_compiled wf within (known other (by simp [single])) plain
    rw [interned] at compiled
    exact compiled

theorem TerminalOf.mono {net net' : Network} (grows : net.alphas <+: net'.alphas) {r : RuleAst} {term : Terminal}
    (old : TerminalOf platform list net r term) : TerminalOf platform list net' r term :=
  ⟨old.ruleName, old.salience, old.actions, fun leaf agree values extends_ =>
    old.reads leaf agree values ((grows.map _).trans extends_)⟩

/-- The compilation loop as a whole: one terminal per rule, in rule order. -/
theorem addRules_compiled (rules : List RuleAst) (known : ∀ leaf ∈ ruleLeaves rules, leaf ∈ list) :
    (Network.addRules platform rules).WellFormed platform ∧
      (∀ node ∈ (Network.addRules platform rules).alphas, node.expr ∈ list) ∧
      List.Forall₂ (TerminalOf platform list (Network.addRules platform rules)) rules
        (Network.addRules platform rules).terminals := by
  induction rules using List.reverseRecOn with
  | nil => exact ⟨Network.wellFormed_new platform, fun _ member => by simp [Network.addRules, Network.new] at member, .nil⟩
  | append_singleton rules r ih =>
    obtain ⟨wf, within, terminals⟩ := ih fun leaf member => known leaf (by
      rw [ruleLeaves, List.flatMap_append]
      exact List.mem_append_left _ member)
    have unfolded : Network.addRules platform (rules ++ [r]) =
        Network.addRule platform (Network.addRules platform rules) r := by
      simp [Network.addRules, List.foldl_append]
    have compiled := compileGuard_compiled wf within (e := r.when) fun leaf member => known leaf (by
      rw [ruleLeaves, List.flatMap_append]
      exact List.mem_append_right _ (by simpa using member))
    rw [unfolded]
    refine ⟨⟨compiled.wf.table, compiled.wf.nodes⟩, compiled.within, ?_⟩
    simp only [Network.addRule, compiled.terminals]
    refine List.rel_append (terminals.imp fun _ _ old => old.mono (by exact compiled.grows)) ?_
    exact List.Forall₂.cons ⟨rfl, rfl, rfl, compiled.reads⟩ List.Forall₂.nil

theorem compile_perm (rules : List RuleAst) :
    (Network.compile platform rules).terminals.Perm (Network.addRules platform rules).terminals :=
  List.perm_insertionSort _ _

variable (platform) (rules : List RuleAst)

theorem rules_terminals :
    List.Forall₂ (TerminalOf platform (ruleLeaves rules) (Network.addRules platform rules)) rules
      (Network.addRules platform rules).terminals :=
  (addRules_compiled rules fun _ => id).2.2

theorem wellFormed_compile : (Network.compile platform rules).WellFormed platform := by
  obtain ⟨wf, -, -⟩ : (Network.addRules platform rules).WellFormed platform ∧ _ := addRules_compiled rules fun _ => id
  exact ⟨wf.table, wf.nodes⟩

theorem alphas_of_compile : ∀ node ∈ (Network.compile platform rules).alphas, node.expr ∈ ruleLeaves rules :=
  (addRules_compiled rules fun _ => id).2.1

theorem rule_of_terminal {term : Terminal} (member : term ∈ (Network.compile platform rules).terminals) :
    ∃ r ∈ rules, TerminalOf platform (ruleLeaves rules) (Network.addRules platform rules) r term := by
  obtain ⟨i, at_i⟩ := List.getElem?_of_mem ((compile_perm rules).mem_iff.mp member)
  obtain ⟨bound, rfl⟩ := List.getElem?_eq_some_iff.mp at_i
  have carried := rules_terminals platform rules
  have bound' := carried.length_eq ▸ bound
  exact ⟨rules.get ⟨i, bound'⟩, List.get_mem _ _, List.Forall₂.get carried bound' bound⟩

theorem addRules_names : (Network.addRules platform rules).terminals.map (·.ruleName) = rules.map (·.name) := by
  rw [← List.forall₂_eq_eq_eq, List.forall₂_map_left_iff, List.forall₂_map_right_iff]
  exact (rules_terminals platform rules).flip.imp fun _ _ compiled => compiled.ruleName

theorem compile_names : ((Network.compile platform rules).terminals.map (·.ruleName)).Perm (rules.map (·.name)) := by
  rw [← addRules_names platform]
  exact (compile_perm rules).map _

theorem length_compile : (Network.compile platform rules).terminals.length = rules.length := by
  simpa using (compile_names platform rules).length_eq

end MiniWaf.Rete
