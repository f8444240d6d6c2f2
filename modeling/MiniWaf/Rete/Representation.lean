import MiniWaf.Rete.Interpreter

/-! The representation of a compiled network: the table of alpha nodes with its index, the
indices in the guards, the flat connectives, and the order of the terminals, all at once.
-/

set_option autoImplicit false

namespace MiniWaf.Rete

open Grl

-- Guards

namespace Guard

def parts : Guard → List Guard
  | .true | .false | .alpha _ => []
  | .and ps | .or ps => ps
  | .not p => [p]

@[elab_as_elim]
theorem ind {motive : Guard → Prop} (step : ∀ g, (∀ p ∈ g.parts, motive p) → motive g) (g : Guard) : motive g :=
  @Guard.rec motive (fun ps => ∀ p ∈ ps, motive p) (step .true (List.forall_mem_nil _))
    (step .false (List.forall_mem_nil _)) (fun id => step (.alpha id) (List.forall_mem_nil _)) (fun ps => step (.and ps)) (fun ps => step (.or ps))
    (fun p ih => step (.not p) (List.forall_mem_singleton.mpr ih)) (List.forall_mem_nil _)
    (fun _ _ first rest => List.forall_mem_cons.mpr ⟨first, rest⟩) g

inductive Occurs (inner : Guard) : Guard → Prop where
  | self : Occurs inner inner
  | part {g p : Guard} : p ∈ g.parts → Occurs inner p → Occurs inner g

/-- An index is one of `size` nodes, and no connective has its like right under it. -/
structure Fits (size : Nat) (g : Guard) : Prop where
  index : ∀ id, g = .alpha id → id < size
  and : ∀ ps inner, g = .and ps → .and inner ∉ ps
  or : ∀ ps inner, g = .or ps → .or inner ∉ ps

def Sound (size : Nat) (g : Guard) : Prop := ∀ inner, Occurs inner g → Fits size inner

variable {size : Nat}

theorem sound_iff {g : Guard} : g.Sound size ↔ g.Fits size ∧ ∀ p ∈ g.parts, p.Sound size := by
  constructor
  · intro sound
    exact ⟨sound g .self, fun p under inner occurs => sound inner (.part under occurs)⟩
  · rintro ⟨fits, under⟩ inner (_ | ⟨member, occurs⟩)
    · exact fits
    · exact under _ member inner occurs

theorem Sound.mono {more : Nat} (le : size ≤ more) {g : Guard} (sound : g.Sound size) : g.Sound more :=
  fun inner occurs =>
    ⟨fun id same => Nat.lt_of_lt_of_le ((sound inner occurs).index id same) le, (sound inner occurs).and,
      (sound inner occurs).or⟩

theorem sound_of_leaf {g : Guard} (leaf : g.parts = []) (index : ∀ id, g = .alpha id → id < size) : g.Sound size := by
  rw [sound_iff, leaf]
  refine ⟨⟨index, ?_, ?_⟩, List.forall_mem_nil _⟩
  · rintro ps inner rfl
    have empty : ps = [] := leaf
    rw [empty]
    exact List.not_mem_nil
  · rintro ps inner rfl
    have empty : ps = [] := leaf
    rw [empty]
    exact List.not_mem_nil

theorem fits_and {ps : List Guard} (flat : ∀ inner, .and inner ∉ ps) : (Guard.and ps).Fits size := by
  refine ⟨?_, ?_, ?_⟩
  · intro id same
    cases same
  · intro ps inner same
    cases same
    exact flat inner
  · intro ps inner same
    cases same

theorem fits_or {ps : List Guard} (flat : ∀ inner, .or inner ∉ ps) : (Guard.or ps).Fits size := by
  refine ⟨?_, ?_, ?_⟩
  · intro id same
    cases same
  · intro ps inner same
    cases same
  · intro ps inner same
    cases same
    exact flat inner

theorem Sound.not {g : Guard} (sound : g.Sound size) : (Guard.not g).Sound size := by
  rw [sound_iff]
  refine ⟨⟨?_, ?_, ?_⟩, List.forall_mem_singleton.mpr sound⟩
  · intro id same
    cases same
  · intro ps inner same
    cases same
  · intro ps inner same
    cases same

def conjuncts : Guard → List Guard
  | .and ps => ps
  | g => [g]

def disjuncts : Guard → List Guard
  | .or ps => ps
  | g => [g]

end Guard

theorem mergeAnd_eq (l r : Guard) : mergeAnd l r = .and (l.conjuncts ++ r.conjuncts) := by
  cases l <;> cases r <;> rfl

theorem mergeOr_eq (l r : Guard) : mergeOr l r = .or (l.disjuncts ++ r.disjuncts) := by
  cases l <;> cases r <;> rfl

namespace Guard

variable {size : Nat} {l r : Guard}

theorem Sound.conjuncts {g : Guard} (sound : g.Sound size) :
    ∀ p ∈ g.conjuncts, p.Sound size ∧ ∀ inner, p ≠ .and inner := by
  obtain ⟨fits, under⟩ := sound_iff.mp sound
  cases g with
  | and ps =>
    intro p member
    refine ⟨under p member, ?_⟩
    rintro inner rfl
    exact fits.and ps inner rfl member
  | _ =>
    intro p member
    rw [List.mem_singleton.mp member]
    refine ⟨sound, ?_⟩
    intro inner same
    cases same

theorem Sound.disjuncts {g : Guard} (sound : g.Sound size) :
    ∀ p ∈ g.disjuncts, p.Sound size ∧ ∀ inner, p ≠ .or inner := by
  obtain ⟨fits, under⟩ := sound_iff.mp sound
  cases g with
  | or ps =>
    intro p member
    refine ⟨under p member, ?_⟩
    rintro inner rfl
    exact fits.or ps inner rfl member
  | _ =>
    intro p member
    rw [List.mem_singleton.mp member]
    refine ⟨sound, ?_⟩
    intro inner same
    cases same

theorem Sound.mergeAnd (first : l.Sound size) (second : r.Sound size) : (mergeAnd l r).Sound size := by
  have all := List.forall_mem_append.mpr ⟨first.conjuncts, second.conjuncts⟩
  rw [mergeAnd_eq, sound_iff]
  exact ⟨fits_and fun inner member => (all _ member).2 inner rfl, fun p member => (all p member).1⟩

theorem Sound.mergeOr (first : l.Sound size) (second : r.Sound size) : (mergeOr l r).Sound size := by
  have all := List.forall_mem_append.mpr ⟨first.disjuncts, second.disjuncts⟩
  rw [mergeOr_eq, sound_iff]
  exact ⟨fits_or fun inner member => (all _ member).2 inner rfl, fun p member => (all p member).1⟩

theorem evalAll_eq (values : List Bool) (ps : List Guard) : evalAll values ps = ps.all (eval values) := by
  induction ps with
  | nil => rfl
  | cons p ps ih => rw [evalAll, ih, List.all_cons]

theorem evalAny_eq (values : List Bool) (ps : List Guard) : evalAny values ps = ps.any (eval values) := by
  induction ps with
  | nil => rfl
  | cons p ps ih => rw [evalAny, ih, List.any_cons]

/-- Every index finds a value, so nothing depends on what is read where there is none. -/
theorem eval_append {g : Guard} {values : List Bool} (sound : g.Sound values.length) (more : List Bool) :
    g.eval (values ++ more) = g.eval values := by
  induction g using Guard.ind with
  | step g ih =>
    obtain ⟨fits, under⟩ := sound_iff.mp sound
    have parts := fun p member => ih p member (under p member)
    cases g with
    | true => rfl
    | false => rfl
    | alpha id =>
      rw [eval, eval, List.getD_eq_getElem?_getD, List.getElem?_append_left (fits.index id rfl),
        List.getD_eq_getElem?_getD]
    | and ps =>
      rw [eval, eval, evalAll_eq, evalAll_eq]
      exact all_eq_of_mem parts
    | or ps =>
      rw [eval, eval, evalAny_eq, evalAny_eq]
      exact any_eq_of_mem parts
    | not p => rw [eval, eval, parts p List.mem_cons_self]

end Guard

-- Compilation

variable {platform : Platform}

namespace Network

variable {net : Network}

theorem internAlpha_below (wf : net.WellFormed platform) (e : Expr) :
    (net.internAlpha platform e).2 < (net.internAlpha platform e).1.alphas.length := by
  cases found : net.alphaIndex (printExpr platform e) with
  | some id =>
    rw [internAlpha_of_some found]
    obtain ⟨expr, at_id, -⟩ := wf.table.sound _ _ found
    have bound := (List.getElem?_eq_some_iff.mp at_id).1
    rwa [table, List.length_map] at bound
  | none =>
    rw [internAlpha_of_none found]
    simp

structure Extended (platform : Platform) (net net' : Network) (g : Guard) : Prop where
  wf : net'.WellFormed platform
  grows : net.alphas.length ≤ net'.alphas.length
  terminals : net'.terminals = net.terminals
  sound : g.Sound net'.alphas.length

theorem compileGuard_extended (wf : net.WellFormed platform) (e : Expr) :
    Extended platform net (net.compileGuard platform e).1 (net.compileGuard platform e).2 := by
  fun_induction compileGuard platform net e with
  | case1 net left right netL l compiledL netR r compiledR ihL ihR =>
    rw [compiledL] at ihL
    rw [compiledR] at ihR
    have first := ihL wf
    have second := ihR first.wf
    exact ⟨second.wf, Nat.le_trans first.grows second.grows, second.terminals.trans first.terminals,
      (first.sound.mono second.grows).mergeAnd second.sound⟩
  | case2 net left right netL l compiledL netR r compiledR ihL ihR =>
    rw [compiledL] at ihL
    rw [compiledR] at ihR
    have first := ihL wf
    have second := ihR first.wf
    exact ⟨second.wf, Nat.le_trans first.grows second.grows, second.terminals.trans first.terminals,
      (first.sound.mono second.grows).mergeOr second.sound⟩
  | case3 net expr net' g compiled ih =>
    rw [compiled] at ih
    have inner := ih wf
    exact ⟨inner.wf, inner.grows, inner.terminals, inner.sound.not⟩
  | case4 net =>
    refine ⟨wf, Nat.le_refl _, rfl, Guard.sound_of_leaf rfl ?_⟩
    intro id same
    cases same
  | case5 net =>
    refine ⟨wf, Nat.le_refl _, rfl, Guard.sound_of_leaf rfl ?_⟩
    intro id same
    cases same
  | case6 net other notAnd notOr notNot notTrue notFalse net' id interned =>
    have keeps := wf.internAlpha other
    have grows : net.alphas <+: (internAlpha platform net other).1.alphas := internAlpha_grows other
    have below := internAlpha_below wf other
    have same : (internAlpha platform net other).1.terminals = net.terminals := internAlpha_terminals other
    rw [interned] at keeps grows below same
    refine ⟨keeps, grows.length_le, same, Guard.sound_of_leaf rfl ?_⟩
    rintro i same
    cases same
    exact below

/-- After every rule the guards of all rules so far are sound. -/
theorem addRules_sound (rules : List RuleAst) :
    (addRules platform rules).WellFormed platform ∧
      ∀ term ∈ (addRules platform rules).terminals, term.guard.Sound (addRules platform rules).alphas.length := by
  induction rules using List.reverseRecOn with
  | nil => exact ⟨wellFormed_new platform, List.forall_mem_nil _⟩
  | append_singleton rules r ih =>
    obtain ⟨wf, guards⟩ := ih
    have unfolded : addRules platform (rules ++ [r]) = addRule platform (addRules platform rules) r := by
      simp [addRules]
    have compiled := compileGuard_extended wf r.when
    rw [unfolded]
    refine ⟨⟨compiled.wf.table, compiled.wf.nodes⟩, ?_⟩
    simp only [addRule, compiled.terminals]
    intro term member
    rcases List.mem_append.mp member with old | new
    · exact (guards term old).mono compiled.grows
    · rw [List.mem_singleton.mp new]
      exact compiled.sound

end Network

-- The whole

/-- The parts of the representation, as evaluation, sharing and firing rely on them. -/
structure Represents (platform : Platform) (net : Network) (rules : List RuleAst) : Prop where
  ids : ∀ (i : Nat) (node : AlphaNode), net.alphas[i]? = some node → node.id = i
  keys : ∀ node ∈ net.alphas, node.key = printExpr platform node.expr
  distinct : (net.alphas.map (·.key)).Nodup
  index : ∀ key i, net.alphaIndex key = some i ↔ ∃ node, net.alphas[i]? = some node ∧ node.key = key
  guards : ∀ term ∈ net.terminals, term.guard.Sound net.alphas.length
  /-- No guard reads past the values of the nodes. -/
  inRange : ∀ term ∈ net.terminals, ∀ values more : List Bool, values.length = net.alphas.length →
    term.guard.eval (values ++ more) = term.guard.eval values
  /-- The rules by descending salience, those of one salience in their order, have a terminal each. -/
  order : ∃ ordered : List RuleAst, ordered.Perm rules ∧
    ordered.Pairwise (fun a b => b.salience ≤ a.salience) ∧
    (∀ s, (ordered.filter fun r => r.salience = s) = rules.filter fun r => r.salience = s) ∧
    List.Forall₂ (TerminalOf platform (ruleLeaves rules) net) ordered net.terminals

theorem agenda_class (rules : List RuleAst) (s : Int32) :
    ((agenda rules).filter fun r => r.salience = s) = rules.filter fun r => r.salience = s := by
  have classOf : StableSort.tied ruleOrder ⟨"", s, .literal (.bool true), []⟩ = fun r => decide (r.salience = s) :=
    funext fun r => tied_ruleOrder _ r
  rw [← classOf]
  exact StableSort.class_insertionSort _ rules

section
variable {net : Network} (wf : net.WellFormed platform)
include wf

theorem key_of_mem {node : AlphaNode} (member : node ∈ net.alphas) : node.key = printExpr platform node.expr := by
  obtain ⟨i, at_i⟩ := List.getElem?_of_mem member
  exact (wf.nodes i node at_i).2.1

theorem keys_eq : net.alphas.map (·.key) = net.table.nodes.map (printExpr platform) := by
  rw [Network.table, List.map_map]
  exact List.map_congr_left fun _ member => key_of_mem wf member

theorem alphaIndex_iff (key : Text) (i : Nat) :
    net.alphaIndex key = some i ↔ ∃ node, net.alphas[i]? = some node ∧ node.key = key := by
  have found := wf.table.index_iff key i
  rw [← Option.map_eq_some_iff, ← List.getElem?_map, ← keys_eq wf, List.getElem?_map, Option.map_eq_some_iff] at found
  exact found

end

theorem compile_guards (rules : List RuleAst) : ∀ term ∈ (Network.compile platform rules).terminals,
    term.guard.Sound (Network.compile platform rules).alphas.length :=
  fun term member => (Network.addRules_sound rules).2 term ((compile_perm rules).mem_iff.mp member)

/-- Compilation keeps every part of the representation. -/
theorem compile_represents (platform : Platform) (rules : List RuleAst) :
    Represents platform (Network.compile platform rules) rules where
  ids i node at_i := ((wellFormed_compile platform rules).nodes i node at_i).1
  keys _ member := key_of_mem (wellFormed_compile platform rules) member
  distinct := by
    rw [keys_eq (wellFormed_compile platform rules)]
    exact (wellFormed_compile platform rules).table.nodup
  index := alphaIndex_iff (wellFormed_compile platform rules)
  guards := compile_guards rules
  inRange := by
    intro term member values more size
    have sound := compile_guards rules term member
    rw [← size] at sound
    exact Guard.eval_append sound more
  order := by
    have same : (Network.addRules platform rules).alphas <+: (Network.compile platform rules).alphas :=
      List.prefix_refl _
    refine ⟨agenda rules, List.perm_insertionSort _ _, List.pairwise_insertionSort _ _, agenda_class rules, ?_⟩
    exact (compile_agenda platform rules).imp fun _ _ carried => carried.mono same

end MiniWaf.Rete
