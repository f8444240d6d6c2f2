import MiniWaf.Rete.Monitoring

/-! What the names of the rules decide. Two rule lists that differ in names only
are run side by side, by the positions of their rules.
-/

set_option autoImplicit false

namespace MiniWaf.Rete

open Grl

variable (platform : Platform)

-- Runs by position

def terminalAt (rules : List RuleAst) (i : Nat) : Option Terminal := (Network.addRules platform rules).terminals[i]?

def order (rules : List RuleAst) : List Nat :=
  (StableSort.sortedIdx Network.precedes (Network.addRules platform rules).terminals).map Prod.snd

def holdsAt (rules : List RuleAst) (wm : WorkingMemory) (i : Nat) : Bool :=
  (terminalAt platform rules i).any fun term =>
    term.guard.eval (alphaValues platform (Network.compile platform rules) wm)

def freeAt (rules : List RuleAst) (st : FireState) (i : Nat) : Bool :=
  (terminalAt platform rules i).all fun term => term.ruleName ∉ st.fired

def selectPosition (rules : List RuleAst) (st : FireState) : Option Nat :=
  (order platform rules).find? fun i => holdsAt platform rules st.wm i && freeAt platform rules st i

def firePosition (rules : List RuleAst) (st : FireState) (i : Nat) : FireState :=
  (terminalAt platform rules i).elim st (fireTerminal platform st)

def engineOf (rules : List RuleAst) (registry : FunctionRegistry) (plugins : List Plugin) : Engine :=
  ⟨Network.compile platform rules, registry, plugins⟩

section
variable (rules : List RuleAst) (registry : FunctionRegistry) (plugins : List Plugin) (fact : RequestContext)

def firedPositions : List Nat :=
  Agenda.items (selectPosition platform rules) (firePosition platform rules) stopped maxCycles
    ((engineOf platform rules registry plugins).initial fact)

def firedAtScans : List (List Nat) :=
  Agenda.scans (selectPosition platform rules) (firePosition platform rules) stopped maxCycles
    ((engineOf platform rules registry plugins).initial fact)

def stateAfterPositions (positions : List Nat) : FireState :=
  positions.foldl (firePosition platform rules) ((engineOf platform rules registry plugins).initial fact)

end

variable {platform}

theorem order_terminals (rules : List RuleAst) :
    (order platform rules).map (terminalAt platform rules) = (Network.compile platform rules).terminals.map some := by
  have sorted := StableSort.map_fst_sortedIdx Network.precedes (Network.addRules platform rules).terminals
  have compiled : (Network.compile platform rules).terminals =
      (Network.addRules platform rules).terminals.insertionSort Network.precedes := rfl
  rw [compiled, ← sorted, order, List.map_map, List.map_map]
  apply List.map_congr_left
  rintro ⟨term, i⟩ member
  exact (StableSort.mem_sortedIdx _).mp member

theorem selectPosition_terminal (rules : List RuleAst) (st : FireState) :
    (selectPosition platform rules st).map (terminalAt platform rules) =
      (selectTerminal platform (Network.compile platform rules) st).map some := by
  let fires (found : Option Terminal) : Bool := found.any fun term =>
    term.guard.eval (alphaValues platform (Network.compile platform rules) st.wm) && term.ruleName ∉ st.fired
  have byPosition : (fun i => holdsAt platform rules st.wm i && freeAt platform rules st i) =
      fires ∘ terminalAt platform rules := by
    funext i
    simp only [holdsAt, freeAt, fires, Function.comp_apply]
    cases terminalAt platform rules i <;> simp
  have listed : (order platform rules).map (terminalAt platform rules) =
      (Network.compile platform rules).terminals.map some := order_terminals rules
  have found := congrArg (List.find? fires) listed
  rw [List.find?_map, List.find?_map] at found
  rw [selectPosition, byPosition, found]
  rfl

theorem firedPositions_terminals (rules : List RuleAst) (registry : FunctionRegistry) (plugins : List Plugin)
    (fact : RequestContext) : (firedPositions platform rules registry plugins fact).map (terminalAt platform rules) =
      ((engineOf platform rules registry plugins).firedTerminals platform fact).map some := by
  apply Agenda.items_map_congr (R := Eq)
  · rintro s _ rfl
    rfl
  · rintro s _ rfl
    exact selectPosition_terminal rules s
  · rintro s _ i term rfl same
    rw [firePosition, same]
    rfl
  · rfl

theorem finalState_positions (rules : List RuleAst) (registry : FunctionRegistry) (plugins : List Plugin)
    (fact : RequestContext) : (engineOf platform rules registry plugins).finalState platform fact =
      stateAfterPositions platform rules registry plugins fact (firedPositions platform rules registry plugins fact) := by
  let fireFound (st : FireState) (found : Option Terminal) : FireState := found.elim st (fireTerminal platform st)
  have fired : (firedPositions platform rules registry plugins fact).map (terminalAt platform rules) =
      ((engineOf platform rules registry plugins).firedTerminals platform fact).map some :=
    firedPositions_terminals rules registry plugins fact
  have found := congrArg (List.foldl fireFound ((engineOf platform rules registry plugins).initial fact)) fired
  rw [List.foldl_map, List.foldl_map] at found
  rw [Engine.finalState_eq_stateAfter]
  exact found.symm

-- Lists that differ in names only

structure SameBody (r r' : RuleAst) : Prop where
  salience : r'.salience = r.salience
  when : r'.when = r.when
  then_ : r'.then_ = r.then_

structure SameTerminal (term term' : Terminal) : Prop where
  salience : term'.salience = term.salience
  guard : term'.guard = term.guard
  actions : term'.actions = term.actions

structure SameNetwork (net net' : Network) : Prop where
  alphas : net'.alphas = net.alphas
  alphaIndex : net'.alphaIndex = net.alphaIndex
  terminals : List.Forall₂ SameTerminal net.terminals net'.terminals

theorem compileGuard_terminals (net : Network) (terms : List Terminal) (e : Expr) :
    Network.compileGuard platform { net with terminals := terms } e =
      ({ (Network.compileGuard platform net e).1 with terminals := terms },
        (Network.compileGuard platform net e).2) := by
  fun_induction Network.compileGuard platform net e with
  | case1 net left right netL l compiledL netR r compiledR ihL ihR =>
    rw [compiledL] at ihL
    rw [compiledR] at ihR
    simp only [Network.compileGuard, ihL, ihR]
  | case2 net left right netL l compiledL netR r compiledR ihL ihR =>
    rw [compiledL] at ihL
    rw [compiledR] at ihR
    simp only [Network.compileGuard, ihL, ihR]
  | case3 net expr net' g compiled ih =>
    rw [compiled] at ih
    simp only [Network.compileGuard, ih]
  | case4 net => rfl
  | case5 net => rfl
  | case6 net other notAnd notOr notNot notTrue notFalse net' id interned =>
    rw [Network.compileGuard]
    · have found : Network.internAlpha platform { net with terminals := terms } other =
          ({ (Network.internAlpha platform net other).1 with terminals := terms },
            (Network.internAlpha platform net other).2) := by
        cases known : net.alphaIndex (printExpr platform other) <;> simp [Network.internAlpha, known]
      rw [found, interned]
    all_goals assumption

theorem compileGuard_keeps_terminals (net : Network) (e : Expr) :
    (Network.compileGuard platform net e).1.terminals = net.terminals :=
  congrArg (fun result => result.1.terminals) (compileGuard_terminals net net.terminals e)

theorem SameNetwork.addRule {net net' : Network} (same : SameNetwork net net') {r r' : RuleAst} (body : SameBody r r') :
    SameNetwork (net.addRule platform r) (net'.addRule platform r') := by
  have shape : net' = { net with terminals := net'.terminals } := by
    cases net
    cases net'
    cases same.alphas
    cases same.alphaIndex
    rfl
  have compiled : Network.compileGuard platform net' r.when =
      ({ (Network.compileGuard platform net r.when).1 with terminals := net'.terminals },
        (Network.compileGuard platform net r.when).2) := by
    rw [← compileGuard_terminals, ← shape]
  constructor
  · simp only [Network.addRule, body.when, compiled]
  · simp only [Network.addRule, body.when, compiled]
  · simp only [Network.addRule, body.when, compiled, compileGuard_keeps_terminals]
    exact List.rel_append same.terminals (.cons ⟨body.salience, rfl, body.then_⟩ .nil)

theorem sameNetwork_addRules {rules rules' : List RuleAst} (same : List.Forall₂ SameBody rules rules') :
    SameNetwork (Network.addRules platform rules) (Network.addRules platform rules') := by
  have general : ∀ net net', SameNetwork net net' →
      SameNetwork (rules.foldl (Network.addRule platform) net) (rules'.foldl (Network.addRule platform) net') := by
    induction same with
    | nil => exact fun _ _ start => start
    | cons body rest ih => exact fun _ _ start => ih _ _ (start.addRule body)
  exact general _ _ ⟨rfl, rfl, .nil⟩

section
variable {rules rules' : List RuleAst} (same : List.Forall₂ SameBody rules rules')
include same

theorem alphaValues_same (wm : WorkingMemory) : alphaValues platform (Network.compile platform rules') wm =
    alphaValues platform (Network.compile platform rules) wm :=
  congrArg (List.map (evalAlpha platform wm)) (sameNetwork_addRules same).alphas

theorem terminalAt_same (i : Nat) :
    Option.Rel SameTerminal (terminalAt platform rules i) (terminalAt platform rules' i) := by
  have related : List.Forall₂ SameTerminal (Network.addRules platform rules).terminals
      (Network.addRules platform rules').terminals := (sameNetwork_addRules same).terminals
  unfold terminalAt
  generalize (Network.addRules platform rules).terminals = terms at related
  generalize (Network.addRules platform rules').terminals = terms' at related
  induction related generalizing i with
  | nil => exact .none
  | cons first rest ih =>
    cases i with
    | zero => exact .some first
    | succ i => exact ih i

theorem order_same : order platform rules' = order platform rules := by
  apply Eq.symm
  apply StableSort.positions_congr (R := SameTerminal)
  · intro a b x y first second
    rw [Network.precedes, Network.precedes, first.salience, second.salience]
  · exact (sameNetwork_addRules same).terminals

theorem holdsAt_same (wm : WorkingMemory) (i : Nat) : holdsAt platform rules' wm i = holdsAt platform rules wm i := by
  have related : Option.Rel SameTerminal (terminalAt platform rules i) (terminalAt platform rules' i) :=
    terminalAt_same same i
  unfold holdsAt
  rw [alphaValues_same same]
  generalize terminalAt platform rules i = first at related
  generalize terminalAt platform rules' i = second at related
  cases related with
  | none => rfl
  | some alike => rw [Option.any_some, Option.any_some, alike.guard]

end

-- Side by side

/-- The states differ in the names of the matched rules and in the names that are taken. -/
def Nameless (st st' : FireState) : Prop :=
  st'.wm = { st.wm with outcome := { st.wm.outcome with matchedRules := st'.wm.outcome.matchedRules } }

namespace Nameless

variable {st st' : FireState}

theorem stopped_eq (related : Nameless st st') : stopped st = stopped st' := by
  rw [stopped, stopped, related]

theorem holdsAt_eq (related : Nameless st st') (rules : List RuleAst) (i : Nat) :
    holdsAt platform rules st'.wm i = holdsAt platform rules st.wm i := by
  have same : alphaValues platform (Network.compile platform rules) st'.wm =
      alphaValues platform (Network.compile platform rules) st.wm := by
    rw [related]
    exact List.map_congr_left fun node _ => by simp only [evalAlpha, evalExpr_outcome]
  rw [holdsAt, holdsAt, same]

theorem runStmt (related : Nameless st st') (s : Stmt) : Nameless (runStmt platform st s) (runStmt platform st' s) := by
  cases s with
  | assign target value =>
    have sameValue : evalExpr platform st'.wm value = evalExpr platform st.wm value := by
      rw [related, evalExpr_outcome]
    simp only [Nameless, Rete.runStmt, sameValue, WorkingMemory.writePath]
    rw [related]
  | call c =>
    have sameArgs : evalArgs platform st'.wm c.args = evalArgs platform st.wm c.args := by
      rw [related, evalArgs_outcome]
    simp only [Rete.runStmt, runAction, sameArgs]
    unfold Nameless at related ⊢
    split
    all_goals
      simp only [FireState.mapOutcome]
      rw [related]

theorem runStmts (related : Nameless st st') (actions : List Stmt) :
    Nameless (runStmts platform st actions) (runStmts platform st' actions) := by
  induction actions generalizing st st' with
  | nil => exact related
  | cons s rest ih => exact ih (related.runStmt s)

theorem fireTerminal (related : Nameless st st') {term term' : Terminal} (same : SameTerminal term term') :
    Nameless (fireTerminal platform st term) (fireTerminal platform st' term') := by
  rw [Rete.fireTerminal, Rete.fireTerminal, same.actions]
  apply runStmts
  unfold Nameless
  simp only [FireState.record, FireState.mapOutcome]
  rw [related]

theorem firePosition {rules rules' : List RuleAst} (same : List.Forall₂ SameBody rules rules')
    (related : Nameless st st') (i : Nat) :
    Nameless (firePosition platform rules st i) (firePosition platform rules' st' i) := by
  have alike : Option.Rel SameTerminal (terminalAt platform rules i) (terminalAt platform rules' i) :=
    terminalAt_same same i
  unfold Rete.firePosition
  generalize terminalAt platform rules i = first at alike
  generalize terminalAt platform rules' i = second at alike
  cases alike with
  | none => exact related
  | some same => exact related.fireTerminal same

end Nameless

-- Names that are taken

def nameAt (rules : List RuleAst) (i : Nat) : Option String := rules[i]?.map (·.name)

def NameTaken (rules : List RuleAst) (before : List Nat) (i : Nat) : Prop := ∃ j ∈ before, nameAt rules j = nameAt rules i

instance (rules : List RuleAst) (before : List Nat) (i : Nat) : Decidable (NameTaken rules before i) :=
  inferInstanceAs (Decidable (∃ j ∈ before, _))

theorem terminalAt_name (rules : List RuleAst) (i : Nat) :
    (terminalAt platform rules i).map (·.ruleName) = nameAt rules i := by
  rw [terminalAt, nameAt, ← List.getElem?_map, ← List.getElem?_map, addRules_names]

theorem quiet_terminalAt {rules : List RuleAst} (quiet : ∀ r ∈ rules, Quiet r.then_) {i : Nat} {term : Terminal}
    (here : terminalAt platform rules i = some term) : Quiet term.actions := by
  have member : term ∈ (Network.compile platform rules).terminals :=
    (compile_perm rules).mem_iff.mpr (List.mem_of_getElem? here)
  obtain ⟨r, inRules, carries⟩ := rule_of_terminal platform rules member
  rw [carries.actions]
  exact quiet r inRules

theorem mem_fired_positions {rules : List RuleAst} (quiet : ∀ r ∈ rules, Quiet r.then_) (st : FireState)
    (before : List Nat) (name : String) :
    name ∈ (before.foldl (firePosition platform rules) st).fired ↔
      name ∈ st.fired ∨ ∃ j ∈ before, nameAt rules j = some name := by
  induction before generalizing st with
  | nil => simp
  | cons i before ih =>
    have named : (terminalAt platform rules i).map (·.ruleName) = nameAt rules i := terminalAt_name rules i
    rw [List.foldl_cons, ih, List.exists_mem_cons_iff, ← named]
    cases here : terminalAt platform rules i with
    | none => simp [firePosition, here]
    | some term =>
      have silent : retractedBy platform st term = [] := retractedNames_of_quiet platform _ (quiet_terminalAt quiet here)
      have step : firePosition platform rules st i = fireTerminal platform st term := by
        rw [firePosition, here]
        rfl
      rw [step, mem_fireTerminal_fired, silent]
      simp only [List.not_mem_nil, or_false, Option.map_some, Option.some.injEq]
      tauto

theorem freeAt_iff {rules : List RuleAst} (quiet : ∀ r ∈ rules, Quiet r.then_) (registry : FunctionRegistry)
    (plugins : List Plugin) (fact : RequestContext) (before : List Nat) {i : Nat} {term : Terminal}
    (here : terminalAt platform rules i = some term) :
    freeAt platform rules (stateAfterPositions platform rules registry plugins fact before) i = true ↔
      ¬ NameTaken rules before i := by
  have named : (terminalAt platform rules i).map (·.ruleName) = nameAt rules i := terminalAt_name rules i
  rw [here, Option.map_some] at named
  rw [freeAt, here, Option.all_some, decide_eq_true_eq, stateAfterPositions, mem_fired_positions quiet, NameTaken, ← named]
  simp [Engine.initial]

section
variable (platform) (rules rules' : List RuleAst) (registry : FunctionRegistry) (plugins : List Plugin)
  (fact : RequestContext)

/-- At each scan, a rule that the scan gets to has its name taken in both lists or in none. -/
def NamesAgree : Prop :=
  ∀ before ∈ firedAtScans platform rules registry plugins fact, ∀ i,
    Agenda.Reaches (holdsAt platform rules (stateAfterPositions platform rules registry plugins fact before).wm)
      (fun j => !decide (NameTaken rules before j)) (order platform rules) i →
    (NameTaken rules before i ↔ NameTaken rules' before i)

end

structure SameOutcome (o o' : Outcome) : Prop where
  blockReason : o'.blockReason = o.blockReason
  allow : o'.allow = o.allow
  challenge : o'.challenge = o.challenge
  rateLimitSecs : o'.rateLimitSecs = o.rateLimitSecs
  logMessages : o'.logMessages = o.logMessages

theorem Nameless.sameOutcome {st st' : FireState} (related : Nameless st st') : SameOutcome st.wm.outcome st'.wm.outcome := by
  unfold Nameless at related
  rw [related]
  exact ⟨rfl, rfl, rfl, rfl, rfl⟩

theorem selectPosition_congr {rules : List RuleAst} {st : FireState} {taken : Nat → Bool}
    (free : ∀ i term, terminalAt platform rules i = some term → freeAt platform rules st i = !taken i) :
    selectPosition platform rules st = (order platform rules).find? fun i => holdsAt platform rules st.wm i && !taken i := by
  have same : (fun i => holdsAt platform rules st.wm i && freeAt platform rules st i) =
      fun i => holdsAt platform rules st.wm i && !taken i := by
    funext i
    cases here : terminalAt platform rules i with
    | none => simp [holdsAt, here]
    | some term => rw [free i term here]
  rw [selectPosition, same]

section
variable {rules rules' : List RuleAst} (same : List.Forall₂ SameBody rules rules') (quiet : ∀ r ∈ rules, Quiet r.then_)
  (registry : FunctionRegistry) (plugins : List Plugin) (fact : RequestContext)
include same quiet

omit same in
theorem selectPosition_names (before : List Nat) :
    selectPosition platform rules (stateAfterPositions platform rules registry plugins fact before) =
      (order platform rules).find? fun i =>
        holdsAt platform rules (stateAfterPositions platform rules registry plugins fact before).wm i &&
          !decide (NameTaken rules before i) := by
  apply selectPosition_congr
  intro i term here
  rw [Bool.eq_iff_iff, freeAt_iff quiet registry plugins fact before here]
  simp

theorem quiet_same : ∀ r ∈ rules', Quiet r.then_ := by
  induction same with
  | nil => simp
  | cons body rest ih =>
    rw [List.forall_mem_cons] at quiet ⊢
    rw [body.then_]
    exact ⟨quiet.1, ih quiet.2⟩

omit quiet in
theorem nameless_after (before : List Nat) :
    Nameless (stateAfterPositions platform rules registry plugins fact before)
      (stateAfterPositions platform rules' registry plugins fact before) := by
  induction before using List.reverseRecOn with
  | nil => rfl
  | append_singleton before i ih =>
    rw [stateAfterPositions, stateAfterPositions, List.foldl_append, List.foldl_append]
    exact ih.firePosition same i

/-- After the same positions, the scans of the two lists select alike exactly if the names agree there. -/
theorem select_same_iff (before : List Nat) :
    selectPosition platform rules (stateAfterPositions platform rules registry plugins fact before) =
        selectPosition platform rules' (stateAfterPositions platform rules' registry plugins fact before) ↔
      ∀ i, Agenda.Reaches (holdsAt platform rules (stateAfterPositions platform rules registry plugins fact before).wm)
        (fun j => !decide (NameTaken rules before j)) (order platform rules) i →
        (NameTaken rules before i ↔ NameTaken rules' before i) := by
  have related : Nameless (stateAfterPositions platform rules registry plugins fact before)
      (stateAfterPositions platform rules' registry plugins fact before) := nameless_after same registry plugins fact before
  have holds : ∀ i, holdsAt platform rules' (stateAfterPositions platform rules' registry plugins fact before).wm i =
      holdsAt platform rules (stateAfterPositions platform rules registry plugins fact before).wm i := by
    intro i
    rw [related.holdsAt_eq, holdsAt_same same]
  rw [selectPosition_names quiet, selectPosition_names (quiet_same same quiet), order_same same]
  simp only [holds]
  rw [Agenda.find?_eq_iff]
  simp only [Bool.not_eq_eq_eq_not, Bool.not_not, decide_eq_decide]

omit same quiet in
theorem names_agree_of_alike (alike : ∀ i j, nameAt rules i = nameAt rules j ↔ nameAt rules' i = nameAt rules' j) :
    NamesAgree platform rules rules' registry plugins fact := by
  intro before _ i _
  unfold NameTaken
  simp only [alike]

end

/-- Rules that differ in names run alike exactly if their names agree at every scan. -/
theorem names_agree_iff (platform : Platform) {rules rules' : List RuleAst} (same : List.Forall₂ SameBody rules rules')
    (quiet : ∀ r ∈ rules, Quiet r.then_) (registry : FunctionRegistry) (plugins : List Plugin) (fact : RequestContext) :
    (SameOutcome ((engineOf platform rules registry plugins).fire platform fact)
        ((engineOf platform rules' registry plugins).fire platform fact) ∧
      firedPositions platform rules registry plugins fact = firedPositions platform rules' registry plugins fact) ↔
      NamesAgree platform rules rules' registry plugins fact := by
  have scans : firedPositions platform rules registry plugins fact = firedPositions platform rules' registry plugins fact ↔
      NamesAgree platform rules rules' registry plugins fact := by
    have start : Nameless ((engineOf platform rules registry plugins).initial fact)
        ((engineOf platform rules' registry plugins).initial fact) := rfl
    refine (Agenda.items_eq_iff ?_ start ?_).trans ?_
    · exact fun _ _ related => related.stopped_eq
    · exact fun _ _ i _ _ related => related.firePosition same i
    · exact forall₂_congr fun before _ => select_same_iff same quiet registry plugins fact before
  rw [← scans, and_iff_right_iff_imp]
  intro positions
  rw [Engine.fire, Engine.fire, finalState_positions, finalState_positions, ← positions]
  exact (nameless_after same registry plugins fact _).sameOutcome

def logThenBlock (first second : String) : List RuleAst :=
  [⟨first, 20, .literal (.bool true), [.call ⟨"log", [.literal (.str "seen")]⟩]⟩,
    ⟨second, 10, .literal (.bool true), [.call ⟨"block", [.literal (.str "blocked")]⟩]⟩]

theorem names_agree_apart :
    (SameOutcome ((engineOf .plain (logThenBlock "a" "b") .new []).fire .plain (.bare "GET" "/"))
        ((engineOf .plain (logThenBlock "c" "d") .new []).fire .plain (.bare "GET" "/")) ∧
      firedPositions .plain (logThenBlock "a" "b") .new [] (.bare "GET" "/") =
        firedPositions .plain (logThenBlock "c" "d") .new [] (.bare "GET" "/")) ↔
      NamesAgree .plain (logThenBlock "a" "b") (logThenBlock "c" "d") .new [] (.bare "GET" "/") := by
  apply names_agree_iff
  · exact .cons ⟨rfl, rfl, rfl⟩ (.cons ⟨rfl, rfl, rfl⟩ .nil)
  · simp [logThenBlock, Quiet]

/-- Under one name for both, the block is never reached. -/
theorem namesake_skipped :
    List.Forall₂ SameBody (logThenBlock "a" "b") (logThenBlock "a" "a") ∧
      ((engineOf .plain (logThenBlock "a" "b") .new []).fire .plain (.bare "GET" "/")).blockReason = some "blocked" ∧
      ((engineOf .plain (logThenBlock "a" "a") .new []).fire .plain (.bare "GET" "/")).blockReason = none := by
  refine ⟨.cons ⟨rfl, rfl, rfl⟩ (.cons ⟨rfl, rfl, rfl⟩ .nil), ?_, ?_⟩
  · decide +kernel
  · decide +kernel

end MiniWaf.Rete
