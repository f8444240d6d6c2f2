import MiniWaf.Rete.Interpreter
import MiniWaf.Rete.Lockstep

/-! Evaluation depends only on the paths and functions a condition or statement names. -/

set_option autoImplicit false

namespace MiniWaf

namespace Grl.Expr

mutual
def paths : Expr → List Path
  | .literal _ => []
  | .path p => [p]
  | .call _ args => pathsAll args
  | .unary _ e => paths e
  | .binary _ l r => paths l ++ paths r

def pathsAll : List Expr → List Path
  | [] => []
  | a :: rest => paths a ++ pathsAll rest
end

mutual
def functions : Expr → List String
  | .literal _ => []
  | .path _ => []
  | .call name args => name :: functionsAll args
  | .unary _ e => functions e
  | .binary _ l r => functions l ++ functions r

def functionsAll : List Expr → List String
  | [] => []
  | a :: rest => functions a ++ functionsAll rest
end

theorem pathsAll_eq (args : List Expr) : pathsAll args = args.flatMap paths := by
  induction args with
  | nil => rfl
  | cons a rest ih => rw [pathsAll, ih, List.flatMap_cons]

theorem functionsAll_eq (args : List Expr) : functionsAll args = args.flatMap functions := by
  induction args with
  | nil => rfl
  | cons a rest ih => rw [functionsAll, ih, List.flatMap_cons]

end Grl.Expr

namespace Grl.Stmt

/-- The paths a statement reads; its action name is no function. -/
def paths : Stmt → List Path
  | .assign _ value => value.paths
  | .call c => Expr.pathsAll c.args

def functions : Stmt → List String
  | .assign _ value => value.functions
  | .call c => Expr.functionsAll c.args

end Grl.Stmt

namespace Grl.RuleAst

def paths (r : RuleAst) : List Path := r.when.paths ++ r.then_.flatMap Stmt.paths

def functions (r : RuleAst) : List String := r.when.functions ++ r.then_.flatMap Stmt.functions

end Grl.RuleAst

namespace Rete

open Grl

variable (platform : Platform)

structure Alike (paths : List Path) (functions : List String) (wm wm' : WorkingMemory) : Prop where
  reads : ∀ p ∈ paths, wm.readPath platform p = wm'.readPath platform p
  calls : ∀ name ∈ functions, ∀ args,
    wm.registry.call platform name wm.fact args = wm'.registry.call platform name wm'.fact args

variable {platform} {paths : List Path} {functions : List String} {wm wm' : WorkingMemory}

theorem Alike.mono (alike : Alike platform paths functions wm wm') {fewer : List Path} {names : List String}
    (subPaths : fewer ⊆ paths) (subNames : names ⊆ functions) : Alike platform fewer names wm wm' :=
  ⟨fun p member => alike.reads p (subPaths member), fun name member => alike.calls name (subNames member)⟩

theorem Alike.evalExpr (alike : Alike platform paths functions wm wm') (e : Expr) (readsIn : e.paths ⊆ paths)
    (callsIn : e.functions ⊆ functions) : evalExpr platform wm e = evalExpr platform wm' e := by
  induction e with
  | literal value => simp [Rete.evalExpr]
  | path p =>
    rw [Expr.paths] at readsIn
    rw [Rete.evalExpr, Rete.evalExpr]
    exact alike.reads p (readsIn List.mem_cons_self)
  | call name args ih =>
    rw [Expr.paths, Expr.pathsAll_eq] at readsIn
    rw [Expr.functions, Expr.functionsAll_eq] at callsIn
    have sameArgs : args.map (Rete.evalExpr platform wm) = args.map (Rete.evalExpr platform wm') := by
      refine List.map_congr_left fun a member => ih a member ?_ ?_
      · exact fun p inA => readsIn (List.mem_flatMap.mpr ⟨a, member, inA⟩)
      · exact fun f inA => callsIn (List.mem_cons_of_mem _ (List.mem_flatMap.mpr ⟨a, member, inA⟩))
    rw [Rete.evalExpr, Rete.evalExpr, evalArgs_eq_map, evalArgs_eq_map, sameArgs]
    exact alike.calls name (callsIn List.mem_cons_self) _
  | binary op left right ihL ihR =>
    rw [Expr.paths, List.append_subset] at readsIn
    rw [Expr.functions, List.append_subset] at callsIn
    have sameLeft := ihL readsIn.1 callsIn.1
    have sameRight := ihR readsIn.2 callsIn.2
    cases op <;> simp only [Rete.evalExpr, sameLeft, sameRight]
  | unary op expr ih =>
    rw [Expr.paths] at readsIn
    rw [Expr.functions] at callsIn
    cases op
    rw [Rete.evalExpr, Rete.evalExpr, ih readsIn callsIn]

theorem Alike.evalArgs (alike : Alike platform paths functions wm wm') (args : List Expr)
    (readsIn : Expr.pathsAll args ⊆ paths) (callsIn : Expr.functionsAll args ⊆ functions) :
    evalArgs platform wm args = evalArgs platform wm' args := by
  rw [Expr.pathsAll_eq] at readsIn
  rw [Expr.functionsAll_eq] at callsIn
  rw [evalArgs_eq_map, evalArgs_eq_map]
  refine List.map_congr_left fun a member => alike.evalExpr a ?_ ?_
  · exact fun p inA => readsIn (List.mem_flatMap.mpr ⟨a, member, inA⟩)
  · exact fun f inA => callsIn (List.mem_flatMap.mpr ⟨a, member, inA⟩)

-- Runs of one network on two requests that show the same

structure FactsAlike (platform : Platform) (paths : List Path) (functions : List String) (fact : RequestContext)
    (registry : FunctionRegistry) (fact' : RequestContext) (registry' : FunctionRegistry) : Prop where
  resolves : ∀ p ∈ paths, resolve platform p fact = resolve platform p fact'
  calls : ∀ name ∈ functions, ∀ args, registry.call platform name fact args = registry'.call platform name fact' args

variable {fact fact' : RequestContext} {registry registry' : FunctionRegistry}

theorem FactsAlike.alike (same : FactsAlike platform paths functions fact registry fact' registry') {st : FireState}
    (about : Over fact registry st) : Alike platform paths functions st.wm (st.onto fact' registry').wm := by
  obtain ⟨rfl, rfl⟩ := about
  refine ⟨fun p member => ?_, same.calls⟩
  have resolved := same.resolves p member
  simp only [WorkingMemory.readPath, FireState.onto, resolved]

theorem Alike.sameValues (alike : Alike platform paths functions wm wm') {s : Stmt} (readsIn : s.paths ⊆ paths)
    (callsIn : s.functions ⊆ functions) : SameValues platform wm wm' s := by
  cases s with
  | assign target value => exact alike.evalExpr value readsIn callsIn
  | call c => exact alike.evalArgs c.args readsIn callsIn

theorem FactsAlike.sameActions (same : FactsAlike platform paths functions fact registry fact' registry') {st : FireState}
    (about : Over fact registry st) {actions : List Stmt} (readsIn : ∀ s ∈ actions, s.paths ⊆ paths)
    (callsIn : ∀ s ∈ actions, s.functions ⊆ functions) : SameActions platform fact' registry' st actions := by
  induction actions generalizing st with
  | nil => trivial
  | cons s rest ih =>
    rw [List.forall_mem_cons] at readsIn callsIn
    have next : Over fact registry (runStmt platform st s) :=
      ⟨(runStmt_fact platform st s).trans about.1, (runStmt_registry platform st s).trans about.2⟩
    exact ⟨(same.alike about).sameValues readsIn.1 callsIn.1, ih next readsIn.2 callsIn.2⟩

theorem leaf_names {e leaf : Expr} (member : leaf ∈ leaves e) : leaf.paths ⊆ e.paths ∧ leaf.functions ⊆ e.functions := by
  fun_induction leaves e with
  | case1 left right ihL ihR =>
    rw [Expr.paths, Expr.functions]
    rcases List.mem_append.mp member with inLeft | inRight
    · exact ⟨List.subset_append_of_subset_left _ (ihL inLeft).1, List.subset_append_of_subset_left _ (ihL inLeft).2⟩
    · exact ⟨List.subset_append_of_subset_right _ (ihR inRight).1, List.subset_append_of_subset_right _ (ihR inRight).2⟩
  | case2 left right ihL ihR =>
    rw [Expr.paths, Expr.functions]
    rcases List.mem_append.mp member with inLeft | inRight
    · exact ⟨List.subset_append_of_subset_left _ (ihL inLeft).1, List.subset_append_of_subset_left _ (ihL inLeft).2⟩
    · exact ⟨List.subset_append_of_subset_right _ (ihR inRight).1, List.subset_append_of_subset_right _ (ihR inRight).2⟩
  | case3 expr ih =>
    rw [Expr.paths, Expr.functions]
    exact ih member
  | case4 b => simp at member
  | case5 other => rw [List.mem_singleton.mp member]; exact ⟨List.Subset.refl _, List.Subset.refl _⟩

theorem Alike.alphaTruth (alike : Alike platform paths functions wm wm') {leaf : Expr} (readsIn : leaf.paths ⊆ paths)
    (callsIn : leaf.functions ⊆ functions) : alphaTruth platform wm leaf = alphaTruth platform wm' leaf := by
  rw [Rete.alphaTruth, Rete.alphaTruth]
  cases compiled : Network.compileAlpha platform leaf with
  | none => simp only [evalAlpha, alike.evalExpr leaf readsIn callsIn]
  | some regex =>
    -- only `matches(haystack, "pattern")` is compiled
    unfold Network.compileAlpha at compiled
    split at compiled
    · rename_i haystack pattern
      rw [Expr.paths, Expr.pathsAll_eq] at readsIn
      rw [Expr.functions, Expr.functionsAll_eq] at callsIn
      have sameHaystack := alike.evalExpr haystack
        (fun p inPaths => readsIn (List.mem_flatMap.mpr ⟨haystack, List.mem_cons_self, inPaths⟩))
        fun f inFunctions => callsIn (List.mem_cons_of_mem _ (List.mem_flatMap.mpr ⟨haystack, List.mem_cons_self, inFunctions⟩))
      obtain ⟨re, -, rfl⟩ := Option.map_eq_some_iff.mp compiled
      simp only [evalAlpha, sameHaystack]
    · cases compiled

theorem Engine.over_stateAfter (engine : Engine) (fired : List Terminal) :
    Over fact engine.registry (engine.stateAfter platform fact fired) := by
  refine List.foldlRecOn fired _ ⟨rfl, rfl⟩ fun st about term _ => ?_
  exact ⟨(fireTerminal_fact platform st term).trans about.1, (fireTerminal_registry platform st term).trans about.2⟩

section
variable {rules : List RuleAst} (same : FactsAlike platform paths functions fact registry fact' registry')
  (readsIn : ∀ r ∈ rules, r.paths ⊆ paths) (callsIn : ∀ r ∈ rules, r.functions ⊆ functions) (plugins plugins' : List Plugin)
include same readsIn callsIn

theorem triesAlike_of_factsAlike :
    Engine.TriesAlike platform ⟨Network.compile platform rules, registry, plugins⟩ fact fact' registry' := by
  intro fired _ term _
  let engine : Engine := ⟨Network.compile platform rules, registry, plugins⟩
  have about : Over fact registry (engine.stateAfter platform fact fired) := engine.over_stateAfter fired
  have sameAlphas : alphaValues platform engine.network (engine.stateAfter platform fact fired).wm =
      alphaValues platform engine.network ((engine.stateAfter platform fact fired).onto fact' registry').wm := by
    rw [alphaValues_eq (wellFormed_compile platform rules), alphaValues_eq (wellFormed_compile platform rules)]
    refine List.map_congr_left fun node member => ?_
    obtain ⟨r, inRules, inLeaves⟩ := List.mem_flatMap.mp (alphas_of_compile platform rules node member)
    obtain ⟨leafPaths, leafFunctions⟩ := leaf_names inLeaves
    refine (same.alike about).alphaTruth ?_ ?_
    · exact List.Subset.trans leafPaths (List.Subset.trans (List.subset_append_left _ _) (readsIn r inRules))
    · exact List.Subset.trans leafFunctions (List.Subset.trans (List.subset_append_left _ _) (callsIn r inRules))
  rw [guardHolds, guardHolds, sameAlphas]

theorem actsAlike_of_factsAlike :
    Engine.ActsAlike platform ⟨Network.compile platform rules, registry, plugins⟩ fact fact' registry' := by
  intro fired _ term chosen
  obtain ⟨r, inRules, carries⟩ := rule_of_terminal platform rules (List.mem_of_find?_eq_some chosen)
  let engine : Engine := ⟨Network.compile platform rules, registry, plugins⟩
  have about : Over fact registry ((engine.stateAfter platform fact fired).record term) := engine.over_stateAfter fired
  refine same.sameActions about ?_ ?_
  · intro s member p inStmt
    refine readsIn r inRules (List.mem_append_right _ (List.mem_flatMap.mpr ⟨s, ?_, inStmt⟩))
    exact carries.actions ▸ member
  · intro s member f inStmt
    refine callsIn r inRules (List.mem_append_right _ (List.mem_flatMap.mpr ⟨s, ?_, inStmt⟩))
    exact carries.actions ▸ member

/-- Engines over one rule list give one outcome on requests that show the same to the rules. -/
theorem fire_over : Engine.fire platform ⟨Network.compile platform rules, registry', plugins'⟩ fact' =
    Engine.fire platform ⟨Network.compile platform rules, registry, plugins⟩ fact :=
  Engine.fire_onto (triesAlike_of_factsAlike same readsIn callsIn plugins)
    (actsAlike_of_factsAlike same readsIn callsIn plugins) plugins'

end

end Rete

end MiniWaf
