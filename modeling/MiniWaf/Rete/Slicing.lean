import MiniWaf.Rete.Coincidence
import MiniWaf.Rete.ListingOrder

/-! Replaying a run from the rules that fired in it, and from what these rules read of
the request.
-/

set_option autoImplicit false

namespace MiniWaf.Rete

open Grl

variable {platform : Platform}

-- Fewer rules

theorem agenda_filter (keep : RuleAst → Bool) (rules : List RuleAst) :
    agenda (rules.filter keep) = (agenda rules).filter keep :=
  (StableSort.filter_insertionSort keep rules).symm

/-- Where the selected rule is kept, the rules that are kept select it. -/
theorem selectRule_filter {keep : RuleAst → Bool} {rules : List RuleAst} {st : FireState}
    (kept : ∀ r, selectRule platform rules st = some r → keep r = true) :
    selectRule platform (rules.filter keep) st = selectRule platform rules st := by
  induction rules with
  | nil => rfl
  | cons r rest ih =>
    by_cases selects : (holds platform st.wm r && decide (r.name ∉ st.fired)) = true
    · have here : selectRule platform (r :: rest) st = some r := List.find?_cons_of_pos selects
      rw [here, List.filter_cons_of_pos (kept r here)]
      exact List.find?_cons_of_pos selects
    · have later : selectRule platform (r :: rest) st = selectRule platform rest st := List.find?_cons_of_neg selects
      rw [later] at kept ⊢
      rw [← ih kept]
      cases keeps : keep r with
      | true =>
        rw [List.filter_cons_of_pos keeps]
        exact List.find?_cons_of_neg selects
      | false => rw [List.filter_cons_of_neg (Bool.eq_false_iff.mp keeps)]

theorem interpret_matchedRules (rules : List RuleAst) (cycles : Nat) (st : FireState) :
    (interpret platform rules cycles st).wm.outcome.matchedRules = st.wm.outcome.matchedRules ++
      (Agenda.items (selectRule platform (agenda rules)) (fireRule platform) stopped cycles st).map (·.name) := by
  rw [interpret, Agenda.loop_eq_foldl]
  refine Agenda.foldl_log (fun st : FireState => st.wm.outcome.matchedRules) RuleAst.name ?_ st _
  intro st r
  exact fireTerminal_matchedRules platform st _

theorem interpret_filter {keep : RuleAst → Bool} {rules : List RuleAst} {cycles : Nat} {st : FireState}
    (kept : ∀ r ∈ rules, r.name ∈ (interpret platform rules cycles st).wm.outcome.matchedRules → keep r = true) :
    interpret platform (rules.filter keep) cycles st = interpret platform rules cycles st := by
  rw [interpret, interpret, agenda_filter]
  refine Agenda.loop_of_kept (fun r => keep r = true) (fun st kept => selectRule_filter kept) fun r fired => ?_
  refine kept r ?_ ?_
  · -- a fired rule is one of the list
    obtain ⟨before, after, split⟩ := List.append_of_mem fired
    have chosen := Agenda.choose_of_split split
    exact (List.mem_insertionSort _).mp (List.mem_of_find?_eq_some chosen)
  · rw [interpret_matchedRules]
    exact List.mem_append_right _ (List.mem_map_of_mem fired)

/-- An outcome is that of any of the rules which have among them all that fired, on any request that shows the same
to these. -/
theorem fire_of_slice (platform : Platform) {rules : List RuleAst} {registry : FunctionRegistry} {fact : RequestContext}
    (agree : LeavesAgree platform rules registry fact) (plugins : List Plugin) {keep : RuleAst → Bool}
    (kept : ∀ r ∈ rules,
      r.name ∈ (Engine.fire platform ⟨.compile platform rules, registry, plugins⟩ fact).matchedRules → keep r = true)
    {fact' : RequestContext} {registry' : FunctionRegistry}
    (same : FactsAlike platform ((rules.filter keep).flatMap RuleAst.paths) ((rules.filter keep).flatMap RuleAst.functions)
      fact registry fact' registry')
    (plugins' : List Plugin) :
    Engine.fire platform ⟨.compile platform (rules.filter keep), registry', plugins'⟩ fact' =
      Engine.fire platform ⟨.compile platform rules, registry, plugins⟩ fact := by
  have run := finalState_eq_interpret ⟨.compile platform rules, registry, plugins⟩ rfl agree
  rw [Engine.fire, run] at kept
  have slice := finalState_eq_interpret ⟨.compile platform (rules.filter keep), registry, plugins⟩ rfl
    (agree.mono (List.filter_sublist.subset))
  calc Engine.fire platform ⟨.compile platform (rules.filter keep), registry', plugins'⟩ fact'
      = Engine.fire platform ⟨.compile platform (rules.filter keep), registry, plugins⟩ fact := by
        refine fire_over same (fun r member => ?_) (fun r member => ?_) plugins plugins'
        · exact fun _ inRule => List.mem_flatMap.mpr ⟨r, member, inRule⟩
        · exact fun _ inRule => List.mem_flatMap.mpr ⟨r, member, inRule⟩
    _ = Engine.fire platform ⟨.compile platform rules, registry, plugins⟩ fact := by
        rw [Engine.fire, Engine.fire, run, slice]
        exact congrArg (fun st : FireState => st.wm.outcome) (interpret_filter kept)

/-- The block of one request, replayed with the rule that blocked and with the path of the request alone. -/
theorem fire_of_slice_admin :
    Engine.fire .plain ⟨.compile .plain ([allowAll, blockAdmin].filter (·.name = "admin")), .new, []⟩ (.bare "POST" "/admin") =
      Engine.fire .plain ⟨.compile .plain [allowAll, blockAdmin], .new, []⟩ (.bare "GET" "/admin") := by
  refine fire_of_slice .plain ?_ [] (by decide +kernel) ⟨?_, ?_⟩ []
  · intro wm _ _ a inA b inB _
    simp only [ruleLeaves, blockAdmin, allowAll, pathIs, leaves, List.flatMap_cons, List.flatMap_nil, List.append_nil,
      List.nil_append, List.mem_singleton] at inA inB
    rw [inA, inB]
  · intro p member
    obtain rfl : p = ⟨[.field "Request", .field "Path"]⟩ := List.mem_singleton.mp member
    rfl
  · intro name member
    cases member

end MiniWaf.Rete
