import MiniWaf.Pipeline.Inbound
import MiniWaf.Plugins.Geo
import MiniWaf.Rete.Interpreter
import MiniWaf.Rete.Lockstep

/-! The documented request flow runs every plugin's `enrich` before the rules; the
pipeline fires the engine on the context as it is.
-/

set_option autoImplicit false

namespace MiniWaf

open Grl Rete

variable (platform : Platform)

/-- The decision of the documented flow: enrich, then fire. -/
def documentedDecision (engine : Engine) (ctx : RequestContext) : Decision :=
  outcomeToDecision (engine.fire platform (engine.enrich ctx))

variable {platform}

theorem fire_call (fn reason : String) {registry : FunctionRegistry} (plugins : List Plugin) {f : CtxFn}
    (registered : registry.fns fn = some f) (ctx : RequestContext) :
    outcomeToDecision
        (Engine.fire platform ⟨.compile platform [blockWhen (.call fn []) reason], registry, plugins⟩ ctx) =
      if (f ctx []).asBool then .block reason else .allow := by
  have truth : alphaTruth platform (.new ctx registry) (.call fn []) = (f ctx []).asBool := by
    simp only [alphaTruth, Network.compileAlpha, evalAlpha, evalExpr, evalArgs, WorkingMemory.new,
      FunctionRegistry.call, registered]
  rw [fire_blockWhen reason rfl (fun _ => rfl), truth]

-- Rules that block

/-- Every rule blocks, and the reason tells which one did. -/
structure Blocking (network : Network) (reason : Terminal → String) : Prop where
  actions : ∀ term ∈ network.terminals, term.actions = [.call ⟨"block", [.literal (.str (reason term))]⟩]
  distinct : (network.terminals.map reason).Nodup

section
variable {engine : Engine} {reason : Terminal → String} (blocking : Blocking engine.network reason)
include blocking

theorem Blocking.fired {st : FireState} {term : Terminal}
    (selected : selectTerminal platform engine.network st = some term) :
    (fireTerminal platform st term).wm.outcome.blockReason = some (reason term) := by
  rw [fireTerminal, blocking.actions term (List.mem_of_find?_eq_some selected)]
  rfl

theorem Blocking.stopped {st : FireState} {term : Terminal}
    (selected : selectTerminal platform engine.network st = some term) :
    stopped (fireTerminal platform st term) = true := by
  rw [Rete.stopped, blocking.fired selected]
  rfl

/-- The run is one scan. -/
theorem Blocking.firedAtScans (fact : RequestContext) : engine.firedAtScans platform fact = [[]] := by
  rw [Engine.firedAtScans, maxCycles, Agenda.scans]
  cases selected : selectTerminal platform engine.network (engine.initial fact) with
  | none => rfl
  | some term =>
    dsimp only
    rw [if_pos (blocking.stopped selected)]

theorem Blocking.decision (fact : RequestContext) : outcomeToDecision (engine.fire platform fact) =
    ((selectTerminal platform engine.network (engine.initial fact)).map
      fun term => Decision.block (reason term)).getD .allow := by
  rw [Engine.fire, Engine.finalState, maxCycles, fireLoop]
  cases selected : selectTerminal platform engine.network (engine.initial fact) with
  | none => rfl
  | some term =>
    dsimp only
    rw [if_pos (blocking.stopped selected), outcomeToDecision, blocking.fired selected]
    rfl

/-- Two scans decide alike exactly if they select alike. -/
theorem Blocking.decision_eq_iff (fact fact' : RequestContext) :
    outcomeToDecision (engine.fire platform fact) = outcomeToDecision (engine.fire platform fact') ↔
      selectTerminal platform engine.network (engine.initial fact) =
        selectTerminal platform engine.network (engine.initial fact') := by
  rw [blocking.decision, blocking.decision]
  cases selected : selectTerminal platform engine.network (engine.initial fact) with
  | none => cases selectTerminal platform engine.network (engine.initial fact') <;> simp
  | some term =>
    cases selected' : selectTerminal platform engine.network (engine.initial fact') with
    | none => simp
    | some term' =>
      have named : reason term = reason term' ↔ term = term' := by
        refine ⟨fun same => ?_, congrArg reason⟩
        exact List.inj_on_of_nodup_map blocking.distinct (List.mem_of_find?_eq_some selected)
          (List.mem_of_find?_eq_some selected') same
      simp [named]

end

/-- The pipeline follows the documented flow if the conditions tried in that flow, and the actions run in it, see
nothing of what the plugins add to the context. For rules that block with reasons of their own it does so exactly if the
conditions see nothing. The geo rule blocks exactly when the context carries a listed country already. -/
theorem enrichment_skipped (platform : Platform) :
    (∀ (engine : Engine) (ctx : RequestContext),
      engine.TriesAlike platform (engine.enrich ctx) ctx engine.registry →
      engine.ActsAlike platform (engine.enrich ctx) ctx engine.registry →
      (runInbound platform engine ctx).2 = documentedDecision platform engine ctx) ∧
    (∀ (engine : Engine) (reason : Terminal → String) (ctx : RequestContext), Blocking engine.network reason →
      ((runInbound platform engine ctx).2 = documentedDecision platform engine ctx ↔
        engine.TriesAlike platform (engine.enrich ctx) ctx engine.registry)) ∧
    ∀ (geo : GeoPlugin) (reason : String) (ctx : RequestContext),
      (runInbound platform ((Engine.new platform (.compile platform [blockWhen (.call "geo_blocked" []) reason])).install
        (geo.plugin platform)) ctx).2 = .block reason ↔ geo.geoBlocked ctx = true := by
  refine ⟨fun engine ctx tries acts => ?_, fun engine reason ctx blocking => ?_, fun geo reason ctx => ?_⟩
  · exact congrArg outcomeToDecision (Engine.fire_onto tries acts engine.plugins)
  · have bare : (engine.initial (engine.enrich ctx)).onto ctx engine.registry = engine.initial ctx := rfl
    have tried : engine.TriesAlike platform (engine.enrich ctx) ctx engine.registry ↔
        selectTerminal platform engine.network (engine.initial (engine.enrich ctx)) =
          selectTerminal platform engine.network ((engine.initial (engine.enrich ctx)).onto ctx engine.registry) := by
      rw [selectTerminal_onto_iff, Engine.TriesAlike, blocking.firedAtScans, List.forall_mem_singleton]
      rfl
    rw [tried, bare, eq_comm, runInbound, documentedDecision, blocking.decision_eq_iff]
  · have installed : (Engine.new platform (.compile platform [blockWhen (.call "geo_blocked" []) reason])).install
        (geo.plugin platform) = ⟨.compile platform [blockWhen (.call "geo_blocked" []) reason],
          geo.register platform (registerContextDefaults platform .new), [geo.plugin platform]⟩ := rfl
    rw [installed, runInbound, fire_call _ _ _ (geo.register_blocked platform _)]
    cases geo.geoBlocked ctx <;> simp

def geoKp : GeoPlugin := .new .plain none [] ["KP"]

theorem enrichment_skipped_admin :
    let path : Expr := .path ⟨[.field "Request", .field "Path"]⟩
    let rule := blockWhen (.binary .eq path (.literal (.str "/"))) "closed"
    let engine := (Engine.new .plain (.compile .plain [rule])).install (geoKp.plugin .plain)
    (runInbound .plain engine GeoPlugin.fromKp).2 = documentedDecision .plain engine GeoPlugin.fromKp := by
  refine (enrichment_skipped .plain).1 _ _ ?_ ?_
  · exact Engine.triesAlike_of_all (by decide +kernel)
  · decide +kernel

/-- The header resolves to the blocked country, and the documented flow blocks; the pipeline allows. -/
theorem geo_rule_allows :
    let rule := blockWhen (.call "geo_blocked" []) "geo"
    let engine := (Engine.new .plain (.compile .plain [rule])).install (geoKp.plugin .plain)
    geoKp.country .plain GeoPlugin.fromKp = "KP" ∧ documentedDecision .plain engine GeoPlugin.fromKp = .block "geo" ∧
      (runInbound .plain engine GeoPlugin.fromKp).2 = .allow := by
  decide +kernel

end MiniWaf
