import MiniWaf.Rete.Coincidence
import MiniWaf.State.Store

/-! What a hot reload leaves alone. The watcher builds its engine without the plugins, so
rules that look at a plugin's function or extension change their meaning.
-/

set_option autoImplicit false

namespace MiniWaf

open Grl Rete

variable {platform : Platform} {readYaml : Text → Option Yaml}

theorem installAll_network (engine : Engine) (plugins : List Plugin) :
    (installAll engine plugins).network = engine.network := by
  induction plugins generalizing engine with
  | nil => rfl
  | cons plugin rest ih => exact ih _

theorem installAll_shape (engine : Engine) (plugins : List Plugin) :
    (⟨engine.network, (installAll engine plugins).registry, (installAll engine plugins).plugins⟩ : Engine) =
      installAll engine plugins := by
  have network := installAll_network engine plugins
  cases installed : installAll engine plugins with
  | mk net registry plugins' =>
    rw [installed] at network
    rw [← network]

theorem installAll_plugins (engine : Engine) (plugins : List Plugin) :
    (installAll engine plugins).plugins = engine.plugins ++ plugins := by
  induction plugins generalizing engine with
  | nil => simp [installAll]
  | cons plugin rest ih =>
    have next := ih (engine.install plugin)
    rw [Engine.install, List.append_assoc] at next
    exact next

theorem watcherReload_engine {dir : RulesDir} {rules : List RuleAst}
    (loaded : loadGrlFromDir platform readYaml dir = some rules) (store : RuleStore) :
    (watcherReload platform readYaml dir store).engine = .new platform (.compile platform rules) := by
  rw [watcherReload, loaded]
  rfl

theorem initEngine_eq {dir : RulesDir} {rules : List RuleAst}
    (loaded : loadGrlFromDir platform readYaml dir = some rules) (config : PluginConfig) :
    initEngine platform readYaml config dir =
      installAll (.new platform (.compile platform rules)) (config.plugins platform) := by
  rw [initEngine, loaded]
  rfl

/-- The conditions the engine tries on a request have the same truth without the plugins. -/
def PluginFreeConditions (platform : Platform) (engine : Engine) (ctx : RequestContext) : Prop :=
  engine.TriesAlike platform (engine.enrich ctx) ctx (registerContextDefaults platform .new)

/-- The actions that run on a request compute the same without the plugins. -/
def PluginFreeActions (platform : Platform) (engine : Engine) (ctx : RequestContext) : Prop :=
  engine.ActsAlike platform (engine.enrich ctx) ctx (registerContextDefaults platform .new)

-- One request

/-- A reload leaves the outcome of a request alone if neither the conditions tried nor the actions run on it depend on
the plugins. Where the rules have names of their own and the actions do not, the conditions must not. -/
theorem reload_preserves (platform : Platform) (readYaml : Text → Option Yaml) (config : PluginConfig) {dir : RulesDir}
    {rules : List RuleAst} (loaded : loadGrlFromDir platform readYaml dir = some rules) (store : RuleStore)
    (ctx : RequestContext) :
    (PluginFreeConditions platform (initEngine platform readYaml config dir) ctx →
      PluginFreeActions platform (initEngine platform readYaml config dir) ctx →
      outcomeOf platform (watcherReload platform readYaml dir store).engine ctx =
        outcomeOf platform (initEngine platform readYaml config dir) ctx) ∧
    ((rules.map (·.name)).Nodup → PluginFreeActions platform (initEngine platform readYaml config dir) ctx →
      outcomeOf platform (watcherReload platform readYaml dir store).engine ctx =
        outcomeOf platform (initEngine platform readYaml config dir) ctx →
      PluginFreeConditions platform (initEngine platform readYaml config dir) ctx) := by
  have network : (initEngine platform readYaml config dir).network = .compile platform rules := by
    rw [initEngine_eq loaded, installAll_network]
    rfl
  have reloaded : (watcherReload platform readYaml dir store).engine =
      ⟨(initEngine platform readYaml config dir).network, registerContextDefaults platform .new, []⟩ := by
    rw [watcherReload_engine loaded, network]
    rfl
  have bare : outcomeOf platform (watcherReload platform readYaml dir store).engine ctx = Engine.fire platform
      ⟨(initEngine platform readYaml config dir).network, registerContextDefaults platform .new, []⟩ ctx := by
    rw [reloaded]
    rfl
  rw [bare]
  refine ⟨fun conditions actions => Engine.fire_onto conditions actions [], fun distinct actions same => ?_⟩
  refine Engine.triesAlike_of_fire ?_ actions same
  rw [network]
  exact (compile_names platform rules).nodup_iff.mpr distinct

def localBlacklist : PluginConfig := ⟨⟨(· == "127.0.0.1"), fun _ => false⟩, none, ⟨none, [], []⟩⟩

def countryDir : RulesDir := ⟨true, some [some ⟨true, some "grl", some ("rule \"admin\" salience 20 \x7b when ".toList ++
  "Request.Path == \"/admin\" then log(GetCountry()); \x7d rule \"closed\" salience 10 ".toList ++
  "\x7b when true then block(\"closed\"); \x7d".toList)⟩]⟩

def countryRules : List RuleAst :=
  [⟨"admin", 20, .binary .eq (.path ⟨[.field "Request", .field "Path"]⟩) (.literal (.str "/admin")),
      [.call ⟨"log", [.call "GetCountry" []]⟩]⟩,
    ⟨"closed", 10, .literal (.bool true), [.call ⟨"block", [.literal (.str "closed")]⟩]⟩]

theorem reload_preserves_closed :
    let started := initEngine .plain (fun _ => none) localBlacklist countryDir
    outcomeOf .plain (watcherReload .plain (fun _ => none) countryDir ⟨started⟩).engine (.bare "GET" "/") =
      outcomeOf .plain started (.bare "GET" "/") := by
  intro started
  have loaded : loadGrlFromDir .plain (fun _ => none) countryDir = some countryRules := by decide +kernel
  refine (reload_preserves .plain (fun _ => none) localBlacklist loaded ⟨started⟩ _).1 ?_ ?_
  · exact Engine.triesAlike_of_all (by decide +kernel)
  · unfold PluginFreeActions
    decide +kernel

def blacklistDir : RulesDir := ⟨true, some [some ⟨true, some "grl",
  some "rule \"ip\" salience 10 \x7b when ip_in_blacklist(Request.ClientIp) then block(\"ip\"); \x7d".toList⟩]⟩

/-- The rule blocks after startup, and no longer after the first reload of the unchanged directory. -/
theorem reload_forgets :
    let ctx := RequestContext.bare "GET" "/"
    let store : RuleStore := ⟨initEngine .plain (fun _ => none) localBlacklist blacklistDir⟩
    (outcomeOf .plain store.engine ctx).blockReason = some "ip" ∧
      (outcomeOf .plain (watcherReload .plain (fun _ => none) blacklistDir store).engine ctx).blockReason = none := by
  decide +kernel

-- All requests to rules over a vocabulary

def PluginConfig.functions (config : PluginConfig) : List String :=
  ["ip_in_blacklist", "ip_in_whitelist", "GetCountry", "geo_blocked"] ++
    (if config.crs.isSome then ["crs_score", "crs_match"] else [])

def pluginKeys : List String := ["blacklisted", "whitelisted", "geo.country"]

def extKey (p : Path) : Option String :=
  match p.segments with
  | .field "Request" :: .field "Ext" :: .index key :: _ => some key
  | _ => none

structure RulesWithin (functions keys : List String) (rules : List RuleAst) : Prop where
  functions : ∀ r ∈ rules, r.functions ⊆ functions
  keys : ∀ r ∈ rules, ∀ p ∈ r.paths, ∀ key, extKey p = some key → key ∈ keys

theorem resolve_extensions (ctx : RequestContext) (extensions : AssocMap String String) (p : Path)
    (kept : ∀ key, extKey p = some key → extensions.get key = ctx.extensions.get key) :
    resolve platform p { ctx with extensions := extensions } = resolve platform p ctx := by
  obtain ⟨segments⟩ := p
  unfold resolve
  dsimp only
  split
  · rename_i field rest
    split
    all_goals try rfl
    split
    · rename_i key _
      rw [kept key rfl]
    · rfl
  · rfl

/-- The plugins change the context in their extensions only. -/
theorem enrich_plugins (config : PluginConfig) (engine : Engine) (ctx : RequestContext)
    (installed : engine.plugins = config.plugins platform) :
    ∃ extensions : AssocMap String String, engine.enrich ctx = { ctx with extensions := extensions } ∧
      ∀ key, key ∉ pluginKeys → extensions.get key = ctx.extensions.get key := by
  have unfolded : engine.enrich ctx = config.geo.enrich platform (config.ipLists.enrich ctx) := by
    rw [Engine.enrich, installed, PluginConfig.plugins]
    cases config.crs <;> rfl
  rw [unfolded]
  refine ⟨_, rfl, fun key other => ?_⟩
  simp only [pluginKeys, List.mem_cons, List.not_mem_nil, or_false, not_or] at other
  rw [AssocMap.get_insert_of_ne _ _ _ _ other.2.2]
  simp only [IpListStore.enrich]
  rw [AssocMap.get_insert_of_ne _ _ _ _ other.2.1, AssocMap.get_insert_of_ne _ _ _ _ other.1]

theorem init_registry (config : PluginConfig) (engine : Engine) :
    (installAll engine (config.plugins platform)).registry = config.geo.register platform
      ((config.crs.map CrsRuleset.register).getD id (config.ipLists.register engine.registry)) := by
  cases config with
  | mk ipLists crs geo => cases crs <;> rfl

theorem register_other {config : PluginConfig} {name : String} (other : name ∉ config.functions)
    (registry : FunctionRegistry) :
    (config.geo.register platform
      ((config.crs.map CrsRuleset.register).getD id (config.ipLists.register registry))).fns name =
        registry.fns name := by
  obtain ⟨ipLists, crs, geo⟩ := config
  cases crs with
  | none =>
    simp only [PluginConfig.functions, List.mem_append, List.mem_cons, List.not_mem_nil, Option.isSome_none,
      Bool.false_eq_true, if_false, or_false, not_or] at other
    simp [GeoPlugin.register, IpListStore.register, other]
  | some ruleset =>
    simp only [PluginConfig.functions, List.mem_append, List.mem_cons, List.not_mem_nil, Option.isSome_some,
      if_true, or_false, not_or] at other
    simp [GeoPlugin.register, IpListStore.register, CrsRuleset.register, other]

theorem call_defaults (name : String) (ctx : RequestContext) (extensions : AssocMap String String) (args : List Value)
    {registry : FunctionRegistry} (same : registry.fns name = (registerContextDefaults platform .new).fns name) :
    registry.call platform name { ctx with extensions := extensions } args =
      (registerContextDefaults platform .new).call platform name ctx args := by
  rw [FunctionRegistry.call, FunctionRegistry.call, same]
  by_cases path : name = "is_path_under"
  · simp [registerContextDefaults, path, RequestContext.isPathUnder]
  · by_cases header : name = "has_header"
    · simp [registerContextDefaults, header, RequestContext.hasHeader]
    · by_cases count : name = "header_count"
      · simp [registerContextDefaults, count, RequestContext.headerCount]
      · simp [registerContextDefaults, path, header, count, FunctionRegistry.new]

theorem outcome_of_within {config : PluginConfig} {functions keys : List String}
    (noFunction : ∀ f ∈ functions, f ∉ config.functions) (noKey : ∀ key ∈ keys, key ∉ pluginKeys) {rules : List RuleAst}
    (within : RulesWithin functions keys rules) (ctx : RequestContext) :
    outcomeOf platform (.new platform (.compile platform rules)) ctx =
      outcomeOf platform (installAll (.new platform (.compile platform rules)) (config.plugins platform)) ctx := by
  let started := installAll (.new platform (.compile platform rules)) (config.plugins platform)
  obtain ⟨extensions, enriched, kept⟩ := enrich_plugins config started ctx
    (by rw [installAll_plugins]; rfl)
  have same : FactsAlike platform (rules.flatMap RuleAst.paths) functions { ctx with extensions := extensions }
      started.registry ctx (registerContextDefaults platform .new) := by
    refine ⟨fun p member => resolve_extensions ctx extensions p fun key isKey => ?_, fun name member args => ?_⟩
    · obtain ⟨r, inRules, inPaths⟩ := List.mem_flatMap.mp member
      exact kept key (noKey key (within.keys r inRules p inPaths key isKey))
    · refine call_defaults name ctx extensions args ?_
      rw [init_registry, register_other (noFunction name member)]
      rfl
  have run := fire_over same (fun r inRules p inPaths => List.mem_flatMap.mpr ⟨r, inRules, inPaths⟩)
    within.functions started.plugins []
  have shape : (⟨.compile platform rules, started.registry, started.plugins⟩ : Engine) = started :=
    installAll_shape (.new platform (.compile platform rules)) (config.plugins platform)
  rw [shape] at run
  rw [outcomeOf, outcomeOf, enriched]
  exact run

-- Rules that name one function or extension

def probeFile (operand : Text) : DirFile where
  isFile := true
  extension := some "grl"
  text := some ("rule \"block\" salience 950 \x7b when ".toList ++ operand ++ " == \"\" then block(\"\"); \x7d".toList)

def probe (operand : Expr) : RuleAst := blockWhen (.binary .eq operand (.literal (.str ""))) ""

def probeDir (operand : Text) : RulesDir := ⟨true, some [some (probeFile operand)]⟩

def extPath (key : String) : Path := ⟨[.field "Request", .field "Ext", .index key]⟩

variable (platform) (readYaml) in
theorem load_probe {operand : Text} {e : Expr}
    (parses : (probeFile operand).text.bind parse = some [probe e]) :
    loadGrlFromDir platform readYaml (probeDir operand) = some [probe e] := by
  have file : fileRules platform readYaml (probeFile operand) = [probe e] := by
    have source : (probeFile operand).text.bind (grlSource platform readYaml (probeFile operand)) =
        (probeFile operand).text := rfl
    rw [fileRules, source, parses]
    rfl
  have listed : loadGrlFromDir platform readYaml (probeDir operand) =
      some (fileRules platform readYaml (probeFile operand) ++ []) := rfl
  rw [listed, file]
  rfl

theorem probe_functions :
    ∀ f ∈ ["ip_in_blacklist", "ip_in_whitelist", "GetCountry", "geo_blocked", "crs_score", "crs_match"],
    (probeFile (f.toList ++ "()".toList)).text.bind parse = some [probe (.call f [])] := by
  decide +kernel

theorem probe_keys : ∀ key ∈ pluginKeys,
    (probeFile ("Request.Ext[\"".toList ++ key.toList ++ "\"]".toList)).text.bind parse =
      some [probe (.path (extPath key))] := by
  decide +kernel

theorem valueEq_str (v : Value) (s : String) : valueEq v (.str s) = (v.asStr == s) := by
  cases v <;> rfl

theorem fire_probe {e : Expr} (registry : FunctionRegistry) (plugins : List Plugin) (ctx : RequestContext) :
    outcomeToDecision (Engine.fire platform ⟨.compile platform [probe e], registry, plugins⟩ ctx) =
      if (evalExpr platform (.new ctx registry) e).asStr = "" then .block "" else .allow := by
  have truth : alphaTruth platform (.new ctx registry) (.binary .eq e (.literal (.str ""))) =
      decide ((evalExpr platform (.new ctx registry) e).asStr = "") := by
    have node : alphaTruth platform (.new ctx registry) (.binary .eq e (.literal (.str ""))) =
        Rete.truth platform (.new ctx registry) (.binary .eq e (.literal (.str ""))) := rfl
    rw [node, truth_eq, evalExpr, valueEq_str]
    rfl
  rw [probe, fire_blockWhen "" rfl (fun _ => rfl), truth]
  simp only [decide_eq_true_eq]

theorem fire_probe_ne {e : Expr} {registry registry' : FunctionRegistry} {plugins plugins' : List Plugin}
    {ctx ctx' : RequestContext} (empty : (evalExpr platform (.new ctx registry) e).asStr = "")
    (text : (evalExpr platform (.new ctx' registry') e).asStr ≠ "") :
    Engine.fire platform ⟨.compile platform [probe e], registry, plugins⟩ ctx ≠
      Engine.fire platform ⟨.compile platform [probe e], registry', plugins'⟩ ctx' := by
  intro same
  have decided := congrArg outcomeToDecision same
  rw [fire_probe, fire_probe, if_pos empty, if_neg text] at decided
  cases decided

theorem pluginCall_text {config : PluginConfig} {f : String} (known : f ∈ config.functions)
    (registry : FunctionRegistry) {ctx : RequestContext} (located : GeoPlugin.storedCountry ctx ≠ "") :
    (FunctionRegistry.call platform (config.geo.register platform ((config.crs.map CrsRuleset.register).getD id
      (config.ipLists.register registry))) f ctx []).asStr ≠ "" := by
  have boolText : ∀ b : Bool, (Value.bool b).asStr ≠ "" := by decide
  have intText : ∀ i : Int64, (Value.int i).asStr ≠ "" := by
    intro i empty
    have digits : Text.ofInt i.toInt = [] := String.ofList_eq_empty_iff.mp empty
    have parsed := Text.parseI64_ofInt i
    rw [digits] at parsed
    cases parsed
  obtain ⟨ipLists, crs, geo⟩ := config
  cases crs with
  | none =>
    simp only [PluginConfig.functions, Option.isSome_none, Bool.false_eq_true, if_false, List.append_nil, List.mem_cons,
      List.not_mem_nil, or_false] at known
    rcases known with rfl | rfl | rfl | rfl
    · simp [FunctionRegistry.call, GeoPlugin.register, IpListStore.register, boolText]
    · simp [FunctionRegistry.call, GeoPlugin.register, IpListStore.register, boolText]
    · simpa [FunctionRegistry.call, GeoPlugin.register, GeoPlugin.getCountry, Value.asStr] using located
    · simp [FunctionRegistry.call, GeoPlugin.register, boolText]
  | some ruleset =>
    simp only [PluginConfig.functions, Option.isSome_some, if_true, List.mem_append, List.mem_cons, List.not_mem_nil,
      or_false] at known
    rcases known with (rfl | rfl | rfl | rfl) | rfl | rfl
    · simp [FunctionRegistry.call, GeoPlugin.register, IpListStore.register, CrsRuleset.register, boolText]
    · simp [FunctionRegistry.call, GeoPlugin.register, IpListStore.register, CrsRuleset.register, boolText]
    · simpa [FunctionRegistry.call, GeoPlugin.register, GeoPlugin.getCountry, Value.asStr] using located
    · simp [FunctionRegistry.call, GeoPlugin.register, boolText]
    · simp [FunctionRegistry.call, GeoPlugin.register, CrsRuleset.register, intText]
    · simp [FunctionRegistry.call, GeoPlugin.register, CrsRuleset.register, boolText]

theorem PluginConfig.functions_sub (config : PluginConfig) {f : String} (known : f ∈ config.functions) :
    f ∈ ["ip_in_blacklist", "ip_in_whitelist", "GetCountry", "geo_blocked", "crs_score", "crs_match"] := by
  rw [PluginConfig.functions] at known
  split at known
  · exact known
  · rw [List.append_nil] at known
    exact List.mem_append_left ["crs_score", "crs_match"] known

theorem defaultCall_null {config : PluginConfig} {f : String} (known : f ∈ config.functions) (ctx : RequestContext) :
    FunctionRegistry.call platform (registerContextDefaults platform .new) f ctx [] = .null := by
  have names := config.functions_sub known
  simp only [List.mem_cons, List.not_mem_nil, or_false] at names
  rcases names with rfl | rfl | rfl | rfl | rfl | rfl <;>
    simp [FunctionRegistry.call, registerContextDefaults, FunctionRegistry.new, dispatch]

variable (platform) in
theorem located (config : PluginConfig) : GeoPlugin.storedCountry
    (config.geo.enrich platform (config.ipLists.enrich GeoPlugin.fromKp)) = "KP" := by
  rw [GeoPlugin.storedCountry_enrich]
  exact config.geo.country_fromKp platform

theorem extension_text (config : PluginConfig) {key : String} (known : key ∈ pluginKeys) :
    ((config.geo.enrich platform (config.ipLists.enrich GeoPlugin.fromKp)).extensions.get key).getD "" ≠ "" := by
  have boolText : ∀ b, IpListStore.boolText b ≠ "" := by decide
  simp only [pluginKeys, List.mem_cons, List.not_mem_nil, or_false] at known
  rcases known with rfl | rfl | rfl
  · simp [GeoPlugin.enrich, IpListStore.enrich, boolText]
  · simp [GeoPlugin.enrich, IpListStore.enrich, boolText]
  · have country := located platform config
    rw [GeoPlugin.storedCountry] at country
    rw [country]
    decide

theorem outcome_probe_ne {config : PluginConfig} {e : Expr}
    (empty : (evalExpr platform (.new GeoPlugin.fromKp (registerContextDefaults platform .new)) e).asStr = "")
    (text : ∀ registry, (evalExpr platform (.new (config.geo.enrich platform (config.ipLists.enrich GeoPlugin.fromKp))
      (config.geo.register platform
        ((config.crs.map CrsRuleset.register).getD id (config.ipLists.register registry)))) e).asStr ≠ "") :
    outcomeOf platform (.new platform (.compile platform [probe e])) GeoPlugin.fromKp ≠
      outcomeOf platform (installAll (.new platform (.compile platform [probe e])) (config.plugins platform))
        GeoPlugin.fromKp := by
  have enriched : (installAll (.new platform (.compile platform [probe e])) (config.plugins platform)).enrich
      GeoPlugin.fromKp = config.geo.enrich platform (config.ipLists.enrich GeoPlugin.fromKp) := by
    rw [Engine.enrich, installAll_plugins, PluginConfig.plugins]
    cases config.crs <;> rfl
  rw [outcomeOf, outcomeOf, enriched, ← installAll_shape, init_registry]
  exact fire_probe_ne empty (text _)

/-- A reload leaves all rules over a vocabulary alone exactly when the vocabulary has no function and
no extension of a configured plugin. -/
theorem reload_keeps_vocabulary (platform : Platform) (readYaml : Text → Option Yaml) (config : PluginConfig)
    (functions keys : List String) :
    (∀ dir rules, loadGrlFromDir platform readYaml dir = some rules → RulesWithin functions keys rules →
      ∀ store ctx, outcomeOf platform (watcherReload platform readYaml dir store).engine ctx =
        outcomeOf platform (initEngine platform readYaml config dir) ctx) ↔
      (∀ f ∈ functions, f ∉ config.functions) ∧ ∀ key ∈ keys, key ∉ pluginKeys := by
  constructor
  · intro preserves
    let store : RuleStore := ⟨.new platform .new⟩
    refine ⟨fun f inFunctions known => ?_, fun key inKeys known => ?_⟩
    · have names : f ∈ ["ip_in_blacklist", "ip_in_whitelist", "GetCountry", "geo_blocked", "crs_score", "crs_match"] :=
        config.functions_sub known
      have loaded := load_probe platform readYaml (probe_functions f names)
      have within : RulesWithin functions keys [probe (.call f [])] := by
        refine ⟨fun r member => ?_, fun r member p inPaths => ?_⟩
        · rw [List.mem_singleton.mp member]
          exact List.cons_subset.mpr ⟨inFunctions, List.nil_subset _⟩
        · rw [List.mem_singleton.mp member] at inPaths
          cases inPaths
      have same := preserves _ _ loaded within store GeoPlugin.fromKp
      rw [watcherReload_engine loaded, initEngine_eq loaded] at same
      refine outcome_probe_ne ?_ (fun registry => ?_) same
      · rw [evalExpr, evalArgs]
        exact congrArg Value.asStr (defaultCall_null known _)
      · rw [evalExpr, evalArgs]
        refine pluginCall_text known registry ?_
        change GeoPlugin.storedCountry (config.geo.enrich platform (config.ipLists.enrich GeoPlugin.fromKp)) ≠ ""
        rw [located]
        decide
    · have loaded := load_probe platform readYaml (probe_keys key known)
      have within : RulesWithin functions keys [probe (.path (extPath key))] := by
        refine ⟨fun r member => ?_, fun r member p inPaths other isKey => ?_⟩
        · rw [List.mem_singleton.mp member]
          exact List.nil_subset _
        · rw [List.mem_singleton.mp member] at inPaths
          have onlyPath : p = extPath key := List.mem_singleton.mp inPaths
          rw [onlyPath] at isKey
          cases isKey
          exact inKeys
      have same := preserves _ _ loaded within store GeoPlugin.fromKp
      rw [watcherReload_engine loaded, initEngine_eq loaded] at same
      refine outcome_probe_ne ?_ (fun registry => ?_) same
      · rfl
      · exact extension_text config known
  · rintro ⟨noFunction, noKey⟩ dir rules loaded within store ctx
    rw [watcherReload_engine loaded, initEngine_eq loaded]
    exact outcome_of_within noFunction noKey within ctx

end MiniWaf
