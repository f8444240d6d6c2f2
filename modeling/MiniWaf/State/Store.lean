import MiniWaf.Plugins.Crs
import MiniWaf.Plugins.Geo
import MiniWaf.Plugins.IpLists
import MiniWaf.State.Loader

/-! The engine the program starts with, and the one the watcher publishes after a
change of the rules directory.
-/

set_option autoImplicit false

namespace MiniWaf

open Grl Rete

/-- What the configuration gives the plugins: the address lists with the blacklist file loaded, the CRS ruleset
if one is configured and loads, and the geo plugin. -/
structure PluginConfig where
  ipLists : IpListStore
  crs : Option CrsRuleset
  geo : GeoPlugin

variable (platform : Platform) (readYaml : Text → Option Yaml)

/-- The plugins `AppState::init` installs, in order. -/
def PluginConfig.plugins (config : PluginConfig) : List Plugin :=
  config.ipLists.plugin :: (config.crs.map CrsRuleset.plugin).toList ++ [config.geo.plugin platform]

def installAll (engine : Engine) (plugins : List Plugin) : Engine := plugins.foldl Engine.install engine

/-- The engine `AppState::init` publishes; a directory that does not load counts as empty. -/
def initEngine (config : PluginConfig) (dir : RulesDir) : Engine :=
  installAll (.new platform (.compile platform ((loadGrlFromDir platform readYaml dir).getD []))) (config.plugins platform)

structure RuleStore where
  engine : Engine

def RuleStore.reloadEngine (_store : RuleStore) (engine : Engine) : RuleStore := ⟨engine⟩

/-- The watcher's handling of a change event. -/
def watcherReload (dir : RulesDir) (store : RuleStore) : RuleStore :=
  match loadGrlFromDir platform readYaml dir with
  | some asts => store.reloadEngine (.new platform (.compile platform asts))
  | none => store

/-- The outcome of a request: enrich, then fire. -/
def outcomeOf (engine : Engine) (ctx : RequestContext) : Outcome := engine.fire platform (engine.enrich ctx)

end MiniWaf
