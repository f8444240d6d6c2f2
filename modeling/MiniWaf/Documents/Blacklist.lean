import MiniWaf.Documents.Verdict
import MiniWaf.Lists.IpList

/-! The blacklist file of the configuration, with a rule of the directory that blocks what is on
it: the lines of the file decide, before any other rule.
-/

set_option autoImplicit false

namespace MiniWaf.Documents

open Grl MiniWaf.Lists Rete Yaml

/-- The lists `AppState::init` sets up; a file that cannot be read leaves them empty. -/
def startLists (crate : IpNetCrate) (file : Option String) : Store :=
  match file with
  | some content => Store.new.loadBlacklist crate content
  | none => .new

def Blacklisted (crate : IpNetCrate) (content : String) (ctx : RequestContext) : Prop :=
  ∃ a, IpAddr.parse ctx.clientIp.toList = some a ∧ ∃ entry ∈ Store.fileEntries content, EntryContains crate entry a

theorem loadBlacklist_run (crate : IpNetCrate) (content : String) :
    Store.new.loadBlacklist crate content = run crate ((Store.fileEntries content).map .addToBlacklist) := by
  rw [run, List.foldl_map]
  rfl

theorem startLists_blacklisted {crate : IpNetCrate} (hosts : crate.HostRoutes) (content : String) (ctx : RequestContext) :
    ((startLists crate (some content)).lookups crate).isBlacklisted ctx.clientIp = true ↔ Blacklisted crate content ctx := by
  rw [(Store.lookups_eq crate _ _).2, startLists, loadBlacklist_run]
  have white : ∀ entry, Call.addToWhitelist entry ∉ (Store.fileEntries content).map Call.addToBlacklist := by
    intro entry member
    obtain ⟨other, -, clash⟩ := List.mem_map.mp member
    cases clash
  have black (entry : String) : Call.addToBlacklist entry ∈ (Store.fileEntries content).map Call.addToBlacklist ↔
      entry ∈ Store.fileEntries content :=
    List.mem_map_of_injective fun _ _ same => Call.addToBlacklist.inj same
  unfold Store.isBlacklisted
  cases parsed : IpAddr.parse ctx.clientIp.toList with
  | none => simp [Blacklisted, parsed]
  | some a =>
    obtain ⟨inBlack, inWhite⟩ := contains_run hosts ((Store.fileEntries content).map .addToBlacklist) a
    have nobody : (run crate ((Store.fileEntries content).map .addToBlacklist)).whitelist.contains crate a = false := by
      rw [Bool.eq_false_iff]
      intro held
      obtain ⟨entry, member, -⟩ := inWhite.mp held
      exact white entry member
    simp only [nobody, Bool.false_eq_true, if_false, inBlack, black, Blacklisted, parsed, Option.some.injEq, exists_eq_left']

structure BlocksListed (v : Yaml) : Prop where
  id : ((v.get "id").bind asStr).isSome = true
  condition : v.get "condition" = some (.record [("type", .string "ip_in_blacklist")])
  action : ruleAction v = "block"
  unscoped : v.get "scope" = none

variable {platform : Platform} {readYaml : Text → Option Yaml}

theorem BlocksListed.meets {v : Yaml} (blocks : BlocksListed v) (config : PluginConfig) (dir : RulesDir)
    (ctx : RequestContext) :
    itemMeets platform ctx (initEngine platform readYaml config dir).registry v = config.ipLists.isBlacklisted ctx.clientIp := by
  obtain ⟨id, found⟩ := Option.isSome_iff_exists.mp blocks.id
  have known (args : List Value) : (initEngine platform readYaml config dir).registry.call platform "ip_in_blacklist" ctx args =
      .bool (config.ipLists.isBlacklisted (IpListStore.argumentOr ctx args)) := by
    rw [initEngine, init_registry]
    cases config.crs <;> simp [FunctionRegistry.call, GeoPlugin.register, IpListStore.register, CrsRuleset.register]
  have shape : condShape (.record [("type", .string "ip_in_blacklist")]) =
      .ok (.call .ipInBlacklist (.field .clientIp) none) := rfl
  rw [itemMeets, ruleShape, found]
  dsimp only
  rw [blocks.condition]
  dsimp only
  rw [shape, blocks.unscoped]
  change (true && Shape.meets platform ctx _ (.call .ipInBlacklist (.field .clientIp) none)) = _
  have word : Name.ipInBlacklist.word = "ip_in_blacklist" := rfl
  rw [Bool.true_and, Shape.meets, word, known]
  rfl

theorem BlocksListed.converted {v : Yaml} (blocks : BlocksListed v) (front back : List Yaml) :
    okItems platform (front ++ v :: back) = okItems platform front ++ v :: okItems platform back := by
  obtain ⟨id, found⟩ := Option.isSome_iff_exists.mp blocks.id
  have converts : (ruleToGrl platform v).toOption.isSome = true := by
    rw [ruleToGrl_eq, ruleShape, found, blocks.condition]
    rfl
  rw [okItems, List.filter_append, List.filter_cons_of_pos (by exact converts)]
  rfl

theorem orderedItems_foremost {v : Yaml} (blocks : BlocksListed v) {front back : List Yaml}
    (foremost : ∀ w ∈ okItems platform (front ++ back), ruleSalience w < ruleSalience v) :
    orderedItems platform (front ++ v :: back) = v :: orderedItems platform (front ++ back) := by
  rw [okItems, List.filter_append] at foremost
  have strict : ∀ w ∈ okItems platform front, ¬ itemOrder w v := fun w member later =>
    Int32.not_le.mpr (foremost w (List.mem_append_left _ member)) later
  have before : ∀ w ∈ okItems platform back, itemOrder v w := fun w member =>
    Int32.le_of_lt (foremost w (List.mem_append_right _ member))
  rw [orderedItems, blocks.converted, StableSort.insertionSort_foremost strict before, orderedItems, okItems, okItems,
    okItems, List.filter_append]

/-- Where the directory has a rule before all others that blocks the blacklist, a client on a line of the file is blocked
by it, and any other client is treated as if the rule were not there. -/
theorem blacklist_file_blocks {crate : IpNetCrate} (hosts : crate.HostRoutes) (content : String) {config : PluginConfig}
    (lists : config.ipLists = (startLists crate (some content)).lookups crate) {dir : RulesDir}
    {front back : List Yaml} {v : Yaml}
    (holds : DirItems platform readYaml dir (front ++ v :: back)) (blocks : BlocksListed v)
    (foremost : ∀ w ∈ okItems platform (front ++ back), ruleSalience w < ruleSalience v) (ctx : RequestContext) :
    let engine := initEngine platform readYaml config dir
    (Blacklisted crate content ctx → (runInbound platform engine ctx).2 = .block (itemId v)) ∧
      (¬ Blacklisted crate content ctx → (runInbound platform engine ctx).2 =
        (verdict (itemMeets platform ctx engine.registry) maxCycles .start (orderedItems platform (front ++ back))).2) := by
  intro engine
  have listed : itemMeets platform ctx engine.registry v = config.ipLists.isBlacklisted ctx.clientIp :=
    blocks.meets config dir ctx
  rw [lists] at listed
  rw [(holds.started config ctx).decision, orderedItems_foremost blocks foremost]
  constructor
  · intro black
    rw [(startLists_blacklisted hosts content ctx).mpr black] at listed
    have cycles : maxCycles = (maxCycles - 1) + 1 := rfl
    rw [cycles, verdict, listed, if_pos (by simp [Tally.start]), blocks.action]
    rfl
  · intro clear
    have passes : itemMeets platform ctx engine.registry v = false := by
      rw [listed, Bool.eq_false_iff]
      exact fun black => clear ((startLists_blacklisted hosts content ctx).mp black)
    rw [verdict_skip (by rw [passes]; simp)]

def blacklistItem : Yaml :=
  .record [("id", .string "listed"), ("priority", .number (.posInt 1)), ("action", .string "block"),
    ("condition", .record [("type", .string "ip_in_blacklist")])]

def blacklistDocument (text : Text) : Option Yaml :=
  if text = "first".toList then some (.sequence [adminItem "stop" "block", blacklistItem]) else none

def blacklistFiles : List DirFile := [⟨true, some "yml", some "first".toList⟩]

def loopbackFile : String := "# loopback\n 127.0.0.0/8 \n10/8\n"

theorem loopback_blacklisted : Blacklisted documentedCrate loopbackFile (.bare "GET" "/admin") := by
  refine ⟨.v4 (127 <<< 24 ||| 1), by decide, "127.0.0.0/8", by decide, .inl ⟨⟨.v4 (127 <<< 24), 8⟩, by decide, by decide⟩⟩

theorem blacklist_file_blocks_loopback :
    (runInbound .plain (initEngine .plain blacklistDocument
        ⟨(startLists documentedCrate (some loopbackFile)).lookups documentedCrate, none, ⟨none, [], []⟩⟩
        ⟨true, some (blacklistFiles.map some)⟩) (.bare "GET" "/admin")).2 = .block "listed" := by
  have holds : DirItems .plain blacklistDocument ⟨true, some (blacklistFiles.map some)⟩
      ([adminItem "stop" "block"] ++ blacklistItem :: []) := by
    refine ⟨rfl, blacklistFiles, rfl, ⟨?_, ?_⟩, rfl⟩
    · decide
    · decide +kernel
  have blocks : BlocksListed blacklistItem := ⟨rfl, rfl, rfl, rfl⟩
  exact (blacklist_file_blocks documentedCrate_hosts loopbackFile rfl holds blocks (by decide) (.bare "GET" "/admin")).1
    loopback_blacklisted

end MiniWaf.Documents
