import MiniWaf.Documents.Verdict
import MiniWaf.State.Serving

/-! Requests served over directories of YAML rules: whatever order the parts of the program
take their turns in, a request is answered by the list of the items of one directory.
-/

set_option autoImplicit false

namespace MiniWaf.Serving

open Documents Grl Rete Rules Proxy

variable {setup : Setup}

variable (setup) in
def Exchange.byItems (registry : FunctionRegistry) (items : List Yaml) (rules : List Rule) (x : Exchange) : Reply :=
  match x.raw.body with
  | none => .error 400 "failed to read request body"
  | some bodyBytes =>
    let ctx := requestContext x.id x.arrivedAtMs x.raw bodyBytes
    respond setup.hyper rules setup.backends setup.upstream x.raw bodyBytes ctx
      (verdict (itemMeets setup.platform ctx registry) maxCycles .start (orderedItems setup.platform items)).2

theorem respond_congr {ctx other : RequestContext} (path : ctx.path = other.path) (rules : List Rule) (raw : InboundRequest)
    (bodyBytes : List UInt8) (decision : Decision) :
    respond setup.hyper rules setup.backends setup.upstream raw bodyBytes ctx decision =
      respond setup.hyper rules setup.backends setup.upstream raw bodyBytes other decision := by
  cases decision <;> simp only [respond, path]

theorem absorb_path (ctx : RequestContext) (outcome : Outcome) : (absorb ctx outcome).path = ctx.path := by
  unfold absorb
  dsimp only
  cases outcome.matchedRules.head? <;> split <;> rfl

theorem handled_byItems {engine : Engine} {items : List Yaml} (follows : ∀ ctx, FollowsItems setup.platform engine items ctx)
    (rules : List Rule) (x : Exchange) : x.handled setup engine rules = x.byItems setup engine.registry items rules := by
  rw [Exchange.byItems]
  cases body : x.raw.body with
  | none => exact handled_of_none body engine rules
  | some bodyBytes =>
    dsimp only
    rw [handled_of_some body, (follows _).decision]
    exact respond_congr (absorb_path _ _) rules x.raw bodyBytes _

-- The engines of a run

/-- The registries of the engine the program starts with and of the ones the watcher publishes. -/
def Published (setup : Setup) (dirs : History RulesDir) (registry : FunctionRegistry) : Prop :=
  registry = (initStore setup (dirs.version 0)).engine.registry ∨ registry = registerContextDefaults setup.platform .new

/-- Where every directory holds YAML rules only, every engine goes by the items of one of them. -/
theorem Store.Loaded.byItems {dirs : History RulesDir} {store : Store} (loaded : store.Loaded setup dirs)
    (yaml : ∀ j ≤ dirs.last, ∃ items, DirItems setup.platform setup.readYaml (dirs.version j) items) :
    Published setup dirs store.engine.registry ∧ ∃ j ≤ dirs.last, ∃ items,
      DirItems setup.platform setup.readYaml (dirs.version j) items ∧
        ∀ ctx, FollowsItems setup.platform store.engine items ctx := by
  rcases loaded.engine with started | ⟨j, bound, asts, load, made⟩
  · obtain ⟨items, holds⟩ := yaml 0 (Nat.zero_le _)
    rw [started]
    exact ⟨.inl rfl, 0, Nat.zero_le _, items, holds, fun ctx => holds.started setup.plugins ctx⟩
  · obtain ⟨items, holds⟩ := yaml j bound
    have same := Option.some.inj (load.symm.trans holds.load)
    rw [made]
    exact ⟨.inr rfl, j, bound, items, holds, fun ctx => followsItems_compiled same holds.clean ctx⟩

theorem dirs_yaml {P : RulesDir → Prop} {dir : RulesDir} (first : P dir) {events : List Event}
    (edits : ∀ next, .edit next ∈ events → P next) :
    ∀ j ≤ (run setup (.start setup dir) events).dirs.last, P ((run setup (.start setup dir) events).dirs.version j) := by
  refine List.foldlRecOn (motive := fun s : Server => ∀ j ≤ s.dirs.last, P (s.dirs.version j)) events _
    (fun _ _ => first) fun s held event member => ?_
  cases event with
  | edit next => exact (History.forall_push (P := fun _ dir => P dir)).mpr ⟨held, edits next member⟩
  | watch => exact held
  | arrive id arrivedAtMs raw => exact held
  | serve slot => exact held

/-- A request that has had its turns is answered for good, by the list of the items that the directory held at one
time, with a rule list that was loaded from it at one time. -/
theorem served_by_items {dir : RulesDir} (first : ∃ items, DirItems setup.platform setup.readYaml dir items)
    (before after : List Event)
    (edits : ∀ next, .edit next ∈ before ++ after → ∃ items, DirItems setup.platform setup.readYaml next items) {slot : Nat}
    {x : Exchange} (found : (run setup (.start setup dir) before).exchanges slot = some x)
    (turns : 3 ≤ after.countP (Event.serves slot)) :
    let s := run setup (.start setup dir) (before ++ after)
    ∃ registry, Published setup s.dirs registry ∧ ∃ j ≤ s.dirs.last, ∃ items,
      DirItems setup.platform setup.readYaml (s.dirs.version j) items ∧ ∃ m ≤ s.stores.last,
        (s.stores.version m).Loaded setup s.dirs ∧ ∀ later, (run setup s later).exchanges slot =
          some { x with phase := .answered (x.byItems setup registry items (s.stores.version m).rules) } := by
  intro s
  have consistent : s.Consistent setup := consistent_run dir (before ++ after)
  obtain ⟨k, m, -, between, high, answered⟩ := answered_run dir before after found turns (rfl : s = _)
  obtain ⟨published, j, bound, items, holds, follows⟩ :=
    (consistent.loaded k (Nat.le_trans between high)).byItems (dirs_yaml first edits)
  refine ⟨_, published, j, bound, items, holds, m, high, consistent.loaded m high, fun later => ?_⟩
  rw [← handled_byItems follows]
  exact answered later

def yamlShop : Setup := { shop with readYaml := adminDocument }

def adminYaml : RulesDir := ⟨true, some (adminFiles.map some)⟩

theorem adminYaml_items :
    DirItems .plain adminDocument adminYaml (adminFiles.flatMap (fileItems adminDocument)) := by
  refine ⟨rfl, adminFiles, rfl, ⟨?_, ?_⟩, rfl⟩
  · decide
  · decide +kernel

theorem emptyDir_items : DirItems .plain adminDocument ⟨true, some []⟩ [] :=
  ⟨rfl, [], rfl, ⟨List.forall_mem_nil _, List.forall_mem_nil _⟩, rfl⟩

/-- The directory is emptied, and both halves reloaded, while the request is under way. -/
theorem served_by_items_shop :
    let x : Exchange := ⟨"id", 0, requestWith [], 0, .received⟩
    let s := run yamlShop (.start yamlShop adminYaml) ([.arrive "id" 0 (requestWith [])] ++
      [.serve 0, .edit ⟨true, some []⟩, .watch, .serve 0, .watch, .serve 0])
    ∃ registry, Published yamlShop s.dirs registry ∧ ∃ j ≤ s.dirs.last, ∃ items,
      DirItems .plain adminDocument (s.dirs.version j) items ∧ ∃ m ≤ s.stores.last,
        (s.stores.version m).Loaded yamlShop s.dirs ∧ ∀ later, (run yamlShop s later).exchanges 0 =
          some { x with phase := .answered (x.byItems yamlShop registry items (s.stores.version m).rules) } := by
  intro x s
  have edits : ∀ next, Event.edit next ∈ [Event.arrive "id" 0 (requestWith [])] ++
      [.serve 0, .edit ⟨true, some []⟩, .watch, .serve 0, .watch, .serve 0] →
      ∃ items, DirItems yamlShop.platform yamlShop.readYaml next items := by
    intro next member
    simp only [List.cons_append, List.nil_append, List.mem_cons, List.not_mem_nil, reduceCtorEq, Event.edit.injEq, or_false,
      false_or] at member
    rw [member]
    exact ⟨[], emptyDir_items⟩
  exact @served_by_items yamlShop adminYaml ⟨_, adminYaml_items⟩ [.arrive "id" 0 (requestWith [])]
    [.serve 0, .edit ⟨true, some []⟩, .watch, .serve 0, .watch, .serve 0] edits 0 x rfl (by decide)

end MiniWaf.Serving
