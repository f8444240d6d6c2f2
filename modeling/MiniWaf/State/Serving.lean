import MiniWaf.Proxy.Forwarding
import MiniWaf.Proxy.Selection
import MiniWaf.State.Store
import MiniWaf.Theory.Histories

/-! Requests served while the watcher reloads. A request takes the engine when it is
inspected and the rule list when it is routed; the watcher replaces the rule list and the
engine one after the other; the rules directory changes at any time.
-/

set_option autoImplicit false

namespace MiniWaf.Serving

open Grl Rete Rules Proxy

-- The parts of `handle_request`

/-- What is sent back or on for a decision, with the rule list as it is by then. -/
def respond (hyper : Hyper) (rules : List Rule) (backends : AssocMap String String) (upstream : String)
    (raw : InboundRequest) (bodyBytes : List UInt8) (ctx : RequestContext) : Decision → Reply
  | .allow =>
    match forward hyper raw bodyBytes (resolveUpstream (rules.map routing) backends upstream ctx.path) raw.path raw.query with
    | some request => .forwarded request
    | none => .error 502 "upstream unavailable"
  | .block reason => .error 403 ("blocked: " ++ reason)
  | .challenge _ => .error 403 "challenge required"
  | .rateLimit retryAfterSecs => .rateLimited retryAfterSecs

/-- `RuleStore`: the rule list and the engine, each behind a lock of its own. -/
structure Store where
  rules : List Rule
  engine : Engine

structure Setup where
  platform : Platform
  hyper : Hyper
  readYaml : Text → Option Yaml
  readRules : Text → Option (List Rule)
  plugins : PluginConfig
  backends : AssocMap String String
  upstream : String

/-- How far a request has come. -/
inductive Phase where
  | received
  | inspecting (bodyBytes : List UInt8) (engine : Engine)
  | decided (bodyBytes : List UInt8) (ctx : RequestContext) (decision : Decision)
  | answered (reply : Reply)

structure Exchange where
  id : String
  arrivedAtMs : Int64
  raw : InboundRequest
  /-- The version of the store when the request came in. -/
  since : Nat
  phase : Phase

variable (setup : Setup)

def Exchange.handled (x : Exchange) (engine : Engine) (rules : List Rule) : Reply :=
  handleRequest setup.platform setup.hyper ⟨engine, rules.map routing, setup.backends, setup.upstream⟩ x.id x.arrivedAtMs
    x.raw

def Exchange.advance (store : Store) (x : Exchange) : Exchange :=
  { x with phase := match x.phase with
    | .received =>
      match x.raw.body with
      | none => .answered (.error 400 "failed to read request body")
      | some bodyBytes => .inspecting bodyBytes store.engine
    | .inspecting bodyBytes engine =>
      let (ctx, decision) := runInbound setup.platform engine (requestContext x.id x.arrivedAtMs x.raw bodyBytes)
      .decided bodyBytes ctx decision
    | .decided bodyBytes ctx decision =>
      .answered (respond setup.hyper store.rules setup.backends setup.upstream x.raw bodyBytes ctx decision)
    | .answered reply => .answered reply }

-- The watcher

def reloadRules (dir : RulesDir) (store : Store) : Store :=
  match loadFromDir setup.readRules dir with
  | some rules => { store with rules := rules }
  | none => store

def reloadEngine (dir : RulesDir) (store : Store) : Store :=
  match loadGrlFromDir setup.platform setup.readYaml dir with
  | some asts => { store with engine := .new setup.platform (.compile setup.platform asts) }
  | none => store

def initStore (dir : RulesDir) : Store :=
  ⟨(loadFromDir setup.readRules dir).getD [], initEngine setup.platform setup.readYaml setup.plugins dir⟩

structure Server where
  dirs : History RulesDir
  stores : History Store
  /-- The watcher has replaced the rule list and not yet the engine. -/
  halfway : Bool
  arrivals : Nat
  exchanges : Nat → Option Exchange

inductive Event where
  /-- Someone changes the rules directory. -/
  | edit (dir : RulesDir)
  /-- The watcher goes on with a reload, or begins one. -/
  | watch
  | arrive (id : String) (arrivedAtMs : Int64) (raw : InboundRequest)
  /-- The task of a request goes on. -/
  | serve (slot : Nat)

def step (s : Server) : Event → Server
  | .edit dir => { s with dirs := s.dirs.push dir }
  | .watch =>
    { s with
      stores := s.stores.push ((if s.halfway then reloadEngine else reloadRules) setup s.dirs.current s.stores.current)
      halfway := !s.halfway }
  | .arrive id arrivedAtMs raw =>
    { s with
      arrivals := s.arrivals + 1
      exchanges := Function.update s.exchanges s.arrivals (some ⟨id, arrivedAtMs, raw, s.stores.last, .received⟩) }
  | .serve slot =>
    { s with exchanges := Function.update s.exchanges slot ((s.exchanges slot).map (Exchange.advance setup s.stores.current)) }

def Server.start (dir : RulesDir) : Server := ⟨.start dir, .start (initStore setup dir), false, 0, fun _ => none⟩

def run (s : Server) (events : List Event) : Server := events.foldl (step setup) s

-- What is served

/-- A request saw one engine and after it one rule list, both of versions that the store had since it came in. -/
def Exchange.Explained (stores : History Store) (x : Exchange) : Prop :=
  x.since ≤ stores.last ∧ match x.phase with
    | .received => True
    | .inspecting bodyBytes engine => x.raw.body = some bodyBytes ∧
        ∃ k, x.since ≤ k ∧ k ≤ stores.last ∧ engine = (stores.version k).engine
    | .decided bodyBytes ctx decision => x.raw.body = some bodyBytes ∧
        ∃ k, x.since ≤ k ∧ k ≤ stores.last ∧ (ctx, decision) =
          runInbound setup.platform (stores.version k).engine (requestContext x.id x.arrivedAtMs x.raw bodyBytes)
    | .answered reply => ∃ k m, x.since ≤ k ∧ k ≤ m ∧ m ≤ stores.last ∧
        reply = x.handled setup (stores.version k).engine (stores.version m).rules

variable {setup}

theorem handled_of_none {x : Exchange} (unread : x.raw.body = none) (engine : Engine) (rules : List Rule) :
    x.handled setup engine rules = .error 400 "failed to read request body" := by
  rw [Exchange.handled, handleRequest, unread]

theorem handled_of_some {x : Exchange} {bodyBytes : List UInt8} (received : x.raw.body = some bodyBytes) (engine : Engine)
    (rules : List Rule) : x.handled setup engine rules =
      respond setup.hyper rules setup.backends setup.upstream x.raw bodyBytes
        (runInbound setup.platform engine (requestContext x.id x.arrivedAtMs x.raw bodyBytes)).1
        (runInbound setup.platform engine (requestContext x.id x.arrivedAtMs x.raw bodyBytes)).2 := by
  rw [Exchange.handled, handleRequest, received]
  dsimp only
  generalize runInbound setup.platform engine (requestContext x.id x.arrivedAtMs x.raw bodyBytes) = ran
  obtain ⟨ctx, decision⟩ := ran
  cases decision <;> rfl

theorem Exchange.Explained.later {x : Exchange} {stores later : History Store} (explained : x.Explained setup stores)
    (goesOn : stores.Extends later) : x.Explained setup later := by
  obtain ⟨came, sofar⟩ := explained
  refine ⟨Nat.le_trans came goesOn.last, ?_⟩
  cases at_ : x.phase with
  | received => trivial
  | inspecting bodyBytes engine =>
    rw [at_] at sofar
    obtain ⟨received, k, low, high, same⟩ := sofar
    refine ⟨received, k, low, Nat.le_trans high goesOn.last, ?_⟩
    rw [goesOn.version k high, same]
  | decided bodyBytes ctx decision =>
    rw [at_] at sofar
    obtain ⟨received, k, low, high, same⟩ := sofar
    refine ⟨received, k, low, Nat.le_trans high goesOn.last, ?_⟩
    rw [goesOn.version k high, same]
  | answered reply =>
    rw [at_] at sofar
    obtain ⟨k, m, low, between, high, same⟩ := sofar
    refine ⟨k, m, low, between, Nat.le_trans high goesOn.last, ?_⟩
    rw [goesOn.version k (Nat.le_trans between high), goesOn.version m high, same]

theorem Exchange.Explained.advance {x : Exchange} {stores : History Store} (explained : x.Explained setup stores) :
    (x.advance setup stores.current).Explained setup stores := by
  obtain ⟨came, sofar⟩ := explained
  refine ⟨came, ?_⟩
  cases at_ : x.phase with
  | received =>
    simp only [Exchange.advance, at_]
    cases read : x.raw.body with
    | none => exact ⟨stores.last, stores.last, came, Nat.le_refl _, Nat.le_refl _, (handled_of_none read _ _).symm⟩
    | some bodyBytes => exact ⟨rfl, stores.last, came, Nat.le_refl _, rfl⟩
  | inspecting bodyBytes engine =>
    rw [at_] at sofar
    obtain ⟨received, k, low, high, rfl⟩ := sofar
    simp only [Exchange.advance, at_]
    exact ⟨received, k, low, high, rfl⟩
  | decided bodyBytes ctx decision =>
    rw [at_] at sofar
    obtain ⟨received, k, low, high, same⟩ := sofar
    simp only [Exchange.advance, at_]
    refine ⟨k, stores.last, low, high, Nat.le_refl _, ?_⟩
    have alone := @handled_of_some setup x bodyBytes received (stores.version k).engine stores.current.rules
    rw [← same] at alone
    exact alone.symm
  | answered reply =>
    rw [at_] at sofar
    simp only [Exchange.advance, at_]
    exact sofar

-- What is published

/-- Both halves of a store were loaded from the directory as it once was, or are those the program started with. -/
structure Store.Loaded (setup : Setup) (dirs : History RulesDir) (store : Store) : Prop where
  rules : store.rules = (initStore setup (dirs.version 0)).rules ∨
    ∃ j ≤ dirs.last, loadFromDir setup.readRules (dirs.version j) = some store.rules
  engine : store.engine = (initStore setup (dirs.version 0)).engine ∨
    ∃ j ≤ dirs.last, ∃ asts, loadGrlFromDir setup.platform setup.readYaml (dirs.version j) = some asts ∧
      store.engine = .new setup.platform (.compile setup.platform asts)

theorem Store.Loaded.later {dirs later : History RulesDir} {store : Store} (loaded : store.Loaded setup dirs)
    (goesOn : dirs.Extends later) : store.Loaded setup later := by
  have first : later.version 0 = dirs.version 0 := goesOn.version 0 (Nat.zero_le _)
  constructor
  · rw [first]
    refine loaded.rules.imp_right fun ⟨j, bound, same⟩ => ⟨j, Nat.le_trans bound goesOn.last, ?_⟩
    rw [goesOn.version j bound, same]
  · rw [first]
    refine loaded.engine.imp_right fun ⟨j, bound, asts, same, made⟩ => ⟨j, Nat.le_trans bound goesOn.last, asts, ?_, made⟩
    rw [goesOn.version j bound, same]

theorem loaded_reloadRules {dirs : History RulesDir} {store : Store} (loaded : store.Loaded setup dirs) :
    (reloadRules setup dirs.current store).Loaded setup dirs := by
  rw [reloadRules]
  cases load : loadFromDir setup.readRules dirs.current with
  | none => exact loaded
  | some rules => exact ⟨.inr ⟨dirs.last, Nat.le_refl _, load⟩, loaded.engine⟩

theorem loaded_reloadEngine {dirs : History RulesDir} {store : Store} (loaded : store.Loaded setup dirs) :
    (reloadEngine setup dirs.current store).Loaded setup dirs := by
  rw [reloadEngine]
  cases load : loadGrlFromDir setup.platform setup.readYaml dirs.current with
  | none => exact loaded
  | some asts => exact ⟨loaded.rules, .inr ⟨dirs.last, Nat.le_refl _, asts, load, rfl⟩⟩

structure Server.Consistent (setup : Setup) (s : Server) : Prop where
  fresh : ∀ slot, s.arrivals ≤ slot → s.exchanges slot = none
  explained : ∀ slot x, s.exchanges slot = some x → x.Explained setup s.stores
  loaded : ∀ k ≤ s.stores.last, (s.stores.version k).Loaded setup s.dirs

theorem consistent_start (dir : RulesDir) : (Server.start setup dir).Consistent setup where
  fresh := fun _ _ => rfl
  explained := by
    intro slot x found
    cases found
  loaded := fun _ _ => ⟨.inl rfl, .inl rfl⟩

/-- The step lemma: an edit changes no store, a reload changes no request, and a request changes itself only. -/
theorem Server.Consistent.step {s : Server} (consistent : s.Consistent setup) (event : Event) :
    (Serving.step setup s event).Consistent setup := by
  cases event with
  | edit dir =>
    exact ⟨consistent.fresh, consistent.explained, fun k bound => (consistent.loaded k bound).later (History.extends_push _ _)⟩
  | watch =>
    refine ⟨consistent.fresh, fun slot x found => (consistent.explained slot x found).later (History.extends_push _ _), ?_⟩
    have current := consistent.loaded _ (Nat.le_refl _)
    refine History.forall_push.mpr ⟨consistent.loaded, ?_⟩
    cases s.halfway with
    | true => exact loaded_reloadEngine current
    | false => exact loaded_reloadRules current
  | arrive id arrivedAtMs raw =>
    refine ⟨fun slot late => ?_, fun slot x found => ?_, consistent.loaded⟩
    · simp only [Serving.step] at late ⊢
      rw [Function.update_of_ne (by omega)]
      exact consistent.fresh slot (by omega)
    by_cases here : slot = s.arrivals
    · simp only [Serving.step, here, Function.update_self, Option.some.injEq] at found
      subst found
      exact ⟨Nat.le_refl _, trivial⟩
    · simp only [Serving.step, Function.update_of_ne here] at found
      exact consistent.explained slot x found
  | serve slot =>
    refine ⟨fun other late => ?_, fun other x found => ?_, consistent.loaded⟩
    · have absent := consistent.fresh other late
      by_cases here : other = slot
      · simp only [Serving.step, here, Function.update_self, Option.map_eq_none_iff]
        exact here ▸ absent
      · simp only [Serving.step, Function.update_of_ne here, absent]
    by_cases here : other = slot
    · simp only [Serving.step, here, Function.update_self, Option.map_eq_some_iff] at found
      obtain ⟨before, served, rfl⟩ := found
      exact (consistent.explained slot before served).advance
    · simp only [Serving.step, Function.update_of_ne here] at found
      exact consistent.explained other x found

theorem consistent_run (dir : RulesDir) (events : List Event) : (run setup (.start setup dir) events).Consistent setup :=
  List.foldlRecOn events _ (consistent_start dir) fun _ consistent event _ => consistent.step event

-- A request is answered once, after three turns at most

def Event.serves (slot : Nat) : Event → Bool
  | .serve other => other == slot
  | _ => false

def Phase.left : Phase → Nat
  | .received => 3
  | .inspecting _ _ => 2
  | .decided _ _ _ => 1
  | .answered _ => 0

theorem answered_of_left {phase : Phase} (done : phase.left = 0) : ∃ reply, phase = .answered reply := by
  cases phase with
  | answered reply => exact ⟨reply, rfl⟩
  | received => cases done
  | inspecting bodyBytes engine => cases done
  | decided bodyBytes ctx decision => cases done

theorem left_advance (store : Store) (x : Exchange) : (x.advance setup store).phase.left ≤ x.phase.left - 1 := by
  cases at_ : x.phase with
  | received =>
    simp only [Exchange.advance, at_]
    cases x.raw.body <;> simp [Phase.left]
  | inspecting bodyBytes engine => simp [Exchange.advance, at_, Phase.left]
  | decided bodyBytes ctx decision => simp [Exchange.advance, at_, Phase.left]
  | answered reply => simp [Exchange.advance, at_, Phase.left]

theorem advance_answered (store : Store) {x : Exchange} {reply : Reply} (done : x.phase = .answered reply) :
    (x.advance setup store).phase = .answered reply := by
  simp only [Exchange.advance, done]

/-- A request comes as far as it has had turns, and an answer is final. -/
theorem progress_run {s : Server} (consistent : s.Consistent setup) {slot : Nat} {x : Exchange}
    (found : s.exchanges slot = some x) (events : List Event) : ∃ phase : Phase,
      (run setup s events).exchanges slot = some { x with phase := phase } ∧
      phase.left ≤ x.phase.left - events.countP (Event.serves slot) ∧
      ∀ reply, x.phase = .answered reply → phase = .answered reply := by
  induction events generalizing s x with
  | nil => exact ⟨x.phase, found, Nat.le_refl _, fun _ done => done⟩
  | cons event rest ih =>
    -- only a turn of the request itself changes it
    have elsewhere (same : (step setup s event).exchanges slot = some x) (other : event.serves slot = false) :
        ∃ phase : Phase, (run setup s (event :: rest)).exchanges slot = some { x with phase := phase } ∧
          phase.left ≤ x.phase.left - (event :: rest).countP (Event.serves slot) ∧
          ∀ reply, x.phase = .answered reply → phase = .answered reply := by
      rw [List.countP_cons_of_neg (by simp [other])]
      exact ih (consistent.step event) same
    cases event with
    | edit dir => exact elsewhere found rfl
    | watch => exact elsewhere found rfl
    | arrive id arrivedAtMs raw =>
      have old : slot ≠ s.arrivals := by
        rintro rfl
        rw [consistent.fresh _ (Nat.le_refl _)] at found
        cases found
      refine elsewhere ?_ rfl
      simp only [step, Function.update_of_ne old, found]
    | serve other =>
      by_cases here : other = slot
      · subst here
        have turn : (step setup s (.serve other)).exchanges other = some (x.advance setup s.stores.current) := by
          simp only [step, Function.update_self, found, Option.map_some]
        obtain ⟨phase, last, near, final⟩ := ih (consistent.step (.serve other)) turn
        refine ⟨phase, last, ?_, fun reply done => final reply (advance_answered _ done)⟩
        have closer := @left_advance setup s.stores.current x
        rw [List.countP_cons_of_pos (by simp [Event.serves])]
        omega
      · refine elsewhere ?_ (by simp [Event.serves, here])
        simp only [step, Function.update_of_ne (Ne.symm here), found]

theorem run_append (s : Server) (before after : List Event) :
    run setup s (before ++ after) = run setup (run setup s before) after :=
  List.foldl_append

theorem answered_run (dir : RulesDir) (before after : List Event) {slot : Nat} {x : Exchange}
    (found : (run setup (.start setup dir) before).exchanges slot = some x)
    (turns : 3 ≤ after.countP (Event.serves slot)) {s : Server} (reached : s = run setup (.start setup dir) (before ++ after)) :
    ∃ k m, x.since ≤ k ∧ k ≤ m ∧ m ≤ s.stores.last ∧
      ∀ later, (run setup s later).exchanges slot =
        some { x with phase := .answered (x.handled setup (s.stores.version k).engine (s.stores.version m).rules) } := by
  have consistent : s.Consistent setup := reached ▸ consistent_run dir (before ++ after)
  obtain ⟨phase, last, near, -⟩ := progress_run (consistent_run dir before) found after
  rw [← run_append, ← reached] at last
  have most : x.phase.left ≤ 3 := by cases x.phase <;> simp [Phase.left]
  obtain ⟨reply, rfl⟩ : ∃ reply, phase = .answered reply := by
    apply answered_of_left
    omega
  obtain ⟨-, k, m, low, between, high, same⟩ := consistent.explained slot _ last
  refine ⟨k, m, low, between, high, fun later => ?_⟩
  obtain ⟨phase, stays, -, final⟩ := progress_run consistent last later
  have answered := final reply rfl
  rw [stays, answered, same]
  rfl

/-- Whatever else happens, a request is answered after three turns of its own, for good, and as one engine and a rule
list not older than that answer it; both were published after the request came in. -/
theorem served_consistently (dir : RulesDir) (before after : List Event) {slot : Nat} {x : Exchange}
    (found : (run setup (.start setup dir) before).exchanges slot = some x)
    (turns : 3 ≤ after.countP (Event.serves slot)) :
    let s := run setup (.start setup dir) (before ++ after)
    ∃ k m, x.since ≤ k ∧ k ≤ m ∧ m ≤ s.stores.last ∧
      (s.stores.version k).Loaded setup s.dirs ∧ (s.stores.version m).Loaded setup s.dirs ∧
      ∀ later, (run setup s later).exchanges slot =
        some { x with phase := .answered (x.handled setup (s.stores.version k).engine (s.stores.version m).rules) } := by
  intro s
  have consistent : s.Consistent setup := consistent_run dir (before ++ after)
  obtain ⟨k, m, low, between, high, answered⟩ := answered_run dir before after found turns (rfl : s = _)
  exact ⟨k, m, low, between, high, consistent.loaded k (Nat.le_trans between high), consistent.loaded m high, answered⟩

-- The watcher catches up

def Event.watches : Event → Bool
  | .watch => true
  | _ => false

def Event.edits : Event → Bool
  | .edit _ => true
  | _ => false

/-- A half of the store, the engine or the rule list, is what the directory gives, if it loads. -/
def Settled (setup : Setup) (dir : RulesDir) (store : Store) : (engine : Bool) → Prop
  | false => ∀ rules, loadFromDir setup.readRules dir = some rules → store.rules = rules
  | true => ∀ asts, loadGrlFromDir setup.platform setup.readYaml dir = some asts →
      store.engine = .new setup.platform (.compile setup.platform asts)

theorem settled_reload (dir : RulesDir) (store : Store) (half : Bool) :
    Settled setup dir ((if half then reloadEngine else reloadRules) setup dir store) half := by
  cases half with
  | false =>
    intro rules load
    simp [reloadRules, load]
  | true =>
    intro asts load
    simp [reloadEngine, load]

theorem Settled.reload {dir : RulesDir} {store : Store} {half : Bool} (settled : Settled setup dir store half) (other : Bool) :
    Settled setup dir ((if other then reloadEngine else reloadRules) setup dir store) half := by
  by_cases same : other = half
  · rw [same]
    exact settled_reload dir store half
  · cases half with
    | false =>
      obtain rfl : other = true := by simpa using same
      rw [if_pos rfl, reloadEngine]
      cases loadGrlFromDir setup.platform setup.readYaml dir <;> exact settled
    | true =>
      obtain rfl : other = false := by simpa using same
      rw [if_neg Bool.false_ne_true, reloadRules]
      cases loadFromDir setup.readRules dir <;> exact settled

/-- With the directory left alone, a half that is settled stays so, and one that is not becomes so when its turn comes. -/
theorem settled_run (half : Bool) {s : Server} {events : List Event} (quiet : ∀ e ∈ events, e.edits = false)
    (enough : Settled setup s.dirs.current s.stores.current half ∨
      (if s.halfway = half then 1 else 2) ≤ events.countP Event.watches) :
    Settled setup s.dirs.current (run setup s events).stores.current half := by
  induction events generalizing s with
  | nil =>
    refine enough.resolve_right fun few => ?_
    split at few <;> exact absurd few (by decide)
  | cons event rest ih =>
    obtain ⟨here, later⟩ := List.forall_mem_cons.mp quiet
    cases event with
    | edit dir => cases here
    | watch =>
      rw [List.countP_cons_of_pos rfl] at enough
      refine ih (s := step setup s .watch) later ?_
      have store : (step setup s .watch).stores.current =
          (if s.halfway then reloadEngine else reloadRules) setup s.dirs.current s.stores.current := History.current_push _ _
      rw [store]
      rcases enough with settled | turns
      · exact .inl (settled.reload s.halfway)
      by_cases now : s.halfway = half
      · rw [now]
        exact .inl (settled_reload _ _ half)
      · have next : (step setup s .watch).halfway = half := Bool.not_eq.mpr now
        rw [if_neg now] at turns
        rw [if_pos next]
        exact .inr (by omega)
    | arrive id arrivedAtMs raw =>
      rw [List.countP_cons_of_neg Bool.false_ne_true] at enough
      exact ih (s := step setup s (.arrive id arrivedAtMs raw)) later enough
    | serve slot =>
      rw [List.countP_cons_of_neg Bool.false_ne_true] at enough
      exact ih (s := step setup s (.serve slot)) later enough

def adminDir : RulesDir := ⟨true, some [some ⟨true, some "grl",
  some "rule \"admin\" salience 10 \x7b when Request.Path == \"/admin\" then block(\"admin\"); \x7d".toList⟩]⟩

def shop : Setup :=
  ⟨.plain, plainHyper, fun _ => none, fun _ => none, ⟨⟨fun _ => false, fun _ => false⟩, none, ⟨none, [], []⟩⟩, .empty,
    "http://10.0.0.1:8080"⟩

/-- A reload of both halves comes while the request is under way. -/
theorem served_consistently_shop :
    let x : Exchange := ⟨"id", 0, requestWith [], 0, .received⟩
    let s := run shop (.start shop ⟨true, some []⟩) ([.arrive "id" 0 (requestWith [])] ++
      [.edit adminDir, .watch, .serve 0, .watch, .serve 0, .serve 0])
    ∃ k m, x.since ≤ k ∧ k ≤ m ∧ m ≤ s.stores.last ∧ (s.stores.version k).Loaded shop s.dirs ∧
      (s.stores.version m).Loaded shop s.dirs ∧ ∀ later, (run shop s later).exchanges 0 =
        some { x with phase := .answered (x.handled shop (s.stores.version k).engine (s.stores.version m).rules) } := by
  intro x s
  exact @served_consistently shop (⟨true, some []⟩ : RulesDir) [.arrive "id" 0 (requestWith [])]
    [.edit adminDir, .watch, .serve 0, .watch, .serve 0, .serve 0] 0 x rfl (by decide)

structure Server.Steady (setup : Setup) (dir : RulesDir) (store : Store) (version arrivals : Nat) (s : Server) : Prop where
  dir : s.dirs.current = dir
  began : version ≤ s.stores.last
  same : ∀ k ≤ s.stores.last, version ≤ k → s.stores.version k = store
  since : ∀ slot x, arrivals ≤ slot → s.exchanges slot = some x → version ≤ x.since

theorem Server.Steady.step {dir : RulesDir} {store : Store} {version arrivals : Nat} {s : Server}
    (steady : s.Steady setup dir store version arrivals)
    (rests : ∀ engine : Bool, (if engine then reloadEngine else reloadRules) setup dir store = store) {event : Event}
    (quiet : event.edits = false) : (Serving.step setup s event).Steady setup dir store version arrivals := by
  cases event with
  | edit dir => cases quiet
  | watch =>
    refine ⟨steady.dir, Nat.le_succ_of_le steady.began, ?_, steady.since⟩
    refine (History.forall_push (P := fun k a => version ≤ k → a = store)).mpr ⟨steady.same, fun _ => ?_⟩
    have current : s.stores.current = store := steady.same _ (Nat.le_refl _) steady.began
    rw [steady.dir, current]
    exact rests s.halfway
  | arrive id arrivedAtMs raw =>
    refine ⟨steady.dir, steady.began, steady.same, fun slot x late found => ?_⟩
    by_cases here : slot = s.arrivals
    · simp only [Serving.step, here, Function.update_self, Option.some.injEq] at found
      subst found
      exact steady.began
    · simp only [Serving.step, Function.update_of_ne here] at found
      exact steady.since slot x late found
  | serve slot =>
    refine ⟨steady.dir, steady.began, steady.same, fun other x late found => ?_⟩
    by_cases here : other = slot
    · simp only [Serving.step, here, Function.update_self, Option.map_eq_some_iff] at found
      obtain ⟨before, served, rfl⟩ := found
      exact steady.since slot before (here ▸ late) served
    · simp only [Serving.step, Function.update_of_ne here] at found
      exact steady.since other x late found

theorem Server.Steady.run {dir : RulesDir} {store : Store} {version arrivals : Nat} {s : Server}
    (steady : s.Steady setup dir store version arrivals)
    (rests : ∀ engine : Bool, (if engine then reloadEngine else reloadRules) setup dir store = store) {events : List Event}
    (quiet : ∀ e ∈ events, e.edits = false) : (Serving.run setup s events).Steady setup dir store version arrivals :=
  List.foldlRecOn events _ steady fun _ steady event member => steady.step rests (quiet event member)

theorem dirs_run {s : Server} {events : List Event} (quiet : ∀ e ∈ events, e.edits = false) :
    (run setup s events).dirs = s.dirs := by
  refine List.foldlRecOn (motive := fun (t : Server) => t.dirs = s.dirs) events _ rfl fun t same event member => ?_
  have here := quiet event member
  cases event with
  | edit dir => cases here
  | watch => exact same
  | arrive id arrivedAtMs raw => exact same
  | serve slot => exact same

/-- Once the watcher has had two turns since the last change of a directory that loads, every request that comes in
is answered as this directory has it. -/
theorem reload_takes_effect (dir : RulesDir) (before reloading after : List Event)
    (quiet : ∀ e ∈ reloading ++ after, e.edits = false) (turns : 2 ≤ reloading.countP Event.watches)
    {rules : List Rule} {asts : List RuleAst}
    (listed : loadFromDir setup.readRules (run setup (.start setup dir) before).dirs.current = some rules)
    (compiled : loadGrlFromDir setup.platform setup.readYaml (run setup (.start setup dir) before).dirs.current = some asts)
    {slot : Nat} {x : Exchange} {reply : Reply}
    (came : (run setup (.start setup dir) (before ++ reloading)).arrivals ≤ slot)
    (found : (run setup (.start setup dir) (before ++ reloading ++ after)).exchanges slot = some x)
    (answered : x.phase = .answered reply) :
    reply = x.handled setup (.new setup.platform (.compile setup.platform asts)) rules := by
  let store : Store := ⟨rules, .new setup.platform (.compile setup.platform asts)⟩
  let s := run setup (.start setup dir) (before ++ reloading)
  obtain ⟨quietFirst, quietThen⟩ := List.forall_mem_append.mp quiet
  have same : s.dirs = (run setup (.start setup dir) before).dirs := by
    have first := @dirs_run setup (run setup (.start setup dir) before) reloading quietFirst
    rwa [← run_append] at first
  have settled (half : Bool) : Settled setup s.dirs.current s.stores.current half := by
    have enough : (if (run setup (.start setup dir) before).halfway = half then 1 else 2) ≤ reloading.countP Event.watches := by
      split <;> omega
    have later := @settled_run setup half (run setup (.start setup dir) before) reloading quietFirst (.inr enough)
    rwa [← run_append, ← same] at later
  have current : s.stores.current = store := by
    have first : s.stores.current.rules = rules := settled false rules (same ▸ listed)
    have second : s.stores.current.engine = .new setup.platform (.compile setup.platform asts) :=
      settled true asts (same ▸ compiled)
    exact congrArg₂ Store.mk first second
  have rests (engine : Bool) :
      (if engine then reloadEngine else reloadRules) setup s.dirs.current store = store := by
    rw [same]
    cases engine with
    | false => simp [reloadRules, listed, store]
    | true => simp [reloadEngine, compiled, store]
  have start : s.Steady setup s.dirs.current store s.stores.last s.arrivals := by
    refine ⟨rfl, Nat.le_refl _, fun k below above => ?_, fun slot x late found => ?_⟩
    · rw [Nat.le_antisymm below above]
      exact current
    · rw [(consistent_run dir (before ++ reloading)).fresh slot late] at found
      cases found
  have steady := start.run rests quietThen
  rw [← run_append] at steady
  obtain ⟨-, explained⟩ := (consistent_run dir (before ++ reloading ++ after)).explained slot x found
  rw [answered] at explained
  obtain ⟨k, m, low, between, high, made⟩ := explained
  have recent : s.stores.last ≤ k := Nat.le_trans (steady.since slot x came found) low
  rw [steady.same k (Nat.le_trans between high) recent, steady.same m high (Nat.le_trans recent between)] at made
  exact made

/-- The request after the reload is blocked as the new rule file has it. -/
theorem reload_takes_effect_shop : ∃ rules asts,
    loadFromDir shop.readRules adminDir = some rules ∧ loadGrlFromDir .plain shop.readYaml adminDir = some asts ∧
      ∃ x reply, (run shop (.start shop ⟨false, none⟩) [.edit adminDir, .watch, .watch, .arrive "id" 0 (requestWith []),
          .serve 0, .serve 0, .serve 0]).exchanges 0 = some x ∧ x.phase = .answered reply ∧
        reply = x.handled shop (.new .plain (.compile .plain asts)) rules := by
  obtain ⟨rules, listed⟩ : ∃ rules, loadFromDir shop.readRules adminDir = some rules := ⟨_, rfl⟩
  obtain ⟨asts, compiled⟩ : ∃ asts, loadGrlFromDir .plain shop.readYaml adminDir = some asts := ⟨_, rfl⟩
  refine ⟨rules, asts, listed, compiled, ?_⟩
  refine ⟨_, _, rfl, rfl, ?_⟩
  exact @reload_takes_effect shop ⟨false, none⟩ [.edit adminDir] [.watch, .watch]
    [.arrive "id" 0 (requestWith []), .serve 0, .serve 0, .serve 0] (by decide) (by decide) rules asts listed compiled 0 _ _
    (Nat.zero_le _) rfl rfl

end MiniWaf.Serving
