import MiniWaf.Consul.Seeding
import MiniWaf.Plain.Loader
import MiniWaf.Std.Utf8
import MiniWaf.Theory.Histories

/-! Replicas of the program that share the rules in Consul. Each of them seeds its default
rules in several calls, and each follows the stored rules with a watch; the calls of
different replicas and of other writers interleave, and any call may fail.
-/

set_option autoImplicit false

namespace MiniWaf.Consul

open Upsert

abbrev Kv := AssocMap String (List UInt8)

def rulesKey : String := "waf/rules/rules.yaml"

def oldFiles : List String := ["all.yaml", "critical.yaml", "high.yaml", "medium.yaml", "catch-all.yaml"]

structure Setup where
  platform : Platform
  /-- `serde_yaml::from_str::<Vec<serde_json::Value>>`. -/
  readEntries : Text → Option (List Json)
  /-- `serde_yaml::to_string`. -/
  writeEntries : List Json → Option Text
  /-- What is written is some text and reads back. -/
  written : ∀ rules text, writeEntries rules = some text → text ≠ [] ∧ readEntries text = some rules
  /-- A `RuleFile`, or else a list of rules. -/
  readRules : Text → Option (List Plain.RuleRaw)
  order : SortUnstable Plain.Rule.priority
  /-- The `X-Consul-Index` of each version of the keys. -/
  index : Nat → Nat
  positive : 0 < index 0
  increasing : StrictMono index

/-- Consul gives no value for a key with no bytes. -/
def valueOf (bytes : List UInt8) : Option (List UInt8) := if bytes = [] then none else some bytes

variable (setup : Setup)

def stored (kv : Kv) : List Json :=
  (((((kv.get rulesKey).bind valueOf).bind Text.fromUtf8).bind setup.readEntries)).getD []

def rawRules (e : String × List UInt8) : Option (List Plain.RuleRaw) :=
  if ".yaml".toList.isSuffixOf e.1.toList then
    match valueOf e.2 with
    | some bytes => (Text.fromUtf8 bytes).map fun content => (setup.readRules content).getD []
    | none => some []
  else some []

/-- `RuleLoader::load_from_consul`; without keys Consul answers with an error status. -/
def loadFromConsul (kv : Kv) : Option Plain.RuleSet :=
  if kv.entries = [] then none
  else (kv.entries.mapM (rawRules setup)).bind fun raw => (Plain.compile setup.platform setup.order raw.flatten).toOption

inductive Seeding where
  | idle
  | fetched (existing : List Json)
  | cleaning (files : List String)

structure Replica where
  dir : DefaultsDir
  seeding : Seeding
  lastIndex : Nat
  /-- The new index, while the rules are to be loaded for it. -/
  polled : Option Nat
  ruleset : Plain.RuleSet

structure State where
  kv : History Kv
  replicas : Nat → Replica

/-- What becomes of a request that writes. -/
inductive Sent where
  | ok
  /-- It is carried out and the answer is lost. -/
  | lost
  | failed
  /-- It is not carried out and answered with an error status. -/
  | refused
  deriving DecidableEq, Repr

def Sent.carriedOut : Sent → Bool
  | .ok | .lost => true
  | .failed | .refused => false

def Sent.answered : Sent → Bool
  | .ok | .refused => true
  | .lost | .failed => false

inductive Event where
  /-- Someone else writes keys. -/
  | edit (kv : Kv)
  /-- The replica reads the stored rules. -/
  | fetch (i : Nat) (reached : Bool)
  /-- The replica writes back the merged rules. -/
  | put (i : Nat) (now : Int64) (sent : Sent)
  /-- The replica deletes the next old key, if it is there. -/
  | clean (i : Nat) (reached : Bool)
  /-- The watcher of the replica asks for the index, or loads the rules. -/
  | watch (i : Nat) (reached : Bool)

namespace Replica

def fetch (kv : Kv) (reached : Bool) (r : Replica) : Replica :=
  match r.seeding with
  | .idle => { r with seeding := .fetched (if reached then stored setup kv else []) }
  | _ => r

/-- The keys after the write, if there is one, and the replica. -/
def put (kv : Kv) (now : Int64) (sent : Sent) (r : Replica) : Option Kv × Replica :=
  match r.seeding with
  | .fetched existing =>
    let (rules, changed) := mergeRules now r.dir.defaults existing
    if changed then
      match setup.writeEntries rules with
      | some body =>
        -- the status of the answer is not looked at
        (if sent.carriedOut then some (kv.insert rulesKey (Text.utf8 body)) else none,
          { r with seeding := if sent.answered then .cleaning oldFiles else .idle })
      | none => (none, { r with seeding := .idle })
    else (none, { r with seeding := .cleaning oldFiles })
  | _ => (none, r)

def clean (kv : Kv) (reached : Bool) (r : Replica) : Option Kv × Replica :=
  match r.seeding with
  | .cleaning (file :: rest) =>
    let oldKey := "waf/rules/" ++ file
    (if reached && kv.containsKey oldKey then some (kv.erase oldKey) else none, { r with seeding := .cleaning rest })
  | .cleaning [] => (none, { r with seeding := .idle })
  | _ => (none, r)

def watch (kv : Kv) (newIndex : Nat) (reached : Bool) (r : Replica) : Replica :=
  match r.polled with
  | none => if reached then if newIndex = r.lastIndex then r else { r with polled := some newIndex } else r
  | some polledIndex =>
    { r with
      ruleset := (if reached then loadFromConsul setup kv else none).getD r.ruleset
      lastIndex := polledIndex
      polled := none }

end Replica

def State.update (s : State) (i : Nat) (next : Option Kv × Replica) : State :=
  ⟨next.1.elim s.kv s.kv.push, Function.update s.replicas i next.2⟩

def step (s : State) : Event → State
  | .edit kv => { s with kv := s.kv.push kv }
  | .fetch i reached => s.update i (none, (s.replicas i).fetch setup s.kv.current reached)
  | .put i now sent => s.update i ((s.replicas i).put setup s.kv.current now sent)
  | .clean i reached => s.update i ((s.replicas i).clean s.kv.current reached)
  | .watch i reached => s.update i (none, (s.replicas i).watch setup s.kv.current (setup.index s.kv.last) reached)

def run (s : State) (events : List Event) : State := events.foldl (step setup) s

variable {setup}

theorem run_append (s : State) (before after : List Event) :
    run setup s (before ++ after) = run setup (run setup s before) after :=
  List.foldl_append

theorem current_update (s : State) (i : Nat) (next : Option Kv × Replica) :
    (s.update i next).kv.current = next.1.getD s.kv.current := by
  rw [State.update]
  cases next.1 with
  | none => rfl
  | some kv => exact History.current_push _ _

-- What a request does

namespace Replica

variable (setup) (kv : Kv) (r : Replica)

theorem fetch_cases (reached : Bool) : r.fetch setup kv reached = r ∨ r.seeding = .idle ∧
    r.fetch setup kv reached = { r with seeding := .fetched (if reached then stored setup kv else []) } := by
  rw [fetch]
  cases phase : r.seeding with
  | idle => exact .inr ⟨rfl, rfl⟩
  | fetched existing => exact .inl rfl
  | cleaning files => exact .inl rfl

theorem put_cases (now : Int64) (sent : Sent) : r.put setup kv now sent = (none, r) ∨
    ∃ existing, r.seeding = .fetched existing ∧
      (((mergeRules now r.dir.defaults existing).2 = false ∨ sent = .refused) ∧
          r.put setup kv now sent = (none, { r with seeding := .cleaning oldFiles }) ∨
        r.put setup kv now sent = (none, { r with seeding := .idle }) ∨
        ∃ body, setup.writeEntries (mergeRules now r.dir.defaults existing).1 = some body ∧
          r.put setup kv now sent = (some (kv.insert rulesKey (Text.utf8 body)),
            { r with seeding := if sent.answered then .cleaning oldFiles else .idle })) := by
  rw [put]
  cases phase : r.seeding with
  | idle => exact .inl rfl
  | cleaning files => exact .inl rfl
  | fetched existing =>
    refine .inr ⟨existing, rfl, ?_⟩
    dsimp only
    cases changed : (mergeRules now r.dir.defaults existing).2 with
    | false => exact .inl ⟨.inl rfl, rfl⟩
    | true =>
      rw [if_pos rfl]
      cases body : setup.writeEntries (mergeRules now r.dir.defaults existing).1 with
      | none => exact .inr (.inl rfl)
      | some body' =>
        cases sent with
        | ok => exact .inr (.inr ⟨body', rfl, rfl⟩)
        | lost => exact .inr (.inr ⟨body', rfl, rfl⟩)
        | failed => exact .inr (.inl rfl)
        | refused => exact .inl ⟨.inr rfl, rfl⟩

theorem clean_cases (reached : Bool) : r.clean kv reached = (none, r) ∨
    r.clean kv reached = (none, { r with seeding := .idle }) ∨
    ∃ file rest, r.seeding = .cleaning (file :: rest) ∧
      (r.clean kv reached = (none, { r with seeding := .cleaning rest }) ∨
        r.clean kv reached = (some (kv.erase ("waf/rules/" ++ file)), { r with seeding := .cleaning rest })) := by
  rw [clean]
  cases phase : r.seeding with
  | idle => exact .inl rfl
  | fetched existing => exact .inl rfl
  | cleaning files =>
    cases files with
    | nil => exact .inr (.inl rfl)
    | cons file rest =>
      refine .inr (.inr ⟨file, rest, rfl, ?_⟩)
      dsimp only
      split
      · exact .inr rfl
      · exact .inl rfl

theorem watch_cases (newIndex : Nat) (reached : Bool) :
    r.polled = none ∧ (reached = true → newIndex = r.lastIndex) ∧ r.watch setup kv newIndex reached = r ∨
      r.polled = none ∧ reached = true ∧ r.watch setup kv newIndex reached = { r with polled := some newIndex } ∨
      ∃ polledIndex, r.polled = some polledIndex ∧ r.watch setup kv newIndex reached =
        { r with
          ruleset := (if reached then loadFromConsul setup kv else none).getD r.ruleset
          lastIndex := polledIndex
          polled := none } := by
  rw [watch]
  cases pending : r.polled with
  | none =>
    cases reached with
    | false => exact .inl ⟨rfl, fun reached => (Bool.false_ne_true reached).elim, rfl⟩
    | true =>
      by_cases same : newIndex = r.lastIndex
      · exact .inl ⟨rfl, fun _ => same, by rw [if_pos rfl, if_pos same]⟩
      · exact .inr (.inl ⟨rfl, rfl, by rw [if_pos rfl, if_neg same]⟩)
  | some polledIndex => exact .inr (.inr ⟨polledIndex, rfl, rfl⟩)

def following (r : Replica) : Plain.RuleSet × Nat × Option Nat := (r.ruleset, r.lastIndex, r.polled)

theorem following_fetch (reached : Bool) : (r.fetch setup kv reached).following = r.following := by
  rcases r.fetch_cases setup kv reached with same | ⟨-, same⟩
  · rw [same]
  · rw [same]
    rfl

theorem following_put (now : Int64) (sent : Sent) : (r.put setup kv now sent).2.following = r.following := by
  rcases r.put_cases setup kv now sent with same | ⟨existing, -, ⟨-, same⟩ | same | ⟨body, -, same⟩⟩
  · rw [same]
  all_goals
    rw [same]
    rfl

theorem following_clean (reached : Bool) : (r.clean kv reached).2.following = r.following := by
  rcases r.clean_cases kv reached with same | same | ⟨file, rest, -, same | same⟩
  · rw [same]
  all_goals
    rw [same]
    rfl

theorem watch_frame (newIndex : Nat) (reached : Bool) : (r.watch setup kv newIndex reached).dir = r.dir ∧
    (r.watch setup kv newIndex reached).seeding = r.seeding := by
  rcases r.watch_cases setup kv newIndex reached with ⟨-, -, same⟩ | ⟨-, -, same⟩ | ⟨polledIndex, -, same⟩
  all_goals
    rw [same]
    exact ⟨rfl, rfl⟩

end Replica

-- The stored rules

theorem valueOf_utf8 {text : Text} (some_ : text ≠ []) : valueOf (Text.utf8 text) = some (Text.utf8 text) := by
  refine if_neg fun empty => ?_
  have decoded : Text.fromUtf8 (Text.utf8 text) = some text := (Text.fromUtf8_eq_some _ _).mpr rfl
  rw [empty] at decoded
  cases decoded
  exact some_ rfl

theorem stored_put {kv : Kv} {rules : List Json} {body : Text} (writes : setup.writeEntries rules = some body) :
    stored setup (kv.insert rulesKey (Text.utf8 body)) = rules := by
  obtain ⟨text, reads⟩ := setup.written rules body writes
  have decoded : Text.fromUtf8 (Text.utf8 body) = some body := (Text.fromUtf8_eq_some _ _).mpr rfl
  rw [stored, AssocMap.get_insert_self, Option.bind_some, valueOf_utf8 text, Option.bind_some, decoded, Option.bind_some, reads,
    Option.getD_some]

theorem rawRules_text {key : String} {text : Text} {rules : List Plain.RuleRaw}
    (yaml : ".yaml".toList.isSuffixOf key.toList = true) (some_ : text ≠ []) (reads : setup.readRules text = some rules) :
    rawRules setup (key, Text.utf8 text) = some rules := by
  have decoded : Text.fromUtf8 (Text.utf8 text) = some text := (Text.fromUtf8_eq_some _ _).mpr rfl
  rw [rawRules, if_pos yaml, valueOf_utf8 some_]
  simp only [decoded, Option.map_some, reads, Option.getD_some]

theorem stored_erase (kv : Kv) {key : String} (other : rulesKey ≠ key) : stored setup (kv.erase key) = stored setup kv := by
  rw [stored, stored, AssocMap.get_erase_of_ne kv key rulesKey other]

-- Seeding by replicas with one directory

/-- The stored rules as they were, or as merged with the default rules. -/
structure Fits (defaults : List DefaultRule) (initial rules : List Json) : Prop where
  grows : Grows Kept initial rules
  either : rules = initial ∨ AllAlike (mergeRules 0 defaults initial).1 rules

theorem Fits.merged {dir : DefaultsDir} (oneEach : OneEach dir.defaults) {initial rules : List Json}
    (fits : Fits dir.defaults initial rules) (now : Int64) :
    Grows Kept initial (mergeRules now dir.defaults rules).1 ∧
      AllAlike (mergeRules 0 dir.defaults initial).1 (mergeRules now dir.defaults rules).1 := by
  refine ⟨fits.grows.trans Kept.trans (rules_merged dir now rules).grows, ?_⟩
  have congruent {a b : List Json} (alike : AllAlike a b) (first second : Int64) :
      AllAlike (mergeRules first dir.defaults a).1 (mergeRules second dir.defaults b).1 :=
    alike_foldl dir.defaults (distinct_defaults dir) first second alike
  rcases fits.either with rfl | alike
  · exact congruent (AllAlike.refl rules) 0 now
  · exact ((rules_merged dir 0 initial).again oneEach now).trans (congruent alike now now)

/-- What holds while replicas with one directory seed, of which some are never refused. -/
structure Converging (setup : Setup) (dir : DefaultsDir) (initial : List Json) (unrefused : Nat → Prop) (s : State) :
    Prop where
  sameDir : ∀ i, (s.replicas i).dir = dir
  versions : ∀ k ≤ s.kv.last, Fits dir.defaults initial (stored setup (s.kv.version k))
  fetched : ∀ i existing, (s.replicas i).seeding = .fetched existing → Fits dir.defaults initial existing ∧
    (AllAlike (mergeRules 0 dir.defaults initial).1 existing →
      AllAlike (mergeRules 0 dir.defaults initial).1 (stored setup s.kv.current))
  cleaning : ∀ i files, (s.replicas i).seeding = .cleaning files → files ⊆ oldFiles ∧
    (unrefused i → AllAlike (mergeRules 0 dir.defaults initial).1 (stored setup s.kv.current))

def Onward (setup : Setup) (dir : DefaultsDir) (initial : List Json) (s s' : State) : Prop :=
  AllAlike (mergeRules 0 dir.defaults initial).1 (stored setup s.kv.current) →
    AllAlike (mergeRules 0 dir.defaults initial).1 (stored setup s'.kv.current)

/-- A request keeps this if it stores rules that fit, none that are merged less, and brings its replica to a phase that
fits. -/
theorem Converging.update {dir : DefaultsDir} {initial : List Json} {unrefused : Nat → Prop} {s : State}
    (before : Converging setup dir initial unrefused s) {i : Nat} {next : Option Kv × Replica} (same : next.2.dir = dir)
    (writes : ∀ kv, next.1 = some kv → Fits dir.defaults initial (stored setup kv) ∧
      (AllAlike (mergeRules 0 dir.defaults initial).1 (stored setup s.kv.current) →
        AllAlike (mergeRules 0 dir.defaults initial).1 (stored setup kv)))
    (fetched : ∀ existing, next.2.seeding = .fetched existing → Fits dir.defaults initial existing ∧
      (AllAlike (mergeRules 0 dir.defaults initial).1 existing →
        AllAlike (mergeRules 0 dir.defaults initial).1 (stored setup (next.1.getD s.kv.current))))
    (cleaning : ∀ files, next.2.seeding = .cleaning files → files ⊆ oldFiles ∧
      (unrefused i → AllAlike (mergeRules 0 dir.defaults initial).1 (stored setup (next.1.getD s.kv.current)))) :
    Converging setup dir initial unrefused (s.update i next) ∧ Onward setup dir initial s (s.update i next) := by
  have onward : AllAlike (mergeRules 0 dir.defaults initial).1 (stored setup s.kv.current) →
      AllAlike (mergeRules 0 dir.defaults initial).1 (stored setup (next.1.getD s.kv.current)) := by
    intro merged
    cases put : next.1 with
    | none => exact merged
    | some kv => exact (writes kv put).2 merged
  have replica (j : Nat) : (s.update i next).replicas j = if j = i then next.2 else s.replicas j :=
    Function.update_apply _ _ _ _
  refine ⟨?_, by rwa [Onward, current_update]⟩
  constructor
  · intro j
    rw [replica]
    split
    · exact same
    · exact before.sameDir j
  · rw [State.update]
    cases put : next.1 with
    | none => exact before.versions
    | some kv =>
      refine (History.forall_push (P := fun _ kv => Fits dir.defaults initial (stored setup kv))).mpr ?_
      exact ⟨before.versions, (writes kv put).1⟩
  · intro j existing phase
    rw [replica] at phase
    rw [current_update]
    split at phase
    · exact fetched existing phase
    · obtain ⟨fits, merged⟩ := before.fetched j existing phase
      exact ⟨fits, fun alike => onward (merged alike)⟩
  · intro j files phase
    rw [replica] at phase
    rw [current_update]
    split at phase
    · rename_i here
      exact here ▸ cleaning files phase
    · obtain ⟨old, merged⟩ := before.cleaning j files phase
      exact ⟨old, fun trusted => onward (merged trusted)⟩

def Event.seeds : Event → Bool
  | .edit _ => false
  | .fetch _ reached => reached
  | _ => true

def Event.refuses (i : Nat) : Event → Bool
  | .put j _ sent => j == i && sent == .refused
  | _ => false

theorem Converging.step {dir : DefaultsDir} (oneEach : OneEach dir.defaults) {initial : List Json}
    {unrefused : Nat → Prop} {s : State} (before : Converging setup dir initial unrefused s) {event : Event}
    (seeds : event.seeds = true) (accepts : ∀ i, unrefused i → event.refuses i = false) :
    Converging setup dir initial unrefused (Consul.step setup s event) ∧
      Onward setup dir initial s (Consul.step setup s event) := by
  have now := before.versions s.kv.last (Nat.le_refl _)
  have silent : ∀ kv, (none : Option Kv) = some kv → Fits dir.defaults initial (stored setup kv) ∧
      (AllAlike (mergeRules 0 dir.defaults initial).1 (stored setup s.kv.current) →
        AllAlike (mergeRules 0 dir.defaults initial).1 (stored setup kv)) := by
    intro kv none
    cases none
  cases event with
  | edit kv => cases seeds
  | fetch i reached =>
    obtain rfl : reached = true := seeds
    rw [Consul.step]
    rcases (s.replicas i).fetch_cases setup s.kv.current true with same | ⟨-, same⟩
    · rw [same]
      exact before.update (before.sameDir i) silent (before.fetched i) (before.cleaning i)
    · rw [same]
      refine before.update (before.sameDir i) silent (fun existing phase => ?_) (fun _ phase => by cases phase)
      obtain rfl := Seeding.fetched.inj phase
      exact ⟨now, id⟩
  | put i time sent =>
    have sameDir := before.sameDir i
    rw [Consul.step]
    rcases (s.replicas i).put_cases setup s.kv.current time sent with same | ⟨existing, phase, rest⟩
    · rw [same]
      exact before.update sameDir silent (before.fetched i) (before.cleaning i)
    obtain ⟨fits, stays⟩ := before.fetched i existing phase
    obtain ⟨grows, merged⟩ := fits.merged oneEach time
    rw [sameDir] at rest
    rcases rest with ⟨unwritten, same⟩ | same | ⟨body, writes, same⟩
    · rw [same]
      refine before.update rfl silent (fun _ phase => by cases phase) fun files phase => ?_
      obtain rfl := Seeding.cleaning.inj phase
      refine ⟨List.Subset.refl _, fun trusted => ?_⟩
      rcases unwritten with unchanged | rfl
      · -- nothing to merge: the rules that were read are merged already
        rw [(rules_merged dir time existing).unchanged unchanged] at merged
        exact stays merged
      · have accepted := accepts i trusted
        simp [Event.refuses] at accepted
    · rw [same]
      exact before.update rfl silent (fun _ phase => by cases phase) fun _ phase => by cases phase
    · have holds := @stored_put setup s.kv.current _ _ writes
      rw [same]
      refine before.update rfl (fun kv put => ?_) (fun _ phase => ?_) fun files phase => ?_
      · obtain rfl := Option.some.inj put
        rw [holds]
        exact ⟨⟨grows, .inr merged⟩, fun _ => merged⟩
      · cases sent <;> cases phase
      · rw [Option.getD_some, holds]
        cases answered : sent.answered with
        | true =>
          rw [answered] at phase
          obtain rfl := Seeding.cleaning.inj phase
          exact ⟨List.Subset.refl _, fun _ => merged⟩
        | false =>
          rw [answered] at phase
          cases phase
  | clean i reached =>
    have sameDir := before.sameDir i
    rw [Consul.step]
    rcases (s.replicas i).clean_cases s.kv.current reached with same | same | ⟨file, rest, phase, either⟩
    · rw [same]
      exact before.update sameDir silent (before.fetched i) (before.cleaning i)
    · rw [same]
      exact before.update sameDir silent (fun _ phase => by cases phase) fun _ phase => by cases phase
    obtain ⟨old, merged⟩ := before.cleaning i _ phase
    obtain ⟨here, later⟩ := List.cons_subset.mp old
    rcases either with same | same
    · rw [same]
      refine before.update sameDir silent (fun _ phase => by cases phase) fun files phase => ?_
      obtain rfl := Seeding.cleaning.inj phase
      exact ⟨later, merged⟩
    · have other : rulesKey ≠ "waf/rules/" ++ file := by
        have all : ∀ file ∈ oldFiles, rulesKey ≠ "waf/rules/" ++ file := by decide
        exact all file here
      rw [same]
      refine before.update sameDir (fun kv put => ?_) (fun _ phase => by cases phase) fun files phase => ?_
      · obtain rfl := Option.some.inj put
        rw [stored_erase s.kv.current other]
        exact ⟨now, id⟩
      · obtain rfl := Seeding.cleaning.inj phase
        rw [Option.getD_some, stored_erase s.kv.current other]
        exact ⟨later, merged⟩
  | watch i reached =>
    rw [Consul.step]
    obtain ⟨sameDir, sameSeeding⟩ := (s.replicas i).watch_frame setup s.kv.current (setup.index s.kv.last) reached
    refine before.update (sameDir.trans (before.sameDir i)) silent ?_ ?_
    · rw [sameSeeding]
      exact before.fetched i
    · rw [sameSeeding]
      exact before.cleaning i

theorem Converging.run {dir : DefaultsDir} (oneEach : OneEach dir.defaults) {initial : List Json}
    {unrefused : Nat → Prop} {s : State} (before : Converging setup dir initial unrefused s) {events : List Event}
    (seeds : ∀ e ∈ events, e.seeds = true) (accepts : ∀ e ∈ events, ∀ i, unrefused i → e.refuses i = false) :
    Converging setup dir initial unrefused (Consul.run setup s events) ∧
      Onward setup dir initial s (Consul.run setup s events) := by
  refine List.foldlRecOn (motive := fun s' => Converging setup dir initial unrefused s' ∧ Onward setup dir initial s s')
    events _ ⟨before, id⟩ fun s' so_far event member => ?_
  obtain ⟨keeps, onward⟩ := so_far.1.step oneEach (seeds event member) (accepts event member)
  exact ⟨keeps, fun merged => onward (so_far.2 merged)⟩

/-- Replicas of one directory that all read what is stored before they write converge, in whatever order their requests
come and whichever of the writes are lost: no stored rule that is no default ever changes or moves, and the stored rules
are at all times the initial ones or, up to bookkeeping, their merge with the default rules; the latter from the moment a
replica that has not been refused comes to clean up. -/
theorem seeding_converges {dir : DefaultsDir} (oneEach : OneEach dir.defaults) (kv : Kv) {replicas : Nat → Replica}
    (idle : ∀ i, (replicas i).dir = dir ∧ (replicas i).seeding = .idle) (before after : List Event)
    (seeds : ∀ e ∈ before ++ after, e.seeds = true) :
    let final := run setup ⟨.start kv, replicas⟩ (before ++ after)
    (∀ k ≤ final.kv.last, Fits dir.defaults (stored setup kv) (stored setup (final.kv.version k))) ∧
      ∀ i files, (∀ e ∈ before, e.refuses i = false) →
        ((run setup ⟨.start kv, replicas⟩ before).replicas i).seeding = .cleaning files →
        AllAlike (mergeRules 0 dir.defaults (stored setup kv)).1 (stored setup final.kv.current) := by
  intro final
  obtain ⟨first, then_⟩ := List.forall_mem_append.mp seeds
  have start (unrefused : Nat → Prop) : Converging setup dir (stored setup kv) unrefused ⟨.start kv, replicas⟩ := by
    refine ⟨fun i => (idle i).1, fun _ _ => ⟨Grows.refl Kept.refl _, .inl rfl⟩, fun i _ phase => ?_, fun i _ phase => ?_⟩
    · cases (idle i).2.symm.trans phase
    · cases (idle i).2.symm.trans phase
  obtain ⟨middle, -⟩ := (start fun _ => False).run oneEach first fun _ _ _ => False.elim
  obtain ⟨last, onward⟩ := middle.run oneEach then_ fun _ _ _ => False.elim
  rw [← run_append] at last onward
  refine ⟨last.versions, fun i files accepted phase => onward ?_⟩
  obtain ⟨cleans, -⟩ := (start (· = i)).run oneEach first fun e member j same => same ▸ accepted e member
  exact (cleans.cleaning i files phase).2 rfl

def loginDir : DefaultsDir where
  parsed name := if name = "global.yaml" then some (.array [.object [("id", .string "login")]]) else none
  distinct := by
    intro name file parsed r member
    split at parsed
    · obtain rfl := Option.some.inj parsed
      obtain rfl := List.mem_singleton.mp member
      decide
    · cases parsed

def loginRules : List Json := (mergeRules 5 loginDir.defaults []).1

def loginText : Text := "- ".toList ++
  ("created_by: system\n  created_ms: 5\n  enabled: true\n  id: login\n  is_default: true\n  source: system\n" ++
    "  tier: GLOBAL\n  updated_ms: 5\n").toList

def loginSetup : Setup where
  platform := .plain
  readEntries text := if text = loginText then some loginRules else none
  writeEntries rules := if rules = loginRules then some loginText else none
  written := by
    intro rules text written
    split at written
    · obtain rfl := Option.some.inj written
      rename_i same
      exact ⟨List.append_ne_nil_of_left_ne_nil (by decide) _, by rw [if_pos rfl, same]⟩
    · cases written
  readRules _ := none
  order := insertionOrder Plain.Rule.priority
  index k := k + 1
  positive := Nat.one_pos
  increasing := fun _ _ less => Nat.succ_lt_succ less

def newReplica : Replica := ⟨loginDir, .idle, 0, none, ⟨[]⟩⟩

/-- Two replicas that both read before either of them writes. -/
theorem seeding_converges_two :
    let final := run loginSetup ⟨.start .empty, fun _ => newReplica⟩
      ([.fetch 0 true, .fetch 1 true, .put 1 5 .lost, .put 0 5 .ok] ++ [.clean 0 true])
    AllAlike (mergeRules 0 loginDir.defaults []).1 (stored loginSetup final.kv.current) := by
  have oneEach : OneEach loginDir.defaults := List.pairwise_singleton _ _
  have seeded := @seeding_converges loginSetup _ oneEach .empty (fun _ => newReplica) (fun _ => ⟨rfl, rfl⟩)
    [.fetch 0 true, .fetch 1 true, .put 1 5 .lost, .put 0 5 .ok] [.clean 0 true] (by decide)
  exact seeded.2 0 oldFiles (by decide) rfl

-- The rules in force

def Event.writes : Event → Bool
  | .edit _ => true
  | .put _ _ _ => true
  | .clean _ _ => true
  | _ => false

def Event.watches (i : Nat) : Event → Bool
  | .watch j _ => j == i
  | _ => false

def Event.reaches (i : Nat) : Event → Bool
  | .watch j reached => j != i || reached
  | _ => true

/-- The rule set of a replica is one that could be loaded from some version, or the one it had at the start; its indexes
are those of versions. -/
structure Followed (setup : Setup) (start : Plain.RuleSet) (kv : History Kv) (following : Plain.RuleSet × Nat × Option Nat) :
    Prop where
  ruleset : following.1 = start ∨ ∃ k ≤ kv.last, loadFromConsul setup (kv.version k) = some following.1
  lastIndex : following.2.1 = 0 ∨ ∃ k ≤ kv.last, following.2.1 = setup.index k
  polled : ∀ index, following.2.2 = some index → ∃ k ≤ kv.last, index = setup.index k

theorem Followed.later {start : Plain.RuleSet} {kv later : History Kv} {following : Plain.RuleSet × Nat × Option Nat}
    (followed : Followed setup start kv following) (goesOn : kv.Extends later) : Followed setup start later following where
  ruleset := by
    refine followed.ruleset.imp_right fun ⟨k, bound, load⟩ => ⟨k, Nat.le_trans bound goesOn.last, ?_⟩
    rw [goesOn.version k bound, load]
  lastIndex := followed.lastIndex.imp_right fun ⟨k, bound, same⟩ => ⟨k, Nat.le_trans bound goesOn.last, same⟩
  polled index pending := by
    obtain ⟨k, bound, same⟩ := followed.polled index pending
    exact ⟨k, Nat.le_trans bound goesOn.last, same⟩

theorem Followed.watch {start : Plain.RuleSet} {kv : History Kv} {r : Replica} (followed : Followed setup start kv r.following)
    (reached : Bool) : Followed setup start kv (r.watch setup kv.current (setup.index kv.last) reached).following := by
  rcases r.watch_cases setup kv.current (setup.index kv.last) reached with ⟨-, -, same⟩ | ⟨-, -, same⟩ |
    ⟨polledIndex, pending, same⟩
  · rw [same]
    exact followed
  · rw [same]
    refine ⟨followed.ruleset, followed.lastIndex, fun index polled => ?_⟩
    exact ⟨kv.last, Nat.le_refl _, (Option.some.inj polled).symm⟩
  · rw [same]
    refine ⟨?_, .inr (followed.polled polledIndex pending), fun index polled => by cases polled⟩
    dsimp only [Replica.following]
    cases load : if reached then loadFromConsul setup kv.current else none with
    | none => exact followed.ruleset
    | some ruleset =>
      refine .inr ⟨kv.last, Nat.le_refl _, ?_⟩
      cases reached with
      | false => cases load
      | true => exact load

/-- The rules in force anywhere are rules that Consul had, and the keys only go on. -/
def Following (setup : Setup) (replicas : Nat → Replica) (s : State) : Prop :=
  ∀ i, Followed setup (replicas i).ruleset s.kv (s.replicas i).following

theorem extends_update (s : State) (i : Nat) (next : Option Kv × Replica) : s.kv.Extends (s.update i next).kv := by
  rw [State.update]
  cases next.1 with
  | none => exact ⟨Nat.le_refl _, fun _ _ => rfl⟩
  | some kv => exact History.extends_push _ _

theorem Following.update {replicas : Nat → Replica} {s : State} (before : Following setup replicas s) {i : Nat}
    {next : Option Kv × Replica} (here : Followed setup (replicas i).ruleset s.kv next.2.following) :
    Following setup replicas (s.update i next) := by
  intro j
  have goesOn := extends_update s i next
  have replica : (s.update i next).replicas j = if j = i then next.2 else s.replicas j := Function.update_apply _ _ _ _
  rw [replica]
  by_cases self : j = i
  · rw [if_pos self, self]
    exact here.later goesOn
  · rw [if_neg self]
    exact (before j).later goesOn

theorem Following.step {replicas : Nat → Replica} {s : State} (before : Following setup replicas s) (event : Event) :
    Following setup replicas (Consul.step setup s event) := by
  cases event with
  | edit kv => exact fun i => (before i).later (History.extends_push _ _)
  | fetch i reached => exact before.update ((Replica.following_fetch setup _ _ reached).symm ▸ before i)
  | put i now sent => exact before.update ((Replica.following_put setup _ _ now sent).symm ▸ before i)
  | clean i reached => exact before.update ((Replica.following_clean _ _ reached).symm ▸ before i)
  | watch i reached => exact before.update ((before i).watch reached)

theorem replicas_update_self (s : State) (i : Nat) (next : Option Kv × Replica) : (s.update i next).replicas i = next.2 :=
  Function.update_self _ _ _

theorem replicas_update_of_ne {s : State} {i j : Nat} (next : Option Kv × Replica) (other : j ≠ i) :
    (s.update i next).replicas j = s.replicas j :=
  Function.update_of_ne other _ _

/-- Only its own watcher changes the rules a replica has in force. -/
theorem following_step {s : State} {event : Event} {i : Nat} (other : event.watches i = false) :
    ((step setup s event).replicas i).following = (s.replicas i).following := by
  have updated {j : Nat} {next : Option Kv × Replica} (same : next.2.following = (s.replicas j).following) :
      ((s.update j next).replicas i).following = (s.replicas i).following := by
    by_cases self : i = j
    · subst self
      rw [replicas_update_self, same]
    · rw [replicas_update_of_ne next self]
  cases event with
  | edit kv => rfl
  | fetch j reached => exact updated (Replica.following_fetch setup _ _ reached)
  | put j now sent => exact updated (Replica.following_put setup _ _ now sent)
  | clean j reached => exact updated (Replica.following_clean _ _ reached)
  | watch j reached =>
    have ne : i ≠ j := fun self => by simp [Event.watches, self] at other
    rw [step, replicas_update_of_ne _ ne]

theorem kv_step {s : State} {event : Event} (quiet : event.writes = false) : (step setup s event).kv = s.kv := by
  cases event with
  | fetch i reached => rfl
  | watch i reached => rfl
  | edit kv => cases quiet
  | put i now sent => cases quiet
  | clean i reached => cases quiet

/-- While nobody writes, a watcher whose requests get through loads what is stored, if it has turns enough. -/
theorem catches_up {s : State} {i : Nat} (old : Plain.RuleSet) {events : List Event} (quiet : ∀ e ∈ events, e.writes = false)
    (reaches : ∀ e ∈ events, e.reaches i = true)
    (enough : (s.replicas i).ruleset = (loadFromConsul setup s.kv.current).getD old ∨
      (s.replicas i).ruleset = old ∧ ((s.replicas i).polled = none → (s.replicas i).lastIndex ≠ setup.index s.kv.last) ∧
        (if (s.replicas i).polled.isSome then 1 else 2) ≤ events.countP (Event.watches i)) :
    ((run setup s events).replicas i).ruleset = (loadFromConsul setup (run setup s events).kv.current).getD old := by
  induction events generalizing s with
  | nil =>
    refine enough.resolve_right fun few => ?_
    have none := few.2.2
    rw [List.countP_nil] at none
    split at none <;> omega
  | cons event rest ih =>
    obtain ⟨here, later⟩ := List.forall_mem_cons.mp quiet
    obtain ⟨reached, reaches⟩ := List.forall_mem_cons.mp reaches
    have sameKv := @kv_step setup s event here
    refine ih (s := step setup s event) later reaches ?_
    rw [sameKv]
    cases mine : event.watches i with
    | false =>
      have same := @following_step setup s event i mine
      have ruleset : ((step setup s event).replicas i).ruleset = (s.replicas i).ruleset := congrArg Prod.fst same
      have lastIndex : ((step setup s event).replicas i).lastIndex = (s.replicas i).lastIndex :=
        congrArg (fun f => f.2.1) same
      have polled : ((step setup s event).replicas i).polled = (s.replicas i).polled := congrArg (fun f => f.2.2) same
      rw [List.countP_cons_of_neg (by simp [mine])] at enough
      rwa [ruleset, lastIndex, polled]
    | true =>
      rw [List.countP_cons_of_pos mine] at enough
      cases event with
      | watch j answered =>
        obtain rfl : j = i := by simpa [Event.watches] using mine
        obtain rfl : answered = true := by simpa [Event.reaches] using reached
        rw [step, replicas_update_self]
        rcases (s.replicas j).watch_cases setup s.kv.current (setup.index s.kv.last) true with
          ⟨idle, unchanged, same⟩ | ⟨idle, -, same⟩ | ⟨polledIndex, pending, same⟩
        · rw [same]
          refine .inl (enough.resolve_right fun behind => behind.2.1 idle (unchanged rfl).symm)
        · rw [same]
          rcases enough with caught | ⟨ruleset, -, turns⟩
          · exact .inl caught
          rw [idle] at turns
          have pending : (none : Option Nat).isSome = false := rfl
          rw [pending, if_neg Bool.false_ne_true] at turns
          have one : 1 ≤ rest.countP (Event.watches j) := by omega
          exact .inr ⟨ruleset, fun none => (by cases none), one⟩
        · rw [same]
          refine .inl ?_
          dsimp only
          rw [if_pos rfl]
          cases load : loadFromConsul setup s.kv.current with
          | some ruleset => rfl
          | none =>
            rw [load] at enough
            exact enough.elim id fun behind => behind.1
      | edit kv => cases mine
      | fetch j answered => cases mine
      | put j now sent => cases mine
      | clean j answered => cases mine

/-- From the start every replica has rules in force that Consul had, or its own; and when nobody writes after a change of
the keys, those of every watcher with two turns, none of which fails, are the rules that are stored then, if they load. -/
theorem rules_in_force (kv : Kv) (replicas : Nat → Replica) (new : ∀ i, (replicas i).lastIndex = 0 ∧ (replicas i).polled = none)
    (before : List Event) (write : Event) (after : List Event)
    (written : (run setup ⟨.start kv, replicas⟩ before).kv.last < (run setup ⟨.start kv, replicas⟩ (before ++ [write])).kv.last)
    (quiet : ∀ e ∈ after, e.writes = false) :
    let s := run setup ⟨.start kv, replicas⟩ before
    let final := run setup ⟨.start kv, replicas⟩ (before ++ [write] ++ after)
    Following setup replicas final ∧ ∀ i, (∀ e ∈ after, e.reaches i = true) → 2 ≤ after.countP (Event.watches i) →
      (final.replicas i).ruleset = (loadFromConsul setup final.kv.current).getD (s.replicas i).ruleset := by
  intro s final
  have start : Following setup replicas ⟨.start kv, replicas⟩ := by
    refine fun i => ⟨.inl rfl, .inl (new i).1, fun index pending => ?_⟩
    cases (new i).2.symm.trans pending
  have follows (events : List Event) : Following setup replicas (run setup ⟨.start kv, replicas⟩ events) :=
    List.foldlRecOn events _ start fun _ follows event _ => follows.step event
  refine ⟨follows _, fun i reaches turns => ?_⟩
  let s' := run setup ⟨.start kv, replicas⟩ (before ++ [write])
  have next : s' = step setup s write := run_append _ before [write]
  have notWatch : write.watches i = false := by
    cases write with
    | watch j answered =>
      have same : s'.kv = s.kv := by
        rw [next]
        exact kv_step rfl
      exact absurd written (by rw [same]; exact Nat.lt_irrefl _)
    | _ => rfl
  have same : (s'.replicas i).following = (s.replicas i).following := by
    rw [next]
    exact following_step notWatch
  have ruleset : (s'.replicas i).ruleset = (s.replicas i).ruleset := congrArg Prod.fst same
  have lastIndex : (s'.replicas i).lastIndex = (s.replicas i).lastIndex := congrArg (fun f => f.2.1) same
  -- the index of the write is above all that the watcher has seen
  have behind : (s'.replicas i).lastIndex ≠ setup.index s'.kv.last := by
    rw [lastIndex]
    rcases (follows before i).lastIndex with zero | ⟨k, bound, seen⟩
    · have above := Nat.lt_of_lt_of_le setup.positive (setup.increasing.monotone (Nat.zero_le s'.kv.last))
      exact Nat.ne_of_lt (Nat.lt_of_le_of_lt (Nat.le_of_eq zero) above)
    · have above := setup.increasing (Nat.lt_of_le_of_lt bound written)
      exact Nat.ne_of_lt (Nat.lt_of_le_of_lt (Nat.le_of_eq seen) above)
  have caught := @catches_up setup s' i (s.replicas i).ruleset after quiet reaches
    (.inr ⟨ruleset, fun _ => behind, by split <;> omega⟩)
  rwa [← run_append] at caught

def ruleText (id priority action : String) : Text :=
  "- id: ".toList ++ (id ++ "\n  priority: " ++ priority ++ "\n  action: " ++ action ++ "\n  risk_score_delta: 5\n" ++
    "  condition:\n    field: path\n    match: exact\n    value: /login\n    case_sensitive: true\n").toList

def twoRulesText : Text := ruleText "late" "20" "block" ++ ruleText "early" "10" "allow"

def twoRulesKv : Kv := ⟨[(rulesKey, Text.utf8 twoRulesText)], List.nodup_singleton _⟩

def twoRulesSetup : Setup :=
  { loginSetup with readRules := fun text => if text = twoRulesText then some Plain.twoRules else none }

theorem load_twoRules : loadFromConsul twoRulesSetup twoRulesKv =
    (Plain.compile .plain (insertionOrder Plain.Rule.priority) Plain.twoRules).toOption := by
  have reads : twoRulesSetup.readRules twoRulesText = some Plain.twoRules := by
    simp only [twoRulesSetup]
    rw [if_pos trivial]
  have some_ : twoRulesText ≠ [] :=
    List.append_ne_nil_of_left_ne_nil (List.append_ne_nil_of_left_ne_nil (by decide) _) _
  have yaml : ".yaml".toList.isSuffixOf rulesKey.toList = true := by decide
  rw [loadFromConsul, twoRulesKv, if_neg (List.cons_ne_nil _ _), List.mapM_cons, rawRules_text yaml some_ reads]
  rfl

theorem rules_in_force_two :
    ∃ ruleset, Plain.compile .plain (insertionOrder Plain.Rule.priority) Plain.twoRules = .ok ruleset ∧
      ((run twoRulesSetup ⟨.start .empty, fun _ => newReplica⟩
        ([] ++ [.edit twoRulesKv] ++ [.watch 0 true, .watch 0 true])).replicas 0).ruleset = ruleset := by
  obtain ⟨ruleset, compiled⟩ : ∃ ruleset,
      Plain.compile .plain (insertionOrder Plain.Rule.priority) Plain.twoRules = .ok ruleset := ⟨_, rfl⟩
  have follows := @rules_in_force twoRulesSetup .empty (fun _ => newReplica) (fun _ => ⟨rfl, rfl⟩) [] (.edit twoRulesKv)
    [.watch 0 true, .watch 0 true] (by decide) (by decide)
  have force := follows.2 0 (by decide) (by decide)
  have now : (run twoRulesSetup ⟨.start .empty, fun _ => newReplica⟩
      ([] ++ [.edit twoRulesKv] ++ [.watch 0 true, .watch 0 true])).kv.current = twoRulesKv := rfl
  rw [now, load_twoRules, compiled] at force
  exact ⟨ruleset, compiled, force⟩

end MiniWaf.Consul
