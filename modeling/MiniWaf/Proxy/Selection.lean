import MiniWaf.Proxy.Routing
import MiniWaf.Rules.Loading

/-! Upstream selection over the rules as they are loaded: by priority, and in the order
of the directory listing only where priorities tie.
-/

set_option autoImplicit false

namespace MiniWaf.Proxy

open Rules

def routing (rule : Rule) : RoutingRule := ⟨rule.condition, rule.upstreamBackend⟩

variable (backends : AssocMap String String) (path : String)

/-- The URL of the rule's backend, if it names one that is configured and its condition matches the path. -/
def serves (rule : RoutingRule) : Option String :=
  rule.upstreamBackend.bind fun name => if pathConditionMatches rule.condition path then backends.get name else none

theorem resolveUpstream_eq (rules : List RoutingRule) (upstream : String) :
    resolveUpstream rules backends upstream path = (rules.findSome? (serves backends path)).getD upstream := by
  induction rules with
  | nil => rfl
  | cons rule rest ih =>
    rw [resolveUpstream, List.findSome?_cons, ih, serves]
    cases rule.upstreamBackend with
    | none => rfl
    | some name =>
      rw [Option.bind_some]
      dsimp only
      cases pathConditionMatches rule.condition path with
      | false => rfl
      | true => cases backends.get name <;> rfl

/-- A rule of the listing serves the path with this URL, and those that serve it too have a higher number, or the same
number and a later place. -/
def Foremost (listed : List Rule) (url : String) : Prop :=
  ∃ (i : Nat) (r : Rule), listed[i]? = some r ∧ serves backends path (routing r) = some url ∧
    ∀ (j : Nat) (s : Rule), listed[j]? = some s → (serves backends path (routing s)).isSome = true → j ≠ i →
      r.priority < s.priority ∨ r.priority = s.priority ∧ i < j

def Selected (upstream : String) (listed : List Rule) (url : String) : Prop :=
  Foremost backends path listed url ∨ (∀ r ∈ listed, serves backends path (routing r) = none) ∧ url = upstream

/-- Rules of one priority that serve the path do so with one URL. -/
def TiesAgree (listed : List Rule) : Prop :=
  ∀ r ∈ listed, ∀ s ∈ listed, ∀ url url', serves backends path (routing r) = some url →
    serves backends path (routing s) = some url' → r.priority = s.priority → url = url'

variable {backends path}

theorem selected_resolveUpstream (listed : List Rule) (upstream : String) :
    Selected backends path upstream listed
      (resolveUpstream ((listed.insertionSort Rule.precedes).map routing) backends upstream path) := by
  rw [resolveUpstream_eq, List.findSome?_map]
  cases found : (listed.insertionSort Rule.precedes).findSome? (serves backends path ∘ routing) with
  | none =>
    refine .inr ⟨fun r member => ?_, rfl⟩
    exact List.findSome?_eq_none_iff.mp found r ((List.mem_insertionSort _).mpr member)
  | some url =>
    obtain ⟨i, r, at_i, here, first⟩ := StableSort.findSome?_insertionSort found
    refine .inl ⟨i, r, at_i, here, ?_⟩
    intro j s at_j has other
    obtain ⟨below, tied⟩ := first j s at_j has other
    rcases UInt32.lt_or_eq_of_le below with lower | same
    · exact .inl lower
    · exact .inr ⟨same, tied (UInt32.le_of_eq same.symm)⟩

theorem Foremost.unique {listed : List Rule} {url url' : String} (first : Foremost backends path listed url)
    (second : Foremost backends path listed url') : url = url' := by
  obtain ⟨i, r, at_i, here, least⟩ := first
  obtain ⟨j, s, at_j, there, least'⟩ := second
  by_cases same : j = i
  · subst same
    rw [at_i, Option.some.injEq] at at_j
    subst at_j
    rw [here, Option.some.injEq] at there
    exact there
  · have before := least j s at_j (by rw [there]; rfl) same
    have after := least' i r at_i (by rw [here]; rfl) (Ne.symm same)
    rw [UInt32.lt_iff_toNat_lt, ← UInt32.toNat_inj] at before after
    omega

theorem Selected.unique {upstream : String} {listed : List Rule} {url url' : String}
    (first : Selected backends path upstream listed url) (second : Selected backends path upstream listed url') :
    url = url' := by
  have clash : ∀ {u : String}, Foremost backends path listed u → ¬ ∀ r ∈ listed, serves backends path (routing r) = none := by
    rintro u ⟨i, r, at_i, here, -⟩ none
    rw [none r (List.mem_of_getElem? at_i)] at here
    cases here
  rcases first with first | ⟨none, rfl⟩
  · rcases second with second | ⟨none, -⟩
    · exact first.unique second
    · exact absurd none (clash first)
  · rcases second with second | ⟨-, rfl⟩
    · exact absurd none (clash second)
    · rfl

/-- What is selected from one listing is selected from another of the same rules, up to ties. -/
theorem Selected.eq_of_perm {upstream : String} {listed listed' : List Rule} (same : listed.Perm listed')
    (ties : TiesAgree backends path listed) {url url' : String} (first : Selected backends path upstream listed url)
    (second : Selected backends path upstream listed' url') : url = url' := by
  rcases first with ⟨i, r, at_i, here, least⟩ | ⟨none, rfl⟩
  · have member := List.mem_of_getElem? at_i
    rcases second with ⟨j, s, at_j, there, least'⟩ | ⟨none, -⟩
    · have member' := same.mem_iff.mpr (List.mem_of_getElem? at_j)
      refine ties r member s member' url url' here there (UInt32.le_antisymm ?_ ?_)
      · obtain ⟨k, at_k⟩ := List.getElem?_of_mem member'
        by_cases self : k = i
        · rw [self, at_i, Option.some.injEq] at at_k
          rw [at_k]
          exact UInt32.le_refl _
        · rcases least k s at_k (by rw [there]; rfl) self with lower | ⟨tied, -⟩
          · exact UInt32.le_of_lt lower
          · exact UInt32.le_of_eq tied
      · obtain ⟨k, at_k⟩ := List.getElem?_of_mem (same.mem_iff.mp member)
        by_cases self : k = j
        · rw [self, at_j, Option.some.injEq] at at_k
          rw [at_k]
          exact UInt32.le_refl _
        · rcases least' k r at_k (by rw [here]; rfl) self with lower | ⟨tied, -⟩
          · exact UInt32.le_of_lt lower
          · exact UInt32.le_of_eq tied
    · rw [none r (same.mem_iff.mp member)] at here
      cases here
  · rcases second with ⟨j, s, at_j, there, -⟩ | ⟨-, rfl⟩
    · rw [none s (same.mem_iff.mpr (List.mem_of_getElem? at_j))] at there
      cases there
    · rfl

variable {readRules : Text → Option (List Rule)}

/-- A path goes to the foremost rule that serves it, and listing the files in another order changes that
only among rules of one priority. -/
theorem upstream_by_priority {dir : RulesDir} {rules : List Rule} (loaded : loadFromDir readRules dir = some rules)
    (upstream : String) : ∃ files : List DirFile, dir.listing = some (files.map some) ∧
      (∀ url, resolveUpstream (rules.map routing) backends upstream path = url ↔
        Selected backends path upstream (listedRules readRules files) url) ∧
      ∀ files' rules', files.Perm files' → loadFromDir readRules ⟨true, some (files'.map some)⟩ = some rules' →
        TiesAgree backends path (listedRules readRules files) →
        resolveUpstream (rules'.map routing) backends upstream path =
          resolveUpstream (rules.map routing) backends upstream path := by
  obtain ⟨files, -, listing, rfl⟩ := loadFromDir_some loaded
  have selected : Selected backends path upstream (listedRules readRules files)
      (resolveUpstream (((listedRules readRules files).insertionSort Rule.precedes).map routing) backends upstream path) :=
    selected_resolveUpstream _ upstream
  refine ⟨files, listing, ?_, ?_⟩
  · intro url
    constructor
    · rintro rfl
      exact selected
    · exact selected.unique
  · intro files' rules' same loaded' ties
    obtain ⟨listed', -, listing', rfl⟩ := loadFromDir_some loaded'
    have inj : files' = listed' := by
      have equal : files'.map some = listed'.map some := Option.some.inj listing'
      exact List.map_injective_iff.mpr (Option.some_injective _) equal
    subst inj
    have perm : (listedRules readRules files).Perm (listedRules readRules files') := same.flatMap_right _
    exact (Selected.eq_of_perm perm ties selected (selected_resolveUpstream _ upstream)).symm

def shopRules : List Rule :=
  [⟨"api", 20, .global, .pathWildcard "/api/*", .log, 0, some "api"⟩, ⟨"all", 10, .global, .pathWildcard "/**", .log, 0, some "web"⟩]

def shopDir : RulesDir := ⟨true, some [some ⟨true, some "yaml", some []⟩]⟩

def shopBackends : AssocMap String String := ⟨[("api", "http://api"), ("web", "http://web")], by decide⟩

theorem upstream_by_priority_shop : ∃ rules files, loadFromDir (fun _ => some shopRules) shopDir = some rules ∧
    shopDir.listing = some (files.map some) ∧
    Selected shopBackends "/api/cart" "http://other" (listedRules (fun _ => some shopRules) files) "http://web" := by
  have loaded : loadFromDir (fun _ => some shopRules) shopDir = some shopRules.reverse := rfl
  obtain ⟨files, listing, selected, -⟩ :=
    @upstream_by_priority shopBackends "/api/cart" _ _ _ loaded "http://other"
  exact ⟨_, files, loaded, listing, (selected _).mp (by decide)⟩

end MiniWaf.Proxy
