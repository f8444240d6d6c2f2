import MiniWaf.Documents.Scope
import MiniWaf.State.Loader
import MiniWaf.Theory.StableSort

/-! Typed rules of the YAML files, as the proxy selects upstreams by them, and their
loading from the rules directory.
-/

set_option autoImplicit false

namespace MiniWaf.Rules

open Documents

inductive RuleAction where
  | allow
  | block
  | challenge
  | rateLimit
  | log
  deriving DecidableEq, Repr

structure Rule where
  id : String
  /-- Lower numbers take precedence. -/
  priority : UInt32
  scope : RuleScope
  condition : Condition
  action : RuleAction
  riskScoreDelta : Int32
  upstreamBackend : Option String

/-- `sort_by_key(|r| r.priority)`. -/
def Rule.precedes (a b : Rule) : Prop := a.priority ≤ b.priority

instance : DecidableRel Rule.precedes := fun a b => inferInstanceAs (Decidable (a.priority ≤ b.priority))

instance : Std.Total Rule.precedes := ⟨fun a b => UInt32.le_total a.priority b.priority⟩

instance : IsTrans Rule Rule.precedes := ⟨fun _ _ _ first second => UInt32.le_trans first second⟩

-- `readRules` is what the YAML library makes of a text that is to be a list of rules
variable (readRules : Text → Option (List Rule))

def loadFromFile (file : DirFile) : Option (List Rule) := file.text.bind readRules

/-- What a directory entry contributes; a file that does not load is skipped. -/
def yamlRules (file : DirFile) : List Rule :=
  if file.extension = some "yaml" then (loadFromFile readRules file).getD [] else []

def listedRules (files : List DirFile) : List Rule := files.flatMap (yamlRules readRules)

/-- The rules of the directory by priority; none on an I/O error, and a directory that is missing is one. -/
def loadFromDir (dir : RulesDir) : Option (List Rule) :=
  if dir.present then
    dir.listing.bind fun entries => (entries.mapM id).map fun files => (listedRules readRules files).insertionSort Rule.precedes
  else none

variable {readRules}

theorem loadFromDir_some {dir : RulesDir} {rules : List Rule} (loaded : loadFromDir readRules dir = some rules) :
    ∃ files : List DirFile, dir.present = true ∧ dir.listing = some (files.map some) ∧
      rules = (listedRules readRules files).insertionSort Rule.precedes := by
  rw [loadFromDir] at loaded
  by_cases present : dir.present = true
  · rw [if_pos present, Option.bind_eq_some_iff] at loaded
    obtain ⟨entries, listing, read⟩ := loaded
    obtain ⟨files, all, rfl⟩ := Option.map_eq_some_iff.mp read
    refine ⟨files, present, ?_, rfl⟩
    rw [listing]
    clear listing read
    induction entries generalizing files with
    | nil =>
      cases all
      rfl
    | cons entry entries ih =>
      simp only [List.mapM_cons, id_eq, Option.pure_def, Option.bind_eq_bind, Option.bind_eq_some_iff,
        Option.some.injEq] at all
      obtain ⟨file, rfl, rest, others, rfl⟩ := all
      rw [List.map_cons, ← Option.some.inj (ih rest others)]
  · rw [if_neg present] at loaded
    cases loaded

end MiniWaf.Rules
