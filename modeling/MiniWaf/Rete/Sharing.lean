import MiniWaf.Rete.Keys
import MiniWaf.Rete.ListingOrder

/-! Compilation preserves meaning up to the leaves it confuses. -/

set_option autoImplicit false

namespace MiniWaf.Rete

open Grl

variable (platform : Platform)

structure Means (net : Network) (wm : WorkingMemory) (r : RuleAst) (term : Terminal) : Prop where
  ruleName : term.ruleName = r.name
  salience : term.salience = r.salience
  actions : term.actions = r.then_
  guard : term.guard.eval (leafValues platform net wm) = truth platform wm r.when

/-- Every guard means its rule's condition, and a shared node stands for leaves with one truth value. -/
structure MeaningKept (rules : List RuleAst) (wm : WorkingMemory) : Prop where
  guards : List.Forall₂ (Means platform (Network.compile platform rules) wm) (agenda rules)
    (Network.compile platform rules).terminals
  leaves : SharedAgree platform (ruleLeaves rules) wm

/-- The leaves that printing confuses have one truth value: those that differ in the kind of a number or of
a name with one text, and those of one text with a quote in an index key. -/
structure ConfusedAgree (rules : List RuleAst) (wm : WorkingMemory) : Prop where
  alike : ∀ a ∈ ruleLeaves rules, ∀ b ∈ ruleLeaves rules, alike platform a b = true →
    truth platform wm a = truth platform wm b
  quoted : ∀ a ∈ ruleLeaves rules, ∀ b ∈ ruleLeaves rules, (a.quoted || b.quoted) = true →
    printExpr platform a = printExpr platform b → truth platform wm a = truth platform wm b

variable {platform} {rules : List RuleAst} {wm : WorkingMemory}

theorem named_leaves (named : ∀ r ∈ rules, r.when.Named) : ∀ leaf ∈ ruleLeaves rules, leaf.Named := by
  intro leaf member
  obtain ⟨r, inRules, inLeaves⟩ := List.mem_flatMap.mp member
  obtain ⟨subPaths, subFunctions⟩ := leaf_names inLeaves
  have whole := named r inRules
  exact ⟨fun p inLeaf => whole.paths p (subPaths inLeaf), fun f inLeaf => whole.functions f (subFunctions inLeaf)⟩

theorem sharedAgree_iff (named : ∀ leaf ∈ ruleLeaves rules, leaf.Named) :
    SharedAgree platform (ruleLeaves rules) wm ↔ ConfusedAgree platform rules wm := by
  constructor
  · intro shared
    refine ⟨?_, ?_⟩
    · exact fun a inA b inB related => shared a inA b inB (print_of_alike related)
    · exact fun a inA b inB _ same => shared a inA b inB same
  · intro confused a inA b inB same
    by_cases quoted : (a.quoted || b.quoted) = true
    · exact confused.quoted a inA b inB quoted same
    · obtain ⟨freeA, freeB⟩ := Bool.or_eq_false_iff.mp (Bool.eq_false_iff.mpr quoted)
      have related := (print_eq_iff ⟨named a inA, freeA⟩ ⟨named b inB, freeB⟩).mp same
      exact confused.alike a inA b inB related

theorem meaningKept_of_shared (shared : SharedAgree platform (ruleLeaves rules) wm) : MeaningKept platform rules wm := by
  refine ⟨?_, shared⟩
  refine (compile_agenda platform rules).imp fun r term carries => ?_
  exact ⟨carries.ruleName, carries.salience, carries.actions, carries.sound wm shared _ (List.prefix_refl _)⟩

/-- Compilation keeps the meaning of parsed rules exactly where the leaves that printing confuses agree. -/
theorem meaning_kept_iff (platform : Platform) {src : Text} {rules : List RuleAst} (parsed : parse src = some rules)
    (wm : WorkingMemory) : MeaningKept platform rules wm ↔ ConfusedAgree platform rules wm := by
  rw [← sharedAgree_iff (named_leaves (named_of_parse parsed))]
  constructor
  · exact MeaningKept.leaves
  · exact meaningKept_of_shared

def confusedText : Text :=
  "rule \"i\" salience 1 \x7b when 0 == -0.0 then block(); \x7d rule \"f\" \x7b when 0.0 == -0.0 then allow(); \x7d".toList

def confusedRules : List RuleAst :=
  let minusZero : Expr := .literal (.float ⟨0x8000000000000000⟩)
  [⟨"i", 1, .binary .eq (.literal (.int 0)) minusZero, [.call ⟨"block", []⟩]⟩,
    ⟨"f", 0, .binary .eq (.literal (.float ⟨0⟩)) minusZero, [.call ⟨"allow", []⟩]⟩]

theorem confused_parse : parse confusedText = some confusedRules := by decide +kernel

/-- The second rule's guard reads the first rule's leaf. -/
theorem meaning_lost :
    parse confusedText = some confusedRules ∧
      (Network.compile .plain confusedRules).terminals.map (fun term =>
        term.guard.eval (leafValues .plain (Network.compile .plain confusedRules) (.new (.bare "GET" "/") .new))) =
          [false, false] ∧
      (agenda confusedRules).map (fun r => truth .plain (.new (.bare "GET" "/") .new) r.when) = [false, true] ∧
      ¬ MeaningKept .plain confusedRules (.new (.bare "GET" "/") .new) := by
  refine ⟨confused_parse, by decide +kernel, by decide +kernel, ?_⟩
  intro kept
  let minusZero : Expr := .literal (.float ⟨0x8000000000000000⟩)
  have same := kept.leaves (.binary .eq (.literal (.int 0)) minusZero) (by decide +kernel)
    (.binary .eq (.literal (.float ⟨0⟩)) minusZero) (by decide +kernel) (by decide +kernel)
  revert same
  decide +kernel

def sharedText : Text :=
  "rule \"a\" \x7b when Request.RiskScore > 9 then block(); \x7d rule \"b\" \x7b when !(Request.RiskScore > 9) then allow(); \x7d".toList

def sharedRules : List RuleAst :=
  let high : Expr := .binary .gt (.path ⟨[.field "Request", .field "RiskScore"]⟩) (.literal (.int 9))
  [⟨"a", 0, high, [.call ⟨"block", []⟩]⟩, ⟨"b", 0, .unary .not high, [.call ⟨"allow", []⟩]⟩]

theorem meaning_kept_shared :
    MeaningKept .plain sharedRules (.new (.bare "GET" "/") .new) := by
  have parsed : parse sharedText = some sharedRules := by decide +kernel
  apply (meaning_kept_iff .plain parsed _).mpr
  have one : ∀ leaf ∈ ruleLeaves sharedRules,
      leaf = .binary .gt (.path ⟨[.field "Request", .field "RiskScore"]⟩) (.literal (.int 9)) := by decide +kernel
  refine ⟨?_, ?_⟩
  · intro a inA b inB _
    rw [one a inA, one b inB]
  · intro a inA b inB _ _
    rw [one a inA, one b inB]

end MiniWaf.Rete
