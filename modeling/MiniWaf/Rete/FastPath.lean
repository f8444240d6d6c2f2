import MiniWaf.Rete.Interpreter

/-! The regex compiled into an alpha node, against the call it stands for. The node
asks no registry, so an override of `matches` goes unheard.
-/

set_option autoImplicit false

namespace MiniWaf.Rete

open Grl

variable (platform : Platform)

/-- A registered `matches`, if there is one, answers a compiled call as the call's regex does. -/
def OverrideAgrees (wm : WorkingMemory) (e : Expr) : Prop :=
  ∀ haystack pat re f, e = .call "matches" [haystack, .literal (.str pat)] → platform.regexNew pat = some re →
    wm.registry.fns "matches" = some f →
      (f wm.fact [evalExpr platform wm haystack, .str pat]).asBool = re (evalExpr platform wm haystack).asStr

variable {platform} {wm : WorkingMemory}

theorem compileAlpha_some {e : Expr} {compiled : CompiledAlpha}
    (shape : Network.compileAlpha platform e = some compiled) :
    ∃ haystack pat re, e = .call "matches" [haystack, .literal (.str pat)] ∧ platform.regexNew pat = some re ∧
      compiled = .matchesRegex haystack re := by
  unfold Network.compileAlpha at shape
  split at shape
  · rename_i haystack pat
    obtain ⟨re, valid, rfl⟩ := Option.map_eq_some_iff.mp shape
    exact ⟨haystack, pat, re, rfl, valid, rfl⟩
  · cases shape

theorem compileAlpha_matches {pat : String} {re : String → Bool} (valid : platform.regexNew pat = some re) (haystack : Expr) :
    Network.compileAlpha platform (.call "matches" [haystack, .literal (.str pat)]) = some (.matchesRegex haystack re) := by
  simp [Network.compileAlpha, valid]

theorem evalAlpha_regex {node : AlphaNode} {haystack : Expr} {re : String → Bool}
    (compiled : node.compiled = some (.matchesRegex haystack re)) :
    evalAlpha platform wm node = re (evalExpr platform wm haystack).asStr := by
  rw [evalAlpha, compiled]
  dsimp only
  cases evalExpr platform wm haystack <;> rfl

/-- The call itself asks the registry first. -/
theorem truth_matches_call (haystack : Expr) (pat : String) :
    truth platform wm (.call "matches" [haystack, .literal (.str pat)]) =
      match wm.registry.fns "matches" with
      | some f => (f wm.fact [evalExpr platform wm haystack, .str pat]).asBool
      | none => platform.isMatch pat (evalExpr platform wm haystack).asStr := by
  rw [truth, evalExpr, evalArgs_eq_map, FunctionRegistry.call]
  cases wm.registry.fns "matches" with
  | some f => simp [evalExpr]
  | none => simp [evalExpr, dispatch, fnMatches, argStr, Value.asStr]

/-- The alpha node has its expression's truth exactly where an override, if any, agrees with the regex. -/
theorem fast_path_iff (platform : Platform) {rules : List RuleAst} {node : AlphaNode}
    (member : node ∈ (Network.compile platform rules).alphas) (wm : WorkingMemory) :
    evalAlpha platform wm node = truth platform wm node.expr ↔ OverrideAgrees platform wm node.expr := by
  obtain ⟨i, at_i⟩ := List.getElem?_of_mem member
  obtain ⟨-, -, compiled⟩ := (wellFormed_compile platform rules).nodes i node at_i
  cases shape : Network.compileAlpha platform node.expr with
  | none =>
    have plain : evalAlpha platform wm node = truth platform wm node.expr := by
      rw [evalAlpha, compiled, shape]
      rfl
    refine iff_of_true plain ?_
    intro haystack pat re f same valid _
    rw [same, compileAlpha_matches valid] at shape
    cases shape
  | some alpha =>
    obtain ⟨haystack, pat, re, same, valid, rfl⟩ := compileAlpha_some shape
    have isMatch : ∀ s, platform.isMatch pat s = re s := by
      intro s
      rw [Platform.isMatch, valid]
    rw [evalAlpha_regex (compiled.trans shape), same, truth_matches_call]
    cases override : wm.registry.fns "matches" with
    | none =>
      refine iff_of_true (isMatch _).symm ?_
      intro _ _ _ f _ _ registered
      rw [override] at registered
      cases registered
    | some f =>
      constructor
      · intro agrees haystack' pat' re' f' same' valid' registered
        obtain ⟨rfl, rfl⟩ : haystack = haystack' ∧ pat = pat' := by simpa using same'
        rw [valid, Option.some.injEq] at valid'
        rw [override, Option.some.injEq] at registered
        rw [← valid', ← registered]
        exact agrees.symm
      · intro agrees
        exact (agrees haystack pat re f rfl valid override).symm

def searchPlatform : Platform := { Platform.plain with regexNew := fun pat => some fun s => Text.containsText pat.toList s.toList }

def adminLeaf : Expr := .call "matches" [.path ⟨[.field "Request", .field "Path"]⟩, .literal (.str "admin")]

def adminRules : List RuleAst := [⟨"admin", 0, adminLeaf, [.call ⟨"block", []⟩]⟩]

def adminNode : AlphaNode := ⟨0, adminLeaf, printExpr searchPlatform adminLeaf, Network.compileAlpha searchPlatform adminLeaf⟩

theorem fast_path_built_in :
    evalAlpha searchPlatform (.new (.bare "GET" "/admin") .new) adminNode =
      truth searchPlatform (.new (.bare "GET" "/admin") .new) adminNode.expr := by
  have member : adminNode ∈ (Network.compile searchPlatform adminRules).alphas := List.mem_singleton_self adminNode
  apply (fast_path_iff searchPlatform member _).mpr
  intro _ _ _ f _ _ registered
  cases registered

/-- A plugin's `matches` that finds everything is not asked. -/
theorem override_ignored :
    let wm : WorkingMemory := .new (.bare "GET" "/") (FunctionRegistry.new.register "matches" fun _ _ => .bool true)
    (Network.compile searchPlatform adminRules).alphas.map (fun node => (node.expr, evalAlpha searchPlatform wm node)) =
      [(adminLeaf, false)] ∧ truth searchPlatform wm adminLeaf = true := by
  decide +kernel

end MiniWaf.Rete
