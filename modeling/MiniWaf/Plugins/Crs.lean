import MiniWaf.Rete.Engine

/-! The CRS plugin: the score and the matched tags of the CRS runtime as functions. -/

set_option autoImplicit false

namespace MiniWaf

open Grl Rete

structure CrsResult where
  inboundScore : Int64
  matchedTags : List String

/-- A loaded ruleset, as the function its runtime computes. -/
structure CrsRuleset where
  evaluate : RequestContext → CrsResult

namespace CrsRuleset

variable (ruleset : CrsRuleset)

def register (registry : FunctionRegistry) : FunctionRegistry :=
  (registry.register "crs_score" fun ctx _ => .int (ruleset.evaluate ctx).inboundScore).register
    "crs_match" fun ctx args => .bool (firstText args ∈ (ruleset.evaluate ctx).matchedTags)

/-- The plugin keeps the default `enrich`, which does nothing. -/
def plugin : Plugin := ⟨"crs", ruleset.register, id⟩

end CrsRuleset

end MiniWaf
