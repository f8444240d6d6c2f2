import MiniWaf.Context
import MiniWaf.Grl.Functions

/-! Function registry: context-aware functions by name, built-ins as the fallback. -/

set_option autoImplicit false

namespace MiniWaf.Grl

/-- A registered closure; whatever it captured is part of the function. -/
abbrev CtxFn := RequestContext → List Value → Value

structure FunctionRegistry where
  fns : String → Option CtxFn

namespace FunctionRegistry

def new : FunctionRegistry := ⟨fun _ => none⟩

def register (registry : FunctionRegistry) (name : String) (f : CtxFn) : FunctionRegistry :=
  ⟨Function.update registry.fns name (some f)⟩

def call (platform : Platform) (registry : FunctionRegistry) (name : String) (ctx : RequestContext)
    (args : List Value) : Value :=
  match registry.fns name with
  | some f => f ctx args
  | none => dispatch platform name args

@[simp] theorem register_self (registry : FunctionRegistry) (name : String) (f : CtxFn) :
    (registry.register name f).fns name = some f := by
  simp [register]

@[simp] theorem register_of_ne (registry : FunctionRegistry) (name other : String) (f : CtxFn)
    (ne : other ≠ name) : (registry.register name f).fns other = registry.fns other := by
  simp [register, Function.update_of_ne ne]

end FunctionRegistry

def registerContextDefaults (platform : Platform) (registry : FunctionRegistry) : FunctionRegistry :=
  ((registry.register "header_count" fun ctx _ => .int ctx.headerCount).register
    "has_header" fun ctx args => .bool (ctx.hasHeader platform (argStr args 0))).register
    "is_path_under" fun ctx args => .bool (ctx.isPathUnder (argStr args 0))

end MiniWaf.Grl
