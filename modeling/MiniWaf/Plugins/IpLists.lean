import MiniWaf.Rete.Engine

/-! The IP list plugin: blacklist and whitelist lookups as functions and as extensions. -/

set_option autoImplicit false

namespace MiniWaf

open Grl Rete

/-- The two address sets, by the text of an address; a text that is no address is in neither. -/
structure IpListStore where
  blacklist : String → Bool
  whitelist : String → Bool

namespace IpListStore

def isWhitelisted (store : IpListStore) (ip : String) : Bool := store.whitelist ip

/-- The whitelist overrides the blacklist. -/
def isBlacklisted (store : IpListStore) (ip : String) : Bool := !store.whitelist ip && store.blacklist ip

def argumentOr (ctx : RequestContext) (args : List Value) : String := (args.head?.map Value.asStr).getD ctx.clientIp

variable (store : IpListStore)

def register (registry : FunctionRegistry) : FunctionRegistry :=
  (registry.register "ip_in_blacklist" fun ctx args => .bool (store.isBlacklisted (argumentOr ctx args))).register
    "ip_in_whitelist" fun ctx args => .bool (store.isWhitelisted (argumentOr ctx args))

def boolText (b : Bool) : String := if b then "true" else "false"

def enrich (ctx : RequestContext) : RequestContext :=
  let extensions := ctx.extensions.insert "blacklisted" (boolText (store.isBlacklisted ctx.clientIp))
  { ctx with extensions := extensions.insert "whitelisted" (boolText (store.isWhitelisted ctx.clientIp)) }

def plugin : Plugin := ⟨"blacklist", store.register, store.enrich⟩

end IpListStore

end MiniWaf
