import MiniWaf.Rete.Engine

/-! The geo-blocking plugin: the country of a request, from its headers or from the
country database, and the functions that read it.
-/

set_option autoImplicit false

namespace MiniWaf

open Grl Rete

def defaultCountryHeaders : List String := ["cf-ipcountry", "x-country", "x-geoip-country", "x-geo-country"]

structure GeoPlugin where
  /-- The country database, as the ISO code it has for the text of an address;
  nothing where the text is no address or the record has no code. -/
  reader : Option (String → Option String)
  /-- In lower case. -/
  extraHeaders : List String
  /-- In upper case. -/
  blockedCountries : List String

namespace GeoPlugin

variable (platform : Platform)

def new (reader : Option (String → Option String)) (extraHeaders blockedCountries : List String) : GeoPlugin :=
  ⟨reader, extraHeaders.map platform.toLowercase, blockedCountries.map platform.toUppercase⟩

variable (geo : GeoPlugin)

/-- The upper-cased code of an address, empty when there is none. -/
def lookupIp (ip : String) : String :=
  match geo.reader.bind fun reader => reader (String.ofList (Text.trim ip.toList)) with
  | some code => platform.toUppercase code
  | none => ""

/-- The country a header names; a dash and `XX` stand for no country. -/
def headerCountry (ctx : RequestContext) (name : String) : Option String :=
  match ctx.headers.entries.find? fun e => platform.toLowercase e.1 = name with
  | some e =>
    let v := platform.toUppercase (String.ofList (Text.trim e.2.toList))
    if v ≠ "" ∧ v ≠ "-" ∧ v ≠ "XX" then some v else none
  | none => none

def countryFromHeaders (ctx : RequestContext) : Option String :=
  (defaultCountryHeaders ++ geo.extraHeaders).findSome? (headerCountry platform ctx)

def country (ctx : RequestContext) : String := (geo.countryFromHeaders platform ctx).getD (geo.lookupIp platform ctx.clientIp)

def enrich (ctx : RequestContext) : RequestContext :=
  { ctx with extensions := ctx.extensions.insert "geo.country" (geo.country platform ctx) }

def storedCountry (ctx : RequestContext) : String := (ctx.extensions.get "geo.country").getD ""

def getCountry (ctx : RequestContext) (args : List Value) : Value :=
  match args with
  | ip :: _ => .str (if ip.asStr ≠ "" then geo.lookupIp platform ip.asStr else storedCountry ctx)
  | [] => .str (storedCountry ctx)

def geoBlocked (ctx : RequestContext) : Bool :=
  storedCountry ctx ≠ "" && storedCountry ctx ∈ geo.blockedCountries

def register (registry : FunctionRegistry) : FunctionRegistry :=
  (registry.register "GetCountry" (geo.getCountry platform)).register "geo_blocked" fun ctx _ => .bool (geo.geoBlocked ctx)

@[simp] theorem register_blocked (registry : FunctionRegistry) :
    (geo.register platform registry).fns "geo_blocked" = some fun ctx _ => .bool (geo.geoBlocked ctx) := by
  simp [register]

def plugin : Plugin := ⟨"geo", geo.register platform, geo.enrich platform⟩

@[simp] theorem storedCountry_enrich (ctx : RequestContext) :
    storedCountry (geo.enrich platform ctx) = geo.country platform ctx := by
  simp [storedCountry, enrich]

def fromKp : RequestContext := { RequestContext.bare "GET" "/" with headers := ⟨[("cf-ipcountry", "kp")], by simp⟩ }

theorem country_fromKp : geo.country platform fromKp = "KP" := by
  have lower : platform.toLowercase "cf-ipcountry" = "cf-ipcountry" := by
    rw [Platform.toLowercase, if_pos (by decide)]
    decide
  have upper : platform.toUppercase "kp" = "KP" := by
    rw [Platform.toUppercase, if_pos (by decide)]
    decide
  have trimmed : String.ofList (Text.trim ['k', 'p']) = "kp" := by decide
  have header : headerCountry platform fromKp "cf-ipcountry" = some "KP" := by
    simp [headerCountry, fromKp, lower, upper, trimmed]
  rw [country, countryFromHeaders, defaultCountryHeaders, List.cons_append, List.findSome?_cons, header]
  rfl

end GeoPlugin

end MiniWaf
