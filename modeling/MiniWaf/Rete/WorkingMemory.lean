import Mathlib.Data.List.Find
import MiniWaf.Grl.Registry
import MiniWaf.Std.Utf8

/-! Per-request state of the rule engine: the fact, the assignment overlay and
the outcome, with path resolution against the live request.
-/

set_option autoImplicit false

namespace MiniWaf.Rete

open Grl

inductive ChallengeReq where
  | js
  | pow
  deriving DecidableEq, Repr

structure Outcome where
  blockReason : Option String
  allow : Bool
  challenge : Option ChallengeReq
  rateLimitSecs : Option UInt64
  logMessages : List String
  matchedRules : List String
  riskDelta : Int64
  deriving DecidableEq, Repr

def Outcome.default : Outcome := ⟨none, false, none, none, [], [], 0⟩

structure WorkingMemory where
  fact : RequestContext
  /-- Assignments overlay, read before `fact`. -/
  scratch : Path → Option Value
  outcome : Outcome
  registry : FunctionRegistry

def hexVal (b : UInt8) : Option UInt8 :=
  if 0x30 ≤ b && b ≤ 0x39 then some (b - 0x30)
  else if 0x61 ≤ b && b ≤ 0x66 then some (b - 0x61 + 10)
  else if 0x41 ≤ b && b ≤ 0x46 then some (b - 0x41 + 10)
  else none

/-- The decoding loop; the guard `i + 2 < len` leaves a truncated escape as it is. -/
def percentDecode : List UInt8 → List UInt8
  | [] => []
  | b :: rest =>
    if b = 0x25 then
      match rest with
      | hi :: lo :: tail =>
        match hexVal hi, hexVal lo with
        | some h, some l => ((h <<< 4) ||| l) :: percentDecode tail
        | _, _ => b :: percentDecode (hi :: lo :: tail)
      | short => b :: percentDecode short
    else b :: percentDecode rest

def urlDecode (s : String) : String :=
  String.ofList (Text.fromUtf8Lossy (percentDecode (Text.utf8 s.toList)))

theorem percentDecode_of_none {bytes : List UInt8} (none : 0x25 ∉ bytes) : percentDecode bytes = bytes := by
  induction bytes with
  | nil => rfl
  | cons b rest ih =>
    have plain : b ≠ 0x25 := fun same => none (same ▸ List.mem_cons_self)
    rw [percentDecode.eq_def]
    simp only [if_neg plain]
    rw [ih fun member => none (List.mem_cons_of_mem b member)]

theorem urlDecode_of_none {s : String} (none : '%' ∉ s.toList) : urlDecode s = s := by
  have unescaped : (0x25 : UInt8) ∉ Text.utf8 s.toList := by
    intro member
    obtain ⟨c, inText, inBytes⟩ := List.mem_flatMap.mp member
    have percent : c.toNat = 0x25 := Text.char_of_ascii_byte inBytes (by decide)
    apply none
    have same : c = '%' := Char.toNat_inj.mp percent
    exact same ▸ inText
  rw [urlDecode, percentDecode_of_none unescaped, Text.fromUtf8Lossy_utf8, String.ofList_toList]

/-- Like `urlDecode`, with `+` read as a space first. -/
def formDecode (s : String) : String :=
  urlDecode (String.ofList (Text.replace ['+'] [' '] s.toList))

variable (platform : Platform)

/-- The first header, in iteration order, whose lower-cased name is the wanted one. -/
def findHeader (headers : AssocMap String String) (name : String) : String :=
  let key := platform.toLowercase name
  ((headers.entries.find? fun e => platform.toLowercase e.1 = key).map Prod.snd).getD ""

def LowerKeys (headers : AssocMap String String) : Prop := ∀ e ∈ headers.entries, platform.toLowercase e.1 = e.1

variable {platform} in
theorem findHeader_of_lower {headers : AssocMap String String} (lower : LowerKeys platform headers) (name : String) :
    findHeader platform headers name = (headers.get (platform.toLowercase name)).getD "" := by
  have same : ∀ e ∈ headers.entries,
      decide (platform.toLowercase e.1 = platform.toLowercase name) = decide (e.1 = platform.toLowercase name) := by
    intro e member
    rw [lower e member]
  rw [findHeader, AssocMap.get, List.find?_congr same]

def bodyText (body : Option (List UInt8)) : String :=
  match body with
  | some bytes => String.ofList (Text.fromUtf8Lossy bytes)
  | none => ""

/-- Resolve a path against the live request; unknown paths are `Null`. -/
def resolve (path : Path) (ctx : RequestContext) : Value :=
  match path.segments with
  | .field "Request" :: .field field :: rest =>
    match field with
    | "Method" => .str ctx.method
    | "Path" => .str (urlDecode ctx.path)
    | "RawPath" => .str ctx.path
    | "Query" => .str (formDecode (ctx.query.getD ""))
    | "RawQuery" => .str (ctx.query.getD "")
    | "Body" => .str (bodyText ctx.body)
    | "ClientIp" => .str ctx.clientIp
    | "RequestId" => .str ctx.requestId
    | "SessionId" => .str (ctx.sessionId.getD "")
    | "DeviceFp" => .str (ctx.deviceFp.getD "")
    | "Tier" => .str (platform.toLowercase ctx.tier.debugName)
    | "RiskScore" => .int (Int64.ofInt ctx.riskScore.toNat)
    | "Xff" => .str (ctx.xffHeader.getD "")
    | "Headers" =>
      match rest with
      | .index name :: _ => .str (findHeader platform ctx.headers name)
      | _ => .null
    | "Ext" =>
      match rest with
      | .index key :: _ => .str ((ctx.extensions.get key).getD "")
      | _ => .null
    | _ => .null
  | _ => .null

namespace WorkingMemory

def new (fact : RequestContext) (registry : FunctionRegistry) : WorkingMemory :=
  ⟨fact, fun _ => none, .default, registry⟩

def readPath (wm : WorkingMemory) (path : Path) : Value :=
  match wm.scratch path with
  | some v => v
  | none => resolve platform path wm.fact

def writePath (wm : WorkingMemory) (path : Path) (value : Value) : WorkingMemory :=
  { wm with scratch := Function.update wm.scratch path (some value) }

end WorkingMemory

example : urlDecode "/%2e%2E/a%2" = "/../a%2" := by decide +kernel

end MiniWaf.Rete
