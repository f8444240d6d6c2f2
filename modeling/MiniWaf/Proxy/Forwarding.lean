import MiniWaf.Pipeline.Inbound
import MiniWaf.Proxy.Routing

/-! One inbound request: the context its rules see, and the request that is sent upstream. -/

set_option autoImplicit false

namespace MiniWaf.Proxy

open Grl Rete

/-- A line of a `HeaderMap`: the lower-case name and the raw bytes. -/
structure HeaderLine where
  name : String
  value : List UInt8
  deriving DecidableEq, Repr

def visible (b : UInt8) : Bool := b = 0x09 || (0x20 ≤ b && b < 0x7F)

/-- `HeaderValue::to_str`. -/
def toStr (value : List UInt8) : Option String :=
  if value.all visible then some (String.ofList (value.map fun b => Char.ofNat b.toNat)) else none

structure InboundRequest where
  method : String
  path : String
  query : Option String
  headers : List HeaderLine
  /-- Nothing if reading the body fails. -/
  body : Option (List UInt8)

/-- The headers as the rules get them: collected into a map, with no text for values that are not visible. -/
def collectHeaders (headers : List HeaderLine) : AssocMap String String :=
  headers.foldl (fun map line => map.insert line.name ((toStr line.value).getD "")) .empty

def requestContext (requestId : String) (arrivedAtMs : Int64) (raw : InboundRequest) (bodyBytes : List UInt8) :
    RequestContext where
  requestId
  arrivedAtMs
  method := raw.method
  path := raw.path
  query := raw.query
  tier := .catchAll
  clientIp := "0.0.0.0"
  xffHeader := (collectHeaders raw.headers).get "x-forwarded-for"
  headers := collectHeaders raw.headers
  body := if bodyBytes.isEmpty then none else some bodyBytes
  sessionId := none
  deviceFp := none
  riskScore := 0
  matchedRuleId := none
  extensions := .empty

structure Uri where
  host : Option String
  port : Option UInt16

structure Hyper where
  parseUri : String → Option Uri
  headerValue : String → Option (List UInt8)

structure OutboundRequest where
  uri : String
  method : String
  headers : List HeaderLine
  body : List UInt8
  deriving DecidableEq, Repr

def removeHeader (name : String) (headers : List HeaderLine) : List HeaderLine := headers.filter (·.name ≠ name)

/-- `HeaderMap::insert`: the name's other lines go. -/
def insertHeader (name : String) (value : List UInt8) (headers : List HeaderLine) : List HeaderLine :=
  removeHeader name headers ++ [⟨name, value⟩]

/-- Hop-by-hop headers go, and the host becomes the upstream's. -/
def forwardedHeaders (host : List UInt8) (headers : List HeaderLine) : List HeaderLine :=
  insertHeader "host" host (removeHeader "upgrade" (removeHeader "transfer-encoding"
    (removeHeader "keep-alive" (removeHeader "connection" headers))))

def forward (hyper : Hyper) (raw : InboundRequest) (bodyBytes : List UInt8) (upstreamBase path : String)
    (query : Option String) : Option OutboundRequest := do
  let upstreamUri ← hyper.parseUri upstreamBase
  let addr := upstreamUri.host.getD "127.0.0.1" ++ ":" ++ toString (upstreamUri.port.getD 80).toNat
  let target := match query with
    | some q => upstreamBase ++ path ++ "?" ++ q
    | none => upstreamBase ++ path
  let _ ← hyper.parseUri target
  let host ← hyper.headerValue addr
  pure ⟨target, raw.method, forwardedHeaders host raw.headers, bodyBytes⟩

structure ProxyState where
  engine : Engine
  rules : List RoutingRule
  backends : AssocMap String String
  upstream : String

inductive Reply where
  /-- The request goes upstream; the client gets the upstream's answer. -/
  | forwarded (request : OutboundRequest)
  | error (status : Nat) (message : String)
  | rateLimited (retryAfterSecs : UInt64)
  deriving DecidableEq, Repr

def handleRequest (platform : Platform) (hyper : Hyper) (state : ProxyState) (requestId : String)
    (arrivedAtMs : Int64) (raw : InboundRequest) : Reply :=
  match raw.body with
  | none => .error 400 "failed to read request body"
  | some bodyBytes =>
    let (ctx, decision) := runInbound platform state.engine (requestContext requestId arrivedAtMs raw bodyBytes)
    match decision with
    | .allow =>
      let upstream := resolveUpstream state.rules state.backends state.upstream ctx.path
      match forward hyper raw bodyBytes upstream raw.path raw.query with
      | some request => .forwarded request
      | none => .error 502 "upstream unavailable"
    | .block reason => .error 403 ("blocked: " ++ reason)
    | .challenge _ => .error 403 "challenge required"
    | .rateLimit retryAfterSecs => .rateLimited retryAfterSecs

-- What the rules see of a header line

def Inspected (headers : AssocMap String String) (line : HeaderLine) : Prop :=
  ∃ text, headers.get line.name = some text ∧ Text.utf8 text.toList = line.value

def passedOn (name : String) : Bool :=
  name ∉ ["connection", "keep-alive", "transfer-encoding", "upgrade", "host"]

/-- The line can be read and no other line of its name says something else. -/
def Faithful (headers : List HeaderLine) (line : HeaderLine) : Prop :=
  line.value.all visible = true ∧ ∀ other ∈ headers, other.name = line.name → other.value = line.value

theorem visible_ascii {b : UInt8} (seen : visible b = true) : b.toNat < 128 := by
  rw [visible, Bool.or_eq_true, decide_eq_true_eq, Bool.and_eq_true, decide_eq_true_eq, decide_eq_true_eq,
    UInt8.lt_iff_toNat_lt] at seen
  rcases seen with rfl | ⟨-, below⟩
  · decide
  · exact Nat.lt_trans below (by decide)

theorem utf8_of_toStr {value : List UInt8} {text : String} (read : toStr value = some text) :
    value.all visible = true ∧ Text.utf8 text.toList = value := by
  unfold toStr at read
  split at read
  · rename_i seen
    refine ⟨seen, ?_⟩
    rw [← Option.some.inj read, String.toList_ofList, Text.utf8, List.flatMap_map]
    rw [List.flatMap_congr fun b member =>
      Text.encodeChar_ascii (visible_ascii (List.all_eq_true.mp seen b member))]
    simp
  · cases read

/-- The last line of a name is the one that stays in the map. -/
theorem get_collectHeaders (headers : List HeaderLine) (name : String) : (collectHeaders headers).get name =
    (headers.reverse.find? (·.name = name)).map fun line => (toStr line.value).getD "" := by
  induction headers using List.reverseRecOn with
  | nil => rfl
  | append_singleton headers line ih =>
    unfold collectHeaders at ih ⊢
    rw [List.foldl_append, List.foldl_cons, List.foldl_nil, List.reverse_append, List.reverse_singleton,
      List.singleton_append]
    by_cases same : line.name = name
    · subst same
      rw [AssocMap.get_insert_self, List.find?_cons_of_pos (by simp)]
      rfl
    · rw [AssocMap.get_insert_of_ne _ _ _ _ (Ne.symm same), List.find?_cons_of_neg (by simpa using same), ih]

theorem mem_removeHeader {name : String} {headers : List HeaderLine} {line : HeaderLine} :
    line ∈ removeHeader name headers ↔ line ∈ headers ∧ line.name ≠ name := by
  rw [removeHeader, List.mem_filter, decide_eq_true_eq]

theorem mem_insertHeader_other {name : String} {value : List UInt8} {headers : List HeaderLine} {line : HeaderLine}
    (other : line.name ≠ name) : line ∈ insertHeader name value headers ↔ line ∈ headers := by
  have notNew : line ≠ ⟨name, value⟩ := fun same => other (congrArg HeaderLine.name same)
  rw [insertHeader, List.mem_append, List.mem_singleton, or_iff_left notNew, mem_removeHeader, and_iff_left other]

theorem mem_forwardedHeaders {host : List UInt8} {headers : List HeaderLine} {line : HeaderLine}
    (notHost : line.name ≠ "host") :
    line ∈ forwardedHeaders host headers ↔ line ∈ headers ∧ passedOn line.name = true := by
  rw [forwardedHeaders, mem_insertHeader_other notHost, mem_removeHeader, mem_removeHeader, mem_removeHeader,
    mem_removeHeader]
  have hopByHop : passedOn line.name = true ↔ line.name ≠ "connection" ∧ line.name ≠ "keep-alive" ∧
      line.name ≠ "transfer-encoding" ∧ line.name ≠ "upgrade" := by
    simp [passedOn, notHost]
  rw [hopByHop, and_assoc, and_assoc, and_assoc]

theorem text_of_line {headers : List HeaderLine} {line : HeaderLine} (member : line ∈ headers) :
    ∃ last ∈ headers, last.name = line.name ∧
      (collectHeaders headers).get line.name = some ((toStr last.value).getD "") := by
  cases found : headers.reverse.find? (·.name = line.name) with
  | none =>
    have absent := List.find?_eq_none.mp found line (List.mem_reverse.mpr member)
    simp at absent
  | some last =>
    refine ⟨last, List.mem_reverse.mp (List.mem_of_find?_eq_some found), ?_, ?_⟩
    · simpa using List.find?_some found
    · rw [get_collectHeaders, found]
      rfl

theorem Inspected.value_eq {headers : List HeaderLine} {line last : HeaderLine}
    (inspected : Inspected (collectHeaders headers) line)
    (text : (collectHeaders headers).get line.name = some ((toStr last.value).getD "")) :
    line.value.all visible = true := by
  obtain ⟨found, get, bytes⟩ := inspected
  obtain rfl := Option.some.inj (get.symm.trans text)
  cases read : toStr last.value with
  | none =>
    rw [read] at bytes
    rw [← bytes]
    rfl
  | some text =>
    obtain ⟨seen, whole⟩ := utf8_of_toStr read
    rw [read] at bytes
    rw [← bytes]
    exact whole ▸ seen

theorem inspected_iff {headers : List HeaderLine} :
    (∀ line ∈ headers, passedOn line.name = true → Inspected (collectHeaders headers) line) ↔
      ∀ line ∈ headers, passedOn line.name = true → Faithful headers line := by
  constructor
  · intro inspected line member passed
    obtain ⟨last, -, -, text⟩ := text_of_line member
    refine ⟨(inspected line member passed).value_eq text, ?_⟩
    intro other otherMember sameName
    obtain ⟨first, get, bytes⟩ := inspected line member passed
    obtain ⟨second, get', bytes'⟩ := inspected other otherMember (sameName ▸ passed)
    rw [sameName, get] at get'
    rw [← bytes, ← bytes', Option.some.inj get']
  · intro faithful line member passed
    obtain ⟨seen, only⟩ := faithful line member passed
    obtain ⟨last, lastMember, sameName, text⟩ := text_of_line member
    have read : toStr line.value = some _ := if_pos seen
    rw [only last lastMember sameName, read] at text
    exact ⟨_, text, (utf8_of_toStr read).2⟩

theorem headers_of_forward {hyper : Hyper} {raw : InboundRequest} {bodyBytes : List UInt8}
    {upstreamBase path : String} {query : Option String} {request : OutboundRequest}
    (sent : forward hyper raw bodyBytes upstreamBase path query = some request) :
    ∃ host, request.headers = forwardedHeaders host raw.headers := by
  simp only [forward, Option.bind_eq_bind, Option.bind_eq_some_iff] at sent
  obtain ⟨upstreamUri, -, target, -, host, -, built⟩ := sent
  exact ⟨host, (Option.some.inj built) ▸ rfl⟩

/-- A request goes upstream after it was allowed, with its own headers. -/
theorem forwarded_of_handleRequest {platform : Platform} {hyper : Hyper} {state : ProxyState} {requestId : String}
    {arrivedAtMs : Int64} {raw : InboundRequest} {bodyBytes : List UInt8} (received : raw.body = some bodyBytes)
    {request : OutboundRequest}
    (forwards : handleRequest platform hyper state requestId arrivedAtMs raw = .forwarded request) :
    (runInbound platform state.engine (requestContext requestId arrivedAtMs raw bodyBytes)).2 = .allow ∧
      ∃ host, request.headers = forwardedHeaders host raw.headers := by
  simp only [handleRequest, received] at forwards
  generalize runInbound platform state.engine (requestContext requestId arrivedAtMs raw bodyBytes) = ran at forwards ⊢
  obtain ⟨ctx, decision⟩ := ran
  cases decision with
  | allow =>
    refine ⟨rfl, ?_⟩
    simp only at forwards
    split at forwards
    · rename_i sent
      cases forwards
      exact headers_of_forward sent
    · cases forwards
  | block reason => cases forwards
  | challenge kind => cases forwards
  | rateLimit secs => cases forwards

/-- A request that goes upstream has been inspected line by line exactly if every line that is passed on
can be read and is the only one of its name. -/
theorem forwarded_inspected_iff {platform : Platform} {hyper : Hyper} {state : ProxyState} {requestId : String}
    {arrivedAtMs : Int64} {raw : InboundRequest} {bodyBytes : List UInt8} (received : raw.body = some bodyBytes)
    {request : OutboundRequest}
    (forwards : handleRequest platform hyper state requestId arrivedAtMs raw = .forwarded request) :
    (∀ line ∈ request.headers, line.name ≠ "host" →
        Inspected (requestContext requestId arrivedAtMs raw bodyBytes).headers line) ↔
      ∀ line ∈ raw.headers, passedOn line.name = true → Faithful raw.headers line := by
  obtain ⟨-, host, headers⟩ := forwarded_of_handleRequest received forwards
  rw [headers, ← inspected_iff]
  constructor
  · intro inspected line member passed
    have notHost : line.name ≠ "host" := by
      rintro same
      rw [same] at passed
      exact absurd passed (by decide)
    exact inspected line ((mem_forwardedHeaders notHost).mpr ⟨member, passed⟩) notHost
  · intro inspected line member notHost
    obtain ⟨inRaw, passed⟩ := (mem_forwardedHeaders notHost).mp member
    exact inspected line inRaw passed

def openProxy : ProxyState := ⟨.new .plain (.compile .plain []), [], .empty, "http://10.0.0.1:8080"⟩

def plainHyper : Hyper := ⟨fun _ => some ⟨none, none⟩, fun s => some (Text.utf8 s.toList)⟩

def requestWith (headers : List HeaderLine) : InboundRequest := ⟨"GET", "/", none, headers, some []⟩

def bytes (s : String) : List UInt8 := Text.utf8 s.toList

def plainHeaders : List HeaderLine := [⟨"host", bytes "shop"⟩, ⟨"accept", bytes "*/*"⟩, ⟨"connection", bytes "close"⟩]

theorem forwarded_inspected_plain : ∃ request,
    handleRequest .plain plainHyper openProxy "id" 0 (requestWith plainHeaders) = .forwarded request ∧
      ((∀ line ∈ request.headers, line.name ≠ "host" →
          Inspected (requestContext "id" 0 (requestWith plainHeaders) []).headers line) ↔
        ∀ line ∈ plainHeaders, passedOn line.name = true → Faithful plainHeaders line) := by
  obtain ⟨request, sent⟩ : ∃ request,
      handleRequest .plain plainHyper openProxy "id" 0 (requestWith plainHeaders) = .forwarded request := ⟨_, rfl⟩
  have received : (requestWith plainHeaders).body = some [] := rfl
  exact ⟨request, sent, forwarded_inspected_iff received sent⟩

def smuggled : List HeaderLine := [⟨"x-note", bytes "<script>"⟩, ⟨"x-note", bytes "hello"⟩, ⟨"x-raw", [0x3C, 0xE9]⟩]

/-- The first and the last line go upstream, and the rules see neither. -/
theorem forwarded_uninspected : ∃ request,
    handleRequest .plain plainHyper openProxy "id" 0 (requestWith smuggled) = .forwarded request ∧
      ∀ line ∈ [(⟨"x-note", bytes "<script>"⟩ : HeaderLine), ⟨"x-raw", [0x3C, 0xE9]⟩],
        line ∈ request.headers ∧ line.name ≠ "host" ∧
          ¬ Inspected (requestContext "id" 0 (requestWith smuggled) []).headers line := by
  refine ⟨_, rfl, ?_⟩
  intro line member
  rcases List.mem_cons.mp member with rfl | member
  · refine ⟨by decide +kernel, by decide +kernel, ?_⟩
    rintro ⟨text, get, whole⟩
    obtain rfl := Option.some.inj ((by decide +kernel : (collectHeaders smuggled).get "x-note" = some "hello").symm.trans get)
    exact absurd whole (by decide +kernel)
  · obtain rfl := List.mem_singleton.mp member
    refine ⟨by decide +kernel, by decide +kernel, ?_⟩
    rintro ⟨text, get, whole⟩
    obtain rfl := Option.some.inj ((by decide +kernel : (collectHeaders smuggled).get "x-raw" = some "").symm.trans get)
    exact absurd whole (by decide +kernel)

end MiniWaf.Proxy
