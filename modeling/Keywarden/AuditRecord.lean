import Keywarden.AuditMatching
import Keywarden.Keys

/-!
# Audit records

`apps/audit/middleware.py`, `apps/audit/utils.py` and the audit of the shell's web sockets:
a request that an event type takes becomes a row of `AuditLog`. The row is made of what the
client sent, each column has its own limit, and an insert that fails is passed over in
silence: what the columns refuse is not recorded.
-/
namespace Keywarden.AuditRecord

open Rows Text Keys AuditMatching

/-! ## The table -/

inductive Source where
  | ui | api | system
  deriving DecidableEq, Repr

/-- The choices of a column, as they are stored. -/
def Source.value : Source → List Char
  | .ui => "ui".toList
  | .api => "api".toList
  | .system => "system".toList

def severityValue : Severity → List Char
  | .info => "info".toList
  | .warning => "warning".toList
  | .error => "error".toList
  | .critical => "critical".toList

/-- The values that metadata are made of. -/
inductive Json where
  | null
  | int (n : Int)
  | str (s : List Char)
  deriving DecidableEq, Repr

abbrev Metadata := List (String × Json)

/-- `AuditLog`; the fields with a default are never set by the audit of requests. -/
structure AuditLog where
  createdAt : Instant
  actor : Option UserId
  eventType : EventTypeId
  message : List Char
  severity : Severity
  source : Source
  targetObjectId : Option (List Char) := none
  objectRepr : List Char := []
  ipAddress : Option (List Char)
  userAgent : List Char
  requestId : List Char
  metadata : Metadata
  deriving DecidableEq, Repr

/-- The database with the tables of the audit. -/
structure AuditDb extends Db where
  eventTypes : Table EventType := .empty
  auditLogs : List AuditLog := []

def noNul (s : List Char) : Bool := !s.contains '\x00'

def Json.noNul : Json → Bool
  | .str s => AuditRecord.noNul s
  | _ => true

def metadataFits (metadata : Metadata) : Bool :=
  metadata.all fun (key, value) => noNul key.toList && value.noNul

/-- How the framework writes an address for the database: in its normal form, which for a
plain address is a plain one. -/
structure InetField where
  prepare : List Char → List Char
  plain_prepare : ∀ ip, IpAddress.plain ip = true → IpAddress.plain (prepare ip) = true

/-- The database takes the row: texts have no NUL and fit their columns, the address is one,
and what the row refers to is stored. -/
def accepts (inet : InetField) (row : AuditLog) (db : AuditDb) : Bool :=
  row.actor.all (fun u => (db.users.find u).isSome) &&
    (db.eventTypes.find row.eventType).isSome &&
    noNul row.message &&
    fitsColumn 16 (severityValue row.severity) &&
    fitsColumn 16 row.source.value &&
    row.targetObjectId.all (fitsColumn 64) &&
    fitsColumn 255 row.objectRepr &&
    row.ipAddress.all (fun ip => IpAddress.plain (inet.prepare ip)) &&
    noNul row.userAgent &&
    fitsColumn 64 row.requestId &&
    metadataFits row.metadata

/-! ## What is read from a request -/

def normalizeIp (U : Unicode) (value : Option (List Char)) : Option (List Char) :=
  let candidate := strip isSpace (value.getD [])
  if candidate = [] then none
  else
    let port := (candidate.dropWhile (· ≠ ':')).drop 1
    let candidate :=
      if candidate.head? = some '[' ∧ ']' ∈ candidate then
        (candidate.drop 1).takeWhile (· ≠ ']')
      else if candidate.count ':' = 1 ∧ port ≠ [] ∧ port.all U.isDigit = true then
        candidate.takeWhile (· ≠ ':')
      else candidate
    (IpAddress.parse candidate).map IpAddress.Address.str

/-- `a or b or ""`. -/
def either (a b : Option (List Char)) : List Char :=
  if a.getD [] ≠ [] then a.getD [] else b.getD []

/-- The first address there is in a list of them. -/
def forwardedIp (U : Unicode) (forwardedFor : Option (List Char)) : Option (List Char) :=
  ((forwardedFor.getD []).splitOn ',').findSome? fun part => normalizeIp U (some part)

/-- What the audit reads of `request.META`. -/
structure Meta where
  httpXRealIp : Option (List Char) := none
  httpXForwardedFor : Option (List Char) := none
  remoteAddr : Option (List Char) := none
  httpXRequestId : Option (List Char) := none
  httpXCorrelationId : Option (List Char) := none
  httpUserAgent : Option (List Char) := none
  queryString : Option (List Char) := none
  deriving DecidableEq, Repr

/-- The user is the one signed in, if any; the route is the one the framework resolved the
path by, if it did. -/
structure Request where
  method : List Char
  pathInfo : List Char
  path : List Char
  route : Option (List Char) := none
  user : Option UserId := none
  headers : Meta := {}
  deriving DecidableEq, Repr

def getClientIp (U : Unicode) (request : Request) : Option (List Char) :=
  ((normalizeIp U request.headers.httpXRealIp).or
    (forwardedIp U request.headers.httpXForwardedFor)).or
    (normalizeIp U request.headers.remoteAddr)

def getRequestId (request : Request) : List Char :=
  either request.headers.httpXRequestId request.headers.httpXCorrelationId

/-- The scope of a web socket; the client is the host of its address. -/
structure Scope where
  path : Option (List Char) := none
  headers : List (List UInt8 × List UInt8) := []
  client : Option (List Char) := none
  deriving DecidableEq, Repr

/-- `bytes.lower`. -/
def lowerByte (b : UInt8) : UInt8 := if 65 ≤ b ∧ b ≤ 90 then b + 32 else b

def latin1Encode (s : String) : List UInt8 := s.toList.map fun c => UInt8.ofNat c.toNat
def latin1Decode (bytes : List UInt8) : List Char := bytes.map fun b => Char.ofNat b.toNat

def getScopeHeader (scope : Scope) (headerName : String) : Option (List Char) :=
  let target := (latin1Encode headerName).map lowerByte
  (scope.headers.find? fun (key, _) => key.map lowerByte = target).map fun (_, value) =>
    latin1Decode value

def getClientIpFromScope (U : Unicode) (scope : Scope) : Option (List Char) :=
  ((normalizeIp U (getScopeHeader scope "x-real-ip")).or
    (forwardedIp U (getScopeHeader scope "x-forwarded-for"))).or
    (normalizeIp U scope.client)

def getRequestIdFromScope (scope : Scope) : List Char :=
  either (getScopeHeader scope "x-request-id") (getScopeHeader scope "x-correlation-id")

def getUserAgentFromScope (scope : Scope) : List Char :=
  (getScopeHeader scope "user-agent").getD []

/-! ## Recording -/

/-- Besides the database, what one process remembers of the catalog. -/
structure State where
  db : AuditDb := {}
  cache : Cache := .clear

structure Env where
  unicode : Unicode
  inet : InetField
  now : Instant
  clock : Monotonic

/-- The event type that takes the request is looked up and the row for it inserted; either
way no failure is reported. -/
def auditAs (env : Env) (endpoint : Endpoint) (ip : Option (List Char))
    (row : EventType → AuditLog) (s : State) : State :=
  match findMatchingEventType env.unicode env.clock endpoint ip s.db.eventTypes s.cache with
  | (none, cache) => { s with cache := cache }
  | (some eventType, cache) =>
    if accepts env.inet (row eventType) s.db then
      { db := { s.db with auditLogs := s.db.auditLogs ++ [row eventType] }, cache := cache }
    else { s with cache := cache }

def resolveRoute (request : Request) (fallback : List Char) : List Char :=
  let route := request.route.getD []
  if route = [] then fallback else if route.head? = some '/' then route else '/' :: route

def apiEndpoint (request : Request) (path : List Char) : Endpoint :=
  ⟨.api, request.method, resolveRoute request path, path⟩

def apiMetadata (request : Request) (path : List Char) (statusCode : Int) (durationMs : Nat)
    (error : Option (List Char)) : Metadata :=
  [("method", .str request.method), ("path", .str path),
    ("route", .str (resolveRoute request path)), ("status_code", .int statusCode),
    ("duration_ms", .int durationMs), ("query_string", .str (request.headers.queryString.getD []))] ++
  if error.getD [] = [] then [] else [("error", .str (error.getD []))]

def apiLog (env : Env) (request : Request) (path : List Char) (statusCode : Int) (durationMs : Nat)
    (error : Option (List Char)) (eventType : EventType) : AuditLog where
  createdAt := env.now
  actor := request.user
  eventType := eventType.id
  message := "API request ".toList ++ request.method ++ ' ' :: resolveRoute request path ++
    " -> ".toList ++ str statusCode
  severity := eventType.defaultSeverity
  source := .api
  ipAddress := getClientIp env.unicode request
  userAgent := request.headers.httpUserAgent.getD []
  requestId := getRequestId request
  metadata := apiMetadata request path statusCode durationMs error

def writeLog (env : Env) (request : Request) (path : List Char) (statusCode : Int)
    (durationMs : Nat) (error : Option (List Char)) (s : State) : State :=
  auditAs env (apiEndpoint request path) (getClientIp env.unicode request)
    (apiLog env request path statusCode durationMs error) s

def isApiRequest (path : List Char) : Bool :=
  path = "/api".toList || "/api/".toList.isPrefixOf path

def skipPrefixes : List (List Char) := ["/api/v1/audit", "/api/v1/user"].map String.toList
def skipSuffixes : List (List Char) := ["/health", "/health/"].map String.toList

def shouldLogRequest (path : List Char) : Bool :=
  isApiRequest path && !skipPrefixes.contains path &&
    !skipPrefixes.any (fun pre => (pre ++ ['/']).isPrefixOf path) &&
    !skipSuffixes.any (·.isSuffixOf path)

/-- The status code of a response, or the name of the exception that was raised. -/
abbrev Response := Except (List Char) Int

/-- `path_info or path`. -/
def requestPath (request : Request) : List Char :=
  if request.pathInfo ≠ [] then request.pathInfo else request.path

/-- `ApiAuditLogMiddleware.__call__`, the clock read before and after the response. -/
def call (env : Env) (getResponse : State → Response × State) (start stop : Monotonic)
    (request : Request) (s : State) : Response × State :=
  let path := requestPath request
  if !shouldLogRequest path then getResponse s
  else
    let durationMs := (stop - start) / 10 ^ 6
    match getResponse s with
    | (.error exc, s) => (.error exc, writeLog env request path 500 durationMs (some exc) s)
    | (.ok statusCode, s) =>
      (.ok statusCode, writeLog env request path statusCode durationMs none s)

/-- What the consumer audits, and what it says about it. -/
inductive Action where
  | connect (serverId : ServerId)
  | disconnect (code : Int) (serverId : Option ServerId)
  deriving DecidableEq, Repr

def Action.name : Action → List Char
  | .connect _ => "connect".toList
  | .disconnect _ _ => "disconnect".toList

def Action.metadata : Action → Metadata
  | .connect serverId => [("server_id", .int serverId)]
  | .disconnect code serverId =>
    [("code", .int code), ("server_id", serverId.elim .null fun id => .int id)]

/-- `dict.update` for keys that the metadata do not have. -/
def combinedMetadata (action : Action) (path : List Char) : Metadata :=
  [("action", .str action.name), ("path", .str path)] ++ action.metadata

def websocketPath (scope : Scope) : List Char := scope.path.getD []

def websocketEndpoint (scope : Scope) : Endpoint :=
  ⟨.websocket, "GET".toList, websocketPath scope, websocketPath scope⟩

def websocketLog (env : Env) (scope : Scope) (user : UserId) (action : Action)
    (eventType : EventType) : AuditLog where
  createdAt := env.now
  actor := some user
  eventType := eventType.id
  message := "WebSocket ".toList ++ action.name ++ ' ' :: websocketPath scope
  severity := eventType.defaultSeverity
  source := .api
  ipAddress := getClientIpFromScope env.unicode scope
  userAgent := getUserAgentFromScope scope
  requestId := getRequestIdFromScope scope
  metadata := combinedMetadata action (websocketPath scope)

def auditWebsocketEvent (env : Env) (scope : Scope) (user : UserId) (action : Action) (s : State) :
    State :=
  auditAs env (websocketEndpoint scope) (getClientIpFromScope env.unicode scope)
    (websocketLog env scope user action) s

/-! ## Requests and connections -/

/-- One audit of a request or of a connection. -/
inductive Event where
  | api (request : Request) (path : List Char) (statusCode : Int) (durationMs : Nat)
      (error : Option (List Char))
  | websocket (scope : Scope) (user : UserId) (action : Action)
  deriving DecidableEq, Repr

namespace Event

def endpoint : Event → Endpoint
  | .api request path _ _ _ => apiEndpoint request path
  | .websocket scope _ _ => websocketEndpoint scope

def clientIp (U : Unicode) : Event → Option (List Char)
  | .api request _ _ _ _ => getClientIp U request
  | .websocket scope _ _ => getClientIpFromScope U scope

def actor : Event → Option UserId
  | .api request _ _ _ _ => request.user
  | .websocket _ user _ => some user

def userAgent : Event → List Char
  | .api request _ _ _ _ => request.headers.httpUserAgent.getD []
  | .websocket scope _ _ => getUserAgentFromScope scope

def requestId : Event → List Char
  | .api request _ _ _ _ => getRequestId request
  | .websocket scope _ _ => getRequestIdFromScope scope

/-- The other texts there are in the request. -/
def texts : Event → List (List Char)
  | .api request path _ _ error =>
    [request.method, path, request.route.getD [], request.headers.queryString.getD [],
      error.getD []]
  | .websocket scope _ _ => [websocketPath scope]

def log (env : Env) : Event → EventType → AuditLog
  | .api request path statusCode durationMs error =>
    apiLog env request path statusCode durationMs error
  | .websocket scope user action => websocketLog env scope user action

def record (env : Env) : Event → State → State
  | .api request path statusCode durationMs error =>
    writeLog env request path statusCode durationMs error
  | .websocket scope user action => auditWebsocketEvent env scope user action

/-- The event type that takes the event. -/
def matched (env : Env) (e : Event) (s : State) : Option EventType :=
  (findMatchingEventType env.unicode env.clock e.endpoint (e.clientIp env.unicode)
    s.db.eventTypes s.cache).1

end Event

/-- Nothing that the client sent is too much for its column: the request id is not too long,
no text has a NUL, and an address with a zone is one that the framework writes without; and
the event type and the user are still there. -/
structure Fits (env : Env) (e : Event) (eventType : EventType) (db : AuditDb) : Prop where
  requestId : e.requestId.length ≤ 64
  noNul : ∀ text ∈ e.requestId :: e.userAgent :: e.texts, '\x00' ∉ text
  address : ∀ ip ∈ e.clientIp env.unicode, '%' ∈ ip →
    IpAddress.plain (env.inet.prepare ip) = true
  eventType : (db.eventTypes.find eventType.id).isSome = true
  actor : ∀ u ∈ e.actor, (db.users.find u).isSome = true

/-! ## What the columns take -/

theorem noNul_iff (s : List Char) : noNul s = true ↔ '\x00' ∉ s := by simp [noNul]

@[simp] theorem noNul_nil : noNul [] = true := rfl

@[simp] theorem noNul_cons (c : Char) (s : List Char) :
    noNul (c :: s) = (decide (c ≠ '\x00') && noNul s) := by
  rw [Bool.eq_iff_iff, Bool.and_eq_true, noNul_iff, noNul_iff, decide_eq_true_eq, List.mem_cons,
    not_or, eq_comm]

@[simp] theorem noNul_append (s t : List Char) : noNul (s ++ t) = (noNul s && noNul t) := by
  simp [noNul]

@[simp] theorem noNul_str (n : Int) : noNul (str n) = true := by
  rw [noNul_iff]
  intro h
  obtain h | h := mem_str h
  · exact absurd h (by decide)
  · exact absurd h (by decide)

/-- A NUL in the route that a path was resolved by, or else in the path, is one in the
route that is written. -/
theorem noNul_resolveRoute {request : Request} {path : List Char} (h : noNul path = true) :
    noNul (resolveRoute request path) = noNul (request.route.getD []) := by
  simp only [resolveRoute]
  split
  · next hroute =>
    rw [hroute, h]
    rfl
  · split
    · rfl
    · simp [noNul]

theorem fitsColumn_iff (n : Nat) (s : List Char) :
    fitsColumn n s = true ↔ s.length ≤ n ∧ noNul s = true := by
  simp [fitsColumn, noNul]

theorem severityValue_fits (severity : Severity) :
    fitsColumn 16 (severityValue severity) = true := by
  cases severity <;> decide

/-- An address that is read from a header is one in its written form. -/
theorem normalizeIp_str {U : Unicode} {value : Option (List Char)} {ip : List Char}
    (h : normalizeIp U value = some ip) : ∃ a : IpAddress.Address, ip = a.str := by
  unfold normalizeIp at h
  simp only at h
  split at h
  · cases h
  · obtain ⟨a, _, rfl⟩ := Option.map_eq_some_iff.mp h
    exact ⟨a, rfl⟩

theorem firstIp_str {U : Unicode} {real forwarded peer : Option (List Char)} {ip : List Char}
    (h : ((normalizeIp U real).or (forwardedIp U forwarded)).or (normalizeIp U peer) = some ip) :
    ∃ a : IpAddress.Address, ip = a.str := by
  obtain h | ⟨_, h⟩ := Option.or_eq_some_iff.mp h
  · obtain h | ⟨_, h⟩ := Option.or_eq_some_iff.mp h
    · exact normalizeIp_str h
    · obtain ⟨part, _, hpart⟩ := List.exists_of_findSome?_eq_some h
      exact normalizeIp_str hpart
  · exact normalizeIp_str h

theorem clientIp_str {U : Unicode} {e : Event} {ip : List Char} (h : e.clientIp U = some ip) :
    ∃ a : IpAddress.Address, ip = a.str := by
  cases e with
  | api request path statusCode durationMs error => exact firstIp_str h
  | websocket scope user action => exact firstIp_str h

/-- Only a zone can keep an address out of its column. -/
theorem address_fits {env : Env} {e : Event}
    (h : ∀ ip ∈ e.clientIp env.unicode, '%' ∈ ip → IpAddress.plain (env.inet.prepare ip) = true) :
    ∀ ip ∈ e.clientIp env.unicode, IpAddress.plain (env.inet.prepare ip) = true := by
  intro ip hip
  by_cases hzone : '%' ∈ ip
  · exact h ip hip hzone
  · obtain ⟨a, rfl⟩ := clientIp_str hip
    exact env.inet.plain_prepare _ (IpAddress.plain_str hzone)

theorem metadataFits_append (m n : Metadata) :
    metadataFits (m ++ n) = (metadataFits m && metadataFits n) := List.all_append

theorem name_noNul (action : Action) : noNul action.name = true := by
  cases action <;> rfl

theorem action_metadataFits (action : Action) : metadataFits action.metadata = true := by
  cases action with
  | connect serverId => rfl
  | disconnect code serverId => cases serverId <;> rfl

/-- The message and the metadata repeat the texts of the request and add none with a NUL. -/
theorem written_iff (env : Env) (e : Event) (eventType : EventType) :
    noNul (e.log env eventType).message = true ∧ metadataFits (e.log env eventType).metadata = true ↔
      ∀ text ∈ e.texts, '\x00' ∉ text := by
  simp only [← noNul_iff]
  cases e with
  | api request path statusCode durationMs error =>
    have herror : (error.getD [] ≠ [] → noNul (error.getD []) = true) ↔
        noNul (error.getD []) = true := by
      by_cases h : error.getD [] = [] <;> simp [h]
    have hmetadata : metadataFits (apiMetadata request path statusCode durationMs error) = true ↔
        noNul request.method = true ∧ noNul path = true ∧
          noNul (resolveRoute request path) = true ∧
          noNul (request.headers.queryString.getD []) = true ∧ noNul (error.getD []) = true := by
      rw [← herror]
      simp [metadataFits, apiMetadata, Json.noNul]
    have hmessage : noNul (apiLog env request path statusCode durationMs error eventType).message =
        (noNul request.method && noNul (resolveRoute request path)) := by
      simp [apiLog]
    simp only [Event.log, Event.texts, List.forall_mem_cons, hmessage, Bool.and_eq_true]
    rw [show (apiLog env request path statusCode durationMs error eventType).metadata =
      apiMetadata request path statusCode durationMs error from rfl, hmetadata]
    by_cases hpath : noNul path = true
    · rw [noNul_resolveRoute hpath]
      simp only [hpath, List.not_mem_nil, false_implies, implies_true, and_true, true_and]
      tauto
    · simp [hpath]
  | websocket scope user action =>
    simp only [Event.log, websocketLog, Event.texts]
    rw [combinedMetadata, metadataFits_append, action_metadataFits]
    simp [metadataFits, Json.noNul, name_noNul]

theorem accepts_log_iff (env : Env) (e : Event) (eventType : EventType) (db : AuditDb) :
    accepts env.inet (e.log env eventType) db = true ↔ Fits env e eventType db := by
  have hlog : (e.log env eventType).actor = e.actor ∧
      (e.log env eventType).eventType = eventType.id ∧
      (e.log env eventType).severity = eventType.defaultSeverity ∧
      (e.log env eventType).source = .api ∧ (e.log env eventType).targetObjectId = none ∧
      (e.log env eventType).objectRepr = [] ∧
      (e.log env eventType).ipAddress = e.clientIp env.unicode ∧
      (e.log env eventType).userAgent = e.userAgent ∧
      (e.log env eventType).requestId = e.requestId := by
    cases e <;> exact ⟨rfl, rfl, rfl, rfl, rfl, rfl, rfl, rfl, rfl⟩
  obtain ⟨hactor, htype, hseverity, hsource, htarget, hrepr, hip, hagent, hid⟩ := hlog
  have hwritten := written_iff env e eventType
  simp only [accepts, hactor, htype, hseverity, hsource, htarget, hrepr, hip, hagent, hid,
    Bool.and_eq_true, severityValue_fits, fitsColumn_iff 64, Option.all_none, noNul_iff, Option.all_eq_true,
    show fitsColumn 16 Source.api.value = true by decide,
    show fitsColumn 255 [] = true by decide, and_assoc, true_and]
  rw [noNul_iff] at hwritten
  constructor
  · rintro ⟨hactor, htype, hmessage, haddress, hagent, hlength, hid, hmetadata⟩
    refine ⟨hlength, ?_, fun ip hip _ => haddress ip hip, htype, hactor⟩
    simp only [List.forall_mem_cons]
    exact ⟨hid, hagent, hwritten.mp ⟨hmessage, hmetadata⟩⟩
  · intro h
    obtain ⟨hid, hagent, htexts⟩ : '\x00' ∉ e.requestId ∧ '\x00' ∉ e.userAgent ∧
        ∀ text ∈ e.texts, '\x00' ∉ text := by
      simpa only [List.forall_mem_cons] using h.noNul
    obtain ⟨hmessage, hmetadata⟩ := hwritten.mpr htexts
    exact ⟨h.actor, h.eventType, hmessage, address_fits h.address, hagent, h.requestId, hid, hmetadata⟩

/-! ## What is recorded -/

theorem auditAs_logs {env : Env} {endpoint : Endpoint} {ip : Option (List Char)}
    {row : EventType → AuditLog} {s : State} {eventType : EventType}
    (h : (findMatchingEventType env.unicode env.clock endpoint ip s.db.eventTypes s.cache).1 =
      some eventType) :
    (auditAs env endpoint ip row s).db.auditLogs =
      s.db.auditLogs ++ if accepts env.inet (row eventType) s.db then [row eventType] else [] := by
  unfold auditAs
  split
  · next hnone =>
    rw [hnone] at h
    cases h
  · next hsome =>
    rw [hsome] at h
    cases h
    split
    · rfl
    · exact (List.append_nil _).symm

/-- A matched event leaves its row, or nothing. -/
theorem record_logs {env : Env} {e : Event} {s : State} {eventType : EventType}
    (h : e.matched env s = some eventType) :
    (e.record env s).db.auditLogs =
      s.db.auditLogs ++ if accepts env.inet (e.log env eventType) s.db then [e.log env eventType]
        else [] := by
  cases e with
  | api request path statusCode durationMs error => exact auditAs_logs h
  | websocket scope user action => exact auditAs_logs h

/-- A request to the site, with what answers it and what the clock says before and after,
or something on a web socket of a user. -/
inductive Incoming where
  | http (request : Request) (getResponse : State → Response × State) (start stop : Monotonic)
  | websocket (scope : Scope) (user : UserId) (action : Action)

namespace Incoming

def handle (env : Env) : Incoming → State → State
  | .http request getResponse start stop, s => (call env getResponse start stop request s).2
  | .websocket scope user action, s => auditWebsocketEvent env scope user action s

/-- What there is to record and the state it is recorded in, which for a request is that
after the response. -/
def event : Incoming → State → Option (Event × State)
  | .http request getResponse start stop, s =>
    let path := requestPath request
    if !shouldLogRequest path then none
    else
      let durationMs := (stop - start) / 10 ^ 6
      match getResponse s with
      | (.error exc, s) => some (.api request path 500 durationMs (some exc), s)
      | (.ok statusCode, s) => some (.api request path statusCode durationMs none, s)
  | .websocket scope user action, s => some (.websocket scope user action, s)

end Incoming

theorem handle_eq {env : Env} {i : Incoming} {s s' : State} {e : Event}
    (h : i.event s = some (e, s')) : i.handle env s = e.record env s' := by
  cases i with
  | websocket scope user action =>
    cases h
    rfl
  | http request getResponse start stop =>
    simp only [Incoming.event] at h
    simp only [Incoming.handle, call]
    split at h
    · cases h
    · next hlog =>
      rw [if_neg hlog]
      cases hr : getResponse s with
      | mk response s₁ =>
        rw [hr] at h
        cases response with
        | error exc =>
          cases h
          rfl
        | ok statusCode =>
          cases h
          rfl

/-- A request or a connection that an event type takes is recorded exactly when all of it
fits the columns. -/
theorem audited_iff (env : Env) (i : Incoming) (s s' : State) (e : Event) (eventType : EventType)
    (he : i.event s = some (e, s')) (hm : e.matched env s' = some eventType) :
    (i.handle env s).db.auditLogs = s'.db.auditLogs ++ [e.log env eventType] ↔
      Fits env e eventType s'.db := by
  rw [handle_eq he, record_logs hm, ← accepts_log_iff, List.append_right_inj]
  split
  · next h => exact ⟨fun _ => h, fun _ => rfl⟩
  · next h => exact ⟨fun hnil => absurd hnil (List.cons_ne_nil _ _).symm, fun ht => absurd ht h⟩

/-- The field of a framework that leaves addresses as they are. -/
def InetField.keep : InetField := ⟨id, fun _ h => h⟩

def testEnv : Env := { unicode := .ascii, inet := .keep, now := 0, clock := 0 }

def apiTest : EventType where
  id := 1
  key := "api_test".toList
  endpoints := ["/api/test/".toList]

def catalog : State := { db := { eventTypes := Table.empty.insert apiTest } }

/-- `GET /api/test/` with an `X-Request-ID`. -/
def testRequest (requestId : List Char) : Request where
  method := "GET".toList
  pathInfo := "/api/test/".toList
  path := "/api/test/".toList
  headers := { remoteAddr := some "203.0.113.5".toList, httpXRequestId := some requestId }

def getTest (requestId : List Char) : Incoming :=
  .http (testRequest requestId) (fun s => (.ok 200, s)) 0 0

def testEvent (requestId : List Char) : Event :=
  .api (testRequest requestId) "/api/test/".toList 200 0 none

theorem recorded_short :
    ((getTest "req-1".toList).handle testEnv catalog).db.auditLogs =
      [(testEvent "req-1".toList).log testEnv apiTest] := by
  refine (audited_iff testEnv (getTest "req-1".toList) catalog catalog (testEvent "req-1".toList)
    apiTest rfl (by decide +kernel)).mpr ⟨by decide, by decide, ?_, by decide, ?_⟩
  · decide +kernel
  · exact fun u hu => nomatch hu

/-- A request id of 65 characters keeps the request out of the log. -/
theorem unrecorded :
    (getTest (List.replicate 65 'a')).event catalog =
        some (testEvent (List.replicate 65 'a'), catalog) ∧
      (testEvent (List.replicate 65 'a')).matched testEnv catalog = some apiTest ∧
      apiTest ∈ catalog.db.eventTypes ∧
      ((getTest (List.replicate 65 'a')).handle testEnv catalog).db.auditLogs = [] := by
  refine ⟨rfl, by decide +kernel, by decide, by decide +kernel⟩

end Keywarden.AuditRecord
