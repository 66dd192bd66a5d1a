import Mathlib.Algebra.Group.Nat.Defs
import Keywarden.AccessExpiry
import Keywarden.Heartbeat

/-!
# Whether a server is shown as active

`_build_server_status` of `apps/servers/views.py`, and the five pages that call it. It reads the
age from which a server counts as inactive off the module's name `settings`. That name is bound
twice, by the import of the settings and then by the view of that name, so when a page is served it
is the view, which has no such attribute.
-/
namespace Keywarden.ServerStatus

open Rows Text Username Access AccessExpiry Heartbeat

/-! ## The names of the module -/

inductive Bound where
  /-- `django.conf.settings`. -/
  | settings
  | imported (name : String)
  | function (name : String)
  deriving DecidableEq, Repr

/-- The statements of `views.py` that bind a name, in their order. -/
def bindings : List (String × Bound) := [
  ("annotations", .imported "annotations"),
  ("timedelta", .imported "timedelta"),
  ("settings", .settings),
  ("login_required", .imported "login_required"),
  ("Q", .imported "Q"),
  ("Http404", .imported "Http404"),
  ("render", .imported "render"),
  ("timezone", .imported "timezone"),
  ("get_objects_for_user", .imported "get_objects_for_user"),
  ("get_perms", .imported "get_perms"),
  ("AccessRequest", .imported "AccessRequest"),
  ("render_system_username", .imported "render_system_username"),
  ("SSHKey", .imported "SSHKey"),
  ("Server", .imported "Server"),
  ("ServerAccount", .imported "ServerAccount"),
  ("user_can_shell", .imported "user_can_shell"),
  ("dashboard", .function "dashboard"),
  ("detail", .function "detail"),
  ("shell", .function "shell"),
  ("audit", .function "audit"),
  ("settings", .function "settings"),
  ("_get_server_or_404", .function "_get_server_or_404"),
  ("_load_account_context", .function "_load_account_context"),
  ("_format_age_short", .function "_format_age_short"),
  ("_build_server_status", .function "_build_server_status")]

/-- What the name is once the module is loaded: what it was bound to last. -/
def globalOf (name : String) : Option Bound :=
  (bindings.reverse.find? fun binding => binding.1 = name).map Prod.snd

/-- The attribute of an object, the configured value being one of the settings. -/
def attributeOf (configured : Int) : Bound → String → Option Int
  | .settings, name => if name = "KEYWARDEN_HEARTBEAT_STALE_SECONDS" then some configured else none
  | _, _ => none

/-- `getattr(settings, "KEYWARDEN_HEARTBEAT_STALE_SECONDS", 120)`. -/
def staleSeconds (configured : Int) : Int :=
  ((globalOf "settings").bind fun object =>
    attributeOf configured object "KEYWARDEN_HEARTBEAT_STALE_SECONDS").getD 120

/-! ## The status of a server -/

/-- `int(delta.total_seconds())` of a duration that is not negative. The quotient is a double: it
is rounded, ties to even, to a multiple of the last of its 53 bits. -/
def truncatedSeconds (microseconds : Nat) : Nat :=
  let scale := 2 ^ (52 - (microseconds / 1000000).log2)
  let quotient := microseconds * scale / 1000000
  let rest := microseconds * scale % 1000000
  let rounded := if 500000 < rest || (rest = 500000 && quotient % 2 = 1) then quotient + 1 else quotient
  rounded / scale

/-- `max(0, int(delta.total_seconds()))`. -/
def wholeSeconds (delta : Int) : Nat := if delta < 0 then 0 else truncatedSeconds delta.toNat

def formatAgeShort (delta : Int) : List Char :=
  let seconds := wholeSeconds delta
  let minutes := seconds / 60
  let hours := minutes / 60
  let days := hours / 24
  if seconds < 60 then str seconds ++ "s".toList
  else if minutes < 60 then str minutes ++ "m ".toList ++ str (seconds % 60) ++ "s".toList
  else if hours < 48 then
    str hours ++ "h ".toList ++ str (minutes % 60) ++ "m ".toList ++ str (seconds % 60) ++ "s".toList
  else if days < 14 then str days ++ "d ".toList ++ str (hours % 24) ++ "h".toList
  else str (days / 7) ++ "w ".toList ++ str (days % 7) ++ "d".toList

structure Status where
  isActive : Bool
  label : String
  detail : List Char
  pingMs : Option Int
  ageShort : List Char
  heartbeatAt : Option Instant
  deriving DecidableEq

def buildServerStatus (configured : Int) (server : ServerRow) (now : Instant) : Status :=
  let isActive := server.lastHeartbeatAt.any fun heartbeatAt =>
    (wholeSeconds (now - heartbeatAt) : Int) ≤ staleSeconds configured
  let ageShort := match server.lastHeartbeatAt with
    | some heartbeatAt => formatAgeShort (now - heartbeatAt)
    | none => "never".toList
  { isActive := isActive
    label := if isActive then "Active" else "Inactive"
    detail :=
      if isActive then
        match server.lastPingMs with
        | some pingMs => str pingMs ++ "ms".toList
        | none => "—".toList
      else ageShort
    pingMs := server.lastPingMs
    ageShort := ageShort
    heartbeatAt := server.lastHeartbeatAt }

/-! ## The pages -/

/-- The database, and the columns of the servers that heartbeats write. -/
structure Site where
  db : Db
  lastHeartbeatAt : ServerId → Option Instant
  lastPingMs : ServerId → Option Int

def Site.row (site : Site) (server : Server) : ServerRow :=
  { server with
    lastHeartbeatAt := site.lastHeartbeatAt server.id
    lastPingMs := site.lastPingMs server.id }

/-- A request for a page, and what the process that serves it has. -/
structure Visit where
  cfg : Settings
  caseTable : CaseTable
  /-- `KEYWARDEN_HEARTBEAT_STALE_SECONDS`. -/
  configured : Int
  caller : Caller
  now : Instant
  /-- The time when `user_can_shell` reads the clock itself. -/
  later : Instant
  /-- The access requests in the order the database reads them. -/
  rows : List AccessRequest
  isPopout : Bool

def Visit.status (v : Visit) (site : Site) (server : Server) : Status :=
  buildServerStatus v.configured (site.row server) v.now

variable {α β : Type}

def Response.map (f : α → β) : Response α → Response β
  | .login => .login
  | .notFound => .notFound
  | .page context => .page (f context)

def dashboard (v : Visit) (site : Site) : Response (List (Entry × Status)) :=
  Response.map (List.map fun entry => (entry, v.status site entry.server))
    (AccessExpiry.dashboard v.caller v.now v.rows site.db)

def detail (v : Visit) (serverId : Nat) (site : Site) : Response (Detail × Status) :=
  Response.map (fun context => (context, v.status site context.server))
    (AccessExpiry.detail v.cfg v.caseTable v.caller serverId v.now v.rows site.db)

structure ShellPage where
  server : Server
  systemUsername : List Char
  certificateKeyId : Option Nat
  shellTarget : List Char
  shellCommand : List Char
  certFilename : List Char
  isPopout : Bool
  canShell : Bool
  serverStatus : Status
  deriving DecidableEq

def shell (v : Visit) (serverId : Nat) (site : Site) : Response ShellPage :=
  match signedIn v.caller site.db with
  | none => .login
  | some user =>
    match getServerOr404 v.caller serverId site.db with
    | none => .notFound
    | some server =>
      if !Shell.userCanShell v.caller server.id v.later site.db then .notFound
      else
        let context := loadAccountContext v.cfg v.caseTable user server site.db
        let target := Shell.shellTarget server
        let certFilename := match context.certificateKeyId with
          | some keyId =>
            "keywarden-".toList ++ str user.id ++ "-".toList ++ str keyId ++ "-cert.pub".toList
          | none => []
        .page {
          server := server
          systemUsername := context.systemUsername
          certificateKeyId := context.certificateKeyId
          shellTarget := target
          shellCommand :=
            if target ≠ [] ∧ context.systemUsername ≠ [] ∧ context.certificateKeyId.isSome then
              "ssh -i /path/to/private_key ".toList ++
              "-o CertificateFile=~/Downloads/".toList ++ certFilename ++ " ".toList ++
              context.systemUsername ++ "@".toList ++ target ++ " -t /bin/bash".toList
            else []
          certFilename := certFilename
          isPopout := v.isPopout
          canShell := true
          serverStatus := v.status site server }

structure TabPage where
  server : Server
  activeTab : String
  canShell : Bool
  serverStatus : Status
  deriving DecidableEq

/-- The pages that show a tab alone. -/
def tabPage (activeTab : String) (v : Visit) (serverId : Nat) (site : Site) : Response TabPage :=
  match signedIn v.caller site.db with
  | none => .login
  | some _ =>
    match getServerOr404 v.caller serverId site.db with
    | none => .notFound
    | some server =>
      .page ⟨server, activeTab, Shell.userCanShell v.caller server.id v.later site.db,
        v.status site server⟩

def audit : Visit → Nat → Site → Response TabPage := tabPage "audit"

def settings : Visit → Nat → Site → Response TabPage := tabPage "settings"

inductive Page where
  | dashboard
  | detail (serverId : Nat)
  | shell (serverId : Nat)
  | audit (serverId : Nat)
  | settings (serverId : Nat)
  deriving DecidableEq, Repr

def Response.contexts : Response α → List α
  | .page context => [context]
  | _ => []

/-- The servers that a page shows, with their status. -/
def shown (v : Visit) (site : Site) : Page → List (Server × Status)
  | .dashboard => (Response.contexts (dashboard v site)).flatten.map fun e => (e.1.server, e.2)
  | .detail serverId => (Response.contexts (detail v serverId site)).map fun c => (c.1.server, c.2)
  | .shell serverId => (Response.contexts (shell v serverId site)).map fun c => (c.server, c.serverStatus)
  | .audit serverId => (Response.contexts (audit v serverId site)).map fun c => (c.server, c.serverStatus)
  | .settings serverId =>
    (Response.contexts (settings v serverId site)).map fun c => (c.server, c.serverStatus)

/-! ## The seconds are whole seconds -/

theorem le_truncatedSeconds (n : Nat) : n / 1000000 ≤ truncatedSeconds n := by
  have hscale : 0 < 2 ^ (52 - (n / 1000000).log2) := Nat.pow_pos (by decide)
  unfold truncatedSeconds
  generalize 2 ^ (52 - (n / 1000000).log2) = scale at hscale
  have hquotient : n * scale / 1000000 / scale = n / 1000000 := by
    rw [Nat.div_div_eq_div_mul, Nat.mul_div_mul_right _ _ hscale]
  rw [← hquotient]
  refine Nat.div_le_div_right ?_
  split <;> omega

/-- Up to 2^33 seconds there are more than a million doubles between one second and the next, so
no time is rounded up to the next second. -/
theorem truncatedSeconds_eq {n : Nat} (h : n / 1000000 < 2 ^ 33) :
    truncatedSeconds n = n / 1000000 := by
  refine Nat.le_antisymm ?_ (le_truncatedSeconds n)
  have hlog : (n / 1000000).log2 ≤ 32 := by
    by_cases hzero : n / 1000000 = 0
    · simp [hzero]
    · exact Nat.le_of_lt_succ ((Nat.log2_lt hzero).mpr h)
  have hscale : 2 ^ 20 ≤ 2 ^ (52 - (n / 1000000).log2) :=
    Nat.pow_le_pow_right (by decide) (by omega)
  unfold truncatedSeconds
  generalize 2 ^ (52 - (n / 1000000).log2) = scale at hscale
  have hlt : n * scale + scale ≤ (n / 1000000 + 1) * 1000000 * scale := by
    have hn : n + 1 ≤ (n / 1000000 + 1) * 1000000 := by omega
    calc n * scale + scale = (n + 1) * scale := by rw [Nat.add_mul, Nat.one_mul]
      _ ≤ (n / 1000000 + 1) * 1000000 * scale := Nat.mul_le_mul_right scale hn
  have hquotient : n * scale / 1000000 + 1 < (n / 1000000 + 1) * scale := by
    rw [Nat.mul_right_comm] at hlt
    generalize (n / 1000000 + 1) * scale = bound at hlt
    omega
  refine Nat.lt_add_one_iff.mp ((Nat.div_lt_iff_lt_mul (by omega)).mpr ?_)
  split <;> omega

/-- `max(0, floor(now - heartbeat))`, in seconds. -/
def age (now heartbeatAt : Instant) : Int := max 0 ((now - heartbeatAt) / 1000000)

theorem wholeSeconds_le_iff {now heartbeatAt : Instant} {m : Nat} (hm : m < 2 ^ 33) :
    wholeSeconds (now - heartbeatAt) ≤ m ↔ age now heartbeatAt ≤ m := by
  unfold wholeSeconds age
  generalize now - heartbeatAt = delta
  split
  · omega
  · next hneg =>
    have hle := le_truncatedSeconds delta.toNat
    by_cases hage : delta.toNat / 1000000 < 2 ^ 33
    · rw [truncatedSeconds_eq hage]
      omega
    · omega

/-! ## What the pages report -/

/-- The module's name `settings` is the view. -/
theorem globalOf_settings : globalOf "settings" = some (.function "settings") := by decide

/-- Whatever is configured, the default is used. -/
theorem staleSeconds_eq (configured : Int) : staleSeconds configured = 120 := by
  rw [staleSeconds, globalOf_settings]
  rfl

/-- A heartbeat exists, and it is no older than so many seconds. -/
def Fresh (seconds : Int) (now : Instant) (lastHeartbeatAt : Option Instant) : Prop :=
  ∃ heartbeatAt ∈ lastHeartbeatAt, age now heartbeatAt ≤ seconds

theorem isActive_iff (configured : Int) (server : ServerRow) (now : Instant) :
    (buildServerStatus configured server now).isActive = true ↔
      Fresh 120 now server.lastHeartbeatAt := by
  simp only [buildServerStatus, staleSeconds_eq, Option.any_eq_true, decide_eq_true_eq, Fresh,
    Option.mem_def]
  refine exists_congr fun heartbeatAt => and_congr_right fun _ => ?_
  exact Int.ofNat_le.trans (wholeSeconds_le_iff (by decide))

theorem mem_contexts_map {f : α → β} {r : Response α} {b : β}
    (h : b ∈ Response.contexts (Response.map f r)) : ∃ a, b = f a := by
  cases r with
  | login => cases h
  | notFound => cases h
  | page a => exact ⟨a, List.mem_singleton.mp h⟩

theorem tabPage_status {activeTab : String} {v : Visit} {serverId : Nat} {site : Site} {c : TabPage}
    (h : c ∈ Response.contexts (tabPage activeTab v serverId site)) :
    c.serverStatus = v.status site c.server := by
  unfold tabPage at h
  split at h
  · cases h
  · split at h
    · cases h
    · cases List.mem_singleton.mp h
      rfl

theorem shell_status {v : Visit} {serverId : Nat} {site : Site} {c : ShellPage}
    (h : c ∈ Response.contexts (shell v serverId site)) : c.serverStatus = v.status site c.server := by
  unfold shell at h
  split at h
  · cases h
  · split at h
    · cases h
    · split at h
      · cases h
      · cases List.mem_singleton.mp h
        rfl

/-- Every page shows the status that `_build_server_status` returns. -/
theorem shown_status {v : Visit} {site : Site} {page : Page} {server : Server} {status : Status}
    (h : (server, status) ∈ shown v site page) : status = v.status site server := by
  cases page with
  | dashboard =>
    obtain ⟨e, he, hmem⟩ := List.mem_map.mp h
    obtain ⟨entries, hentries, he⟩ := List.mem_flatten.mp he
    obtain ⟨read, rfl⟩ := mem_contexts_map hentries
    obtain ⟨entry, _, rfl⟩ := List.mem_map.mp he
    cases hmem
    rfl
  | detail serverId =>
    obtain ⟨c, hc, hmem⟩ := List.mem_map.mp h
    obtain ⟨context, rfl⟩ := mem_contexts_map hc
    cases hmem
    rfl
  | shell serverId =>
    obtain ⟨c, hc, hmem⟩ := List.mem_map.mp h
    cases hmem
    exact shell_status hc
  | audit serverId =>
    obtain ⟨c, hc, hmem⟩ := List.mem_map.mp h
    cases hmem
    exact tabPage_status hc
  | settings serverId =>
    obtain ⟨c, hc, hmem⟩ := List.mem_map.mp h
    cases hmem
    exact tabPage_status hc

/-- No heartbeat is older than one of the configured value and the default, and not older than the
other. -/
def Decided (configured : Int) (now : Instant) (lastHeartbeatAt : Option Instant) : Prop :=
  ∀ heartbeatAt ∈ lastHeartbeatAt,
    ¬ (min 120 configured < age now heartbeatAt ∧ age now heartbeatAt ≤ max 120 configured)

theorem fresh_default_iff {configured : Int} {now : Instant} {lastHeartbeatAt : Option Instant} :
    (Fresh 120 now lastHeartbeatAt ↔ Fresh configured now lastHeartbeatAt) ↔
      Decided configured now lastHeartbeatAt := by
  cases lastHeartbeatAt with
  | none => simp [Fresh, Decided]
  | some heartbeatAt =>
    simp only [Fresh, Decided, Option.mem_some_iff, exists_eq_left', forall_eq']
    omega

/-- A page shows a server as active by the configured value exactly when its heartbeat is on the
same side of the configured value and of the default. -/
theorem shown_isActive_iff {v : Visit} {site : Site} {page : Page} {server : Server}
    {status : Status} (h : (server, status) ∈ shown v site page) :
    (status.isActive = true ↔ Fresh v.configured v.now (site.lastHeartbeatAt server.id)) ↔
      Decided v.configured v.now (site.lastHeartbeatAt server.id) := by
  rw [shown_status h, Visit.status, isActive_iff]
  exact fresh_default_iff

/-- A heartbeat at the epoch. -/
def beating : Site := ⟨Shell.shellDb, fun _ => some 0, fun _ => some 12⟩

/-- Servers are to count as active for five minutes, and 200 seconds have passed. -/
def fiveMinutes : Visit :=
  ⟨Keys.workingEnv.cfg, .keep, 300, Shell.shellCaller, 200000000, 200000000, [], false⟩

def db1 : Server := ⟨1, "db1".toList, some "db1".toList, none, none, none, none, none⟩

theorem shown_fiveMinutes : (db1, fiveMinutes.status beating db1) ∈ shown fiveMinutes beating .dashboard ∧
    (fiveMinutes.status beating db1).isActive = false := by decide

/-- The dashboard shows it as inactive. -/
theorem configured_age_ignored : ¬ ∀ (v : Visit) (site : Site) (page : Page) (server : Server)
    (status : Status), (server, status) ∈ shown v site page →
      (status.isActive = true ↔ Fresh v.configured v.now (site.lastHeartbeatAt server.id)) := by
  intro h
  obtain ⟨hshown, hinactive⟩ := shown_fiveMinutes
  have hactive := (h _ _ _ _ _ hshown).mpr ⟨0, rfl, by decide⟩
  rw [hinactive] at hactive
  cases hactive

theorem shown_isActive_fiveMinutes :
    ((fiveMinutes.status beating db1).isActive = true ↔ Fresh 300 200000000 (some 0)) ↔
      Decided 300 200000000 (some 0) :=
  shown_isActive_iff shown_fiveMinutes.1

end Keywarden.ServerStatus
